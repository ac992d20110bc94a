import ConicForm.Failure

/-!
# Equality and order of loose values

`Value.equal` says when two values count as equal: numbers by what they are worth, sequences item by item.
A word beside a sequence is compared with every item, which answers nothing unless there is just one, and
fails if the sequence has no dimensions.
`Value.relation` says how two values stand to each other where they have an order.
-/

namespace ConicForm

/-- How two things stand to each other. A number and what is no number have no order. -/
inductive Relation where
  | less
  | equal
  | greater
  | unordered
deriving DecidableEq, Repr

namespace Relation

def ofOrdering : Ordering → Relation
  | .lt => .less
  | .eq => .equal
  | .gt => .greater

def isLess (r : Relation) : Bool := r == .less

def isLessOrEqual (r : Relation) : Bool := r == .less || r == .equal

def isGreater (r : Relation) : Bool := r == .greater

def isGreaterOrEqual (r : Relation) : Bool := r == .greater || r == .equal

def swapped : Relation → Relation
  | .less => .greater
  | .greater => .less
  | r => r

end Relation

namespace Double

/-- The double nearest to an integer; an infinity past the largest. -/
def nearest (n : Int) : Double :=
  (ofInt? n).getD (if n < 0 then ofFloat (-infinity.toFloat) else infinity)

/-- How two doubles stand to each other; both zeros are equal. -/
def relation (x y : Double) : Relation :=
  if x.toFloat < y.toFloat then .less
  else if x.toFloat == y.toFloat then .equal
  else if y.toFloat < x.toFloat then .greater
  else .unordered

/-- How an integer stands to a double, without rounding. -/
def relationOfInt (n : Int) (x : Double) : Relation :=
  if x.isNaN then .unordered
  else if x.isInfinite then (if x.negative then .greater else .less)
  else
    let magnitude : Int := (x.significand * Nat.pow 2 x.scale : Nat)
    .ofOrdering (compare (n * (Nat.pow 2 1074 : Nat)) (if x.negative then -magnitude else magnitude))

end Double

namespace Value

/-- Whether two values that are no sequences count as equal; a word beside a real is rounded first. -/
def atomEqual (a b : Value) : Bool :=
  match a, b with
  | .word n, .real x => (Double.nearest n).relation x == .equal
  | .real x, .word n => (Double.nearest n).relation x == .equal
  | a, b =>
    match a.integral?, b.integral? with
    | some m, some n => m == n
    | Option.none, Option.none =>
      match a, b with
      | .real x, .real y => x.relation y == .equal
      | .text s, .text t => s == t
      | .none, .none => true
      | _, _ => false
    | _, _ => false

mutual

/-- The dimensions of nested sequences as far as they are alike at every level. -/
def evenDimensions : Value → List Nat
  | .tuple vs => vs.length :: evenPart vs
  | .list vs => vs.length :: evenPart vs
  | _ => []

/-- The first dimensions that values have in common. -/
def evenPart : List Value → List Nat
  | [] => []
  | [v] => evenDimensions v
  | v :: rest =>
    (((evenDimensions v).zip (evenPart rest)).takeWhile fun p => p.1 == p.2).map Prod.fst

end

/-- Whether a word equals the only item of a sequence. -/
def wordEqual (n : Int) (sequence : Value) : Result Bool :=
  match sequence.dimensions?, sequence.atoms with
  | Option.none, _ => .error (.unevenSequence (evenDimensions sequence))
  | _, [] => .error .emptyTruth
  | _, [v] => .ok (atomEqual (.word n) v)
  | _, _ => .error .ambiguousTruth

mutual

/-- Whether two values count as equal; a tuple is never like a list. -/
def equal (a b : Value) : Result Bool :=
  match a, b with
  | .tuple xs, .tuple ys => equalAll xs ys
  | .list xs, .list ys => if xs.length = ys.length then equalAll xs ys else .ok false
  | .slice a b c, .slice a' b' c' => do
    if ← equal a a' then
      if ← equal b b' then equal c c' else return false
    else return false
  | .record names xs, .record names' ys =>
    if names = names' then equalAll xs ys else .ok false
  | .word n, .tuple ys => wordEqual n (.tuple ys)
  | .word n, .list ys => wordEqual n (.list ys)
  | .tuple xs, .word n => wordEqual n (.tuple xs)
  | .list xs, .word n => wordEqual n (.list xs)
  | a, b => .ok (atomEqual a b)

/-- Whether two sequences have equal items, of which the first that differ decide. -/
def equalAll : List Value → List Value → Result Bool
  | [], [] => .ok true
  | x :: xs, y :: ys => do if ← equal x y then equalAll xs ys else return false
  | _, _ => .ok false

end

/-- How two numbers stand to each other, if they are numbers. -/
def numberRelation? (a b : Value) : Option Relation :=
  match a, b with
  | .real x, .real y => some (x.relation y)
  | .word n, .real y => some ((Double.nearest n).relation y)
  | .real x, .word n => some (x.relation (Double.nearest n))
  | .real x, b => b.integral?.map fun n => (Double.relationOfInt n x).swapped
  | a, .real y => a.integral?.map fun m => Double.relationOfInt m y
  | a, b => do return .ofOrdering (compare (← a.integral?) (← b.integral?))

mutual

/-- How two values stand to each other. Numbers, texts, tuples and lists have an order among their
like. -/
def relation (a b : Value) : Result Relation :=
  match a, b with
  | .text s, .text t => .ok (.ofOrdering (compare s t))
  | .tuple xs, .tuple ys => relationOfAll xs ys
  | .list xs, .list ys => relationOfAll xs ys
  | a, b =>
    match numberRelation? a b with
    | some r => .ok r
    | Option.none => .error .wrongType

/-- How two sequences stand to each other: as their first items that differ, or as their lengths. -/
def relationOfAll : List Value → List Value → Result Relation
  | [], [] => .ok .equal
  | [], _ :: _ => .ok .less
  | _ :: _, [] => .ok .greater
  | x :: xs, y :: ys => do if ← equal x y then relationOfAll xs ys else relation x y

end

end Value

end ConicForm
