import ConicForm.Double

/-!
# Loose values

What a caller may hand over where an integer, a shape, an index or a number is expected. A `word` is a
machine integer: it counts as an integer for shapes and indices but is not one for variable ids, and
its products wrap to sixty-four bits.
-/

namespace ConicForm

inductive Value where
  | int (n : Int)
  | word (n : Int)
  | real (x : Double)
  | truth (b : Bool)
  | text (s : String)
  | none
  | tuple (items : List Value)
  | list (items : List Value)
  | slice (start stop step : Value)
  /-- Items by name, in order. -/
  | record (names : List String) (items : List Value)
deriving Inhabited, Repr

namespace Value

mutual

def decEq (a b : Value) : Decidable (a = b) :=
  if h : a.ctorIdx = b.ctorIdx then
    match a, b, h with
    | .int m, .int n, _ => if e : m = n then isTrue (e ▸ rfl) else isFalse fun x => e (int.inj x)
    | .word m, .word n, _ => if e : m = n then isTrue (e ▸ rfl) else isFalse fun x => e (word.inj x)
    | .real m, .real n, _ => if e : m = n then isTrue (e ▸ rfl) else isFalse fun x => e (real.inj x)
    | .truth m, .truth n, _ =>
      if e : m = n then isTrue (e ▸ rfl) else isFalse fun x => e (truth.inj x)
    | .text m, .text n, _ => if e : m = n then isTrue (e ▸ rfl) else isFalse fun x => e (text.inj x)
    | .none, .none, _ => isTrue rfl
    | .tuple m, .tuple n, _ =>
      match decEqAll m n with
      | isTrue e => isTrue (e ▸ rfl)
      | isFalse e => isFalse fun x => e (tuple.inj x)
    | .list m, .list n, _ =>
      match decEqAll m n with
      | isTrue e => isTrue (e ▸ rfl)
      | isFalse e => isFalse fun x => e (list.inj x)
    | .slice a b c, .slice a' b' c', _ =>
      match decEq a a', decEq b b', decEq c c' with
      | isTrue e, isTrue f, isTrue g => isTrue (e ▸ f ▸ g ▸ rfl)
      | isFalse e, _, _ => isFalse fun x => e (slice.inj x).1
      | _, isFalse e, _ => isFalse fun x => e (slice.inj x).2.1
      | _, _, isFalse e => isFalse fun x => e (slice.inj x).2.2
    | .record m xs, .record n ys, _ =>
      if e : m = n then
        match decEqAll xs ys with
        | isTrue f => isTrue (e ▸ f ▸ rfl)
        | isFalse f => isFalse fun x => f (record.inj x).2
      else isFalse fun x => e (record.inj x).1
  else isFalse fun x => h (x ▸ rfl)

def decEqAll (a b : List Value) : Decidable (a = b) :=
  match a, b with
  | [], [] => isTrue rfl
  | [], _ :: _ => isFalse nofun
  | _ :: _, [] => isFalse nofun
  | x :: xs, y :: ys =>
    match decEq x y, decEqAll xs ys with
    | isTrue e, isTrue f => isTrue (e ▸ f ▸ rfl)
    | isFalse e, _ => isFalse fun h => e (List.cons.inj h).1
    | _, isFalse e => isFalse fun h => e (List.cons.inj h).2

end

instance : DecidableEq Value := decEq

/-- The integer that a value counts as in a shape or an index. -/
def index? : Value → Option Int
  | .int n => some n
  | .word n => some n
  | _ => Option.none

/-- The number that a truth value stands for where it is used as one. -/
def ofBool (b : Bool) : Int := if b then 1 else 0

/-- The exact integer of a value that is numerically one. -/
def integral? : Value → Option Int
  | .int n => some n
  | .word n => some n
  | .truth b => some (ofBool b)
  | .real x => x.toInt?
  | _ => Option.none

/-- The remainder of an integer in the range of signed sixty-four bit words. -/
def wrapWord (n : Int) : Int := Int.bmod n (Nat.pow 2 64)

/-- Whether an integer is such a word. -/
def isWord (n : Int) : Bool := wrapWord n == n

mutual

/-- The innermost items of nested sequences, in order. -/
def atoms : Value → List Value
  | .tuple vs => allAtoms vs
  | .list vs => allAtoms vs
  | v => [v]

def allAtoms : List Value → List Value
  | [] => []
  | v :: rest => atoms v ++ allAtoms rest

end

mutual

/-- The dimensions of nested sequences that are alike at every level. -/
def dimensions? : Value → Option (List Nat)
  | .tuple vs => commonDimensions? vs
  | .list vs => commonDimensions? vs
  | _ => some []

/-- The dimensions of a sequence of values with the same dimensions. -/
def commonDimensions? : List Value → Option (List Nat)
  | [] => some [0]
  | [v] => (dimensions? v).map (1 :: ·)
  | v :: rest => do
    let d ← dimensions? v
    match ← commonDimensions? rest with
    | n :: e => if d = e then some ((n + 1) :: d) else Option.none
    | [] => Option.none

end

end Value

end ConicForm
