import ConicForm.Solution

/-!
# Leaves

The numbers of a block, a program or a solution are held in leaves, which have a fixed order: tables are
gone through in the order of their keys. Scaling multiplies every leaf by one factor.
-/

namespace ConicForm

variable {α : Type}

inductive Leaf (α : Type) where
  | array (a : Numbers α)
  | loose (v : Value)
deriving DecidableEq

namespace Leaf

def scalar (x : α) : Leaf α := .array (.reals (.scalar x))

def column (x : List α) : Leaf α := .array (.reals (.ofList x))

def matrix (m : Matrix α) : Leaf α := .array (.reals (.ofMatrix m))

end Leaf

def sortedBy {κ β : Type} (le : κ → κ → Bool) (entries : List (κ × β)) : List (κ × β) :=
  entries.mergeSort fun a b => le a.1 b.1

namespace Value

mutual

/-- The leaves of a loose value: those of its items, and none where nothing is. -/
def leaves : Value → List Value
  | .none => []
  | .tuple items => allLeaves items
  | .list items => allLeaves items
  | v => [v]

def allLeaves : List Value → List Value
  | [] => []
  | v :: rest => leaves v ++ allLeaves rest

end

mutual

def scaled (v factor : Value) : Result Value :=
  match v with
  | .none => .ok .none
  | .tuple items => do return .tuple (← allScaled items factor)
  | .list items => do return .list (← allScaled items factor)
  | v => v.times factor

def allScaled (vs : List Value) (factor : Value) : Result (List Value) :=
  match vs with
  | [] => .ok []
  | v :: rest => do
    let w ← scaled v factor
    return w :: (← allScaled rest factor)

end

/-- The number that a leaf is read as; a text that spells none is unreadable. -/
def reading (v : Value) : Result Double :=
  match v.toReal with
  | .error (.notANumeral _) => .error .unreadable
  | r => r

end Value

/-- Reals multiplied by a factor for arrays. -/
def Numbers.scaledReals [Zero α] [Mul α] [OfDouble α] (factor : Numbers α) (x : α) : α :=
  x * factor.toReals.get []

namespace Block

def leaves (b : Block α) : Result (List (Leaf α)) := do
  return (← Label.sorted b.coeffs).map (fun e => .array (.reals e.2)) ++ [.array b.offset]

def scaled [Zero α] [Mul α] [OfDouble α] (b : Block α) (factor : Value) : Result (Block α) := do
  Block.scaleOf ⟨← Label.sorted b.coeffs, b.offset⟩ factor

end Block

namespace Program

def leaves (p : Program α) : List (Leaf α) := [.column p.c, .array p.d, .matrix p.A, .array p.b]

def scaled [Zero α] [Mul α] [OfDouble α] (p : Program α) (factor : Value) : Result (Program α) := do
  let f : Numbers α ← Numbers.ofFactor factor
  let d ← p.d.times f
  let b ← p.b.times f
  return { p with c := p.c.map f.scaledReals, d, A := p.A.map f.scaledReals, b }

end Program

namespace Optimum

/-- The reported value as a scalar or as the loose value that was stated. -/
def leaf [Neg α] [OfDouble α] : Optimum α → Leaf α
  | .value x => .scalar x
  | .infinite negative => .scalar (if negative then -infinity α else infinity α)
  | .undefined => .scalar (notANumber α)
  | .stated v => .loose v

def reading [Neg α] [OfDouble α] : Optimum α → Result α
  | .value x => .ok x
  | .infinite negative => .ok (if negative then -infinity α else infinity α)
  | .undefined => .ok (notANumber α)
  | .stated v => do return ofDouble (← v.reading)

def scaled [Neg α] [Mul α] [OfDouble α] (o : Optimum α) (factor : Value) : Result (Optimum α) :=
  match o with
  | .stated v => do return .stated (← v.scaled factor)
  | o => do
    let x ← o.reading
    return .value (x * ofDouble (← factor.number))

end Optimum

namespace Detail

def leaves : Detail α → List (Leaf α)
  | .loose v => v.leaves.map .loose
  | .number x => [.scalar x]
  | .pieces ps => ps.map .column

def scaled [Zero α] [Mul α] [OfDouble α] (detail : Detail α) (factor : Value) : Result (Detail α) :=
  match detail with
  | .loose v => do return .loose (← v.scaled factor)
  | .number x => do return .number (x * ofDouble (← factor.number))
  | .pieces ps => do
    if ps.isEmpty then return .pieces []
    let f : Numbers α ← Numbers.ofFactor factor
    return .pieces (ps.map fun p => p.map f.scaledReals)

end Detail

namespace Solution

def labelOrder (a b : NamedCone) : Bool := a.label ≤ b.label

def leaves [Neg α] [OfDouble α] (s : Solution α) : List (Leaf α) :=
  [s.optimum.leaf] ++ (sortedBy (· ≤ ·) s.primal).map (fun e => .matrix e.2) ++
    (sortedBy labelOrder s.dual).map (fun e => .column e.2) ++
    (sortedBy (· ≤ ·) s.info).flatMap fun e => e.2.leaves

def scaled [Zero α] [Neg α] [Mul α] [OfDouble α] (s : Solution α) (factor : Value) :
    Result (Solution α) := do
  let optimum ← s.optimum.scaled factor
  let primal ← (sortedBy (· ≤ ·) s.primal).mapM fun e => do
    let f : Numbers α ← Numbers.ofFactor factor
    return (e.1, e.2.map f.scaledReals)
  let dual ← (sortedBy labelOrder s.dual).mapM fun e => do
    let f : Numbers α ← Numbers.ofFactor factor
    return (e.1, e.2.map f.scaledReals)
  let info ← (sortedBy (· ≤ ·) s.info).mapM fun e => do return (e.1, ← e.2.scaled factor)
  return ⟨s.status, optimum, primal, dual, info⟩

end Solution

end ConicForm
