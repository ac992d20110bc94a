import ConicForm.Matrix.Rows
import ConicForm.Program

/-!
# Residuals

How far a point is from meeting the rows of the zero cone, `A x = b`, and those of the orthant,
`A x ≤ b`, each as the norm of what is missing.
-/

namespace ConicForm

/-- What residuals are measured with. -/
class Measured (α : Type) where
  /-- The Euclidean norm. -/
  norm : List α → α
  /-- The larger of a number and zero; what is no number stays so. -/
  positivePart : α → α
  above : α → α → Bool

instance : Measured Float where
  norm x := Float.sqrt (x.map fun y => y * y).sum
  positivePart x := if x < 0 then 0 else x
  above x y := x > y

structure Residuals (α : Type) where
  eq : α
  ineq : α
  primal : α
deriving DecidableEq

namespace Program

variable {α : Type}

/-- Some rows of a program: their left sides and their right sides. -/
structure Part (α : Type) where
  A : Matrix α
  b : Numbers α
deriving DecidableEq

def part [Zero α] (p : Program α) (start stop : Int) : Part α :=
  ⟨p.A.sliceRows start stop, p.b.sliceRows start stop⟩

def equalities [Zero α] (p : Program α) : Option (Part α) :=
  if 0 < p.dims.zero then some (p.part 0 p.dims.zero) else none

/-- The rows whose left side must not be above the right one, if there are any. -/
def inequalities [Zero α] (p : Program α) : Option (Part α) :=
  if 0 < p.dims.nonneg then some (p.part p.dims.zero (p.dims.zero + p.dims.nonneg)) else none

variable [Zero α] [Add α] [Sub α] [Mul α] [OfDouble α] [Measured α]

/-- The left side of some rows less the right one. -/
def excess (rows : Part α) (x : List α) : Result (List α) := do
  let left ← rows.A.mulVec x
  return (← (Tensor.ofList left).zipWith (· - ·) rows.b.toReals).toList

def eqResidual (p : Program α) (x : List α) : Result α :=
  match p.equalities with
  | some rows => do return Measured.norm (← excess rows x)
  | none => .ok 0

def ineqResidual (p : Program α) (x : List α) : Result α :=
  match p.inequalities with
  | some rows => do return Measured.norm ((← excess rows x).map Measured.positivePart)
  | none => .ok 0

/-- The residual of the inequalities if it is above that of the equalities, which is the one reported
otherwise. -/
def residuals (p : Program α) (x : List α) : Result (Residuals α) := do
  let eq ← p.eqResidual x
  let ineq ← p.ineqResidual x
  return ⟨eq, ineq, if Measured.above ineq eq then ineq else eq⟩

end Program

end ConicForm
