import ConicForm.Cone.Dims
import ConicForm.Cone.Grouping
import ConicForm.Variable.Occurrences

/-!
# Layouts

The layout of a problem fixes which expressions go to which cone, how many rows each cone has, the
columns of each variable, in ascending order of the ids, and the rows of each constraint.
-/

namespace ConicForm

structure Layout (α : Type) where
  members : ByCone (List (Node α))
  dims : ByCone (List Nat)
  offsets : List (Int × Int)
  shapes : List (Int × Shape)
  width : Nat
  /-- The rows of each constraint, in the order of the constraints. -/
  ranges : List RowRange

namespace Layout

variable {α : Type}

def coneDims (l : Layout α) : ConeDims :=
  let count (n : Nat) : Int := n
  ⟨count (l.dims.eq.headD 0), count (l.dims.leq.headD 0), l.dims.soc.map count,
    count (l.dims.exp.headD 0 / 3)⟩

def height (l : Layout α) : Nat := total (Cone.all.map fun c => total (l.dims.get c))

def ofProblem (objective : Node α) (constraints : List (Node α)) : Result (Layout α) := do
  let members ← classify constraints
  let dims ← dimensions members.groups
  let vars ← Variable.distinct (← objective.problemVariables constraints)
  let (offsets, width) ← Variable.assignOffsets vars
  let ranges ← rowRanges constraints (coneSizes dims)
  return ⟨members, dims, offsets, vars.map fun v => (v.id, v.shape), width.toNat, ranges⟩

def offsetOf (l : Layout α) (label : Label) : Option Int := do Keyed.get? l.offsets (← label.id?)

def summary (l : Layout α) : String :=
  "Canonicalized " ++ toString l.ranges.length ++ " constraints: " ++ toString l.shapes.length ++
    " variables (" ++ toString l.width ++ " columns), dims " ++ l.coneDims.text

end Layout

end ConicForm
