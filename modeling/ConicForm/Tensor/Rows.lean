import ConicForm.Matrix.Rows
import ConicForm.Tensor.Broadcast

/-!
# Rows of an array

Taking, putting and joining along the first axis, all axes after which count as the row.
-/

namespace ConicForm.Tensor

variable {α : Type} [Zero α]

/-- The rows at the given places. An array without rows has none to give, unless nothing is asked for. -/
def takeRows (t : Tensor α) (places : List Nat) : Result (Tensor α) :=
  if t.rank = 0 then .error .missingPosition
  else if t.length = 0 ∧ places.length * t.asRows.cols ≠ 0 then .error .wrongType
  else .ok (ofRows t.dims.tail (t.asRows.gatherRows places) rfl)

def row (t : Tensor α) (place : Nat) : Tensor α :=
  ofFn t.dims.tail fun index => t.get (place :: index)

/-- The array of `size` rows of dimensions `tail`, with the rows of `t` at the given places and zeros
elsewhere. The places have dimensions of their own, over which and over the row `t` is repeated. -/
def putRows (t : Tensor α) (tail : List Nat) (places : Tensor (Option Nat)) (size : Nat) :
    Result (Tensor α) := do
  if places.entries.size * volume tail = 0 then return zeros (size :: tail)
  let r ← t.repeatTo (places.dims ++ tail)
  let rows := Matrix.ofFn places.entries.size (volume tail) fun i j =>
    r.entries.getD (i * volume tail + j) 0
  return ofRows tail (rows.scatterRows places.toList size) rfl

/-- The rows of at least one array, one array after the other. Their rows must be alike. -/
def joinRows (ts : List (Tensor α)) : Result (Tensor α) :=
  match ts with
  | [] => .error .nothingToJoin
  | t :: _ =>
    if t.rank = 0 then .error .nothingToJoin
    else if ts.all fun u => u.rank == t.rank && u.dims.tail == t.dims.tail then
      .ok (ofRows t.dims.tail (Matrix.stack (volume t.dims.tail) (ts.map asRows))
        (Matrix.cols_stack _ _))
    else .error .mismatch

def sliceRows (t : Tensor α) (start stop : Int) : Tensor α :=
  ofRows t.dims.tail (t.asRows.sliceRows start stop) rfl

/-- Adds an array, repeated where that is needed, to the columns of a matrix from `start` to before
`stop`. Nothing is asked of it where there is nothing to add to. -/
def addColumns [Add α] (m : Matrix α) (start stop : Int) (t : Tensor α) : Result (Matrix α) := do
  let places := Axis.window m.cols start stop
  if m.rows * places.length = 0 then return m
  let r ← t.repeatTo [m.rows, places.length]
  return m.addColumns (places.map some) r.asRows

end ConicForm.Tensor
