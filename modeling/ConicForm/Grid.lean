import ConicForm.Tensor.Select
import ConicForm.Shape.Argument

/-!
# Address maps

The address map of a shape is the matrix whose entry `(i, j)` is the place of that entry in the column by
column order. Moving entries about in the map and reading it column by column lists the places from which
a value of that shape gathers the entries of the moved value.
-/

namespace ConicForm.Grid

/-- The first place is where there is none. -/
local instance zeroPlace : Zero Nat := ⟨0⟩

def ofShape (s : Shape) : Matrix Nat := Matrix.ofFn s.rows s.cols fun i j => j * s.rows + i

/-- The places counted up row by row in the transposed dimensions. -/
def counted (s : Shape) : Tensor Nat :=
  (Tensor.ofList (List.range (s.rows * s.cols))).withDims [s.cols, s.rows] (by
    simp [volume, Tensor.ofList, Nat.mul_comm])

theorem ofMatrix_ofShape (s : Shape) : Tensor.ofMatrix (ofShape s) = (counted s).transposed := by
  refine (Tensor.mk.injEq ..).mpr ⟨rfl, Array.ext ?_ fun k hk _ => ?_⟩
  · simp [ofShape, Matrix.ofFn, counted, Tensor.withDims, volume]
  · have hk : k < s.rows * s.cols := by simpa [Tensor.ofMatrix, Tensor.ofRows, ofShape, Matrix.ofFn] using hk
    have hc : 0 < s.cols := Nat.pos_of_ne_zero fun h0 => by simp [h0] at hk
    have hi : k / s.cols < s.rows := (Nat.div_lt_iff_lt_mul hc).2 hk
    have hlt : k % s.cols * s.rows + k / s.cols < s.rows * s.cols :=
      Nat.mul_comm s.cols s.rows ▸ Matrix.place_lt (Nat.mod_lt k hc) hi
    simp [ofShape, Matrix.ofFn, counted, Tensor.get, Tensor.withDims, Tensor.ofList, Tensor.place, Tensor.indexOf,
      volume, Array.getD_eq_getD_getElem?, hlt]

def diagonal (s : Shape) : List Nat := (ofShape s).diagonal

def selected (s : Shape) (rows cols : List Nat) : List Nat := ((ofShape s).submatrix rows cols).vec

def select (s : Shape) (index : List Selector) : Result (List Nat) := do
  return (← (Tensor.ofMatrix (ofShape s)).select index).vec

def transposed (s : Shape) : List Nat := (ofShape s).transposed.vec

/-- The places of `count` rows from row `start` on. -/
def band (s : Shape) (start count : Nat) : List Nat :=
  ((ofShape s).rowRange start (start + count)).vec

/-- The address map for two dimensions. Of one that is stated as one below zero, the places are as many
as fit: none, next to a dimension above zero. -/
def ofDimensions (rows cols : Int) : Result (List (List Nat)) :=
  if 0 ≤ rows ∧ 0 ≤ cols then .ok (ofShape ⟨rows.toNat, cols.toNat⟩).toRows
  else if rows = -1 ∧ cols = -1 then .error .cannotStretch
  else if rows = -1 ∧ 0 < cols then .ok []
  else if cols = -1 ∧ 0 < rows then .ok (List.replicate rows.toNat [])
  else if rows = -1 ∧ cols = 0 ∨ rows = 0 ∧ cols = -1 then .error .zeroDivisor
  else .error .wrongType

/-- The address map for a pair of integers. -/
def ofValue (v : Value) : Result (List (List Nat)) := do
  let (rows, cols) ← Shape.pair v
  match ← Slice.member rows, ← Slice.member cols with
  | some r, some c => ofDimensions r c
  | _, _ => throw .wrongType

end ConicForm.Grid
