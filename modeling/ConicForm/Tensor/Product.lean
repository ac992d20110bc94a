import ConicForm.Tensor.Broadcast

/-!
# Products of arrays

The matrix product runs over the last axis of the first array and the last but one of the second; any
axes before these are combined like those of entry by entry operations. An array with one axis is a row
on the left, a column on the right, and its axis is gone from the product. In the Kronecker product every
entry of the first array is replaced by a multiple of the second.
-/

namespace ConicForm.Tensor

variable {α : Type} [Zero α] [Mul α]

/-- The dimensions of an array as the left operand of a product. -/
def asLeft (dims : List Nat) : List Nat := if dims.length = 1 then 1 :: dims else dims

/-- The dimensions of an array as the right operand of a product. -/
def asRight (dims : List Nat) : List Nat := if dims.length = 1 then dims ++ [1] else dims

theorem volume_append (a b : List Nat) : volume (a ++ b) = volume a * volume b := by
  induction a with
  | nil => simp [volume]
  | cons d ds ih => simp [volume, ih, Nat.mul_assoc]

theorem volume_asLeft (dims : List Nat) : volume (asLeft dims) = volume dims := by
  unfold asLeft
  split <;> simp [volume]

theorem volume_asRight (dims : List Nat) : volume (asRight dims) = volume dims := by
  unfold asRight
  split <;> simp [volume_append, volume]

/-- The dimension that is `back` places before the last one. -/
def fromLast (dims : List Nat) (back : Nat) : Nat := dims.reverse.getD back 0

def productOfStacks [Add α] (s t : Tensor α) : Result (Tensor α) :=
  match commonDimensions (s.dims.dropLast.dropLast) (t.dims.dropLast.dropLast) with
  | none => .error .cannotStretch
  | some batch =>
    let rows := fromLast s.dims 1
    let inner := fromLast s.dims 0
    let cols := fromLast t.dims 0
    if inner = fromLast t.dims 1 then
      .ok (ofFn (batch ++ [rows, cols]) fun index =>
        let b := index.take batch.length
        let i := index.getD batch.length 0
        let j := index.getD (batch.length + 1) 0
        ((List.range inner).map fun k =>
          s.getRepeated (b ++ [i, k]) * t.getRepeated (b ++ [k, j])).sum)
    else .error .mismatch

def withoutAdded (left right : Bool) (dims : List Nat) : List Nat :=
  let last := if right then [] else [fromLast dims 0]
  let rows := if left then [] else [fromLast dims 1]
  dims.dropLast.dropLast ++ rows ++ last

def product [Add α] (s t : Tensor α) : Result (Tensor α) := do
  if s.rank = 0 ∨ t.rank = 0 then throw .cannotStretch
  if s.rank = 2 ∧ t.rank ≤ 2 then
    if s.asRows.cols = t.length then
      return ofRows t.dims.tail (s.asRows.product t.asRows) rfl
    else throw .mismatch
  let p ← productOfStacks (s.withDims (asLeft s.dims) (volume_asLeft _))
    (t.withDims (asRight t.dims) (volume_asRight _))
  let dims := withoutAdded (s.rank = 1) (t.rank = 1) p.dims
  return ofFn dims fun index => p.entries.getD (place dims index) 0

/-- Dimensions with axes of one place in front, so that there are `rank` of them. -/
def padded (rank : Nat) (dims : List Nat) : List Nat :=
  List.replicate (rank - dims.length) 1 ++ dims

theorem volume_padded (rank : Nat) (dims : List Nat) : volume (padded rank dims) = volume dims := by
  rw [padded, volume_append]
  have h : ∀ n, volume (List.replicate n 1) = 1 := fun n => by
    induction n with
    | zero => rfl
    | succ n ih => simpa [List.replicate_succ, volume] using ih
  rw [h, Nat.one_mul]

/-- The Kronecker product of two arrays, the one with fewer axes being given more in front. -/
def kronecker (s t : Tensor α) : Tensor α :=
  let rank := max s.rank t.rank
  let a := s.withDims (padded rank s.dims) (volume_padded _ _)
  let b := t.withDims (padded rank t.dims) (volume_padded _ _)
  if rank = 2 then ofMatrix (a.asRows.kronecker b.asRows)
  else
    ofFn (List.zipWith (· * ·) a.dims b.dims) fun index =>
      a.get (List.zipWith (· / ·) index b.dims) * b.get (List.zipWith (· % ·) index b.dims)

end ConicForm.Tensor
