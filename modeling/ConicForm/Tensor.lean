import ConicForm.Matrix

/-!
# Arrays of any rank

An array has a size along each of its axes and an entry at each index, stored so that the last index
moves fastest. `Tensor.ofFn` makes an array from its entries and `Tensor.get` reads them. The axes after
the first one may be run together: `asRows` sees an array as a matrix with one row for each place along
the first axis, and `ofRows` is the way back.
-/

namespace ConicForm

def volume : List Nat → Nat
  | [] => 1
  | d :: ds => d * volume ds

structure Tensor (α : Type) where
  dims : List Nat
  entries : Array α
  size_entries : entries.size = volume dims
deriving DecidableEq

namespace Tensor

variable {α β : Type}

/-- The place of the entry at an index among all entries. -/
def place : List Nat → List Nat → Nat
  | _ :: ds, i :: is => i * volume ds + place ds is
  | _, _ => 0

def indexOf : List Nat → Nat → List Nat
  | [], _ => []
  | _ :: ds, k => k / volume ds :: indexOf ds (k % volume ds)

def ofFn (dims : List Nat) (f : List Nat → α) : Tensor α where
  dims := dims
  entries := Array.ofFn fun k : Fin (volume dims) => f (indexOf dims k)
  size_entries := Array.size_ofFn

/-- The entry at an index, and zero where there is none. -/
def get [Zero α] (t : Tensor α) (index : List Nat) : α := t.entries.getD (place t.dims index) 0

def rank (t : Tensor α) : Nat := t.dims.length

def length (t : Tensor α) : Nat := t.dims.headD 1

def scalar (x : α) : Tensor α := ⟨[], #[x], rfl⟩

def ofList (xs : List α) : Tensor α := ⟨[xs.length], xs.toArray, by simp [volume]⟩

def toList (t : Tensor α) : List α := t.entries.toList

def withDims (t : Tensor α) (dims : List Nat) (h : volume dims = volume t.dims) : Tensor α :=
  ⟨dims, t.entries, by rw [t.size_entries, h]⟩

def map (f : α → β) (t : Tensor α) : Tensor β := ⟨t.dims, t.entries.map f, by simp [t.size_entries]⟩

def zeros [Zero α] (dims : List Nat) : Tensor α := ⟨dims, Array.replicate (volume dims) 0, by simp⟩

/-- One row for each place along the first axis; a single entry is one row. -/
def asRows (t : Tensor α) : Matrix α where
  rows := t.length
  cols := volume t.dims.tail
  entries := t.entries
  size_entries := by
    rw [t.size_entries, length]
    cases t.dims <;> simp [volume]

/-- The array with the rows of a matrix along its first axis, each with dimensions `tail`. -/
def ofRows (tail : List Nat) (m : Matrix α) (h : m.cols = volume tail) : Tensor α :=
  ⟨m.rows :: tail, m.entries, by rw [m.size_entries, h]; rfl⟩

def ofMatrix (m : Matrix α) : Tensor α := ofRows [m.cols] m (by simp [volume])

def transposed [Zero α] (t : Tensor α) : Tensor α :=
  ofFn t.dims.reverse fun index => t.get index.reverse

/-- The entries in the order in which the first index moves fastest. -/
def vec [Zero α] (t : Tensor α) : List α :=
  if t.rank = 2 then t.asRows.vec else t.transposed.toList

def shapeValue (t : Tensor α) : Value := .tuple (t.dims.map fun n : Nat => .int n)

/-- The array with two axes that a constant of no, one or two axes stands for: a number is one by one,
and a vector a column, or a row where that is asked for. -/
def asConstant (t : Tensor α) (vectorAsRow : Bool) : Result (Tensor α) :=
  match h : t.dims with
  | [] => .ok (t.withDims [1, 1] (by simp [h, volume]))
  | [n] => .ok (t.withDims (if vectorAsRow then [1, n] else [n, 1]) (by
      split <;> simp [h, volume]))
  | [_, _] => .ok t
  | _ => .error (.tooManyDimensions t.shapeValue)

@[simp] theorem dims_ofFn (dims : List Nat) (f : List Nat → α) : (ofFn dims f).dims = dims := rfl

@[simp] theorem dims_ofRows (tail : List Nat) (m : Matrix α) (h : m.cols = volume tail) :
    (ofRows tail m h).dims = m.rows :: tail := rfl

@[simp] theorem asRows_ofRows (tail : List Nat) (m : Matrix α) (h : m.cols = volume tail) :
    (ofRows tail m h).asRows = m := by
  cases m
  cases h
  rfl

/-- The entries with the first index moving fastest are those of the transpose with the last one doing so. -/
theorem vec_eq_toList_transposed [Zero α] (t : Tensor α) : t.vec = t.transposed.toList := by
  obtain ⟨_ | ⟨r, _ | ⟨c, _ | ⟨d, dims⟩⟩⟩, entries, hs⟩ := t
  case cons.cons.nil =>
    refine List.ext_getElem ?_ fun k hk _ => ?_
    · simp [vec, rank, Matrix.vec, asRows, length, toList, transposed, ofFn, volume, Nat.mul_comm]
    · have hcol : k / r < c := by
        refine Nat.div_lt_of_lt_mul ?_
        simpa [vec, rank, Matrix.vec, asRows, length, volume] using hk
      simp [vec, rank, Matrix.vec, Matrix.get, asRows, length, toList, transposed, ofFn, get, place, indexOf, volume,
        hcol]
  all_goals rfl

end Tensor

end ConicForm
