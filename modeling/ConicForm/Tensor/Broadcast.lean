import ConicForm.Tensor

/-!
# Arrays of different dimensions

Arrays are combined entry by entry after their dimensions have been aligned at the last axis: along an
axis that only one of them has, and along one where it has a single place, an array is repeated.
-/

namespace ConicForm

/-- The dimension over which two are combined: a single place is repeated. -/
def commonDimension (a b : Nat) : Option Nat :=
  if a = b then some a else if a = 1 then some b else if b = 1 then some a else none

/-- The dimensions over which two are combined, all given from the last to the first. -/
def commonReversed : List Nat → List Nat → Option (List Nat)
  | [], ds => some ds
  | ds, [] => some ds
  | a :: as, b :: bs => do
    let d ← commonDimension a b
    return d :: (← commonReversed as bs)

def commonDimensions (a b : List Nat) : Option (List Nat) :=
  (commonReversed a.reverse b.reverse).map List.reverse

namespace Tensor

variable {α : Type} [Zero α]

/-- The index at which a repeated array with the given dimensions is read. -/
def repeatedIndex : List Nat → List Nat → List Nat
  | d :: ds, i :: is => (if d = 1 then 0 else i) :: repeatedIndex ds is
  | _, _ => []

/-- The entry at an index of the array as it is repeated over more or longer axes. -/
def getRepeated (t : Tensor α) (index : List Nat) : α :=
  t.get (repeatedIndex t.dims (index.drop (index.length - t.rank)))

def repeatTo (t : Tensor α) (dims : List Nat) : Result (Tensor α) :=
  if t.dims = dims then .ok t
  else if commonDimensions t.dims dims = some dims then .ok (ofFn dims t.getRepeated)
  else .error .cannotStretch

def combine (f : α → α → α) (s t : Tensor α) (h : s.dims = t.dims) : Tensor α :=
  ⟨s.dims, Array.zipWith f s.entries t.entries, by
    simp [s.size_entries, t.size_entries, h]⟩

/-- Why two arrays cannot be combined: between arrays with equally many axes, or with a single number,
no repetition was asked for. -/
def mismatch (s t : Tensor α) : Failure :=
  if s.rank = t.rank then .mismatch else .cannotStretch

def zipWith (f : α → α → α) (s t : Tensor α) : Result (Tensor α) :=
  if h : s.dims = t.dims then .ok (combine f s t h)
  else if s.rank = 0 then .ok (t.map (f (s.get [])))
  else
    match commonDimensions s.dims t.dims with
    | some dims => .ok (ofFn dims fun index => f (s.getRepeated index) (t.getRepeated index))
    | none => .error (mismatch s t)

end Tensor

end ConicForm
