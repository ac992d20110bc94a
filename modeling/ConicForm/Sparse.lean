import ConicForm.Matrix

/-!
# Sparse matrices

A matrix by its columns from left to right, of which only the entries other than zero are stored, from
top to bottom.
-/

namespace ConicForm

structure Sparse (α : Type) where
  rows : Nat
  cols : Nat
  /-- Where the entries of each column begin among all, and their number at the end. -/
  starts : List Nat
  places : List Nat
  values : List α
deriving DecidableEq

namespace Sparse

variable {α : Type} [Zero α] [BEq α]

/-- The stored entries of a column with their rows. -/
def ofColumn (m : Matrix α) (j : Nat) : List (Nat × α) :=
  ((List.range m.rows).map fun i => (i, m.get i j)).filter fun e => !(e.2 == 0)

/-- The sums of the numbers before each place of a list and of all. -/
def partialSums (first : Nat) : List Nat → List Nat
  | [] => [first]
  | n :: rest => first :: partialSums (first + n) rest

def ofMatrix (m : Matrix α) : Sparse α :=
  let columns := (List.range m.cols).map (ofColumn m)
  let entries := columns.flatten
  { rows := m.rows
    cols := m.cols
    starts := partialSums 0 (columns.map List.length)
    places := entries.map Prod.fst
    values := entries.map Prod.snd }

end Sparse

end ConicForm
