import ConicForm.Axis
import ConicForm.Matrix

/-!
# Rows of a matrix

Taking rows from their places and putting rows to places. Of two rows put to one place the later stays.
-/

namespace ConicForm.Matrix

variable {α : Type} [Zero α]

def gatherRows (m : Matrix α) (places : List Nat) : Matrix α :=
  ofFn places.length m.cols fun i j => m.get (places.getD i 0) j

/-- The matrix of `size` rows with row `k` of `m` at the `k`-th place, if it has one, and zeros
elsewhere. -/
def scatterRows (m : Matrix α) (places : List (Option Nat)) (size : Nat) : Matrix α :=
  ofFn size m.cols fun i j =>
    match Axis.lastIndexOf? i places with
    | some k => m.get k j
    | none => 0

/-- The rows from `start` to before `stop`, where positions below zero count from the end. -/
def sliceRows (m : Matrix α) (start stop : Int) : Matrix α :=
  m.rowRange (Axis.cut m.rows start) (Axis.cut m.rows stop)

/-- Adds the columns of `n` to the columns at the given places. -/
def addColumns [Add α] (m : Matrix α) (places : List (Option Nat)) (n : Matrix α) : Matrix α :=
  ofFn m.rows m.cols fun i j =>
    match Axis.lastIndexOf? j places with
    | some k => m.get i j + n.get i k
    | none => m.get i j

@[simp] theorem cols_gatherRows (m : Matrix α) (places : List Nat) :
    (m.gatherRows places).cols = m.cols := rfl

@[simp] theorem cols_scatterRows (m : Matrix α) (places : List (Option Nat)) (size : Nat) :
    (m.scatterRows places size).cols = m.cols := rfl

end ConicForm.Matrix
