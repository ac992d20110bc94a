/-!
# Matrix shapes

A shape is a pair of dimensions. Values are laid out column by column, so entry `(i, j)` of a value
with `rows` rows stands at place `j * rows + i`.
-/

namespace ConicForm

structure Shape where
  rows : Nat
  cols : Nat
deriving DecidableEq, Inhabited, Repr

namespace Shape

def scalar : Shape := ⟨1, 1⟩

def size (s : Shape) : Nat := s.rows * s.cols

def transposed (s : Shape) : Shape := ⟨s.cols, s.rows⟩

def isScalar (s : Shape) : Bool := s.rows == 1 && s.cols == 1

def isColumn (s : Shape) : Bool := s.cols == 1

def text (s : Shape) : String := "(" ++ toString s.rows ++ ", " ++ toString s.cols ++ ")"

@[simp] theorem size_transposed (s : Shape) : s.transposed.size = s.size :=
  Nat.mul_comm s.cols s.rows

@[simp] theorem transposed_transposed (s : Shape) : s.transposed.transposed = s := rfl

end Shape

end ConicForm
