import ConicForm.Node

/-!
# The value of an expression

What an expression states as mathematics: the matrix that it has for a value where each variable has a
given matrix. Blocks are one way to compute it; this is what they are to agree with.
-/

namespace ConicForm

variable {α : Type}

namespace Matrix

variable [Zero α]

/-- The first matrix to the left of the second, both of as many rows. -/
def beside (m n : Matrix α) : Matrix α :=
  ofFn m.rows (m.cols + n.cols) fun i j => if j < m.cols then m.get i j else n.get i (j - m.cols)

/-- Matrices of a common height, from left to right. -/
def sideBySide (rows : Nat) (ms : List (Matrix α)) : Matrix α := ms.foldr beside (zeros rows 0)

variable [Add α]

def sumEntries (m : Matrix α) : α := (m.toRows.map List.sum).sum

/-- The sum of matrices of one shape, entry by entry. -/
def sumOf (s : Shape) (ms : List (Matrix α)) : Matrix α :=
  ofFn s.rows s.cols fun i j => (ms.map fun m => m.get i j).sum

variable [Mul α]

/-- The product with a constant from the left, which is a factor if it has one entry. -/
def scaledLeft (m x : Matrix α) : Matrix α :=
  if m.shape.isScalar then x.map (m.get 0 0 * ·)
  else ofFn m.rows x.cols fun i j => ((List.range m.cols).map fun k => m.get i k * x.get k j).sum

/-- The product with a constant from the right, which is a factor if it has one entry. -/
def scaledRight (x m : Matrix α) : Matrix α :=
  if m.shape.isScalar then x.map (m.get 0 0 * ·)
  else ofFn x.rows m.cols fun i j => ((List.range m.rows).map fun k => x.get i k * m.get k j).sum

def weighted (w x : Matrix α) : Matrix α := ofFn x.rows x.cols fun i j => w.get i j * x.get i j

end Matrix

/-- The matrix of reals that an array with two axes stands for. -/
def Numbers.matrix [OfDouble α] (a : Numbers α) : Matrix α := a.toReals.asRows

namespace Slice

/-- The positions of a slice that selects any, and none otherwise. -/
def selection (s : Slice) (length : Nat) : List Nat :=
  match s.positions length with
  | .ok ps => ps
  | .error _ => []

end Slice

namespace Node

variable [Zero α] [Add α] [Neg α] [Mul α] [Div α] [OfDouble α]

/-- The value of a node from its payload, its shape and the values of its children; `x` gives the values
of the variables by their ids. A node that no builder makes has no entries. -/
def combine (x : Int → Matrix α) (kind : Kind) (shape : Shape) (data : Payload α)
    (operands : List (Matrix α)) : Matrix α :=
  let first := operands.headD (Matrix.zeros 0 0)
  match kind, data with
  | .variable, .loose (.int id) => x id
  | .scalarConst, .scalar c => Matrix.const 1 1 c
  | .denseConst, .array a => a.matrix
  | .param, .array a => a.matrix
  | .sum, _ => Matrix.sumOf shape operands
  | .neg, _ => first.map Neg.neg
  | .mul, .array a => a.matrix.scaledLeft first
  | .rmul, .array a => first.scaledRight a.matrix
  | .mulElem, .array a => a.matrix.weighted first
  | .div, .scalar d => first.map (· / d)
  | .promote, _ => Matrix.const shape.rows shape.cols (first.get 0 0)
  | .index, .selection rows cols =>
    first.submatrix (rows.selection first.rows) (cols.selection first.cols)
  | .transpose, _ => first.transposed
  | .sumEntries, _ => Matrix.const 1 1 first.sumEntries
  | .trace, _ => Matrix.const 1 1 first.diagonal.sum
  | .reshape, _ => Matrix.ofVec shape.rows shape.cols first.vec
  | .hstack, _ => Matrix.sideBySide shape.rows operands
  | .vstack, _ => Matrix.stack shape.cols operands
  | .noOp, _ => first
  | _, _ => Matrix.zeros 0 0

mutual

def value (x : Int → Matrix α) : Node α → Matrix α
  | ⟨_, kind, shape, children, data⟩ => combine x kind shape data (values x children)
termination_by structural n => n

def values (x : Int → Matrix α) : List (Node α) → List (Matrix α)
  | [] => []
  | n :: rest => value x n :: values x rest
termination_by structural ns => ns

end

end Node

end ConicForm
