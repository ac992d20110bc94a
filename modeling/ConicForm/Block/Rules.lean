import ConicForm.Block
import ConicForm.Grid
import ConicForm.Node
import ConicForm.Shape.Argument

/-!
# The block of each kind of node

Each kind of node has a rule that makes its block, the affine map from the variables to its value column
by column, from the blocks of its children. The kinds that move entries about are gathers along the
address map of a shape, and products with constants are Kronecker products with an identity.
-/

namespace ConicForm

variable {α : Type}

namespace Payload

def numbers [OfDouble α] : Payload α → Result (Numbers α)
  | .array a => .ok a
  | .doubles t => .ok (.ofDoubles t)
  | .scalar x => .ok (.reals (.scalar x))
  | .loose v => Numbers.ofValue v
  | .selection _ _ => .error .wrongType

/-- The number or array whose entries fill the places of a constant. -/
def filler [OfDouble α] : Payload α → Result (Numbers α)
  | .array a => .ok a
  | .doubles t => .ok (.ofDoubles t)
  | .scalar x => .ok (.reals (.scalar x))
  | .loose v => Numbers.ofFactor v
  | .selection _ _ => .error .wrongType

/-- One over a number, or over every entry of an array; only a loose number is told apart from zero. -/
def reciprocal [One α] [Div α] [OfDouble α] (data : Payload α) : Result (Numbers α) :=
  let inverse (t : Tensor α) : Numbers α := .reals (t.map (1 / ·))
  match data with
  | .scalar x => .ok (inverse (.scalar x))
  | .array a => .ok (inverse a.toReals)
  | .doubles t => .ok (inverse (t.map ofDouble))
  | .loose (.word n) => .ok (inverse (.scalar (ofDouble (Double.nearest n))))
  | .loose v => do
    let x ← v.number
    if x.isZero then throw .zeroDivisor
    return inverse (.scalar (ofDouble x))
  | .selection _ _ => .error .wrongType

def label (data : Payload α) : Result Label :=
  match data with
  | .loose v => Label.ofValue v
  | _ => .error .wrongType

/-- Two selectors, for the rows and for the columns. -/
def selectors (data : Payload α) : Result (List Value) :=
  match data with
  | .loose v => do
    let (rows, cols) ← Shape.pair v
    return [rows, cols]
  | .doubles t =>
    match t.dims with
    | [] => .error .wrongType
    | 2 :: _ => .error .wrongType
    | 0 :: _ => .error (.notEnoughItems 0)
    | 1 :: _ => .error (.notEnoughItems 1)
    | _ => .error .tooManyItems
  | _ => .error .wrongType

end Payload

namespace Block

def operand (blocks : List (Block α)) : Result (Block α) :=
  match blocks with
  | b :: _ => .ok b
  | [] => .error .missingPosition

def operandShape (n : Node α) : Result Shape :=
  match n.children with
  | x :: _ => .ok x.shape
  | [] => .error .missingPosition

def unsupported (n : Node α) : Failure := .unsupportedNode n.kind.name n.shape n.kind.isConstraint

variable [Zero α] [One α]

def ofVariable (label : Label) (size : Nat) : Block α :=
  ⟨[(label, .ofMatrix (Matrix.identity size))], .reals (.zeros [size])⟩

def ones (size : Nat) : Tensor α := .ofMatrix (Matrix.const 1 size 1)

def identity (size : Nat) : Tensor α := .ofMatrix (Matrix.identity size)

/-- The block of a constant column by column, as reals. -/
def ofConstant [Mul α] [OfDouble α] (a : Numbers α) : Block α :=
  const (.reals (a.vec.toReals.map (1 * ·)))

section products

variable [Add α] [Mul α] [OfDouble α]

/-- A constant times a value with `cols` columns: `vec (L X) = (I ⊗ L) vec X`. -/
def mulRule (n : Node α) (blocks : List (Block α)) : Result (Block α) := do
  let lhs ← n.data.numbers
  match lhs.single? with
  | some x => (← operand blocks).scale x
  | none =>
    let s ← operandShape n
    (← operand blocks).apply ((identity s.cols).kronecker lhs.toReals)

/-- A value with `rows` rows times a constant: `vec (X R) = (Rᵀ ⊗ I) vec X`. -/
def rmulRule (n : Node α) (blocks : List (Block α)) : Result (Block α) := do
  let rhs ← n.data.numbers
  match rhs.single? with
  | some x => (← operand blocks).scale x
  | none =>
    let s ← operandShape n
    (← operand blocks).apply (rhs.toReals.transposed.kronecker (identity s.rows))

def mulElemRule (n : Node α) (blocks : List (Block α)) : Result (Block α) := do
  let weights ← n.data.numbers
  (← operand blocks).weigh weights.vec

def divRule [Div α] (n : Node α) (blocks : List (Block α)) : Result (Block α) := do
  let b ← operand blocks
  b.scale (← n.data.reciprocal)

def sumEntriesRule (n : Node α) (blocks : List (Block α)) : Result (Block α) := do
  let s ← operandShape n
  (← operand blocks).apply (ones s.size)

def traceRule (n : Node α) (blocks : List (Block α)) : Result (Block α) := do
  let diagonal := Grid.diagonal (← operandShape n)
  (← (← operand blocks).gather diagonal).apply (ones diagonal.length)

end products

/-- Every entry is the first entry of the operand. -/
def promoteRule (n : Node α) (blocks : List (Block α)) : Result (Block α) := do
  (← operand blocks).gather (List.replicate n.size 0)

/-- The places that an index node selects from the value of its child. -/
def selectedPlaces (n : Node α) : Result (List Nat) := do
  match n.data with
  | .selection rows cols =>
    let s ← operandShape n
    return Grid.selected s (← rows.places s.rows) (← cols.places s.cols)
  | data =>
    let items ← data.selectors
    let s ← operandShape n
    Grid.select s (← items.mapM Selector.ofValue)

def indexRule (n : Node α) (blocks : List (Block α)) : Result (Block α) := do
  let places ← selectedPlaces n
  (← operand blocks).gather places

def transposeRule (n : Node α) (blocks : List (Block α)) : Result (Block α) := do
  let s ← operandShape n
  (← operand blocks).gather (Grid.transposed s)

/-- The blocks of the children, each with its rows at their places in the whole; `row` is the first row
of the next child. -/
def placed (n : Node α) (row : Nat) : List (Node α) → List (Block α) → Result (List (Block α))
  | x :: xs, b :: bs => do
    let first ← b.scatter (.ofPlaces (Grid.band n.shape row x.shape.rows)) n.size
    return first :: (← placed n (row + x.shape.rows) xs bs)
  | _, _ => .ok []

variable [Add α] [OfDouble α]

def vstackRule (n : Node α) (blocks : List (Block α)) : Result (Block α) := do
  sum (← placed n 0 n.children blocks)

variable [Neg α] [Mul α] [Div α]

/-- The block of a node from the blocks of its children. -/
def rule (n : Node α) (blocks : List (Block α)) : Result (Block α) :=
  match n.kind with
  | .variable => do return ofVariable (← n.data.label) n.size
  | .scalarConst => do return const (← (← n.data.filler).filling n.size)
  | .denseConst => do return ofConstant (← n.data.numbers)
  | .param => do return ofConstant (← n.data.numbers)
  | .sum => sum blocks
  | .neg => do (← operand blocks).scale (.reals (.scalar (-1)))
  | .mul => mulRule n blocks
  | .rmul => rmulRule n blocks
  | .mulElem => mulElemRule n blocks
  | .div => divRule n blocks
  | .promote => promoteRule n blocks
  | .index => indexRule n blocks
  | .transpose => transposeRule n blocks
  | .sumEntries => sumEntriesRule n blocks
  | .trace => traceRule n blocks
  | .reshape => operand blocks
  | .noOp => operand blocks
  | .hstack => concat blocks
  | .vstack => vstackRule n blocks
  | _ => .error (unsupported n)

end Block

end ConicForm
