import ConicForm.Node
import ConicForm.Shape.Argument
import ConicForm.Tensor.Text
import ConicForm.Total

/-!
# Builders

One builder for each kind of node. A builder takes the identity of the node to make, checks that its
operands fit and states the shape of the result; `Node.make` admits any kind and children and only
checks the shape.
-/

namespace ConicForm.Node

variable {α : Type}

def make (ident : Nat) (kind : Kind) (shape : Value) (children : List (Node α)) (data : Payload α) :
    Result (Node α) := do
  return ⟨ident, kind, ← Shape.ofValue shape, children, data⟩

def plain (ident : Nat) (kind : Kind) (shape : Shape) (children : List (Node α)) : Result (Node α) :=
  make ident kind shape.toValue children (.loose .none)

/-- A node of the kind that a value names, with any children. -/
def ofName (ident : Nat) (kind : Value) (shape : Value) (children : List (Node α)) (data : Payload α) :
    Result (Node α) :=
  match kind with
  | .text name =>
    match Kind.ofName? name with
    | some k => make ident k shape children data
    | none => .error (.unknownKind kind)
  | _ => .error (.unknownKind kind)

def foreign (ident : Nat) (name : String) (shape : Shape) : Node α :=
  ⟨ident, .foreign name, shape, [], .loose .none⟩

/-! Leaves -/

def ofVariable (ident : Nat) (id shape : Value) : Result (Node α) :=
  match id with
  | .int n => make ident .variable shape [] (.loose (.int n))
  | v => .error (.variableIdNotInteger v)

def scalarConst (ident : Nat) (x : α) : Result (Node α) :=
  make ident .scalarConst Shape.scalar.toValue [] (.scalar x)

def scalarConstOf [OfDouble α] (ident : Nat) (v : Value) : Result (Node α) := do
  scalarConst ident (ofDouble (← v.toReal))

/-- A constant; a vector is a column. -/
def denseConst [Zero α] (ident : Nat) (value : Numbers α) : Result (Node α) := do
  let m ← value.asConstant false
  make ident .denseConst m.shapeValue [] (.array m)

/-- A parameter is a constant under another name. -/
def parameter [Zero α] (ident : Nat) (value : Numbers α) : Result (Node α) := do
  let m ← value.asConstant false
  make ident .param m.shapeValue [] (.array m)

/-! Linear composition -/

def sum (ident : Nat) (terms : List (Node α)) : Result (Node α) :=
  match terms with
  | [] => .error .noTerms
  | first :: rest => do
    rest.forM fun t => Shape.requireEqual first.shape.toValue t.shape.toValue
    plain ident .sum first.shape terms

def neg (ident : Nat) (x : Node α) : Result (Node α) := plain ident .neg x.shape [x]

/-- The shape of a product with a constant matrix; a one by one matrix scales. -/
def productShape (scalar? : Bool) (x : Node α) (left right : Shape) : Result Value :=
  if scalar? then .ok x.shape.toValue
  else do
    let (rows, cols) ← Shape.ofProduct left.toValue right.toValue
    return .tuple [rows, cols]

/-- A constant times an expression; a vector is a row. -/
def mul [Zero α] (ident : Nat) (lhs : Numbers α) (x : Node α) : Result (Node α) := do
  let m ← lhs.asConstant true
  let shape ← productShape m.shape.isScalar x m.shape x.shape
  make ident .mul shape [x] (.array m)

/-- An expression times a constant; a vector is a column. -/
def rmul [Zero α] (ident : Nat) (x : Node α) (rhs : Numbers α) : Result (Node α) := do
  let m ← rhs.asConstant false
  let shape ← productShape m.shape.isScalar x x.shape m.shape
  make ident .rmul shape [x] (.array m)

/-- The entry by entry product with a constant of the same shape. -/
def mulElem [Zero α] (ident : Nat) (weights : Numbers α) (x : Node α) : Result (Node α) := do
  let m ← weights.asConstant false
  Shape.requireEqual m.shapeValue x.shape.toValue
  make ident .mulElem x.shape.toValue [x] (.array m)

/-- An expression over a scalar other than zero. -/
def div [Zero α] [BEq α] (ident : Nat) (x : Node α) (divisor : α) : Result (Node α) :=
  if divisor == 0 then .error .divisionByZero
  else make ident .div x.shape.toValue [x] (.scalar divisor)

def divOf [Zero α] [BEq α] [OfDouble α] (ident : Nat) (x : Node α) (divisor : Value) :
    Result (Node α) := do
  div ident x (ofDouble (← divisor.toReal))

/-- A scalar expression repeated over a shape. -/
def promote (ident : Nat) (x : Node α) (shape : Value) : Result (Node α) :=
  if x.shape.isScalar then make ident .promote shape [x] (.loose .none)
  else .error (.promotedNotScalar x.shape)

/-- A block of an expression; an integer keeps its axis. -/
def index (ident : Nat) (x : Node α) (rows cols : Value) : Result (Node α) := do
  let r ← Slice.ofKey rows x.shape.rows
  let c ← Slice.ofKey cols x.shape.cols
  let height ← (← r.span x.shape.rows).length
  let width ← (← c.span x.shape.cols).length
  make ident .index (Shape.toValue ⟨height, width⟩) [x] (.selection r c)

def transpose (ident : Nat) (x : Node α) : Result (Node α) :=
  plain ident .transpose x.shape.transposed [x]

def sumEntries (ident : Nat) (x : Node α) : Result (Node α) := plain ident .sumEntries .scalar [x]

def trace (ident : Nat) (x : Node α) : Result (Node α) :=
  if x.shape.rows = x.shape.cols then plain ident .trace .scalar [x]
  else .error (.traceNotSquare x.shape)

/-- The entries of an expression, column by column, in another shape of the same size. -/
def reshape (ident : Nat) (x : Node α) (shape : Value) : Result (Node α) := do
  let _ ← Shape.ofValue shape
  let wanted ← Shape.area shape
  let size ← x.width
  if ← wanted.equal (.int size) then make ident .reshape shape [x] (.loose .none)
  else throw (.sizeChanges x.shape (← Shape.asTuple shape))

/-- Expressions side by side, of as many rows each. -/
def hstack (ident : Nat) (xs : List (Node α)) : Result (Node α) :=
  match xs with
  | [] => .error (.nothingToStack "hstack")
  | first :: rest => do
    rest.forM fun x =>
      if x.shape.rows = first.shape.rows then pure ()
      else throw (.stackMismatch "hstack" "row" first.shape x.shape)
    plain ident .hstack ⟨first.shape.rows, total (xs.map fun x => x.shape.cols)⟩ xs

/-- Expressions one above the other, of as many columns each. -/
def vstack (ident : Nat) (xs : List (Node α)) : Result (Node α) :=
  match xs with
  | [] => .error (.nothingToStack "vstack")
  | first :: rest => do
    rest.forM fun x =>
      if x.shape.cols = first.shape.cols then pure ()
      else throw (.stackMismatch "vstack" "column" first.shape x.shape)
    plain ident .vstack ⟨total (xs.map fun x => x.shape.rows), first.shape.cols⟩ xs

def noOp (ident : Nat) (x : Node α) : Result (Node α) := plain ident .noOp x.shape [x]

/-! Cone membership -/

/-- The value is zero. -/
def eq (ident : Nat) (x : Node α) : Result (Node α) := plain ident .eq x.shape [x]

/-- No entry of the value is above zero. -/
def leq (ident : Nat) (x : Node α) : Result (Node α) := plain ident .leq x.shape [x]

/-- The value is a column whose first entry is at least the norm of the others. -/
def soc (ident : Nat) (x : Node α) : Result (Node α) := plain ident .soc x.shape [x]

/-- Each column `(x, y, z)` of the value has `y * exp (x / y) ≤ z` and `0 < y`. -/
def exp (ident : Nat) (x : Node α) : Result (Node α) := plain ident .exp x.shape [x]

/-- The value is positive semidefinite. -/
def sdp (ident : Nat) (x : Node α) : Result (Node α) := plain ident .sdp x.shape [x]

/-- Applies a builder of one operand `times` times, each time under the next identity. -/
def iterate (build : Nat → Node α → Result (Node α)) : Nat → Nat → Node α → Result (Node α)
  | 0, _, x => .ok x
  | times + 1, ident, x => do iterate build times (ident + 1) (← build ident x)

/-! Text -/

def idText (data : Payload α) : String :=
  match data with
  | .loose v => v.shown
  | .doubles t => t.text
  | _ => "None"

/-- The text of a node: its kind, its shape and its number of children or its id. -/
def text (n : Node α) : String :=
  if n.kind = .variable then
    "LinOp(VARIABLE, id=" ++ idText n.data ++ ", shape=" ++ n.shape.text ++ ")"
  else
    "LinOp(" ++ n.kind.name ++ ", shape=" ++ n.shape.text ++ ", children=" ++
      toString n.children.length ++ ")"

end ConicForm.Node
