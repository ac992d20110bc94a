import ConicForm.Value.Number
import ConicForm.Value.Order

/-!
# Shapes as arguments

Shapes are handed over as loose values. `Shape.ofValue` admits exactly the pairs of positive integers;
the other functions answer questions about pairs that were not checked before.
-/

namespace ConicForm.Shape

def toValue (s : Shape) : Value := .tuple [.int s.rows, .int s.cols]

def items : Value → Result (List Value)
  | .tuple vs => .ok vs
  | .list vs => .ok vs
  | .text s => .ok (s.toList.map fun c => .text (String.singleton c))
  | _ => .error .wrongType

def pair (v : Value) : Result (Value × Value) := do
  match ← items v with
  | [a, b] => return (a, b)
  | [] => throw (.notEnoughItems 0)
  | [_] => throw (.notEnoughItems 1)
  | _ => throw .tooManyItems

/-- The item at a place of a sequence; a machine word has none. -/
def item (v : Value) (place : Nat) : Result Value := do
  if let .word _ := v then throw .missingPosition
  match (← items v)[place]? with
  | some x => return x
  | none => throw .missingPosition

/-- One dimension of a shape: a positive integer, truth values not being integers. -/
def dimension (axis : Nat) (v : Value) : Result Nat :=
  match v.index? with
  | some n => if 0 < n then .ok n.toNat else .error (.dimensionNotPositive axis n)
  | none => .error (.dimensionNotInteger axis v)

/-- The shape that a value states: a tuple or list of two positive integers. -/
def ofValue (v : Value) : Result Shape :=
  let ofItems : List Value → Result Shape
    | [a, b] => do return ⟨← dimension 0 a, ← dimension 1 b⟩
    | _ => .error (.shapeNotPair v)
  match v with
  | .tuple vs => ofItems vs
  | .list vs => ofItems vs
  | _ => .error (.shapeNotSequence v)

/-- The number of entries that a pair states, by the multiplication of its items. -/
def area (v : Value) : Result Value := do
  let (rows, cols) ← pair v
  rows.times cols

def swapped (v : Value) : Result (Value × Value) := do
  let (rows, cols) ← pair v
  return (cols, rows)

def asTuple (v : Value) : Result Value := do return .tuple (← items v)

def statesScalar (v : Value) : Result Bool := do
  (← asTuple v).equal scalar.toValue

def statesColumn (v : Value) : Result Bool := do
  (← item v 1).equal (.int 1)

/-- The matrix shape of an array with no, one or two dimensions; a vector is a column, or a row where
that is asked for. -/
def ofArrayShape (v : Value) (vectorAsRow : Bool) : Result (Value × Value) := do
  match ← items v with
  | [] => return (.int 1, .int 1)
  | [n] => return if vectorAsRow then (.int 1, n) else (n, .int 1)
  | [m, n] => return (m, n)
  | _ => throw (.tooManyDimensions v)

def requireEqual (left right : Value) : Result Unit := do
  let l ← asTuple left
  let r ← asTuple right
  if ← l.equal r then return () else throw (.shapesDiffer l r)

def ofProduct (left right : Value) : Result (Value × Value) := do
  let inner ← item left 1
  let outer ← item right 0
  if ← inner.equal outer then return (← item left 0, ← item right 1)
  else throw (.innerDimensionsDiffer (← asTuple left) (← asTuple right) inner outer)

end ConicForm.Shape
