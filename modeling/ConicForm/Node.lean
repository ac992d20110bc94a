import ConicForm.Numbers
import ConicForm.Slice

/-!
# Nodes

An expression is a tree of nodes, each an operation on the values of its children. A node carries an
identity of its own: two nodes are the same node when their identities agree, so a subtree may be shared
between several parents. A constraint node wraps the expression whose value must lie in a cone.
-/

namespace ConicForm

/-- What a node does. A kind of some other system is known by its name only. -/
inductive Kind where
  | variable
  | scalarConst
  | denseConst
  | param
  | sum
  | neg
  | mul
  | rmul
  | mulElem
  | div
  | promote
  | index
  | transpose
  | sumEntries
  | trace
  | reshape
  | hstack
  | vstack
  | noOp
  | eq
  | leq
  | soc
  | exp
  | sdp
  | foreign (name : String)
deriving DecidableEq, Repr, Inhabited

namespace Kind

def all : List Kind :=
  [.variable, .scalarConst, .denseConst, .param, .sum, .neg, .mul, .rmul, .mulElem, .div, .promote,
    .index, .transpose, .sumEntries, .trace, .reshape, .hstack, .vstack, .noOp, .eq, .leq, .soc, .exp,
    .sdp]

def label : Kind → String
  | .variable => "variable"
  | .scalarConst => "scalar_const"
  | .denseConst => "dense_const"
  | .param => "param"
  | .sum => "sum"
  | .neg => "neg"
  | .mul => "mul"
  | .rmul => "rmul"
  | .mulElem => "mul_elem"
  | .div => "div"
  | .promote => "promote"
  | .index => "index"
  | .transpose => "transpose"
  | .sumEntries => "sum_entries"
  | .trace => "trace"
  | .reshape => "reshape"
  | .hstack => "hstack"
  | .vstack => "vstack"
  | .noOp => "no_op"
  | .eq => "eq"
  | .leq => "leq"
  | .soc => "soc"
  | .exp => "exp"
  | .sdp => "sdp"
  | .foreign name => name

/-- The name of a kind in messages; a foreign kind goes by its own. -/
def name : Kind → String
  | .foreign name => name
  | k => String.ofList (k.label.toList.map Char.toUpper)

def isForeign : Kind → Bool
  | .foreign _ => true
  | _ => false

def isConstraint : Kind → Bool
  | .eq => true
  | .leq => true
  | .soc => true
  | .exp => true
  | .sdp => true
  | _ => false

/-- The kinds that state a value. -/
def isExpression (k : Kind) : Bool := !k.isConstraint && !k.isForeign

def ofName? (name : String) : Option Kind := all.find? fun k => k.name == name

end Kind

/-- What a node carries besides its children: a scalar, a constant array or the selection of an index;
a variable's id is a loose value, and so is whatever else a node was made with, unless that is an array of
doubles. -/
inductive Payload (α : Type) where
  | loose (v : Value)
  | doubles (t : Tensor Double)
  | scalar (x : α)
  | array (a : Numbers α)
  | selection (rows cols : Slice)
deriving DecidableEq

structure Node (α : Type) where
  ident : Nat
  kind : Kind
  shape : Shape
  children : List (Node α)
  data : Payload α

namespace Node

variable {α : Type}

def size (n : Node α) : Nat := n.shape.size

/-- The size that a node states; a foreign one states none. -/
def width (n : Node α) : Result Nat :=
  if n.kind.isForeign then .error .missingProperty else .ok n.size

def id? (n : Node α) : Option (Payload α) :=
  if n.kind = .variable then some n.data else none

def isSame (m n : Node α) : Bool := m.ident == n.ident

end Node

end ConicForm
