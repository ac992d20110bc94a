import ConicForm.Block.OfNode
import ConicForm.Layout

/-!
# Cone programs

A cone program asks for the `x` that minimizes `c · x + d` such that `A x + s = b` with `s` in a product
of cones. `Program.assemble` states a problem as one: the objective is negated when it is to be
maximized, a row that must be zero or not above zero is stated as `s = -(G x + g)`, and a row of a
second-order or exponential cone as `s = G x + g`.
-/

namespace ConicForm

variable {α : Type}

inductive Sense where
  | minimize
  | maximize
deriving DecidableEq, Repr

namespace Sense

def all : List Sense := [.minimize, .maximize]

def label : Sense → String
  | .minimize => "minimize"
  | .maximize => "maximize"

def name : Sense → String
  | .minimize => "MINIMIZE"
  | .maximize => "MAXIMIZE"

/-- Whatever is no request to maximize minimizes. -/
def ofValue (v : Value) : Sense := if v = .text "maximize" then .maximize else .minimize

end Sense

structure Program (α : Type) where
  c : List α
  d : Numbers α
  A : Matrix α
  b : Numbers α
  dims : ConeDims
  /-- Whether `c` and `d` are those of the negated objective. -/
  maximize : Bool
deriving DecidableEq

namespace Program

def width (p : Program α) : Nat := p.A.cols

def height (p : Program α) : Nat := p.A.rows

/-- The value at a point of the objective before any negation. -/
def objectiveValue [Zero α] [Add α] [Neg α] [Mul α] [OfDouble α] (p : Program α) (x : List α) :
    Result α := do
  if p.c.length ≠ x.length then throw .mismatch
  let value := Matrix.dot p.c x + (← p.d.toScalar)
  return if p.maximize then -value else value

/-- An affine map `G x + g` over all columns. -/
structure Rows (α : Type) where
  G : Matrix α
  g : Numbers α

variable [Zero α] [One α] [Add α] [Neg α] [Mul α] [Div α] [OfDouble α]

/-- The rows of expressions over the columns of a layout, and the cache afterwards. -/
def rowsOf (l : Layout α) (ns : List (Node α)) (cache : Cache α) : Result (Rows α × Cache α) :=
  match Node.buildAll ns cache with
  | (.error e, _) => .error e
  | (.ok blocks, cache) => do
    let (G, g) ← Block.stack l.offsetOf l.width blocks
    return (⟨G, g⟩, cache)

/-- Refuses a member of an exponential cone that does not have three rows; `member` is the place of the
first one. -/
def requireTriples (member : Nat) : List (Node α) → Result Unit
  | [] => .ok ()
  | n :: rest =>
    if n.shape.rows = 3 then requireTriples (member + 1) rest
    else .error (.expNotTriples member n.shape)

omit [Zero α] [One α] [Add α] [Mul α] [Div α] [OfDouble α] in
/-- The objective to minimize in the place of `c · x + d`. -/
def direction (sense : Sense) (c : List α) (d : Numbers α) : Result (List α × Numbers α) :=
  match sense with
  | .minimize => .ok (c, d)
  | .maximize => do return (c.map Neg.neg, ← d.negated)

def assemble (sense : Sense) (objective : Node α) (l : Layout α) : Result (Program α) := do
  if objective.shape ≠ Shape.scalar then throw (.objectiveNotScalar objective.shape)
  let (cost, cache) ← rowsOf l [objective] []
  if cost.G.rows = 0 then throw .missingPosition
  let (c, d) ← direction sense (cost.G.row 0) (cost.g.row 0)
  let (eq, cache) ← rowsOf l l.members.eq cache
  let eqBounds ← eq.g.negated
  let (leq, cache) ← rowsOf l l.members.leq cache
  let leqBounds ← leq.g.negated
  requireTriples 0 l.members.exp
  let (soc, cache) ← rowsOf l l.members.soc cache
  let (exp, _) ← rowsOf l l.members.exp cache
  return {
    c, d
    A := Matrix.stack l.width [eq.G, leq.G, soc.G.map Neg.neg, exp.G.map Neg.neg]
    b := ← Numbers.joinRows [eqBounds, leqBounds, soc.g, exp.g]
    dims := l.coneDims
    maximize := sense = .maximize }

end Program

end ConicForm
