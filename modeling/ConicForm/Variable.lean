import ConicForm.Keyed
import ConicForm.Label

/-!
# Variables

A variable found in an expression. Variables are told apart and ordered by their ids alone; their
shapes must agree wherever an id occurs. Columns are given to the distinct variables in ascending order
of their ids.
-/

namespace ConicForm

structure Variable where
  id : Int
  /-- The dimensions that are stated for it; those of a node are above zero. -/
  rows : Int
  cols : Int
deriving DecidableEq, Inhabited, Repr

namespace Variable

def ofShape (id : Int) (s : Shape) : Variable := ⟨id, s.rows, s.cols⟩

def size (v : Variable) : Int := v.rows * v.cols

/-- The shape that the dimensions are those of. -/
def shape (v : Variable) : Shape := ⟨v.rows.toNat, v.cols.toNat⟩

def shapeValue (v : Variable) : Value := .tuple [.int v.rows, .int v.cols]

@[simp] theorem shape_ofShape (id : Int) (s : Shape) : (ofShape id s).shape = s := by
  simp [ofShape, shape]

/-- Sorts by id; variables with the same id stay in order. -/
def sorted (vars : List Variable) : List Variable := vars.mergeSort fun a b => a.id ≤ b.id

/-- Adds an occurrence of a variable to the ones seen first. -/
def meet (seen : List (Int × Variable)) (v : Variable) : Result (List (Int × Variable)) :=
  match Keyed.get? seen v.id with
  | none => .ok (seen ++ [(v.id, v)])
  | some first =>
    if first.rows = v.rows ∧ first.cols = v.cols then .ok seen
    else .error (.inconsistentVariable v.id first.shapeValue v.shapeValue)

/-- One variable for each id that occurs, in ascending order. -/
def distinct (vars : List Variable) : Result (List Variable) := do
  let seen ← vars.foldlM meet []
  return sorted (seen.map Prod.snd)

def offsetsFrom (first : Int) : List Variable → List (Int × Int)
  | [] => []
  | v :: rest => (v.id, first) :: offsetsFrom (first + v.size) rest

def totalSize : List Variable → Int
  | [] => 0
  | v :: rest => v.size + totalSize rest

/-- The first columns of the distinct variables, and the number of all columns. -/
def assignOffsets (vars : List Variable) : Result (List (Int × Int) × Int) := do
  let vs ← distinct vars
  return (offsetsFrom 0 vs, totalSize vs)

/-- How two things stand to each other. Without an order, only equality is answered. -/
structure Comparison where
  equal : Bool
  order : Option Relation
deriving DecidableEq, Repr

/-- A variable beside a variable, or beside something that is none, which equals no variable and has no
order with one. -/
def compare (left right : Variable ⊕ Value) : Result Comparison :=
  match left, right with
  | .inl a, .inl b => .ok ⟨a.id == b.id, some (.ofOrdering (Ord.compare a.id b.id))⟩
  | .inl _, .inr v => do
    let _ ← Label.ofValue v
    return ⟨false, none⟩
  | .inr v, .inl _ => do
    let _ ← Label.ofValue v
    return ⟨false, none⟩
  | .inr v, .inr w => do
    let _ ← Label.ofValue v
    let _ ← Label.ofValue w
    match v.equal w with
    | .ok equal => return ⟨equal, (v.relation w).toOption⟩
    | .error _ => throw .unreadable

end Variable

end ConicForm
