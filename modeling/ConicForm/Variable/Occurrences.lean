import ConicForm.Node
import ConicForm.Tensor.Text
import ConicForm.Variable

/-!
# Occurrences of variables

`Node.leafVariables` lists the variable leaves under a node from left to right by recursion on the tree, and
`Node.occurrences` by a stack of nodes still to visit. A variable node is a leaf whatever it has for
children.
-/

namespace ConicForm.Node

variable {α : Type}

mutual

def count : Node α → Nat
  | ⟨_, _, _, children, _⟩ => countAll children + 1
termination_by structural n => n

def countAll : List (Node α) → Nat
  | [] => 0
  | n :: rest => count n + countAll rest
termination_by structural ns => ns

end

theorem countAll_append (xs ys : List (Node α)) :
    countAll (xs ++ ys) = countAll xs + countAll ys := by
  induction xs with
  | nil => simp [countAll]
  | cons x xs ih => simp [countAll, ih, Nat.add_assoc]

theorem count_eq (n : Node α) : n.count = countAll n.children + 1 := by
  cases n
  rw [count]

/-- The variable that a variable node states, if its id is an integer. -/
def asVariable (data : Payload α) (shape : Shape) : Result Variable :=
  match data with
  | .loose (.int id) => .ok (.ofShape id shape)
  | .loose v => .error (.idNotInteger v.nested)
  | .doubles t => .error (.idNotInteger t.record)
  | _ => .error (.idNotInteger "None")

mutual

/-- The variables under a node in the order of their leaves. -/
def leafVariables : Node α → Result (List Variable)
  | ⟨_, kind, shape, children, data⟩ =>
    if kind = .variable then (asVariable data shape).map ([·]) else allLeafVariables children
termination_by structural n => n

def allLeafVariables : List (Node α) → Result (List Variable)
  | [] => .ok []
  | n :: rest => do
    let found ← leafVariables n
    return found ++ (← allLeafVariables rest)
termination_by structural ns => ns

end

/-- Visits the nodes on a stack, the first one next, and adds to the variables found before, which are
kept in reverse. -/
def visit (found : List Variable) : List (Node α) → Result (List Variable)
  | [] => .ok found.reverse
  | n :: rest =>
    if n.kind = .variable then do visit ((← asVariable n.data n.shape) :: found) rest
    else visit found (n.children ++ rest)
termination_by stack => countAll stack
decreasing_by
  · simp [countAll, count_eq]
  · simp [countAll, countAll_append, count_eq]

/-- The variables under a node, by visiting its nodes one after the other. -/
def occurrences (n : Node α) : Result (List Variable) := visit [] [n]

/-- The variables of an objective and then of each constraint. -/
def problemVariables (objective : Node α) (constraints : List (Node α)) : Result (List Variable) := do
  let first ← objective.occurrences
  let others ← constraints.mapM occurrences
  return first ++ others.flatten

end ConicForm.Node
