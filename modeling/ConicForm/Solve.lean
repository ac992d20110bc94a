import ConicForm.Backend.Clarabel
import ConicForm.Backend.Osqp

/-!
# Solving a problem

`solve` states a problem as a cone program and has one of the two solvers solve it.
-/

namespace ConicForm

variable {α : Type}

inductive SolverName where
  | clarabel
  | osqp
deriving DecidableEq, Repr

namespace SolverName

def ofValue (v : Value) : Result SolverName :=
  if v = .text "clarabel" then .ok .clarabel
  else if v = .text "osqp" then .ok .osqp
  else .error (.unknownSolver v)

end SolverName

structure Solvers (α : Type) where
  clarabel : Clarabel.Solver α
  osqp : Osqp.Solver α

/-- What one of the solvers was handed. -/
inductive Handed (α : Type) where
  | clarabel (r : Clarabel.Request α)
  | osqp (r : Osqp.Request α)
deriving DecidableEq

def Layout.entry (l : Layout α) : Entry := ⟨.debug, .layout, l.summary⟩

def Program.entry (p : Program α) : Entry :=
  ⟨.debug, .solve,
    "Built cone program: " ++ toString p.height ++ " rows x " ++ toString p.width ++ " columns"⟩

def withoutVariables : String := "Problem has no variables; passing it to the solver as is."

/-- The journal of a problem that has been laid out. -/
def Layout.journal (l : Layout α) : Journal :=
  let j := Journal.empty.add l.entry
  if l.width = 0 then j.warn withoutVariables else j

section

variable [Zero α] [Add α] [Sub α] [Neg α] [Mul α] [BEq α] [OfDouble α] [Measured α]

def Program.solve (solvers : Solvers α) (name : SolverName) (p : Program α) (l : Layout α)
    (options : Options) (journal : Journal) : Report (Handed α) α :=
  match name with
  | .clarabel => (Clarabel.run solvers.clarabel p l options journal).mapHanded .clarabel
  | .osqp => (Osqp.run solvers.osqp p l options journal).mapHanded .osqp

end

variable [Zero α] [One α] [Add α] [Sub α] [Neg α] [Mul α] [Div α] [BEq α] [OfDouble α] [Measured α]

def solve (solvers : Solvers α) (sense : Sense) (objective : Node α) (constraints : List (Node α))
    (options : Options) (solver : Value) : Report (Handed α) α :=
  match SolverName.ofValue solver with
  | .error e => ⟨.error e, none, .empty⟩
  | .ok name =>
    match Layout.ofProblem objective constraints with
    | .error e => ⟨.error e, none, .empty⟩
    | .ok l =>
      match Program.assemble sense objective l with
      | .error e => ⟨.error e, none, l.journal⟩
      | .ok p => p.solve solvers name l options (l.journal.add p.entry)

end ConicForm
