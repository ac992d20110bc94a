import ConicForm.Point
import ConicForm.Program

/-!
# Solutions

What a solver's run comes to: how it ended, the value of the objective, a value for each variable, the
multipliers of each cone's rows and further details by name.
-/

namespace ConicForm

inductive Status where
  | optimal
  | optimalInaccurate
  | infeasible
  | unbounded
  | maxIter
  | error
  | other (text : String)
deriving DecidableEq, Repr

namespace Status

def label : Status → String
  | .optimal => "optimal"
  | .optimalInaccurate => "optimal_inaccurate"
  | .infeasible => "infeasible"
  | .unbounded => "unbounded"
  | .maxIter => "max_iter"
  | .error => "error"
  | .other text => text

/-- Whether the point that the solver returned is reported with its value. -/
def isSolved : Status → Bool
  | .optimal => true
  | .optimalInaccurate => true
  | _ => false

end Status

/-- The value reported for the objective; a value that somebody else states may be any. -/
inductive Optimum (α : Type) where
  | value (x : α)
  | infinite (negative : Bool)
  | undefined
  | stated (v : Value)
deriving DecidableEq

namespace Optimum

variable {α : Type}

def negated [Neg α] : Optimum α → Optimum α
  | .value x => .value (-x)
  | .infinite negative => .infinite (!negative)
  | o => o

end Optimum

/-- A detail of a run: a loose value, a computed number, or the multipliers of each constraint. -/
inductive Detail (α : Type) where
  | loose (v : Value)
  | number (x : α)
  | pieces (ps : List (List α))
deriving DecidableEq

structure Solution (α : Type) where
  status : Status
  optimum : Optimum α
  primal : List (Int × Matrix α)
  /-- The multipliers of each cone's rows. -/
  dual : List (NamedCone × List α)
  info : List (String × Detail α)
deriving DecidableEq

variable {α : Type}

/-- The value reported for a run that ended at a point: the objective's value if the run found one, an
infinity if there is none to find, with the sign of the sense, and nothing otherwise. -/
def Program.optimum [Zero α] [Add α] [Neg α] [Mul α] [OfDouble α] (p : Program α) (status : Status)
    (x : List α) : Result (Optimum α) :=
  if status.isSolved then do return .value (← p.objectiveValue x)
  else
    match status with
    | .infeasible => .ok (.infinite p.maximize)
    | .unbounded => .ok (.infinite !p.maximize)
    | _ => .ok .undefined

namespace Solution

/-- The solution of a run that broke off: every variable is without a number. -/
def failed [OfDouble α] (l : Layout α) (solver message : String) : Solution α where
  status := .error
  optimum := .undefined
  primal := l.shapes.map fun e => (e.1, Matrix.const e.2.rows e.2.cols (notANumber α))
  dual := []
  info := [("error", .loose (.text message)), ("solver", .loose (.text solver))]

end Solution

end ConicForm
