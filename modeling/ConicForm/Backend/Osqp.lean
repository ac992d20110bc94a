import ConicForm.Options
import ConicForm.Report
import ConicForm.Residual

/-!
# OSQP

OSQP minimizes `½ xᵀ P x + q · x` such that `A x = b` for one block of rows and `A x ≤ b` for another.
A program goes to it with `P = 0` if it has rows of the zero cone and the orthant only; either block may
be absent.
-/

namespace ConicForm.Osqp

variable {α : Type}

/-- The cones of a program that the solver cannot state. -/
def unsupported (dims : ConeDims) : List Cone :=
  (if dims.soc.isEmpty then [] else [.soc]) ++ (if dims.exp = 0 then [] else [.exp])

/-- The names of the solver's arguments besides the tolerance and the limit on iterations. -/
def argumentNames : List String :=
  ["matvec_Q", "matvec_A", "matvec_G", "fun", "check_primal_dual_infeasability", "sigma", "momentum",
    "eq_qp_solve", "rho_start", "rho_min", "rho_max", "stepsize_updates_frequency",
    "primal_infeasible_tol", "dual_infeasible_tol", "termination_check_frequency", "verbose",
    "implicit_diff", "implicit_diff_solve", "jit", "unroll"]

/-- The tolerance of a run; by default a millionth. -/
def tolerance (options : Options) : Value := options.getOr "tol" (.real ⟨0x3eb0c6f7a0b5ed8d⟩)

def limit (options : Options) : Value := options.getOr "max_iter" (.int 4000)

/-- The solver's arguments for some options, all of which it must have. -/
def settings (options : Options) : Result Options :=
  let others := options.without ["tol", "max_iter"]
  if others.all fun e => argumentNames.contains e.1 then
    .ok (Options.sorted (("maxiter", limit options) :: ("tol", tolerance options) :: others))
  else .error .wrongType

/-- What the solver is handed; its `P` is zero. -/
structure Request (α : Type) where
  q : List α
  width : Nat
  eq : Option (Program.Part α)
  ineq : Option (Program.Part α)
  settings : Options
deriving DecidableEq

def request [Zero α] (p : Program α) (settings : Options) : Request α :=
  ⟨p.c, p.width, p.equalities, p.inequalities, settings⟩

/-- What the solver answers: a point, the multipliers of each block and how it ended. -/
structure Answer (α : Type) where
  code : Int
  x : List α
  dualEq : List α
  dualIneq : List α
  iterations : Int
deriving DecidableEq

/-- A solver answers a request or breaks off with a message. -/
abbrev Solver (α : Type) := Request α → Except String (Answer α)

def reached (iterations : Int) (limit : Value) : Bool :=
  match limit.integral?, limit with
  | some n, _ => n ≤ iterations
  | none, .real x => (Double.ofInt? iterations).any fun y => x.toFloat ≤ y.toFloat
  | none, _ => false

/-- How a run ended, by its code and the number of its iterations. -/
def statusOf (code iterations : Int) (limit : Value) : Status :=
  if code = 1 then .optimal
  else if code = 3 then .infeasible
  else if code = 2 then .unbounded
  else if reached iterations limit then .maxIter
  else .error

/-- The entry made after a run, unless it ended well. -/
def closing (j : Journal) (status : Status) (iterations : Int) : Journal :=
  if status = .optimal then j
  else
    j.add ⟨.warning, .osqp,
      "OSQP finished with status " ++ status.label ++ " after " ++ toString iterations ++
        " iterations"⟩

def failure (message : String) : Entry := ⟨.warning, .osqp, "OSQP failed: " ++ message⟩

/-- The multipliers of the blocks that there are. -/
def duals (handed : Request α) (a : Answer α) : List (NamedCone × List α) :=
  (if handed.eq.isSome then [(.supported .eq, a.dualEq)] else []) ++
    (if handed.ineq.isSome then [(.supported .leq, a.dualIneq)] else [])

/-- The solution that an answer stands for, with a known status and objective value. -/
def solutionOf [Zero α] [Add α] [Sub α] [Mul α] [OfDouble α] [Measured α] (p : Program α)
    (l : Layout α) (options : Options) (dual : List (NamedCone × List α)) (a : Answer α) (status : Status)
    (optimum : Optimum α) : Result (Solution α) := do
  let residuals ← p.residuals a.x
  let pieces := l.splitByConstraint (dual.map Prod.snd).flatten
  let primal ← l.unpack a.x
  return ⟨status, optimum, primal, dual,
    [("iterations", .loose (.int a.iterations)), ("primal_residual", .number residuals.primal),
      ("solver", .loose (.text "osqp")), ("tol", .loose (tolerance options)),
      ("constraint_duals", .pieces pieces)]⟩

/-- The arguments of the run of a program, or why it cannot be run. -/
def prepare (p : Program α) (options : Options) : Result Options := do
  options.requireFree
  let missing := unsupported p.dims
  if !missing.isEmpty then throw (.conesNotSupported (missing.map Cone.name))
  settings options

def run [Zero α] [Add α] [Sub α] [Neg α] [Mul α] [OfDouble α] [Measured α] (solver : Solver α)
    (p : Program α) (l : Layout α) (options : Options) (journal : Journal) : Report (Request α) α :=
  match prepare p options with
  | .error e => ⟨.error e, none, journal⟩
  | .ok chosen =>
    let handed := request p chosen
    match solver handed with
    | .error message =>
      ⟨.ok (Solution.failed l "osqp" message), some handed, journal.add (failure message)⟩
    | .ok a =>
      let status := statusOf a.code a.iterations (limit options)
      match p.optimum status a.x with
      | .error e => ⟨.error e, some handed, journal⟩
      | .ok optimum =>
        ⟨solutionOf p l options (duals handed a) a status optimum, some handed,
          closing journal status a.iterations⟩

/-- Why a solver could not be set up. -/
inductive Fault where
  | missing
  | incomplete
  | other
deriving DecidableEq, Repr

/-- Whether the solver can be used: a solver that is missing or incomplete cannot, and any other fault in
setting it up is passed on. -/
def isAvailable (setUp : Except Fault Unit) : Except Fault Bool :=
  match setUp with
  | .ok () => .ok true
  | .error .missing => .ok false
  | .error .incomplete => .ok false
  | .error .other => .error .other

end ConicForm.Osqp
