import ConicForm.Options
import ConicForm.Report
import ConicForm.Sparse

/-!
# Clarabel

Clarabel minimizes `½ xᵀ P x + q · x` such that `A x + s = b` with `s` in a product of cones, so that a
program goes to it as it stands, with `P = 0`. `cones` lists the cones in row order, `request` is what
the solver is handed, and `run` makes a solution of what it answers.
-/

namespace ConicForm.Clarabel

variable {α : Type}

inductive SolverCone where
  | zero (rows : Nat)
  | nonnegative (rows : Nat)
  | secondOrder (rows : Nat)
  | exponential
deriving DecidableEq, Repr

namespace SolverCone

def rows : SolverCone → Nat
  | .zero n => n
  | .nonnegative n => n
  | .secondOrder n => n
  | .exponential => 3

end SolverCone

/-- The cones of a program in row order; a zero cone or an orthant without rows is left out. -/
def cones (dims : ConeDims) : List SolverCone :=
  (if 0 < dims.zero then [.zero dims.zero.toNat] else []) ++
    (if 0 < dims.nonneg then [.nonnegative dims.nonneg.toNat] else []) ++
    dims.soc.map (fun n => .secondOrder n.toNat) ++ List.replicate dims.exp.toNat .exponential

/-- Whether the solver can count as many rows. -/
def countable (n : Int) : Bool := n < (Nat.pow 2 64 : Nat)

/-- Refuses dimensions that the solver cannot count: rows past the unsigned words, and second-order cones
of fewer than no rows. -/
def requireCountable (dims : ConeDims) : Result Unit :=
  if countable dims.zero && countable dims.nonneg && dims.soc.all fun n => 0 ≤ n && countable n then
    .ok ()
  else .error .tooLarge

def settingNames : List String :=
  ["chordal_decomposition_compact", "chordal_decomposition_complete_dual",
    "chordal_decomposition_enable", "chordal_decomposition_merge_method", "default",
    "direct_kkt_solver", "direct_solve_method", "dynamic_regularization_delta",
    "dynamic_regularization_enable", "dynamic_regularization_eps", "equilibrate_enable",
    "equilibrate_max_iter", "equilibrate_max_scaling", "equilibrate_min_scaling",
    "input_sparse_dropzeros", "iterative_refinement_abstol", "iterative_refinement_enable",
    "iterative_refinement_max_iter", "iterative_refinement_reltol",
    "iterative_refinement_stop_ratio", "linesearch_backtrack_step", "max_iter", "max_step_fraction",
    "max_threads", "min_switch_step_length", "min_terminate_step_length", "pardiso_iparm",
    "pardiso_verbose", "presolve_enable", "reduced_tol_feas", "reduced_tol_gap_abs",
    "reduced_tol_gap_rel", "reduced_tol_infeas_abs", "reduced_tol_infeas_rel", "reduced_tol_ktratio",
    "static_regularization_constant", "static_regularization_enable",
    "static_regularization_proportional", "time_limit", "tol_feas", "tol_gap_abs", "tol_gap_rel",
    "tol_infeas_abs", "tol_infeas_rel", "tol_ktratio", "verbose"]

/-- Why an option cannot be set, if it cannot: the name must be that of a setting, and the defaults as such
are only read. -/
def refusal? (name : String) : Option Failure :=
  if !settingNames.contains name then some (.unknownSetting name)
  else if name = "default" then some .readOnlySetting
  else none

/-- The settings for some options, all of which must be settings; the solver is quiet unless told
otherwise. -/
def settings (options : Options) : Result Options := do
  options.requireFree
  match options.findSome? fun e => refusal? e.1 with
  | some f => throw f
  | none => return Options.sorted (Keyed.put options "verbose" (options.getOr "verbose" (.truth false)))

/-- What the solver is handed; its `P` is zero. -/
structure Request (α : Type) where
  q : List α
  A : Sparse α
  b : List α
  cones : List SolverCone
  settings : Options
deriving DecidableEq

def request [Zero α] [BEq α] [OfDouble α] (p : Program α) (settings : Options) : Request α :=
  ⟨p.c, Sparse.ofMatrix p.A, p.b.toReals.toList, cones p.dims, settings⟩

/-- What the solver answers: a point, a multiplier for each row and how it ended. -/
structure Answer (α : Type) where
  status : String
  x : List α
  z : List α
  iterations : Int
  /-- The time taken, in seconds. -/
  time : Double
deriving DecidableEq

/-- A solver answers a request or breaks off with a message. -/
abbrev Solver (α : Type) := Request α → Except String (Answer α)

/-- The text after the last point. -/
def lastPart (s : String) : String :=
  String.ofList (s.toList.reverse.takeWhile (· ≠ '.')).reverse

/-- How a run ended, by the name that the solver has for it. -/
def statusOf (name : String) : Status :=
  match lastPart name with
  | "Solved" => .optimal
  | "AlmostSolved" => .optimalInaccurate
  | "PrimalInfeasible" => .infeasible
  | "AlmostPrimalInfeasible" => .infeasible
  | "DualInfeasible" => .unbounded
  | "AlmostDualInfeasible" => .unbounded
  | "MaxIterations" => .maxIter
  | _ => .error

def opening (p : Program α) : Entry :=
  ⟨.debug, .clarabel,
    "Clarabel: " ++ toString p.width ++ " variables, " ++ toString p.height ++ " rows, " ++
      toString (cones p.dims).length ++ " cones"⟩

def closing (a : Answer α) : Entry :=
  if statusOf a.status = .optimal then
    ⟨.info, .clarabel, "Clarabel solved in " ++ toString a.iterations ++ " iterations"⟩
  else ⟨.warning, .clarabel, "Clarabel finished with status " ++ a.status⟩

def failure (message : String) : Entry := ⟨.warning, .clarabel, "Clarabel failed: " ++ message⟩

def details (l : Layout α) (a : Answer α) : List (String × Detail α) :=
  [("iterations", .loose (.int a.iterations)), ("solve_time", .loose (.real a.time)),
    ("raw_status", .loose (.text a.status)), ("solver", .loose (.text "clarabel")),
    ("constraint_duals", .pieces (l.splitByConstraint a.z))]

/-- The solution that an answer stands for, with a known objective value. -/
def solutionOf [Zero α] (p : Program α) (l : Layout α) (a : Answer α) (optimum : Optimum α) :
    Result (Solution α) := do
  let primal ← l.unpack a.x
  let dual := (p.dims.split a.z).toList.map fun e => (NamedCone.supported e.1, e.2)
  return ⟨statusOf a.status, optimum, primal, dual, details l a⟩

def run [Zero α] [Add α] [Neg α] [Mul α] [BEq α] [OfDouble α] (solver : Solver α) (p : Program α)
    (l : Layout α) (options : Options) (journal : Journal) : Report (Request α) α :=
  let prepared : Result Options := do
    let chosen ← settings options
    requireCountable p.dims
    return chosen
  match prepared with
  | .error e => ⟨.error e, none, journal⟩
  | .ok chosen =>
    let handed := request p chosen
    let begun := journal.add (opening p)
    match solver handed with
    | .error message =>
      ⟨.ok (Solution.failed l "clarabel" message), some handed, begun.add (failure message)⟩
    | .ok a =>
      match p.optimum (statusOf a.status) a.x with
      | .error e => ⟨.error e, some handed, begun⟩
      | .ok optimum => ⟨solutionOf p l a optimum, some handed, begun.add (closing a)⟩

end ConicForm.Clarabel
