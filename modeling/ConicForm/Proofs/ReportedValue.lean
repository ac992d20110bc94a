import ConicForm.Proofs.ConstraintRows
import ConicForm.Proofs.Residuals
import ConicForm.Solve

/-!
# Reported values

When a solver answers with a point that counts as solved, the value that is reported is the value of the
objective at the values of the variables that are reported, for both senses and both solvers.
-/

namespace ConicForm

variable {α : Type}

namespace Handed

/-- What the solver minimizes over its point. -/
def q : Handed α → List α
  | .clarabel r => r.q
  | .osqp r => r.q

/-- How the solver that was handed a request ends, and at which point. -/
def answer (solvers : Solvers α) (options : Options) : Handed α → Except String (Status × List α)
  | .clarabel r => (solvers.clarabel r).map fun a => (Clarabel.statusOf a.status, a.x)
  | .osqp r =>
    (solvers.osqp r).map fun a => (Osqp.statusOf a.code a.iterations (Osqp.limit options), a.x)

end Handed

section runs

variable {p : Program α} {l : Layout α} {options : Options} {journal : Journal}

theorem Clarabel.run_answered [Zero α] [Add α] [Neg α] [Mul α] [BEq α] [OfDouble α] {solver : Solver α}
    {r : Request α} {a : Answer α} (hr : (run solver p l options journal).handed = some r)
    (ha : solver r = .ok a) :
    (∃ chosen, r = request p chosen) ∧ (run solver p l options journal).outcome =
      p.optimum (statusOf a.status) a.x >>= solutionOf p l a := by
  unfold run at hr ⊢
  simp only at hr ⊢
  split at hr
  · cases hr
  next chosen hprepared =>
  have hrequest : r = request p chosen := by
    split at hr
    · exact (Option.some.inj hr).symm
    · split at hr
      · exact (Option.some.inj hr).symm
      · exact (Option.some.inj hr).symm
  subst hrequest
  simp only [ha]
  refine ⟨⟨chosen, rfl⟩, ?_⟩
  cases p.optimum (statusOf a.status) a.x with
  | error e => rfl
  | ok optimum => rfl

theorem Osqp.handed_eq_some [Zero α] [Add α] [Sub α] [Neg α] [Mul α] [OfDouble α] [Measured α] {solver : Solver α}
    {r : Request α} : (run solver p l options journal).handed = some r ↔
      ∃ chosen, prepare p options = .ok chosen ∧ r = request p chosen := by
  unfold run
  cases prepare p options with
  | error e => simp
  | ok chosen =>
    have hsome : some (request p chosen) = some r ↔ r = request p chosen := Option.some_inj.trans eq_comm
    simp only [Except.ok.injEq, exists_eq_left']
    split
    · exact hsome
    · split
      · exact hsome
      · exact hsome

theorem Osqp.run_answered [Zero α] [Add α] [Sub α] [Neg α] [Mul α] [OfDouble α] [Measured α]
    {solver : Solver α} {r : Request α} {a : Answer α}
    (hr : (run solver p l options journal).handed = some r) (ha : solver r = .ok a) :
    (∃ chosen, r = request p chosen) ∧ (run solver p l options journal).outcome =
      p.optimum (statusOf a.code a.iterations (limit options)) a.x >>=
        solutionOf p l options (duals r a) a (statusOf a.code a.iterations (limit options)) := by
  obtain ⟨chosen, hprepared, rfl⟩ := handed_eq_some.mp hr
  refine ⟨⟨chosen, rfl⟩, ?_⟩
  unfold run
  simp only [hprepared, ha]
  cases p.optimum (statusOf a.code a.iterations (limit options)) a.x with
  | error e => rfl
  | ok optimum => rfl

theorem Clarabel.solutionOf_solved [Zero α] {a : Answer α} {optimum : Optimum α}
    {primal : List (Int × Matrix α)} (h : l.unpack a.x = .ok primal) :
    ∃ sol, solutionOf p l a optimum = .ok sol ∧ sol.status = statusOf a.status ∧ sol.optimum = optimum ∧
      sol.primal = primal ∧ sol.dual = (p.dims.split a.z).toList.map (fun e => (NamedCone.supported e.1, e.2)) ∧
      Keyed.get? sol.info "constraint_duals" = some (.pieces (l.splitByConstraint a.z)) := by
  rw [solutionOf, h]
  exact ⟨_, rfl, rfl, rfl, rfl, rfl, rfl⟩

theorem Osqp.solutionOf_solved [Zero α] [Add α] [Sub α] [Mul α] [OfDouble α] [Measured α] {a : Answer α}
    {status : Status} {optimum : Optimum α} {primal : List (Int × Matrix α)} {dual : List (NamedCone × List α)}
    (hcols : p.A.cols = a.x.length) (hb : p.b.IsColumn p.A.rows) (h : l.unpack a.x = .ok primal) :
    ∃ sol, solutionOf p l options dual a status optimum = .ok sol ∧ sol.status = status ∧ sol.optimum = optimum ∧
      sol.primal = primal ∧ sol.dual = dual ∧ Keyed.get? sol.info "constraint_duals" =
        some (.pieces (l.splitByConstraint (dual.map Prod.snd).flatten)) := by
  obtain ⟨r, hr⟩ := Program.exists_residuals hcols hb
  rw [solutionOf, hr, h]
  exact ⟨_, rfl, rfl, rfl, rfl, rfl, rfl⟩

end runs

section

variable [Field α] [OfDouble α] [BEq α] {objective : Node α} {constraints : List (Node α)} {l : Layout α}
  {sense : Sense} {p : Program α} {y : List α} {v : Int → Matrix α}

omit [BEq α] in
/-- The value of a program at a point that reads as `v` is the value of its objective there. -/
theorem Program.Agrees.optimum_eq (h : p.Agrees sense objective l y v) {status : Status}
    (hs : status.isSolved) : p.optimum status y = .ok (.value ((objective.value v).get 0 0)) := by
  obtain ⟨d, hd, hcost⟩ := h.cost_eq
  have hvalue : p.objectiveValue y = .ok ((objective.value v).get 0 0) := by
    rw [objectiveValue, if_neg (not_not.mpr h.length_c), hd]
    refine congrArg Except.ok ?_
    rw [hcost, h.maximize_eq]
    cases sense with
    | minimize => rfl
    | maximize => exact neg_neg _
  unfold optimum
  rw [if_pos hs, hvalue]
  rfl

variable [Measured α] {solvers : Solvers α} {options : Options} {solver : Value} {handed : Handed α}
  {status : Status}

/-- An accepted problem is handed to the solver that is named. -/
theorem Accepted.solve_eq (h : Accepted sense objective constraints l p) {name : SolverName}
    (hn : SolverName.ofValue solver = .ok name) :
    solve solvers sense objective constraints options solver =
      p.solve solvers name l options (l.journal.add p.entry) := by
  simp only [solve, hn, h.laidOut, h.assembled]

/-- Either solver's report of a point that counts as solved. -/
theorem Program.Agrees.solve_reports {name : SolverName} {journal : Journal} {primal : List (Int × Matrix α)}
    (h : p.Agrees sense objective l y v) (hunpack : l.unpack y = .ok primal)
    (hh : (p.solve solvers name l options journal).handed = some handed)
    (ha : handed.answer solvers options = .ok (status, y)) (hs : status.isSolved) :
    handed.q = p.c ∧ ∃ sol, (p.solve solvers name l options journal).outcome = .ok sol ∧
      sol.status = status ∧ sol.primal = primal ∧ sol.optimum = .value ((objective.value v).get 0 0) := by
  have hoptimum := h.optimum_eq hs
  cases name with
  | clarabel =>
    obtain ⟨r, hr, rfl⟩ := Option.map_eq_some_iff.mp hh
    obtain ⟨a, hanswer, he⟩ := map_eq_ok.mp ha
    obtain ⟨rfl, rfl⟩ := Prod.mk.inj he
    obtain ⟨⟨_, rfl⟩, hrun⟩ := Clarabel.run_answered hr hanswer
    rw [hoptimum] at hrun
    obtain ⟨sol, hsol, hstatus, hvalue, hprimal, _⟩ := Clarabel.solutionOf_solved hunpack
    exact ⟨rfl, sol, hrun.trans hsol, hstatus, hprimal, hvalue⟩
  | osqp =>
    obtain ⟨r, hr, rfl⟩ := Option.map_eq_some_iff.mp hh
    obtain ⟨a, hanswer, he⟩ := map_eq_ok.mp ha
    obtain ⟨rfl, rfl⟩ := Prod.mk.inj he
    obtain ⟨⟨_, rfl⟩, hrun⟩ := Osqp.run_answered hr hanswer
    rw [hoptimum] at hrun
    obtain ⟨sol, hsol, hstatus, hvalue, hprimal, _⟩ :=
      Osqp.solutionOf_solved h.leaves.cols_eq h.leaves.column hunpack
    exact ⟨rfl, sol, hrun.trans hsol, hstatus, hprimal, hvalue⟩

/-- The value reported for a solved problem is the value of the objective at the values reported for the
variables. The solver minimizes this value up to a constant, or its negation where the problem asks for the
maximum. -/
theorem reported_value (h : Accepted sense objective constraints l p)
    (hh : (solve solvers sense objective constraints options solver).handed = some handed)
    (ha : handed.answer solvers options = .ok (status, y)) (hs : status.isSolved) (hy : y.length = l.width) :
    handed.q = p.c ∧
      ∃ sol d, (solve solvers sense objective constraints options solver).outcome = .ok sol ∧
        sol.status = status ∧ l.unpack y = .ok sol.primal ∧
        (objective.value (Layout.valuesOf sol.primal)).shape = Shape.scalar ∧
        (∀ f, objective.Denotes f →
          objective.value (Layout.valuesOf sol.primal) = f (Layout.valuesOf sol.primal)) ∧
        sol.optimum = .value ((objective.value (Layout.valuesOf sol.primal)).get 0 0) ∧
        p.d.toScalar = .ok d ∧
        Matrix.dot p.c y + d = sense.signed ((objective.value (Layout.valuesOf sol.primal)).get 0 0) := by
  obtain ⟨vs, hvs⟩ := h.orders
  obtain ⟨primal, hunpack, _, hreads⟩ := Layout.unpack_reads hvs hy
  have hagrees := h.agrees hreads
  obtain ⟨d, hd, hcost⟩ := hagrees.cost_eq
  obtain ⟨b, hcomp⟩ := hagrees.objective_compiles
  obtain ⟨name, hn⟩ : ∃ name, SolverName.ofValue solver = .ok name := by
    cases hn : SolverName.ofValue solver with
    | error e =>
      simp only [solve, hn] at hh
      cases hh
    | ok name => exact ⟨name, rfl⟩
  rw [h.solve_eq hn] at hh ⊢
  obtain ⟨hq, sol, hsol, hstatus, rfl, hvalue⟩ := hagrees.solve_reports hunpack hh ha hs
  exact ⟨hq, sol, d, hsol, hstatus, hunpack, hcomp.shape_eq.trans hagrees.scalar,
    fun f hf => hf.value_eq hcomp.admits, hvalue, hd, hcost⟩

end

namespace Sample

def two : Node ℚ := ⟨8, .scalarConst, ⟨1, 1⟩, [], .scalar 2⟩

/-- Two more than the level. -/
def gain : Node ℚ := ⟨9, .sum, ⟨1, 1⟩, [level, two], .loose .none⟩

def minusFive : Node ℚ := ⟨10, .scalarConst, ⟨1, 1⟩, [], .scalar (-5)⟩

/-- The level is at most five. -/
def ceiling : Node ℚ :=
  ⟨12, .leq, ⟨1, 1⟩, [⟨11, .sum, ⟨1, 1⟩, [level, minusFive], .loose .none⟩], .loose .none⟩

def gainLayout : Layout ℚ where
  members := ⟨[], [⟨11, .sum, ⟨1, 1⟩, [level, minusFive], .loose .none⟩], [], []⟩
  dims := ⟨[0], [1], [], [0]⟩
  offsets := [(7, 0)]
  shapes := [(7, ⟨1, 1⟩)]
  width := 1
  ranges := [⟨.leq, 0, 1⟩]

/-- Solvers that find the level of five. -/
def solvers : Solvers ℚ where
  clarabel _ := .ok ⟨"Solved", [5], [1], 6, ⟨0⟩⟩
  osqp _ := .ok ⟨1, [5], [], [1], 25⟩

theorem ofProblem_gain : Layout.ofProblem gain [ceiling] = .ok gainLayout := by
  have hasc : Variable.Ascending [.ofShape 7 ⟨1, 1⟩] := List.pairwise_singleton _ _
  exact Layout.ofProblem_of_perm rfl rfl rfl rfl rfl (by decide) hasc rfl

theorem built_gain : ∀ n ∈ [gain, ceiling], n.Built := by
  have hsum : ∀ {ident : Nat} {x n : Node ℚ}, x.Built → Node.sum ident [level, x] = .ok n → n.Built := by
    intro ident x n hx h
    have hterms : ∀ t ∈ [level, x], t.Built := by
      simp only [List.mem_cons, List.not_mem_nil, or_false]
      rintro t (rfl | rfl)
      · exact built_level
      · exact hx
    exact .sum hterms h
  have htwo : two.Built := ⟨_, .scalarConst (show Node.scalarConst 8 2 = .ok two from rfl)⟩
  have hfive : minusFive.Built :=
    ⟨_, .scalarConst (show Node.scalarConst 10 (-5) = .ok minusFive from rfl)⟩
  have hmargin := hsum hfive (show Node.sum 11 [level, minusFive] = .ok _ from rfl)
  simp only [List.mem_cons, List.not_mem_nil, or_false]
  rintro n (rfl | rfl)
  · exact hsum htwo (show Node.sum 9 [level, two] = .ok gain from rfl)
  · exact .constraint hmargin (by simp) (show Node.leq 12 _ = .ok ceiling from rfl)

theorem toldApart_gain : ToldApart [gain, ceiling] := by
  have hnodes : [gain, ceiling].flatMap Node.nodes = [gain, level, two, ceiling,
    ⟨11, .sum, ⟨1, 1⟩, [level, minusFive], .loose .none⟩, level, minusFive] := rfl
  rw [ToldApart, hnodes]
  simp [gain, level, two, ceiling, minusFive]

theorem exists_accepted_gain : ∃ p, Accepted .maximize gain [ceiling] gainLayout p := by
  obtain ⟨p, hp⟩ := exists_of_isOk (show (Program.assemble .maximize gain gainLayout).isOk = true by decide +kernel)
  exact ⟨p, built_gain, toldApart_gain, ofProblem_gain, hp⟩

/-- Either solver's point has a level of five, with the value seven. -/
theorem value_gain {primal : List (Int × Matrix ℚ)} (h : gainLayout.unpack [5] = .ok primal) :
    (gain.value (Layout.valuesOf primal)).get 0 0 = 7 := by
  obtain rfl : [(7, Matrix.ofVec 1 1 [5])] = primal := Except.ok.inj h
  decide +kernel

end Sample

theorem reported_value_gain :
    (∃ sol, (solve Sample.solvers .maximize Sample.gain [Sample.ceiling] [] (.text "clarabel")).outcome = .ok sol ∧
      sol.optimum = .value 7) ∧
    ∃ sol, (solve Sample.solvers .maximize Sample.gain [Sample.ceiling] [] (.text "osqp")).outcome = .ok sol ∧
      sol.optimum = .value 7 := by
  obtain ⟨p, h⟩ := Sample.exists_accepted_gain
  have hanswer : ∀ handed : Handed ℚ, handed.answer Sample.solvers [] = .ok (.optimal, [5]) := by
    rintro (r | r)
    · rfl
    · rfl
  constructor
  · obtain ⟨handed, hh⟩ := Option.isSome_iff_exists.mp (show (solve Sample.solvers .maximize Sample.gain
      [Sample.ceiling] [] (.text "clarabel")).handed.isSome = true by decide +kernel)
    obtain ⟨_, sol, _, hsol, _, hprimal, _, _, hvalue, _⟩ := reported_value h hh (hanswer handed)
      rfl rfl
    exact ⟨sol, hsol, hvalue.trans (congrArg Optimum.value (Sample.value_gain hprimal))⟩
  · obtain ⟨handed, hh⟩ := Option.isSome_iff_exists.mp (show (solve Sample.solvers .maximize Sample.gain
      [Sample.ceiling] [] (.text "osqp")).handed.isSome = true by decide +kernel)
    obtain ⟨_, sol, _, hsol, _, hprimal, _, _, hvalue, _⟩ := reported_value h hh (hanswer handed)
      rfl rfl
    exact ⟨sol, hsol, hvalue.trans (congrArg Optimum.value (Sample.value_gain hprimal))⟩

end ConicForm
