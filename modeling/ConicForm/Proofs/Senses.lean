import ConicForm.Proofs.ReportedValue

/-!
# Senses

Maximizing an objective is minimizing its negation. The negated expression has the same variables, so that the
layout is the same, and it compiles to rows with the opposite values at every point, hence to the opposite
direction: the two programs differ in the flag of the sense only. Neither solver is handed this flag, and what is
reported for the objective changes its sign with it.
-/

namespace ConicForm

variable {α : Type}

/-! Reports of the opposite value -/

/-- The solution with the opposite value of the objective. -/
def Solution.negated [Neg α] (s : Solution α) : Solution α := { s with optimum := s.optimum.negated }

/-- The report of the opposite value for the same run. -/
def Report.negated {ρ : Type} [Neg α] (r : Report ρ α) : Report ρ α :=
  { r with outcome := r.outcome.map Solution.negated }

/-- The program that takes its direction for that of the opposite objective. -/
def Program.turned (p : Program α) : Program α := { p with maximize := !p.maximize }

section runs

variable [Ring α] [OfDouble α] {p : Program α} {l : Layout α} {options : Options} {journal : Journal}

theorem Program.objectiveValue_turned (p : Program α) (x : List α) :
    p.turned.objectiveValue x = (p.objectiveValue x).map Neg.neg := by
  unfold objectiveValue turned
  by_cases hlen : p.c.length ≠ x.length
  · rw [if_pos hlen, if_pos hlen]
    rfl
  · rw [if_neg hlen, if_neg hlen]
    cases p.d.toScalar with
    | error e => rfl
    | ok d =>
      cases p.maximize with
      | false => rfl
      | true => exact congrArg Except.ok (neg_neg _).symm

theorem Program.optimum_turned (p : Program α) (status : Status) (x : List α) :
    p.turned.optimum status x = (p.optimum status x).map Optimum.negated := by
  unfold optimum
  split
  · rw [objectiveValue_turned]
    cases p.objectiveValue x with
    | error e => rfl
    | ok y => rfl
  · cases status with
    | infeasible => rfl
    | unbounded => rfl
    | optimal => rfl
    | optimalInaccurate => rfl
    | maxIter => rfl
    | error => rfl
    | other text => rfl

omit [OfDouble α] in
theorem Clarabel.solutionOf_turned (a : Answer α) (optimum : Optimum α) :
    solutionOf p.turned l a optimum.negated = (solutionOf p l a optimum).map Solution.negated := by
  rw [solutionOf, solutionOf]
  cases l.unpack a.x with
  | error e => rfl
  | ok primal => rfl

/-- Clarabel's run of a turned program. -/
theorem Clarabel.run_turned [BEq α] (solver : Solver α) :
    run solver p.turned l options journal = (run solver p l options journal).negated := by
  have hdims : p.turned.dims = p.dims := rfl
  have hrequest : ∀ chosen, request p.turned chosen = request p chosen := fun _ => rfl
  unfold run
  rw [hdims]
  cases settings options with
  | error e => rfl
  | ok chosen =>
    cases requireCountable p.dims with
    | error e => rfl
    | ok _ =>
      simp only [bind, Except.bind, pure, Except.pure, hrequest]
      cases solver (request p chosen) with
      | error message => rfl
      | ok a =>
        simp only [Program.optimum_turned]
        cases p.optimum (statusOf a.status) a.x with
        | error e => rfl
        | ok optimum =>
          simp only [Except.map, solutionOf_turned]
          rfl

variable [Measured α]

theorem Osqp.solutionOf_turned {dual : List (NamedCone × List α)} (a : Answer α) (status : Status)
    (optimum : Optimum α) : solutionOf p.turned l options dual a status optimum.negated =
      (solutionOf p l options dual a status optimum).map Solution.negated := by
  rw [solutionOf, solutionOf]
  change (p.residuals a.x >>= _) = _
  cases p.residuals a.x with
  | error e => rfl
  | ok residuals =>
    change (l.unpack a.x >>= _) = (l.unpack a.x >>= _).map _
    cases l.unpack a.x with
    | error e => rfl
    | ok primal => rfl

/-- OSQP's run of a turned program. -/
theorem Osqp.run_turned (solver : Solver α) :
    run solver p.turned l options journal = (run solver p l options journal).negated := by
  have hprepare : prepare p.turned options = prepare p options := rfl
  have hrequest : ∀ chosen, request p.turned chosen = request p chosen := fun _ => rfl
  unfold run
  rw [hprepare]
  cases prepare p options with
  | error e => rfl
  | ok chosen =>
    simp only [hrequest]
    cases solver (request p chosen) with
    | error message => rfl
    | ok a =>
      simp only [Program.optimum_turned]
      cases p.optimum (statusOf a.code a.iterations (limit options)) a.x with
      | error e => rfl
      | ok optimum =>
        simp only [Except.map, solutionOf_turned]
        rfl

theorem Program.solve_turned [BEq α] (solvers : Solvers α) (name : SolverName) :
    p.turned.solve solvers name l options journal = (p.solve solvers name l options journal).negated := by
  cases name with
  | clarabel => exact congrArg (Report.mapHanded _) (Clarabel.run_turned _)
  | osqp => exact congrArg (Report.mapHanded _) (Osqp.run_turned _)

end runs

/-! The negated objective -/

section negation

variable {f g : Node α} {constraints : List (Node α)} {ident : Nat}

theorem toldApart_of_neg (hg : Node.neg ident f = .ok g) (h : ToldApart (g :: constraints)) :
    ToldApart (f :: constraints) := by
  have hsub : ∀ n ∈ (f :: constraints).flatMap Node.nodes, n ∈ (g :: constraints).flatMap Node.nodes := by
    obtain rfl := Node.plain_eq_ok hg
    intro n hn
    rw [List.flatMap_cons] at hn ⊢
    rcases List.mem_append.mp hn with hn | hn
    · exact List.mem_append_left _ (Node.mem_nodes_of_child List.mem_cons_self hn)
    · exact List.mem_append_right _ hn
  exact fun m hm n hn => h m (hsub m hm) n (hsub n hn)

theorem Node.leafVariables_neg {s : Shape} {data : Payload α} :
    leafVariables ⟨ident, .neg, s, [f], data⟩ = f.leafVariables := by
  rw [leafVariables_eq, if_neg (by simp), List.mapM_cons, List.mapM_nil]
  cases f.leafVariables with
  | error e => rfl
  | ok vs => exact congrArg Except.ok (List.append_nil vs)

/-- A negated objective is laid out as the objective is. -/
theorem Layout.ofProblem_neg {s : Shape} {data : Payload α} :
    ofProblem ⟨ident, .neg, s, [f], data⟩ constraints = ofProblem f constraints := by
  have hvariables : Node.problemVariables ⟨ident, .neg, s, [f], data⟩ constraints =
      f.problemVariables constraints := by
    rw [Node.problemVariables, Node.problemVariables, Node.occurrences_eq, Node.occurrences_eq,
      Node.leafVariables_neg]
  rw [ofProblem, ofProblem, hvariables]

/-- Sums of products that agree at all points have the same factors and constants. -/
theorem eq_of_dot [Ring α] {a b : List α} {j k : α} {w : Nat} (ha : a.length = w) (hb : b.length = w)
    (h : ∀ y : List α, y.length = w → Matrix.dot a y + j = Matrix.dot b y + k) : a = b ∧ j = k := by
  -- The constants are seen at the origin, and each factor at its unit vector.
  let unit (i : Nat) : List α := (List.range w).map fun n => if n = i then 1 else 0
  have hunit : ∀ c : List α, c.length = w → ∀ i < w, Matrix.dot c (unit i) = c.getD i 0 := by
    intro c hc i hi
    rw [dot_eq_sum, hc, sum_range_single hi]
    · simp [unit, hi]
    · intro n hn hne
      simp [unit, hn, hne]
  have hzero : ∀ c : List α, Matrix.dot c (List.replicate w 0) = 0 := by
    intro c
    rw [dot_eq_sum]
    apply Finset.sum_eq_zero
    intro n _
    have hn : (List.replicate w (0 : α)).getD n 0 = 0 := by
      rw [List.getD_eq_getElem?_getD, List.getElem?_getD_replicate_default_eq]
    rw [hn, mul_zero]
  have hjk : j = k := by simpa only [hzero, zero_add] using h (List.replicate w 0) List.length_replicate
  refine ⟨ext_getD 0 (ha.trans hb.symm) fun i hi => ?_, hjk⟩
  have hi' : i < w := ha ▸ hi
  have heq := h (unit i) (by simp [unit])
  rw [hunit a ha i hi', hunit b hb i hi', hjk] at heq
  exact add_right_cancel heq

theorem Node.block_neg [Zero α] [One α] [Add α] [Neg α] [Mul α] [Div α] [OfDouble α] {s : Shape}
    {data : Payload α} : (⟨ident, .neg, s, [f], data⟩ : Node α).block =
      f.block >>= fun b => Block.rule ⟨ident, .neg, s, [f], data⟩ [b] := by
  rw [block_eq, if_pos (show Kind.neg.isExpression from rfl), List.mapM_cons, List.mapM_nil]
  cases f.block with
  | error e => rfl
  | ok b => rfl

namespace Program

variable [Field α] [OfDouble α] [BEq α] {l : Layout α} {ms ms' : List (Cone × Node α)}
  {y : List α} {v : Int → Matrix α} {r r' : Rows α} {e : Failure}

variable (hg : Node.neg ident f = .ok g) (hl : l.IsOf f constraints ms) (hl' : l.IsOf g constraints ms')
  (hb : ∀ n ∈ f :: constraints, n.Built) (hb' : ∀ n ∈ g :: constraints, n.Built)

include hg hl hb in
/-- The negated objective is refused as the objective is. -/
theorem plainRows_neg_error (h : plainRows l [f] = .error e) : plainRows l [g] = .error e := by
  obtain rfl := Node.plain_eq_ok hg
  obtain ⟨n, hn, he⟩ := plainRows_eq_error hl (List.forall_mem_singleton.mpr (Node.isPart_objective hb)) h
  obtain rfl := List.mem_singleton.mp hn
  rw [plainRows, List.mapM_cons, Node.block_neg, he]
  rfl

include hg hl hl' hb hb' in
/-- The negated objective has a row if the objective has one. -/
theorem exists_plainRows_neg (h : plainRows l [f] = .ok r) : ∃ r', plainRows l [g] = .ok r' := by
  obtain ⟨block, hblock, _⟩ := plainRows_eq_ok h
  have hblock := hblock f List.mem_cons_self
  have hregular := ((Node.isPart_objective hb).sized hl hblock).regular
  have hgb : ∃ b, g.block = .ok b := by
    obtain rfl := Node.plain_eq_ok hg
    obtain ⟨c, hc, _⟩ : ∃ c, Block.rule ⟨ident, .neg, f.shape, [f], .loose .none⟩ [block f] = .ok c ∧ _ :=
      Block.neg_image hregular
    exact ⟨c, by rw [Node.block_neg, hblock]; exact hc⟩
  obtain ⟨r', hr', _⟩ := exists_plainRows hl' (List.forall_mem_singleton.mpr (Node.isPart_objective hb'))
    (List.forall_mem_singleton.mpr hgb)
  exact ⟨r', hr'⟩

include hg hl hl' hb hb' in
/-- The row of the negated objective gives the opposite value. -/
theorem plainRows_neg_gives (hs : f.shape = Shape.scalar) (hs' : g.shape = Shape.scalar)
    (hr : plainRows l [f] = .ok r) (hr' : plainRows l [g] = .ok r') (hy : l.Reads y v) :
    ∃ x, r.Gives y [x] ∧ r'.Gives y [-x] := by
  obtain ⟨⟨b, hcomp⟩, hgives⟩ := cost_gives hl hb hy hs hr
  obtain ⟨⟨b', hcomp'⟩, hgives'⟩ := cost_gives hl' hb' hy hs' hr'
  obtain ⟨φ, hφ⟩ := hb f List.mem_cons_self
  have hvalue : g.value v = (f.value v).map Neg.neg := by
    rw [(hφ.neg hg).value_eq hcomp'.admits, hφ.value_eq hcomp.admits]
  rw [hvalue, Matrix.get_map _ neg_zero] at hgives'
  exact ⟨_, hgives, hgives'⟩

include hg hl hl' hb hb' in
/-- The direction of a maximized objective is that of its minimized negation. -/
theorem costOf_neg : costOf .maximize f l = costOf .minimize g l := by
  have hshape : g.shape = f.shape := by
    obtain rfl := Node.plain_eq_ok hg
    rfl
  by_cases hs : f.shape = Shape.scalar
  · have hs' := hshape.trans hs
    cases hr : plainRows l [f] with
    | error e =>
      rw [costOf, costOf, if_neg (not_not.mpr hs), if_neg (not_not.mpr hs'), hr, plainRows_neg_error hg hl hb hr]
      rfl
    | ok r =>
      obtain ⟨r', hr'⟩ := exists_plainRows_neg hg hl hl' hb hb' hr
      have hsize := objective_hasSize hl hb hs hr
      have hsize' := objective_hasSize hl' hb' hs' hr'
      obtain ⟨vs, hvs⟩ := hl.orders
      obtain ⟨hc, hk⟩ : (r.G.row 0).map (Sense.signed .maximize) = (r'.G.row 0).map (Sense.signed .minimize) ∧
          Sense.signed .maximize (r.g.toReals.asRows.get 0 0) =
            Sense.signed .minimize (r'.g.toReals.asRows.get 0 0) := by
        refine eq_of_dot (w := l.width) ?_ ?_ fun y hy => ?_
        · rw [List.length_map, Matrix.length_row, hsize.cols_eq]
        · rw [List.length_map, Matrix.length_row, hsize'.cols_eq]
        · obtain ⟨_, _, _, hreads⟩ := Layout.unpack_reads hvs hy
          obtain ⟨x, hgives, hgives'⟩ := plainRows_neg_gives hg hl hl' hb hb' hs hs' hr hr' hreads
          obtain ⟨_, k, hk, hdot⟩ := direction_gives hgives (direction_row .maximize hsize)
          obtain ⟨_, k', hk', hdot'⟩ := direction_gives hgives' (direction_row .minimize hsize')
          obtain rfl := Except.ok.inj hk
          obtain rfl := Except.ok.inj hk'
          exact hdot.trans hdot'.symm
      rw [costOf_eq hs hr hsize, costOf_eq hs' hr' hsize', hc, hk]
  · rw [costOf, costOf, if_pos hs, if_pos (hshape ▸ hs), hshape]
    rfl

include hg hl hl' hb hb' in
/-- The program of a maximized objective is that of its minimized negation, turned. -/
theorem assemble_neg (ht : ToldApart (f :: constraints)) (ht' : ToldApart (g :: constraints)) :
    assemble .maximize f l = (assemble .minimize g l).map turned := by
  rw [assemble_eq ht hl, assemble_eq ht' hl', assemblePlainly, assemblePlainly, costOf_neg hg hl hl' hb hb']
  cases costOf .minimize g l with
  | error e => rfl
  | ok cost =>
    cases rowsOfCones l with
    | error e => rfl
    | ok rows => rfl

end Program

end negation

/-- Maximizing an objective is minimizing its negation: a solver is handed the same in both cases, and the reports
differ in the sign of the value only. -/
theorem maximize_eq_minimize_neg {α : Type} [Field α] [OfDouble α] [BEq α] [Measured α] {f g : Node α}
    {constraints : List (Node α)} {ident : Nat} (hb : ∀ n ∈ f :: constraints, n.Built)
    (hg : Node.neg ident f = .ok g) (ht : ToldApart (g :: constraints)) (solvers : Solvers α)
    (options : Options) (solver : Value) :
    (solve solvers .maximize f constraints options solver).handed =
        (solve solvers .minimize g constraints options solver).handed ∧
      (solve solvers .maximize f constraints options solver).outcome =
        (solve solvers .minimize g constraints options solver).outcome.map Solution.negated ∧
      (solve solvers .maximize f constraints options solver).journal =
        (solve solvers .minimize g constraints options solver).journal := by
  suffices hsolve : solve solvers .maximize f constraints options solver =
      (solve solvers .minimize g constraints options solver).negated by
    rw [hsolve]
    exact ⟨rfl, rfl, rfl⟩
  have hlayout : Layout.ofProblem g constraints = Layout.ofProblem f constraints := by
    obtain rfl := Node.plain_eq_ok hg
    exact Layout.ofProblem_neg
  have hb' : ∀ n ∈ g :: constraints, n.Built := by
    obtain ⟨φ, hφ⟩ := hb f List.mem_cons_self
    exact List.forall_mem_cons.mpr ⟨⟨_, hφ.neg hg⟩, (List.forall_mem_cons.mp hb).2⟩
  rw [solve, solve, hlayout]
  cases SolverName.ofValue solver with
  | error e => rfl
  | ok name =>
    cases hl : Layout.ofProblem f constraints with
    | error e => rfl
    | ok l =>
      obtain ⟨ms, hms⟩ := Layout.ofProblem_eq_ok hb hl
      obtain ⟨ms', hms'⟩ := Layout.ofProblem_eq_ok hb' (hlayout.trans hl)
      simp only [Program.assemble_neg hg hms hms' hb hb' (toldApart_of_neg hg ht) ht]
      cases Program.assemble .minimize g l with
      | error e => rfl
      | ok p => exact Program.solve_turned solvers name

namespace Sample

def loss : Node ℚ := ⟨13, .neg, ⟨1, 1⟩, [gain], .loose .none⟩

theorem toldApart_loss : ToldApart [loss, ceiling] := by
  have hnodes : [loss, ceiling].flatMap Node.nodes = [loss, gain, level, two, ceiling,
    ⟨11, .sum, ⟨1, 1⟩, [level, minusFive], .loose .none⟩, level, minusFive] := rfl
  rw [ToldApart, hnodes]
  simp [loss, gain, level, two, ceiling, minusFive]

end Sample

theorem maximize_eq_minimize_neg_gain : ∃ handed sol,
    (solve Sample.solvers .minimize Sample.loss [Sample.ceiling] [] (.text "clarabel")).handed = some handed ∧
      (solve Sample.solvers .minimize Sample.loss [Sample.ceiling] [] (.text "clarabel")).outcome = .ok sol ∧
      sol.optimum = .value (-7) ∧
      (solve Sample.solvers .maximize Sample.gain [Sample.ceiling] [] (.text "clarabel")).handed = some handed ∧
      (solve Sample.solvers .maximize Sample.gain [Sample.ceiling] [] (.text "clarabel")).outcome =
        .ok sol.negated := by
  let least := solve Sample.solvers .minimize Sample.loss [Sample.ceiling] [] (.text "clarabel")
  obtain ⟨handed, hhanded⟩ := Option.isSome_iff_exists.mp (show least.handed.isSome = true by decide +kernel)
  obtain ⟨sol, hsol⟩ := exists_of_isOk (show least.outcome.isOk = true by decide +kernel)
  have hvalue : least.outcome.toOption.map Solution.optimum = some (.value (-7)) := by decide +kernel
  obtain ⟨hsame, hnegated, _⟩ := maximize_eq_minimize_neg Sample.built_gain
    (show Node.neg 13 Sample.gain = .ok Sample.loss from rfl) Sample.toldApart_loss Sample.solvers []
    (.text "clarabel")
  rw [hsol] at hvalue
  exact ⟨handed, sol, hhanded, hsol, Option.some.inj hvalue, hsame.trans hhanded, hnegated.trans (by rw [hsol]; rfl)⟩

end ConicForm
