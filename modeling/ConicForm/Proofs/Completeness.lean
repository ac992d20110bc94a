import ConicForm.Proofs.LinearRows
import ConicForm.Proofs.Packing

/-!
# Complete solutions

Whatever becomes of a solver's run, there is a solution with a value of its shape for each variable. Where the solver
broke off, the values are no numbers and nothing else is said; where it answered, the value of the objective is the
one that goes with how it ended, and each constraint has a multiplier for each entry. This needs nothing of the
scalars' arithmetic, and holds without variables or rows as well.
-/

namespace ConicForm

variable {α : Type}

/-! Solutions and how the solver ended -/

/-- Whether a solution has a value of its shape for each variable of a layout, and for no others. -/
def Solution.Covers (sol : Solution α) (l : Layout α) : Prop :=
  sol.primal.map Prod.fst = l.offsets.map Prod.fst ∧
    ∀ e ∈ sol.primal, Keyed.get? l.shapes e.1 = some e.2.shape

/-- Whether a solution says no more than that the solver broke off. -/
structure Solution.BrokeOff [Zero α] [OfDouble α] (sol : Solution α) : Prop where
  status_eq : sol.status = .error
  optimum_eq : sol.optimum = .undefined
  primal_eq : ∀ e ∈ sol.primal, ∀ i j, i < e.2.rows → j < e.2.cols → e.2.get i j = notANumber α
  dual_eq : sol.dual = []

/-- Whether a list has one vector for each constraint, with an entry for each of the expression that it wraps. -/
def PiecesFor (constraints : List (Node α)) (pieces : List (List α)) : Prop :=
  List.Forall₂ (fun n piece => ∃ child, n.children = [child] ∧ piece.length = child.size) constraints pieces

section

variable [Zero α] [Add α] [Neg α] [Mul α] [OfDouble α]

/-- Whether a value is the one to report for a program of a sense if the solver ended in a certain way at `x`. -/
def Optimum.GoesWith (o : Optimum α) (p : Program α) (sense : Sense) (x : List α) : Status → Prop
  | .optimal => ∃ v, p.objectiveValue x = .ok v ∧ o = .value v
  | .optimalInaccurate => ∃ v, p.objectiveValue x = .ok v ∧ o = .value v
  | .infeasible => o = .infinite (sense = .maximize)
  | .unbounded => o = .infinite (sense = .minimize)
  | _ => o = .undefined

/-- Whether a solution reports how the solver ended and at which point. -/
structure Solution.Reports (sol : Solution α) (p : Program α) (l : Layout α) (sense : Sense)
    (constraints : List (Node α)) (status : Status) (x : List α) : Prop where
  status_eq : sol.status = status
  unpack_eq : l.unpack x = .ok sol.primal
  optimum_goesWith : sol.optimum.GoesWith p sense x status
  exists_pieces : ∃ pieces, Keyed.get? sol.info "constraint_duals" = some (.pieces pieces) ∧
    PiecesFor constraints pieces

/-- Whether a solution is one for how the solver ended: that it broke off, or at which point it answered. -/
def Solution.Tells (sol : Solution α) (p : Program α) (l : Layout α) (sense : Sense) (constraints : List (Node α)) :
    Except String (Status × List α) → Prop
  | .error _ => sol.BrokeOff
  | .ok (status, x) => sol.Reports p l sense constraints status x

end

/-- Whether an answer, if the solver gives one, has an entry for each column of the program and a multiplier for each
row that the solver was handed. -/
def Handed.WellAnswered (solvers : Solvers α) (p : Program α) : Handed α → Prop
  | .clarabel r => ∀ a, solvers.clarabel r = .ok a → a.x.length = p.width ∧ a.z.length = p.height
  | .osqp r => ∀ a, solvers.osqp r = .ok a → a.x.length = p.width ∧
      (∀ rows, r.eq = some rows → a.dualEq.length = rows.A.rows) ∧
      ∀ rows, r.ineq = some rows → a.dualIneq.length = rows.A.rows

/-- Whether a solver takes a program of some constraints with some options. Clarabel counts rows in words of
sixty-four bits, which leaves out no matrix that is held in memory. -/
def SolverName.Takes (name : SolverName) (p : Program α) (constraints : List (Node α)) (options : Options) : Prop :=
  match name with
  | .clarabel => p.height < 2 ^ 64 ∧ ∃ chosen, Clarabel.settings options = .ok chosen
  | .osqp => (∀ n ∈ constraints, n.kind = .eq ∨ n.kind = .leq) ∧ options.requireFree = .ok () ∧
      ∃ chosen, Osqp.settings options = .ok chosen

/-! Values of the variables -/

section values

variable {l : Layout α} {vs : List Variable}

theorem Layout.Orders.covers (h : l.Orders vs) {sol : Solution α} {x : Int × Shape → Matrix α}
    (hprimal : sol.primal = l.shapes.map fun e => (e.1, x e)) (hshape : ∀ e ∈ l.shapes, (x e).shape = e.2) :
    sol.Covers l := by
  constructor
  · rw [h.keys_eq, hprimal, List.map_map]
    rfl
  · intro e he
    rw [hprimal] at he
    obtain ⟨e', he', rfl⟩ := List.mem_map.mp he
    rw [hshape e' he']
    exact Keyed.get?_eq_some_of_mem h.nodup_shapes he'

variable [Zero α]

/-- Unpacking a point of the right length gives each variable a value of its shape. -/
theorem Layout.Orders.exists_unpack (h : l.Orders vs) {y : List α} (hy : y.length = l.width) :
    ∃ primal, l.unpack y = .ok primal ∧ ∀ sol : Solution α, sol.primal = primal → sol.Covers l := by
  obtain ⟨x, hunpack, hreads⟩ := Layout.unpack_eq_ok h hy
  refine ⟨_, hunpack, fun sol hsol => h.covers (x := fun e => x e.1) hsol fun e he => ?_⟩
  obtain ⟨_, hholds⟩ := h.holds_of_mem he
  exact hreads.shape_eq hholds

omit [Zero α] in
theorem Layout.Orders.failed_covers [OfDouble α] (h : l.Orders vs) (solver message : String) :
    (Solution.failed l solver message).Covers l :=
  h.covers (x := fun e => Matrix.const e.2.rows e.2.cols (notANumber α)) rfl fun _ _ => rfl

theorem Solution.failed_brokeOff [OfDouble α] (l : Layout α) (solver message : String) :
    (failed l solver message).BrokeOff := by
  refine ⟨rfl, rfl, fun e he i j hi hj => ?_, rfl⟩
  obtain ⟨_, _, rfl⟩ := List.mem_map.mp he
  exact Matrix.get_ofFn _ hi hj

end values

/-! Multipliers of the constraints -/

/-- Entries in rows that there are. -/
theorem RowRange.length_entries {r : RowRange} {z : List α} (hfirst : 0 ≤ r.first)
    (hlast : r.first + r.count ≤ z.length) : (r.entries z).length = r.count := by
  obtain ⟨first, h⟩ := Int.eq_ofNat_of_zero_le hfirst
  rw [h] at hlast
  rw [entries, h, Axis.slice_ofNat (by omega), List.length_take, List.length_drop]
  omega

theorem Layout.Parts.piecesFor {l : Layout α} {constraints : List (Node α)} (h : l.Parts constraints) {z : List α}
    (hz : z.length = l.height) : PiecesFor constraints (l.splitByConstraint z) := by
  have hlength : ∀ r ∈ l.ranges, (r.entries z).length = r.count := by
    intro r hr
    have hrange := h.bounds hr
    have hcone := l.coneRange_bounds r.cone
    exact RowRange.length_entries (by omega) (by omega)
  refine List.forall₂_map_right_iff.mpr ?_
  refine ((List.forall₂_and_left _ _).mpr ⟨hlength, h.isFor.flip⟩).flip.imp ?_
  rintro n r ⟨hentries, child, _, hchild, hcount⟩
  exact ⟨child, hchild, hentries.trans hcount⟩

/-- The multipliers for a block, whether it is handed over or left out, are as many as its rows. -/
theorem Osqp.Covers.length_eq {o : Option (Program.Part α)} {q : Program.Part α} (h : Covers o q) {y : List α}
    (hy : ∀ rows, o = some rows → y.length = rows.A.rows) :
    (if o.isSome then y else []).length = q.A.rows := by
  rcases h with rfl | ⟨rfl, hrows⟩
  · exact hy q rfl
  · exact hrows.symm

section osqp

variable [Zero α] [One α] [Add α] [Neg α] [Mul α] [Div α] [OfDouble α] [BEq α] {p : Program α} {l : Layout α}
  {objective : Node α} {constraints : List (Node α)} {sense : Sense}

/-- OSQP's multipliers of a problem of equalities and inequalities are as many as there are rows. -/
theorem Osqp.length_multipliers (h : Accepted sense objective constraints l p)
    (hlinear : ∀ n ∈ constraints, n.kind = .eq ∨ n.kind = .leq) {chosen : Options} {a : Answer α}
    (heq : ∀ rows, (request p chosen).eq = some rows → a.dualEq.length = rows.A.rows)
    (hineq : ∀ rows, (request p chosen).ineq = some rows → a.dualIneq.length = rows.A.rows) :
    ((duals (request p chosen) a).map Prod.snd).flatten.length = l.height := by
  obtain ⟨ms, hl⟩ := h.exists_isOf
  obtain ⟨hzero, hnonneg⟩ := hl.coneDims_of_linear hlinear
  have hheight := hl.height_eq hlinear
  rw [← h.fits.dims_eq] at hzero hnonneg hheight
  have hleft := Covers.length_eq (o := (request p chosen).eq) (covers_equalities hzero) heq
  have hright := Covers.length_eq (o := (request p chosen).ineq) (covers_inequalities hzero hnonneg) hineq
  have hfirst : Axis.cut p.A.rows 0 = 0 := (Axis.cut_ofNat _ 0).trans (Nat.zero_min _)
  have hrows := h.fits.rows_eq
  rw [flatten_duals, List.length_append, hleft, hright]
  change (p.A.sliceRows 0 _).rows + (p.A.sliceRows _ _).rows = _
  rw [Matrix.rows_sliceRows, Matrix.rows_sliceRows, hfirst, Axis.cut_ofNat, Axis.cut_ofNat]
  omega

end osqp

/-! Runs -/

section runs

variable [Zero α] [Add α] [Neg α] [Mul α] [OfDouble α] {p : Program α} {l : Layout α} {options : Options}
  {journal : Journal} {message : String}

theorem Clarabel.handed_eq_some [BEq α] {solver : Solver α} {r : Request α} :
    (run solver p l options journal).handed = some r ↔
      ∃ chosen, settings options = .ok chosen ∧ requireCountable p.dims = .ok () ∧ r = request p chosen := by
  unfold run
  cases settings options with
  | error e => simp [bind, Except.bind]
  | ok chosen =>
    cases requireCountable p.dims with
    | error e => simp [bind, Except.bind]
    | ok =>
      have hsome : some (request p chosen) = some r ↔ r = request p chosen := Option.some_inj.trans eq_comm
      simp only [Except.ok.injEq, exists_eq_left', true_and]
      simp only [bind, Except.bind, pure, Except.pure]
      split
      · exact hsome
      · split
        · exact hsome
        · exact hsome

theorem Clarabel.run_broken [BEq α] {solver : Solver α} {r : Request α}
    (hr : (run solver p l options journal).handed = some r) (ha : solver r = .error message) :
    (run solver p l options journal).outcome = .ok (Solution.failed l "clarabel" message) := by
  obtain ⟨chosen, hchosen, hd, rfl⟩ := handed_eq_some.mp hr
  unfold run
  simp only [hchosen, hd, bind, Except.bind, pure, Except.pure, ha]

theorem Osqp.run_broken [Sub α] [Measured α] {solver : Solver α} {r : Request α}
    (hr : (run solver p l options journal).handed = some r) (ha : solver r = .error message) :
    (run solver p l options journal).outcome = .ok (Solution.failed l "osqp" message) := by
  obtain ⟨chosen, hprepared, rfl⟩ := handed_eq_some.mp hr
  unfold run
  simp only [hprepared, ha]

/-- However the solver ended, there is a value to report for a point of the right length. -/
theorem Program.Fits.exists_goesWith (h : p.Fits l) {sense : Sense} (hm : p.maximize = decide (sense = .maximize))
    {x : List α} (hx : x.length = l.width) (status : Status) :
    ∃ o, p.optimum status x = .ok o ∧ o.GoesWith p sense x status := by
  have hmin : (!p.maximize) = decide (sense = .minimize) := by
    rw [hm]
    cases sense <;> rfl
  cases status with
  | optimal =>
    obtain ⟨v, hv, ho⟩ := h.exists_optimum hx (show Status.optimal.isSolved from rfl)
    exact ⟨_, ho, v, hv, rfl⟩
  | optimalInaccurate =>
    obtain ⟨v, hv, ho⟩ := h.exists_optimum hx (show Status.optimalInaccurate.isSolved from rfl)
    exact ⟨_, ho, v, hv, rfl⟩
  | infeasible => exact ⟨_, rfl, congrArg Optimum.infinite hm⟩
  | unbounded => exact ⟨_, rfl, congrArg Optimum.infinite hmin⟩
  | maxIter => exact ⟨_, rfl, rfl⟩
  | error => exact ⟨_, rfl, rfl⟩
  | other text => exact ⟨_, rfl, rfl⟩

end runs

section complete

variable [Zero α] [One α] [Add α] [Sub α] [Neg α] [Mul α] [Div α] [OfDouble α] [BEq α] [Measured α]
  {objective : Node α} {constraints : List (Node α)} {l : Layout α} {sense : Sense} {p : Program α}
  {options : Options} {journal : Journal}

omit [Sub α] [Measured α] in
/-- Clarabel can count the rows of each cone where it can count all of them. -/
theorem Accepted.requireCountable (h : Accepted sense objective constraints l p) (hheight : p.height < 2 ^ 64) :
    Clarabel.requireCountable p.dims = .ok () := by
  obtain ⟨ms, hl⟩ := h.exists_isOf
  have hrows := Layout.rows_coneDims hl.sizes h.triples
  have hle : ∀ c, total (l.dims.get c) ≤ l.height := by
    intro c
    have hcone := l.coneRange_bounds c
    have hcount : (l.coneRange c).count = total (l.dims.get c) := rfl
    omega
  have hcountable : ∀ n : Nat, n ≤ l.height → Clarabel.countable n = true :=
    fun n hn => decide_eq_true (Int.ofNat_lt.mpr (Nat.lt_of_le_of_lt hn (h.fits.rows_eq ▸ hheight)))
  have hzero : l.coneDims.zero = (total (l.dims.get .eq) : Nat) := congrArg (ByCone.get · .eq) hrows
  have hnonneg : l.coneDims.nonneg = (total (l.dims.get .leq) : Nat) := congrArg (ByCone.get · .leq) hrows
  have hsoc : l.coneDims.soc.all (fun n => 0 ≤ n && Clarabel.countable n) = true := by
    refine List.all_eq_true.mpr fun k hk => ?_
    obtain ⟨n, hn, rfl⟩ := List.mem_map.mp hk
    rw [hcountable n ((le_total_of_mem hn).trans (hle .soc))]
    simp
  rw [h.fits.dims_eq, Clarabel.requireCountable, hzero, hnonneg, hcountable _ (hle .eq), hcountable _ (hle .leq), hsoc]
  rfl

omit [Sub α] [Measured α] in
/-- Clarabel's run of an accepted problem. -/
theorem Clarabel.run_complete (h : Accepted sense objective constraints l p) {solvers : Solvers α} {r : Request α}
    (hr : (run solvers.clarabel p l options journal).handed = some r)
    (ha : (Handed.clarabel r).WellAnswered solvers p) :
    ∃ sol, (run solvers.clarabel p l options journal).outcome = .ok sol ∧ sol.Covers l ∧
      sol.Tells p l sense constraints ((Handed.clarabel r).answer solvers options) := by
  obtain ⟨vs, hvs⟩ := h.orders
  rw [Handed.answer]
  cases hanswer : solvers.clarabel r with
  | error message => exact ⟨_, run_broken hr hanswer, hvs.failed_covers _ _, Solution.failed_brokeOff _ _ _⟩
  | ok a =>
    obtain ⟨hx, hz⟩ := ha a hanswer
    have hx : a.x.length = l.width := hx.trans h.fits.cols_eq
    obtain ⟨primal, hunpack, hcovers⟩ := hvs.exists_unpack hx
    obtain ⟨o, ho, hgoes⟩ := h.fits.exists_goesWith h.maximize_eq hx (statusOf a.status)
    obtain ⟨_, hrun⟩ := run_answered hr hanswer
    rw [ho] at hrun
    obtain ⟨sol, hsol, hstatus, hvalue, hprimal, _, hpieces⟩ := solutionOf_solved hunpack
    exact ⟨sol, hrun.trans hsol, hcovers sol hprimal, hstatus, hprimal ▸ hunpack, hvalue ▸ hgoes, _, hpieces,
      (Layout.parts_of_ofProblem h.laidOut).piecesFor (hz.trans h.fits.rows_eq)⟩

/-- OSQP's run of an accepted problem of equalities and inequalities. -/
theorem Osqp.run_complete (h : Accepted sense objective constraints l p)
    (hlinear : ∀ n ∈ constraints, n.kind = .eq ∨ n.kind = .leq) {solvers : Solvers α} {r : Request α}
    (hr : (run solvers.osqp p l options journal).handed = some r) (ha : (Handed.osqp r).WellAnswered solvers p) :
    ∃ sol, (run solvers.osqp p l options journal).outcome = .ok sol ∧ sol.Covers l ∧
      sol.Tells p l sense constraints ((Handed.osqp r).answer solvers options) := by
  obtain ⟨vs, hvs⟩ := h.orders
  rw [Handed.answer]
  cases hanswer : solvers.osqp r with
  | error message => exact ⟨_, run_broken hr hanswer, hvs.failed_covers _ _, Solution.failed_brokeOff _ _ _⟩
  | ok a =>
    obtain ⟨hx, heq, hineq⟩ := ha a hanswer
    have hx : a.x.length = l.width := hx.trans h.fits.cols_eq
    obtain ⟨primal, hunpack, hcovers⟩ := hvs.exists_unpack hx
    obtain ⟨o, ho, hgoes⟩ := h.fits.exists_goesWith h.maximize_eq hx (statusOf a.code a.iterations (limit options))
    obtain ⟨⟨_, rfl⟩, hrun⟩ := run_answered hr hanswer
    rw [ho] at hrun
    obtain ⟨sol, hsol, hstatus, hvalue, hprimal, _, hpieces⟩ :=
      solutionOf_solved (h.fits.cols_eq.trans hx.symm) (h.fits.rows_eq ▸ h.fits.column) hunpack
    exact ⟨sol, hrun.trans hsol, hcovers sol hprimal, hstatus, hprimal ▸ hunpack, hvalue ▸ hgoes, _, hpieces,
      (Layout.parts_of_ofProblem h.laidOut).piecesFor (length_multipliers h hlinear heq hineq)⟩

/-- A problem that a solver takes is handed over, and whatever comes of it there is a solution: it covers the
variables, and it says that the solver broke off or what it answered. -/
theorem outcome_complete (h : Accepted sense objective constraints l p) {name : SolverName}
    (hn : name.Takes p constraints options) (solvers : Solvers α) (journal : Journal) :
    ∃ handed, (p.solve solvers name l options journal).handed = some handed ∧
      (handed.WellAnswered solvers p → ∃ sol, (p.solve solvers name l options journal).outcome = .ok sol ∧
        sol.Covers l ∧ sol.Tells p l sense constraints (handed.answer solvers options)) := by
  cases name with
  | clarabel =>
    obtain ⟨hheight, chosen, hchosen⟩ := hn
    have hr : (Clarabel.run solvers.clarabel p l options journal).handed = some (Clarabel.request p chosen) :=
      Clarabel.handed_eq_some.mpr ⟨chosen, hchosen, h.requireCountable hheight, rfl⟩
    exact ⟨_, congrArg (Option.map Handed.clarabel) hr, Clarabel.run_complete h hr⟩
  | osqp =>
    obtain ⟨hlinear, hfree, chosen, hchosen⟩ := hn
    have hnone : Osqp.unsupported p.dims = [] := by
      by_contra hne
      obtain ⟨n, hn, hk⟩ := h.unsupported_ne_nil_iff.mp hne
      rcases hlinear n hn with he | he <;> simp [he] at hk
    have hr : (Osqp.run solvers.osqp p l options journal).handed = some (Osqp.request p chosen) := by
      refine Osqp.handed_eq_some.mpr ⟨chosen, ?_, rfl⟩
      rw [Osqp.prepare, hfree, hnone]
      exact hchosen
    exact ⟨_, congrArg (Option.map Handed.osqp) hr, Osqp.run_complete h hlinear hr⟩

end complete

/-- Solvers of which one finds the level of five, up to its tolerance, and the other breaks off. -/
def Sample.brittle : Solvers ℚ where
  clarabel _ := .ok ⟨"AlmostSolved", [5], [1], 6, ⟨0⟩⟩
  osqp _ := .error "out of memory"

theorem outcome_complete_gain : ∃ p sol sol', Program.assemble .maximize Sample.gain Sample.gainLayout = .ok p ∧
    (p.solve Sample.brittle .clarabel Sample.gainLayout [] .empty).outcome = .ok sol ∧
    sol.status = .optimalInaccurate ∧ sol.optimum = .value 7 ∧
    (p.solve Sample.brittle .osqp Sample.gainLayout [] .empty).outcome = .ok sol' ∧
    sol'.status = .error ∧ sol'.primal.map Prod.fst = [7] ∧ sol'.dual = [] := by
  obtain ⟨p, h⟩ := Sample.exists_accepted_gain
  have hsizes : (Program.assemble .maximize Sample.gain Sample.gainLayout).toOption.map (fun p =>
      (p.width, p.height, (p.objectiveValue [5]).toOption)) = some (1, 1, some 7) := by decide +kernel
  rw [h.assembled] at hsizes
  obtain ⟨hwidth, hheight, hvalue⟩ : p.width = 1 ∧ p.height = 1 ∧ (p.objectiveValue [5]).toOption = some 7 := by
    simpa only [Prod.mk.injEq] using Option.some.inj hsizes
  have htakes : SolverName.clarabel.Takes p [Sample.ceiling] [] := ⟨by rw [hheight]; decide, _, rfl⟩
  have htakes' : SolverName.osqp.Takes p [Sample.ceiling] [] :=
    ⟨List.forall_mem_singleton.mpr (.inr rfl), rfl, _, rfl⟩
  obtain ⟨handed, hhanded, hcomplete⟩ := outcome_complete h htakes Sample.brittle .empty
  obtain ⟨handed', hhanded', hcomplete'⟩ := outcome_complete h htakes' Sample.brittle .empty
  obtain ⟨r, _, rfl⟩ := Option.map_eq_some_iff.mp hhanded
  obtain ⟨r', _, rfl⟩ := Option.map_eq_some_iff.mp hhanded'
  obtain ⟨sol, hsol, _, hreports⟩ := hcomplete (by rintro a ⟨⟩; exact ⟨hwidth.symm, hheight.symm⟩)
  obtain ⟨sol', hsol', hcovers, hbroke⟩ := hcomplete' (by rintro a ⟨⟩)
  obtain ⟨v, hv, hoptimum⟩ := hreports.optimum_goesWith
  rw [hv] at hvalue
  obtain rfl : v = 7 := Option.some.inj hvalue
  exact ⟨p, sol, sol', h.assembled, hsol, hreports.status_eq, hoptimum, hsol', hbroke.status_eq, hcovers.1,
    hbroke.dual_eq⟩

end ConicForm
