import ConicForm.Proofs.ReportedValue
import ConicForm.Proofs.RowPartition
import ConicForm.Proofs.StatedRows

/-!
# Agreement of the solvers

On a problem of equalities and inequalities the two solvers are told of the same rows, the one in one matrix and the
other in up to two blocks. Where they find the same point and the same multipliers, the same is reported, whatever
the order of the constraints is and whichever of the blocks is missing. No law of the scalars' arithmetic is used:
the value of the point is worked out in the same way for both.
-/

namespace ConicForm

variable {α : Type}

/-! Multipliers -/

/-- Cutting multipliers of the first two cones gives these back. -/
theorem ConeDims.split_append {d : ConeDims} {y u : List α} (hy : (y.length : Int) = d.zero)
    (hu : (u.length : Int) = d.nonneg) :
    (d.split (y ++ u)).get .eq = y ∧ (d.split (y ++ u)).get .leq = u := by
  have heq : ((0 : Nat) + y.length) ≤ (y ++ u).length := by simp
  have hleq : y.length + u.length ≤ (y ++ u).length := by simp
  rw [split, ByCone.get_ofFn, ByCone.get_ofFn]
  change Axis.slice (y ++ u) 0 (0 + d.zero) = y ∧ Axis.slice (y ++ u) d.zero (d.zero + d.nonneg) = u
  rw [← hy, ← hu]
  constructor
  · exact (Axis.slice_ofNat heq).trans (by simp)
  · exact (Axis.slice_ofNat hleq).trans (by simp)

theorem ByCone.get?_toList {β : Type} (t : ByCone β) (c : Cone) :
    Keyed.get? (t.toList.map fun e => (NamedCone.supported e.1, e.2)) (.supported c) = some (t.get c) := by
  cases c <;> rfl

namespace Osqp

variable [Zero α] {p : Program α} {chosen : Options} {a : Answer α} {y u : List α}

theorem isSome_equalities : (request p chosen).eq.isSome = true ↔ 0 < p.dims.zero := by
  rw [request, Program.equalities]
  split <;> simp [*]

theorem isSome_inequalities : (request p chosen).ineq.isSome = true ↔ 0 < p.dims.nonneg := by
  rw [request, Program.inequalities]
  split <;> simp [*]

omit [Zero α] in
theorem get?_duals_eq (r : Request α) (a : Answer α) :
    Keyed.get? (duals r a) (.supported .eq) = if r.eq.isSome then some a.dualEq else none := by
  unfold duals
  cases r.eq.isSome <;> cases r.ineq.isSome <;> rfl

omit [Zero α] in
theorem get?_duals_leq (r : Request α) (a : Answer α) :
    Keyed.get? (duals r a) (.supported .leq) = if r.ineq.isSome then some a.dualIneq else none := by
  unfold duals
  cases r.eq.isSome <;> cases r.ineq.isSome <;> rfl

omit [Zero α] in
theorem flatten_duals (r : Request α) (a : Answer α) : ((duals r a).map Prod.snd).flatten =
    (if r.eq.isSome then a.dualEq else []) ++ if r.ineq.isSome then a.dualIneq else [] := by
  unfold duals
  cases r.eq.isSome <;> cases r.ineq.isSome <;> simp

end Osqp

/-- Answers of the two solvers with one point `x` and the same multipliers, `y` for the rows of the zero cone and `u`
for those of the orthant. OSQP's are looked at only where it was handed the block. -/
structure SameAnswer (p : Program α) (l : Layout α) (a : Clarabel.Answer α) (r : Osqp.Request α)
    (a' : Osqp.Answer α) (x y u : List α) : Prop where
  length_x : x.length = l.width
  length_y : (y.length : Int) = p.dims.zero
  length_u : (u.length : Int) = p.dims.nonneg
  solved : Clarabel.statusOf a.status = .optimal
  point : a.x = x
  multipliers : a.z = y ++ u
  solved' : a'.code = 1
  point' : a'.x = x
  equalities : r.eq.isSome → a'.dualEq = y
  inequalities : r.ineq.isSome → a'.dualIneq = u

namespace SameAnswer

variable [Zero α] {p : Program α} {l : Layout α} {a : Clarabel.Answer α} {chosen : Options} {a' : Osqp.Answer α}
  {x y u : List α}

omit [Zero α] in
/-- A block has its multipliers, or it is missing and has no rows. -/
theorem block {handed : Bool} {found z : List α} {rows : Int} (hz : (z.length : Int) = rows)
    (hb : handed = true ↔ 0 < rows) (hd : handed = true → found = z) :
    handed = true ∧ found = z ∨ handed = false ∧ z = [] := by
  cases handed with
  | true => exact .inl ⟨rfl, hd rfl⟩
  | false =>
    refine .inr ⟨rfl, List.length_eq_zero_iff.mp ?_⟩
    have hrows : ¬0 < rows := fun h => Bool.false_ne_true (hb.mpr h)
    omega

/-- OSQP's multipliers are Clarabel's, block by block and all together. -/
theorem duals_eq (h : SameAnswer p l a (Osqp.request p chosen) a' x y u) :
    let duals := Osqp.duals (Osqp.request p chosen) a'
    (Keyed.get? duals (.supported .eq) = some y ∨ Keyed.get? duals (.supported .eq) = none ∧ y = []) ∧
      (Keyed.get? duals (.supported .leq) = some u ∨ Keyed.get? duals (.supported .leq) = none ∧ u = []) ∧
      (duals.map Prod.snd).flatten = y ++ u := by
  intro duals
  rw [Osqp.get?_duals_eq, Osqp.get?_duals_leq, Osqp.flatten_duals]
  rcases block h.length_y Osqp.isSome_equalities h.equalities with ⟨heq, hy⟩ | ⟨heq, hy⟩ <;>
    rcases block h.length_u Osqp.isSome_inequalities h.inequalities with ⟨hineq, hu⟩ | ⟨hineq, hu⟩ <;>
    simp [heq, hineq, hy, hu]

end SameAnswer

/-! Layouts of equalities and inequalities -/

theorem Layout.IsOf.members_eq_nil {l : Layout α} {objective : Node α} {constraints : List (Node α)}
    {ms : List (Cone × Node α)} (hl : l.IsOf objective constraints ms) {c : Cone}
    (h : ∀ n ∈ constraints, n.kind.cone? ≠ some c) : l.members.get c = [] := by
  rw [List.eq_nil_iff_forall_not_mem]
  intro n hn
  obtain ⟨k, hk, ha⟩ := hl.exists_asks hn
  exact h k hk ha.1

section linear

variable {l : Layout α} {objective : Node α} {constraints : List (Node α)} {ms : List (Cone × Node α)}
  (hl : l.IsOf objective constraints ms) (h : ∀ n ∈ constraints, n.kind = .eq ∨ n.kind = .leq)

include hl h

theorem Layout.IsOf.members_of_linear : l.members.get .soc = [] ∧ l.members.get .exp = [] := by
  have hnil : ∀ c, c ≠ .eq → c ≠ .leq → l.members.get c = [] := by
    intro c heq hleq
    refine hl.members_eq_nil fun n hn hc => ?_
    rcases h n hn with hk | hk
    · exact heq (Option.some.inj (hc.symm.trans (congrArg Kind.cone? hk)))
    · exact hleq (Option.some.inj (hc.symm.trans (congrArg Kind.cone? hk)))
  exact ⟨hnil .soc (by simp) (by simp), hnil .exp (by simp) (by simp)⟩

/-- The numbers of rows of the zero cone and the orthant. -/
theorem Layout.IsOf.coneDims_of_linear :
    l.coneDims.zero = (total (l.dims.get .eq) : Nat) ∧ l.coneDims.nonneg = (total (l.dims.get .leq) : Nat) := by
  have hexp : l.members.exp = [] := (hl.members_of_linear h).2
  have hrows : l.coneDims.rows = coneSizes l.dims := rows_coneDims hl.sizes (hexp ▸ List.forall_mem_nil _)
  exact ⟨congrArg (ByCone.get · .eq) hrows, congrArg (ByCone.get · .leq) hrows⟩

/-- Only the rows of the zero cone and the orthant are there. -/
theorem Layout.IsOf.height_eq : (l.height : Int) = l.coneDims.zero + l.coneDims.nonneg := by
  obtain ⟨hmembers, hmembers'⟩ := hl.members_of_linear h
  obtain ⟨hzero, hnonneg⟩ := hl.coneDims_of_linear h
  have hsoc : total (l.dims.get .soc) = 0 := by
    rw [hl.sizes.total_get, hmembers]
    rfl
  have hexp : total (l.dims.get .exp) = 0 := by
    rw [hl.sizes.total_get, hmembers']
    rfl
  rw [hzero, hnonneg, height]
  simp only [Cone.all, List.map_cons, List.map_nil, total_cons, total_nil, hsoc, hexp]
  omega

theorem Layout.IsOf.entriesBy_of_linear (entries : Cone → Node α → List α) : l.entriesBy entries =
    (l.members.get .eq).flatMap (entries .eq) ++ (l.members.get .leq).flatMap (entries .leq) := by
  obtain ⟨hsoc, hexp⟩ := hl.members_of_linear h
  simp only [entriesBy, Cone.all, List.flatMap_cons, List.flatMap_nil, hsoc, hexp, List.append_nil]

end linear

section agreement

variable [Zero α] [One α] [Add α] [Sub α] [Neg α] [Mul α] [Div α] [OfDouble α] [BEq α] [Measured α]

omit [One α] [Sub α] [Div α] [BEq α] [Measured α] in
/-- At a point over its columns a program has a value, which is the one to report. -/
theorem Program.Fits.exists_optimum {p : Program α} {l : Layout α} (h : p.Fits l) {x : List α}
    (hx : x.length = l.width) {status : Status} (hs : status.isSolved) :
    ∃ v, p.objectiveValue x = .ok v ∧ p.optimum status x = .ok (.value v) := by
  obtain ⟨d, hd⟩ := h.constant_eq
  unfold optimum
  rw [if_pos hs, objectiveValue, if_neg (not_not.mpr (h.length_c.trans hx.symm)), hd]
  exact ⟨_, rfl, rfl⟩

/-- Where the two solvers find the same point and multipliers, the same is reported, and the multipliers reported for
a constraint are those of the rows that state it. -/
theorem solvers_agree {objective : Node α} {constraints : List (Node α)} {l : Layout α} {sense : Sense}
    {p : Program α} (h : Accepted sense objective constraints l p)
    (hlinear : ∀ n ∈ constraints, n.kind = .eq ∨ n.kind = .leq)
    {clarabel : Clarabel.Solver α} {options : Options} {journal : Journal} {r : Clarabel.Request α}
    {a : Clarabel.Answer α} (hr : (Clarabel.run clarabel p l options journal).handed = some r)
    (ha : clarabel r = .ok a)
    {osqp : Osqp.Solver α} {options' : Options} {journal' : Journal} {r' : Osqp.Request α} {a' : Osqp.Answer α}
    (hr' : (Osqp.run osqp p l options' journal').handed = some r') (ha' : osqp r' = .ok a')
    {x y u : List α} (hsame : SameAnswer p l a r' a' x y u) :
    ∃ sol sol', (Clarabel.run clarabel p l options journal).outcome = .ok sol ∧
      (Osqp.run osqp p l options' journal').outcome = .ok sol' ∧
      sol'.status = sol.status ∧ sol'.optimum = sol.optimum ∧ sol'.primal = sol.primal ∧
      (∀ c ∈ [Cone.eq, .leq], Keyed.get? sol'.dual (.supported c) = Keyed.get? sol.dual (.supported c) ∨
        Keyed.get? sol'.dual (.supported c) = none ∧ Keyed.get? sol.dual (.supported c) = some []) ∧
      ∃ pieces, Keyed.get? sol.info "constraint_duals" = some (.pieces pieces) ∧
        Keyed.get? sol'.info "constraint_duals" = some (.pieces pieces) ∧ pieces.length = constraints.length ∧
        ∀ (i : Nat) (hi : i < constraints.length), ∃ (c : Cone) (child : Node α) (first : Nat),
          constraints[i].kind.cone? = some c ∧ constraints[i].children = [child] ∧
          p.States l first c child ∧ first + child.size ≤ (y ++ u).length ∧
          pieces[i]? = some (Axis.slice (y ++ u) first ((first : Int) + child.size)) := by
  obtain ⟨ms, hms⟩ := h.exists_isOf
  obtain ⟨vs, hvs⟩ := h.orders
  have hfits := h.fits
  obtain ⟨primal, hunpack, _⟩ := Layout.unpack_reads hvs hsame.length_x
  obtain ⟨v, _, hvalue⟩ := hfits.exists_optimum hsame.length_x (show Status.optimal.isSolved from rfl)
  -- Each run is a solution made of the answer.
  obtain ⟨_, hrun⟩ := Clarabel.run_answered hr ha
  obtain ⟨⟨chosen, rfl⟩, hrun'⟩ := Osqp.run_answered hr' ha'
  have hstatus' : Osqp.statusOf a'.code a'.iterations (Osqp.limit options') = .optimal := by
    rw [hsame.solved']
    rfl
  rw [hsame.solved, hsame.point, hvalue] at hrun
  rw [hstatus', hsame.point', hvalue] at hrun'
  have hcols : p.A.cols = a'.x.length := hfits.cols_eq.trans (hsame.point' ▸ hsame.length_x.symm)
  have hcolumn : p.b.IsColumn p.A.rows := hfits.rows_eq ▸ hfits.column
  obtain ⟨sol, hsol, hstatus, hoptimum, hprimal, hdual, hinfo⟩ : ∃ sol,
      Clarabel.solutionOf p l a (.value v) = .ok sol ∧ _ := Clarabel.solutionOf_solved (hsame.point ▸ hunpack)
  obtain ⟨sol', hsol', hstatus'', hoptimum', hprimal', hdual', hinfo'⟩ : ∃ sol', Osqp.solutionOf p l options'
      (Osqp.duals (Osqp.request p chosen) a') a' .optimal (.value v) = .ok sol' ∧ _ :=
    Osqp.solutionOf_solved hcols hcolumn (hsame.point' ▸ hunpack)
  -- The multipliers are cut from the same vector.
  obtain ⟨heq, hleq, hflat⟩ := hsame.duals_eq
  rw [hsame.multipliers] at hdual hinfo
  rw [hflat] at hinfo'
  obtain ⟨hy, hu⟩ := ConeDims.split_append hsame.length_y hsame.length_u
  have hlength : (y ++ u).length = l.height := by
    have hheight := hms.height_eq hlinear
    rw [← hfits.dims_eq, ← hsame.length_y, ← hsame.length_u] at hheight
    rw [List.length_append]
    omega
  refine ⟨sol, sol', hrun.trans hsol, hrun'.trans hsol', hstatus''.trans (hstatus.trans hsame.solved).symm,
    hoptimum'.trans hoptimum.symm, hprimal'.trans hprimal.symm, ?_, l.splitByConstraint (y ++ u), hinfo, hinfo', ?_,
    fun i hi => ?_⟩
  · rw [hdual, hdual']
    simp only [List.mem_cons, List.not_mem_nil, or_false]
    rintro c (rfl | rfl)
    · rw [ByCone.get?_toList, hy]
      exact heq.imp_right (And.imp_right (congrArg some))
    · rw [ByCone.get?_toList, hu]
      exact hleq.imp_right (And.imp_right (congrArg some))
  · rw [Layout.splitByConstraint, List.length_map, hms.length_ranges, hms.asks.length_eq]
  · obtain ⟨c, child, first, hasks, hstates, hle, hpiece⟩ := h.exists_piece (y ++ u) hi
    exact ⟨c, child, first, hasks.1, hasks.2, hstates, hlength ▸ hle, hpiece⟩

end agreement

theorem solvers_agree_gain : ∃ p sol sol', Program.assemble .maximize Sample.gain Sample.gainLayout = .ok p ∧
    (Clarabel.run Sample.solvers.clarabel p Sample.gainLayout [] .empty).outcome = .ok sol ∧
    (Osqp.run Sample.solvers.osqp p Sample.gainLayout [] .empty).outcome = .ok sol' ∧
    sol'.optimum = sol.optimum ∧ Keyed.get? sol'.info "constraint_duals" = some (.pieces [[1]]) ∧
    Keyed.get? sol.info "constraint_duals" = some (.pieces [[1]]) := by
  obtain ⟨p, h⟩ := Sample.exists_accepted_gain
  have hdims : (Program.assemble .maximize Sample.gain Sample.gainLayout).toOption.map Program.dims =
      some ⟨0, 1, [], 0⟩ := by decide +kernel
  have hhanded : (Program.assemble .maximize Sample.gain Sample.gainLayout).toOption.map (fun p =>
      ((Clarabel.run Sample.solvers.clarabel p Sample.gainLayout [] .empty).handed.isSome,
        (Osqp.run Sample.solvers.osqp p Sample.gainLayout [] .empty).handed.isSome)) = some (true, true) := by
    decide +kernel
  rw [h.assembled] at hdims hhanded
  have hdims : p.dims = ⟨0, 1, [], 0⟩ := Option.some.inj hdims
  obtain ⟨hr, hr'⟩ := Prod.mk.inj (Option.some.inj hhanded)
  obtain ⟨r, hr⟩ := Option.isSome_iff_exists.mp hr
  obtain ⟨r', hr'⟩ := Option.isSome_iff_exists.mp hr'
  have hkinds : ∀ n ∈ [Sample.ceiling], n.kind = .eq ∨ n.kind = .leq :=
    List.forall_mem_singleton.mpr (.inr rfl)
  have hsame : SameAnswer p Sample.gainLayout ⟨"Solved", [5], [1], 6, ⟨0⟩⟩ r' ⟨1, [5], [], [1], 25⟩ [5] [] [1] :=
    ⟨rfl, by rw [hdims]; rfl, by rw [hdims]; rfl, rfl, rfl, rfl, rfl, rfl, fun _ => rfl, fun _ => rfl⟩
  obtain ⟨sol, sol', hsol, hsol', _, hoptimum, _, _, pieces, hinfo, hinfo', hlength, hpieces⟩ :=
    solvers_agree h hkinds hr rfl hr' rfl hsame
  obtain ⟨c, child, first, _, hchild, _, hle, hpiece⟩ := hpieces 0 Nat.one_pos
  obtain rfl : (⟨11, .sum, ⟨1, 1⟩, [Sample.level, Sample.minusFive], .loose .none⟩ : Node ℚ) = child :=
    (List.cons.inj hchild).1
  obtain rfl : first = 0 := Nat.le_zero.mp (Nat.le_of_succ_le_succ hle)
  obtain ⟨piece, rfl⟩ := List.length_eq_one_iff.mp hlength
  obtain rfl : piece = [1] := Option.some.inj hpiece
  exact ⟨p, sol, sol', h.assembled, hsol, hsol', hoptimum, hinfo', hinfo⟩

end ConicForm
