import ConicForm.Proofs.ConeMembership
import ConicForm.Proofs.SolverAgreement

/-!
# Linear problems

OSQP refuses the problems with a constraint for a second-order or an exponential cone, and no others for their
cones. Of the others it is handed all rows, cut into up to two blocks, and a point meets these blocks exactly if the
constraints hold of the values that it is packed from.
-/

namespace ConicForm

variable {α : Type}

theorem total_eq_zero_iff {xs : List Nat} : total xs = 0 ↔ ∀ x ∈ xs, x = 0 := by
  induction xs with
  | nil => simp
  | cons x xs ih => rw [total_cons, Nat.add_eq_zero_iff, ih, List.forall_mem_cons]

theorem Kind.cone?_of_linear {k : Kind} {c : Cone} (h : k.cone? = some c) (hk : ¬(k = .soc ∨ k = .exp)) :
    k = .eq ∧ c = .eq ∨ k = .leq ∧ c = .leq := by
  cases k <;> simp_all [Kind.cone?]

/-! Refusals -/

section refusals

variable {l : Layout α} {objective : Node α} {constraints : List (Node α)} {ms : List (Cone × Node α)}
  {p : Program α} {options : Options} {names : List String} {e : Failure}

theorem Layout.IsOf.exists_member_iff (hl : l.IsOf objective constraints ms) {c : Cone} :
    (∃ n, n ∈ l.members.get c) ↔ ∃ n ∈ constraints, n.kind.cone? = some c := by
  constructor
  · rintro ⟨n, hn⟩
    obtain ⟨k, hk, ha⟩ := hl.exists_asks hn
    exact ⟨k, hk, ha.1⟩
  · rintro ⟨n, hn, hc⟩
    obtain ⟨m, hm, ha⟩ := exists_right_of_forall₂ hl.asks hn
    obtain rfl : m.1 = c := Option.some.inj (ha.1.symm.trans hc)
    exact ⟨m.2, hl.mem_members.mpr hm⟩

theorem Layout.IsOf.soc_ne_nil_iff (hl : l.IsOf objective constraints ms) :
    l.coneDims.soc ≠ [] ↔ ∃ n, n ∈ l.members.get .soc := by
  simp only [Layout.coneDims, hl.sizes.soc, ne_eq, List.map_eq_nil_iff]
  constructor
  · exact List.exists_mem_of_ne_nil _
  · rintro ⟨n, hn⟩
    exact List.ne_nil_of_mem hn

/-- The triples are counted by dividing their rows, which leaves none out: each has three rows and some columns. -/
theorem Layout.IsOf.exp_ne_zero_iff [Zero α] [Add α] [Neg α] [Mul α] [Div α] [BEq α] [OfDouble α]
    (hl : l.IsOf objective constraints ms) (hb : ∀ n ∈ objective :: constraints, n.Built)
    (htriples : ∀ n ∈ l.members.exp, n.shape.rows = 3) :
    l.coneDims.exp ≠ 0 ↔ ∃ n, n ∈ l.members.get .exp := by
  have hcount : l.coneDims.exp = (total (l.members.exp.map fun n => n.shape.cols) : Nat) := by
    simp only [Layout.coneDims, hl.sizes.exp, List.headD_cons, total_size_of_triples htriples]
    omega
  have hpos : ∀ n ∈ l.members.exp, n.shape.cols ≠ 0 := fun n hn => by
    have := (hl.isPart hb (c := .exp) hn).1.shape_pos.2
    omega
  rw [hcount, ne_eq, Int.natCast_eq_zero, total_eq_zero_iff, List.forall_mem_map]
  constructor
  · intro h
    by_contra hnone
    exact h fun n hn => absurd ⟨n, hn⟩ hnone
  · rintro ⟨n, hn⟩ h
    exact hpos n hn (h n hn)

theorem Layout.unpack_eq_error [Zero α] {y : List α} (h : l.unpack y = .error e) :
    e = .mismatch ∨ e = .missingKey := by
  obtain ⟨entry, _, he⟩ := exists_of_mapM_eq_error h
  split at he
  · next s _ =>
    rcases bind_eq_error.mp he with he | ⟨_, _, he⟩
    · rw [valueAt] at he
      split at he
      · cases he
      · exact .inl (Except.error.inj he).symm
    · cases he
  · exact .inr (Except.error.inj he).symm

theorem Program.Fits.optimum_eq_error [Zero α] [Add α] [Neg α] [Mul α] [OfDouble α] (h : p.Fits l) {status : Status}
    {y : List α} (he : p.optimum status y = .error e) : e = .mismatch := by
  obtain ⟨d, hd⟩ := h.constant_eq
  unfold optimum at he
  split at he
  · rcases bind_eq_error.mp he with he | ⟨_, _, he⟩
    · rw [objectiveValue] at he
      split at he
      · exact (Except.error.inj he).symm
      · rw [hd] at he
        cases he
    · cases he
  · split at he <;> cases he

namespace Osqp

theorem mem_unsupported {dims : ConeDims} {c : Cone} :
    c ∈ unsupported dims ↔ c = .soc ∧ dims.soc ≠ [] ∨ c = .exp ∧ dims.exp ≠ 0 := by
  rw [unsupported, List.mem_append]
  apply or_congr <;> split <;> simp_all

theorem prepare_refuses_iff : prepare p options = .error (.conesNotSupported names) ↔
    options.requireFree = .ok () ∧ unsupported p.dims ≠ [] ∧ names = (unsupported p.dims).map Cone.name := by
  have hsettings : settings options ≠ .error (.conesNotSupported names) := by
    intro h
    unfold settings at h
    simp only at h
    split at h <;> cases h
  rw [prepare]
  cases hfree : options.requireFree with
  | error e =>
    have he : e = .wrongType := by
      unfold Options.requireFree at hfree
      split at hfree
      · exact (Except.error.inj hfree).symm
      · cases hfree
    subst he
    constructor
    · intro h
      cases h
    · rintro ⟨h, _⟩
      cases h
  | ok =>
    cases unsupported p.dims with
    | nil =>
      constructor
      · exact fun h => absurd h hsettings
      · exact fun h => absurd rfl h.2.1
    | cons c cs =>
      constructor
      · intro h
        exact ⟨rfl, List.cons_ne_nil _ _, (Failure.conesNotSupported.inj (Except.error.inj h)).symm⟩
      · rintro ⟨_, _, rfl⟩
        rfl

variable [Zero α] [Add α] [Sub α] [Mul α] [OfDouble α] [Measured α]

theorem solutionOf_eq_error (hb : p.b.IsColumn p.A.rows) {dual : List (NamedCone × List α)} {a : Answer α}
    {status : Status} {optimum : Optimum α} (h : solutionOf p l options dual a status optimum = .error e) :
    e = .mismatch ∨ e = .missingKey := by
  rcases bind_eq_error.mp h with h | ⟨_, _, h⟩
  · exact .inl (Program.residuals_eq_error hb h)
  rcases bind_eq_error.mp h with h | ⟨_, _, h⟩
  · exact Layout.unpack_eq_error h
  · cases h

/-- A run is refused for the cones of its program before anything is handed to the solver, or not at all. -/
theorem run_refuses_iff [Neg α] (hfits : p.Fits l) {solver : Solver α} {journal : Journal} :
    (run solver p l options journal).outcome = .error (.conesNotSupported names) ↔
      prepare p options = .error (.conesNotSupported names) := by
  unfold run
  cases hprepared : prepare p options with
  | error e =>
    constructor <;> exact fun h => congrArg Except.error (Except.error.inj h)
  | ok chosen =>
    have hcolumn : p.b.IsColumn p.A.rows := hfits.rows_eq ▸ hfits.column
    refine ⟨fun h => ?_, fun h => by cases h⟩
    simp only at h
    split at h
    · cases h
    split at h
    · next he =>
      obtain rfl := hfits.optimum_eq_error he
      cases h
    · rcases solutionOf_eq_error hcolumn h with he | he <;> cases he

end Osqp

section accepted

variable [Zero α] [One α] [Add α] [Neg α] [Mul α] [Div α] [OfDouble α] [BEq α] {sense : Sense}

/-- The cones that OSQP cannot state are those that a constraint asks for. -/
theorem Accepted.mem_unsupported (h : Accepted sense objective constraints l p) {c : Cone} :
    c ∈ Osqp.unsupported p.dims ↔ (c = .soc ∨ c = .exp) ∧ ∃ n ∈ constraints, n.kind.cone? = some c := by
  obtain ⟨ms, hl⟩ := h.exists_isOf
  rw [h.fits.dims_eq, Osqp.mem_unsupported, hl.soc_ne_nil_iff, hl.exp_ne_zero_iff h.built h.triples,
    hl.exists_member_iff, hl.exists_member_iff]
  constructor
  · rintro (⟨rfl, hc⟩ | ⟨rfl, hc⟩)
    · exact ⟨.inl rfl, hc⟩
    · exact ⟨.inr rfl, hc⟩
  · rintro ⟨rfl | rfl, hc⟩
    · exact .inl ⟨rfl, hc⟩
    · exact .inr ⟨rfl, hc⟩

theorem Accepted.unsupported_ne_nil_iff (h : Accepted sense objective constraints l p) :
    Osqp.unsupported p.dims ≠ [] ↔ ∃ n ∈ constraints, n.kind = .soc ∨ n.kind = .exp := by
  constructor
  · intro hne
    obtain ⟨c, hc⟩ := List.exists_mem_of_ne_nil _ hne
    obtain ⟨rfl | rfl, n, hn, hk⟩ := h.mem_unsupported.mp hc
    · exact ⟨n, hn, .inl (Kind.cone?_eq_soc.mp hk)⟩
    · exact ⟨n, hn, .inr (Kind.cone?_eq_exp.mp hk)⟩
  · rintro ⟨n, hn, hk | hk⟩
    · exact List.ne_nil_of_mem (h.mem_unsupported.mpr ⟨.inl rfl, n, hn, Kind.cone?_eq_soc.mpr hk⟩)
    · exact List.ne_nil_of_mem (h.mem_unsupported.mpr ⟨.inr rfl, n, hn, Kind.cone?_eq_exp.mpr hk⟩)

end accepted

end refusals

/-! Blocks -/

namespace Matrix

variable [Zero α]

theorem above_of_rows_eq_zero {m n : Matrix α} (h : m.rows = 0) : m.above n = n := by
  refine ext_get (by rw [above, rows_ofFn, h, Nat.zero_add]) rfl fun i j hi hj => ?_
  refine (get_ofFn _ hi hj).trans ?_
  rw [h, if_neg (Nat.not_lt_zero i), Nat.sub_zero]

/-- A matrix is its first rows above the others. -/
theorem above_sliceRows {m : Matrix α} {a b : Nat} (h : m.rows = a + b) :
    (m.sliceRows 0 a).above ((m.sliceRows a ((a + b : Nat) : Int)).above (zeros 0 m.cols)) = m := by
  have hzero : Axis.cut m.rows 0 = 0 := by
    rw [← Int.natCast_zero, Axis.cut_ofNat, Nat.zero_min]
  have hfirst : Axis.cut m.rows a = a := by
    rw [Axis.cut_ofNat]
    omega
  have hlast : Axis.cut m.rows ((a + b : Nat) : Int) = a + b := by
    rw [Axis.cut_ofNat]
    omega
  have hrows : (m.sliceRows 0 a).rows = a := by rw [rows_sliceRows, hfirst, hzero, Nat.sub_zero]
  have hrows' : (m.sliceRows a ((a + b : Nat) : Int)).rows = b := by
    rw [rows_sliceRows, hfirst, hlast, Nat.add_sub_cancel_left]
  have hall : (m.sliceRows 0 a).rows + ((m.sliceRows a ((a + b : Nat) : Int)).rows + 0) = m.rows := by omega
  refine ext_get hall rfl fun i j hi _ => ?_
  have hi : i < m.rows := hi.trans_eq hall
  rw [get_above (m.sliceRows 0 a) ((m.sliceRows a ((a + b : Nat) : Int)).above (zeros 0 m.cols)) rfl,
    get_above (m.sliceRows a ((a + b : Nat) : Int)) (zeros 0 m.cols) rfl, hrows, hrows']
  by_cases hia : i < a
  · rw [if_pos hia, get_sliceRows, hzero, hfirst, Nat.sub_zero, if_pos hia, Nat.zero_add]
  · rw [if_neg hia, if_pos (by omega), get_sliceRows, hfirst, hlast, if_pos (by omega),
      Nat.add_sub_cancel' (Nat.le_of_not_lt hia)]

end Matrix

theorem Axis.slice_append_slice {β : Type} {xs : List β} {a b : Nat} (h : xs.length = a + b) :
    slice xs 0 a ++ slice xs a ((a + b : Nat) : Int) = xs := by
  have hfirst : slice xs 0 a = xs.take a := by
    have hslice : slice xs (0 : Nat) ((0 : Nat) + (a : Int)) = (xs.drop 0).take a := slice_ofNat (by omega)
    simpa using hslice
  have hlast : slice xs a ((a + b : Nat) : Int) = xs.drop a := by
    rw [Int.natCast_add, slice_ofNat h.ge, List.take_of_length_le (by rw [List.length_drop]; omega)]
  rw [hfirst, hlast, List.take_append_drop]

theorem Numbers.IsColumn.length_toList [OfDouble α] {b : Numbers α} {rows : Nat} (h : b.IsColumn rows) :
    b.toReals.toList.length = rows := by
  obtain ⟨t, rfl, hd⟩ := h
  exact Tensor.length_toList hd

theorem Numbers.IsColumn.toList_sliceRows [Zero α] [OfDouble α] {b : Numbers α} {rows : Nat} (h : b.IsColumn rows)
    (start stop : Int) : (b.sliceRows start stop).toReals.toList = Axis.slice b.toReals.toList start stop := by
  have hlen := h.length_toList
  have hlen' := (h.sliceRows start stop).length_toList
  obtain ⟨u, hu, hd'⟩ := h.sliceRows start stop
  obtain ⟨t, rfl, hd⟩ := h
  obtain rfl : t.sliceRows start stop = u := Numbers.reals.inj hu
  refine ext_getD 0 (hlen'.trans (by rw [Axis.length_slice, hlen])) fun k _ => ?_
  change (t.sliceRows start stop).toList.getD k 0 = (Axis.slice t.toList start stop).getD k 0
  have hrows : (t.sliceRows start stop).asRows = t.asRows.sliceRows start stop := Tensor.asRows_ofRows _ _ rfl
  rw [Tensor.getD_toList hd', hrows, Matrix.get_sliceRows, Tensor.rows_asRows hd, Axis.getD_slice,
    Tensor.length_toList hd, Tensor.getD_toList hd]

theorem forall₂_iff_forall_sub [Sub α] {R : α → α → Prop} {P : α → Prop} (hR : ∀ u v, R u v ↔ P (v - u))
    {us vs : List α} (h : us.length = vs.length) :
    List.Forall₂ R us vs ↔ ∀ a ∈ List.zipWith (· - ·) vs us, P a := by
  induction us generalizing vs with
  | nil =>
    obtain rfl : vs = [] := List.eq_nil_of_length_eq_zero h.symm
    simp
  | cons u us ih =>
    cases vs with
    | nil => cases h
    | cons v vs =>
      rw [List.forall₂_cons, List.zipWith_cons_cons, List.forall_mem_cons, hR, ih (Nat.succ.inj h)]

namespace Program.Part.Leaves

variable [Field α] [OfDouble α] {q : Program.Part α} {y s : List α}

theorem eq_iff (h : q.Leaves y s) : q.A.mulVec y = .ok q.b.toReals.toList ↔ ∀ a ∈ s, a = 0 := by
  obtain ⟨left, hmul, hlen, hs⟩ := h.exists_left
  have hiff : List.Forall₂ (· = ·) left q.b.toReals.toList ↔ ∀ a ∈ s, a = 0 :=
    hs ▸ forall₂_iff_forall_sub (fun u v => eq_comm.trans sub_eq_zero.symm) hlen
  rw [hmul, ← hiff, List.forall₂_eq_eq_eq]
  exact ⟨Except.ok.inj, congrArg Except.ok⟩

theorem le_iff [LinearOrder α] [IsStrictOrderedRing α] (h : q.Leaves y s) :
    (∃ left, q.A.mulVec y = .ok left ∧ List.Forall₂ (· ≤ ·) left q.b.toReals.toList) ↔ ∀ a ∈ s, 0 ≤ a := by
  obtain ⟨left, hmul, hlen, hs⟩ := h.exists_left
  rw [← hs, ← forall₂_iff_forall_sub (fun u v => sub_nonneg.symm) hlen]
  constructor
  · rintro ⟨_, hleft, hle⟩
    obtain rfl := Except.ok.inj (hmul.symm.trans hleft)
    exact hle
  · exact fun hle => ⟨left, hmul, hle⟩

end Program.Part.Leaves

namespace Osqp

/-- The blocks that there are, the equations first. -/
def Request.blocks (r : Request α) : List (Program.Part α) := r.eq.toList ++ r.ineq.toList

/-- What is asked of a point: that the equations hold, and that no left side of the inequalities is above the right
one. -/
structure Request.Meets [Zero α] [Add α] [Mul α] [LE α] [OfDouble α] (r : Request α) (x : List α) : Prop where
  eq : ∀ q ∈ r.eq, q.A.mulVec x = .ok q.b.toReals.toList
  ineq : ∀ q ∈ r.ineq, ∃ left, q.A.mulVec x = .ok left ∧ List.Forall₂ (· ≤ ·) left q.b.toReals.toList

/-- Rows that are handed over as a block, or left out if there are none. -/
def Covers (o : Option (Program.Part α)) (q : Program.Part α) : Prop := o = some q ∨ o = none ∧ q.A.rows = 0

namespace Covers

variable {o : Option (Program.Part α)} {q : Program.Part α}

theorem stack_eq [Zero α] (h : Covers o q) {width : Nat} (rest : List (Program.Part α)) :
    Matrix.stack width ((o.toList ++ rest).map Program.Part.A) =
      q.A.above (Matrix.stack width (rest.map Program.Part.A)) := by
  rcases h with rfl | ⟨rfl, hrows⟩
  · rfl
  · exact (Matrix.above_of_rows_eq_zero hrows).symm

theorem flatMap_eq [OfDouble α] (h : Covers o q) (hb : q.b.IsColumn q.A.rows) :
    (o.toList.flatMap fun q => q.b.toReals.toList) = q.b.toReals.toList := by
  rcases h with rfl | ⟨rfl, hrows⟩
  · exact List.flatMap_singleton _ _
  · exact (List.eq_nil_of_length_eq_zero (hb.length_toList.trans hrows)).symm

theorem forall_iff [Field α] {s y : List α} (h : Covers o q) (hq : q.Leaves y s) {Q : Program.Part α → Prop}
    {P : α → Prop} (hQ : Q q ↔ ∀ a ∈ s, P a) : (∀ q ∈ o, Q q) ↔ ∀ a ∈ s, P a := by
  rcases h with rfl | ⟨rfl, hrows⟩
  · simpa using hQ
  · obtain rfl : s = [] := List.eq_nil_of_length_eq_zero (hq.rows_eq.symm.trans hrows)
    simp

end Covers

section blocks

variable [Zero α] {p : Program α} {m k : Nat}

theorem covers_equalities (hm : p.dims.zero = m) : Covers p.equalities (p.part 0 m) := by
  rw [Program.equalities, hm]
  by_cases h : 0 < m
  · exact .inl (if_pos (Int.natCast_pos.mpr h))
  · obtain rfl : m = 0 := Nat.eq_zero_of_not_pos h
    refine .inr ⟨if_neg (Int.lt_irrefl 0), ?_⟩
    exact (Matrix.rows_sliceRows _ _ _).trans (Nat.sub_self _)

theorem covers_inequalities (hm : p.dims.zero = m) (hk : p.dims.nonneg = k) :
    Covers p.inequalities (p.part m ((m + k : Nat) : Int)) := by
  rw [Program.inequalities, hm, hk]
  by_cases h : 0 < k
  · exact .inl (if_pos (Int.natCast_pos.mpr h))
  · obtain rfl : k = 0 := Nat.eq_zero_of_not_pos h
    refine .inr ⟨if_neg (Int.lt_irrefl 0), ?_⟩
    exact (Matrix.rows_sliceRows _ _ _).trans (Nat.sub_self _)

/-- The blocks are all rows of a program of the first two cones. -/
theorem blocks_eq [OfDouble α] (chosen : Options) (hm : p.dims.zero = m) (hk : p.dims.nonneg = k)
    (hrows : p.A.rows = m + k) (hb : p.b.IsColumn p.A.rows) :
    Matrix.stack p.width ((request p chosen).blocks.map Program.Part.A) = p.A ∧
      ((request p chosen).blocks.flatMap fun q => q.b.toReals.toList) = p.b.toReals.toList := by
  have heq := covers_equalities (p := p) hm
  have hineq := covers_inequalities (p := p) hm hk
  have hright : ∀ {start stop : Int}, (p.part start stop).b.IsColumn (p.part start stop).A.rows := by
    intro start stop
    exact (p.A.rows_sliceRows start stop).symm ▸ hb.sliceRows start stop
  have hblocks : (request p chosen).blocks = p.equalities.toList ++ (p.inequalities.toList ++ []) := by
    rw [List.append_nil]
    rfl
  constructor
  · rw [hblocks, heq.stack_eq, hineq.stack_eq]
    exact Matrix.above_sliceRows hrows
  · rw [hblocks, List.append_nil, List.flatMap_append, heq.flatMap_eq hright, hineq.flatMap_eq hright]
    have hlen : p.b.toReals.toList.length = m + k := hb.length_toList.trans hrows
    refine Eq.trans ?_ (Axis.slice_append_slice hlen)
    exact congrArg₂ (· ++ ·) (hb.toList_sliceRows _ _) (hb.toList_sliceRows _ _)

end blocks

/-- A point meets the blocks if the first rows leave nothing and the others nothing below zero. -/
theorem meets_iff [Field α] [LinearOrder α] [IsStrictOrderedRing α] [OfDouble α] {p : Program α} {chosen : Options}
    {y s u : List α} (h : Program.Part.Leaves ⟨p.A, p.b⟩ y (s ++ u)) (hs : (s.length : Int) = p.dims.zero)
    (hu : (u.length : Int) = p.dims.nonneg) :
    (request p chosen).Meets y ↔ (∀ a ∈ s, a = 0) ∧ ∀ a ∈ u, 0 ≤ a := by
  obtain ⟨hsplit, hsplit'⟩ := ConeDims.split_append hs hu
  rw [ConeDims.split, ByCone.get_ofFn] at hsplit hsplit'
  have hslice : Axis.slice (s ++ u) 0 s.length = s := by
    rw [hs, ← Int.zero_add p.dims.zero]
    exact hsplit
  have hslice' : Axis.slice (s ++ u) s.length ((s.length + u.length : Nat) : Int) = u := by
    rw [Int.natCast_add, hs, hu]
    exact hsplit'
  -- Each block leaves its own range of what all rows leave.
  have hfirst := h.range 0 s.length
  have hlast := h.range s.length ((s.length + u.length : Nat) : Int)
  rw [hslice] at hfirst
  rw [hslice'] at hlast
  have heq : (∀ q ∈ p.equalities, q.A.mulVec y = .ok q.b.toReals.toList) ↔ ∀ a ∈ s, a = 0 :=
    (covers_equalities hs.symm).forall_iff hfirst hfirst.eq_iff
  have hineq : (∀ q ∈ p.inequalities, ∃ left, q.A.mulVec y = .ok left ∧
      List.Forall₂ (· ≤ ·) left q.b.toReals.toList) ↔ ∀ a ∈ u, 0 ≤ a :=
    (covers_inequalities hs.symm hu.symm).forall_iff hlast hlast.le_iff
  exact ⟨fun h => ⟨heq.mp h.eq, hineq.mp h.ineq⟩, fun h => ⟨heq.mpr h.1, hineq.mpr h.2⟩⟩

end Osqp

/-! Problems -/

section problems

variable [Field α] [LinearOrder α] [IsStrictOrderedRing α] [OfDouble α] [BEq α]
  {objective : Node α} {constraints : List (Node α)} {l : Layout α} {ms : List (Cone × Node α)} {sense : Sense}
  {p : Program α}

omit [OfDouble α] [BEq α] in
/-- The entries of the members are as the solver asks exactly if the constraints hold. -/
theorem Layout.IsOf.entries_of_linear (hl : l.IsOf objective constraints ms)
    (hlinear : ∀ n ∈ constraints, ¬(n.kind = .soc ∨ n.kind = .exp)) {value : Node α → Matrix α}
    (hshape : ∀ c, ∀ n ∈ l.members.get c, (value n).shape = n.shape) :
    ((∀ a ∈ (l.members.get .eq).flatMap fun n => Cone.eq.signed (value n).vec, a = 0) ∧
        ∀ a ∈ (l.members.get .leq).flatMap fun n => Cone.leq.signed (value n).vec, 0 ≤ a) ↔
      ∀ n ∈ constraints, ∃ child, n.children = [child] ∧
        (n.kind = .eq ∧ (∀ i < child.shape.rows, ∀ j < child.shape.cols, (value child).get i j = 0) ∨
          n.kind = .leq ∧ ∀ i < child.shape.rows, ∀ j < child.shape.cols, (value child).get i j ≤ 0) := by
  have heq : ∀ n ∈ l.members.get .eq, (∀ a ∈ Cone.eq.signed (value n).vec, a = 0) ↔
      ∀ i < n.shape.rows, ∀ j < n.shape.cols, (value n).get i j = 0 := fun n hn =>
    hshape .eq n hn ▸ Cone.forall_mem_signed_eq (value n)
  have hleq : ∀ n ∈ l.members.get .leq, (∀ a ∈ Cone.leq.signed (value n).vec, 0 ≤ a) ↔
      ∀ i < n.shape.rows, ∀ j < n.shape.cols, (value n).get i j ≤ 0 := fun n hn =>
    hshape .leq n hn ▸ Cone.forall_mem_signed_leq (value n)
  rw [List.forall_mem_flatMap, List.forall_mem_flatMap, forall₂_congr heq, forall₂_congr hleq]
  constructor
  · rintro ⟨hzero, hnonpos⟩ n hn
    obtain ⟨m, hm, hasks⟩ := exists_right_of_forall₂ hl.asks hn
    have hmem := hl.mem_members.mpr hm
    refine ⟨m.2, hasks.2, ?_⟩
    rcases Kind.cone?_of_linear hasks.1 (hlinear n hn) with ⟨hk, hc⟩ | ⟨hk, hc⟩
    · exact .inl ⟨hk, hzero m.2 (hc ▸ hmem)⟩
    · exact .inr ⟨hk, hnonpos m.2 (hc ▸ hmem)⟩
  · intro h
    have hmember : ∀ {c n}, n ∈ l.members.get c → ∃ k : Node α, k.kind.cone? = some c ∧
        (k.kind = .eq ∧ (∀ i < n.shape.rows, ∀ j < n.shape.cols, (value n).get i j = 0) ∨
          k.kind = .leq ∧ ∀ i < n.shape.rows, ∀ j < n.shape.cols, (value n).get i j ≤ 0) := by
      intro c n hn
      obtain ⟨k, hk, hasks⟩ := hl.exists_asks hn
      obtain ⟨child, hchildren, hholds⟩ := h k hk
      obtain rfl : child = n := (List.cons.inj (hchildren.symm.trans hasks.2)).1
      exact ⟨k, hasks.1, hholds⟩
    constructor
    · intro n hn
      obtain ⟨k, hc, ⟨_, hzero⟩ | ⟨hk, _⟩⟩ := hmember hn
      · exact hzero
      · rw [hk] at hc
        cases hc
    · intro n hn
      obtain ⟨k, hc, ⟨hk, _⟩ | ⟨_, hnonpos⟩⟩ := hmember hn
      · rw [hk] at hc
        cases hc
      · exact hnonpos

variable [Measured α]

/-- OSQP refuses a problem for its cones exactly if a constraint asks for a second-order or an exponential cone. What
it is handed of any other problem are all rows of the program, and packed values of the variables meet them exactly if
they satisfy every constraint. -/
theorem linear_problem_handed (h : Accepted sense objective constraints l p) (solver : Osqp.Solver α)
    (options : Options) (journal : Journal) :
    ((∃ names, (Osqp.run solver p l options journal).outcome = .error (.conesNotSupported names)) ↔
        options.requireFree = .ok () ∧ ∃ n ∈ constraints, n.kind = .soc ∨ n.kind = .exp) ∧
      ((∀ n ∈ constraints, ¬(n.kind = .soc ∨ n.kind = .exp)) →
        (∀ chosen, options.requireFree = .ok () → Osqp.settings options = .ok chosen →
          (Osqp.run solver p l options journal).handed = some (Osqp.request p chosen)) ∧
        ∀ r, (Osqp.run solver p l options journal).handed = some r →
          Matrix.stack p.width (r.blocks.map Program.Part.A) = p.A ∧
          (r.blocks.flatMap fun q => q.b.toReals.toList) = p.b.toReals.toList ∧
          ∀ x : Int → Matrix α, (∀ e ∈ l.shapes, (x e.1).shape = e.2) →
            (∀ n ∈ constraints, ∀ child ∈ n.children, ∀ f, child.Denotes f → child.value x = f x) ∧
            (r.Meets (l.pack (l.shapes.map fun e => (e.1, x e.1))) ↔
              ∀ n ∈ constraints, ∃ child, n.children = [child] ∧
                (n.kind = .eq ∧
                    (∀ i < child.shape.rows, ∀ j < child.shape.cols, (child.value x).get i j = 0) ∨
                  n.kind = .leq ∧
                    ∀ i < child.shape.rows, ∀ j < child.shape.cols, (child.value x).get i j ≤ 0))) := by
  obtain ⟨ms, hms⟩ := h.exists_isOf
  obtain ⟨vs, hvs⟩ := h.orders
  have hfits := h.fits
  have hcones := h.unsupported_ne_nil_iff
  refine ⟨?_, fun hnone => ⟨fun chosen hfree hchosen => ?_, fun r hr => ?_⟩⟩
  · simp only [Osqp.run_refuses_iff hfits, Osqp.prepare_refuses_iff, ← hcones]
    exact ⟨fun ⟨_, hfree, hne, _⟩ => ⟨hfree, hne⟩, fun ⟨hfree, hne⟩ => ⟨_, hfree, hne, rfl⟩⟩
  · have hnil : Osqp.unsupported p.dims = [] := by
      by_contra hne
      obtain ⟨n, hn, hk⟩ := hcones.mp hne
      exact hnone n hn hk
    refine Osqp.handed_eq_some.mpr ⟨chosen, ?_, rfl⟩
    rw [Osqp.prepare, hfree, hnil]
    exact hchosen
  · obtain ⟨chosen, _, rfl⟩ := Osqp.handed_eq_some.mp hr
    have hlinear : ∀ n ∈ constraints, n.kind = .eq ∨ n.kind = .leq := by
      intro n hn
      obtain ⟨m, _, hasks⟩ := exists_right_of_forall₂ hms.asks hn
      exact (Kind.cone?_of_linear hasks.1 (hnone n hn)).imp And.left And.left
    obtain ⟨hzero, hnonneg⟩ := hms.coneDims_of_linear hlinear
    have hheight := hms.height_eq hlinear
    rw [hzero, hnonneg] at hheight
    rw [← hfits.dims_eq] at hzero hnonneg
    have hrows : p.A.rows = total (l.dims.get .eq) + total (l.dims.get .leq) :=
      hfits.rows_eq.trans (by exact_mod_cast hheight)
    obtain ⟨hleft, hright⟩ := Osqp.blocks_eq chosen hzero hnonneg hrows (hfits.rows_eq ▸ hfits.column)
    refine ⟨hleft, hright, fun x hx => ?_⟩
    have hagrees := h.agrees (Layout.pack_reads hvs hx)
    have hshape : ∀ c, ∀ n ∈ l.members.get c, (n.value x).shape = n.shape := fun c n hn => hagrees.shape_eq hn
    have hsize : ∀ c, ((l.members.get c).flatMap fun n => c.signed (n.value x).vec).length = total (l.dims.get c) :=
      Layout.length_member_entries hms fun c n hn => c.length_signed_vec (hshape c n hn)
    have hleaves := hagrees.leaves
    rw [hms.entriesBy_of_linear hlinear] at hleaves
    refine ⟨fun n hn child hchild f hf => hagrees.value_eq hms hn hchild hf, ?_⟩
    rw [Osqp.meets_iff hleaves (by rw [hsize, hzero]) (by rw [hsize, hnonneg])]
    exact hms.entries_of_linear hnone hshape

end problems

/-- A ceiling of five is handed over and met by five but not by six, and a problem with all cones is refused. -/
theorem linear_problem_handed_gain :
    (∃ p r, Program.assemble .maximize Sample.gain Sample.gainLayout = .ok p ∧
      (Osqp.run Sample.solvers.osqp p Sample.gainLayout [] .empty).handed = some r ∧ r.Meets [5] ∧ ¬r.Meets [6]) ∧
    ∃ p names, Program.assemble .maximize Sample.cost Sample.layout = .ok p ∧
      (Osqp.run Sample.solvers.osqp p Sample.layout [] .empty).outcome = .error (.conesNotSupported names) := by
  constructor
  · obtain ⟨p, h⟩ := Sample.exists_accepted_gain
    obtain ⟨chosen, hchosen⟩ := exists_of_isOk (show (Osqp.settings []).isOk = true by decide +kernel)
    have hnone : ∀ n ∈ [Sample.ceiling], ¬(n.kind = .soc ∨ n.kind = .exp) := by
      rw [List.forall_mem_singleton]
      decide
    obtain ⟨hhanded, hblocks⟩ := (linear_problem_handed h Sample.solvers.osqp [] .empty).2 hnone
    have hr := hhanded chosen rfl hchosen
    obtain ⟨_, _, hmeets⟩ := hblocks _ hr
    let x (y : ℚ) (_ : Int) : Matrix ℚ := Matrix.ofVec 1 1 [y]
    have hpoint : ∀ y, Sample.gainLayout.pack (Sample.gainLayout.shapes.map fun e => (e.1, x y e.1)) = [y] →
        ((Osqp.request p chosen).Meets [y] ↔ y + (-5 + 0) ≤ 0) := by
      intro y hy
      obtain ⟨_, hiff⟩ := hmeets (x y) (List.forall_mem_singleton.mpr rfl)
      rw [hy, List.forall_mem_singleton] at hiff
      refine hiff.trans ⟨?_, fun hle => ⟨_, rfl, .inr ⟨rfl, fun i hi j hj => ?_⟩⟩⟩
      · rintro ⟨child, hchild, ⟨hk, _⟩ | ⟨_, hle⟩⟩
        · cases hk
        · obtain rfl := (List.cons.inj hchild).1
          exact hle 0 Nat.one_pos 0 Nat.one_pos
      · obtain rfl := Nat.lt_one_iff.mp hi
        obtain rfl := Nat.lt_one_iff.mp hj
        exact hle
    exact ⟨p, _, h.assembled, hr, (hpoint 5 (by decide +kernel)).mpr (by decide +kernel),
      fun h => absurd ((hpoint 6 (by decide +kernel)).mp h) (by decide +kernel)⟩
  · obtain ⟨p, h⟩ := Sample.exists_accepted
    obtain ⟨hiff, _⟩ := linear_problem_handed h Sample.solvers.osqp [] .empty
    have hsoc : (⟨5, .soc, ⟨3, 1⟩, [Sample.column], .loose .none⟩ : Node ℚ) ∈ Sample.constraints :=
      List.mem_cons_of_mem _ List.mem_cons_self
    obtain ⟨names, hnames⟩ := hiff.mpr ⟨rfl, _, hsoc, .inl rfl⟩
    exact ⟨p, names, h.assembled, hnames⟩

end ConicForm
