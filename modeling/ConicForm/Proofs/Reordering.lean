import ConicForm.Proofs.Acceptance
import ConicForm.Proofs.Locality
import ConicForm.Proofs.Tilings

/-!
# Constraints in a new order

A problem whose constraints come in a new order has the same columns and the same direction, and its rows are those
of the original problem in the order that the constraints are given: the rows of each constraint are moved as a
whole. A vector of duals that is moved along has the same piece for each constraint.
-/

namespace ConicForm

variable {α : Type}

/-- The items of a list in a new order. -/
def reordered {β : Type} (xs : List β) (σ : Equiv.Perm (Fin xs.length)) : List β := List.ofFn fun j => xs[σ j]

section

variable {β : Type} {xs : List β} (σ : Equiv.Perm (Fin xs.length))

theorem length_reordered : (reordered xs σ).length = xs.length := List.length_ofFn

theorem getElem_reordered (j : Fin xs.length) (h : (j : Nat) < (reordered xs σ).length) :
    (reordered xs σ)[(j : Nat)] = xs[σ j] := List.getElem_ofFn h

theorem reordered_perm : (reordered xs σ).Perm xs := by
  have hperm := Equiv.Perm.ofFn_comp_perm σ fun j : Fin xs.length => xs[(j : Nat)]
  rwa [List.ofFn_getElem] at hperm

end

/-! Ranges of vectors -/

theorem Axis.slice_ofFn_congr {β : Type} {n first first' count : Nat} {z z' : Fin n → β} (h : first + count ≤ n)
    (h' : first' + count ≤ n)
    (hz : ∀ (k : Nat) (hk : k < count), z' ⟨first' + k, by omega⟩ = z ⟨first + k, by omega⟩) :
    slice (List.ofFn z') first' ((first' : Int) + count) = slice (List.ofFn z) first ((first : Int) + count) := by
  rw [slice_ofNat (by rwa [List.length_ofFn]), slice_ofNat (by rwa [List.length_ofFn])]
  refine List.ext_getElem (by simp [Nat.le_sub_of_add_le', h, h']) fun k hk hk' => ?_
  have hcount : k < count := by
    rw [List.length_take] at hk
    omega
  rw [List.getElem_take, List.getElem_drop, List.getElem_ofFn, List.getElem_take, List.getElem_drop,
    List.getElem_ofFn, hz k hcount]

/-! Layouts -/

/-- The members of a cone, by their constraints. -/
theorem membersAt_eq_flatMap {ns : List (Node α)} {ms : List (Cone × Node α)} (h : List.Forall₂ Node.Asks ns ms)
    (c : Cone) : membersAt c ms = (ns.filter fun n => n.kind.cone? = some c).flatMap Node.children := by
  induction h with
  | nil => rfl
  | @cons n m ns ms hn _ ih =>
    obtain ⟨hcone, hchildren⟩ := hn
    rw [membersAt] at ih ⊢
    by_cases hc : m.1 = c
    · rw [List.filter_cons_of_pos (by simpa using hc), List.filter_cons_of_pos (by simpa [hcone] using hc),
        List.map_cons, List.flatMap_cons, ih, hchildren]
      rfl
    · rw [List.filter_cons_of_neg (by simpa using hc), List.filter_cons_of_neg (by simpa [hcone] using hc), ih]

namespace Layout

variable {objective : Node α} {constraints constraints' : List (Node α)} {ms ms' : List (Cone × Node α)}
  {l l' : Layout α}

theorem IsOf.members_eq_flatMap (hl : l.IsOf objective constraints ms) (c : Cone) :
    l.members.get c = (constraints.filter fun n => n.kind.cone? = some c).flatMap Node.children :=
  (hl.members_eq c).trans (membersAt_eq_flatMap hl.asks c)

/-- In another order of the constraints there are as many rows for each cone. -/
theorem IsOf.total_of_perm (hl : l.IsOf objective constraints ms) (hl' : l'.IsOf objective constraints' ms')
    (hperm : constraints'.Perm constraints) (c : Cone) :
    total ((l'.members.get c).map Node.size) = total ((l.members.get c).map Node.size) := by
  rw [hl.members_eq_flatMap, hl'.members_eq_flatMap]
  exact total_perm (((hperm.filter _).flatMap_right _).map _)

theorem IsOf.height_of_perm (hl : l.IsOf objective constraints ms) (hl' : l'.IsOf objective constraints' ms')
    (hperm : constraints'.Perm constraints) : l'.height = l.height := by
  rw [height, height]
  refine congrArg total (List.map_congr_left fun c _ => ?_)
  rw [hl'.sizes.total_get, hl.sizes.total_get, hl.total_of_perm hl' hperm]

/-- In another order of the constraints only the dimensions of the second-order cones have another order. -/
theorem IsOf.dims_of_perm (hl : l.IsOf objective constraints ms) (hl' : l'.IsOf objective constraints' ms')
    (hperm : constraints'.Perm constraints) : l'.dims = { l.dims with
      soc := ((constraints'.filter fun n => n.kind.cone? = some .soc).flatMap Node.children).map fun x =>
        x.shape.rows } := by
  have htotal : ∀ c, [total ((l'.members.get c).map Node.size)] = [total ((l.members.get c).map Node.size)] :=
    fun c => congrArg ([·]) (hl.total_of_perm hl' hperm c)
  have hsoc : l'.dims.soc = (l'.members.get .soc).map fun x => x.shape.rows := by
    rw [hl'.sizes.soc]
    exact List.map_congr_left fun n hn => by rw [Node.size, Shape.size, hl'.sizes.column n hn, Nat.mul_one]
  rw [hl'.members_eq_flatMap] at hsoc
  refine ByCone.ext_get fun c => ?_
  cases c with
  | eq => exact hl'.sizes.eq.trans ((htotal .eq).trans hl.sizes.eq.symm)
  | leq => exact hl'.sizes.leq.trans ((htotal .leq).trans hl.sizes.leq.symm)
  | soc => exact hsoc
  | exp => exact hl'.sizes.exp.trans ((htotal .exp).trans hl.sizes.exp.symm)

section

variable [Zero α] [Add α] [Neg α] [Mul α] [Div α] [BEq α] [OfDouble α]

/-- A problem is laid out in every order of its constraints, with the same columns. -/
theorem exists_of_perm (hb : ∀ n ∈ objective :: constraints, n.Built) (h : ofProblem objective constraints = .ok l)
    (hl : l.IsOf objective constraints ms) (hperm : constraints'.Perm constraints) :
    ∃ l', ofProblem objective constraints' = .ok l' ∧ l'.offsets = l.offsets ∧ l'.shapes = l.shapes ∧
      l'.width = l.width := by
  have hroots : ∀ n, n ∈ objective :: constraints' ↔ n ∈ objective :: constraints :=
    fun n => (hperm.cons objective).mem_iff
  have hb' : ∀ n ∈ objective :: constraints', n.Built := fun n hn => hb n ((hroots n).mp hn)
  obtain ⟨ms', hasks', hms⟩ := List.perm_comp_forall₂ hperm hl.asks
  have hcols : ∀ n, (Cone.soc, n) ∈ ms' → n.shape.cols = 1 :=
    fun n hn => hl.sizes.column n (hl.mem_members.mpr (hms.mem_iff.mp hn))
  -- The variables that occur are the same ones, and the columns depend on nothing else.
  obtain ⟨found, vs, hfound, hmem, horders⟩ := exists_orders h
  obtain ⟨found', hfound'⟩ := Node.exists_problemVariables hb'
  have hsame : ∀ v, v ∈ found' ↔ v ∈ vs := by
    intro v
    rw [hmem, Node.mem_problemVariables hb' hfound', Node.mem_problemVariables hb hfound]
    simp only [hroots]
  have hdistinct := Variable.distinct_congr hsame (Variable.distinct_of_ascending horders.ascending)
  obtain ⟨l', hl', horders'⟩ := exists_ofProblem hb' hasks' hcols hfound' hdistinct
  exact ⟨l', hl', horders'.offsets_eq.trans horders.offsets_eq.symm, horders'.shapes_eq.trans horders.shapes_eq.symm,
    horders'.width_eq.trans horders.width_eq.symm⟩

end

end Layout

/-! Programs -/

section

variable [Zero α] [One α] [Add α] [Neg α] [Mul α] [Div α] [OfDouble α] [BEq α] {objective : Node α}
  {constraints : List (Node α)} {l l' : Layout α} {sense : Sense} {p p' : Program α}

/-- The direction of a program depends on its objective and the columns only. -/
theorem Accepted.direction_congr {constraints' : List (Node α)} (h : Accepted sense objective constraints l p)
    (h' : Accepted sense objective constraints' l' p') (hoffsets : l'.offsets = l.offsets)
    (hwidth : l'.width = l.width) : p'.c = p.c ∧ p'.d = p.d := by
  obtain ⟨_, _, hp⟩ := h.exists_madeOf
  obtain ⟨_, _, hp'⟩ := h'.exists_madeOf
  have hcost := hp'.cost_eq
  rw [Program.plainRows_congr hoffsets hwidth, hp.cost_eq] at hcost
  obtain rfl := Except.ok.inj hcost
  exact Prod.mk.inj (Except.ok.inj (hp'.direction_eq.symm.trans hp.direction_eq))

/-- A problem is accepted in every order of its constraints, with the same columns. -/
theorem Accepted.exists_of_perm {constraints' : List (Node α)} (h : Accepted sense objective constraints l p)
    (hperm : constraints'.Perm constraints) : ∃ l' p', Accepted sense objective constraints' l' p' ∧
      l'.offsets = l.offsets ∧ l'.shapes = l.shapes ∧ l'.width = l.width := by
  obtain ⟨ms, hl⟩ := h.exists_isOf
  obtain ⟨_, _, hp⟩ := h.exists_madeOf
  have hroots : ∀ n, n ∈ objective :: constraints' ↔ n ∈ objective :: constraints :=
    fun n => (hperm.cons objective).mem_iff
  have hb' : ∀ n ∈ objective :: constraints', n.Built := fun n hn => h.built n ((hroots n).mp hn)
  have ht' : ToldApart (objective :: constraints') := by
    have ht := h.apart
    simp only [ToldApart, List.mem_flatMap, hroots] at ht ⊢
    exact ht
  obtain ⟨l', hlaidOut, hsame⟩ := Layout.exists_of_perm h.built h.laidOut hl hperm
  obtain ⟨ms', hl'⟩ := Layout.ofProblem_eq_ok hb' hlaidOut
  have hmembers : ∀ c n, n ∈ l'.members.get c → n ∈ l.members.get c := by
    intro c n hn
    rw [hl'.members_eq_flatMap] at hn
    rw [hl.members_eq_flatMap]
    exact ((hperm.filter _).flatMap_right _).mem_iff.mp hn
  obtain ⟨hobjective, hblocks⟩ := h.exists_block
  obtain ⟨p', hp'⟩ := Program.exists_assemble sense hl' hb' ht' hp.scalar hobjective
    (fun c n hn => hblocks c n (hmembers c n hn)) fun n hn => hp.triples n (hmembers .exp n hn)
  exact ⟨l', p', ⟨hb', ht', hlaidOut, hp'⟩, hsame⟩

end

/-- A problem is accepted in every order of its constraints, with the same columns and the same direction. Only the
dimensions of the second-order cones have another order, and the rows of each constraint are moved as a whole: the
rows and the right sides are permuted, and a vector that is permuted along has the same piece for each constraint. -/
theorem program_of_reordered [Zero α] [One α] [Add α] [Neg α] [Mul α] [Div α] [OfDouble α] [BEq α]
    {objective : Node α} {constraints : List (Node α)} {l : Layout α} {sense : Sense} {p : Program α}
    (h : Accepted sense objective constraints l p) (σ : Equiv.Perm (Fin constraints.length)) :
    ∃ l' p', Layout.ofProblem objective (reordered constraints σ) = .ok l' ∧
      Program.assemble sense objective l' = .ok p' ∧
      l'.offsets = l.offsets ∧ l'.shapes = l.shapes ∧ l'.width = l.width ∧ l'.height = l.height ∧
      p'.c = p.c ∧ p'.d = p.d ∧
      l'.dims = { l.dims with
        soc := (((reordered constraints σ).filter fun n => n.kind.cone? = some .soc).flatMap Node.children).map fun x =>
          x.shape.rows } ∧
      p'.dims = { p.dims with soc := l'.dims.soc.map fun k : Nat => (k : Int) } ∧
      (∀ j : Fin constraints.length, ∃ r r', l.ranges[(σ j : Nat)]? = some r ∧ l'.ranges[(j : Nat)]? = some r' ∧
        r'.cone = r.cone ∧ r'.count = r.count ∧
        p'.part r'.first (r'.first + r'.count) = p.part r.first (r.first + r.count)) ∧
      ∃ π : Equiv.Perm (Fin l.height),
        (∀ a : Fin l.height, p'.A.row a = p.A.row (π a) ∧
          p'.b.toReals.asRows.get a 0 = p.b.toReals.asRows.get (π a) 0) ∧
        ∀ (z : Fin l.height → α) (j : Fin constraints.length),
          (l'.splitByConstraint (List.ofFn fun a => z (π a)))[(j : Nat)]? =
            (l.splitByConstraint (List.ofFn z))[(σ j : Nat)]? := by
  have hperm := reordered_perm σ
  obtain ⟨l', p', h', hoffsets, hshapes, hwidth⟩ := h.exists_of_perm hperm
  obtain ⟨ms, hl⟩ := h.exists_isOf
  obtain ⟨ms', hl'⟩ := h'.exists_isOf
  obtain ⟨hc, hd⟩ := h.direction_congr h' hoffsets hwidth
  have hheight := hl.height_of_perm hl' hperm
  have hdims := hl.dims_of_perm hl' hperm
  -- Each constraint has its rows.
  have hmoved : ∀ j : Fin constraints.length, ∃ (c : Cone) (first first' count : Nat),
      l.ranges[(σ j : Nat)]? = some ⟨c, first, count⟩ ∧ l'.ranges[(j : Nat)]? = some ⟨c, first', count⟩ ∧
      first + count ≤ l.height ∧ first' + count ≤ l'.height ∧
      p'.part first' ((first' : Int) + count) = p.part first ((first : Int) + count) ∧
      ∀ k < count, (p'.A.row (first' + k), p'.b.toReals.asRows.get (first' + k) 0) =
        (p.A.row (first + k), p.b.toReals.asRows.get (first + k) 0) := by
    intro j
    have hj : (j : Nat) < (reordered constraints σ).length := (length_reordered σ).symm ▸ j.isLt
    refine h.ranges_of_alike h' hoffsets hwidth (σ j).isLt hj ?_
    rw [getElem_reordered]
    exact Node.Alike.refl _
  choose cone first first' count hrange hrange' hle hle' hpart hrow using hmoved
  -- The ranges of both layouts tile the rows.
  have hlen : l.ranges.length = constraints.length := hl.length_ranges.trans hl.asks.length_eq.symm
  have hlen' : l'.ranges.length = constraints.length :=
    (hl'.length_ranges.trans hl'.asks.length_eq.symm).trans (length_reordered σ)
  have htiles := (Layout.parts_of_ofProblem h.laidOut).tiles hlen σ hrange
  have htiles' := (Layout.parts_of_ofProblem h'.laidOut).tiles hlen' (Equiv.refl _) hrange'
  rw [hheight] at htiles'
  obtain ⟨π, hπ⟩ := htiles.exists_perm htiles'
  refine ⟨l', p', h'.laidOut, h'.assembled, hoffsets, hshapes, hwidth, hheight, hc, hd, hdims, ?_, fun j => ?_, π,
    fun a => ?_, fun z j => ?_⟩
  · rw [h'.fits.dims_eq, h.fits.dims_eq, Layout.coneDims, Layout.coneDims, hdims]
  · exact ⟨_, _, hrange j, hrange' j, rfl, rfl, hpart j⟩
  · obtain ⟨j, k, hk, ha⟩ := htiles'.exists_eq a.isLt
    obtain ⟨hA, hb⟩ := Prod.mk.inj (hrow j k hk)
    rw [hπ j k hk a ha, ha]
    exact ⟨hA, hb⟩
  · rw [Layout.splitByConstraint, Layout.splitByConstraint, List.getElem?_map, List.getElem?_map, hrange j, hrange' j]
    exact congrArg some (Axis.slice_ofFn_congr (hle j) (hheight ▸ hle' j) fun k hk =>
      congrArg z (Fin.ext (hπ j k hk _ rfl)))

/-- The constraints of the sample in the opposite order. -/
theorem program_of_reordered_rev : ∃ p l' p', Program.assemble .maximize Sample.cost Sample.layout = .ok p ∧
    Layout.ofProblem Sample.cost (reordered Sample.constraints Fin.revPerm) = .ok l' ∧
    Program.assemble .maximize Sample.cost l' = .ok p' ∧ l'.offsets = [(3, 0), (7, 2)] ∧
    l'.dims = ⟨[1], [2], [3], [3]⟩ ∧
    p'.c = p.c ∧ ∃ r', l'.ranges[3]? = some r' ∧ p'.part r'.first (r'.first + r'.count) = p.part 1 3 := by
  obtain ⟨p, h⟩ := Sample.exists_accepted
  obtain ⟨l', p', h', hp', hoffsets, _, _, _, hc, _, hdims, _, hparts, _⟩ :=
    program_of_reordered h Fin.revPerm
  obtain ⟨r, r', hr, hr', _, _, hpart⟩ := hparts ⟨3, by decide⟩
  obtain rfl : ⟨.leq, 1, 2⟩ = r := Option.some.inj hr
  exact ⟨p, l', p', h.assembled, h', hp', hoffsets, hdims, hc, r', hr', hpart⟩

end ConicForm
