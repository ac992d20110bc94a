import ConicForm.Proofs.Columns

/-!
# Rows of a layout

The rows of a program are those of the members of its cones, cone by cone and in the order of the
constraints. Each constraint is given the range of rows that its member has in this order, although the
ranges are counted up over the constraints as they come and the rows are laid out cone by cone.
-/

namespace ConicForm

variable {α : Type}

theorem Kind.cone?_eq_soc {k : Kind} : k.cone? = some .soc ↔ k = .soc := by
  cases k <;> simp [Kind.cone?]

theorem Kind.cone?_eq_exp {k : Kind} : k.cone? = some .exp ↔ k = .exp := by
  cases k <;> simp [Kind.cone?]

namespace Node

/-- Whether a node is a constraint on an expression that asks for a cone. -/
def Asks (n : Node α) (m : Cone × Node α) : Prop := n.kind.cone? = some m.1 ∧ n.children = [m.2]

variable {n : Node α} {ns : List (Node α)}

theorem cone_eq_ok {position : Int} {c : Cone} (h : n.cone position = .ok c) : n.kind.cone? = some c := by
  unfold cone at h
  split at h
  · next d hd =>
    obtain rfl := Except.ok.inj h
    exact hd
  · split at h <;> cases h

theorem membership_eq_ok {position : Nat} {m : Cone × Node α} (h : n.membership position = .ok m) :
    n.Asks m := by
  obtain ⟨c, hc, h⟩ := bind_eq_ok.mp h
  split at h
  · next x hx =>
    obtain rfl := Except.ok.inj h
    exact ⟨cone_eq_ok hc, hx⟩
  · cases h

theorem memberships_eq_ok {position : Nat} {ms : List (Cone × Node α)}
    (h : memberships position ns = .ok ms) : List.Forall₂ Asks ns ms := by
  induction ns generalizing position ms with
  | nil =>
    obtain rfl := Except.ok.inj h
    exact .nil
  | cons n ns ih =>
    obtain ⟨m, hm, h⟩ := bind_eq_ok.mp h
    obtain ⟨rest, hrest, h⟩ := bind_eq_ok.mp h
    obtain rfl := Except.ok.inj h
    exact .cons (membership_eq_ok hm) (ih hrest)

theorem width_eq_ok {k : Nat} (h : n.width = .ok k) : k = n.size := by
  unfold width at h
  split at h
  · cases h
  · exact (Except.ok.inj h).symm

end Node

/-! Dimensions -/

variable {ns : List (Node α)}

theorem totalWidth_eq_ok {k : Nat} (h : totalWidth ns = .ok k) : k = total (ns.map Node.size) := by
  obtain ⟨ks, hks, hk⟩ := bind_eq_ok.mp h
  obtain rfl := Except.ok.inj hk
  have hall := forall₂_of_mapM_eq_ok hks
  clear h hks hk
  induction hall with
  | nil => rfl
  | cons hw _ ih => rw [total_cons, ih, Node.width_eq_ok hw, List.map_cons, total_cons]

theorem columnHeights_eq_ok {member : Nat} {ks : List Nat} (h : columnHeights member ns = .ok ks) :
    ks = ns.map Node.size ∧ ∀ n ∈ ns, n.shape.cols = 1 := by
  induction ns generalizing member ks with
  | nil =>
    obtain rfl := Except.ok.inj h
    exact ⟨rfl, List.forall_mem_nil _⟩
  | cons n ns ih =>
    rw [columnHeights] at h
    by_cases hc : n.shape.isColumn
    · simp only [hc, Bool.not_true] at h
      obtain ⟨rest, hrest, h⟩ := bind_eq_ok.mp h
      obtain rfl := Except.ok.inj h
      obtain ⟨rfl, hcols⟩ := ih hrest
      have hcol : n.shape.cols = 1 := by simpa [Shape.isColumn] using hc
      constructor
      · rw [List.map_cons, Node.size, Shape.size, hcol, Nat.mul_one]
      · intro m hm
        rcases List.mem_cons.mp hm with rfl | hm
        · exact hcol
        · exact hcols m hm
    · simp only [hc] at h
      cases h

theorem membersOf_groups {β : Type} (t : ByCone (List β)) (c : Cone) : membersOf t.groups c = t.get c := by
  cases c <;> rfl

/-- Dimensions of some members: one total for a cone, but one entry for each member of the second-order
cones, which are columns. -/
structure Sizes (members : ByCone (List (Node α))) (dims : ByCone (List Nat)) : Prop where
  eq : dims.eq = [total (members.eq.map Node.size)]
  leq : dims.leq = [total (members.leq.map Node.size)]
  soc : dims.soc = members.soc.map Node.size
  exp : dims.exp = [total (members.exp.map Node.size)]
  column : ∀ n ∈ members.soc, n.shape.cols = 1

theorem dimensions_eq_ok {members : ByCone (List (Node α))} {dims : ByCone (List Nat)}
    (h : dimensions members.groups = .ok dims) : Sizes members dims := by
  obtain ⟨_, _, h⟩ := bind_eq_ok.mp h
  obtain ⟨eq, heq, h⟩ := bind_eq_ok.mp h
  obtain ⟨leq, hleq, h⟩ := bind_eq_ok.mp h
  obtain ⟨soc, hsoc, h⟩ := bind_eq_ok.mp h
  obtain ⟨exp, hexp, h⟩ := bind_eq_ok.mp h
  obtain rfl := Except.ok.inj h
  rw [membersOf_groups] at heq hleq hsoc hexp
  obtain ⟨rfl, hcols⟩ := columnHeights_eq_ok hsoc
  obtain rfl := totalWidth_eq_ok heq
  obtain rfl := totalWidth_eq_ok hleq
  obtain rfl := totalWidth_eq_ok hexp
  exact ⟨rfl, rfl, rfl, rfl, hcols⟩

theorem Sizes.total_get {members : ByCone (List (Node α))} {dims : ByCone (List Nat)} (h : Sizes members dims)
    (c : Cone) : total (dims.get c) = total ((members.get c).map Node.size) := by
  cases c with
  | eq => rw [ByCone.get, h.eq]; rfl
  | leq => rw [ByCone.get, h.leq]; rfl
  | soc => rw [ByCone.get, h.soc]; rfl
  | exp => rw [ByCone.get, h.exp]; rfl

theorem total_size_of_triples (h : ∀ n ∈ ns, n.shape.rows = 3) :
    total (ns.map Node.size) = 3 * total (ns.map fun n => n.shape.cols) := by
  induction ns with
  | nil => rfl
  | cons n ns ih =>
    rw [List.map_cons, List.map_cons, total_cons, total_cons, ih fun m hm => h m (List.mem_cons_of_mem n hm),
      Nat.mul_add, Node.size, Shape.size, h n List.mem_cons_self]

/-! Ranges -/

namespace Cone

/-- The cones whose rows come before those of a cone. -/
def before : Cone → List Cone
  | .eq => []
  | .leq => [.eq]
  | .soc => [.eq, .leq]
  | .exp => [.eq, .leq, .soc]

theorem exists_all_eq (c : Cone) : ∃ after, all = c.before ++ c :: after := by
  cases c with
  | eq => exact ⟨[.leq, .soc, .exp], rfl⟩
  | leq => exact ⟨[.soc, .exp], rfl⟩
  | soc => exact ⟨[.exp], rfl⟩
  | exp => exact ⟨[], rfl⟩

end Cone

theorem firstRows_coneSizes (dims : ByCone (List Nat)) (c : Cone) :
    (firstRows (coneSizes dims)).get c = (total (c.before.map fun d => total (dims.get d)) : Nat) := by
  cases c with
  | eq => rfl
  | leq => simp [firstRows, coneSizes, ByCone.get, ByCone.map, ByCone.ofFn, Cone.before]
  | soc => simp [firstRows, coneSizes, ByCone.get, ByCone.map, ByCone.ofFn, Cone.before]
  | exp => simp [firstRows, coneSizes, ByCone.get, ByCone.map, ByCone.ofFn, Cone.before, Int.add_assoc]

/-- The members of a cone among some memberships. -/
def membersAt (c : Cone) (ms : List (Cone × Node α)) : List (Node α) := (ms.filter fun m => m.1 = c).map Prod.snd

theorem mem_membersAt {c : Cone} {ms : List (Cone × Node α)} {n : Node α} : n ∈ membersAt c ms ↔ (c, n) ∈ ms := by
  rw [membersAt, List.mem_map]
  constructor
  · rintro ⟨m, hm, rfl⟩
    obtain ⟨hms, hc⟩ := List.mem_filter.mp hm
    obtain rfl : m.1 = c := of_decide_eq_true hc
    exact hms
  · intro hm
    exact ⟨(c, n), List.mem_filter.mpr ⟨hm, by simp⟩, rfl⟩

/-- A constraint has the rows after those of the constraints before it that ask for the same cone. -/
theorem rowRangesFrom_eq_ok {next : ByCone Int} {position : Nat} {ms : List (Cone × Node α)}
    {rs : List RowRange} (hms : List.Forall₂ Node.Asks ns ms)
    (h : rowRangesFrom next position ns = .ok rs) :
    rs.length = ms.length ∧ ∀ before m after, ms = before ++ m :: after → rs[before.length]? =
      some ⟨m.1, next.get m.1 + total ((membersAt m.1 before).map Node.size), m.2.size⟩ := by
  induction hms generalizing next position rs with
  | nil =>
    obtain rfl := Except.ok.inj h
    exact ⟨rfl, fun before m after hb => by simp at hb⟩
  | @cons n m ns ms hn _ ih =>
    rw [rowRangesFrom] at h
    obtain ⟨c, hc, h⟩ := bind_eq_ok.mp h
    obtain ⟨hcone, hchildren⟩ := hn
    obtain rfl : m.1 = c := Option.some.inj (hcone.symm.trans (Node.cone_eq_ok hc))
    rw [hchildren] at h
    obtain ⟨count, hcount, h⟩ := bind_eq_ok.mp h
    obtain ⟨rest, hrest, h⟩ := bind_eq_ok.mp h
    obtain rfl := Except.ok.inj h
    obtain rfl := Node.width_eq_ok hcount
    obtain ⟨hlen, hget⟩ := ih hrest
    refine ⟨congrArg (· + 1) hlen, fun before k after hb => ?_⟩
    cases before with
    | nil =>
      obtain ⟨rfl, rfl⟩ := List.cons.inj hb
      simp [membersAt]
    | cons b before =>
      obtain ⟨rfl, rfl⟩ := List.cons.inj hb
      rw [List.length_cons, List.getElem?_cons_succ, hget before k after rfl, ByCone.get_set]
      by_cases hk : k.1 = m.1
      · have hf : membersAt k.1 (m :: before) = m.2 :: membersAt k.1 before := by simp [membersAt, hk]
        rw [if_pos hk, hf, List.map_cons, total_cons, hk, Nat.cast_add, Int.add_assoc]
      · have hf : membersAt k.1 (m :: before) = membersAt k.1 before := by
          simp [membersAt, Ne.symm hk]
        rw [if_neg hk, hf]

/-! Layouts of problems -/

namespace Layout

variable {l : Layout α} {objective : Node α} {constraints : List (Node α)} {ms : List (Cone × Node α)}

/-- The layout of a problem whose constraints ask for the memberships `ms`. -/
structure IsOf (l : Layout α) (objective : Node α) (constraints : List (Node α))
    (ms : List (Cone × Node α)) : Prop where
  orders : ∃ vs, l.Orders vs
  holds : ∀ n ∈ objective :: constraints, ∀ id s, n.Leaf id s → ∃ start, l.Holds id start s
  asks : List.Forall₂ Node.Asks constraints ms
  members_eq : ∀ c, l.members.get c = membersAt c ms
  sizes : Sizes l.members l.dims
  length_ranges : l.ranges.length = ms.length
  ranges_eq : ∀ before m after, ms = before ++ m :: after → l.ranges[before.length]? =
    some ⟨m.1, (total (m.1.before.map fun c => total (l.dims.get c)) +
      total ((membersAt m.1 before).map Node.size) : Nat), m.2.size⟩

theorem ofProblem_of_distinct {members : ByCone (List (Node α))} {dims : ByCone (List Nat)}
    {ranges : List RowRange} {vs ws : List Variable} (hmembers : classify constraints = .ok members)
    (hdims : dimensions members.groups = .ok dims) (hvs : objective.problemVariables constraints = .ok vs)
    (hws : Variable.distinct vs = .ok ws) (hranges : rowRanges constraints (coneSizes dims) = .ok ranges) :
    ofProblem objective constraints = .ok ⟨members, dims, Variable.offsetsFrom 0 ws,
      ws.map fun v => (v.id, v.shape), (Variable.totalSize ws).toNat, ranges⟩ := by
  have hoff : Variable.assignOffsets ws = .ok (Variable.offsetsFrom 0 ws, Variable.totalSize ws) := by
    rw [Variable.assignOffsets, Variable.distinct_of_ascending (Variable.distinct_eq_ok hws).1]
    rfl
  exact bind_eq_ok.mpr ⟨members, hmembers, bind_eq_ok.mpr ⟨dims, hdims, bind_eq_ok.mpr ⟨vs, hvs,
    bind_eq_ok.mpr ⟨ws, hws, bind_eq_ok.mpr ⟨_, hoff, bind_eq_ok.mpr ⟨ranges, hranges, rfl⟩⟩⟩⟩⟩⟩

/-- A problem is laid out by the variables of its trees, put in ascending order. -/
theorem ofProblem_of_perm {members : ByCone (List (Node α))} {dims : ByCone (List Nat)} {ranges : List RowRange}
    {first vs : List Variable} {others : List (List Variable)} {seen : List (Int × Variable)}
    (hmembers : classify constraints = .ok members) (hdims : dimensions members.groups = .ok dims)
    (hfirst : objective.leafVariables = .ok first) (hothers : constraints.mapM Node.leafVariables = .ok others)
    (hseen : (first ++ others.flatten).foldlM Variable.meet [] = .ok seen) (hperm : (seen.map Prod.snd).Perm vs)
    (hasc : Variable.Ascending vs) (hranges : rowRanges constraints (coneSizes dims) = .ok ranges) :
    ofProblem objective constraints = .ok ⟨members, dims, Variable.offsetsFrom 0 vs,
      vs.map fun v => (v.id, v.shape), (Variable.totalSize vs).toNat, ranges⟩ := by
  have hfound : objective.problemVariables constraints = .ok (first ++ others.flatten) := by
    rw [Node.problemVariables, funext Node.occurrences_eq, hfirst, hothers]
    rfl
  exact ofProblem_of_distinct hmembers hdims hfound (Variable.distinct_of_perm hseen hperm hasc) hranges

/-- What a problem that is laid out has gone through. -/
theorem ofProblem_cases (h : ofProblem objective constraints = .ok l) : ∃ ms dims found vs ranges,
    List.Forall₂ Node.Asks constraints ms ∧ dimensions (group ms).groups = .ok dims ∧
      objective.problemVariables constraints = .ok found ∧ Variable.distinct found = .ok vs ∧
      rowRanges constraints (coneSizes dims) = .ok ranges ∧
      l = ⟨group ms, dims, Variable.offsetsFrom 0 vs, vs.map fun v => (v.id, v.shape),
        (Variable.totalSize vs).toNat, ranges⟩ := by
  obtain ⟨members, hmembers, h⟩ := bind_eq_ok.mp h
  obtain ⟨ms, hms, hmembers⟩ := bind_eq_ok.mp hmembers
  obtain rfl := Except.ok.inj hmembers
  obtain ⟨dims, hdims, h⟩ := bind_eq_ok.mp h
  obtain ⟨found, hfound, h⟩ := bind_eq_ok.mp h
  obtain ⟨vs, hvs, h⟩ := bind_eq_ok.mp h
  obtain ⟨⟨offsets, width⟩, hoff, h⟩ := bind_eq_ok.mp h
  obtain ⟨ranges, hranges, h⟩ := bind_eq_ok.mp h
  -- The variables are in order already when they are given their columns.
  obtain ⟨hasc, _⟩ := Variable.distinct_eq_ok hvs
  obtain ⟨ws, hws, hoff⟩ := bind_eq_ok.mp hoff
  obtain rfl := Except.ok.inj ((Variable.distinct_of_ascending hasc).symm.trans hws)
  obtain ⟨rfl, rfl⟩ := Prod.ext_iff.mp (Except.ok.inj hoff)
  exact ⟨ms, dims, found, vs, ranges, Node.memberships_eq_ok hms, hdims, hfound, hvs, hranges,
    (Except.ok.inj h).symm⟩

/-- The columns of a problem are those of its distinct variables. -/
theorem exists_orders (h : ofProblem objective constraints = .ok l) : ∃ found vs,
    objective.problemVariables constraints = .ok found ∧ (∀ v, v ∈ vs ↔ v ∈ found) ∧ l.Orders vs := by
  obtain ⟨_, _, found, vs, _, _, _, hfound, hvs, _, rfl⟩ := ofProblem_cases h
  obtain ⟨hasc, hmem⟩ := Variable.distinct_eq_ok hvs
  have hshaped : Variable.Shaped vs := fun v hv => Node.shaped_of_problemVariables hfound v ((hmem v).mp hv)
  refine ⟨found, vs, hfound, hmem, hasc, hshaped, rfl, rfl, ?_⟩
  change (Variable.totalSize vs).toNat = _
  rw [Variable.totalSize_eq hshaped, Int.toNat_natCast]

theorem ofProblem_eq_ok [Zero α] [Add α] [Neg α] [Mul α] [Div α] [BEq α] [OfDouble α]
    (hb : ∀ n ∈ objective :: constraints, n.Built) (h : ofProblem objective constraints = .ok l) :
    ∃ ms, l.IsOf objective constraints ms := by
  obtain ⟨found, vs, hfound, hmem, horders⟩ := exists_orders h
  obtain ⟨ms, dims, _, _, ranges, hasks, hdims, _, _, hranges, rfl⟩ := ofProblem_cases h
  obtain ⟨hlen, hget⟩ := rowRangesFrom_eq_ok hasks hranges
  refine ⟨ms, ⟨vs, horders⟩, fun n hn id s hl => ?_, hasks, fun c => ByCone.get_ofFn _ c,
    dimensions_eq_ok hdims, hlen, fun before m after hb => ?_⟩
  · have hv := (hmem _).mpr ((Node.mem_problemVariables hb hfound _).mpr ⟨id, s, rfl, n, hn, hl⟩)
    obtain ⟨start, hh⟩ := horders.exists_holds hv
    rw [Variable.shape_ofShape] at hh
    exact ⟨start, hh⟩
  · rw [hget before m after hb, firstRows_coneSizes, Nat.cast_add]

theorem IsOf.mem_members (h : l.IsOf objective constraints ms) {c : Cone} {n : Node α} :
    n ∈ l.members.get c ↔ (c, n) ∈ ms := by
  rw [h.members_eq, mem_membersAt]

/-- Entries for each member, in the order of the rows. -/
def entriesBy (l : Layout α) (entries : Cone → Node α → List α) : List α :=
  Cone.all.flatMap fun c => (l.members.get c).flatMap (entries c)

variable {entries : Cone → Node α → List α}

theorem length_member_entries (h : l.IsOf objective constraints ms)
    (hsize : ∀ c, ∀ n ∈ l.members.get c, (entries c n).length = n.size) (c : Cone) :
    ((l.members.get c).flatMap (entries c)).length = total (l.dims.get c) := by
  rw [length_flatMap_eq (hsize c), h.sizes.total_get]

theorem length_entriesBy (h : l.IsOf objective constraints ms)
    (hsize : ∀ c, ∀ n ∈ l.members.get c, (entries c n).length = n.size) :
    (l.entriesBy entries).length = l.height :=
  length_flatMap_eq fun c _ => length_member_entries h hsize c

/-- The entries of each constraint's member stand in the rows of the constraint. -/
theorem slice_entriesBy (h : l.IsOf objective constraints ms)
    (hsize : ∀ c, ∀ n ∈ l.members.get c, (entries c n).length = n.size)
    {before after : List (Cone × Node α)} {m : Cone × Node α} (hm : ms = before ++ m :: after) :
    ∃ first : Nat, l.ranges[before.length]? = some ⟨m.1, first, m.2.size⟩ ∧ first + m.2.size ≤ l.height ∧
      Axis.slice (l.entriesBy entries) first ((first : Int) + m.2.size) = entries m.1 m.2 := by
  have hmembers : l.members.get m.1 = membersAt m.1 before ++ m.2 :: membersAt m.1 after := by
    rw [h.members_eq, hm]
    simp [membersAt]
  obtain ⟨rest, hall⟩ := m.1.exists_all_eq
  let block (c : Cone) : List α := (l.members.get c).flatMap (entries c)
  have hblock : block m.1 = (membersAt m.1 before).flatMap (entries m.1) ++
      (entries m.1 m.2 ++ (membersAt m.1 after).flatMap (entries m.1)) := by
    simp only [block]
    rw [hmembers, List.flatMap_append, List.flatMap_cons]
  have hsplit : l.entriesBy entries =
      (m.1.before.flatMap block ++ (membersAt m.1 before).flatMap (entries m.1)) ++
        (entries m.1 m.2 ++ ((membersAt m.1 after).flatMap (entries m.1) ++ rest.flatMap block)) := by
    change Cone.all.flatMap block = _
    rw [hall, List.flatMap_append, List.flatMap_cons, hblock]
    simp only [List.append_assoc]
  have hfirst : (m.1.before.flatMap block ++ (membersAt m.1 before).flatMap (entries m.1)).length =
      total (m.1.before.map fun c => total (l.dims.get c)) + total ((membersAt m.1 before).map Node.size) := by
    rw [List.length_append, length_flatMap_eq fun c _ => length_member_entries h hsize c,
      length_flatMap_eq fun n hn => hsize m.1 n (hmembers ▸ List.mem_append_left _ hn)]
  have hcount : (entries m.1 m.2).length = m.2.size :=
    hsize m.1 m.2 (hmembers ▸ List.mem_append_right _ List.mem_cons_self)
  have hle : (total (m.1.before.map fun c => total (l.dims.get c)) +
      total ((membersAt m.1 before).map Node.size)) + m.2.size ≤ (l.entriesBy entries).length := by
    rw [hsplit, List.length_append, hfirst, List.length_append, hcount]
    omega
  refine ⟨_, h.ranges_eq before m after hm, length_entriesBy h hsize ▸ hle, ?_⟩
  rw [Axis.slice_ofNat hle, hsplit, ← hfirst, List.drop_left, ← hcount, List.take_left]

end Layout

end ConicForm
