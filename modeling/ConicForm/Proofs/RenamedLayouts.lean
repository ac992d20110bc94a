import Mathlib.Data.Int.ConditionallyCompleteOrder
import ConicForm.Proofs.Acceptance
import ConicForm.Proofs.Copies
import ConicForm.Proofs.Tilings

/-!
# Layouts of copies

A copy of a problem under a renaming that keeps the ids apart is laid out as the problem is: it has the same rows and,
in the order of the new ids, as many columns for each variable. A point whose entries are moved along has the same
values under the new ids. Under a renaming that keeps the order of the ids the columns are the same ones.
-/

namespace ConicForm

variable {α : Type} {f g : Int → Int}

namespace Node

variable {n n' : Node α} {ns ns' : List (Node α)} {ms ms' : List (Cone × Node α)}

theorem IsCopy.width_eq (h : n.IsCopy f n') : n'.width = n.width := by
  rw [width, width, h.kind_eq, h.size_eq]

theorem IsCopy.cone_eq (h : n.IsCopy f n') (position : Int) : n'.cone position = n.cone position := by
  rw [cone, cone, h.kind_eq]

theorem IsCopy.exists_asks {m : Cone × Node α} (h : n.IsCopy f n') (hn : n.Asks m) :
    ∃ m', n'.Asks m' ∧ m'.1 = m.1 ∧ m.2.IsCopy f m'.2 := by
  obtain ⟨hcone, hchildren⟩ := hn
  have hc := h.children
  rw [hchildren] at hc
  obtain ⟨x, xs, hx, hxs, hn'⟩ := List.forall₂_cons_left_iff.mp hc
  obtain rfl := List.forall₂_nil_left_iff.mp hxs
  exact ⟨(m.1, x), ⟨h.kind_eq.symm ▸ hcone, hn'⟩, rfl, hx⟩

theorem exists_asks_of_copies (hc : List.Forall₂ (IsCopy f) ns ns') (h : List.Forall₂ Asks ns ms) :
    ∃ ms', List.Forall₂ Asks ns' ms' ∧ List.Forall₂ (fun m m' => m'.1 = m.1 ∧ m.2.IsCopy f m'.2) ms ms' := by
  induction hc generalizing ms with
  | nil =>
    cases h
    exact ⟨[], .nil, .nil⟩
  | cons hn _ ih =>
    cases h with
    | cons hm h =>
      obtain ⟨m', hm', hcopy⟩ := hn.exists_asks hm
      obtain ⟨ms', hms', hcopies⟩ := ih h
      exact ⟨m' :: ms', .cons hm' hms', .cons hcopy hcopies⟩

end Node

section

variable {ns ns' : List (Node α)} {ms ms' : List (Cone × Node α)}

theorem membersAt_of_copies (h : List.Forall₂ (fun m m' : Cone × Node α => m'.1 = m.1 ∧ m.2.IsCopy f m'.2) ms ms')
    (c : Cone) : List.Forall₂ (Node.IsCopy f) (membersAt c ms) (membersAt c ms') := by
  induction h with
  | nil => exact .nil
  | @cons m m' ms ms' hm _ ih =>
    obtain ⟨hcone, hcopy⟩ := hm
    simp only [membersAt] at ih ⊢
    by_cases hc : m.1 = c
    · rw [List.filter_cons_of_pos (by simpa using hc), List.filter_cons_of_pos (by simpa [hcone] using hc)]
      exact .cons hcopy ih
    · rw [List.filter_cons_of_neg (by simpa using hc), List.filter_cons_of_neg (by simpa [hcone] using hc)]
      exact ih

variable (hc : List.Forall₂ (Node.IsCopy f) ns ns')
include hc

theorem totalWidth_of_copies : totalWidth ns' = totalWidth ns := by
  have hwidths := Node.mapM_of_copies (k := id) hc fun n _ n' hn => hn.width_eq.trans (id_map _).symm
  rw [totalWidth, totalWidth, hwidths, List.map_id_fun, id_map]

theorem columnHeights_of_copies (member : Nat) : columnHeights member ns' = columnHeights member ns := by
  induction hc generalizing member with
  | nil => rfl
  | cons hn _ ih => rw [columnHeights, columnHeights, hn.shape_eq, ih]

theorem rowRangesFrom_of_copies (next : ByCone Int) (position : Nat) :
    rowRangesFrom next position ns' = rowRangesFrom next position ns := by
  induction hc generalizing next position with
  | nil => rfl
  | @cons n n' ns ns' hn _ ih =>
    rw [rowRangesFrom, rowRangesFrom, hn.cone_eq]
    refine bind_congr fun c => ?_
    have hchildren := hn.children
    cases hx : n.children with
    | nil =>
      rw [hx, List.forall₂_nil_left_iff] at hchildren
      rw [hchildren]
    | cons x xs =>
      rw [hx] at hchildren
      obtain ⟨y, ys, hy, _, hyn⟩ := List.forall₂_cons_left_iff.mp hchildren
      simp only [hyn, hy.width_eq, ih]

end

theorem dimensions_of_copies {members members' : ByCone (List (Node α))}
    (h : ∀ c, List.Forall₂ (Node.IsCopy f) (members.get c) (members'.get c)) :
    dimensions members'.groups = dimensions members.groups := by
  have hsupported : ∀ t : ByCone (List (Node α)), requireSupported t.groups = .ok () := fun _ => rfl
  simp only [dimensions, hsupported, membersOf_groups, totalWidth_of_copies (h _), columnHeights_of_copies (h _)]

/-! Variables -/

namespace Variable

variable {found vs : List Variable}

/-- Renamed variables are as distinct as the variables are, one for each of them. -/
theorem exists_distinct_renamed (hf : Function.Injective f) (h : distinct found = .ok vs) :
    ∃ vs', distinct (found.map (renamed f)) = .ok vs' ∧ vs'.Perm (vs.map (renamed f)) := by
  obtain ⟨hasc, hmem⟩ := distinct_eq_ok h
  have hclash : ∀ v ∈ found.map (renamed f), ∀ w ∈ found.map (renamed f), ¬Clash v w := by
    simp only [List.forall_mem_map]
    rintro v hv w hw ⟨hid, hne⟩
    exact not_clash_of_distinct h hv hw ⟨hf hid, hne⟩
  obtain ⟨vs', hvs'⟩ := exists_distinct_iff.mpr hclash
  obtain ⟨hasc', hmem'⟩ := distinct_eq_ok hvs'
  have hids : ((vs.map (renamed f)).map Variable.id).Nodup := by
    have hmap : (vs.map (renamed f)).map Variable.id = (vs.map Variable.id).map f := by
      rw [List.map_map, List.map_map]
      rfl
    exact hmap ▸ hasc.nodup_ids.map hf
  refine ⟨vs', hvs', (List.perm_ext_iff_of_nodup hasc'.nodup_ids.of_map hids.of_map).mpr fun v => ?_⟩
  simp only [hmem', List.mem_map, hmem]

/-- A renaming that keeps the order of the ids keeps the order of the variables. -/
theorem Ascending.renamed (h : Ascending vs) (hf : StrictMonoOn f {id | id ∈ vs.map Variable.id}) :
    Ascending (vs.map (renamed f)) := by
  refine List.pairwise_map.mpr (h.imp_of_mem fun {v w} hv hw hid => ?_)
  exact hf (List.mem_map_of_mem hv) (List.mem_map_of_mem hw) hid

theorem offsetsFrom_renamed (first : Int) (vs : List Variable) :
    offsetsFrom first (vs.map (renamed f)) = (offsetsFrom first vs).map fun e => (f e.1, e.2) := by
  induction vs generalizing first with
  | nil => rfl
  | cons v vs ih =>
    rw [List.map_cons, offsetsFrom, offsetsFrom, List.map_cons, ih]
    rfl

end Variable

/-! Layouts -/

namespace Layout

variable {l l' : Layout α} {vs vs' : List Variable}

theorem Orders.mem_ids (h : l.Orders vs) {id : Int} {start : Nat} {s : Shape} (hh : l.Holds id start s) :
    id ∈ vs.map Variable.id := by
  rw [← Variable.keys_offsetsFrom 0, ← h.offsets_eq]
  exact List.mem_map.mpr ⟨_, hh.offset, rfl⟩

/-- Every column is one of a variable, counted from its first one. -/
theorem Orders.exists_start (h : l.Orders vs) {k : Nat} (hk : k < l.width) :
    ∃ id start s, l.Holds id start s ∧ ∃ j < s.size, k = start + j := by
  obtain ⟨id, i, j, start, s, hh, hi, hj, rfl⟩ := h.exists_lands hk
  exact ⟨id, start, s, hh, _, Grid.place_lt_size s hi hj, rfl⟩

/-- A layout with the same rows and the columns of renamed variables. -/
structure RenamedBy (f : Int → Int) (l l' : Layout α) (vs vs' : List Variable) : Prop where
  orders : l.Orders vs
  orders' : l'.Orders vs'
  perm : vs'.Perm (vs.map (Variable.renamed f))
  dims_eq : l'.dims = l.dims
  ranges_eq : l'.ranges = l.ranges

namespace RenamedBy

variable (h : RenamedBy f l l' vs vs')
include h

theorem height_eq : l'.height = l.height := by rw [height, height, h.dims_eq]

theorem coneDims_eq : l'.coneDims = l.coneDims := by rw [coneDims, coneDims, h.dims_eq]

theorem congr (hfg : ∀ id ∈ vs.map Variable.id, f id = g id) : RenamedBy g l l' vs vs' := by
  have hsame : vs.map (Variable.renamed f) = vs.map (Variable.renamed g) := by
    refine List.map_congr_left fun v hv => ?_
    rw [Variable.renamed, Variable.renamed, hfg _ (List.mem_map_of_mem hv)]
  exact ⟨h.orders, h.orders', hsame ▸ h.perm, h.dims_eq, h.ranges_eq⟩

theorem mem_iff {w : Variable} : w ∈ vs' ↔ ∃ v ∈ vs, v.renamed f = w := by
  rw [h.perm.mem_iff, List.mem_map]

theorem width_eq : l'.width = l.width := by
  rw [h.orders'.width_eq, h.orders.width_eq, Variable.columns, Variable.columns, total_perm (h.perm.map _),
    List.map_map]
  rfl

theorem shapes_perm : l'.shapes.Perm (l.shapes.map fun e => (f e.1, e.2)) := by
  have hmap := h.perm.map fun v => (v.id, v.shape)
  rw [List.map_map] at hmap
  rw [h.orders'.shapes_eq, h.orders.shapes_eq, List.map_map]
  exact hmap

/-- A variable has columns under its new id. -/
theorem exists_holds {id : Int} {start : Nat} {s : Shape} (hh : l.Holds id start s) :
    ∃ start', l'.Holds (f id) start' s := by
  obtain ⟨v, before, after, hvs, rfl, rfl, _⟩ := h.orders.split hh
  have hv : v ∈ vs := hvs ▸ List.mem_append_right _ List.mem_cons_self
  exact h.orders'.exists_holds (h.mem_iff.mpr ⟨v, hv, rfl⟩)

theorem exists_of_holds {k : Int} {start' : Nat} {s : Shape} (hh : l'.Holds k start' s) :
    ∃ id start, l.Holds id start s ∧ f id = k := by
  obtain ⟨w, before, after, hvs, rfl, rfl, _⟩ := h.orders'.split hh
  obtain ⟨v, hv, rfl⟩ := h.mem_iff.mp (hvs ▸ List.mem_append_right _ List.mem_cons_self)
  obtain ⟨start, hh⟩ := h.orders.exists_holds hv
  exact ⟨v.id, start, hh, rfl⟩

/-- Under a renaming that keeps the order of the ids a variable keeps its columns. -/
theorem holds_of_mono (hf : StrictMonoOn f {id | id ∈ vs.map Variable.id}) {id : Int} {start : Nat} {s : Shape}
    (hh : l.Holds id start s) : l'.Holds (f id) start s := by
  obtain rfl : vs' = vs.map (Variable.renamed f) :=
    h.orders'.ascending.eq_of_mem_iff (h.orders.ascending.renamed hf) fun v => h.perm.mem_iff
  have hoffset := hh.offset
  have hshape := hh.shape
  rw [h.orders.offsets_eq] at hoffset
  constructor
  · rw [h.orders'.offsets_eq, Variable.offsetsFrom_renamed]
    exact List.mem_map.mpr ⟨_, hoffset, rfl⟩
  · exact h.shapes_perm.mem_iff.mpr (List.mem_map.mpr ⟨_, hshape, rfl⟩)

/-- The columns of the variables are permuted, each variable's as a whole. -/
theorem exists_perm (hf : Set.InjOn f {id | id ∈ vs.map Variable.id}) :
    ∃ τ : Equiv.Perm (Fin l.width), ∀ id start start' s, l.Holds id start s → l'.Holds (f id) start' s →
      ∀ j < s.size, ∀ a : Fin l.width, (a : Nat) = start' + j → (τ a : Nat) = start + j := by
  choose start hstart using fun v : {v // v ∈ vs} => h.orders.exists_holds v.2
  choose start' hstart' using fun v : {v // v ∈ vs} => h.exists_holds (hstart v)
  have hinjective : ∀ v w : {v // v ∈ vs}, v.1.id = w.1.id → v = w :=
    fun v w hid => Subtype.ext (List.inj_on_of_nodup_map h.orders.nodup_ids v.2 w.2 hid)
  have hmem : ∀ v : {v // v ∈ vs}, v.1.id ∈ vs.map Variable.id := fun v => List.mem_map_of_mem v.2
  have hall : ∀ {k first t}, l.Holds k first t → ∃ v : {v // v ∈ vs}, v.1.id = k := by
    intro k first t hh
    obtain ⟨v, before, after, hvs, rfl, _, _⟩ := h.orders.split hh
    exact ⟨⟨v, hvs ▸ List.mem_append_right _ List.mem_cons_self⟩, rfl⟩
  have htiles := h.orders.tiles (fun v w hid => hinjective v w hid) hstart fun _ _ _ => hall
  have htiles' := h.orders'.tiles (fun v w hid => hinjective v w (hf (hmem v) (hmem w) hid)) hstart' (by
    intro k first t hh
    obtain ⟨id, first, hk, rfl⟩ := h.exists_of_holds hh
    obtain ⟨v, rfl⟩ := hall hk
    exact ⟨v, rfl⟩)
  rw [h.width_eq] at htiles'
  obtain ⟨τ, hτ⟩ := htiles.exists_perm htiles'
  refine ⟨τ, fun id first first' s hh hh' j hj a ha => ?_⟩
  obtain ⟨v, rfl⟩ := hall hh
  obtain ⟨rfl, rfl⟩ := h.orders.eq_of_holds hh (hstart v)
  obtain ⟨rfl, _⟩ := h.orders'.eq_of_holds hh' (hstart' v)
  exact hτ v j hj a ha

/-- A point whose entries are moved along with the columns has the same values under the new ids. -/
theorem unpack_perm [Zero α] {y y' : List α} (hy : y.length = l.width) (hy' : y'.length = l'.width)
    (hsame : ∀ id start start' s, l.Holds id start s → l'.Holds (f id) start' s →
      ∀ j < s.size, y'.getD (start' + j) 0 = y.getD (start + j) 0) :
    ∃ values values', l.unpack y = .ok values ∧ l'.unpack y' = .ok values' ∧
      values'.Perm (values.map fun e => (f e.1, e.2)) := by
  obtain ⟨x, hunpack, hreads⟩ := unpack_eq_ok h.orders hy
  obtain ⟨x', hunpack', hreads'⟩ := unpack_eq_ok h.orders' hy'
  have hvalue : ∀ e ∈ l.shapes, x' (f e.1) = x e.1 := by
    intro e he
    obtain ⟨start, hh⟩ := h.orders.holds_of_mem he
    obtain ⟨start', hh'⟩ := h.exists_holds hh
    refine Matrix.ext_flat ((hreads'.shape_eq hh').trans (hreads.shape_eq hh).symm) fun k hk => ?_
    rw [hreads'.shape_eq hh'] at hk
    rw [← hreads'.getD_eq hh' k hk, ← hreads.getD_eq hh k hk, hsame _ _ _ _ hh hh' k hk]
  refine ⟨_, _, hunpack, hunpack', (h.shapes_perm.map fun e => (e.1, x' e.1)).trans (.of_eq ?_)⟩
  rw [List.map_map, List.map_map]
  exact List.map_congr_left fun e he => Prod.ext rfl (hvalue e he)

end RenamedBy

variable {objective objective' : Node α} {constraints constraints' : List (Node α)}

/-- The ids of a layout are those that occur in the problem. -/
theorem mem_ids_iff [Zero α] [Add α] [Neg α] [Mul α] [Div α] [BEq α] [OfDouble α]
    (hb : ∀ n ∈ objective :: constraints, n.Built) (h : ofProblem objective constraints = .ok l) (hvs : l.Orders vs)
    (id : Int) : id ∈ vs.map Variable.id ↔ ∃ n ∈ objective :: constraints, ∃ s, n.Leaf id s := by
  obtain ⟨found, ws, hfound, hmem, hws⟩ := exists_orders h
  have hsame : vs.map Variable.id = ws.map Variable.id := by
    have hkeys := hvs.offsets_eq.symm.trans hws.offsets_eq
    rw [← Variable.keys_offsetsFrom 0, hkeys, Variable.keys_offsetsFrom]
  rw [hsame, List.mem_map]
  simp only [hmem, Node.mem_problemVariables hb hfound]
  constructor
  · rintro ⟨_, ⟨id, s, rfl, n, hn, hl⟩, rfl⟩
    exact ⟨n, hn, s, hl⟩
  · rintro ⟨n, hn, s, hl⟩
    exact ⟨_, ⟨id, s, rfl, n, hn, hl⟩, rfl⟩

/-- A copy of a problem is laid out as the problem is. -/
theorem exists_of_copies (hf : Function.Injective f) (h : ofProblem objective constraints = .ok l)
    (ho : objective.IsCopy f objective') (hc : List.Forall₂ (Node.IsCopy f) constraints constraints') :
    ∃ l' vs vs', ofProblem objective' constraints' = .ok l' ∧ RenamedBy f l l' vs vs' ∧
      ∀ c, List.Forall₂ (Node.IsCopy f) (l.members.get c) (l'.members.get c) := by
  obtain ⟨found, vs, hfound, hmem, horders⟩ := exists_orders h
  obtain ⟨ms, dims, _, _, ranges, hasks, hdims, _, _, hranges, rfl⟩ := ofProblem_cases h
  -- The copies ask for the same cones.
  obtain ⟨ms', hasks', hcopies⟩ := Node.exists_asks_of_copies hc hasks
  have hclassify : classify constraints' = .ok (group ms') := by
    rw [classify, Node.memberships_of_asks hasks']
    rfl
  have hget : ∀ (ks : List (Cone × Node α)) (c : Cone), (group ks).get c = membersAt c ks :=
    fun ks c => ByCone.get_ofFn _ c
  have hmembers : ∀ c, List.Forall₂ (Node.IsCopy f) ((group ms).get c) ((group ms').get c) := by
    intro c
    rw [hget, hget]
    exact membersAt_of_copies hcopies c
  -- Their variables are the renamed ones.
  have hfound' := Node.problemVariables_of_copies ho hc
  rw [hfound] at hfound'
  have hdistinct := Variable.distinct_congr (fun v => (hmem v).symm) (Variable.distinct_of_ascending horders.ascending)
  obtain ⟨vs', hvs', hperm⟩ := Variable.exists_distinct_renamed hf hdistinct
  have hl' := ofProblem_of_distinct hclassify ((dimensions_of_copies hmembers).trans hdims) hfound' hvs'
    ((rowRangesFrom_of_copies hc _ _).trans hranges)
  obtain ⟨found'', vs'', hfound'', hmem', horders'⟩ := exists_orders hl'
  obtain rfl := Except.ok.inj (hfound'.symm.trans hfound'')
  obtain ⟨hasc, hvsmem⟩ := Variable.distinct_eq_ok hvs'
  obtain rfl := hasc.eq_of_mem_iff horders'.ascending fun v => (hvsmem v).trans (hmem' v).symm
  exact ⟨_, vs, vs', hl', ⟨horders, horders', hperm, rfl, rfl⟩, hmembers⟩

end Layout

end ConicForm
