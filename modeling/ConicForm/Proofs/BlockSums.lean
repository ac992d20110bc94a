import ConicForm.Proofs.AffineMaps

/-!
# Sums and stacks of blocks

Coefficients are added, and put one above the other, label by label; the result has the labels of the operands, of
which each may be in some of them only. The sum of regular blocks of one height is the sum of their affine maps, and
blocks one above the other are the affine map whose values are theirs in this order.
-/

namespace ConicForm

namespace Coefficients

variable {α : Type} {cs ds : List (Label × Tensor α)} {rows : Nat}

section labels

variable {width : Value → Nat} {l : Label} {t : Tensor α}

section

variable [Zero α] [Add α]

theorem joins_addCoeff {e : Label × Tensor α} (h : Block.addCoeff cs e = .ok ds) :
    Label.Joins ds (cs ++ [e]) := by
  rw [Block.addCoeff] at h
  split at h
  · obtain ⟨u, _, h⟩ := bind_eq_ok.mp h
    obtain rfl := Except.ok.inj h
    exact (Label.Joins.put cs e.1 u).trans (.of_keys_eq (by simp [Keyed.keys]))
  · obtain rfl := Except.ok.inj h
    exact .of_keys_eq rfl

/-- A sum has the labels of both operands. -/
theorem joins_foldlM_addCoeff {es : List (Label × Tensor α)} (h : es.foldlM Block.addCoeff cs = .ok ds) :
    Label.Joins ds (cs ++ es) := by
  induction es generalizing cs with
  | nil =>
    obtain rfl := Except.ok.inj h
    exact .of_keys_eq (by rw [List.append_nil])
  | cons e es ih =>
    obtain ⟨cs', hcs, h⟩ := bind_eq_ok.mp h
    rw [List.append_cons]
    exact (ih h).trans ((joins_addCoeff hcs).append_right es)

/-- A coefficient is added to the one under its label, or put after the others. -/
theorem addCoeff_eq (h : Labelled cs rows width) (ht : t.dims = [rows, width l.key]) :
    (Keyed.get? cs l = none ∧ Block.addCoeff cs (l, t) = .ok (cs ++ [(l, t)])) ∨
      ∃ (s : Tensor α) (hd : s.dims = t.dims), Keyed.get? cs l = some s ∧
        Block.addCoeff cs (l, t) = .ok (Keyed.put cs l (Tensor.combine (· + ·) s t hd)) := by
  cases hs : Keyed.get? cs l with
  | none => exact .inl ⟨rfl, by rw [Block.addCoeff, hs]⟩
  | some s =>
    have hd : s.dims = t.dims := (h.good_of_get? hs).trans ht.symm
    refine .inr ⟨s, hd, rfl, ?_⟩
    simp only [Block.addCoeff, hs, Tensor.zipWith_same _ hd]
    rfl

theorem addCoeff_labelled (h : Labelled cs rows width) (ht : t.dims = [rows, width l.key]) :
    ∃ ds, Block.addCoeff cs (l, t) = .ok ds ∧ Labelled ds rows width := by
  rcases addCoeff_eq h ht with ⟨hnone, hadd⟩ | ⟨s, hd, hs, hadd⟩
  · exact ⟨_, hadd, h.concat ht (Label.get?_eq_none_iff.mp hnone)⟩
  · exact ⟨_, hadd, h.put (hd.trans ht)⟩

/-- Coefficients are added label by label. -/
theorem foldlM_addCoeff_labelled (h : Labelled cs rows width) (hd : Labelled ds rows width) :
    ∃ es, ds.foldlM Block.addCoeff cs = .ok es ∧ Labelled es rows width := by
  induction ds generalizing cs with
  | nil => exact ⟨cs, rfl, h⟩
  | cons e ds ih =>
    obtain ⟨l, t⟩ := e
    obtain ⟨ht, _, hd⟩ := Label.Table.cons_iff.mp hd
    obtain ⟨bs, hbs, hb⟩ := addCoeff_labelled h ht
    obtain ⟨es, hes, he⟩ := ih hb hd
    exact ⟨es, by rw [List.foldlM_cons, hbs]; exact hes, he⟩

end

variable [AddZeroClass α]

theorem under_addCoeff (h : Labelled cs rows width) (ht : t.dims = [rows, width l.key])
    (hds : Block.addCoeff cs (l, t) = .ok ds) (k : Label) (i j : Nat) :
    under ds k i j = under cs k i j + if l == k then t.asRows.get i j else 0 := by
  rcases addCoeff_eq h ht with ⟨hnone, hadd⟩ | ⟨s, hd, hs, hadd⟩
  · obtain rfl := Except.ok.inj (hadd.symm.trans hds)
    rw [under, under, Keyed.get?_append, Keyed.get?_cons, Keyed.get?_nil]
    by_cases hk : l == k
    · rw [if_pos hk, if_pos hk, ← Label.get?_congr (Label.beq_iff.mp hk), hnone]
      exact (zero_add _).symm
    · rw [if_neg hk, if_neg hk, add_zero, Option.or_none]
  · obtain rfl := Except.ok.inj (hadd.symm.trans hds)
    rw [under, under, Keyed.get?_put]
    by_cases hk : l == k
    · rw [if_pos hk, if_pos hk, ← Label.get?_congr (Label.beq_iff.mp hk), hs]
      exact Tensor.get_asRows_combine _ (add_zero 0) hd i j
    · rw [if_neg hk, if_neg hk, add_zero]

theorem under_foldlM_addCoeff (h : Labelled cs rows width) (hd : Labelled ds rows width)
    {es : List (Label × Tensor α)} (hes : ds.foldlM Block.addCoeff cs = .ok es) (k : Label) (i j : Nat) :
    under es k i j = under cs k i j + under ds k i j := by
  induction ds generalizing cs with
  | nil =>
    obtain rfl := Except.ok.inj hes
    exact (add_zero _).symm
  | cons e ds ih =>
    obtain ⟨l, t⟩ := e
    obtain ⟨ht, hl, hd⟩ := Label.Table.cons_iff.mp hd
    obtain ⟨bs, hbs, hb⟩ := addCoeff_labelled h ht
    rw [List.foldlM_cons, hbs] at hes
    rw [ih hb hd hes, under_addCoeff h ht hbs, under_cons]
    by_cases hk : l == k
    · have hz : under ds k i j = 0 := under_of_not_mem (Label.beq_iff.mp hk ▸ hl) i j
      rw [if_pos hk, if_pos hk, hz, add_zero]
    · rw [if_neg hk, if_neg hk, add_zero]

end labels

variable {width : Int → Nat}

theorem foldlM_addCoeff_regular [Zero α] [Add α] (h : Regular cs rows width) (hd : Regular ds rows width) :
    ∃ es, ds.foldlM Block.addCoeff cs = .ok es ∧ Regular es rows width := by
  obtain ⟨hids, h⟩ := regular_iff.mp h
  obtain ⟨hdids, hd⟩ := regular_iff.mp hd
  obtain ⟨es, hes, he⟩ := foldlM_addCoeff_labelled h hd
  exact ⟨es, hes, regular_iff.mpr ⟨(joins_foldlM_addCoeff hes).byIds (hids.append hdids), he⟩⟩

end Coefficients

namespace Block

open Coefficients (Labelled entry under)

variable {α : Type} {rows : Nat} {width : Int → Nat}

/-! Labels -/

section labels

variable {bs : List (Block α)} {a b c : Block α}

theorem keys_flatMap (bs : List (Block α)) :
    Keyed.keys (bs.flatMap coeffs) = bs.flatMap fun b => Keyed.keys b.coeffs := by
  rw [Keyed.keys, List.map_flatMap]
  rfl

theorem mem_keys_flatMap {k : Value} :
    k ∈ Label.keys (bs.flatMap coeffs) ↔ ∃ b ∈ bs, k ∈ Label.keys b.coeffs := by
  rw [Label.keys, List.map_flatMap, List.mem_flatMap]
  rfl

theorem mem_ids_flatMap {id : Int} : id ∈ ids (bs.flatMap coeffs) ↔ ∃ b ∈ bs, id ∈ ids b.coeffs := by
  rw [ids, List.filterMap_flatMap, List.mem_flatMap]
  rfl

theorem joins_widths {ws : List (Label × Nat)} (h : widths bs = .ok ws) : Label.Joins ws (bs.flatMap coeffs) := by
  obtain ⟨pairs, hpairs, h⟩ := bind_eq_ok.mp h
  obtain rfl := Except.ok.inj h
  exact (Label.Joins.ofPairs pairs).trans (.of_keys_eq (Keyed.keys_mapM hpairs))

variable [Zero α] [OfDouble α]

theorem joins_add [Add α] (h : a.add b = .ok c) : Label.Joins c.coeffs (a.coeffs ++ b.coeffs) := by
  obtain ⟨cs, hcs, h⟩ := bind_eq_ok.mp h
  obtain ⟨o, _, h⟩ := bind_eq_ok.mp h
  obtain rfl := Except.ok.inj h
  exact Coefficients.joins_foldlM_addCoeff hcs

theorem joins_sum [Add α] (h : sum bs = .ok c) : Label.Joins c.coeffs (bs.flatMap coeffs) := by
  obtain _ | ⟨first, bs⟩ := bs
  · cases h
  · rw [sum] at h
    induction bs generalizing first with
    | nil =>
      obtain rfl := Except.ok.inj h
      exact .of_keys_eq (by simp)
    | cons b bs ih =>
      obtain ⟨d, hd, h⟩ := bind_eq_ok.mp h
      have hsum := (ih d h).trans ((joins_add hd).append_right (bs.flatMap coeffs))
      rwa [List.append_assoc] at hsum

/-- Blocks one above the other have the labels of all of them. -/
theorem joins_concat (h : concat bs = .ok c) : Label.Joins c.coeffs (bs.flatMap coeffs) := by
  obtain ⟨ws, hws, h⟩ := bind_eq_ok.mp h
  obtain ⟨cs, hcs, h⟩ := bind_eq_ok.mp h
  obtain ⟨o, _, h⟩ := bind_eq_ok.mp h
  obtain rfl := Except.ok.inj h
  exact (Label.Joins.of_keys_eq (Keyed.keys_mapM hcs)).trans (joins_widths hws)

end labels

/-- `c` is a regular block of the variables of some blocks. -/
structure Merges (bs : List (Block α)) (c : Block α) (rows : Nat) (width : Int → Nat) : Prop where
  regular : c.Regular rows width
  mem_ids : ∀ id, id ∈ ids c.coeffs ↔ ∃ b ∈ bs, id ∈ ids b.coeffs

/-- `c` is the sum of some blocks. -/
structure IsSum [AddMonoid α] [OfDouble α] (bs : List (Block α)) (c : Block α) (rows : Nat)
    (width : Int → Nat) : Prop extends Merges bs c rows width where
  entry_eq : ∀ id i j, entry c.coeffs id i j = (bs.map fun b => entry b.coeffs id i j).sum
  constant_eq : ∀ i, c.constant i = (bs.map fun b => b.constant i).sum

theorem Image.merges [Zero α] [OfDouble α] {act : (Nat → α) → Nat → α} {b c : Block α}
    (h : Image act b c rows width) : Merges [b] c rows width :=
  ⟨h.regular, fun id => by rw [h.ids_eq]; simp⟩

section sums

theorem Merges.singleton {b : Block α} (h : b.Regular rows width) : Merges [b] b rows width := ⟨h, by simp⟩

theorem merges_of_joins {bs : List (Block α)} {c : Block α} (h : c.Regular rows width)
    (hc : Label.Joins c.coeffs (bs.flatMap coeffs)) : Merges bs c rows width :=
  ⟨h, fun id => (hc.mem_ids id).trans mem_ids_flatMap⟩

section

variable [Zero α] [Add α] [OfDouble α]

theorem add_regular {l r : Block α} (hl : l.Regular rows width) (hr : r.Regular rows width) :
    ∃ c, l.add r = .ok c ∧ c.Regular rows width := by
  obtain ⟨cs, hcs, hc⟩ := Coefficients.foldlM_addCoeff_regular hl.coeffs hr.coeffs
  obtain ⟨s, hs, hsd⟩ := hl.offset
  obtain ⟨t, ht, htd⟩ := hr.offset
  have hd : s.dims = t.dims := hsd.trans htd.symm
  refine ⟨⟨cs, .reals (Tensor.combine (· + ·) s t hd)⟩, ?_, hc, _, rfl, hsd⟩
  rw [add, hcs, hs, ht, Numbers.plus, Numbers.combine_reals, Numbers.toReals, Tensor.zipWith_same _ hd]
  rfl

/-- What each block has and one more summand keeps, a sum has. -/
theorem sum_induction (IsSumOf : List (Block α) → Block α → Prop) {Good : Block α → Prop}
    (one : ∀ b, Good b → IsSumOf [b] b)
    (more : ∀ bs b c, IsSumOf bs c → Good b → ∃ d, c.add b = .ok d ∧ IsSumOf (bs ++ [b]) d) {bs : List (Block α)}
    (hne : bs ≠ []) (h : ∀ b ∈ bs, Good b) : ∃ c, sum bs = .ok c ∧ IsSumOf bs c := by
  have hfold : ∀ bs cs c, IsSumOf cs c → (∀ b ∈ bs, Good b) →
      ∃ d, bs.foldlM add c = .ok d ∧ IsSumOf (cs ++ bs) d := by
    intro bs
    induction bs with
    | nil => exact fun cs c hc _ => ⟨c, rfl, by rwa [List.append_nil]⟩
    | cons b bs ih =>
      intro cs c hc h
      obtain ⟨hb, h⟩ := List.forall_mem_cons.mp h
      obtain ⟨d, hd, hm⟩ := more cs b c hc hb
      obtain ⟨e, he, hes⟩ := ih _ d hm h
      refine ⟨e, by rw [List.foldlM_cons, hd]; exact he, ?_⟩
      rwa [List.append_cons]
  obtain ⟨b, bs, rfl⟩ := List.exists_cons_of_ne_nil hne
  obtain ⟨hb, h⟩ := List.forall_mem_cons.mp h
  exact hfold bs [b] b (one b hb) h

theorem sum_merges {bs : List (Block α)} (hne : bs ≠ []) (h : ∀ b ∈ bs, b.Regular rows width) :
    ∃ c, sum bs = .ok c ∧ Merges bs c rows width := by
  obtain ⟨c, hc, hregular⟩ := sum_induction (fun _ c => c.Regular rows width) (fun _ hb => hb)
    (fun _ _ _ hc hb => add_regular hc hb) hne h
  exact ⟨c, hc, merges_of_joins hregular (joins_sum hc)⟩

end

variable [AddMonoid α] [OfDouble α]

theorem add_eq {l r c : Block α} (hl : l.Regular rows width) (hr : r.Regular rows width)
    (hc : l.add r = .ok c) :
    (∀ k i j, entry c.coeffs k i j = entry l.coeffs k i j + entry r.coeffs k i j) ∧
      ∀ i, c.constant i = l.constant i + r.constant i := by
  obtain ⟨cs, hcs, hc⟩ := bind_eq_ok.mp hc
  obtain ⟨o, ho, hc⟩ := bind_eq_ok.mp hc
  obtain rfl := Except.ok.inj hc
  obtain ⟨s, hs, hsd⟩ := hl.offset
  obtain ⟨t, ht, htd⟩ := hr.offset
  have hd : s.dims = t.dims := hsd.trans htd.symm
  rw [hs, ht, Numbers.plus, Numbers.combine_reals, Numbers.toReals, Tensor.zipWith_same _ hd] at ho
  obtain rfl := Except.ok.inj ho
  have hunder := Coefficients.under_foldlM_addCoeff (Coefficients.regular_iff.mp hl.coeffs).2
    (Coefficients.regular_iff.mp hr.coeffs).2 hcs
  refine ⟨fun k => hunder (.ofId k), fun i => ?_⟩
  rw [constant, constant, constant, hs, ht]
  exact Tensor.get_asRows_combine _ (add_zero 0) hd i 0

theorem IsSum.singleton {b : Block α} (h : b.Regular rows width) : IsSum [b] b rows width :=
  ⟨.singleton h, by simp, by simp⟩

theorem IsSum.concat {bs : List (Block α)} {b c d : Block α} (h : IsSum bs c rows width) (hb : b.Regular rows width)
    (hd : c.add b = .ok d) (hr : d.Regular rows width) : IsSum (bs ++ [b]) d rows width := by
  obtain ⟨hentry, hconst⟩ := add_eq h.regular hb hd
  refine ⟨⟨hr, fun id => ?_⟩, fun id i j => ?_, fun i => ?_⟩
  · rw [(joins_add hd).mem_ids, ids, List.filterMap_append, List.mem_append]
    change id ∈ ids c.coeffs ∨ id ∈ ids b.coeffs ↔ _
    simp [h.mem_ids, or_and_right, exists_or]
  · rw [hentry, h.entry_eq]
    simp
  · rw [hconst, h.constant_eq]
    simp

theorem sum_isSum {bs : List (Block α)} (hne : bs ≠ []) (h : ∀ b ∈ bs, b.Regular rows width) :
    ∃ c, sum bs = .ok c ∧ IsSum bs c rows width := by
  refine sum_induction (IsSum · · rows width) (fun _ => IsSum.singleton) (fun bs b c hc hb => ?_) hne h
  obtain ⟨d, hd, hr⟩ := add_regular hc.regular hb
  exact ⟨d, hd, hc.concat hb hd hr⟩

end sums

theorem IsSum.eval_eq [NonUnitalNonAssocSemiring α] [OfDouble α] {bs : List (Block α)} {c : Block α}
    (h : IsSum bs c rows width) (x : Int → Nat → α) (i : Nat) :
    c.eval width x i = (bs.map fun b => b.eval width x i).sum := by
  have hsum : ∀ ds : List (Block α), (∀ d ∈ ds, (ids d.coeffs).toFinset ⊆ (ids c.coeffs).toFinset) →
      (∑ id ∈ (ids c.coeffs).toFinset, ∑ j ∈ Finset.range (width id),
        (ds.map fun d => entry d.coeffs id i j).sum * x id j) + (ds.map fun d => d.constant i).sum =
          (ds.map fun d => d.eval width x i).sum := by
    intro ds hds
    induction ds with
    | nil => simp
    | cons d ds ih =>
      have hd := eval_eq_sum width (hds d List.mem_cons_self) x i
      have := ih fun d hd => hds d (List.mem_cons_of_mem _ hd)
      simp only [List.map_cons, List.sum_cons, hd, ← this, add_mul, Finset.sum_add_distrib]
      exact add_add_add_comm _ _ _ _
  rw [← hsum bs, eval, h.constant_eq]
  · simp only [h.entry_eq]
  · intro d hd id hid
    rw [List.mem_toFinset] at hid ⊢
    exact (h.mem_ids id).mpr ⟨d, hd, hid⟩

/-! Stacks -/

section piles

variable [Zero α]

theorem joined_zero (ns : List Nat) (i : Nat) : joined (ns.map fun n => (n, fun _ => (0 : α))) i = 0 := by
  induction ns generalizing i with
  | nil => rfl
  | cons n ns ih =>
    rw [List.map_cons, joined, ih]
    exact ite_self _

variable [OfDouble α]

/-- `c` is some blocks one above the other. -/
structure IsStack (bs : List (Block α)) (c : Block α) (width : Int → Nat) : Prop
    extends Merges bs c (total (bs.map size)) width where
  entry_eq : ∀ id i j,
    entry c.coeffs id i j = joined (bs.map fun b => (b.size, fun k => entry b.coeffs id k j)) i
  constant_eq : ∀ i, c.constant i = joined (bs.map fun b => (b.size, b.constant)) i

section columns

variable {bs : List (Block α)} {width : Value → Nat}

omit [Zero α] [OfDouble α] in
/-- Under each label the coefficients have one width. -/
theorem exists_widths (h : ∀ b ∈ bs, Labelled b.coeffs b.size width) :
    ∃ ws, widths bs = .ok ws ∧ Label.Table (fun k n => n = width k) ws := by
  have hdims : ∀ e ∈ bs.flatMap coeffs, ∃ r, e.2.dims = [r, width e.1.key] := by
    intro e he
    obtain ⟨b, hb, he⟩ := List.mem_flatMap.mp he
    exact ⟨b.size, (h b hb).good e he⟩
  have hpairs : (bs.flatMap coeffs).mapM (fun e => do return (e.1, ← columns e.2)) =
      .ok ((bs.flatMap coeffs).map fun e => (e.1, width e.1.key)) := by
    apply mapM_eq_ok_map
    intro e he
    obtain ⟨r, hd⟩ := hdims e he
    simp only [columns, hd]
    rfl
  refine ⟨_, by rw [widths, hpairs]; rfl, Label.Table.ofPairs fun p hp => ?_⟩
  obtain ⟨e, _, rfl⟩ := List.mem_map.mp hp
  rfl

omit [OfDouble α] in
/-- Coefficients of one width, one above the other, with zeros for the blocks that have none. -/
theorem column_of_dims (hne : bs ≠ []) {l : Label} {w : Nat}
    (h : ∀ b ∈ bs, ∀ t, b.coeff? l = some t → t.dims = [b.size, w]) : ∃ u, column bs l w = .ok u ∧
      u.dims = [total (bs.map size), w] ∧
      ∀ i j, u.asRows.get i j = joined (bs.map fun b => (b.size, fun k => under b.coeffs l k j)) i := by
  have hparts : ∀ b ∈ bs, ((b.coeff? l).getD (.zeros [b.size, w])).dims = [b.size, w] := by
    intro b hb
    cases ht : b.coeff? l with
    | none => rfl
    | some t => exact h b hb t ht
  obtain ⟨u, hu, hd, hget⟩ := Tensor.joinRows_map size [w] hne hparts
  refine ⟨u, hu, hd, fun i j => (hget i j).trans ?_⟩
  congr 1
  apply List.map_congr_left
  intro b _
  congr 1
  funext k
  rw [under]
  change _ = (b.coeff? l).elim 0 _
  cases b.coeff? l with
  | none => exact Tensor.get_zeros _ k j
  | some t => rfl

/-- The coefficients under each label are those of the blocks, one above the other. -/
theorem exists_concat (hne : bs ≠ []) (h : ∀ b ∈ bs, Labelled b.coeffs b.size width) :
    ∃ cs, (∀ g, Numbers.joinRows (bs.map offset) = .ok g → concat bs = .ok ⟨cs, g⟩) ∧
      Labelled cs (total (bs.map size)) width ∧
      ∀ l i j, under cs l i j = joined (bs.map fun b => (b.size, fun k => under b.coeffs l k j)) i := by
  obtain ⟨ws, hws, htable⟩ := exists_widths h
  have hcolumns : ∀ e ∈ ws, ∃ u, column bs e.1 e.2 = .ok u ∧ u.dims = [total (bs.map size), width e.1.key] ∧
      ∀ i j, u.asRows.get i j = joined (bs.map fun b => (b.size, fun k => under b.coeffs e.1 k j)) i := by
    intro e he
    rw [htable.good e he]
    exact column_of_dims hne fun b hb t ht => (h b hb).good_of_get? ht
  choose! u hu hd hget using hcolumns
  have hcs : ws.mapM (fun e => do return (e.1, ← column bs e.1 e.2)) = .ok (ws.map fun e => (e.1, u e)) :=
    mapM_eq_ok_map fun e he => by rw [hu e he]; rfl
  have hkeys : Label.keys (ws.map fun e => (e.1, u e)) = Label.keys ws := by simp [Label.keys]
  refine ⟨ws.map fun e => (e.1, u e), fun g hg => ?_, ⟨fun e he => ?_, hkeys ▸ htable.nodup⟩, fun l i j => ?_⟩
  · rw [concat, hws, hg]
    change (ws.mapM fun e => do return (e.1, ← column bs e.1 e.2)) >>= _ = _
    rw [hcs]
    rfl
  · obtain ⟨w, hw, rfl⟩ := List.mem_map.mp he
    exact hd w hw
  · cases ht : Keyed.get? (ws.map fun e => (e.1, u e)) l with
    | some t =>
      obtain ⟨e, he, hkey, rfl⟩ := Label.exists_of_get? ht
      obtain ⟨w, hw, rfl⟩ := List.mem_map.mp he
      rw [under, ht, Option.elim_some, hget w hw]
      simp only [under, Label.get?_congr hkey]
    | none =>
      have hz : ∀ b ∈ bs, (b.size, fun k => under b.coeffs l k j) = (b.size, fun _ => 0) := by
        intro b hb
        have hl : l.key ∉ Label.keys b.coeffs := by
          intro hk
          have hmem := ((joins_widths hws).mem_keys l.key).mpr (mem_keys_flatMap.mpr ⟨b, hb, hk⟩)
          exact Label.get?_eq_none_iff.mp ht (hkeys ▸ hmem)
        simp only [Coefficients.under_of_not_mem hl]
      rw [under, ht, List.map_congr_left hz]
      have hzero := joined_zero (α := α) (bs.map size) i
      rw [List.map_map] at hzero
      exact hzero.symm

end columns

theorem concat_isStack {bs : List (Block α)} (hne : bs ≠ []) (h : ∀ b ∈ bs, b.Regular b.size width) :
    ∃ c, concat bs = .ok c ∧ IsStack bs c width := by
  obtain ⟨cs, hcs, hlabelled, hunder⟩ :=
    exists_concat hne fun b hb => (Coefficients.regular_iff.mp (h b hb).coeffs).2
  obtain ⟨o, ho, hod, hoget⟩ := Numbers.joinRows_realColumns size hne fun b hb => (h b hb).offset
  have hjoins := joins_concat (hcs _ ho)
  have hids : ByIds (bs.flatMap coeffs) := by
    intro m hm
    obtain ⟨b, hb, hm⟩ := List.mem_flatMap.mp (keys_flatMap bs ▸ hm)
    exact (Coefficients.regular_iff.mp (h b hb).coeffs).1 m hm
  exact ⟨_, hcs _ ho, merges_of_joins ⟨Coefficients.regular_iff.mpr ⟨hjoins.byIds hids, hlabelled⟩, o, rfl, hod⟩ hjoins,
    fun id => hunder (.ofId id), hoget⟩

end piles

theorem IsStack.eval_eq [NonUnitalNonAssocSemiring α] [OfDouble α] {bs : List (Block α)} {c : Block α}
    (h : IsStack bs c width) (x : Int → Nat → α) (i : Nat) :
    c.eval width x i = joined (bs.map fun b => (b.size, b.eval width x)) i := by
  have hjoin : ∀ ds : List (Block α), (∀ d ∈ ds, (ids d.coeffs).toFinset ⊆ (ids c.coeffs).toFinset) →
      ∀ i, (∑ id ∈ (ids c.coeffs).toFinset, ∑ j ∈ Finset.range (width id),
        joined (ds.map fun d => (d.size, fun k => entry d.coeffs id k j)) i * x id j) +
          joined (ds.map fun d => (d.size, d.constant)) i =
            joined (ds.map fun d => (d.size, d.eval width x)) i := by
    intro ds hds
    induction ds with
    | nil =>
      intro i
      simp [joined]
    | cons d ds ih =>
      intro i
      simp only [List.map_cons, joined]
      split
      · exact (eval_eq_sum width (hds d List.mem_cons_self) x i).symm
      · exact ih (fun d hd => hds d (List.mem_cons_of_mem _ hd)) _
  rw [← hjoin bs, eval, h.constant_eq]
  · simp only [h.entry_eq]
  · intro d hd id hid
    rw [List.mem_toFinset] at hid ⊢
    exact (h.mem_ids id).mpr ⟨d, hd, hid⟩

end Block

end ConicForm
