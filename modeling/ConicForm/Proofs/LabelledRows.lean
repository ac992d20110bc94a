import ConicForm.Proofs.BlockSums

/-!
# Rows of blocks

A row of a block is what its coefficients and its offset have at one place, where a label without a coefficient counts
as zeros. Blocks with labels of any kind and offsets of any sort are followed here row by row: a block that is gathered
or scattered has in each row a row of the block it is made from or zeros, where all summands but one are zero a sum has
the row of that one, and blocks one above the other keep all their rows. Of the scalars nothing is used but that zero
leaves a summand as it is.
-/

namespace ConicForm

variable {α : Type}

namespace Block

open Coefficients (under Labelled)

variable {b c : Block α} {rows : Nat} {width : Value → Nat}

/-- A block of some rows, with coefficients of the widths of their labels. -/
structure Shaped (b : Block α) (rows : Nat) (width : Value → Nat) : Prop where
  coeffs : Labelled b.coeffs rows width
  dims : b.offset.dims = [rows]
  stored : b.offset.Stored

theorem Shaped.size_eq (h : b.Shaped rows width) : b.size = rows := by rw [size, Numbers.length, h.dims]; rfl

section rows

variable [Zero α] [OfDouble α] {size : Nat}

/-- Row `i` of `c` is row `k` of `b`. -/
structure SameRow (c : Block α) (i : Nat) (b : Block α) (k : Nat) : Prop where
  under_eq : ∀ l j, under c.coeffs l i j = under b.coeffs l k j
  constant_eq : c.constant i = b.constant k

theorem SameRow.trans {d : Block α} {i j k : Nat} (h : d.SameRow i c j) (h' : c.SameRow j b k) : d.SameRow i b k :=
  ⟨fun l q => (h.under_eq l q).trans (h'.under_eq l q), h.constant_eq.trans h'.constant_eq⟩

omit [OfDouble α] in
/-- A row of zeros, in the sorts that the coefficients and the offset have. -/
structure ZeroRow (b : Block α) (i : Nat) : Prop where
  under_eq : ∀ l j, under b.coeffs l i j = 0
  offset : b.offset.ZeroAt i

/-- `c` has in each row the row of `b` that `source` states, or zeros. -/
structure Draws (c b : Block α) (source : Nat → Option Nat) (size : Nat) (width : Value → Nat) : Prop where
  shaped : c.Shaped size width
  sameRow : ∀ i < size, ∀ k, source i = some k → c.SameRow i b k
  zeroRow : ∀ i < size, source i = none → c.ZeroRow i

/-- A block that has in each row the row of one of some blocks, if the others have zeros there. -/
structure Collects (bs : List (Block α)) (c : Block α) (rows : Nat) (width : Value → Nat) : Prop where
  shaped : c.Shaped rows width
  zeroRow : ∀ i < rows, (∀ b ∈ bs, b.ZeroRow i) → c.ZeroRow i
  sameRow : ∀ i < rows, ∀ before b after, bs = before ++ b :: after → (∀ d ∈ before, d.ZeroRow i) →
    (∀ d ∈ after, d.ZeroRow i) → c.SameRow i b i

theorem Collects.singleton (h : b.Shaped rows width) : Collects [b] b rows width := by
  refine ⟨h, fun i _ hz => hz b List.mem_cons_self, fun i _ before d after he _ _ => ?_⟩
  obtain ⟨rfl, rfl, rfl⟩ : before = [] ∧ b = d ∧ after = [] := by
    cases before <;> simp_all
  exact ⟨fun _ _ => rfl, rfl⟩

variable (hzero : ofDouble (Double.nearest 0) = (0 : α))

include hzero

/-- Rows are moved in every coefficient and in the offset. -/
theorem Rearranges.exists_draws {source : Nat → Option Nat}
    {f : ∀ {β : Type} [Zero β], List Nat → Tensor β → Result (Tensor β)} (hf : Rearranges f rows size source)
    (h : b.Shaped rows width) {g : Tensor α → Result (Tensor α)} (hg : ∀ t c, t.dims = [rows, c] → g t = f [c] t) :
    ∃ c, (do let coeffs ← mapCoeffs g b.coeffs
             return (⟨coeffs, ← b.offset.onEach fun t => f [] t⟩ : Block α)) = .ok c ∧
      Draws c b source size width := by
  have hmatrix : Coefficients.ActsBy g rows size fun u i => (source i).elim 0 u := by
    intro t c ht
    obtain ⟨u, hu, hd, hget⟩ := hf.exists_rows [c] t ht
    exact ⟨u, (hg t c ht).trans hu, hd, fun i j hi _ => hget i hi j⟩
  have hcolumn : ∀ {β : Type} [Zero β] (t : Tensor β), t.dims = [rows] → ∃ u, f [] t = .ok u ∧ u.dims = [size] ∧
      ∀ i < size, u.asRows.get i 0 = (source i).elim 0 fun k => t.asRows.get k 0 := by
    intro β _ t ht
    obtain ⟨u, hu, hd, hget⟩ := hf.exists_rows [] t ht
    exact ⟨u, hu, hd, fun i hi => hget i hi 0⟩
  obtain ⟨cs, hcs, hlabelled, hunder⟩ :=
    Coefficients.mapCoeffs_of_zero h.coeffs (fun i => by cases source i <;> rfl) hmatrix
  obtain ⟨o, ho, hd, hstored, hentries⟩ := Numbers.exists_onEach hzero hcolumn h.dims
  refine ⟨⟨cs, o⟩, by rw [hcs, ho]; rfl, ⟨hlabelled, hd, hstored h.stored⟩, fun i hi k hk => ?_, fun i hi hnone => ?_⟩
  · exact ⟨fun l j => by rw [hunder i hi l j, hk]; rfl, (hentries i hi).1 k hk⟩
  · exact ⟨fun l j => by rw [hunder i hi l j, hnone]; rfl, (hentries i hi).2 hnone⟩

theorem gather_draws (h : b.Shaped rows width) {places : List Nat} (hp : ∀ p ∈ places, p < rows) :
    ∃ c, b.gather places = .ok c ∧ Draws c b (fun i => places[i]?) places.length width :=
  (rearranges_selectRows hp).exists_draws hzero h fun _ _ _ => rfl

theorem scatter_draws (h : b.Shaped rows width) {places : List Nat} (hl : places.length = rows)
    (hp : ∀ p ∈ places, p < size) : ∃ c, b.scatter (.ofPlaces places) size = .ok c ∧
      Draws c b (fun i => Axis.lastIndexOf? i (places.map some)) size width := by
  obtain ⟨targets, htargets, htd, htl⟩ := Selector.targets_ofPlaces hp
  rw [scatter_eq b htargets]
  exact (rearranges_putRows (htd.trans (by rw [hl])) htl).exists_draws hzero h fun t c ht => by
    rw [columns, ht]
    rfl

end rows

/-! Sums -/

section sums

variable [AddZeroClass α] [OfDouble α]

/-- Where one of the blocks `a` and `b` has a row of zeros, `c` has the row of the other one. -/
structure Overlays (c a b : Block α) (rows : Nat) (width : Value → Nat) : Prop where
  shaped : c.Shaped rows width
  left : ∀ i < rows, b.ZeroRow i → c.SameRow i a i
  right : ∀ i < rows, a.ZeroRow i → c.SameRow i b i
  zero : ∀ i < rows, a.ZeroRow i → b.ZeroRow i → c.ZeroRow i

variable (hzero : ofDouble (Double.nearest 0) = (0 : α))

include hzero

theorem add_overlays {a : Block α} (ha : a.Shaped rows width) (hb : b.Shaped rows width) :
    ∃ c, a.add b = .ok c ∧ Overlays c a b rows width := by
  obtain ⟨cs, hcs, hlabelled⟩ := Coefficients.foldlM_addCoeff_labelled ha.coeffs hb.coeffs
  have hunder := Coefficients.under_foldlM_addCoeff ha.coeffs hb.coeffs hcs
  obtain ⟨o, ho, hoverlays⟩ := Numbers.exists_plus hzero ha.dims hb.dims ha.stored hb.stored
  refine ⟨⟨cs, o⟩, by rw [add, hcs, ho]; rfl, ⟨hlabelled, hoverlays.dims, hoverlays.stored⟩, fun i hi h => ?_,
    fun i hi h => ?_, fun i hi hza hzb => ?_⟩
  · exact ⟨fun l j => by rw [hunder, h.under_eq, add_zero], hoverlays.left i hi h.offset⟩
  · exact ⟨fun l j => by rw [hunder, h.under_eq, zero_add], hoverlays.right i hi h.offset⟩
  · exact ⟨fun l j => by rw [hunder, hza.under_eq, hzb.under_eq, add_zero], hoverlays.zero i hi hza.offset hzb.offset⟩

omit hzero in
/-- One more summand is laid over the others. -/
theorem Collects.concat {bs : List (Block α)} {d : Block α} (h : Collects bs c rows width)
    (hd : Overlays d c b rows width) : Collects (bs ++ [b]) d rows width := by
  refine ⟨hd.shaped, fun i hi hz => ?_, fun i hi before e after he hbefore hafter => ?_⟩
  · exact hd.zero i hi (h.zeroRow i hi fun e he => hz e (List.mem_append_left _ he))
      (hz b (List.mem_append_right _ List.mem_cons_self))
  · rcases List.eq_nil_or_concat' after with rfl | ⟨after, last, rfl⟩
    · obtain ⟨rfl, rfl⟩ : bs = before ∧ b = e := by simpa using List.append_inj' he rfl
      exact hd.right i hi (h.zeroRow i hi hbefore)
    · rw [← List.cons_append, ← List.append_assoc] at he
      obtain ⟨hbs, hlast⟩ := List.append_inj' he rfl
      obtain rfl : b = last := by simpa using hlast
      have hsame := h.sameRow i hi before e after hbs hbefore fun q hq => hafter q (List.mem_append_left _ hq)
      exact (hd.left i hi (hafter b (List.mem_append_right _ List.mem_cons_self))).trans hsame

/-- In a row where all summands but one have zeros the sum has the row of that one. -/
theorem sum_sameRow {bs : List (Block α)} (hne : bs ≠ []) (h : ∀ b ∈ bs, b.Shaped rows width) :
    ∃ c, sum bs = .ok c ∧ Collects bs c rows width := by
  refine sum_induction (Collects · · rows width) (fun _ => Collects.singleton) (fun bs b c hc hb => ?_) hne h
  obtain ⟨d, hd, hover⟩ := add_overlays hzero hc.shaped hb
  exact ⟨d, hd, hc.concat hover⟩

end sums

/-! Blocks one above the other -/

section piles

variable [Zero α] [OfDouble α]

/-- Blocks one above the other, of which at least one is there, keep all their rows. -/
theorem concat_sameRow {bs : List (Block α)} (hne : bs ≠ []) (h : ∀ b ∈ bs, b.Shaped b.size width) :
    ∃ c, concat bs = .ok c ∧ c.Shaped (total (bs.map size)) width ∧
      ∀ before b after, bs = before ++ b :: after → ∀ k < b.size, c.SameRow (total (before.map size) + k) b k := by
  obtain ⟨cs, hcs, hlabelled, hunder⟩ := exists_concat hne fun b hb => (h b hb).coeffs
  obtain ⟨g, hg, hgd, hstored, hconstant⟩ := Numbers.joinRows_columns size hne fun b hb => (h b hb).dims
  refine ⟨_, hcs g hg, ⟨hlabelled, hgd, hstored fun b hb => (h b hb).stored⟩, ?_⟩
  rintro before b after rfl k hk
  refine ⟨fun l j => ?_, ?_⟩
  · exact (hunder l _ j).trans (joined_part hk)
  · exact (hconstant _).trans (joined_part hk)

end piles

end Block

end ConicForm
