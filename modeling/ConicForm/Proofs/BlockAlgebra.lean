import ConicForm.Proofs.Arrangements
import ConicForm.Proofs.LabelledRows
import ConicForm.Proofs.Scalars
import ConicForm.Proofs.SeenVariables
import ConicForm.Proofs.Selections

/-!
# The algebra of blocks

Every operation on blocks is the operation of its name on their values, wherever the variables are assigned columns: a
label that only some of the operands have counts as zeros in the others. The result is again a block of the right
number of rows, with the labels of the operands and their widths.
-/

namespace ConicForm

variable {α : Type}

/-! Positions that may count from the end -/

namespace Axis

/-- The place on an axis that a position stands for, counted from the end if it is negative. -/
def counted (size : Nat) (p : Int) : Nat := (Slice.fromEnd p size).toNat

/-- The entries of a column at some places, and zeros elsewhere. -/
def placed [Zero α] (places : List Nat) (size : Nat) (v : List α) : List α :=
  (List.range size).map fun i => if i ∈ places then v.getD (places.idxOf i) 0 else 0

variable {size : Nat} {p : Int} {ps : List Int}

theorem counted_lt (h : -(size : Int) ≤ p ∧ p < size) : counted size p < size := by
  rw [counted, Slice.fromEnd]
  split <;> omega

theorem fromStart_counted (h : -(size : Int) ≤ p ∧ p < size) : fromStart size p = fromStart size (counted size p) := by
  have hcounted : (counted size p : Int) = if p < 0 then p + size else p := by
    rw [counted, Slice.fromEnd]
    split <;> omega
  have hneg : ¬(counted size p : Int) < 0 := by omega
  simp only [fromStart, ← hcounted, if_neg hneg]

/-- What goes by the place that a position is at from the start, goes by the place that it stands for. -/
theorem map_counted {f : Int → α} (hf : ∀ p q, fromStart size p = fromStart size q → f p = f q)
    (hp : ∀ p ∈ ps, -(size : Int) ≤ p ∧ p < size) :
    ps.map f = ((ps.map (counted size)).map fun n : Nat => (n : Int)).map f := by
  rw [List.map_map, List.map_map]
  exact List.map_congr_left fun p h => hf _ _ (fromStart_counted (hp p h))

theorem forall_counted_lt (hp : ∀ p ∈ ps, -(size : Int) ≤ p ∧ p < size) : ∀ q ∈ ps.map (counted size), q < size := by
  intro q hq
  obtain ⟨p, h, rfl⟩ := List.mem_map.mp hq
  exact counted_lt (hp p h)

end Axis

namespace Coefficients

/-- An entry of the coefficients under the labels with a key, zero where there are none. -/
def atKey [Zero α] (cs : List (Label × Tensor α)) (k : Value) (i j : Nat) : α :=
  (cs.find? fun e => e.1.key = k).elim 0 fun e => e.2.asRows.get i j

variable {cs : List (Label × Tensor α)} {rows : Nat} {width : Value → Nat} {k : Value}

theorem atKey_key [Zero α] (cs : List (Label × Tensor α)) (l : Label) (i j : Nat) :
    atKey cs l.key i j = under cs l i j := by
  rw [atKey, under, Keyed.get?]
  change _ = Option.elim (Option.map Prod.snd (cs.find? fun e => decide (e.1.key = l.key))) _ _
  cases cs.find? fun e => decide (e.1.key = l.key) <;> rfl

theorem exists_label_of_mem_keys {β : Type} {entries : List (Label × β)} (h : k ∈ Label.keys entries) :
    ∃ l : Label, l.key = k := by
  obtain ⟨e, _, rfl⟩ := List.mem_map.mp h
  exact ⟨e.1, rfl⟩

theorem atKey_of_not_mem [Zero α] (h : k ∉ Label.keys cs) (i j : Nat) : atKey cs k i j = 0 := by
  have hnone : (cs.find? fun e => decide (e.1.key = k)) = none := by
    rw [List.find?_eq_none]
    intro e he hk
    exact h (List.mem_map.mpr ⟨e, he, of_decide_eq_true hk⟩)
  rw [atKey, hnone]
  rfl

theorem Labelled.atKey_eq [Zero α] (h : Labelled cs rows width) {e : Label × Tensor α} (he : e ∈ cs) (i j : Nat) :
    atKey cs e.1.key i j = e.2.asRows.get i j := by rw [atKey_key, under_of_mem h he]

/-- The sum over the coefficients is one over all keys, of which those without coefficients count nothing. -/
theorem sum_map_dot [NonUnitalNonAssocSemiring α] (h : Labelled cs rows width) {S : Finset Value}
    (hS : ∀ k ∈ Label.keys cs, k ∈ S) (y : Value → List α) (i : Nat) :
    (cs.map fun e => Matrix.dot (e.2.asRows.row i) (y e.1.key)).sum =
      ∑ k ∈ S, ∑ j ∈ Finset.range (width k), atKey cs k i j * (y k).getD j 0 := by
  have hterms : ∀ e ∈ cs, Matrix.dot (e.2.asRows.row i) (y e.1.key) =
      ∑ j ∈ Finset.range (width e.1.key), atKey cs e.1.key i j * (y e.1.key).getD j 0 := by
    intro e he
    rw [Matrix.dot_row, Tensor.cols_asRows (h.good e he), volume_singleton]
    simp only [h.atKey_eq he]
  have hkeys : (cs.map fun e => Matrix.dot (e.2.asRows.row i) (y e.1.key)).sum =
      ∑ k ∈ (Label.keys cs).toFinset, ∑ j ∈ Finset.range (width k), atKey cs k i j * (y k).getD j 0 := by
    rw [List.sum_toFinset _ h.nodup, Label.keys, List.map_map, List.map_congr_left hterms]
    rfl
  rw [hkeys]
  apply Finset.sum_subset
  · exact fun k hk => hS k (List.mem_toFinset.mp hk)
  · intro k _ hk
    apply Finset.sum_eq_zero
    intro j _
    rw [atKey_of_not_mem (mt List.mem_toFinset.mpr hk), zero_mul]

end Coefficients

namespace Block

open Coefficients (atKey under)

variable {a b c : Block α} {rows size : Nat} {width : Value → Nat}

section values

variable [NonUnitalNonAssocSemiring α] [OfDouble α]

/-- The value where the variables have columns by the keys of their labels. -/
def valueAt (b : Block α) (y : Value → List α) : List α := b.value fun l => y l.key

/-- One row of the value. -/
def rowAt (b : Block α) (y : Value → List α) (i : Nat) : α := b.linearPart (fun l => y l.key) i + b.constant i

theorem valueAt_eq (h : b.Shaped rows width) (y : Value → List α) :
    b.valueAt y = (List.range rows).map (b.rowAt y) := by
  rw [valueAt, value, h.size_eq]
  apply List.map_congr_left
  intro i _
  rw [Tensor.getD_toList ((Numbers.dims_toReals _).trans h.dims), rowAt, constant]

theorem length_valueAt (h : b.Shaped rows width) (y : Value → List α) : (b.valueAt y).length = rows := by
  rw [valueAt_eq h, List.length_map, List.length_range]

theorem getD_valueAt (h : b.Shaped rows width) (y : Value → List α) {i : Nat} (hi : i < rows) :
    (b.valueAt y).getD i 0 = b.rowAt y i := by
  rw [valueAt_eq h, getD_map_range, if_pos hi]

theorem rowAt_eq_sum (h : b.Shaped rows width) {S : Finset Value} (hS : ∀ k ∈ Label.keys b.coeffs, k ∈ S)
    (y : Value → List α) (i : Nat) : b.rowAt y i =
      (∑ k ∈ S, ∑ j ∈ Finset.range (width k), atKey b.coeffs k i j * (y k).getD j 0) + b.constant i := by
  rw [rowAt, linearPart, Coefficients.sum_map_dot h.coeffs hS]

end values

/-! Labels -/

theorem keys_of_labels (h : c.labels = b.labels) : Label.keys c.coeffs = Label.keys b.coeffs := by
  rw [Label.keys_eq_map, Label.keys_eq_map]
  exact congrArg (List.map Label.key) h

/-- A sum has the labels of both operands. -/
theorem mem_keys_add [Zero α] [Add α] [OfDouble α] (h : a.add b = .ok c) (k : Value) :
    k ∈ Label.keys c.coeffs ↔ k ∈ Label.keys a.coeffs ∨ k ∈ Label.keys b.coeffs := by
  rw [(joins_add h).mem_keys, Label.keys, List.map_append, List.mem_append]
  rfl

/-- Blocks one above the other have the labels of all of them. -/
theorem mem_keys_concat [Zero α] [OfDouble α] {bs : List (Block α)} (h : concat bs = .ok c) (k : Value) :
    k ∈ Label.keys c.coeffs ↔ ∃ b ∈ bs, k ∈ Label.keys b.coeffs := by
  rw [(joins_concat h).mem_keys, mem_keys_flatMap]

/-! Rows -/

/-- The keys of some labels stand for all labels that have a coefficient in one of two blocks. -/
theorem exists_keys (b c : Block α) : ∃ S : Finset Value, (∀ k ∈ Label.keys b.coeffs, k ∈ S) ∧
    (∀ k ∈ Label.keys c.coeffs, k ∈ S) ∧ ∀ k ∈ S, ∃ l : Label, l.key = k := by
  refine ⟨(Label.keys b.coeffs ++ Label.keys c.coeffs).toFinset, ?_, ?_, ?_⟩
  · exact fun k hk => List.mem_toFinset.mpr (List.mem_append_left _ hk)
  · exact fun k hk => List.mem_toFinset.mpr (List.mem_append_right _ hk)
  · intro k hk
    rcases List.mem_append.mp (List.mem_toFinset.mp hk) with hk | hk
    · exact Coefficients.exists_label_of_mem_keys hk
    · exact Coefficients.exists_label_of_mem_keys hk

section rows

variable [NonUnitalNonAssocSemiring α] [OfDouble α] {i k : Nat}

theorem SameRow.rowAt_eq (h : c.SameRow i b k) (hc : c.Shaped size width) (hb : b.Shaped rows width)
    (y : Value → List α) : c.rowAt y i = b.rowAt y k := by
  obtain ⟨S, hbS, hcS, hlabel⟩ := exists_keys b c
  rw [rowAt_eq_sum hc hcS, rowAt_eq_sum hb hbS, h.constant_eq]
  congr 1
  apply Finset.sum_congr rfl
  intro q hq
  obtain ⟨l, rfl⟩ := hlabel q hq
  simp only [Coefficients.atKey_key, h.under_eq]

theorem ZeroRow.rowAt_eq (hzero : ofDouble (Double.nearest 0) = (0 : α)) (h : c.ZeroRow i) (hc : c.Shaped size width)
    (y : Value → List α) : c.rowAt y i = 0 := by
  have hconstant : c.constant i = 0 := h.offset.realAt_eq hzero
  obtain ⟨S, _, hcS, hlabel⟩ := exists_keys c c
  rw [rowAt_eq_sum hc hcS, hconstant, add_zero]
  apply Finset.sum_eq_zero
  intro q hq
  obtain ⟨l, rfl⟩ := hlabel q hq
  simp only [Coefficients.atKey_key, h.under_eq, zero_mul, Finset.sum_const_zero]

theorem rowAt_add (ha : a.Shaped rows width) (hb : b.Shaped rows width) (hc : c.Shaped rows width)
    (hkeys : ∀ k, k ∈ Label.keys c.coeffs ↔ k ∈ Label.keys a.coeffs ∨ k ∈ Label.keys b.coeffs)
    (hunder : ∀ l j, under c.coeffs l i j = under a.coeffs l i j + under b.coeffs l i j)
    (hconstant : c.constant i = a.constant i + b.constant i) (y : Value → List α) :
    c.rowAt y i = a.rowAt y i + b.rowAt y i := by
  obtain ⟨S, haS, hbS, hlabel⟩ := exists_keys a b
  have hcS : ∀ k ∈ Label.keys c.coeffs, k ∈ S := fun k hk => ((hkeys k).mp hk).elim (haS k) (hbS k)
  rw [rowAt_eq_sum ha haS, rowAt_eq_sum hb hbS, rowAt_eq_sum hc hcS, hconstant, add_add_add_comm,
    ← Finset.sum_add_distrib]
  congr 1
  apply Finset.sum_congr rfl
  intro q hq
  obtain ⟨l, rfl⟩ := hlabel q hq
  simp only [Coefficients.atKey_key, hunder, add_mul, Finset.sum_add_distrib]

end rows

/-- A linear change of the columns of a block is one of its values. -/
theorem rowAt_act [CommSemiring α] [OfDouble α] {act : (Nat → α) → Nat → α} (hact : IsLinearMap α act)
    (hb : b.Shaped rows width) (hc : c.Shaped size width) {i : Nat}
    (hunder : ∀ l j, under c.coeffs l i j = act (fun k => under b.coeffs l k j) i)
    (hconstant : c.constant i = act b.constant i) (y : Value → List α) :
    c.rowAt y i = act (b.rowAt y) i := by
  obtain ⟨S, hbS, hcS, hlabel⟩ := exists_keys b c
  have hrow : b.rowAt y = fun i =>
      (∑ k ∈ S, ∑ j ∈ Finset.range (width k), atKey b.coeffs k i j * (y k).getD j 0) + b.constant i :=
    funext fun i => rowAt_eq_sum hb hbS y i
  rw [hrow, act_weighted_sum hact S width (atKey b.coeffs) fun k j => (y k).getD j 0, rowAt_eq_sum hc hcS, hconstant]
  congr 1
  apply Finset.sum_congr rfl
  intro k hk
  obtain ⟨l, rfl⟩ := hlabel k hk
  simp only [Coefficients.atKey_key, hunder]

/-! Operations -/

/-- `c` is a block of some rows with coefficients under the keys `has`, and has the given value where the variables
have columns. -/
structure Evaluates [NonUnitalNonAssocSemiring α] [OfDouble α] (c : Block α) (rows : Nat) (width : Value → Nat)
    (has : Value → Prop) (value : (Value → List α) → List α) : Prop where
  shaped : c.Shaped rows width
  mem_keys : ∀ k, k ∈ Label.keys c.coeffs ↔ has k
  valueAt_eq : ∀ y, c.valueAt y = value y

/-- A block with the labels of another, whose columns are changed by a linear act. -/
theorem evaluates_of_act [CommSemiring α] [OfDouble α] {act : (Nat → α) → Nat → α} (hact : IsLinearMap α act)
    (hb : b.Shaped rows width) (hc : c.Shaped size width) (hlabels : c.labels = b.labels)
    (hunder : ∀ i < size, ∀ l j, under c.coeffs l i j = act (fun k => under b.coeffs l k j) i)
    (hconstant : ∀ i < size, c.constant i = act b.constant i) :
    c.Evaluates size width (fun k => k ∈ Label.keys b.coeffs) fun y => (List.range size).map (act (b.rowAt y)) := by
  refine ⟨hc, fun k => by rw [keys_of_labels hlabels], fun y => ?_⟩
  rw [valueAt_eq hc]
  apply List.map_congr_left
  intro i hi
  have hi := List.mem_range.mp hi
  exact rowAt_act hact hb hc (hunder i hi) (hconstant i hi) y

section operations

variable [CommSemiring α] [OfDouble α] (hzero : ofDouble (Double.nearest 0) = (0 : α))

include hzero

theorem add_evaluates (ha : a.Shaped rows width) (hb : b.Shaped rows width)
    (hexact : ∀ i < rows, (a.offset.scalarAt i).AddsExactly (b.offset.scalarAt i)) :
    ∃ c, a.add b = .ok c ∧
      c.Evaluates rows width (fun k => k ∈ Label.keys a.coeffs ∨ k ∈ Label.keys b.coeffs) fun y =>
        List.zipWith (· + ·) (a.valueAt y) (b.valueAt y) := by
  obtain ⟨cs, hcs, hlabelled⟩ := Coefficients.foldlM_addCoeff_labelled ha.coeffs hb.coeffs
  have hunder := Coefficients.under_foldlM_addCoeff ha.coeffs hb.coeffs hcs
  obtain ⟨o, ho, hd, hstored, hscalars⟩ := Numbers.exists_combine or (fun m n => Value.wrapWord (m + n)) (· + ·) hzero
    (Numbers.pairs_same rows) ha.dims hb.dims fun m n => Value.isWord_wrapWord (m + n)
  have hplus : a.offset.plus b.offset = .ok o := ho
  have hc : a.add b = .ok ⟨cs, o⟩ := by
    rw [add, hcs, hplus]
    rfl
  have hshaped : Shaped ⟨cs, o⟩ rows width := ⟨hlabelled, hd, hstored⟩
  refine ⟨_, hc, hshaped, mem_keys_add hc, fun y => ext_getD 0 ?_ ?_⟩
  · rw [length_valueAt hshaped, List.length_zipWith, length_valueAt ha, length_valueAt hb, min_self]
  · intro i hi
    rw [length_valueAt hshaped] at hi
    have hconstant : constant ⟨cs, o⟩ i = a.constant i + b.constant i := by
      change o.realAt i = a.offset.realAt i + b.offset.realAt i
      rw [Numbers.realAt_eq_read hzero, Numbers.realAt_eq_read hzero, Numbers.realAt_eq_read hzero, hscalars i hi]
      exact hexact i hi
    rw [getD_valueAt hshaped y hi, rowAt_add ha hb hshaped (mem_keys_add hc) (fun l j => hunder l i j) hconstant,
      valueAt_eq ha, valueAt_eq hb]
    simp [List.getD_eq_getElem?_getD, hi]

theorem scale_evaluates (hb : b.Shaped rows width) {factor : Numbers α} (hd : factor.dims = [])
    (hexact : ∀ i < rows, (factor.scalarAt 0).MultipliesExactly (b.offset.scalarAt i)) :
    ∃ c, b.scale factor = .ok c ∧ c.Evaluates rows width (fun k => k ∈ Label.keys b.coeffs) fun y =>
      (b.valueAt y).map fun v => (factor.scalarAt 0).read * v := by
  have hd' : factor.toReals.dims = [] := (Numbers.dims_toReals factor).trans hd
  have hx : factor.toReals.get [] = (factor.scalarAt 0).read := by
    rw [← Numbers.realAt_eq_read hzero, Numbers.realAt]
    simp [Matrix.get, Tensor.asRows, Tensor.get, Tensor.place, hd']
  obtain ⟨cs, hcs, hlabelled, hunder⟩ :=
    Coefficients.mapCoeffs_of_zero hb.coeffs (fun _ => mul_zero _) (actsBy_scalar hd')
  rw [hx] at hunder
  obtain ⟨o, ho, hod, hstored, hscalars⟩ := Numbers.exists_combine and (fun m n => Value.wrapWord (m * n)) (· * ·)
    hzero (Numbers.pairs_scalar rows) hd hb.dims fun m n => Value.isWord_wrapWord (m * n)
  have htimes : factor.times b.offset = .ok o := ho
  have hc : b.scale factor = .ok ⟨cs, o⟩ := by
    rw [scale, hcs, htimes]
    rfl
  have hconstant : ∀ i < rows, constant ⟨cs, o⟩ i = multiple (factor.scalarAt 0).read b.constant i := by
    intro i hi
    change o.realAt i = (factor.scalarAt 0).read * b.offset.realAt i
    rw [Numbers.realAt_eq_read hzero, Numbers.realAt_eq_read hzero, hscalars i hi]
    exact hexact i hi
  have hshaped : Shaped ⟨cs, o⟩ rows width := ⟨hlabelled, hod, hstored⟩
  have heval := evaluates_of_act (isLinearMap_multiple (factor.scalarAt 0).read) hb hshaped (labels_scale hc) hunder
    hconstant
  refine ⟨_, hc, heval.shaped, heval.mem_keys, fun y => (heval.valueAt_eq y).trans ?_⟩
  rw [valueAt_eq hb, List.map_map]
  rfl

omit hzero in
theorem apply_evaluates (hb : b.Shaped rows width) {m : Tensor α} (hm : m.dims = [size, rows]) :
    ∃ c, b.apply m = .ok c ∧ c.Evaluates size width (fun k => k ∈ Label.keys b.coeffs) fun y =>
      (List.range size).map fun i => Matrix.dot (m.asRows.row i) (b.valueAt y) := by
  have hcols : m.asRows.cols = rows := by rw [Tensor.cols_asRows hm, volume_singleton]
  obtain ⟨cs, hcs, hlabelled, hunder⟩ :=
    Coefficients.mapCoeffs_of_zero hb.coeffs (fun _ => by simp [combinations]) (actsBy_product hm)
  obtain ⟨u, hu, hd, hget⟩ :=
    product_combinations hm ((Numbers.dims_toReals b.offset).trans hb.dims) (Nat.zero_le 1)
  have hc : b.apply m = .ok ⟨cs, .reals u⟩ := by
    rw [apply, hcs, hu]
    rfl
  have hshaped : Shaped ⟨cs, .reals u⟩ size width := ⟨hlabelled, hd, trivial⟩
  have heval := evaluates_of_act (isLinearMap_combinations m.asRows.get rows) hb hshaped (labels_apply hc) hunder
    fun i hi => hget i 0 hi Nat.one_pos
  refine ⟨_, hc, heval.shaped, heval.mem_keys, fun y => (heval.valueAt_eq y).trans ?_⟩
  apply List.map_congr_left
  intro i _
  rw [combinations, sum_map_range, Matrix.dot_row, hcols]
  apply Finset.sum_congr rfl
  intro k hk
  rw [getD_valueAt hb y (Finset.mem_range.mp hk)]

/-- A block whose rows are rows of another or zeros. -/
theorem Draws.evaluates {source : Nat → Option Nat} (h : Draws c b source size width) (hb : b.Shaped rows width)
    (hlabels : c.labels = b.labels) : c.Evaluates size width (fun k => k ∈ Label.keys b.coeffs) fun y =>
      (List.range size).map fun i => (source i).elim 0 (b.rowAt y) := by
  refine ⟨h.shaped, fun k => by rw [keys_of_labels hlabels], fun y => ?_⟩
  rw [valueAt_eq h.shaped]
  apply List.map_congr_left
  intro i hi
  have hi := List.mem_range.mp hi
  cases hs : source i with
  | none => exact (h.zeroRow i hi hs).rowAt_eq hzero h.shaped y
  | some k => exact (h.sameRow i hi k hs).rowAt_eq h.shaped hb y

end operations

section moves

variable {ps : List Int}

theorem selectRows_positions {β : Type} [Zero β] {tail : List Nat} {t : Tensor β} (ht : t.dims = rows :: tail)
    (hp : ∀ p ∈ ps, -(rows : Int) ≤ p ∧ p < rows) :
    t.selectRows (.positions (.ofList ps)) = t.selectRows (.ofPlaces (ps.map (Axis.counted rows))) := by
  change t.takeRows (ps.map (Axis.source t.length)) =
    t.takeRows (((ps.map (Axis.counted rows)).map fun n : Nat => (n : Int)).map (Axis.source t.length))
  rw [Tensor.length_of_dims ht, Axis.map_counted (fun p q h => by rw [Axis.source, h, Axis.source]) hp]

theorem targets_positions (hp : ∀ p ∈ ps, -(size : Int) ≤ p ∧ p < size) :
    (Selector.positions (.ofList ps)).targets size = (Selector.ofPlaces (ps.map (Axis.counted size))).targets size := by
  have hplaces := Axis.map_counted (f := Axis.target? size) (fun p q h => by simp only [Axis.target?, h]) hp
  simp only [Selector.ofPlaces, Selector.targets, Tensor.map, Tensor.ofList, List.map_toArray, List.length_map, hplaces]

theorem scatter_positions [Zero α] (hp : ∀ p ∈ ps, -(size : Int) ≤ p ∧ p < size) :
    b.scatter (.positions (.ofList ps)) size = b.scatter (.ofPlaces (ps.map (Axis.counted size))) size := by
  rw [scatter, scatter, targets_positions hp]

variable [CommSemiring α] [OfDouble α] (hzero : ofDouble (Double.nearest 0) = (0 : α))

include hzero

theorem select_draws (hb : b.Shaped rows width) (hp : ∀ p ∈ ps, -(rows : Int) ≤ p ∧ p < rows) :
    ∃ c, b.select (.positions (.ofList ps)) = .ok c ∧
      Draws c b (fun i => (ps.map (Axis.counted rows))[i]?) ps.length width := by
  have hmoves : Rearranges (fun _ t => t.selectRows (.positions (.ofList ps))) rows ps.length
      fun i => (ps.map (Axis.counted rows))[i]? := by
    refine ⟨fun tail t ht => ?_⟩
    have hlength : (ps.map (Axis.counted rows)).length = ps.length := List.length_map _
    rw [selectRows_positions ht hp, ← hlength]
    exact (rearranges_selectRows (Axis.forall_counted_lt hp)).exists_rows tail t ht
  exact hmoves.exists_draws hzero hb fun _ _ _ => rfl

theorem select_evaluates (hb : b.Shaped rows width) (hp : ∀ p ∈ ps, -(rows : Int) ≤ p ∧ p < rows) :
    ∃ c, b.select (.positions (.ofList ps)) = .ok c ∧
      c.Evaluates ps.length width (fun k => k ∈ Label.keys b.coeffs) fun y =>
        ps.map fun p => (b.valueAt y).getD (Axis.counted rows p) 0 := by
  obtain ⟨c, hc, hdraws⟩ := select_draws hzero hb hp
  have heval := hdraws.evaluates hzero hb (labels_of_mapCoeffs (g := id) hc)
  refine ⟨c, hc, heval.shaped, heval.mem_keys, fun y => (heval.valueAt_eq y).trans ?_⟩
  apply List.ext_getElem
  · simp
  · intro i hi hi'
    rw [List.length_map] at hi'
    have hcounted := Axis.counted_lt (hp _ (List.getElem_mem hi'))
    rw [List.getElem_map, List.getElem_map, getD_valueAt hb y hcounted]
    simp [hi']

omit hzero in
theorem concat_evaluates {bs : List (Block α)} (hne : bs ≠ []) (hb : ∀ b ∈ bs, b.Shaped b.size width) :
    ∃ c, concat bs = .ok c ∧
      c.Evaluates (total (bs.map Block.size)) width (fun k => ∃ b ∈ bs, k ∈ Label.keys b.coeffs) fun y =>
        bs.flatMap fun b => b.valueAt y := by
  obtain ⟨c, hc, hshaped, hrows⟩ := concat_sameRow hne hb
  have hlength : ∀ y, ∀ b ∈ bs, (b.valueAt y).length = b.size := fun y b h => length_valueAt (hb b h) y
  refine ⟨c, hc, hshaped, mem_keys_concat hc, fun y => ext_getD 0 ?_ ?_⟩
  · rw [length_valueAt hshaped, length_flatMap_eq (hlength y)]
  · intro i hi
    rw [length_valueAt hshaped] at hi
    obtain ⟨before, b, after, k, rfl, hk, rfl⟩ := exists_part hi
    have hmem : b ∈ before ++ b :: after := List.mem_append_right _ List.mem_cons_self
    have hrow := (hrows before b after rfl k hk).rowAt_eq hshaped (hb b hmem) y
    have hbefore := length_flatMap_eq fun d hd => hlength y d (List.mem_append_left _ hd)
    rw [getD_valueAt hshaped y hi, hrow, ← getD_valueAt (hb b hmem) y hk, List.flatMap_append, ← hbefore,
      List.getD_append_right _ _ _ _ (Nat.le_add_right _ _), Nat.add_sub_cancel_left, List.flatMap_cons,
      List.getD_append _ _ _ _ (by rwa [hlength y b hmem])]

theorem scatter_evaluates (hb : b.Shaped rows width) (hl : ps.length = rows)
    (hp : ∀ p ∈ ps, -(size : Int) ≤ p ∧ p < size) (hnodup : (ps.map (Axis.counted size)).Nodup) :
    ∃ c, b.scatter (.positions (.ofList ps)) size = .ok c ∧
      c.Evaluates size width (fun k => k ∈ Label.keys b.coeffs) fun y =>
        Axis.placed (ps.map (Axis.counted size)) size (b.valueAt y) := by
  obtain ⟨c, hc, hdraws⟩ := scatter_draws hzero hb ((List.length_map _).trans hl) (Axis.forall_counted_lt hp)
  rw [← scatter_positions hp] at hc
  have heval := hdraws.evaluates hzero hb (labels_scatter hc)
  refine ⟨c, hc, heval.shaped, heval.mem_keys, fun y => (heval.valueAt_eq y).trans ?_⟩
  apply List.map_congr_left
  intro i _
  have hplen : (ps.map (Axis.counted size)).length = rows := (List.length_map _).trans hl
  generalize ps.map (Axis.counted size) = places at hnodup hplen ⊢
  cases hk : Axis.lastIndexOf? i (places.map some) with
  | none =>
    have hi : i ∉ places := fun hi => Axis.not_mem_of_lastIndexOf? hk (List.mem_map.mpr ⟨i, hi, rfl⟩)
    rw [if_neg hi]
    rfl
  | some k =>
    have hget : places[k]? = some i := by simpa using Axis.getElem?_of_lastIndexOf? hk
    obtain ⟨hlt, rfl⟩ := List.getElem?_eq_some_iff.mp hget
    rw [if_pos (List.getElem_mem hlt), hnodup.idxOf_getElem, getD_valueAt hb y (by rwa [hplen] at hlt)]
    rfl

end moves

/-- The operations on blocks are those on their values. Two blocks of one height are added, a block is multiplied by a
number and by a matrix, some of its rows are selected or put to places of their own, and at least one block is put
above the others, all of it with any labels and any numbers of rows. -/
theorem algebra_evaluates [CommSemiring α] [OfDouble α] (hzero : ofDouble (Double.nearest 0) = (0 : α))
    (width : Value → Nat) :
    (∀ (rows : Nat) (a b : Block α), a.Shaped rows width → b.Shaped rows width →
      (∀ i < rows, (a.offset.scalarAt i).AddsExactly (b.offset.scalarAt i)) → ∃ c, a.add b = .ok c ∧
        c.Evaluates rows width (fun k => k ∈ Label.keys a.coeffs ∨ k ∈ Label.keys b.coeffs) fun y =>
          List.zipWith (· + ·) (a.valueAt y) (b.valueAt y)) ∧
    (∀ (rows : Nat) (b : Block α), b.Shaped rows width →
      (∀ factor : Numbers α, factor.dims = [] →
        (∀ i < rows, (factor.scalarAt 0).MultipliesExactly (b.offset.scalarAt i)) → ∃ c, b.scale factor = .ok c ∧
          c.Evaluates rows width (fun k => k ∈ Label.keys b.coeffs) fun y =>
            (b.valueAt y).map fun v => (factor.scalarAt 0).read * v) ∧
      (∀ (size : Nat) (m : Tensor α), m.dims = [size, rows] → ∃ c, b.apply m = .ok c ∧
        c.Evaluates size width (fun k => k ∈ Label.keys b.coeffs) fun y =>
          (List.range size).map fun i => Matrix.dot (m.asRows.row i) (b.valueAt y)) ∧
      (∀ ps : List Int, (∀ p ∈ ps, -(rows : Int) ≤ p ∧ p < rows) → ∃ c, b.select (.positions (.ofList ps)) = .ok c ∧
        c.Evaluates ps.length width (fun k => k ∈ Label.keys b.coeffs) fun y =>
          ps.map fun p => (b.valueAt y).getD (Axis.counted rows p) 0) ∧
      ∀ (size : Nat) (ps : List Int), ps.length = rows → (∀ p ∈ ps, -(size : Int) ≤ p ∧ p < size) →
        (ps.map (Axis.counted size)).Nodup → ∃ c, b.scatter (.positions (.ofList ps)) size = .ok c ∧
          c.Evaluates size width (fun k => k ∈ Label.keys b.coeffs) fun y =>
            Axis.placed (ps.map (Axis.counted size)) size (b.valueAt y)) ∧
    ∀ bs : List (Block α), bs ≠ [] → (∀ b ∈ bs, b.Shaped b.size width) → ∃ c, concat bs = .ok c ∧
      c.Evaluates (total (bs.map Block.size)) width (fun k => ∃ b ∈ bs, k ∈ Label.keys b.coeffs) fun y =>
        bs.flatMap fun b => b.valueAt y := by
  refine ⟨fun rows a b ha hb hexact => add_evaluates hzero ha hb hexact, fun rows b hb => ⟨?_, ?_, ?_, ?_⟩,
    fun bs hne hb => concat_evaluates hne hb⟩
  · exact fun factor hd hexact => scale_evaluates hzero hb hd hexact
  · exact fun size m hm => apply_evaluates hb hm
  · exact fun ps hp => select_evaluates hzero hb hp
  · exact fun size ps hl hp hnodup => scatter_evaluates hzero hb hl hp hnodup

end Block

namespace Sample

/-- Two blocks that have the second of three variables in common, one with words for an offset. -/
def leftPart : Block ℚ :=
  ⟨[(.ofId 1, .ofMatrix (Matrix.ofVec 2 2 [1, 3, 2, 4])), (.ofId 2, .ofMatrix (Matrix.ofVec 2 1 [5, 6]))],
    .words (.ofList [6, 7])⟩

def rightPart : Block ℚ :=
  ⟨[(.ofId 2, .ofMatrix (Matrix.ofVec 2 1 [1, 0])), (.ofId 3, .ofMatrix (Matrix.ofVec 2 1 [0, 2]))],
    .reals (.ofList [1 / 2, 3])⟩

def partWidth (k : Value) : Nat := if k = .int 1 then 2 else 1

def partColumn (k : Value) : List ℚ := if k = .int 1 then [1, 2] else [3]

theorem shaped_parts : leftPart.Shaped 2 partWidth ∧ rightPart.Shaped 2 partWidth := by
  have hstored : ∀ n ∈ (Tensor.ofList [(6 : Int), 7]).toList, Value.isWord n = true := by decide
  refine ⟨⟨⟨?_, by decide⟩, rfl, hstored⟩, ⟨⟨?_, by decide⟩, rfl, trivial⟩⟩
  · exact List.forall_mem_cons.mpr ⟨rfl, List.forall_mem_singleton.mpr rfl⟩
  · exact List.forall_mem_cons.mpr ⟨rfl, List.forall_mem_singleton.mpr rfl⟩

end Sample

theorem Block.algebra_evaluates_parts : ∃ a s m p q c, Sample.leftPart.add Sample.rightPart = .ok a ∧
    Sample.leftPart.scale (.words (.scalar 2)) = .ok s ∧
    Sample.leftPart.apply (.ofMatrix (Matrix.ofVec 1 2 [1, -1])) = .ok m ∧
    Sample.leftPart.select (.positions (.ofList [-1, 0, -1])) = .ok p ∧
    Sample.leftPart.scatter (.positions (.ofList [-1, 0])) 3 = .ok q ∧
    concat [Sample.leftPart, Sample.rightPart] = .ok c ∧
    a.valueAt Sample.partColumn = [59 / 2, 45] ∧ s.valueAt Sample.partColumn = [52, 72] ∧
    m.valueAt Sample.partColumn = [-10] ∧ p.valueAt Sample.partColumn = [36, 26, 36] ∧
    q.valueAt Sample.partColumn = [36, 0, 26] ∧ c.valueAt Sample.partColumn = [26, 36, 7 / 2, 9] := by
  obtain ⟨hl, hr⟩ := Sample.shaped_parts
  obtain ⟨hadd, hone, hconcat⟩ := algebra_evaluates (α := ℚ) (by decide +kernel) Sample.partWidth
  obtain ⟨hscale, happly, hselect, hscatter⟩ := hone 2 _ hl
  have hexact : ∀ i < 2, ((Numbers.words (.scalar 2) : Numbers ℚ).scalarAt 0).MultipliesExactly
      (Sample.leftPart.offset.scalarAt i) := by
    simp only [Scalar.MultipliesExactly]
    decide +kernel
  obtain ⟨a, ha, haval⟩ := hadd 2 _ _ hl hr fun _ _ => (Scalar.addsExactly_real _ _).1
  obtain ⟨s, hs, hsval⟩ := hscale (.words (.scalar 2)) rfl hexact
  obtain ⟨m, hm, hmval⟩ := happly 1 (.ofMatrix (Matrix.ofVec 1 2 [1, -1])) rfl
  obtain ⟨p, hp, hpval⟩ := hselect [-1, 0, -1] (by decide)
  obtain ⟨q, hq, hqval⟩ := hscatter 3 [-1, 0] rfl (by decide) (by decide)
  obtain ⟨c, hc, hcval⟩ := hconcat [Sample.leftPart, Sample.rightPart] (by simp)
    (List.forall_mem_cons.mpr ⟨hl, List.forall_mem_singleton.mpr hr⟩)
  refine ⟨a, s, m, p, q, c, ha, hs, hm, hp, hq, hc, (haval.valueAt_eq _).trans ?_, (hsval.valueAt_eq _).trans ?_,
    (hmval.valueAt_eq _).trans ?_, (hpval.valueAt_eq _).trans ?_, (hqval.valueAt_eq _).trans ?_,
    (hcval.valueAt_eq _).trans ?_⟩
  all_goals decide +kernel

end ConicForm
