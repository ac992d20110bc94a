import ConicForm.Block.Value
import ConicForm.Proofs.Coefficients
import ConicForm.Proofs.Sorts
import Mathlib.Algebra.BigOperators.Pi
import Mathlib.Algebra.Module.LinearMap.Defs
import Mathlib.Algebra.Module.Pi

/-!
# Blocks as affine maps

A regular block has real coefficients of its variables' widths and a real column for an offset, all of one
height. It is an affine map: `Block.eval` gives the value of each row from a column for each variable. The
operations on rows change every column of a block alike, so if that change is linear, it is one of the
values, too.
-/

namespace ConicForm.Block

open Coefficients (ActsBy entry)

variable {α : Type}

instance : Nonempty (Block α) := ⟨⟨[], .reals (.ofList [])⟩⟩

structure Regular (b : Block α) (rows : Nat) (width : Int → Nat) : Prop where
  coeffs : Coefficients.Regular b.coeffs rows width
  offset : ∃ t, b.offset = .reals t ∧ t.dims = [rows]

theorem Regular.size_eq {b : Block α} {rows : Nat} {width : Int → Nat} (h : b.Regular rows width) :
    b.size = rows := by
  obtain ⟨t, ho, ht⟩ := h.offset
  rw [size, ho]
  simp [Numbers.length, Numbers.dims, ht]

/-- An entry of the offset. -/
def constant [Zero α] [OfDouble α] (b : Block α) (i : Nat) : α := b.offset.toReals.asRows.get i 0

theorem constant_of_rows_le [Zero α] [OfDouble α] {b : Block α} {rows : Nat} {width : Int → Nat}
    (h : b.Regular rows width) {i : Nat} (hi : rows ≤ i) : b.constant i = 0 := by
  obtain ⟨t, ho, ht⟩ := h.offset
  rw [constant, ho]
  exact Matrix.get_of_rows_le _ 0 (by rw [Numbers.toReals, Tensor.rows_asRows ht]; exact hi)

/-- The value of a row where each variable has a column. -/
def eval [NonUnitalNonAssocSemiring α] [OfDouble α] (width : Int → Nat) (b : Block α)
    (x : Int → Nat → α) (i : Nat) : α :=
  (∑ id ∈ (ids b.coeffs).toFinset, ∑ j ∈ Finset.range (width id), entry b.coeffs id i j * x id j) +
    b.constant i

section eval

variable [NonUnitalNonAssocSemiring α] [OfDouble α] {b : Block α} {rows : Nat} {width : Int → Nat}

theorem eval_of_rows_le (h : b.Regular rows width) (x : Int → Nat → α) {i : Nat} (hi : rows ≤ i) :
    b.eval width x i = 0 := by
  have hz : ∀ id j, entry b.coeffs id i j * x id j = 0 := fun id j => by
    rw [Coefficients.entry_of_rows_le h.coeffs id j hi, zero_mul]
  simp [eval, hz, constant_of_rows_le h hi]

/-- Variables that a block does not have may be counted in. -/
theorem eval_eq_sum (width : Int → Nat) {s : Finset Int} (hs : (ids b.coeffs).toFinset ⊆ s)
    (x : Int → Nat → α) (i : Nat) : b.eval width x i =
      (∑ id ∈ s, ∑ j ∈ Finset.range (width id), entry b.coeffs id i j * x id j) + b.constant i := by
  rw [eval, Finset.sum_subset hs]
  intro id _ hid
  apply Finset.sum_eq_zero
  intro j _
  rw [Coefficients.entry_of_not_mem (mt List.mem_toFinset.mpr hid), zero_mul]

/-- The value of a block is that of its rows. -/
theorem value_eq (h : b.Regular rows width) (x : Label → List α) :
    b.value x = (List.range rows).map (b.eval width fun id j => (x (.ofId id)).getD j 0) := by
  rw [value, h.size_eq]
  apply List.map_congr_left
  intro i _
  have hl : b.linearPart x i = ∑ id ∈ (ids b.coeffs).toFinset, ∑ j ∈ Finset.range (width id),
      entry b.coeffs id i j * (x (.ofId id)).getD j 0 := by
    apply h.coeffs.sum_map
    intro id t ht
    obtain ⟨k, hk, hd⟩ := h.coeffs.labelled _ ht
    obtain rfl : id = k := by simpa [Label.ofId] using hk
    rw [Matrix.dot_row, Tensor.cols_asRows hd, volume_singleton]
    simp only [entry, h.coeffs.get?_eq_some ht, Option.elim_some]
  have hc : b.offset.toReals.toList.getD i 0 = b.constant i := by
    obtain ⟨t, ho, ht⟩ := h.offset
    simp [constant, ho, Numbers.toReals, Matrix.get, Tensor.asRows, ht, Tensor.toList,
      Array.getD_eq_getD_getElem?, List.getD_eq_getElem?_getD]
  rw [eval, hl, hc]

end eval

/-- `c` is `b` with every column changed by `act`. -/
structure Image [Zero α] [OfDouble α] (act : (Nat → α) → Nat → α) (b c : Block α) (size : Nat)
    (width : Int → Nat) : Prop where
  regular : c.Regular size width
  ids_eq : ids c.coeffs = ids b.coeffs
  entry_eq : ∀ id ∈ ids b.coeffs, ∀ i j, i < size → j < width id →
    entry c.coeffs id i j = act (fun k => entry b.coeffs id k j) i
  constant_eq : ∀ i < size, c.constant i = act b.constant i

/-- A linear change of columns is one of their weighted sums. -/
theorem act_weighted_sum [CommSemiring α] {ι : Type} {act : (Nat → α) → Nat → α} (hact : IsLinearMap α act)
    (s : Finset ι) (width : ι → Nat) (u : ι → Nat → Nat → α) (x : ι → Nat → α) (o : Nat → α) (i : Nat) :
    act (fun i => (∑ k ∈ s, ∑ j ∈ Finset.range (width k), u k i j * x k j) + o i) i =
      (∑ k ∈ s, ∑ j ∈ Finset.range (width k), act (fun q => u k q j) i * x k j) + act o i := by
  have hsum : (fun i => (∑ k ∈ s, ∑ j ∈ Finset.range (width k), u k i j * x k j) + o i) =
      (∑ k ∈ s, ∑ j ∈ Finset.range (width k), x k j • fun q => u k q j) + o := by
    funext q
    simp [Finset.sum_apply, mul_comm]
  obtain ⟨f, rfl⟩ : ∃ f : (Nat → α) →ₗ[α] Nat → α, ⇑f = act := ⟨hact.mk' act, rfl⟩
  rw [hsum, map_add, map_sum]
  simp only [map_sum, map_smul, Pi.add_apply, Finset.sum_apply, Pi.smul_apply, smul_eq_mul, mul_comm]

/-- A linear change of the columns is one of the values. -/
theorem Image.eval_eq [CommSemiring α] [OfDouble α] {act : (Nat → α) → Nat → α} {b c : Block α}
    {size : Nat} {width : Int → Nat} (h : Image act b c size width) (hact : IsLinearMap α act)
    (x : Int → Nat → α) {i : Nat} (hi : i < size) : c.eval width x i = act (b.eval width x) i := by
  have hact : act (b.eval width x) i = _ :=
    act_weighted_sum hact (ids b.coeffs).toFinset width (entry b.coeffs) x b.constant i
  rw [hact, eval, h.ids_eq, h.constant_eq i hi]
  congr 1
  apply Finset.sum_congr rfl
  intro id hid
  apply Finset.sum_congr rfl
  intro j hj
  rw [h.entry_eq id (List.mem_toFinset.mp hid) i j hi (Finset.mem_range.mp hj)]

/-! Operations on the rows -/

section operations

variable [Zero α]

/-- A multiple by one factor. -/
def multiple [Mul α] (x : α) (u : Nat → α) (i : Nat) : α := x * u i

/-- The combinations of entries with the rows of a matrix. -/
def combinations [Add α] [Mul α] (m : Nat → Nat → α) (rows : Nat) (u : Nat → α) (i : Nat) : α :=
  ((List.range rows).map fun k => m i k * u k).sum

def gathered (places : List Nat) (u : Nat → α) (i : Nat) : α := u (places.getD i 0)

def scattered (places : List Nat) (u : Nat → α) (i : Nat) : α :=
  (Axis.lastIndexOf? i (places.map some)).elim 0 u

def weighed [Mul α] (w : Nat → α) (u : Nat → α) (i : Nat) : α := w i * u i

variable [OfDouble α] {b : Block α} {rows size : Nat} {width : Int → Nat}

/-- An operation that changes the columns of every coefficient and the offset alike. -/
theorem exists_image (h : b.Regular rows width) {act : (Nat → α) → Nat → α}
    {f : Tensor α → Result (Tensor α)} {g : Numbers α → Result (Numbers α)} (hf : ActsBy f rows size act)
    (hg : ∀ t : Tensor α, t.dims = [rows] → ∃ u, g (.reals t) = .ok (.reals u) ∧ u.dims = [size] ∧
      ∀ i < size, u.asRows.get i 0 = act (fun k => t.asRows.get k 0) i) :
    ∃ c, (do let coeffs ← mapCoeffs f b.coeffs; return Block.mk coeffs (← g b.offset)) = .ok c ∧
      Image act b c size width := by
  obtain ⟨ds, hds, hr, hids, hentry⟩ := Coefficients.mapCoeffs_regular h.coeffs hf
  obtain ⟨t, ho, ht⟩ := h.offset
  obtain ⟨u, hu, hd, hget⟩ := hg t ht
  refine ⟨⟨ds, .reals u⟩, by rw [hds, ho, hu]; rfl, ⟨hr, u, rfl, hd⟩, hids, hentry, ?_⟩
  intro i hi
  have hc : b.constant = fun k => t.asRows.get k 0 := by
    funext k
    rw [constant, ho]
    rfl
  rw [hc]
  exact hget i hi

end operations

section products

variable [Zero α] [Mul α] {rows size : Nat} {width : Int → Nat}

theorem actsBy_scalar {x : Tensor α} (hx : x.dims = []) :
    ActsBy (x.zipWith (· * ·)) rows rows (multiple (x.get [])) := fun _ _ ht =>
  ⟨_, Tensor.zipWith_scalar _ hx ht, ht, fun _ _ hi hj => Tensor.get_asRows_map_of_lt _ ht hi (by simpa using hj)⟩

theorem product_combinations [Add α] {m t : Tensor α} {tail : List Nat} (hm : m.dims = [size, rows])
    (ht : t.dims = rows :: tail) (hl : tail.length ≤ 1) :
    ∃ u, m.product t = .ok u ∧ u.dims = size :: tail ∧ ∀ i j, i < size → j < volume tail →
      u.asRows.get i j = combinations m.asRows.get rows (fun k => t.asRows.get k j) i := by
  have hr : m.asRows.rows = size := Tensor.rows_asRows hm
  have hc : m.asRows.cols = rows := by rw [Tensor.cols_asRows hm, volume_singleton]
  obtain ⟨u, hu, hd, hrows⟩ := Tensor.product_eq hm ht hl
  refine ⟨u, hu, hd, fun i j hi hj => ?_⟩
  rw [hrows, combinations, ← hc]
  exact Matrix.get_ofFn _ (hr.symm ▸ hi) ((Tensor.cols_asRows ht).symm ▸ hj)

theorem actsBy_product [Add α] {m : Tensor α} (hm : m.dims = [size, rows]) :
    ActsBy m.product rows size (combinations m.asRows.get rows) := by
  intro t c ht
  obtain ⟨u, hu, hd, hget⟩ := product_combinations hm ht le_rfl
  exact ⟨u, hu, hd, fun i j hi hj => hget i j hi (by simpa using hj)⟩

variable [OfDouble α] {b : Block α}

theorem scale_image (h : b.Regular rows width) {factor : Numbers α} (hd : factor.dims = []) :
    ∃ c, b.scale factor = .ok c ∧ Image (multiple (factor.toReals.get [])) b c rows width := by
  have hd' : factor.toReals.dims = [] := (Numbers.dims_toReals factor).trans hd
  apply exists_image h (actsBy_scalar hd')
  intro t ht
  refine ⟨t.map (factor.toReals.get [] * ·), ?_, ht, fun i hi =>
    Tensor.get_asRows_map_of_lt _ ht hi Nat.one_pos⟩
  rw [Numbers.times, Numbers.combine_reals, Tensor.zipWith_scalar _ hd' ht]
  rfl

theorem apply_image [Add α] (h : b.Regular rows width) {m : Tensor α} (hm : m.dims = [size, rows]) :
    ∃ c, b.apply m = .ok c ∧ Image (combinations m.asRows.get rows) b c size width := by
  have hop : b.apply m = (do
      let coeffs ← mapCoeffs m.product b.coeffs
      return Block.mk coeffs (← (do return .reals (← m.product b.offset.toReals)))) := by
    simp only [apply, bind_assoc, pure_bind]
  rw [hop]
  apply exists_image h (g := fun o => do return .reals (← m.product o.toReals)) (actsBy_product hm)
  intro t ht
  obtain ⟨u, hu, hd, hget⟩ := product_combinations hm ht (Nat.zero_le 1)
  exact ⟨u, by rw [Numbers.toReals, hu]; rfl, hd, fun i hi => hget i 0 hi Nat.one_pos⟩

theorem weigh_image (h : b.Regular rows width) {weights : Numbers α} (hd : weights.dims = [rows]) :
    ∃ c, b.weigh weights = .ok c ∧
      Image (weighed fun i => weights.toReals.asRows.get i 0) b c rows width := by
  have hd' : weights.toReals.dims = [rows] := (Numbers.dims_toReals weights).trans hd
  apply exists_image h
  · intro t c ht
    let column := weights.toReals.withDims (weights.toReals.dims ++ [1])
      (by simp [Tensor.volume_append, volume])
    have hcol : column.dims = [rows, 1] := congrArg (· ++ [1]) hd'
    obtain ⟨u, hu, hdu, hget⟩ := Tensor.zipWith_column (· * ·) hcol ht
    refine ⟨u, hu, hdu, fun i j hi hj => (hget i j hi hj).trans ?_⟩
    simp [weighed, column, Matrix.get, Tensor.asRows, Tensor.withDims, hd']
  · intro t ht
    have hs : weights.toReals.dims = t.dims := hd'.trans ht.symm
    refine ⟨Tensor.combine (· * ·) _ _ hs, ?_, hd', fun i hi =>
      Tensor.get_asRows_combine_of_lt _ hs hd' hi Nat.one_pos⟩
    rw [Numbers.times, Numbers.combine_reals, Tensor.zipWith_same _ hs]
    rfl

end products

section moves

variable {rows size : Nat} {source : Nat → Option Nat} {places : List Nat}

/-- An operation on arrays with any axes after that of the rows, which makes each row of the one that `source` states,
or of zeros. -/
structure Rearranges (f : ∀ {β : Type} [Zero β], List Nat → Tensor β → Result (Tensor β)) (rows size : Nat)
    (source : Nat → Option Nat) : Prop where
  exists_rows : ∀ {β : Type} [Zero β] (tail : List Nat) (t : Tensor β), t.dims = rows :: tail → ∃ u, f tail t = .ok u ∧
    u.dims = size :: tail ∧ ∀ i < size, ∀ j, u.asRows.get i j = (source i).elim 0 fun k => t.asRows.get k j

theorem rearranges_selectRows (hp : ∀ p ∈ places, p < rows) :
    Rearranges (fun _ t => t.selectRows (.ofPlaces places)) rows places.length fun i => places[i]? := by
  refine ⟨fun tail t ht => ?_⟩
  obtain ⟨u, hu, hd, hrows⟩ := Tensor.selectRows_ofPlaces ht hp
  refine ⟨u, hu, hd, fun i hi j => ?_⟩
  rw [hrows, Matrix.get_gatherRows _ _ _ hi, List.getElem?_eq_getElem hi, List.getD_eq_getElem _ _ hi,
    Option.elim_some]

theorem rearranges_putRows {targets : Tensor (Option Nat)} (hd : targets.dims = [rows])
    (hl : targets.toList = places.map some) :
    Rearranges (fun tail t => t.putRows tail targets size) rows size fun i =>
      Axis.lastIndexOf? i (places.map some) := by
  refine ⟨fun tail t ht => ?_⟩
  obtain ⟨u, hu, hd, hget⟩ := Tensor.putRows_eq ht hd size
  exact ⟨u, hu, hd, fun i hi j => (hget i j hi).trans (by rw [hl])⟩

variable [Zero α] {b : Block α} {width : Int → Nat}

theorem scatter_eq (b : Block α) {places : Selector} {targets : Tensor (Option Nat)}
    (h : places.targets size = .ok targets) : b.scatter places size =
      (do let coeffs ← mapCoeffs (fun t => do t.putRows [← columns t] targets size) b.coeffs
          return ⟨coeffs, ← b.offset.onEach fun t => t.putRows [] targets size⟩) := by
  rw [scatter, h]
  rfl

variable [OfDouble α]

/-- Rows are moved in every coefficient and in the offset. -/
theorem Rearranges.exists_image {f : ∀ {β : Type} [Zero β], List Nat → Tensor β → Result (Tensor β)}
    (hf : Rearranges f rows size source) (h : b.Regular rows width) {act : (Nat → α) → Nat → α}
    (hact : ∀ i < size, ∀ u, act u i = (source i).elim 0 u) {g : Tensor α → Result (Tensor α)}
    (hg : ∀ t c, t.dims = [rows, c] → g t = f [c] t) :
    ∃ c, (do let coeffs ← mapCoeffs g b.coeffs
             return (⟨coeffs, ← b.offset.onEach fun t => f [] t⟩ : Block α)) = .ok c ∧
      Image act b c size width := by
  apply Block.exists_image h (g := fun o => o.onEach fun t => f [] t)
  · intro t c ht
    obtain ⟨u, hu, hd, hget⟩ := hf.exists_rows [c] t ht
    exact ⟨u, (hg t c ht).trans hu, hd, fun i j hi _ => (hget i hi j).trans (hact i hi _).symm⟩
  · intro t ht
    obtain ⟨u, hu, hd, hget⟩ := hf.exists_rows [] t ht
    exact ⟨u, by rw [Numbers.onEach, hu]; rfl, hd, fun i hi => (hget i hi 0).trans (hact i hi _).symm⟩

theorem gather_image (h : b.Regular rows width) (hp : ∀ p ∈ places, p < rows) :
    ∃ c, b.gather places = .ok c ∧ Image (gathered places) b c places.length width := by
  refine (rearranges_selectRows hp).exists_image h (fun i hi u => ?_) fun _ _ _ => rfl
  rw [gathered, List.getElem?_eq_getElem hi, List.getD_eq_getElem _ _ hi, Option.elim_some]

theorem scatter_image (h : b.Regular rows width) (hl : places.length = rows) (hp : ∀ p ∈ places, p < size) :
    ∃ c, b.scatter (.ofPlaces places) size = .ok c ∧ Image (scattered places) b c size width := by
  obtain ⟨targets, htargets, htd, htl⟩ := Selector.targets_ofPlaces hp
  rw [scatter_eq b htargets]
  exact (rearranges_putRows (htd.trans (by rw [hl])) htl).exists_image h (fun _ _ _ => rfl) fun t c ht => by
    rw [columns, ht]
    rfl

end moves

/-! Linearity -/

section linear

variable [CommSemiring α]

theorem isLinearMap_multiple (x : α) : IsLinearMap α (multiple x) :=
  ⟨fun u v => funext fun i => mul_add x (u i) (v i), fun c u => funext fun i => mul_left_comm x c (u i)⟩

theorem isLinearMap_weighed (w : Nat → α) : IsLinearMap α (weighed w) :=
  ⟨fun u v => funext fun i => mul_add (w i) (u i) (v i),
    fun c u => funext fun i => mul_left_comm (w i) c (u i)⟩

theorem isLinearMap_combinations (m : Nat → Nat → α) (rows : Nat) :
    IsLinearMap α (combinations m rows) := by
  constructor
  · intro u v
    funext i
    simp only [combinations, sum_map_range, Pi.add_apply, mul_add, Finset.sum_add_distrib]
  · intro c u
    funext i
    simp only [combinations, sum_map_range, Pi.smul_apply, smul_eq_mul, Finset.mul_sum, mul_left_comm]

theorem isLinearMap_gathered (places : List Nat) : IsLinearMap α (gathered (α := α) places) :=
  ⟨fun _ _ => rfl, fun _ _ => rfl⟩

theorem isLinearMap_scattered (places : List Nat) : IsLinearMap α (scattered (α := α) places) := by
  constructor
  · intro u v
    funext i
    rw [Pi.add_apply]
    unfold scattered
    cases Axis.lastIndexOf? i (places.map some) with
    | none => exact (add_zero 0).symm
    | some k => rfl
  · intro c u
    funext i
    rw [Pi.smul_apply]
    unfold scattered
    cases Axis.lastIndexOf? i (places.map some) with
    | none => exact (smul_zero c).symm
    | some k => rfl

end linear

end ConicForm.Block
