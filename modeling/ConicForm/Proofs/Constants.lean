import ConicForm.Node.Meaning
import ConicForm.Proofs.Arrays
import ConicForm.Proofs.Results
import ConicForm.Shape.Argument

/-!
# Constants as matrices

A constant is handed over as an array of any sort with up to two axes. `Numbers.reading` is the matrix of
reals that it stands for: a number is one by one, and a vector a column, or a row where that is asked for.
-/

namespace ConicForm

namespace Tensor

variable {α β : Type} {r c : Nat}

theorem vec_asRows_map [Zero α] [Zero β] (f : α → β) (t : Tensor α) :
    (t.map f).asRows.vec = t.asRows.vec.map f := by
  rw [Matrix.vec, Matrix.vec, List.map_map]
  apply List.map_congr_left
  intro k hk
  obtain ⟨hi, hj⟩ := Matrix.place_lt_size (List.mem_range.mp hk)
  have hi : k % t.length < t.length := hi
  have hj : k / t.length < volume t.dims.tail := hj
  have hp : k % t.length * volume t.dims.tail + k / t.length < t.entries.size := by
    have hsize : t.entries.size = t.length * volume t.dims.tail := t.asRows.size_entries
    rw [hsize]
    exact Matrix.place_lt hi hj
  change (if k / t.length < volume t.dims.tail then
      (t.entries.map f).getD (k % t.length * volume t.dims.tail + k / t.length) 0 else 0) =
    f (if k / t.length < volume t.dims.tail then
      t.entries.getD (k % t.length * volume t.dims.tail + k / t.length) 0 else 0)
  rw [if_pos hj, if_pos hj, Array.getD_eq_getD_getElem?, Array.getD_eq_getD_getElem?, Array.getElem?_map,
    Array.getElem?_eq_getElem hp]
  rfl

theorem asConstant_map (f : α → β) {t u : Tensor α} {vectorAsRow : Bool}
    (h : t.asConstant vectorAsRow = .ok u) : (t.map f).asConstant vectorAsRow = .ok (u.map f) := by
  obtain ⟨_ | ⟨m, _ | ⟨n, _ | ⟨k, dims⟩⟩⟩, entries, hsize⟩ := t
  · obtain rfl := Except.ok.inj h
    rfl
  · obtain rfl := Except.ok.inj h
    rfl
  · obtain rfl := Except.ok.inj h
    rfl
  · cases h

theorem asConstant_eq [Zero α] {t u : Tensor α} {vectorAsRow : Bool} (h : t.asConstant vectorAsRow = .ok u) :
    (∃ r c, u.dims = [r, c]) ∧
      u.asRows = if vectorAsRow && t.rank == 1 then t.asRows.transposed else t.asRows := by
  obtain ⟨_ | ⟨n, _ | ⟨m, _ | ⟨k, dims⟩⟩⟩, entries, hsize⟩ := t
  · obtain rfl := Except.ok.inj h
    exact ⟨⟨1, 1, rfl⟩, by rw [if_neg (by simp [rank])]; rfl⟩
  · obtain rfl := Except.ok.inj h
    cases vectorAsRow with
    | false => exact ⟨⟨n, 1, rfl⟩, rfl⟩
    | true =>
      refine ⟨⟨1, n, rfl⟩, Eq.trans ?_ (if_pos (by simp [rank])).symm⟩
      have hc : volume [n] = n := volume_singleton n
      refine Matrix.ext_get ?_ ?_ ?_
      · rfl
      · exact hc
      intro i j hi hj
      obtain rfl : i = 0 := Nat.lt_one_iff.mp hi
      have hj : j < n := hc ▸ hj
      refine Eq.trans ?_ (Matrix.get_ofFn _ Nat.zero_lt_one hj).symm
      simp [Matrix.get, asRows, withDims, hj]
  · obtain rfl := Except.ok.inj h
    exact ⟨⟨n, m, rfl⟩, by rw [if_neg (by simp [rank])]⟩
  · cases h

theorem dims_transposed [Zero α] {t : Tensor α} (h : t.dims = [r, c]) : t.transposed.dims = [c, r] := by
  rw [transposed, dims_ofFn, h]
  rfl

theorem asRows_transposed [Zero α] {t : Tensor α} (h : t.dims = [r, c]) :
    t.transposed.asRows = t.asRows.transposed := by
  have hd := dims_transposed h
  have hr : t.transposed.asRows.rows = c := rows_asRows hd
  have hc : t.transposed.asRows.cols = r := (cols_asRows hd).trans (volume_singleton r)
  have hr' : t.asRows.rows = r := rows_asRows h
  have hc' : t.asRows.cols = c := (cols_asRows h).trans (volume_singleton c)
  apply Matrix.ext_get (hr.trans hc'.symm) (hc.trans hr'.symm)
  intro i j hi hj
  rw [hr] at hi
  rw [hc] at hj
  have hrev : t.dims.reverse = [c, r] := by rw [h]; rfl
  rw [Matrix.transposed, Matrix.get_ofFn _ (hc' ▸ hi) (hr' ▸ hj), ← get_eq_get_asRows h j hi, transposed,
    hrev]
  exact get_asRows_ofFn _ hi hj

theorem toList_eq_vec [Zero α] {t : Tensor α} (h : t.dims = [r]) : t.toList = t.asRows.vec := by
  have hr : t.asRows.rows = r := rows_asRows h
  have hc : t.asRows.cols = 1 := cols_asRows h
  have hl : t.toList.length = r := length_toList h
  apply ext_getD 0
  · rw [hl, Matrix.length_vec, Matrix.shape, Shape.size, hr, hc, Nat.mul_one]
  · intro k hk
    have hk : k < r := hl ▸ hk
    rw [Matrix.getD_vec, hr, Nat.mod_eq_of_lt hk, Nat.div_eq_of_lt hk]
    simp [Matrix.get, asRows, h, toList, List.getD_eq_getElem?_getD, Array.getD_eq_getD_getElem?]

end Tensor

namespace Numbers

variable {α : Type} [Zero α] [OfDouble α] {a m : Numbers α} {r c : Nat}

/-- The matrix that a constant is read as. -/
def reading (a : Numbers α) (vectorAsRow : Bool) : Matrix α :=
  if vectorAsRow && a.rank == 1 then a.matrix.transposed else a.matrix

omit [Zero α] in
theorem dims_toReals (a : Numbers α) : a.toReals.dims = a.dims := by cases a <;> rfl

omit [Zero α] in
theorem shape_matrix (h : m.dims = [r, c]) : m.matrix.shape = ⟨r, c⟩ := by
  have hd := (dims_toReals m).trans h
  rw [matrix, Matrix.shape, Tensor.rows_asRows hd, Tensor.cols_asRows hd, volume_singleton]

omit [Zero α] in
theorem rows_matrix (h : m.dims = [r, c]) : m.matrix.rows = r := congrArg Shape.rows (shape_matrix h)

omit [Zero α] in
theorem cols_matrix (h : m.dims = [r, c]) : m.matrix.cols = c := congrArg Shape.cols (shape_matrix h)

omit [Zero α] [OfDouble α] in
theorem shape_eq (h : m.dims = [r, c]) : m.shape = ⟨r, c⟩ := by rw [shape, h]; rfl

omit [Zero α] [OfDouble α] in
theorem shapeValue_eq (h : m.dims = [r, c]) : m.shapeValue = (⟨r, c⟩ : Shape).toValue := by
  rw [shapeValue, h]
  rfl

theorem asConstant_eq {vectorAsRow : Bool} (h : a.asConstant vectorAsRow = .ok m) :
    (∃ r c, m.dims = [r, c]) ∧ m.matrix = a.reading vectorAsRow := by
  have hreals : a.toReals.asConstant vectorAsRow = .ok m.toReals := by
    cases a with
    | truths t =>
      obtain ⟨u, hu, rfl⟩ := map_eq_ok.mp h
      exact Tensor.asConstant_map _ (Tensor.asConstant_map _ hu)
    | words t =>
      obtain ⟨u, hu, rfl⟩ := map_eq_ok.mp h
      exact Tensor.asConstant_map _ hu
    | reals t =>
      obtain ⟨u, hu, rfl⟩ := map_eq_ok.mp h
      exact hu
  have hrank : a.toReals.rank = a.rank := congrArg List.length (dims_toReals a)
  obtain ⟨⟨r, c, hd⟩, hrows⟩ := Tensor.asConstant_eq hreals
  rw [hrank] at hrows
  exact ⟨⟨r, c, (dims_toReals m).symm.trans hd⟩, hrows⟩

/-- The entries of a constant column by column. -/
theorem toReals_vec (h : m.dims = [r, c]) :
    m.vec.dims = [r * c] ∧ m.vec.toReals.toList = m.matrix.vec := by
  have hlen : ∀ {β : Type} [Zero β] (t : Tensor β), t.dims = [r, c] →
      t.vec = t.asRows.vec ∧ t.asRows.vec.length = r * c := by
    intro β _ t ht
    have hr : t.rank = 2 := by rw [Tensor.rank, ht]; rfl
    refine ⟨by rw [Tensor.vec, if_pos hr], ?_⟩
    rw [Matrix.length_vec, Matrix.shape, Tensor.rows_asRows ht, Tensor.cols_asRows ht, volume_singleton]
    rfl
  cases m with
  | truths t =>
    obtain ⟨hv, hl⟩ := @hlen Bool zeroTruth t h
    refine ⟨?_, ?_⟩
    · change [(@Tensor.vec Bool zeroTruth t).length] = _
      rw [hv, hl]
    · change ((((@Tensor.vec Bool zeroTruth t).toArray.map _).map _).toList) = _
      rw [hv, matrix, toReals, realsOfWords, wordsOfTruths,
        @Tensor.vec_asRows_map Int α zeroWord _, @Tensor.vec_asRows_map Bool Int zeroTruth zeroWord]
      simp
  | words t =>
    obtain ⟨hv, hl⟩ := @hlen Int zeroWord t h
    refine ⟨?_, ?_⟩
    · change [(@Tensor.vec Int zeroWord t).length] = _
      rw [hv, hl]
    · change (((@Tensor.vec Int zeroWord t).toArray.map _).toList) = _
      rw [hv, matrix, toReals, realsOfWords, @Tensor.vec_asRows_map Int α zeroWord _]
      simp
  | reals t =>
    obtain ⟨hv, hl⟩ := hlen t h
    refine ⟨?_, ?_⟩
    · change [t.vec.length] = _
      rw [hv, hl]
    · change (t.vec.toArray).toList = _
      rw [hv, matrix, toReals]

/-- A constant of one entry as a factor. -/
theorem single?_eq_some (h : m.dims = [1, 1]) :
    ∃ x, m.single? = some x ∧ x.dims = [] ∧ x.toReals.get [] = m.matrix.get 0 0 := by
  cases m with
  | truths t =>
    have ht : t.dims = [1, 1] := h
    refine ⟨_, by rw [single?, dif_pos ht], rfl, ?_⟩
    simp [toReals, matrix, realsOfWords, wordsOfTruths, Tensor.map, Tensor.withDims, Tensor.get, Tensor.place,
      Tensor.asRows, Matrix.get, ht]
  | words t =>
    have ht : t.dims = [1, 1] := h
    refine ⟨_, by rw [single?, dif_pos ht], rfl, ?_⟩
    simp [toReals, matrix, realsOfWords, Tensor.map, Tensor.withDims, Tensor.get, Tensor.place,
      Tensor.asRows, Matrix.get, ht]
  | reals t =>
    have ht : t.dims = [1, 1] := h
    refine ⟨_, by rw [single?, dif_pos ht], rfl, ?_⟩
    simp [toReals, matrix, Tensor.withDims, Tensor.get, Tensor.place, Tensor.asRows, Matrix.get, ht]

omit [Zero α] [OfDouble α] in
theorem single?_eq_none (h : m.dims ≠ [1, 1]) : m.single? = none := by
  cases m with
  | truths t => exact dif_neg h
  | words t => exact dif_neg h
  | reals t => exact dif_neg h

end Numbers

end ConicForm
