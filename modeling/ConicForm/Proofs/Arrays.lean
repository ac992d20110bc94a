import ConicForm.Block
import ConicForm.Proofs.Entries
import ConicForm.Total
import Mathlib.Data.List.GetD

/-!
# Arrays as matrices

An array with one or two axes is a matrix with one row for each place along the first axis. Here every
operation on such arrays is one on their matrices: it answers, its dimensions are known, and so are the
entries of its matrix.
-/

namespace ConicForm

@[simp] theorem volume_nil : volume [] = 1 := rfl

@[simp] theorem volume_singleton (n : Nat) : volume [n] = n := by simp [volume]

namespace Tensor

variable {α β : Type} {r c : Nat} {tail : List Nat}

theorem rows_asRows {t : Tensor α} (h : t.dims = r :: tail) : t.asRows.rows = r := by
  simp [asRows, length, h]

theorem cols_asRows {t : Tensor α} (h : t.dims = r :: tail) : t.asRows.cols = volume tail := by
  simp [asRows, h]

theorem length_of_dims {t : Tensor α} (h : t.dims = r :: tail) : t.length = r := by
  simp [length, h]

theorem length_toList {t : Tensor α} (h : t.dims = [r]) : t.toList.length = r := by
  rw [toList, Array.length_toList, t.size_entries, h, volume_singleton]

@[simp] theorem asRows_ofMatrix (m : Matrix α) : (ofMatrix m).asRows = m := asRows_ofRows _ _ _

instance : Nonempty (Tensor α) := ⟨.ofList []⟩

variable [Zero α]

theorem getD_toList {t : Tensor α} (h : t.dims = [r]) (i : Nat) : t.toList.getD i 0 = t.asRows.get i 0 := by
  simp [Matrix.get, asRows, h, toList, Array.getD_eq_getD_getElem?, List.getD_eq_getElem?_getD]

theorem get_asRows_map [Zero β] (f : α → β) (hf : f 0 = 0) (t : Tensor α) (i j : Nat) :
    (t.map f).asRows.get i j = f (t.asRows.get i j) := by
  change (if j < volume t.dims.tail then (t.entries.map f).getD (i * volume t.dims.tail + j) 0 else 0) =
    f (if j < volume t.dims.tail then t.entries.getD (i * volume t.dims.tail + j) 0 else 0)
  split
  · rw [← hf, Array.getD_eq_getD_getElem?, Array.getD_eq_getD_getElem?, Array.getElem?_map,
      Option.getD_map]
  · exact hf.symm

/-- An operation that does not keep zero is seen at the entries that there are. -/
theorem get_asRows_map_of_lt [Zero β] (f : α → β) {t : Tensor α} (ht : t.dims = r :: tail) {i j : Nat}
    (hi : i < r) (hj : j < volume tail) : (t.map f).asRows.get i j = f (t.asRows.get i j) := by
  have hsize : t.entries.size = r * volume tail := by rw [t.size_entries, ht]; rfl
  have hk : i * volume tail + j < t.entries.size := hsize ▸ Matrix.place_lt hi hj
  change (if j < volume t.dims.tail then (t.entries.map f).getD (i * volume t.dims.tail + j) 0 else 0) =
    f (if j < volume t.dims.tail then t.entries.getD (i * volume t.dims.tail + j) 0 else 0)
  simp [ht, hj, Array.getD_eq_getD_getElem?, hk]

/-- The matrix of an array given by its entries. -/
theorem get_asRows_ofFn (f : List Nat → α) {i j : Nat} (hi : i < r) (hj : j < c) :
    (ofFn [r, c] f).asRows.get i j = f [i, j] := by
  have hv : volume [r, c] = r * c := by simp [volume]
  have hk : i * c + j < volume [r, c] := hv ▸ Matrix.place_lt hi hj
  have hx : indexOf [r, c] (i * c + j) = [i, j] := by
    simp [indexOf, volume, Matrix.div_place hj, Matrix.mod_place hj]
  change (if j < volume [c] then (Array.ofFn fun k : Fin (volume [r, c]) => f (indexOf [r, c] k)).getD
    (i * volume [c] + j) 0 else 0) = _
  rw [volume_singleton, if_pos hj, Array.getD_eq_getD_getElem?, Array.getElem?_ofFn, dif_pos hk]
  exact congrArg f hx

/-- An array with two axes is read at a row and a column. -/
theorem get_eq_get_asRows {t : Tensor α} (h : t.dims = [r, c]) (i : Nat) {j : Nat} (hj : j < c) :
    t.get [i, j] = t.asRows.get i j := by
  change t.entries.getD (place t.dims [i, j]) 0 =
    if j < volume t.dims.tail then t.entries.getD (i * volume t.dims.tail + j) 0 else 0
  simp [h, place, hj]

/-! Entry by entry -/

theorem zipWith_scalar (f : α → α → α) {s t : Tensor α} (hs : s.dims = []) (ht : t.dims = r :: tail) :
    s.zipWith f t = .ok (t.map (f (s.get []))) := by
  have hne : ¬s.dims = t.dims := by simp [hs, ht]
  have hr : s.rank = 0 := by simp [rank, hs]
  rw [zipWith, dif_neg hne, if_pos hr]

theorem zipWith_same (f : α → α → α) {s t : Tensor α} (h : s.dims = t.dims) :
    s.zipWith f t = .ok (combine f s t h) := by rw [zipWith, dif_pos h]

theorem get_asRows_combine (f : α → α → α) (hf : f 0 0 = 0) {s t : Tensor α} (h : s.dims = t.dims)
    (i j : Nat) : (combine f s t h).asRows.get i j = f (s.asRows.get i j) (t.asRows.get i j) := by
  change (if j < volume s.dims.tail then
      (Array.zipWith f s.entries t.entries).getD (i * volume s.dims.tail + j) 0 else 0) =
    f (if j < volume s.dims.tail then s.entries.getD (i * volume s.dims.tail + j) 0 else 0)
      (if j < volume t.dims.tail then t.entries.getD (i * volume t.dims.tail + j) 0 else 0)
  rw [← h]
  split
  · next hj =>
    have hsize : s.entries.size = t.entries.size := by rw [s.size_entries, t.size_entries, h]
    simp only [Array.getD_eq_getD_getElem?, Array.getElem?_zipWith]
    by_cases hk : i * volume s.dims.tail + j < s.entries.size
    · simp [hk, hsize ▸ hk]
    · have hk' : ¬i * volume s.dims.tail + j < t.entries.size := hsize ▸ hk
      simp [hk, hk', hf]
  · exact hf.symm

theorem get_asRows_combine_of_lt (f : α → α → α) {s t : Tensor α} (h : s.dims = t.dims)
    (hs : s.dims = r :: tail) {i j : Nat} (hi : i < r) (hj : j < volume tail) :
    (combine f s t h).asRows.get i j = f (s.asRows.get i j) (t.asRows.get i j) := by
  have hsize : s.entries.size = r * volume tail := by rw [s.size_entries, hs]; rfl
  have hk : i * volume tail + j < s.entries.size := hsize ▸ Matrix.place_lt hi hj
  have hk' : i * volume tail + j < t.entries.size := by rwa [t.size_entries, ← h, ← s.size_entries]
  change (if j < volume s.dims.tail then
      (Array.zipWith f s.entries t.entries).getD (i * volume s.dims.tail + j) 0 else 0) =
    f (if j < volume s.dims.tail then s.entries.getD (i * volume s.dims.tail + j) 0 else 0)
      (if j < volume t.dims.tail then t.entries.getD (i * volume t.dims.tail + j) 0 else 0)
  rw [← h]
  simp [hs, hj, Array.getD_eq_getD_getElem?, hk, hk']

theorem commonDimensions_column (r c : Nat) : commonDimensions [r, 1] [r, c] = some [r, c] := by
  have hcols : commonDimension 1 c = some c := by
    unfold commonDimension
    split
    · next h => rw [h]
    · rfl
  have hrows : commonDimension r r = some r := if_pos rfl
  simp [commonDimensions, commonReversed, hcols, hrows]

/-- A column beside a matrix: each of its entries goes with a whole row. -/
theorem zipWith_column (f : α → α → α) {s t : Tensor α} (hs : s.dims = [r, 1])
    (ht : t.dims = [r, c]) :
    ∃ u, s.zipWith f t = .ok u ∧ u.dims = [r, c] ∧
      ∀ i j, i < r → j < c → u.asRows.get i j = f (s.asRows.get i 0) (t.asRows.get i j) := by
  by_cases hc : c = 1
  · subst hc
    have h : s.dims = t.dims := hs.trans ht.symm
    refine ⟨combine f s t h, zipWith_same f h, hs, ?_⟩
    intro i j hi hj
    rw [get_asRows_combine_of_lt f h hs hi (by simpa using hj), Nat.lt_one_iff.mp hj]
  · have hne : ¬s.dims = t.dims := by simp [hs, ht, Ne.symm hc]
    have hr : ¬s.rank = 0 := by simp [rank, hs]
    refine ⟨_, ?_, dims_ofFn [r, c] fun index => f (s.getRepeated index) (t.getRepeated index), ?_⟩
    · rw [zipWith, dif_neg hne, if_neg hr, hs, ht, commonDimensions_column]
    · intro i j hi hj
      rw [get_asRows_ofFn _ hi hj]
      have hi0 : (if r = 1 then 0 else i) = i := by split <;> omega
      have hj0 : (if c = 1 then 0 else j) = j := if_neg hc
      have hx : s.getRepeated [i, j] = s.get [i, 0] := by
        simp [getRepeated, rank, hs, repeatedIndex, hi0]
      have hy : t.getRepeated [i, j] = t.get [i, j] := by
        simp [getRepeated, rank, ht, repeatedIndex, hi0, hj0]
      rw [hx, hy, get_eq_get_asRows hs i Nat.one_pos, get_eq_get_asRows ht i hj]

/-! Products -/

theorem product_eq [Add α] [Mul α] {p q : Nat} {s t : Tensor α} (hs : s.dims = [p, q])
    (ht : t.dims = q :: tail) (hl : tail.length ≤ 1) :
    ∃ u, s.product t = .ok u ∧ u.dims = p :: tail ∧ u.asRows = s.asRows.product t.asRows := by
  have hr : ¬(s.rank = 0 ∨ t.rank = 0) := by simp [rank, hs, ht]
  have h2 : s.rank = 2 ∧ t.rank ≤ 2 := by simp [rank, hs, ht]; omega
  have hc : s.asRows.cols = t.length := by rw [cols_asRows hs, length_of_dims ht, volume_singleton]
  have hd : s.asRows.rows :: t.dims.tail = p :: tail := by rw [rows_asRows hs, ht]; rfl
  refine ⟨ofRows t.dims.tail (s.asRows.product t.asRows) rfl, ?_, hd, asRows_ofRows _ _ _⟩
  simp only [product, if_neg hr, if_pos h2, if_pos hc]
  rfl

theorem kronecker_eq [Mul α] {s t : Tensor α} (hs : s.rank = 2) (ht : t.rank = 2) :
    s.kronecker t = ofMatrix (s.asRows.kronecker t.asRows) := by
  have hpad : ∀ u : Tensor α, u.rank = 2 → ∀ h, u.withDims (padded 2 u.dims) h = u := by
    rintro ⟨d, e, he⟩ hu h
    have hd : padded 2 d = d := by simp [padded, show d.length = 2 from hu]
    simp only [withDims]
    congr
  have hm : max s.rank t.rank = 2 := by simp [hs, ht]
  unfold kronecker
  simp only [hm, if_true]
  rw [hpad s hs, hpad t ht]

/-! Rows -/

theorem selectRows_ofPlaces {t : Tensor α} (ht : t.dims = r :: tail) {places : List Nat}
    (hp : ∀ p ∈ places, p < r) : ∃ u, t.selectRows (.ofPlaces places) = .ok u ∧
      u.dims = places.length :: tail ∧ u.asRows = t.asRows.gatherRows places := by
  have hs : (places.map fun n : Nat => (n : Int)).map (Axis.source t.length) = places := by
    rw [length_of_dims ht, List.map_map]
    exact (List.map_congr_left fun p h => Axis.source_ofNat (hp p h)).trans (List.map_id _)
  have hn : ¬(t.length = 0 ∧ places.length * t.asRows.cols ≠ 0) := by
    rintro ⟨h0, hne⟩
    cases places with
    | nil => simp at hne
    | cons p ps =>
      have := hp p List.mem_cons_self
      rw [length_of_dims ht] at h0
      omega
  have hr : ¬t.rank = 0 := by simp [rank, ht]
  have hd : places.length :: t.dims.tail = places.length :: tail := by rw [ht]; rfl
  refine ⟨ofRows t.dims.tail (t.asRows.gatherRows places) rfl, ?_, hd, asRows_ofRows _ _ _⟩
  change t.takeRows ((places.map fun n : Nat => (n : Int)).map (Axis.source t.length)) = _
  rw [hs, takeRows, if_neg hr, if_neg hn]

theorem get_zeros (dims : List Nat) (i j : Nat) : (zeros dims : Tensor α).asRows.get i j = 0 := by
  change (if j < volume dims.tail then
    (Array.replicate (volume dims) (0 : α)).getD (i * volume dims.tail + j) 0 else 0) = 0
  split
  · rw [Array.getD_eq_getD_getElem?, Array.getElem?_replicate]
    split <;> rfl
  · rfl

end Tensor

/-- Places that there are, are what rows are put to. -/
theorem Selector.targets_ofPlaces {places : List Nat} {size : Nat} (hp : ∀ p ∈ places, p < size) :
    ∃ targets : Tensor (Option Nat), (ofPlaces places).targets size = .ok targets ∧
      targets.dims = [places.length] ∧ targets.toList = places.map some := by
  refine ⟨_, rfl, by simp [Tensor.map, Tensor.ofList], ?_⟩
  simp only [Tensor.map, Tensor.toList, Tensor.ofList, List.map_toArray, List.map_map]
  exact List.map_congr_left fun p hlt => Axis.target?_ofNat (hp p hlt)

namespace Axis

theorem lastIndexOf?_lt {i k : Nat} {places : List (Option Nat)} (h : lastIndexOf? i places = some k) :
    k < places.length := by
  induction places generalizing k with
  | nil => simp [lastIndexOf?] at h
  | cons p ps ih =>
    simp only [lastIndexOf?] at h
    split at h
    · next l hl =>
      have := ih hl
      simp only [Option.some.injEq] at h
      simp only [List.length_cons]
      omega
    · split at h <;> simp at h
      simp [← h]

end Axis

namespace Tensor

variable {α : Type} {r : Nat} {tail : List Nat} [Zero α]

/-- Rows put to places: each place shows the last row put there, and zeros if there is none. -/
theorem putRows_eq {t : Tensor α} (ht : t.dims = r :: tail) {places : Tensor (Option Nat)}
    (hp : places.dims = [r]) (size : Nat) :
    ∃ u, t.putRows tail places size = .ok u ∧ u.dims = size :: tail ∧
      ∀ i j, i < size → u.asRows.get i j =
        (Axis.lastIndexOf? i places.toList).elim 0 fun k => t.asRows.get k j := by
  have hlen : places.entries.size = r := by rw [places.size_entries, hp, volume_singleton]
  have hlt : ∀ {i k}, Axis.lastIndexOf? i places.toList = some k → k < r := by
    intro i k hk
    have := Axis.lastIndexOf?_lt hk
    rwa [toList, Array.length_toList, hlen] at this
  by_cases h0 : places.entries.size * volume tail = 0
  · refine ⟨zeros (size :: tail), by rw [putRows, if_pos h0]; rfl, rfl, ?_⟩
    intro i j _
    rw [get_zeros]
    cases hk : Axis.lastIndexOf? i places.toList with
    | none => rfl
    | some k =>
      have := hlt hk
      have hv : volume tail = 0 := (Nat.mul_eq_zero.mp h0).resolve_left (by omega)
      exact (t.asRows.get_of_cols_le _ (by rw [cols_asRows ht, hv]; omega)).symm
  · let rows := Matrix.ofFn places.entries.size (volume tail) fun i j =>
      t.entries.getD (i * volume tail + j) 0
    have hd : t.dims = places.dims ++ tail := by rw [ht, hp]; rfl
    have hw : (rows.scatterRows places.toList size).cols = volume tail := rfl
    refine ⟨ofRows tail (rows.scatterRows places.toList size) hw, ?_, rfl, ?_⟩
    · rw [putRows, if_neg h0, repeatTo, if_pos hd]
      rfl
    · intro i j hi
      rw [asRows_ofRows, Matrix.get_scatterRows _ _ _ hi]
      cases hk : Axis.lastIndexOf? i places.toList with
      | none => rfl
      | some k =>
        change rows.get k j = t.asRows.get k j
        rw [Matrix.get_ofFn_eq]
        simp [Matrix.get, asRows, ht, hlen, hlt hk]

end Tensor

/-- The column of several columns one below the other, each given by its length and its entries. -/
def joined {α : Type} [Zero α] : List (Nat × (Nat → α)) → Nat → α
  | [], _ => 0
  | (n, u) :: rest, i => if i < n then u i else joined rest (i - n)

section columns

variable {α β γ : Type} {xs : List β}

theorem length_flatMap_eq {f : β → List γ} {size : β → Nat}
    (h : ∀ x ∈ xs, (f x).length = size x) : (xs.flatMap f).length = total (xs.map size) := by
  induction xs with
  | nil => rfl
  | cons x xs ih =>
    rw [List.flatMap_cons, List.length_append, h x List.mem_cons_self,
      ih fun y hy => h y (List.mem_cons_of_mem x hy), List.map_cons, total_cons]

theorem joined_eq_getD [Zero α] {size : β → Nat} {u : β → Nat → α} {f : β → List α}
    (hl : ∀ x ∈ xs, (f x).length = size x) (hu : ∀ x ∈ xs, ∀ k < size x, u x k = (f x).getD k 0) (i : Nat) :
    joined (xs.map fun x => (size x, u x)) i = (xs.flatMap f).getD i 0 := by
  induction xs generalizing i with
  | nil => rfl
  | cons x xs ih =>
    have hx := hl x List.mem_cons_self
    rw [List.map_cons, joined, List.flatMap_cons,
      ih (fun y hy => hl y (List.mem_cons_of_mem x hy)) fun y hy => hu y (List.mem_cons_of_mem x hy)]
    by_cases hi : i < size x
    · rw [if_pos hi, List.getD_append _ _ _ _ (by omega), hu x List.mem_cons_self i hi]
    · rw [if_neg hi, List.getD_append_right _ _ _ _ (by omega), hx]

/-- An entry of parts one below the other that stands in one of them. -/
theorem joined_part [Zero α] {before after : List β} {x : β} {size : β → Nat} {u : β → Nat → α} {k : Nat}
    (hk : k < size x) :
    joined ((before ++ x :: after).map fun y => (size y, u y)) (total (before.map size) + k) = u x k := by
  induction before with
  | nil => rw [List.nil_append, List.map_cons, joined, List.map_nil, total_nil, Nat.zero_add, if_pos hk]
  | cons y before ih =>
    rw [List.cons_append, List.map_cons, joined, List.map_cons, total_cons, if_neg (by omega), Nat.add_assoc,
      Nat.add_sub_cancel_left]
    exact ih

end columns

namespace Matrix

variable {α : Type} [Zero α]

theorem rows_stack (cols : Nat) (ms : List (Matrix α)) :
    (stack cols ms).rows = total (ms.map rows) := by
  induction ms with
  | nil => rfl
  | cons m ms ih => exact congrArg (m.rows + ·) ih

theorem get_stack {cols : Nat} {ms : List (Matrix α)} (h : ∀ m ∈ ms, m.cols = cols) (i j : Nat) :
    (stack cols ms).get i j = joined (ms.map fun m => (m.rows, fun k => m.get k j)) i := by
  induction ms generalizing i with
  | nil => exact get_of_rows_le _ _ (Nat.zero_le i)
  | cons m ms ih =>
    have hc : m.cols = (stack cols ms).cols := by rw [cols_stack, h m List.mem_cons_self]
    change (m.above (stack cols ms)).get i j = _
    rw [get_above m _ hc, ih fun n hn => h n (List.mem_cons_of_mem m hn)]
    rfl

/-- An entry of matrices one below the other that stands in one of them. -/
theorem get_stack_part {β : Type} {cols : Nat} {before after : List β} {x : β} {f : β → Matrix α} {size : β → Nat}
    (h : ∀ y ∈ before ++ x :: after, (f y).rows = size y ∧ (f y).cols = cols) {i : Nat} (hi : i < size x) (j : Nat) :
    (stack cols ((before ++ x :: after).map f)).get (total (before.map size) + i) j = (f x).get i j := by
  have hparts : ((before ++ x :: after).map f).map (fun m => (m.rows, fun k => m.get k j)) =
      (before ++ x :: after).map fun y => (size y, fun k => (f y).get k j) := by
    rw [List.map_map]
    exact List.map_congr_left fun y hy => Prod.ext (h y hy).1 rfl
  rw [get_stack (List.forall_mem_map.mpr fun y hy => (h y hy).2), hparts, joined_part hi]

end Matrix

namespace Tensor

variable {α : Type} {tail : List Nat} [Zero α]

theorem joinRows_eq {ts : List (Tensor α)} (hne : ts ≠ []) (h : ∀ t ∈ ts, ∃ r, t.dims = r :: tail) :
    ∃ u, joinRows ts = .ok u ∧ u.dims = total (ts.map length) :: tail ∧
      u.asRows = Matrix.stack (volume tail) (ts.map asRows) := by
  obtain ⟨t, rest, rfl⟩ := List.exists_cons_of_ne_nil hne
  obtain ⟨r, ht⟩ := h t List.mem_cons_self
  have hr : ¬t.rank = 0 := by simp [rank, ht]
  have hall : ((t :: rest).all fun u => u.rank == t.rank && u.dims.tail == t.dims.tail) = true := by
    rw [List.all_eq_true]
    intro u hu
    obtain ⟨r', hu⟩ := h u hu
    simp [rank, hu, ht]
  have htail : t.dims.tail = tail := by rw [ht]; rfl
  subst htail
  refine ⟨_, by rw [joinRows, if_neg hr, if_pos hall], ?_, asRows_ofRows _ _ _⟩
  rw [dims_ofRows, Matrix.rows_stack, List.map_map]
  rfl

theorem joinRows_map {β : Type} {xs : List β} {f : β → Tensor α} (size : β → Nat) (tail : List Nat) (hne : xs ≠ [])
    (h : ∀ x ∈ xs, (f x).dims = size x :: tail) :
    ∃ u, joinRows (xs.map f) = .ok u ∧ u.dims = total (xs.map size) :: tail ∧
      ∀ i j, u.asRows.get i j = joined (xs.map fun x => (size x, fun k => (f x).asRows.get k j)) i := by
  have hd : ∀ t ∈ xs.map f, ∃ r, t.dims = r :: tail := by
    intro t ht
    obtain ⟨x, hx, rfl⟩ := List.mem_map.mp ht
    exact ⟨_, h x hx⟩
  obtain ⟨u, hu, hdu, hrows⟩ := joinRows_eq (fun he => hne (List.map_eq_nil_iff.mp he)) hd
  have hl : (xs.map f).map length = xs.map size := by
    rw [List.map_map]
    exact List.map_congr_left fun x hx => length_of_dims (h x hx)
  refine ⟨u, hu, by rw [hdu, hl], fun i j => ?_⟩
  rw [hrows, Matrix.get_stack, List.map_map, List.map_map]
  · congr 1
    exact List.map_congr_left fun x hx => Prod.ext (rows_asRows (h x hx)) rfl
  · intro m hm
    obtain ⟨t, ht, rfl⟩ := List.mem_map.mp hm
    obtain ⟨r, hr⟩ := hd t ht
    exact cols_asRows hr

end Tensor

namespace Numbers

variable {α : Type} [Zero α] [OfDouble α]

theorem combine_reals (onTruths : Bool → Bool → Bool) (onWords : Int → Int → Int) (onReals : α → α → α)
    (a : Numbers α) (t : Tensor α) : combine onTruths onWords onReals a (.reals t) =
      (a.toReals.zipWith onReals t).map .reals := by
  cases a <;> rfl

theorem joinRows_reals {ts : List (Tensor α)} (hne : ts ≠ []) :
    joinRows (ts.map .reals) = (Tensor.joinRows ts).map (Numbers.reals (α := α)) := by
  obtain ⟨t, rest, rfl⟩ := List.exists_cons_of_ne_nil hne
  have hr : ((t :: rest).map Numbers.reals).map Numbers.toReals = t :: rest := by
    rw [List.map_map]
    exact List.map_id _
  rw [joinRows, List.map_cons, List.mapM_cons, List.mapM_cons, ← List.map_cons, hr]
  rfl

end Numbers

end ConicForm
