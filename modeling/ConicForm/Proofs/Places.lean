import ConicForm.Block.Rules
import ConicForm.Proofs.AffineMaps
import Mathlib.Algebra.BigOperators.Group.Finset.Sigma

/-!
# Moves and products, column by column

A value read column by column is `Matrix.flat`. Gathering it at the places that the address map shows
gives the moved value read column by column, putting it to the rows of a band gives these rows, and the
Kronecker products with an identity give the matrix products from the left and from the right.
-/

namespace ConicForm

/-- The entries column by column, with zeros after the last one. -/
def Matrix.flat {α : Type} [Zero α] (m : Matrix α) (k : Nat) : α := m.vec.getD k 0

namespace Grid

/-! Lists of places -/

section places

variable (s : Shape)

theorem get_ofShape {i j : Nat} (hi : i < s.rows) (hj : j < s.cols) :
    @Matrix.get Nat zeroPlace (ofShape s) i j = j * s.rows + i := @Matrix.get_ofFn Nat zeroPlace _ _ _ _ _ hi hj

theorem place_lt_size {i j : Nat} (hi : i < s.rows) (hj : j < s.cols) : j * s.rows + i < s.size := by
  rw [Shape.size, Nat.mul_comm s.rows]
  exact Matrix.place_lt hj hi

theorem forall_mem_lt {places : List Nat} {n : Nat} (h : ∀ k < places.length, places.getD k 0 < n) :
    ∀ p ∈ places, p < n := by
  intro p hp
  obtain ⟨k, hk, rfl⟩ := List.mem_iff_getElem.mp hp
  have := h k hk
  rwa [List.getD_eq_getElem?_getD, List.getElem?_eq_getElem hk] at this

theorem length_transposed : (transposed s).length = s.size :=
  (@Matrix.length_vec Nat zeroPlace _).trans (Nat.mul_comm s.cols s.rows)

theorem getD_transposed {k : Nat} (hk : k < s.size) :
    (transposed s).getD k 0 = (k % s.cols) * s.rows + k / s.cols := by
  have hk' : k < s.cols * s.rows := by rwa [Nat.mul_comm]
  obtain ⟨hj, hi⟩ := Matrix.place_lt_size hk'
  exact (@Matrix.getD_vec_ofFn Nat zeroPlace _ _ _ _ hk').trans (get_ofShape s hi hj)

theorem transposed_lt : ∀ p ∈ transposed s, p < s.size := by
  apply forall_mem_lt
  intro k hk
  rw [length_transposed] at hk
  have hk' : k < s.cols * s.rows := by rwa [Nat.mul_comm]
  obtain ⟨hj, hi⟩ := Matrix.place_lt_size hk'
  rw [getD_transposed s hk]
  exact place_lt_size s hi hj

theorem length_selected (rows cols : List Nat) :
    (selected s rows cols).length = rows.length * cols.length := @Matrix.length_vec Nat zeroPlace _

theorem getD_selected {rows cols : List Nat} (hr : ∀ p ∈ rows, p < s.rows) (hc : ∀ q ∈ cols, q < s.cols)
    {k : Nat} (hk : k < rows.length * cols.length) :
    rows.getD (k % rows.length) 0 < s.rows ∧ cols.getD (k / rows.length) 0 < s.cols ∧
      (selected s rows cols).getD k 0 =
        cols.getD (k / rows.length) 0 * s.rows + rows.getD (k % rows.length) 0 := by
  obtain ⟨hi, hj⟩ := Matrix.place_lt_size hk
  have hp : rows.getD (k % rows.length) 0 < s.rows := by
    rw [List.getD_eq_getElem?_getD, List.getElem?_eq_getElem hi]
    exact hr _ (List.getElem_mem hi)
  have hq : cols.getD (k / rows.length) 0 < s.cols := by
    rw [List.getD_eq_getElem?_getD, List.getElem?_eq_getElem hj]
    exact hc _ (List.getElem_mem hj)
  exact ⟨hp, hq, (@Matrix.getD_vec_ofFn Nat zeroPlace _ _ _ _ hk).trans (get_ofShape s hp hq)⟩

theorem selected_lt {rows cols : List Nat} (hr : ∀ p ∈ rows, p < s.rows) (hc : ∀ q ∈ cols, q < s.cols) :
    ∀ p ∈ selected s rows cols, p < s.size := by
  apply forall_mem_lt
  intro k hk
  rw [length_selected] at hk
  obtain ⟨hp, hq, hget⟩ := getD_selected s hr hc hk
  rw [hget]
  exact place_lt_size s hp hq

theorem length_diagonal : (diagonal s).length = min s.rows s.cols := by
  rw [diagonal, Matrix.diagonal, List.length_map, List.length_range]
  rfl

theorem getD_diagonal {k : Nat} (hk : k < min s.rows s.cols) :
    (diagonal s).getD k 0 = k * s.rows + k := by
  rw [diagonal, Matrix.diagonal, getD_map_range]
  exact (if_pos hk).trans (get_ofShape s (by omega) (by omega))

theorem diagonal_lt : ∀ p ∈ diagonal s, p < s.size := by
  apply forall_mem_lt
  intro k hk
  rw [length_diagonal] at hk
  rw [getD_diagonal s hk]
  exact place_lt_size s (by omega) (by omega)

variable {s} {start count : Nat}

theorem length_band (h : start + count ≤ s.rows) : (band s start count).length = count * s.cols := by
  have hc : min (start + count) s.rows - start = count := by omega
  refine (@Matrix.length_vec Nat zeroPlace _).trans ?_
  exact congrArg (· * s.cols) hc

theorem getD_band (h : start + count ≤ s.rows) {k : Nat} (hk : k < count * s.cols) :
    (band s start count).getD k 0 = (k / count) * s.rows + (start + k % count) := by
  obtain ⟨hi, hj⟩ := Matrix.place_lt_size hk
  have hc : min (start + count) (ofShape s).rows - start = count := by
    change min (start + count) s.rows - start = count
    omega
  rw [band, Matrix.rowRange, hc]
  exact (@Matrix.getD_vec_ofFn Nat zeroPlace _ _ _ _ hk).trans (get_ofShape s (by omega) hj)

theorem band_lt (h : start + count ≤ s.rows) : ∀ p ∈ band s start count, p < s.size := by
  apply forall_mem_lt
  intro k hk
  rw [length_band h] at hk
  obtain ⟨hi, hj⟩ := Matrix.place_lt_size hk
  rw [getD_band h hk]
  exact place_lt_size s (by omega) hj

end places

end Grid

namespace Axis

theorem getElem?_of_lastIndexOf? {i k : Nat} {places : List (Option Nat)}
    (h : lastIndexOf? i places = some k) : places[k]? = some (some i) := by
  induction places generalizing k with
  | nil => cases h
  | cons p ps ih =>
    rw [lastIndexOf?] at h
    split at h
    · next l hl =>
      obtain rfl : l + 1 = k := Option.some.inj h
      rw [List.getElem?_cons_succ, ih hl]
    · split at h
      · next hp =>
        obtain rfl : 0 = k := Option.some.inj h
        rw [hp, List.getElem?_cons_zero]
      · cases h

theorem not_mem_of_lastIndexOf? {i : Nat} {places : List (Option Nat)} (h : lastIndexOf? i places = none) :
    some i ∉ places := by
  induction places with
  | nil => exact List.not_mem_nil
  | cons p ps ih =>
    rw [lastIndexOf?] at h
    split at h
    · cases h
    · next hl =>
      split at h
      · cases h
      · next hp =>
        intro hm
        rcases List.mem_cons.mp hm with he | hm
        · exact hp he.symm
        · exact ih hl hm

/-- Rows put to a band are found again in the rows of the band. -/
theorem lastIndexOf?_band {s : Shape} {start count k : Nat} (h : start + count ≤ s.rows) (hk : k < s.size) :
    lastIndexOf? k ((Grid.band s start count).map some) =
      if start ≤ k % s.rows ∧ k % s.rows < start + count then some (k / s.rows * count + (k % s.rows - start))
      else none := by
  have hR : 0 < s.rows := Nat.pos_of_ne_zero fun h0 => by simp [Shape.size, h0] at hk
  cases hl : lastIndexOf? k ((Grid.band s start count).map some) with
  | some l =>
    have hlk : (Grid.band s start count)[l]? = some k := by
      have h := getElem?_of_lastIndexOf? hl
      simpa using h
    have hlt : l < count * s.cols := by
      rw [← Grid.length_band h]
      exact (List.getElem?_eq_some_iff.mp hlk).1
    have hget := Grid.getD_band h hlt
    rw [List.getD_eq_getElem?_getD, hlk, Option.getD_some] at hget
    obtain ⟨hi, _⟩ := Matrix.place_lt_size hlt
    have hi' : start + l % count < s.rows := by omega
    rw [hget, Matrix.mod_place hi', Matrix.div_place hi', if_pos ⟨by omega, by omega⟩, Nat.add_sub_cancel_left,
      Nat.div_add_mod']
  | none =>
    have hnot := not_mem_of_lastIndexOf? hl
    rw [if_neg]
    rintro ⟨h1, h2⟩
    apply hnot
    have hi : k % s.rows - start < count := by omega
    have hj : k / s.rows < s.cols := Nat.div_lt_of_lt_mul hk
    have hlt : k / s.rows * count + (k % s.rows - start) < count * s.cols := by
      rw [Nat.mul_comm count]
      exact Matrix.place_lt hj hi
    have hget := Grid.getD_band h hlt
    rw [Matrix.mod_place hi, Matrix.div_place hi, Nat.add_sub_cancel' h1, Nat.div_add_mod'] at hget
    have hlen : k / s.rows * count + (k % s.rows - start) < (Grid.band s start count).length := by
      rw [Grid.length_band h]
      exact hlt
    rw [List.getD_eq_getElem?_getD, List.getElem?_eq_getElem hlen, Option.getD_some] at hget
    exact List.mem_map.mpr ⟨k, hget ▸ List.getElem_mem hlen, rfl⟩

end Axis

namespace Matrix

open Block (combinations gathered scattered)

variable {α β : Type}

section flat

variable [Zero α] (m : Matrix α)

theorem flat_eq (k : Nat) : m.flat k = m.get (k % m.rows) (k / m.rows) := m.getD_vec k

theorem flat_place {i : Nat} (j : Nat) (hi : i < m.rows) : m.flat (j * m.rows + i) = m.get i j :=
  m.getD_vec_place j hi

theorem flat_map [Zero β] (f : α → β) (hf : f 0 = 0) (k : Nat) : (m.map f).flat k = f (m.flat k) := by
  rw [flat_eq, flat_eq]
  exact get_map f hf m _ _

theorem flat_const {r c k : Nat} (y : α) (hk : k < r * c) : (const r c y).flat k = y := getD_vec_ofFn _ hk

theorem flat_of_le {k : Nat} (h : m.shape.size ≤ k) : m.flat k = 0 := m.getD_vec_of_le h

/-! Moves -/

theorem gathered_transposed {k : Nat} (hk : k < m.shape.size) :
    gathered (Grid.transposed m.shape) m.flat k = m.transposed.flat k := by
  have hk' : k < m.cols * m.rows := by
    rw [Nat.mul_comm]
    exact hk
  obtain ⟨hj, hi⟩ := place_lt_size hk'
  rw [gathered, Grid.getD_transposed _ hk]
  exact (m.flat_place _ hi).trans (getD_vec_ofFn (fun i j => m.get j i) hk').symm

theorem gathered_selected {rows cols : List Nat} (hr : ∀ p ∈ rows, p < m.rows) (hc : ∀ q ∈ cols, q < m.cols)
    {k : Nat} (hk : k < rows.length * cols.length) :
    gathered (Grid.selected m.shape rows cols) m.flat k = (m.submatrix rows cols).flat k := by
  obtain ⟨hp, hq, hget⟩ := Grid.getD_selected m.shape hr hc hk
  rw [gathered, hget]
  exact (m.flat_place _ hp).trans
    (getD_vec_ofFn (fun i j => m.get (rows.getD i 0) (cols.getD j 0)) hk).symm

theorem gathered_diagonal {k : Nat} (hk : k < min m.rows m.cols) :
    gathered (Grid.diagonal m.shape) m.flat k = m.get k k := by
  rw [gathered, Grid.getD_diagonal _ hk]
  exact m.flat_place _ (by omega)

theorem gathered_replicate {n k : Nat} (hk : k < n) :
    gathered (List.replicate n 0) m.flat k = m.get 0 0 := by
  have hp : (List.replicate n 0).getD k 0 = 0 := by simp [List.getD_eq_getElem?_getD, hk]
  rw [gathered, hp, flat_eq, Nat.zero_mod, Nat.zero_div]

/-- The rows of a band show the value put there, all others are zero. -/
theorem scattered_band {s : Shape} {start k : Nat} (hs : start + m.rows ≤ s.rows)
    (hk : k < s.size) : scattered (Grid.band s start m.rows) m.flat k =
      if start ≤ k % s.rows ∧ k % s.rows < start + m.rows then m.get (k % s.rows - start) (k / s.rows)
      else 0 := by
  rw [scattered, Axis.lastIndexOf?_band hs hk]
  split
  · exact m.flat_place _ (by omega)
  · rfl

end flat

/-! Products -/

section products

theorem get_identity [Zero α] [One α] {n i : Nat} (j : Nat) (hi : i < n) :
    (identity n : Matrix α).get i j = if i = j then 1 else 0 := by
  rw [identity, get_ofFn_eq]
  by_cases hj : j < n
  · rw [if_pos ⟨hi, hj⟩]
  · have hne : i ≠ j := by omega
    rw [if_neg (fun h => hj h.2), if_neg hne]

theorem get_kronecker [MulZeroClass α] (m n : Matrix α) {i j : Nat} (hi : i < m.rows * n.rows)
    (hj : j < m.cols * n.cols) : (m.kronecker n).get i j =
      m.get (i / n.rows) (j / n.cols) * n.get (i % n.rows) (j % n.cols) := get_ofFn _ hi hj

variable [CommSemiring α]

/-- `vec (L X) = (I ⊗ L) vec X`. -/
theorem combinations_left (l x : Matrix α) (h : l.cols = x.rows) {k : Nat} (hk : k < l.rows * x.cols) :
    combinations ((identity x.cols).kronecker l).get x.shape.size x.flat k = (l.product x).flat k := by
  obtain ⟨hi, hj⟩ := place_lt_size hk
  have hk' : k < x.cols * l.rows := by rwa [Nat.mul_comm]
  have hsize : x.shape.size = x.cols * x.rows := Nat.mul_comm _ _
  rw [combinations, sum_map_range, hsize, ← h]
  let term (a b : Nat) : α := (if k / l.rows = a then 1 else 0) * l.get (k % l.rows) b * x.get b a
  have hterm : ∀ q ∈ Finset.range (x.cols * l.cols),
      ((identity x.cols).kronecker l).get k q * x.flat q = term (q / l.cols) (q % l.cols) := by
    intro q hq
    rw [get_kronecker (identity x.cols) l hk' (Finset.mem_range.mp hq), get_identity _ hj, flat_eq, h]
  rw [Finset.sum_congr rfl hterm, sum_range_mul _ _ term, flat_eq]
  change _ = (l.product x).get (k % l.rows) (k / l.rows)
  rw [get_product l x _ hi, sum_range_single hj]
  · simp [term]
  · intro a _ hne
    simp [term, hne.symm]

/-- `vec (X R) = (Rᵀ ⊗ I) vec X`. -/
theorem combinations_right (x r : Matrix α) (h : x.cols = r.rows) {k : Nat} (hk : k < x.rows * r.cols) :
    combinations (r.transposed.kronecker (identity x.rows)).get x.shape.size x.flat k =
      (x.product r).flat k := by
  obtain ⟨hi, hj⟩ := place_lt_size hk
  have hk' : k < r.cols * x.rows := by rwa [Nat.mul_comm]
  have hsize : x.shape.size = r.rows * x.rows := by rw [← h]; exact Nat.mul_comm _ _
  rw [combinations, sum_map_range, hsize]
  let term (a b : Nat) : α := r.get a (k / x.rows) * (if k % x.rows = b then 1 else 0) * x.get b a
  have hterm : ∀ q ∈ Finset.range (r.rows * x.rows),
      (r.transposed.kronecker (identity x.rows)).get k q * x.flat q =
        term (q / x.rows) (q % x.rows) := by
    intro q hq
    have hq' := Finset.mem_range.mp hq
    have hqr : q / x.rows < r.rows := (place_lt_size (Nat.mul_comm r.rows x.rows ▸ hq')).2
    have ht : r.transposed.get (k / x.rows) (q / x.rows) = r.get (q / x.rows) (k / x.rows) :=
      get_ofFn _ hj hqr
    rw [get_kronecker r.transposed (identity x.rows) hk' hq', flat_eq]
    change r.transposed.get (k / x.rows) (q / x.rows) * (identity x.rows).get (k % x.rows) (q % x.rows) *
      x.get (q % x.rows) (q / x.rows) = _
    rw [ht, get_identity _ hi]
  rw [Finset.sum_congr rfl hterm, sum_range_mul _ _ term, flat_eq]
  change _ = (x.product r).get (k % x.rows) (k / x.rows)
  rw [get_product x r _ hi, h]
  apply Finset.sum_congr rfl
  intro a _
  rw [sum_range_single hi]
  · simp [term, mul_comm]
  · intro b _ hne
    simp [term, hne.symm]

/-- A row of ones adds up the entries. -/
theorem sum_flat (m : Matrix α) : ∑ k ∈ Finset.range m.shape.size, m.flat k = m.sumEntries := by
  have hsize : m.shape.size = m.cols * m.rows := Nat.mul_comm _ _
  rw [hsize]
  simp only [flat_eq]
  rw [sum_range_mul m.cols m.rows fun j i => m.get i j, Finset.sum_comm, sumEntries, toRows, List.map_map,
    ← sum_map_range]
  rfl

end products

end Matrix

end ConicForm
