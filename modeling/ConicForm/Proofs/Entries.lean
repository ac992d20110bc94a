import ConicForm.Matrix.Rows
import ConicForm.Node.Meaning
import ConicForm.Proofs.Sums

/-!
# Entries of matrices

Each operation on matrices by its entries, with zeros outside. The entries column by column are those at
remainder and quotient by the number of rows, also where there are none.
-/

namespace ConicForm.Matrix

variable {α β : Type} [Zero α]

instance : Nonempty (Matrix α) := ⟨zeros 0 0⟩

theorem get_ofFn_eq (r c i j : Nat) (f : Nat → Nat → α) :
    (ofFn r c f).get i j = if i < r ∧ j < c then f i j else 0 := by
  by_cases h : i < r ∧ j < c
  · rw [get_ofFn f h.1 h.2, if_pos h]
  · rw [get_of_not_lt (ofFn r c f) h, if_neg h]

theorem get_of_rows_le (m : Matrix α) {i : Nat} (j : Nat) (h : m.rows ≤ i) : m.get i j = 0 :=
  m.get_of_not_lt fun hlt => absurd hlt.1 (by omega)

theorem get_of_cols_le (m : Matrix α) (i : Nat) {j : Nat} (h : m.cols ≤ j) : m.get i j = 0 :=
  m.get_of_not_lt fun hlt => absurd hlt.2 (by omega)

theorem get_map [Zero β] (f : α → β) (hf : f 0 = 0) (m : Matrix α) (i j : Nat) :
    (m.map f).get i j = f (m.get i j) := by
  rw [map, get_ofFn_eq]
  split
  · rfl
  · next h => rw [m.get_of_not_lt h, hf]

/-! Column by column -/

@[simp] theorem length_vec (m : Matrix α) : m.vec.length = m.shape.size := by
  simp [vec, shape, Shape.size]

/-- The rows and columns that a place of the column by column order stands for. -/
theorem place_lt_size {r c k : Nat} (h : k < r * c) : k % r < r ∧ k / r < c := by
  have hr : 0 < r := Nat.pos_of_ne_zero fun h0 => by simp [h0] at h
  exact ⟨Nat.mod_lt k hr, Nat.div_lt_of_lt_mul h⟩

theorem getD_vec (m : Matrix α) (k : Nat) : m.vec.getD k 0 = m.get (k % m.rows) (k / m.rows) := by
  rw [vec, getD_map_range]
  split
  · rfl
  · next h =>
    symm
    apply m.get_of_not_lt
    rintro ⟨hi, hj⟩
    have := place_lt hj hi
    rw [Nat.div_add_mod', Nat.mul_comm] at this
    exact h this

theorem getD_vec_place (m : Matrix α) {i : Nat} (j : Nat) (hi : i < m.rows) :
    m.vec.getD (j * m.rows + i) 0 = m.get i j := by
  rw [getD_vec, mod_place hi, div_place hi]

theorem getD_vec_ofFn {r c k : Nat} (f : Nat → Nat → α) (hk : k < r * c) :
    (ofFn r c f).vec.getD k 0 = f (k % r) (k / r) := by
  obtain ⟨hi, hj⟩ := place_lt_size hk
  rw [getD_vec]
  exact get_ofFn f hi hj

theorem getD_vec_of_le (m : Matrix α) {k : Nat} (h : m.rows * m.cols ≤ k) : m.vec.getD k 0 = 0 := by
  rw [vec, getD_map_range, if_neg (by omega)]

theorem get_ofVec (r c : Nat) (x : List α) {i j : Nat} (hi : i < r) (hj : j < c) :
    (ofVec r c x).get i j = x.getD (j * r + i) 0 := get_ofFn _ hi hj

theorem vec_ofVec {r c : Nat} {x : List α} (h : x.length = r * c) : (ofVec r c x).vec = x := by
  apply ext_getD 0
  · rw [length_vec, h]
    rfl
  · intro k hk
    have hk : k < r * c := by simpa [shape, Shape.size, ofVec] using hk
    obtain ⟨hi, hj⟩ := place_lt_size hk
    rw [getD_vec]
    change (ofVec r c x).get (k % r) (k / r) = _
    rw [get_ofVec r c x hi hj, Nat.div_add_mod']

/-! Rows, products and stacks -/

theorem getD_row (m : Matrix α) (i j : Nat) : (m.row i).getD j 0 = m.get i j := by
  rw [row, getD_map_range]
  split
  · rfl
  · next h => exact (m.get_of_cols_le i (by omega)).symm

@[simp] theorem length_row (m : Matrix α) (i : Nat) : (m.row i).length = m.cols := by simp [row]

theorem get_gatherRows (m : Matrix α) (places : List Nat) {i : Nat} (j : Nat) (hi : i < places.length) :
    (m.gatherRows places).get i j = m.get (places.getD i 0) j := by
  rw [gatherRows, get_ofFn_eq]
  split
  · rfl
  · next h => exact (m.get_of_cols_le _ (by omega)).symm

theorem get_scatterRows (m : Matrix α) (places : List (Option Nat)) {size i : Nat} (j : Nat)
    (hi : i < size) : (m.scatterRows places size).get i j =
      (Axis.lastIndexOf? i places).elim 0 fun k => m.get k j := by
  rw [scatterRows, get_ofFn_eq]
  cases Axis.lastIndexOf? i places with
  | none => exact ite_self _
  | some k =>
    split
    · rfl
    · next h => exact (m.get_of_cols_le _ (by omega)).symm

theorem get_above (m n : Matrix α) (h : m.cols = n.cols) (i j : Nat) :
    (m.above n).get i j = if i < m.rows then m.get i j else n.get (i - m.rows) j := by
  rw [above, get_ofFn_eq]
  split
  · rfl
  · next hlt =>
    split
    · exact (m.get_of_cols_le i (by omega)).symm
    · exact (n.get_of_not_lt (by omega)).symm

theorem get_beside (m n : Matrix α) (h : m.rows = n.rows) (i j : Nat) :
    (m.beside n).get i j = if j < m.cols then m.get i j else n.get i (j - m.cols) := by
  rw [beside, get_ofFn_eq]
  split
  · rfl
  · next hlt =>
    split
    · exact (m.get_of_rows_le j (by omega)).symm
    · exact (n.get_of_not_lt (by omega)).symm

theorem dot_row [NonUnitalNonAssocSemiring β] (m : Matrix β) (i : Nat) (y : List β) :
    dot (m.row i) y = ∑ j ∈ Finset.range m.cols, m.get i j * y.getD j 0 := by
  rw [dot_eq_sum, length_row]
  simp only [getD_row]

theorem get_product [NonUnitalNonAssocSemiring β] (m n : Matrix β) {i : Nat} (j : Nat) (hi : i < m.rows) :
    (m.product n).get i j = ∑ k ∈ Finset.range m.cols, m.get i k * n.get k j := by
  rw [product, get_ofFn_eq]
  split
  · rfl
  · next h =>
    have hj : n.cols ≤ j := by omega
    simp [n.get_of_cols_le _ hj]

end ConicForm.Matrix
