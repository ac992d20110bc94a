import ConicForm.Failure

/-!
# Matrices

Dense matrices over any scalar type, stored row by row and also when they have no rows. Each operation
is given by its entries: `Matrix.ofFn` makes a matrix from them and `Matrix.get` reads them, zero
outside the matrix, and `get_ofFn` and `ext_get` say that this view is faithful.
-/

namespace ConicForm

structure Matrix (α : Type) where
  rows : Nat
  cols : Nat
  entries : Array α
  size_entries : entries.size = rows * cols
deriving DecidableEq

namespace Matrix

variable {α β : Type}

def ofFn (rows cols : Nat) (f : Nat → Nat → α) : Matrix α where
  rows := rows
  cols := cols
  entries := Array.ofFn fun k : Fin (rows * cols) => f (k.val / cols) (k.val % cols)
  size_entries := Array.size_ofFn

/-- The entry at a place, and zero where there is none. -/
def get [Zero α] (m : Matrix α) (i j : Nat) : α :=
  if j < m.cols then m.entries.getD (i * m.cols + j) 0 else 0

@[simp] theorem rows_ofFn (r c : Nat) (f : Nat → Nat → α) : (ofFn r c f).rows = r := rfl

@[simp] theorem cols_ofFn (r c : Nat) (f : Nat → Nat → α) : (ofFn r c f).cols = c := rfl

theorem place_lt {r c i j : Nat} (hi : i < r) (hj : j < c) : i * c + j < r * c :=
  Nat.lt_of_lt_of_le (by rw [Nat.succ_mul]; omega) (Nat.mul_le_mul_right c (Nat.succ_le_of_lt hi))

theorem div_place {c i j : Nat} (hj : j < c) : (i * c + j) / c = i := by
  rw [Nat.add_comm, Nat.add_mul_div_right _ _ (by omega), Nat.div_eq_of_lt hj, Nat.zero_add]

theorem mod_place {c i j : Nat} (hj : j < c) : (i * c + j) % c = j := by
  rw [Nat.add_comm, Nat.add_mul_mod_self_right, Nat.mod_eq_of_lt hj]

theorem get_ofFn [Zero α] {r c i j : Nat} (f : Nat → Nat → α) (hi : i < r) (hj : j < c) :
    (ofFn r c f).get i j = f i j := by
  simp [get, ofFn, hj, place_lt hi hj, div_place hj, mod_place hj]

theorem get_of_not_lt [Zero α] (m : Matrix α) {i j : Nat} (h : ¬(i < m.rows ∧ j < m.cols)) :
    m.get i j = 0 := by
  unfold get
  split
  · next hj =>
    have hi : m.rows ≤ i := by omega
    have : m.entries.size ≤ i * m.cols + j := by
      rw [m.size_entries]
      exact Nat.le_trans (Nat.mul_le_mul_right _ hi) (Nat.le_add_right _ _)
    simp [Array.getD_eq_getD_getElem?, Array.getElem?_eq_none this]
  · rfl

theorem ext_get [Zero α] {m n : Matrix α} (hr : m.rows = n.rows) (hc : m.cols = n.cols)
    (h : ∀ i j, i < m.rows → j < m.cols → m.get i j = n.get i j) : m = n := by
  obtain ⟨r, c, a, ha⟩ := m
  obtain ⟨r', c', b, hb⟩ := n
  cases hr
  cases hc
  congr
  apply Array.ext (ha.trans hb.symm)
  intro k hk _
  have hkc : k < r * c := ha ▸ hk
  have hc : 0 < c := Nat.pos_of_ne_zero fun h0 => by simp [h0] at hkc
  have hi : k / c < r := (Nat.div_lt_iff_lt_mul hc).2 hkc
  have hj : k % c < c := Nat.mod_lt _ hc
  have hg := h (k / c) (k % c) hi hj
  simpa [get, hj, Nat.div_add_mod', Array.getD_eq_getD_getElem?, ha, hb, hkc] using hg

def toRows [Zero α] (m : Matrix α) : List (List α) :=
  (List.range m.rows).map fun i => (List.range m.cols).map fun j => m.get i j

def shape (m : Matrix α) : Shape := ⟨m.rows, m.cols⟩

def map [Zero α] (f : α → β) (m : Matrix α) : Matrix β :=
  ofFn m.rows m.cols fun i j => f (m.get i j)

def const (rows cols : Nat) (x : α) : Matrix α := ofFn rows cols fun _ _ => x

def zeros [Zero α] (rows cols : Nat) : Matrix α := const rows cols 0

def identity [Zero α] [One α] (n : Nat) : Matrix α := ofFn n n fun i j => if i = j then 1 else 0

def transposed [Zero α] (m : Matrix α) : Matrix α := ofFn m.cols m.rows fun i j => m.get j i

def diagonal [Zero α] (m : Matrix α) : List α :=
  (List.range (min m.rows m.cols)).map fun i => m.get i i

def submatrix [Zero α] (m : Matrix α) (rows cols : List Nat) : Matrix α :=
  ofFn rows.length cols.length fun i j => m.get (rows.getD i 0) (cols.getD j 0)

/-- Rows `start` to before `stop`, cut to those there are. -/
def rowRange [Zero α] (m : Matrix α) (start stop : Nat) : Matrix α :=
  ofFn (min stop m.rows - start) m.cols fun i j => m.get (start + i) j

/-- The first matrix above the second, both of as many columns. -/
def above [Zero α] (m n : Matrix α) : Matrix α :=
  ofFn (m.rows + n.rows) n.cols fun i j => if i < m.rows then m.get i j else n.get (i - m.rows) j

/-- Matrices of a common width, from top to bottom. -/
def stack [Zero α] (cols : Nat) (ms : List (Matrix α)) : Matrix α :=
  ms.foldr above (zeros 0 cols)

@[simp] theorem cols_stack [Zero α] (cols : Nat) (ms : List (Matrix α)) :
    (stack cols ms).cols = cols := by
  induction ms with
  | nil => rfl
  | cons m ms ih => exact ih

def kronecker [Zero α] [Mul α] (m n : Matrix α) : Matrix α :=
  ofFn (m.rows * n.rows) (m.cols * n.cols) fun i j =>
    m.get (i / n.rows) (j / n.cols) * n.get (i % n.rows) (j % n.cols)

def product [Zero α] [Add α] [Mul α] (m n : Matrix α) : Matrix α :=
  ofFn m.rows n.cols fun i j => ((List.range m.cols).map fun k => m.get i k * n.get k j).sum

def dot [Zero α] [Add α] [Mul α] (x y : List α) : α := (List.zipWith (· * ·) x y).sum

def row [Zero α] (m : Matrix α) (i : Nat) : List α := (List.range m.cols).map fun j => m.get i j

def mulVec [Zero α] [Add α] [Mul α] (m : Matrix α) (x : List α) : Result (List α) :=
  if m.cols = x.length then .ok ((List.range m.rows).map fun i => dot (m.row i) x)
  else .error .mismatch

/-- The entries column by column. -/
def vec [Zero α] (m : Matrix α) : List α :=
  (List.range (m.rows * m.cols)).map fun k => m.get (k % m.rows) (k / m.rows)

/-- Column by column, the entries are those that the transpose holds row by row. -/
theorem vec_eq_toList_transposed [Zero α] (m : Matrix α) : m.vec = m.transposed.entries.toList := by
  refine List.ext_getElem ?_ fun k _ _ => ?_
  · rw [vec, List.length_map, List.length_range, Array.length_toList, m.transposed.size_entries]
    exact Nat.mul_comm m.rows m.cols
  · simp [vec, transposed, ofFn]

/-- The matrix with the given entries, column by column. -/
def ofVec [Zero α] (rows cols : Nat) (x : List α) : Matrix α :=
  ofFn rows cols fun i j => x.getD (j * rows + i) 0

end Matrix

end ConicForm
