import ConicForm.Matrix
import Mathlib.Algebra.BigOperators.Group.Finset.Basic
import Mathlib.Algebra.BigOperators.Group.Finset.Piecewise
import Mathlib.Algebra.BigOperators.Ring.Finset

/-!
# Sums over ranges

Totals of lists as sums over ranges of places, where a list has zeros past its end. A range of
`m * n` places is gone through as `m` ranges of `n`, by quotient and remainder.
-/

namespace ConicForm

variable {α β : Type}

theorem sum_map_range [AddCommMonoid α] (n : Nat) (f : Nat → α) :
    ((List.range n).map f).sum = ∑ k ∈ Finset.range n, f k := rfl

theorem getD_map_range (n k : Nat) (f : Nat → α) (d : α) :
    ((List.range n).map f).getD k d = if k < n then f k else d := by
  by_cases h : k < n
  · simp [List.getD_eq_getElem?_getD, h]
  · simp [List.getD_eq_getElem?_getD, h]

/-- Lists with the same entries at all their places are equal. -/
theorem ext_getD {xs ys : List α} (d : α) (hl : xs.length = ys.length)
    (h : ∀ k < xs.length, xs.getD k d = ys.getD k d) : xs = ys := by
  apply List.ext_getElem hl
  intro k hx hy
  have hk := h k hx
  simpa [List.getD_eq_getElem?_getD, hx, hy] using hk

theorem sum_range_mul [AddCommMonoid α] (m n : Nat) (f : Nat → Nat → α) :
    ∑ k ∈ Finset.range (m * n), f (k / n) (k % n) =
      ∑ i ∈ Finset.range m, ∑ j ∈ Finset.range n, f i j := by
  induction m with
  | zero => simp
  | succ m ih =>
    rw [Nat.succ_mul, Finset.sum_range_add, ih, Finset.sum_range_succ]
    congr 1
    apply Finset.sum_congr rfl
    intro j hj
    rw [Matrix.div_place (Finset.mem_range.mp hj), Matrix.mod_place (Finset.mem_range.mp hj)]

/-- A sum whose only term other than zero is at `k`. -/
theorem sum_range_single [AddCommMonoid α] {n k : Nat} (hk : k < n) (f : Nat → α)
    (h : ∀ j < n, j ≠ k → f j = 0) : ∑ j ∈ Finset.range n, f j = f k := by
  apply Finset.sum_eq_single k
  · intro j hj hne
    exact h j (Finset.mem_range.mp hj) hne
  · intro hn
    exact absurd (Finset.mem_range.mpr hk) hn

theorem dot_eq_sum [NonUnitalNonAssocSemiring α] (x y : List α) :
    Matrix.dot x y = ∑ k ∈ Finset.range x.length, x.getD k 0 * y.getD k 0 := by
  induction x generalizing y with
  | nil => rfl
  | cons a x ih =>
    rw [List.length_cons, Finset.sum_range_succ']
    cases y with
    | nil => simp [Matrix.dot]
    | cons b y =>
      have hd : Matrix.dot (a :: x) (b :: y) = a * b + Matrix.dot x y := by simp [Matrix.dot]
      rw [hd, ih, add_comm]
      rfl

end ConicForm
