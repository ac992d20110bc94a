import ConicForm.Program
import ConicForm.Proofs.RowLayout
import ConicForm.Proofs.Stacking
import ConicForm.Residual
import Mathlib.Algebra.Field.Defs

/-!
# Slack

The slack of a program at a point is `b - A x`. Rows that give certain values are stated either with the
offsets negated or with the coefficients negated, and parts one above the other leave what they leave one
after the other.
-/

namespace ConicForm

variable {α : Type}

theorem getD_map_neg [Ring α] (xs : List α) (i : Nat) : (xs.map Neg.neg).getD i 0 = -xs.getD i 0 := by
  rw [List.getD_eq_getElem?_getD, List.getD_eq_getElem?_getD, List.getElem?_map]
  cases xs[i]? with
  | none => exact neg_zero.symm
  | some x => rfl

/-- The sign with which the entries of a member of a cone stand in the rows. -/
def Cone.signed [Neg α] (c : Cone) (x : List α) : List α :=
  match c with
  | .eq => x.map Neg.neg
  | .leq => x.map Neg.neg
  | .soc => x
  | .exp => x

@[simp] theorem Cone.length_signed [Neg α] (c : Cone) (x : List α) : (c.signed x).length = x.length := by
  cases c with
  | eq => exact List.length_map _
  | leq => exact List.length_map _
  | soc => rfl
  | exp => rfl

theorem Cone.length_signed_vec [Zero α] [Neg α] (c : Cone) {m : Matrix α} {n : Node α} (h : m.shape = n.shape) :
    (c.signed m.vec).length = n.size := by
  rw [length_signed, Matrix.length_vec, h]
  rfl

namespace Program

variable [Field α]

/-- Rows that have certain values at a point. -/
structure Rows.Gives (r : Rows α) (y values : List α) : Prop where
  rows_eq : r.G.rows = values.length
  cols_eq : r.G.cols = y.length
  value_eq : ∃ t, r.g = .reals t ∧ t.dims = [values.length] ∧
    ∀ i, Matrix.dot (r.G.row i) y + t.asRows.get i 0 = values.getD i 0

/-- Rows whose right sides are above the left ones by certain values at a point. -/
structure Part.Leaves (q : Part α) (y s : List α) : Prop where
  rows_eq : q.A.rows = s.length
  cols_eq : q.A.cols = y.length
  left_eq : ∃ t, q.b = .reals t ∧ t.dims = [s.length] ∧
    ∀ i, t.asRows.get i 0 - Matrix.dot (q.A.row i) y = s.getD i 0

variable {r : Rows α} {y values s : List α}

/-- Rows stated with a negated offset leave the negated values. -/
theorem Rows.Gives.negated (h : r.Gives y values) :
    ∃ b, r.g.negated = .ok b ∧ Part.Leaves ⟨r.G, b⟩ y (values.map Neg.neg) := by
  obtain ⟨t, hg, hd, hv⟩ := h.value_eq
  have hlen : (values.map Neg.neg).length = values.length := List.length_map _
  refine ⟨.reals (t.map Neg.neg), by rw [hg]; rfl, h.rows_eq.trans hlen.symm, h.cols_eq, _, rfl, ?_, ?_⟩
  · rw [hlen]
    exact hd
  · intro i
    rw [getD_map_neg, ← hv, Tensor.get_asRows_map _ neg_zero, neg_add, sub_eq_add_neg, add_comm]

/-- Rows stated with negated coefficients leave the values. -/
theorem Rows.Gives.reversed (h : r.Gives y values) : Part.Leaves ⟨r.G.map Neg.neg, r.g⟩ y values := by
  obtain ⟨t, hg, hd, hv⟩ := h.value_eq
  refine ⟨h.rows_eq, h.cols_eq, t, hg, hd, fun i => ?_⟩
  rw [← hv, Matrix.dot_row, Matrix.dot_row]
  change _ - ∑ k ∈ Finset.range r.G.cols, _ = _
  simp only [Matrix.get_map _ neg_zero, neg_mul, Finset.sum_neg_distrib]
  rw [sub_neg_eq_add, add_comm]

variable [OfDouble α]

/-- Parts one above the other leave what they leave one after the other. -/
theorem Part.leaves_stack {parts : List (Part α × List α)} (hne : parts ≠ [])
    (h : ∀ e ∈ parts, e.1.Leaves y e.2) :
    ∃ b, Numbers.joinRows (parts.map fun e => e.1.b) = .ok b ∧
      Part.Leaves ⟨Matrix.stack y.length (parts.map fun e => e.1.A), b⟩ y (parts.flatMap Prod.snd) := by
  have hoffset : ∀ e ∈ parts, ∃ t, e.1.b = .reals t ∧ t.dims = [e.2.length] := by
    intro e he
    obtain ⟨t, hb, hd, _⟩ := (h e he).left_eq
    exact ⟨t, hb, hd⟩
  obtain ⟨t, ht, hd, hget⟩ := Numbers.joinRows_realColumns (fun e => e.2.length) hne hoffset
  have hlen : (parts.flatMap Prod.snd).length = total (parts.map fun e => e.2.length) :=
    length_flatMap_eq fun _ _ => rfl
  refine ⟨.reals t, ht, ?_, Matrix.cols_stack _ _, t, rfl, hd.trans (by rw [hlen]), fun i => ?_⟩
  · rw [hlen]
    exact Matrix.rows_stack_map fun e he => (h e he).rows_eq
  · have hflat : joined (parts.map fun e => (e.2.length, fun k => e.2.getD k 0)) i =
        (parts.flatMap Prod.snd).getD i 0 := joined_eq_getD (fun _ _ => rfl) (fun _ _ _ _ => rfl) i
    rw [Matrix.dot_row_stack fun e he => ⟨(h e he).rows_eq, (h e he).cols_eq⟩, hget,
      joined_map₂ (· - ·) (sub_zero 0), ← hflat]
    congr 1
    apply List.map_congr_left
    intro e he
    obtain ⟨u, hb, _, hleft⟩ := (h e he).left_eq
    refine Prod.ext rfl (funext fun k => ?_)
    simp only [← hleft, hb]
    rfl

/-- The left sides of rows at a point, by which the right ones are lowered to what the rows leave. -/
theorem Part.Leaves.exists_left {q : Part α} (h : q.Leaves y s) : ∃ left, q.A.mulVec y = .ok left ∧
    left.length = q.b.toReals.toList.length ∧ List.zipWith (· - ·) q.b.toReals.toList left = s := by
  obtain ⟨t, hb, hd, hleft⟩ := h.left_eq
  have hlen : t.toList.length = s.length := Tensor.length_toList hd
  have hmul : q.A.mulVec y = .ok ((List.range q.A.rows).map fun i => Matrix.dot (q.A.row i) y) := if_pos h.cols_eq
  rw [hb]
  refine ⟨_, hmul, by simp [Numbers.toReals, hlen, h.rows_eq], ext_getD 0 ?_ fun k hk => ?_⟩
  · simp [Numbers.toReals, hlen, h.rows_eq]
  · have hk : k < s.length := by simpa [Numbers.toReals, hlen, h.rows_eq] using hk
    have hlt : k < t.toList.length := hlen ▸ hk
    have ht := Tensor.getD_toList hd k
    rw [← hleft, ← ht]
    simp [List.getD_eq_getElem?_getD, Numbers.toReals, h.rows_eq, hk, hlt]

/-- What the right sides are above the left ones at a point: `b - A x`. -/
def slack (p : Program α) (x : List α) : Result (List α) := do
  return List.zipWith (· - ·) p.b.toReals.toList (← p.A.mulVec x)

/-- What the rows of a program leave is its slack. -/
theorem slack_eq {p : Program α} (h : Part.Leaves ⟨p.A, p.b⟩ y s) : p.slack y = .ok s := by
  obtain ⟨left, hmul, _, hs⟩ := h.exists_left
  have hmul : p.A.mulVec y = .ok left := hmul
  rw [slack, hmul]
  exact congrArg Except.ok hs

end Program

end ConicForm
