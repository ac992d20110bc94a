import ConicForm.Proofs.ExtendedRationals
import ConicForm.Proofs.Residuals

/-!
# Residuals that are zero

The residual of a point is that of the inequalities if this is above that of the equalities, and what is no number is
above nothing. So a residual of zero shows that the equalities hold; that the inequalities hold it shows only where
each of them exceeds its right side by a number.
-/

namespace ConicForm

variable {α : Type}

namespace Measured

variable [Zero α] [Sub α] [LE α] [Measured α] [Lawful α] {a e i : α}

theorem norm_nil : norm ([] : List α) = 0 := Lawful.norm_eq_zero_iff.mpr (List.forall_mem_nil _)

theorem positivePart_eq_zero_iff : positivePart a = 0 ↔ a ≤ 0 := by
  refine ⟨fun h => ?_, Lawful.positivePart_of_le⟩
  by_contra ha
  rw [Lawful.positivePart_of_not_le ha] at h
  exact ha (le_of_eq_of_le h Lawful.zero_le_zero)

theorem isNumber_positivePart_iff : IsNumber (positivePart a) ↔ IsNumber a := by
  by_cases ha : a ≤ 0
  · rw [Lawful.positivePart_of_le ha]
    exact iff_of_true Lawful.zero_le_zero (Lawful.isNumber_of_le ha).1
  · rw [Lawful.positivePart_of_not_le ha]

/-! The first of two residuals if it is above the second one -/

theorem isNumber_ite_above_iff : IsNumber (if above i e then i else e) ↔ IsNumber e := by
  split
  · next h =>
    have hnumbers := Lawful.isNumber_of_le (Lawful.above_iff.mp h).1
    exact iff_of_true hnumbers.2 hnumbers.1
  · rfl

theorem ite_above_eq_zero_iff (he : IsNumber e → 0 ≤ e) (hi : IsNumber i → 0 ≤ i) :
    (if above i e then i else e) = 0 ↔ e = 0 ∧ (¬IsNumber i ∨ i = 0) := by
  constructor
  · intro h
    split at h
    · next habove =>
      -- what is above a residual is above zero
      obtain ⟨hle, hnot⟩ := Lawful.above_iff.mp habove
      exact absurd (h ▸ he (Lawful.isNumber_of_le hle).1) hnot
    · next habove =>
      refine ⟨h, or_iff_not_imp_left.mpr fun hnumber => ?_⟩
      have hzero := hi (not_not.mp hnumber)
      by_contra hne
      refine habove (Lawful.above_iff.mpr ⟨h ▸ hzero, fun hle => hne ?_⟩)
      exact Lawful.le_antisymm (h ▸ hle) hzero
  · rintro ⟨h, hi⟩
    split
    · next habove =>
      have hnumber := (Lawful.isNumber_of_le (Lawful.above_iff.mp habove).1).2
      exact hi.resolve_left (not_not.mpr hnumber)
    · exact h

end Measured

theorem Axis.forall_mem_slice_map_range {β : Type} {f : Nat → β} {first count size : Nat} (h : first + count ≤ size)
    (P : β → Prop) : (∀ a ∈ slice ((List.range size).map f) first (first + count), P a) ↔
      ∀ i, first ≤ i → i < first + count → P (f i) := by
  rw [slice_ofNat (by simpa using h)]
  obtain ⟨rest, rfl⟩ := Nat.exists_eq_add_of_le h
  rw [List.range_add, List.range_add, List.append_assoc, List.map_append, List.drop_left' (by simp), List.map_append,
    List.take_left' (by simp), List.map_map, List.forall_mem_map]
  constructor
  · intro hall i hfirst hi
    have hP := hall (i - first) (List.mem_range.mpr (by omega))
    rwa [Function.comp_apply, Nat.add_sub_cancel' hfirst] at hP
  · exact fun hall k hk => hall _ (Nat.le_add_right _ _) (Nat.add_lt_add_left (List.mem_range.mp hk) _)

theorem Axis.slice_self {β : Type} (xs : List β) (first : Nat) : slice xs first (first + (0 : Nat)) = [] :=
  List.eq_nil_of_length_eq_zero (by rw [length_slice]; simp)

namespace Program

/-- A program whose first `m` rows are those of the zero cone and whose other `k` rows are those of the orthant. -/
structure IsLinear [Zero α] (p : Program α) (m k : Nat) : Prop where
  dims_eq : p.dims = ⟨m, k, [], 0⟩
  rows_eq : p.A.rows = m + k
  column : p.b.IsColumn (m + k)

variable [Zero α] [Add α] [Sub α] [Mul α] [OfDouble α] {p : Program α} {x : List α} {m k : Nat}

/-- The left side of a row at a point. -/
def left (p : Program α) (x : List α) (i : Nat) : α := Matrix.dot (p.A.row i) x

/-- The right side of a row. -/
def right (p : Program α) (i : Nat) : α := p.b.toReals.asRows.get i 0

/-- How far the left side of a row is above the right one. -/
def excessAt (p : Program α) (x : List α) (i : Nat) : α := p.left x i - p.right i

namespace IsLinear

theorem forall_mem_excesses_iff (h : p.IsLinear m k) {first count : Nat} (hle : first + count ≤ m + k) (P : α → Prop) :
    (∀ a ∈ Axis.slice (p.excesses x) first (first + count), P a) ↔
      ∀ i, first ≤ i → i < first + count → P (p.excessAt x i) :=
  Axis.forall_mem_slice_map_range (hle.trans h.rows_eq.ge) P

variable [LE α] [Measured α] [Measured.Lawful α]

/-- Where there are no rows of the zero cone, their residual is the norm of nothing, too. -/
theorem eqResidual_eq (h : p.IsLinear m k) (hcols : p.A.cols = x.length) : p.eqResidual x =
    .ok (Measured.norm (Axis.slice (p.excesses x) (0 : Nat) ((0 : Nat) + m))) := by
  rw [Program.eqResidual_eq hcols (h.rows_eq ▸ h.column), h.dims_eq]
  refine congrArg Except.ok ?_
  split
  · exact congrArg _ (congrArg _ (Int.zero_add _).symm)
  · next hm =>
    obtain rfl : m = 0 := by simpa using hm
    rw [Axis.slice_self, Measured.norm_nil]

theorem ineqResidual_eq (h : p.IsLinear m k) (hcols : p.A.cols = x.length) : p.ineqResidual x =
    .ok (Measured.norm ((Axis.slice (p.excesses x) m (m + k)).map Measured.positivePart)) := by
  rw [Program.ineqResidual_eq hcols (h.rows_eq ▸ h.column), h.dims_eq]
  refine congrArg Except.ok ?_
  split
  · rfl
  · next hk =>
    obtain rfl : k = 0 := by simpa using hk
    rw [Axis.slice_self, List.map_nil, Measured.norm_nil]

theorem exists_residuals (h : p.IsLinear m k) (hcols : p.A.cols = x.length) : ∃ r, p.residuals x = .ok r ∧
    r.eq = Measured.norm (Axis.slice (p.excesses x) (0 : Nat) ((0 : Nat) + m)) ∧
    r.ineq = Measured.norm ((Axis.slice (p.excesses x) m (m + k)).map Measured.positivePart) ∧
    r.primal = if Measured.above r.ineq r.eq then r.ineq else r.eq := by
  rw [residuals, h.eqResidual_eq hcols, h.ineqResidual_eq hcols]
  exact ⟨_, rfl, rfl, rfl, rfl⟩

end IsLinear

variable [LE α] [Measured α] [Measured.Lawful α]

/-- At every point there are residuals, and the one that is reported is a number if that of the equalities is, whether
or not that of the inequalities is one. If it is zero the equalities hold, and so do the inequalities if their residual
is a number. -/
theorem zero_residual_certifies (h : p.IsLinear m k) (hcols : p.A.cols = x.length) : ∃ r, p.residuals x = .ok r ∧
    (IsNumber r.primal ↔ IsNumber r.eq) ∧
    (IsNumber r.eq ↔ ∀ i < m, IsNumber (p.excessAt x i)) ∧
    (IsNumber r.ineq ↔ ∀ i, m ≤ i → i < m + k → IsNumber (p.excessAt x i)) ∧
    (r.primal = 0 ↔ (∀ i < m, p.excessAt x i = 0) ∧
      (¬IsNumber r.ineq ∨ ∀ i, m ≤ i → i < m + k → p.excessAt x i ≤ 0)) ∧
    (r.primal = 0 → (∀ i < m, p.left x i = p.right i) ∧
      (IsNumber r.ineq → ∀ i, m ≤ i → i < m + k → p.left x i ≤ p.right i)) := by
  obtain ⟨r, hr, heq, hineq, hprimal⟩ := h.exists_residuals hcols
  have hequalities : ∀ P : α → Prop, (∀ a ∈ Axis.slice (p.excesses x) (0 : Nat) ((0 : Nat) + m), P a) ↔
      ∀ i < m, P (p.excessAt x i) := by
    intro P
    rw [h.forall_mem_excesses_iff (by omega)]
    simp only [Nat.zero_le, Nat.zero_add, forall_const]
  have hzero : r.primal = 0 ↔ (∀ i < m, p.excessAt x i = 0) ∧
      (¬IsNumber r.ineq ∨ ∀ i, m ≤ i → i < m + k → p.excessAt x i ≤ 0) := by
    rw [hprimal, Measured.ite_above_eq_zero_iff (heq ▸ Measured.Lawful.norm_nonneg)
      (hineq ▸ Measured.Lawful.norm_nonneg)]
    refine and_congr ?_ (or_congr_right ?_)
    · rw [heq, Measured.Lawful.norm_eq_zero_iff, hequalities]
    · rw [hineq, Measured.Lawful.norm_eq_zero_iff, List.forall_mem_map]
      simp only [Measured.positivePart_eq_zero_iff]
      exact h.forall_mem_excesses_iff le_rfl (· ≤ 0)
  refine ⟨r, hr, ?_, ?_, ?_, hzero, fun hp => ?_⟩
  · rw [hprimal, Measured.isNumber_ite_above_iff]
  · rw [heq, Measured.Lawful.isNumber_norm_iff, hequalities]
  · rw [hineq, Measured.Lawful.isNumber_norm_iff, List.forall_mem_map]
    simp only [Measured.isNumber_positivePart_iff]
    exact h.forall_mem_excesses_iff le_rfl IsNumber
  · obtain ⟨hall, hbelow⟩ := hzero.mp hp
    refine ⟨fun i hi => Measured.Lawful.eq_of_sub (hall i hi), fun hnumber i hm hi => ?_⟩
    exact Measured.Lawful.le_of_sub (hbelow.resolve_left (not_not.mpr hnumber) i hm hi)

end Program

namespace Sample

/-- The program of one variable that must be two and at least minus three. -/
def band : Program Extended where
  c := [.finite 1]
  d := .reals (.scalar 0)
  A := Matrix.ofFn 2 1 fun i _ => if i = 0 then .finite 1 else .finite (-1)
  b := .reals (.ofList [.finite 2, .finite 3])
  dims := ⟨1, 1, [], 0⟩
  maximize := false

/-- The program of one variable that must not be above zero. -/
def limit : Program Extended where
  c := [.finite 1]
  d := .reals (.scalar 0)
  A := Matrix.ofFn 1 1 fun _ _ => .finite 1
  b := .reals (.ofList [.finite 0])
  dims := ⟨0, 1, [], 0⟩
  maximize := false

end Sample

theorem Program.zero_residual_certifies_band : ∃ r, Sample.band.residuals [.finite 2] = .ok r ∧ r.primal = 0 ∧
    Sample.band.left [.finite 2] 0 = Sample.band.right 0 ∧ Sample.band.left [.finite 2] 1 ≤ Sample.band.right 1 := by
  have hlinear : Sample.band.IsLinear 1 1 := ⟨rfl, rfl, _, rfl, rfl⟩
  obtain ⟨r, hr, _, _, hnumber, hzero, hcertifies⟩ := Program.zero_residual_certifies hlinear (x := [.finite 2]) rfl
  have hineq : IsNumber r.ineq := hnumber.mpr (by decide +kernel)
  have hprimal : r.primal = 0 := hzero.mpr ⟨by decide +kernel, .inr (by decide +kernel)⟩
  obtain ⟨heq, hle⟩ := hcertifies hprimal
  exact ⟨r, hr, hprimal, heq 0 (by decide), hle hineq 1 le_rfl (by decide)⟩

/-- A point that is no number does not meet the row, which leaves a residual that is no number, and zero is reported. -/
theorem Program.undefined_residual_dropped : Sample.limit.residuals [.undefined] = .ok ⟨0, .undefined, 0⟩ ∧
    ¬Sample.limit.left [.undefined] 0 ≤ Sample.limit.right 0 := by
  decide +kernel

end ConicForm
