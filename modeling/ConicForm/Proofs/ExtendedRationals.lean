import ConicForm.Proofs.Rationals

/-!
# Scalars with infinities and without a number

`Measured.Lawful` says what residuals need of scalars of which some are infinite and some are no numbers: what is no
number stands in no order, not even with itself, and makes every norm that it enters no number. Doubles are such
scalars where both zeros are taken for one and no square underflows; so are the rationals with two infinities and one
value that is no number.
-/

namespace ConicForm

/-- Whether a scalar is a number: nothing else has an order with itself. -/
def IsNumber {α : Type} [LE α] (a : α) : Prop := a ≤ a

instance {α : Type} [LE α] [DecidableLE α] (a : α) : Decidable (IsNumber a) := inferInstanceAs (Decidable (a ≤ a))

/-- What is needed of comparisons, differences and norms. -/
class Measured.Lawful (α : Type) [Zero α] [Sub α] [LE α] [Measured α] : Prop where
  isNumber_of_le {a b : α} : a ≤ b → IsNumber a ∧ IsNumber b
  le_antisymm {a b : α} : a ≤ b → b ≤ a → a = b
  zero_le_zero : (0 : α) ≤ 0
  above_iff {a b : α} : Measured.above a b = true ↔ b ≤ a ∧ ¬a ≤ b
  eq_of_sub {a b : α} : a - b = 0 → a = b
  le_of_sub {a b : α} : a - b ≤ 0 → a ≤ b
  norm_eq_zero_iff {xs : List α} : Measured.norm xs = 0 ↔ ∀ x ∈ xs, x = 0
  isNumber_norm_iff {xs : List α} : IsNumber (Measured.norm xs) ↔ ∀ x ∈ xs, IsNumber x
  norm_nonneg {xs : List α} : IsNumber (Measured.norm xs) → 0 ≤ Measured.norm xs
  positivePart_of_le {a : α} : a ≤ 0 → Measured.positivePart a = 0
  positivePart_of_not_le {a : α} : ¬a ≤ 0 → Measured.positivePart a = a

/-- A rational, an infinity, or what is no number. -/
inductive Extended where
  | finite (q : ℚ)
  | infinite (negative : Bool)
  | undefined
deriving DecidableEq

namespace Extended

instance : Zero Extended := ⟨finite 0⟩

instance : Add Extended where
  add
    | .finite p, .finite q => .finite (p + q)
    | .finite _, .infinite t => .infinite t
    | .infinite s, .finite _ => .infinite s
    | .infinite s, .infinite t => if s = t then .infinite s else .undefined
    | _, _ => .undefined

instance : Neg Extended where
  neg
    | .finite q => .finite (-q)
    | .infinite s => .infinite !s
    | .undefined => .undefined

instance : Sub Extended := ⟨fun a b => a + -b⟩

/-- A multiple of an infinity. -/
def stretched (q : ℚ) (negative : Bool) : Extended :=
  if q = 0 then .undefined else .infinite (negative != decide (q < 0))

instance : Mul Extended where
  mul
    | .finite p, .finite q => .finite (p * q)
    | .finite p, .infinite t => stretched p t
    | .infinite s, .finite q => stretched q s
    | .infinite s, .infinite t => .infinite (s != t)
    | _, _ => .undefined

instance : One Extended := ⟨finite 1⟩

instance : Div Extended where
  div
    | .finite p, .finite q => if q = 0 then stretched p false else .finite (p / q)
    | .finite _, .infinite _ => .finite 0
    | .infinite s, .finite q => .infinite (s != decide (q < 0))
    | _, _ => .undefined

instance : AddZeroClass Extended where
  zero_add a := by
    cases a with
    | finite q => exact congrArg finite (zero_add q)
    | infinite => rfl
    | undefined => rfl
  add_zero a := by
    cases a with
    | finite q => exact congrArg finite (add_zero q)
    | infinite => rfl
    | undefined => rfl

instance : LE Extended where
  le
    | .finite p, .finite q => p ≤ q
    | .finite _, .infinite t => t = false
    | .infinite s, .finite _ => s = true
    | .infinite s, .infinite t => s = true ∨ t = false
    | _, _ => False

instance : DecidableLE Extended
  | .finite p, .finite q => inferInstanceAs (Decidable (p ≤ q))
  | .finite _, .infinite t => inferInstanceAs (Decidable (t = false))
  | .infinite s, .finite _ => inferInstanceAs (Decidable (s = true))
  | .infinite s, .infinite t => inferInstanceAs (Decidable (s = true ∨ t = false))
  | .finite _, .undefined => .isFalse id
  | .infinite _, .undefined => .isFalse id
  | .undefined, .finite _ => .isFalse id
  | .undefined, .infinite _ => .isFalse id
  | .undefined, .undefined => .isFalse id

instance : OfDouble Extended where
  ofDouble x :=
    if x.isNaN then .undefined else if x.isInfinite then .infinite x.negative else .finite (ofDouble x)

/-- The square root of what is not negative. -/
def sqrt : Extended → Extended
  | .finite q => .finite (Rat.sqrt q)
  | a => a

instance : Measured Extended where
  norm x := sqrt (x.map fun y => y * y).sum
  positivePart x := if x ≤ 0 then 0 else x
  above x y := decide (y ≤ x ∧ ¬x ≤ y)

@[simp] theorem zero_eq : (0 : Extended) = .finite 0 := rfl

@[simp] theorem finite_le_finite {p q : ℚ} : Extended.finite p ≤ .finite q ↔ p ≤ q := Iff.rfl

@[simp] theorem finite_le_infinite {p : ℚ} {t : Bool} : Extended.finite p ≤ .infinite t ↔ t = false := Iff.rfl

@[simp] theorem infinite_le_finite {s : Bool} {q : ℚ} : Extended.infinite s ≤ .finite q ↔ s = true := Iff.rfl

@[simp] theorem infinite_le_infinite {s t : Bool} : Extended.infinite s ≤ .infinite t ↔ s = true ∨ t = false := Iff.rfl

@[simp] theorem not_le_undefined {a : Extended} : ¬a ≤ .undefined := by cases a <;> exact id

@[simp] theorem not_undefined_le {a : Extended} : ¬.undefined ≤ a := by cases a <;> exact id

theorem isNumber_iff {a : Extended} : IsNumber a ↔ a ≠ .undefined := by
  cases a with
  | finite q => simp [IsNumber]
  | infinite s => cases s <;> simp [IsNumber]
  | undefined => simp [IsNumber]

/-- How large the entries of a list are together, by the sum of their squares or by its root: none of them may be no
number, and they are nothing together only if each is. -/
inductive Size (xs : List Extended) : Extended → Prop
  | undefined (h : .undefined ∈ xs) : Size xs .undefined
  | infinite (h : .undefined ∉ xs) (hne : ¬∀ x ∈ xs, x = 0) : Size xs (.infinite false)
  | finite {q : ℚ} (h : .undefined ∉ xs) (hq : 0 ≤ q) (hzero : q = 0 ↔ ∀ x ∈ xs, x = 0) : Size xs (.finite q)

theorem size_squares (xs : List Extended) : Size xs (xs.map fun y => y * y).sum := by
  induction xs with
  | nil => exact .finite List.not_mem_nil le_rfl (iff_of_true rfl (List.forall_mem_nil _))
  | cons x xs ih =>
    rw [List.map_cons, List.sum_cons]
    generalize (xs.map fun y => y * y).sum = rest at ih ⊢
    cases x with
    | undefined =>
      have h : (Extended.undefined * .undefined) + rest = .undefined := by cases rest <;> rfl
      rw [h]
      exact .undefined List.mem_cons_self
    | infinite s =>
      have hsquare : Extended.infinite s * .infinite s = .infinite false := by cases s <;> rfl
      have hne : ¬∀ y ∈ Extended.infinite s :: xs, y = 0 := fun hall => nomatch hall _ List.mem_cons_self
      rw [hsquare]
      cases ih with
      | undefined h => exact .undefined (List.mem_cons_of_mem _ h)
      | infinite h => exact .infinite (by simpa using h) hne
      | finite h => exact .infinite (by simpa using h) hne
    | finite p =>
      change Size _ (.finite (p * p) + rest)
      cases ih with
      | undefined h => exact .undefined (List.mem_cons_of_mem _ h)
      | infinite h hne => exact .infinite (by simpa using h) fun hall => hne (List.forall_mem_cons.mp hall).2
      | finite h hq hzero =>
        refine .finite (by simpa using h) (add_nonneg (mul_self_nonneg p) hq) ?_
        rw [add_eq_zero_iff_of_nonneg (mul_self_nonneg p) hq, mul_self_eq_zero, hzero, List.forall_mem_cons, zero_eq,
          Extended.finite.injEq]

theorem ratSqrt_eq_zero_iff {q : ℚ} (h : 0 ≤ q) : Rat.sqrt q = 0 ↔ q = 0 := by
  have hroot : Int.sqrt q.num = 0 ↔ q.num ≤ 0 := by
    rw [Int.sqrt, Int.natCast_eq_zero, Nat.sqrt_eq_zero, Int.toNat_eq_zero]
  have hden : Nat.sqrt q.den ≠ 0 := Nat.sqrt_eq_zero.not.mpr q.den_nz
  rw [Rat.sqrt, Rat.mkRat_eq_zero hden, hroot, ← Rat.num_eq_zero]
  exact ⟨fun hle => hle.antisymm (Rat.num_nonneg.mpr h), le_of_eq⟩

theorem Size.root {xs : List Extended} {a : Extended} (h : Size xs a) : Size xs (sqrt a) := by
  cases h with
  | undefined h => exact .undefined h
  | infinite h hne => exact .infinite h hne
  | finite h hq hzero => exact .finite h (Rat.sqrt_nonneg _) ((ratSqrt_eq_zero_iff hq).trans hzero)

theorem size_norm (xs : List Extended) : Size xs (Measured.norm xs) := (size_squares xs).root

namespace Size

variable {xs : List Extended} {a : Extended}

theorem eq_zero_iff (h : Size xs a) : a = 0 ↔ ∀ x ∈ xs, x = 0 := by
  cases h with
  | undefined h => exact iff_of_false nofun fun hall => nomatch hall _ h
  | infinite _ hne => exact iff_of_false nofun hne
  | finite _ _ hzero => rw [zero_eq, Extended.finite.injEq, hzero, zero_eq]

theorem isNumber_iff (h : Size xs a) : IsNumber a ↔ ∀ x ∈ xs, IsNumber x := by
  simp only [Extended.isNumber_iff, ne_eq, List.forall_mem_ne']
  cases h with
  | undefined h => exact iff_of_false (· rfl) (· h)
  | infinite h => exact iff_of_true nofun h
  | finite h => exact iff_of_true nofun h

theorem nonneg (h : Size xs a) (hnumber : IsNumber a) : 0 ≤ a := by
  cases h with
  | undefined => exact (Extended.isNumber_iff.mp hnumber rfl).elim
  | infinite => exact finite_le_infinite.mpr rfl
  | finite _ hq => exact finite_le_finite.mpr hq

end Size

theorem eq_of_sub {a b : Extended} (h : a - b = 0) : a = b := by
  cases a with
  | finite p =>
    cases b with
    | finite q =>
      have h : Extended.finite (p + -q) = .finite 0 := h
      rw [add_neg_eq_zero.mp (Extended.finite.inj h)]
    | infinite t => cases h
    | undefined => cases h
  | infinite s =>
    cases b with
    | finite q => cases h
    | infinite t => cases s <;> cases t <;> cases h
    | undefined => cases h
  | undefined => cases h

theorem le_of_sub {a b : Extended} (h : a - b ≤ 0) : a ≤ b := by
  cases a with
  | finite p =>
    cases b with
    | finite q =>
      have h : p - q ≤ 0 := (sub_eq_add_neg p q).trans_le h
      exact finite_le_finite.mpr (sub_nonpos.mp h)
    | infinite t =>
      cases t with
      | false => exact finite_le_infinite.mpr rfl
      | true => cases h
    | undefined => exact h
  | infinite s =>
    cases s with
    | true =>
      cases b with
      | finite q => exact infinite_le_finite.mpr rfl
      | infinite t => exact infinite_le_infinite.mpr (.inl rfl)
      | undefined => exact h
    | false =>
      cases b with
      | finite q => cases h
      | infinite t => cases t <;> cases h
      | undefined => exact h
  | undefined => exact h

theorem le_antisymm {a b : Extended} (hab : a ≤ b) (hba : b ≤ a) : a = b := by
  cases a with
  | finite p =>
    cases b with
    | finite q => exact congrArg _ ((show p ≤ q from hab).antisymm hba)
    | infinite t => cases hab.symm.trans hba
    | undefined => exact hab.elim
  | infinite s =>
    cases b with
    | finite q => cases hab.symm.trans hba
    | infinite t => cases s <;> cases t <;> simp_all
    | undefined => exact hab.elim
  | undefined => exact hab.elim

instance : Measured.Lawful Extended where
  isNumber_of_le {a b} h := by
    rw [isNumber_iff, isNumber_iff]
    exact ⟨fun ha => not_undefined_le (ha ▸ h), fun hb => not_le_undefined (hb ▸ h)⟩
  le_antisymm := le_antisymm
  zero_le_zero := le_refl (0 : ℚ)
  above_iff := decide_eq_true_iff
  eq_of_sub := eq_of_sub
  le_of_sub := le_of_sub
  norm_eq_zero_iff {xs} := (size_norm xs).eq_zero_iff
  isNumber_norm_iff {xs} := (size_norm xs).isNumber_iff
  norm_nonneg {xs} := (size_norm xs).nonneg
  positivePart_of_le h := if_pos h
  positivePart_of_not_le h := if_neg h

end Extended

end ConicForm
