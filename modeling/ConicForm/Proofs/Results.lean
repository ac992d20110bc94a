import ConicForm.Failure
import Mathlib.Data.List.Forall2

/-!
# Steps that may be refused

What it says of the steps of a computation that the whole of it answers, and that it answers when they do.
-/

namespace ConicForm

variable {ε α β : Type}

theorem bind_eq_ok {x : Except ε α} {f : α → Except ε β} {b : β} :
    x >>= f = .ok b ↔ ∃ a, x = .ok a ∧ f a = .ok b := by
  cases x with
  | error e =>
    constructor
    · intro h
      cases h
    · rintro ⟨_, h, _⟩
      cases h
  | ok a =>
    constructor
    · exact fun h => ⟨a, rfl, h⟩
    · rintro ⟨_, h, hf⟩
      cases h
      exact hf

theorem bind_eq_error {x : Except ε α} {f : α → Except ε β} {e : ε} :
    x >>= f = .error e ↔ x = .error e ∨ ∃ a, x = .ok a ∧ f a = .error e := by
  cases x with
  | error d =>
    constructor
    · exact fun h => .inl (congrArg Except.error (Except.error.inj h))
    · rintro (h | ⟨_, h, _⟩)
      · cases h
        rfl
      · cases h
  | ok a =>
    constructor
    · exact fun h => .inr ⟨a, rfl, h⟩
    · rintro (h | ⟨_, h, hf⟩)
      · cases h
      · cases h
        exact hf

/-- What cannot fail itself fails only where what it is made from does. -/
theorem bind_pure_eq_error {x : Except ε α} {f : α → β} {e : ε} :
    (x >>= fun a => pure (f a)) = .error e ↔ x = .error e := by
  refine bind_eq_error.trans (or_iff_left ?_)
  rintro ⟨_, _, h⟩
  cases h

theorem map_eq_ok {x : Except ε α} {f : α → β} {b : β} :
    x.map f = .ok b ↔ ∃ a, x = .ok a ∧ f a = b := by
  cases x with
  | error e =>
    constructor
    · intro h
      cases h
    · rintro ⟨_, h, _⟩
      cases h
  | ok a =>
    constructor
    · exact fun h => ⟨a, rfl, Except.ok.inj h⟩
    · rintro ⟨_, h, rfl⟩
      cases h
      rfl

theorem exists_of_isOk {x : Result α} (h : x.isOk = true) : ∃ a, x = .ok a := by
  cases x with
  | error e => cases h
  | ok a => exact ⟨a, rfl⟩

theorem mapM_eq_ok_map {xs : List α} {f : α → Result β} {g : α → β} (h : ∀ a ∈ xs, f a = .ok (g a)) :
    xs.mapM f = .ok (xs.map g) := by
  induction xs with
  | nil => rfl
  | cons a xs ih =>
    rw [List.mapM_cons, h a List.mem_cons_self, ih fun b hb => h b (List.mem_cons_of_mem a hb)]
    rfl

/-- Steps are refused with one of them. -/
theorem exists_of_mapM_eq_error {xs : List α} {f : α → Result β} {e : Failure} (h : xs.mapM f = .error e) :
    ∃ a ∈ xs, f a = .error e := by
  induction xs with
  | nil => cases h
  | cons a xs ih =>
    rw [List.mapM_cons] at h
    rcases bind_eq_error.mp h with ha | ⟨_, _, h⟩
    · exact ⟨a, List.mem_cons_self, ha⟩
    · rcases bind_eq_error.mp h with hxs | ⟨_, _, h⟩
      · obtain ⟨b, hb, he⟩ := ih hxs
        exact ⟨b, List.mem_cons_of_mem a hb, he⟩
      · cases h

theorem forall₂_of_mapM_eq_ok {xs : List α} {ys : List β} {f : α → Result β} (h : xs.mapM f = .ok ys) :
    List.Forall₂ (fun a b => f a = .ok b) xs ys := by
  induction xs generalizing ys with
  | nil =>
    obtain rfl : [] = ys := Except.ok.inj h
    exact .nil
  | cons a xs ih =>
    rw [List.mapM_cons] at h
    obtain ⟨b, hb, h⟩ := bind_eq_ok.mp h
    obtain ⟨bs, hbs, h⟩ := bind_eq_ok.mp h
    obtain rfl : b :: bs = ys := Except.ok.inj h
    exact .cons hb (ih hbs)

theorem forall₂_of_mapM_eq_some {f : α → Option β} {xs : List α} {ys : List β} (h : xs.mapM f = some ys) :
    List.Forall₂ (fun x y => f x = some y) xs ys := by
  induction xs generalizing ys with
  | nil =>
    obtain rfl : [] = ys := Option.some.inj h
    exact .nil
  | cons x xs ih =>
    rw [List.mapM_cons] at h
    obtain ⟨y, hy, h⟩ := Option.bind_eq_some_iff.mp h
    obtain ⟨zs, hzs, h⟩ := Option.bind_eq_some_iff.mp h
    obtain rfl : y :: zs = ys := Option.some.inj h
    exact .cons hy (ih hzs)

theorem exists_left_of_forall₂ {R : α → β → Prop} {xs : List α} {ys : List β} (h : List.Forall₂ R xs ys) {b : β}
    (hb : b ∈ ys) : ∃ a ∈ xs, R a b := by
  induction h with
  | nil => cases hb
  | @cons a c xs ys hac _ ih =>
    rcases List.mem_cons.mp hb with rfl | hb
    · exact ⟨a, List.mem_cons_self, hac⟩
    · obtain ⟨d, hd, hdb⟩ := ih hb
      exact ⟨d, List.mem_cons_of_mem a hd, hdb⟩

theorem exists_right_of_forall₂ {R : α → β → Prop} {xs : List α} {ys : List β} (h : List.Forall₂ R xs ys)
    {a : α} (ha : a ∈ xs) : ∃ b ∈ ys, R a b := exists_left_of_forall₂ h.flip ha

theorem exists_of_mem_mapM {xs : List α} {ys : List β} {f : α → Result β} (h : xs.mapM f = .ok ys) {b : β}
    (hb : b ∈ ys) : ∃ a ∈ xs, f a = .ok b := exists_left_of_forall₂ (forall₂_of_mapM_eq_ok h) hb

theorem exists_of_mapM_eq_ok {xs : List α} {ys : List β} {f : α → Result β} (h : xs.mapM f = .ok ys) {a : α}
    (ha : a ∈ xs) : ∃ b ∈ ys, f a = .ok b := exists_right_of_forall₂ (forall₂_of_mapM_eq_ok h) ha

/-- The first step that is refused decides. -/
theorem mapM_eq_error {xs : List α} {f : α → Result β} (h : ∃ a ∈ xs, ∃ e, f a = .error e) :
    ∃ a ∈ xs, ∃ e, f a = .error e ∧ xs.mapM f = .error e := by
  cases hm : xs.mapM f with
  | error e =>
    obtain ⟨a, ha, he⟩ := exists_of_mapM_eq_error hm
    exact ⟨a, ha, e, he, rfl⟩
  | ok ys =>
    obtain ⟨a, ha, e, he⟩ := h
    obtain ⟨b, _, hb⟩ := exists_of_mapM_eq_ok hm ha
    cases he.symm.trans hb

end ConicForm
