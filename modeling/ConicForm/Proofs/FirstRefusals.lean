import ConicForm.Proofs.Results

/-!
# First refusals

A pass over a list that takes the items one after the other is refused for the first item that is not in order, and
its failure is the one of that item at its place.
-/

namespace ConicForm

variable {β γ : Type} {Fine : β → Prop} {xs before : List β} {x : β}

/-- `x` is the first item of a list that is not in order, and `before` are the items before it. -/
structure FirstNot (Fine : β → Prop) (xs before : List β) (x : β) : Prop where
  split : ∃ after, xs = before ++ x :: after
  fine : ∀ y ∈ before, Fine y
  not_fine : ¬Fine x

theorem FirstNot.mem (h : FirstNot Fine xs before x) : x ∈ xs := by
  obtain ⟨after, rfl⟩ := h.split
  exact List.mem_append_right before List.mem_cons_self

theorem FirstNot.cons {y : β} (hy : Fine y) (h : FirstNot Fine xs before x) :
    FirstNot Fine (y :: xs) (y :: before) x := by
  obtain ⟨after, rfl⟩ := h.split
  exact ⟨⟨after, rfl⟩, List.forall_mem_cons.mpr ⟨hy, h.fine⟩, h.not_fine⟩

/-- The first item that is not in order is the head of a list, or that of the rest. -/
theorem firstNot_cons_iff {y : β} : FirstNot Fine (y :: xs) before x ↔
    (¬Fine y ∧ before = [] ∧ x = y) ∨ (Fine y ∧ ∃ rest, before = y :: rest ∧ FirstNot Fine xs rest x) := by
  constructor
  · rintro ⟨⟨after, hsplit⟩, hfine, hnot⟩
    cases before with
    | nil =>
      obtain ⟨rfl, rfl⟩ := List.cons.inj hsplit
      exact .inl ⟨hnot, rfl, rfl⟩
    | cons z rest =>
      obtain ⟨rfl, rfl⟩ := List.cons.inj hsplit
      obtain ⟨hy, hrest⟩ := List.forall_mem_cons.mp hfine
      exact .inr ⟨hy, rest, rfl, ⟨after, rfl⟩, hrest, hnot⟩
  · rintro (⟨hy, rfl, rfl⟩ | ⟨hy, rest, rfl, h⟩)
    · exact ⟨⟨xs, rfl⟩, List.forall_mem_nil _, hy⟩
    · exact h.cons hy

theorem exists_firstNot_iff : (∃ before x, FirstNot Fine xs before x) ↔ ¬∀ x ∈ xs, Fine x := by
  constructor
  · rintro ⟨_, x, h⟩ hall
    exact h.not_fine (hall x h.mem)
  · intro hall
    induction xs with
    | nil => exact absurd (List.forall_mem_nil _) hall
    | cons y xs ih =>
      by_cases hy : Fine y
      · obtain ⟨before, x, h⟩ := ih fun hxs => hall (List.forall_mem_cons.mpr ⟨hy, hxs⟩)
        exact ⟨y :: before, x, h.cons hy⟩
      · exact ⟨[], y, ⟨xs, rfl⟩, List.forall_mem_nil _, hy⟩

/-- What a pass does with the first item, which has the place `k`: an item in order leaves it to the others whether
the pass is refused, and any other item has it refused. -/
structure Passes (pass : Nat → List β → Result γ) (Fine : β → Prop) (failure : Nat → β → Failure) : Prop where
  nil : ∀ k, ∃ r, pass k [] = .ok r
  fine : ∀ k x xs, Fine x → ∀ e, pass k (x :: xs) = .error e ↔ pass (k + 1) xs = .error e
  refused : ∀ k x xs, ¬Fine x → pass k (x :: xs) = .error (failure k x)

variable {pass : Nat → List β → Result γ} {failure : Nat → β → Failure}

/-- A pass is refused exactly for the first item that is not in order. -/
theorem Passes.eq_error_iff (h : Passes pass Fine failure) {k : Nat} {e : Failure} :
    pass k xs = .error e ↔ ∃ before x, FirstNot Fine xs before x ∧ e = failure (k + before.length) x := by
  induction xs generalizing k with
  | nil =>
    obtain ⟨r, hr⟩ := h.nil k
    rw [hr]
    constructor
    · intro he
      cases he
    · rintro ⟨_, _, hx, _⟩
      cases hx.mem
  | cons y xs ih =>
    simp only [firstNot_cons_iff]
    by_cases hy : Fine y
    · rw [h.fine k y xs hy, ih]
      constructor
      · rintro ⟨before, x, hx, rfl⟩
        refine ⟨y :: before, x, .inr ⟨hy, before, rfl, hx⟩, ?_⟩
        rw [List.length_cons, Nat.add_right_comm, Nat.add_assoc]
      · rintro ⟨_, x, ⟨hnot, _⟩ | ⟨_, before, rfl, hx⟩, rfl⟩
        · exact absurd hy hnot
        · refine ⟨before, x, hx, ?_⟩
          rw [List.length_cons, Nat.add_right_comm, Nat.add_assoc]
    · rw [h.refused k y xs hy]
      constructor
      · intro he
        exact ⟨[], y, .inl ⟨hy, rfl, rfl⟩, (Except.error.inj he).symm⟩
      · rintro ⟨_, x, ⟨_, rfl, rfl⟩ | ⟨hy', _⟩, rfl⟩
        · rfl
        · exact absurd hy' hy

/-- A pass is answered exactly if all items are in order. -/
theorem Passes.exists_ok_iff (h : Passes pass Fine failure) {k : Nat} :
    (∃ r, pass k xs = .ok r) ↔ ∀ x ∈ xs, Fine x := by
  rw [← not_iff_not, ← exists_firstNot_iff]
  constructor
  · intro hok
    cases hp : pass k xs with
    | ok r => exact absurd ⟨r, hp⟩ hok
    | error e =>
      obtain ⟨before, x, hx, _⟩ := h.eq_error_iff.mp hp
      exact ⟨before, x, hx⟩
  · rintro ⟨before, x, hx⟩ ⟨r, hr⟩
    cases hr.symm.trans (h.eq_error_iff.mpr ⟨before, x, hx, rfl⟩)

/-- A pass and what follows it are refused for the first item that is not in order, and without one for what
refuses the rest. -/
theorem Passes.bind_eq_error_iff {δ : Type} {next : γ → Result δ} {Q : Failure → Prop} {k : Nat} {e : Failure}
    (h : Passes pass Fine failure) (hnext : ∀ r, pass k xs = .ok r → ∀ e, next r = .error e ↔ Q e) :
    (pass k xs >>= next) = .error e ↔
      (∃ before x, FirstNot Fine xs before x ∧ e = failure (k + before.length) x) ∨ (∀ x ∈ xs, Fine x) ∧ Q e := by
  rw [bind_eq_error, h.eq_error_iff, ← h.exists_ok_iff (k := k)]
  apply or_congr_right
  constructor
  · rintro ⟨r, hr, he⟩
    exact ⟨⟨r, hr⟩, (hnext r hr e).mp he⟩
  · rintro ⟨⟨r, hr⟩, hq⟩
    exact ⟨r, hr, (hnext r hr e).mpr hq⟩

/-- A pass and what follows it are answered if all items are in order and the rest is answered. -/
theorem Passes.exists_bind_iff {δ : Type} {next : γ → Result δ} {P : Prop} {k : Nat} (h : Passes pass Fine failure)
    (hnext : ∀ r, pass k xs = .ok r → ((∃ y, next r = .ok y) ↔ P)) :
    (∃ y, (pass k xs >>= next) = .ok y) ↔ (∀ x ∈ xs, Fine x) ∧ P := by
  rw [← h.exists_ok_iff (k := k)]
  constructor
  · rintro ⟨y, hy⟩
    obtain ⟨r, hr, hy⟩ := bind_eq_ok.mp hy
    exact ⟨⟨r, hr⟩, (hnext r hr).mp ⟨y, hy⟩⟩
  · rintro ⟨⟨r, hr⟩, hp⟩
    obtain ⟨y, hy⟩ := (hnext r hr).mpr hp
    exact ⟨y, bind_eq_ok.mpr ⟨r, hr, hy⟩⟩

theorem passes_mapM {β γ : Type} {Fine : β → Prop} {f : β → Result γ} {failure : β → Failure}
    (hfine : ∀ x, Fine x → ∃ y, f x = .ok y) (hrefused : ∀ x, ¬Fine x → f x = .error (failure x)) :
    Passes (fun _ xs => xs.mapM f) Fine fun _ x => failure x where
  nil _ := ⟨[], rfl⟩
  fine k x xs hx e := by
    obtain ⟨y, hy⟩ := hfine x hx
    rw [List.mapM_cons, hy]
    cases xs.mapM f with
    | error d => exact Iff.rfl
    | ok ys => simp [bind, Except.bind, pure, Except.pure]
  refused k x xs hx := by
    rw [List.mapM_cons, hrefused x hx]
    rfl

end ConicForm
