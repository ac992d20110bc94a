import ConicForm.Proofs.Arrays
import ConicForm.Proofs.Results
import ConicForm.Proofs.Tables

/-!
# Coefficients

The coefficients of a block are a table of matrices with a common number of rows and, under each label, the
label's width. They are known by their labels and by the entries of the matrices, which are zero under a label
that is not there. The coefficients of variables are a table by ids; what holds under every label holds of these.
-/

namespace ConicForm

theorem Keyed.keys_mapM {κ β γ : Type} {f : κ × β → Result γ} {xs : List (κ × β)} {ys : List (κ × γ)}
    (h : xs.mapM (fun e => do return (e.1, ← f e)) = .ok ys) : keys ys = keys xs := by
  have hpairs := forall₂_of_mapM_eq_ok h
  clear h
  induction hpairs with
  | nil => rfl
  | cons he _ ih =>
    obtain ⟨v, _, hv⟩ := bind_eq_ok.mp he
    obtain rfl := Except.ok.inj hv
    exact congrArg (_ :: ·) ih

namespace Coefficients

variable {α : Type} {cs : List (Label × Tensor α)} {rows size : Nat}

section labels

variable {width : Value → Nat}

/-- Coefficients with a common number of rows and, under each label, the label's width. -/
abbrev Labelled (cs : List (Label × Tensor α)) (rows : Nat) (width : Value → Nat) : Prop :=
  Label.Table (fun k t => t.dims = [rows, width k]) cs

variable [Zero α]

/-- An entry of the coefficients under a label, zero where there are none. -/
def under (cs : List (Label × Tensor α)) (l : Label) (i j : Nat) : α :=
  (Keyed.get? cs l).elim 0 fun t => t.asRows.get i j

theorem under_of_not_mem {l : Label} (h : l.key ∉ Label.keys cs) (i j : Nat) : under cs l i j = 0 := by
  rw [under, Label.get?_eq_none_iff.mpr h]
  rfl

theorem under_of_mem (h : Labelled cs rows width) {e : Label × Tensor α} (he : e ∈ cs) (i j : Nat) :
    under cs e.1 i j = e.2.asRows.get i j := by
  rw [under, h.get?_eq_some he]
  rfl

theorem under_of_rows_le (h : Labelled cs rows width) (l : Label) {i : Nat} (j : Nat) (hi : rows ≤ i) :
    under cs l i j = 0 := by
  rw [under]
  cases ht : Keyed.get? cs l with
  | none => rfl
  | some t => exact t.asRows.get_of_rows_le j (by rw [Tensor.rows_asRows (h.good_of_get? ht)]; exact hi)

theorem under_of_cols_le (h : Labelled cs rows width) (l : Label) (i : Nat) {j : Nat} (hj : width l.key ≤ j) :
    under cs l i j = 0 := by
  rw [under]
  cases ht : Keyed.get? cs l with
  | none => rfl
  | some t =>
    have hcols : t.asRows.cols = width l.key := by rw [Tensor.cols_asRows (h.good_of_get? ht), volume_singleton]
    exact t.asRows.get_of_cols_le i (hcols ▸ hj)

theorem under_cons (e : Label × Tensor α) (l : Label) (i j : Nat) :
    under (e :: cs) l i j = if e.1 == l then e.2.asRows.get i j else under cs l i j := by
  rw [under, Keyed.get?_cons]
  split <;> rfl

/-- An operation that changes each column of a matrix of `rows` rows by `act`, to one of `size` rows. -/
def ActsBy (f : Tensor α → Result (Tensor α)) (rows size : Nat) (act : (Nat → α) → Nat → α) : Prop :=
  ∀ t c, t.dims = [rows, c] → ∃ u, f t = .ok u ∧ u.dims = [size, c] ∧
    ∀ i j, i < size → j < c → u.asRows.get i j = act (fun k => t.asRows.get k j) i

variable {f : Tensor α → Result (Tensor α)} {act : (Nat → α) → Nat → α}

/-- An operation on the columns of a matrix works on the columns of all coefficients. -/
theorem mapCoeffs_labelled (h : Labelled cs rows width) (hf : ActsBy f rows size act) :
    ∃ ds, Block.mapCoeffs f cs = .ok ds ∧ Labelled ds size width ∧
      ∀ l : Label, l.key ∈ Label.keys cs → ∀ i j, i < size → j < width l.key →
        under ds l i j = act (fun k => under cs l k j) i := by
  have hf' : ∀ t, (∃ c, t.dims = [rows, c]) → ∃ u, f t = .ok u ∧ ∀ c, t.dims = [rows, c] →
      u.dims = [size, c] ∧
        ∀ i j, i < size → j < c → u.asRows.get i j = act (fun k => t.asRows.get k j) i := by
    rintro t ⟨c, ht⟩
    obtain ⟨u, hu, hd, hget⟩ := hf t c ht
    refine ⟨u, hu, fun c' ht' => ?_⟩
    obtain rfl : c = c' := by simpa [ht] using ht'
    exact ⟨hd, hget⟩
  choose! g hg using hf'
  have hmap : Block.mapCoeffs f cs = .ok (Keyed.mapValues g cs) := by
    apply mapM_eq_ok_map
    intro e he
    rw [(hg e.2 ⟨_, h.good e he⟩).1]
    rfl
  refine ⟨_, hmap, ⟨fun e he => ?_, ?_⟩, fun l hl i j hi hj => ?_⟩
  · obtain ⟨d, hd, rfl⟩ := List.mem_map.mp he
    exact ((hg d.2 ⟨_, h.good d hd⟩).2 _ (h.good d hd)).1
  · rw [Label.keys_eq_map, Keyed.keys_mapM hmap, ← Label.keys_eq_map]
    exact h.nodup
  · cases ht : Keyed.get? cs l with
    | none => exact absurd hl (Label.get?_eq_none_iff.mp ht)
    | some t =>
      have hd := h.good_of_get? ht
      simp only [under, Keyed.get?_mapValues, ht]
      exact ((hg t ⟨_, hd⟩).2 _ hd).2 i j hi hj

/-- An operation that makes zeros of zeros changes the columns under every label. -/
theorem mapCoeffs_of_zero (h : Labelled cs rows width) (hact : ∀ i, act (fun _ => 0) i = 0)
    (hf : ActsBy f rows size act) : ∃ ds, Block.mapCoeffs f cs = .ok ds ∧ Labelled ds size width ∧
      ∀ i < size, ∀ l j, under ds l i j = act (fun k => under cs l k j) i := by
  obtain ⟨ds, hds, hlabelled, hunder⟩ := mapCoeffs_labelled h hf
  refine ⟨ds, hds, hlabelled, fun i hi l j => ?_⟩
  by_cases hl : l.key ∈ Label.keys cs
  · rcases Nat.lt_or_ge j (width l.key) with hj | hj
    · exact hunder l hl i j hi hj
    · simp only [under_of_cols_le h l _ hj, under_of_cols_le hlabelled l _ hj, hact]
  · have hl' : l.key ∉ Label.keys ds := mt ((Label.Joins.of_keys_eq (Keyed.keys_mapM hds)).mem_keys _).mp hl
    simp only [under_of_not_mem hl, under_of_not_mem hl', hact]

end labels

/-! Coefficients of variables -/

variable {width : Int → Nat}

/-- One matrix for each variable, with a common number of rows and the variable's width. -/
abbrev Regular (cs : List (Label × Tensor α)) (rows : Nat) (width : Int → Nat) : Prop :=
  IdTable (fun id t => t.dims = [rows, width id]) cs

/-- The widths of labels, if those of the variables are given. -/
def widthOf (width : Int → Nat) (k : Value) : Nat :=
  match k with
  | .int id => width id
  | _ => 0

/-- Regular coefficients are coefficients under labels that are ids. -/
theorem regular_iff : Regular cs rows width ↔ ByIds cs ∧ Labelled cs rows (widthOf width) := by
  rw [Regular, idTable_iff]
  refine and_congr_right fun hids => ⟨fun h => ⟨fun e he => ?_, h.nodup⟩, fun h => ⟨fun e he id hkey => ?_, h.nodup⟩⟩
  · obtain ⟨id, hid⟩ := hids e.1 (List.mem_map_of_mem he)
    have hkey : e.1.key = .int id := by rw [hid]; rfl
    rw [hkey]
    exact h.good e he id hkey
  · have hd := h.good e he
    rwa [hkey] at hd

variable [Zero α]

/-- An entry of the coefficients of a variable, zero for a variable without any. -/
def entry (cs : List (Label × Tensor α)) (id : Int) (i j : Nat) : α :=
  (Keyed.get? cs (.ofId id)).elim 0 fun t => t.asRows.get i j

theorem entry_of_not_mem {id : Int} (h : id ∉ ids cs) (i j : Nat) : entry cs id i j = 0 :=
  under_of_not_mem (mt mem_ids_iff.mpr h) i j

theorem entry_of_rows_le (h : Regular cs rows width) (id : Int) {i : Nat} (j : Nat) (hi : rows ≤ i) :
    entry cs id i j = 0 := under_of_rows_le (regular_iff.mp h).2 _ j hi

theorem entry_cons_ofId (id k : Int) (t : Tensor α) (i j : Nat) :
    entry ((.ofId id, t) :: cs) k i j = if id = k then t.asRows.get i j else entry cs k i j :=
  (under_cons _ _ i j).trans (if_congr Label.ofId_beq_ofId rfl rfl)

theorem mapCoeffs_regular (h : Regular cs rows width) {f : Tensor α → Result (Tensor α)} {act : (Nat → α) → Nat → α}
    (hf : ActsBy f rows size act) :
    ∃ ds, Block.mapCoeffs f cs = .ok ds ∧ Regular ds size width ∧ ids ds = ids cs ∧
      ∀ id ∈ ids cs, ∀ i j, i < size → j < width id →
        entry ds id i j = act (fun k => entry cs id k j) i := by
  obtain ⟨hids, hlabelled⟩ := regular_iff.mp h
  obtain ⟨ds, hds, hl, hunder⟩ := mapCoeffs_labelled hlabelled hf
  have hkeys := Keyed.keys_mapM hds
  exact ⟨ds, hds, regular_iff.mpr ⟨(Label.Joins.of_keys_eq hkeys).byIds hids, hl⟩, ids_eq_of_keys_eq hkeys,
    fun id hid => hunder (.ofId id) (mem_ids_iff.mp hid)⟩

end Coefficients

end ConicForm
