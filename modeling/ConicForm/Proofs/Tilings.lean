import Mathlib.Data.Fintype.EquivFin
import ConicForm.Proofs.Packing

/-!
# Places cut up into ranges

Some ranges tile the places below a bound if no two of them meet and every place is in one. Two tilings with ranges
of the same sizes differ by a permutation of the places, which moves each range as a whole. The rows of a layout are
tiled by the constraints and its columns by the variables.
-/

namespace ConicForm

/-- Ranges that do not meet and fill the places below a bound. -/
structure Tiles {ι : Type} (first size : ι → Nat) (bound : Nat) : Prop where
  le : ∀ i, first i + size i ≤ bound
  apart : ∀ i j, i ≠ j → first i + size i ≤ first j ∨ first j + size j ≤ first i
  exists_mem : ∀ k < bound, ∃ i, first i ≤ k ∧ k < first i + size i

namespace Tiles

variable {ι : Type} {first first' size : ι → Nat} {bound : Nat}

theorem eq_of_mem (h : Tiles first size bound) {i j : ι} {k : Nat} (hi : first i ≤ k ∧ k < first i + size i)
    (hj : first j ≤ k ∧ k < first j + size j) : i = j := by
  by_contra hne
  have := h.apart i j hne
  omega

/-- Every place is one of a range, counted from the first one. -/
theorem exists_eq (h : Tiles first size bound) {k : Nat} (hk : k < bound) : ∃ i, ∃ j < size i, k = first i + j := by
  obtain ⟨i, hle, hlt⟩ := h.exists_mem k hk
  exact ⟨i, k - first i, by omega, by omega⟩

theorem eq_of_eq (h : Tiles first size bound) {i i' : ι} {j j' : Nat} (hj : j < size i) (hj' : j' < size i')
    (heq : first i + j = first i' + j') : i = i' :=
  h.eq_of_mem (k := first i + j) ⟨by omega, by omega⟩ ⟨by omega, by omega⟩

/-- Two tilings with ranges of the same sizes differ by a permutation. -/
theorem exists_perm (h : Tiles first size bound) (h' : Tiles first' size bound) :
    ∃ π : Equiv.Perm (Fin bound), ∀ i, ∀ k < size i, ∀ a : Fin bound, (a : Nat) = first' i + k →
      (π a : Nat) = first i + k := by
  choose range place hplace heq using fun a : Fin bound => h'.exists_eq a.isLt
  have hlt : ∀ a, first (range a) + place a < bound := fun a => by
    have := h.le (range a)
    have := hplace a
    omega
  let move (a : Fin bound) : Fin bound := ⟨first (range a) + place a, hlt a⟩
  have hinjective : Function.Injective move := by
    intro a b hab
    have hab : first (range a) + place a = first (range b) + place b := congrArg Fin.val hab
    have hrange := h.eq_of_eq (hplace a) (hplace b) hab
    have ha := heq a
    rw [hrange] at hab ha
    exact Fin.ext (by rw [ha, heq b, Nat.add_left_cancel hab])
  refine ⟨Equiv.ofBijective move (Finite.injective_iff_bijective.mp hinjective), fun i k hk a ha => ?_⟩
  have heqa := heq a
  obtain rfl := h'.eq_of_eq hk (hplace a) (ha.symm.trans heqa)
  change first (range a) + place a = _
  omega

end Tiles

namespace Layout

variable {α : Type} {l : Layout α} {constraints : List (Node α)} {vs : List Variable} {ι : Type}

/-- The rows are tiled by the ranges of the constraints, in any order. -/
theorem Parts.tiles (h : l.Parts constraints) {n : Nat} (hlen : l.ranges.length = n) (e : ι ≃ Fin n) {cone : ι → Cone}
    {first count : ι → Nat} (hr : ∀ i, l.ranges[(e i : Nat)]? = some ⟨cone i, first i, count i⟩) :
    Tiles first count l.height := by
  have hget : ∀ i, ∃ hi : (e i : Nat) < l.ranges.length, l.ranges[(e i : Nat)] = ⟨cone i, first i, count i⟩ :=
    fun i => List.getElem?_eq_some_iff.mp (hr i)
  have hprecedes : ∀ i j, (e i : Nat) < e j → first i + count i ≤ first j ∨ first j + count j ≤ first i := by
    intro i j hij
    obtain ⟨hi, hgi⟩ := hget i
    obtain ⟨hj, hgj⟩ := hget j
    have hapart := List.pairwise_iff_getElem.mp h.pairwise_precedes _ _ hi hj hij
    rw [hgi, hgj] at hapart
    exact hapart.imp Int.ofNat_le.mp Int.ofNat_le.mp
  refine ⟨fun i => ?_, fun i j hne => ?_, fun k hk => ?_⟩
  · have hbound := h.bounds (List.mem_of_getElem? (hr i))
    have hcone := l.coneRange_bounds (cone i)
    simp only at hbound
    omega
  · have hne : (e i : Nat) ≠ e j := fun heq => hne (e.injective (Fin.ext heq))
    exact (lt_or_gt_of_ne hne).elim (hprecedes i j) fun hji => (hprecedes j i hji).symm
  · obtain ⟨r, hmem, hrk⟩ := (h.exists_mem_iff k).mpr ⟨Int.natCast_nonneg k, Int.ofNat_lt.mpr hk⟩
    obtain ⟨m, hm, rfl⟩ := List.getElem_of_mem hmem
    obtain ⟨i, hi⟩ := e.surjective ⟨m, hlen ▸ hm⟩
    obtain ⟨_, hgi⟩ := hget i
    simp only [hi] at hgi
    simp only [hgi] at hrk
    exact ⟨i, by omega, by omega⟩

/-- The columns are tiled by the variables, in any order. -/
theorem Orders.tiles (h : l.Orders vs) {id : ι → Int} {start : ι → Nat} {s : ι → Shape} (hid : Function.Injective id)
    (hh : ∀ i, l.Holds (id i) (start i) (s i)) (hall : ∀ k first t, l.Holds k first t → ∃ i, id i = k) :
    Tiles start (fun i => (s i).size) l.width := by
  refine ⟨fun i => h.le_width (hh i), fun i j hne => ?_, fun k hk => ?_⟩
  · exact (lt_or_gt_of_ne (hid.ne hne)).imp (fun hij => h.end_le (hh i) (hh j) hij)
      fun hji => h.end_le (hh j) (hh i) hji
  · obtain ⟨_, _, _, first, t, ht, hrow, hcol, rfl⟩ := h.exists_lands hk
    obtain ⟨i, rfl⟩ := hall _ _ _ ht
    obtain ⟨rfl, rfl⟩ := h.eq_of_holds ht (hh i)
    have := Grid.place_lt_size (s i) hrow hcol
    exact ⟨i, by omega, by omega⟩

end Layout

end ConicForm
