import ConicForm.Matrix.Rows
import ConicForm.Proofs.BlockSums
import ConicForm.Proofs.Places

/-!
# Blocks over all columns

A block is spread over the columns of all variables by putting each coefficient into its variable's range.
The product of a row with a point is then what the variables contribute to the row, each variable being read
from its range. Blocks one above the other are spread one by one.
-/

namespace ConicForm

variable {α : Type}

/-- A sum over places of which only those of a range count. -/
theorem sum_range_window [NonUnitalNonAssocSemiring α] {m start n : Nat} (h : start + n ≤ m)
    (f y : Nat → α) :
    ∑ j ∈ Finset.range m, (if start ≤ j ∧ j < start + n then f (j - start) else 0) * y j =
      ∑ j ∈ Finset.range n, f j * y (start + j) := by
  obtain ⟨k, rfl⟩ := Nat.exists_eq_add_of_le h
  rw [Finset.sum_range_add, Finset.sum_range_add]
  have hbefore : ∀ j ∈ Finset.range start,
      (if start ≤ j ∧ j < start + n then f (j - start) else 0) * y j = 0 := by
    intro j hj
    have := Finset.mem_range.mp hj
    rw [if_neg (by omega), zero_mul]
  have hafter : ∀ j ∈ Finset.range k,
      (if start ≤ start + n + j ∧ start + n + j < start + n then f (start + n + j - start) else 0) *
        y (start + n + j) = 0 := by
    intro j _
    rw [if_neg (by omega), zero_mul]
  rw [Finset.sum_eq_zero hbefore, Finset.sum_eq_zero hafter, zero_add, add_zero]
  apply Finset.sum_congr rfl
  intro j hj
  have := Finset.mem_range.mp hj
  rw [if_pos (by omega), Nat.add_sub_cancel_left]

namespace Axis

theorem window_ofNat {size start n : Nat} (h : start + n ≤ size) :
    window size start ((start : Int) + n) = (List.range n).map fun k => start + k := by
  have hs : cut size (start : Int) = start := by
    rw [cut_ofNat]
    omega
  have he : cut size ((start : Int) + n) = start + n := by
    rw [← Int.natCast_add, cut_ofNat]
    omega
  simp only [window, hs, he, Nat.add_sub_cancel_left]

theorem lastIndexOf?_window (start n j : Nat) :
    lastIndexOf? j (((List.range n).map fun k => start + k).map some) =
      if start ≤ j ∧ j < start + n then some (j - start) else none := by
  cases hk : lastIndexOf? j (((List.range n).map fun k => start + k).map some) with
  | some k =>
    have hget := getElem?_of_lastIndexOf? hk
    have hlt := lastIndexOf?_lt hk
    rw [List.length_map, List.length_map, List.length_range] at hlt
    obtain rfl : start + k = j := by simpa [hlt] using hget
    rw [if_pos (by omega), Nat.add_sub_cancel_left]
  | none =>
    have hmem := not_mem_of_lastIndexOf? hk
    rw [if_neg]
    rintro ⟨hle, hlt⟩
    apply hmem
    rw [List.map_map]
    exact List.mem_map.mpr ⟨j - start, List.mem_range.mpr (by omega), by simp; omega⟩

end Axis

namespace Tensor

/-- A coefficient is added to the range of columns that it is as wide as. -/
theorem addColumns_eq [Zero α] [Add α] {m : Matrix α} {start n : Nat} {t : Tensor α} (ht : t.dims = [m.rows, n])
    (h : start + n ≤ m.cols) :
    ∃ u, addColumns m start ((start : Int) + n) t = .ok u ∧ u.rows = m.rows ∧ u.cols = m.cols ∧
      ∀ i j, i < m.rows → j < m.cols → u.get i j =
        if start ≤ j ∧ j < start + n then m.get i j + t.asRows.get i (j - start) else m.get i j := by
  let places := (List.range n).map fun k => start + k
  have hplaces : Axis.window m.cols start ((start : Int) + n) = places := Axis.window_ofNat h
  have hlen : places.length = n := by rw [List.length_map, List.length_range]
  by_cases h0 : m.rows * places.length = 0
  · refine ⟨m, ?_, rfl, rfl, fun i j hi _ => ?_⟩
    · rw [addColumns, hplaces]
      exact if_pos h0
    · have hn : n = 0 := hlen ▸ (Nat.mul_eq_zero.mp h0).resolve_left (by omega)
      rw [if_neg (by omega)]
  · refine ⟨m.addColumns (places.map some) t.asRows, ?_, rfl, rfl, fun i j hi hj => ?_⟩
    · have hr : t.repeatTo [m.rows, places.length] = .ok t := by rw [repeatTo, if_pos (by rw [ht, hlen])]
      rw [addColumns, hplaces]
      change (if m.rows * places.length = 0 then Except.ok m else
        t.repeatTo [m.rows, places.length] >>= fun r => .ok (m.addColumns (places.map some) r.asRows)) = _
      rw [if_neg h0, hr]
      rfl
    · rw [Matrix.addColumns, Matrix.get_ofFn _ hi hj, Axis.lastIndexOf?_window]
      by_cases hw : start ≤ j ∧ j < start + n
      · simp only [if_pos hw]
      · simp only [if_neg hw]

/-- Outside the range of columns nothing is added. -/
theorem get_addColumns [AddZeroClass α] {m u : Matrix α} {start n : Nat} {t : Tensor α} (ht : t.dims = [m.rows, n])
    (h : start + n ≤ m.cols) (hu : addColumns m start ((start : Int) + n) t = .ok u) (i j : Nat) :
    u.get i j = m.get i j + if start ≤ j ∧ j < start + n then t.asRows.get i (j - start) else 0 := by
  obtain ⟨_, hu', hrows, hcols, hget⟩ := addColumns_eq ht h
  obtain rfl := Except.ok.inj (hu'.symm.trans hu)
  by_cases hi : i < m.rows
  · by_cases hj : j < m.cols
    · rw [hget i j hi hj]
      split
      · rfl
      · exact (add_zero _).symm
    · rw [Matrix.get_of_cols_le _ i (by omega), m.get_of_cols_le i (by omega), if_neg (by omega), add_zero]
  · have hz : t.asRows.get i (j - start) = 0 :=
      Matrix.get_of_rows_le _ _ (by rw [rows_asRows ht]; omega)
    rw [Matrix.get_of_rows_le _ j (by omega), m.get_of_rows_le j (by omega), hz, ite_self, add_zero]

end Tensor

/-- One operation on columns that are cut up alike. -/
theorem joined_map₂ [Zero α] {β : Type} (op : α → α → α) (hop : op 0 0 = 0) (xs : List β) (size : β → Nat)
    (u v : β → Nat → α) (i : Nat) :
    op (joined (xs.map fun x => (size x, u x)) i) (joined (xs.map fun x => (size x, v x)) i) =
      joined (xs.map fun x => (size x, fun k => op (u x k) (v x k))) i := by
  induction xs generalizing i with
  | nil => exact hop
  | cons x xs ih =>
    simp only [List.map_cons, joined]
    split
    · rfl
    · exact ih _

namespace Matrix

variable {β : Type} {cols : Nat} {xs : List β} {f : β → Matrix α} {size : β → Nat}

theorem rows_stack_map [Zero α] (h : ∀ x ∈ xs, (f x).rows = size x) :
    (stack cols (xs.map f)).rows = total (xs.map size) := by
  rw [rows_stack, List.map_map]
  exact congrArg total (List.map_congr_left h)

/-- The products of the rows of a stack with a point are those of the parts, one after the other. -/
theorem dot_row_stack [NonUnitalNonAssocSemiring α] (h : ∀ x ∈ xs, (f x).rows = size x ∧ (f x).cols = cols)
    (y : List α) (i : Nat) :
    dot ((stack cols (xs.map f)).row i) y = joined (xs.map fun x => (size x, fun k => dot ((f x).row k) y)) i := by
  have hcols : ∀ m ∈ xs.map f, m.cols = cols := List.forall_mem_map.mpr fun x hx => (h x hx).2
  rw [dot_row, cols_stack]
  simp only [get_stack hcols]
  clear hcols
  induction xs generalizing i with
  | nil => simp [joined]
  | cons x xs ih =>
    obtain ⟨hrows, hcols⟩ := h x List.mem_cons_self
    simp only [List.map_cons, joined, hrows]
    split
    · rw [dot_row, hcols]
    · exact ih (fun z hz => h z (List.mem_cons_of_mem x hz)) _

end Matrix

namespace Block

open Coefficients (entry)

variable {width start : Int → Nat} {offsetOf : Label → Option Int} {w rows : Nat} {e : Label × Tensor α}
  {cs : List (Label × Tensor α)}

/-! One coefficient after the other -/

/-- Adds a coefficient to the columns of its variable. -/
def addWindow [Zero α] [Add α] (offsetOf : Label → Option Int) (m : Matrix α) (e : Label × Tensor α) :
    Result (Matrix α) :=
  match offsetOf e.1 with
  | some first => do Tensor.addColumns m first (first + (← columns e.2 : Nat)) e.2
  | none => .error .missingKey

theorem spread_eq [Zero α] [Add α] (b : Block α) :
    spread offsetOf w b = b.coeffs.foldlM (addWindow offsetOf) (Matrix.zeros b.size w) := rfl

/-- A coefficient has a number of rows, and its columns, if it has an offset, are among `w`. -/
def FitsWindow (offsetOf : Label → Option Int) (rows w : Nat) (e : Label × Tensor α) : Prop :=
  ∃ cols : Nat, e.2.dims = [rows, cols] ∧ ∀ first, offsetOf e.1 = some first → 0 ≤ first ∧ first + cols ≤ w

theorem FitsWindow.exists_start (h : FitsWindow offsetOf rows w e) (hk : offsetOf e.1 ≠ none) :
    ∃ first cols : Nat, offsetOf e.1 = some (first : Int) ∧ e.2.dims = [rows, cols] ∧ first + cols ≤ w := by
  obtain ⟨cols, hd, hfits⟩ := h
  obtain ⟨first, hfirst⟩ := Option.ne_none_iff_exists'.mp hk
  obtain ⟨hle, hlt⟩ := hfits first hfirst
  obtain ⟨n, rfl⟩ := Int.eq_ofNat_of_zero_le hle
  exact ⟨n, cols, hfirst, hd, by omega⟩

/-- What a coefficient contributes to a row at a point, whose entries are read from the offset on. -/
def contribution [NonUnitalNonAssocSemiring α] (offsetOf : Label → Option Int) (y : List α) (i : Nat)
    (e : Label × Tensor α) : α :=
  (offsetOf e.1).elim 0 fun first =>
    ∑ j ∈ Finset.range e.2.asRows.cols, e.2.asRows.get i j * y.getD (first.toNat + j) 0

section

variable [Zero α] [Add α] {m : Matrix α}

theorem addWindow_of_none (h : offsetOf e.1 = none) : addWindow offsetOf m e = .error .missingKey := by
  rw [addWindow, h]

theorem addWindow_of_some {first : Int} {r c : Nat} (h : offsetOf e.1 = some first) (hd : e.2.dims = [r, c]) :
    addWindow offsetOf m e = Tensor.addColumns m first (first + (c : Nat)) e.2 := by
  have hcol : columns e.2 = .ok c := by rw [columns, hd]
  rw [addWindow, h]
  simp only [hcol]
  rfl

theorem exists_addWindow (h : FitsWindow offsetOf m.rows m.cols e) (hk : offsetOf e.1 ≠ none) :
    ∃ u, addWindow offsetOf m e = .ok u ∧ u.rows = m.rows ∧ u.cols = m.cols := by
  obtain ⟨first, cols, hfirst, hd, hle⟩ := h.exists_start hk
  obtain ⟨u, hu, hrows, hcols, _⟩ := Tensor.addColumns_eq hd hle
  exact ⟨u, (addWindow_of_some hfirst hd).trans hu, hrows, hcols⟩

theorem exists_foldlM_addWindow (h : ∀ e ∈ cs, FitsWindow offsetOf m.rows m.cols e)
    (hk : ∀ e ∈ cs, offsetOf e.1 ≠ none) :
    ∃ G, cs.foldlM (addWindow offsetOf) m = .ok G ∧ G.rows = m.rows ∧ G.cols = m.cols := by
  induction cs generalizing m with
  | nil => exact ⟨m, rfl, rfl, rfl⟩
  | cons e cs ih =>
    obtain ⟨u, hu, hrows, hcols⟩ := exists_addWindow (h e List.mem_cons_self) (hk e List.mem_cons_self)
    obtain ⟨G, hG, hGrows, hGcols⟩ := ih (fun d hd => hrows ▸ hcols ▸ h d (List.mem_cons_of_mem e hd))
      fun d hd => hk d (List.mem_cons_of_mem e hd)
    refine ⟨G, ?_, hGrows.trans hrows, hGcols.trans hcols⟩
    rw [List.foldlM_cons, hu]
    exact hG

/-- The first coefficient without an offset is missed. -/
theorem foldlM_addWindow_eq_error (h : ∀ e ∈ cs, FitsWindow offsetOf m.rows m.cols e)
    (hk : ∃ e ∈ cs, offsetOf e.1 = none) : cs.foldlM (addWindow offsetOf) m = .error .missingKey := by
  induction cs generalizing m with
  | nil =>
    obtain ⟨_, he, _⟩ := hk
    cases he
  | cons e cs ih =>
    rw [List.foldlM_cons]
    by_cases he : offsetOf e.1 = none
    · rw [addWindow_of_none he]
      rfl
    · obtain ⟨u, hu, hrows, hcols⟩ := exists_addWindow (h e List.mem_cons_self) he
      rw [hu]
      refine ih (fun d hd => hrows ▸ hcols ▸ h d (List.mem_cons_of_mem e hd)) ?_
      obtain ⟨d, hd, hnone⟩ := hk
      rcases List.mem_cons.mp hd with rfl | hd
      · exact absurd hnone he
      · exact ⟨d, hd, hnone⟩

end

section

variable [NonUnitalNonAssocSemiring α] {m u G : Matrix α}

theorem dot_addWindow (h : FitsWindow offsetOf m.rows m.cols e) (hu : addWindow offsetOf m e = .ok u) (i : Nat)
    (y : List α) : Matrix.dot (u.row i) y = Matrix.dot (m.row i) y + contribution offsetOf y i e := by
  have hk : offsetOf e.1 ≠ none := by
    intro hk
    rw [addWindow_of_none hk] at hu
    cases hu
  obtain ⟨first, cols, hfirst, hd, hle⟩ := h.exists_start hk
  rw [addWindow_of_some hfirst hd] at hu
  obtain ⟨v, hv, _, hcols, _⟩ := Tensor.addColumns_eq hd hle
  obtain rfl := Except.ok.inj (hv.symm.trans hu)
  have hget := Tensor.get_addColumns hd hle hv
  rw [Matrix.dot_row, Matrix.dot_row, hcols, contribution, hfirst, Option.elim_some, Tensor.cols_asRows hd,
    volume_singleton, Int.toNat_natCast]
  simp only [hget, add_mul, Finset.sum_add_distrib]
  rw [sum_range_window hle]

theorem dot_foldlM_addWindow (h : ∀ e ∈ cs, FitsWindow offsetOf m.rows m.cols e)
    (hG : cs.foldlM (addWindow offsetOf) m = .ok G) (i : Nat) (y : List α) :
    Matrix.dot (G.row i) y = Matrix.dot (m.row i) y + (cs.map (contribution offsetOf y i)).sum := by
  induction cs generalizing m with
  | nil =>
    obtain rfl := Except.ok.inj hG
    exact (add_zero _).symm
  | cons e cs ih =>
    have he := h e List.mem_cons_self
    rw [List.foldlM_cons] at hG
    obtain ⟨u, hu, hG⟩ := bind_eq_ok.mp hG
    have hk : offsetOf e.1 ≠ none := by
      intro hk
      rw [addWindow_of_none hk] at hu
      cases hu
    obtain ⟨v, hv, hrows, hcols⟩ := exists_addWindow he hk
    obtain rfl := Except.ok.inj (hv.symm.trans hu)
    rw [ih (fun d hd => hrows ▸ hcols ▸ h d (List.mem_cons_of_mem e hd)) hG, dot_addWindow he hu, List.map_cons,
      List.sum_cons, add_assoc]

end

/-- The rows of a block over all columns take from a point what its coefficients contribute. -/
theorem dot_spread_eq_sum [NonUnitalNonAssocSemiring α] {b : Block α} {G : Matrix α}
    (h : ∀ e ∈ b.coeffs, FitsWindow offsetOf b.size w e) (hG : spread offsetOf w b = .ok G) (i : Nat) (y : List α) :
    Matrix.dot (G.row i) y = (b.coeffs.map (contribution offsetOf y i)).sum := by
  have hz : ∀ j, (Matrix.zeros b.size w : Matrix α).get i j = 0 := by
    intro j
    rw [Matrix.zeros, Matrix.const, Matrix.get_ofFn_eq, ite_self]
  have hzero : Matrix.dot ((Matrix.zeros b.size w : Matrix α).row i) y = 0 := by
    rw [Matrix.dot_row]
    simp only [hz, zero_mul, Finset.sum_const_zero]
  rw [dot_foldlM_addWindow (m := Matrix.zeros b.size w) h hG, hzero, zero_add]

/-! Blocks through windows -/

/-- A block whose coefficients have its rows and stay, where they have an offset, among the columns. -/
structure Windowed (offsetOf : Label → Option Int) (w : Nat) (b : Block α) : Prop where
  coeffs : ∀ e ∈ b.coeffs, FitsWindow offsetOf b.size w e
  offset : b.offset.dims = [b.size]

section windowed

variable {b : Block α} {bs : List (Block α)}

section

variable [Zero α] [Add α]

/-- A block is spread over all columns. -/
theorem exists_spread (h : b.Windowed offsetOf w) (hk : ∀ e ∈ b.coeffs, offsetOf e.1 ≠ none) :
    ∃ G, spread offsetOf w b = .ok G ∧ G.rows = b.size ∧ G.cols = w :=
  exists_foldlM_addWindow (m := Matrix.zeros b.size w) h.coeffs hk

variable [OfDouble α]

/-- Blocks are spread one by one, each into a part of the rows, and their offsets stand one after the other. -/
theorem exists_stack (h : ∀ b ∈ bs, b.Windowed offsetOf w) (hk : ∀ b ∈ bs, ∀ e ∈ b.coeffs, offsetOf e.1 ≠ none) :
    ∃ (part : Block α → Matrix α) (g : Numbers α),
      stack offsetOf w bs = .ok (Matrix.stack w (bs.map part), g) ∧
      (∀ b ∈ bs, spread offsetOf w b = .ok (part b) ∧ (part b).rows = b.size ∧ (part b).cols = w) ∧
      g.dims = [total (bs.map size)] ∧ (∀ i, g.realAt i = joined (bs.map fun b => (b.size, b.constant)) i) ∧
      ((∀ b ∈ bs, ∃ t, b.offset = .reals t) → ∃ t, g = .reals t) := by
  have hspread : ∀ b ∈ bs, ∃ G, spread offsetOf w b = .ok G ∧ G.rows = b.size ∧ G.cols = w :=
    fun b hb => exists_spread (h b hb) (hk b hb)
  choose! part hpart using hspread
  by_cases hne : bs = []
  · subst hne
    exact ⟨part, .reals (.zeros [0]), rfl, hpart, rfl, fun i => Tensor.get_zeros _ i 0, fun _ => ⟨_, rfl⟩⟩
  · have hparts : bs.mapM (spread offsetOf w) = .ok (bs.map part) := mapM_eq_ok_map fun b hb => (hpart b hb).1
    obtain ⟨g, hg, hgd, _, hget⟩ := Numbers.joinRows_columns size hne fun b hb => (h b hb).offset
    have hempty : ¬bs.isEmpty := by simpa using hne
    refine ⟨part, g, ?_, hpart, hgd, hget, fun hreals => ?_⟩
    · rw [stack, if_neg hempty, hparts, hg]
      rfl
    · exact Numbers.exists_reals_of_joinRows (fun he => hne (List.map_eq_nil_iff.mp he))
        (List.forall_mem_map.mpr hreals) hg

end

variable [NonUnitalNonAssocSemiring α] [OfDouble α]

/-- The rows of blocks one above the other take from a point what the coefficients of the blocks contribute. -/
theorem stack_gives (h : ∀ b ∈ bs, b.Windowed offsetOf w) (hk : ∀ b ∈ bs, ∀ e ∈ b.coeffs, offsetOf e.1 ≠ none)
    {G : Matrix α} {g : Numbers α} (hG : stack offsetOf w bs = .ok (G, g)) (i : Nat) (y : List α) :
    Matrix.dot (G.row i) y + g.realAt i = joined (bs.map fun b =>
      (b.size, fun k => (b.coeffs.map (contribution offsetOf y k)).sum + b.constant k)) i := by
  obtain ⟨part, _, hstack, hpart, _, hget, _⟩ := exists_stack h hk
  obtain ⟨rfl, rfl⟩ := Prod.mk.inj (Except.ok.inj (hstack.symm.trans hG))
  rw [Matrix.dot_row_stack fun b hb => (hpart b hb).2, hget, joined_map₂ (· + ·) (add_zero 0)]
  congr 1
  apply List.map_congr_left
  intro b hb
  simp only [dot_spread_eq_sum (h b hb).coeffs (hpart b hb).1]

end windowed

/-! Regular blocks -/

/-- Every variable has its range of columns. -/
def HasRange (offsetOf : Label → Option Int) (w : Nat) (width start : Int → Nat) (id : Int) : Prop :=
  offsetOf (.ofId id) = some (start id : Int) ∧ start id + width id ≤ w

/-- A regular block reads a point through the ranges of its variables. -/
theorem windowed_of_hasRange {b : Block α} (h : b.Regular rows width)
    (hr : ∀ id ∈ ids b.coeffs, HasRange offsetOf w width start id) :
    b.Windowed offsetOf w ∧ ∀ e ∈ b.coeffs, offsetOf e.1 ≠ none := by
  obtain rfl := h.size_eq
  have hfits : ∀ e ∈ b.coeffs, FitsWindow offsetOf b.size w e ∧ offsetOf e.1 ≠ none := by
    rintro ⟨l, t⟩ he
    obtain ⟨id, hid, hd⟩ := h.coeffs.labelled _ he
    obtain rfl : l = .ofId id := hid
    obtain ⟨hoff, hle⟩ := hr id (mem_ids_of_mem he)
    rw [FitsWindow, hoff]
    refine ⟨⟨width id, hd, fun first hfirst => ?_⟩, Option.some_ne_none _⟩
    obtain rfl := Option.some.inj hfirst
    omega
  obtain ⟨t, ht, hd⟩ := h.offset
  exact ⟨⟨fun e he => (hfits e he).1, by rw [ht]; exact hd⟩, fun e he => (hfits e he).2⟩

section regular

variable {bs : List (Block α)} (h : ∀ b ∈ bs, b.Regular b.size width)
  (hr : ∀ b ∈ bs, ∀ id ∈ ids b.coeffs, HasRange offsetOf w width start id)

include h hr

theorem exists_regular_stack [Zero α] [Add α] [OfDouble α] : ∃ (part : Block α → Matrix α) (t : Tensor α),
    stack offsetOf w bs = .ok (Matrix.stack w (bs.map part), .reals t) ∧
    (∀ b ∈ bs, spread offsetOf w b = .ok (part b) ∧ (part b).rows = b.size ∧ (part b).cols = w) ∧
    t.dims = [total (bs.map size)] ∧
    ∀ i, t.asRows.get i 0 = joined (bs.map fun b => (b.size, b.constant)) i := by
  obtain ⟨part, g, hstack, hpart, hgd, hget, hreals⟩ := exists_stack
    (fun b hb => (windowed_of_hasRange (h b hb) (hr b hb)).1) fun b hb => (windowed_of_hasRange (h b hb) (hr b hb)).2
  obtain ⟨t, rfl⟩ := hreals fun b hb => (h b hb).offset.imp fun _ ht => ht.1
  exact ⟨part, t, hstack, hpart, hgd, hget⟩

omit h hr in
/-- What the coefficients of a regular block contribute, with the offset, is the value of the row. -/
theorem sum_contribution [NonUnitalNonAssocSemiring α] [OfDouble α] {b : Block α} (h : b.Regular rows width)
    (hr : ∀ id ∈ ids b.coeffs, HasRange offsetOf w width start id) (y : List α) (k : Nat) :
    (b.coeffs.map (contribution offsetOf y k)).sum + b.constant k =
      b.eval width (fun id j => y.getD (start id + j) 0) k := by
  rw [eval]
  congr 1
  apply h.coeffs.sum_map
  intro id t ht
  obtain ⟨q, hq, hd⟩ := h.coeffs.labelled _ ht
  obtain rfl : id = q := by simpa [Label.ofId] using hq
  rw [contribution, (hr id (mem_ids_of_mem ht)).1, Option.elim_some, Tensor.cols_asRows hd, volume_singleton,
    Int.toNat_natCast]
  simp only [entry, h.coeffs.get?_eq_some ht, Option.elim_some]

/-- Regular blocks one above the other give their values one after the other. -/
theorem stack_eval [NonUnitalNonAssocSemiring α] [OfDouble α] {G : Matrix α} {t : Tensor α}
    (hG : stack offsetOf w bs = .ok (G, .reals t)) (i : Nat) (y : List α) :
    Matrix.dot (G.row i) y + t.asRows.get i 0 =
      joined (bs.map fun b => (b.size, b.eval width fun id j => y.getD (start id + j) 0)) i := by
  have hgives : Matrix.dot (G.row i) y + t.asRows.get i 0 = _ := stack_gives
    (fun b hb => (windowed_of_hasRange (h b hb) (hr b hb)).1)
    (fun b hb => (windowed_of_hasRange (h b hb) (hr b hb)).2) hG i y
  rw [hgives]
  congr 1
  apply List.map_congr_left
  intro b hb
  simp only [sum_contribution (h b hb) (hr b hb)]

end regular

end Block

end ConicForm
