import ConicForm.Proofs.BlockSums
import ConicForm.Proofs.Places
import Mathlib.Algebra.Field.Basic

/-!
# Rules of several operands

Sums and stacks make, of the blocks of their operands' values, the block of the sum or the stack of these
values: `Block.Assembles`. A stack from top to bottom is a sum of blocks whose rows have been put to bands.
-/

namespace ConicForm

namespace Matrix

variable {α : Type} [Zero α]

theorem rows_sideBySide {r : Nat} {ms : List (Matrix α)} (h : ∀ m ∈ ms, m.rows = r) :
    (sideBySide r ms).rows = r := by
  cases ms with
  | nil => rfl
  | cons m ms => exact h m List.mem_cons_self

theorem cols_sideBySide (r : Nat) (ms : List (Matrix α)) :
    (sideBySide r ms).cols = total (ms.map cols) := by
  induction ms with
  | nil => rfl
  | cons m ms ih => exact congrArg (m.cols + ·) ih

/-- Side by side, the columns stand one after the other. -/
theorem flat_sideBySide {r : Nat} {ms : List (Matrix α)} (h : ∀ m ∈ ms, m.rows = r) (k : Nat) :
    (sideBySide r ms).flat k = joined (ms.map fun m => (m.shape.size, m.flat)) k := by
  induction ms generalizing k with
  | nil =>
    have h0 : (sideBySide r ([] : List (Matrix α))).shape.size = 0 := Nat.mul_zero r
    exact flat_of_le _ (by omega)
  | cons m ms ih =>
    have hm := h m List.mem_cons_self
    have htail : ∀ n ∈ ms, n.rows = r := fun n hn => h n (List.mem_cons_of_mem _ hn)
    have hrest := rows_sideBySide htail
    rw [List.map_cons, joined, ← ih htail, flat_eq, flat_eq, flat_eq, hrest]
    change (m.beside (sideBySide r ms)).get (k % m.rows) (k / m.rows) = _
    rw [get_beside m _ (hm.trans hrest.symm), hm]
    rcases Nat.eq_zero_or_pos r with rfl | hr
    · have h0 : ∀ n : Matrix α, n.rows = 0 → ∀ i j, n.get i j = 0 :=
        fun n hn i j => n.get_of_rows_le j (by omega)
      rw [h0 m hm, h0 _ hrest, h0 _ hrest, ite_self, ite_self]
    · have hsize : m.shape.size = m.cols * r := by
        rw [shape, Shape.size, hm]
        exact Nat.mul_comm _ _
      have hlt : k / r < m.cols ↔ k < m.shape.size := by rw [hsize, Nat.div_lt_iff_lt_mul hr]
      by_cases hk : k < m.shape.size
      · rw [if_pos hk, if_pos (hlt.mpr hk)]
      · have hle : m.cols * r ≤ k := by omega
        rw [if_neg hk, if_neg (mt hlt.mp hk), hsize, Nat.mul_comm m.cols r, Nat.sub_mul_div,
          Nat.sub_mul_mod (by rwa [Nat.mul_comm])]

end Matrix

/-- The entries of nodes of a common height, side by side. -/
theorem Node.total_size {α : Type} {r : Nat} {xs : List (Node α)} (h : ∀ x ∈ xs, x.shape.rows = r) :
    total (xs.map size) = r * total (xs.map fun x => x.shape.cols) := by
  induction xs with
  | nil => rfl
  | cons x xs ih =>
    obtain ⟨hx, h⟩ := List.forall_mem_cons.mp h
    rw [List.map_cons, List.map_cons, total_cons, total_cons, ih h, size, Shape.size, hx, Nat.mul_add]

namespace Block

section

variable {α : Type} [Zero α] [One α] [Add α] [Neg α] [Mul α] [Div α] [OfDouble α] {width : Int → Nat}
  {xs : List (Node α)} {g : Node α → Block α} {t : Shape} {ident : Nat} {data : Payload α}

omit [Zero α] [One α] [Add α] [Neg α] [Mul α] [Div α] [OfDouble α] in
theorem mem_ids_map {id : Int} :
    (∃ b ∈ xs.map g, id ∈ ids b.coeffs) ↔ ∃ x ∈ xs, id ∈ ids (g x).coeffs := by
  simp only [List.mem_map, exists_exists_and_eq_and]

omit [Zero α] [One α] [Add α] [Neg α] [Mul α] [Div α] [OfDouble α] in
theorem regular_of_same_shape (hs : ∀ x ∈ xs, x.shape = t) (hg : ∀ x ∈ xs, (g x).Regular x.size width) :
    ∀ b ∈ xs.map g, b.Regular t.size width := by
  intro b hb
  obtain ⟨x, hx, rfl⟩ := List.mem_map.mp hb
  rw [← hs x hx]
  exact hg x hx

theorem sum_rule_merges (hne : xs ≠ []) (hs : ∀ x ∈ xs, x.shape = t)
    (hg : ∀ x ∈ xs, (g x).Regular x.size width) :
    ∃ c, rule ⟨ident, .sum, t, xs, data⟩ (xs.map g) = .ok c ∧ Merges (xs.map g) c t.size width :=
  sum_merges (fun h => hne (List.map_eq_nil_iff.mp h)) (regular_of_same_shape hs hg)

omit [Zero α] [One α] [Add α] [Neg α] [Mul α] [Div α] [OfDouble α] in
/-- The rows of blocks of operands of a common height. -/
theorem total_size_map {r : Nat} (hs : ∀ x ∈ xs, x.shape.rows = r) (hg : ∀ x ∈ xs, (g x).size = x.size) :
    total ((xs.map g).map size) = r * total (xs.map fun x => x.shape.cols) := by
  rw [← Node.total_size hs, List.map_map]
  exact congrArg total (List.map_congr_left hg)

/-- Blocks one above the other, of operands side by side. -/
theorem hstack_rule_isStack (hne : xs ≠ []) (hs : ∀ x ∈ xs, x.shape.rows = t.rows)
    (ht : t.cols = total (xs.map fun x => x.shape.cols))
    (hg : ∀ x ∈ xs, (g x).Regular x.size width) :
    ∃ c, rule ⟨ident, .hstack, t, xs, data⟩ (xs.map g) = .ok c ∧ IsStack (xs.map g) c width ∧
      total ((xs.map g).map size) = t.size := by
  have hreg : ∀ b ∈ xs.map g, b.Regular b.size width := by
    intro b hb
    obtain ⟨x, hx, rfl⟩ := List.mem_map.mp hb
    rw [(hg x hx).size_eq]
    exact hg x hx
  obtain ⟨c, hc, hstack⟩ := concat_isStack (fun h => hne (List.map_eq_nil_iff.mp h)) hreg
  refine ⟨c, hc, hstack, ?_⟩
  rw [total_size_map hs fun x hx => (hg x hx).size_eq, ← ht]
  rfl

theorem hstack_rule_merges (hne : xs ≠ []) (hs : ∀ x ∈ xs, x.shape.rows = t.rows)
    (ht : t.cols = total (xs.map fun x => x.shape.cols))
    (hg : ∀ x ∈ xs, (g x).Regular x.size width) :
    ∃ c, rule ⟨ident, .hstack, t, xs, data⟩ (xs.map g) = .ok c ∧ Merges (xs.map g) c t.size width := by
  obtain ⟨c, hc, hstack, hsize⟩ := hstack_rule_isStack hne hs ht hg
  exact ⟨c, hc, hsize ▸ hstack.toMerges⟩

/-- Blocks of the operands from some row on, each with its rows at their band. -/
inductive Placed (s : Shape) (width : Int → Nat) (g : Node α → Block α) : Nat → List (Node α) →
    List (Block α) → Prop
  | nil (row : Nat) : Placed s width g row [] []
  | cons {row : Nat} {x : Node α} {xs : List (Node α)} {c : Block α} {cs : List (Block α)}
      (hband : row + x.shape.rows ≤ s.rows)
      (hc : Image (scattered (Grid.band s row x.shape.rows)) (g x) c s.size width)
      (hcs : Placed s width g (row + x.shape.rows) xs cs) : Placed s width g row (x :: xs) (c :: cs)

namespace Placed

variable {row : Nat} {cs : List (Block α)}

omit [One α] [Add α] [Neg α] [Mul α] [Div α] in
theorem length_eq (h : Placed t width g row xs cs) : cs.length = xs.length := by
  induction h with
  | nil => rfl
  | cons _ _ _ ih => exact congrArg (· + 1) ih

omit [One α] [Add α] [Neg α] [Mul α] [Div α] in
theorem regular (h : Placed t width g row xs cs) : ∀ c ∈ cs, c.Regular t.size width := by
  induction h with
  | nil => exact List.forall_mem_nil _
  | cons _ hc _ ih => exact List.forall_mem_cons.mpr ⟨hc.regular, ih⟩

omit [One α] [Add α] [Neg α] [Mul α] [Div α] in
theorem mem_ids (h : Placed t width g row xs cs) (id : Int) :
    (∃ c ∈ cs, id ∈ ids c.coeffs) ↔ ∃ x ∈ xs, id ∈ ids (g x).coeffs := by
  induction h with
  | nil => simp
  | cons _ hc _ ih => simp only [List.exists_mem_cons_iff, ih, hc.ids_eq]

end Placed

omit [One α] [Add α] [Neg α] [Mul α] [Div α] in
theorem placed_eq {n : Node α} {row : Nat} (hs : ∀ x ∈ xs, x.shape.cols = n.shape.cols)
    (hrow : row + total (xs.map fun x => x.shape.rows) ≤ n.shape.rows)
    (hg : ∀ x ∈ xs, (g x).Regular x.size width) :
    ∃ cs, placed n row xs (xs.map g) = .ok cs ∧ Placed n.shape width g row xs cs := by
  induction xs generalizing row with
  | nil => exact ⟨[], rfl, .nil row⟩
  | cons x xs ih =>
    rw [List.map_cons, total_cons] at hrow
    obtain ⟨cs, hcs, hplaced⟩ := ih (fun y hy => hs y (List.mem_cons_of_mem _ hy))
      (by omega : row + x.shape.rows + _ ≤ _) fun y hy => hg y (List.mem_cons_of_mem _ hy)
    have hband : row + x.shape.rows ≤ n.shape.rows := by omega
    have hplaces : (Grid.band n.shape row x.shape.rows).length = x.size := by
      rw [Grid.length_band hband, ← hs x List.mem_cons_self]
      rfl
    obtain ⟨d, hd, hput⟩ := scatter_image (hg x List.mem_cons_self) hplaces (Grid.band_lt hband)
    refine ⟨d :: cs, ?_, .cons hband hput hplaced⟩
    have hstep : placed n row (x :: xs) ((x :: xs).map g) = (do
        let first ← (g x).scatter (.ofPlaces (Grid.band n.shape row x.shape.rows)) n.size
        return first :: (← placed n (row + x.shape.rows) xs (xs.map g))) := rfl
    have hd : (g x).scatter (.ofPlaces (Grid.band n.shape row x.shape.rows)) n.size = .ok d := hd
    rw [hstep, hd, hcs]
    rfl

/-- A stack from top to bottom is the sum of its operands' blocks at their bands. -/
theorem vstack_rule_placed (hne : xs ≠ []) (hs : ∀ x ∈ xs, x.shape.cols = t.cols)
    (ht : t.rows = total (xs.map fun x => x.shape.rows))
    (hg : ∀ x ∈ xs, (g x).Regular x.size width) :
    ∃ cs, rule ⟨ident, .vstack, t, xs, data⟩ (xs.map g) = sum cs ∧ cs ≠ [] ∧ Placed t width g 0 xs cs := by
  have hrow : 0 + total (xs.map fun x => x.shape.rows) ≤ t.rows := by rw [Nat.zero_add, ← ht]
  obtain ⟨cs, hcs, hplaced⟩ := placed_eq (n := ⟨ident, .vstack, t, xs, data⟩) hs hrow hg
  refine ⟨cs, ?_, fun h => hne (List.length_eq_zero_iff.mp ?_), hplaced⟩
  · change (placed _ 0 xs (xs.map g) >>= sum) = _
    rw [hcs]
    rfl
  · rw [← hplaced.length_eq, h]
    rfl

theorem vstack_rule_merges (hne : xs ≠ []) (hs : ∀ x ∈ xs, x.shape.cols = t.cols)
    (ht : t.rows = total (xs.map fun x => x.shape.rows))
    (hg : ∀ x ∈ xs, (g x).Regular x.size width) :
    ∃ c, rule ⟨ident, .vstack, t, xs, data⟩ (xs.map g) = .ok c ∧ Merges (xs.map g) c t.size width := by
  obtain ⟨cs, hrule, hcs, hplaced⟩ := vstack_rule_placed hne hs ht hg
  obtain ⟨c, hc, hm⟩ := sum_merges hcs hplaced.regular
  exact ⟨c, hrule.trans hc, hm.regular, fun id => by rw [hm.mem_ids, hplaced.mem_ids, mem_ids_map]⟩

end

variable {α : Type} [Field α] [OfDouble α] {width : Int → Nat} {xs : List (Node α)}
  {g : Node α → Block α} {c : Block α} {t : Shape}

/-- `c` is the block of `F` of some values, of each of which `g` gives the block. -/
structure Assembles (F : List (Matrix α) → Matrix α) (xs : List (Node α)) (g : Node α → Block α)
    (c : Block α) (t : Shape) (width : Int → Nat) : Prop where
  regular : c.Regular t.size width
  mem_ids : ∀ id, id ∈ ids c.coeffs ↔ ∃ x ∈ xs, id ∈ ids (g x).coeffs
  shape_eq : ∀ m : Node α → Matrix α, (∀ x ∈ xs, (m x).shape = x.shape) → (F (xs.map m)).shape = t
  flat_eq : ∀ v (m : Node α → Matrix α), (∀ x ∈ xs, (m x).shape = x.shape) →
    (∀ x ∈ xs, ∀ k, (g x).eval width v k = (m x).flat k) →
    ∀ k, c.eval width v k = (F (xs.map m)).flat k

variable {ident : Nat} {data : Payload α}

theorem sum_assembles (hne : xs ≠ []) (hs : ∀ x ∈ xs, x.shape = t)
    (hg : ∀ x ∈ xs, (g x).Regular x.size width) :
    ∃ c, rule ⟨ident, .sum, t, xs, data⟩ (xs.map g) = .ok c ∧
      Assembles (Matrix.sumOf t) xs g c t width := by
  obtain ⟨c, hc, hsum⟩ := sum_isSum (fun h => hne (List.map_eq_nil_iff.mp h)) (regular_of_same_shape hs hg)
  refine ⟨c, hc, hsum.regular, fun id => (hsum.mem_ids id).trans mem_ids_map, fun _ _ => rfl, ?_⟩
  intro v m hm hflat k
  have hmap : (xs.map g).map (fun b => b.eval width v k) = xs.map fun x => (m x).flat k := by
    rw [List.map_map]
    exact List.map_congr_left fun x hx => hflat x hx k
  rw [hsum.eval_eq, hmap]
  by_cases hk : k < t.size
  · have hrows : ∀ x ∈ xs, (m x).flat k = (m x).get (k % t.rows) (k / t.rows) := by
      intro x hx
      have hr : (m x).rows = t.rows := congrArg Shape.rows ((hm x hx).trans (hs x hx))
      rw [Matrix.flat_eq, hr]
    rw [List.map_congr_left hrows, Matrix.sumOf]
    refine Eq.trans ?_ (Matrix.getD_vec_ofFn _ hk).symm
    rw [List.map_map]
    rfl
  · have hzero : ∀ x ∈ xs, (m x).flat k = 0 := by
      intro x hx
      apply Matrix.flat_of_le
      rw [hm x hx, hs x hx]
      omega
    rw [List.map_congr_left hzero]
    refine Eq.trans ?_ (Matrix.flat_of_le _ (Nat.le_of_not_lt hk)).symm
    simp

theorem hstack_assembles (hne : xs ≠ []) (hs : ∀ x ∈ xs, x.shape.rows = t.rows)
    (ht : t.cols = total (xs.map fun x => x.shape.cols))
    (hg : ∀ x ∈ xs, (g x).Regular x.size width) :
    ∃ c, rule ⟨ident, .hstack, t, xs, data⟩ (xs.map g) = .ok c ∧
      Assembles (Matrix.sideBySide t.rows) xs g c t width := by
  obtain ⟨c, hc, hstack, hsize⟩ := hstack_rule_isStack hne hs ht hg
  refine ⟨c, hc, hsize ▸ hstack.regular, fun id => (hstack.mem_ids id).trans mem_ids_map, ?_, ?_⟩
  · intro m hm
    have hrows : ∀ n ∈ xs.map m, n.rows = t.rows := by
      intro n hn
      obtain ⟨x, hx, rfl⟩ := List.mem_map.mp hn
      exact (congrArg Shape.rows (hm x hx)).trans (hs x hx)
    have hcols : (xs.map m).map Matrix.cols = xs.map fun x => x.shape.cols := by
      rw [List.map_map]
      exact List.map_congr_left fun x hx => congrArg Shape.cols (hm x hx)
    rw [Matrix.shape, Matrix.rows_sideBySide hrows, Matrix.cols_sideBySide, hcols, ← ht]
  · intro v m hm hflat k
    rw [hstack.eval_eq, Matrix.flat_sideBySide, List.map_map, List.map_map]
    · congr 1
      apply List.map_congr_left
      intro x hx
      apply Prod.ext
      · exact (hg x hx).size_eq.trans (congrArg Shape.size (hm x hx)).symm
      · exact funext fun k => hflat x hx k
    · intro n hn
      obtain ⟨x, hx, rfl⟩ := List.mem_map.mp hn
      exact (congrArg Shape.rows (hm x hx)).trans (hs x hx)

/-- Blocks at their bands add up to the rows of the operands one after the other. -/
theorem Placed.sum_eval_eq {row : Nat} {cs : List (Block α)} (h : Placed t width g row xs cs) {v : Int → Nat → α}
    {m : Node α → Matrix α} (hm : ∀ x ∈ xs, (m x).shape = x.shape)
    (hflat : ∀ x ∈ xs, ∀ k, (g x).eval width v k = (m x).flat k) {k : Nat} (hk : k < t.size) :
    (cs.map fun c => c.eval width v k).sum = if row ≤ k % t.rows then
      joined (xs.map fun x => (x.shape.rows, fun i => (m x).get i (k / t.rows))) (k % t.rows - row) else 0 := by
  induction h with
  | nil => exact (ite_self 0).symm
  | @cons row x xs c cs hband hc _ ih =>
    have hmx := hm x List.mem_cons_self
    have hrows : (m x).rows = x.shape.rows := congrArg Shape.rows hmx
    have hband' : row + (m x).rows ≤ t.rows := by rw [hrows]; exact hband
    rw [List.map_cons, List.sum_cons, hc.eval_eq (isLinearMap_scattered _) v hk,
      ih (fun y hy => hm y (List.mem_cons_of_mem _ hy)) (fun y hy => hflat y (List.mem_cons_of_mem _ hy)),
      funext (hflat x List.mem_cons_self), ← hrows, (m x).scattered_band hband' hk, hrows, List.map_cons, joined]
    -- a row is above the first band, in it, or in one of the others
    rcases Nat.lt_or_ge (k % t.rows) row with hlt | hge
    · rw [if_neg (by omega), if_neg (by omega), if_neg (by omega), add_zero]
    · rcases Nat.lt_or_ge (k % t.rows) (row + x.shape.rows) with hin | hout
      · rw [if_pos ⟨hge, hin⟩, if_neg (by omega), if_pos hge, if_pos (by omega), add_zero]
      · rw [if_neg (by omega), if_pos hout, if_pos hge, if_neg (by omega), zero_add, Nat.sub_add_eq]

theorem vstack_assembles (hne : xs ≠ []) (hs : ∀ x ∈ xs, x.shape.cols = t.cols)
    (ht : t.rows = total (xs.map fun x => x.shape.rows))
    (hg : ∀ x ∈ xs, (g x).Regular x.size width) :
    ∃ c, rule ⟨ident, .vstack, t, xs, data⟩ (xs.map g) = .ok c ∧
      Assembles (Matrix.stack t.cols) xs g c t width := by
  obtain ⟨cs, hrule, hcne, hplaced⟩ := vstack_rule_placed hne hs ht hg
  obtain ⟨c, hc, hsum⟩ := sum_isSum hcne hplaced.regular
  have hrows : ∀ m : Node α → Matrix α, (∀ x ∈ xs, (m x).shape = x.shape) →
      (xs.map m).map Matrix.rows = xs.map fun x => x.shape.rows := by
    intro m hm
    rw [List.map_map]
    exact List.map_congr_left fun x hx => congrArg Shape.rows (hm x hx)
  have hshape : ∀ m : Node α → Matrix α, (∀ x ∈ xs, (m x).shape = x.shape) →
      (Matrix.stack t.cols (xs.map m)).shape = t := by
    intro m hm
    rw [Matrix.shape, Matrix.rows_stack, Matrix.cols_stack, hrows m hm, ← ht]
  refine ⟨c, hrule.trans hc, hsum.regular, fun id => (hsum.mem_ids id).trans (hplaced.mem_ids id), hshape,
    fun v m hm hflat k => ?_⟩
  by_cases hk : k < t.size
  · have hcols : ∀ u ∈ xs.map m, u.cols = t.cols := by
      intro u hu
      obtain ⟨x, hx, rfl⟩ := List.mem_map.mp hu
      exact (congrArg Shape.cols (hm x hx)).trans (hs x hx)
    have hr : (Matrix.stack t.cols (xs.map m)).rows = t.rows := congrArg Shape.rows (hshape m hm)
    rw [hsum.eval_eq, hplaced.sum_eval_eq hm hflat hk, if_pos (Nat.zero_le _), Nat.sub_zero, Matrix.flat_eq, hr,
      Matrix.get_stack hcols, List.map_map]
    congr 1
    exact List.map_congr_left fun x hx => Prod.ext (congrArg Shape.rows (hm x hx)).symm rfl
  · rw [eval_of_rows_le hsum.regular v (Nat.le_of_not_lt hk), Matrix.flat_of_le]
    rw [hshape m hm]
    exact Nat.le_of_not_lt hk

end Block

end ConicForm
