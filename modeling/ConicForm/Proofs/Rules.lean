import ConicForm.Proofs.RuleImages
import Mathlib.Algebra.Field.Basic

/-!
# Rules of one operand

Each kind of node with one operand makes, of the block of the operand's value, the block of a matrix
operation on that value: `Block.Transforms`.
-/

namespace ConicForm

namespace Block

variable {α : Type} [Field α] [OfDouble α] {b c : Block α} {s t : Shape} {width : Int → Nat}

/-- `c` is the block of `F` of a value of shape `s` of which `b` is the block. -/
structure Transforms (F : Matrix α → Matrix α) (b c : Block α) (s t : Shape) (width : Int → Nat) :
    Prop where
  regular : c.Regular t.size width
  ids_eq : ids c.coeffs = ids b.coeffs
  shape_eq : ∀ m, m.shape = s → (F m).shape = t
  flat_eq : ∀ x m, m.shape = s → (∀ k, b.eval width x k = m.flat k) →
    ∀ k, c.eval width x k = (F m).flat k

theorem Image.transforms {act : (Nat → α) → Nat → α} {F : Matrix α → Matrix α}
    (h : Image act b c t.size width) (hact : IsLinearMap α act) (hshape : ∀ m, m.shape = s → (F m).shape = t)
    (hflat : ∀ m, m.shape = s → ∀ k < t.size, act m.flat k = (F m).flat k) :
    Transforms F b c s t width := by
  refine ⟨h.regular, h.ids_eq, hshape, fun x m hm hb k => ?_⟩
  by_cases hk : k < t.size
  · rw [h.eval_eq hact x hk, funext hb]
    exact hflat m hm k hk
  · rw [eval_of_rows_le h.regular x (by omega), Matrix.flat_of_le]
    rw [hshape m hm]
    omega

/-! Multiples -/

theorem Image.scales {y : α} (h : Image (multiple y) b c s.size width) :
    Transforms (Matrix.map (y * ·)) b c s s width :=
  h.transforms (isLinearMap_multiple y) (fun _ hm => hm) fun m _ k _ => (m.flat_map _ (mul_zero y) k).symm

variable {ident : Nat} {x : Node α} {data : Payload α} {a : Numbers α}

theorem neg_transforms (hb : b.Regular x.size width) :
    ∃ c, rule ⟨ident, .neg, x.shape, [x], data⟩ [b] = .ok c ∧
      Transforms (Matrix.map Neg.neg) b c x.shape x.shape width := by
  obtain ⟨c, hc, himage⟩ := neg_image hb
  have ht := himage.scales
  rw [show (fun y : α => -1 * y) = Neg.neg from funext neg_one_mul] at ht
  exact ⟨c, hc, ht⟩

theorem div_transforms (hb : b.Regular x.size width) (d : α) :
    ∃ c, rule ⟨ident, .div, x.shape, [x], .scalar d⟩ [b] = .ok c ∧
      Transforms (Matrix.map (· / d)) b c x.shape x.shape width := by
  obtain ⟨c, hc, himage⟩ := div_image hb d
  have ht := himage.scales
  rw [show (fun y : α => 1 / d * y) = fun y => y / d from funext (one_div_mul_eq_div d)] at ht
  exact ⟨c, hc, ht⟩

theorem mulElem_transforms (hb : b.Regular x.size width) {r q : Nat} (hd : a.dims = [r, q])
    (hs : a.shape = x.shape) :
    ∃ c, rule ⟨ident, .mulElem, x.shape, [x], .array a⟩ [b] = .ok c ∧
      Transforms a.matrix.weighted b c x.shape x.shape width := by
  obtain ⟨hv, hl⟩ := Numbers.toReals_vec hd
  have hsize : r * q = x.size := congrArg Shape.size ((Numbers.shape_eq hd).symm.trans hs)
  have hmat : a.matrix.shape = x.shape := (Numbers.shape_matrix hd).trans ((Numbers.shape_eq hd).symm.trans hs)
  obtain ⟨c, hc, himage⟩ := mulElem_image hb hd hs
  refine ⟨c, hc, himage.transforms (isLinearMap_weighed _) (fun m hm => hm) fun m hm k hk => ?_⟩
  have hw : a.vec.toReals.asRows.get k 0 = a.matrix.flat k := by
    have hdims : a.vec.toReals.dims = [r * q] := (Numbers.dims_toReals _).trans hv
    have hk : k < r * q := hsize ▸ hk
    rw [Matrix.flat, ← hl, Tensor.toList_eq_vec hdims, Matrix.getD_vec, Tensor.rows_asRows hdims,
      Nat.mod_eq_of_lt hk, Nat.div_eq_of_lt hk]
  have hk : k < m.rows * m.cols := by
    have : k < m.shape.size := hm ▸ hk
    exact this
  have hrows : a.matrix.rows = m.rows := congrArg Shape.rows (hmat.trans hm.symm)
  rw [weighed, hw, Matrix.flat_eq, Matrix.flat_eq, hrows]
  exact (Matrix.getD_vec_ofFn (fun i j => a.matrix.get i j * m.get i j) hk).symm

/-! Products -/

theorem mul_transforms (hb : b.Regular x.size width) {r q : Nat} (hd : a.dims = [r, q])
    (ht : a.shape.isScalar = true ∧ t = x.shape ∨
      a.shape.isScalar = false ∧ a.shape.cols = x.shape.rows ∧ t = ⟨a.shape.rows, x.shape.cols⟩) :
    ∃ c, rule ⟨ident, .mul, t, [x], .array a⟩ [b] = .ok c ∧
      Transforms a.matrix.scaledLeft b c x.shape t width := by
  have hshape : a.matrix.shape = a.shape := (Numbers.shape_matrix hd).trans (Numbers.shape_eq hd).symm
  rcases ht with ⟨hs, rfl⟩ | ⟨hs, hinner, ht⟩
  · obtain ⟨c, hc, himage⟩ := mul_image_of_isScalar hb hd hs
    have hF : Matrix.map (a.matrix.get 0 0 * ·) = a.matrix.scaledLeft := by
      funext m
      rw [Matrix.scaledLeft, hshape, if_pos hs]
    exact ⟨c, hc, hF ▸ himage.scales⟩
  · obtain ⟨c, hc, himage⟩ := mul_image hb hd hs hinner ht
    have hF : ∀ m : Matrix α, a.matrix.scaledLeft m = a.matrix.product m := by
      intro m
      rw [Matrix.scaledLeft, hshape, hs, if_neg Bool.false_ne_true, Matrix.product]
    refine ⟨c, hc, himage.transforms (isLinearMap_combinations _ _) (fun m hm => ?_) fun m hm k hk => ?_⟩
    · have hcols : x.shape.cols = m.cols := (congrArg Shape.cols hm).symm
      rw [hF, ht, hcols, ← hshape]
      rfl
    · have hcols : x.shape.cols = m.cols := (congrArg Shape.cols hm).symm
      have hrows : x.shape.rows = m.rows := (congrArg Shape.rows hm).symm
      have hl : a.matrix.cols = m.rows := (congrArg Shape.cols hshape).trans (hinner.trans hrows)
      have hk : k < a.matrix.rows * m.cols := by
        rw [ht, hcols, ← hshape] at hk
        exact hk
      rw [hF, hcols, Node.size, ← hm]
      exact Matrix.combinations_left a.matrix m hl hk

theorem rmul_transforms (hb : b.Regular x.size width) {r q : Nat} (hd : a.dims = [r, q])
    (ht : a.shape.isScalar = true ∧ t = x.shape ∨
      a.shape.isScalar = false ∧ x.shape.cols = a.shape.rows ∧ t = ⟨x.shape.rows, a.shape.cols⟩) :
    ∃ c, rule ⟨ident, .rmul, t, [x], .array a⟩ [b] = .ok c ∧
      Transforms (Matrix.scaledRight · a.matrix) b c x.shape t width := by
  have hshape : a.matrix.shape = a.shape := (Numbers.shape_matrix hd).trans (Numbers.shape_eq hd).symm
  rcases ht with ⟨hs, rfl⟩ | ⟨hs, hinner, ht⟩
  · obtain ⟨c, hc, himage⟩ := rmul_image_of_isScalar hb hd hs
    have hF : Matrix.map (a.matrix.get 0 0 * ·) = (Matrix.scaledRight · a.matrix) := by
      funext m
      rw [Matrix.scaledRight, hshape, if_pos hs]
    exact ⟨c, hc, hF ▸ himage.scales⟩
  · obtain ⟨c, hc, himage⟩ := rmul_image hb hd hs hinner ht
    have hl : ∀ m : Matrix α, m.shape = x.shape → m.cols = a.matrix.rows := fun m hm =>
      (congrArg Shape.cols hm).trans (hinner.trans (congrArg Shape.rows hshape).symm)
    have hF : ∀ m : Matrix α, m.shape = x.shape → Matrix.scaledRight m a.matrix = m.product a.matrix := by
      intro m hm
      rw [Matrix.scaledRight, hshape, hs, if_neg Bool.false_ne_true, Matrix.product, hl m hm]
    refine ⟨c, hc, himage.transforms (isLinearMap_combinations _ _) (fun m hm => ?_) fun m hm k hk => ?_⟩
    · have hrows : x.shape.rows = m.rows := (congrArg Shape.rows hm).symm
      rw [hF m hm, ht, hrows, ← hshape]
      rfl
    · have hrows : x.shape.rows = m.rows := (congrArg Shape.rows hm).symm
      have hk : k < m.rows * a.matrix.cols := by
        rw [ht, hrows, ← hshape] at hk
        exact hk
      rw [hF m hm, hrows, Node.size, ← hm]
      exact Matrix.combinations_right m a.matrix (hl m hm) hk

/-! Moves -/

theorem promote_transforms (hb : b.Regular x.size width) (hx : x.shape = Shape.scalar) :
    ∃ c, rule ⟨ident, .promote, t, [x], data⟩ [b] = .ok c ∧
      Transforms (fun m => Matrix.const t.rows t.cols (m.get 0 0)) b c x.shape t width := by
  obtain ⟨c, hc, himage⟩ := promote_image (t := t) hb hx
  refine ⟨c, hc, himage.transforms (isLinearMap_gathered _) (fun m _ => rfl) fun m _ k hk => ?_⟩
  rw [Matrix.gathered_replicate m hk]
  exact (Matrix.flat_const _ hk).symm

theorem transpose_transforms (hb : b.Regular x.size width) :
    ∃ c, rule ⟨ident, .transpose, x.shape.transposed, [x], data⟩ [b] = .ok c ∧
      Transforms Matrix.transposed b c x.shape x.shape.transposed width := by
  obtain ⟨c, hc, himage⟩ := transpose_image hb
  refine ⟨c, hc, himage.transforms (isLinearMap_gathered _) (fun m hm => ?_) fun m hm k hk => ?_⟩
  · rw [← hm]
    rfl
  · rw [← hm]
    rw [← hm, Shape.size_transposed] at hk
    exact Matrix.gathered_transposed m hk

theorem index_transforms (hb : b.Regular x.size width) {rows cols : Slice} {r q : Value}
    (hr : rows.Selects r x.shape.rows) (hc : cols.Selects q x.shape.cols)
    (hw : ¬(rows.IsWide ∨ cols.IsWide))
    (ht : t = ⟨(Slice.chosen r x.shape.rows).length, (Slice.chosen q x.shape.cols).length⟩) :
    ∃ c, rule ⟨ident, .index, t, [x], .selection rows cols⟩ [b] = .ok c ∧
      Transforms (fun m => m.submatrix (Slice.chosen r x.shape.rows) (Slice.chosen q x.shape.cols)) b c
        x.shape t width := by
  obtain ⟨c, hc', himage⟩ := index_image hb hr hc hw ht
  refine ⟨c, hc', himage.transforms (isLinearMap_gathered _) (fun m _ => ht.symm) fun m hm k hk => ?_⟩
  have hrows : m.rows = x.shape.rows := congrArg Shape.rows hm
  have hcols : m.cols = x.shape.cols := congrArg Shape.cols hm
  have hr : ∀ p ∈ Slice.chosen r x.shape.rows, p < m.rows := fun p hp => hrows ▸ hr.lt p hp
  have hc : ∀ p ∈ Slice.chosen q x.shape.cols, p < m.cols := fun p hp => hcols ▸ hc.lt p hp
  rw [ht] at hk
  have hget := Matrix.gathered_selected m hr hc hk
  rw [hm] at hget
  exact hget

theorem operand_transforms (hb : b.Regular x.size width) {F : Matrix α → Matrix α}
    (hsize : t.size = x.size) (hshape : ∀ m, m.shape = x.shape → (F m).shape = t)
    (hvec : ∀ m, m.shape = x.shape → (F m).vec = m.vec) : Transforms F b b x.shape t width := by
  refine ⟨hsize ▸ hb, rfl, hshape, fun v m hm hb k => ?_⟩
  rw [hb, Matrix.flat, Matrix.flat, hvec m hm]

theorem reshape_transforms (hb : b.Regular x.size width) (hsize : t.size = x.size) :
    ∃ c, rule ⟨ident, .reshape, t, [x], data⟩ [b] = .ok c ∧
      Transforms (fun m => Matrix.ofVec t.rows t.cols m.vec) b c x.shape t width := by
  refine ⟨b, rfl, operand_transforms hb hsize (fun _ _ => rfl) fun m hm => Matrix.vec_ofVec ?_⟩
  rw [Matrix.length_vec, hm]
  exact hsize.symm

theorem noOp_transforms (hb : b.Regular x.size width) :
    ∃ c, rule ⟨ident, .noOp, x.shape, [x], data⟩ [b] = .ok c ∧
      Transforms id b c x.shape x.shape width :=
  ⟨b, rfl, operand_transforms hb rfl (fun _ hm => hm) fun _ _ => rfl⟩

/-! Sums of entries -/

omit [OfDouble α] in
theorem get_ones {n k : Nat} (hk : k < n) : (ones n : Tensor α).asRows.get 0 k = 1 := by
  rw [ones, Tensor.asRows_ofMatrix]
  exact Matrix.get_ofFn _ Nat.one_pos hk

omit [OfDouble α] in
theorem combinations_ones (n : Nat) (u : Nat → α) :
    combinations (ones n : Tensor α).asRows.get n u 0 = ∑ k ∈ Finset.range n, u k := by
  rw [combinations, sum_map_range]
  apply Finset.sum_congr rfl
  intro k hk
  rw [get_ones (Finset.mem_range.mp hk), one_mul]

theorem sumEntries_transforms (hb : b.Regular x.size width) :
    ∃ c, rule ⟨ident, .sumEntries, .scalar, [x], data⟩ [b] = .ok c ∧
      Transforms (fun m => Matrix.const 1 1 m.sumEntries) b c x.shape .scalar width := by
  obtain ⟨c, hc, himage⟩ := sumEntries_image hb
  refine ⟨c, hc, himage.transforms (isLinearMap_combinations _ _) (fun _ _ => rfl) fun m hm k hk => ?_⟩
  obtain rfl : k = 0 := Nat.lt_one_iff.mp hk
  rw [combinations_ones, Matrix.flat_const _ Nat.one_pos, ← Matrix.sum_flat, hm]
  rfl

theorem trace_transforms (hb : b.Regular x.size width) :
    ∃ c, rule ⟨ident, .trace, .scalar, [x], data⟩ [b] = .ok c ∧
      Transforms (fun m => Matrix.const 1 1 m.diagonal.sum) b c x.shape .scalar width := by
  obtain ⟨d, c, hc, hdiag, hones⟩ := trace_image hb
  refine ⟨c, hc, hones.regular, hones.ids_eq.trans hdiag.ids_eq, fun _ _ => rfl, fun v m hm hm' k => ?_⟩
  by_cases hk : k < Shape.scalar.size
  · obtain rfl : k = 0 := Nat.lt_one_iff.mp hk
    rw [hones.eval_eq (isLinearMap_combinations _ _) v hk, combinations_ones, Matrix.flat_const _ Nat.one_pos,
      Matrix.diagonal, sum_map_range, Grid.length_diagonal, ← hm]
    apply Finset.sum_congr rfl
    intro i hi
    have hi := Finset.mem_range.mp hi
    have hlen : i < (Grid.diagonal x.shape).length := by rw [Grid.length_diagonal, ← hm]; exact hi
    rw [hdiag.eval_eq (isLinearMap_gathered _) v hlen, funext hm', ← hm]
    exact Matrix.gathered_diagonal m hi
  · rw [eval_of_rows_le hones.regular v (by omega), Matrix.flat_of_le]
    exact Nat.le_of_not_lt hk

end Block

end ConicForm
