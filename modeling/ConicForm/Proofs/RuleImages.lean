import ConicForm.Proofs.Constants
import ConicForm.Proofs.Places
import ConicForm.Proofs.Slices

/-!
# Rules of one operand as operations on rows

The rule of each kind of node with one operand changes every column of the operand's block alike, whatever the
arithmetic of the scalars is: it moves the rows about, or combines them by a constant. The steps of an index are
the only data that a rule refuses.
-/

namespace ConicForm.Block

variable {α : Type} [Zero α] [One α] [Add α] [Neg α] [Mul α] [Div α] [OfDouble α] {b : Block α}
  {width : Int → Nat} {ident : Nat} {x : Node α} {t : Shape} {data : Payload α} {a : Numbers α} {r q : Nat}

/-! Multiples -/

theorem neg_image (hb : b.Regular x.size width) :
    ∃ c, rule ⟨ident, .neg, x.shape, [x], data⟩ [b] = .ok c ∧ Image (multiple (-1)) b c x.size width :=
  scale_image hb (show (Numbers.reals (.scalar (-1 : α))).dims = [] from rfl)

theorem div_image (hb : b.Regular x.size width) (d : α) :
    ∃ c, rule ⟨ident, .div, x.shape, [x], .scalar d⟩ [b] = .ok c ∧ Image (multiple (1 / d)) b c x.size width := by
  have hget : ((Tensor.scalar d).map (1 / ·)).get [] = 1 / d := by
    simp [Tensor.get, Tensor.map, Tensor.scalar, Tensor.place]
  have himage := scale_image hb (show (Numbers.reals ((Tensor.scalar d).map (1 / ·))).dims = [] from rfl)
  rw [Numbers.toReals, hget] at himage
  exact himage

theorem mulElem_image (hb : b.Regular x.size width) (hd : a.dims = [r, q]) (hs : a.shape = x.shape) :
    ∃ c, rule ⟨ident, .mulElem, x.shape, [x], .array a⟩ [b] = .ok c ∧
      Image (weighed fun i => a.vec.toReals.asRows.get i 0) b c x.size width := by
  obtain ⟨hv, _⟩ := Numbers.toReals_vec hd
  have hsize : r * q = x.size := congrArg Shape.size ((Numbers.shape_eq hd).symm.trans hs)
  exact weigh_image hb (hsize ▸ hv)

/-! Products -/

omit [Zero α] [One α] [Add α] [Neg α] [Mul α] [Div α] [OfDouble α] in
theorem isScalar_iff (hd : a.dims = [r, q]) : a.shape.isScalar = true ↔ a.dims = [1, 1] := by
  rw [Numbers.shape_eq hd, hd]
  simp [Shape.isScalar]

omit [Add α] [Neg α] [Div α] in
/-- The factor of the product with a constant from the left. -/
theorem kronecker_left (hd : a.dims = [r, q]) (n : Nat) :
    ((identity n).kronecker a.toReals).dims = [n * r, n * q] ∧
      ((identity n).kronecker a.toReals).asRows = (Matrix.identity n).kronecker a.matrix := by
  have hrank : a.toReals.rank = 2 := by rw [Tensor.rank, Numbers.dims_toReals, hd]; rfl
  rw [Tensor.kronecker_eq rfl hrank, identity, Tensor.asRows_ofMatrix]
  refine ⟨?_, Tensor.asRows_ofMatrix _⟩
  rw [← Numbers.rows_matrix hd, ← Numbers.cols_matrix hd]
  rfl

omit [Add α] [Neg α] [Div α] in
/-- The factor of the product with a constant from the right. -/
theorem kronecker_right (hd : a.dims = [r, q]) (n : Nat) :
    (a.toReals.transposed.kronecker (identity n)).dims = [q * n, r * n] ∧
      (a.toReals.transposed.kronecker (identity n)).asRows =
        a.matrix.transposed.kronecker (Matrix.identity n) := by
  have hrd : a.toReals.dims = [r, q] := (Numbers.dims_toReals a).trans hd
  have hrank : a.toReals.transposed.rank = 2 := by rw [Tensor.rank, Tensor.dims_transposed hrd]; rfl
  rw [Tensor.kronecker_eq hrank rfl, identity, Tensor.asRows_ofMatrix, Tensor.asRows_transposed hrd]
  refine ⟨?_, Tensor.asRows_ofMatrix _⟩
  rw [← Numbers.rows_matrix hd, ← Numbers.cols_matrix hd]
  rfl

theorem rule_mul : rule ⟨ident, .mul, t, [x], .array a⟩ [b] =
    match a.single? with
    | some f => b.scale f
    | none => b.apply ((identity x.shape.cols).kronecker a.toReals) := rfl

theorem rule_rmul : rule ⟨ident, .rmul, t, [x], .array a⟩ [b] =
    match a.single? with
    | some f => b.scale f
    | none => b.apply (a.toReals.transposed.kronecker (identity x.shape.rows)) := rfl

omit [One α] [Add α] [Neg α] [Div α] in
/-- A constant with one entry is a factor from either side. -/
theorem factor_image (hb : b.Regular x.size width) (hd : a.dims = [r, q]) (hs : a.shape.isScalar = true) :
    ∃ f c, a.single? = some f ∧ b.scale f = .ok c ∧ Image (multiple (a.matrix.get 0 0)) b c x.size width := by
  obtain ⟨f, hf, hfd, hget⟩ := Numbers.single?_eq_some ((isScalar_iff hd).mp hs)
  obtain ⟨c, hc, himage⟩ := scale_image hb hfd
  rw [hget] at himage
  exact ⟨f, c, hf, hc, himage⟩

theorem mul_image_of_isScalar (hb : b.Regular x.size width) (hd : a.dims = [r, q])
    (hs : a.shape.isScalar = true) : ∃ c, rule ⟨ident, .mul, x.shape, [x], .array a⟩ [b] = .ok c ∧
      Image (multiple (a.matrix.get 0 0)) b c x.size width := by
  obtain ⟨f, c, hf, hc, himage⟩ := factor_image hb hd hs
  refine ⟨c, ?_, himage⟩
  rw [rule_mul, hf]
  exact hc

theorem rmul_image_of_isScalar (hb : b.Regular x.size width) (hd : a.dims = [r, q])
    (hs : a.shape.isScalar = true) : ∃ c, rule ⟨ident, .rmul, x.shape, [x], .array a⟩ [b] = .ok c ∧
      Image (multiple (a.matrix.get 0 0)) b c x.size width := by
  obtain ⟨f, c, hf, hc, himage⟩ := factor_image hb hd hs
  refine ⟨c, ?_, himage⟩
  rw [rule_rmul, hf]
  exact hc

omit [Zero α] [One α] [Add α] [Neg α] [Mul α] [Div α] [OfDouble α] in
theorem single?_eq_none_of_not_isScalar (hd : a.dims = [r, q]) (hs : a.shape.isScalar = false) :
    a.single? = none :=
  Numbers.single?_eq_none fun h => Bool.false_ne_true (hs.symm.trans ((isScalar_iff hd).mpr h))

theorem mul_image (hb : b.Regular x.size width) (hd : a.dims = [r, q]) (hs : a.shape.isScalar = false)
    (hinner : a.shape.cols = x.shape.rows) (ht : t = ⟨a.shape.rows, x.shape.cols⟩) :
    ∃ c, rule ⟨ident, .mul, t, [x], .array a⟩ [b] = .ok c ∧
      Image (combinations ((Matrix.identity x.shape.cols).kronecker a.matrix).get x.size) b c t.size width := by
  have hsize : t.size = x.shape.cols * r := by
    rw [ht, Numbers.shape_eq hd]
    exact Nat.mul_comm _ _
  rw [Numbers.shape_eq hd] at hinner
  have hq : x.shape.cols * q = x.size := (congrArg (x.shape.cols * ·) hinner).trans (Nat.mul_comm _ _)
  obtain ⟨hkd, hkr⟩ := kronecker_left hd x.shape.cols
  obtain ⟨c, hc, himage⟩ := apply_image hb (hq ▸ hkd)
  rw [hkr, ← hsize] at himage
  refine ⟨c, ?_, himage⟩
  rw [rule_mul, single?_eq_none_of_not_isScalar hd hs]
  exact hc

theorem rmul_image (hb : b.Regular x.size width) (hd : a.dims = [r, q]) (hs : a.shape.isScalar = false)
    (hinner : x.shape.cols = a.shape.rows) (ht : t = ⟨x.shape.rows, a.shape.cols⟩) :
    ∃ c, rule ⟨ident, .rmul, t, [x], .array a⟩ [b] = .ok c ∧
      Image (combinations (a.matrix.transposed.kronecker (Matrix.identity x.shape.rows)).get x.size) b c t.size
        width := by
  have hsize : t.size = q * x.shape.rows := by
    rw [ht, Numbers.shape_eq hd]
    exact Nat.mul_comm _ _
  rw [Numbers.shape_eq hd] at hinner
  have hr : r * x.shape.rows = x.size := (congrArg (· * x.shape.rows) hinner).symm.trans (Nat.mul_comm _ _)
  obtain ⟨hkd, hkr⟩ := kronecker_right hd x.shape.rows
  obtain ⟨c, hc, himage⟩ := apply_image hb (hr ▸ hkd)
  rw [hkr, ← hsize] at himage
  refine ⟨c, ?_, himage⟩
  rw [rule_rmul, single?_eq_none_of_not_isScalar hd hs]
  exact hc

/-! Moves -/

theorem promote_image (hb : b.Regular x.size width) (hx : x.shape = Shape.scalar) :
    ∃ c, rule ⟨ident, .promote, t, [x], data⟩ [b] = .ok c ∧
      Image (gathered (List.replicate t.size 0)) b c t.size width := by
  have hp : ∀ p ∈ List.replicate t.size 0, p < x.size := by
    intro p hp
    rw [(List.mem_replicate.mp hp).2, Node.size, hx]
    exact Nat.one_pos
  obtain ⟨c, hc, himage⟩ := gather_image hb hp
  rw [List.length_replicate] at himage
  exact ⟨c, hc, himage⟩

theorem transpose_image (hb : b.Regular x.size width) :
    ∃ c, rule ⟨ident, .transpose, x.shape.transposed, [x], data⟩ [b] = .ok c ∧
      Image (gathered (Grid.transposed x.shape)) b c x.shape.transposed.size width := by
  obtain ⟨c, hc, himage⟩ := gather_image hb (Grid.transposed_lt x.shape)
  rw [Grid.length_transposed, ← Shape.size_transposed] at himage
  exact ⟨c, hc, himage⟩

omit [Zero α] [One α] [Add α] [Neg α] [Mul α] [Div α] [OfDouble α] in
theorem selectedPlaces_eq {rows cols : Slice} (shape : Shape) :
    selectedPlaces ⟨ident, .index, shape, [x], .selection rows cols⟩ =
      (do return Grid.selected x.shape (← rows.places x.shape.rows) (← cols.places x.shape.cols)) := rfl

omit [Zero α] [One α] [Add α] [Neg α] [Mul α] [Div α] [OfDouble α] in
theorem selectedPlaces_eq_ok {rows cols : Slice} {r q : Value} (hr : rows.Selects r x.shape.rows)
    (hc : cols.Selects q x.shape.cols) (hw : ¬(rows.IsWide ∨ cols.IsWide)) (shape : Shape) :
    selectedPlaces ⟨ident, .index, shape, [x], .selection rows cols⟩ =
      .ok (Grid.selected x.shape (Slice.chosen r x.shape.rows) (Slice.chosen q x.shape.cols)) := by
  rw [selectedPlaces_eq, hr.places_eq fun h => hw (.inl h), hc.places_eq fun h => hw (.inr h)]
  rfl

theorem index_image (hb : b.Regular x.size width) {rows cols : Slice} {r q : Value}
    (hr : rows.Selects r x.shape.rows) (hc : cols.Selects q x.shape.cols)
    (hw : ¬(rows.IsWide ∨ cols.IsWide))
    (ht : t = ⟨(Slice.chosen r x.shape.rows).length, (Slice.chosen q x.shape.cols).length⟩) :
    ∃ c, rule ⟨ident, .index, t, [x], .selection rows cols⟩ [b] = .ok c ∧
      Image (gathered (Grid.selected x.shape (Slice.chosen r x.shape.rows) (Slice.chosen q x.shape.cols))) b c
        t.size width := by
  obtain ⟨c, hc', himage⟩ := gather_image hb (Grid.selected_lt x.shape hr.lt hc.lt)
  have hsize : t.size = (Slice.chosen r x.shape.rows).length * (Slice.chosen q x.shape.cols).length := by
    rw [ht]
    rfl
  rw [Grid.length_selected, ← hsize] at himage
  refine ⟨c, ?_, himage⟩
  change (selectedPlaces _ >>= fun places => b.gather places) = _
  rw [selectedPlaces_eq_ok hr hc hw]
  exact hc'

theorem index_of_isWide {rows cols : Slice} {r q : Value} (hr : rows.Selects r x.shape.rows)
    (hc : cols.Selects q x.shape.cols) (hw : rows.IsWide ∨ cols.IsWide) :
    rule ⟨ident, .index, t, [x], .selection rows cols⟩ [b] = .error .wrongType := by
  have hp : selectedPlaces (⟨ident, .index, t, [x], .selection rows cols⟩ : Node α) = .error .wrongType := by
    rw [selectedPlaces_eq]
    by_cases hwr : rows.IsWide
    · rw [hr.places_of_isWide hwr]
      rfl
    · rw [hr.places_eq hwr, hc.places_of_isWide (hw.resolve_left hwr)]
      rfl
  change (selectedPlaces _ >>= fun places => b.gather places) = _
  rw [hp]
  rfl

/-! Sums of entries -/

theorem sumEntries_image (hb : b.Regular x.size width) :
    ∃ c, rule ⟨ident, .sumEntries, .scalar, [x], data⟩ [b] = .ok c ∧
      Image (combinations (ones x.size : Tensor α).asRows.get x.size) b c Shape.scalar.size width :=
  apply_image hb (m := ones x.size) rfl

/-- The trace adds up the diagonal, once it has been gathered. -/
theorem trace_image (hb : b.Regular x.size width) :
    ∃ d c, rule ⟨ident, .trace, .scalar, [x], data⟩ [b] = .ok c ∧
      Image (gathered (Grid.diagonal x.shape)) b d (Grid.diagonal x.shape).length width ∧
      Image (combinations (ones (Grid.diagonal x.shape).length : Tensor α).asRows.get
        (Grid.diagonal x.shape).length) d c Shape.scalar.size width := by
  let places := Grid.diagonal x.shape
  obtain ⟨d, hd, hdiag⟩ := gather_image hb (Grid.diagonal_lt x.shape)
  obtain ⟨c, hc, hones⟩ := apply_image hdiag.regular (m := ones places.length) rfl
  refine ⟨d, c, ?_, hdiag, hones⟩
  change (b.gather places >>= fun d => d.apply (ones places.length)) = _
  rw [hd]
  exact hc

end ConicForm.Block
