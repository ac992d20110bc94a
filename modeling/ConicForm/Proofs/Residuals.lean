import ConicForm.Proofs.PlainAssembly
import ConicForm.Proofs.Slack

/-!
# Residuals

A range of the rows of a program leaves the same range of the slack, and exceeds its right sides by the same range
of what all rows exceed theirs by. So at every point of the right length there are residuals, whatever the
arithmetic of the scalars is: the norms of two ranges of the excesses.
-/

namespace ConicForm

variable {α : Type}

namespace Axis

theorem cut_le (size : Nat) (position : Int) : cut size position ≤ size := Nat.min_le_right _ _

theorem length_slice {β : Type} (xs : List β) (start stop : Int) :
    (slice xs start stop).length = cut xs.length stop - cut xs.length start := by
  have hstop := cut_le xs.length stop
  rw [slice, List.length_take, List.length_drop]
  omega

theorem getD_slice {β : Type} (xs : List β) (start stop : Int) (k : Nat) (d : β) :
    (slice xs start stop).getD k d =
      if k < cut xs.length stop - cut xs.length start then xs.getD (cut xs.length start + k) d else d := by
  by_cases hk : k < cut xs.length stop - cut xs.length start
  · rw [if_pos hk]
    simp [slice, List.getD_eq_getElem?_getD, hk]
  · rw [if_neg hk]
    simp [slice, List.getD_eq_getElem?_getD, hk]

end Axis

namespace Matrix

variable [Zero α]

theorem rows_sliceRows (m : Matrix α) (start stop : Int) :
    (m.sliceRows start stop).rows = Axis.cut m.rows stop - Axis.cut m.rows start := by
  rw [sliceRows, rowRange, rows_ofFn, Nat.min_eq_left (Axis.cut_le _ _)]

theorem get_sliceRows (m : Matrix α) (start stop : Int) (i j : Nat) :
    (m.sliceRows start stop).get i j =
      if i < Axis.cut m.rows stop - Axis.cut m.rows start then m.get (Axis.cut m.rows start + i) j else 0 := by
  have hrows := m.rows_sliceRows start stop
  split
  · next hi =>
    by_cases hj : j < m.cols
    · exact get_ofFn _ (lt_of_lt_of_eq hi hrows.symm) hj
    · rw [m.get_of_not_lt fun h => hj h.2]
      exact get_of_not_lt _ fun h => hj h.2
  · next hi => exact get_of_not_lt _ fun h => hi (hrows ▸ h.1)

end Matrix

theorem Numbers.IsColumn.sliceRows [Zero α] {a : Numbers α} {rows : Nat} (h : a.IsColumn rows) (start stop : Int) :
    (a.sliceRows start stop).IsColumn (Axis.cut rows stop - Axis.cut rows start) := by
  obtain ⟨t, rfl, hd⟩ := h
  refine ⟨t.sliceRows start stop, rfl, ?_⟩
  have hdims : (t.sliceRows start stop).dims = (t.asRows.sliceRows start stop).rows :: t.dims.tail := rfl
  rw [hdims, Matrix.rows_sliceRows, Tensor.rows_asRows hd, hd]
  rfl

namespace Program

section excesses

variable [Zero α] [Add α] [Sub α] [Mul α] [OfDouble α] {p : Program α} {y : List α}

/-- What the left sides of the rows are above the right ones at a point. -/
def excesses (p : Program α) (y : List α) : List α :=
  (List.range p.A.rows).map fun i => Matrix.dot (p.A.row i) y - p.b.toReals.asRows.get i 0

/-- The excess of the rows of a range is the range of the excesses. -/
theorem excess_part (hcols : p.A.cols = y.length) (hb : p.b.IsColumn p.A.rows) (start stop : Int) :
    excess (p.part start stop) y = .ok (Axis.slice (p.excesses y) start stop) := by
  have hrows := p.A.rows_sliceRows start stop
  have hb' : (p.part start stop).b.IsColumn (p.A.sliceRows start stop).rows := hrows ▸ hb.sliceRows start stop
  obtain ⟨t, ht, hd⟩ := hb
  obtain ⟨u, hu, hd'⟩ := hb'
  have hget : u.asRows = t.asRows.sliceRows start stop := by
    have hsame : p.b.sliceRows start stop = .reals u := hu
    rw [ht] at hsame
    obtain rfl := Numbers.reals.inj hsame
    exact Tensor.asRows_ofRows _ _ rfl
  have hlen : (p.excesses y).length = p.A.rows := by rw [excesses, List.length_map, List.length_range]
  let left : List α := (List.range (p.A.sliceRows start stop).rows).map fun i =>
    Matrix.dot ((p.A.sliceRows start stop).row i) y
  have hmul : (p.part start stop).A.mulVec y = .ok left := if_pos hcols
  have hleft : (Tensor.ofList left).dims = [(p.A.sliceRows start stop).rows] := by simp [Tensor.ofList, left]
  have hdims : (Tensor.ofList left).dims = u.dims := hleft.trans hd'.symm
  have hcombine : (Tensor.combine (· - ·) (Tensor.ofList left) u hdims).dims = [(p.A.sliceRows start stop).rows] :=
    hleft
  rw [excess, hmul, hu]
  change (Tensor.ofList left).zipWith (· - ·) u >>= _ = _
  rw [Tensor.zipWith_same _ hdims]
  refine congrArg Except.ok (ext_getD 0 ?_ fun k hk => ?_)
  · rw [Tensor.length_toList hcombine, hrows, Axis.length_slice, hlen]
  · rw [Tensor.length_toList hcombine] at hk
    have hk' : k < Axis.cut p.A.rows stop - Axis.cut p.A.rows start := hrows ▸ hk
    have hcut := Axis.cut_le p.A.rows stop
    have hrow : (p.A.sliceRows start stop).row k = p.A.row (Axis.cut p.A.rows start + k) := by
      apply List.map_congr_left
      intro j _
      rw [Matrix.get_sliceRows, if_pos hk']
    have hdot : (Tensor.ofList left).asRows.get k 0 = Matrix.dot ((p.A.sliceRows start stop).row k) y := by
      rw [← Tensor.getD_toList hleft]
      exact (getD_map_range _ _ _ _).trans (if_pos hk)
    have hright : u.asRows.get k 0 = p.b.toReals.asRows.get (Axis.cut p.A.rows start + k) 0 := by
      rw [hget, Matrix.get_sliceRows, Tensor.rows_asRows hd, if_pos hk', ht]
      rfl
    rw [Tensor.getD_toList hcombine, Tensor.get_asRows_combine_of_lt _ hdims hleft hk Nat.one_pos, hdot, hright,
      hrow, Axis.getD_slice, hlen, if_pos hk', excesses, getD_map_range, if_pos (by omega)]

variable [Measured α]

theorem eqResidual_eq (hcols : p.A.cols = y.length) (hb : p.b.IsColumn p.A.rows) : p.eqResidual y =
    .ok (if 0 < p.dims.zero then Measured.norm (Axis.slice (p.excesses y) 0 p.dims.zero) else 0) := by
  rw [eqResidual, equalities]
  by_cases hz : 0 < p.dims.zero
  · rw [if_pos hz, if_pos hz]
    simp only [excess_part hcols hb]
    rfl
  · rw [if_neg hz, if_neg hz]

theorem ineqResidual_eq (hcols : p.A.cols = y.length) (hb : p.b.IsColumn p.A.rows) : p.ineqResidual y =
    .ok (if 0 < p.dims.nonneg then Measured.norm
      ((Axis.slice (p.excesses y) p.dims.zero (p.dims.zero + p.dims.nonneg)).map Measured.positivePart) else 0) := by
  rw [ineqResidual, inequalities]
  by_cases hn : 0 < p.dims.nonneg
  · rw [if_pos hn, if_pos hn]
    simp only [excess_part hcols hb]
    rfl
  · rw [if_neg hn, if_neg hn]

omit [Measured α] in
/-- The excess of the rows of a range is refused at points of another length only. -/
theorem excess_part_eq_error (hb : p.b.IsColumn p.A.rows) {start stop : Int} {e : Failure}
    (h : excess (p.part start stop) y = .error e) : e = .mismatch := by
  by_cases hcols : p.A.cols = y.length
  · rw [excess_part hcols hb] at h
    cases h
  · have hmul : (p.part start stop).A.mulVec y = .error .mismatch := if_neg hcols
    rw [excess, hmul] at h
    exact (Except.error.inj h).symm

theorem residuals_eq_error (hb : p.b.IsColumn p.A.rows) {e : Failure} (h : p.residuals y = .error e) :
    e = .mismatch := by
  have hpart : ∀ {start stop : Int} {f : List α → α},
      (do return f (← excess (p.part start stop) y) : Result α) = .error e → e = .mismatch := by
    intro start stop f h
    rcases bind_eq_error.mp h with h | ⟨_, _, h⟩
    · exact excess_part_eq_error hb h
    · cases h
  rcases bind_eq_error.mp h with h | ⟨_, _, h⟩
  · rw [eqResidual, equalities] at h
    by_cases hz : 0 < p.dims.zero
    · rw [if_pos hz] at h
      exact hpart h
    · rw [if_neg hz] at h
      cases h
  rcases bind_eq_error.mp h with h | ⟨_, _, h⟩
  · rw [ineqResidual, inequalities] at h
    by_cases hn : 0 < p.dims.nonneg
    · rw [if_pos hn] at h
      exact hpart h
    · rw [if_neg hn] at h
      cases h
  · cases h

/-- At every point of the right length there are residuals. -/
theorem exists_residuals (hcols : p.A.cols = y.length) (hb : p.b.IsColumn p.A.rows) :
    ∃ r, p.residuals y = .ok r := by
  rw [residuals, eqResidual_eq hcols hb, ineqResidual_eq hcols hb]
  exact ⟨_, rfl⟩

end excesses

variable [Field α] {p : Program α} {y s : List α}

theorem Part.Leaves.column {q : Part α} (h : q.Leaves y s) : q.b.IsColumn q.A.rows := by
  obtain ⟨t, hb, hd, _⟩ := h.left_eq
  exact ⟨t, hb, h.rows_eq ▸ hd⟩

/-- What the rows of a range leave is the range of what all rows leave. -/
theorem Part.Leaves.range (h : Part.Leaves ⟨p.A, p.b⟩ y s) (start stop : Int) :
    (p.part start stop).Leaves y (Axis.slice s start stop) := by
  obtain ⟨t, hb, hd, hleft⟩ := h.left_eq
  have hrows : p.A.rows = s.length := h.rows_eq
  have htrows : t.asRows.rows = s.length := Tensor.rows_asRows hd
  have htdims : (t.sliceRows start stop).dims = (t.asRows.sliceRows start stop).rows :: t.dims.tail := rfl
  have htslice : (t.sliceRows start stop).asRows = t.asRows.sliceRows start stop := Tensor.asRows_ofRows _ _ rfl
  have hb : p.b = .reals t := hb
  refine ⟨?_, h.cols_eq, t.sliceRows start stop, ?_, ?_, fun i => ?_⟩
  · rw [Axis.length_slice, ← hrows]
    exact p.A.rows_sliceRows start stop
  · rw [part, hb]
    rfl
  · rw [htdims, Matrix.rows_sliceRows, htrows, hd, Axis.length_slice]
    rfl
  · rw [htslice, Matrix.dot_row, Matrix.get_sliceRows, htrows, Axis.getD_slice]
    change _ - ∑ j ∈ Finset.range p.A.cols, (p.A.sliceRows start stop).get i j * _ = _
    simp only [Matrix.get_sliceRows, hrows]
    split
    · rw [← hleft, Matrix.dot_row]
    · simp only [zero_mul, Finset.sum_const_zero, sub_zero]

end Program

end ConicForm
