import ConicForm.Proofs.Rationals
import ConicForm.Proofs.Residuals
import ConicForm.Proofs.Stacking

/-!
# Stacks of affine maps

Blocks one above the other over all columns are the affine maps of the blocks, one after the other, whatever columns
their coefficients are put to: these may be apart, the same or overlap, and a label may have coefficients of one width
in one block and of another in the next. Each block reads a point through windows, from the offset of a label on and as
wide as the coefficient is.
-/

namespace ConicForm

variable {α : Type}

namespace Block

variable {bs : List (Block α)} {b : Block α} {offsetOf : Label → Option Int} {w : Nat}

/-- The entries of a point from the offset of a coefficient on, one for each of its columns. -/
def window (offsetOf : Label → Option Int) (x : List α) (e : Label × Tensor α) : List α :=
  (offsetOf e.1).elim [] fun first => Axis.slice x first (first + e.2.asRows.cols)

/-- The values of a block at a point that it reads through windows. -/
def valuesAt [Zero α] [Add α] [Mul α] [OfDouble α] (offsetOf : Label → Option Int) (x : List α) (b : Block α) :
    List α :=
  (List.range b.size).map fun i =>
    (b.coeffs.map fun e => Matrix.dot (e.2.asRows.row i) (window offsetOf x e)).sum +
      b.offset.toReals.toList.getD i 0

@[simp] theorem length_valuesAt [Zero α] [Add α] [Mul α] [OfDouble α] (x : List α) (b : Block α) :
    (b.valuesAt offsetOf x).length = b.size := by rw [valuesAt, List.length_map, List.length_range]

/-- What a coefficient contributes to a row is its product with the window. -/
theorem contribution_eq_dot [NonUnitalNonAssocSemiring α] {rows : Nat} {e : Label × Tensor α}
    (h : FitsWindow offsetOf rows w e) {x : List α} (hx : x.length = w) (i : Nat) :
    contribution offsetOf x i e = Matrix.dot (e.2.asRows.row i) (window offsetOf x e) := by
  by_cases hk : offsetOf e.1 = none
  · rw [contribution, window, hk]
    simp [Matrix.dot]
  · obtain ⟨first, cols, hfirst, hd, hle⟩ := h.exists_start hk
    have hcols : e.2.asRows.cols = cols := by rw [Tensor.cols_asRows hd, volume_singleton]
    rw [contribution, window, hfirst, Option.elim_some, Option.elim_some, hcols, Axis.slice_ofNat (hx ▸ hle),
      Matrix.dot_row, hcols, Int.toNat_natCast]
    apply Finset.sum_congr rfl
    intro j hj
    rw [List.getD_eq_getElem?_getD, List.getD_eq_getElem?_getD, List.getElem?_take_of_lt (Finset.mem_range.mp hj),
      List.getElem?_drop]

/-- A row has the value that its coefficients and its part of the offset contribute. -/
theorem getD_valuesAt [NonUnitalNonAssocSemiring α] [OfDouble α] (h : b.Windowed offsetOf w) {x : List α}
    (hx : x.length = w) {i : Nat} (hi : i < b.size) :
    (b.valuesAt offsetOf x).getD i 0 = (b.coeffs.map (contribution offsetOf x i)).sum + b.constant i := by
  rw [valuesAt, getD_map_range, if_pos hi, Tensor.getD_toList ((Numbers.dims_toReals _).trans h.offset)]
  congr 2
  exact List.map_congr_left fun e he => (contribution_eq_dot (h.coeffs e he) hx i).symm

theorem stack_eq_error [Zero α] [Add α] [OfDouble α] (h : ∀ b ∈ bs, b.Windowed offsetOf w)
    (hk : ∃ b ∈ bs, ∃ e ∈ b.coeffs, offsetOf e.1 = none) : stack offsetOf w bs = .error .missingKey := by
  have hmissed : ∀ b ∈ bs, ∀ e, spread offsetOf w b = .error e → e = .missingKey := by
    intro b hb e he
    by_cases hnone : ∃ d ∈ b.coeffs, offsetOf d.1 = none
    · rw [spread_eq, foldlM_addWindow_eq_error (h b hb).coeffs hnone] at he
      exact (Except.error.inj he).symm
    · push Not at hnone
      obtain ⟨G, hG, _⟩ := exists_spread (h b hb) hnone
      cases he.symm.trans hG
  obtain ⟨b, hb, hnone⟩ := hk
  have hb' : spread offsetOf w b = .error .missingKey := foldlM_addWindow_eq_error (h b hb).coeffs hnone
  obtain ⟨c, hc, e, he, hall⟩ := mapM_eq_error (f := spread offsetOf w) ⟨b, hb, _, hb'⟩
  have hempty : ¬bs.isEmpty := by simpa using List.ne_nil_of_mem hb
  rw [stack, if_neg hempty, hall, hmissed c hc e he]
  rfl

/-- Blocks are refused exactly when one of them has a label without an offset. Otherwise they are stacked, over all
columns and with their rows one after the other, and the stack maps every point to the values of the blocks, each of
which reads the point through windows. -/
theorem stack_maps [NonUnitalNonAssocSemiring α] [OfDouble α] (h : ∀ b ∈ bs, b.Windowed offsetOf w) :
    (stack offsetOf w bs = .error .missingKey ↔ ∃ b ∈ bs, ∃ e ∈ b.coeffs, offsetOf e.1 = none) ∧
    ((∀ b ∈ bs, ∀ e ∈ b.coeffs, offsetOf e.1 ≠ none) → ∃ G g, stack offsetOf w bs = .ok (G, g) ∧ G.cols = w ∧
      G.rows = total (bs.map size) ∧ g.dims = [total (bs.map size)] ∧
      ∀ x : List α, x.length = w → ∃ y, G.mulVec x = .ok y ∧
        List.zipWith (· + ·) y g.toReals.toList = bs.flatMap (valuesAt offsetOf x)) := by
  refine ⟨⟨fun herror => ?_, stack_eq_error h⟩, fun hk => ?_⟩
  · by_contra hk
    push Not at hk
    obtain ⟨_, _, hstack, _⟩ := exists_stack h hk
    cases herror.symm.trans hstack
  · obtain ⟨part, g, hstack, hpart, hgd, _⟩ := exists_stack h hk
    have hrows : (Matrix.stack w (bs.map part)).rows = total (bs.map size) :=
      Matrix.rows_stack_map fun b hb => (hpart b hb).2.1
    have hgreals : g.toReals.dims = [total (bs.map size)] := (Numbers.dims_toReals g).trans hgd
    have hglen : g.toReals.toList.length = total (bs.map size) := Tensor.length_toList hgreals
    refine ⟨_, g, hstack, Matrix.cols_stack _ _, hrows, hgd, fun x hx => ?_⟩
    refine ⟨_, if_pos ((Matrix.cols_stack _ _).trans hx.symm), ext_getD 0 ?_ fun k hlt => ?_⟩
    · rw [List.length_zipWith, List.length_map, List.length_range, hglen, hrows, min_self,
        length_flatMap_eq fun b _ => length_valuesAt x b]
    · have hkt : k < total (bs.map size) := by simpa [hglen, hrows] using hlt
      have hvalue : (bs.flatMap (valuesAt offsetOf x)).getD k 0 =
          Matrix.dot ((Matrix.stack w (bs.map part)).row k) x + g.toReals.toList.getD k 0 := by
        rw [Tensor.getD_toList hgreals]
        exact (joined_eq_getD (fun b _ => length_valuesAt x b)
          (fun b hb i hi => (getD_valuesAt (h b hb) hx hi).symm) k).symm.trans (stack_gives h hk hstack k x).symm
      rw [hvalue]
      have hkg : k < g.toReals.toList.length := hglen ▸ hkt
      simp [List.getD_eq_getElem?_getD, hrows, hkt, hkg]

end Block

namespace Sample

/-- Blocks that share a variable, with two columns in the first and one in the second. -/
def overlapping : List (Block ℚ) :=
  [⟨[(.ofId 1, .ofMatrix (Matrix.ofVec 1 2 [1, 2])), (.ofId 2, .ofMatrix (Matrix.ofVec 1 1 [3]))],
      .reals (.ofList [10])⟩,
    ⟨[(.ofId 1, .ofMatrix (Matrix.ofVec 2 1 [4, 5]))], .words (.ofList [6, 7])⟩]

/-- The second variable begins in the columns of the first one. -/
def starts (l : Label) : Option Int := Keyed.get? [(.ofId 1, 0), (.ofId 2, 1)] l

theorem windowed_overlapping : ∀ b ∈ overlapping, b.Windowed starts 3 := by
  have hone : starts (.ofId 1) = some 0 := by decide
  have htwo : starts (.ofId 2) = some 1 := by decide
  have hfits : ∀ (id first : Int) (m : Matrix ℚ), starts (.ofId id) = some first → 0 ≤ first → first + m.cols ≤ 3 →
      Block.FitsWindow starts m.rows 3 (.ofId id, .ofMatrix m) := by
    intro id first m hstart hfirst hle
    refine ⟨m.cols, rfl, fun k hk => ?_⟩
    obtain rfl : k = first := Option.some.inj (hk.symm.trans hstart)
    exact ⟨hfirst, hle⟩
  simp only [overlapping, List.forall_mem_cons]
  refine ⟨⟨?_, rfl⟩, ⟨?_, rfl⟩, List.forall_mem_nil _⟩
  · exact List.forall_mem_cons.mpr ⟨hfits 1 0 _ hone (by decide) (by decide),
      List.forall_mem_singleton.mpr (hfits 2 1 _ htwo (by decide) (by decide))⟩
  · exact List.forall_mem_singleton.mpr (hfits 1 0 _ hone (by decide) (by decide))

end Sample

theorem Block.stack_maps_overlapping : ∃ G g y, Block.stack Sample.starts 3 Sample.overlapping = .ok (G, g) ∧
    G.rows = 3 ∧ G.mulVec [1, 2, 3] = .ok y ∧ List.zipWith (· + ·) y g.toReals.toList = [21, 10, 12] := by
  obtain ⟨_, hstack⟩ := Block.stack_maps Sample.windowed_overlapping
  obtain ⟨G, g, hG, _, hrows, _, hmaps⟩ := hstack (by decide)
  obtain ⟨y, hy, hvalues⟩ := hmaps [1, 2, 3] rfl
  exact ⟨G, g, y, hG, hrows, hy, hvalues.trans (by decide +kernel)⟩

end ConicForm
