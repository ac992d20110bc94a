import ConicForm.Proofs.Selections
import ConicForm.Proofs.Values
import Mathlib.Data.List.GetD

/-!
# Indexed expressions

An index of an expression is made exactly if it selects something of both axes, and the node has the shape of what is
selected. Its block has the rows of the expression's block that belong to the selected entries, column by column,
unless a step does not fit into a word.
-/

namespace ConicForm

open Coefficients (entry)

variable {α : Type} {k : Index} {s : Slice} {length : Nat}

/-- Whether an index has a step that does not fit into a word. -/
def Index.IsWide : Index → Prop
  | .position _ => False
  | .range s => s.IsWide

/-- The slice that stands for an index has the step of the index. -/
theorem Slice.isWide_iff (h : ofKey k.toValue length = .ok s) : s.IsWide ↔ k.IsWide := by
  cases k with
  | position n =>
    change ofPosition (.int n) n length = _ at h
    simp only [ofPosition] at h
    generalize (if n < 0 then n + (length : Int) else n) = p at h
    split at h
    · cases h
    · obtain rfl := Except.ok.inj h
      simp [IsWide, Index.IsWide]
  | range t =>
    change ofKey t.toValue length = _ at h
    rw [ofKey_toValue] at h
    obtain ⟨tp, ht, h⟩ := bind_eq_ok.mp h
    obtain ⟨n, _, h⟩ := bind_eq_ok.mp h
    split at h
    · cases h
    · obtain rfl := Except.ok.inj h
      change Nat.pow 2 63 ≤ tp.step.natAbs ↔ Nat.pow 2 63 ≤ t.stride.natAbs
      rw [step_eq ht]

theorem Slice.Normal.chosen_eq {ps : List Nat} {key : Value} (h : s.Normal length ps) (hs : s.Selects key length) :
    chosen key length = ps := Except.ok.inj (hs.positions_eq.symm.trans h.positions_eq)

namespace Block

/-- `d` has the rows that `b` has for the entries of a value of shape `s` in the rows `ps` and the columns `qs`, in the
order of the value that these entries make up. -/
structure RowsOf [Zero α] [OfDouble α] (d b : Block α) (s : Shape) (ps qs : List Nat) (width : Int → Nat) : Prop where
  regular : d.Regular (ps.length * qs.length) width
  ids_eq : ids d.coeffs = ids b.coeffs
  entry_eq : ∀ id ∈ ids b.coeffs, ∀ i j, ∀ hi : i < ps.length, ∀ hj : j < qs.length, ∀ col < width id,
    entry d.coeffs id (j * ps.length + i) col = entry b.coeffs id (qs[j] * s.rows + ps[i]) col
  constant_eq : ∀ i j, ∀ hi : i < ps.length, ∀ hj : j < qs.length,
    d.constant (j * ps.length + i) = b.constant (qs[j] * s.rows + ps[i])

theorem Image.rowsOf [Zero α] [OfDouble α] {d b : Block α} {s : Shape} {ps qs : List Nat} {width : Int → Nat}
    (h : Image (gathered (Grid.selected s ps qs)) b d (ps.length * qs.length) width) (hp : ∀ p ∈ ps, p < s.rows)
    (hq : ∀ q ∈ qs, q < s.cols) : d.RowsOf b s ps qs width := by
  have hplace : ∀ i j, ∀ hi : i < ps.length, ∀ hj : j < qs.length,
      j * ps.length + i < ps.length * qs.length ∧
        (Grid.selected s ps qs).getD (j * ps.length + i) 0 = qs[j] * s.rows + ps[i] := by
    intro i j hi hj
    have hlt : j * ps.length + i < ps.length * qs.length := by
      rw [Nat.mul_comm ps.length]
      exact Matrix.place_lt hj hi
    obtain ⟨_, _, hget⟩ := Grid.getD_selected s hp hq hlt
    rw [Matrix.mod_place hi, Matrix.div_place hi, List.getD_eq_getElem _ _ hi, List.getD_eq_getElem _ _ hj] at hget
    exact ⟨hlt, hget⟩
  refine ⟨h.regular, h.ids_eq, fun id hid i j hi hj col hcol => ?_, fun i j hi hj => ?_⟩
  · obtain ⟨hlt, hget⟩ := hplace i j hi hj
    rw [h.entry_eq id hid _ col hlt hcol, gathered, hget]
  · obtain ⟨hlt, hget⟩ := hplace i j hi hj
    rw [h.constant_eq _ hlt, gathered, hget]

end Block

namespace Node

variable {ident : Nat} {x n : Node α} {r c : Index}

theorem exists_index {ps qs : List Nat} (hrows : x.shape.rows < Nat.pow 2 63) (hcols : x.shape.cols < Nat.pow 2 63)
    (hr : r.Picks x.shape.rows ps) (hps : ps ≠ []) (hc : c.Picks x.shape.cols qs) (hqs : qs ≠ []) :
    ∃ n, index ident x r.toValue c.toValue = .ok n := by
  obtain ⟨sr, hsr⟩ := Slice.exists_ofKey hrows hr hps
  obtain ⟨sc, hsc⟩ := Slice.exists_ofKey hcols hc hqs
  obtain ⟨ps', _, hps', hr'⟩ := Slice.exists_normal hrows hsr
  obtain ⟨qs', _, hqs', hc'⟩ := Slice.exists_normal hcols hsc
  have hheight := hr'.length_eq
  have hwidth := hc'.length_eq
  rw [Slice.lengthOfValue, Slice.spanOfValue_toValue] at hheight hwidth
  obtain ⟨sp, hsp, hheight⟩ := bind_eq_ok.mp hheight
  obtain ⟨sq, hsq, hwidth⟩ := bind_eq_ok.mp hwidth
  have hmake : make ident .index (Shape.toValue ⟨ps'.length, qs'.length⟩) [x] (.selection sr sc) = .ok _ :=
    make_of_pos ⟨List.length_pos_of_ne_nil hps', List.length_pos_of_ne_nil hqs'⟩
  exact ⟨_, bind_eq_ok.mpr ⟨sr, hsr, bind_eq_ok.mpr ⟨sc, hsc, bind_eq_ok.mpr ⟨sp, hsp, bind_eq_ok.mpr ⟨_, hheight,
    bind_eq_ok.mpr ⟨sq, hsq, bind_eq_ok.mpr ⟨_, hwidth, hmake⟩⟩⟩⟩⟩⟩⟩

end Node

/-- An index of an axis has a slice that stands for it exactly if it selects something, and that slice selects the same
positions in the same order and stands for itself. An index of an expression is made exactly if it selects something of
both axes; it has the shape of what it selects, and from every block of the expression the rows of what it selects,
unless one of the steps does not fit into a word: then the rows of no block can be taken. -/
theorem index_selects {α : Type} [Zero α] [One α] [Add α] [Neg α] [Mul α] [Div α] [OfDouble α] :
    (∀ (k : Index) (length : Nat), length < Nat.pow 2 63 →
      ((∃ s, Slice.ofKey k.toValue length = .ok s) ↔ ∃ ps, k.Picks length ps ∧ ps ≠ []) ∧
      ∀ s, Slice.ofKey k.toValue length = .ok s → ∃ ps, k.Picks length ps ∧ s.Normal length ps) ∧
    ∀ (ident : Nat) (x : Node α) (r c : Index), x.shape.rows < Nat.pow 2 63 → x.shape.cols < Nat.pow 2 63 →
      ((∃ n, Node.index ident x r.toValue c.toValue = .ok n) ↔
        (∃ ps, r.Picks x.shape.rows ps ∧ ps ≠ []) ∧ ∃ qs, c.Picks x.shape.cols qs ∧ qs ≠ []) ∧
      ∀ n, Node.index ident x r.toValue c.toValue = .ok n →
        ∃ ps qs, r.Picks x.shape.rows ps ∧ c.Picks x.shape.cols qs ∧ n.shape = ⟨ps.length, qs.length⟩ ∧
          ∀ (b : Block α) (width : Int → Nat), b.Regular x.size width →
            (¬(r.IsWide ∨ c.IsWide) → ∃ d, Block.rule n [b] = .ok d ∧ d.RowsOf b x.shape ps qs width) ∧
            (r.IsWide ∨ c.IsWide → Block.rule n [b] = .error .wrongType) := by
  refine ⟨fun k length hl => ⟨Slice.exists_ofKey_iff hl, fun s hs => ?_⟩,
    fun ident x r c hrows hcols => ⟨⟨?_, ?_⟩, fun n hn => ?_⟩⟩
  · obtain ⟨ps, hps, _, hnormal⟩ := Slice.exists_normal hl hs
    exact ⟨ps, hps, hnormal⟩
  · rintro ⟨n, hn⟩
    obtain ⟨sr, hsr, hn⟩ := bind_eq_ok.mp hn
    obtain ⟨sc, hsc, _⟩ := bind_eq_ok.mp hn
    exact ⟨(Slice.exists_ofKey_iff hrows).mp ⟨sr, hsr⟩, (Slice.exists_ofKey_iff hcols).mp ⟨sc, hsc⟩⟩
  · rintro ⟨⟨ps, hr, hps⟩, qs, hc, hqs⟩
    exact Node.exists_index hrows hcols hr hps hc hqs
  · obtain ⟨sr, sc, hsr, hsc, rfl⟩ := Node.index_eq_ok_slices hn
    obtain ⟨ps, hr, _, hnr⟩ := Slice.exists_normal hrows hsr
    obtain ⟨qs, hc, _, hnc⟩ := Slice.exists_normal hcols hsc
    have hselr := Slice.ofKey_selects hsr
    have hselc := Slice.ofKey_selects hsc
    have hchosen := hnr.chosen_eq hselr
    have hchosen' := hnc.chosen_eq hselc
    refine ⟨ps, qs, hr, hc, by rw [hchosen, hchosen'], fun b width hb => ?_⟩
    rw [← Slice.isWide_iff hsr, ← Slice.isWide_iff hsc]
    refine ⟨fun hw => ?_, Block.index_of_isWide hselr hselc⟩
    obtain ⟨d, hd, himage⟩ := Block.index_image hb hselr hselc hw rfl
    rw [hchosen, hchosen'] at himage
    exact ⟨d, hd, himage.rowsOf hnr.lt hnc.lt⟩

namespace Node

/-- The block of a column of three. -/
theorem exists_block_trio : ∃ b, trio.block = .ok b ∧ b.Regular trio.size fun _ => 3 := by
  have hleaf : ∀ id s, trio.Leaf id s → s = ⟨3, 1⟩ := by
    rintro id s ⟨m, hm, _, _, rfl⟩
    obtain rfl := List.mem_singleton.mp hm
    rfl
  have hnarrow : ¬trio.HasWideStep := by
    rintro ⟨m, hm, hw⟩
    obtain rfl := List.mem_singleton.mp hm
    obtain ⟨_, _, hd, _⟩ := hw
    cases hd
  have hexpr : trio.IsExpression := fun m hm => by
    obtain rfl := List.mem_singleton.mp hm
    rfl
  obtain ⟨b, hb, hc⟩ := trio_denotes.compiled hexpr hnarrow hleaf
  exact ⟨b, hb, hc.regular⟩

end Node

theorem index_selects_reversed : ∃ n b d, Node.trio.block = .ok b ∧
    Node.index 1 Node.trio (Index.range ⟨none, none, some (-1)⟩).toValue (Index.position 0).toValue = .ok n ∧
    Block.rule n [b] = .ok d ∧ d.RowsOf b ⟨3, 1⟩ [2, 1, 0] [0] fun _ => 3 := by
  obtain ⟨b, hb, hregular⟩ := Node.exists_block_trio
  have hrows : Node.trio.shape.rows < Nat.pow 2 63 := by decide
  have hcols : Node.trio.shape.cols < Nat.pow 2 63 := by decide
  have hspan : (⟨none, none, some (-1)⟩ : Slice).span (3 : Nat) = .ok ⟨2, -1, -1⟩ := rfl
  have hr : (Index.range ⟨none, none, some (-1)⟩).Picks 3 [2, 1, 0] := Slice.picks_of_span hspan
  have hc : (Index.position 0).Picks 1 [0] := ⟨by decide, rfl⟩
  obtain ⟨hmade, hrule⟩ := index_selects.2 1 Node.trio (.range ⟨none, none, some (-1)⟩) (.position 0) hrows hcols
  obtain ⟨n, hn⟩ := hmade.mpr ⟨⟨_, hr, List.cons_ne_nil _ _⟩, _, hc, List.cons_ne_nil _ _⟩
  obtain ⟨ps, qs, hps, hqs, _, hblock⟩ := hrule n hn
  obtain rfl := hps.unique hr
  obtain rfl := hqs.unique hc
  have hnarrow : ¬((Index.range ⟨none, none, some (-1)⟩).IsWide ∨ (Index.position 0).IsWide) := by
    simp [Index.IsWide, Slice.IsWide]
  obtain ⟨d, hd, hrowsOf⟩ := (hblock b _ hregular).1 hnarrow
  exact ⟨n, b, d, hb, hn, hd, hrowsOf⟩

/-- An index of a column that is made and selects its first entry, but takes the rows of no block. -/
theorem index_rule_refused : ∃ b, Node.trio.block = .ok b ∧ (b.Regular Node.trio.size fun _ => 3) ∧
    (Index.range ⟨none, none, some (Int.pow 2 70)⟩).Picks 3 [0] ∧ (Index.position 0).Picks 1 [0] ∧
    Node.index 1 Node.trio (Index.range ⟨none, none, some (Int.pow 2 70)⟩).toValue (Index.position 0).toValue =
      .ok (Node.first (Int.pow 2 70)) ∧ Block.rule (Node.first (Int.pow 2 70)) [b] = .error .wrongType := by
  obtain ⟨b, hb, hregular⟩ := Node.exists_block_trio
  have hspan : (⟨none, none, some (Int.pow 2 70)⟩ : Slice).span (3 : Nat) = .ok ⟨0, 3, Int.pow 2 70⟩ := rfl
  exact ⟨b, hb, hregular, Slice.picks_of_span hspan, ⟨by decide, rfl⟩, rfl, rfl⟩

end ConicForm
