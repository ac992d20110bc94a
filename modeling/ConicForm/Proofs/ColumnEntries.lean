import ConicForm.Proofs.Packing
import ConicForm.Proofs.Residuals
import ConicForm.Proofs.StatedRows

/-!
# Entries by variable

The coefficients that a block has for a variable stand in the variable's columns, and a variable that it does not
have leaves zeros in its columns. So each entry of the rows that state an expression is known from the block of
this expression, without any law of the scalars' arithmetic.
-/

namespace ConicForm

variable {α : Type}

namespace Block

open Coefficients (entry)

variable [Zero α] [Add α] {width start : Int → Nat} {offsetOf : Label → Option Int} {w : Nat}

/-- The coefficients of other variables are added to columns apart from those of a variable. -/
theorem get_foldlM_spread {cs : List (Label × Tensor α)} {m G : Matrix α}
    (hc : Coefficients.Regular cs m.rows width) (hm : m.cols = w)
    (hr : ∀ id ∈ ids cs, HasRange offsetOf w width start id)
    (hG : cs.foldlM (addWindow offsetOf) m = .ok G) {id : Int} (hid : start id + width id ≤ w)
    (hapart : ∀ k ∈ ids cs, k ≠ id → start k + width k ≤ start id ∨ start id + width id ≤ start k)
    {i j : Nat} (hi : i < m.rows) (hj : j < width id) : G.get i (start id + j) =
      if id ∈ ids cs then m.get i (start id + j) + entry cs id i j else m.get i (start id + j) := by
  induction cs generalizing m with
  | nil =>
    obtain rfl := Except.ok.inj hG
    exact (if_neg List.not_mem_nil).symm
  | cons e cs ih =>
    obtain ⟨k, t, rfl⟩ := hc.head_eq
    obtain ⟨ht, hk, hcs⟩ := IdTable.cons_iff.mp hc
    obtain ⟨hoff, hle⟩ := hr k List.mem_cons_self
    obtain ⟨u, hu, hurows, hucols, huget⟩ := Tensor.addColumns_eq ht (hm ▸ hle)
    rw [List.foldlM_cons, addWindow_of_some hoff ht, hu] at hG
    rw [← hurows] at hcs hi
    have hrest := ih hcs (hucols.trans hm) (fun q hq => hr q (List.mem_cons_of_mem _ hq)) hG
      (fun q hq => hapart q (List.mem_cons_of_mem _ hq)) hi
    have hstep := huget i (start id + j) (hurows ▸ hi) (by omega)
    rw [hrest, ids_cons_ofId, Coefficients.entry_cons_ofId]
    by_cases hkid : k = id
    · subst hkid
      rw [if_pos (by omega), Nat.add_sub_cancel_left] at hstep
      rw [if_neg hk, if_pos List.mem_cons_self, if_pos rfl, hstep]
    · have hmem : id ∈ k :: ids cs ↔ id ∈ ids cs := by simp [Ne.symm hkid]
      have hout := hapart k List.mem_cons_self hkid
      rw [if_neg (by omega)] at hstep
      rw [if_neg hkid, hstep]
      exact (if_congr hmem rfl rfl).symm

/-- An entry of a block over all columns, in the columns of a variable. -/
theorem get_spread {b : Block α} {rows : Nat} {G : Matrix α} (h : b.Regular rows width)
    (hr : ∀ id ∈ ids b.coeffs, HasRange offsetOf w width start id) (hG : spread offsetOf w b = .ok G)
    {id : Int} (hid : start id + width id ≤ w)
    (hapart : ∀ k ∈ ids b.coeffs, k ≠ id → start k + width k ≤ start id ∨ start id + width id ≤ start k)
    {i j : Nat} (hi : i < rows) (hj : j < width id) :
    G.get i (start id + j) = if id ∈ ids b.coeffs then 0 + entry b.coeffs id i j else 0 := by
  have hsize := h.size_eq
  have hz : (Matrix.zeros b.size w : Matrix α).get i (start id + j) = 0 := by
    rw [Matrix.zeros, Matrix.const, Matrix.get_ofFn_eq, ite_self]
  have hget := get_foldlM_spread (m := Matrix.zeros b.size w) (by rw [← hsize] at h; exact h.coeffs) rfl hr hG hid
    hapart (hsize ▸ hi) hj
  rwa [hz] at hget

end Block

theorem Matrix.getD_map_row [Zero α] (m : Matrix α) (f : α → α) (i : Nat) {j : Nat} (hj : j < m.cols) :
    ((m.row i).map f).getD j 0 = f (m.get i j) := by
  have hlen : j < (m.row i).length := by rwa [length_row]
  rw [← m.getD_row, List.getD_eq_getElem?_getD, List.getD_eq_getElem?_getD, List.getElem?_map,
    List.getElem?_eq_getElem hlen]
  rfl

/-! Ranges of rows -/

theorem Axis.cut_range {size first count : Nat} (h : first + count ≤ size) :
    cut size (first : Int) = first ∧ cut size ((first : Int) + count) = first + count := by
  constructor
  · rw [cut_ofNat]
    omega
  · rw [← Int.natCast_add, cut_ofNat]
    omega

namespace Matrix

variable [Zero α] {m n : Matrix α} {first first' count : Nat}

theorem rows_range (h : first + count ≤ m.rows) : (m.sliceRows first ((first : Int) + count)).rows = count := by
  obtain ⟨hs, he⟩ := Axis.cut_range h
  rw [rows_sliceRows, hs, he, Nat.add_sub_cancel_left]

theorem get_range (h : first + count ≤ m.rows) {i : Nat} (hi : i < count) (j : Nat) :
    (m.sliceRows first ((first : Int) + count)).get i j = m.get (first + i) j := by
  obtain ⟨hs, he⟩ := Axis.cut_range h
  rw [get_sliceRows, hs, he, Nat.add_sub_cancel_left, if_pos hi]

/-- Two ranges of rows are the same if they are so row by row. -/
theorem ext_range (hcols : m.cols = n.cols) (h : first + count ≤ m.rows) (h' : first' + count ≤ n.rows)
    (hget : ∀ i j, i < count → m.get (first + i) j = n.get (first' + i) j) :
    m.sliceRows first ((first : Int) + count) = n.sliceRows first' ((first' : Int) + count) := by
  refine ext_get ((rows_range h).trans (rows_range h').symm) hcols fun i j hi _ => ?_
  rw [rows_range h] at hi
  rw [get_range h hi, get_range h' hi, hget i j hi]

end Matrix

variable [Zero α] [One α] [Add α] [Neg α] [Mul α] [Div α] [OfDouble α] [BEq α] {l : Layout α}
  {objective n : Node α} {constraints : List (Node α)} {ms : List (Cone × Node α)}

/-- An entry of a part of a problem over the columns of the layout. -/
theorem Node.IsPart.get_spread (h : IsPart objective constraints n) (hl : l.IsOf objective constraints ms)
    {b : Block α} {G : Matrix α} (hb : n.block = .ok b) (hG : Block.spread l.offsetOf l.width b = .ok G)
    {id : Int} {start : Nat} {s : Shape} (hh : l.Holds id start s) {i j : Nat} (hi : i < n.size) (hj : j < s.size) :
    G.get i (start + j) = if id ∈ ids b.coeffs then 0 + Coefficients.entry b.coeffs id i j else 0 := by
  obtain ⟨vs, hvs⟩ := hl.orders
  have hsized := h.sized hl hb
  have hstart := hvs.startOf_eq hh
  have hshape := hvs.shapeOf_eq hh
  have hid : l.startOf id + (l.shapeOf id).size ≤ l.width := by
    rw [hstart, hshape]
    exact hvs.le_width hh
  have hapart : ∀ k ∈ ids b.coeffs, k ≠ id → l.startOf k + (l.shapeOf k).size ≤ l.startOf id ∨
      l.startOf id + (l.shapeOf id).size ≤ l.startOf k := by
    intro k hk hne
    obtain ⟨t, ht⟩ := (hsized.mem_ids k).mp hk
    obtain ⟨first, hk⟩ := h.holds hl ht
    rw [hvs.startOf_eq hk, hvs.shapeOf_eq hk, hstart, hshape]
    exact (lt_or_gt_of_ne hne).imp (hvs.end_le hk hh) (hvs.end_le hh hk)
  rw [← hstart]
  exact Block.get_spread hsized.regular (h.hasRange hl hb) hG hid hapart hi (hshape.symm ▸ hj)

namespace Program

variable {p : Program α} {first : Nat} {c : Cone}

/-- The rows that state an expression are those of its block over all columns, with the sign of the cone. -/
theorem States.exists_spread (h : p.States l first c n) (hl : l.IsOf objective constraints ms)
    (hn : Node.IsPart objective constraints n) : ∃ b G, n.block = .ok b ∧
      Block.spread l.offsetOf l.width b = .ok G ∧ G.cols = l.width ∧ ∀ k < n.size,
        (p.A.row (first + k), p.b.toReals.asRows.get (first + k) 0) = c.stated (G.row k) (b.constant k) := by
  obtain ⟨b, G, g, hb, hstack, _, hrow⟩ := h
  have hplain : plainRows l [n] = .ok ⟨G, g⟩ := by
    rw [plainRows, List.mapM_cons, hb]
    change (Block.stack l.offsetOf l.width [b] >>= _) = _
    rw [hstack]
    rfl
  obtain ⟨b', G', hb', hspread, hsame⟩ := plainRows_single hl hn hplain
  obtain ⟨hwindowed, hoffsets⟩ := Block.windowed_of_hasRange (hn.sized hl hb').regular (hn.hasRange hl hb')
  obtain ⟨_, hspread', _, hcols⟩ := Block.exists_spread hwindowed hoffsets
  rw [Except.ok.inj (hspread'.symm.trans hspread)] at hcols
  refine ⟨b', G', hb', hspread, hcols, fun k hk => ?_⟩
  obtain ⟨hG, hg⟩ := hsame k hk
  rw [hrow k hk, hG, hg]

omit [One α] [Add α] [Neg α] [Mul α] [Div α] [BEq α] in
/-- The rows of two programs in two ranges are the same if they are so one by one. -/
theorem part_eq_of_rows {q : Program α} {first' count : Nat} (hp : p.b.IsColumn p.A.rows)
    (hq : q.b.IsColumn q.A.rows) (hcols : p.A.cols = q.A.cols) (hle : first + count ≤ p.A.rows)
    (hle' : first' + count ≤ q.A.rows)
    (h : ∀ k < count, (p.A.row (first + k), p.b.toReals.asRows.get (first + k) 0) =
      (q.A.row (first' + k), q.b.toReals.asRows.get (first' + k) 0)) :
    p.part first ((first : Int) + count) = q.part first' ((first' : Int) + count) := by
  obtain ⟨t, ht, hd⟩ := hp
  obtain ⟨u, hu, hd'⟩ := hq
  have hrows := Tensor.rows_asRows hd
  have hrows' := Tensor.rows_asRows hd'
  have hA : p.A.sliceRows first ((first : Int) + count) = q.A.sliceRows first' ((first' : Int) + count) := by
    refine Matrix.ext_range hcols hle hle' fun i j hi => ?_
    have hrow : p.A.row (first + i) = q.A.row (first' + i) := congrArg Prod.fst (h i hi)
    rw [← p.A.getD_row, ← q.A.getD_row, hrow]
  have hcol : t.asRows.cols = 1 := Tensor.cols_asRows hd
  have hcol' : u.asRows.cols = 1 := Tensor.cols_asRows hd'
  have hb : t.asRows.sliceRows first ((first : Int) + count) = u.asRows.sliceRows first' ((first' : Int) + count) := by
    refine Matrix.ext_range (hcol.trans hcol'.symm) (hrows.symm ▸ hle) (hrows'.symm ▸ hle') fun i j hi => ?_
    rcases Nat.eq_zero_or_pos j with rfl | hj
    · have hentry : p.b.toReals.asRows.get (first + i) 0 = q.b.toReals.asRows.get (first' + i) 0 :=
        congrArg Prod.snd (h i hi)
      rwa [ht, hu] at hentry
    · rw [Matrix.get_of_cols_le _ _ (hcol ▸ hj), Matrix.get_of_cols_le _ _ (hcol' ▸ hj)]
  have hslice : t.sliceRows first ((first : Int) + count) = u.sliceRows first' ((first' : Int) + count) := by
    rw [Tensor.sliceRows, Tensor.sliceRows]
    simp only [hb, hd, hd', List.tail_cons]
  rw [part, part, hA, ht, hu]
  exact congrArg (fun t => Part.mk _ (Numbers.reals t)) hslice

end Program

/-- The sign that the entries of a cone's rows have on the left side of a program. -/
def Cone.turned (c : Cone) (x : α) : α :=
  match c with
  | .eq => x
  | .leq => x
  | .soc => -x
  | .exp => -x

omit [One α] [Add α] [Mul α] [Div α] [OfDouble α] [BEq α] in
theorem Cone.getD_stated (c : Cone) (G : Matrix α) (k : Nat) (x : α) {j : Nat} (hj : j < G.cols) :
    (c.stated (G.row k) x).1.getD j 0 = c.turned (G.get k j) := by
  cases c with
  | eq => exact G.getD_row k j
  | leq => exact G.getD_row k j
  | soc => exact G.getD_map_row Neg.neg k hj
  | exp => exact G.getD_map_row Neg.neg k hj

/-- An entry of the rows that state an expression, in the columns of a variable. -/
theorem Program.States.get_eq {p : Program α} {first : Nat} {c : Cone} (h : p.States l first c n)
    (hl : l.IsOf objective constraints ms) (hn : Node.IsPart objective constraints n) {b : Block α}
    (hb : n.block = .ok b) {id : Int} {start : Nat} {s : Shape} (hh : l.Holds id start s) {i j : Nat} (hi : i < n.size)
    (hj : j < s.size) : p.A.get (first + i) (start + j) =
      c.turned (if id ∈ ids b.coeffs then 0 + Coefficients.entry b.coeffs id i j else 0) := by
  obtain ⟨b', G, hb', hspread, hcols, hrow⟩ := h.exists_spread hl hn
  obtain rfl := Except.ok.inj (hb'.symm.trans hb)
  obtain ⟨vs, hvs⟩ := hl.orders
  have hwidth := hvs.le_width hh
  have hleft : p.A.row (first + i) = (c.stated (G.row i) (b'.constant i)).1 := congrArg Prod.fst (hrow i hi)
  rw [← p.A.getD_row, hleft, c.getD_stated G i _ (by omega), hn.get_spread hl hb hspread hh hi hj]

end ConicForm
