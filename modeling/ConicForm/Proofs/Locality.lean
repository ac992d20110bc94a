import ConicForm.Proofs.ColumnEntries
import ConicForm.Proofs.Copies

/-!
# Constraints on their own

The rows of a constraint come from its own tree and the columns of the layout. Two problems with the same columns
have the same rows for constraints that are alike, whatever else they are made of, and the columns of a variable
that a constraint does not have are zeros in its rows.
-/

namespace ConicForm

variable {α : Type}

theorem Block.Regular.renamed_id {b : Block α} {rows : Nat} {width : Int → Nat} (h : b.Regular rows width) :
    b.renamed id = b := by
  have hcoeffs : Keyed.mapKeys (Label.renamed id) b.coeffs = b.coeffs := by
    refine (List.map_congr_left fun e he => ?_).trans (List.map_id _)
    obtain ⟨k, hk, _⟩ := h.coeffs.labelled e he
    have hlabel : e.1.renamed id = e.1 := by
      rw [hk]
      rfl
    exact Prod.ext hlabel rfl
  rw [renamed, hcoeffs]

section

variable {n m : Node α} {q r : Cone × Node α}

/-- Constraints that are copies of each other ask for one cone, with copies. -/
theorem Node.IsCopy.asks {f : Int → Int} (h : n.IsCopy f m) (hn : n.Asks q) (hm : m.Asks r) :
    r.1 = q.1 ∧ q.2.IsCopy f r.2 := by
  obtain ⟨hcone, hchildren⟩ := hn
  obtain ⟨hcone', hchildren'⟩ := hm
  have hc := h.children
  rw [hchildren, hchildren'] at hc
  rw [h.kind_eq, hcone] at hcone'
  obtain ⟨x, _, hx, _, hxs⟩ := List.forall₂_cons_left_iff.mp hc
  obtain ⟨rfl, _⟩ := List.cons.inj hxs
  exact ⟨(Option.some.inj hcone').symm, hx⟩

end

theorem Node.Alike.refl (n : Node α) : n.Alike n := by
  induction n using Node.induction_on with
  | step n ih => exact isCopy_iff.mpr ⟨rfl, rfl, by rw [Payload.renamed_id, ite_self], List.forall₂_same.mpr ih⟩

theorem Layout.offsetOf_congr {l l' : Layout α} (h : l'.offsets = l.offsets) :
    l'.offsetOf = l.offsetOf := by
  funext label
  rw [offsetOf, offsetOf, h]

section

variable [Zero α] [One α] [Add α] [Neg α] [Mul α] [Div α] [OfDouble α] [BEq α]

/-- Built nodes that are alike have one block. -/
theorem Node.Alike.block_eq {n m : Node α} {shapes : Int → Shape} (h : n.Alike m) (hb : n.Built)
    (hs : ∀ id s, n.Leaf id s → s = shapes id) {b : Block α} (hn : n.block = .ok b) : m.block = .ok b := by
  rw [IsCopy.block_eq h Function.injective_id hb, hn]
  exact congrArg Except.ok (hb.sized hn hs).1.regular.renamed_id

namespace Program

variable {l l' : Layout α} {n n' : Node α} {p p' : Program α}

omit [BEq α] in
theorem States.exists_block {first : Nat} {c : Cone} (h : p.States l first c n) : ∃ b, n.block = .ok b := by
  obtain ⟨b, _, _, hb, _⟩ := h
  exact ⟨b, hb⟩

omit [BEq α] in
theorem plainRows_congr (hoffsets : l'.offsets = l.offsets) (hwidth : l'.width = l.width) (ns : List (Node α)) :
    plainRows l' ns = plainRows l ns := by
  rw [plainRows, plainRows, Layout.offsetOf_congr hoffsets, hwidth]

omit [BEq α] in
/-- Rows that state nodes with one block over the same columns are the same, one by one. -/
theorem States.row_eq {first first' : Nat} {c : Cone} (h : p.States l first c n) (h' : p'.States l' first' c n')
    (hsize : n'.size = n.size) (hblock : ∀ b, n.block = .ok b → n'.block = .ok b)
    (hoffsets : l'.offsets = l.offsets) (hwidth : l'.width = l.width) {k : Nat} (hk : k < n.size) :
    (p'.A.row (first' + k), p'.b.toReals.asRows.get (first' + k) 0) =
      (p.A.row (first + k), p.b.toReals.asRows.get (first + k) 0) := by
  obtain ⟨b, G, g, hb, hstack, _, hrow⟩ := h
  obtain ⟨b', G', g', hb', hstack', _, hrow'⟩ := h'
  obtain rfl := Except.ok.inj ((hblock b hb).symm.trans hb')
  rw [Layout.offsetOf_congr hoffsets, hwidth, hstack] at hstack'
  obtain ⟨rfl, rfl⟩ := Prod.mk.inj (Except.ok.inj hstack')
  rw [hrow k hk, hrow' k (hsize.symm ▸ hk)]

omit [BEq α] in
theorem States.part_eq {first first' : Nat} {c : Cone} (h : p.States l first c n) (h' : p'.States l' first' c n')
    (hsize : n'.size = n.size) (hblock : ∀ b, n.block = .ok b → n'.block = .ok b) (hp : p.Fits l) (hp' : p'.Fits l')
    (hoffsets : l'.offsets = l.offsets) (hwidth : l'.width = l.width) (hle : first + n.size ≤ l.height)
    (hle' : first' + n.size ≤ l'.height) :
    p'.part first' ((first' : Int) + n.size) = p.part first ((first : Int) + n.size) := by
  refine part_eq_of_rows (hp'.rows_eq ▸ hp'.column) (hp.rows_eq ▸ hp.column) ?_ (hp'.rows_eq ▸ hle')
    (hp.rows_eq ▸ hle) fun k hk => h.row_eq h' hsize hblock hoffsets hwidth hk
  rw [hp'.cols_eq, hp.cols_eq, hwidth]

end Program

namespace Accepted

variable {l l' : Layout α} {objective objective' : Node α} {constraints constraints' : List (Node α)}
  {sense sense' : Sense} {p p' : Program α}

/-- Constraints that are alike have the same rows over the same columns. -/
theorem ranges_of_alike (h : Accepted sense objective constraints l p)
    (h' : Accepted sense' objective' constraints' l' p') (hoffsets : l'.offsets = l.offsets)
    (hwidth : l'.width = l.width) {i j : Nat} (hi : i < constraints.length) (hj : j < constraints'.length)
    (hij : constraints[i].Alike constraints'[j]) : ∃ (c : Cone) (first first' count : Nat),
      l.ranges[i]? = some ⟨c, first, count⟩ ∧ l'.ranges[j]? = some ⟨c, first', count⟩ ∧ first + count ≤ l.height ∧
      first' + count ≤ l'.height ∧
      p'.part first' ((first' : Int) + count) = p.part first ((first : Int) + count) ∧
      ∀ k < count, (p'.A.row (first' + k), p'.b.toReals.asRows.get (first' + k) 0) =
        (p.A.row (first + k), p.b.toReals.asRows.get (first + k) 0) := by
  obtain ⟨ms, hl⟩ := h.exists_isOf
  obtain ⟨m, first, hasks, hpart, hrange, hle, hstates⟩ := h.states_at hi
  obtain ⟨m', first', hasks', _, hrange', hle', hstates'⟩ := h'.states_at hj
  obtain ⟨hcone, hcopy⟩ := hij.asks hasks hasks'
  have hsize := hcopy.size_eq
  have hblock : ∀ b, m.2.block = .ok b → m'.2.block = .ok b :=
    fun b => Node.Alike.block_eq hcopy hpart.1 (hpart.leaf_eq hl)
  rw [hcone] at hrange' hstates'
  rw [hsize] at hrange' hle'
  exact ⟨m.1, first, first', m.2.size, hrange, hrange', hle, hle',
    hstates.part_eq hstates' hsize hblock h.fits h'.fits hoffsets hwidth hle hle',
    fun k hk => hstates.row_eq hstates' hsize hblock hoffsets hwidth hk⟩

/-- In the rows of a constraint the columns of a variable that it does not have are zeros. -/
theorem zero_of_absent (h : Accepted sense objective constraints l p) {i : Nat} (hi : i < constraints.length)
    {r : RowRange} (hr : l.ranges[i]? = some r) {id : Int} {start : Nat} {s : Shape} (hh : l.Holds id start s)
    (hleaf : ∀ t, ¬constraints[i].Leaf id t) {k j : Nat} (hk : k < r.count) (hj : j < s.size) :
    (p.part r.first (r.first + r.count)).A.get k (start + j) = 0 ∨
      (p.part r.first (r.first + r.count)).A.get k (start + j) = -0 := by
  obtain ⟨ms, hl⟩ := h.exists_isOf
  obtain ⟨m, first, hasks, hpart, hrange, hle, hstates⟩ := h.states_at hi
  obtain rfl := Option.some.inj (hrange.symm.trans hr)
  obtain ⟨b, hblock⟩ := hstates.exists_block
  have hid : id ∉ ids b.coeffs := by
    rw [(hpart.sized hl hblock).mem_ids]
    rintro ⟨t, ht⟩
    exact hleaf t (ht.of_child (hasks.2 ▸ List.mem_cons_self))
  have hget : (p.part first (first + m.2.size)).A.get k (start + j) = m.1.turned 0 := by
    rw [Program.part, Matrix.get_range (h.fits.rows_eq ▸ hle) hk, hstates.get_eq hl hpart hblock hh hk hj, if_neg hid]
  rw [hget]
  cases m.1 with
  | eq => exact .inl rfl
  | leq => exact .inl rfl
  | soc => exact .inr rfl
  | exp => exact .inr rfl

end Accepted

end

/-- Two problems with the same columns have the same rows for constraints that are alike, and in the rows of a
constraint the columns of a variable that it does not have are zeros, with one sign or the other. -/
theorem rows_of_alike [Zero α] [One α] [Add α] [Neg α] [Mul α] [Div α] [OfDouble α] [BEq α]
    {objective objective' : Node α} {constraints constraints' : List (Node α)} {l l' : Layout α}
    {sense sense' : Sense} {p p' : Program α} (h : Accepted sense objective constraints l p)
    (h' : Accepted sense' objective' constraints' l' p')
    (hoffsets : l'.offsets = l.offsets) (hwidth : l'.width = l.width) {i j : Nat} (hi : i < constraints.length)
    (hj : j < constraints'.length) (hij : constraints[i].Alike constraints'[j]) :
    ∃ r r', l.ranges[i]? = some r ∧ l'.ranges[j]? = some r' ∧ r'.cone = r.cone ∧ r'.count = r.count ∧
      p'.part r'.first (r'.first + r'.count) = p.part r.first (r.first + r.count) ∧
      ∀ id start s, l.Holds id start s → (∀ t, ¬constraints[i].Leaf id t) → ∀ k < r.count, ∀ c < s.size,
        (p.part r.first (r.first + r.count)).A.get k (start + c) = 0 ∨
          (p.part r.first (r.first + r.count)).A.get k (start + c) = -0 := by
  obtain ⟨c, first, first', count, hrange, hrange', _, _, hpart, _⟩ := h.ranges_of_alike h' hoffsets hwidth hi hj hij
  exact ⟨_, _, hrange, hrange', rfl, rfl, hpart,
    fun id start s hh hleaf k hk c hc => h.zero_of_absent hi hrange hh hleaf hk hc⟩

namespace Sample

/-- The first constraint made anew. -/
def again : Node ℚ :=
  ⟨21, .leq, ⟨2, 1⟩, [⟨20, .variable, ⟨2, 1⟩, [], .loose (.int 3)⟩], .loose .none⟩

/-- The last constraint and the first one made anew. -/
def others : List (Node ℚ) := [⟨7, .eq, ⟨1, 1⟩, [level], .loose .none⟩, again]

def othersLayout : Layout ℚ where
  members := ⟨[level], [⟨20, .variable, ⟨2, 1⟩, [], .loose (.int 3)⟩], [], []⟩
  dims := ⟨[1], [2], [], [0]⟩
  offsets := [(3, 0), (7, 2)]
  shapes := [(3, ⟨2, 1⟩), (7, ⟨1, 1⟩)]
  width := 3
  ranges := [⟨.eq, 0, 1⟩, ⟨.leq, 1, 2⟩]

theorem ofProblem_others : Layout.ofProblem level others = .ok othersLayout := by
  have hasc : Variable.Ascending distinct := by
    rw [Variable.Ascending, distinct]
    decide
  exact Layout.ofProblem_of_perm rfl rfl rfl rfl rfl (by decide) hasc rfl

theorem built_others : ∀ n ∈ level :: others, n.Built := by
  have hpair : (⟨20, .variable, ⟨2, 1⟩, [], .loose (.int 3)⟩ : Node ℚ).Built :=
    ⟨_, .leaf (show Node.ofVariable 20 (.int 3) (.tuple [.int 2, .int 1]) = .ok _ from rfl)⟩
  simp only [others, List.mem_cons, List.not_mem_nil, or_false]
  rintro n (rfl | rfl | rfl)
  · exact built_level
  · exact .constraint built_level (by simp) (show Node.eq 7 level = .ok _ from rfl)
  · exact .constraint hpair (by simp) (show Node.leq 21 _ = .ok again from rfl)

theorem toldApart_others : ToldApart (level :: others) := by
  have hnodes : (level :: others).flatMap Node.nodes = [level, ⟨7, .eq, ⟨1, 1⟩, [level], .loose .none⟩, level, again,
    ⟨20, .variable, ⟨2, 1⟩, [], .loose (.int 3)⟩] := rfl
  rw [ToldApart, hnodes]
  simp [level, again]

theorem exists_accepted_others : ∃ p, Accepted .minimize level others othersLayout p := by
  obtain ⟨p, hp⟩ := exists_of_isOk (show (Program.assemble .minimize level othersLayout).isOk = true by decide +kernel)
  exact ⟨p, built_others, toldApart_others, ofProblem_others, hp⟩

theorem alike_again : (⟨4, .leq, ⟨2, 1⟩, [pair], .loose .none⟩ : Node ℚ).Alike again :=
  Node.isCopy_iff.mpr ⟨rfl, rfl, rfl, .cons (Node.isCopy_iff.mpr ⟨rfl, rfl, rfl, .nil⟩) .nil⟩

end Sample

theorem rows_of_alike_again : ∃ p p', Program.assemble .maximize Sample.cost Sample.layout = .ok p ∧
    Program.assemble .minimize Sample.level Sample.othersLayout = .ok p' ∧ p'.part 1 3 = p.part 1 3 ∧
    ∀ k < 2, (p.part 1 3).A.get k 2 = 0 := by
  obtain ⟨p, hp⟩ := Sample.exists_accepted
  obtain ⟨p', hp'⟩ := Sample.exists_accepted_others
  obtain ⟨r, r', hr, hr', _, _, hpart, hzero⟩ := rows_of_alike hp hp' rfl rfl (i := 0) (j := 1) (by decide)
    (by decide) Sample.alike_again
  obtain rfl : ⟨.leq, 1, 2⟩ = r := Option.some.inj hr
  obtain rfl : ⟨.leq, 1, 2⟩ = r' := Option.some.inj hr'
  have hleaf : ∀ t, ¬(⟨4, .leq, ⟨2, 1⟩, [Sample.pair], .loose .none⟩ : Node ℚ).Leaf 7 t := by
    rintro t ⟨n, hn, _, hd, _⟩
    have hnodes : (⟨4, .leq, ⟨2, 1⟩, [Sample.pair], .loose .none⟩ : Node ℚ).nodes =
      [⟨4, .leq, ⟨2, 1⟩, [Sample.pair], .loose .none⟩, Sample.pair] := rfl
    rw [hnodes] at hn
    simp only [List.mem_cons, List.not_mem_nil, or_false] at hn
    rcases hn with rfl | rfl
    · cases hd
    · cases hd
  refine ⟨p, p', hp.assembled, hp'.assembled, hpart, fun k hk => ?_⟩
  have hk := hzero 7 2 ⟨1, 1⟩ ⟨by decide, by decide⟩ hleaf k hk 0 (by decide)
  simpa using hk

end ConicForm
