import ConicForm.Block.OfNode
import ConicForm.Proofs.Forms
import ConicForm.Proofs.ListRules
import ConicForm.Proofs.RuleImages

/-!
# Blocks of built nodes

Every node that builders make either has a regular block of its size and with its variables, and is then an
expression without a step past the words, or is refused; of expressions only such steps are, and they are
refused as data of a wrong type. This takes no law of the scalars' arithmetic. The induction is on what builders
make, and its steps are the rules.
-/

namespace ConicForm.Node

open Block (Image Merges)

variable {α : Type} [Zero α] [One α] [Add α] [Neg α] [Mul α] [Div α] [OfDouble α] {n x : Node α} {b : Block α}
  {shapes : Int → Shape}

theorem blocks_eq (ns : List (Node α)) : blocks ns = ns.mapM block := by
  induction ns with
  | nil => rfl
  | cons m ms ih => rw [blocks, ih, List.mapM_cons]

theorem block_eq (n : Node α) : n.block =
    if n.kind.isExpression then n.children.mapM block >>= Block.rule n
    else .error (Block.unsupported n) := by
  obtain ⟨ident, kind, shape, children, data⟩ := n
  rw [block, blocks_eq]

/-- A block is made by the rule of its node, of the blocks of the children. -/
theorem block_eq_ok (h : n.block = .ok b) : n.kind.isExpression ∧ ∃ bs : Node α → Block α,
    (∀ x ∈ n.children, x.block = .ok (bs x)) ∧ Block.rule n (n.children.map bs) = .ok b := by
  rw [block_eq] at h
  split at h
  · next hk =>
    obtain ⟨cs, hcs, h⟩ := bind_eq_ok.mp h
    have hchildren : ∀ x ∈ n.children, ∃ c, x.block = .ok c := by
      intro x hx
      obtain ⟨c, _, hc⟩ := exists_of_mapM_eq_ok hcs hx
      exact ⟨c, hc⟩
    choose! bs hbs using hchildren
    obtain rfl := Except.ok.inj (hcs.symm.trans (mapM_eq_ok_map hbs))
    exact ⟨hk, bs, hbs, h⟩
  · cases h

/-- `b` is a block of a node's size, with the node's variables; `shapes` gives the shapes of variables. -/
structure Sized (shapes : Int → Shape) (n : Node α) (b : Block α) : Prop where
  regular : b.Regular n.size fun id => (shapes id).size
  mem_ids : ∀ id, id ∈ ids b.coeffs ↔ ∃ s, n.Leaf id s

omit [Zero α] [One α] [Add α] [Neg α] [Mul α] [Div α] [OfDouble α] in
/-- The block that a rule makes of the blocks of the children has the variables of the node. -/
theorem Sized.of_merges {bs : Node α → Block α} (hkv : n.kind ≠ .variable)
    (hbs : ∀ x ∈ n.children, Sized shapes x (bs x))
    (hm : Merges (n.children.map bs) b n.size fun id => (shapes id).size) : Sized shapes n b := by
  refine ⟨hm.regular, fun id => ?_⟩
  rw [hm.mem_ids, Block.mem_ids_map]
  simp only [leaf_iff hkv]
  constructor
  · rintro ⟨x, hx, hid⟩
    obtain ⟨s, hs⟩ := ((hbs x hx).mem_ids id).mp hid
    exact ⟨s, x, hx, hs⟩
  · rintro ⟨s, x, hx, hs⟩
    exact ⟨x, hx, ((hbs x hx).mem_ids id).mpr ⟨s, hs⟩⟩

/-- What becomes of a node: it is compiled, or refused. -/
inductive Outcome (shapes : Int → Shape) (n : Node α) : Prop
  | compiled {b : Block α} (hb : n.block = .ok b) (hs : Sized shapes n b) (he : n.IsExpression)
      (hw : ¬n.HasWideStep)
  | refused {e : Failure} (hb : n.block = .error e)
      (he : n.IsExpression → n.HasWideStep ∧ e = .wrongType)

theorem Outcome.of_eq_ok (h : Outcome shapes n) (hb : n.block = .ok b) :
    Sized shapes n b ∧ n.IsExpression ∧ ¬n.HasWideStep := by
  cases h with
  | compiled hb' hsized he hw =>
    obtain rfl := Except.ok.inj (hb'.symm.trans hb)
    exact ⟨hsized, he, hw⟩
  | refused hb' _ =>
    rw [hb'] at hb
    cases hb

/-- A node is refused with the first of its children that is refused. -/
theorem Outcome.refused_of_child (hx : ∀ x ∈ n.children, Outcome shapes x) (hk : n.kind.isExpression)
    (herror : ∃ x ∈ n.children, ∃ e, x.block = .error e) : Outcome shapes n := by
  obtain ⟨x, hxc, e, he, hmap⟩ := mapM_eq_error herror
  have hblock : n.block = .error e := by
    rw [block_eq, if_pos hk, hmap]
    rfl
  refine .refused hblock fun hexpr => ?_
  cases hx x hxc with
  | compiled hb _ _ _ =>
    rw [hb] at he
    cases he
  | refused hb hr =>
    obtain rfl : _ = e := Except.error.inj (hb.symm.trans he)
    obtain ⟨hwide, rfl⟩ := hr (((isExpression_iff n).mp hexpr).2 x hxc)
    exact ⟨(hasWideStep_iff n).mpr (.inr ⟨x, hxc, hwide⟩), rfl⟩

/-- The block of a node whose rule merges its operands' blocks, or is refused for a step. -/
theorem Outcome.of_rule {xs : List (Node α)} (hchildren : n.children = xs) (hx : ∀ x ∈ xs, Outcome shapes x)
    (hk : n.kind.isExpression) (hkv : n.kind ≠ .variable)
    (hrule : ∀ bs : Node α → Block α, (∀ x ∈ xs, (bs x).Regular x.size fun id => (shapes id).size) →
      (¬n.data.IsWide ∧ ∃ c, Block.rule n (xs.map bs) = .ok c ∧
        Merges (xs.map bs) c n.size fun id => (shapes id).size) ∨
      n.data.IsWide ∧ Block.rule n (xs.map bs) = .error .wrongType) :
    Outcome shapes n := by
  subst hchildren
  by_cases hall : ∀ x ∈ n.children, ∃ b, x.block = .ok b
  · have hcompiled : ∀ x ∈ n.children, ∃ b, x.block = .ok b ∧ Sized shapes x b ∧
        x.IsExpression ∧ ¬x.HasWideStep := by
      intro x hxc
      cases hx x hxc with
      | compiled hb hs he hw => exact ⟨_, hb, hs, he, hw⟩
      | refused hb _ =>
        obtain ⟨b, hb'⟩ := hall x hxc
        rw [hb] at hb'
        cases hb'
    choose! bs hbs using hcompiled
    have hmap : n.children.mapM block = .ok (n.children.map bs) := mapM_eq_ok_map fun x hxc => (hbs x hxc).1
    have hblock : n.block = Block.rule n (n.children.map bs) := by
      rw [block_eq, if_pos hk, hmap]
      rfl
    rcases hrule bs fun x hxc => (hbs x hxc).2.1.regular with ⟨hw, c, hc, hm⟩ | ⟨hw, he⟩
    · refine .compiled (hblock.trans hc) (.of_merges hkv (fun x hxc => (hbs x hxc).2.1) hm)
        ((isExpression_iff n).mpr ⟨hk, fun x hxc => (hbs x hxc).2.2.1⟩) ?_
      rw [hasWideStep_iff]
      rintro (h | ⟨x, hxc, h⟩)
      · exact hw h
      · exact (hbs x hxc).2.2.2 h
    · exact .refused (hblock.trans he) fun _ => ⟨(hasWideStep_iff n).mpr (.inl hw), rfl⟩
  · apply Outcome.refused_of_child hx hk
    push Not at hall
    obtain ⟨x, hxc, hb⟩ := hall
    refine ⟨x, hxc, ?_⟩
    cases h : x.block with
    | error e => exact ⟨e, rfl⟩
    | ok b => exact absurd h (hb b)

/-! Leaves -/

variable {ident : Nat} {kind : Kind} {t : Shape}

omit [Zero α] [One α] [Add α] [Neg α] [Mul α] [Div α] [OfDouble α] in
theorem leaf_variable {id k : Int} {s t : Shape} :
    (⟨ident, .variable, s, [], .loose (.int id)⟩ : Node α).Leaf k t ↔ k = id ∧ t = s := by
  rw [Leaf, exists_mem_nodes]
  simp [eq_comm]

theorem outcome_variable {id : Int} {s : Shape} (hs : s = shapes id) :
    Outcome shapes (⟨ident, .variable, s, [], .loose (.int id)⟩ : Node α) := by
  have hids : ids (Block.ofVariable (Label.ofId id) s.size : Block α).coeffs = [id] := rfl
  refine .compiled (b := Block.ofVariable (.ofId id) s.size) rfl ⟨⟨?_, _, rfl, rfl⟩, fun k => ?_⟩ ?_ ?_
  · refine IdTable.cons_iff.mpr ⟨?_, List.not_mem_nil, IdTable.nil⟩
    change [s.size, s.size] = [s.size, (shapes id).size]
    rw [← hs]
  · rw [hids, List.mem_singleton]
    constructor
    · exact fun h => ⟨s, leaf_variable.mpr ⟨h, rfl⟩⟩
    · rintro ⟨_, h⟩
      exact (leaf_variable.mp h).1
  · rw [isExpression_iff]
    exact ⟨rfl, List.forall_mem_nil _⟩
  · rw [hasWideStep_iff]
    rintro (⟨_, _, h, _⟩ | ⟨x, hx, _⟩)
    · cases h
    · cases hx

theorem rule_scalarConst (c : α) :
    Block.rule (⟨ident, .scalarConst, .scalar, [], .scalar c⟩ : Node α) [] =
      .ok (.const (.reals (.ofFn [1] (Tensor.scalar c).getRepeated))) := by
  have hfill : (Numbers.reals (Tensor.scalar c)).filling 1 =
      .ok (.reals (.ofFn [1] (Tensor.scalar c).getRepeated)) := rfl
  change (do return Block.const (← (Numbers.reals (Tensor.scalar c)).filling 1)) = _
  rw [hfill]
  rfl

theorem rule_array {a : Numbers α} (hk : kind = .denseConst ∨ kind = .param) :
    Block.rule ⟨ident, kind, t, [], .array a⟩ [] = .ok (.const (.reals (a.vec.toReals.map (1 * ·)))) := by
  rcases hk with rfl | rfl <;> rfl

omit [One α] [Add α] [Neg α] [Mul α] [Div α] in
theorem dims_vec_toReals {a : Numbers α} (hd : ∃ r c, a.dims = [r, c]) : a.vec.toReals.dims = [a.shape.size] := by
  obtain ⟨r, c, hd⟩ := hd
  rw [Numbers.shape_eq hd]
  exact (Numbers.dims_toReals _).trans (Numbers.toReals_vec hd).1

variable {m : Matrix α} {F : Matrix α → Matrix α} {G : List (Matrix α) → Matrix α}

/-- The rule of a constant gives its entries column by column. -/
theorem Constant.rule_eq (h : Constant n m) :
    ∃ u : Tensor α, Block.rule n [] = .ok (.const (.reals u)) ∧ u.dims = [n.size] := by
  cases h with
  | scalar => exact ⟨_, rule_scalarConst _, rfl⟩
  | array hk hd => exact ⟨_, rule_array hk, dims_vec_toReals hd⟩

theorem Constant.outcome (h : Constant n m) : Outcome shapes n := by
  obtain ⟨u, hrule, hd⟩ := h.rule_eq
  refine .of_rule h.children_eq (List.forall_mem_nil _) h.isExpression h.kind_ne fun _ _ => .inl ⟨h.not_isWide, ?_⟩
  exact ⟨_, hrule, ⟨IdTable.nil, u, rfl, hd⟩, fun _ => by simp [Block.const, ids]⟩

/-! Operations on one operand -/

/-- Only the steps of an index are ever wide, and its rule is refused for them. -/
theorem Operation.rule_of_isWide (h : Operation x n F) (hw : n.data.IsWide) :
    Block.rule n [b] = .error .wrongType := by
  cases h with
  | index hr hc =>
    obtain ⟨r, c, hsel, hw⟩ := hw
    obtain ⟨rfl, rfl⟩ := Payload.selection.inj hsel
    exact Block.index_of_isWide hr hc hw
  | mul | rmul | mulElem => exact absurd hw (not_isWide_array _)
  | div => exact absurd hw (not_isWide_scalar _)
  | _ => exact absurd hw not_isWide_none

omit [One α] [Add α] [Neg α] [Mul α] [Div α] in
theorem merges_of_image {act : (Nat → α) → Nat → α} {r : Result (Block α)} {k : Nat} {width : Int → Nat}
    (h : ∃ c, r = .ok c ∧ Image act b c k width) : ∃ c, r = .ok c ∧ Merges [b] c k width := by
  obtain ⟨c, hc, himage⟩ := h
  exact ⟨c, hc, himage.merges⟩

/-- Whichever shapes they have, the factors of a product make an image of the operand's block. -/
theorem mul_merges {width : Int → Nat} {a : Numbers α} (hb : b.Regular x.size width) (hd : ∃ r c, a.dims = [r, c])
    (ht : a.shape.isScalar = true ∧ t = x.shape ∨
      a.shape.isScalar = false ∧ a.shape.cols = x.shape.rows ∧ t = ⟨a.shape.rows, x.shape.cols⟩) :
    ∃ c, Block.rule ⟨ident, .mul, t, [x], .array a⟩ [b] = .ok c ∧ Merges [b] c t.size width := by
  obtain ⟨r, c, hd⟩ := hd
  rcases ht with ⟨hscalar, rfl⟩ | ⟨hscalar, hinner, ht⟩
  · exact merges_of_image (Block.mul_image_of_isScalar hb hd hscalar)
  · exact merges_of_image (Block.mul_image hb hd hscalar hinner ht)

theorem rmul_merges {width : Int → Nat} {a : Numbers α} (hb : b.Regular x.size width) (hd : ∃ r c, a.dims = [r, c])
    (ht : a.shape.isScalar = true ∧ t = x.shape ∨
      a.shape.isScalar = false ∧ x.shape.cols = a.shape.rows ∧ t = ⟨x.shape.rows, a.shape.cols⟩) :
    ∃ c, Block.rule ⟨ident, .rmul, t, [x], .array a⟩ [b] = .ok c ∧ Merges [b] c t.size width := by
  obtain ⟨r, c, hd⟩ := hd
  rcases ht with ⟨hscalar, rfl⟩ | ⟨hscalar, hinner, ht⟩
  · exact merges_of_image (Block.rmul_image_of_isScalar hb hd hscalar)
  · exact merges_of_image (Block.rmul_image hb hd hscalar hinner ht)

theorem trace_merges {width : Int → Nat} {data : Payload α} (hb : b.Regular x.size width) :
    ∃ c, Block.rule ⟨ident, .trace, .scalar, [x], data⟩ [b] = .ok c ∧ Merges [b] c Shape.scalar.size width := by
  obtain ⟨d, c, hc, hdiag, hones⟩ := Block.trace_image hb
  exact ⟨c, hc, hones.regular, fun id => by rw [hones.ids_eq, hdiag.ids_eq]; simp⟩

/-- The rule of an operation makes one regular block of another. -/
theorem Operation.rule_merges {width : Int → Nat} (h : Operation x n F) (hw : ¬n.data.IsWide)
    (hb : b.Regular x.size width) : ∃ c, Block.rule n [b] = .ok c ∧ Merges [b] c n.size width := by
  cases h with
  | neg => exact merges_of_image (Block.neg_image hb)
  | div => exact merges_of_image (Block.div_image hb _)
  | mulElem hd hs =>
    obtain ⟨r, c, hd⟩ := hd
    exact merges_of_image (Block.mulElem_image hb hd hs)
  | mul hd ht => exact mul_merges hb hd ht
  | rmul hd ht => exact rmul_merges hb hd ht
  | promote hx => exact merges_of_image (Block.promote_image hb hx)
  | transpose => exact merges_of_image (Block.transpose_image hb)
  | index hr hc => exact merges_of_image (Block.index_image hb hr hc (fun hwide => hw ⟨_, _, rfl, hwide⟩) rfl)
  | sumEntries => exact merges_of_image (Block.sumEntries_image hb)
  | trace => exact trace_merges hb
  | reshape hsize => exact ⟨b, rfl, .singleton ((congrArg (b.Regular · width) hsize).mpr hb)⟩
  | noOp => exact ⟨b, rfl, .singleton hb⟩

theorem Operation.outcome (h : Operation x n F) (hx : Outcome shapes x) : Outcome shapes n := by
  refine .of_rule h.children_eq (List.forall_mem_singleton.mpr hx) h.isExpression h.kind_ne fun bs hbs => ?_
  by_cases hw : n.data.IsWide
  · exact .inr ⟨hw, h.rule_of_isWide hw⟩
  · exact .inl ⟨hw, h.rule_merges hw (hbs x List.mem_cons_self)⟩

/-! Combinations of several operands -/

variable {xs : List (Node α)}

theorem Combination.rule_merges {width : Int → Nat} {bs : Node α → Block α} (h : Combination xs n G)
    (hbs : ∀ x ∈ xs, (bs x).Regular x.size width) :
    ∃ c, Block.rule n (xs.map bs) = .ok c ∧ Merges (xs.map bs) c n.size width := by
  cases h with
  | sum hne hs => exact Block.sum_rule_merges hne hs hbs
  | hstack hne hs ht => exact Block.hstack_rule_merges hne hs ht hbs
  | vstack hne hs ht => exact Block.vstack_rule_merges hne hs ht hbs

theorem Combination.outcome (h : Combination xs n G) (hx : ∀ x ∈ xs, Outcome shapes x) : Outcome shapes n :=
  .of_rule h.children_eq hx h.isExpression h.kind_ne fun _ hbs => .inl ⟨h.not_isWide, h.rule_merges hbs⟩

/-! The induction -/

theorem outcome_constraint (hk : kind.isConstraint) :
    Outcome shapes (⟨ident, kind, t, xs, .loose .none⟩ : Node α) := by
  have hexpr : ¬kind.isExpression := by simp [Kind.isExpression, hk]
  exact .refused ((block_eq _).trans (if_neg hexpr)) fun he => absurd (he _ (mem_nodes_self _)) hexpr

variable [BEq α] {f : (Int → Matrix α) → Matrix α}

theorem Formed.outcome (h : n.Formed f) (hs : ∀ id s, n.Leaf id s → s = shapes id) : Outcome shapes n := by
  induction h with
  | leaf => exact outcome_variable (hs _ _ (leaf_variable.mpr ⟨rfl, rfl⟩))
  | constant h => exact h.outcome
  | operation _ _ h ih => exact h.outcome (ih fun id s hl => hs id s (hl.of_child h.mem_children))
  | combination _ _ h ih =>
    exact h.outcome fun x hx => ih x hx fun id s hl => hs id s (hl.of_child (h.mem_children hx))
  | constraint _ _ hk _ => exact outcome_constraint hk

/-- A node whose block is known is an expression without a step past the words, and of its size. -/
theorem Built.sized (h : n.Built) (hb : n.block = .ok b) (hs : ∀ id s, n.Leaf id s → s = shapes id) :
    Sized shapes n b ∧ n.IsExpression ∧ ¬n.HasWideStep := by
  obtain ⟨f, hf⟩ := h
  exact (hf.formed.outcome hs).of_eq_ok hb

end ConicForm.Node
