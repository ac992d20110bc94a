import ConicForm.Proofs.Regularity
import ConicForm.Proofs.Rules

/-!
# Compilation of expressions

`Node.Compiled` says what the block of a node is: an affine map of its variables whose value is the node's, for
exact scalars. The induction is on what builders make, and its steps are the rules.
-/

namespace ConicForm.Node

open Block (Transforms Assembles)

variable {α : Type} [Field α] [OfDouble α]

/-- The columns of variables' values. -/
def columns (v : Int → Matrix α) (id : Int) (k : Nat) : α := (v id).flat k

/-- `b` is the affine map of a node that states `f`; `shapes` gives the shapes of variables. -/
structure Compiled (shapes : Int → Shape) (n : Node α) (f : (Int → Matrix α) → Matrix α) (b : Block α) :
    Prop extends Sized shapes n b where
  shape_eq : ∀ v, n.Fits v → (f v).shape = n.shape
  flat_eq : ∀ v, n.Fits v → ∀ k, b.eval (fun id => (shapes id).size) (columns v) k = (f v).flat k

variable {shapes : Int → Shape} {n x : Node α} {b : Block α} {xs : List (Node α)}
  {f : (Int → Matrix α) → Matrix α} {G : List (Matrix α) → Matrix α}

/-- The block of a node whose rule keeps to its operands' values. -/
theorem Compiled.of_rule {g : Node α → (Int → Matrix α) → Matrix α} (hb : n.block = .ok b) (hchildren : n.children = xs)
    (hx : ∀ x ∈ xs, ∀ c, x.block = .ok c → Compiled shapes x (g x) c) (hkv : n.kind ≠ .variable)
    (hrule : ∀ bs : Node α → Block α, (∀ x ∈ xs, (bs x).Regular x.size fun id => (shapes id).size) →
      Block.rule n (xs.map bs) = .ok b → Assembles G xs bs b n.shape fun id => (shapes id).size) :
    Compiled shapes n (fun v => G (xs.map fun x => g x v)) b := by
  subst hchildren
  obtain ⟨_, bs, hbs, hb⟩ := block_eq_ok hb
  have hcompiled : ∀ x ∈ n.children, Compiled shapes x (g x) (bs x) := fun x hxc => hx x hxc _ (hbs x hxc)
  have ha := hrule bs (fun x hxc => (hcompiled x hxc).regular) hb
  have hm : Block.Merges (n.children.map bs) b n.size fun id => (shapes id).size :=
    ⟨ha.regular, fun id => (ha.mem_ids id).trans Block.mem_ids_map.symm⟩
  refine ⟨.of_merges hkv (fun x hxc => (hcompiled x hxc).toSized) hm, fun v hv => ?_, fun v hv => ?_⟩
  · exact ha.shape_eq (fun x => g x v) fun x hxc => (hcompiled x hxc).shape_eq v (hv.of_child hxc)
  · exact ha.flat_eq (columns v) (fun x => g x v)
      (fun x hxc => (hcompiled x hxc).shape_eq v (hv.of_child hxc))
      fun x hxc => (hcompiled x hxc).flat_eq v (hv.of_child hxc)

/-! Leaves -/

variable {ident : Nat}

theorem compiled_variable {id : Int} {s : Shape} (hs : s = shapes id)
    (hb : (⟨ident, .variable, s, [], .loose (.int id)⟩ : Node α).block = .ok b) :
    Compiled shapes ⟨ident, .variable, s, [], .loose (.int id)⟩ (fun v => v id) b := by
  obtain rfl : Block.ofVariable (.ofId id) s.size = b := Except.ok.inj hb
  have hids : ids (Block.ofVariable (Label.ofId id) s.size : Block α).coeffs = [id] := rfl
  refine ⟨((outcome_variable hs).of_eq_ok hb).1, fun v hv => hv id s (leaf_variable.mpr ⟨rfl, rfl⟩), fun v hv k => ?_⟩
  have hshape : (v id).shape = s := hv id s (leaf_variable.mpr ⟨rfl, rfl⟩)
  have hentry : ∀ j, Coefficients.entry (Block.ofVariable (Label.ofId id) s.size : Block α).coeffs id k j =
      (Matrix.identity s.size).get k j := by
    intro j
    rw [Block.ofVariable, Coefficients.entry_cons_ofId, if_pos rfl, Tensor.asRows_ofMatrix]
  have hconst : (Block.ofVariable (Label.ofId id) s.size : Block α).constant k = 0 := Tensor.get_zeros _ k 0
  rw [Block.eval, hids, hconst, add_zero, List.toFinset_cons, List.toFinset_nil, insert_empty_eq,
    Finset.sum_singleton, ← hs]
  simp only [hentry]
  by_cases hk : k < s.size
  · rw [sum_range_single hk, Matrix.get_identity _ hk, if_pos rfl, one_mul]
    · rfl
    · intro j _ hj
      rw [Matrix.get_identity _ hk, if_neg hj.symm, zero_mul]
  · have hzero : ∀ j, (Matrix.identity s.size : Matrix α).get k j = 0 :=
      fun j => Matrix.get_of_rows_le _ j (Nat.le_of_not_lt hk)
    rw [(v id).flat_of_le (by rw [hshape]; exact Nat.le_of_not_lt hk)]
    simp [hzero]

/-- The rule of a constant gives the entries of the matrix that it states. -/
theorem Constant.rule_flat_eq {m : Matrix α} (h : Constant n m) :
    n.shape = m.shape ∧ ∃ u : Tensor α, Block.rule n [] = .ok (.const (.reals u)) ∧ u.dims = [n.size] ∧
      ∀ k < n.size, u.asRows.get k 0 = m.flat k := by
  cases h with
  | scalar =>
    refine ⟨rfl, _, rule_scalarConst _, rfl, fun k hk => ?_⟩
    obtain rfl : k = 0 := Nat.lt_one_iff.mp hk
    rw [Matrix.flat_const _ Nat.one_pos]
    rfl
  | @array _ _ a hk hd =>
    have hdims := dims_vec_toReals hd
    obtain ⟨r, c, hd⟩ := hd
    obtain ⟨_, hl⟩ := Numbers.toReals_vec hd
    refine ⟨(Numbers.shape_eq hd).trans (Numbers.shape_matrix hd).symm, _, rule_array hk, hdims, fun k hk => ?_⟩
    have hk : k < a.shape.size := hk
    rw [Tensor.get_asRows_map _ (mul_zero 1), one_mul, Matrix.flat, ← hl, Tensor.toList_eq_vec hdims,
      Matrix.getD_vec, Tensor.rows_asRows hdims, Nat.mod_eq_of_lt hk, Nat.div_eq_of_lt hk]

theorem Constant.compiled {m : Matrix α} (h : Constant n m) (hb : n.block = .ok b) :
    Compiled shapes n (fun _ => m) b := by
  obtain ⟨hshape, u, hrule, hd, hflat⟩ := h.rule_flat_eq
  refine .of_rule (G := fun _ => m) (g := fun _ _ => m) hb h.children_eq (List.forall_mem_nil _) h.kind_ne
    fun bs _ hanswer => ?_
  obtain rfl := Except.ok.inj (hrule.symm.trans hanswer)
  refine ⟨⟨IdTable.nil, u, rfl, hd⟩, fun id => ?_, fun _ _ => hshape.symm, fun v _ _ _ k => ?_⟩
  · simp [Block.const, ids]
  · have heval : (Block.const (.reals u)).eval (fun id => (shapes id).size) v k = u.asRows.get k 0 :=
      zero_add _
    rw [heval]
    by_cases hlt : k < n.size
    · exact hflat k hlt
    · have hle : n.size ≤ k := Nat.le_of_not_lt hlt
      rw [m.flat_of_le (by rw [← hshape]; exact hle)]
      exact Matrix.get_of_rows_le _ 0 (by rw [Tensor.rows_asRows hd]; exact hle)

/-! Operations on one operand -/

/-- The rule of an operation makes the block of the operation's value. -/
theorem Operation.rule_transforms {F : Matrix α → Matrix α} {c : Block α} {width : Int → Nat} (h : Operation x n F)
    (hw : ¬n.data.IsWide) (hc : c.Regular x.size width) :
    ∃ d, Block.rule n [c] = .ok d ∧ Transforms F c d x.shape n.shape width := by
  cases h with
  | neg => exact Block.neg_transforms hc
  | div => exact Block.div_transforms hc _
  | mulElem hd hs =>
    obtain ⟨_, _, hd⟩ := hd
    exact Block.mulElem_transforms hc hd hs
  | mul hd ht =>
    obtain ⟨_, _, hd⟩ := hd
    exact Block.mul_transforms hc hd ht
  | rmul hd ht =>
    obtain ⟨_, _, hd⟩ := hd
    exact Block.rmul_transforms hc hd ht
  | promote hx => exact Block.promote_transforms hc hx
  | transpose => exact Block.transpose_transforms hc
  | index hr hq => exact Block.index_transforms hc hr hq (fun hwide => hw ⟨_, _, rfl, hwide⟩) rfl
  | sumEntries => exact Block.sumEntries_transforms hc
  | trace => exact Block.trace_transforms hc
  | reshape hsize => exact Block.reshape_transforms hc hsize
  | noOp => exact Block.noOp_transforms hc

/-- A rule of one operand as one of several. -/
theorem Transforms.assembles {F : Matrix α → Matrix α} {bs : Node α → Block α} {c : Block α} {t : Shape}
    {width : Int → Nat} (h : Transforms F (bs x) c x.shape t width) :
    Assembles (fun ms => F (ms.headD (Matrix.zeros 0 0))) [x] bs c t width := by
  refine ⟨h.regular, fun id => ?_, fun m hm => ?_, fun v m hm hflat => ?_⟩
  · rw [h.ids_eq]
    simp
  · exact h.shape_eq _ (hm x List.mem_cons_self)
  · exact h.flat_eq v (m x) (hm x List.mem_cons_self) (hflat x List.mem_cons_self)

theorem Operation.compiled {F : Matrix α → Matrix α} (h : Operation x n F) (hb : n.block = .ok b)
    (hx : ∀ c, x.block = .ok c → Compiled shapes x f c) : Compiled shapes n (fun v => F (f v)) b := by
  refine .of_rule (G := fun ms => F (ms.headD (Matrix.zeros 0 0))) (g := fun _ => f) hb h.children_eq (fun y hy => ?_)
    h.kind_ne fun bs hbs hanswer => ?_
  · rw [List.mem_singleton.mp hy]
    exact hx
  · have hw : ¬n.data.IsWide := by
      -- a step that does not fit into a word would have been refused
      intro hw
      cases (h.rule_of_isWide hw).symm.trans hanswer
    obtain ⟨c, hc, ht⟩ := h.rule_transforms hw (hbs x List.mem_cons_self)
    obtain rfl := Except.ok.inj (hc.symm.trans hanswer)
    exact Transforms.assembles ht

/-! Combinations of several operands -/

theorem Combination.rule_assembles {bs : Node α → Block α} {width : Int → Nat} (h : Combination xs n G)
    (hbs : ∀ x ∈ xs, (bs x).Regular x.size width) :
    ∃ c, Block.rule n (xs.map bs) = .ok c ∧ Assembles G xs bs c n.shape width := by
  cases h with
  | sum hne hs => exact Block.sum_assembles hne hs hbs
  | hstack hne hs ht => exact Block.hstack_assembles hne hs ht hbs
  | vstack hne hs ht => exact Block.vstack_assembles hne hs ht hbs

theorem Combination.compiled {g : Node α → (Int → Matrix α) → Matrix α} (h : Combination xs n G)
    (hb : n.block = .ok b) (hx : ∀ x ∈ xs, ∀ c, x.block = .ok c → Compiled shapes x (g x) c) :
    Compiled shapes n (fun v => G (xs.map fun x => g x v)) b := by
  refine .of_rule hb h.children_eq hx h.kind_ne fun bs hbs hanswer => ?_
  obtain ⟨c, hc, ha⟩ := h.rule_assembles hbs
  obtain rfl := Except.ok.inj (hc.symm.trans hanswer)
  exact ha

/-! The induction -/

variable [BEq α]

theorem Formed.compiled_of_block (h : n.Formed f) (hb : n.block = .ok b)
    (hs : ∀ id s, n.Leaf id s → s = shapes id) : Compiled shapes n f b := by
  induction h generalizing b with
  | leaf => exact compiled_variable (hs _ _ (leaf_variable.mpr ⟨rfl, rfl⟩)) hb
  | constant h => exact h.compiled hb
  | operation _ _ h ih => exact h.compiled hb fun c hc => ih hc fun id s hl => hs id s (hl.of_child h.mem_children)
  | combination _ _ h ih =>
    exact h.compiled hb fun x hx c hc => ih x hx hc fun id s hl => hs id s (hl.of_child (h.mem_children hx))
  | constraint _ _ hk _ =>
    have hexpr := (block_eq_ok hb).1
    simp [Kind.isExpression, hk] at hexpr

end ConicForm.Node
