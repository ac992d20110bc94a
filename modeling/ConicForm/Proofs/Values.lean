import ConicForm.Proofs.Compilation
import ConicForm.Proofs.Rationals
import ConicForm.Proofs.Sharing

/-!
# Values of compiled expressions

What builders state of their arguments is what the nodes that they make have for a value: of an expression
that compiles, `Node.value` is the value that it denotes. So its block, which is a sum over the variables'
columns, is that value column by column.
-/

namespace ConicForm

variable {α : Type} [Field α] [OfDouble α]

/-- The column of the variable with a label, if the label is one of a variable. -/
def columnOf (v : Int → Matrix α) (l : Label) : List α := l.id?.elim [] fun id => (v id).vec

namespace Node

variable {n x : Node α} {f : (Int → Matrix α) → Matrix α} {v : Int → Matrix α} {shapes : Int → Shape}
  {b : Block α}

theorem values_eq (v : Int → Matrix α) (ns : List (Node α)) : values v ns = ns.map (value v) := by
  induction ns with
  | nil => rfl
  | cons n ns ih => rw [values, ih, List.map_cons]

theorem Compiled.value_eq (h : Compiled shapes n f b) (hv : n.Fits v) : b.value (columnOf v) = (f v).vec := by
  have hx : (fun id j => (columnOf v (.ofId id)).getD j 0) = columns v := rfl
  rw [Block.value_eq h.regular, hx]
  apply ext_getD 0
  · rw [List.length_map, List.length_range, Matrix.length_vec, h.shape_eq v hv]
    rfl
  · intro k hk
    rw [List.length_map, List.length_range] at hk
    rw [getD_map_range, if_pos hk]
    exact h.flat_eq v hv k

/-- A coefficient of a compiled node is one of a variable of it, with the variable's width. -/
theorem Compiled.dims_eq (h : Compiled shapes n f b) (hs : ∀ id s, n.Leaf id s → s = shapes id)
    {e : Label × Tensor α} (he : e ∈ b.coeffs) :
    ∃ id s, e.1 = .ofId id ∧ n.Leaf id s ∧ e.2.dims = [n.size, s.size] := by
  obtain ⟨id, hid, hd⟩ := h.regular.coeffs.labelled e he
  have hmem : id ∈ ids b.coeffs := List.mem_filterMap.mpr ⟨e, he, by rw [hid]; rfl⟩
  obtain ⟨s, hl⟩ := (h.mem_ids id).mp hmem
  refine ⟨id, s, hid, hl, ?_⟩
  rw [hs id s hl]
  exact hd

variable [BEq α]

theorem Denotes.compiled (h : n.Denotes f) (he : n.IsExpression) (hw : ¬n.HasWideStep)
    (hs : ∀ id s, n.Leaf id s → s = shapes id) : ∃ b, n.block = .ok b ∧ Compiled shapes n f b := by
  cases h.formed.outcome hs with
  | compiled hb _ _ _ => exact ⟨_, hb, h.formed.compiled_of_block hb hs⟩
  | refused _ hr => exact absurd (hr he).1 hw

theorem Denotes.shape_eq (h : n.Denotes f) (hn : n.Admits v) : (f v).shape = n.shape := by
  have hs : ∀ id s, n.Leaf id s → s = (v id).shape := fun id s hl => (hn.fits id s hl).symm
  obtain ⟨b, _, hc⟩ := h.compiled hn.isExpression hn.not_wide hs
  exact hc.shape_eq v hn.fits

omit [BEq α] in
theorem Constant.value_eq {m : Matrix α} (h : Constant n m) : n.value v = m := by
  cases h with
  | scalar => rfl
  | array hk _ => rcases hk with rfl | rfl <;> rfl

omit [BEq α] in
/-- An index selects by the shape that its operand's value is to have. -/
theorem Operation.value_eq {F : Matrix α → Matrix α} (h : Operation x n F) (hs : (x.value v).shape = x.shape) :
    n.value v = F (x.value v) := by
  cases h with
  | index hr hc =>
    have hrows : (x.value v).rows = x.shape.rows := congrArg Shape.rows hs
    have hcols : (x.value v).cols = x.shape.cols := congrArg Shape.cols hs
    rw [← hr.selection_eq, ← hc.selection_eq, ← hrows, ← hcols]
    rfl
  | _ => rfl

omit [BEq α] in
theorem Combination.value_eq {xs : List (Node α)} {G : List (Matrix α) → Matrix α} (h : Combination xs n G) :
    n.value v = G (xs.map (value v)) := by
  cases h with
  | sum => exact congrArg (Matrix.sumOf _) (values_eq v xs)
  | hstack => exact congrArg (Matrix.sideBySide _) (values_eq v xs)
  | vstack => exact congrArg (Matrix.stack _) (values_eq v xs)

theorem Formed.value_eq (h : n.Formed f) (hn : n.Admits v) : n.value v = f v := by
  induction h with
  | leaf => rfl
  | constant h => exact h.value_eq
  | operation hd _ h ih =>
    have hx := hn.of_child h.mem_children
    have hvalue := ih hx
    rw [h.value_eq (hvalue ▸ hd.shape_eq hx), hvalue]
  | combination _ _ h ih =>
    rw [h.value_eq]
    exact congrArg _ (List.map_congr_left fun x hx => ih x hx (hn.of_child (h.mem_children hx)))
  | @constraint ident kind x f _ _ hk _ =>
    have hexpr : kind.isExpression := hn.isExpression _ (mem_nodes_self _)
    simp [Kind.isExpression, hk] at hexpr

/-- The value of an expression is the one that its builders' arguments state. -/
theorem Denotes.value_eq (h : n.Denotes f) (hn : n.Admits v) : n.value v = f v := h.formed.value_eq hn

/-! Correctness -/

/-- An expression is compiled to its value unless an index in it has a step past the words; the builders let
such a step through and its compilation is refused. -/
theorem affine_correct (h : n.Denotes f) (he : n.IsExpression) (ht : ToldApart [n])
    (hs : ∀ id s t, n.Leaf id s → n.Leaf id t → s = t) :
    (n.HasWideStep → n.affine = .error .wrongType) ∧
      (¬n.HasWideStep → ∃ b, n.affine = .ok b ∧ b.offset.dims = [n.size] ∧ (ids b.coeffs).Nodup ∧
        (∀ e ∈ b.coeffs, ∃ id s, e.1 = .ofId id ∧ n.Leaf id s ∧ e.2.dims = [n.size, s.size]) ∧
        ∀ v, n.Fits v → (f v).shape = n.shape ∧ n.value v = f v ∧ b.value (columnOf v) = (f v).vec) := by
  obtain ⟨shapes, hshapes⟩ := exists_shapes hs
  rw [affine_eq ht]
  cases h.formed.outcome hshapes with
  | @compiled b hb _ _ hw =>
    have hc := h.formed.compiled_of_block hb hshapes
    refine ⟨fun h => absurd h hw, fun _ => ⟨b, hb, ?_, hc.regular.coeffs.nodup, fun e he' => ?_, ?_⟩⟩
    · obtain ⟨t, ho, hd⟩ := hc.regular.offset
      rw [ho]
      exact hd
    · exact hc.dims_eq hshapes he'
    · exact fun v hv => ⟨hc.shape_eq v hv, h.value_eq ⟨he, hw, hv⟩, hc.value_eq hv⟩
  | refused hb hr =>
    obtain ⟨hw, rfl⟩ := hr he
    exact ⟨fun _ => hb, fun hn => absurd hw hn⟩

/-! Steps that fit and steps that do not -/

/-- A column of three. -/
def trio : Node ℚ := ⟨0, .variable, ⟨3, 1⟩, [], .loose (.int 5)⟩

/-- The entries of a column of three that a step comes to, if that is the first one only. -/
def first (step : Int) : Node ℚ :=
  ⟨1, .index, ⟨1, 1⟩, [trio], .selection ⟨some 0, some 3, some step⟩ ⟨some 0, some 1, some 1⟩⟩

/-- The first entry of a column above the column. -/
def firstAbove : Node ℚ := ⟨2, .vstack, ⟨4, 1⟩, [first 3, trio], .loose .none⟩

theorem trio_denotes : trio.Denotes fun v => v 5 :=
  .leaf (show ofVariable 0 (.int 5) (.tuple [.int 3, .int 1]) = .ok trio from rfl)

theorem first_denotes {step : Int} {rows : Value} (h : index 1 trio rows (.int 0) = .ok (first step)) :
    (first step).Denotes fun v => (v 5).submatrix (Slice.chosen rows 3) (Slice.chosen (.int 0) 1) :=
  .index trio_denotes h

theorem nodes_firstAbove : firstAbove.nodes = [firstAbove, first 3, trio, trio] := rfl

theorem firstAbove_denotes : firstAbove.Denotes fun v =>
    Matrix.stack 1 [(v 5).submatrix (Slice.chosen (.slice .none .none (.int 3)) 3) (Slice.chosen (.int 0) 1),
      v 5] := by
  have h : vstack 2 [first 3, trio] = .ok firstAbove := rfl
  let g : Node ℚ → (Int → Matrix ℚ) → Matrix ℚ := fun n v =>
    if n.ident = 0 then v 5
    else (v 5).submatrix (Slice.chosen (.slice .none .none (.int 3)) 3) (Slice.chosen (.int 0) 1)
  have hg : ∀ x ∈ [first 3, trio], x.Denotes (g x) := by
    intro x hx
    rcases List.mem_pair.mp hx with rfl | rfl
    · exact first_denotes rfl
    · exact trio_denotes
  exact .vstack hg h

theorem affine_correct_firstAbove : ∃ b, firstAbove.affine = .ok b ∧
    b.value (columnOf fun _ => Matrix.ofVec 3 1 [7, 8, 9]) = [7, 7, 8, 9] := by
  have hone : ∀ id s t, firstAbove.Leaf id s → firstAbove.Leaf id t → s = t := by
    simp only [Leaf, nodes_firstAbove]
    simp [firstAbove, first, trio]
    rintro _ _ _ rfl rfl _ rfl
    rfl
  have hapart : ToldApart [firstAbove] := by
    rw [ToldApart, List.flatMap_singleton, nodes_firstAbove]
    simp [firstAbove, first, trio]
  have hnarrow : ¬firstAbove.HasWideStep := by
    rw [HasWideStep, nodes_firstAbove]
    simp [firstAbove, first, trio, Payload.IsWide, Slice.IsWide]
  have hexpr : firstAbove.IsExpression := by
    unfold IsExpression
    decide
  obtain ⟨b, hb, _, _, _, hv⟩ := (affine_correct firstAbove_denotes hexpr hapart hone).2 hnarrow
  refine ⟨b, hb, (hv _ fun id s h => ?_).2.2⟩
  simp only [Leaf, nodes_firstAbove] at h
  simp [firstAbove, first, trio] at h
  rw [← h.2]
  rfl

/-- An expression that is not compiled, although builders make it and it has one variable only. -/
theorem affine_refused : (∃ f, (first (Int.pow 2 70)).Denotes f) ∧ (first (Int.pow 2 70)).IsExpression ∧
    ToldApart [first (Int.pow 2 70)] ∧
    (∀ id s t, (first (Int.pow 2 70)).Leaf id s → (first (Int.pow 2 70)).Leaf id t → s = t) ∧
    (first (Int.pow 2 70)).affine = .error .wrongType := by
  have hnodes : (first (Int.pow 2 70)).nodes = [first (Int.pow 2 70), trio] := rfl
  have hmade : index 1 trio (.slice .none .none (.int (Int.pow 2 70))) (.int 0) =
      .ok (first (Int.pow 2 70)) := rfl
  refine ⟨⟨_, first_denotes hmade⟩, ?_, ?_, ?_, rfl⟩
  · unfold IsExpression
    rw [hnodes]
    decide
  · rw [ToldApart, List.flatMap_singleton, hnodes]
    simp [first, trio]
  · simp only [Leaf, hnodes]
    simp [first, trio]
    rintro _ _ _ rfl rfl _ rfl
    rfl

end Node

end ConicForm
