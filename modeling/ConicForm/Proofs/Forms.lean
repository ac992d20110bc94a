import ConicForm.Proofs.Builders
import ConicForm.Proofs.Subnodes

/-!
# Forms of nodes

Builders make nodes of five forms: variables, constants, operations on one operand, combinations of several
operands, and constraints. `Node.Formed` says so once, with the value that a node states; what is shown of
all that builders make is shown of each form.
-/

namespace ConicForm.Node

variable {α : Type} {n x : Node α} {xs : List (Node α)} {m : Matrix α} {F : Matrix α → Matrix α}
  {G : List (Matrix α) → Matrix α} {f : (Int → Matrix α) → Matrix α}

theorem not_isWide_none : ¬(Payload.loose .none : Payload α).IsWide := Payload.not_isWide_of_ne (by simp)

theorem not_isWide_array (a : Numbers α) : ¬(Payload.array a).IsWide := Payload.not_isWide_of_ne (by simp)

theorem not_isWide_scalar (c : α) : ¬(Payload.scalar c).IsWide := Payload.not_isWide_of_ne (by simp)

/-! Constants -/

section constants

variable [OfDouble α]

/-- A node without operands that states a matrix. -/
inductive Constant : Node α → Matrix α → Prop
  | scalar {ident : Nat} {c : α} : Constant ⟨ident, .scalarConst, .scalar, [], .scalar c⟩ (Matrix.const 1 1 c)
  | array {ident : Nat} {kind : Kind} {a : Numbers α} (hk : kind = .denseConst ∨ kind = .param)
      (hd : ∃ r c, a.dims = [r, c]) : Constant ⟨ident, kind, a.shape, [], .array a⟩ a.matrix

namespace Constant

theorem children_eq (h : Constant n m) : n.children = [] := by
  cases h <;> rfl

theorem isExpression (h : Constant n m) : n.kind.isExpression := by
  cases h with
  | scalar => rfl
  | array hk _ => rcases hk with rfl | rfl <;> rfl

theorem kind_ne (h : Constant n m) : n.kind ≠ .variable := by
  cases h with
  | scalar => simp
  | array hk _ => rcases hk with rfl | rfl <;> simp

theorem not_isWide (h : Constant n m) : ¬n.data.IsWide := by
  cases h with
  | scalar => exact not_isWide_scalar _
  | array _ _ => exact not_isWide_array _

end Constant

end constants

/-! Operations on one operand -/

section operations

variable [Zero α] [Add α] [Neg α] [Mul α] [Div α] [OfDouble α]

/-- A node of one operand, and the operation on the operand's value that it states. -/
inductive Operation (x : Node α) : Node α → (Matrix α → Matrix α) → Prop
  | neg {ident : Nat} : Operation x ⟨ident, .neg, x.shape, [x], .loose .none⟩ (Matrix.map Neg.neg)
  | mul {ident : Nat} {t : Shape} {a : Numbers α} (hd : ∃ r c, a.dims = [r, c])
      (ht : a.shape.isScalar = true ∧ t = x.shape ∨
        a.shape.isScalar = false ∧ a.shape.cols = x.shape.rows ∧ t = ⟨a.shape.rows, x.shape.cols⟩) :
      Operation x ⟨ident, .mul, t, [x], .array a⟩ a.matrix.scaledLeft
  | rmul {ident : Nat} {t : Shape} {a : Numbers α} (hd : ∃ r c, a.dims = [r, c])
      (ht : a.shape.isScalar = true ∧ t = x.shape ∨
        a.shape.isScalar = false ∧ x.shape.cols = a.shape.rows ∧ t = ⟨x.shape.rows, a.shape.cols⟩) :
      Operation x ⟨ident, .rmul, t, [x], .array a⟩ (Matrix.scaledRight · a.matrix)
  | mulElem {ident : Nat} {a : Numbers α} (hd : ∃ r c, a.dims = [r, c]) (hs : a.shape = x.shape) :
      Operation x ⟨ident, .mulElem, x.shape, [x], .array a⟩ a.matrix.weighted
  | div {ident : Nat} {d : α} : Operation x ⟨ident, .div, x.shape, [x], .scalar d⟩ (Matrix.map (· / d))
  | promote {ident : Nat} {t : Shape} (hx : x.shape = .scalar) :
      Operation x ⟨ident, .promote, t, [x], .loose .none⟩ fun m => Matrix.const t.rows t.cols (m.get 0 0)
  | index {ident : Nat} {rows cols : Value} {r c : Slice} (hr : r.Selects rows x.shape.rows)
      (hc : c.Selects cols x.shape.cols) :
      Operation x ⟨ident, .index, ⟨(Slice.chosen rows x.shape.rows).length, (Slice.chosen cols x.shape.cols).length⟩,
        [x], .selection r c⟩ fun m => m.submatrix (Slice.chosen rows x.shape.rows) (Slice.chosen cols x.shape.cols)
  | transpose {ident : Nat} :
      Operation x ⟨ident, .transpose, x.shape.transposed, [x], .loose .none⟩ Matrix.transposed
  | sumEntries {ident : Nat} :
      Operation x ⟨ident, .sumEntries, .scalar, [x], .loose .none⟩ fun m => Matrix.const 1 1 m.sumEntries
  | trace {ident : Nat} :
      Operation x ⟨ident, .trace, .scalar, [x], .loose .none⟩ fun m => Matrix.const 1 1 m.diagonal.sum
  | reshape {ident : Nat} {t : Shape} (hsize : t.size = x.size) :
      Operation x ⟨ident, .reshape, t, [x], .loose .none⟩ fun m => Matrix.ofVec t.rows t.cols m.vec
  | noOp {ident : Nat} : Operation x ⟨ident, .noOp, x.shape, [x], .loose .none⟩ id

namespace Operation

theorem children_eq (h : Operation x n F) : n.children = [x] := by
  cases h <;> rfl

theorem mem_children (h : Operation x n F) : x ∈ n.children := by
  rw [h.children_eq]
  exact List.mem_cons_self

theorem isExpression (h : Operation x n F) : n.kind.isExpression := by
  cases h <;> rfl

theorem kind_ne (h : Operation x n F) : n.kind ≠ .variable := by
  cases h <;> simp

end Operation

end operations

/-! Combinations of several operands -/

section combinations

variable [Zero α] [Add α]

/-- A node of several operands, and the combination of the operands' values that it states. -/
inductive Combination (xs : List (Node α)) : Node α → (List (Matrix α) → Matrix α) → Prop
  | sum {ident : Nat} {t : Shape} (hne : xs ≠ []) (hs : ∀ x ∈ xs, x.shape = t) :
      Combination xs ⟨ident, .sum, t, xs, .loose .none⟩ (Matrix.sumOf t)
  | hstack {ident : Nat} {t : Shape} (hne : xs ≠ []) (hs : ∀ x ∈ xs, x.shape.rows = t.rows)
      (ht : t.cols = total (xs.map fun x => x.shape.cols)) :
      Combination xs ⟨ident, .hstack, t, xs, .loose .none⟩ (Matrix.sideBySide t.rows)
  | vstack {ident : Nat} {t : Shape} (hne : xs ≠ []) (hs : ∀ x ∈ xs, x.shape.cols = t.cols)
      (ht : t.rows = total (xs.map fun x => x.shape.rows)) :
      Combination xs ⟨ident, .vstack, t, xs, .loose .none⟩ (Matrix.stack t.cols)

namespace Combination

theorem children_eq (h : Combination xs n G) : n.children = xs := by
  cases h <;> rfl

theorem mem_children (h : Combination xs n G) (hx : x ∈ xs) : x ∈ n.children := by
  rwa [h.children_eq]

theorem isExpression (h : Combination xs n G) : n.kind.isExpression := by
  cases h <;> rfl

theorem kind_ne (h : Combination xs n G) : n.kind ≠ .variable := by
  cases h <;> simp

theorem not_isWide (h : Combination xs n G) : ¬n.data.IsWide := by
  cases h <;> exact not_isWide_none

end Combination

end combinations

/-! What builders make -/

variable [Zero α] [Add α] [Neg α] [Mul α] [Div α] [BEq α] [OfDouble α]

/-- A node that builders made, by its form, and the value that it states. -/
inductive Formed : Node α → ((Int → Matrix α) → Matrix α) → Prop
  | leaf {ident : Nat} {id : Int} {s : Shape} :
      Formed ⟨ident, .variable, s, [], .loose (.int id)⟩ fun v => v id
  | constant {n : Node α} {m : Matrix α} (h : Constant n m) : Formed n fun _ => m
  | operation {x n : Node α} {F : Matrix α → Matrix α} {f : (Int → Matrix α) → Matrix α} (hd : x.Denotes f)
      (hx : Formed x f) (h : Operation x n F) : Formed n fun v => F (f v)
  | combination {xs : List (Node α)} {n : Node α} {F : List (Matrix α) → Matrix α}
      {f : Node α → (Int → Matrix α) → Matrix α} (hd : ∀ x ∈ xs, x.Denotes (f x)) (hx : ∀ x ∈ xs, Formed x (f x))
      (h : Combination xs n F) : Formed n fun v => F (xs.map fun x => f x v)
  | constraint {ident : Nat} {kind : Kind} {x : Node α} {f : (Int → Matrix α) → Matrix α} (hd : x.Denotes f)
      (hx : Formed x f) (hk : kind.isConstraint) :
      Formed ⟨ident, kind, x.shape, [x], .loose .none⟩ fun _ => Matrix.zeros 0 0

theorem Denotes.formed (h : n.Denotes f) : n.Formed f := by
  induction h with
  | leaf h =>
    obtain ⟨s, _, rfl⟩ := make_eq_ok h
    exact .leaf
  | scalarConst h =>
    obtain rfl := make_toValue h
    exact .constant .scalar
  | denseConst h =>
    obtain ⟨m, hd, hm, rfl⟩ := denseConst_eq_ok h
    exact hm ▸ .constant (.array (.inl rfl) hd)
  | parameter h =>
    obtain ⟨m, hd, hm, rfl⟩ := parameter_eq_ok h
    exact hm ▸ .constant (.array (.inr rfl) hd)
  | sum hx h ih =>
    obtain ⟨hne, hs, hn⟩ := sum_eq_ok h
    exact hn ▸ .combination hx ih (.sum hne hs)
  | neg hx h ih =>
    obtain rfl := plain_eq_ok h
    exact .operation hx ih .neg
  | mul hx h ih =>
    obtain ⟨m, hd, hm, hn, ht⟩ := mul_eq_ok h
    exact hm ▸ hn ▸ .operation hx ih (.mul hd ht)
  | rmul hx h ih =>
    obtain ⟨m, hd, hm, hn, ht⟩ := rmul_eq_ok h
    exact hm ▸ hn ▸ .operation hx ih (.rmul hd ht)
  | mulElem hx h ih =>
    obtain ⟨m, hd, hm, hs, rfl⟩ := mulElem_eq_ok h
    exact hm ▸ .operation hx ih (.mulElem hd hs)
  | div hx h ih =>
    obtain rfl := div_eq_ok h
    exact .operation hx ih .div
  | promote hx hp h ih =>
    obtain ⟨hs, hn⟩ := promote_eq_ok h
    exact hn ▸ .operation hx ih (.promote hs)
  | index hx h ih =>
    obtain ⟨r, c, hr, hc, rfl⟩ := index_eq_ok h
    exact .operation hx ih (.index hr hc)
  | transpose hx h ih =>
    obtain rfl := plain_eq_ok h
    exact .operation hx ih .transpose
  | sumEntries hx h ih =>
    obtain rfl := plain_eq_ok h
    exact .operation hx ih .sumEntries
  | trace hx h ih =>
    obtain rfl := trace_eq_ok h
    exact .operation hx ih .trace
  | reshape hx hp h ih =>
    obtain ⟨hsize, hn⟩ := reshape_eq_ok hp h
    exact hn ▸ .operation hx ih (.reshape hsize)
  | hstack hx h ih =>
    obtain ⟨hne, hrows, hcols, hn⟩ := hstack_eq_ok h
    exact hn ▸ .combination hx ih (.hstack hne hrows hcols)
  | vstack hx h ih =>
    obtain ⟨hne, hcols, hrows, hn⟩ := vstack_eq_ok h
    exact hn ▸ .combination hx ih (.vstack hne hcols hrows)
  | noOp hx h ih =>
    obtain rfl := plain_eq_ok h
    exact .operation hx ih .noOp
  | constraint hx hb h ih =>
    obtain ⟨kind, hk, rfl⟩ := constraint_eq_ok hb h
    exact .constraint hx ih hk

/-- A node made with builders is a variable with an integer id and without children, another expression of such
nodes, or a constraint on one. -/
theorem Built.cases (h : n.Built) :
    (n.kind = .variable ∧ n.children = [] ∧ ∃ id, n.data = .loose (.int id)) ∨
      (n.kind ≠ .variable ∧ n.kind.isExpression ∧ ∀ x ∈ n.children, x.Built) ∨
      (n.kind.isConstraint ∧ ∃ x, n.children = [x] ∧ x.Built ∧ x.shape = n.shape) := by
  obtain ⟨f, hf⟩ := h
  cases hf.formed with
  | leaf => exact .inl ⟨rfl, rfl, _, rfl⟩
  | constant h =>
    refine .inr (.inl ⟨h.kind_ne, h.isExpression, ?_⟩)
    rw [h.children_eq]
    exact List.forall_mem_nil _
  | operation hd _ h =>
    refine .inr (.inl ⟨h.kind_ne, h.isExpression, ?_⟩)
    rw [h.children_eq]
    exact List.forall_mem_singleton.mpr ⟨_, hd⟩
  | combination hd _ h =>
    refine .inr (.inl ⟨h.kind_ne, h.isExpression, ?_⟩)
    rw [h.children_eq]
    exact fun x hx => ⟨_, hd x hx⟩
  | constraint hd _ hk => exact .inr (.inr ⟨hk, _, rfl, ⟨_, hd⟩, rfl⟩)

theorem Built.of_variable (h : n.Built) (hk : n.kind = .variable) :
    n.children = [] ∧ ∃ id, n.data = .loose (.int id) := by
  rcases h.cases with hn | hn | hn
  · exact hn.2
  · exact absurd hk hn.1
  · simp [hk, Kind.isConstraint] at hn

theorem Built.of_child (h : n.Built) (hx : x ∈ n.children) : x.Built := by
  rcases h.cases with ⟨_, hc, _⟩ | ⟨_, _, hc⟩ | ⟨_, y, hc, hy, _⟩
  · rw [hc] at hx
    cases hx
  · exact hc x hx
  · rw [hc] at hx
    exact List.mem_singleton.mp hx ▸ hy

end ConicForm.Node
