import ConicForm.Proofs.Slices
import ConicForm.Variable.Occurrences

/-!
# The nodes under a node

`Node.nodes` lists a node and all nodes under it. What is said here of a tree is said of its nodes: which
variables it has, whether it is made of expressions only, and whether an index in it has a step past the
words.
-/

namespace ConicForm

variable {α : Type}

/-- Whether the data select by a step that does not fit into a word. -/
def Payload.IsWide (data : Payload α) : Prop :=
  ∃ rows cols, data = .selection rows cols ∧ (rows.IsWide ∨ cols.IsWide)

theorem Payload.not_isWide_of_ne {data : Payload α} (h : ∀ rows cols, data ≠ .selection rows cols) :
    ¬data.IsWide := by
  rintro ⟨rows, cols, hd, _⟩
  exact h rows cols hd

namespace Node

mutual

/-- The nodes of a tree, each before those under it. -/
def nodes : Node α → List (Node α)
  | ⟨ident, kind, shape, children, data⟩ => ⟨ident, kind, shape, children, data⟩ :: allNodes children
termination_by structural n => n

def allNodes : List (Node α) → List (Node α)
  | [] => []
  | n :: rest => nodes n ++ allNodes rest
termination_by structural ns => ns

end

theorem allNodes_eq (ns : List (Node α)) : allNodes ns = ns.flatMap nodes := by
  induction ns with
  | nil => rfl
  | cons n ns ih => rw [allNodes, ih, List.flatMap_cons]

theorem nodes_eq (n : Node α) : n.nodes = n :: n.children.flatMap nodes := by
  cases n
  rw [nodes, allNodes_eq]

theorem mem_nodes_self (n : Node α) : n ∈ n.nodes := by
  rw [nodes_eq]
  exact List.mem_cons_self

/-- What some node of a tree has, the tree or one of the children has. -/
theorem exists_mem_nodes {P : Node α → Prop} (n : Node α) :
    (∃ m ∈ n.nodes, P m) ↔ P n ∨ ∃ x ∈ n.children, ∃ m ∈ x.nodes, P m := by
  rw [nodes_eq, List.exists_mem_cons_iff]
  apply or_congr_right
  constructor
  · rintro ⟨m, hm, hP⟩
    obtain ⟨x, hx, hm⟩ := List.mem_flatMap.mp hm
    exact ⟨x, hx, m, hm, hP⟩
  · rintro ⟨x, hx, m, hm, hP⟩
    exact ⟨m, List.mem_flatMap.mpr ⟨x, hx, hm⟩, hP⟩

theorem count_le_countAll {x : Node α} {xs : List (Node α)} (h : x ∈ xs) : x.count ≤ countAll xs := by
  induction xs with
  | nil => cases h
  | cons y ys ih =>
    rw [countAll]
    rcases List.mem_cons.mp h with rfl | h
    · omega
    · have := ih h
      omega

/-- Induction from the children of a node to the node. -/
theorem induction_on {P : Node α → Prop} (n : Node α) (step : ∀ n, (∀ x ∈ n.children, P x) → P n) :
    P n := by
  induction hk : n.count using Nat.strong_induction_on generalizing n with
  | _ k ih =>
    apply step
    intro x hx
    have hle := count_le_countAll hx
    have hn := count_eq n
    exact ih x.count (by omega) x rfl

theorem nodes_trans {k m n : Node α} (hk : k ∈ m.nodes) (hm : m ∈ n.nodes) : k ∈ n.nodes := by
  induction n using induction_on with
  | step n ih =>
    rw [nodes_eq] at hm ⊢
    rcases List.mem_cons.mp hm with rfl | hm
    · rwa [nodes_eq] at hk
    · obtain ⟨x, hx, hm⟩ := List.mem_flatMap.mp hm
      exact List.mem_cons_of_mem _ (List.mem_flatMap.mpr ⟨x, hx, ih x hx hm⟩)

theorem mem_nodes_of_child {m x n : Node α} (hx : x ∈ n.children) (hm : m ∈ x.nodes) : m ∈ n.nodes := by
  rw [nodes_eq]
  exact List.mem_cons_of_mem _ (List.mem_flatMap.mpr ⟨x, hx, hm⟩)

/-! What trees are made of -/

/-- Whether a tree has the variable with an id, of some shape. -/
def Leaf (n : Node α) (id : Int) (s : Shape) : Prop :=
  ∃ m ∈ n.nodes, m.kind = .variable ∧ m.data = .loose (.int id) ∧ m.shape = s

/-- A tree without constraints and foreign nodes. -/
def IsExpression (n : Node α) : Prop := ∀ m ∈ n.nodes, m.kind.isExpression

/-- Whether an index in a tree has a step past the words. -/
def HasWideStep (n : Node α) : Prop := ∃ m ∈ n.nodes, m.data.IsWide

/-- Whether every variable of a tree has a matrix of its shape. -/
def Fits (n : Node α) (v : Int → Matrix α) : Prop := ∀ id s, n.Leaf id s → (v id).shape = s

theorem leaf_iff {n : Node α} (hk : n.kind ≠ .variable) {id : Int} {s : Shape} :
    n.Leaf id s ↔ ∃ x ∈ n.children, x.Leaf id s := by
  rw [Leaf, exists_mem_nodes]
  exact or_iff_right fun h => hk h.1

theorem Leaf.of_child {x n : Node α} (hx : x ∈ n.children) {id : Int} {s : Shape} (h : x.Leaf id s) :
    n.Leaf id s := by
  obtain ⟨m, hm, h⟩ := h
  exact ⟨m, mem_nodes_of_child hx hm, h⟩

/-- The shapes that a tree has for the ids of its variables. -/
theorem exists_shapes {n : Node α} (h : ∀ id s t, n.Leaf id s → n.Leaf id t → s = t) :
    ∃ shapes : Int → Shape, ∀ id s, n.Leaf id s → s = shapes id := by
  choose! shapes hshapes using fun id (h : ∃ s, n.Leaf id s) => h
  exact ⟨shapes, fun id s hs => h id s _ hs (hshapes id ⟨s, hs⟩)⟩

theorem isExpression_iff (n : Node α) :
    n.IsExpression ↔ n.kind.isExpression ∧ ∀ x ∈ n.children, x.IsExpression := by
  rw [IsExpression, nodes_eq]
  simp only [List.mem_cons, List.mem_flatMap, forall_eq_or_imp, forall_exists_index, and_imp]
  exact and_congr_right' ⟨fun h x hx m hm => h m x hx hm, fun h m x hx hm => h x hx m hm⟩

theorem hasWideStep_iff (n : Node α) :
    n.HasWideStep ↔ n.data.IsWide ∨ ∃ x ∈ n.children, x.HasWideStep := exists_mem_nodes n

theorem Fits.of_child {x n : Node α} {v : Int → Matrix α} (h : n.Fits v) (hx : x ∈ n.children) : x.Fits v :=
  fun id s hs => h id s (hs.of_child hx)

/-- An expression that has a value, and matrices for its variables. -/
structure Admits (n : Node α) (v : Int → Matrix α) : Prop where
  isExpression : n.IsExpression
  not_wide : ¬n.HasWideStep
  fits : n.Fits v

theorem Admits.of_child {x n : Node α} {v : Int → Matrix α} (h : n.Admits v) (hx : x ∈ n.children) :
    x.Admits v :=
  ⟨((isExpression_iff n).mp h.isExpression).2 x hx,
    fun hw => h.not_wide ((hasWideStep_iff n).mpr (.inr ⟨x, hx, hw⟩)), h.fits.of_child hx⟩

end Node

end ConicForm
