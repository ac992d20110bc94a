import ConicForm.Block.OfNode
import ConicForm.Proofs.Subnodes

/-!
# Shared nodes

Nodes that are told apart by their identities may be shared: a cache that holds nothing but the blocks of
some of them is sound, and with a sound cache every node has the block that it has without one, its refusal
included. The cache stays sound on the way, so it may go from one expression to the next.
-/

namespace ConicForm

variable {α : Type}

theorem Node.mem_flatMap_nodes {roots : List (Node α)} {n : Node α} (hn : n ∈ roots) : n ∈ roots.flatMap nodes :=
  List.mem_flatMap.mpr ⟨n, hn, mem_nodes_self n⟩

theorem Node.mem_flatMap_nodes_of_child {roots : List (Node α)} {n x : Node α} (hx : x ∈ n.children)
    (hn : n ∈ roots.flatMap nodes) : x ∈ roots.flatMap nodes := by
  obtain ⟨r, hr, hn⟩ := List.mem_flatMap.mp hn
  exact List.mem_flatMap.mpr ⟨r, hr, nodes_trans (mem_nodes_of_child hx (mem_nodes_self x)) hn⟩

/-- Nodes with one identity under some roots are one node. -/
def ToldApart (roots : List (Node α)) : Prop :=
  ∀ m ∈ roots.flatMap Node.nodes, ∀ n ∈ roots.flatMap Node.nodes, m.ident = n.ident → m = n

variable [Zero α] [One α] [Add α] [Neg α] [Mul α] [Div α] [OfDouble α]

/-- Each block in a cache is the block of a node under some roots. -/
def Cache.Sound (roots : List (Node α)) (cache : Cache α) : Prop :=
  ∀ ident b, cache.lookup ident = some b →
    ∃ m ∈ roots.flatMap Node.nodes, m.ident = ident ∧ m.block = .ok b

namespace Cache.Sound

variable {roots : List (Node α)} {cache : Cache α}

theorem nil : Sound roots ([] : Cache α) := by
  intro ident b h
  cases h

theorem cons (h : Sound roots cache) {n : Node α} (hn : n ∈ roots.flatMap Node.nodes) {b : Block α}
    (hb : n.block = .ok b) : Sound roots ((n.ident, b) :: cache) := by
  intro ident c hc
  rw [List.lookup_cons] at hc
  split at hc
  · next he =>
    obtain rfl := Option.some.inj hc
    exact ⟨n, hn, (beq_iff_eq.mp he).symm, hb⟩
  · exact h ident c hc

end Cache.Sound

namespace Node

variable {roots : List (Node α)} {cache : Cache α}

/-- With a sound cache a node has the block that it has without one. -/
def BuildsSound (roots : List (Node α)) (n : Node α) : Prop :=
  ∀ cache : Cache α, cache.Sound roots →
    (n.build cache).1 = n.block ∧ Cache.Sound roots (n.build cache).2

theorem buildAll_eq {ns : List (Node α)} (hn : ∀ n ∈ ns, BuildsSound roots n) (hc : cache.Sound roots) :
    (buildAll ns cache).1 = blocks ns ∧ Cache.Sound roots (buildAll ns cache).2 := by
  induction ns generalizing cache with
  | nil => exact ⟨rfl, hc⟩
  | cons n ns ih =>
    obtain ⟨hblock, hsound⟩ := hn n List.mem_cons_self cache hc
    rw [buildAll, blocks, ← hblock]
    rcases hb : n.build cache with ⟨e | b, cache'⟩
    · rw [hb] at hsound
      exact ⟨rfl, hsound⟩
    · rw [hb] at hsound
      obtain ⟨hrest, hsound⟩ := ih (fun m hm => hn m (List.mem_cons_of_mem _ hm)) hsound
      simp only
      rw [← hrest]
      rcases hbs : buildAll ns cache' with ⟨e | bs, cache''⟩
      · rw [hbs] at hsound
        exact ⟨rfl, hsound⟩
      · rw [hbs] at hsound
        exact ⟨rfl, hsound⟩

theorem buildsSound (h : ToldApart roots) {n : Node α} (hn : n ∈ roots.flatMap nodes) :
    BuildsSound roots n := by
  induction n using induction_on with
  | step n ih =>
    have hchildren : ∀ x ∈ n.children, BuildsSound roots x := fun x hx =>
      ih x hx (mem_flatMap_nodes_of_child hx hn)
    intro cache hc
    obtain ⟨hall, hsound⟩ := buildAll_eq hchildren hc
    obtain ⟨ident, kind, shape, children, data⟩ := n
    rw [build]
    split
    · next b hb =>
      obtain ⟨m, hm, hid, hmb⟩ := hc ident b hb
      obtain rfl := h m hm _ hn hid
      exact ⟨hmb.symm, hc⟩
    · rw [block]
      by_cases hk : kind.isExpression
      · rw [if_pos hk, if_pos hk, ← hall]
        rcases hbs : buildAll children cache with ⟨e | bs, cache'⟩
        · rw [hbs] at hsound
          exact ⟨rfl, hsound⟩
        · rw [hbs] at hsound hall
          simp only
          cases hrule : Block.rule ⟨ident, kind, shape, children, data⟩ bs with
          | error e => exact ⟨hrule.symm, hsound⟩
          | ok b =>
            refine ⟨hrule.symm, hsound.cons hn ?_⟩
            rw [block, if_pos hk, ← hall]
            exact hrule
      · rw [if_neg hk, if_neg hk]
        exact ⟨rfl, hc⟩

/-- The block of an expression, each node worked out once, is that of its tree. -/
theorem affine_eq {n : Node α} (h : ToldApart [n]) : n.affine = n.block :=
  (buildsSound h (mem_flatMap_nodes List.mem_cons_self) [] .nil).1

end Node

end ConicForm
