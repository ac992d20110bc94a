import ConicForm.Proofs.ConstraintRows
import ConicForm.Proofs.PlainAssembly

/-!
# Calls with a shared cache

Expressions that are built one after the other hand a cache on, into their children and out of them again. Every
node that is built on the way is built with a sound cache, so it has the block of its tree, and the first refusal is
that of the trees.
-/

namespace ConicForm

variable {α : Type} [Zero α] [One α] [Add α] [Neg α] [Mul α] [Div α] [OfDouble α]

namespace Node

variable {roots ns : List (Node α)} {n : Node α} {cache cache' : Cache α}

/-- The nodes that are built when some roots are built in their order with one cache, each with the cache at that
time: a root after the roots before it, and a child of an expression that was not cached after the children before
it. -/
inductive Called (roots : List (Node α)) : Node α → Cache α → Prop where
  | root {before after : List (Node α)} {n : Node α} {bs : List (Block α)} {cache : Cache α}
      (hroots : roots = before ++ n :: after) (hbefore : buildAll before [] = (.ok bs, cache)) : Called roots n cache
  | child {n x : Node α} {before after : List (Node α)} {bs : List (Block α)} {cache cache' : Cache α}
      (hn : Called roots n cache) (hnew : cache.lookup n.ident = none) (hkind : n.kind.isExpression)
      (hchildren : n.children = before ++ x :: after) (hbefore : buildAll before cache = (.ok bs, cache')) :
      Called roots x cache'

theorem buildAll_sound (ht : ToldApart roots) (hns : ∀ n ∈ ns, n ∈ roots.flatMap nodes) (hc : cache.Sound roots) :
    (buildAll ns cache).1 = blocks ns ∧ Cache.Sound roots (buildAll ns cache).2 :=
  buildAll_eq (fun n hn => buildsSound ht (hns n hn)) hc

/-- Of nodes that are built in their order, each is built after the ones before it left a sound cache. -/
theorem sound_before (ht : ToldApart roots) (hns : ∀ n ∈ ns, n ∈ roots.flatMap nodes) (hc : cache.Sound roots)
    {before after : List (Node α)} {bs : List (Block α)} (hsplit : ns = before ++ n :: after)
    (hbefore : buildAll before cache = (.ok bs, cache')) : n ∈ roots.flatMap nodes ∧ cache'.Sound roots := by
  have hmem : ∀ m ∈ before ++ n :: after, m ∈ roots.flatMap nodes := hsplit ▸ hns
  have hsound := (buildAll_sound ht (fun m hm => hmem m (List.mem_append_left _ hm)) hc).2
  rw [hbefore] at hsound
  exact ⟨hmem n (List.mem_append_right _ List.mem_cons_self), hsound⟩

/-- Each call is made for a node under the roots and with a sound cache. -/
theorem Called.sound (ht : ToldApart roots) (h : Called roots n cache) :
    n ∈ roots.flatMap nodes ∧ cache.Sound roots := by
  -- On who made the call: an expression hands its own cache, sound by then, to the first of its children.
  induction h with
  | root hroots hbefore => exact sound_before ht (fun m hm => mem_flatMap_nodes hm) .nil hroots hbefore
  | child _ _ _ hchildren hbefore ih =>
    obtain ⟨hn, hc⟩ := ih
    exact sound_before ht (fun m hm => mem_flatMap_nodes_of_child hm hn) hc hchildren hbefore

/-- Whatever is built with a shared cache is built as without one, refusals included: the roots up to the first
refusal, each node that is built on the way, and the programs whose expressions are under the roots. -/
theorem built_as_unshared (ht : ToldApart roots) :
    (∀ before after, roots = before ++ after →
        (buildAll before []).1 = blocks before ∧ Cache.Sound roots (buildAll before []).2) ∧
      (∀ n cache, Called roots n cache →
        cache.Sound roots ∧ (n.build cache).1 = n.block ∧ Cache.Sound roots (n.build cache).2) ∧
      ∀ sense objective (l : Layout α), objective ∈ roots.flatMap nodes →
        (∀ c, ∀ n ∈ l.members.get c, n ∈ roots.flatMap nodes) →
        Program.assemble sense objective l = Program.assemblePlainly sense objective l := by
  refine ⟨fun before after hroots => ?_, fun n cache h => ?_, fun sense objective l hobjective hmember => ?_⟩
  · exact buildAll_sound ht (fun n hn => mem_flatMap_nodes (hroots ▸ List.mem_append_left _ hn)) .nil
  · obtain ⟨hn, hc⟩ := h.sound ht
    exact ⟨hc, buildsSound ht hn cache hc⟩
  · exact Program.assemble_eq_plainly ht hobjective hmember

end Node

namespace Sample

/-- The same variable as the level, in a node of its own. -/
def twin : Node ℚ := ⟨8, .variable, ⟨1, 1⟩, [], .loose (.int 7)⟩

def tripled : Node ℚ := ⟨9, .sum, ⟨1, 1⟩, [level, twin, level], .loose .none⟩

def childless : Node ℚ := ⟨10, .neg, ⟨1, 1⟩, [], .loose .none⟩

/-- Roots that share a sum, the second of them with a child that is refused. -/
def twins : List (Node ℚ) := [tripled, ⟨11, .vstack, ⟨2, 1⟩, [tripled, childless], .loose .none⟩, cost]

theorem toldApart_twins : ToldApart twins := by
  have hnodes : twins.flatMap Node.nodes = [tripled, level, twin, level,
    ⟨11, .vstack, ⟨2, 1⟩, [tripled, childless], .loose .none⟩, tripled, level, twin, level, childless,
    cost, level] := rfl
  rw [ToldApart, hnodes]
  simp [tripled, level, twin, childless, cost]

end Sample

theorem Node.built_as_unshared_twins : ∃ cache : Cache ℚ, Called Sample.twins Sample.childless cache ∧
    cache.map Prod.fst = [9, 8, 0] ∧ cache.Sound Sample.twins ∧
    (Sample.childless.build cache).1 = .error .missingPosition ∧
    (buildAll Sample.twins []).1 = .error .missingPosition := by
  obtain ⟨hroots, hcalled, _⟩ := built_as_unshared Sample.toldApart_twins
  obtain ⟨cache, bs, bs', hfirst, hkeys, hnew, hagain⟩ : ∃ (cache : Cache ℚ) (bs bs' : List (Block ℚ)),
      buildAll [Sample.tripled] [] = (.ok bs, cache) ∧ cache.map Prod.fst = [9, 8, 0] ∧ cache.lookup 11 = none ∧
        buildAll [Sample.tripled] cache = (.ok bs', cache) := ⟨_, _, _, rfl, rfl, rfl, rfl⟩
  have hcall : Called Sample.twins Sample.childless cache :=
    .child (.root (show Sample.twins = [Sample.tripled] ++ _ :: [Sample.cost] from rfl) hfirst) hnew rfl
      (show _ = [Sample.tripled] ++ Sample.childless :: [] from rfl) hagain
  obtain ⟨hsound, hblock, _⟩ := hcalled _ _ hcall
  refine ⟨cache, hcall, hkeys, hsound, hblock.trans rfl, ?_⟩
  rw [(hroots Sample.twins [] (List.append_nil _).symm).1]
  rfl

end ConicForm
