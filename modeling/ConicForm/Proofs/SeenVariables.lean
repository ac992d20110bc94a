import ConicForm.Proofs.CachedCalls
import ConicForm.Proofs.ReachedVariables

/-!
# Variables seen by both walks

The block of an expression and the walk over its variables are made independently of each other. No operation on
blocks makes up a label, so that the labels of a block are those of the variable nodes the walk comes to; and a tree
made with builders has a coefficient for each of them, with as many columns as the variable has entries.
-/

namespace ConicForm

namespace Block

open Keyed (keys)

variable {α : Type} {b c : Block α} {bs : List (Block α)} {l : Label}

/-- The labels of the coefficients of a block. -/
def labels (b : Block α) : List Label := keys b.coeffs

/-! One operand -/

/-- What changes each of the coefficients, and the offset in some way, keeps the labels. -/
theorem labels_of_mapCoeffs {γ : Type} {f : Tensor α → Result (Tensor α)} {r : Result γ} {g : γ → Numbers α}
    (h : (do let cs ← mapCoeffs f b.coeffs; let x ← r; return (⟨cs, g x⟩ : Block α)) = .ok c) :
    c.labels = b.labels := by
  obtain ⟨cs, hcs, h⟩ := bind_eq_ok.mp h
  obtain ⟨x, _, h⟩ := bind_eq_ok.mp h
  obtain rfl := Except.ok.inj h
  exact Keyed.keys_mapM hcs

section

variable [Zero α]

theorem labels_scale [Mul α] [OfDouble α] {factor : Numbers α} (h : b.scale factor = .ok c) : c.labels = b.labels :=
  labels_of_mapCoeffs (g := id) h

theorem labels_apply [Add α] [Mul α] [OfDouble α] {m : Tensor α} (h : b.apply m = .ok c) : c.labels = b.labels :=
  labels_of_mapCoeffs h

theorem labels_gather {places : List Nat} (h : b.gather places = .ok c) : c.labels = b.labels :=
  labels_of_mapCoeffs (g := id) h

theorem labels_weigh [Mul α] [OfDouble α] {weights : Numbers α} (h : b.weigh weights = .ok c) :
    c.labels = b.labels := labels_of_mapCoeffs (g := id) h

theorem labels_scatter {rows : Selector} {size : Nat} (h : b.scatter rows size = .ok c) : c.labels = b.labels := by
  obtain ⟨places, _, h⟩ := bind_eq_ok.mp h
  exact labels_of_mapCoeffs (g := id) h

end

/-! Several operands -/

theorem mem_labels_of_joins (h : Label.Joins c.coeffs (bs.flatMap coeffs)) (hl : l ∈ c.labels) :
    ∃ b ∈ bs, l ∈ b.labels := List.mem_flatMap.mp (keys_flatMap bs ▸ h.subset hl)

/-! The rules -/

/-- A rule with one operand, which keeps the operand's labels. -/
theorem mem_labels_of_operand {op : Block α → Result (Block α)} (h : (do op (← operand bs)) = .ok c)
    (hop : ∀ b, op b = .ok c → c.labels = b.labels) (hl : l ∈ c.labels) : ∃ b ∈ bs, l ∈ b.labels := by
  obtain ⟨b, hb, h⟩ := bind_eq_ok.mp h
  obtain _ | ⟨a, bs⟩ := bs
  · cases hb
  · obtain rfl := Except.ok.inj hb
    exact ⟨a, List.mem_cons_self, hop a h ▸ hl⟩

variable [Zero α] [One α]

omit [One α] in
theorem labels_placed {n : Node α} {xs : List (Node α)} {row : Nat} {cs : List (Block α)}
    (h : placed n row xs bs = .ok cs) (hc : c ∈ cs) : ∃ b ∈ bs, c.labels = b.labels := by
  induction xs generalizing bs row cs with
  | nil =>
    obtain rfl := Except.ok.inj h
    cases hc
  | cons x xs ih =>
    obtain _ | ⟨b, bs⟩ := bs
    · obtain rfl := Except.ok.inj h
      cases hc
    · obtain ⟨first, hfirst, h⟩ := bind_eq_ok.mp h
      obtain ⟨rest, hrest, h⟩ := bind_eq_ok.mp h
      obtain rfl := Except.ok.inj h
      rcases List.mem_cons.mp hc with rfl | hc
      · exact ⟨b, List.mem_cons_self, labels_scatter hfirst⟩
      · obtain ⟨d, hd, hcd⟩ := ih hrest hc
        exact ⟨d, List.mem_cons_of_mem b hd, hcd⟩

variable [Add α] [Neg α] [Mul α] [Div α] [OfDouble α]

/-- The rules of all kinds but the variables take their labels from the operands. -/
theorem mem_labels_rule {n : Node α} (hk : n.kind ≠ .variable) (h : rule n bs = .ok c) (hl : l ∈ c.labels) :
    ∃ b ∈ bs, l ∈ b.labels := by
  obtain ⟨ident, kind, shape, children, data⟩ := n
  cases kind with
  | «variable» => exact absurd rfl hk
  | scalarConst =>
    obtain ⟨_, _, h⟩ := bind_eq_ok.mp h
    obtain ⟨_, _, h⟩ := bind_eq_ok.mp h
    obtain rfl := Except.ok.inj h
    cases hl
  | denseConst | param =>
    obtain ⟨_, _, h⟩ := bind_eq_ok.mp h
    obtain rfl := Except.ok.inj h
    cases hl
  | sum => exact mem_labels_of_joins (joins_sum h) hl
  | neg => exact mem_labels_of_operand h (fun _ => labels_scale) hl
  | mul | rmul =>
    obtain ⟨_, _, h⟩ := bind_eq_ok.mp h
    split at h
    · exact mem_labels_of_operand h (fun _ => labels_scale) hl
    · obtain ⟨_, _, h⟩ := bind_eq_ok.mp h
      exact mem_labels_of_operand h (fun _ => labels_apply) hl
  | mulElem =>
    obtain ⟨_, _, h⟩ := bind_eq_ok.mp h
    exact mem_labels_of_operand h (fun _ => labels_weigh) hl
  | div =>
    refine mem_labels_of_operand h (fun b hb => ?_) hl
    obtain ⟨_, _, hb⟩ := bind_eq_ok.mp hb
    exact labels_scale hb
  | promote => exact mem_labels_of_operand h (fun _ => labels_gather) hl
  | index | transpose =>
    obtain ⟨_, _, h⟩ := bind_eq_ok.mp h
    exact mem_labels_of_operand h (fun _ => labels_gather) hl
  | sumEntries =>
    obtain ⟨_, _, h⟩ := bind_eq_ok.mp h
    exact mem_labels_of_operand h (fun _ => labels_apply) hl
  | trace =>
    obtain ⟨_, _, h⟩ := bind_eq_ok.mp h
    refine mem_labels_of_operand h (fun b hb => ?_) hl
    obtain ⟨d, hd, hb⟩ := bind_eq_ok.mp hb
    exact (labels_apply hb).trans (labels_gather hd)
  | reshape | noOp =>
    refine mem_labels_of_operand ((bind_pure _).trans h) (fun b hb => ?_) hl
    rw [Except.ok.inj hb]
  | hstack => exact mem_labels_of_joins (joins_concat h) hl
  | vstack =>
    obtain ⟨cs, hcs, h⟩ := bind_eq_ok.mp h
    obtain ⟨d, hd, hld⟩ := mem_labels_of_joins (joins_sum h) hl
    obtain ⟨b, hb, hdb⟩ := labels_placed hcs hd
    exact ⟨b, hb, hdb ▸ hld⟩
  | eq | leq | soc | exp | sdp | «foreign» => cases h

end Block

namespace Node

variable {α : Type}

variable [Zero α] [One α] [Add α] [Neg α] [Mul α] [Div α] [OfDouble α] {n : Node α} {b : Block α}

/-- A label of a block is what some variable node that the walk comes to goes by. -/
theorem label_of_reached {l : Label} (hb : n.block = .ok b) (hl : l ∈ b.labels) :
    ∃ m ∈ n.reached, m.data.label = .ok l := by
  induction n using induction_on generalizing b with
  | step n ih =>
    obtain ⟨_, bs, hbs, hrule⟩ := block_eq_ok hb
    rw [reached_eq]
    split
    · next hk =>
      obtain ⟨ident, kind, shape, children, data⟩ := n
      obtain rfl : kind = .variable := hk
      obtain ⟨k, hlabel, hrule⟩ := bind_eq_ok.mp hrule
      obtain rfl := Except.ok.inj hrule
      obtain rfl : l = k := List.mem_singleton.mp hl
      exact ⟨_, List.mem_singleton_self _, hlabel⟩
    · next hk =>
      obtain ⟨c, hc, hlc⟩ := Block.mem_labels_rule hk hrule hl
      obtain ⟨x, hx, rfl⟩ := List.mem_map.mp hc
      obtain ⟨m, hm, hlabel⟩ := ih x hx (hbs x hx) hlc
      exact ⟨m, List.mem_flatMap.mpr ⟨x, hx, hm⟩, hlabel⟩

/-- A block has coefficients for nothing but the variables that are listed; of a tree made with builders, whose
variables have one shape for each id, it has coefficients for all of these, each over as many columns as the variable
has entries. -/
theorem seen_variables [BEq α] {vs : List Variable} (ht : ToldApart [n]) (hb : n.affine = .ok b)
    (hv : n.occurrences = .ok vs) :
    (∀ e ∈ b.coeffs, ∃ v ∈ vs, e.1 = .ofId v.id) ∧
    (n.Built → (∀ id s t, n.Leaf id s → n.Leaf id t → s = t) →
      (∀ id, id ∈ ids b.coeffs ↔ ∃ v ∈ vs, v.id = id) ∧
      ∀ e ∈ b.coeffs, ∀ v ∈ vs, e.1 = .ofId v.id →
        ∃ cols : Nat, e.2.dims = [n.size, cols] ∧ (cols : Int) = v.size) := by
  rw [affine_eq ht] at hb
  refine ⟨fun e he => ?_, fun hbuilt hone => ?_⟩
  · obtain ⟨m, hm, hlabel⟩ := label_of_reached hb (List.mem_map_of_mem he)
    rw [occurrences_eq, leafVariables_eq_mapM] at hv
    obtain ⟨v, hvs, hmv⟩ := exists_of_mapM_eq_ok hv hm
    obtain ⟨id, hd, rfl⟩ := asVariable_eq_ok hmv
    rw [hd] at hlabel
    exact ⟨_, hvs, (Except.ok.inj hlabel).symm⟩
  · obtain ⟨shapes, hshapes⟩ := exists_shapes hone
    obtain ⟨hsized, _, _⟩ := hbuilt.sized hb hshapes
    have hmem := mem_occurrences hbuilt hv
    refine ⟨fun id => ?_, fun e he v hvs hlabel => ?_⟩
    · rw [hsized.mem_ids]
      constructor
      · rintro ⟨s, hs⟩
        exact ⟨_, (hmem _).mpr ⟨id, s, rfl, hs⟩, rfl⟩
      · rintro ⟨v, hvs, rfl⟩
        obtain ⟨id, s, rfl, hs⟩ := (hmem v).mp hvs
        exact ⟨s, hs⟩
    · obtain ⟨id, s, rfl, hs⟩ := (hmem v).mp hvs
      obtain ⟨k, hk, hd⟩ := hsized.regular.coeffs.labelled e he
      obtain rfl : id = k := by simpa [Label.ofId, Variable.ofShape] using hlabel.symm.trans hk
      refine ⟨_, hd, ?_⟩
      simp [← hshapes id s hs, Variable.size, Variable.ofShape, Shape.size]

end Node

namespace Sample

/-- A column above a variable that it has already. -/
def raised : Node ℚ := ⟨12, .vstack, ⟨4, 1⟩, [column, twin], .loose .none⟩

theorem toldApart_raised : ToldApart [raised] := by
  have hnodes : [raised].flatMap Node.nodes = [raised, column, level, pair, twin] := rfl
  rw [ToldApart, hnodes]
  simp [raised, column, level, pair, twin]

theorem built_raised : raised.Built := by
  have hcolumn : column.Built :=
    (built ⟨5, .soc, ⟨3, 1⟩, [column], .loose .none⟩ (by simp [constraints])).of_child List.mem_cons_self
  have htwin : twin.Built := ⟨_, .leaf (show Node.ofVariable 8 (.int 7) (.tuple [.int 1, .int 1]) = .ok twin from rfl)⟩
  have hchildren : ∀ x ∈ [column, twin], x.Built := by
    simp only [List.mem_cons, List.not_mem_nil, or_false]
    rintro x (rfl | rfl)
    · exact hcolumn
    · exact htwin
  exact .vstack hchildren (show Node.vstack 12 [column, twin] = .ok raised from rfl)

theorem leaf_raised {id : Int} {s : Shape} :
    raised.Leaf id s ↔ id = 7 ∧ s = ⟨1, 1⟩ ∨ id = 3 ∧ s = ⟨2, 1⟩ := by
  have hnodes : raised.nodes = [raised, column, level, pair, twin] := rfl
  rw [Node.Leaf, hnodes]
  simp only [raised, column, level, pair, twin, List.exists_mem_cons_iff]
  grind

end Sample

theorem Node.seen_variables_raised : ∃ b vs, Sample.raised.affine = .ok b ∧ Sample.raised.occurrences = .ok vs ∧
    vs.map Variable.id = [7, 3, 7] ∧ (∀ id, id ∈ ids b.coeffs ↔ id = 7 ∨ id = 3) ∧
    ∀ e ∈ b.coeffs, e.1 = .ofId 3 → e.2.dims = [4, 2] := by
  obtain ⟨b, hb⟩ : ∃ b, Sample.raised.affine = .ok b := exists_of_isOk (by decide +kernel)
  have hv : Sample.raised.occurrences = .ok [⟨7, 1, 1⟩, ⟨3, 2, 1⟩, ⟨7, 1, 1⟩] := by
    rw [occurrences_eq]
    rfl
  have hone : ∀ id s t, Sample.raised.Leaf id s → Sample.raised.Leaf id t → s = t := by
    intro id s t hs ht
    rw [Sample.leaf_raised] at hs ht
    rcases hs with ⟨rfl, rfl⟩ | ⟨rfl, rfl⟩
    · simpa [eq_comm] using ht
    · simpa [eq_comm] using ht
  obtain ⟨_, hall⟩ := seen_variables Sample.toldApart_raised hb hv
  obtain ⟨hids, hcols⟩ := hall Sample.built_raised hone
  refine ⟨b, _, hb, hv, rfl, fun id => ?_, fun e he hlabel => ?_⟩
  · rw [hids]
    simp only [List.exists_mem_cons_iff, List.not_mem_nil, false_and, exists_false]
    grind
  · obtain ⟨cols, hd, hsize⟩ := hcols e he ⟨3, 2, 1⟩ (by simp) hlabel
    obtain rfl : cols = 2 := Int.ofNat.inj hsize
    exact hd

end ConicForm
