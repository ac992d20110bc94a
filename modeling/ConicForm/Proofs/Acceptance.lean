import ConicForm.Proofs.FirstRefusals
import ConicForm.Proofs.Offsets
import ConicForm.Proofs.Refusals

/-!
# Accepted problems

A problem of built nodes is laid out if its constraints ask for cones, those of second-order cones for columns, and
its variables are distinct. It is then assembled if its objective is a scalar, all of its expressions have blocks and
the members of exponential cones have three rows.
-/

namespace ConicForm

variable {α : Type} {n : Node α} {ns : List (Node α)}

/-- Steps that are answered one by one are answered together. -/
theorem exists_mapM_of_forall {β γ : Type} {xs : List β} {f : β → Result γ} (h : ∀ a ∈ xs, ∃ b, f a = .ok b) :
    ∃ ys, xs.mapM f = .ok ys := by
  cases hm : xs.mapM f with
  | ok ys => exact ⟨ys, rfl⟩
  | error e =>
    obtain ⟨a, ha, he⟩ := exists_of_mapM_eq_error hm
    obtain ⟨b, hb⟩ := h a ha
    cases he.symm.trans hb

namespace Node

theorem Asks.cone_eq {m : Cone × Node α} (h : n.Asks m) (position : Int) : n.cone position = .ok m.1 := by
  rw [cone, h.1]

theorem Asks.membership_eq {m : Cone × Node α} (h : n.Asks m) (position : Nat) : n.membership position = .ok m := by
  simp only [membership, h.cone_eq, h.2, bind, Except.bind, pure, Except.pure]

theorem memberships_of_asks {ms : List (Cone × Node α)} (h : List.Forall₂ Asks ns ms) (position : Nat) :
    memberships position ns = .ok ms := by
  induction h generalizing position with
  | nil => rfl
  | cons hn _ ih => rw [memberships, hn.membership_eq, ih]; rfl

section built

variable [Zero α] [Add α] [Neg α] [Mul α] [Div α] [BEq α] [OfDouble α]

theorem Built.not_foreign (h : n.Built) : n.kind.isForeign = false := by
  rcases h.cases with ⟨hk, _⟩ | ⟨_, hk, _⟩ | ⟨hk, _⟩
  · rw [hk]
    rfl
  · simpa [Kind.isExpression] using (Bool.and_eq_true_iff.mp hk).2
  · cases hn : n.kind <;> simp [hn, Kind.isConstraint] at hk <;> rfl

/-- The variables of what builders made can be collected. -/
theorem Built.exists_leafVariables (h : n.Built) : ∃ vs, n.leafVariables = .ok vs := by
  induction n using induction_on with
  | step n ih =>
    rw [leafVariables_eq]
    split
    · next hk =>
      obtain ⟨_, id, hd⟩ := h.of_variable hk
      rw [hd]
      exact ⟨_, rfl⟩
    · obtain ⟨vss, hvss⟩ := exists_mapM_of_forall fun x hx => ih x hx (h.of_child hx)
      rw [hvss]
      exact ⟨_, rfl⟩

theorem exists_problemVariables {objective : Node α} {constraints : List (Node α)}
    (h : ∀ n ∈ objective :: constraints, n.Built) : ∃ vs, objective.problemVariables constraints = .ok vs := by
  obtain ⟨first, hfirst⟩ := (h objective List.mem_cons_self).exists_leafVariables
  obtain ⟨others, hothers⟩ := exists_mapM_of_forall fun n hn =>
    (h n (List.mem_cons_of_mem objective hn)).exists_leafVariables
  rw [problemVariables, funext occurrences_eq, hfirst, hothers]
  exact ⟨_, rfl⟩

end built

end Node

/-! Dimensions and ranges of any nodes that state a size -/

theorem totalWidth_eq (h : ∀ n ∈ ns, n.kind.isForeign = false) : totalWidth ns = .ok (total (ns.map Node.size)) := by
  rw [totalWidth, mapM_eq_ok_map fun n hn => Node.width_of_not_foreign (h n hn)]
  rfl

/-- The rows of columns are listed, and the first node that is no column is refused. -/
theorem passes_columnHeights : Passes columnHeights (fun n : Node α => n.shape.cols = 1)
    fun member n => .socNotColumn member n.shape where
  nil _ := ⟨[], rfl⟩
  fine member n ns hcol e := by
    have hcol : n.shape.isColumn = true := by simpa [Shape.isColumn] using hcol
    rw [columnHeights, hcol]
    cases columnHeights (member + 1) ns with
    | error d => exact Iff.rfl
    | ok ks => simp [bind, Except.bind, pure, Except.pure]
  refused member n ns hcol := by
    have hcol : n.shape.isColumn = false := by simpa [Shape.isColumn] using hcol
    rw [columnHeights, hcol]
    rfl

/-- Groups of members that state their sizes are refused by nothing but their keys and the pass over the members of
second-order cones. -/
theorem dimensions_eq_bind {groups : List (GroupKey × List (Node α))}
    (h : ∀ c, ∀ n ∈ membersOf groups c, n.kind.isForeign = false) :
    dimensions groups = requireSupported groups >>= fun _ => (columnHeights 0 (membersOf groups .soc)).map fun soc =>
      ⟨[total ((membersOf groups .eq).map Node.size)], [total ((membersOf groups .leq).map Node.size)], soc,
        [total ((membersOf groups .exp).map Node.size)]⟩ := by
  have heq := totalWidth_eq (h .eq)
  have hleq := totalWidth_eq (h .leq)
  have hexp := totalWidth_eq (h .exp)
  simp only [dimensions, heq, hleq, hexp]
  apply bind_congr
  intro _
  change ((columnHeights 0 (membersOf groups .soc)) >>= _) = _
  cases columnHeights 0 (membersOf groups .soc) with
  | error e => rfl
  | ok soc => rfl

theorem dimensions_eq {members : ByCone (List (Node α))} (h : ∀ c, ∀ n ∈ members.get c, n.kind.isForeign = false) :
    dimensions members.groups = (columnHeights 0 members.soc).map fun soc =>
      ⟨[total (members.eq.map Node.size)], [total (members.leq.map Node.size)], soc,
        [total (members.exp.map Node.size)]⟩ :=
  dimensions_eq_bind fun c => membersOf_groups members c ▸ h c

theorem exists_rowRangesFrom {ms : List (Cone × Node α)} (h : List.Forall₂ Node.Asks ns ms)
    (hf : ∀ m ∈ ms, m.2.kind.isForeign = false) (next : ByCone Int) (position : Nat) :
    ∃ rs, rowRangesFrom next position ns = .ok rs := by
  induction h generalizing next position with
  | nil => exact ⟨[], rfl⟩
  | @cons n m ns ms hn _ ih =>
    obtain ⟨rs, hrs⟩ := ih (fun q hq => hf q (List.mem_cons_of_mem m hq))
      (next.set m.1 (next.get m.1 + m.2.size)) (position + 1)
    refine ⟨⟨m.1, next.get m.1, m.2.size⟩ :: rs, ?_⟩
    have hwidth := Node.width_of_not_foreign (hf m List.mem_cons_self)
    simp only [rowRangesFrom, hn.cone_eq, hn.2, hwidth, hrs, bind, Except.bind, pure, Except.pure]

section

variable {objective : Node α} {constraints : List (Node α)} {ms : List (Cone × Node α)} {l : Layout α}
  [Zero α] [Add α] [Neg α] [Mul α] [Div α] [BEq α] [OfDouble α]

/-- A problem whose constraints ask for cones and whose variables are distinct is laid out. -/
theorem Layout.exists_ofProblem (hb : ∀ n ∈ objective :: constraints, n.Built)
    (hasks : List.Forall₂ Node.Asks constraints ms) (hcols : ∀ n, (Cone.soc, n) ∈ ms → n.shape.cols = 1)
    {found vs : List Variable} (hfound : objective.problemVariables constraints = .ok found)
    (hvs : Variable.distinct found = .ok vs) :
    ∃ l, ofProblem objective constraints = .ok l ∧ l.Orders vs := by
  have hmembers : ∀ m ∈ ms, m.2.Built := by
    intro m hm
    obtain ⟨k, hk, hkm⟩ := exists_left_of_forall₂ hasks hm
    exact (hkm.built (hb k (List.mem_cons_of_mem objective hk))).1
  have hclassify : classify constraints = .ok (group ms) := by
    rw [classify, Node.memberships_of_asks hasks]
    rfl
  have hget : ∀ c, (group ms).get c = membersAt c ms := fun c => ByCone.get_ofFn _ c
  obtain ⟨soc, hsoc⟩ : ∃ soc, columnHeights 0 (group ms).soc = .ok soc :=
    passes_columnHeights.exists_ok_iff.mpr fun n hn => hcols n (mem_membersAt.mp (hget .soc ▸ hn))
  have hdims := dimensions_eq fun c n hn => (hmembers (c, n) (mem_membersAt.mp (hget c ▸ hn))).not_foreign
  rw [hsoc] at hdims
  obtain ⟨ranges, hranges⟩ := exists_rowRangesFrom hasks (fun m hm => (hmembers m hm).not_foreign)
    (firstRows (coneSizes _)) 0
  have hl := ofProblem_of_distinct hclassify hdims hfound hvs hranges
  obtain ⟨found', vs', hfound', hmem, horders⟩ := exists_orders hl
  obtain rfl := Except.ok.inj (hfound.symm.trans hfound')
  obtain ⟨hasc, hmem'⟩ := Variable.distinct_eq_ok hvs
  obtain rfl := hasc.eq_of_mem_iff horders.ascending fun v => (hmem' v).trans (hmem v).symm
  exact ⟨_, hl, horders⟩

variable [One α]

/-- A problem that has been laid out is assembled if its objective is a scalar, its expressions have blocks and the
members of exponential cones have three rows. -/
theorem Program.exists_assemble (sense : Sense) (hl : l.IsOf objective constraints ms)
    (hb : ∀ n ∈ objective :: constraints, n.Built) (ht : ToldApart (objective :: constraints))
    (hs : objective.shape = Shape.scalar) (ho : ∃ b, objective.block = .ok b)
    (hm : ∀ c, ∀ n ∈ l.members.get c, ∃ b, n.block = .ok b) (htriples : ∀ n ∈ l.members.exp, n.shape.rows = 3) :
    ∃ p, assemble sense objective l = .ok p := by
  have hasked : ∀ c, ∀ n : Node α, n.AskedFor constraints c → ¬n.Obstructed := by
    intro c n hn
    have hn := hl.mem_iff_askedFor.mpr hn
    exact ((hl.isPart hb hn).exists_block_iff hl).mp (hm c n hn)
  have hclear := ((Node.isPart_objective hb).exists_block_iff hl).mp ho
  cases hp : assemble sense objective l with
  | ok p => exact ⟨p, rfl⟩
  | error e =>
    cases assemble_eq_error hl hb ht hp with
    | shape hn => exact absurd hs hn
    | leading _ hn he =>
      rcases hn with rfl | hn | hn
      · exact absurd he.obstructed hclear
      · exact absurd he.obstructed (hasked .eq _ hn)
      · exact absurd he.obstructed (hasked .leq _ hn)
    | @triples n before after _ _ hsplit _ hr =>
      exact absurd (htriples n (hsplit ▸ List.mem_append_right before List.mem_cons_self)) hr
    | trailing _ _ _ hn he =>
      rcases hn with hn | hn
      · exact absurd he.obstructed (hasked .soc _ hn)
      · exact absurd he.obstructed (hasked .exp _ hn)

/-- The expressions of an accepted problem have blocks. -/
theorem Accepted.exists_block {p : Program α} {sense : Sense} (h : Accepted sense objective constraints l p) :
    (∃ b, objective.block = .ok b) ∧ ∀ c, ∀ n ∈ l.members.get c, ∃ b, n.block = .ok b := by
  obtain ⟨_, _, hp⟩ := h.exists_madeOf
  obtain ⟨block, hblock, _⟩ := Program.plainRows_eq_ok hp.cost_eq
  refine ⟨⟨_, hblock objective List.mem_cons_self⟩, fun c n hn => ?_⟩
  obtain ⟨block, hblock, _⟩ := Program.plainRows_eq_ok (hp.rows_eq c)
  exact ⟨_, hblock n hn⟩

end

end ConicForm
