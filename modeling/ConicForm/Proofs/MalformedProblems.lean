import ConicForm.Proofs.Acceptance
import ConicForm.Proofs.ReachedVariables

/-!
# Malformed problems

A problem of any nodes is laid out exactly if its constraints are memberships in supported cones, the members of
second-order cones are columns, and the variables that are reached have integers for their ids and one shape for each
id. Any other problem is refused at the first of these stages that it fails, for the first thing at fault there.
-/

namespace ConicForm

variable {α : Type}

/-- Whether a kind asks for a supported cone. -/
def Kind.IsCone (k : Kind) : Prop := k ∈ [Kind.eq, .leq, .soc, .exp]

instance (k : Kind) : Decidable k.IsCone := inferInstanceAs (Decidable (k ∈ [Kind.eq, .leq, .soc, .exp]))

theorem Kind.isCone_iff {k : Kind} : k.IsCone ↔ ∃ c, k.cone? = some c := by
  cases k <;> simp [IsCone, cone?]

namespace Node

/-! Memberships -/

/-- Whether a node states that one expression is in a supported cone. -/
def IsMembership (n : Node α) : Prop := n.kind.IsCone ∧ n.children.length = 1

theorem isMembership_iff {n : Node α} : n.IsMembership ↔ ∃ m, n.Asks m := by
  rw [IsMembership, Kind.isCone_iff, List.length_eq_one_iff]
  constructor
  · rintro ⟨⟨c, hc⟩, x, hx⟩
    exact ⟨(c, x), hc, hx⟩
  · rintro ⟨m, hc, hx⟩
    exact ⟨⟨m.1, hc⟩, m.2, hx⟩

/-- How a node that states no membership is refused at a place: for its kind, and else for its children. -/
def membershipFailure (position : Nat) (n : Node α) : Failure :=
  if n.kind.IsCone then .wrongArity position n.kind.name n.children.length
  else if n.kind.isForeign then .missingProperty
  else .unsupportedCone position n.kind.name

theorem membership_eq_error {n : Node α} (h : ¬n.IsMembership) (position : Nat) :
    n.membership position = .error (n.membershipFailure position) := by
  rw [membership, membershipFailure]
  by_cases hk : n.kind.IsCone
  · obtain ⟨c, hc⟩ := Kind.isCone_iff.mp hk
    have hlength : ¬n.children.length = 1 := fun hl => h ⟨hk, hl⟩
    simp only [cone, hc, if_pos hk]
    dsimp only [bind, Except.bind]
    split
    · next x hx => exact absurd (by rw [hx]; rfl) hlength
    · rfl
  · have hnone : n.kind.cone? = none := by
      cases hc : n.kind.cone? with
      | none => rfl
      | some c => exact absurd (Kind.isCone_iff.mpr ⟨c, hc⟩) hk
    rw [cone, hnone, if_neg hk]
    by_cases hf : n.kind.isForeign
    · simp only [if_pos hf]
      rfl
    · simp only [if_neg hf]
      rfl

theorem passes_memberships : Passes (memberships (α := α)) IsMembership fun position n =>
    n.membershipFailure position where
  nil _ := ⟨[], rfl⟩
  fine position n ns hn e := by
    obtain ⟨m, hm⟩ := isMembership_iff.mp hn
    rw [memberships, hm.membership_eq]
    cases memberships (position + 1) ns with
    | error d => exact Iff.rfl
    | ok ms => simp [bind, Except.bind, pure, Except.pure]
  refused position n ns hn := by
    rw [memberships, membership_eq_error hn]
    rfl

end Node

/-- What the constraints of the second-order cone wrap, in their order. -/
def socMembers (constraints : List (Node α)) : List (Node α) :=
  (constraints.filter fun n => n.kind = .soc).flatMap Node.children

theorem membersAt_soc {constraints : List (Node α)} {ms : List (Cone × Node α)}
    (h : List.Forall₂ Node.Asks constraints ms) : membersAt .soc ms = socMembers constraints := by
  induction h with
  | nil => rfl
  | @cons n m ns ms hn _ ih =>
    rw [membersAt, socMembers, List.filter_cons, List.filter_cons]
    by_cases hs : n.kind = .soc
    · have hm : m.1 = .soc := Option.some.inj (hn.1.symm.trans (Kind.cone?_eq_soc.mpr hs))
      rw [if_pos (decide_eq_true hm), if_pos (decide_eq_true hs), List.map_cons, List.flatMap_cons, hn.2]
      exact congrArg (m.2 :: ·) ih
    · have hm : m.1 ≠ .soc := fun hm => hs (Kind.cone?_eq_soc.mp (hm ▸ hn.1))
      rw [if_neg (by simpa using hm), if_neg (by simpa using hs)]
      exact ih

/-- Nothing but the memberships, the columns of second-order cones and the variables can have a problem refused. -/
theorem Layout.exists_ofProblem_eq (objective : Node α) {constraints : List (Node α)}
    (hf : ∀ n ∈ constraints, ∀ x ∈ n.children, x.kind.isForeign = false) :
    ∃ layout : List Nat → List Variable → Layout α, ofProblem objective constraints = do
      let _ ← Node.memberships 0 constraints
      let soc ← columnHeights 0 (socMembers constraints)
      let found ← ((objective :: constraints).flatMap Node.reached).mapM Node.toVariable
      let vs ← Variable.distinct found
      return layout soc vs := by
  rw [← Node.problemVariables_eq_mapM]
  cases hms : Node.memberships 0 constraints with
  | error e =>
    refine ⟨fun _ _ => ⟨group [], ⟨[], [], [], []⟩, [], [], 0, []⟩, ?_⟩
    rw [ofProblem, classify, hms]
    rfl
  | ok ms =>
    have hasks := Node.memberships_eq_ok hms
    have hmembers : ∀ m ∈ ms, m.2.kind.isForeign = false := by
      intro m hm
      obtain ⟨n, hn, ha⟩ := exists_left_of_forall₂ hasks hm
      exact hf n hn m.2 (ha.2 ▸ List.mem_cons_self)
    have hget : ∀ c, (group ms).get c = membersAt c ms := fun c => ByCone.get_ofFn _ c
    have hdims := dimensions_eq fun c n hn => hmembers (c, n) (mem_membersAt.mp (hget c ▸ hn))
    rw [show (group ms).soc = socMembers constraints from (hget .soc).trans (membersAt_soc hasks)] at hdims
    choose ranges hranges using fun sizes => exists_rowRangesFrom hasks hmembers (firstRows sizes) 0
    have hoffsets : ∀ {found vs}, Variable.distinct found = .ok vs →
        Variable.assignOffsets vs = .ok (Variable.offsetsFrom 0 vs, Variable.totalSize vs) := by
      intro found vs hvs
      rw [Variable.assignOffsets, Variable.distinct_of_ascending (Variable.distinct_eq_ok hvs).1]
      rfl
    refine ⟨fun soc vs =>
      let dims : ByCone (List Nat) := ⟨[total ((group ms).eq.map Node.size)],
        [total ((group ms).leq.map Node.size)], soc, [total ((group ms).exp.map Node.size)]⟩
      ⟨group ms, dims, Variable.offsetsFrom 0 vs, vs.map fun v => (v.id, v.shape), (Variable.totalSize vs).toNat,
        ranges (coneSizes dims)⟩, ?_⟩
    simp only [ofProblem, classify, hms, rowRanges, hranges]
    change (dimensions (group ms).groups >>= _) = _
    rw [hdims]
    cases columnHeights 0 (socMembers constraints) with
    | error e => rfl
    | ok soc =>
      cases objective.problemVariables constraints with
      | error e => rfl
      | ok found =>
        cases hvs : Variable.distinct found with
        | error e => simp [hvs, bind, Except.bind, Except.map]
        | ok vs => simp [hvs, hoffsets hvs, bind, Except.bind, Except.map]

/-! Problems -/

section problems

open Node

variable {objective : Node α} {constraints : List (Node α)} {e : Failure}

/-- A problem without defects. -/
structure WellPosed (objective : Node α) (constraints : List (Node α)) : Prop where
  membership : ∀ n ∈ constraints, n.IsMembership
  column : ∀ x ∈ socMembers constraints, x.shape.cols = 1
  named : ∀ n : Node α, n.Occurs (objective :: constraints) → ∃ id, n.Named id
  agree : ∀ m n : Node α, m.Occurs (objective :: constraints) → n.Occurs (objective :: constraints) →
    ∀ id, m.Named id → n.Named id → m.shape = n.shape

/-- How a problem with defects is refused: for the first defect of the first stage that has one. -/
inductive Malformed (objective : Node α) (constraints : List (Node α)) : Failure → Prop
  | kind {before : List (Node α)} {n : Node α} (h : FirstNot IsMembership constraints before n)
      (hk : ¬n.kind.IsCone) : Malformed objective constraints (.unsupportedCone before.length n.kind.name)
  | children {before : List (Node α)} {n : Node α} (h : FirstNot IsMembership constraints before n)
      (hk : n.kind.IsCone) :
      Malformed objective constraints (.wrongArity before.length n.kind.name n.children.length)
  | column {before : List (Node α)} {x : Node α} (hm : ∀ n ∈ constraints, n.IsMembership)
      (h : FirstNot (fun x => x.shape.cols = 1) (socMembers constraints) before x) :
      Malformed objective constraints (.socNotColumn before.length x.shape)
  | ident {before : List (Node α)} {n : Node α} (hm : ∀ n ∈ constraints, n.IsMembership)
      (hc : ∀ x ∈ socMembers constraints, x.shape.cols = 1)
      (h : FirstNot (fun n => ∃ id, n.Named id) ((objective :: constraints).flatMap reached) before n) :
      Malformed objective constraints (.idNotInteger n.data.idText)
  | shape {before after : List (Node α)} {m n : Node α} {id : Int} (hm : ∀ n ∈ constraints, n.IsMembership)
      (hc : ∀ x ∈ socMembers constraints, x.shape.cols = 1)
      (hnamed : ∀ n ∈ (objective :: constraints).flatMap reached, ∃ id, n.Named id)
      (hsplit : (objective :: constraints).flatMap reached = before ++ n :: after) (hbefore : Agree before)
      (hmem : m ∈ before) (hid : m.Named id) (hn : n.Named id) (hne : m.shape ≠ n.shape) :
      Malformed objective constraints (.inconsistentVariable id m.shape.toValue n.shape.toValue)

theorem wellPosed_iff : WellPosed objective constraints ↔ (∀ n ∈ constraints, n.IsMembership) ∧
    (∀ x ∈ socMembers constraints, x.shape.cols = 1) ∧
    (∀ n ∈ (objective :: constraints).flatMap reached, ∃ id, n.Named id) ∧
    Agree ((objective :: constraints).flatMap reached) := by
  simp only [Agree, mem_flatMap_reached]
  constructor
  · rintro ⟨hm, hc, hnamed, hagree⟩
    exact ⟨hm, hc, hnamed, fun m hm n hn => hagree m n hm hn⟩
  · rintro ⟨hm, hc, hnamed, hagree⟩
    exact ⟨hm, hc, hnamed, fun m n hm hn => hagree m hm n hn⟩

/-- The stages one after the other: each is gone through only without a defect in those before it. -/
theorem malformed_iff (hf : ∀ n ∈ constraints, n.kind.isForeign = false) : Malformed objective constraints e ↔
    (∃ before n, FirstNot IsMembership constraints before n ∧ e = n.membershipFailure (0 + before.length)) ∨
    (∀ n ∈ constraints, n.IsMembership) ∧
    ((∃ before x, FirstNot (fun x => x.shape.cols = 1) (socMembers constraints) before x ∧
      e = .socNotColumn (0 + before.length) x.shape) ∨
    (∀ x ∈ socMembers constraints, x.shape.cols = 1) ∧
    ((∃ before n, FirstNot (fun n => ∃ id, n.Named id) ((objective :: constraints).flatMap reached) before n ∧
      e = .idNotInteger n.data.idText) ∨
    (∀ n ∈ (objective :: constraints).flatMap reached, ∃ id, n.Named id) ∧
    ∃ before n after, (objective :: constraints).flatMap reached = before ++ n :: after ∧ Agree before ∧
      ∃ m ∈ before, ∃ id, m.Named id ∧ n.Named id ∧ m.shape ≠ n.shape ∧
        e = .inconsistentVariable id m.shape.toValue n.shape.toValue)) := by
  simp only [Nat.zero_add, membershipFailure]
  constructor
  · intro h
    cases h with
    | @kind before n h hk => exact .inl ⟨before, n, h, by rw [if_neg hk, if_neg (by simp [hf n h.mem])]⟩
    | @children before n h hk => exact .inl ⟨before, n, h, by rw [if_pos hk]⟩
    | column hm h => exact .inr ⟨hm, .inl ⟨_, _, h, rfl⟩⟩
    | ident hm hc h => exact .inr ⟨hm, .inr ⟨hc, .inl ⟨_, _, h, rfl⟩⟩⟩
    | shape hm hc hnamed hsplit hagree hmem hid hn hne =>
      exact .inr ⟨hm, .inr ⟨hc, .inr ⟨hnamed, _, _, _, hsplit, hagree, _, hmem, _, hid, hn, hne, rfl⟩⟩⟩
  · rintro (⟨before, n, h, rfl⟩ | ⟨hm, ⟨before, x, h, rfl⟩ | ⟨hc, ⟨before, n, h, rfl⟩ |
      ⟨hnamed, before, n, after, hsplit, hagree, m, hmem, id, hid, hn, hne, rfl⟩⟩⟩)
    · by_cases hk : n.kind.IsCone
      · rw [if_pos hk]
        exact .children h hk
      · rw [if_neg hk, if_neg (by simp [hf n h.mem])]
        exact .kind h hk
    · exact .column hm h
    · exact .ident hm hc h
    · exact .shape hm hc hnamed hsplit hagree hmem hid hn hne

/-- A problem of nodes that may be made by hand is laid out exactly if it has no defects, and any other one is refused
for the first of its defects. -/
theorem laid_out_or_malformed (hf : ∀ n ∈ constraints, ∀ m ∈ n :: n.children, m.kind.isForeign = false) :
    ((∃ l, Layout.ofProblem objective constraints = .ok l) ↔ WellPosed objective constraints) ∧
      ∀ e, Layout.ofProblem objective constraints = .error e ↔ Malformed objective constraints e := by
  obtain ⟨layout, hlayout⟩ := Layout.exists_ofProblem_eq objective
    fun n hn x hx => hf n hn x (List.mem_cons_of_mem n hx)
  have hstated : ∀ {found}, ((objective :: constraints).flatMap reached).mapM toVariable = .ok found →
      (∀ n ∈ (objective :: constraints).flatMap reached, ∃ id, n.Named id) ∧
        found = ((objective :: constraints).flatMap reached).map stated := by
    intro found hfound
    have hnamed := passes_toVariable.exists_ok_iff (k := 0).mp ⟨found, hfound⟩
    exact ⟨hnamed, Except.ok.inj (hfound.symm.trans (mapM_toVariable hnamed))⟩
  rw [hlayout]
  constructor
  · rw [wellPosed_iff]
    refine passes_memberships.exists_bind_iff fun _ _ => passes_columnHeights.exists_bind_iff fun soc _ =>
      passes_toVariable.exists_bind_iff (k := 0) fun found hfound => ?_
    obtain ⟨hnamed, rfl⟩ := hstated hfound
    rw [agree_iff hnamed, ← Variable.exists_distinct_iff]
    constructor
    · rintro ⟨l, hl⟩
      obtain ⟨vs, hvs, _⟩ := bind_eq_ok.mp hl
      exact ⟨vs, hvs⟩
    · rintro ⟨vs, hvs⟩
      exact ⟨_, bind_eq_ok.mpr ⟨vs, hvs, rfl⟩⟩
  · intro e
    rw [malformed_iff fun n hn => hf n hn n List.mem_cons_self]
    apply passes_memberships.bind_eq_error_iff
    intro _ _ e
    apply passes_columnHeights.bind_eq_error_iff
    intro soc _ e
    apply passes_toVariable.bind_eq_error_iff (k := 0)
    intro found hfound e
    obtain ⟨hnamed, rfl⟩ := hstated hfound
    rw [← distinct_stated_eq_error_iff hnamed]
    exact bind_pure_eq_error

end problems

namespace Sample

/-- A pair in one row whose id is a text. -/
def unnamed : Node ℚ := ⟨1, .variable, ⟨1, 2⟩, [], .loose (.text "x")⟩

/-- Constraints with a defect at every stage: no column in a second-order cone, no expression, and no supported
cone. -/
def defects : List (Node ℚ) :=
  [⟨2, .soc, ⟨1, 2⟩, [unnamed], .loose .none⟩, ⟨3, .leq, ⟨1, 1⟩, [], .loose .none⟩,
    ⟨4, .sdp, ⟨1, 2⟩, [unnamed], .loose .none⟩]

end Sample

theorem laid_out_or_malformed_defects :
    Layout.ofProblem Sample.unnamed Sample.defects = .error (.wrongArity 1 "LEQ" 0) := by
  have hfirst : FirstNot Node.IsMembership Sample.defects [⟨2, .soc, ⟨1, 2⟩, [Sample.unnamed], .loose .none⟩]
      ⟨3, .leq, ⟨1, 1⟩, [], .loose .none⟩ := by
    refine ⟨⟨_, rfl⟩, ?_, ?_⟩
    · exact List.forall_mem_singleton.mpr ⟨by decide, rfl⟩
    · exact fun h => absurd h.2 (by decide)
  refine ((laid_out_or_malformed ?_).2 _).mpr (.children hfirst (by decide))
  simp only [Sample.defects, List.forall_mem_cons]
  decide

end ConicForm
