import ConicForm.Proofs.ConstraintRows

/-!
# Refused problems

Two things stand in the way of compiling an expression that builders made: a constraint inside it, and an index
with a step past the words. A problem that has been laid out is refused for the first obstacle that the passes
of the assembly come to, and for nothing else: the shape of the objective, then the expressions that are stated
with a negated offset, then the rows of the members of exponential cones, then the other expressions. A problem
without obstacles is assembled.
-/

namespace ConicForm

variable {α : Type}

/-! Expressions -/

namespace Node

/-- Whether there is a constraint in a tree. -/
def HasConstraint (n : Node α) : Prop := ∃ m ∈ n.nodes, m.kind.isConstraint

/-- Whether something stands in the way of compiling a tree that builders made. -/
def Obstructed (n : Node α) : Prop := n.HasConstraint ∨ n.HasWideStep

/-- How an obstructed tree may be refused: for a constraint in it, which the failure names, or for a step. -/
inductive Refusal (n : Node α) : Failure → Prop
  | constraint {m : Node α} (hm : m ∈ n.nodes) (hk : m.kind.isConstraint) :
      Refusal n (.unsupportedNode m.kind.name m.shape true)
  | step (h : n.HasWideStep) : Refusal n .wrongType

theorem Refusal.of_child {n x : Node α} {e : Failure} (hx : x ∈ n.children) (h : x.Refusal e) : n.Refusal e := by
  cases h with
  | constraint hm hk => exact .constraint (mem_nodes_of_child hx hm) hk
  | step h => exact .step ((hasWideStep_iff n).mpr (.inr ⟨x, hx, h⟩))

theorem Refusal.obstructed {n : Node α} {e : Failure} (h : n.Refusal e) : n.Obstructed := by
  cases h with
  | constraint hm hk => exact .inl ⟨_, hm, hk⟩
  | step h => exact .inr h

theorem IsExpression.not_hasConstraint {n : Node α} (h : n.IsExpression) : ¬n.HasConstraint := by
  rintro ⟨m, hm, hk⟩
  have := h m hm
  simp [Kind.isExpression, hk] at this

variable [Zero α] [One α] [Add α] [Neg α] [Mul α] [Div α] [OfDouble α] [BEq α] {n : Node α}
  {shapes : Int → Shape} {e : Failure}

omit [One α] in
/-- What builders make of no constraint is an expression. -/
theorem Built.isExpression (h : n.Built) (hc : ¬n.HasConstraint) : n.IsExpression := by
  induction n using induction_on with
  | step n ih =>
    have hchildren : ∀ x ∈ n.children, ¬x.HasConstraint := by
      rintro x hx ⟨m, hm, hk⟩
      exact hc ⟨m, mem_nodes_of_child hx hm, hk⟩
    have hrest : ∀ x ∈ n.children, x.IsExpression := fun x hx => ih x hx (h.of_child hx) (hchildren x hx)
    rw [isExpression_iff]
    refine ⟨?_, hrest⟩
    rcases h.cases with ⟨hk, _⟩ | ⟨_, hk, _⟩ | ⟨hk, _⟩
    · rw [hk]
      rfl
    · exact hk
    · exact absurd ⟨n, mem_nodes_self n, hk⟩ hc

theorem Built.exists_block_iff (h : n.Built) (hs : ∀ id s, n.Leaf id s → s = shapes id) :
    (∃ b, n.block = .ok b) ↔ ¬n.Obstructed := by
  constructor
  · rintro ⟨b, hb⟩ hn
    obtain ⟨_, hexpr, hnarrow⟩ := h.sized hb hs
    exact hn.elim hexpr.not_hasConstraint hnarrow
  · intro hn
    rw [Obstructed, not_or] at hn
    have hexpr := h.isExpression hn.1
    obtain ⟨f, hf⟩ := h
    cases hf.formed.outcome hs with
    | compiled hb _ _ _ => exact ⟨_, hb⟩
    | refused _ hr => exact absurd (hr hexpr).1 hn.2

/-- A tree that has no block is refused for what stands in the way. -/
theorem Built.refusal (h : n.Built) (hs : ∀ id s, n.Leaf id s → s = shapes id) (he : n.block = .error e) :
    n.Refusal e := by
  induction n using induction_on generalizing e with
  | step n ih =>
    have hleaf : ∀ x ∈ n.children, ∀ id s, x.Leaf id s → s = shapes id :=
      fun x hx id s hl => hs id s (hl.of_child hx)
    by_cases hk : n.kind.isExpression
    · by_cases herror : ∃ x ∈ n.children, ∃ e, x.block = .error e
      · obtain ⟨x, hx, d, hd, hmap⟩ := mapM_eq_error herror
        rw [block_eq, if_pos hk, hmap] at he
        obtain rfl : d = e := Except.error.inj he
        exact (ih x hx (h.of_child hx) (hleaf x hx) hd).of_child hx
      · have hchildren : ∀ x ∈ n.children, x.IsExpression := by
          intro x hx
          cases hb : x.block with
          | error d => exact absurd ⟨x, hx, d, hb⟩ herror
          | ok b => exact ((h.of_child hx).sized hb (hleaf x hx)).2.1
        have hexpr := (isExpression_iff n).mpr ⟨hk, hchildren⟩
        obtain ⟨f, hf⟩ := h
        cases hf.formed.outcome hs with
        | compiled hb _ _ _ =>
          rw [hb] at he
          cases he
        | refused hb hr =>
          obtain rfl := Except.error.inj (hb.symm.trans he)
          obtain ⟨hwide, rfl⟩ := hr hexpr
          exact .step hwide
    · have hconstraint : n.kind.isConstraint := by
        rcases h.cases with ⟨hv, _⟩ | ⟨_, hx, _⟩ | ⟨hc, _⟩
        · rw [hv] at hk
          exact absurd rfl hk
        · exact absurd hx hk
        · exact hc
      rw [block_eq, if_neg hk, Block.unsupported, hconstraint] at he
      obtain rfl := Except.error.inj he
      exact .constraint (mem_nodes_self n) hconstraint

end Node

/-! Problems -/

namespace Node

/-- `n` is what one of the constraints wraps to ask for the cone `c`. -/
def AskedFor (n : Node α) (constraints : List (Node α)) (c : Cone) : Prop :=
  ∃ k ∈ constraints, k.kind.cone? = some c ∧ n ∈ k.children

/-- The expressions whose rows are made before the rows of exponential cones are counted. -/
def Leads (n objective : Node α) (constraints : List (Node α)) : Prop :=
  n = objective ∨ n.AskedFor constraints .eq ∨ n.AskedFor constraints .leq

/-- The expressions whose rows are made afterwards. -/
def Trails (n : Node α) (constraints : List (Node α)) : Prop :=
  n.AskedFor constraints .soc ∨ n.AskedFor constraints .exp

end Node

/-- What is known of a problem when its program is refused: which pass refused it, and that those before it
did not. -/
inductive Program.Refused (objective : Node α) (constraints : List (Node α)) (l : Layout α) : Failure → Prop
  | shape (hs : objective.shape ≠ Shape.scalar) :
      Refused objective constraints l (.objectiveNotScalar objective.shape)
  | leading {n : Node α} {e : Failure} (hs : objective.shape = Shape.scalar)
      (hn : n.Leads objective constraints) (he : n.Refusal e) : Refused objective constraints l e
  | triples {n : Node α} {before after : List (Node α)} (hs : objective.shape = Shape.scalar)
      (hl : ∀ m : Node α, m.Leads objective constraints → ¬m.Obstructed)
      (hsplit : l.members.exp = before ++ n :: after) (hbefore : ∀ m ∈ before, m.shape.rows = 3)
      (hn : n.shape.rows ≠ 3) : Refused objective constraints l (.expNotTriples before.length n.shape)
  | trailing {n : Node α} {e : Failure} (hs : objective.shape = Shape.scalar)
      (hl : ∀ m : Node α, m.Leads objective constraints → ¬m.Obstructed)
      (ht : ∀ m ∈ l.members.exp, m.shape.rows = 3) (hn : n.Trails constraints) (he : n.Refusal e) :
      Refused objective constraints l e

section problems

variable {l : Layout α} {objective n : Node α} {constraints : List (Node α)} {ms : List (Cone × Node α)}

theorem Layout.IsOf.mem_iff_askedFor (hl : l.IsOf objective constraints ms) {c : Cone} :
    n ∈ l.members.get c ↔ n.AskedFor constraints c := by
  constructor
  · intro hn
    obtain ⟨k, hk, hcone, hchildren⟩ := hl.exists_asks hn
    exact ⟨k, hk, hcone, hchildren ▸ List.mem_cons_self⟩
  · rintro ⟨k, hk, hcone, hn⟩
    obtain ⟨m, hm, ha⟩ := exists_right_of_forall₂ hl.asks hk
    obtain rfl : m.1 = c := Option.some.inj (ha.1.symm.trans hcone)
    rw [ha.2] at hn
    obtain rfl := List.mem_singleton.mp hn
    exact hl.mem_members.mpr hm

variable [Zero α] [One α] [Add α] [Neg α] [Mul α] [Div α] [OfDouble α] [BEq α]
  {sense : Sense} {e : Failure}

namespace Node.IsPart

theorem exists_block_iff (h : IsPart objective constraints n) (hl : l.IsOf objective constraints ms) :
    (∃ b, n.block = .ok b) ↔ ¬n.Obstructed :=
  h.1.exists_block_iff (h.leaf_eq hl)

theorem refusal (h : IsPart objective constraints n) (hl : l.IsOf objective constraints ms)
    (he : n.block = .error e) : n.Refusal e :=
  h.1.refusal (h.leaf_eq hl) he

end Node.IsPart

namespace Program

variable {r : Rows α}

/-- Rows that were made leave no obstacle in the expressions that they were made of. -/
theorem clear_of_plainRows {ns : List (Node α)} (hl : l.IsOf objective constraints ms)
    (hn : ∀ n ∈ ns, Node.IsPart objective constraints n) (h : plainRows l ns = .ok r) :
    ∀ n ∈ ns, ¬n.Obstructed := by
  obtain ⟨block, hblock, _⟩ := plainRows_eq_ok h
  exact fun m hm => ((hn m hm).exists_block_iff hl).mp ⟨_, hblock m hm⟩

theorem clear_of_members (hl : l.IsOf objective constraints ms) (hb : ∀ n ∈ objective :: constraints, n.Built)
    {c : Cone} (h : plainRows l (l.members.get c) = .ok r) (hn : n.AskedFor constraints c) : ¬n.Obstructed :=
  clear_of_plainRows hl (fun _ => hl.isPart hb) h n (hl.mem_iff_askedFor.mpr hn)

theorem refusal_of_members (hl : l.IsOf objective constraints ms) (hb : ∀ n ∈ objective :: constraints, n.Built)
    {c : Cone} (h : plainRows l (l.members.get c) = .error e) :
    ∃ n : Node α, n.AskedFor constraints c ∧ n.Refusal e := by
  obtain ⟨n, hn, he⟩ := plainRows_eq_error hl (fun n => hl.isPart hb) h
  exact ⟨n, hl.mem_iff_askedFor.mp hn, (hl.isPart hb hn).refusal hl he⟩

theorem clear_of_objective (hl : l.IsOf objective constraints ms) (hb : ∀ n ∈ objective :: constraints, n.Built)
    (h : plainRows l [objective] = .ok r) : ¬objective.Obstructed :=
  clear_of_plainRows hl (List.forall_mem_singleton.mpr (Node.isPart_objective hb)) h objective List.mem_cons_self

/-- An objective that states no direction is no scalar, or it is obstructed. -/
theorem costOf_eq_error (hl : l.IsOf objective constraints ms) (hb : ∀ n ∈ objective :: constraints, n.Built)
    (h : costOf sense objective l = .error e) : Refused objective constraints l e := by
  have hroot := Node.isPart_objective hb
  by_cases hs : objective.shape = Shape.scalar
  · cases hcost : plainRows l [objective] with
    | error d =>
      rw [costOf, if_neg (not_not.mpr hs), hcost] at h
      obtain rfl : d = e := Except.error.inj h
      obtain ⟨n, hn, he⟩ := plainRows_eq_error hl (List.forall_mem_singleton.mpr hroot) hcost
      obtain rfl := List.mem_singleton.mp hn
      exact .leading hs (.inl rfl) (hroot.refusal hl he)
    | ok cost => cases (costOf_eq hs hcost (objective_hasSize hl hb hs hcost)).symm.trans h
  · rw [costOf, if_pos hs] at h
    obtain rfl := Except.error.inj h
    exact .shape hs

/-- Past its objective a problem is refused by the first pass over the members that comes to an obstacle. -/
theorem rowsOfCones_eq_error (hl : l.IsOf objective constraints ms)
    (hb : ∀ n ∈ objective :: constraints, n.Built) (hs : objective.shape = Shape.scalar)
    (ho : ¬objective.Obstructed) (h : rowsOfCones l = .error e) : Refused objective constraints l e := by
  -- The members stated with a negated offset.
  rcases bind_eq_error.mp h with h | ⟨eq, heq, h⟩
  · obtain ⟨n, hn, he⟩ := refusal_of_members (c := .eq) hl hb h
    exact .leading hs (.inr (.inl hn)) he
  have hsizeEq := members_hasSize (c := .eq) hl hb heq
  rcases bind_eq_error.mp h with h | ⟨eqBounds, heqb, h⟩
  · obtain ⟨_, hb, _⟩ := hsizeEq.column.negated
    cases hb.symm.trans h
  rcases bind_eq_error.mp h with h | ⟨leq, hleq, h⟩
  · obtain ⟨n, hn, he⟩ := refusal_of_members (c := .leq) hl hb h
    exact .leading hs (.inr (.inr hn)) he
  have hsizeLeq := members_hasSize (c := .leq) hl hb hleq
  rcases bind_eq_error.mp h with h | ⟨leqBounds, hleqb, h⟩
  · obtain ⟨_, hb, _⟩ := hsizeLeq.column.negated
    cases hb.symm.trans h
  have hlead : ∀ n : Node α, n.Leads objective constraints → ¬n.Obstructed := by
    rintro n (rfl | hn | hn)
    · exact ho
    · exact clear_of_members (c := .eq) hl hb heq hn
    · exact clear_of_members (c := .leq) hl hb hleq hn
  -- The rows of exponential cones, then the other members.
  rcases bind_eq_error.mp h with h | ⟨_, htriples, h⟩
  · obtain ⟨before, n, hn, rfl⟩ := passes_requireTriples.eq_error_iff.mp h
    obtain ⟨after, hsplit⟩ := hn.split
    rw [Nat.zero_add]
    exact .triples hs hlead hsplit hn.fine hn.not_fine
  have htriples := passes_requireTriples.exists_ok_iff.mp ⟨(), htriples⟩
  rcases bind_eq_error.mp h with h | ⟨soc, hsoc, h⟩
  · obtain ⟨n, hn, he⟩ := refusal_of_members (c := .soc) hl hb h
    exact .trailing hs hlead htriples (.inl hn) he
  rcases bind_eq_error.mp h with h | ⟨exp, hexp, h⟩
  · obtain ⟨n, hn, he⟩ := refusal_of_members (c := .exp) hl hb h
    exact .trailing hs hlead htriples (.inr hn) he
  have hsizes : ∀ c, (ByCone.get ⟨eq, leq, soc, exp⟩ c).HasSize (total (l.dims.get c)) l.width := by
    intro c
    cases c with
    | eq => exact hsizeEq
    | leq => exact hsizeLeq
    | soc => exact members_hasSize (c := .soc) hl hb hsoc
    | exp => exact members_hasSize (c := .exp) hl hb hexp
  have hrights : ∀ c, Cone.rightSide c (ByCone.get ⟨eq, leq, soc, exp⟩ c).g =
      .ok (ByCone.get ⟨eqBounds, leqBounds, soc.g, exp.g⟩ c) := by
    intro c
    cases c with
    | eq => exact heqb
    | leq => exact hleqb
    | soc => rfl
    | exp => rfl
  obtain ⟨_, b, hjoin, _⟩ := exists_joined hsizes hrights
  rcases bind_eq_error.mp h with h | ⟨_, _, h⟩
  · cases hjoin.symm.trans h
  · cases h

/-- A problem that is not assembled is refused by the first pass that comes to an obstacle. -/
theorem assemble_eq_error (hl : l.IsOf objective constraints ms)
    (hb : ∀ n ∈ objective :: constraints, n.Built) (ht : ToldApart (objective :: constraints))
    (h : assemble sense objective l = .error e) : Refused objective constraints l e := by
  rw [assemble_eq ht hl] at h
  rcases bind_eq_error.mp h with h | ⟨⟨c, d⟩, hcost, h⟩
  · exact costOf_eq_error hl hb h
  rw [costOf] at hcost
  split at hcost
  · cases hcost
  next hs =>
  obtain ⟨cost, hrow, _⟩ := bind_eq_ok.mp hcost
  rcases bind_eq_error.mp h with h | ⟨_, _, h⟩
  · exact rowsOfCones_eq_error hl hb (not_not.mp hs) (clear_of_objective hl hb hrow) h
  · cases h

end Program

/-- An accepted problem has no obstacles. -/
theorem Accepted.clear {p : Program α} (h : Accepted sense objective constraints l p) :
    objective.shape = Shape.scalar ∧ (∀ n : Node α, n.Leads objective constraints → ¬n.Obstructed) ∧
      (∀ n ∈ l.members.exp, n.shape.rows = 3) ∧ ∀ n : Node α, n.Trails constraints → ¬n.Obstructed := by
  obtain ⟨ms, hl⟩ := h.exists_isOf
  obtain ⟨cost, rows, hp⟩ := h.exists_madeOf
  have hmembers : ∀ c, ∀ n : Node α, n.AskedFor constraints c → ¬n.Obstructed :=
    fun c n => Program.clear_of_members hl h.built (hp.rows_eq c)
  refine ⟨hp.scalar, ?_, hp.triples, ?_⟩
  · rintro n (rfl | hn | hn)
    · exact Program.clear_of_objective hl h.built hp.cost_eq
    · exact hmembers .eq n hn
    · exact hmembers .leq n hn
  · rintro n (hn | hn)
    · exact hmembers .soc n hn
    · exact hmembers .exp n hn

end problems

/-- A problem of built nodes that has been laid out is refused for the first obstacle that the passes of the
assembly come to: an objective that is no scalar, then a constraint or a step in the objective or in a member
stated with a negated offset, then a member of an exponential cone without three rows, then a constraint or a
step in another member. Without obstacles it is assembled. -/
theorem assembled_unless_obstructed {α : Type} [Zero α] [One α] [Add α] [Neg α] [Mul α] [Div α] [OfDouble α]
    [BEq α] {objective : Node α} {constraints : List (Node α)} {l : Layout α} (sense : Sense)
    (hb : ∀ n ∈ objective :: constraints, n.Built) (ht : ToldApart (objective :: constraints))
    (h : Layout.ofProblem objective constraints = .ok l) :
    (objective.shape ≠ Shape.scalar →
      Program.assemble sense objective l = .error (.objectiveNotScalar objective.shape)) ∧
    (objective.shape = Shape.scalar →
      ((∃ n : Node α, n.Leads objective constraints ∧ n.Obstructed) →
        ∃ n : Node α, ∃ e, n.Leads objective constraints ∧ n.Refusal e ∧
          Program.assemble sense objective l = .error e) ∧
      ((∀ n : Node α, n.Leads objective constraints → ¬n.Obstructed) →
        ((∃ n : Node α, n.AskedFor constraints .exp ∧ n.shape.rows ≠ 3) →
          ∃ before n after, l.members.exp = before ++ n :: after ∧ (∀ m ∈ before, m.shape.rows = 3) ∧
            n.shape.rows ≠ 3 ∧
            Program.assemble sense objective l = .error (.expNotTriples before.length n.shape)) ∧
        ((∀ n : Node α, n.AskedFor constraints .exp → n.shape.rows = 3) →
          ((∃ n : Node α, n.Trails constraints ∧ n.Obstructed) →
            ∃ n : Node α, ∃ e, n.Trails constraints ∧ n.Refusal e ∧
              Program.assemble sense objective l = .error e) ∧
          ((∀ n : Node α, n.Trails constraints → ¬n.Obstructed) →
            ∃ p, Program.assemble sense objective l = .ok p)))) := by
  obtain ⟨ms, hl⟩ := Layout.ofProblem_eq_ok hb h
  refine ⟨fun hs => by rw [Program.assemble, if_pos hs]; rfl, fun hs => ?_⟩
  cases hp : Program.assemble sense objective l with
  | ok p =>
    obtain ⟨_, hlead, htriples, htrail⟩ := Accepted.clear ⟨hb, ht, h, hp⟩
    refine ⟨?_, fun _ => ⟨?_, fun _ => ⟨?_, fun _ => ⟨p, rfl⟩⟩⟩⟩
    · rintro ⟨n, hn, ho⟩
      exact absurd ho (hlead n hn)
    · rintro ⟨n, hn, hr⟩
      exact absurd (htriples n (hl.mem_iff_askedFor.mpr hn)) hr
    · rintro ⟨n, hn, ho⟩
      exact absurd ho (htrail n hn)
  | error e =>
    cases Program.assemble_eq_error hl hb ht hp with
    | shape hn => exact absurd hs hn
    | leading _ hn he =>
      exact ⟨fun _ => ⟨_, e, hn, he, rfl⟩, fun hlead => absurd he.obstructed (hlead _ hn)⟩
    | @triples n before after _ hlead hsplit hbefore hr =>
      have hmem : n ∈ l.members.get .exp := by
        rw [show l.members.get .exp = before ++ n :: after from hsplit]
        exact List.mem_append_right before List.mem_cons_self
      refine ⟨?_, fun _ => ⟨fun _ => ⟨_, _, _, hsplit, hbefore, hr, rfl⟩,
        fun htriples => absurd (htriples _ (hl.mem_iff_askedFor.mp hmem)) hr⟩⟩
      rintro ⟨n, hn, ho⟩
      exact absurd ho (hlead n hn)
    | trailing _ hlead htriples hn he =>
      refine ⟨?_, fun _ => ⟨?_, fun _ =>
        ⟨fun _ => ⟨_, e, hn, he, rfl⟩, fun htrail => absurd he.obstructed (htrail _ hn)⟩⟩⟩
      · rintro ⟨n, hn, ho⟩
        exact absurd ho (hlead n hn)
      · rintro ⟨n, hn, hr⟩
        exact absurd (htriples n (hl.mem_iff_askedFor.mpr hn)) hr

namespace Sample

/-- A pair with a constraint on it as an operand. -/
def nested : Node ℚ := ⟨6, .neg, ⟨2, 1⟩, [⟨5, .leq, ⟨2, 1⟩, [pair], .loose .none⟩], .loose .none⟩

/-- A column without the constraint that is in the way has the wrong number of rows. -/
def flawed : List (Node ℚ) :=
  [⟨7, .soc, ⟨2, 1⟩, [nested], .loose .none⟩, ⟨4, .exp, ⟨2, 1⟩, [pair], .loose .none⟩]

def flawedLayout : Layout ℚ where
  members := ⟨[], [], [nested], [pair]⟩
  dims := ⟨[0], [0], [2], [2]⟩
  offsets := [(3, 0), (7, 2)]
  shapes := [(3, ⟨2, 1⟩), (7, ⟨1, 1⟩)]
  width := 3
  ranges := [⟨.soc, 0, 2⟩, ⟨.exp, 2, 2⟩]

theorem ofProblem_flawed : Layout.ofProblem level flawed = .ok flawedLayout := by
  have hasc : Variable.Ascending distinct := by
    rw [Variable.Ascending, distinct]
    decide
  exact Layout.ofProblem_of_perm rfl rfl rfl rfl rfl (by decide) hasc rfl

theorem built_pair : pair.Built :=
  ⟨_, .leaf (show Node.ofVariable 1 (.int 3) (.tuple [.int 2, .int 1]) = .ok pair from rfl)⟩

theorem built_flawed : ∀ n ∈ level :: flawed, n.Built := by
  have hleq : (⟨5, .leq, ⟨2, 1⟩, [pair], .loose .none⟩ : Node ℚ).Built :=
    .constraint built_pair (by simp) (show Node.leq 5 pair = .ok _ from rfl)
  have hnested : nested.Built := ⟨_, .neg hleq.choose_spec (show Node.neg 6 _ = .ok nested from rfl)⟩
  simp only [flawed, List.mem_cons, List.not_mem_nil, or_false]
  rintro n (rfl | rfl | rfl)
  · exact built_level
  · exact .constraint hnested (by simp) (show Node.soc 7 nested = .ok _ from rfl)
  · exact .constraint built_pair (by simp) (show Node.exp 4 pair = .ok _ from rfl)

theorem toldApart_flawed : ToldApart (level :: flawed) := by
  have hnodes : (level :: flawed).flatMap Node.nodes = [level, ⟨7, .soc, ⟨2, 1⟩, [nested], .loose .none⟩, nested,
    ⟨5, .leq, ⟨2, 1⟩, [pair], .loose .none⟩, pair, ⟨4, .exp, ⟨2, 1⟩, [pair], .loose .none⟩, pair] := rfl
  rw [ToldApart, hnodes]
  simp [nested, level, pair]

/-- No constraint and no step is in the way of what is stated before the rows of exponential cones are
counted. -/
theorem clear_level : ∀ n : Node ℚ, n.Leads level flawed → ¬n.Obstructed := by
  rintro n (rfl | ⟨k, hk, hcone, _⟩ | ⟨k, hk, hcone, _⟩)
  · have hnodes : level.nodes = [level] := rfl
    rw [Node.Obstructed, Node.HasConstraint, Node.HasWideStep, hnodes]
    simp [level, Kind.isConstraint, Payload.IsWide]
  · simp only [flawed, List.mem_cons, List.not_mem_nil, or_false] at hk
    rcases hk with rfl | rfl <;> cases hcone
  · simp only [flawed, List.mem_cons, List.not_mem_nil, or_false] at hk
    rcases hk with rfl | rfl <;> cases hcone

def strideLayout : Layout ℚ where
  members := ⟨[], [], [], []⟩
  dims := ⟨[0], [0], [], [0]⟩
  offsets := [(5, 0)]
  shapes := [(5, ⟨3, 1⟩)]
  width := 3
  ranges := []

end Sample

theorem assembled_unless_obstructed_flawed :
    Program.assemble .minimize Sample.level Sample.flawedLayout = .error (.expNotTriples 0 ⟨2, 1⟩) := by
  obtain ⟨_, hscalar⟩ := assembled_unless_obstructed .minimize Sample.built_flawed Sample.toldApart_flawed
    Sample.ofProblem_flawed
  obtain ⟨_, hclear⟩ := hscalar rfl
  obtain ⟨htriples, _⟩ := hclear Sample.clear_level
  obtain ⟨before, n, after, hsplit, _, _, he⟩ := htriples
    ⟨Sample.pair, ⟨_, List.mem_cons_of_mem _ List.mem_cons_self, rfl, List.mem_cons_self⟩, by decide⟩
  obtain ⟨rfl, rfl, rfl⟩ : before = [] ∧ n = Sample.pair ∧ after = [] := by
    cases before with
    | nil => simpa [Sample.flawedLayout, eq_comm] using hsplit
    | cons _ _ => simp [Sample.flawedLayout] at hsplit
  exact he

/-- A problem without constraints that is not assembled, although builders make it and it is laid out. -/
theorem assemble_refused : (Node.first (Int.pow 2 70)).Built ∧ ToldApart [Node.first (Int.pow 2 70)] ∧
    Layout.ofProblem (Node.first (Int.pow 2 70)) [] = .ok Sample.strideLayout ∧
    (Node.first (Int.pow 2 70)).shape = Shape.scalar ∧ ¬(Node.first (Int.pow 2 70)).HasConstraint ∧
    Program.assemble .minimize (Node.first (Int.pow 2 70)) Sample.strideLayout = .error .wrongType := by
  have hnodes : (Node.first (Int.pow 2 70)).nodes = [Node.first (Int.pow 2 70), Node.trio] := rfl
  have hmade : Node.index 1 Node.trio (.slice .none .none (.int (Int.pow 2 70))) (.int 0) =
      .ok (Node.first (Int.pow 2 70)) := rfl
  refine ⟨⟨_, Node.first_denotes hmade⟩, ?_, ?_, rfl, ?_, ?_⟩
  · rw [ToldApart, List.flatMap_singleton, hnodes]
    simp [Node.first, Node.trio]
  · have hasc : Variable.Ascending [.ofShape 5 ⟨3, 1⟩] := List.pairwise_singleton _ _
    exact Layout.ofProblem_of_perm rfl rfl rfl rfl rfl (by decide) hasc rfl
  · rw [Node.HasConstraint, hnodes]
    simp [Node.first, Node.trio, Kind.isConstraint]
  · rfl

end ConicForm
