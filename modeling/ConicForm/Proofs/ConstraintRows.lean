import ConicForm.Proofs.Assembly

/-!
# Rows of constraints

The rows that a layout gives to a constraint are the rows in which the assembled program states it, whatever
constraints come before and after it and whatever they share.
-/

namespace ConicForm

section

variable {α : Type} [Field α] [OfDouble α] [BEq α] {objective : Node α} {constraints : List (Node α)}
  {l : Layout α} {sense : Sense} {p : Program α}

/-- What the assembled program leaves at packed values of the variables: in the rows of each constraint the
value of the expression that it wraps, negated where the value is to be zero or not above zero. -/
theorem slack_of_constraint (h : Accepted sense objective constraints l p) (x : Int → Matrix α)
    (hx : ∀ e ∈ l.shapes, (x e.1).shape = e.2) :
    p.A.rows = l.height ∧ p.A.cols = l.width ∧ p.b.dims = [l.height] ∧
      l.ranges.length = constraints.length ∧
      ∃ s, p.slack (l.pack (l.shapes.map fun e => (e.1, x e.1))) = .ok s ∧ s.length = l.height ∧
        ∀ (i : Nat) (hi : i < constraints.length), ∃ (c : Cone) (child : Node α) (first : Nat),
          constraints[i].kind.cone? = some c ∧ constraints[i].children = [child] ∧
          l.ranges[i]? = some ⟨c, first, child.size⟩ ∧ first + child.size ≤ l.height ∧
          (∀ f, child.Denotes f → child.value x = f x) ∧ (child.value x).shape = child.shape ∧
          Axis.slice s first ((first : Int) + child.size) = c.signed (child.value x).vec := by
  obtain ⟨ms, hms⟩ := h.exists_isOf
  obtain ⟨vs, hvs⟩ := h.orders
  have hy := Layout.pack_reads hvs hx
  have hagrees := h.agrees hy
  have hsize : ∀ c, ∀ n ∈ l.members.get c, (c.signed (n.value x).vec).length = n.size := by
    intro c n hn
    obtain ⟨b, hcomp⟩ := hagrees.compiles c n hn
    exact c.length_signed_vec hcomp.shape_eq
  have hheight := Layout.length_entriesBy hms hsize
  obtain ⟨t, hbt, hd, _⟩ := hagrees.leaves.left_eq
  have hbt : p.b = .reals t := hbt
  refine ⟨hagrees.leaves.rows_eq.trans hheight, hagrees.leaves.cols_eq.trans hy.length_eq, ?_,
    hms.length_ranges.trans hms.asks.length_eq.symm, _, Program.slack_eq hagrees.leaves, hheight,
    fun i hi => ?_⟩
  · rw [hbt, ← hheight]
    exact hd
  · obtain ⟨before, m, after, hsplit, rfl, hasks⟩ := hms.exists_split hi
    obtain ⟨first, hrange, hle, hslice⟩ := Layout.slice_entriesBy hms hsize hsplit
    have hmem : m ∈ ms := hsplit ▸ List.mem_append_right before List.mem_cons_self
    obtain ⟨b, hcomp⟩ := hagrees.compiles _ _ (hms.mem_members.mpr hmem)
    exact ⟨m.1, m.2, first, hasks.1, hasks.2, hrange, hle, fun f hf => hf.value_eq hcomp.admits, hcomp.shape_eq,
      hslice⟩

end

/-! A problem with a constraint for each cone -/

namespace Sample

def level : Node ℚ := ⟨0, .variable, ⟨1, 1⟩, [], .loose (.int 7)⟩

def pair : Node ℚ := ⟨1, .variable, ⟨2, 1⟩, [], .loose (.int 3)⟩

/-- The level above the pair. -/
def column : Node ℚ := ⟨2, .vstack, ⟨3, 1⟩, [level, pair], .loose .none⟩

def cost : Node ℚ := ⟨3, .neg, ⟨1, 1⟩, [level], .loose .none⟩

/-- Two of the constraints share their expression, and the cones are out of the order of the rows. -/
def constraints : List (Node ℚ) :=
  [⟨4, .leq, ⟨2, 1⟩, [pair], .loose .none⟩, ⟨5, .soc, ⟨3, 1⟩, [column], .loose .none⟩,
    ⟨6, .exp, ⟨3, 1⟩, [column], .loose .none⟩, ⟨7, .eq, ⟨1, 1⟩, [level], .loose .none⟩]

def layout : Layout ℚ where
  members := ⟨[level], [pair], [column], [column]⟩
  dims := ⟨[1], [2], [3], [3]⟩
  offsets := [(3, 0), (7, 2)]
  shapes := [(3, ⟨2, 1⟩), (7, ⟨1, 1⟩)]
  width := 3
  ranges := [⟨.leq, 1, 2⟩, ⟨.soc, 3, 3⟩, ⟨.exp, 6, 3⟩, ⟨.eq, 0, 1⟩]

/-- The pair and the level, as the layout orders them. -/
def distinct : List Variable := [.ofShape 3 ⟨2, 1⟩, .ofShape 7 ⟨1, 1⟩]

theorem ofProblem_eq : Layout.ofProblem cost constraints = .ok layout := by
  have hasc : Variable.Ascending distinct := by
    rw [Variable.Ascending, distinct]
    decide
  exact Layout.ofProblem_of_perm rfl rfl rfl rfl rfl (by decide) hasc rfl

theorem built_level : level.Built :=
  ⟨_, .leaf (show Node.ofVariable 0 (.int 7) (.tuple [.int 1, .int 1]) = .ok level from rfl)⟩

theorem built : ∀ n ∈ cost :: constraints, n.Built := by
  have hpair : pair.Built :=
    ⟨_, .leaf (show Node.ofVariable 1 (.int 3) (.tuple [.int 2, .int 1]) = .ok pair from rfl)⟩
  have hcolumn : column.Built := by
    have hchildren : ∀ x ∈ [level, pair], x.Built := by
      simp only [List.mem_cons, List.not_mem_nil, or_false]
      rintro x (rfl | rfl)
      · exact built_level
      · exact hpair
    exact .vstack hchildren (show Node.vstack 2 [level, pair] = .ok column from rfl)
  simp only [constraints, List.mem_cons, List.not_mem_nil, or_false]
  rintro n (rfl | rfl | rfl | rfl | rfl)
  · exact ⟨_, .neg built_level.choose_spec (show Node.neg 3 level = .ok cost from rfl)⟩
  · exact .constraint hpair (by simp) (show Node.leq 4 pair = .ok _ from rfl)
  · exact .constraint hcolumn (by simp) (show Node.soc 5 column = .ok _ from rfl)
  · exact .constraint hcolumn (by simp) (show Node.exp 6 column = .ok _ from rfl)
  · exact .constraint built_level (by simp) (show Node.eq 7 level = .ok _ from rfl)

theorem toldApart : ToldApart (cost :: constraints) := by
  have hnodes : (cost :: constraints).flatMap Node.nodes = [cost, level, ⟨4, .leq, ⟨2, 1⟩, [pair], .loose .none⟩,
    pair, ⟨5, .soc, ⟨3, 1⟩, [column], .loose .none⟩, column, level, pair,
    ⟨6, .exp, ⟨3, 1⟩, [column], .loose .none⟩, column, level, pair,
    ⟨7, .eq, ⟨1, 1⟩, [level], .loose .none⟩, level] := rfl
  rw [ToldApart, hnodes]
  simp [cost, column, level, pair]

theorem exists_accepted : ∃ p, Accepted .maximize cost constraints layout p := by
  obtain ⟨p, hp⟩ := exists_of_isOk (show (Program.assemble .maximize cost layout).isOk = true by decide +kernel)
  exact ⟨p, built, toldApart, ofProblem_eq, hp⟩

/-- A pair of two and three, and a level of five. -/
def values (id : Int) : Matrix ℚ := if id = 3 then Matrix.ofVec 2 1 [2, 3] else Matrix.ofVec 1 1 [5]

theorem values_shape : ∀ e ∈ layout.shapes, (values e.1).shape = e.2 := by
  simp only [layout, List.mem_cons, List.not_mem_nil, or_false]
  rintro e (rfl | rfl)
  · rfl
  · rfl

end Sample

theorem slack_of_constraint_sample : ∃ p s, Program.assemble .maximize Sample.cost Sample.layout = .ok p ∧
    p.slack (Sample.layout.pack (Sample.layout.shapes.map fun e => (e.1, Sample.values e.1))) = .ok s ∧
    Axis.slice s 1 3 = [-2, -3] ∧ Axis.slice s 6 9 = [5, 2, 3] := by
  obtain ⟨p, h⟩ := Sample.exists_accepted
  obtain ⟨_, _, _, _, s, hs, _, hrows⟩ := slack_of_constraint h Sample.values Sample.values_shape
  obtain ⟨c, x, first, hc, hx, hr, _, _, _, hslice⟩ := hrows 0 (by decide)
  obtain ⟨c', x', first', hc', hx', hr', _, _, _, hslice'⟩ := hrows 2 (by decide)
  obtain rfl : Cone.leq = c := Option.some.inj hc
  obtain rfl : Sample.pair = x := (List.cons.inj hx).1
  obtain rfl : Cone.exp = c' := Option.some.inj hc'
  obtain rfl : Sample.column = x' := (List.cons.inj hx').1
  obtain rfl : 1 = first := Int.ofNat.inj (congrArg RowRange.first (Option.some.inj hr))
  obtain rfl : 6 = first' := Int.ofNat.inj (congrArg RowRange.first (Option.some.inj hr'))
  exact ⟨p, s, h.assembled, hs, hslice.trans rfl, hslice'.trans rfl⟩

end ConicForm
