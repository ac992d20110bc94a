import ConicForm.Proofs.PlainAssembly
import ConicForm.Proofs.Slack
import ConicForm.Proofs.Values

/-!
# Values of programs

At a point that reads as values of the variables, the rows of a program leave the values of the members of
the cones, with the signs of the cones and in the order of the layout, and the objective of the program is the
value of the objective, with the sign of the sense.
-/

namespace ConicForm

variable {α : Type}

namespace Block

variable [Field α] [OfDouble α] {width : Int → Nat} {b : Block α}

theorem eval_congr {x y : Int → Nat → α} (h : ∀ id ∈ ids b.coeffs, ∀ j < width id, x id j = y id j) (i : Nat) :
    b.eval width x i = b.eval width y i := by
  rw [eval, eval]
  congr 1
  apply Finset.sum_congr rfl
  intro id hid
  apply Finset.sum_congr rfl
  intro j hj
  rw [h id (List.mem_toFinset.mp hid) j (Finset.mem_range.mp hj)]

end Block

/-! Rows of expressions -/

section rows

variable [Field α] [OfDouble α] [BEq α] {l : Layout α} {objective : Node α} {constraints ns : List (Node α)}
  {ms : List (Cone × Node α)} {y : List α} {v : Int → Matrix α} {r : Program.Rows α}

/-- `b` is the block of a node that has a value, and gives it at a point, whose variables are read from the
columns of a layout. -/
structure Node.Compiles (l : Layout α) (y : List α) (v : Int → Matrix α) (n : Node α) (b : Block α) : Prop where
  block_eq : n.block = .ok b
  admits : n.Admits v
  shape_eq : (n.value v).shape = n.shape
  eval_eq : ∀ k, b.eval (fun id => (l.shapeOf id).size) (fun id j => y.getD (l.startOf id + j) 0) k =
    (n.value v).flat k

namespace Node.IsPart

variable {n : Node α} {b : Block α}

theorem fits (h : IsPart objective constraints n) (hl : l.IsOf objective constraints ms) (hy : l.Reads y v) :
    n.Fits v := by
  intro id s hs
  obtain ⟨start, hh⟩ := h.holds hl hs
  exact hy.shape_eq hh

theorem compiles (h : IsPart objective constraints n) (hl : l.IsOf objective constraints ms) (hy : l.Reads y v)
    (hb : n.block = .ok b) : n.Compiles l y v b := by
  obtain ⟨f, hf⟩ := h.1
  obtain ⟨vs, hvs⟩ := hl.orders
  have hfits := h.fits hl hy
  obtain ⟨hsized, he, hw⟩ := h.1.sized hb (h.leaf_eq hl)
  have hc := hf.formed.compiled_of_block hb (h.leaf_eq hl)
  have hadmits : n.Admits v := ⟨he, hw, hfits⟩
  have hvalue := hf.value_eq hadmits
  refine ⟨hb, hadmits, ?_, fun k => ?_⟩
  · rw [hvalue]
    exact hc.shape_eq v hfits
  · rw [hvalue, ← hc.flat_eq v hfits k]
    apply Block.eval_congr
    intro id hid j hj
    obtain ⟨s, hs⟩ := (hsized.mem_ids id).mp hid
    obtain ⟨first, hh⟩ := h.holds hl hs
    rw [hvs.shapeOf_eq hh] at hj
    rw [hvs.startOf_eq hh]
    exact hy.getD_eq hh j hj

end Node.IsPart

omit [BEq α] in
theorem Node.Compiles.length_vec {n : Node α} {b : Block α} (h : n.Compiles l y v b) :
    ((n.value v).vec).length = n.size := by
  rw [Matrix.length_vec, h.shape_eq]
  rfl

/-- The rows of some expressions give their values at a point, one after the other. -/
theorem Program.plainRows_gives (hl : l.IsOf objective constraints ms) (hy : l.Reads y v)
    (hn : ∀ n ∈ ns, Node.IsPart objective constraints n) (h : plainRows l ns = .ok r) :
    (∀ n ∈ ns, ∃ b, n.Compiles l y v b) ∧ r.Gives y (ns.flatMap fun n => (n.value v).vec) := by
  obtain ⟨block, hblock, hstack⟩ := plainRows_eq_ok h
  obtain ⟨hrows, hcols, t, ht, hd⟩ := plainRows_hasSize hl hn h
  obtain ⟨hregular, hrange⟩ := blocks_regular hl hn hblock
  have hcompiles : ∀ n ∈ ns, n.Compiles l y v (block n) := fun n h => (hn n h).compiles hl hy (hblock n h)
  have hlen : ∀ n ∈ ns, ((n.value v).vec).length = n.size := fun n h => (hcompiles n h).length_vec
  rw [← length_flatMap_eq hlen] at hrows hd
  refine ⟨fun n h => ⟨_, hcompiles n h⟩, hrows, hcols.trans hy.length_eq.symm, t, ht, hd, fun i => ?_⟩
  rw [ht] at hstack
  rw [Block.stack_eval hregular hrange hstack i y, List.map_map,
    ← joined_eq_getD hlen (u := fun n => (n.value v).flat) fun _ _ _ _ => rfl]
  congr 1
  apply List.map_congr_left
  intro n h
  exact Prod.ext ((hn n h).sized hl (hblock n h)).regular.size_eq (funext (hcompiles n h).eval_eq)

/-! Programs -/

omit [OfDouble α] [BEq α] in
theorem Matrix.vec_of_scalar {m : Matrix α} (h : m.shape = Shape.scalar) : m.vec = [m.get 0 0] := by
  have hr : m.rows = 1 := congrArg Shape.rows h
  have hc : m.cols = 1 := congrArg Shape.cols h
  rw [vec, hr, hc]
  rfl

namespace Program

/-- The row of a scalar objective gives its value. -/
theorem cost_gives (hl : l.IsOf objective constraints ms) (hb : ∀ n ∈ objective :: constraints, n.Built)
    (hy : l.Reads y v) (hs : objective.shape = Shape.scalar) (h : plainRows l [objective] = .ok r) :
    (∃ b, objective.Compiles l y v b) ∧ r.Gives y [(objective.value v).get 0 0] := by
  obtain ⟨hcompiles, hgives⟩ := plainRows_gives hl hy (List.forall_mem_singleton.mpr (Node.isPart_objective hb)) h
  obtain ⟨b, hcomp⟩ := hcompiles objective List.mem_cons_self
  rw [List.flatMap_singleton, Matrix.vec_of_scalar (hcomp.shape_eq.trans hs)] at hgives
  exact ⟨⟨b, hcomp⟩, hgives⟩

omit [OfDouble α] [BEq α] in
theorem Rows.Gives.hasSize {values : List α} (h : r.Gives y values) : r.HasSize values.length y.length := by
  obtain ⟨t, hg, hd, _⟩ := h.value_eq
  exact ⟨h.rows_eq, h.cols_eq, t, hg, hd⟩

omit [BEq α] in
/-- The direction that a row with one value states, and its constant. -/
theorem direction_gives {sense : Sense} {x : α} {c : List α} {d : Numbers α} (hr : r.Gives y [x])
    (h : direction sense (r.G.row 0) (r.g.row 0) = .ok (c, d)) :
    c.length = y.length ∧ ∃ k, d.toScalar = .ok k ∧ Matrix.dot c y + k = sense.signed x := by
  obtain ⟨rfl, rfl⟩ := Prod.mk.inj (Except.ok.inj ((direction_row sense hr.hasSize).symm.trans h))
  obtain ⟨t, hg, _, hv⟩ := hr.value_eq
  have hx : Matrix.dot (r.G.row 0) y + r.g.toReals.asRows.get 0 0 = x := by
    rw [hg]
    exact hv 0
  refine ⟨?_, _, rfl, ?_⟩
  · rw [List.length_map]
    exact (Matrix.length_row _ _).trans hr.cols_eq
  · rw [← hx]
    cases sense with
    | minimize =>
      rw [show (r.G.row 0).map (Sense.signed .minimize) = r.G.row 0 from List.map_id _]
      rfl
    | maximize =>
      have hneg : Matrix.dot ((r.G.row 0).map Neg.neg) y = -Matrix.dot (r.G.row 0) y := by
        rw [dot_eq_sum, dot_eq_sum, List.length_map, ← Finset.sum_neg_distrib]
        apply Finset.sum_congr rfl
        intro k _
        rw [getD_map_neg, neg_mul]
      exact (congrArg (· + -_) hneg).trans (neg_add _ _).symm

/-- What a program states at a point that reads as `v`. -/
structure Agrees (p : Program α) (sense : Sense) (objective : Node α) (l : Layout α) (y : List α)
    (v : Int → Matrix α) : Prop where
  length_c : p.c.length = y.length
  cost_eq : ∃ d, p.d.toScalar = .ok d ∧ Matrix.dot p.c y + d = sense.signed ((objective.value v).get 0 0)
  leaves : Part.Leaves ⟨p.A, p.b⟩ y (l.entriesBy fun c n => c.signed (n.value v).vec)
  dims_eq : p.dims = l.coneDims
  maximize_eq : p.maximize = decide (sense = .maximize)
  triples : ∀ n ∈ l.members.exp, n.shape.rows = 3
  compiles : ∀ c, ∀ n ∈ l.members.get c, ∃ b, n.Compiles l y v b
  scalar : objective.shape = Shape.scalar
  objective_compiles : ∃ b, objective.Compiles l y v b

omit [BEq α] in
theorem Agrees.shape_eq {p : Program α} {sense : Sense} (h : p.Agrees sense objective l y v) {c : Cone} {n : Node α}
    (hn : n ∈ l.members.get c) : (n.value v).shape = n.shape := by
  obtain ⟨b, hcomp⟩ := h.compiles c n hn
  exact hcomp.shape_eq

/-- The value of what a constraint wraps is the one that it denotes. -/
theorem Agrees.value_eq {p : Program α} {sense : Sense} (h : p.Agrees sense objective l y v)
    (hl : l.IsOf objective constraints ms) {n child : Node α} (hn : n ∈ constraints) (hchild : child ∈ n.children)
    {f : (Int → Matrix α) → Matrix α} (hf : child.Denotes f) : child.value v = f v := by
  obtain ⟨m, hm, hasks⟩ := exists_right_of_forall₂ hl.asks hn
  obtain rfl : child = m.2 := List.mem_singleton.mp (hasks.2 ▸ hchild)
  obtain ⟨b, hcomp⟩ := h.compiles _ _ (hl.mem_members.mpr hm)
  exact hf.value_eq hcomp.admits

omit [OfDouble α] [BEq α] in
/-- Rows that give certain values leave these with the sign of the cone as they stand in a program. -/
theorem Rows.Gives.leaves {values : List α} {b : Numbers α} (h : r.Gives y values) {c : Cone}
    (hb : c.rightSide r.g = .ok b) : Part.Leaves ⟨c.leftSide r.G, b⟩ y (c.signed values) := by
  have hnegated : r.g.negated = .ok b → Part.Leaves ⟨r.G, b⟩ y (values.map Neg.neg) := by
    intro hb
    obtain ⟨_, he, hleaves⟩ := h.negated
    obtain rfl := Except.ok.inj (hb.symm.trans he)
    exact hleaves
  cases c with
  | eq => exact hnegated hb
  | leq => exact hnegated hb
  | soc => exact Except.ok.inj hb ▸ h.reversed
  | exp => exact Except.ok.inj hb ▸ h.reversed

end Program

/-- An accepted problem is stated by its program at every point. -/
theorem Accepted.agrees {sense : Sense} {p : Program α} (h : Accepted sense objective constraints l p)
    (hy : l.Reads y v) : p.Agrees sense objective l y v := by
  obtain ⟨ms, hl⟩ := h.exists_isOf
  obtain ⟨cost, rows, hp⟩ := h.exists_madeOf
  obtain ⟨hcompiles, hgives⟩ := Program.cost_gives hl h.built hy hp.scalar hp.cost_eq
  have hmembers : ∀ c, (∀ n ∈ l.members.get c, ∃ b, n.Compiles l y v b) ∧
      (rows.get c).Gives y ((l.members.get c).flatMap fun n => (n.value v).vec) :=
    fun c => Program.plainRows_gives hl hy (fun n => hl.isPart h.built) (hp.rows_eq c)
  obtain ⟨bounds, hbounds, hjoin⟩ := hp.right_eq
  obtain ⟨hlen, hd⟩ := Program.direction_gives hgives hp.direction_eq
  let parts : List (Program.Part α × List α) := Cone.all.map fun c =>
    (⟨c.leftSide (rows.get c).G, bounds.get c⟩, c.signed ((l.members.get c).flatMap fun n => (n.value v).vec))
  have hparts : ∀ e ∈ parts, e.1.Leaves y e.2 := by
    intro e he
    obtain ⟨c, _, rfl⟩ := List.mem_map.mp he
    exact (hmembers c).2.leaves (hbounds c)
  have hne : parts ≠ [] := List.cons_ne_nil _ _
  obtain ⟨b, hjoin', hleaves⟩ := Program.Part.leaves_stack hne hparts
  obtain rfl : b = p.b := Except.ok.inj (hjoin'.symm.trans hjoin)
  have hentries : parts.flatMap Prod.snd = l.entriesBy fun c n => c.signed (n.value v).vec := by
    rw [Layout.entriesBy, List.flatMap_map]
    apply List.flatMap_congr
    intro c _
    cases c with
    | eq => exact List.map_flatMap
    | leq => exact List.map_flatMap
    | soc => rfl
    | exp => rfl
  have hA : p.A = Matrix.stack y.length (parts.map fun e => e.1.A) := hy.length_eq ▸ hp.left_eq
  rw [hentries, ← hA] at hleaves
  exact ⟨hlen, hd, hleaves, hp.dims_eq, hp.maximize_eq, hp.triples, fun c => (hmembers c).1, hp.scalar, hcompiles⟩

end rows

end ConicForm
