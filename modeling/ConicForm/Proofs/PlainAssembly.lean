import ConicForm.Program
import ConicForm.Proofs.FirstRefusals
import ConicForm.Proofs.Regularity
import ConicForm.Proofs.RowLayout
import ConicForm.Proofs.Sharing
import ConicForm.Proofs.Stacking

/-!
# Assembly without a cache

A program is assembled as if each of its expressions were compiled on its own: of a direction to minimize, which
comes from the objective alone, and of rows, which come from the members of the cones alone. Whatever the
arithmetic of the scalars is, rows are refused only with an expression that they are made of, and otherwise are
as many as its entries, over the columns of the layout. A problem that gets a layout and a program is kept together
with both as an accepted one.
-/

namespace ConicForm

variable {α : Type}

/-! Parts of problems -/

section parts

variable {l : Layout α} {objective n : Node α} {constraints : List (Node α)} {ms : List (Cone × Node α)}

theorem Node.Asks.isConstraint {m : Cone × Node α} (h : n.Asks m) : n.kind.isConstraint := by
  have hk := h.1
  cases hn : n.kind <;> simp [hn, Kind.cone?] at hk <;> rfl

theorem Layout.IsOf.exists_asks (hl : l.IsOf objective constraints ms) {c : Cone} (hn : n ∈ l.members.get c) :
    ∃ k ∈ constraints, k.Asks (c, n) :=
  exists_left_of_forall₂ hl.asks (hl.mem_members.mp hn)

/-- The member that a constraint asks for, by the place of the constraint. -/
theorem Layout.IsOf.exists_split (hl : l.IsOf objective constraints ms) {i : Nat} (hi : i < constraints.length) :
    ∃ before m after, ms = before ++ m :: after ∧ before.length = i ∧ constraints[i].Asks m := by
  have him : i < ms.length := hl.asks.length_eq ▸ hi
  refine ⟨ms.take i, ms[i], ms.drop (i + 1), ?_, ?_, hl.asks.get hi him⟩
  · rw [List.cons_getElem_drop_succ, List.take_append_drop]
  · rw [List.length_take, Nat.min_eq_left (Nat.le_of_lt him)]

theorem Layout.IsOf.mem_flatMap_nodes (hl : l.IsOf objective constraints ms) {c : Cone} (hn : n ∈ l.members.get c) :
    n ∈ (objective :: constraints).flatMap Node.nodes := by
  obtain ⟨k, hk, ha⟩ := hl.exists_asks hn
  exact Node.mem_flatMap_nodes_of_child (ha.2 ▸ List.mem_cons_self)
    (Node.mem_flatMap_nodes (List.mem_cons_of_mem objective hk))

variable [Zero α] [Add α] [Neg α] [Mul α] [Div α] [OfDouble α] [BEq α]

/-- What a built constraint wraps is built, and has its shape. -/
theorem Node.Asks.built {m : Cone × Node α} (h : n.Asks m) (hb : n.Built) : m.2.Built ∧ m.2.shape = n.shape := by
  have hc := h.isConstraint
  rcases hb.cases with hv | he | ⟨_, x, hx, hxb, hs⟩
  · rw [hv.1] at hc
    cases hc
  · have he := he.2.1
    simp [Kind.isExpression, hc] at he
  · obtain rfl : x = m.2 := List.cons.inj (hx.symm.trans h.2) |>.1
    exact ⟨hxb, hs⟩

/-- The nodes that a problem's rows are made of: built ones among those under its roots. -/
def Node.IsPart (objective : Node α) (constraints : List (Node α)) (n : Node α) : Prop :=
  n.Built ∧ n ∈ (objective :: constraints).flatMap Node.nodes

theorem Node.isPart_objective (hb : ∀ n ∈ objective :: constraints, n.Built) :
    IsPart objective constraints objective :=
  ⟨hb objective List.mem_cons_self, mem_flatMap_nodes List.mem_cons_self⟩

theorem Layout.IsOf.isPart (hl : l.IsOf objective constraints ms)
    (hb : ∀ n ∈ objective :: constraints, n.Built) {c : Cone} (hn : n ∈ l.members.get c) :
    Node.IsPart objective constraints n := by
  obtain ⟨k, hk, ha⟩ := hl.exists_asks hn
  exact ⟨(ha.built (hb k (List.mem_cons_of_mem objective hk))).1, hl.mem_flatMap_nodes hn⟩

namespace Node.IsPart

theorem holds (h : IsPart objective constraints n) (hl : l.IsOf objective constraints ms) {id : Int} {s : Shape}
    (hs : n.Leaf id s) : ∃ start, l.Holds id start s := by
  obtain ⟨m, hm, hn⟩ := List.mem_flatMap.mp h.2
  obtain ⟨k, hk, hs⟩ := hs
  exact hl.holds m hm id s ⟨k, nodes_trans hk hn, hs⟩

theorem leaf_eq (h : IsPart objective constraints n) (hl : l.IsOf objective constraints ms) (id : Int) (s : Shape)
    (hs : n.Leaf id s) : s = l.shapeOf id := by
  obtain ⟨vs, hvs⟩ := hl.orders
  obtain ⟨start, hh⟩ := h.holds hl hs
  exact (hvs.shapeOf_eq hh).symm

variable [One α] {b : Block α}

theorem sized (h : IsPart objective constraints n) (hl : l.IsOf objective constraints ms) (hb : n.block = .ok b) :
    n.Sized l.shapeOf b := (h.1.sized hb (h.leaf_eq hl)).1

/-- The variables of an expression have their columns. -/
theorem hasRange (h : IsPart objective constraints n) (hl : l.IsOf objective constraints ms)
    (hb : n.block = .ok b) : ∀ id ∈ ids b.coeffs,
      Block.HasRange l.offsetOf l.width (fun id => (l.shapeOf id).size) l.startOf id := by
  intro id hid
  obtain ⟨vs, hvs⟩ := hl.orders
  obtain ⟨s, hs⟩ := ((h.sized hl hb).mem_ids id).mp hid
  obtain ⟨first, hh⟩ := h.holds hl hs
  have hwidth := hvs.le_width hh
  rw [← hvs.startOf_eq hh, ← hvs.shapeOf_eq hh] at hwidth
  refine ⟨?_, hwidth⟩
  rw [hvs.startOf_eq hh]
  exact hvs.get?_offsets hh

end Node.IsPart

end parts

/-! Rows -/

/-- Whether an array is a column of reals of a certain height. -/
def Numbers.IsColumn (a : Numbers α) (rows : Nat) : Prop := ∃ t, a = .reals t ∧ t.dims = [rows]

namespace Numbers.IsColumn

variable {a : Numbers α} {rows : Nat}

theorem negated [Neg α] (h : a.IsColumn rows) : ∃ b, a.negated = .ok b ∧ b.IsColumn rows := by
  obtain ⟨t, rfl, hd⟩ := h
  exact ⟨_, rfl, t.map Neg.neg, rfl, hd⟩

end Numbers.IsColumn

theorem Tensor.map_scalar {β : Type} (f : α → β) (x : α) : (scalar x).map f = scalar (f x) := by
  simp [map, scalar]

/-- A column of height one holds a single entry. -/
theorem Tensor.row_of_column [Zero α] {t : Tensor α} (h : t.dims = [1]) : t.row 0 = .scalar (t.asRows.get 0 0) := by
  have htail : t.dims.tail = [] := by rw [h]; rfl
  have hget : t.get [0] = t.asRows.get 0 0 := by
    change t.entries.getD (Tensor.place t.dims [0]) 0 = _
    simp [Matrix.get, Tensor.asRows, h, Tensor.place]
  rw [Tensor.row, htail, ← hget]
  rfl

/-- The sign that a sense gives to an objective that is to be minimized. -/
def Sense.signed [Neg α] (sense : Sense) (x : α) : α :=
  match sense with
  | .minimize => x
  | .maximize => -x

/-- The rows of a cone as they stand in a program. -/
def Cone.leftSide [Zero α] [Neg α] (c : Cone) (G : Matrix α) : Matrix α :=
  match c with
  | .eq => G
  | .leq => G
  | .soc => G.map Neg.neg
  | .exp => G.map Neg.neg

/-- The offsets of a cone's rows as they stand in a program. -/
def Cone.rightSide [Neg α] (c : Cone) (g : Numbers α) : Result (Numbers α) :=
  match c with
  | .eq => g.negated
  | .leq => g.negated
  | .soc => .ok g
  | .exp => .ok g

theorem Cone.leftSide_size [Zero α] [Neg α] (c : Cone) (G : Matrix α) :
    (c.leftSide G).rows = G.rows ∧ (c.leftSide G).cols = G.cols := by
  cases c <;> exact ⟨rfl, rfl⟩

theorem Numbers.IsColumn.rightSide [Neg α] {a : Numbers α} {rows : Nat} (h : a.IsColumn rows) (c : Cone) :
    ∃ b, c.rightSide a = .ok b ∧ b.IsColumn rows := by
  cases c with
  | eq => exact h.negated
  | leq => exact h.negated
  | soc => exact ⟨a, rfl, h⟩
  | exp => exact ⟨a, rfl, h⟩

namespace Program

/-- Rows as many as stated, over as many columns as stated. -/
structure Rows.HasSize (r : Rows α) (rows width : Nat) : Prop where
  rows_eq : r.G.rows = rows
  cols_eq : r.G.cols = width
  column : r.g.IsColumn rows

variable [Zero α] [One α] [Add α] [Neg α] [Mul α] [Div α] [OfDouble α]

/-- The rows of expressions, each compiled on its own. -/
def plainRows (l : Layout α) (ns : List (Node α)) : Result (Rows α) := do
  let (G, g) ← Block.stack l.offsetOf l.width (← ns.mapM Node.block)
  return ⟨G, g⟩

/-- The direction that a problem asks to minimize, and its constant. -/
def costOf (sense : Sense) (objective : Node α) (l : Layout α) : Result (List α × Numbers α) := do
  if objective.shape ≠ Shape.scalar then throw (.objectiveNotScalar objective.shape)
  let cost ← plainRows l [objective]
  if cost.G.rows = 0 then throw .missingPosition
  direction sense (cost.G.row 0) (cost.g.row 0)

/-- The rows of all cones and their right sides. -/
def rowsOfCones (l : Layout α) : Result (Matrix α × Numbers α) := do
  let eq ← plainRows l l.members.eq
  let eqBounds ← eq.g.negated
  let leq ← plainRows l l.members.leq
  let leqBounds ← leq.g.negated
  requireTriples 0 l.members.exp
  let soc ← plainRows l l.members.soc
  let exp ← plainRows l l.members.exp
  let b ← Numbers.joinRows [eqBounds, leqBounds, soc.g, exp.g]
  return (Matrix.stack l.width [eq.G, leq.G, soc.G.map Neg.neg, exp.G.map Neg.neg], b)

def assemblePlainly (sense : Sense) (objective : Node α) (l : Layout α) : Result (Program α) := do
  let (c, d) ← costOf sense objective l
  let (A, b) ← rowsOfCones l
  return ⟨c, d, A, b, l.coneDims, sense = .maximize⟩

variable {l : Layout α} {objective n : Node α} {constraints ns : List (Node α)} {ms : List (Cone × Node α)}
  {sense : Sense} {cache : Cache α} {r : Rows α} {e : Failure}

/-- With a sound cache rows are what they are without one. -/
theorem rowsOf_eq {roots : List (Node α)} (ht : ToldApart roots) (hn : ∀ n ∈ ns, n ∈ roots.flatMap Node.nodes)
    (hc : cache.Sound roots) : ∃ cache' : Cache α, cache'.Sound roots ∧
      rowsOf l ns cache = (plainRows l ns).map fun r => (r, cache') := by
  obtain ⟨hblocks, hsound⟩ := Node.buildAll_eq (fun n h => Node.buildsSound ht (hn n h)) hc
  rw [Node.blocks_eq] at hblocks
  refine ⟨_, hsound, ?_⟩
  unfold rowsOf plainRows
  rcases hall : Node.buildAll ns cache with ⟨e | bs, cache'⟩
  · rw [hall] at hblocks
    rw [← hblocks]
    rfl
  · rw [hall] at hblocks
    rw [← hblocks]
    change (Block.stack l.offsetOf l.width bs >>= fun r => Except.ok ((⟨r.1, r.2⟩ : Rows α), cache')) =
      (Block.stack l.offsetOf l.width bs >>= fun r => Except.ok (⟨r.1, r.2⟩ : Rows α)).map _
    cases Block.stack l.offsetOf l.width bs with
    | error e => rfl
    | ok r => rfl

theorem bind_map_congr {ε β γ δ : Type} {x : Except ε β} {y : γ} {f : β × γ → Except ε δ} {g : β → Except ε δ}
    (h : ∀ b, f (b, y) = g b) : (x.map fun b => (b, y)) >>= f = x >>= g := by
  cases x with
  | error e => rfl
  | ok b => exact h b

/-- A program whose expressions are nodes under some roots is assembled as if there were no cache. -/
theorem assemble_eq_plainly {roots : List (Node α)} (ht : ToldApart roots)
    (hobjective : objective ∈ roots.flatMap Node.nodes)
    (hmember : ∀ c, ∀ n ∈ l.members.get c, n ∈ roots.flatMap Node.nodes) :
    assemble sense objective l = assemblePlainly sense objective l := by
  obtain ⟨c₁, hc₁, h₁⟩ := rowsOf_eq (l := l) ht (List.forall_mem_singleton.mpr hobjective) .nil
  obtain ⟨c₂, hc₂, h₂⟩ := rowsOf_eq (l := l) ht (hmember .eq) hc₁
  obtain ⟨c₃, hc₃, h₃⟩ := rowsOf_eq (l := l) ht (hmember .leq) hc₂
  obtain ⟨c₄, hc₄, h₄⟩ := rowsOf_eq (l := l) ht (hmember .soc) hc₃
  obtain ⟨c₅, hc₅, h₅⟩ := rowsOf_eq (l := l) ht (hmember .exp) hc₄
  simp only [ByCone.get] at h₂ h₃ h₄ h₅
  rw [assemble, assemblePlainly, costOf, rowsOfCones]
  by_cases hs : objective.shape ≠ Shape.scalar
  · rw [if_pos hs, if_pos hs]
    rfl
  rw [if_neg hs, if_neg hs, h₁]
  simp only [bind_assoc, pure_bind]
  refine bind_map_congr fun cost => ?_
  split
  · rfl
  refine bind_congr fun d => ?_
  rw [h₂]
  refine bind_map_congr fun eq => bind_congr fun eqBounds => ?_
  rw [h₃]
  refine bind_map_congr fun leq => bind_congr fun leqBounds => bind_congr fun _ => ?_
  rw [h₄]
  refine bind_map_congr fun soc => ?_
  rw [h₅]
  exact bind_map_congr fun exp => rfl

theorem assemble_eq (ht : ToldApart (objective :: constraints)) (hl : l.IsOf objective constraints ms) :
    assemble sense objective l = assemblePlainly sense objective l := by
  exact assemble_eq_plainly ht (Node.mem_flatMap_nodes List.mem_cons_self) fun _ _ hn => hl.mem_flatMap_nodes hn

/-! Sizes -/

/-- Rows are made of the blocks of their expressions. -/
theorem plainRows_eq_ok (h : plainRows l ns = .ok r) : ∃ block : Node α → Block α,
    (∀ n ∈ ns, n.block = .ok (block n)) ∧
      Block.stack l.offsetOf l.width (ns.map block) = .ok (r.G, r.g) := by
  obtain ⟨bs, hbs, h⟩ := bind_eq_ok.mp h
  obtain ⟨⟨G, g⟩, hstack, h⟩ := bind_eq_ok.mp h
  obtain rfl := Except.ok.inj h
  have hblocks : ∀ n ∈ ns, ∃ b, n.block = .ok b := by
    intro n hn
    obtain ⟨b, _, hb⟩ := exists_of_mapM_eq_ok hbs hn
    exact ⟨b, hb⟩
  choose! block hblock using hblocks
  obtain rfl := Except.ok.inj (hbs.symm.trans (mapM_eq_ok_map hblock))
  exact ⟨block, hblock, hstack⟩

variable [BEq α]

/-- The blocks of parts of a problem can be spread over the columns of its layout. -/
theorem blocks_regular (hl : l.IsOf objective constraints ms)
    (hn : ∀ n ∈ ns, Node.IsPart objective constraints n) {block : Node α → Block α}
    (hblock : ∀ n ∈ ns, n.block = .ok (block n)) :
    (∀ b ∈ ns.map block, b.Regular b.size fun id => (l.shapeOf id).size) ∧
      ∀ b ∈ ns.map block, ∀ id ∈ ids b.coeffs,
        Block.HasRange l.offsetOf l.width (fun id => (l.shapeOf id).size) l.startOf id := by
  have hregular : ∀ n ∈ ns, (block n).Regular n.size fun id => (l.shapeOf id).size :=
    fun n h => ((hn n h).sized hl (hblock n h)).regular
  constructor
  · intro b hb
    obtain ⟨n, h, rfl⟩ := List.mem_map.mp hb
    rw [(hregular n h).size_eq]
    exact hregular n h
  · intro b hb
    obtain ⟨n, h, rfl⟩ := List.mem_map.mp hb
    exact (hn n h).hasRange hl (hblock n h)

/-- Rows of expressions that have blocks are as many as the entries of these. -/
theorem exists_plainRows (hl : l.IsOf objective constraints ms)
    (hn : ∀ n ∈ ns, Node.IsPart objective constraints n) (hb : ∀ n ∈ ns, ∃ b, n.block = .ok b) :
    ∃ r, plainRows l ns = .ok r ∧ r.HasSize (total (ns.map Node.size)) l.width := by
  choose! block hblock using hb
  obtain ⟨hregular, hrange⟩ := blocks_regular hl hn hblock
  obtain ⟨part, t, hstack, hpart, hd, _⟩ := Block.exists_regular_stack hregular hrange
  have hrows : (Matrix.stack l.width ((ns.map block).map part)).rows = total ((ns.map block).map Block.size) :=
    Matrix.rows_stack_map fun b hb => (hpart b hb).2.1
  have htotal : total ((ns.map block).map Block.size) = total (ns.map Node.size) := by
    rw [List.map_map]
    exact congrArg total (List.map_congr_left fun n h => ((hn n h).sized hl (hblock n h)).regular.size_eq)
  refine ⟨⟨_, .reals t⟩, ?_, hrows.trans htotal, Matrix.cols_stack _ _, t, rfl, hd.trans (by rw [htotal])⟩
  rw [plainRows, mapM_eq_ok_map hblock]
  change Block.stack _ _ _ >>= _ = _
  rw [hstack]
  rfl

theorem plainRows_hasSize (hl : l.IsOf objective constraints ms)
    (hn : ∀ n ∈ ns, Node.IsPart objective constraints n) (h : plainRows l ns = .ok r) :
    r.HasSize (total (ns.map Node.size)) l.width := by
  obtain ⟨block, hblock, _⟩ := plainRows_eq_ok h
  obtain ⟨r', hr, hsize⟩ := exists_plainRows hl hn fun n hn => ⟨_, hblock n hn⟩
  obtain rfl := Except.ok.inj (hr.symm.trans h)
  exact hsize

/-- Rows are refused with one of the expressions that they are made of. -/
theorem plainRows_eq_error (hl : l.IsOf objective constraints ms)
    (hn : ∀ n ∈ ns, Node.IsPart objective constraints n) (h : plainRows l ns = .error e) :
    ∃ n ∈ ns, n.block = .error e := by
  cases hblocks : ns.mapM Node.block with
  | error d =>
    rw [plainRows, hblocks] at h
    obtain rfl : d = e := Except.error.inj h
    exact exists_of_mapM_eq_error hblocks
  | ok bs =>
    have hb : ∀ n ∈ ns, ∃ b, n.block = .ok b := by
      intro n hmem
      obtain ⟨b, _, hb⟩ := exists_of_mapM_eq_ok hblocks hmem
      exact ⟨b, hb⟩
    obtain ⟨r, hr, _⟩ := exists_plainRows hl hn hb
    cases hr.symm.trans h

omit [One α] [Add α] [Mul α] [Div α] [BEq α] in
/-- One row states a direction and a constant, with the sign of the sense. -/
theorem direction_row (sense : Sense) {width : Nat} (hr : r.HasSize 1 width) :
    direction sense (r.G.row 0) (r.g.row 0) =
      .ok ((r.G.row 0).map sense.signed, .reals (.scalar (sense.signed (r.g.toReals.asRows.get 0 0)))) := by
  obtain ⟨t, hg, hd⟩ := hr.column
  have hrow : r.g.row 0 = .reals (.scalar (r.g.toReals.asRows.get 0 0)) := by
    rw [hg]
    exact congrArg Numbers.reals (Tensor.row_of_column hd)
  rw [hrow]
  cases sense with
  | minimize =>
    rw [show (r.G.row 0).map (Sense.signed .minimize) = r.G.row 0 from List.map_id _]
    rfl
  | maximize => exact congrArg (fun t => Except.ok (_, Numbers.reals t)) (Tensor.map_scalar Neg.neg _)

omit [BEq α] in
theorem costOf_eq {width : Nat} (hs : objective.shape = Shape.scalar) (h : plainRows l [objective] = .ok r)
    (hr : r.HasSize 1 width) : costOf sense objective l =
      .ok ((r.G.row 0).map sense.signed, .reals (.scalar (sense.signed (r.g.toReals.asRows.get 0 0)))) := by
  rw [costOf, if_neg (not_not.mpr hs), h]
  change (if r.G.rows = 0 then _ else _) = _
  rw [if_neg (by rw [hr.rows_eq]; exact Nat.one_ne_zero)]
  exact direction_row sense hr

omit [Zero α] [One α] [Add α] [Neg α] [Mul α] [Div α] [OfDouble α] [BEq α] in
/-- Members of exponential cones need three rows, and the first one without them is refused. -/
theorem passes_requireTriples : Passes requireTriples (fun n : Node α => n.shape.rows = 3)
    fun member n => .expNotTriples member n.shape where
  nil _ := ⟨(), rfl⟩
  fine member n ns hr e := by rw [requireTriples, if_pos hr]
  refused member n ns hr := by rw [requireTriples, if_neg hr]

/-- What an assembled program is made of: the row of the objective and the rows of each cone. -/
structure MadeOf (p : Program α) (sense : Sense) (objective : Node α) (l : Layout α) (cost : Rows α)
    (rows : ByCone (Rows α)) : Prop where
  scalar : objective.shape = Shape.scalar
  triples : ∀ n ∈ l.members.exp, n.shape.rows = 3
  cost_eq : plainRows l [objective] = .ok cost
  direction_eq : direction sense (cost.G.row 0) (cost.g.row 0) = .ok (p.c, p.d)
  rows_eq : ∀ c, plainRows l (l.members.get c) = .ok (rows.get c)
  left_eq : p.A = Matrix.stack l.width (Cone.all.map fun c => c.leftSide (rows.get c).G)
  right_eq : ∃ bounds : ByCone (Numbers α), (∀ c : Cone, c.rightSide (rows.get c).g = .ok (bounds.get c)) ∧
    Numbers.joinRows (Cone.all.map bounds.get) = .ok p.b
  dims_eq : p.dims = l.coneDims
  maximize_eq : p.maximize = decide (sense = .maximize)

omit [BEq α] in
theorem assemble_eq_ok {p : Program α} (ht : ToldApart (objective :: constraints))
    (hl : l.IsOf objective constraints ms) (h : assemble sense objective l = .ok p) :
    ∃ cost rows, p.MadeOf sense objective l cost rows := by
  rw [assemble_eq ht hl, assemblePlainly, costOf] at h
  obtain ⟨⟨c, d⟩, hcost, h⟩ := bind_eq_ok.mp h
  split at hcost
  · cases hcost
  next hscalar =>
  obtain ⟨cost, hrow, hcost⟩ := bind_eq_ok.mp hcost
  split at hcost
  · cases hcost
  obtain ⟨⟨A, b⟩, hrows, h⟩ := bind_eq_ok.mp h
  obtain rfl := Except.ok.inj h
  obtain ⟨eq, heq, hrows⟩ := bind_eq_ok.mp hrows
  obtain ⟨eqBounds, heqb, hrows⟩ := bind_eq_ok.mp hrows
  obtain ⟨leq, hleq, hrows⟩ := bind_eq_ok.mp hrows
  obtain ⟨leqBounds, hleqb, hrows⟩ := bind_eq_ok.mp hrows
  obtain ⟨_, htriples, hrows⟩ := bind_eq_ok.mp hrows
  obtain ⟨soc, hsoc, hrows⟩ := bind_eq_ok.mp hrows
  obtain ⟨exp, hexp, hrows⟩ := bind_eq_ok.mp hrows
  obtain ⟨bounds, hbounds, hrows⟩ := bind_eq_ok.mp hrows
  obtain ⟨rfl, rfl⟩ := Prod.mk.inj (Except.ok.inj hrows)
  have htriples := passes_requireTriples.exists_ok_iff.mp ⟨(), htriples⟩
  refine ⟨cost, ⟨eq, leq, soc, exp⟩, not_not.mp hscalar, htriples, hrow, hcost, fun c => ?_,
    rfl, ⟨⟨eqBounds, leqBounds, soc.g, exp.g⟩, fun c => ?_, hbounds⟩, rfl, rfl⟩
  · cases c with
    | eq => exact heq
    | leq => exact hleq
    | soc => exact hsoc
    | exp => exact hexp
  · cases c with
    | eq => exact heqb
    | leq => exact hleqb
    | soc => rfl
    | exp => rfl

omit [One α] [Add α] [Mul α] [Div α] [BEq α] in
/-- The right sides of the rows of all cones can be joined. -/
theorem exists_joined {rows : ByCone (Rows α)} {bounds : ByCone (Numbers α)} {heights : Cone → Nat} {width : Nat}
    (h : ∀ c, (rows.get c).HasSize (heights c) width)
    (hb : ∀ c : Cone, c.rightSide (rows.get c).g = .ok (bounds.get c)) :
    (∀ c, (bounds.get c).IsColumn (heights c)) ∧
      ∃ b, Numbers.joinRows (Cone.all.map bounds.get) = .ok b ∧ b.IsColumn (total (Cone.all.map heights)) := by
  have hcolumns : ∀ c, (bounds.get c).IsColumn (heights c) := by
    intro c
    obtain ⟨b, hright, hcolumn⟩ := (h c).column.rightSide c
    rwa [Except.ok.inj (hright.symm.trans (hb c))] at hcolumn
  obtain ⟨u, hu, hd, _⟩ :=
    Numbers.joinRows_realColumns heights (List.cons_ne_nil _ _) fun c (_ : c ∈ Cone.all) => hcolumns c
  exact ⟨hcolumns, _, hu, u, rfl, hd⟩

/-- A program over the columns and of the rows of a layout. -/
structure Fits (p : Program α) (l : Layout α) : Prop where
  length_c : p.c.length = l.width
  constant_eq : ∃ k, p.d.toScalar = .ok k
  rows_eq : p.A.rows = l.height
  cols_eq : p.A.cols = l.width
  column : p.b.IsColumn l.height
  dims_eq : p.dims = l.coneDims

theorem members_hasSize (hl : l.IsOf objective constraints ms) (hb : ∀ n ∈ objective :: constraints, n.Built)
    {c : Cone} (h : plainRows l (l.members.get c) = .ok r) : r.HasSize (total (l.dims.get c)) l.width := by
  rw [hl.sizes.total_get]
  exact plainRows_hasSize hl (fun n => hl.isPart hb) h

theorem objective_hasSize (hl : l.IsOf objective constraints ms) (hb : ∀ n ∈ objective :: constraints, n.Built)
    (hs : objective.shape = Shape.scalar) (h : plainRows l [objective] = .ok r) : r.HasSize 1 l.width := by
  have hsize : total ([objective].map Node.size) = 1 := by
    rw [List.map_singleton, Node.size, hs]
    rfl
  rw [← hsize]
  exact plainRows_hasSize hl (List.forall_mem_singleton.mpr (Node.isPart_objective hb)) h

end Program

/-! Accepted problems -/

/-- A problem whose nodes come from builders and are told apart by their identities, the layout that it is given and
the program that it is assembled to. -/
structure Accepted [Zero α] [One α] [Add α] [Neg α] [Mul α] [Div α] [OfDouble α] [BEq α] (sense : Sense)
    (objective : Node α) (constraints : List (Node α)) (l : Layout α) (p : Program α) : Prop where
  built : ∀ n ∈ objective :: constraints, n.Built
  apart : ToldApart (objective :: constraints)
  laidOut : Layout.ofProblem objective constraints = .ok l
  assembled : Program.assemble sense objective l = .ok p

namespace Accepted

variable [Zero α] [One α] [Add α] [Neg α] [Mul α] [Div α] [OfDouble α] [BEq α] {sense : Sense} {objective : Node α}
  {constraints : List (Node α)} {l : Layout α} {p : Program α}

theorem exists_isOf (h : Accepted sense objective constraints l p) : ∃ ms, l.IsOf objective constraints ms :=
  Layout.ofProblem_eq_ok h.built h.laidOut

theorem orders (h : Accepted sense objective constraints l p) : ∃ vs, l.Orders vs := by
  obtain ⟨ms, hl⟩ := h.exists_isOf
  exact hl.orders

theorem exists_madeOf (h : Accepted sense objective constraints l p) :
    ∃ cost rows, p.MadeOf sense objective l cost rows := by
  obtain ⟨ms, hl⟩ := h.exists_isOf
  exact Program.assemble_eq_ok h.apart hl h.assembled

theorem triples (h : Accepted sense objective constraints l p) : ∀ n ∈ l.members.exp, n.shape.rows = 3 := by
  obtain ⟨_, _, hp⟩ := h.exists_madeOf
  exact hp.triples

theorem maximize_eq (h : Accepted sense objective constraints l p) : p.maximize = decide (sense = .maximize) := by
  obtain ⟨_, _, hp⟩ := h.exists_madeOf
  exact hp.maximize_eq

/-- An assembled program fits its layout. -/
theorem fits (h : Accepted sense objective constraints l p) : p.Fits l := by
  obtain ⟨ms, hl⟩ := h.exists_isOf
  obtain ⟨cost, rows, hp⟩ := h.exists_madeOf
  have hcost := Program.objective_hasSize hl h.built hp.scalar hp.cost_eq
  have hrows : ∀ c, (rows.get c).HasSize (total (l.dims.get c)) l.width :=
    fun c => Program.members_hasSize hl h.built (hp.rows_eq c)
  obtain ⟨hc, hd⟩ := Prod.mk.inj (Except.ok.inj (hp.direction_eq.symm.trans (Program.direction_row sense hcost)))
  obtain ⟨bounds, hbounds, hjoin⟩ := hp.right_eq
  obtain ⟨_, b, hjoin', hcolumn⟩ := Program.exists_joined hrows hbounds
  obtain rfl := Except.ok.inj (hjoin'.symm.trans hjoin)
  refine ⟨?_, ⟨_, by rw [hd]; rfl⟩, ?_, ?_, hcolumn, hp.dims_eq⟩
  · rw [hc, List.length_map]
    exact (Matrix.length_row _ _).trans hcost.cols_eq
  · rw [hp.left_eq, Matrix.rows_stack, List.map_map, Layout.height]
    exact congrArg total (List.map_congr_left fun c _ => (c.leftSide_size _).1.trans (hrows c).rows_eq)
  · rw [hp.left_eq, Matrix.cols_stack]

end Accepted

end ConicForm
