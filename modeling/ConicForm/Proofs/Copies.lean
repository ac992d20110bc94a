import ConicForm.Proofs.Refusals
import ConicForm.Proofs.RenamedBlocks

/-!
# Copies of nodes

A copy of a tree has the same kinds, shapes, constants and children, other ids for the variables and any
identities for the nodes. A copy of what builders made is what builders make, it has the renamed variables, and
under a renaming that keeps ids apart its block is the renamed block.
-/

namespace ConicForm

variable {α : Type}

theorem forall₂_of_mem {β γ : Type} {R S : β → γ → Prop} {xs : List β} {ys : List γ} (h : List.Forall₂ R xs ys)
    (hRS : ∀ a ∈ xs, ∀ b, R a b → S a b) : List.Forall₂ S xs ys := by
  have hmem : List.Forall₂ (fun a b => a ∈ xs ∧ R a b) xs ys := (List.forall₂_and_left _ _).mpr ⟨fun _ ha => ha, h⟩
  exact hmem.imp fun a b hab => hRS a hab.1 b hab.2

/-- The data of the renamed variable. -/
def Payload.renamed (f : Int → Int) : Payload α → Payload α
  | .loose (.int id) => .loose (.int (f id))
  | data => data

theorem Payload.renamed_id (data : Payload α) : data.renamed id = data := by
  unfold renamed
  split <;> rfl

def Variable.renamed (f : Int → Int) (v : Variable) : Variable := { v with id := f v.id }

namespace Node

mutual

/-- Whether the second tree is the first one with the ids of the variables changed by `f`, whatever the identities
of the nodes are. -/
def IsCopy (f : Int → Int) : Node α → Node α → Prop
  | ⟨_, kind, shape, children, data⟩, m =>
    m.kind = kind ∧ m.shape = shape ∧ m.data = (if kind = .variable then data.renamed f else data) ∧
      AreCopies f children m.children
termination_by structural n _ => n

def AreCopies (f : Int → Int) : List (Node α) → List (Node α) → Prop
  | [], ms => ms = []
  | n :: ns, ms => ∃ y ys, ms = y :: ys ∧ IsCopy f n y ∧ AreCopies f ns ys
termination_by structural ns _ => ns

end

/-- Whether two trees are one but for the identities of their nodes. -/
def Alike (m n : Node α) : Prop := m.IsCopy id n

variable {f g : Int → Int} {n m x : Node α} {xs ys ns : List (Node α)} {ident : Nat} {kind : Kind} {s : Shape}
  {data : Payload α}

theorem areCopies_iff {ms : List (Node α)} : AreCopies f ns ms ↔ List.Forall₂ (IsCopy f) ns ms := by
  induction ns generalizing ms with
  | nil => rw [AreCopies, List.forall₂_nil_left_iff]
  | cons n ns ih =>
    rw [AreCopies, List.forall₂_cons_left_iff]
    simp only [ih]
    constructor
    · rintro ⟨y, ys, rfl, hy, hys⟩
      exact ⟨y, ys, hy, hys, rfl⟩
    · rintro ⟨y, ys, hy, hys, rfl⟩
      exact ⟨y, ys, rfl, hy, hys⟩

theorem isCopy_iff : n.IsCopy f m ↔ m.kind = n.kind ∧ m.shape = n.shape ∧
    m.data = (if n.kind = .variable then n.data.renamed f else n.data) ∧
      List.Forall₂ (IsCopy f) n.children m.children := by
  obtain ⟨ident, kind, shape, children, data⟩ := n
  rw [IsCopy, areCopies_iff]

namespace IsCopy

theorem kind_eq (h : n.IsCopy f m) : m.kind = n.kind := (isCopy_iff.mp h).1

theorem shape_eq (h : n.IsCopy f m) : m.shape = n.shape := (isCopy_iff.mp h).2.1

theorem size_eq (h : n.IsCopy f m) : m.size = n.size := congrArg Shape.size h.shape_eq

theorem data_eq (h : n.IsCopy f m) (hk : n.kind ≠ .variable) : m.data = n.data :=
  (isCopy_iff.mp h).2.2.1.trans (if_neg hk)

theorem data_variable (h : n.IsCopy f m) (hk : n.kind = .variable) {id : Int} (hd : n.data = .loose (.int id)) :
    m.data = .loose (.int (f id)) := by
  rw [(isCopy_iff.mp h).2.2.1, if_pos hk, hd, Payload.renamed]

theorem children (h : n.IsCopy f m) : List.Forall₂ (IsCopy f) n.children m.children := (isCopy_iff.mp h).2.2.2

end IsCopy

theorem shapes_eq_of_copies (h : List.Forall₂ (IsCopy f) xs ys) : ys.map Node.shape = xs.map Node.shape := by
  induction h with
  | nil => rfl
  | cons hx _ ih => rw [List.map_cons, List.map_cons, hx.shape_eq, ih]

/-- Only the ids that occur matter. -/
theorem IsCopy.congr (h : n.IsCopy f m) (hfg : ∀ id s, n.Leaf id s → f id = g id) : n.IsCopy g m := by
  induction n using induction_on generalizing m with
  | step n ih =>
    obtain ⟨hk, hs, hd, hc⟩ := isCopy_iff.mp h
    refine isCopy_iff.mpr ⟨hk, hs, ?_, ?_⟩
    · rw [hd]
      split
      · next hv =>
        cases hdata : n.data with
        | loose v =>
          cases v with
          | int id => rw [Payload.renamed, Payload.renamed, hfg id n.shape ⟨n, mem_nodes_self n, hv, hdata, rfl⟩]
          | _ => rfl
        | _ => rfl
      · rfl
    · exact forall₂_of_mem hc fun x hx y hxy => ih x hx hxy fun id s hl => hfg id s (hl.of_child hx)

/-! Builders -/

/-- The same operation under another identity and on other operands. -/
def moved (n : Node α) (ident : Nat) (children : List (Node α)) : Node α := { n with ident, children }

theorem IsCopy.eq_moved (h : n.IsCopy f m) (hk : n.kind ≠ .variable) : m = n.moved m.ident m.children := by
  have hkind := h.kind_eq
  have hshape := h.shape_eq
  have hdata := h.data_eq hk
  obtain ⟨_, _, _, _, _⟩ := m
  obtain ⟨_, _, _, _, _⟩ := n
  simp_all [moved]

section builders

variable (i : Nat) {y : Node α}

theorem make_moved (shape : Value) : make i kind shape ys data = (moved · i ys) <$> make ident kind shape xs data := by
  rw [make, make, map_bind]
  rfl

theorem plain_moved (s : Shape) : plain i kind s ys = (moved · i ys) <$> plain ident kind s xs :=
  make_moved i s.toValue

theorem forM_shapes {F : Shape → Result Unit} (h : ys.map Node.shape = xs.map Node.shape) :
    ys.forM (fun t => F t.shape) = xs.forM fun t => F t.shape := by
  have hmap : ∀ ns : List (Node α), ns.forM (fun t => F t.shape) = (ns.map Node.shape).forM F := by
    intro ns
    induction ns with
    | nil => rfl
    | cons n ns ih => exact bind_congr fun _ => ih
  rw [hmap, hmap, h]

theorem map_shapes {β : Type} {g : Shape → β} (h : ys.map Node.shape = xs.map Node.shape) :
    (ys.map fun t => g t.shape) = xs.map fun t => g t.shape := by
  have hmap : ∀ ns : List (Node α), (ns.map fun t => g t.shape) = (ns.map Node.shape).map g :=
    fun ns => (List.map_map).symm
  rw [hmap, hmap, h]

theorem sum_moved (h : ys.map Node.shape = xs.map Node.shape) :
    Node.sum i ys = (moved · i ys) <$> Node.sum ident xs := by
  cases xs with
  | nil =>
    obtain rfl := List.map_eq_nil_iff.mp h
    rfl
  | cons x xs =>
    obtain ⟨y, ys, rfl, hy, hys⟩ := List.map_eq_cons_iff.mp h
    rw [Node.sum, Node.sum, hy, forM_shapes (F := fun t => Shape.requireEqual x.shape.toValue t.toValue) hys, map_bind]
    exact bind_congr fun _ => plain_moved i x.shape

theorem hstack_moved (h : ys.map Node.shape = xs.map Node.shape) :
    hstack i ys = (moved · i ys) <$> hstack ident xs := by
  cases xs with
  | nil =>
    obtain rfl := List.map_eq_nil_iff.mp h
    rfl
  | cons x xs =>
    obtain ⟨y, ys, rfl, hy, hys⟩ := List.map_eq_cons_iff.mp h
    rw [hstack, hstack, hy, map_shapes (g := Shape.cols) h, map_bind]
    refine (congrArg (· >>= _) (forM_shapes (F := fun t => if t.rows = x.shape.rows then pure ()
      else throw (.stackMismatch "hstack" "row" x.shape t)) hys)).trans ?_
    exact bind_congr fun _ => plain_moved i _

theorem vstack_moved (h : ys.map Node.shape = xs.map Node.shape) :
    vstack i ys = (moved · i ys) <$> vstack ident xs := by
  cases xs with
  | nil =>
    obtain rfl := List.map_eq_nil_iff.mp h
    rfl
  | cons x xs =>
    obtain ⟨y, ys, rfl, hy, hys⟩ := List.map_eq_cons_iff.mp h
    rw [vstack, vstack, hy, map_shapes (g := Shape.rows) h, map_bind]
    refine (congrArg (· >>= _) (forM_shapes (F := fun t => if t.cols = x.shape.cols then pure ()
      else throw (.stackMismatch "vstack" "column" x.shape t)) hys)).trans ?_
    exact bind_congr fun _ => plain_moved i _

end builders

section built

variable [Zero α] [Add α] [Neg α] [Mul α] [Div α] [BEq α] [OfDouble α]

omit [Zero α] [Add α] [Neg α] [Mul α] [Div α] [BEq α] [OfDouble α] in
theorem eq_ok_of_moved {r r' : Result (Node α)} {i : Nat} (hr : r' = (moved · i ys) <$> r) (h : r = .ok n) :
    r' = .ok (n.moved i ys) := by
  rw [hr, h]
  rfl

/-- Whether a built node can take the place of another one under a builder. -/
structure Replaces (x y : Node α) : Prop where
  shape_eq : y.shape = x.shape
  kind_eq : y.kind = x.kind
  built : y.Built

theorem shapes_eq_of_replaces (h : List.Forall₂ Replaces xs ys) : ys.map Node.shape = xs.map Node.shape := by
  induction h with
  | nil => rfl
  | cons hx _ ih => rw [List.map_cons, List.map_cons, hx.shape_eq, ih]

omit [Add α] [Neg α] [Mul α] [Div α] [BEq α] [OfDouble α] in
theorem constant_moved (a : Numbers α) (i : Nat) :
    (do let m ← a.asConstant false; make i kind m.shapeValue [] (.array m)) =
      (moved · i []) <$> (do let m ← a.asConstant false; make ident kind m.shapeValue [] (.array m)) := by
  rw [map_bind]
  exact bind_congr fun m => make_moved i m.shapeValue

/-- What a builder without operands made, under another identity. -/
theorem rebuilt_constant (build : Nat → Result (Node α)) (h : build ident = .ok n) (hn : n.children = [])
    (hmoved : ∀ i, build i = (moved · i []) <$> build ident) (hbuilt : ∀ {i m}, build i = .ok m → m.Built)
    (hys : List.Forall₂ Replaces n.children ys) (i : Nat) : (n.moved i ys).Built := by
  rw [hn] at hys
  obtain rfl := List.forall₂_nil_left_iff.mp hys
  exact hbuilt (eq_ok_of_moved (hmoved i) h)

/-! Builders of one operand -/

/-- A builder makes its one operand the only child, heeds no more of it than shape and kind, and makes of what is
built what is built. -/
structure Heeds (build : Nat → Node α → Result (Node α)) : Prop where
  children_eq : ∀ {ident x n}, build ident x = .ok n → n.children = [x]
  moved : ∀ {ident x y} (i : Nat), y.shape = x.shape → y.kind = x.kind →
    build i y = (moved · i [y]) <$> build ident x
  built : ∀ {ident x n}, x.Built → build ident x = .ok n → n.Built

theorem Heeds.rebuilt {build : Nat → Node α → Result (Node α)} (hb : Heeds build) (h : build ident x = .ok n)
    (hys : List.Forall₂ Replaces n.children ys) (i : Nat) : (n.moved i ys).Built := by
  rw [hb.children_eq h] at hys
  obtain ⟨y, zs, hy, hzs, rfl⟩ := List.forall₂_cons_left_iff.mp hys
  obtain rfl := List.forall₂_nil_left_iff.mp hzs
  exact hb.built hy.built (eq_ok_of_moved (hb.moved i hy.shape_eq hy.kind_eq) h)

/-- An operation without data whose shape depends on that of its operand only. -/
theorem heeds_plain {kind : Kind} (F : Shape → Shape)
    (hbuilt : ∀ {ident} {x n : Node α}, x.Built → plain ident kind (F x.shape) [x] = .ok n → n.Built) :
    Heeds fun ident (x : Node α) => plain ident kind (F x.shape) [x] where
  children_eq h := congrArg children (plain_eq_ok h)
  moved i hs _ := by
    rw [hs]
    exact plain_moved i _
  built := hbuilt

theorem heeds_neg : Heeds fun ident (x : Node α) => neg ident x :=
  heeds_plain id fun hx h => ⟨_, .neg hx.choose_spec h⟩

theorem heeds_transpose : Heeds fun ident (x : Node α) => transpose ident x :=
  heeds_plain Shape.transposed fun hx h => ⟨_, .transpose hx.choose_spec h⟩

theorem heeds_sumEntries : Heeds fun ident (x : Node α) => sumEntries ident x :=
  heeds_plain (fun _ => .scalar) fun hx h => ⟨_, .sumEntries hx.choose_spec h⟩

theorem heeds_noOp : Heeds fun ident (x : Node α) => noOp ident x :=
  heeds_plain id fun hx h => ⟨_, .noOp hx.choose_spec h⟩

theorem heeds_constraint {build : Nat → Node α → Result (Node α)} (hb : build ∈ [eq, leq, soc, exp, sdp]) :
    Heeds build := by
  have hbuilt : ∀ {ident} {x n : Node α}, x.Built → build ident x = .ok n → n.Built := fun hx h => .constraint hx hb h
  simp only [List.mem_cons, List.not_mem_nil, or_false] at hb
  rcases hb with rfl | rfl | rfl | rfl | rfl <;> exact heeds_plain id hbuilt

theorem heeds_trace : Heeds fun ident (x : Node α) => trace ident x where
  children_eq h := congrArg children (trace_eq_ok h)
  moved i hs _ := by
    rw [trace, trace, hs]
    split
    · exact plain_moved i .scalar
    · rfl
  built hx h := ⟨_, .trace hx.choose_spec h⟩

theorem heeds_promote {shape : Value} (hp : shape.IsIntPair) :
    Heeds fun ident (x : Node α) => promote ident x shape where
  children_eq h := congrArg children (promote_eq_ok h).2
  moved i hs _ := by
    rw [promote, promote, hs]
    split
    · exact make_moved i shape
    · rfl
  built hx h := ⟨_, .promote hx.choose_spec hp h⟩

theorem heeds_index (rows cols : Value) : Heeds fun ident (x : Node α) => index ident x rows cols where
  children_eq h := by
    obtain ⟨_, _, _, _, hn⟩ := index_eq_ok h
    exact congrArg children hn
  moved i hs _ := by
    simp only [index, hs, map_bind]
    exact bind_congr fun _ => bind_congr fun _ => bind_congr fun _ => bind_congr fun _ => bind_congr fun _ =>
      bind_congr fun _ => make_moved i _
  built hx h := ⟨_, .index hx.choose_spec h⟩

theorem heeds_reshape {shape : Value} (hp : shape.IsIntPair) :
    Heeds fun ident (x : Node α) => reshape ident x shape where
  children_eq h := congrArg children (reshape_eq_ok hp h).2
  moved {ident x y} i hs hk := by
    have hwidth : y.width = x.width := by rw [width, width, hk, Node.size, Node.size, hs]
    simp only [reshape, hwidth, hs, map_bind]
    refine bind_congr fun _ => bind_congr fun _ => bind_congr fun _ => bind_congr fun b => ?_
    cases b with
    | false =>
      rw [if_neg Bool.false_ne_true, if_neg Bool.false_ne_true, map_bind]
      rfl
    | true => exact make_moved i shape
  built hx h := ⟨_, .reshape hx.choose_spec hp h⟩

omit [Zero α] [Add α] [Neg α] [Mul α] [Div α] [BEq α] [OfDouble α] in
theorem productShape_congr {y : Node α} (hs : y.shape = x.shape) (b : Bool) (left right : Shape) :
    productShape b y left right = productShape b x left right := by
  rw [productShape, productShape, hs]

theorem heeds_mul (a : Numbers α) : Heeds fun ident (x : Node α) => mul ident a x where
  children_eq h := by
    obtain ⟨_, _, _, hn, _⟩ := mul_eq_ok h
    exact congrArg children hn
  moved i hs _ := by
    simp only [mul, hs, productShape_congr hs, map_bind]
    exact bind_congr fun _ => bind_congr fun _ => make_moved i _
  built hx h := ⟨_, .mul hx.choose_spec h⟩

theorem heeds_rmul (a : Numbers α) : Heeds fun ident (x : Node α) => rmul ident x a where
  children_eq h := by
    obtain ⟨_, _, _, hn, _⟩ := rmul_eq_ok h
    exact congrArg children hn
  moved i hs _ := by
    simp only [rmul, hs, productShape_congr hs, map_bind]
    exact bind_congr fun _ => bind_congr fun _ => make_moved i _
  built hx h := ⟨_, .rmul hx.choose_spec h⟩

theorem heeds_mulElem (a : Numbers α) : Heeds fun ident (x : Node α) => mulElem ident a x where
  children_eq h := by
    obtain ⟨_, _, _, _, hn⟩ := mulElem_eq_ok h
    exact congrArg children hn
  moved i hs _ := by
    simp only [mulElem, hs, map_bind]
    exact bind_congr fun _ => bind_congr fun _ => make_moved i _
  built hx h := ⟨_, .mulElem hx.choose_spec h⟩

theorem heeds_div (d : α) : Heeds fun ident (x : Node α) => div ident x d where
  children_eq h := congrArg children (div_eq_ok h)
  moved i hs _ := by
    rw [div, div, hs]
    split
    · rfl
    · exact make_moved i _
  built hx h := ⟨_, .div hx.choose_spec h⟩

/-! Builders of several operands -/

/-- A builder makes its operands the children, heeds no more of them than the shapes, and makes of what is built
what is built. -/
structure HeedsAll (build : Nat → List (Node α) → Result (Node α)) : Prop where
  children_eq : ∀ {ident xs n}, build ident xs = .ok n → n.children = xs
  moved : ∀ {ident xs ys} (i : Nat), ys.map Node.shape = xs.map Node.shape →
    build i ys = (moved · i ys) <$> build ident xs
  built : ∀ {ident xs n}, (∀ x ∈ xs, x.Built) → build ident xs = .ok n → n.Built

theorem HeedsAll.rebuilt {build : Nat → List (Node α) → Result (Node α)} (hb : HeedsAll build)
    (h : build ident xs = .ok n) (hys : List.Forall₂ Replaces n.children ys) (i : Nat) : (n.moved i ys).Built := by
  rw [hb.children_eq h] at hys
  refine hb.built (fun y hy => ?_) (eq_ok_of_moved (hb.moved i (shapes_eq_of_replaces hys)) h)
  obtain ⟨x, _, hxy⟩ := exists_left_of_forall₂ hys hy
  exact hxy.built

theorem heedsAll_sum : HeedsAll fun ident (xs : List (Node α)) => Node.sum ident xs where
  children_eq h := congrArg children (sum_eq_ok h).2.2
  moved i := sum_moved i
  built := Built.sum

theorem heedsAll_hstack : HeedsAll fun ident (xs : List (Node α)) => hstack ident xs where
  children_eq h := congrArg children (hstack_eq_ok h).2.2.2
  moved i := hstack_moved i
  built hx h := by
    choose! v hv using hx
    exact ⟨_, .hstack hv h⟩

theorem heedsAll_vstack : HeedsAll fun ident (xs : List (Node α)) => vstack ident xs where
  children_eq h := congrArg children (vstack_eq_ok h).2.2.2
  moved i := vstack_moved i
  built := Built.vstack

/-! Copies -/

/-- What builders made is what they make under another identity of other operands that replace these. -/
theorem Built.rebuilt (h : n.Built) (hys : List.Forall₂ Replaces n.children ys) (i : Nat) : (n.moved i ys).Built := by
  obtain ⟨v, h⟩ := h
  cases h with
  | @leaf _ id shape _ h =>
    obtain ⟨s, _, hn⟩ := make_eq_ok h
    exact rebuilt_constant (ofVariable · (.int id) shape) h (congrArg children hn)
      (fun i => make_moved i shape) (fun h => ⟨_, .leaf h⟩) hys i
  | @scalarConst _ c _ h =>
    exact rebuilt_constant (scalarConst · c) h (congrArg children (make_toValue h))
      (fun i => make_moved i _) (fun h => ⟨_, .scalarConst h⟩) hys i
  | @denseConst _ a _ h =>
    obtain ⟨_, _, _, hn⟩ := denseConst_eq_ok h
    exact rebuilt_constant (denseConst · a) h (congrArg children hn) (constant_moved a)
      (fun h => ⟨_, .denseConst h⟩) hys i
  | @parameter _ a _ h =>
    obtain ⟨_, _, _, hn⟩ := parameter_eq_ok h
    exact rebuilt_constant (parameter · a) h (congrArg children hn) (constant_moved a)
      (fun h => ⟨_, .parameter h⟩) hys i
  | neg _ h => exact heeds_neg.rebuilt h hys i
  | mul _ h => exact (heeds_mul _).rebuilt h hys i
  | rmul _ h => exact (heeds_rmul _).rebuilt h hys i
  | mulElem _ h => exact (heeds_mulElem _).rebuilt h hys i
  | div _ h => exact (heeds_div _).rebuilt h hys i
  | promote _ hp h => exact (heeds_promote hp).rebuilt h hys i
  | index _ h => exact (heeds_index _ _).rebuilt h hys i
  | transpose _ h => exact heeds_transpose.rebuilt h hys i
  | sumEntries _ h => exact heeds_sumEntries.rebuilt h hys i
  | trace _ h => exact heeds_trace.rebuilt h hys i
  | reshape _ hp h => exact (heeds_reshape hp).rebuilt h hys i
  | noOp _ h => exact heeds_noOp.rebuilt h hys i
  | constraint _ hb h => exact (heeds_constraint hb).rebuilt h hys i
  | sum _ h => exact heedsAll_sum.rebuilt h hys i
  | hstack _ h => exact heedsAll_hstack.rebuilt h hys i
  | vstack _ h => exact heedsAll_vstack.rebuilt h hys i

/-- A copy of a variable is a variable of the same shape. -/
theorem Built.copy_variable (h : n.Built) (hk : n.kind = .variable) (hc : n.IsCopy f m) : m.Built := by
  obtain ⟨hn, id, hd⟩ := h.of_variable hk
  have hpos : m.shape.IsPositive := hc.shape_eq ▸ h.shape_pos
  have hkm := hc.kind_eq.trans hk
  have hdm := hc.data_variable hk hd
  have hcm : m.children = [] := List.forall₂_nil_left_iff.mp (hn ▸ hc.children)
  obtain ⟨i, k, s, ys, data⟩ := m
  obtain rfl : k = .variable := hkm
  obtain rfl : data = .loose (.int (f id)) := hdm
  obtain rfl : ys = [] := hcm
  exact ⟨_, .leaf (make_of_pos hpos)⟩

/-- A copy of what builders made is what builders make. -/
theorem Built.copy (h : n.Built) (hc : n.IsCopy f m) : m.Built := by
  induction n using induction_on generalizing m with
  | step n ih =>
    by_cases hk : n.kind = .variable
    · exact h.copy_variable hk hc
    · rw [hc.eq_moved hk]
      refine h.rebuilt (forall₂_of_mem hc.children fun x hx y hxy => ?_) m.ident
      exact ⟨hxy.shape_eq, hxy.kind_eq, ih x hx (h.of_child hx) hxy⟩

end built

/-! Variables and blocks -/

/-- Steps on copies answer as those on the originals do. -/
theorem mapM_of_copies {β : Type} {F : Node α → Result β} {k : β → β} (h : List.Forall₂ (IsCopy f) xs ys)
    (hF : ∀ x ∈ xs, ∀ y, x.IsCopy f y → F y = k <$> F x) : ys.mapM F = List.map k <$> xs.mapM F := by
  induction h with
  | nil => rfl
  | @cons x y xs ys hxy _ ih =>
    rw [List.mapM_cons, List.mapM_cons, hF x List.mem_cons_self y hxy,
      ih fun z hz => hF z (List.mem_cons_of_mem x hz)]
    simp

theorem asVariable_renamed (data : Payload α) (s : Shape) :
    asVariable (data.renamed f) s = Variable.renamed f <$> asVariable data s := by
  cases data with
  | loose v => cases v <;> rfl
  | _ => rfl

/-- The variables of a copy are the renamed ones. -/
theorem IsCopy.variables_eq (h : n.IsCopy f m) :
    m.leafVariables = List.map (Variable.renamed f) <$> n.leafVariables := by
  induction n using induction_on generalizing m with
  | step n ih =>
    rw [leafVariables_eq, leafVariables_eq, h.kind_eq, h.shape_eq]
    split
    · next hk =>
      rw [(isCopy_iff.mp h).2.2.1, if_pos hk, asVariable_renamed]
      cases asVariable n.data n.shape <;> rfl
    · rw [mapM_of_copies h.children fun x hx y => ih x hx]
      cases n.children.mapM leafVariables with
      | error e => rfl
      | ok vss => exact congrArg Except.ok List.map_flatten.symm

/-- The variables of a copy of a problem are the renamed ones. -/
theorem problemVariables_of_copies {objective objective' : Node α} {constraints constraints' : List (Node α)}
    (ho : objective.IsCopy f objective') (hc : List.Forall₂ (IsCopy f) constraints constraints') :
    objective'.problemVariables constraints' =
      List.map (Variable.renamed f) <$> objective.problemVariables constraints := by
  rw [problemVariables, problemVariables, funext occurrences_eq, ho.variables_eq,
    mapM_of_copies hc fun x _ y => IsCopy.variables_eq]
  simp [List.map_flatten]

section blocks

variable [Zero α] [One α] [Add α] [Neg α] [Mul α] [Div α] [BEq α] [OfDouble α]

/-- The block of a copy is the renamed block. -/
theorem IsCopy.block_eq (h : n.IsCopy f m) (hf : Function.Injective f) (hb : n.Built) :
    m.block = Block.renamed f <$> n.block := by
  induction n using induction_on generalizing m with
  | step n ih =>
    rw [Node.block_eq, Node.block_eq, h.kind_eq]
    by_cases hexpr : n.kind.isExpression
    · rw [if_pos hexpr, if_pos hexpr]
      by_cases hk : n.kind = .variable
      · obtain ⟨hc, id, hd⟩ := hb.of_variable hk
        have hcm : m.children = [] := List.forall₂_nil_left_iff.mp (hc ▸ h.children)
        rw [hc, hcm]
        change Block.rule m [] = Block.renamed f <$> Block.rule n []
        rw [Block.rule, Block.rule, h.kind_eq, hk, h.data_variable hk hd, hd, h.size_eq]
        rfl
      · rw [mapM_of_copies h.children fun x hx y hxy => ih x hx hxy (hb.of_child hx), bind_map_left, map_bind]
        exact bind_congr fun bs => Block.rule_renamed hf h.kind_eq hk h.shape_eq (h.data_eq hk)
          (shapes_eq_of_copies h.children) bs
    · rw [if_neg hexpr, if_neg hexpr, Block.unsupported, h.kind_eq, h.shape_eq]
      rfl

end blocks

end Node

end ConicForm
