import ConicForm.Backend.Clarabel
import ConicForm.Proofs.ConstraintRows
import Mathlib.Algebra.Order.Field.Basic
import Mathlib.Algebra.Order.Ring.Rat

/-!
# The cones that a solver is handed

Along the cones that Clarabel is handed, the slack of a program falls into one piece for each cone, and the
pieces are in their cones exactly when the constraints hold. What the second-order cone and the exponential
cone are does not matter for this.
-/

namespace ConicForm

/-! Columns -/

namespace Matrix

variable {α : Type} [Zero α]

def column (m : Matrix α) (j : Nat) : List α := (List.range m.rows).map fun i => m.get i j

@[simp] theorem length_column (m : Matrix α) (j : Nat) : (m.column j).length = m.rows := by
  rw [column, List.length_map, List.length_range]

/-- The entries column by column are the columns one after the other. -/
theorem vec_eq_flatMap (m : Matrix α) : m.vec = (List.range m.cols).flatMap m.column := by
  have hcols : ∀ n, ((List.range (m.rows * n)).map fun k => m.get (k % m.rows) (k / m.rows)) =
      (List.range n).flatMap m.column := by
    intro n
    induction n with
    | zero => rfl
    | succ n ih =>
      have hlast : (List.range m.rows).map (fun i => m.get ((m.rows * n + i) % m.rows) ((m.rows * n + i) / m.rows)) =
          m.column n := by
        apply List.map_congr_left
        intro i hi
        have hi := List.mem_range.mp hi
        rw [Nat.mul_comm, mod_place hi, div_place hi]
      rw [Nat.mul_succ, List.range_add, List.map_append, ih, List.map_map, List.range_succ,
        List.flatMap_append, List.flatMap_singleton, ← hlast]
      rfl
  exact hcols m.cols

/-- The columns, from the first one on. -/
def columnList (m : Matrix α) : List (List α) := (List.range m.cols).map m.column

@[simp] theorem length_columnList (m : Matrix α) : m.columnList.length = m.cols := by
  rw [columnList, List.length_map, List.length_range]

theorem mem_columnList {m : Matrix α} {x : List α} : x ∈ m.columnList ↔ ∃ j < m.cols, m.column j = x := by
  simp only [columnList, List.mem_map, List.mem_range]

theorem vec_eq_flatten (m : Matrix α) : m.vec = m.columnList.flatten := by
  rw [vec_eq_flatMap, columnList, List.flatMap_def]

theorem forall_mem_vec (m : Matrix α) (P : α → Prop) :
    (∀ a ∈ m.vec, P a) ↔ ∀ i < m.rows, ∀ j < m.cols, P (m.get i j) := by
  rw [vec_eq_flatMap]
  simp only [List.mem_flatMap, List.mem_range, column, List.mem_map]
  constructor
  · exact fun h i hi j hj => h _ ⟨j, hj, i, hi, rfl⟩
  · rintro h _ ⟨j, hj, i, hi, rfl⟩
    exact h i hi j hj

end Matrix

/-- Whether a value is what a constraint asks of it; `S` and `E` stand for the second-order cone and the
exponential cone. -/
def Cone.Admits {α : Type} [Zero α] [LE α] (S E : List α → Prop) (c : Cone) (m : Matrix α) : Prop :=
  match c with
  | .eq => ∀ i < m.rows, ∀ j < m.cols, m.get i j = 0
  | .leq => ∀ i < m.rows, ∀ j < m.cols, m.get i j ≤ 0
  | .soc => S (m.column 0)
  | .exp => ∀ j < m.cols, E (m.column j)

section signs

variable {α : Type} [Field α] (m : Matrix α)

theorem Cone.forall_mem_signed_eq :
    (∀ a ∈ Cone.eq.signed m.vec, a = 0) ↔ ∀ i < m.rows, ∀ j < m.cols, m.get i j = 0 := by
  simp only [Cone.signed, List.forall_mem_map, neg_eq_zero]
  exact m.forall_mem_vec _

theorem Cone.forall_mem_signed_leq [LinearOrder α] [IsStrictOrderedRing α] :
    (∀ a ∈ Cone.leq.signed m.vec, 0 ≤ a) ↔ ∀ i < m.rows, ∀ j < m.cols, m.get i j ≤ 0 := by
  simp only [Cone.signed, List.forall_mem_map, neg_nonneg]
  exact m.forall_mem_vec _

end signs

namespace Clarabel

variable {α : Type}

/-- A vector cut into consecutive pieces along some cones. -/
def pieces : List SolverCone → List α → List (SolverCone × List α)
  | [], _ => []
  | c :: cs, s => (c, s.take c.rows) :: pieces cs (s.drop c.rows)

/-- Whether a vector is in a cone. -/
def SolverCone.Has [Zero α] [LE α] (S E : List α → Prop) (c : SolverCone) (x : List α) : Prop :=
  match c with
  | .zero _ => ∀ a ∈ x, a = 0
  | .nonnegative _ => ∀ a ∈ x, 0 ≤ a
  | .secondOrder _ => S x
  | .exponential => E x

theorem pieces_append {cs : List SolverCone} {s : List α} (h : s.length = total (cs.map SolverCone.rows))
    (ds : List SolverCone) (t : List α) : pieces (cs ++ ds) (s ++ t) = pieces cs s ++ pieces ds t := by
  induction cs generalizing s with
  | nil =>
    obtain rfl : s = [] := List.eq_nil_of_length_eq_zero h
    rfl
  | cons c cs ih =>
    rw [List.map_cons, total_cons] at h
    rw [List.cons_append, pieces, List.take_append_of_le_length (by omega),
      List.drop_append_of_le_length (by omega), ih (by rw [List.length_drop]; omega)]
    rfl

theorem pieces_flatMap {β : Type} {xs : List β} {cones : β → List SolverCone} {f : β → List α}
    (h : ∀ x ∈ xs, (f x).length = total ((cones x).map SolverCone.rows)) :
    pieces (xs.flatMap cones) (xs.flatMap f) = xs.flatMap fun x => pieces (cones x) (f x) := by
  induction xs with
  | nil => rfl
  | cons x xs ih =>
    rw [List.flatMap_cons, List.flatMap_cons, List.flatMap_cons, pieces_append (h x List.mem_cons_self),
      ih fun y hy => h y (List.mem_cons_of_mem x hy)]

/-- Vectors one after the other are cut into these vectors by cones of their lengths. -/
theorem pieces_map {β : Type} {xs : List β} {cone : β → SolverCone} {f : β → List α}
    (h : ∀ x ∈ xs, (f x).length = (cone x).rows) :
    pieces (xs.map cone) (xs.flatMap f) = xs.map fun x => (cone x, f x) := by
  induction xs with
  | nil => rfl
  | cons x xs ih =>
    rw [List.map_cons, List.flatMap_cons, pieces, ← h x List.mem_cons_self, List.take_left, List.drop_left,
      ih fun y hy => h y (List.mem_cons_of_mem x hy)]
    rfl

/-- A cone that is left out if it has no rows. -/
def optional (cone : Nat → SolverCone) (n : Nat) : List SolverCone := if 0 < n then [cone n] else []

theorem total_rows_optional {cone : Nat → SolverCone} (h : ∀ n, (cone n).rows = n) (n : Nat) :
    total ((optional cone n).map SolverCone.rows) = n := by
  rw [optional]
  split
  · simp [h]
  · next hn => simpa using (Nat.eq_zero_of_not_pos hn).symm

section membership

variable [Zero α] [LE α] {S E : List α → Prop}

theorem has_of_optional {cone : Nat → SolverCone} {s : List α} {P : α → Prop} (hrows : ∀ n, (cone n).rows = n)
    (hP : ∀ n x, (cone n).Has S E x ↔ ∀ a ∈ x, P a) :
    (∀ e ∈ pieces (optional cone s.length) s, e.1.Has S E e.2) ↔ ∀ a ∈ s, P a := by
  rw [optional]
  cases s with
  | nil => simp [pieces]
  | cons a s =>
    have hpos : 0 < (a :: s).length := by simp
    rw [if_pos hpos]
    simp only [pieces, hrows, List.take_length, List.mem_singleton, forall_eq]
    exact hP _ _

theorem exponential_pieces {ns : List (Matrix α)} (h : ∀ m ∈ ns, m.rows = 3) :
    (∀ e ∈ pieces (List.replicate (total (ns.map Matrix.cols)) .exponential) (ns.flatMap Matrix.vec),
      e.1.Has S E e.2) ↔ ∀ m ∈ ns, ∀ j < m.cols, E (m.column j) := by
  have hlen : (ns.flatMap Matrix.columnList).length = total (ns.map Matrix.cols) :=
    length_flatMap_eq fun m _ => m.length_columnList
  have hcones : List.replicate (total (ns.map Matrix.cols)) SolverCone.exponential =
      (ns.flatMap Matrix.columnList).map fun _ => .exponential := by
    rw [List.map_const', hlen]
  have hvec : ns.flatMap Matrix.vec = (ns.flatMap Matrix.columnList).flatMap id := by
    rw [List.flatMap_assoc]
    congr 1
    funext m
    rw [Matrix.vec_eq_flatten, List.flatMap_id]
  have hthree : ∀ x ∈ ns.flatMap Matrix.columnList, (id x).length = SolverCone.rows .exponential := by
    intro x hx
    obtain ⟨m, hm, hx⟩ := List.mem_flatMap.mp hx
    obtain ⟨j, _, rfl⟩ := Matrix.mem_columnList.mp hx
    rw [id, Matrix.length_column, h m hm]
    rfl
  rw [hcones, hvec, pieces_map hthree, List.forall_mem_map, List.forall_mem_flatMap]
  apply forall₂_congr
  intro m _
  constructor
  · exact fun he j hj => he _ (Matrix.mem_columnList.mpr ⟨j, hj, rfl⟩)
  · intro he x hx
    obtain ⟨j, hj, rfl⟩ := Matrix.mem_columnList.mp hx
    exact he j hj

end membership

/-! Members -/

/-- The solver's cones for the members of a cone. -/
def conesOf (members : ByCone (List (Node α))) : Cone → List SolverCone
  | .eq => optional .zero (total (members.eq.map Node.size))
  | .leq => optional .nonnegative (total (members.leq.map Node.size))
  | .soc => members.soc.map fun n => .secondOrder n.size
  | .exp => List.replicate (total (members.exp.map fun n => n.shape.cols)) .exponential

theorem total_rows_conesOf {members : ByCone (List (Node α))} (h : ∀ n ∈ members.exp, n.shape.rows = 3)
    (c : Cone) : total ((conesOf members c).map SolverCone.rows) = total ((members.get c).map Node.size) := by
  cases c with
  | eq => exact total_rows_optional (fun _ => rfl) _
  | leq => exact total_rows_optional (fun _ => rfl) _
  | soc =>
    rw [conesOf, List.map_map]
    rfl
  | exp =>
    have hrows : ∀ n, total ((List.replicate n SolverCone.exponential).map SolverCone.rows) = 3 * n := by
      intro n
      induction n with
      | zero => rfl
      | succ n ih =>
        rw [List.replicate_succ, List.map_cons, total_cons, ih, SolverCone.rows]
        omega
    exact (hrows _).trans (total_size_of_triples h).symm

/-- The solver is handed the cones of the members, one cone after the other. -/
theorem cones_coneDims {l : Layout α} (hs : Sizes l.members l.dims)
    (h : ∀ n ∈ l.members.exp, n.shape.rows = 3) : cones l.coneDims = Cone.all.flatMap (conesOf l.members) := by
  have hexp : total (l.members.exp.map Node.size) / 3 = total (l.members.exp.map fun n => n.shape.cols) := by
    rw [total_size_of_triples h, Nat.mul_div_cancel_left _ (by decide)]
  simp only [cones, Layout.coneDims, hs.eq, hs.leq, hs.soc, hs.exp, List.headD_cons, hexp, List.map_map,
    Int.natCast_pos, Int.toNat_natCast, Cone.all, List.flatMap_cons, List.flatMap_nil, List.append_nil,
    List.append_assoc]
  rfl

variable [Field α] [LinearOrder α] [IsStrictOrderedRing α] {S E : List α → Prop}
  {l : Layout α} {value : Node α → Matrix α} {ns : List (Node α)}

omit [IsStrictOrderedRing α] in
theorem second_order_pieces (hcols : ∀ n ∈ ns, n.shape.cols = 1)
    (hshape : ∀ n ∈ ns, (value n).shape = n.shape) :
    (∀ e ∈ pieces (ns.map fun n => .secondOrder n.size) (ns.flatMap fun n => (value n).vec), e.1.Has S E e.2) ↔
      ∀ n ∈ ns, Cone.Admits S E .soc (value n) := by
  have hlen : ∀ n ∈ ns, (value n).vec.length = (SolverCone.secondOrder n.size).rows := by
    intro n hn
    rw [Matrix.length_vec, hshape n hn]
    rfl
  rw [pieces_map hlen, List.forall_mem_map]
  apply forall₂_congr
  intro n hn
  have hone : (value n).cols = 1 := (congrArg Shape.cols (hshape n hn)).trans (hcols n hn)
  have hvec : (value n).vec = (value n).column 0 := by
    rw [Matrix.vec_eq_flatMap, hone]
    exact List.flatMap_singleton _ 0
  rw [hvec]
  rfl

omit [IsStrictOrderedRing α] in
theorem exponential_members (hrows : ∀ n ∈ ns, n.shape.rows = 3)
    (hshape : ∀ n ∈ ns, (value n).shape = n.shape) :
    (∀ e ∈ pieces (List.replicate (total (ns.map fun n => n.shape.cols)) .exponential)
      (ns.flatMap fun n => (value n).vec), e.1.Has S E e.2) ↔ ∀ n ∈ ns, Cone.Admits S E .exp (value n) := by
  have hcols : (ns.map value).map Matrix.cols = ns.map fun n => n.shape.cols := by
    rw [List.map_map]
    exact List.map_congr_left fun n hn => congrArg Shape.cols (hshape n hn)
  have hthree : ∀ m ∈ ns.map value, m.rows = 3 := by
    intro m hm
    obtain ⟨n, hn, rfl⟩ := List.mem_map.mp hm
    exact (congrArg Shape.rows (hshape n hn)).trans (hrows n hn)
  have hflat : (ns.flatMap fun n => (value n).vec) = (ns.map value).flatMap Matrix.vec := by
    rw [List.flatMap_map]
  rw [← hcols, hflat, exponential_pieces hthree, List.forall_mem_map]
  rfl

/-- The entries of the members of a cone are in the solver's cones when the values of the members are what the
cone asks of them. -/
theorem conesOf_pieces {members : ByCone (List (Node α))} (c : Cone)
    (hcols : ∀ n ∈ members.soc, n.shape.cols = 1) (hrows : ∀ n ∈ members.exp, n.shape.rows = 3)
    (hshape : ∀ n ∈ members.get c, (value n).shape = n.shape) :
    (∀ e ∈ pieces (conesOf members c) ((members.get c).flatMap fun n => c.signed (value n).vec), e.1.Has S E e.2) ↔
      ∀ n ∈ members.get c, c.Admits S E (value n) := by
  have hlen : ((members.get c).flatMap fun n => c.signed (value n).vec).length =
      total ((members.get c).map Node.size) :=
    length_flatMap_eq fun n hn => c.length_signed_vec (hshape n hn)
  cases c with
  | eq =>
    have hoptional : conesOf members .eq = optional .zero (total ((members.get .eq).map Node.size)) := rfl
    rw [hoptional, ← hlen, has_of_optional (fun _ => rfl) fun _ _ => Iff.rfl, List.forall_mem_flatMap]
    exact forall₂_congr fun n _ => Cone.forall_mem_signed_eq (value n)
  | leq =>
    have hoptional : conesOf members .leq = optional .nonnegative (total ((members.get .leq).map Node.size)) := rfl
    rw [hoptional, ← hlen, has_of_optional (fun _ => rfl) fun _ _ => Iff.rfl, List.forall_mem_flatMap]
    exact forall₂_congr fun n _ => Cone.forall_mem_signed_leq (value n)
  | soc => exact second_order_pieces hcols hshape
  | exp => exact exponential_members hrows hshape

variable {objective : Node α} {constraints : List (Node α)} {ms : List (Cone × Node α)}

/-- Along the cones of a layout its entries fall into pieces, which are in their cones when the values of the
members are what the cones ask of them. -/
theorem pieces_entriesBy (hl : l.IsOf objective constraints ms)
    (hshape : ∀ c, ∀ n ∈ l.members.get c, (value n).shape = n.shape)
    (htriples : ∀ n ∈ l.members.exp, n.shape.rows = 3) :
    total ((cones l.coneDims).map SolverCone.rows) = l.height ∧
      ((∀ e ∈ pieces (cones l.coneDims) (l.entriesBy fun c n => c.signed (value n).vec), e.1.Has S E e.2) ↔
        ∀ c, ∀ n ∈ l.members.get c, c.Admits S E (value n)) := by
  have hsize : ∀ c, ∀ n ∈ l.members.get c, (c.signed (value n).vec).length = n.size :=
    fun c n hn => c.length_signed_vec (hshape c n hn)
  have hlen : ∀ c ∈ Cone.all, ((l.members.get c).flatMap fun n => c.signed (value n).vec).length =
      total ((conesOf l.members c).map SolverCone.rows) := by
    intro c _
    rw [length_flatMap_eq (hsize c), total_rows_conesOf htriples]
  rw [cones_coneDims hl.sizes htriples]
  constructor
  · rw [← Layout.length_entriesBy hl hsize, Layout.entriesBy, length_flatMap_eq hlen]
    simp only [Cone.all, List.flatMap_cons, List.flatMap_nil, List.map_append, total_append, List.map_cons,
      List.map_nil, total_cons, total_nil]
  · rw [Layout.entriesBy, pieces_flatMap hlen, List.forall_mem_flatMap]
    constructor
    · exact fun h c => (conesOf_pieces c hl.sizes.column htriples (hshape c)).mp (h c (Cone.mem_all c))
    · exact fun h c _ => (conesOf_pieces c hl.sizes.column htriples (hshape c)).mpr (h c)

end Clarabel

section

variable {α : Type} [Field α] [LinearOrder α] [IsStrictOrderedRing α] [OfDouble α] [BEq α]
  {objective : Node α} {constraints : List (Node α)} {l : Layout α} {sense : Sense} {p : Program α}

/-- What Clarabel is asked at a point: the slack is used up by the cones, and its pieces are in them exactly
when every constraint holds of the values of its expression. -/
theorem pieces_in_cones_iff (h : Accepted sense objective constraints l p) (x : Int → Matrix α)
    (hx : ∀ e ∈ l.shapes, (x e.1).shape = e.2) (S E : List α → Prop) :
    total ((Clarabel.cones p.dims).map Clarabel.SolverCone.rows) = p.height ∧
      (∀ n ∈ constraints, ∀ child ∈ n.children, ∀ f, child.Denotes f → child.value x = f x) ∧
      ∃ s, p.slack (l.pack (l.shapes.map fun e => (e.1, x e.1))) = .ok s ∧ s.length = p.height ∧
        ((∀ e ∈ Clarabel.pieces (Clarabel.cones p.dims) s, e.1.Has S E e.2) ↔
          ∀ n ∈ constraints, ∃ c child, n.kind.cone? = some c ∧ n.children = [child] ∧
            c.Admits S E (child.value x)) := by
  obtain ⟨ms, hms⟩ := h.exists_isOf
  obtain ⟨vs, hvs⟩ := h.orders
  have hagrees := h.agrees (Layout.pack_reads hvs hx)
  have hshape : ∀ c, ∀ n ∈ l.members.get c, (n.value x).shape = n.shape := fun c n hn => hagrees.shape_eq hn
  obtain ⟨hrows, hiff⟩ := Clarabel.pieces_entriesBy (S := S) (E := E) hms hshape hagrees.triples
  have hsize : ∀ c, ∀ n ∈ l.members.get c, (c.signed (n.value x).vec).length = n.size :=
    fun c n hn => c.length_signed_vec (hshape c n hn)
  have hheight : p.height = l.height := h.fits.rows_eq
  rw [hagrees.dims_eq, hheight]
  refine ⟨hrows, fun n hn child hchild f hf => hagrees.value_eq hms hn hchild hf, _,
    Program.slack_eq hagrees.leaves, Layout.length_entriesBy hms hsize, hiff.trans ?_⟩
  constructor
  · intro h n hn
    obtain ⟨m, hm, hasks⟩ := exists_right_of_forall₂ hms.asks hn
    exact ⟨m.1, m.2, hasks.1, hasks.2, h m.1 m.2 (hms.mem_members.mpr hm)⟩
  · intro h c n hn
    obtain ⟨k, hk, hasks⟩ := hms.exists_asks hn
    obtain ⟨d, child, hd, hchild, hadmits⟩ := h k hk
    obtain rfl : c = d := Option.some.inj (hasks.1.symm.trans hd)
    obtain rfl : n = child := (List.cons.inj (hasks.2.symm.trans hchild)).1
    exact hadmits

end

namespace Sample

/-- A level and a pair without height. -/
def origin (id : Int) : Matrix ℚ := if id = 3 then Matrix.zeros 2 1 else Matrix.zeros 1 1

theorem origin_shape : ∀ e ∈ layout.shapes, (origin e.1).shape = e.2 := by
  simp only [layout, List.mem_cons, List.not_mem_nil, or_false]
  rintro e (rfl | rfl)
  · rfl
  · rfl

/-- The second-order cone of rational columns. -/
def SecondOrder (x : List ℚ) : Prop := 0 ≤ x.headD 0 ∧ (x.tail.map fun a => a * a).sum ≤ x.headD 0 * x.headD 0

/-- The part of the exponential cone whose second entry is zero. -/
def Exponential (x : List ℚ) : Prop := x.getD 0 0 ≤ 0 ∧ x.getD 1 0 = 0 ∧ 0 ≤ x.getD 2 0

end Sample

theorem pieces_in_cones_origin : ∃ p s, Program.assemble .maximize Sample.cost Sample.layout = .ok p ∧
    p.slack (Sample.layout.pack (Sample.layout.shapes.map fun e => (e.1, Sample.origin e.1))) = .ok s ∧
    ∀ e ∈ Clarabel.pieces (Clarabel.cones p.dims) s, e.1.Has Sample.SecondOrder Sample.Exponential e.2 := by
  obtain ⟨p, h⟩ := Sample.exists_accepted
  obtain ⟨_, _, s, hs, _, hiff⟩ := pieces_in_cones_iff h Sample.origin Sample.origin_shape Sample.SecondOrder
    Sample.Exponential
  refine ⟨p, s, h.assembled, hs, hiff.mpr ?_⟩
  simp only [Sample.constraints, List.mem_cons, List.not_mem_nil, or_false]
  rintro n (rfl | rfl | rfl | rfl)
  · refine ⟨.leq, Sample.pair, rfl, rfl, ?_⟩
    unfold Cone.Admits
    decide +kernel
  · refine ⟨.soc, Sample.column, rfl, rfl, ?_⟩
    unfold Cone.Admits Sample.SecondOrder
    decide +kernel
  · refine ⟨.exp, Sample.column, rfl, rfl, ?_⟩
    unfold Cone.Admits Sample.Exponential
    decide +kernel
  · refine ⟨.eq, Sample.level, rfl, rfl, ?_⟩
    unfold Cone.Admits
    decide +kernel

end ConicForm
