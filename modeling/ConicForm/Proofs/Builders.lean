import ConicForm.Node.Build
import ConicForm.Proofs.Constants
import ConicForm.Proofs.Slices

/-!
# What builders state

`Node.Denotes` relates each node that the builders make to the value that it states, as mathematics, of
their arguments: of constants as they are read, and of indices as they are given. The theorems after it say
which node a builder's call has made.
-/

namespace ConicForm

/-! Shapes as values -/

namespace Shape

theorem dimension_eq_ok {axis n : Nat} {v : Value} (h : dimension axis v = .ok n) :
    ∃ k, v.index? = some k ∧ 0 < k ∧ n = k.toNat := by
  unfold dimension at h
  split at h
  · next k hk =>
    split at h
    · next hpos => exact ⟨k, hk, hpos, (Except.ok.inj h).symm⟩
    · cases h
  · cases h

/-- A shape that a value states, and that of a node that is made, has an entry. -/
def IsPositive (s : Shape) : Prop := 0 < s.rows ∧ 0 < s.cols

theorem dimension_pos {axis n : Nat} {v : Value} (h : dimension axis v = .ok n) : 0 < n := by
  obtain ⟨k, _, hk, rfl⟩ := dimension_eq_ok h
  omega

theorem pair_pos {a b : Value} {s : Shape}
    (h : (do return ⟨← dimension 0 a, ← dimension 1 b⟩ : Result Shape) = .ok s) : s.IsPositive := by
  obtain ⟨r, hr, h⟩ := bind_eq_ok.mp h
  obtain ⟨c, hc, h⟩ := bind_eq_ok.mp h
  obtain rfl := Except.ok.inj h
  exact ⟨dimension_pos hr, dimension_pos hc⟩

theorem ofValue_pos {s : Shape} {v : Value} (h : ofValue v = .ok s) : s.IsPositive := by
  simp only [ofValue] at h
  split at h
  · split at h
    · exact pair_pos h
    · cases h
  · split at h
    · exact pair_pos h
    · cases h
  · cases h

theorem ofValue_toValue {s t : Shape} (h : ofValue s.toValue = .ok t) : t = s := by
  have h : (do return ⟨← dimension 0 (.int s.rows), ← dimension 1 (.int s.cols)⟩ : Result Shape) =
    .ok t := h
  obtain ⟨r, hr, h⟩ := bind_eq_ok.mp h
  obtain ⟨c, hc, h⟩ := bind_eq_ok.mp h
  obtain ⟨p, hp, _, rfl⟩ := dimension_eq_ok hr
  obtain ⟨q, hq, _, rfl⟩ := dimension_eq_ok hc
  obtain rfl : (s.rows : Int) = p := Option.some.inj hp
  obtain rfl : (s.cols : Int) = q := Option.some.inj hq
  exact (Except.ok.inj h).symm

theorem dimension_eq {axis : Nat} {v : Value} {k : Int} (h : v.index? = some k) (hk : 0 < k) :
    dimension axis v = .ok k.toNat := by
  rw [dimension, h]
  exact if_pos hk

/-- A sequence of two positive integers states a shape. -/
theorem ofValue_pair {a b v : Value} {r c : Int} (ha : a.index? = some r) (hb : b.index? = some c) (hr : 0 < r)
    (hc : 0 < c) (hv : v ∈ [Value.tuple [a, b], .list [a, b]]) : ofValue v = .ok ⟨r.toNat, c.toNat⟩ := by
  have hpair : (do return ⟨← dimension 0 a, ← dimension 1 b⟩ : Result Shape) = .ok ⟨r.toNat, c.toNat⟩ := by
    rw [dimension_eq ha hr, dimension_eq hb hc]
    rfl
  rcases List.mem_pair.mp hv with rfl | rfl
  · exact hpair
  · exact hpair

theorem ofValue_toValue_of_pos {s : Shape} (h : s.IsPositive) : ofValue s.toValue = .ok s := by
  obtain ⟨r, c⟩ := s
  obtain ⟨hr, hc⟩ := h
  simp only at hr hc
  exact ofValue_pair (a := .int r) (b := .int c) rfl rfl (by omega) (by omega) List.mem_cons_self

theorem equal_toValue (s t : Shape) : s.toValue.equal t.toValue = .ok (decide (s = t)) := by
  obtain ⟨r, c⟩ := s
  obtain ⟨r', c'⟩ := t
  have hatom : ∀ m n : Nat, Value.atomEqual (.int m) (.int n) = decide (m = n) := by
    intro m n
    simp only [Value.atomEqual, Value.integral?]
    by_cases h : m = n <;> simp [h]
  simp only [toValue, Value.equal, Value.equalAll, hatom]
  by_cases hr : r = r' <;> by_cases hc : c = c' <;> simp [hr, hc, bind, Except.bind, pure, Except.pure]

theorem requireEqual_toValue {s t : Shape} (h : requireEqual s.toValue t.toValue = .ok ()) : s = t := by
  have h : (do if ← s.toValue.equal t.toValue then return () else
      throw (.shapesDiffer s.toValue t.toValue) : Result Unit) = .ok () := h
  rw [equal_toValue] at h
  by_contra hne
  rw [decide_eq_false hne] at h
  cases h

theorem ofProduct_toValue {s t : Shape} {p : Value × Value}
    (h : ofProduct s.toValue t.toValue = .ok p) :
    s.cols = t.rows ∧ p = (.int s.rows, .int t.cols) := by
  have h : (do if ← (Value.int s.cols).equal (.int t.rows) then return (.int s.rows, .int t.cols) else
      throw (.innerDimensionsDiffer s.toValue t.toValue (.int s.cols) (.int t.rows)) :
        Result (Value × Value)) = .ok p := h
  simp only [Value.equal, Value.atomEqual, Value.integral?] at h
  by_cases hd : s.cols = t.rows
  · have hb : ((s.cols : Int) == (t.rows : Int)) = true := by simp [hd]
    rw [hb] at h
    exact ⟨hd, (Except.ok.inj h).symm⟩
  · have hb : ((s.cols : Int) == (t.rows : Int)) = false := by simpa using hd
    rw [hb] at h
    cases h

end Shape

theorem Slice.Selects.selection_eq {s : Slice} {key : Value} {length : Nat} (h : s.Selects key length) :
    s.selection length = chosen key length := by rw [selection, h.positions_eq]

/-- A pair of integers, as a tuple or as a list. -/
def Value.IsIntPair (v : Value) : Prop :=
  ∃ m n, v = .tuple [.int m, .int n] ∨ v = .list [.int m, .int n]

namespace Node

variable {α : Type}

/-! Expressions and their values -/

section denotes

variable [Zero α] [Add α] [Neg α] [Mul α] [Div α] [BEq α] [OfDouble α]

/-- A node that builders made of nodes that they made, and the value that it states where each variable has
a matrix. A constraint states none. -/
inductive Denotes : Node α → ((Int → Matrix α) → Matrix α) → Prop
  | leaf {ident : Nat} {id : Int} {shape : Value} {n : Node α}
      (h : ofVariable ident (.int id) shape = .ok n) : Denotes n fun v => v id
  | scalarConst {ident : Nat} {c : α} {n : Node α} (h : scalarConst ident c = .ok n) :
      Denotes n fun _ => Matrix.const 1 1 c
  | denseConst {ident : Nat} {a : Numbers α} {n : Node α} (h : denseConst ident a = .ok n) :
      Denotes n fun _ => a.reading false
  | parameter {ident : Nat} {a : Numbers α} {n : Node α} (h : parameter ident a = .ok n) :
      Denotes n fun _ => a.reading false
  | sum {ident : Nat} {xs : List (Node α)} {n : Node α} {f : Node α → (Int → Matrix α) → Matrix α}
      (hx : ∀ x ∈ xs, Denotes x (f x)) (h : Node.sum ident xs = .ok n) :
      Denotes n fun v => Matrix.sumOf n.shape (xs.map fun x => f x v)
  | neg {ident : Nat} {x n : Node α} {f : (Int → Matrix α) → Matrix α}
      (hx : Denotes x f) (h : neg ident x = .ok n) : Denotes n fun v => (f v).map Neg.neg
  | mul {ident : Nat} {a : Numbers α} {x n : Node α} {f : (Int → Matrix α) → Matrix α}
      (hx : Denotes x f) (h : mul ident a x = .ok n) :
      Denotes n fun v => (a.reading true).scaledLeft (f v)
  | rmul {ident : Nat} {a : Numbers α} {x n : Node α} {f : (Int → Matrix α) → Matrix α}
      (hx : Denotes x f) (h : rmul ident x a = .ok n) :
      Denotes n fun v => (f v).scaledRight (a.reading false)
  | mulElem {ident : Nat} {a : Numbers α} {x n : Node α} {f : (Int → Matrix α) → Matrix α}
      (hx : Denotes x f) (h : mulElem ident a x = .ok n) :
      Denotes n fun v => (a.reading false).weighted (f v)
  | div {ident : Nat} {d : α} {x n : Node α} {f : (Int → Matrix α) → Matrix α}
      (hx : Denotes x f) (h : div ident x d = .ok n) : Denotes n fun v => (f v).map (· / d)
  | promote {ident : Nat} {shape : Value} {x n : Node α} {f : (Int → Matrix α) → Matrix α}
      (hx : Denotes x f) (hs : shape.IsIntPair) (h : promote ident x shape = .ok n) :
      Denotes n fun v => Matrix.const n.shape.rows n.shape.cols ((f v).get 0 0)
  | index {ident : Nat} {rows cols : Value} {x n : Node α} {f : (Int → Matrix α) → Matrix α}
      (hx : Denotes x f) (h : index ident x rows cols = .ok n) :
      Denotes n fun v => (f v).submatrix (Slice.chosen rows x.shape.rows) (Slice.chosen cols x.shape.cols)
  | transpose {ident : Nat} {x n : Node α} {f : (Int → Matrix α) → Matrix α}
      (hx : Denotes x f) (h : transpose ident x = .ok n) : Denotes n fun v => (f v).transposed
  | sumEntries {ident : Nat} {x n : Node α} {f : (Int → Matrix α) → Matrix α}
      (hx : Denotes x f) (h : sumEntries ident x = .ok n) :
      Denotes n fun v => Matrix.const 1 1 (f v).sumEntries
  | trace {ident : Nat} {x n : Node α} {f : (Int → Matrix α) → Matrix α}
      (hx : Denotes x f) (h : trace ident x = .ok n) :
      Denotes n fun v => Matrix.const 1 1 (f v).diagonal.sum
  | reshape {ident : Nat} {shape : Value} {x n : Node α} {f : (Int → Matrix α) → Matrix α}
      (hx : Denotes x f) (hs : shape.IsIntPair) (h : reshape ident x shape = .ok n) :
      Denotes n fun v => Matrix.ofVec n.shape.rows n.shape.cols (f v).vec
  | hstack {ident : Nat} {xs : List (Node α)} {n : Node α} {f : Node α → (Int → Matrix α) → Matrix α}
      (hx : ∀ x ∈ xs, Denotes x (f x)) (h : hstack ident xs = .ok n) :
      Denotes n fun v => Matrix.sideBySide n.shape.rows (xs.map fun x => f x v)
  | vstack {ident : Nat} {xs : List (Node α)} {n : Node α} {f : Node α → (Int → Matrix α) → Matrix α}
      (hx : ∀ x ∈ xs, Denotes x (f x)) (h : vstack ident xs = .ok n) :
      Denotes n fun v => Matrix.stack n.shape.cols (xs.map fun x => f x v)
  | noOp {ident : Nat} {x n : Node α} {f : (Int → Matrix α) → Matrix α}
      (hx : Denotes x f) (h : noOp ident x = .ok n) : Denotes n f
  | constraint {ident : Nat} {build : Nat → Node α → Result (Node α)} {x n : Node α}
      {f : (Int → Matrix α) → Matrix α} (hx : Denotes x f)
      (hb : build ∈ [eq, leq, soc, exp, sdp]) (h : build ident x = .ok n) :
      Denotes n fun _ => Matrix.zeros 0 0

/-- A node made with builders only. -/
def Built (n : Node α) : Prop := ∃ f, n.Denotes f

theorem Built.sum {ident : Nat} {n : Node α} {xs : List (Node α)} (hx : ∀ x ∈ xs, x.Built)
    (h : Node.sum ident xs = .ok n) : n.Built := by
  choose! f hf using hx
  exact ⟨_, .sum hf h⟩

theorem Built.vstack {ident : Nat} {n : Node α} {xs : List (Node α)} (hx : ∀ x ∈ xs, x.Built)
    (h : Node.vstack ident xs = .ok n) : n.Built := by
  choose! f hf using hx
  exact ⟨_, .vstack hf h⟩

theorem Built.constraint {ident : Nat} {build : Nat → Node α → Result (Node α)} {x n : Node α} (hx : x.Built)
    (hbuild : build ∈ [eq, leq, soc, exp, sdp]) (h : build ident x = .ok n) : n.Built :=
  ⟨_, .constraint hx.choose_spec hbuild h⟩

end denotes

/-! The nodes made -/

section made

variable {ident : Nat} {kind : Kind} {children xs : List (Node α)} {data : Payload α} {x n : Node α}

theorem width_of_not_foreign (h : n.kind.isForeign = false) : n.width = .ok n.size := by
  rw [width, h]
  rfl

theorem make_eq_ok {shape : Value} (h : make ident kind shape children data = .ok n) :
    ∃ s, Shape.ofValue shape = .ok s ∧ n = ⟨ident, kind, s, children, data⟩ := by
  obtain ⟨s, hs, h⟩ := bind_eq_ok.mp h
  exact ⟨s, hs, (Except.ok.inj h).symm⟩

theorem make_toValue {s : Shape} (h : make ident kind s.toValue children data = .ok n) :
    n = ⟨ident, kind, s, children, data⟩ := by
  obtain ⟨t, ht, rfl⟩ := make_eq_ok h
  rw [Shape.ofValue_toValue ht]

theorem make_of_pos {s : Shape} (h : s.IsPositive) :
    make ident kind s.toValue children data = .ok ⟨ident, kind, s, children, data⟩ := by
  rw [make, Shape.ofValue_toValue_of_pos h]
  rfl

theorem make_pos {shape : Value} (h : make ident kind shape children data = .ok n) : n.shape.IsPositive := by
  obtain ⟨s, hs, rfl⟩ := make_eq_ok h
  exact Shape.ofValue_pos hs

theorem plain_eq_ok {s : Shape} (h : plain ident kind s children = .ok n) :
    n = ⟨ident, kind, s, children, .loose .none⟩ := make_toValue h

theorem forM_eq_ok {f : Node α → Result Unit} (h : xs.forM f = .ok ()) : ∀ t ∈ xs, f t = .ok () := by
  induction xs with
  | nil => exact List.forall_mem_nil _
  | cons a xs ih =>
    have h : (f a >>= fun _ => xs.forM f) = .ok () := h
    obtain ⟨u, hu, h⟩ := bind_eq_ok.mp h
    intro t ht
    rcases List.mem_cons.mp ht with rfl | ht
    · exact hu
    · exact ih h t ht

theorem sum_eq_ok (h : Node.sum ident xs = .ok n) : xs ≠ [] ∧ (∀ t ∈ xs, t.shape = n.shape) ∧
    n = ⟨ident, .sum, n.shape, xs, .loose .none⟩ := by
  cases xs with
  | nil => cases h
  | cons first rest =>
    obtain ⟨u, hu, h⟩ := bind_eq_ok.mp h
    obtain rfl := plain_eq_ok h
    refine ⟨List.cons_ne_nil _ _, fun t ht => ?_, rfl⟩
    rcases List.mem_cons.mp ht with rfl | ht
    · rfl
    · exact (Shape.requireEqual_toValue (forM_eq_ok hu t ht)).symm

theorem hstack_eq_ok (h : hstack ident xs = .ok n) : xs ≠ [] ∧ (∀ t ∈ xs, t.shape.rows = n.shape.rows) ∧
    n.shape.cols = total (xs.map fun t => t.shape.cols) ∧
    n = ⟨ident, .hstack, n.shape, xs, .loose .none⟩ := by
  cases xs with
  | nil => cases h
  | cons first rest =>
    obtain ⟨u, hu, h⟩ := bind_eq_ok.mp h
    obtain rfl := plain_eq_ok h
    refine ⟨List.cons_ne_nil _ _, fun t ht => ?_, rfl, rfl⟩
    rcases List.mem_cons.mp ht with rfl | ht
    · rfl
    · have ht := forM_eq_ok hu t ht
      split at ht
      · next he => exact he
      · cases ht

theorem vstack_eq_ok (h : vstack ident xs = .ok n) : xs ≠ [] ∧ (∀ t ∈ xs, t.shape.cols = n.shape.cols) ∧
    n.shape.rows = total (xs.map fun t => t.shape.rows) ∧
    n = ⟨ident, .vstack, n.shape, xs, .loose .none⟩ := by
  cases xs with
  | nil => cases h
  | cons first rest =>
    obtain ⟨u, hu, h⟩ := bind_eq_ok.mp h
    obtain rfl := plain_eq_ok h
    refine ⟨List.cons_ne_nil _ _, fun t ht => ?_, rfl, rfl⟩
    rcases List.mem_cons.mp ht with rfl | ht
    · rfl
    · have ht := forM_eq_ok hu t ht
      split at ht
      · next he => exact he
      · cases ht

theorem trace_eq_ok (h : trace ident x = .ok n) : n = ⟨ident, .trace, .scalar, [x], .loose .none⟩ := by
  rw [trace] at h
  split at h
  · exact plain_eq_ok h
  · cases h

theorem promote_eq_ok {shape : Value} (h : promote ident x shape = .ok n) :
    x.shape = Shape.scalar ∧ n = ⟨ident, .promote, n.shape, [x], .loose .none⟩ := by
  rw [promote] at h
  split at h
  · next hs =>
    obtain ⟨s, _, rfl⟩ := make_eq_ok h
    obtain ⟨hr, hc⟩ : x.shape.rows = 1 ∧ x.shape.cols = 1 := by simpa [Shape.isScalar] using hs
    refine ⟨?_, rfl⟩
    rw [Shape.scalar, ← hr]
    cases hx : x.shape
    simp_all
  · cases h

theorem div_eq_ok [Zero α] [BEq α] {d : α} (h : div ident x d = .ok n) :
    n = ⟨ident, .div, x.shape, [x], .scalar d⟩ := by
  rw [div] at h
  split at h
  · cases h
  · exact make_toValue h

theorem index_eq_ok_slices {rows cols : Value} (h : index ident x rows cols = .ok n) :
    ∃ r c, Slice.ofKey rows x.shape.rows = .ok r ∧ Slice.ofKey cols x.shape.cols = .ok c ∧
      n = ⟨ident, .index, ⟨(Slice.chosen rows x.shape.rows).length, (Slice.chosen cols x.shape.cols).length⟩,
        [x], .selection r c⟩ := by
  obtain ⟨r, hr, h⟩ := bind_eq_ok.mp h
  obtain ⟨c, hc, h⟩ := bind_eq_ok.mp h
  obtain ⟨sr, hsr, h⟩ := bind_eq_ok.mp h
  obtain ⟨height, hh, h⟩ := bind_eq_ok.mp h
  obtain ⟨sc, hsc, h⟩ := bind_eq_ok.mp h
  obtain ⟨width, hw, h⟩ := bind_eq_ok.mp h
  have hheight : height = (Slice.chosen rows x.shape.rows).length :=
    (Slice.ofKey_selects hr).length_eq (bind_eq_ok.mpr ⟨sr, hsr, hh⟩)
  have hwidth : width = (Slice.chosen cols x.shape.cols).length :=
    (Slice.ofKey_selects hc).length_eq (bind_eq_ok.mpr ⟨sc, hsc, hw⟩)
  subst hheight hwidth
  exact ⟨r, c, hr, hc, make_toValue h⟩

theorem index_eq_ok {rows cols : Value} (h : index ident x rows cols = .ok n) :
    ∃ r c, r.Selects rows x.shape.rows ∧ c.Selects cols x.shape.cols ∧
      n = ⟨ident, .index, ⟨(Slice.chosen rows x.shape.rows).length, (Slice.chosen cols x.shape.cols).length⟩,
        [x], .selection r c⟩ := by
  obtain ⟨r, c, hr, hc, hn⟩ := index_eq_ok_slices h
  exact ⟨r, c, Slice.ofKey_selects hr, Slice.ofKey_selects hc, hn⟩

theorem reshape_eq_ok {shape : Value} (hs : shape.IsIntPair) (h : reshape ident x shape = .ok n) :
    n.size = x.size ∧ n = ⟨ident, .reshape, n.shape, [x], .loose .none⟩ := by
  obtain ⟨s, hshape, h⟩ := bind_eq_ok.mp h
  obtain ⟨wanted, hwanted, h⟩ := bind_eq_ok.mp h
  obtain ⟨size, hsize, h⟩ := bind_eq_ok.mp h
  obtain ⟨b, hb, h⟩ := bind_eq_ok.mp h
  have hx : size = x.size := by
    rw [width] at hsize
    split at hsize
    · cases hsize
    · exact (Except.ok.inj hsize).symm
  obtain ⟨p, q, hpq⟩ := hs
  have harea : Shape.area shape = .ok (.int (p * q)) := by rcases hpq with rfl | rfl <;> rfl
  have hdims : 0 < p ∧ 0 < q ∧ s = ⟨p.toNat, q.toNat⟩ := by
    have hpair : (do return ⟨← Shape.dimension 0 (.int p), ← Shape.dimension 1 (.int q)⟩ : Result Shape) =
        .ok s := by rcases hpq with rfl | rfl <;> exact hshape
    obtain ⟨r, hr, hpair⟩ := bind_eq_ok.mp hpair
    obtain ⟨c, hc, hpair⟩ := bind_eq_ok.mp hpair
    obtain ⟨p', hp', hp, rfl⟩ := Shape.dimension_eq_ok hr
    obtain ⟨q', hq', hq, rfl⟩ := Shape.dimension_eq_ok hc
    obtain rfl : p = p' := Option.some.inj hp'
    obtain rfl : q = q' := Option.some.inj hq'
    exact ⟨hp, hq, (Except.ok.inj hpair).symm⟩
  obtain ⟨hp, hq, rfl⟩ := hdims
  obtain rfl : .int (p * q) = wanted := Except.ok.inj (harea.symm.trans hwanted)
  cases b with
  | false =>
    obtain ⟨_, _, h⟩ := bind_eq_ok.mp h
    cases h
  | true =>
    obtain ⟨t, ht, rfl⟩ := make_eq_ok h
    obtain rfl : _ = t := Except.ok.inj (hshape.symm.trans ht)
    refine ⟨?_, rfl⟩
    have hb : (p * q == (size : Int)) = true := Except.ok.inj hb
    have hpq : p * q = (size : Int) := by simpa using hb
    have hn : (p.toNat * q.toNat : Int) = (x.size : Int) := by
      rw [Int.toNat_of_nonneg hp.le, Int.toNat_of_nonneg hq.le, hpq, hx]
    exact_mod_cast hn

theorem constraint_eq_ok {build : Nat → Node α → Result (Node α)} (hb : build ∈ [eq, leq, soc, exp, sdp])
    (h : build ident x = .ok n) :
    ∃ kind, kind.isConstraint ∧ n = ⟨ident, kind, x.shape, [x], .loose .none⟩ := by
  simp only [List.mem_cons, List.not_mem_nil, or_false] at hb
  rcases hb with rfl | rfl | rfl | rfl | rfl
  · exact ⟨.eq, rfl, plain_eq_ok h⟩
  · exact ⟨.leq, rfl, plain_eq_ok h⟩
  · exact ⟨.soc, rfl, plain_eq_ok h⟩
  · exact ⟨.exp, rfl, plain_eq_ok h⟩
  · exact ⟨.sdp, rfl, plain_eq_ok h⟩

/-! Constants -/

variable [Zero α] [OfDouble α] {a : Numbers α}

theorem constant_eq_ok {m : Numbers α} (hm : a.asConstant false = .ok m)
    (h : make ident kind m.shapeValue [] (.array m) = .ok n) :
    (∃ r c, m.dims = [r, c]) ∧ m.matrix = a.reading false ∧ n = ⟨ident, kind, m.shape, [], .array m⟩ := by
  obtain ⟨⟨r, c, hd⟩, hmat⟩ := Numbers.asConstant_eq hm
  rw [Numbers.shapeValue_eq hd, ← Numbers.shape_eq hd] at h
  exact ⟨⟨r, c, hd⟩, hmat, make_toValue h⟩

theorem denseConst_eq_ok (h : denseConst ident a = .ok n) : ∃ m, (∃ r c, m.dims = [r, c]) ∧
    m.matrix = a.reading false ∧ n = ⟨ident, .denseConst, m.shape, [], .array m⟩ := by
  obtain ⟨m, hm, h⟩ := bind_eq_ok.mp h
  exact ⟨m, constant_eq_ok hm h⟩

theorem parameter_eq_ok (h : parameter ident a = .ok n) : ∃ m, (∃ r c, m.dims = [r, c]) ∧
    m.matrix = a.reading false ∧ n = ⟨ident, .param, m.shape, [], .array m⟩ := by
  obtain ⟨m, hm, h⟩ := bind_eq_ok.mp h
  exact ⟨m, constant_eq_ok hm h⟩

theorem mulElem_eq_ok (h : mulElem ident a x = .ok n) : ∃ m, (∃ r c, m.dims = [r, c]) ∧
    m.matrix = a.reading false ∧ m.shape = x.shape ∧
    n = ⟨ident, .mulElem, x.shape, [x], .array m⟩ := by
  obtain ⟨m, hm, h⟩ := bind_eq_ok.mp h
  obtain ⟨u, hu, h⟩ := bind_eq_ok.mp h
  obtain ⟨⟨r, c, hd⟩, hmat⟩ := Numbers.asConstant_eq hm
  rw [Numbers.shapeValue_eq hd, ← Numbers.shape_eq hd] at hu
  exact ⟨m, ⟨r, c, hd⟩, hmat, Shape.requireEqual_toValue hu, make_toValue h⟩

omit [Zero α] [OfDouble α] in
/-- The shape of a product: that of the expression if the constant scales, and otherwise the rows of the
left factor by the columns of the right one, whose inner dimensions agree. -/
theorem productShape_eq_ok {scales : Bool} {left right : Shape} {v : Value}
    (h : productShape scales x left right = .ok v) : ∃ s, v = s.toValue ∧
      (scales = true ∧ s = x.shape ∨
        scales = false ∧ left.cols = right.rows ∧ s = ⟨left.rows, right.cols⟩) := by
  cases scales with
  | true => exact ⟨x.shape, (Except.ok.inj h).symm, .inl ⟨rfl, rfl⟩⟩
  | false =>
    obtain ⟨p, hp, h⟩ := bind_eq_ok.mp h
    obtain ⟨hd, rfl⟩ := Shape.ofProduct_toValue hp
    exact ⟨⟨left.rows, right.cols⟩, (Except.ok.inj h).symm, .inr ⟨rfl, hd, rfl⟩⟩

theorem mul_eq_ok (h : mul ident a x = .ok n) : ∃ m, (∃ r c, m.dims = [r, c]) ∧
    m.matrix = a.reading true ∧ n = ⟨ident, .mul, n.shape, [x], .array m⟩ ∧
    (m.shape.isScalar = true ∧ n.shape = x.shape ∨
      m.shape.isScalar = false ∧ m.shape.cols = x.shape.rows ∧
        n.shape = ⟨m.shape.rows, x.shape.cols⟩) := by
  obtain ⟨m, hm, h⟩ := bind_eq_ok.mp h
  obtain ⟨v, hv, h⟩ := bind_eq_ok.mp h
  obtain ⟨hd, hmat⟩ := Numbers.asConstant_eq hm
  obtain ⟨s, rfl, hs⟩ := productShape_eq_ok hv
  obtain rfl := make_toValue h
  exact ⟨m, hd, hmat, rfl, hs⟩

theorem rmul_eq_ok (h : rmul ident x a = .ok n) : ∃ m, (∃ r c, m.dims = [r, c]) ∧
    m.matrix = a.reading false ∧ n = ⟨ident, .rmul, n.shape, [x], .array m⟩ ∧
    (m.shape.isScalar = true ∧ n.shape = x.shape ∨
      m.shape.isScalar = false ∧ x.shape.cols = m.shape.rows ∧
        n.shape = ⟨x.shape.rows, m.shape.cols⟩) := by
  obtain ⟨m, hm, h⟩ := bind_eq_ok.mp h
  obtain ⟨v, hv, h⟩ := bind_eq_ok.mp h
  obtain ⟨hd, hmat⟩ := Numbers.asConstant_eq hm
  obtain ⟨s, rfl, hs⟩ := productShape_eq_ok hv
  obtain rfl := make_toValue h
  exact ⟨m, hd, hmat, rfl, hs⟩

end made

/-! Shapes of what is made -/

/-- Whether whatever an attempt makes has an entry. -/
def Checked (r : Result (Node α)) : Prop := ∀ n, r = .ok n → n.shape.IsPositive

namespace Checked

variable {ident : Nat} {kind : Kind} {shape : Value} {children : List (Node α)} {data : Payload α}
  {r r' : Result (Node α)}

theorem make : Checked (make ident kind shape children data) := fun _ => make_pos

theorem error {e : Failure} : Checked (.error e : Result (Node α)) := by
  intro n h
  cases h

theorem bind {β : Type} {q : Result β} {g : β → Result (Node α)} (hg : ∀ a, Checked (g a)) : Checked (q >>= g) := by
  intro n h
  obtain ⟨a, _, h⟩ := bind_eq_ok.mp h
  exact hg a n h

theorem ite {c : Prop} [Decidable c] (hr : Checked r) (hr' : Checked r') : Checked (if c then r else r') := by
  split
  · exact hr
  · exact hr'

/-- The builders of several operands compare them with the first one before they make the node. -/
theorem combination {build : Nat → List (Node α) → Result (Node α)} (hb : build ∈ [Node.sum, hstack, vstack])
    (xs : List (Node α)) : Checked (build ident xs) := by
  simp only [List.mem_cons, List.not_mem_nil, or_false] at hb
  cases xs with
  | nil => rcases hb with rfl | rfl | rfl <;> exact error
  | cons x xs => rcases hb with rfl | rfl | rfl <;> exact bind fun _ => make

theorem constraint {build : Nat → Node α → Result (Node α)} (hb : build ∈ [eq, leq, soc, exp, sdp]) (x : Node α) :
    Checked (build ident x) := by
  simp only [List.mem_cons, List.not_mem_nil, or_false] at hb
  rcases hb with rfl | rfl | rfl | rfl | rfl <;> exact make

end Checked

/-- Whatever is built has an entry: every builder ends with the check of the shape. -/
theorem Built.shape_pos [Zero α] [Add α] [Neg α] [Mul α] [Div α] [BEq α] [OfDouble α] {n : Node α} (h : n.Built) :
    n.shape.IsPositive := by
  obtain ⟨f, h⟩ := h
  cases h with
  | leaf h | scalarConst h => exact make_pos h
  | neg _ h | transpose _ h | sumEntries _ h | noOp _ h => exact make_pos h
  | denseConst h | parameter h => exact Checked.bind (fun _ => .make) _ h
  | mul _ h | rmul _ h | mulElem _ h => exact Checked.bind (fun _ => .bind fun _ => .make) _ h
  | div _ h => exact Checked.ite .error .make _ h
  | promote _ _ h | trace _ h => exact Checked.ite .make .error _ h
  | index _ h =>
    exact Checked.bind (fun _ => .bind fun _ => .bind fun _ => .bind fun _ => .bind fun _ => .bind fun _ => .make) _ h
  | reshape _ _ h =>
    exact Checked.bind (fun _ => .bind fun _ => .bind fun _ => .bind fun _ => .ite .make (.bind fun _ => .error)) _ h
  | sum _ h | hstack _ h | vstack _ h => exact Checked.combination (by simp) _ _ h
  | constraint _ hb h => exact Checked.constraint hb _ _ h

end Node

end ConicForm
