import ConicForm.Proofs.Builders
import ConicForm.Proofs.ListRules
import ConicForm.Proofs.RuleImages

/-!
# Arrangements

A node that moves entries about shows at each place an entry of one of its children: `Node.Arranges` says which one,
from what the builder of the node was given. Nothing is shown from outside of a child, and all kinds but indices and
promotions show each entry of each child at exactly one place.
-/

namespace ConicForm

variable {α β : Type}

/-! Parts one after the other -/

/-- The part that a place falls into among parts of the given lengths, one after the other, and the place in it. -/
def locate : List Nat → Nat → Nat × Nat
  | [], i => (0, i)
  | n :: ns, i => if i < n then (0, i) else ((locate ns (i - n)).1 + 1, (locate ns (i - n)).2)

theorem total_take_locate (ns : List Nat) (i : Nat) : total (ns.take (locate ns i).1) + (locate ns i).2 = i := by
  induction ns generalizing i with
  | nil => exact Nat.zero_add i
  | cons n ns ih =>
    rw [locate]
    split
    · exact Nat.zero_add i
    · have hi := ih (i - n)
      rw [List.take_succ_cons, total_cons]
      omega

theorem locate_injective (ns : List Nat) : Function.Injective (locate ns) := by
  intro i j h
  rw [← total_take_locate ns i, h, total_take_locate]

section parts

variable {before after xs : List β} {x : β} {f : β → Nat} {q : Nat}

theorem locate_part (hq : q < f x) :
    locate ((before ++ x :: after).map f) (total (before.map f) + q) = (before.length, q) := by
  induction before with
  | nil =>
    rw [List.nil_append, List.map_nil, total_nil, Nat.zero_add, List.map_cons, locate, if_pos hq]
    rfl
  | cons y before ih =>
    rw [List.cons_append, List.map_cons, List.map_cons, total_cons, locate, if_neg (by omega), Nat.add_assoc,
      Nat.add_sub_cancel_left, ih]
    rfl

example : locate [2, 3] 3 = (1, 1) := rfl

theorem part_lt (hq : q < f x) : total (before.map f) + q < total ((before ++ x :: after).map f) := by
  rw [List.map_append, List.map_cons, total_append, total_cons]
  omega

theorem exists_part {i : Nat} (h : i < total (xs.map f)) :
    ∃ before x after q, xs = before ++ x :: after ∧ q < f x ∧ i = total (before.map f) + q := by
  induction xs generalizing i with
  | nil => exact absurd h (Nat.not_lt_zero i)
  | cons y xs ih =>
    rw [List.map_cons, total_cons] at h
    by_cases hi : i < f y
    · exact ⟨[], y, xs, i, rfl, hi, (Nat.zero_add i).symm⟩
    · obtain ⟨before, x, after, q, rfl, hq, he⟩ := ih (i := i - f y) (by omega)
      refine ⟨y :: before, x, after, q, rfl, hq, ?_⟩
      rw [List.map_cons, total_cons]
      omega

theorem eq_of_getElem?_singleton {y : β} {k : Nat} (h : [y][k]? = some x) : k = 0 ∧ y = x := by
  simpa [List.getElem?_singleton] using h

/-- The items before and after one of a list. -/
theorem exists_split_of_getElem? {k : Nat} (h : xs[k]? = some x) :
    ∃ before after, xs = before ++ x :: after ∧ before.length = k := by
  obtain ⟨hk, rfl⟩ := List.getElem?_eq_some_iff.mp h
  exact ⟨xs.take k, xs.drop (k + 1), by simp, List.length_take_of_le hk.le⟩

/-- A place in a part is that of one place in all of them. -/
theorem existsUnique_place {k : Nat} (hx : xs[k]? = some x) (hq : q < f x) :
    ∃! i, i < total (xs.map f) ∧ locate (xs.map f) i = (k, q) := by
  obtain ⟨before, after, rfl, rfl⟩ := exists_split_of_getElem? hx
  refine ⟨total (before.map f) + q, ⟨part_lt hq, locate_part hq⟩, fun i hi => ?_⟩
  exact locate_injective _ (hi.2.trans (locate_part hq).symm)

end parts

/-- An entry of matrices side by side that stands in one of them. -/
theorem Matrix.get_sideBySide_part [Zero α] {β : Type} {r : Nat} {before after : List β} {x : β} {f : β → Matrix α}
    {size : β → Nat} (h : ∀ y ∈ before ++ x :: after, (f y).rows = r ∧ (f y).cols = size y) (i : Nat) {q : Nat}
    (hq : q < size x) :
    (sideBySide r ((before ++ x :: after).map f)).get i (total (before.map size) + q) = (f x).get i q := by
  have hbeside : ∀ (y : β) ys, (∀ z ∈ y :: ys, (f z).rows = r ∧ (f z).cols = size z) → ∀ j,
      (sideBySide r ((y :: ys).map f)).get i j =
        if j < size y then (f y).get i j else (sideBySide r (ys.map f)).get i (j - size y) := by
    intro y ys hall j
    obtain ⟨⟨hy, hsize⟩, hys⟩ := List.forall_mem_cons.mp hall
    have hrows : (sideBySide r (ys.map f)).rows = r :=
      rows_sideBySide (List.forall_mem_map.mpr fun z hz => (hys z hz).1)
    rw [← hsize]
    exact get_beside (f y) _ (hy.trans hrows.symm) i j
  induction before with
  | nil => rw [List.nil_append, hbeside x after h, List.map_nil, total_nil, Nat.zero_add, if_pos hq]
  | cons y before ih =>
    have h : ∀ z ∈ y :: (before ++ x :: after), (f z).rows = r ∧ (f z).cols = size z := h
    rw [List.cons_append, hbeside y _ h, List.map_cons, total_cons, if_neg (by omega), Nat.add_assoc,
      Nat.add_sub_cancel_left]
    exact ih fun z hz => h z (List.mem_cons_of_mem y hz)

/-! Entries shown -/

/-- An entry of one of several matrices. -/
structure Spot where
  part : Nat
  row : Nat
  col : Nat
deriving DecidableEq, Repr

namespace Node

/-- Nodes that show, at each place, an entry of one of their children. -/
inductive Arranges : Node α → (Nat → Nat → Spot) → Prop
  | index {ident : Nat} {rows cols : Value} {x n : Node α} (h : index ident x rows cols = .ok n) :
      Arranges n fun i j => ⟨0, (Slice.chosen rows x.shape.rows).getD i 0, (Slice.chosen cols x.shape.cols).getD j 0⟩
  | transpose {ident : Nat} {x n : Node α} (h : transpose ident x = .ok n) : Arranges n fun i j => ⟨0, j, i⟩
  | promote {ident : Nat} {shape : Value} {x n : Node α} (hs : shape.IsIntPair) (h : promote ident x shape = .ok n) :
      Arranges n fun _ _ => ⟨0, 0, 0⟩
  | reshape {ident : Nat} {shape : Value} {x n : Node α} (hs : shape.IsIntPair) (h : reshape ident x shape = .ok n) :
      Arranges n fun i j => ⟨0, (j * n.shape.rows + i) % x.shape.rows, (j * n.shape.rows + i) / x.shape.rows⟩
  | noOp {ident : Nat} {x n : Node α} (h : noOp ident x = .ok n) : Arranges n fun i j => ⟨0, i, j⟩
  | hstack {ident : Nat} {xs : List (Node α)} {n : Node α} (h : hstack ident xs = .ok n) :
      Arranges n fun i j =>
        ⟨(locate (xs.map fun x => x.shape.cols) j).1, i, (locate (xs.map fun x => x.shape.cols) j).2⟩
  | vstack {ident : Nat} {xs : List (Node α)} {n : Node α} (h : vstack ident xs = .ok n) :
      Arranges n fun i j =>
        ⟨(locate (xs.map fun x => x.shape.rows) i).1, (locate (xs.map fun x => x.shape.rows) i).2, j⟩

namespace Arranges

variable {n : Node α} {shown : Nat → Nat → Spot}

/-- The nodes are indices, with the slices that stand for what they are given, or carry no data. -/
theorem index_or_plain (h : n.Arranges shown) :
    (∃ ident shape x r c, ∃ rows cols, r.Selects rows x.shape.rows ∧ c.Selects cols x.shape.cols ∧
      n = ⟨ident, .index, shape, [x], .selection r c⟩) ∨
    n.kind ∈ [.transpose, .promote, .reshape, .noOp, .hstack, .vstack] ∧ n.data = .loose .none := by
  cases h with
  | @index _ rows cols x _ h =>
    obtain ⟨r, c, hr, hc, hn⟩ := index_eq_ok h
    exact .inl ⟨_, _, x, r, c, rows, cols, hr, hc, hn⟩
  | transpose h =>
    obtain rfl := plain_eq_ok h
    exact .inr ⟨by simp, rfl⟩
  | promote hs h =>
    obtain ⟨_, hn⟩ := promote_eq_ok h
    exact .inr ⟨by rw [hn]; simp, by rw [hn]⟩
  | reshape hs h =>
    obtain ⟨_, hn⟩ := reshape_eq_ok hs h
    exact .inr ⟨by rw [hn]; simp, by rw [hn]⟩
  | noOp h =>
    obtain rfl := plain_eq_ok h
    exact .inr ⟨by simp, rfl⟩
  | hstack h =>
    obtain ⟨_, _, _, hn⟩ := hstack_eq_ok h
    exact .inr ⟨by rw [hn]; simp, by rw [hn]⟩
  | vstack h =>
    obtain ⟨_, _, _, hn⟩ := vstack_eq_ok h
    exact .inr ⟨by rw [hn]; simp, by rw [hn]⟩

theorem isExpression (h : n.Arranges shown) : n.kind.isExpression := by
  rcases h.index_or_plain with ⟨_, _, _, _, _, _, _, _, _, rfl⟩ | ⟨hk, _⟩
  · rfl
  · have hall : ∀ k ∈ [Kind.transpose, .promote, .reshape, .noOp, .hstack, .vstack], k.isExpression := by decide
    exact hall _ hk

/-- What is shown is an entry of a child. -/
theorem inside (h : n.Arranges shown) {i j : Nat} (hi : i < n.shape.rows) (hj : j < n.shape.cols) :
    ∃ x, n.children[(shown i j).part]? = some x ∧ (shown i j).row < x.shape.rows ∧ (shown i j).col < x.shape.cols := by
  cases h with
  | @index _ rows cols x _ h =>
    obtain ⟨r, c, hr, hc, rfl⟩ := index_eq_ok h
    have hmem : ∀ {ps : List Nat} {k : Nat}, k < ps.length → ps.getD k 0 ∈ ps := by
      intro ps k hk
      rw [List.getD_eq_getElem _ _ hk]
      exact List.getElem_mem hk
    exact ⟨x, rfl, hr.lt _ (hmem hi), hc.lt _ (hmem hj)⟩
  | @transpose _ x _ h =>
    obtain rfl := plain_eq_ok h
    exact ⟨x, rfl, hj, hi⟩
  | @promote _ _ x _ _ h =>
    obtain ⟨hx, hn⟩ := promote_eq_ok h
    refine ⟨x, by rw [hn]; rfl, ?_⟩
    rw [hx]
    exact ⟨Nat.one_pos, Nat.one_pos⟩
  | @reshape _ _ x _ hs h =>
    obtain ⟨hsize, hn⟩ := reshape_eq_ok hs h
    have hlt : j * n.shape.rows + i < x.size := hsize ▸ Grid.place_lt_size n.shape hi hj
    exact ⟨x, by rw [hn]; rfl, Matrix.place_lt_size hlt⟩
  | @noOp _ x _ h =>
    obtain rfl := plain_eq_ok h
    exact ⟨x, rfl, hi, hj⟩
  | @hstack _ xs _ h =>
    obtain ⟨_, hrows, hcols, hn⟩ := hstack_eq_ok h
    obtain ⟨before, x, after, q, rfl, hq, rfl⟩ := exists_part (hcols ▸ hj)
    simp only [locate_part (f := fun x : Node α => x.shape.cols) hq]
    exact ⟨x, by rw [hn]; simp, hrows x (by simp) ▸ hi, hq⟩
  | @vstack _ xs _ h =>
    obtain ⟨_, hcols, hrows, hn⟩ := vstack_eq_ok h
    obtain ⟨before, x, after, p, rfl, hp, rfl⟩ := exists_part (hrows ▸ hi)
    simp only [locate_part (f := fun x : Node α => x.shape.rows) hp]
    exact ⟨x, by rw [hn]; simp, hp, hcols x (by simp) ▸ hj⟩

/-- Each entry of each child is shown at one place, unless some are left out or repeated. -/
theorem existsUnique (h : n.Arranges shown) (hindex : n.kind ≠ .index) (hpromote : n.kind ≠ .promote) {x : Node α}
    {k p q : Nat} (hx : n.children[k]? = some x) (hp : p < x.shape.rows) (hq : q < x.shape.cols) :
    ∃! s : Nat × Nat, s.1 < n.shape.rows ∧ s.2 < n.shape.cols ∧ shown s.1 s.2 = ⟨k, p, q⟩ := by
  cases h with
  | index h =>
    obtain ⟨r, c, _, _, rfl⟩ := index_eq_ok h
    exact absurd rfl hindex
  | promote hs h =>
    obtain ⟨_, hn⟩ := promote_eq_ok h
    exact absurd (hn ▸ rfl) hpromote
  | @transpose _ y _ h =>
    obtain rfl := plain_eq_ok h
    obtain ⟨rfl, rfl⟩ := eq_of_getElem?_singleton (y := y) hx
    refine ⟨(q, p), ⟨hq, hp, rfl⟩, ?_⟩
    rintro ⟨i, j⟩ ⟨_, _, hs⟩
    obtain ⟨rfl, rfl⟩ : j = p ∧ i = q := by simpa using hs
    rfl
  | @noOp _ y _ h =>
    obtain rfl := plain_eq_ok h
    obtain ⟨rfl, rfl⟩ := eq_of_getElem?_singleton (y := y) hx
    refine ⟨(p, q), ⟨hp, hq, rfl⟩, ?_⟩
    rintro ⟨i, j⟩ ⟨_, _, hs⟩
    obtain ⟨rfl, rfl⟩ : i = p ∧ j = q := by simpa using hs
    rfl
  | @reshape _ _ y _ hs h =>
    obtain ⟨hsize, hn⟩ := reshape_eq_ok hs h
    obtain ⟨rfl, rfl⟩ := eq_of_getElem?_singleton (y := y) (by rwa [hn] at hx)
    have hlt : q * y.shape.rows + p < n.size := hsize ▸ Grid.place_lt_size y.shape hp hq
    obtain ⟨hi, hj⟩ := Matrix.place_lt_size hlt
    refine ⟨((q * y.shape.rows + p) % n.shape.rows, (q * y.shape.rows + p) / n.shape.rows), ⟨hi, hj, ?_⟩, ?_⟩
    · simp only [Nat.div_add_mod', Matrix.mod_place hp, Matrix.div_place hp]
    · rintro ⟨i, j⟩ ⟨hi, _, hs⟩
      obtain ⟨hmod, hdiv⟩ : (j * n.shape.rows + i) % y.shape.rows = p ∧ (j * n.shape.rows + i) / y.shape.rows = q := by
        simpa using hs
      rw [← hmod, ← hdiv, Nat.div_add_mod', Matrix.mod_place hi, Matrix.div_place hi]
  | @hstack _ xs _ h =>
    obtain ⟨_, hrows, hcols, hn⟩ := hstack_eq_ok h
    have hx : xs[k]? = some x := by rwa [hn] at hx
    obtain ⟨j, ⟨hj, hl⟩, hunique⟩ := existsUnique_place (f := fun x : Node α => x.shape.cols) hx hq
    refine ⟨(p, j), ⟨hrows x (List.mem_of_getElem? hx) ▸ hp, hcols ▸ hj, by simp only [hl]⟩, ?_⟩
    rintro ⟨i, j'⟩ ⟨_, hj', hs⟩
    obtain ⟨hk, rfl, hq'⟩ : (locate (xs.map fun x => x.shape.cols) j').1 = k ∧ i = p ∧
        (locate (xs.map fun x => x.shape.cols) j').2 = q := by simpa using hs
    rw [hunique j' ⟨hcols ▸ hj', Prod.ext hk hq'⟩]
  | @vstack _ xs _ h =>
    obtain ⟨_, hcols, hrows, hn⟩ := vstack_eq_ok h
    have hx : xs[k]? = some x := by rwa [hn] at hx
    obtain ⟨i, ⟨hi, hl⟩, hunique⟩ := existsUnique_place (f := fun x : Node α => x.shape.rows) hx hp
    refine ⟨(i, q), ⟨hrows ▸ hi, hcols x (List.mem_of_getElem? hx) ▸ hq, by simp only [hl]⟩, ?_⟩
    rintro ⟨i', j⟩ ⟨hi', _, hs⟩
    obtain ⟨hk, hp', rfl⟩ : (locate (xs.map fun x => x.shape.rows) i').1 = k ∧
        (locate (xs.map fun x => x.shape.rows) i').2 = p ∧ j = q := by simpa using hs
    rw [hunique i' ⟨hrows ▸ hi', Prod.ext hk hp'⟩]

/-- What is shown is an entry of the child's value. -/
theorem get_combine [Zero α] [Add α] [Neg α] [Mul α] [Div α] [OfDouble α] (h : n.Arranges shown) (v : Int → Matrix α)
    {m : Node α → Matrix α} (hm : ∀ x ∈ n.children, (m x).shape = x.shape) {i j : Nat} (hi : i < n.shape.rows)
    (hj : j < n.shape.cols) {x : Node α} (hx : n.children[(shown i j).part]? = some x) :
    (combine v n.kind n.shape n.data (n.children.map m)).get i j = (m x).get (shown i j).row (shown i j).col := by
  have hrows : ∀ x ∈ n.children, (m x).rows = x.shape.rows := fun x hx => congrArg Shape.rows (hm x hx)
  have hcols : ∀ x ∈ n.children, (m x).cols = x.shape.cols := fun x hx => congrArg Shape.cols (hm x hx)
  cases h with
  | @index _ rows cols y _ h =>
    obtain ⟨r, c, hr, hc, rfl⟩ := index_eq_ok h
    obtain rfl : y = x := Option.some.inj hx
    change ((m y).submatrix (r.selection (m y).rows) (c.selection (m y).cols)).get i j = _
    rw [hrows y List.mem_cons_self, hcols y List.mem_cons_self, hr.selection_eq, hc.selection_eq]
    exact Matrix.get_ofFn _ hi hj
  | @transpose _ y _ h =>
    obtain rfl := plain_eq_ok h
    obtain rfl : y = x := Option.some.inj hx
    exact Matrix.get_ofFn _ ((hcols y List.mem_cons_self).symm ▸ hi) ((hrows y List.mem_cons_self).symm ▸ hj)
  | @promote _ _ y _ _ h =>
    obtain ⟨_, hn⟩ := promote_eq_ok h
    obtain rfl : y = x := by
      rw [hn] at hx
      exact Option.some.inj hx
    have hvalue : combine v n.kind n.shape n.data (n.children.map m) =
        Matrix.const n.shape.rows n.shape.cols ((m y).get 0 0) := by
      rw [hn]
      rfl
    rw [hvalue]
    exact Matrix.get_ofFn _ hi hj
  | @reshape _ _ y _ hs h =>
    obtain ⟨_, hn⟩ := reshape_eq_ok hs h
    obtain rfl : y = x := by
      rw [hn] at hx
      exact Option.some.inj hx
    have hvalue : combine v n.kind n.shape n.data (n.children.map m) =
        Matrix.ofVec n.shape.rows n.shape.cols (m y).vec := by
      rw [hn]
      rfl
    rw [hvalue, Matrix.get_ofVec _ _ _ hi hj, Matrix.getD_vec, hrows y (List.mem_of_getElem? hx)]
  | @noOp _ y _ h =>
    obtain rfl := plain_eq_ok h
    obtain rfl : y = x := Option.some.inj hx
    rfl
  | @hstack _ xs _ h =>
    obtain ⟨_, hheight, hwidth, hn⟩ := hstack_eq_ok h
    obtain ⟨before, y, after, q, rfl, hq, rfl⟩ := exists_part (hwidth ▸ hj)
    have hchildren : n.children = before ++ y :: after := by rw [hn]
    simp only [locate_part (f := fun x : Node α => x.shape.cols) hq] at hx ⊢
    obtain rfl : y = x := by simpa [hchildren] using hx
    have hvalue : combine v n.kind n.shape n.data (n.children.map m) =
        Matrix.sideBySide n.shape.rows (n.children.map m) := by
      rw [hn]
      rfl
    rw [hvalue, hchildren]
    exact Matrix.get_sideBySide_part
      (fun x hx => ⟨(hrows x (hchildren ▸ hx)).trans (hheight x hx), hcols x (hchildren ▸ hx)⟩) i hq
  | @vstack _ xs _ h =>
    obtain ⟨_, hwidth, hheight, hn⟩ := vstack_eq_ok h
    obtain ⟨before, y, after, p, rfl, hp, rfl⟩ := exists_part (hheight ▸ hi)
    have hchildren : n.children = before ++ y :: after := by rw [hn]
    simp only [locate_part (f := fun x : Node α => x.shape.rows) hp] at hx ⊢
    obtain rfl : y = x := by simpa [hchildren] using hx
    have hvalue : combine v n.kind n.shape n.data (n.children.map m) =
        Matrix.stack n.shape.cols (n.children.map m) := by
      rw [hn]
      rfl
    rw [hvalue, hchildren]
    exact Matrix.get_stack_part
      (fun x hx => ⟨hrows x (hchildren ▸ hx), (hcols x (hchildren ▸ hx)).trans (hwidth x hx)⟩) hp j

end Arranges

end Node

end ConicForm
