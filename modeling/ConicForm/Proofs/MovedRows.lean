import ConicForm.Proofs.Arrangements
import ConicForm.Proofs.ExtendedRationals
import ConicForm.Proofs.LabelledRows
import ConicForm.Proofs.Values

/-!
# Moved rows

The rule of a node that shows entries of its children moves the rows of their blocks: it gathers them at some places,
joins the blocks, or puts them to bands and adds them up. All these places are there, and at the place of each entry
the block of the node has the row of the entry that is shown.
-/

namespace ConicForm

namespace Block

/-! Moves -/

/-- How a rule takes the rows of its operands' blocks to where they go. -/
inductive Move where
  | keep
  | gather (places : List Nat)
  | join
  | scatter (bands : List (List Nat))
deriving DecidableEq, Repr

namespace Move

variable {α : Type}

/-- The block of `size` rows that a move makes. -/
def run [Zero α] [Add α] [OfDouble α] (m : Move) (size : Nat) (blocks : List (Block α)) : Result (Block α) :=
  match m with
  | keep => operand blocks
  | gather places => do (← operand blocks).gather places
  | join => concat blocks
  | scatter bands => do sum (← (bands.zip blocks).mapM fun e => e.2.scatter (.ofPlaces e.1) size)

/-- Whether there is a row at each place that rows are taken from or put to. -/
def InRange (m : Move) (size : Nat) (blocks : List (Block α)) : Prop :=
  match m with
  | keep => True
  | gather places => ∀ b ∈ blocks, ∀ p ∈ places, p < b.size
  | join => True
  | scatter bands => ∀ places ∈ bands, ∀ p ∈ places, p < size

end Move

/-- The places of some numbers of rows, one after the other from row `row` on. -/
def bands (s : Shape) (row : Nat) : List Nat → List (List Nat)
  | [] => []
  | n :: rest => Grid.band s row n :: bands s (row + n) rest

theorem bands_lt {s : Shape} {row : Nat} {ns : List Nat} (h : row + total ns ≤ s.rows) :
    ∀ places ∈ bands s row ns, ∀ p ∈ places, p < s.size := by
  induction ns generalizing row with
  | nil => exact List.forall_mem_nil _
  | cons n ns ih =>
    rw [total_cons] at h
    exact List.forall_mem_cons.mpr ⟨Grid.band_lt (by omega), ih (by omega)⟩

section rules

variable {α : Type} [Zero α] [One α] [Add α] [Neg α] [Mul α] [Div α] [OfDouble α]

/-- The move of a node that shows entries of its children. -/
def moveOf (n : Node α) : Result Move :=
  match n.kind with
  | .promote => .ok (.gather (List.replicate n.size 0))
  | .index => do return .gather (← selectedPlaces n)
  | .transpose => do return .gather (Grid.transposed (← operandShape n))
  | .reshape => .ok .keep
  | .noOp => .ok .keep
  | .hstack => .ok .join
  | .vstack => .ok (.scatter (bands n.shape 0 (n.children.map fun x => x.shape.rows)))
  | _ => .error (unsupported n)

omit [One α] [Add α] [Neg α] [Mul α] [Div α] [OfDouble α] in
theorem placed_eq_mapM (n : Node α) (row : Nat) (xs : List (Node α)) (bs : List (Block α)) :
    placed n row xs bs = ((bands n.shape row (xs.map fun x => x.shape.rows)).zip bs).mapM fun e =>
      e.2.scatter (.ofPlaces e.1) n.size := by
  induction xs generalizing row bs with
  | nil => rfl
  | cons x xs ih =>
    cases bs with
    | nil => rfl
    | cons b bs =>
      rw [placed, ih, List.map_cons, bands, List.zip_cons_cons, List.mapM_cons]

theorem rule_eq_run {n : Node α} {shown : Nat → Nat → Spot} (h : n.Arranges shown) (bs : List (Block α)) :
    rule n bs = moveOf n >>= fun m => m.run n.size bs := by
  cases h with
  | index h =>
    obtain ⟨r, c, _, _, rfl⟩ := Node.index_eq_ok h
    rw [rule, moveOf, indexRule]
    simp only [bind_assoc]
    rfl
  | transpose h =>
    obtain rfl := Node.plain_eq_ok h
    rfl
  | promote hs h =>
    obtain ⟨_, hn⟩ := Node.promote_eq_ok h
    rw [hn]
    rfl
  | reshape hs h =>
    obtain ⟨_, hn⟩ := Node.reshape_eq_ok hs h
    rw [hn]
    rfl
  | noOp h =>
    obtain rfl := Node.plain_eq_ok h
    rfl
  | hstack h =>
    obtain ⟨_, _, _, hn⟩ := Node.hstack_eq_ok h
    rw [hn]
    rfl
  | vstack h =>
    obtain ⟨_, _, _, hn⟩ := Node.vstack_eq_ok h
    rw [hn]
    change (placed _ 0 _ bs >>= sum) = _
    rw [placed_eq_mapM]
    rfl

end rules

/-! Rows of moved blocks -/

variable {α : Type} {width : Value → Nat} {n x : Node α} {shown : Nat → Nat → Spot} {b c : Block α}
  {g : Node α → Block α}

/-- A block that has, for each entry of a node, the row of the child's entry that is shown there. -/
structure Shows [Zero α] [OfDouble α] (c : Block α) (n : Node α) (shown : Nat → Nat → Spot) (g : Node α → Block α)
    (width : Value → Nat) : Prop where
  shaped : c.Shaped n.size width
  sameRow : ∀ i < n.shape.rows, ∀ j < n.shape.cols, ∀ x, n.children[(shown i j).part]? = some x →
    c.SameRow (j * n.shape.rows + i) (g x) ((shown i j).col * x.shape.rows + (shown i j).row)

/-- A move of a node, which takes no row from where there is none and makes a block that shows the node. -/
structure Moves [Zero α] [Add α] [OfDouble α] (m : Move) (c : Block α) (n : Node α) (shown : Nat → Nat → Spot)
    (g : Node α → Block α) (width : Value → Nat) : Prop extends Shows c n shown g width where
  moveOf_eq : moveOf n = .ok m
  inRange : m.InRange n.size (n.children.map g)
  run_eq : m.run n.size (n.children.map g) = .ok c

section one

variable [Zero α] [OfDouble α]

theorem keep_shows (hb : (g x).Shaped x.size width) (hn : n.children = [x]) (hsize : n.size = x.size)
    (hshown : ∀ i < n.shape.rows, ∀ j < n.shape.cols,
      (shown i j).col * x.shape.rows + (shown i j).row = j * n.shape.rows + i) : (g x).Shows n shown g width := by
  refine ⟨hsize ▸ hb, fun i hi j hj y hy => ?_⟩
  obtain ⟨_, rfl⟩ := eq_of_getElem?_singleton (y := x) (hn ▸ hy)
  rw [hshown i hi j hj]
  exact ⟨fun _ _ => rfl, rfl⟩

end one

section several

variable [AddZeroClass α] [OfDouble α] {xs : List (Node α)} {s : Shape} {row : Nat}

/-- Blocks of children side by side, one above the other. -/
theorem concat_shows (hne : n.children ≠ []) (hg : ∀ x ∈ n.children, (g x).Shaped x.size width)
    (hrows : ∀ x ∈ n.children, x.shape.rows = n.shape.rows)
    (hcols : n.shape.cols = total (n.children.map fun x => x.shape.cols)) (hshown : ∀ i j, shown i j =
      ⟨(locate (n.children.map fun x => x.shape.cols) j).1, i, (locate (n.children.map fun x => x.shape.cols) j).2⟩) :
    ∃ c, concat (n.children.map g) = .ok c ∧ c.Shows n shown g width := by
  have hblocks : ∀ b ∈ n.children.map g, b.Shaped b.size width := by
    intro b hb
    obtain ⟨x, hx, rfl⟩ := List.mem_map.mp hb
    rw [(hg x hx).size_eq]
    exact hg x hx
  have hsizes : ∀ xs : List (Node α), (∀ x ∈ xs, x ∈ n.children) →
      total ((xs.map g).map size) = n.shape.rows * total (xs.map fun x => x.shape.cols) := fun xs hxs =>
    total_size_map (fun x hx => hrows x (hxs x hx)) fun x hx => (hg x (hxs x hx)).size_eq
  obtain ⟨c, hc, hshaped, hrow⟩ := concat_sameRow (fun he => hne (List.map_eq_nil_iff.mp he)) hblocks
  rw [hsizes n.children fun _ hx => hx, ← hcols] at hshaped
  refine ⟨c, hc, hshaped, fun i hi j hj x hx => ?_⟩
  obtain ⟨before, y, after, q, hsplit, hq, rfl⟩ := exists_part (hcols ▸ hj)
  have hy : y ∈ n.children := by simp [hsplit]
  rw [hshown, hsplit, locate_part (f := fun x : Node α => x.shape.cols) hq] at hx ⊢
  obtain rfl : y = x := by simpa using hx
  have hk : q * n.shape.rows + i < (g y).size := by
    rw [(hg y hy).size_eq, ← hrows y hy]
    exact Grid.place_lt_size y.shape ((hrows y hy).symm ▸ hi) hq
  have hplace : total ((before.map g).map size) + (q * n.shape.rows + i) =
      (total (before.map fun x => x.shape.cols) + q) * n.shape.rows + i := by
    rw [hsizes before fun x hx => hsplit ▸ List.mem_append_left _ hx, Nat.add_mul, Nat.mul_comm n.shape.rows,
      Nat.add_assoc]
  have hmap : n.children.map g = before.map g ++ g y :: after.map g := by rw [hsplit, List.map_append, List.map_cons]
  rw [← hplace, hrows y hy]
  exact hrow _ _ _ hmap _ hk

/-- Blocks of nodes one above the other, each put to its band from some row on. -/
inductive Banded (s : Shape) (g : Node α → Block α) (width : Value → Nat) : Nat → List (Node α) → List (Block α) → Prop
  | nil (row : Nat) : Banded s g width row [] []
  | cons {row : Nat} {x : Node α} {xs : List (Node α)} {c : Block α} {cs : List (Block α)}
      (hband : row + x.shape.rows ≤ s.rows)
      (hc : c.Draws (g x) (fun k => Axis.lastIndexOf? k ((Grid.band s row x.shape.rows).map some)) s.size width)
      (hcs : Banded s g width (row + x.shape.rows) xs cs) : Banded s g width row (x :: xs) (c :: cs)

namespace Banded

variable {cs : List (Block α)}

theorem shaped (h : Banded s g width row xs cs) : ∀ c ∈ cs, c.Shaped s.size width := by
  induction h with
  | nil => exact List.forall_mem_nil _
  | cons _ hc _ ih => exact List.forall_mem_cons.mpr ⟨hc.shaped, ih⟩

/-- Above the first band and below the last one all rows are zeros. -/
theorem zeroRow (h : Banded s g width row xs cs) {i j : Nat} (hi : i < s.rows) (hj : j < s.cols)
    (hout : i < row ∨ row + total (xs.map fun x => x.shape.rows) ≤ i) :
    ∀ c ∈ cs, c.ZeroRow (j * s.rows + i) := by
  induction h with
  | nil => exact List.forall_mem_nil _
  | cons hband hc _ ih =>
    rw [List.map_cons, total_cons] at hout
    refine List.forall_mem_cons.mpr ⟨?_, ih (by omega)⟩
    have hk := Grid.place_lt_size s hi hj
    apply hc.zeroRow _ hk
    rw [Axis.lastIndexOf?_band hband hk, Matrix.mod_place hi, if_neg (by omega)]

/-- The band of one of the nodes. -/
theorem split {before after : List (Node α)} {x : Node α} (h : Banded s g width row (before ++ x :: after) cs) :
    ∃ cs₁ c cs₂, cs = cs₁ ++ c :: cs₂ ∧ Banded s g width row before cs₁ ∧
      Banded s g width (row + total (before.map fun x => x.shape.rows)) (x :: after) (c :: cs₂) := by
  induction before generalizing row cs with
  | nil =>
    cases h with
    | cons hband hc hcs => exact ⟨[], _, _, rfl, .nil row, .cons hband hc hcs⟩
  | cons y before ih =>
    cases h with
    | cons hband hc hcs =>
      obtain ⟨cs₁, c, cs₂, rfl, hbefore, hafter⟩ := ih hcs
      refine ⟨_ :: cs₁, c, cs₂, rfl, .cons hband hc hbefore, ?_⟩
      rw [List.map_cons, total_cons, ← Nat.add_assoc]
      exact hafter

end Banded

variable (hzero : ofDouble (Double.nearest 0) = (0 : α))

include hzero

theorem exists_banded (hg : ∀ x ∈ xs, (g x).Shaped x.size width) (hcols : ∀ x ∈ xs, x.shape.cols = s.cols)
    (hrow : row + total (xs.map fun x => x.shape.rows) ≤ s.rows) :
    ∃ cs, ((bands s row (xs.map fun x => x.shape.rows)).zip (xs.map g)).mapM (fun e =>
      e.2.scatter (.ofPlaces e.1) s.size) = .ok cs ∧ Banded s g width row xs cs := by
  induction xs generalizing row with
  | nil => exact ⟨[], rfl, .nil row⟩
  | cons x xs ih =>
    obtain ⟨hx, hg⟩ := List.forall_mem_cons.mp hg
    obtain ⟨hxcols, hcols⟩ := List.forall_mem_cons.mp hcols
    rw [List.map_cons, total_cons, ← Nat.add_assoc] at hrow
    have hband : row + x.shape.rows ≤ s.rows := by omega
    have hlength : (Grid.band s row x.shape.rows).length = x.size := by
      rw [Grid.length_band hband, ← hxcols]
      rfl
    obtain ⟨c, hc, hdraws⟩ := scatter_draws hzero hx hlength (Grid.band_lt hband)
    obtain ⟨cs, hcs, hbanded⟩ := ih hg hcols hrow
    refine ⟨c :: cs, ?_, .cons hband hdraws hbanded⟩
    rw [List.map_cons, List.map_cons, bands, List.zip_cons_cons, List.mapM_cons, hc, hcs]
    rfl

/-- Blocks of children one above the other, each put to the band of its rows and added up. -/
theorem scatter_shows (hne : n.children ≠ []) (hg : ∀ x ∈ n.children, (g x).Shaped x.size width)
    (hcols : ∀ x ∈ n.children, x.shape.cols = n.shape.cols)
    (hrows : n.shape.rows = total (n.children.map fun x => x.shape.rows)) (hshown : ∀ i j, shown i j =
      ⟨(locate (n.children.map fun x => x.shape.rows) i).1, (locate (n.children.map fun x => x.shape.rows) i).2, j⟩) :
    ∃ c, (Move.scatter (bands n.shape 0 (n.children.map fun x => x.shape.rows))).run n.size (n.children.map g) = .ok c ∧
      c.Shows n shown g width := by
  have hstart : 0 + total (n.children.map fun x => x.shape.rows) ≤ n.shape.rows := by rw [Nat.zero_add, ← hrows]
  obtain ⟨cs, hcs, hbanded⟩ := exists_banded hzero hg hcols hstart
  have hcsne : cs ≠ [] := by
    rintro rfl
    cases hn : n.children with
    | nil => exact hne hn
    | cons x xs =>
      rw [hn] at hbanded
      cases hbanded
  obtain ⟨c, hc, hsum⟩ := sum_sameRow hzero hcsne hbanded.shaped
  refine ⟨c, ?_, hsum.shaped, fun i hi j hj x hx => ?_⟩
  · rw [Move.run, Node.size, hcs]
    exact hc
  obtain ⟨before, y, after, p, hsplit, hp, rfl⟩ := exists_part (hrows ▸ hi)
  have hk := Grid.place_lt_size n.shape hi hj
  rw [hsplit] at hbanded
  obtain ⟨cs₁, d, cs₂, rfl, hbefore, hafter⟩ := hbanded.split
  rw [Nat.zero_add] at hafter
  rw [hshown, hsplit, locate_part (f := fun x : Node α => x.shape.rows) hp] at hx ⊢
  obtain rfl : y = x := by simpa using hx
  cases hafter with
  | cons hband hdraws hafter =>
    have hd : c.SameRow _ d _ := hsum.sameRow _ hk cs₁ d cs₂ rfl (hbefore.zeroRow hi hj (.inr (by omega)))
      (hafter.zeroRow hi hj (.inl (by omega)))
    have hplace := Axis.lastIndexOf?_band hband hk
    rw [Matrix.mod_place hi, Matrix.div_place hi, if_pos ⟨by omega, by omega⟩,
      Nat.add_sub_cancel_left] at hplace
    exact hd.trans (hdraws.sameRow _ hk _ hplace)

end several

section moved

variable [AddZeroClass α] [OfDouble α] (hzero : ofDouble (Double.nearest 0) = (0 : α))

include hzero

/-- A gather at the places of what is shown of the only child. -/
theorem exists_gather (hg : (g x).Shaped x.size width) (hn : n.children = [x]) {places : List Nat}
    (hm : moveOf n = .ok (.gather places)) (hp : ∀ p ∈ places, p < x.size) (hl : places.length = n.size)
    (hshown : ∀ i < n.shape.rows, ∀ j < n.shape.cols,
      places.getD (j * n.shape.rows + i) 0 = (shown i j).col * x.shape.rows + (shown i j).row) :
    ∃ m c, Moves m c n shown g width := by
  obtain ⟨c, hc, hdraws⟩ := gather_draws hzero hg hp
  refine ⟨_, c, ⟨hl ▸ hdraws.shaped, fun i hi j hj y hy => ?_⟩, hm, ?_, ?_⟩
  · obtain ⟨_, rfl⟩ := eq_of_getElem?_singleton (y := x) (hn ▸ hy)
    have hk : j * n.shape.rows + i < places.length := hl ▸ Grid.place_lt_size n.shape hi hj
    rw [← hshown i hi j hj, List.getD_eq_getElem _ _ hk]
    exact hdraws.sameRow _ hk _ (List.getElem?_eq_getElem hk)
  · rw [hn]
    exact List.forall_mem_singleton.mpr (hg.size_eq.symm ▸ hp)
  · rw [hn]
    exact hc

/-- A node that shows entries of its children has a move, unless a step does not fit into a word. -/
theorem exists_move (h : n.Arranges shown) (hg : ∀ x ∈ n.children, (g x).Shaped x.size width)
    (hw : ¬n.data.IsWide) : ∃ m c, Moves m c n shown g width := by
  cases h with
  | @index _ rows cols x _ h =>
    obtain ⟨r, c, hr, hc, rfl⟩ := Node.index_eq_ok h
    have hw : ¬(r.IsWide ∨ c.IsWide) := fun hwide => hw ⟨r, c, rfl, hwide⟩
    refine exists_gather hzero (hg x List.mem_cons_self) rfl ?_ (Grid.selected_lt x.shape hr.lt hc.lt)
      (Grid.length_selected x.shape _ _) ?_
    · rw [moveOf, selectedPlaces_eq_ok hr hc hw]
      rfl
    · intro i hi j hj
      have hi : i < (Slice.chosen rows x.shape.rows).length := hi
      obtain ⟨_, _, hget⟩ := Grid.getD_selected x.shape hr.lt hc.lt (Grid.place_lt_size ⟨_, _⟩ hi hj)
      rw [Matrix.mod_place hi, Matrix.div_place hi] at hget
      exact hget
  | @transpose _ x _ h =>
    obtain rfl := Node.plain_eq_ok h
    refine exists_gather hzero (hg x List.mem_cons_self) rfl rfl (Grid.transposed_lt x.shape)
      ((Grid.length_transposed x.shape).trans ?_) ?_
    · exact (Shape.size_transposed x.shape).symm
    · intro i hi j hj
      have hi : i < x.shape.cols := hi
      have hk : j * x.shape.cols + i < x.shape.size := by
        rw [← Shape.size_transposed]
        exact Grid.place_lt_size x.shape.transposed hi hj
      have hget := Grid.getD_transposed x.shape hk
      rw [Matrix.mod_place hi, Matrix.div_place hi] at hget
      exact hget
  | @promote _ _ x _ hs h =>
    obtain ⟨hx, hn⟩ := Node.promote_eq_ok h
    have hchildren : n.children = [x] := by rw [hn]
    have hmove : moveOf n = .ok (.gather (List.replicate n.size 0)) := by
      rw [hn]
      rfl
    refine exists_gather hzero (hg x (by simp [hchildren])) hchildren hmove ?_ List.length_replicate ?_
    · intro p hp
      rw [List.eq_of_mem_replicate hp, Node.size, hx]
      exact Nat.one_pos
    · intro i hi j hj
      have hk : j * n.shape.rows + i < n.size := Grid.place_lt_size n.shape hi hj
      simp [List.getD_eq_getElem?_getD, hk]
  | @reshape _ _ x _ hs h =>
    obtain ⟨hsize, hn⟩ := Node.reshape_eq_ok hs h
    have hchildren : n.children = [x] := by rw [hn]
    have hshows : (g x).Shows n (fun i j => ⟨0, (j * n.shape.rows + i) % x.shape.rows, _⟩) g width :=
      keep_shows (hg x (by simp [hchildren])) hchildren hsize fun i hi j hj => Nat.div_add_mod' _ _
    exact ⟨.keep, g x, hshows, by rw [hn]; rfl, trivial, by rw [hchildren]; rfl⟩
  | @noOp _ x _ h =>
    obtain rfl := Node.plain_eq_ok h
    exact ⟨.keep, g x, keep_shows (hg x List.mem_cons_self) rfl rfl fun i hi j hj => rfl, rfl, trivial, rfl⟩
  | @hstack _ xs _ h =>
    obtain ⟨hne, hrows, hcols, hn⟩ := Node.hstack_eq_ok h
    obtain rfl : xs = n.children := by rw [hn]
    obtain ⟨c, hc, hshows⟩ := concat_shows hne hg hrows hcols fun _ _ => rfl
    exact ⟨.join, c, hshows, by rw [hn]; rfl, trivial, hc⟩
  | @vstack _ xs _ h =>
    obtain ⟨hne, hcols, hrows, hn⟩ := Node.vstack_eq_ok h
    obtain rfl : xs = n.children := by rw [hn]
    obtain ⟨c, hc, hshows⟩ := scatter_shows hzero hne hg hcols hrows fun _ _ => rfl
    have hrange : 0 + total (n.children.map fun x => x.shape.rows) ≤ n.shape.rows := by rw [Nat.zero_add, ← hrows]
    exact ⟨.scatter _, c, hshows, by rw [hn]; rfl, bands_lt hrange, hc⟩

end moved

/-- A step that does not fit into a word is refused. -/
theorem rule_of_isWide [Zero α] [One α] [Add α] [Neg α] [Mul α] [Div α] [OfDouble α] (h : n.Arranges shown)
    (hw : n.data.IsWide) : rule n (n.children.map g) = .error .wrongType := by
  rcases h.index_or_plain with ⟨_, _, x, r, c, _, _, hr, hc, rfl⟩ | ⟨_, hd⟩
  · obtain ⟨_, _, hd, hw⟩ := hw
    obtain ⟨rfl, rfl⟩ := Payload.selection.inj hd
    exact index_of_isWide hr hc hw
  · rw [hd] at hw
    exact absurd hw (Payload.not_isWide_of_ne (by simp))

end Block

/-- The rule of a node that shows entries of its children is a move. It takes no row from where there is none and puts
none to where there is none, and its block has at the place of each entry the row of the entry that is shown, which is
one of a child and has its value; but for indices and promotions each entry of each child is shown once. A step of an
index that does not fit into a word is refused. -/
theorem Node.rows_moved {α : Type} [AddZeroClass α] [One α] [Neg α] [Mul α] [Div α] [OfDouble α]
    (hzero : ofDouble (Double.nearest 0) = (0 : α)) {n : Node α} {shown : Nat → Nat → Spot} (h : n.Arranges shown)
    {g : Node α → Block α} {width : Value → Nat} (hg : ∀ x ∈ n.children, (g x).Shaped x.size width) :
    (∀ bs : List (Block α), Block.rule n bs = Block.moveOf n >>= fun m => m.run n.size bs) ∧
    (n.data.IsWide → Block.rule n (n.children.map g) = .error .wrongType) ∧
    (¬n.data.IsWide → ∃ m c, Block.Moves m c n shown g width ∧ Block.rule n (n.children.map g) = .ok c) ∧
    (∀ i < n.shape.rows, ∀ j < n.shape.cols, ∃ x, n.children[(shown i j).part]? = some x ∧
      (shown i j).row < x.shape.rows ∧ (shown i j).col < x.shape.cols ∧
      ∀ (v : Int → Matrix α) (m : Node α → Matrix α), (∀ x ∈ n.children, (m x).shape = x.shape) →
        (combine v n.kind n.shape n.data (n.children.map m)).get i j = (m x).get (shown i j).row (shown i j).col) ∧
    (n.kind ≠ .index → n.kind ≠ .promote → ∀ k x, n.children[k]? = some x → ∀ p < x.shape.rows, ∀ q < x.shape.cols,
      ∃! s : Nat × Nat, s.1 < n.shape.rows ∧ s.2 < n.shape.cols ∧ shown s.1 s.2 = ⟨k, p, q⟩) ∧
    ((∀ x ∈ n.children, x.block = .ok (g x)) → n.block = Block.rule n (n.children.map g)) := by
  refine ⟨Block.rule_eq_run h, Block.rule_of_isWide h, fun hw => ?_, fun i hi j hj => ?_,
    fun hindex hpromote k x hx p hp q hq => ?_, fun hblocks => ?_⟩
  · obtain ⟨m, c, hm⟩ := Block.exists_move hzero h hg hw
    refine ⟨m, c, hm, ?_⟩
    rw [Block.rule_eq_run h, hm.moveOf_eq]
    exact hm.run_eq
  · obtain ⟨x, hx, hrow, hcol⟩ := h.inside hi hj
    exact ⟨x, hx, hrow, hcol, fun v m hm => h.get_combine v hm hi hj hx⟩
  · exact h.existsUnique hindex hpromote hx hp hq
  · rw [block_eq, if_pos h.isExpression, mapM_eq_ok_map hblocks]
    rfl

namespace Sample

def bound (ident : Nat) (a : Extended) : Node Extended := ⟨ident, .scalarConst, .scalar, [], .scalar a⟩

/-- A variable between an infinity and what is no number. -/
def bounded : Node Extended :=
  ⟨3, .vstack, ⟨3, 1⟩, [bound 0 (.infinite true), ⟨1, .variable, .scalar, [], .loose (.int 6)⟩, bound 2 .undefined],
    .loose .none⟩

/-- The blocks of these. -/
def boundBlock (n : Node Extended) : Block Extended :=
  match n.data with
  | .scalar a => .const (.reals (.ofList [a]))
  | _ => .ofVariable (.ofId 6) 1

theorem shaped_bounded : ∀ x ∈ bounded.children, (boundBlock x).Shaped x.size fun _ => 1 := by
  have hnil : Coefficients.Labelled ([] : List (Label × Tensor Extended)) 1 fun _ => 1 :=
    ⟨List.forall_mem_nil _, List.nodup_nil⟩
  have hbound : ∀ ident a, (boundBlock (bound ident a)).Shaped 1 fun _ => 1 := fun ident a => ⟨hnil, rfl, trivial⟩
  have hvariable : (Block.ofVariable (.ofId 6) 1 : Block Extended).Shaped 1 fun _ => 1 :=
    ⟨Label.Table.cons_iff.mpr ⟨rfl, List.not_mem_nil, hnil⟩, rfl, trivial⟩
  exact List.forall_mem_cons.mpr
    ⟨hbound _ _, List.forall_mem_cons.mpr ⟨hvariable, List.forall_mem_singleton.mpr (hbound _ _)⟩⟩

end Sample

/-- What is infinite or no number stays in its row. -/
theorem Node.rows_moved_bounded : ∃ c, Sample.bounded.block = .ok c ∧
    c.constant 0 = .infinite true ∧ c.constant 1 = .finite 0 ∧ c.constant 2 = .undefined ∧
    Coefficients.under c.coeffs (.ofId 6) 0 0 = .finite 0 ∧ Coefficients.under c.coeffs (.ofId 6) 1 0 = .finite 1 := by
  have hmade : vstack 3 Sample.bounded.children = .ok Sample.bounded := rfl
  obtain ⟨_, _, hmoves, _, _, hblock⟩ := rows_moved (by decide +kernel) (.vstack hmade) Sample.shaped_bounded
  obtain ⟨_, c, hm, hc⟩ := hmoves (Payload.not_isWide_of_ne (by simp [Sample.bounded]))
  have hchildren : ∀ x ∈ Sample.bounded.children, x.block = .ok (Sample.boundBlock x) :=
    List.forall_mem_cons.mpr ⟨rfl, List.forall_mem_cons.mpr ⟨rfl, List.forall_mem_singleton.mpr rfl⟩⟩
  refine ⟨c, (hblock hchildren).trans hc, ?_⟩
  have h0 := hm.sameRow 0 (by decide) 0 (by decide) _ rfl
  have h1 := hm.sameRow 1 (by decide) 0 (by decide) _ rfl
  have h2 := hm.sameRow 2 (by decide) 0 (by decide) _ rfl
  exact ⟨h0.constant_eq, h1.constant_eq, h2.constant_eq, h0.under_eq _ 0, h1.under_eq _ 0⟩

/-- A column of which the first entry is shown, by a step past the words: its block has all rows, the node has none. -/
theorem Node.first_row_refused : ∃ b shown, trio.block = .ok b ∧ (b.Shaped trio.size fun _ => 3) ∧
    (first (Int.pow 2 70)).Arranges shown ∧ shown 0 0 = ⟨0, 0, 0⟩ ∧
    Block.rule (first (Int.pow 2 70)) [b] = .error .wrongType ∧ (first (Int.pow 2 70)).block = .error .wrongType := by
  have hmade : index 1 trio (.slice .none .none (.int (Int.pow 2 70))) (.int 0) = .ok (first (Int.pow 2 70)) := rfl
  have hshaped : (Block.ofVariable (.ofId 5) 3 : Block ℚ).Shaped trio.size fun _ => 3 :=
    ⟨Label.Table.cons_iff.mpr ⟨rfl, List.not_mem_nil, List.forall_mem_nil _, List.nodup_nil⟩, rfl, trivial⟩
  exact ⟨_, _, rfl, hshaped, .index hmade, rfl, rfl, rfl⟩

end ConicForm
