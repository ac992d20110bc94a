import ConicForm.Proofs.PlainAssembly

/-!
# Rows that state an expression

The rows that a program has for a constraint are those that the expression in it compiles to on its own, with the
sign of the cone. This is seen from the matrices alone and takes no law of the scalars' arithmetic.
-/

namespace ConicForm

variable {α : Type}

/-- A row of matrices one below the other that stands in one of them. -/
theorem Matrix.row_stack [Zero α] {β : Type} {width : Nat} {before after : List β} {x : β} {f : β → Matrix α}
    {size : β → Nat} (h : ∀ y ∈ before ++ x :: after, (f y).rows = size y ∧ (f y).cols = width) {k : Nat}
    (hk : k < size x) :
    (stack width ((before ++ x :: after).map f)).row (total (before.map size) + k) = (f x).row k := by
  have hx : (f x).cols = width := (h x (List.mem_append_right before List.mem_cons_self)).2
  rw [row, row, cols_stack, hx]
  exact List.map_congr_left fun j _ => get_stack_part h hk j

theorem Matrix.row_map [Zero α] (f : α → α) (m : Matrix α) {k : Nat} (hk : k < m.rows) :
    (m.map f).row k = (m.row k).map f := by
  rw [row, row, List.map_map]
  apply List.map_congr_left
  intro j hj
  exact get_ofFn _ hk (List.mem_range.mp hj)

/-- A row and its offset in the rows of a program, with the sign of the cone. -/
def Cone.stated [Neg α] (c : Cone) (left : List α) (offset : α) : List α × α :=
  match c with
  | .eq => (left, -offset)
  | .leq => (left, -offset)
  | .soc => (left.map Neg.neg, offset)
  | .exp => (left.map Neg.neg, offset)

variable [Zero α] [One α] [Add α] [Neg α] [Mul α] [Div α] [OfDouble α]

/-- Whether the rows of a program from a certain one on are those that an expression compiles to on its own. -/
def Program.States (p : Program α) (l : Layout α) (first : Nat) (c : Cone) (n : Node α) : Prop :=
  ∃ b G g, n.block = .ok b ∧ Block.stack l.offsetOf l.width [b] = .ok (G, g) ∧ G.rows = n.size ∧
    ∀ k < n.size, (p.A.row (first + k), p.b.toReals.asRows.get (first + k) 0) =
      c.stated (G.row k) (g.toReals.asRows.get k 0)

namespace Program

variable [BEq α] {l : Layout α} {objective n : Node α} {constraints : List (Node α)} {ms : List (Cone × Node α)}
  {sense : Sense} {p : Program α} {cost r r₁ : Rows α} {rows : ByCone (Rows α)}

/-- The rows of an expression among those of several are those of its block over all columns. -/
theorem plainRows_part {before after : List (Node α)} (hl : l.IsOf objective constraints ms)
    (hn : ∀ m ∈ before ++ n :: after, Node.IsPart objective constraints m)
    (h : plainRows l (before ++ n :: after) = .ok r) :
    ∃ b G, n.block = .ok b ∧ Block.spread l.offsetOf l.width b = .ok G ∧ ∀ k < n.size,
      r.G.row (total (before.map Node.size) + k) = G.row k ∧
        r.g.toReals.asRows.get (total (before.map Node.size) + k) 0 = b.constant k := by
  have hmem : n ∈ before ++ n :: after := List.mem_append_right before List.mem_cons_self
  obtain ⟨block, hblock, hstack⟩ := plainRows_eq_ok h
  obtain ⟨hregular, hrange⟩ := blocks_regular hl hn hblock
  obtain ⟨part, t, hstack', hpart, _, hget⟩ := Block.exists_regular_stack hregular hrange
  obtain ⟨hG, hg⟩ := Prod.mk.inj (Except.ok.inj (hstack.symm.trans hstack'))
  have hsize : ∀ m ∈ before ++ n :: after, (block m).size = m.size :=
    fun m hm => ((hn m hm).sized hl (hblock m hm)).regular.size_eq
  have hrows : ∀ m ∈ before ++ n :: after, (part (block m)).rows = m.size ∧ (part (block m)).cols = l.width :=
    fun m hm => (hpart _ (List.mem_map_of_mem hm)).2.imp_left fun hr => hr.trans (hsize m hm)
  refine ⟨block n, part (block n), hblock n hmem, (hpart _ (List.mem_map_of_mem hmem)).1, fun k hk => ⟨?_, ?_⟩⟩
  · rw [hG, List.map_map]
    exact Matrix.row_stack hrows hk
  · have hblocks : ((before ++ n :: after).map block).map (fun b => (b.size, b.constant)) =
        (before ++ n :: after).map fun m => (m.size, (block m).constant) := by
      rw [List.map_map]
      exact List.map_congr_left fun m hm => Prod.ext (hsize m hm) rfl
    rw [hg]
    change t.asRows.get _ 0 = _
    rw [hget, hblocks, joined_part hk]

/-- The rows of an expression on its own. -/
theorem plainRows_single (hl : l.IsOf objective constraints ms) (hn : Node.IsPart objective constraints n)
    (h : plainRows l [n] = .ok r) : ∃ b G, n.block = .ok b ∧ Block.spread l.offsetOf l.width b = .ok G ∧
      ∀ k < n.size, r.G.row k = G.row k ∧ r.g.toReals.asRows.get k 0 = b.constant k := by
  have h : plainRows l ([] ++ n :: []) = .ok r := h
  obtain ⟨b, G, hb, hspread, hrow⟩ := plainRows_part hl (List.forall_mem_singleton.mpr hn) h
  simp only [List.map_nil, total_nil, Nat.zero_add] at hrow
  exact ⟨b, G, hb, hspread, hrow⟩

/-- The rows of an expression are the same among those of several as on its own. -/
theorem plainRows_split {before after : List (Node α)} (hl : l.IsOf objective constraints ms)
    (hn : ∀ m ∈ before ++ n :: after, Node.IsPart objective constraints m)
    (h : plainRows l (before ++ n :: after) = .ok r) : ∃ r₁, plainRows l [n] = .ok r₁ ∧
      r₁.HasSize n.size l.width ∧ ∀ k < n.size,
        r.G.row (total (before.map Node.size) + k) = r₁.G.row k ∧
        r.g.toReals.asRows.get (total (before.map Node.size) + k) 0 = r₁.g.toReals.asRows.get k 0 := by
  have hroot := hn n (List.mem_append_right before List.mem_cons_self)
  obtain ⟨b, G, hb, hspread, hrow⟩ := plainRows_part hl hn h
  obtain ⟨r₁, hr₁, hsize⟩ := exists_plainRows hl (List.forall_mem_singleton.mpr hroot)
    (List.forall_mem_singleton.mpr ⟨b, hb⟩)
  obtain ⟨b', G', hb', hspread', hrow'⟩ := plainRows_single hl hroot hr₁
  obtain rfl := Except.ok.inj (hb'.symm.trans hb)
  obtain rfl := Except.ok.inj (hspread'.symm.trans hspread)
  refine ⟨r₁, hr₁, by simpa using hsize, fun k hk => ?_⟩
  obtain ⟨hG, hg⟩ := hrow k hk
  obtain ⟨hG', hg'⟩ := hrow' k hk
  exact ⟨hG.trans hG'.symm, hg.trans hg'.symm⟩

omit [One α] [Add α] [Mul α] [Div α] [BEq α] in
/-- A row of a cone with its offset, as the program has them. -/
theorem Rows.HasSize.stated {height width : Nat} {b : Numbers α} (hr : r.HasSize height width) {c : Cone}
    (hb : c.rightSide r.g = .ok b) {k : Nat} (hk : k < height) :
    ((c.leftSide r.G).row k, b.toReals.asRows.get k 0) = c.stated (r.G.row k) (r.g.toReals.asRows.get k 0) := by
  have hnegated : r.g.negated = .ok b → b.toReals.asRows.get k 0 = -r.g.toReals.asRows.get k 0 := by
    intro hb
    obtain ⟨t, hg, hd⟩ := hr.column
    rw [hg] at hb ⊢
    obtain rfl := Except.ok.inj hb
    exact Tensor.get_asRows_map_of_lt Neg.neg hd hk Nat.one_pos
  have hrow : (r.G.map Neg.neg).row k = (r.G.row k).map Neg.neg := Matrix.row_map _ _ (hr.rows_eq ▸ hk)
  cases c with
  | eq => exact Prod.ext rfl (hnegated hb)
  | leq => exact Prod.ext rfl (hnegated hb)
  | soc => exact Prod.ext hrow (Except.ok.inj hb ▸ rfl)
  | exp => exact Prod.ext hrow (Except.ok.inj hb ▸ rfl)

/-- The rows of a cone in a program have the cone's sign. -/
theorem MadeOf.row_eq (h : p.MadeOf sense objective l cost rows) (hl : l.IsOf objective constraints ms)
    (hb : ∀ n ∈ objective :: constraints, n.Built) (c : Cone) {k : Nat} (hk : k < total (l.dims.get c)) :
    (p.A.row (total (c.before.map fun d => total (l.dims.get d)) + k),
        p.b.toReals.asRows.get (total (c.before.map fun d => total (l.dims.get d)) + k) 0) =
      c.stated ((rows.get c).G.row k) ((rows.get c).g.toReals.asRows.get k 0) := by
  have hsize : ∀ c, (rows.get c).HasSize (total (l.dims.get c)) l.width := fun c => members_hasSize hl hb (h.rows_eq c)
  have hleft : ∀ c : Cone, (c.leftSide (rows.get c).G).rows = total (l.dims.get c) ∧
      (c.leftSide (rows.get c).G).cols = l.width :=
    fun c => (c.leftSide_size _).imp (·.trans (hsize c).rows_eq) (·.trans (hsize c).cols_eq)
  obtain ⟨bounds, hbounds, hjoin⟩ := h.right_eq
  obtain ⟨hcolumns, _⟩ := exists_joined hsize hbounds
  obtain ⟨after, hall⟩ := c.exists_all_eq
  rw [← (hsize c).stated (hbounds c) hk]
  refine Prod.ext ?_ ?_
  · change p.A.row _ = _
    rw [h.left_eq, hall, Matrix.row_stack (fun d _ => hleft d) hk]
  · obtain ⟨u, hu, _, hget⟩ := Numbers.joinRows_realColumns (fun d => total (l.dims.get d)) (List.cons_ne_nil _ _)
      fun d (_ : d ∈ Cone.all) => hcolumns d
    have hb : p.b = .reals u := Except.ok.inj (hjoin.symm.trans hu)
    rw [hb]
    change u.asRows.get _ 0 = _
    rw [hget]
    change joined (Cone.all.map _) _ = _
    rw [hall]
    exact joined_part hk

/-- The rows of each constraint state what it wraps. -/
theorem MadeOf.states (h : p.MadeOf sense objective l cost rows) (hl : l.IsOf objective constraints ms)
    (hb : ∀ n ∈ objective :: constraints, n.Built) {before after : List (Cone × Node α)} {m : Cone × Node α}
    (hm : ms = before ++ m :: after) : ∃ first : Nat, l.ranges[before.length]? = some ⟨m.1, first, m.2.size⟩ ∧
      first + m.2.size ≤ l.height ∧ p.States l first m.1 m.2 := by
  have hmembers : l.members.get m.1 = membersAt m.1 before ++ m.2 :: membersAt m.1 after := by
    rw [hl.members_eq, hm]
    simp [membersAt]
  have hrows := h.rows_eq m.1
  rw [hmembers] at hrows
  obtain ⟨r₁, hr₁, hsize, hrow⟩ := plainRows_split hl (fun n hn => hl.isPart hb (hmembers ▸ hn)) hrows
  obtain ⟨block, hblock, hstack⟩ := plainRows_eq_ok hr₁
  have htotal : total ((membersAt m.1 before).map Node.size) + m.2.size ≤ total (l.dims.get m.1) := by
    rw [hl.sizes.total_get, hmembers, List.map_append, total_append, List.map_cons, total_cons]
    omega
  refine ⟨_, hl.ranges_eq before m after hm, ?_, block m.2, r₁.G, r₁.g, hblock _ List.mem_cons_self, hstack,
    hsize.rows_eq, fun k hk => ?_⟩
  · obtain ⟨rest, hall⟩ := m.1.exists_all_eq
    rw [Layout.height, hall, List.map_append, total_append, List.map_cons, total_cons]
    omega
  · obtain ⟨hleft, hright⟩ := hrow k hk
    rw [Nat.add_assoc, h.row_eq hl hb m.1 (by omega), hleft, hright]

end Program

namespace Accepted

variable [BEq α] {l : Layout α} {objective : Node α} {constraints : List (Node α)} {sense : Sense} {p : Program α}

/-- The rows of a constraint by its place among the constraints. -/
theorem states_at (h : Accepted sense objective constraints l p) {i : Nat} (hi : i < constraints.length) :
    ∃ (m : Cone × Node α) (first : Nat), constraints[i].Asks m ∧ Node.IsPart objective constraints m.2 ∧
      l.ranges[i]? = some ⟨m.1, first, m.2.size⟩ ∧ first + m.2.size ≤ l.height ∧ p.States l first m.1 m.2 := by
  obtain ⟨ms, hl⟩ := h.exists_isOf
  obtain ⟨_, _, hp⟩ := h.exists_madeOf
  obtain ⟨before, m, after, hsplit, rfl, hasks⟩ := hl.exists_split hi
  obtain ⟨first, hrange, hle, hstates⟩ := hp.states hl h.built hsplit
  have hmem : m ∈ ms := hsplit ▸ List.mem_append_right before List.mem_cons_self
  exact ⟨m, first, hasks, hl.isPart h.built (hl.mem_members.mpr hmem), hrange, hle, hstates⟩

/-- The piece of a vector for a constraint has the entries of the rows that state what the constraint wraps. -/
theorem exists_piece (h : Accepted sense objective constraints l p) (z : List α) {i : Nat}
    (hi : i < constraints.length) : ∃ (c : Cone) (child : Node α) (first : Nat), constraints[i].Asks (c, child) ∧
      p.States l first c child ∧ first + child.size ≤ l.height ∧
      (l.splitByConstraint z)[i]? = some (Axis.slice z first ((first : Int) + child.size)) := by
  obtain ⟨m, first, hasks, _, hrange, hle, hstates⟩ := h.states_at hi
  refine ⟨m.1, m.2, first, hasks, hstates, hle, ?_⟩
  rw [Layout.splitByConstraint, List.getElem?_map, hrange]
  rfl

end Accepted

end ConicForm
