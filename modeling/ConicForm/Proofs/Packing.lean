import ConicForm.Proofs.Offsets
import ConicForm.Proofs.RowPartition

/-!
# Packing

A point of a layout and the values of its variables hold the same entries: each column of the point stands for one
entry of one variable. Unpacking therefore undoes packing for all values of the declared shapes, and packing undoes
unpacking for all points.
-/

namespace ConicForm

variable {α : Type}

theorem Matrix.ext_flat [Zero α] {m n : Matrix α} (hs : m.shape = n.shape)
    (h : ∀ k < m.shape.size, m.flat k = n.flat k) : m = n := by
  obtain ⟨hrows, hcols⟩ := Shape.mk.inj hs
  refine ext_get hrows hcols fun i j hi hj => ?_
  have hget := h _ (Grid.place_lt_size m.shape hi hj)
  rw [← flat_place m j hi, ← flat_place n j (hrows ▸ hi), ← hrows]
  exact hget

namespace Layout

variable {l : Layout α} {vs : List Variable}

/-- Column `k` stands for entry `(i, j)` of a variable: the entries of one variable stand in its columns, column by
column. -/
def Lands (l : Layout α) (k : Nat) (id : Int) (i j : Nat) : Prop :=
  ∃ start s, l.Holds id start s ∧ i < s.rows ∧ j < s.cols ∧ k = start + (j * s.rows + i)

namespace Orders

theorem parted (h : l.Orders vs) : Variable.Parted vs l.offsets l.width := by
  have hsize : ∀ v ∈ vs, 0 ≤ v.size := fun v hv => Variable.size_eq (h.shaped v hv) ▸ Int.natCast_nonneg _
  rw [h.offsets_eq, h.width_eq, ← Variable.totalSize_eq h.shaped]
  exact Variable.parted_of_distinct hsize (Variable.distinct_of_ascending h.ascending)

theorem keys_eq (h : l.Orders vs) : l.offsets.map Prod.fst = l.shapes.map Prod.fst := by
  rw [h.offsets_eq, Variable.keys_offsetsFrom, h.shapes_eq, List.map_map]
  rfl

theorem holds_of_mem (h : l.Orders vs) {e : Int × Shape} (he : e ∈ l.shapes) : ∃ start, l.Holds e.1 start e.2 := by
  rw [h.shapes_eq] at he
  obtain ⟨v, hv, rfl⟩ := List.mem_map.mp he
  exact h.exists_holds hv

theorem eq_of_holds (h : l.Orders vs) {id : Int} {start start' : Nat} {s s' : Shape} (hl : l.Holds id start s)
    (hl' : l.Holds id start' s') : start = start' ∧ s = s' := by
  have hstart := (h.get?_offsets hl).symm.trans (h.get?_offsets hl')
  have hshape := (h.get?_shapes hl).symm.trans (h.get?_shapes hl')
  exact ⟨Int.ofNat.inj (Option.some.inj hstart), Option.some.inj hshape⟩

/-- The columns of a variable end before those of a variable with a larger id. -/
theorem end_le (h : l.Orders vs) {id id' : Int} {start start' : Nat} {s s' : Shape} (hl : l.Holds id start s)
    (hl' : l.Holds id' start' s') (hid : id < id') : start + s.size ≤ start' := by
  obtain ⟨v, before, after, hvs, rfl, rfl, _⟩ := h.split hl
  obtain ⟨w, before', after', hws, rfl, rfl, _⟩ := h.split hl'
  have hv : v ∈ vs := hvs ▸ List.mem_append_right _ List.mem_cons_self
  have hw : w ∈ vs := hws ▸ List.mem_append_right _ List.mem_cons_self
  have hle := h.parted.precedes v hv w hw hid _ _ hl.offset hl'.offset
  rw [Variable.size_eq (h.shaped v hv)] at hle
  omega

theorem exists_lands (h : l.Orders vs) {k : Nat} (hk : k < l.width) : ∃ id i j, l.Lands k id i j := by
  obtain ⟨v, hv, first, hoff, hle, hlt⟩ := (h.parted.covers k).mpr ⟨Int.natCast_nonneg k, Int.ofNat_lt.mpr hk⟩
  obtain ⟨start, hl⟩ := h.exists_holds hv
  have hfirst : first = start := by
    have hget := h.get?_offsets hl
    rw [Keyed.get?_eq_some_of_mem h.nodup_offsets hoff] at hget
    exact Option.some.inj hget
  rw [Variable.size_eq (h.shaped v hv)] at hlt
  have hplace : k - start < v.shape.rows * v.shape.cols := by
    change k - start < v.shape.size
    omega
  obtain ⟨hi, hj⟩ := Matrix.place_lt_size hplace
  refine ⟨v.id, _, _, start, v.shape, hl, hi, hj, ?_⟩
  rw [Nat.div_add_mod']
  omega

theorem lands_unique (h : l.Orders vs) {k : Nat} {id id' : Int} {i i' j j' : Nat} (hp : l.Lands k id i j)
    (hp' : l.Lands k id' i' j') : id = id' ∧ i = i' ∧ j = j' := by
  obtain ⟨start, s, hl, hi, hj, hk⟩ := hp
  obtain ⟨start', s', hl', hi', hj', hk'⟩ := hp'
  have hsize := Grid.place_lt_size s hi hj
  have hsize' := Grid.place_lt_size s' hi' hj'
  -- Columns of two variables are apart, and within one variable the place gives back row and column.
  rcases lt_trichotomy id id' with hid | rfl | hid
  · have := h.end_le hl hl' hid
    omega
  · obtain ⟨rfl, rfl⟩ := h.eq_of_holds hl hl'
    have hplace : j * s.rows + i = j' * s.rows + i' := by omega
    refine ⟨rfl, ?_, ?_⟩
    · rw [← Matrix.mod_place hi (i := j), hplace, Matrix.mod_place hi']
    · rw [← Matrix.div_place hi (i := j), hplace, Matrix.div_place hi']
  · have := h.end_le hl' hl hid
    omega

end Orders

/-! Points and values -/

section

variable [Zero α] {x x' : Int → Matrix α} {y y' : List α}

/-- The column for an entry holds it. -/
theorem Reads.getD_of_lands (h : l.Reads y x) {k : Nat} {id : Int} {i j : Nat} (hp : l.Lands k id i j) :
    y.getD k 0 = (x id).get i j := by
  obtain ⟨start, s, hl, hi, hj, rfl⟩ := hp
  have hs : (x id).rows = s.rows := congrArg Shape.rows (h.shape_eq hl)
  rw [h.getD_eq hl _ (Grid.place_lt_size s hi hj), ← hs]
  exact Matrix.flat_place _ j (hs ▸ hi)

theorem Reads.point_unique (h : l.Orders vs) (hy : l.Reads y x) (hy' : l.Reads y' x) : y = y' := by
  refine ext_getD 0 (hy.length_eq.trans hy'.length_eq.symm) fun k hk => ?_
  obtain ⟨id, i, j, hp⟩ := h.exists_lands (hy.length_eq ▸ hk)
  rw [hy.getD_of_lands hp, hy'.getD_of_lands hp]

theorem Reads.values_unique (h : l.Orders vs) (hx : l.Reads y x) (hx' : l.Reads y x') :
    ∀ e ∈ l.shapes, x e.1 = x' e.1 := by
  intro e he
  obtain ⟨start, hl⟩ := h.holds_of_mem he
  refine Matrix.ext_flat ((hx.shape_eq hl).trans (hx'.shape_eq hl).symm) fun k hk => ?_
  rw [hx.shape_eq hl] at hk
  rw [← hx.getD_eq hl k hk, ← hx'.getD_eq hl k hk]

/-- A point is unpacked to the values that it reads as, listed like the shapes. -/
theorem unpack_eq_ok (h : l.Orders vs) (hy : y.length = l.width) :
    ∃ x : Int → Matrix α, l.unpack y = .ok (l.shapes.map fun e => (e.1, x e.1)) ∧ l.Reads y x := by
  refine ⟨l.valueIn y, (unpack_eq h hy).trans (congrArg Except.ok ?_), reads_valueIn h hy⟩
  have hkeys : (l.offsets.map Prod.fst).map (fun id => (id, l.valueIn y id)) =
      (l.shapes.map Prod.fst).map fun id => (id, l.valueIn y id) := congrArg _ h.keys_eq
  rwa [List.map_map, List.map_map] at hkeys

end

/-- For the layout of a problem, unpacking undoes packing, packing undoes unpacking, and columns stand for the entries
of the variables one by one. -/
theorem unpack_pack_inverse [Zero α] {objective : Node α} {constraints : List (Node α)} {l : Layout α}
    (h : ofProblem objective constraints = .ok l) :
    (∀ x : Int → Matrix α, (∀ e ∈ l.shapes, (x e.1).shape = e.2) →
        l.unpack (l.pack (l.shapes.map fun e => (e.1, x e.1))) = .ok (l.shapes.map fun e => (e.1, x e.1)) ∧
        ∀ k id i j, l.Lands k id i j →
          (l.pack (l.shapes.map fun e => (e.1, x e.1))).getD k 0 = (x id).get i j) ∧
      (∀ y : List α, y.length = l.width → ∃ x : Int → Matrix α, (∀ e ∈ l.shapes, (x e.1).shape = e.2) ∧
        l.unpack y = .ok (l.shapes.map fun e => (e.1, x e.1)) ∧
        l.pack (l.shapes.map fun e => (e.1, x e.1)) = y ∧
        ∀ k id i j, l.Lands k id i j → (x id).get i j = y.getD k 0) ∧
      (∀ k < l.width, ∃! p : Int × Nat × Nat, l.Lands k p.1 p.2.1 p.2.2) ∧
      ∀ e ∈ l.shapes, ∀ i < e.2.rows, ∀ j < e.2.cols, ∃! k, k < l.width ∧ l.Lands k e.1 i j := by
  obtain ⟨_, vs, _, _, hvs⟩ := exists_orders h
  refine ⟨fun x hx => ?_, fun y hy => ?_, fun k hk => ?_, fun e he i hi j hj => ?_⟩
  · have hreads := pack_reads hvs hx
    obtain ⟨x', hunpack, hreads'⟩ := unpack_eq_ok hvs hreads.length_eq
    refine ⟨?_, fun k id i j hp => hreads.getD_of_lands hp⟩
    rw [hunpack, List.map_congr_left fun e he => by rw [hreads'.values_unique hvs hreads e he]]
  · obtain ⟨x, hunpack, hreads⟩ := unpack_eq_ok hvs hy
    have hx : ∀ e ∈ l.shapes, (x e.1).shape = e.2 := by
      intro e he
      obtain ⟨start, hl⟩ := hvs.holds_of_mem he
      exact hreads.shape_eq hl
    exact ⟨x, hx, hunpack, (pack_reads hvs hx).point_unique hvs hreads,
      fun k id i j hp => (hreads.getD_of_lands hp).symm⟩
  · obtain ⟨id, i, j, hp⟩ := hvs.exists_lands hk
    refine ⟨(id, i, j), hp, fun p hp' => ?_⟩
    obtain ⟨hid, hi, hj⟩ := hvs.lands_unique hp' hp
    exact Prod.ext hid (Prod.ext hi hj)
  · obtain ⟨start, hl⟩ := hvs.holds_of_mem he
    have hplace := Grid.place_lt_size e.2 hi hj
    have hle := hvs.le_width hl
    refine ⟨start + (j * e.2.rows + i), ⟨by omega, start, e.2, hl, hi, hj, rfl⟩, ?_⟩
    rintro k ⟨_, start', s', hl', _, _, rfl⟩
    obtain ⟨rfl, rfl⟩ := hvs.eq_of_holds hl' hl
    rfl

theorem unpack_pack_inverse_crude :
    let y : List Int := [0, 1, 2, 3, 4, 5, 6, 7, 8, 9, 10, 11]
    ∃ x : Int → Matrix Int, Sample.crudeLayout.unpack y =
        .ok (Sample.crudeLayout.shapes.map fun e => (e.1, x e.1)) ∧
      Sample.crudeLayout.pack (Sample.crudeLayout.shapes.map fun e => (e.1, x e.1)) = y ∧
      (x 3).toRows = [[6, 9], [7, 10], [8, 11]] := by
  intro y
  obtain ⟨_, hpoints, _⟩ := unpack_pack_inverse Sample.ofProblem_crude
  obtain ⟨x, hx, hunpack, hpack, hget⟩ := hpoints y rfl
  have hshape : (x 3).shape = ⟨3, 2⟩ := hx (3, ⟨3, 2⟩) (by decide)
  obtain ⟨hrows, hcols⟩ := Shape.mk.inj hshape
  have hentry : ∀ i < 3, ∀ j < 2, (x 3).get i j = y.getD (6 + (j * 3 + i)) 0 :=
    fun i hi j hj => hget _ 3 i j ⟨6, ⟨3, 2⟩, ⟨by decide, by decide⟩, hi, hj, rfl⟩
  refine ⟨x, hunpack, hpack, ?_⟩
  rw [Matrix.toRows, hrows, hcols]
  simp only [List.range, List.range.loop, List.map_cons, List.map_nil, hentry, Nat.reduceLT]
  rfl

end Layout

end ConicForm
