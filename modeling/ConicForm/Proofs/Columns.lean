import ConicForm.Point
import ConicForm.Proofs.Places
import ConicForm.Proofs.Variables

/-!
# Columns of a layout

A layout gives its variables, in the order of their ids, one range of columns after the other. A point reads
as values of the variables if it has the entries of each of them in its range: a packed point does as the
values that were packed, and every point does as the values that it is unpacked to.
-/

namespace ConicForm

namespace Axis

theorem slice_ofNat {β : Type} {xs : List β} {first count : Nat} (h : first + count ≤ xs.length) :
    slice xs first ((first : Int) + count) = (xs.drop first).take count := by
  have hf : cut xs.length (first : Int) = first := by
    rw [cut_ofNat]
    omega
  have hl : cut xs.length ((first : Int) + count) = first + count := by
    rw [← Int.natCast_add, cut_ofNat]
    omega
  simp only [slice, hf, hl, Nat.add_sub_cancel_left]

end Axis

namespace Variable

/-- Variables with the dimensions of matrices. -/
def Shaped (vs : List Variable) : Prop := ∀ v ∈ vs, v = .ofShape v.id v.shape

/-- The number of columns of some variables. -/
def columns (vs : List Variable) : Nat := total (vs.map fun v => v.shape.size)

theorem size_eq {v : Variable} (h : v = .ofShape v.id v.shape) : v.size = v.shape.size := by
  rw [h, shape_ofShape]
  exact (Int.natCast_mul _ _).symm

theorem totalSize_eq {vs : List Variable} (h : Shaped vs) : totalSize vs = columns vs := by
  induction vs with
  | nil => rfl
  | cons v vs ih =>
    rw [totalSize, size_eq (h v List.mem_cons_self), ih fun w hw => h w (List.mem_cons_of_mem v hw)]
    exact (Int.natCast_add _ _).symm

theorem keys_offsetsFrom (first : Int) (vs : List Variable) :
    (offsetsFrom first vs).map Prod.fst = vs.map Variable.id := by
  induction vs generalizing first with
  | nil => rfl
  | cons v vs ih => exact congrArg (v.id :: ·) (ih _)

theorem offsetsFrom_append (first : Int) (vs ws : List Variable) :
    offsetsFrom first (vs ++ ws) = offsetsFrom first vs ++ offsetsFrom (first + totalSize vs) ws := by
  induction vs generalizing first with
  | nil => exact congrArg (offsetsFrom · ws) (Int.add_zero first).symm
  | cons v vs ih =>
    rw [List.cons_append, offsetsFrom, ih, totalSize, Int.add_assoc]
    rfl

theorem offsetsFrom_append_of_shaped {vs : List Variable} (h : Shaped vs) (first : Int) (ws : List Variable) :
    offsetsFrom first (vs ++ ws) = offsetsFrom first vs ++ offsetsFrom (first + columns vs) ws := by
  rw [offsetsFrom_append, totalSize_eq h]

/-- The ranges of some variables end before the next column. -/
theorem range_of_mem_offsetsFrom {vs : List Variable} (h : Shaped vs) {first : Int} {e : Int × Int}
    (he : e ∈ offsetsFrom first vs) :
    ∃ v ∈ vs, e.1 = v.id ∧ first ≤ e.2 ∧ e.2 + v.shape.size ≤ first + columns vs := by
  induction vs generalizing first with
  | nil => cases he
  | cons v vs ih =>
    have hv := size_eq (h v List.mem_cons_self)
    have hc : columns (v :: vs) = v.shape.size + columns vs := rfl
    rcases List.mem_cons.mp he with rfl | he
    · exact ⟨v, List.mem_cons_self, rfl, le_rfl, by simp only; omega⟩
    · obtain ⟨w, hw, hid, hle, hend⟩ := ih (fun w hw => h w (List.mem_cons_of_mem v hw)) he
      exact ⟨w, List.mem_cons_of_mem v hw, hid, by omega, by omega⟩

end Variable

namespace Node

variable {α : Type} {objective : Node α} {constraints : List (Node α)} {vs : List Variable}

theorem shaped_of_leafVariables {n : Node α} (h : n.leafVariables = .ok vs) : Variable.Shaped vs := by
  induction n using induction_on generalizing vs with
  | step n ih =>
    rw [leafVariables_eq] at h
    split at h
    · obtain ⟨v, hv, rfl⟩ := map_eq_ok.mp h
      obtain ⟨id, _, rfl⟩ := asVariable_eq_ok hv
      intro w hw
      rw [List.mem_singleton.mp hw, Variable.shape_ofShape]
      rfl
    · obtain ⟨wss, hwss, rfl⟩ := map_eq_ok.mp h
      intro v hv
      obtain ⟨ws, hws, hv⟩ := List.mem_flatten.mp hv
      obtain ⟨x, hx, hxw⟩ := exists_of_mem_mapM hwss hws
      exact ih x hx hxw v hv

/-- The variables of a problem have the dimensions of its nodes, however these were made. -/
theorem shaped_of_problemVariables (h : objective.problemVariables constraints = .ok vs) : Variable.Shaped vs := by
  obtain ⟨first, hfirst, h⟩ := bind_eq_ok.mp h
  obtain ⟨others, hothers, h⟩ := bind_eq_ok.mp h
  obtain rfl := Except.ok.inj h
  intro v hv
  rcases List.mem_append.mp hv with hv | hv
  · rw [occurrences_eq] at hfirst
    exact shaped_of_leafVariables hfirst v hv
  · obtain ⟨ws, hws, hv⟩ := List.mem_flatten.mp hv
    obtain ⟨n, _, hn⟩ := exists_of_mem_mapM hothers hws
    rw [occurrences_eq] at hn
    exact shaped_of_leafVariables hn v hv

end Node

namespace Layout

variable {α : Type} {l : Layout α} {vs : List Variable}

/-- The columns of a layout are those of some variables. -/
structure Orders (l : Layout α) (vs : List Variable) : Prop where
  ascending : Variable.Ascending vs
  shaped : Variable.Shaped vs
  offsets_eq : l.offsets = Variable.offsetsFrom 0 vs
  shapes_eq : l.shapes = vs.map fun v => (v.id, v.shape)
  width_eq : l.width = Variable.columns vs

/-- A variable with its first column and its shape. -/
structure Holds (l : Layout α) (id : Int) (start : Nat) (s : Shape) : Prop where
  offset : (id, (start : Int)) ∈ l.offsets
  shape : (id, s) ∈ l.shapes

/-- The shape of a variable of a layout. -/
def shapeOf (l : Layout α) (id : Int) : Shape := (Keyed.get? l.shapes id).getD ⟨0, 0⟩

/-- The first column of a variable. -/
def startOf (l : Layout α) (id : Int) : Nat := ((Keyed.get? l.offsets id).getD 0).toNat

namespace Orders

theorem nodup_ids (h : l.Orders vs) : (vs.map Variable.id).Nodup :=
  List.pairwise_map.mpr (List.Pairwise.imp (fun hab => Int.ne_of_lt hab) h.ascending)

theorem nodup_offsets (h : l.Orders vs) : (l.offsets.map Prod.fst).Nodup := by
  rw [h.offsets_eq, Variable.keys_offsetsFrom]
  exact h.nodup_ids

theorem nodup_shapes (h : l.Orders vs) : (l.shapes.map Prod.fst).Nodup := by
  rw [h.shapes_eq, List.map_map]
  exact h.nodup_ids

theorem get?_offsets (h : l.Orders vs) {id : Int} {start : Nat} {s : Shape} (hl : l.Holds id start s) :
    Keyed.get? l.offsets id = some (start : Int) := Keyed.get?_eq_some_of_mem h.nodup_offsets hl.offset

theorem get?_shapes (h : l.Orders vs) {id : Int} {start : Nat} {s : Shape} (hl : l.Holds id start s) :
    Keyed.get? l.shapes id = some s := Keyed.get?_eq_some_of_mem h.nodup_shapes hl.shape

theorem shapeOf_eq (h : l.Orders vs) {id : Int} {start : Nat} {s : Shape} (hl : l.Holds id start s) :
    l.shapeOf id = s := by
  rw [shapeOf, h.get?_shapes hl, Option.getD_some]

theorem startOf_eq (h : l.Orders vs) {id : Int} {start : Nat} {s : Shape} (hl : l.Holds id start s) :
    l.startOf id = start := by
  rw [startOf, h.get?_offsets hl, Option.getD_some, Int.toNat_natCast]

/-- Each variable has the columns after those of the variables before it. -/
theorem split (h : l.Orders vs) {id : Int} {start : Nat} {s : Shape} (hl : l.Holds id start s) :
    ∃ v before after, vs = before ++ v :: after ∧ v.id = id ∧ v.shape = s ∧
      start = Variable.columns before := by
  have hs := hl.shape
  rw [h.shapes_eq] at hs
  obtain ⟨v, hv, he⟩ := List.mem_map.mp hs
  obtain ⟨rfl, rfl⟩ := Prod.ext_iff.mp he
  obtain ⟨before, after, rfl⟩ := List.append_of_mem hv
  refine ⟨v, before, after, rfl, rfl, rfl, ?_⟩
  have hb : Variable.Shaped before := fun w hw => h.shaped w (List.mem_append_left _ hw)
  have hoff : (v.id, (Variable.columns before : Int)) ∈ l.offsets := by
    rw [h.offsets_eq, Variable.offsetsFrom_append_of_shaped hb, Int.zero_add]
    exact List.mem_append_right _ List.mem_cons_self
  have hget := h.get?_offsets hl
  rw [Keyed.get?_eq_some_of_mem h.nodup_offsets hoff] at hget
  exact_mod_cast (Option.some.inj hget).symm

theorem exists_holds (h : l.Orders vs) {v : Variable} (hv : v ∈ vs) :
    ∃ start, l.Holds v.id start v.shape := by
  have hs : (v.id, v.shape) ∈ l.shapes := by
    rw [h.shapes_eq]
    exact List.mem_map.mpr ⟨v, hv, rfl⟩
  obtain ⟨before, after, rfl⟩ := List.append_of_mem hv
  have hb : Variable.Shaped before := fun w hw => h.shaped w (List.mem_append_left _ hw)
  refine ⟨Variable.columns before, ?_, hs⟩
  rw [h.offsets_eq, Variable.offsetsFrom_append_of_shaped hb, Int.zero_add]
  exact List.mem_append_right _ List.mem_cons_self

/-- What the offsets list is the first column of some variable. -/
theorem exists_holds_of_offset (h : l.Orders vs) {e : Int × Int} (he : e ∈ l.offsets) :
    ∃ (start : Nat) (s : Shape), e.2 = (start : Int) ∧ l.Holds e.1 start s := by
  have hid : e.1 ∈ vs.map Variable.id := by
    rw [← Variable.keys_offsetsFrom 0, ← h.offsets_eq]
    exact List.mem_map.mpr ⟨e, he, rfl⟩
  obtain ⟨v, hv, hve⟩ := List.mem_map.mp hid
  obtain ⟨start, hl⟩ := h.exists_holds hv
  rw [hve] at hl
  have hget := h.get?_offsets hl
  rw [Keyed.get?_eq_some_of_mem h.nodup_offsets he] at hget
  exact ⟨start, v.shape, Option.some.inj hget, hl⟩

theorem le_width (h : l.Orders vs) {id : Int} {start : Nat} {s : Shape} (hl : l.Holds id start s) :
    start + s.size ≤ l.width := by
  obtain ⟨v, before, after, rfl, rfl, rfl, rfl⟩ := h.split hl
  rw [h.width_eq, Variable.columns, Variable.columns, List.map_append, total_append, List.map_cons, total_cons]
  omega

end Orders

/-! Points -/

/-- A point that has the entries of each variable's value, column by column, from its first column on. -/
structure Reads [Zero α] (l : Layout α) (y : List α) (v : Int → Matrix α) : Prop where
  length_eq : y.length = l.width
  shape_eq : ∀ {id start s}, l.Holds id start s → (v id).shape = s
  getD_eq : ∀ {id start s}, l.Holds id start s → ∀ j < s.size, y.getD (start + j) 0 = (v id).flat j

variable [Zero α]

theorem length_pack (l : Layout α) (values : List (Int × Matrix α)) : (l.pack values).length = l.width := by
  rw [pack, List.length_map, List.length_range]

theorem pack_reads (h : l.Orders vs) {x : Int → Matrix α} (hx : ∀ e ∈ l.shapes, (x e.1).shape = e.2) :
    l.Reads (l.pack (l.shapes.map fun e => (e.1, x e.1))) x := by
  have hkeys : ((l.shapes.map fun e => (e.1, x e.1)).map Prod.fst).Nodup := by
    rw [List.map_map]
    exact h.nodup_shapes
  have hget : ∀ {id s}, (id, s) ∈ l.shapes →
      Keyed.get? (l.shapes.map fun e => (e.1, x e.1)) id = some (x id) := by
    intro id s hs
    exact Keyed.get?_eq_some_of_mem hkeys (List.mem_map.mpr ⟨_, hs, rfl⟩)
  refine ⟨length_pack _ _, fun hl => hx _ hl.shape, fun {id start s} hl j hj => ?_⟩
  have hwidth := h.le_width hl
  rw [pack, getD_map_range, if_pos (by omega)]
  obtain ⟨v, before, after, rfl, rfl, rfl, rfl⟩ := h.split hl
  have hb : Variable.Shaped before := fun w hw => h.shaped w (List.mem_append_left _ hw)
  have hv : (x v.id).shape = v.shape := hx _ hl.shape
  rw [h.offsets_eq, Variable.offsetsFrom_append_of_shaped hb, List.findSome?_append, List.findSome?_eq_none_iff.mpr,
    Option.none_or, Variable.offsetsFrom, List.findSome?_cons, hget hl.shape]
  · simp only [Int.zero_add, hv]
    rw [if_pos (by omega)]
    have hp : ((Variable.columns before + j : Nat) : Int) - (Variable.columns before : Int) = j := by omega
    simp only [hp, Int.toNat_natCast, Option.getD_some]
    rfl
  · intro e he
    obtain ⟨w, hw, hid, _, hend⟩ := Variable.range_of_mem_offsetsFrom hb he
    have hs : (w.id, w.shape) ∈ l.shapes := by
      rw [h.shapes_eq]
      exact List.mem_map.mpr ⟨w, List.mem_append_left _ hw, rfl⟩
    have hshape : (x w.id).shape = w.shape := hx _ hs
    rw [hid, hget hs]
    simp only [hshape]
    rw [if_neg (by omega)]

/-- The values that are listed for the variables; a variable that is not listed has no entries. -/
def valuesOf (values : List (Int × Matrix α)) (id : Int) : Matrix α :=
  (Keyed.get? values id).getD (Matrix.zeros 0 0)

/-- The value that a point has for a variable, in the columns of the variable. -/
def valueIn (l : Layout α) (y : List α) (id : Int) : Matrix α :=
  Matrix.ofVec (l.shapeOf id).rows (l.shapeOf id).cols ((y.drop (l.startOf id)).take (l.shapeOf id).size)

section

variable {y : List α}

omit [Zero α] in
/-- In a point of the right length the columns of a variable are as many as its entries. -/
theorem length_valueIn (h : l.Orders vs) (hy : y.length = l.width) {id : Int} {start : Nat} {s : Shape}
    (hl : l.Holds id start s) : ((y.drop start).take s.size).length = s.size := by
  have hwidth := h.le_width hl
  rw [List.length_take, List.length_drop]
  omega

theorem valueIn_eq (h : l.Orders vs) {id : Int} {start : Nat} {s : Shape} (hl : l.Holds id start s) :
    l.valueIn y id = Matrix.ofVec s.rows s.cols ((y.drop start).take s.size) := by
  rw [valueIn, h.shapeOf_eq hl, h.startOf_eq hl]

theorem unpack_eq (h : l.Orders vs) (hy : y.length = l.width) :
    l.unpack y = .ok (l.offsets.map fun e => (e.1, l.valueIn y e.1)) := by
  apply mapM_eq_ok_map
  intro e he
  obtain ⟨start, s, hstart, hl⟩ := h.exists_holds_of_offset he
  have hslice : Axis.slice y (start : Int) ((start : Int) + s.size) = (y.drop start).take s.size :=
    Axis.slice_ofNat (hy ▸ h.le_width hl)
  simp only [h.get?_shapes hl, valueAt, hstart, hslice, length_valueIn h hy hl, if_true, valueIn_eq h hl]
  rfl

theorem reads_valueIn (h : l.Orders vs) (hy : y.length = l.width) : l.Reads y (l.valueIn y) := by
  refine ⟨hy, fun {id start s} hl => ?_, fun {id start s} hl j hj => ?_⟩
  · rw [valueIn_eq h hl]
    rfl
  · rw [valueIn_eq h hl, Matrix.flat, Matrix.vec_ofVec (length_valueIn h hy hl)]
    simp [List.getD_eq_getElem?_getD, hj]

theorem Reads.congr {v w : Int → Matrix α} (h : l.Reads y v)
    (hw : ∀ {id start s}, l.Holds id start s → w id = v id) : l.Reads y w :=
  ⟨h.length_eq, fun hl => (congrArg Matrix.shape (hw hl)).trans (h.shape_eq hl),
    fun hl j hj => (h.getD_eq hl j hj).trans (congrArg (Matrix.flat · j) (hw hl).symm)⟩

end

/-- Every point of the right length is unpacked, to the values that it reads as. -/
theorem unpack_reads (h : l.Orders vs) {y : List α} (hy : y.length = l.width) :
    ∃ values, l.unpack y = .ok values ∧ values.map Prod.fst = l.offsets.map Prod.fst ∧
      l.Reads y (valuesOf values) := by
  have hkeys : (l.offsets.map fun e => (e.1, l.valueIn y e.1)).map Prod.fst = l.offsets.map Prod.fst := by
    rw [List.map_map]
    rfl
  refine ⟨_, unpack_eq h hy, hkeys, (reads_valueIn h hy).congr fun {id start s} hl => ?_⟩
  have hmem : (id, l.valueIn y id) ∈ l.offsets.map fun e => (e.1, l.valueIn y e.1) :=
    List.mem_map.mpr ⟨_, hl.offset, rfl⟩
  rw [valuesOf, Keyed.get?_eq_some_of_mem (hkeys ▸ h.nodup_offsets) hmem]
  rfl

end Layout

end ConicForm
