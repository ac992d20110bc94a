import ConicForm.Proofs.Places
import ConicForm.Proofs.Slices
import Mathlib.Data.Set.Function

/-!
# What the address map shows

The address map of a shape puts its cells and the places of the column by column order into one-to-one
correspondence. An index is followed down to the cells that it reads: these depend on the dimensions only and are
cells of the array. So what any index selects from the map lists the places from which the same selection of a
matrix is gathered.
-/

namespace ConicForm

namespace Tensor

variable {α : Type}

/-! Indices inside an array -/

theorem volume_pos {dims : List Nat} (h : ∀ d ∈ dims, 0 < d) : 0 < volume dims := by
  induction dims with
  | nil => exact Nat.one_pos
  | cons d ds ih =>
    obtain ⟨hd, hds⟩ := List.forall_mem_cons.mp h
    exact Nat.mul_pos hd (ih hds)

theorem place_nil (dims : List Nat) : place dims [] = 0 := by
  cases dims <;> rfl

theorem place_lt_volume {index dims : List Nat} (h : List.Forall₂ (· < ·) index dims) :
    place dims index < volume dims := by
  induction h with
  | nil => exact Nat.one_pos
  | cons hi _ ih => exact Matrix.place_lt hi ih

theorem indexOf_lt {dims : List Nat} {k : Nat} (hk : k < volume dims) :
    List.Forall₂ (· < ·) (indexOf dims k) dims := by
  induction dims generalizing k with
  | nil => exact .nil
  | cons d ds ih =>
    obtain ⟨hmod, hdiv⟩ := Matrix.place_lt_size (r := volume ds) (c := d) (by rwa [Nat.mul_comm])
    exact .cons hdiv (ih hmod)

theorem indexOf_place {index dims : List Nat} (h : List.Forall₂ (· < ·) index dims) :
    indexOf dims (place dims index) = index := by
  induction h with
  | nil => rfl
  | cons _ htail ih =>
    have hlt := place_lt_volume htail
    rw [place, indexOf, Matrix.div_place hlt, Matrix.mod_place hlt, ih]

theorem get_ofFn [Zero α] (f : List Nat → α) {index dims : List Nat} (h : List.Forall₂ (· < ·) index dims) :
    (ofFn dims f).get index = f index := by
  have hlt := place_lt_volume h
  rw [get, ofFn, Array.getD_eq_getD_getElem?, Array.getElem?_ofFn, dif_pos hlt, Option.getD_some, indexOf_place h]

theorem get_mem_or_eq_zero [Zero α] (t : Tensor α) (index : List Nat) : t.get index ∈ t.toList ∨ t.get index = 0 := by
  rw [get, Array.getD_eq_getD_getElem?]
  cases h : t.entries[place t.dims index]? with
  | none => exact .inr rfl
  | some x => exact .inl (Array.mem_toList_iff.mpr (Array.mem_of_getElem? h))

/-- The indices of an array in the order in which the first one moves fastest. -/
def order (dims : List Nat) : List (List Nat) :=
  (List.range (volume dims.reverse)).map fun k => (indexOf dims.reverse k).reverse

theorem vec_ofFn [Zero α] (dims : List Nat) (f : List Nat → α) : (ofFn dims f).vec = (order dims).map f := by
  rw [vec_eq_toList_transposed, transposed, dims_ofFn, toList, ofFn, Array.toList_ofFn, List.ofFn_eq_map, order,
    List.map_map, ← List.map_coe_finRange_eq_range, List.map_map]
  apply List.map_congr_left
  intro k _
  have hlt := List.forall₂_reverse_iff.mpr (indexOf_lt k.isLt)
  rw [List.reverse_reverse] at hlt
  exact get_ofFn f hlt

/-- An array with two axes as a matrix. -/
theorem ofFn_pair [Zero α] (r c : Nat) (f : List Nat → α) :
    ofFn [r, c] f = ofMatrix (Matrix.ofFn r c fun i j => f [i, j]) := by
  have hv : volume [r, c] = r * c := by simp [volume]
  refine (Tensor.mk.injEq ..).mpr ⟨rfl, Array.ext ?_ ?_⟩
  · simp [Matrix.ofFn, hv]
  · intro k _ _
    simp [Matrix.ofFn, indexOf]

theorem eq_ofList {t : Tensor α} {n : Nat} {xs : List α} (hd : t.dims = [n]) (h : t.toList = xs) : t = ofList xs := by
  have hn : t.dims = [xs.length] := by rw [← h, length_toList hd, hd]
  obtain ⟨dims, entries, hs⟩ := t
  exact (Tensor.mk.injEq ..).mpr ⟨hn, congrArg List.toArray h⟩

end Tensor

namespace Selector

open Tensor (place volume_pos)

/-- Parts that read every axis within its size. -/
inductive Within : List Part → List Nat → Prop
  | nil : Within [] []
  | kept {places : List Nat} {d : Nat} {ps : List Part} {dims : List Nat} (hlt : ∀ p ∈ places, p < d)
      (hrest : Within ps dims) : Within (.kept places :: ps) (d :: dims)
  | added {ps : List Part} {dims : List Nat} (hrest : Within ps dims) : Within (.added :: ps) dims
  | read {places : Tensor Nat} {d : Nat} {ps : List Part} {dims : List Nat} (hlt : ∀ p ∈ places.toList, p < d)
      (hrest : Within ps dims) : Within (.read places :: ps) (d :: dims)
  | addedRead {count : Nat} {ps : List Part} {dims : List Nat} (hrest : Within ps dims) :
      Within (.addedRead count :: ps) dims

theorem place_sourceIndex_lt {ps : List Part} {dims : List Nat} (h : Within ps dims) (hpos : ∀ d ∈ dims, 0 < d)
    (common index : List Nat) : place dims (sourceIndex common ps index) < volume dims := by
  induction h generalizing index with
  | nil => exact Nat.one_pos
  | @kept places d ps dims hlt _ ih =>
    obtain ⟨hd, hdims⟩ := List.forall_mem_cons.mp hpos
    cases index with
    | nil => exact volume_pos hpos
    | cons i is =>
      have hi : places.getD i 0 < d := by
        rw [List.getD_eq_getElem?_getD]
        cases hp : places[i]? with
        | none => exact hd
        | some p => exact hlt p (List.mem_of_getElem? hp)
      exact Matrix.place_lt hi (ih hdims is)
  | added _ ih =>
    cases index with
    | nil =>
      rw [sourceIndex, Tensor.place_nil]
      · exact Tensor.volume_pos hpos
      all_goals exact nofun
    | cons i is => exact ih hpos is
  | @read places d ps dims hlt _ ih =>
    obtain ⟨hd, hdims⟩ := List.forall_mem_cons.mp hpos
    have hi : places.getRepeated common < d := by
      rcases Tensor.get_mem_or_eq_zero places _ with h | h
      · exact hlt _ h
      · exact lt_of_eq_of_lt h hd
    exact Matrix.place_lt hi (ih hdims index)
  | addedRead _ ih => exact ih hpos index

theorem source_lt {d : Nat} (hd : 0 < d) (n : Int) : Axis.source d n < d := by
  rw [Axis.source]
  omega

theorem places_lt {s : Slice} {d : Nat} {places : List Nat} (h : s.places d = .ok places) : ∀ p ∈ places, p < d := by
  rw [Slice.places] at h
  split at h
  · cases h
  · next ps hps =>
    obtain rfl : ps = places := by
      split at h
      · cases h
      · exact Except.ok.inj h
    obtain ⟨sp, hsp, hps⟩ := bind_eq_ok.mp hps
    obtain rfl := Except.ok.inj hps
    intro p hp
    obtain ⟨q, hq, rfl⟩ := List.mem_map.mp hp
    have := (Slice.span_onAxis hsp (by omega)).mem_positions hq
    omega

theorem lt_of_mem_trueIndices {t : Tensor Bool} {index : List Nat} (h : index ∈ trueIndices t) :
    List.Forall₂ (· < ·) index t.dims := by
  obtain ⟨⟨b, k⟩, hk, rfl⟩ := List.mem_map.mp h
  have hlt := List.snd_lt_of_mem_zipIdx (List.mem_of_mem_filter hk)
  apply Tensor.indexOf_lt
  rwa [Tensor.toList, Array.length_toList, t.size_entries, Nat.add_zero] at hlt

/-- The positions of the true entries of a mask, axis by axis. -/
def maskReads (t : Tensor Bool) : List (Tensor Nat) :=
  (List.range t.rank).map fun axis => .ofList ((trueIndices t).map fun index => index.getD axis 0)

theorem maskReads_lt (t : Tensor Bool) :
    List.Forall₂ (fun (r : Tensor Nat) d => ∀ p ∈ r.toList, p < d) (maskReads t) t.dims := by
  have hlen : (maskReads t).length = t.dims.length := by rw [maskReads, List.length_map, List.length_range, Tensor.rank]
  apply List.forall₂_iff_get.mpr ⟨hlen, ?_⟩
  intro axis _ hd p hp
  simp only [maskReads, List.get_eq_getElem, List.getElem_map, List.getElem_range, Tensor.ofList, Tensor.toList,
    List.mem_map] at hp
  obtain ⟨index, hindex, rfl⟩ := hp
  have hlt := lt_of_mem_trueIndices hindex
  have hi : axis < index.length := hlt.length_eq ▸ hd
  rw [List.getD_eq_getElem?_getD, List.getElem?_eq_getElem hi]
  exact (List.forall₂_iff_get.mp hlt).2 axis hi hd

theorem parts_mask_eq_ok {t : Tensor Bool} {rest : List Selector} {dims : List Nat} {ps : List Part}
    (h : parts (.mask t :: rest) dims = .ok ps) :
    (∃ count qs, parts rest dims = .ok qs ∧ ps = .addedRead count :: qs) ∨
      ∃ others qs, dims = t.dims ++ others ∧ parts rest others = .ok qs ∧ ps = (maskReads t).map .read ++ qs := by
  rw [parts] at h
  split at h
  · obtain ⟨qs, hqs, hps⟩ := bind_eq_ok.mp h
    exact .inl ⟨_, qs, hqs, (Except.ok.inj hps).symm⟩
  · dsimp only at h
    split at h
    · cases h
    · next htake =>
      obtain ⟨qs, hqs, hps⟩ := bind_eq_ok.mp h
      refine .inr ⟨dims.drop t.rank, qs, ?_, hqs, ?_⟩
      · rw [← not_not.mp htake, List.take_append_drop]
      · rw [← Except.ok.inj hps, maskReads, List.map_map]
        rfl

theorem Within.append {reads : List (Tensor Nat)} {ds dims : List Nat} {ps : List Part}
    (h : List.Forall₂ (fun (r : Tensor Nat) d => ∀ p ∈ r.toList, p < d) reads ds) (hrest : Within ps dims) :
    Within (reads.map .read ++ ps) (ds ++ dims) := by
  induction h with
  | nil => exact hrest
  | cons hlt _ ih => exact .read hlt ih

theorem within_kept (dims : List Nat) : Within (dims.map fun d => .kept (List.range d)) dims := by
  induction dims with
  | nil => exact .nil
  | cons d ds ih => exact .kept (fun p hp => List.mem_range.mp hp) ih

/-- An index is made of parts that stay within the axes. -/
theorem parts_within {index : List Selector} {dims : List Nat} {ps : List Part} (h : parts index dims = .ok ps)
    (hpos : ∀ d ∈ dims, 0 < d) : Within ps dims := by
  induction index generalizing dims ps with
  | nil => exact Except.ok.inj h ▸ within_kept dims
  | cons s rest ih =>
    cases s with
    | newAxis =>
      obtain ⟨qs, hqs, hps⟩ := bind_eq_ok.mp h
      exact Except.ok.inj hps ▸ .added (ih hqs hpos)
    | mask t =>
      obtain ⟨_, qs, hqs, rfl⟩ | ⟨others, qs, rfl, hqs, rfl⟩ := parts_mask_eq_ok h
      · exact .addedRead (ih hqs hpos)
      · exact (ih hqs fun d hd => hpos d (List.mem_append_right _ hd)).append (maskReads_lt t)
    | position n =>
      cases dims with
      | nil => cases h
      | cons d dims =>
        obtain ⟨hd, hdims⟩ := List.forall_mem_cons.mp hpos
        obtain ⟨qs, hqs, hps⟩ := bind_eq_ok.mp h
        refine Except.ok.inj hps ▸ .read ?_ (ih hqs hdims)
        intro p hp
        obtain rfl := List.mem_singleton.mp hp
        exact source_lt hd n
    | slice s =>
      cases dims with
      | nil => cases h
      | cons d dims =>
        obtain ⟨hd, hdims⟩ := List.forall_mem_cons.mp hpos
        obtain ⟨places, hplaces, h⟩ := bind_eq_ok.mp h
        obtain ⟨qs, hqs, hps⟩ := bind_eq_ok.mp h
        exact Except.ok.inj hps ▸ .kept (places_lt hplaces) (ih hqs hdims)
    | positions t =>
      cases dims with
      | nil => cases h
      | cons d dims =>
        obtain ⟨hd, hdims⟩ := List.forall_mem_cons.mp hpos
        obtain ⟨qs, hqs, hps⟩ := bind_eq_ok.mp h
        refine Except.ok.inj hps ▸ .read ?_ (ih hqs hdims)
        intro p hp
        rw [Tensor.toList, Tensor.map, Array.toList_map] at hp
        obtain ⟨n, _, rfl⟩ := List.mem_map.mp hp
        exact source_lt hd n

/-- The cell of the array that an index reads for a cell of what it selects. -/
def cell (common : List Nat) (ps : List Part) (i : List Nat) : List Nat :=
  let before := (ps.takeWhile fun p => p.readDims?.isNone).length
  sourceIndex ((i.drop before).take common.length) ps (i.take before ++ i.drop (before + common.length))

theorem select_eq {α : Type} [Zero α] {t : Tensor α} {index : List Selector} {ps : List Part}
    (h : parts index t.dims = .ok ps) :
    t.select index = (readDims ps).elim (.error .cannotStretch) fun common =>
      .ok (.ofFn (selectedDims common ps) fun i => t.get (cell common ps i)) := by
  rw [Tensor.select, h]
  simp only [bind, Except.bind]
  cases readDims ps <;> rfl

/-- An index reads the same cells of all arrays with the same dimensions, or is refused alike. -/
theorem select_cases (index : List Selector) {dims : List Nat} (hpos : ∀ d ∈ dims, 0 < d) :
    (∃ e, ∀ {α : Type} [Zero α] (t : Tensor α), t.dims = dims → t.select index = .error e) ∨
      ∃ (selected : List Nat) (source : List Nat → List Nat), (∀ i, place dims (source i) < volume dims) ∧
        ∀ {α : Type} [Zero α] (t : Tensor α), t.dims = dims →
          t.select index = .ok (.ofFn selected fun i => t.get (source i)) := by
  cases hparts : parts index dims with
  | error e =>
    refine .inl ⟨e, fun t ht => ?_⟩
    rw [Tensor.select, ht, hparts]
    rfl
  | ok ps =>
    cases hread : readDims ps with
    | none =>
      refine .inl ⟨.cannotStretch, fun t ht => ?_⟩
      rw [select_eq (ht ▸ hparts), hread]
      rfl
    | some common =>
      refine .inr ⟨selectedDims common ps, cell common ps, ?_, fun t ht => ?_⟩
      · exact fun i => place_sourceIndex_lt (parts_within hparts hpos) hpos _ _
      · rw [select_eq (ht ▸ hparts), hread]
        rfl

theorem parts_slices (r c : Slice) (rows cols : Nat) : parts [.slice r, .slice c] [rows, cols] = do
    return [.kept (← r.places rows), .kept (← c.places cols)] := by
  change (r.places rows >>= fun ps => (c.places cols >>= fun qs => pure [Part.kept qs]) >>= fun rest =>
    pure (Part.kept ps :: rest)) = _
  cases r.places rows with
  | error e => rfl
  | ok ps => cases c.places cols <;> rfl

/-- Two slices select the rows and the columns at their places. -/
theorem select_slices {α : Type} [Zero α] (m : Matrix α) (r c : Slice) :
    (Tensor.ofMatrix m).select [.slice r, .slice c] = do
      return .ofMatrix (m.submatrix (← r.places m.rows) (← c.places m.cols)) := by
  have hparts := parts_slices r c m.rows m.cols
  change parts _ (Tensor.ofMatrix m).dims = _ at hparts
  cases hr : r.places m.rows with
  | error e =>
    rw [Tensor.select, hparts, hr]
    rfl
  | ok ps =>
    cases hc : c.places m.cols with
    | error e =>
      rw [Tensor.select, hparts, hr, hc]
      rfl
    | ok qs =>
      rw [hr, hc] at hparts
      rw [select_eq hparts]
      change Except.ok (Tensor.ofFn [ps.length, qs.length] _) = Except.ok _
      rw [Tensor.ofFn_pair]
      refine congrArg (fun n => Except.ok (Tensor.ofMatrix n)) (Matrix.ext_get rfl rfl ?_)
      intro i j (hi : i < ps.length) (hj : j < qs.length)
      have hq : qs.getD j 0 < m.cols := by
        rw [List.getD_eq_getElem qs 0 hj]
        exact places_lt hc _ (List.getElem_mem hj)
      rw [Matrix.submatrix, Matrix.get_ofFn _ hi hj, Matrix.get_ofFn _ hi hj]
      exact (Tensor.get_eq_get_asRows rfl _ hq).trans (by rw [Tensor.asRows_ofMatrix])

end Selector

namespace Grid

theorem get_ofShape_eq (s : Shape) {i j : Nat} (hi : i < s.rows) (hj : j < s.cols) :
    (ofShape s).get i j = j * s.rows + i := get_ofShape s hi hj

theorem bijOn_get_ofShape (s : Shape) :
    Set.BijOn (fun c : Nat × Nat => (ofShape s).get c.1 c.2) {c | c.1 < s.rows ∧ c.2 < s.cols} {k | k < s.size} := by
  refine ⟨?_, ?_, ?_⟩
  · rintro ⟨i, j⟩ ⟨hi, hj⟩
    exact (get_ofShape_eq s hi hj).trans_lt (place_lt_size s hi hj)
  · rintro ⟨i, j⟩ ⟨hi, hj⟩ ⟨i', j'⟩ ⟨hi', hj'⟩ h
    dsimp only at hi hj hi' hj'
    have h : j * s.rows + i = j' * s.rows + i' :=
      (get_ofShape_eq s hi hj).symm.trans (h.trans (get_ofShape_eq s hi' hj'))
    have hrow : i = i' := by rw [← Matrix.mod_place hi, h, Matrix.mod_place hi']
    have hcol : j = j' := (Matrix.div_place hi).symm.trans ((congrArg (· / s.rows) h).trans (Matrix.div_place hi'))
    rw [hrow, hcol]
  · intro k (hk : k < s.rows * s.cols)
    obtain ⟨hi, hj⟩ := Matrix.place_lt_size hk
    exact ⟨(k % s.rows, k / s.rows), ⟨hi, hj⟩, (get_ofShape_eq s hi hj).trans (Nat.div_add_mod' k s.rows)⟩

theorem ofValue_pair (s : Shape) : ofValue (.tuple [.int s.rows, .int s.cols]) = .ok (ofShape s).toRows := by
  have h : 0 ≤ (s.rows : Int) ∧ 0 ≤ (s.cols : Int) := ⟨Int.natCast_nonneg _, Int.natCast_nonneg _⟩
  change ofDimensions s.rows s.cols = _
  rw [ofDimensions, if_pos h]
  rfl

variable {α : Type} [Zero α] (m : Matrix α)

theorem getElem?_vec {i j : Nat} (hi : i < m.rows) (hj : j < m.cols) :
    m.vec[(ofShape m.shape).get i j]? = some (m.get i j) := by
  have hlt : (ofShape m.shape).get i j < m.vec.length := by
    rw [get_ofShape_eq m.shape hi hj, Matrix.length_vec]
    exact place_lt_size m.shape hi hj
  rw [List.getElem?_eq_getElem hlt, ← List.getD_eq_getElem _ 0 hlt, get_ofShape_eq m.shape hi hj]
  exact congrArg some (m.getD_vec_place j hi)

/-- What is gathered at places is the list of the entries there. -/
theorem selectRows_vec {places : List Nat} (h : ∀ p ∈ places, p < m.shape.size) :
    (Tensor.ofList m.vec).selectRows (.ofPlaces places) = .ok (.ofList (places.map fun p => m.vec.getD p 0)) := by
  have hdims : (Tensor.ofList m.vec).dims = [m.shape.size] :=
    congrArg (fun n => [n]) m.length_vec
  obtain ⟨u, hu, hd, hrows⟩ := Tensor.selectRows_ofPlaces hdims h
  have hlist : u.toList = places.map fun p => m.vec.getD p 0 := by
    apply ext_getD 0
    · rw [Tensor.length_toList hd, List.length_map]
    · intro k hk
      rw [Tensor.length_toList hd] at hk
      rw [Tensor.getD_toList hd, hrows, Matrix.get_gatherRows _ _ _ hk, ← Tensor.getD_toList hdims]
      simp [List.getD_eq_getElem?_getD, hk, Tensor.ofList, Tensor.toList]
  rw [hu, Tensor.eq_ofList hd hlist]

/-- The places that move the entries to those of another matrix. -/
theorem selectRows_vec_eq {places : List Nat} {xs : List α} (h : ∀ p ∈ places, p < m.shape.size)
    (hl : places.length = xs.length) (hget : ∀ k < places.length, m.flat (places.getD k 0) = xs.getD k 0) :
    (Tensor.ofList m.vec).selectRows (.ofPlaces places) = .ok (.ofList xs) := by
  rw [selectRows_vec m h]
  refine congrArg (fun ys => Except.ok (Tensor.ofList ys)) (ext_getD 0 (by rw [List.length_map, hl]) ?_)
  intro k hk
  rw [List.length_map] at hk
  rw [← hget k hk]
  simp [List.getD_eq_getElem?_getD, hk, Matrix.flat]

/-- A cell of a matrix has the entry at the place that the map has in this cell. -/
theorem get_ofMatrix {index : List Nat} (h : Tensor.place [m.rows, m.cols] index < volume [m.rows, m.cols]) :
    (Tensor.ofMatrix (ofShape m.shape)).get index < m.shape.size ∧
      (Tensor.ofMatrix m).get index = m.vec.getD ((Tensor.ofMatrix (ofShape m.shape)).get index) 0 := by
  have hv : volume [m.rows, m.cols] = m.cols * m.rows := by simp [volume, Nat.mul_comm]
  obtain ⟨hj, hi⟩ := Matrix.place_lt_size (hv ▸ h)
  generalize hk : Tensor.place [m.rows, m.cols] index = k at hi hj
  have hplace : Tensor.place [m.rows, m.cols] [k / m.cols, k % m.cols] = k := by
    simp [Tensor.place, Nat.div_add_mod']
  have hcell : ∀ {β : Type} [Zero β] (n : Matrix β), n.shape = m.shape →
      (Tensor.ofMatrix n).get index = n.get (k / m.cols) (k % m.cols) := by
    intro β _ n hn
    obtain ⟨hr, hc⟩ : n.rows = m.rows ∧ n.cols = m.cols := Shape.mk.inj hn
    have hd : (Tensor.ofMatrix n).dims = [m.rows, m.cols] := by rw [← hr, ← hc]; rfl
    have hget := Tensor.get_eq_get_asRows hd (k / m.cols) hj
    rw [Tensor.asRows_ofMatrix] at hget
    rw [← hget, Tensor.get, Tensor.get, hd, hk, hplace]
  rw [hcell (ofShape m.shape) rfl, hcell m rfl, get_ofShape_eq m.shape hi hj]
  exact ⟨place_lt_size m.shape hi hj, (m.getD_vec_place _ hi).symm⟩

/-- What any index selects from the map lists the places of what it selects from a matrix. -/
theorem selectRows_select (hr : 0 < m.rows) (hc : 0 < m.cols) (index : List Selector) :
    (do (Tensor.ofList m.vec).selectRows (.ofPlaces (← select m.shape index))) =
      do return .ofList (← (Tensor.ofMatrix m).select index).vec := by
  have hpos : ∀ d ∈ [m.rows, m.cols], 0 < d := by simp [hr, hc]
  rcases Selector.select_cases index hpos with ⟨e, he⟩ | ⟨selected, source, hsource, hselect⟩
  · rw [select, he _ rfl, he _ rfl]
    rfl
  · rw [select, hselect _ rfl, hselect _ rfl]
    change (Tensor.ofList m.vec).selectRows
        (.ofPlaces (Tensor.ofFn selected fun i => (Tensor.ofMatrix (ofShape m.shape)).get (source i)).vec) =
      .ok (.ofList (Tensor.ofFn selected fun i => (Tensor.ofMatrix m).get (source i)).vec)
    rw [Tensor.vec_ofFn, Tensor.vec_ofFn, selectRows_vec m, List.map_map]
    · refine congrArg (fun ys => Except.ok (Tensor.ofList ys)) (List.map_congr_left fun i _ => ?_)
      exact (get_ofMatrix m (hsource i)).2.symm
    · intro p hp
      obtain ⟨i, _, rfl⟩ := List.mem_map.mp hp
      exact (get_ofMatrix m (hsource i)).1

/-- The map of a shape has the place of each cell in the column by column order: it is a bijection from the cells onto
the places, and every selection from a matrix of the shape, and its transpose, are gathered column by column at the
places that the same selection from the map, or its transpose, lists column by column. -/
theorem ofShape_addresses (s : Shape) :
    ofValue (.tuple [.int s.rows, .int s.cols]) = .ok (ofShape s).toRows ∧
    Set.BijOn (fun c : Nat × Nat => (ofShape s).get c.1 c.2) {c | c.1 < s.rows ∧ c.2 < s.cols} {k | k < s.size} ∧
    ∀ m : Matrix α, m.shape = s →
      (∀ i < s.rows, ∀ j < s.cols, m.vec[(ofShape s).get i j]? = some (m.get i j)) ∧
      (∀ rows cols : List Nat, (∀ p ∈ rows, p < s.rows) → (∀ q ∈ cols, q < s.cols) →
        (Tensor.ofList m.vec).selectRows (.ofPlaces ((ofShape s).submatrix rows cols).vec) =
          .ok (.ofList (m.submatrix rows cols).vec)) ∧
      (∀ r c : Slice, (Tensor.ofMatrix m).select [.slice r, .slice c] = do
        return .ofMatrix (m.submatrix (← r.places s.rows) (← c.places s.cols))) ∧
      (0 < s.rows → 0 < s.cols → ∀ index : List Selector,
        (do (Tensor.ofList m.vec).selectRows (.ofPlaces (← select s index))) =
          do return .ofList (← (Tensor.ofMatrix m).select index).vec) ∧
      (Tensor.ofList m.vec).selectRows (.ofPlaces (ofShape s).transposed.vec) = .ok (.ofList m.transposed.vec) := by
  refine ⟨ofValue_pair s, bijOn_get_ofShape s, ?_⟩
  rintro m rfl
  refine ⟨fun i hi j hj => getElem?_vec m hi hj, ?_, Selector.select_slices m, selectRows_select m, ?_⟩
  · intro rows cols hr hc
    refine selectRows_vec_eq m (selected_lt m.shape hr hc) ?_ ?_
    · exact (length_selected m.shape rows cols).trans (m.submatrix rows cols).length_vec.symm
    · intro k hk
      exact m.gathered_selected hr hc ((length_selected m.shape rows cols) ▸ hk)
  · refine selectRows_vec_eq m (transposed_lt m.shape) ?_ ?_
    · exact (length_transposed m.shape).trans ((Nat.mul_comm _ _).trans m.transposed.length_vec.symm)
    · intro k hk
      exact m.gathered_transposed ((length_transposed m.shape) ▸ hk)

/-- Two rows and three columns, with the last column taken from the last row on. -/
theorem ofShape_addresses_two_by_three :
    let m : Matrix Int := .ofFn 2 3 fun i j => 3 * i + j + 1
    m.shape = ⟨2, 3⟩ ∧ (∀ p ∈ [1, 0, 1], p < 2) ∧ (∀ q ∈ [2, 0], q < 3) ∧
      (Tensor.ofList m.vec).selectRows (.ofPlaces ((ofShape ⟨2, 3⟩).submatrix [1, 0, 1] [2, 0]).vec) =
        .ok (.ofList [6, 3, 6, 4, 1, 4]) ∧
      (do
        let places ← select ⟨2, 3⟩ [.slice ⟨none, none, some (-1)⟩, .position (-1)]
        (Tensor.ofList m.vec).selectRows (.ofPlaces places)) = .ok (.ofList [6, 3]) := by
  intro m
  obtain ⟨_, hsub, _, hindex, _⟩ := (ofShape_addresses ⟨2, 3⟩).2.2 m rfl
  refine ⟨rfl, by decide, by decide, ?_, ?_⟩
  · exact (hsub [1, 0, 1] [2, 0] (by decide) (by decide)).trans (by decide)
  · exact (hindex (by decide) (by decide) _).trans (by decide)

end Grid

end ConicForm
