import Mathlib.Algebra.Order.BigOperators.Group.Finset
import Mathlib.Algebra.Order.Ring.Int
import ConicForm.Proofs.Columns
import ConicForm.Proofs.Sums

/-!
# Columns by ascending id

Each variable that occurs is given the columns after those of all variables with smaller ids, so the columns are
parted among the ids and depend on nothing but which variables occur. Two shapes for one id are the only reason to
refuse a list of variables.
-/

namespace ConicForm.Variable

/-! Clashes -/

/-- Whether two variables have one id but not the same dimensions. -/
def Clash (v w : Variable) : Prop := v.id = w.id ∧ ¬(v.rows = w.rows ∧ v.cols = w.cols)

theorem Seen.meet_eq_error {seen : List (Int × Variable)} (h : Seen seen) {v : Variable} {e : Failure}
    (he : Variable.meet seen v = .error e) :
    ∃ w ∈ seen.map Prod.snd, Clash w v ∧ e = .inconsistentVariable w.id w.shapeValue v.shapeValue := by
  unfold Variable.meet at he
  split at he
  · cases he
  · next w hget =>
    split at he
    · cases he
    · next hne =>
      have hmem := Keyed.mem_of_get?_eq_some hget
      have hid : v.id = w.id := h.keyed _ hmem
      exact ⟨w, List.mem_map.mpr ⟨_, hmem, rfl⟩, ⟨hid.symm, hne⟩, hid ▸ (Except.error.inj he).symm⟩

/-- Variables are refused only with a clash among those seen before and those met. -/
theorem Seen.foldlM_meet_eq_error {seen : List (Int × Variable)} (h : Seen seen) {vars : List Variable} {e : Failure}
    (he : vars.foldlM Variable.meet seen = .error e) :
    ∃ w ∈ seen.map Prod.snd ++ vars, ∃ v ∈ vars, Clash w v ∧
      e = .inconsistentVariable w.id w.shapeValue v.shapeValue := by
  induction vars generalizing seen with
  | nil => cases he
  | cons v vars ih =>
    rw [List.foldlM_cons] at he
    rcases bind_eq_error.mp he with he | ⟨seen', hmeet, he⟩
    · obtain ⟨w, hw, hclash, he⟩ := h.meet_eq_error he
      exact ⟨w, List.mem_append_left _ hw, v, List.mem_cons_self, hclash, he⟩
    · obtain ⟨h', hmem⟩ := h.meet hmeet
      obtain ⟨w, hw, u, hu, hclash, he⟩ := ih h' he
      refine ⟨w, ?_, u, List.mem_cons_of_mem v hu, hclash, he⟩
      rw [List.mem_append, hmem, or_assoc] at hw
      rwa [List.mem_append, List.mem_cons]

theorem distinct_eq_error {vars : List Variable} {e : Failure} (he : distinct vars = .error e) :
    ∃ w ∈ vars, ∃ v ∈ vars, Clash w v ∧ e = .inconsistentVariable w.id w.shapeValue v.shapeValue := by
  have hnil : Seen [] := ⟨List.forall_mem_nil _, List.nodup_nil⟩
  rcases bind_eq_error.mp he with he | ⟨_, _, he⟩
  · exact hnil.foldlM_meet_eq_error he
  · cases he

theorem Ascending.nodup_ids {vs : List Variable} (h : Ascending vs) : (vs.map Variable.id).Nodup :=
  (List.pairwise_map.mpr h).imp ne_of_lt

/-- Variables in ascending order are determined by which ones they are. -/
theorem Ascending.eq_of_mem_iff {vs ws : List Variable} (hv : Ascending vs) (hw : Ascending ws)
    (h : ∀ v, v ∈ vs ↔ v ∈ ws) : vs = ws := by
  have hperm : vs.Perm ws := (List.perm_ext_iff_of_nodup hv.nodup_ids.of_map hw.nodup_ids.of_map).mpr h
  have hsorted : sorted vs = vs := sorted_eq (.refl vs) hv
  exact hsorted.symm.trans (sorted_eq hperm hw)

theorem not_clash_of_distinct {vars vs : List Variable} (h : distinct vars = .ok vs) {v w : Variable}
    (hv : v ∈ vars) (hw : w ∈ vars) : ¬Clash v w := by
  obtain ⟨hasc, hmem⟩ := distinct_eq_ok h
  rintro ⟨hid, hne⟩
  obtain rfl := List.inj_on_of_nodup_map hasc.nodup_ids ((hmem v).mpr hv) ((hmem w).mpr hw) hid
  exact hne ⟨rfl, rfl⟩

theorem exists_distinct_iff {vars : List Variable} :
    (∃ vs, distinct vars = .ok vs) ↔ ∀ v ∈ vars, ∀ w ∈ vars, ¬Clash v w := by
  constructor
  · rintro ⟨vs, h⟩ v hv w hw
    exact not_clash_of_distinct h hv hw
  · intro h
    cases hd : distinct vars with
    | ok vs => exact ⟨vs, rfl⟩
    | error e =>
      obtain ⟨w, hw, v, hv, hclash, _⟩ := distinct_eq_error hd
      exact absurd hclash (h w hw v hv)

/-- The distinct variables depend only on which ones occur. -/
theorem distinct_congr {vars others vs : List Variable} (h : ∀ v, v ∈ others ↔ v ∈ vars)
    (hd : distinct vars = .ok vs) : distinct others = .ok vs := by
  obtain ⟨ws, hws⟩ : ∃ ws, distinct others = .ok ws :=
    exists_distinct_iff.mpr fun v hv w hw => not_clash_of_distinct hd ((h v).mp hv) ((h w).mp hw)
  obtain ⟨hasc, hmem⟩ := distinct_eq_ok hd
  obtain ⟨hasc', hmem'⟩ := distinct_eq_ok hws
  have hsame : ∀ v, v ∈ ws ↔ v ∈ vs := fun v => by rw [hmem', h, hmem]
  rw [hws, hasc'.eq_of_mem_iff hasc hsame]

/-! Columns -/

theorem totalSize_append (vs ws : List Variable) : totalSize (vs ++ ws) = totalSize vs + totalSize ws := by
  induction vs with
  | nil => exact (Int.zero_add _).symm
  | cons v vs ih => rw [List.cons_append, totalSize, totalSize, ih, Int.add_assoc]

theorem totalSize_eq_sum {vs : List Variable} (h : Ascending vs) : totalSize vs = ∑ v ∈ vs.toFinset, v.size := by
  rw [List.sum_toFinset _ h.nodup_ids.of_map]
  clear h
  induction vs with
  | nil => rfl
  | cons v vs ih => rw [totalSize, ih, List.map_cons, List.sum_cons]

theorem totalSize_nonneg {vs : List Variable} (h : ∀ v ∈ vs, 0 ≤ v.size) : 0 ≤ totalSize vs := by
  induction vs with
  | nil => exact le_rfl
  | cons v vs ih =>
    have hv := h v List.mem_cons_self
    have hvs := ih fun w hw => h w (List.mem_cons_of_mem v hw)
    rw [totalSize]
    omega

/-- A variable has the columns after those of the variables before it. -/
theorem mem_offsetsFrom {first : Int} {vs : List Variable} {e : Int × Int} : e ∈ offsetsFrom first vs ↔
    ∃ before v after, vs = before ++ v :: after ∧ e = (v.id, first + totalSize before) := by
  constructor
  · intro he
    induction vs generalizing first with
    | nil => cases he
    | cons v vs ih =>
      rcases List.mem_cons.mp he with rfl | he
      · exact ⟨[], v, vs, rfl, by rw [totalSize, Int.add_zero]⟩
      · obtain ⟨before, w, after, rfl, rfl⟩ := ih he
        exact ⟨v :: before, w, after, rfl, by rw [totalSize, Int.add_assoc]⟩
  · rintro ⟨before, v, after, rfl, rfl⟩
    rw [offsetsFrom_append]
    exact List.mem_append_right _ List.mem_cons_self

/-- The columns from the first one to the last are parted among the variables. -/
theorem exists_column_iff {vs : List Variable} (h : ∀ v ∈ vs, 0 ≤ v.size) (first k : Int) :
    (∃ before v after, vs = before ++ v :: after ∧ first + totalSize before ≤ k ∧
      k < first + totalSize before + v.size) ↔ first ≤ k ∧ k < first + totalSize vs := by
  constructor
  · rintro ⟨before, v, after, rfl, hle, hlt⟩
    have hbefore := totalSize_nonneg fun w hw => h w (List.mem_append_left _ hw)
    have hafter := totalSize_nonneg fun w hw => h w (List.mem_append_right _ (List.mem_cons_of_mem v hw))
    rw [totalSize_append, totalSize]
    omega
  · rintro ⟨hle, hlt⟩
    induction vs generalizing first with
    | nil =>
      rw [totalSize] at hlt
      omega
    | cons v vs ih =>
      rw [totalSize] at hlt
      by_cases hk : k < first + v.size
      · exact ⟨[], v, vs, rfl, by rw [totalSize]; omega, by rw [totalSize]; omega⟩
      · obtain ⟨before, w, after, rfl, hw⟩ := ih (fun w hw => h w (List.mem_cons_of_mem v hw))
          (first + v.size) (by omega) (by omega)
        refine ⟨v :: before, w, after, rfl, ?_⟩
        rw [totalSize]
        omega

/-- In ascending order the variables before one are those with smaller ids. -/
theorem Ascending.totalSize_before {before after : List Variable} {v : Variable}
    (h : Ascending (before ++ v :: after)) :
    totalSize before = ∑ w ∈ (before ++ v :: after).toFinset with w.id < v.id, w.size := by
  obtain ⟨hbefore, hrest, hlt⟩ := List.pairwise_append.mp h
  rw [totalSize_eq_sum hbefore]
  congr 1
  ext w
  simp only [List.mem_toFinset, Finset.mem_filter, List.mem_append, List.mem_cons]
  constructor
  · exact fun hw => ⟨.inl hw, hlt w hw v List.mem_cons_self⟩
  · rintro ⟨hw | rfl | hw, hid⟩
    · exact hw
    · exact absurd hid (Int.lt_irrefl _)
    · have := List.rel_of_pairwise_cons hrest hw
      omega

/-! The partition -/

/-- Columns that are parted among the ids of some variables in ascending order, each id with those after the columns
of all smaller ids. -/
structure Parted (vars : List Variable) (offsets : List (Int × Int)) (width : Int) : Prop where
  ascending : (offsets.map Prod.fst).Pairwise (· < ·)
  mem_ids : ∀ id, id ∈ offsets.map Prod.fst ↔ ∃ v ∈ vars, v.id = id
  offset_eq : ∀ e ∈ offsets, e.2 = ∑ v ∈ vars.toFinset with v.id < e.1, v.size
  width_eq : width = ∑ v ∈ vars.toFinset, v.size
  precedes : ∀ v ∈ vars, ∀ w ∈ vars, v.id < w.id → ∀ first next, (v.id, first) ∈ offsets → (w.id, next) ∈ offsets →
    first + v.size ≤ next
  covers : ∀ k, (∃ v ∈ vars, ∃ first, (v.id, first) ∈ offsets ∧ first ≤ k ∧ k < first + v.size) ↔ 0 ≤ k ∧ k < width

theorem assignOffsets_eq_ok {vars : List Variable} {offsets : List (Int × Int)} {width : Int} :
    assignOffsets vars = .ok (offsets, width) ↔
      ∃ vs, distinct vars = .ok vs ∧ offsets = offsetsFrom 0 vs ∧ width = totalSize vs := by
  constructor
  · intro h
    obtain ⟨vs, hvs, h⟩ := bind_eq_ok.mp h
    obtain ⟨rfl, rfl⟩ := Prod.mk.inj (Except.ok.inj h)
    exact ⟨vs, hvs, rfl, rfl⟩
  · rintro ⟨vs, hvs, rfl, rfl⟩
    exact bind_eq_ok.mpr ⟨vs, hvs, rfl⟩

theorem toFinset_of_distinct {vars vs : List Variable} (h : distinct vars = .ok vs) :
    vs.toFinset = vars.toFinset := by
  obtain ⟨_, hmem⟩ := distinct_eq_ok h
  ext v
  rw [List.mem_toFinset, List.mem_toFinset, hmem]

theorem offset_eq_sum {vars vs : List Variable} (h : distinct vars = .ok vs) {e : Int × Int}
    (he : e ∈ offsetsFrom 0 vs) : e.2 = ∑ v ∈ vars.toFinset with v.id < e.1, v.size := by
  obtain ⟨hasc, _⟩ := distinct_eq_ok h
  rw [← toFinset_of_distinct h]
  obtain ⟨before, v, after, rfl, rfl⟩ := mem_offsetsFrom.mp he
  rw [Int.zero_add, hasc.totalSize_before]

/-- The columns of a variable are counted before those of a larger id, besides those of the ids below its own. -/
theorem sum_add_size_le {vars : List Variable} (hsize : ∀ v ∈ vars, 0 ≤ v.size) {v w : Variable} (hv : v ∈ vars)
    (hvw : v.id < w.id) : (∑ u ∈ vars.toFinset with u.id < v.id, u.size) + v.size ≤
      ∑ u ∈ vars.toFinset with u.id < w.id, u.size := by
  have hnot : v ∉ vars.toFinset.filter fun u => u.id < v.id := by simp
  rw [Int.add_comm, ← Finset.sum_insert hnot]
  apply Finset.sum_le_sum_of_subset_of_nonneg
  · intro u hu
    rcases Finset.mem_insert.mp hu with rfl | hu
    · exact Finset.mem_filter.mpr ⟨List.mem_toFinset.mpr hv, hvw⟩
    · obtain ⟨hu, hid⟩ := Finset.mem_filter.mp hu
      exact Finset.mem_filter.mpr ⟨hu, hid.trans hvw⟩
  · exact fun u hu _ => hsize u (List.mem_toFinset.mp (Finset.mem_filter.mp hu).1)

/-- An offset is that of exactly one of the distinct variables. -/
theorem mem_offsetsFrom_of_distinct {vars vs : List Variable} (h : distinct vars = .ok vs) {v : Variable}
    (hv : v ∈ vars) {first : Int} : (v.id, first) ∈ offsetsFrom 0 vs ↔
      ∃ before after, vs = before ++ v :: after ∧ first = totalSize before := by
  obtain ⟨hasc, hmem⟩ := distinct_eq_ok h
  constructor
  · intro hfirst
    obtain ⟨before, w, after, hvs, he⟩ := mem_offsetsFrom.mp hfirst
    obtain ⟨hid, hfirst⟩ := Prod.mk.inj he
    have hw : w ∈ vs := hvs ▸ List.mem_append_right _ List.mem_cons_self
    obtain rfl := List.inj_on_of_nodup_map hasc.nodup_ids ((hmem v).mpr hv) hw hid
    exact ⟨before, after, hvs, hfirst.trans (Int.zero_add _)⟩
  · rintro ⟨before, after, hvs, rfl⟩
    exact mem_offsetsFrom.mpr ⟨before, v, after, hvs, by rw [Int.zero_add]⟩

theorem parted_of_distinct {vars vs : List Variable} (hsize : ∀ v ∈ vars, 0 ≤ v.size) (h : distinct vars = .ok vs) :
    Parted vars (offsetsFrom 0 vs) (totalSize vs) := by
  obtain ⟨hasc, hmem⟩ := distinct_eq_ok h
  refine ⟨?_, fun id => ?_, fun e he => offset_eq_sum h he, toFinset_of_distinct h ▸ totalSize_eq_sum hasc, ?_,
    fun k => ?_⟩
  · rw [keys_offsetsFrom]
    exact List.pairwise_map.mpr hasc
  · simp only [keys_offsetsFrom, List.mem_map, hmem]
  · intro v hv w _ hvw first next hfirst hnext
    have hfirst : first = ∑ u ∈ vars.toFinset with u.id < v.id, u.size := offset_eq_sum h hfirst
    have hnext : next = ∑ u ∈ vars.toFinset with u.id < w.id, u.size := offset_eq_sum h hnext
    rw [hfirst, hnext]
    exact sum_add_size_le hsize hv hvw
  · have hcolumn := exists_column_iff (fun v hv => hsize v ((hmem v).mp hv)) 0 k
    simp only [Int.zero_add] at hcolumn
    rw [← hcolumn]
    constructor
    · rintro ⟨v, hv, first, hfirst, hk⟩
      obtain ⟨before, after, hvs, rfl⟩ := (mem_offsetsFrom_of_distinct h hv).mp hfirst
      exact ⟨before, v, after, hvs, hk⟩
    · rintro ⟨before, v, after, hvs, hk⟩
      have hv : v ∈ vars := (hmem v).mp (hvs ▸ List.mem_append_right _ List.mem_cons_self)
      exact ⟨v, hv, _, (mem_offsetsFrom_of_distinct h hv).mpr ⟨before, after, hvs, rfl⟩, hk⟩

/-- Variables are given columns exactly if no id occurs with two shapes; the columns are then parted among the ids,
and every list with the same variables, in any order and however often, is given the same ones. -/
theorem columns_partitioned {vars : List Variable} (hpos : ∀ v ∈ vars, 0 < v.rows ∧ 0 < v.cols) :
    ((∃ r, assignOffsets vars = .ok r) ↔
        ∀ v ∈ vars, ∀ w ∈ vars, v.id = w.id → v.rows = w.rows ∧ v.cols = w.cols) ∧
      (∀ e, assignOffsets vars = .error e → ∃ v ∈ vars, ∃ w ∈ vars, v.id = w.id ∧
        ¬(v.rows = w.rows ∧ v.cols = w.cols) ∧ e = .inconsistentVariable v.id v.shapeValue w.shapeValue) ∧
      (∀ offsets width, assignOffsets vars = .ok (offsets, width) → Parted vars offsets width) ∧
      ∀ others : List Variable, (∀ v, v ∈ others ↔ v ∈ vars) →
        (assignOffsets others).toOption = (assignOffsets vars).toOption := by
  have hok : ∀ {ws : List Variable}, (∃ r, assignOffsets ws = .ok r) ↔ ∃ vs, distinct ws = .ok vs := by
    intro ws
    constructor
    · rintro ⟨⟨offsets, width⟩, h⟩
      obtain ⟨vs, hvs, _⟩ := assignOffsets_eq_ok.mp h
      exact ⟨vs, hvs⟩
    · rintro ⟨vs, hvs⟩
      exact ⟨_, assignOffsets_eq_ok.mpr ⟨vs, hvs, rfl, rfl⟩⟩
  refine ⟨?_, fun e he => ?_, fun offsets width h => ?_, fun others hsame => ?_⟩
  · rw [hok, exists_distinct_iff]
    simp only [Clash, not_and_not_right]
  · rcases bind_eq_error.mp he with he | ⟨_, _, he⟩
    · obtain ⟨v, hv, w, hw, ⟨hid, hne⟩, he⟩ := distinct_eq_error he
      exact ⟨v, hv, w, hw, hid, hne, he⟩
    · cases he
  · obtain ⟨vs, hvs, rfl, rfl⟩ := assignOffsets_eq_ok.mp h
    exact parted_of_distinct (fun v hv => Int.mul_nonneg (hpos v hv).1.le (hpos v hv).2.le) hvs
  · cases hd : distinct vars with
    | ok vs =>
      rw [assignOffsets, assignOffsets, hd, distinct_congr hsame hd]
    | error e =>
      cases hd' : distinct others with
      | ok ws =>
        rw [distinct_congr (fun v => (hsame v).symm) hd'] at hd
        cases hd
      | error e' =>
        rw [assignOffsets, assignOffsets, hd, hd']
        rfl

/-- A large id, a repeated one below zero and two shapes of six entries. -/
theorem columns_partitioned_mixed :
    let vars : List Variable := [⟨10 ^ 30, 2, 3⟩, ⟨-7, 4, 1⟩, ⟨10 ^ 30, 2, 3⟩, ⟨5, 3, 2⟩, ⟨-7, 4, 1⟩]
    (∃ offsets width, assignOffsets vars = .ok (offsets, width) ∧ Parted vars offsets width) ∧
      assignOffsets (⟨5, 2, 3⟩ :: vars) ≠ assignOffsets vars := by
  intro vars
  have hpos : ∀ v ∈ vars, 0 < v.rows ∧ 0 < v.cols := by decide
  have hpos' : ∀ v ∈ (⟨5, 2, 3⟩ : Variable) :: vars, 0 < v.rows ∧ 0 < v.cols := by decide
  obtain ⟨⟨offsets, width⟩, h⟩ := (columns_partitioned hpos).1.mpr (by decide)
  refine ⟨⟨offsets, width, h, (columns_partitioned hpos).2.2.1 offsets width h⟩, fun heq => ?_⟩
  have hsame := (columns_partitioned hpos').1.mp ⟨_, heq.trans h⟩
  have := hsame ⟨5, 2, 3⟩ (by decide) ⟨5, 3, 2⟩ (by decide) rfl
  exact absurd this (by decide)

end ConicForm.Variable
