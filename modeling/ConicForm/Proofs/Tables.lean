import ConicForm.Keyed
import ConicForm.Label
import Mathlib.Algebra.BigOperators.Group.Finset.Basic

/-!
# Tables by labels

A table has at most one value under each label, and values that are right for their labels. Labels that are equal as
values are one, so a table goes by the keys of its labels. A table by ids is a table by labels of which each is the id
of a variable; it goes by its ids.
-/

namespace ConicForm

variable {β γ : Type}

namespace Keyed

variable {κ : Type} [BEq κ] {entries : List (κ × β)} {k l : κ} {v : β}

theorem get?_append (xs ys : List (κ × β)) (k : κ) : get? (xs ++ ys) k = (get? xs k).or (get? ys k) := by
  rw [get?, get?, get?, List.find?_append, Option.map_or]

theorem mem_keys_put (h : l ∈ keys (put entries k v)) : l ∈ keys entries ∨ l = k := by
  induction entries with
  | nil => exact .inr (List.mem_singleton.mp h)
  | cons e rest ih =>
    rw [put] at h
    split at h
    · exact .inl h
    · rcases List.mem_cons.mp h with rfl | h
      · exact .inl List.mem_cons_self
      · exact (ih h).imp_left (List.mem_cons_of_mem _)

end Keyed

namespace Label

theorem id?_eq_some_iff {l : Label} {id : Int} : l.id? = some id ↔ l == ofId id := by
  rw [beq_iff, key_ofId, id?]
  split
  · next h => simp [h]
  · next h =>
    constructor
    · intro h'
      cases h'
    · exact fun h' => absurd h' (h id)

/-- What the labels of a table are told apart by. -/
def keys (entries : List (Label × β)) : List Value := entries.map fun e => e.1.key

/-- A table with at most one value under each label, which is right for the label. -/
structure Table (good : Value → β → Prop) (entries : List (Label × β)) : Prop where
  good : ∀ e ∈ entries, good e.1.key e.2
  nodup : (keys entries).Nodup

variable {good : Value → β → Prop} {entries : List (Label × β)} {k l : Label} {v : β}

theorem keys_eq_map (entries : List (Label × β)) : keys entries = (Keyed.keys entries).map key := by
  rw [Keyed.keys, List.map_map]
  rfl

theorem get?_eq_none_iff : Keyed.get? entries l = none ↔ l.key ∉ keys entries := by
  simp [Keyed.get?, List.find?_eq_none, beq_iff, keys]

theorem exists_of_get? (h : Keyed.get? entries l = some v) : ∃ e ∈ entries, e.1.key = l.key ∧ e.2 = v := by
  obtain ⟨e, he, rfl⟩ := Option.map_eq_some_iff.mp h
  have hb : (e.1 == l) = true := by simpa using List.find?_some he
  exact ⟨e, List.mem_of_find?_eq_some he, beq_iff.mp hb, rfl⟩

theorem get?_congr (h : k.key = l.key) : Keyed.get? entries k = Keyed.get? entries l := by
  induction entries with
  | nil => rfl
  | cons e rest ih =>
    have hb : (e.1 == k) = (e.1 == l) := by rw [Bool.eq_iff_iff, beq_iff, beq_iff, h]
    rw [Keyed.get?_cons, Keyed.get?_cons, hb, ih]

theorem keys_put (entries : List (Label × β)) (l : Label) (v : β) :
    keys (Keyed.put entries l v) = if l.key ∈ keys entries then keys entries else keys entries ++ [l.key] := by
  induction entries with
  | nil => rfl
  | cons e rest ih =>
    rw [Keyed.put]
    by_cases h : e.1 == l
    · have hkey := beq_iff.mp h
      rw [if_pos h]
      simp [keys, hkey]
    · have hkey : ¬l.key = e.1.key := fun he => h (beq_iff.mpr he.symm)
      rw [if_neg h]
      change e.1.key :: keys (Keyed.put rest l v) = if l.key ∈ e.1.key :: keys rest then e.1.key :: keys rest
        else e.1.key :: keys rest ++ [l.key]
      rw [ih]
      by_cases hr : l.key ∈ keys rest
      · rw [if_pos hr, if_pos (List.mem_cons_of_mem _ hr)]
      · rw [if_neg hr, if_neg fun hm => (List.mem_cons.mp hm).elim hkey hr, List.cons_append]

theorem mem_put {e : Label × β} (h : e ∈ Keyed.put entries l v) : e ∈ entries ∨ e.1.key = l.key ∧ e.2 = v := by
  induction entries with
  | nil =>
    obtain rfl := List.mem_singleton.mp h
    exact .inr ⟨rfl, rfl⟩
  | cons d rest ih =>
    rw [Keyed.put] at h
    split at h
    · next hd =>
      rcases List.mem_cons.mp h with rfl | h
      · exact .inr ⟨beq_iff.mp hd, rfl⟩
      · exact .inl (List.mem_cons_of_mem d h)
    · rcases List.mem_cons.mp h with rfl | h
      · exact .inl List.mem_cons_self
      · exact (ih h).imp_left (List.mem_cons_of_mem d)

namespace Table

theorem cons_iff {e : Label × β} :
    Table good (e :: entries) ↔ good e.1.key e.2 ∧ e.1.key ∉ keys entries ∧ Table good entries := by
  constructor
  · rintro ⟨hgood, hnodup⟩
    obtain ⟨he, hgood⟩ := List.forall_mem_cons.mp hgood
    obtain ⟨hkey, hnodup⟩ := List.nodup_cons.mp hnodup
    exact ⟨he, hkey, hgood, hnodup⟩
  · rintro ⟨he, hkey, hgood, hnodup⟩
    exact ⟨List.forall_mem_cons.mpr ⟨he, hgood⟩, List.nodup_cons.mpr ⟨hkey, hnodup⟩⟩

theorem good_of_get? (h : Table good entries) (hv : Keyed.get? entries l = some v) : good l.key v := by
  obtain ⟨e, he, hkey, rfl⟩ := exists_of_get? hv
  exact hkey ▸ h.good e he

theorem get?_eq_some (h : Table good entries) {e : Label × β} (he : e ∈ entries) :
    Keyed.get? entries e.1 = some e.2 := by
  cases hv : Keyed.get? entries e.1 with
  | none => exact absurd (List.mem_map_of_mem he) (get?_eq_none_iff.mp hv)
  | some v =>
    obtain ⟨d, hd, hkey, rfl⟩ := exists_of_get? hv
    rw [List.inj_on_of_nodup_map h.nodup hd he hkey]

theorem put (h : Table good entries) (hv : good l.key v) : Table good (Keyed.put entries l v) := by
  refine ⟨fun e he => ?_, ?_⟩
  · rcases mem_put he with he | ⟨hkey, rfl⟩
    · exact h.good e he
    · exact hkey ▸ hv
  · rw [keys_put]
    split
    · exact h.nodup
    · next hkey =>
      exact List.nodup_append'.mpr ⟨h.nodup, List.nodup_singleton _, List.disjoint_singleton.mpr hkey⟩

/-- A value under a label that is not there yet. -/
theorem concat (h : Table good entries) (hv : good l.key v) (hl : l.key ∉ keys entries) :
    Table good (entries ++ [(l, v)]) := by
  refine ⟨fun e he => ?_, ?_⟩
  · rcases List.mem_append.mp he with he | he
    · exact h.good e he
    · obtain rfl := List.mem_singleton.mp he
      exact hv
  · rw [keys, List.map_append]
    exact List.nodup_append'.mpr ⟨h.nodup, List.nodup_singleton _, List.disjoint_singleton.mpr hl⟩

/-- The table of some pairs, of which the last one under a label stays. -/
theorem ofPairs {pairs : List (Label × β)} (h : ∀ e ∈ pairs, good e.1.key e.2) : Table good (Keyed.ofPairs pairs) := by
  have hfold : ∀ entries, Table good entries →
      Table good (pairs.foldl (fun entries p => Keyed.put entries p.1 p.2) entries) := by
    induction pairs with
    | nil => exact fun entries he => he
    | cons p pairs ih =>
      obtain ⟨hp, h⟩ := List.forall_mem_cons.mp h
      exact fun entries he => ih h _ (he.put hp)
  exact hfold [] ⟨List.forall_mem_nil _, List.nodup_nil⟩

end Table

/-- `xs` has the labels of `ys`, of which several may be one. -/
structure Joins (xs : List (Label × β)) (ys : List (Label × γ)) : Prop where
  mem_keys : ∀ k, k ∈ keys xs ↔ k ∈ keys ys
  subset : Keyed.keys xs ⊆ Keyed.keys ys

namespace Joins

variable {δ : Type} {xs xs' : List (Label × β)} {ys : List (Label × γ)} {zs : List (Label × δ)}

theorem of_keys_eq (h : Keyed.keys xs = Keyed.keys ys) : Joins xs ys :=
  ⟨fun k => by rw [keys_eq_map, keys_eq_map, h], fun l hl => h ▸ hl⟩

theorem trans (h : Joins xs ys) (h' : Joins ys zs) : Joins xs zs :=
  ⟨fun k => (h.mem_keys k).trans (h'.mem_keys k), fun _ hl => h'.subset (h.subset hl)⟩

theorem append_right (h : Joins xs xs') (es : List (Label × β)) : Joins (xs ++ es) (xs' ++ es) := by
  constructor
  · intro k
    simp only [keys, List.map_append, List.mem_append]
    exact or_congr_left (h.mem_keys k)
  · intro l
    simp only [Keyed.keys, List.map_append, List.mem_append]
    exact Or.imp_left fun hl => h.subset hl

theorem put (entries : List (Label × β)) (l : Label) (v : β) : Joins (Keyed.put entries l v) (entries ++ [(l, v)]) := by
  constructor
  · intro k
    rw [keys_put, keys, keys, List.map_append, List.mem_append]
    split
    · next hl => exact (or_iff_left_of_imp fun hk => List.mem_singleton.mp hk ▸ hl).symm
    · exact List.mem_append
  · intro m hm
    rw [Keyed.keys, List.map_append, List.mem_append]
    exact (Keyed.mem_keys_put hm).imp_right List.mem_singleton.mpr

theorem ofPairs (pairs : List (Label × β)) : Joins (Keyed.ofPairs pairs) pairs := by
  have hfold : ∀ entries,
      Joins (pairs.foldl (fun entries p => Keyed.put entries p.1 p.2) entries) (entries ++ pairs) := by
    induction pairs with
    | nil => exact fun entries => .of_keys_eq (by rw [List.append_nil]; rfl)
    | cons p pairs ih =>
      intro entries
      rw [List.append_cons]
      exact (ih _).trans ((put entries p.1 p.2).append_right pairs)
  exact hfold []

end Joins

end Label

/-! Tables by ids -/

/-- The ids among the labels of a table. -/
def ids (entries : List (Label × β)) : List Int := entries.filterMap fun e => e.1.id?

structure IdTable (good : Int → β → Prop) (entries : List (Label × β)) : Prop where
  labelled : ∀ e ∈ entries, ∃ id, e.1 = .ofId id ∧ good id e.2
  nodup : (ids entries).Nodup

/-- Whether every label is the id of a variable. -/
def ByIds (entries : List (Label × β)) : Prop := ∀ l ∈ Keyed.keys entries, ∃ id, l = .ofId id

variable {good : Int → β → Prop} {entries : List (Label × β)}

@[simp] theorem ids_cons_ofId (id : Int) (v : β) (entries : List (Label × β)) :
    ids ((.ofId id, v) :: entries) = id :: ids entries := rfl

theorem mem_ids_iff {id : Int} : id ∈ ids entries ↔ Value.int id ∈ Label.keys entries := by
  rw [ids, List.mem_filterMap, Label.keys, List.mem_map]
  simp only [Label.id?_eq_some_iff, Label.beq_iff, Label.key_ofId]

theorem mem_ids_of_mem {id : Int} {v : β} (h : (Label.ofId id, v) ∈ entries) : id ∈ ids entries :=
  List.mem_filterMap.mpr ⟨_, h, rfl⟩

theorem ids_eq_of_keys_eq {fs : List (Label × γ)} (h : Keyed.keys fs = Keyed.keys entries) : ids fs = ids entries := by
  have hids : ∀ {β : Type} (es : List (Label × β)), ids es = (Keyed.keys es).filterMap Label.id? := by
    intro β es
    rw [Keyed.keys, List.filterMap_map]
    rfl
  rw [hids, hids, h]

namespace ByIds

theorem cons_iff {e : Label × β} : ByIds (e :: entries) ↔ (∃ id, e.1 = .ofId id) ∧ ByIds entries :=
  List.forall_mem_cons

theorem append {fs : List (Label × β)} (h : ByIds entries) (hfs : ByIds fs) : ByIds (entries ++ fs) := by
  intro l hl
  rw [Keyed.keys, List.map_append] at hl
  exact (List.mem_append.mp hl).elim (h l) (hfs l)

theorem keys_eq (h : ByIds entries) : Label.keys entries = (ids entries).map Value.int := by
  induction entries with
  | nil => rfl
  | cons e rest ih =>
    obtain ⟨⟨id, hid⟩, hrest⟩ := cons_iff.mp h
    obtain ⟨l, v⟩ := e
    obtain rfl : l = .ofId id := hid
    rw [ids_cons_ofId, List.map_cons, ← ih hrest]
    rfl

theorem nodup_iff (h : ByIds entries) : (Label.keys entries).Nodup ↔ (ids entries).Nodup := by
  rw [h.keys_eq, List.nodup_map_iff fun _ _ => Value.int.inj]

end ByIds

theorem Label.Joins.mem_ids {fs : List (Label × γ)} (h : Label.Joins fs entries) (id : Int) :
    id ∈ ids fs ↔ id ∈ ids entries := by rw [mem_ids_iff, mem_ids_iff, h.mem_keys]

theorem Label.Joins.byIds {fs : List (Label × γ)} (h : Label.Joins fs entries) (hids : ByIds entries) : ByIds fs :=
  fun l hl => hids l (h.subset hl)

/-- A table by ids is a table by labels. -/
theorem idTable_iff : IdTable good entries ↔
    ByIds entries ∧ Label.Table (fun k v => ∀ id, k = .int id → good id v) entries := by
  constructor
  · intro h
    have hids : ByIds entries := by
      intro l hl
      obtain ⟨e, he, rfl⟩ := List.mem_map.mp hl
      obtain ⟨id, hid, _⟩ := h.labelled e he
      exact ⟨id, hid⟩
    refine ⟨hids, fun e he id hkey => ?_, hids.nodup_iff.mpr h.nodup⟩
    obtain ⟨k, hk, hgood⟩ := h.labelled e he
    obtain rfl : k = id := by simpa [hk] using hkey
    exact hgood
  · rintro ⟨hids, h⟩
    refine ⟨fun e he => ?_, hids.nodup_iff.mp h.nodup⟩
    obtain ⟨id, hid⟩ := hids e.1 (List.mem_map_of_mem he)
    exact ⟨id, hid, h.good e he id (by rw [hid]; rfl)⟩

namespace IdTable

theorem nil : IdTable good [] := ⟨List.forall_mem_nil _, List.nodup_nil⟩

theorem cons_iff {id : Int} {v : β} :
    IdTable good ((.ofId id, v) :: entries) ↔ good id v ∧ id ∉ ids entries ∧ IdTable good entries := by
  have hgood : (∀ k, Value.int id = .int k → good k v) ↔ good id v :=
    ⟨fun h => h id rfl, fun h k hk => Value.int.inj hk ▸ h⟩
  have hid : ∃ k, Label.ofId id = .ofId k := ⟨id, rfl⟩
  rw [idTable_iff, idTable_iff, Label.Table.cons_iff, ByIds.cons_iff, mem_ids_iff, Label.key_ofId, hgood]
  simp only [hid, true_and, and_left_comm]

theorem head_eq {e : Label × β} (h : IdTable good (e :: entries)) : ∃ id v, e = (.ofId id, v) := by
  obtain ⟨id, hid, _⟩ := h.labelled e List.mem_cons_self
  exact ⟨id, e.2, by rw [← hid]⟩

theorem get?_eq_some (h : IdTable good entries) {id : Int} {v : β} (hv : (Label.ofId id, v) ∈ entries) :
    Keyed.get? entries (.ofId id) = some v := (idTable_iff.mp h).2.get?_eq_some hv

/-- What is added up over the values of a table is added up over its ids. -/
theorem sum_map {α : Type} [AddCommMonoid α] (h : IdTable good entries) {f : Label × β → α} {g : Int → α}
    (hfg : ∀ id v, (Label.ofId id, v) ∈ entries → f (.ofId id, v) = g id) :
    (entries.map f).sum = ∑ id ∈ (ids entries).toFinset, g id := by
  induction entries with
  | nil => rfl
  | cons e rest ih =>
    obtain ⟨id, v, rfl⟩ := h.head_eq
    obtain ⟨_, hid, hr⟩ := cons_iff.mp h
    have hid' : id ∉ (ids rest).toFinset := mt List.mem_toFinset.mp hid
    rw [List.map_cons, List.sum_cons, ids_cons_ofId, List.toFinset_cons, Finset.sum_insert hid',
      hfg id v List.mem_cons_self, ih hr fun k u hu => hfg k u (List.mem_cons_of_mem _ hu)]

end IdTable

end ConicForm
