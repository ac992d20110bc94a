import ConicForm.Proofs.Forms
import ConicForm.Proofs.Results

/-!
# Variables of a problem

The occurrences of variables in a tree that builders made are its leaves, and the distinct variables of a
problem are those that occur, one for each id and in the order of the ids. What is distinct already stays as
it is.
-/

namespace ConicForm

namespace Keyed

variable {κ β : Type} [BEq κ] [LawfulBEq κ] {entries : List (κ × β)} {k : κ} {v : β}

theorem mem_of_get?_eq_some (h : get? entries k = some v) : (k, v) ∈ entries := by
  obtain ⟨e, he, rfl⟩ := Option.map_eq_some_iff.mp h
  have hk : e.1 = k := by simpa using List.find?_some he
  rw [← hk]
  exact List.mem_of_find?_eq_some he

theorem not_mem_of_get?_eq_none (h : get? entries k = none) : k ∉ entries.map Prod.fst := by
  have hnone := List.find?_eq_none.mp (Option.map_eq_none_iff.mp h)
  intro hk
  obtain ⟨e, he, rfl⟩ := List.mem_map.mp hk
  exact hnone e he (beq_self_eq_true e.1)

theorem get?_eq_some_of_mem (h : (entries.map Prod.fst).Nodup) (hv : (k, v) ∈ entries) :
    get? entries k = some v := by
  induction entries with
  | nil => cases hv
  | cons e rest ih =>
    obtain ⟨hk, hr⟩ := List.nodup_cons.mp h
    rw [get?_cons]
    rcases List.mem_cons.mp hv with rfl | hv
    · rw [if_pos (beq_self_eq_true k)]
    · have hne : ¬e.1 = k := fun he => hk (he ▸ List.mem_map.mpr ⟨_, hv, rfl⟩)
      rw [if_neg (by simpa using hne), ih hr hv]

end Keyed

namespace Node

variable {α : Type}

/-! Occurrences -/

theorem leafVariables_eq (n : Node α) : n.leafVariables =
    if n.kind = .variable then (asVariable n.data n.shape).map ([·])
    else (n.children.mapM leafVariables).map List.flatten := by
  have hall : ∀ ns : List (Node α), allLeafVariables ns = (ns.mapM leafVariables).map List.flatten := by
    intro ns
    induction ns with
    | nil => rfl
    | cons m ms ih =>
      rw [allLeafVariables, ih, List.mapM_cons]
      cases m.leafVariables with
      | error e => rfl
      | ok found =>
        cases ms.mapM leafVariables with
        | error e => rfl
        | ok rest => rfl
  obtain ⟨ident, kind, shape, children, data⟩ := n
  rw [leafVariables, hall]

/-- Visiting finds the variables of the nodes on the stack, from the first one to the last. -/
theorem visit_eq (found : List Variable) (ns : List (Node α)) :
    visit found ns = (ns.mapM leafVariables).map fun rest => found.reverse ++ rest.flatten := by
  induction found, ns using visit.induct with
  | case1 found =>
    rw [visit]
    exact congrArg Except.ok (List.append_nil _).symm
  | case2 found n rest hk ih =>
    rw [visit, if_pos hk, List.mapM_cons, leafVariables_eq, if_pos hk]
    cases ha : asVariable n.data n.shape with
    | error e => rfl
    | ok v =>
      change visit (v :: found) rest = _
      rw [ih v]
      cases rest.mapM leafVariables with
      | error e => rfl
      | ok vs =>
        change Except.ok ((v :: found).reverse ++ vs.flatten) = .ok (found.reverse ++ ([v] ++ vs.flatten))
        rw [List.reverse_cons, List.append_assoc]
  | case3 found n rest hk ih =>
    rw [visit, if_neg hk, ih, List.mapM_append, List.mapM_cons, leafVariables_eq, if_neg hk]
    cases n.children.mapM leafVariables with
    | error e => rfl
    | ok vs =>
      cases rest.mapM leafVariables with
      | error e => rfl
      | ok ws =>
        change Except.ok (found.reverse ++ (vs ++ ws).flatten) =
          .ok (found.reverse ++ (vs.flatten ++ ws.flatten))
        rw [List.flatten_append]

theorem occurrences_eq (n : Node α) : n.occurrences = n.leafVariables := by
  rw [occurrences, visit_eq, List.mapM_cons, List.mapM_nil]
  cases n.leafVariables with
  | error e => rfl
  | ok vs => exact congrArg Except.ok (List.append_nil vs)

theorem asVariable_eq_ok {data : Payload α} {s : Shape} {v : Variable} (h : asVariable data s = .ok v) :
    ∃ id, data = .loose (.int id) ∧ v = .ofShape id s := by
  unfold asVariable at h
  split at h
  · exact ⟨_, rfl, (Except.ok.inj h).symm⟩
  · cases h
  · cases h
  · cases h

/-- The variables that occur in a tree made with builders are its leaves. -/
theorem mem_occurrences [Zero α] [Add α] [Neg α] [Mul α] [Div α] [BEq α] [OfDouble α] {n : Node α}
    (h : n.Built) {vs : List Variable} (hvs : n.occurrences = .ok vs) (v : Variable) :
    v ∈ vs ↔ ∃ id s, v = .ofShape id s ∧ n.Leaf id s := by
  rw [occurrences_eq] at hvs
  induction n using induction_on generalizing vs v with
  | step n ih =>
    by_cases hk : n.kind = .variable
    · have hc : n.children = [] := (h.of_variable hk).1
      rw [leafVariables_eq, if_pos hk] at hvs
      obtain ⟨w, hw, rfl⟩ := map_eq_ok.mp hvs
      obtain ⟨id, hd, rfl⟩ := asVariable_eq_ok hw
      have hleaf : ∀ k s, n.Leaf k s ↔ k = id ∧ s = n.shape := by
        intro k s
        rw [Leaf, exists_mem_nodes, hc]
        simp [hk, hd, eq_comm]
      rw [List.mem_singleton]
      constructor
      · rintro rfl
        exact ⟨id, n.shape, rfl, (hleaf _ _).mpr ⟨rfl, rfl⟩⟩
      · rintro ⟨k, s, rfl, hl⟩
        obtain ⟨rfl, rfl⟩ := (hleaf k s).mp hl
        rfl
    · have hbuilt : ∀ x ∈ n.children, x.Built := fun x hx => h.of_child hx
      rw [leafVariables_eq, if_neg hk] at hvs
      obtain ⟨wss, hwss, rfl⟩ := map_eq_ok.mp hvs
      simp only [leaf_iff hk, List.mem_flatten]
      constructor
      · rintro ⟨ws, hws, hv⟩
        obtain ⟨x, hx, hxw⟩ := exists_of_mem_mapM hwss hws
        obtain ⟨id, s, rfl, hl⟩ := (ih x hx (hbuilt x hx) hxw v).mp hv
        exact ⟨id, s, rfl, x, hx, hl⟩
      · rintro ⟨id, s, rfl, x, hx, hl⟩
        obtain ⟨ws, hws, hxw⟩ := exists_of_mapM_eq_ok hwss hx
        exact ⟨ws, hws, (ih x hx (hbuilt x hx) hxw _).mpr ⟨id, s, rfl, hl⟩⟩

theorem mem_problemVariables [Zero α] [Add α] [Neg α] [Mul α] [Div α] [BEq α] [OfDouble α]
    {objective : Node α} {constraints : List (Node α)} (h : ∀ n ∈ objective :: constraints, n.Built)
    {vs : List Variable} (hvs : objective.problemVariables constraints = .ok vs) (v : Variable) :
    v ∈ vs ↔ ∃ id s, v = .ofShape id s ∧ ∃ n ∈ objective :: constraints, n.Leaf id s := by
  obtain ⟨first, hfirst, hvs⟩ := bind_eq_ok.mp hvs
  obtain ⟨others, hothers, hvs⟩ := bind_eq_ok.mp hvs
  obtain rfl := Except.ok.inj hvs
  have hobj := mem_occurrences (h _ List.mem_cons_self) hfirst v
  have hrest : v ∈ others.flatten ↔
      ∃ id s, v = Variable.ofShape id s ∧ ∃ n ∈ constraints, n.Leaf id s := by
    rw [List.mem_flatten]
    constructor
    · rintro ⟨ws, hws, hv⟩
      obtain ⟨n, hn, hnw⟩ := exists_of_mem_mapM hothers hws
      obtain ⟨id, s, hv, hl⟩ := (mem_occurrences (h n (List.mem_cons_of_mem _ hn)) hnw v).mp hv
      exact ⟨id, s, hv, n, hn, hl⟩
    · rintro ⟨id, s, hv, n, hn, hl⟩
      obtain ⟨ws, hws, hnw⟩ := exists_of_mapM_eq_ok hothers hn
      exact ⟨ws, hws, (mem_occurrences (h n (List.mem_cons_of_mem _ hn)) hnw v).mpr ⟨id, s, hv, hl⟩⟩
  rw [List.mem_append, hobj, hrest]
  simp only [List.exists_mem_cons_iff, and_or_left, exists_or]

end Node

namespace Variable

/-! Distinct variables -/

/-- In ascending order of the ids, one for each. -/
def Ascending (vs : List Variable) : Prop := vs.Pairwise fun a b => a.id < b.id

/-- The variables seen first, by their ids. -/
structure Seen (seen : List (Int × Variable)) : Prop where
  keyed : ∀ e ∈ seen, e.1 = e.2.id
  nodup : (seen.map Prod.fst).Nodup

theorem Seen.meet {seen seen' : List (Int × Variable)} (h : Seen seen) {v : Variable}
    (hm : Variable.meet seen v = .ok seen') :
    Seen seen' ∧ ∀ w, w ∈ seen'.map Prod.snd ↔ w ∈ seen.map Prod.snd ∨ w = v := by
  unfold Variable.meet at hm
  split at hm
  · next hget =>
    obtain rfl := Except.ok.inj hm
    have hid := Keyed.not_mem_of_get?_eq_none hget
    refine ⟨⟨fun e he => ?_, ?_⟩, fun w => by simp⟩
    · rcases List.mem_append.mp he with he | he
      · exact h.keyed e he
      · rw [List.mem_singleton.mp he]
    · rw [List.map_append]
      exact List.nodup_append'.mpr ⟨h.nodup, List.nodup_singleton _, List.disjoint_singleton.mpr hid⟩
  · next first hget =>
    split at hm
    · next hsame =>
      obtain rfl := Except.ok.inj hm
      have hmem := Keyed.mem_of_get?_eq_some hget
      have hid : v.id = first.id := h.keyed _ hmem
      have hv : v = first := by
        obtain ⟨id, rows, cols⟩ := v
        obtain ⟨id', rows', cols'⟩ := first
        simp_all
      have hv : v ∈ seen.map Prod.snd := List.mem_map.mpr ⟨_, hmem, hv.symm⟩
      exact ⟨h, fun w => (or_iff_left_of_imp fun e => e ▸ hv).symm⟩
    · cases hm

theorem Seen.foldlM_meet {seen seen' : List (Int × Variable)} (h : Seen seen) {vars : List Variable}
    (hm : vars.foldlM Variable.meet seen = .ok seen') :
    Seen seen' ∧ ∀ w, w ∈ seen'.map Prod.snd ↔ w ∈ seen.map Prod.snd ∨ w ∈ vars := by
  induction vars generalizing seen with
  | nil =>
    obtain rfl := Except.ok.inj hm
    exact ⟨h, fun w => by simp⟩
  | cons v vars ih =>
    rw [List.foldlM_cons] at hm
    obtain ⟨s, hs, hm⟩ := bind_eq_ok.mp hm
    obtain ⟨h, hmem⟩ := h.meet hs
    obtain ⟨h, hmem'⟩ := ih h hm
    refine ⟨h, fun w => ?_⟩
    rw [hmem', hmem, List.mem_cons, or_assoc]

theorem Seen.nodup_ids {seen : List (Int × Variable)} (h : Seen seen) :
    ((seen.map Prod.snd).map Variable.id).Nodup := by
  have hk : (seen.map Prod.snd).map Variable.id = seen.map Prod.fst := by
    rw [List.map_map]
    exact List.map_congr_left fun e he => (h.keyed e he).symm
  rw [hk]
  exact h.nodup

theorem pairwise_sorted (vs : List Variable) : (sorted vs).Pairwise fun a b => a.id ≤ b.id := by
  have hsort : (sorted vs).Pairwise fun a b => decide (a.id ≤ b.id) = true :=
    List.pairwise_mergeSort (fun a b c hab hbc => by simp at *; omega) (fun a b => by simp; omega) _
  exact hsort.imp of_decide_eq_true

/-- Variables have one ascending order at most. -/
theorem sorted_eq {vs ws : List Variable} (hperm : vs.Perm ws) (h : Ascending ws) : sorted vs = ws := by
  have hp : (sorted vs).Perm ws := (List.mergeSort_perm _ _).trans hperm
  have hids : (ws.map Variable.id).Nodup := (List.pairwise_map.mpr h).imp ne_of_lt
  refine List.Perm.eq_of_pairwise ?_ (pairwise_sorted vs) (h.imp le_of_lt) hp
  intro a b ha hb hab hba
  exact List.inj_on_of_nodup_map hids (hp.mem_iff.mp ha) hb (le_antisymm hab hba)

/-- The distinct variables are the ones that occur, one for each id and in the order of the ids. -/
theorem distinct_eq_ok {vars vs : List Variable} (h : distinct vars = .ok vs) :
    Ascending vs ∧ ∀ v, v ∈ vs ↔ v ∈ vars := by
  obtain ⟨seen, hseen, h⟩ := bind_eq_ok.mp h
  obtain rfl := Except.ok.inj h
  have hnil : Seen [] := ⟨List.forall_mem_nil _, List.nodup_nil⟩
  obtain ⟨hs, hmem⟩ := hnil.foldlM_meet hseen
  have hperm : (sorted (seen.map Prod.snd)).Perm (seen.map Prod.snd) := List.mergeSort_perm _ _
  constructor
  · have hle := pairwise_sorted (seen.map Prod.snd)
    have hne : (sorted (seen.map Prod.snd)).Pairwise fun a b => a.id ≠ b.id :=
      List.pairwise_map.mp ((hperm.map Variable.id).nodup_iff.mpr hs.nodup_ids)
    exact (hle.and hne).imp fun h => lt_of_le_of_ne h.1 h.2
  · intro v
    rw [hperm.mem_iff, hmem]
    simp

theorem distinct_of_perm {vars vs : List Variable} {seen : List (Int × Variable)}
    (hseen : vars.foldlM meet [] = .ok seen) (hperm : (seen.map Prod.snd).Perm vs) (h : Ascending vs) :
    distinct vars = .ok vs := by
  rw [distinct, hseen]
  change Except.ok (sorted (seen.map Prod.snd)) = _
  rw [sorted_eq hperm h]

/-- Variables in ascending order are distinct as they are. -/
theorem distinct_of_ascending {vs : List Variable} (h : Ascending vs) : distinct vs = .ok vs := by
  have hfold : ∀ seen : List Variable, (∀ a ∈ seen, ∀ b ∈ vs, a.id < b.id) →
      vs.foldlM meet (seen.map fun v => (v.id, v)) = .ok ((seen ++ vs).map fun v => (v.id, v)) := by
    induction vs with
    | nil =>
      intro seen _
      rw [List.append_nil]
      rfl
    | cons v vs ih =>
      intro seen hseen
      obtain ⟨hv, hvs⟩ := List.pairwise_cons.mp h
      have hnone : Keyed.get? (seen.map fun v => (v.id, v)) v.id = none := by
        rw [Keyed.get?, List.find?_eq_none.mpr]
        · rfl
        · intro e he
          obtain ⟨a, ha, rfl⟩ := List.mem_map.mp he
          have := hseen a ha v List.mem_cons_self
          simp
          omega
      have hmeet : meet (seen.map fun v => (v.id, v)) v = .ok ((seen ++ [v]).map fun v => (v.id, v)) := by
        rw [meet, hnone, List.map_append]
        rfl
      rw [List.foldlM_cons, hmeet]
      change vs.foldlM meet _ = _
      rw [ih hvs (seen ++ [v]), List.append_assoc]
      · rfl
      · intro a ha b hb
        rcases List.mem_append.mp ha with ha | ha
        · exact hseen a ha b (List.mem_cons_of_mem v hb)
        · rw [List.mem_singleton.mp ha]
          exact hv b hb
  have hsnd : (vs.map fun v => (v.id, v)).map Prod.snd = vs := by
    rw [List.map_map]
    exact List.map_id' vs
  exact distinct_of_perm (hfold [] (List.forall_mem_nil _)) (.of_eq hsnd) h

end Variable

end ConicForm
