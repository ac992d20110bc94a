import ConicForm.Proofs.ReachedVariables

/-!
# The walk over pending nodes

Variables are found by a walk that takes one pending node after the other: a variable joins those found, and any other
node leaves its place to its children. The walk comes to an end, since a node has more nodes under it than each of its
children, and it finds what a recursion over the tree finds, which ends at variables.
-/

namespace ConicForm

variable {α : Type}

/-- A walk between two of its turns. -/
structure Walk (α : Type) where
  /-- The variables found, the latest first. -/
  found : List Variable
  /-- The nodes still to visit, the next first. -/
  pending : List (Node α)

namespace Walk

open Node (count countAll visit asVariable)

def ofRoot (n : Node α) : Walk α := ⟨[], [n]⟩

/-- One turn of a walk, which visits the next node. -/
def turn : Walk α → Result (Walk α)
  | ⟨found, []⟩ => .ok ⟨found, []⟩
  | ⟨found, n :: rest⟩ =>
    if n.kind = .variable then do return ⟨(← asVariable n.data n.shape) :: found, rest⟩
    else .ok ⟨found, n.children ++ rest⟩

/-- What a walk comes to after a number of turns: it has no pending nodes any more, or a turn is refused. -/
inductive EndsIn : Nat → Walk α → Result (List Variable) → Prop
  | done (found : List Variable) : EndsIn 0 ⟨found, []⟩ (.ok found.reverse)
  | refused {w : Walk α} {e : Failure} (h : w.turn = .error e) : EndsIn 1 w (.error e)
  | step {k : Nat} {w v : Walk α} {r : Result (List Variable)} (hw : w.pending ≠ []) (h : w.turn = .ok v)
      (hv : EndsIn k v r) : EndsIn (k + 1) w r

/-- A turn leaves fewer nodes to visit, those under pending ones counted in. -/
theorem turn_lt {w v : Walk α} (hw : w.pending ≠ []) (h : w.turn = .ok v) :
    countAll v.pending < countAll w.pending := by
  obtain ⟨found, _ | ⟨n, rest⟩⟩ := w
  · exact absurd rfl hw
  · have hpos : countAll (n :: rest) = countAll n.children + 1 + countAll rest := by
      rw [countAll, Node.count_eq]
    rw [turn] at h
    rw [hpos]
    split at h
    · obtain ⟨x, _, h⟩ := bind_eq_ok.mp h
      obtain rfl := Except.ok.inj h
      change countAll rest < _
      omega
    · obtain rfl := Except.ok.inj h
      rw [Node.countAll_append]
      omega

/-- What is visited in the end does not change with a turn. -/
theorem visit_turn {w : Walk α} (hw : w.pending ≠ []) :
    visit w.found w.pending = w.turn >>= fun v => visit v.found v.pending := by
  obtain ⟨found, _ | ⟨n, rest⟩⟩ := w
  · exact absurd rfl hw
  · rw [visit, turn]
    split
    · cases asVariable n.data n.shape with
      | error e => rfl
      | ok x => rfl
    · rfl

/-- A walk ends, within as many turns as there are nodes to visit. -/
theorem exists_endsIn (w : Walk α) : ∃ k ≤ countAll w.pending, w.EndsIn k (visit w.found w.pending) := by
  induction hm : countAll w.pending using Nat.strong_induction_on generalizing w with
  | _ m ih =>
    by_cases hw : w.pending = []
    · obtain ⟨found, pending⟩ := w
      obtain rfl : pending = [] := hw
      refine ⟨0, Nat.zero_le m, ?_⟩
      rw [visit]
      exact .done found
    · have hpos : 0 < m := by
        obtain ⟨n, rest, hp⟩ := List.exists_cons_of_ne_nil hw
        rw [← hm, hp, countAll, Node.count_eq]
        omega
      rw [visit_turn hw]
      cases ht : w.turn with
      | error e => exact ⟨1, hpos, .refused ht⟩
      | ok v =>
        have hlt := turn_lt hw ht
        obtain ⟨k, hk, hv⟩ := ih (countAll v.pending) (hm ▸ hlt) v rfl
        exact ⟨k + 1, by omega, .step hw ht hv⟩

end Walk

namespace Node

/-- `v` is the variable of a node with an integer for its id. -/
def Names (n : Node α) (v : Variable) : Prop := n.Named v.id ∧ v = .ofShape v.id n.shape

theorem toVariable_eq_ok_iff {n : Node α} {v : Variable} : n.toVariable = .ok v ↔ n.Names v := by
  constructor
  · intro h
    obtain ⟨id, hd, rfl⟩ := asVariable_eq_ok h
    exact ⟨hd, rfl⟩
  · rintro ⟨hid, hv⟩
    rw [hid.toVariable_eq, ← hv]

theorem mapM_toVariable_eq_ok_iff {ns : List (Node α)} {vs : List Variable} :
    ns.mapM toVariable = .ok vs ↔ List.Forall₂ Names ns vs := by
  constructor
  · intro h
    exact (forall₂_of_mapM_eq_ok h).imp fun _ _ => toVariable_eq_ok_iff.mp
  · intro h
    induction h with
    | nil => rfl
    | cons hn _ ih =>
      rw [List.mapM_cons, toVariable_eq_ok_iff.mpr hn, ih]
      rfl

/-- The walk over pending nodes ends, within as many turns as there are nodes in the tree. It answers with the
variables of the leaves that the recursion over the tree reaches, from left to right and as often as they occur, if all
of these have integers for their ids, and is refused for the first one that has not. -/
theorem occurrences_listed (n : Node α) :
    (∃ k ≤ n.count, (Walk.ofRoot n).EndsIn k n.occurrences) ∧
    (∀ vs, n.occurrences = .ok vs ↔ List.Forall₂ Names n.reached vs) ∧
    ∀ e, n.occurrences = .error e ↔ ∃ before m, FirstNot (fun m => ∃ id, m.Named id) n.reached before m ∧
      e = .idNotInteger m.data.idText ∧ e.category = .value := by
  have hmap : n.occurrences = n.reached.mapM toVariable := (occurrences_eq n).trans (leafVariables_eq_mapM n)
  refine ⟨?_, fun vs => ?_, fun e => ?_⟩
  · obtain ⟨k, hk, h⟩ := (Walk.ofRoot n).exists_endsIn
    exact ⟨k, by simpa [Walk.ofRoot, countAll] using hk, h⟩
  · rw [hmap]
    exact mapM_toVariable_eq_ok_iff
  · rw [hmap, passes_toVariable.eq_error_iff (k := 0)]
    constructor
    · rintro ⟨before, m, hm, rfl⟩
      exact ⟨before, m, hm, rfl, rfl⟩
    · rintro ⟨before, m, hm, he, _⟩
      exact ⟨before, m, hm, he⟩

/-- The leaves of a sum from left to right, one of them under a negation and two without an integer for an id. -/
example : (⟨4, .sum, ⟨1, 1⟩, [⟨3, .neg, ⟨1, 1⟩, [⟨0, .variable, ⟨1, 1⟩, [], .loose (.int 7)⟩], .loose .none⟩,
    ⟨1, .variable, ⟨1, 1⟩, [], .loose (.truth true)⟩, ⟨2, .variable, ⟨1, 1⟩, [], .loose (.text "x")⟩],
    .loose .none⟩ : Node Nat).reached.map Node.ident = [0, 1, 2] := rfl

end Node

end ConicForm
