import ConicForm.Proofs.FirstRefusals
import ConicForm.Proofs.Offsets

/-!
# Variables that are reached

Any nodes, made with builders or not, are walked from a root to its children, but never past a variable. The variable
nodes that are reached are read from left to right: one without an integer for its id is refused, and then the first
one whose id occurs before it with another shape.
-/

namespace ConicForm

variable {α : Type}

/-- The text of the data of a variable node in the refusal of its id. -/
def Payload.idText : Payload α → String
  | .loose v => v.nested
  | .doubles t => t.record
  | _ => "None"

/-- Reading the lists of a list one by one and putting them together is reading all that they hold. -/
theorem map_flatten_mapM {β γ δ : Type} {xs : List β} {g : β → Result (List γ)} {r : β → List δ} {f : δ → Result γ}
    (h : ∀ x ∈ xs, g x = (r x).mapM f) : (xs.mapM g).map List.flatten = (xs.flatMap r).mapM f := by
  induction xs with
  | nil => rfl
  | cons x xs ih =>
    have hxs := ih fun y hy => h y (List.mem_cons_of_mem x hy)
    rw [List.mapM_cons, List.flatMap_cons, List.mapM_append, h x List.mem_cons_self, ← hxs]
    cases (r x).mapM f with
    | error e => rfl
    | ok ys =>
      cases xs.mapM g with
      | error e => rfl
      | ok zs => rfl

namespace Node

/-- Whether a walk from a node comes to a node. -/
inductive Reaches : Node α → Node α → Prop
  | root (n : Node α) : Reaches n n
  | child {n x m : Node α} (hk : n.kind ≠ .variable) (hx : x ∈ n.children) (h : Reaches x m) : Reaches n m

mutual

/-- The variable nodes that are reached from a node, from left to right. -/
def reached : Node α → List (Node α)
  | ⟨ident, kind, shape, children, data⟩ =>
    if kind = .variable then [⟨ident, kind, shape, children, data⟩] else allReached children
termination_by structural n => n

def allReached : List (Node α) → List (Node α)
  | [] => []
  | n :: rest => reached n ++ allReached rest
termination_by structural ns => ns

end

theorem reached_eq (n : Node α) : n.reached = if n.kind = .variable then [n] else n.children.flatMap reached := by
  have hall : ∀ ns : List (Node α), allReached ns = ns.flatMap reached := by
    intro ns
    induction ns with
    | nil => rfl
    | cons m ms ih => rw [allReached, ih, List.flatMap_cons]
  obtain ⟨ident, kind, shape, children, data⟩ := n
  rw [reached, hall]

theorem mem_reached {n m : Node α} : m ∈ n.reached ↔ n.Reaches m ∧ m.kind = .variable := by
  constructor
  · intro h
    induction n using induction_on with
    | step n ih =>
      rw [reached_eq] at h
      split at h
      · next hk =>
        obtain rfl := List.mem_singleton.mp h
        exact ⟨.root m, hk⟩
      · next hk =>
        obtain ⟨x, hx, hm⟩ := List.mem_flatMap.mp h
        obtain ⟨hreach, hvar⟩ := ih x hx hm
        exact ⟨.child hk hx hreach, hvar⟩
  · rintro ⟨hreach, hvar⟩
    induction hreach with
    | root n =>
      rw [reached_eq, if_pos hvar]
      exact List.mem_singleton_self n
    | @child n x m hk hx _ ih =>
      rw [reached_eq, if_neg hk]
      exact List.mem_flatMap.mpr ⟨x, hx, ih hvar⟩

/-- Whether a node is a variable that is reached from one of some roots. -/
def Occurs (m : Node α) (roots : List (Node α)) : Prop := m.kind = .variable ∧ ∃ n ∈ roots, n.Reaches m

theorem mem_flatMap_reached {m : Node α} {roots : List (Node α)} : m ∈ roots.flatMap reached ↔ m.Occurs roots := by
  simp only [List.mem_flatMap, mem_reached, Occurs]
  constructor
  · rintro ⟨n, hn, hreach, hvar⟩
    exact ⟨hvar, n, hn, hreach⟩
  · rintro ⟨hvar, n, hn, hreach⟩
    exact ⟨n, hn, hreach, hvar⟩

/-! Reading them -/

/-- Whether the data of a node are an integer. -/
def Named (n : Node α) (id : Int) : Prop := n.data = .loose (.int id)

/-- The variable that a node states. -/
def toVariable (n : Node α) : Result Variable := asVariable n.data n.shape

theorem Named.toVariable_eq {n : Node α} {id : Int} (h : n.Named id) : n.toVariable = .ok (.ofShape id n.shape) := by
  rw [toVariable, show n.data = .loose (.int id) from h]
  rfl

theorem toVariable_eq_error {n : Node α} (h : ¬∃ id, n.Named id) :
    n.toVariable = .error (.idNotInteger n.data.idText) := by
  simp only [Named] at h
  unfold toVariable asVariable Payload.idText
  split
  · next id hd => exact absurd ⟨id, hd⟩ h
  · next v _ hd => rw [hd]
  · next t hd => rw [hd]
  · next hint hloose hdoubles =>
    split
    · next v hd => exact absurd hd (hloose v)
    · next t hd => exact absurd hd (hdoubles t)
    · rfl

theorem leafVariables_eq_mapM (n : Node α) : n.leafVariables = n.reached.mapM toVariable := by
  induction n using induction_on with
  | step n ih =>
    rw [leafVariables_eq, reached_eq]
    split
    · rw [List.mapM_cons, List.mapM_nil, ← toVariable]
      cases n.toVariable with
      | error e => rfl
      | ok v => rfl
    · exact map_flatten_mapM ih

/-- The variables of a problem are what its reached variable nodes state. -/
theorem problemVariables_eq_mapM (objective : Node α) (constraints : List (Node α)) :
    objective.problemVariables constraints = ((objective :: constraints).flatMap reached).mapM toVariable := by
  rw [← map_flatten_mapM fun n _ => leafVariables_eq_mapM n, List.mapM_cons, problemVariables, funext occurrences_eq]
  cases objective.leafVariables with
  | error e => rfl
  | ok vs =>
    cases constraints.mapM leafVariables with
    | error e => rfl
    | ok ws => rfl

theorem passes_toVariable : Passes (fun _ ns => ns.mapM (toVariable (α := α))) (fun n => ∃ id, n.Named id)
    fun _ n => .idNotInteger n.data.idText :=
  passes_mapM (fun _ ⟨_, h⟩ => ⟨_, h.toVariable_eq⟩) fun _ h => toVariable_eq_error h

end Node

/-! Clashes -/

theorem foldlM_eq_error_iff {β γ : Type} {f : γ → β → Result γ} {xs : List β} {s : γ} {e : Failure} :
    xs.foldlM f s = .error e ↔
      ∃ before x after s', xs = before ++ x :: after ∧ before.foldlM f s = .ok s' ∧ f s' x = .error e := by
  constructor
  · intro h
    induction xs generalizing s with
    | nil => cases h
    | cons x xs ih =>
      rw [List.foldlM_cons] at h
      rcases bind_eq_error.mp h with h | ⟨t, ht, h⟩
      · exact ⟨[], x, xs, s, rfl, rfl, h⟩
      · obtain ⟨before, y, after, s', rfl, hbefore, hy⟩ := ih h
        exact ⟨x :: before, y, after, s', rfl, by rw [List.foldlM_cons, ht]; exact hbefore, hy⟩
  · rintro ⟨before, x, after, s', rfl, hbefore, hx⟩
    rw [List.foldlM_append, hbefore]
    change (x :: after).foldlM f s' = _
    rw [List.foldlM_cons, hx]
    rfl

namespace Variable

theorem Seen.meet_eq_error_iff {seen : List (Int × Variable)} (h : Seen seen) {v : Variable} {e : Failure} :
    Variable.meet seen v = .error e ↔
      ∃ w ∈ seen.map Prod.snd, Clash w v ∧ e = .inconsistentVariable w.id w.shapeValue v.shapeValue := by
  constructor
  · exact h.meet_eq_error
  · rintro ⟨w, hw, ⟨hid, hne⟩, rfl⟩
    obtain ⟨⟨k, w⟩, hmem, rfl⟩ := List.mem_map.mp hw
    obtain rfl : k = w.id := h.keyed _ hmem
    have hget := Keyed.get?_eq_some_of_mem h.nodup hmem
    change w.id = v.id at hid
    rw [hid] at hget
    rw [Variable.meet, hget, hid]
    exact if_neg hne

/-- Variables are refused exactly for the first one that clashes with one before it. -/
theorem distinct_eq_error_iff {vars : List Variable} {e : Failure} : distinct vars = .error e ↔
    ∃ before v after, vars = before ++ v :: after ∧ (∀ u ∈ before, ∀ w ∈ before, ¬Clash u w) ∧
      ∃ w ∈ before, Clash w v ∧ e = .inconsistentVariable w.id w.shapeValue v.shapeValue := by
  have hnil : Seen [] := ⟨List.forall_mem_nil _, List.nodup_nil⟩
  have hfold : distinct vars = .error e ↔ vars.foldlM meet [] = .error e := bind_pure_eq_error
  have hseen : ∀ {before : List Variable} {seen}, before.foldlM meet [] = .ok seen →
      Seen seen ∧ ∀ w, w ∈ seen.map Prod.snd ↔ w ∈ before := by
    intro before seen hb
    obtain ⟨hs, hmem⟩ := hnil.foldlM_meet hb
    exact ⟨hs, fun w => by simp [hmem]⟩
  rw [hfold, foldlM_eq_error_iff]
  constructor
  · rintro ⟨before, v, after, seen, rfl, hb, hv⟩
    obtain ⟨hs, hmem⟩ := hseen hb
    obtain ⟨w, hw, hclash, he⟩ := hs.meet_eq_error_iff.mp hv
    have hclear := exists_distinct_iff.mp ⟨_, by rw [distinct, hb]; rfl⟩
    exact ⟨before, v, after, rfl, hclear, w, (hmem w).mp hw, hclash, he⟩
  · rintro ⟨before, v, after, rfl, hclear, w, hw, hclash, he⟩
    obtain ⟨_, hd⟩ := exists_distinct_iff.mpr hclear
    obtain ⟨seen, hb, _⟩ := bind_eq_ok.mp hd
    obtain ⟨hs, hmem⟩ := hseen hb
    exact ⟨before, v, after, seen, rfl, hb, hs.meet_eq_error_iff.mpr ⟨w, (hmem w).mpr hw, hclash, he⟩⟩

end Variable

namespace Node

/-- The variable that a named node states. -/
def stated (n : Node α) : Variable :=
  match n.data with
  | .loose (.int id) => .ofShape id n.shape
  | _ => .ofShape 0 n.shape

/-- Whether nodes with one id have one shape. -/
def Agree (ns : List (Node α)) : Prop :=
  ∀ m ∈ ns, ∀ n ∈ ns, ∀ id, m.Named id → n.Named id → m.shape = n.shape

variable {m n : Node α} {ns : List (Node α)}

theorem Named.stated_eq {id : Int} (h : n.Named id) : n.stated = .ofShape id n.shape := by
  rw [stated, show n.data = .loose (.int id) from h]

theorem mapM_toVariable (h : ∀ n ∈ ns, ∃ id, n.Named id) : ns.mapM toVariable = .ok (ns.map stated) :=
  mapM_eq_ok_map fun n hn => by
    obtain ⟨id, hid⟩ := h n hn
    rw [hid.toVariable_eq, hid.stated_eq]

theorem clash_stated_iff {id : Int} (hm : m.Named id) (hn : ∃ k, n.Named k) :
    Variable.Clash m.stated n.stated ↔ n.Named id ∧ m.shape ≠ n.shape := by
  obtain ⟨k, hk⟩ := hn
  have hid : n.Named id ↔ id = k := by
    rw [Named, show n.data = .loose (.int k) from hk, eq_comm]
    simp
  have hshape : m.shape = n.shape ↔ m.shape.rows = n.shape.rows ∧ m.shape.cols = n.shape.cols := by
    rw [← Shape.mk.injEq]
  rw [hm.stated_eq, hk.stated_eq, hid, Variable.Clash, Ne, hshape]
  simp [Variable.ofShape]

theorem agree_iff (h : ∀ n ∈ ns, ∃ id, n.Named id) :
    Agree ns ↔ ∀ v ∈ ns.map stated, ∀ w ∈ ns.map stated, ¬Variable.Clash v w := by
  simp only [List.forall_mem_map]
  refine forall₂_congr fun m hm => forall₂_congr fun n hn => ?_
  obtain ⟨id, hid⟩ := h m hm
  rw [clash_stated_iff hid (h n hn), not_and, not_not]
  constructor
  · exact fun hagree => hagree id hid
  · intro hagree k hk hn
    obtain rfl : id = k := by simpa using hid.symm.trans hk
    exact hagree hn

/-- Named nodes are refused exactly for the first one that has the id of a node before it, but not its shape. -/
theorem distinct_stated_eq_error_iff (h : ∀ n ∈ ns, ∃ id, n.Named id) {e : Failure} :
    Variable.distinct (ns.map stated) = .error e ↔
      ∃ before n after, ns = before ++ n :: after ∧ Agree before ∧ ∃ m ∈ before, ∃ id, m.Named id ∧ n.Named id ∧
        m.shape ≠ n.shape ∧ e = .inconsistentVariable id m.shape.toValue n.shape.toValue := by
  rw [Variable.distinct_eq_error_iff]
  constructor
  · rintro ⟨vs, v, ws, hsplit, hclear, w, hw, hclash, rfl⟩
    obtain ⟨before, rest, rfl, rfl, hrest⟩ := List.map_eq_append_iff.mp hsplit
    obtain ⟨n, after, rfl, rfl, rfl⟩ := List.map_eq_cons_iff.mp hrest
    obtain ⟨m, hm, rfl⟩ := List.mem_map.mp hw
    obtain ⟨id, hid⟩ := h m (List.mem_append_left _ hm)
    have hn := h n (List.mem_append_right before List.mem_cons_self)
    have hbefore := (agree_iff fun k hk => h k (List.mem_append_left _ hk)).mpr hclear
    obtain ⟨hnid, hne⟩ := (clash_stated_iff hid hn).mp hclash
    refine ⟨before, n, after, rfl, hbefore, m, hm, id, hid, hnid, hne, ?_⟩
    rw [hid.stated_eq, hnid.stated_eq]
    rfl
  · rintro ⟨before, n, after, rfl, hagree, m, hm, id, hid, hn, hne, rfl⟩
    have hbefore := (agree_iff fun k hk => h k (List.mem_append_left _ hk)).mp hagree
    refine ⟨before.map stated, n.stated, after.map stated, List.map_append, hbefore, m.stated,
      List.mem_map_of_mem hm, (clash_stated_iff hid ⟨id, hn⟩).mpr ⟨hn, hne⟩, ?_⟩
    rw [hid.stated_eq, hn.stated_eq]
    rfl

end Node

end ConicForm
