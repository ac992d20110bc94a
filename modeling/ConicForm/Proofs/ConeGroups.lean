import ConicForm.Proofs.MalformedProblems
import ConicForm.Proofs.Reordering
import ConicForm.Proofs.RowPartition

/-!
# Groups and dimensions of constraints

What constraints wrap is parted among the cones, each expression as often as it is given and in its order. So the
groups of two lists of constraints, one after the other, are those of the first one followed by those of the second,
cone by cone, and their dimensions are added, or follow each other for second-order cones, which must be columns for
that. Groups under any keys have dimensions unless one that is no cone has members, or a member of a second-order cone
is no column.
-/

namespace ConicForm

section lists

variable {κ β : Type} [DecidableEq κ]

/-- Items that are parted among some keys. -/
theorem flatMap_filter_perm {keys : List κ} {key : β → Option κ} {xs : List β} (hkeys : keys.Nodup)
    (h : ∀ x ∈ xs, ∃ k ∈ keys, key x = some k) : (keys.flatMap fun k => xs.filter fun x => key x = some k).Perm xs := by
  induction xs with
  | nil => simp
  | cons x xs ih =>
    obtain ⟨⟨k, hk, hx⟩, hxs⟩ := List.forall_mem_cons.mp h
    obtain ⟨before, after, rfl⟩ := List.append_of_mem hk
    have hnot : ∀ others : List κ, k ∉ others → (others.flatMap fun l => (x :: xs).filter fun y => key y = some l) =
        others.flatMap fun l => xs.filter fun y => key y = some l := by
      intro others hothers
      apply List.flatMap_congr
      intro l hl
      apply List.filter_cons_of_neg
      rw [hx]
      simpa using fun hkl : k = l => hothers (hkl ▸ hl)
    have hsplit := List.nodup_middle.mp hkeys
    have hmem := (List.nodup_cons.mp hsplit).1
    rw [List.mem_append, not_or] at hmem
    have hcons : ((x :: xs).filter fun y => key y = some k) = x :: xs.filter fun y => key y = some k :=
      List.filter_cons_of_pos (by simpa using hx)
    have hperm := ih hxs
    rw [List.flatMap_append, List.flatMap_cons] at hperm ⊢
    rw [hnot before hmem.1, hnot after hmem.2, hcons, List.cons_append]
    exact List.perm_middle.trans (hperm.cons x)

theorem total_flatMap (f : β → List Nat) (xs : List β) :
    total (xs.flatMap f) = total (xs.map fun x => total (f x)) := by
  induction xs with
  | nil => rfl
  | cons x xs ih => rw [List.flatMap_cons, total_append, ih, List.map_cons, total_cons]

end lists

variable {α : Type} {xs ys ns : List (Node α)} {s t u : ByCone (List (Node α))} {d e : ByCone (List Nat)}

/-! Groups -/

theorem classify_eq_ok_iff : classify xs = .ok s ↔ ∃ ms, List.Forall₂ Node.Asks xs ms ∧ s = group ms := by
  constructor
  · intro h
    obtain ⟨ms, hms, hs⟩ := bind_eq_ok.mp h
    exact ⟨ms, Node.memberships_eq_ok hms, (Except.ok.inj hs).symm⟩
  · rintro ⟨ms, hms, rfl⟩
    rw [classify, Node.memberships_of_asks hms]
    rfl

theorem get_group (ms : List (Cone × Node α)) (c : Cone) : (group ms).get c = membersAt c ms := ByCone.get_ofFn _ c

theorem get_of_classify (h : classify xs = .ok s) (c : Cone) :
    s.get c = (xs.filter fun n => n.kind.cone? = some c).flatMap Node.children := by
  obtain ⟨ms, hms, rfl⟩ := classify_eq_ok_iff.mp h
  rw [get_group, membersAt_eq_flatMap hms]

theorem existsUnique_asks_of_classify (h : classify xs = .ok s) : ∀ n ∈ xs, ∃! m, n.Asks m := by
  intro n hn
  obtain ⟨ms, hms, _⟩ := classify_eq_ok_iff.mp h
  obtain ⟨m, _, hm⟩ := exists_right_of_forall₂ hms hn
  refine ⟨m, hm, ?_⟩
  intro m' hm'
  have hcone : m'.1 = m.1 := Option.some.inj (hm'.1.symm.trans hm.1)
  have hchild : m'.2 = m.2 := List.singleton_inj.mp (hm'.2.symm.trans hm.2)
  exact Prod.ext hcone hchild

theorem Cone.nodup_all : all.Nodup := by decide

/-- The groups have what the constraints wrap, as often as it is wrapped. -/
theorem flatMap_get_perm (h : classify xs = .ok s) : (Cone.all.flatMap s.get).Perm (xs.flatMap Node.children) := by
  have hkeys : ∀ n ∈ xs, ∃ c ∈ Cone.all, n.kind.cone? = some c := by
    intro n hn
    obtain ⟨m, hm, _⟩ := existsUnique_asks_of_classify h n hn
    exact ⟨m.1, Cone.mem_all m.1, hm.1⟩
  have hperm := (flatMap_filter_perm Cone.nodup_all hkeys).flatMap_right Node.children
  rwa [List.flatMap_assoc, ← List.flatMap_congr fun c _ => get_of_classify h c] at hperm

theorem exists_classify_append (hs : classify xs = .ok s) (ht : classify ys = .ok t) :
    ∃ u, classify (xs ++ ys) = .ok u ∧ ∀ c, u.get c = s.get c ++ t.get c := by
  obtain ⟨ms, hms, rfl⟩ := classify_eq_ok_iff.mp hs
  obtain ⟨ks, hks, rfl⟩ := classify_eq_ok_iff.mp ht
  refine ⟨group (ms ++ ks), classify_eq_ok_iff.mpr ⟨_, List.rel_append hms hks, rfl⟩, ?_⟩
  intro c
  rw [get_group, get_group, get_group, membersAt, List.filter_append, List.map_append, membersAt, membersAt]

/-! Dimensions -/

theorem totalWidth_eq_ok_iff {k : Nat} :
    totalWidth ns = .ok k ↔ (∀ n ∈ ns, n.kind.isForeign = false) ∧ k = total (ns.map Node.size) := by
  constructor
  · intro h
    refine ⟨fun n hn => ?_, totalWidth_eq_ok h⟩
    obtain ⟨ks, hks, _⟩ := bind_eq_ok.mp h
    obtain ⟨w, _, hw⟩ := exists_right_of_forall₂ (forall₂_of_mapM_eq_ok hks) hn
    rw [Node.width] at hw
    split at hw
    · cases hw
    · next hforeign => exact Bool.not_eq_true _ ▸ hforeign
  · rintro ⟨h, rfl⟩
    exact totalWidth_eq h

theorem columnHeights_eq_ok_iff {member : Nat} {ks : List Nat} :
    columnHeights member ns = .ok ks ↔ (∀ n ∈ ns, n.shape.cols = 1) ∧ ks = ns.map Node.size := by
  constructor
  · intro h
    exact (columnHeights_eq_ok h).symm
  · rintro ⟨h, rfl⟩
    obtain ⟨ks, hks⟩ := passes_columnHeights.exists_ok_iff.mpr h
    rw [hks, (columnHeights_eq_ok hks).1]

/-- What groupings with dimensions have in them, and which dimensions they have. -/
theorem dimensions_eq_ok_iff :
    dimensions s.groups = .ok d ↔ (∀ c ≠ .soc, ∀ n ∈ s.get c, n.kind.isForeign = false) ∧ Sizes s d := by
  constructor
  · intro h
    refine ⟨?_, dimensions_eq_ok h⟩
    obtain ⟨_, _, h⟩ := bind_eq_ok.mp h
    obtain ⟨_, heq, h⟩ := bind_eq_ok.mp h
    obtain ⟨_, hleq, h⟩ := bind_eq_ok.mp h
    obtain ⟨_, _, h⟩ := bind_eq_ok.mp h
    obtain ⟨_, hexp, _⟩ := bind_eq_ok.mp h
    rw [membersOf_groups] at heq hleq hexp
    intro c hc
    cases c with
    | eq => exact (totalWidth_eq_ok_iff.mp heq).1
    | leq => exact (totalWidth_eq_ok_iff.mp hleq).1
    | soc => exact absurd rfl hc
    | exp => exact (totalWidth_eq_ok_iff.mp hexp).1
  · rintro ⟨hforeign, heq, hleq, hsoc, hexp, hcolumn⟩
    have hwidth : ∀ c ≠ .soc, totalWidth (s.get c) = .ok (total ((s.get c).map Node.size)) :=
      fun c hc => totalWidth_eq (hforeign c hc)
    have hheights : columnHeights 0 (s.get .soc) = .ok (s.soc.map Node.size) :=
      columnHeights_eq_ok_iff.mpr ⟨hcolumn, rfl⟩
    have hsupported : requireSupported s.groups = .ok () := rfl
    have hd : d = ⟨[total (s.eq.map Node.size)], [total (s.leq.map Node.size)], s.soc.map Node.size,
      [total (s.exp.map Node.size)]⟩ := by rw [← heq, ← hleq, ← hsoc, ← hexp]
    rw [dimensions, hsupported, hd]
    simp only [membersOf_groups, hwidth .eq (by decide), hwidth .leq (by decide), hwidth .exp (by decide), hheights]
    rfl

/-- The dimensions of two groupings, one after the other: the totals are added, and the entries of second-order cones
follow each other. -/
def joinedDimensions (d e : ByCone (List Nat)) : ByCone (List Nat) :=
  ⟨List.zipWith (· + ·) d.eq e.eq, List.zipWith (· + ·) d.leq e.leq, d.soc ++ e.soc, List.zipWith (· + ·) d.exp e.exp⟩

theorem dimensions_joined (hu : ∀ c, u.get c = s.get c ++ t.get c) (hd : dimensions s.groups = .ok d)
    (he : dimensions t.groups = .ok e) : dimensions u.groups = .ok (joinedDimensions d e) := by
  obtain ⟨hsforeign, hs⟩ := dimensions_eq_ok_iff.mp hd
  obtain ⟨htforeign, ht⟩ := dimensions_eq_ok_iff.mp he
  have htotal : ∀ c, total ((u.get c).map Node.size) =
      total ((s.get c).map Node.size) + total ((t.get c).map Node.size) := by
    intro c
    rw [hu, List.map_append, total_append]
  refine dimensions_eq_ok_iff.mpr ⟨?_, ?_, ?_, ?_, ?_, ?_⟩
  · intro c hc n hn
    rw [hu] at hn
    rcases List.mem_append.mp hn with hn | hn
    · exact hsforeign c hc n hn
    · exact htforeign c hc n hn
  · rw [joinedDimensions, hs.eq, ht.eq]
    exact congrArg (fun k => [k]) (htotal .eq).symm
  · rw [joinedDimensions, hs.leq, ht.leq]
    exact congrArg (fun k => [k]) (htotal .leq).symm
  · rw [joinedDimensions, hs.soc, ht.soc, ← List.map_append]
    exact congrArg (List.map Node.size) (hu .soc).symm
  · rw [joinedDimensions, hs.exp, ht.exp]
    exact congrArg (fun k => [k]) (htotal .exp).symm
  · intro n hn
    have hsoc : u.soc = s.soc ++ t.soc := hu .soc
    rcases List.mem_append.mp (hsoc ▸ hn) with hn | hn
    · exact hs.column n hn
    · exact ht.column n hn

/-- The dimensions add up to the sizes of what the constraints wrap. -/
theorem total_dimensions (h : classify xs = .ok s) (hd : dimensions s.groups = .ok d) :
    total (Cone.all.map fun c => total (d.get c)) = total ((xs.flatMap Node.children).map Node.size) := by
  have hsizes := dimensions_eq_ok hd
  calc total (Cone.all.map fun c => total (d.get c))
      = total (Cone.all.map fun c => total ((s.get c).map Node.size)) := by
        rw [List.map_congr_left fun c _ => hsizes.total_get c]
    _ = total ((Cone.all.flatMap s.get).map Node.size) := by rw [← total_flatMap, List.map_flatMap]
    _ = total ((xs.flatMap Node.children).map Node.size) := total_perm ((flatMap_get_perm h).map Node.size)

/-! Groups under any keys -/

/-- Whether members are looked up under a key. -/
def GroupKey.IsCone (k : GroupKey) : Prop := ∃ c : Cone, k.label = c.label

theorem isNone_ofLabel?_iff {k : GroupKey} : (Cone.ofLabel? k.label).isNone = true ↔ ¬k.IsCone := by
  rw [Option.isNone_iff_eq_none, Cone.ofLabel?, List.find?_eq_none]
  constructor
  · rintro h ⟨c, hc⟩
    exact h c (Cone.mem_all c) (beq_iff_eq.mpr hc.symm)
  · intro h c _ hc
    exact h ⟨c, (beq_iff_eq.mp hc).symm⟩

variable {groups : List (GroupKey × List (Node α))}

theorem requireSupported_cons (g : GroupKey × List (Node α)) (groups : List (GroupKey × List (Node α))) :
    requireSupported (g :: groups) =
      (if (Cone.ofLabel? g.1.label).isNone && !g.2.isEmpty then .error (.unsupportedGroup g.1.shown g.2.length)
        else .ok ()) >>= fun _ => requireSupported groups := rfl

/-- The first group with members under a key that is no cone is refused. -/
theorem passes_requireSupported : Passes (fun _ groups => requireSupported groups)
    (fun g : GroupKey × List (Node α) => g.1.IsCone ∨ g.2 = [])
    fun _ g => .unsupportedGroup g.1.shown g.2.length where
  nil _ := ⟨(), rfl⟩
  fine k g groups hg e := by
    have hcond : ((Cone.ofLabel? g.1.label).isNone && !g.2.isEmpty) = false := by
      rw [Bool.and_eq_false_iff]
      rcases hg with hcone | hempty
      · left
        rw [← Bool.not_eq_true, isNone_ofLabel?_iff]
        exact not_not_intro hcone
      · right
        rw [hempty]
        rfl
    rw [requireSupported_cons, hcond]
    exact Iff.rfl
  refused k g groups hg := by
    rw [not_or] at hg
    have hcond : ((Cone.ofLabel? g.1.label).isNone && !g.2.isEmpty) = true := by
      rw [Bool.and_eq_true, isNone_ofLabel?_iff]
      exact ⟨hg.1, by simpa using hg.2⟩
    rw [requireSupported_cons, hcond]
    rfl

/-- What is looked up under a label are the members of the one group with this label. -/
theorem mem_membersOf_iff (hlabels : (groups.map fun g => g.1.label).Nodup) {c : Cone} {x : Node α} :
    x ∈ membersOf groups c ↔ ∃ g ∈ groups, g.1.label = c.label ∧ x ∈ g.2 := by
  rw [membersOf]
  constructor
  · intro hx
    split at hx
    · next g hg => exact ⟨g, List.mem_of_find?_eq_some hg, by simpa using List.find?_some hg, hx⟩
    · cases hx
  · rintro ⟨g, hg, hlabel, hx⟩
    split
    · next g' hg' =>
      have hlabel' : g'.1.label = c.label := by simpa using List.find?_some hg'
      obtain rfl := List.inj_on_of_nodup_map hlabels hg (List.mem_of_find?_eq_some hg') (hlabel.trans hlabel'.symm)
      exact hx
    · next hnone => exact absurd (beq_iff_eq.mpr hlabel) (List.find?_eq_none.mp hnone g hg)

theorem totalWidth_eq_error {f : Failure} (h : totalWidth ns = .error f) : f = .missingProperty := by
  obtain hm | ⟨_, _, hm⟩ := bind_eq_error.mp h
  · obtain ⟨n, _, hn⟩ := exists_of_mapM_eq_error hm
    rw [Node.width] at hn
    split at hn
    · exact (Except.error.inj hn).symm
    · cases hn
  · cases hm

/-- Groups are refused for their keys exactly if there are members under a key that is no cone. -/
theorem exists_unsupported_iff : (∃ f, dimensions groups = .error f ∧ f.category = .unsupportedCone) ↔
    ∃ g ∈ groups, ¬g.1.IsCone ∧ g.2 ≠ [] := by
  constructor
  · rintro ⟨f, hf, hcategory⟩
    obtain hkeys | ⟨_, _, hf⟩ := bind_eq_error.mp hf
    · obtain ⟨before, g, hg, _⟩ := (passes_requireSupported.eq_error_iff (k := 0)).mp hkeys
      exact ⟨g, hg.mem, not_or.mp hg.not_fine⟩
    · -- What follows the keys is refused for other reasons.
      have hwidth : ∀ c, totalWidth (membersOf groups c) ≠ .error f := by
        rintro c hc
        rw [totalWidth_eq_error hc] at hcategory
        cases hcategory
      obtain h | ⟨_, _, hf⟩ := bind_eq_error.mp hf
      · exact absurd h (hwidth .eq)
      obtain h | ⟨_, _, hf⟩ := bind_eq_error.mp hf
      · exact absurd h (hwidth .leq)
      obtain h | ⟨_, _, hf⟩ := bind_eq_error.mp hf
      · obtain ⟨_, _, _, rfl⟩ := passes_columnHeights.eq_error_iff.mp h
        cases hcategory
      obtain h | ⟨_, _, hf⟩ := bind_eq_error.mp hf
      · exact absurd h (hwidth .exp)
      cases hf
  · rintro ⟨g, hg, hcone, hne⟩
    have hnot : ¬∀ g ∈ groups, g.1.IsCone ∨ g.2 = [] := fun h => (h g hg).elim hcone hne
    obtain ⟨before, g, hfirst⟩ := exists_firstNot_iff.mpr hnot
    have hkeys := (passes_requireSupported.eq_error_iff (k := 0)).mpr ⟨before, g, hfirst, rfl⟩
    exact ⟨_, bind_eq_error.mpr (.inl hkeys), rfl⟩

/-- Groups of cones are refused exactly for the first member of a second-order cone that is no column. -/
theorem dimensions_eq_error_iff (hforeign : ∀ g ∈ groups, ∀ x ∈ g.2, x.kind.isForeign = false)
    (hcones : ∀ g ∈ groups, g.1.IsCone ∨ g.2 = []) {f : Failure} : dimensions groups = .error f ↔
      ∃ before x, FirstNot (fun x => x.shape.cols = 1) (membersOf groups .soc) before x ∧
        f = .socNotColumn before.length x.shape := by
  have hmembers : ∀ c, ∀ n ∈ membersOf groups c, n.kind.isForeign = false := by
    intro c n hn
    rw [membersOf] at hn
    split at hn
    · next g hg => exact hforeign g (List.mem_of_find?_eq_some hg) n hn
    · cases hn
  obtain ⟨_, hsupported⟩ := (passes_requireSupported.exists_ok_iff (k := 0)).mpr hcones
  have hpass : columnHeights 0 (membersOf groups .soc) = .error f ↔ _ := passes_columnHeights.eq_error_iff
  simp only [Nat.zero_add] at hpass
  rw [dimensions_eq_bind hmembers, hsupported, ← hpass]
  change Except.map _ (columnHeights 0 (membersOf groups .soc)) = _ ↔ _
  cases columnHeights 0 (membersOf groups .soc) with
  | error e =>
    constructor
    · exact fun h => congrArg Except.error (Except.error.inj h)
    · exact fun h => congrArg Except.error (Except.error.inj h)
  | ok ks => exact ⟨nofun, nofun⟩

theorem exists_malformed_iff (hlabels : (groups.map fun g => g.1.label).Nodup)
    (hforeign : ∀ g ∈ groups, ∀ x ∈ g.2, x.kind.isForeign = false)
    (hcones : ∀ g ∈ groups, g.1.IsCone ∨ g.2 = []) :
    (∃ f, dimensions groups = .error f ∧ f.category = .malformedConstraint) ↔
      ∃ g ∈ groups, g.1.label = Cone.soc.label ∧ ∃ x ∈ g.2, x.shape.cols ≠ 1 := by
  simp only [dimensions_eq_error_iff hforeign hcones]
  constructor
  · rintro ⟨_, ⟨_, x, hx, rfl⟩, _⟩
    obtain ⟨g, hg, hlabel, hmem⟩ := (mem_membersOf_iff hlabels).mp hx.mem
    exact ⟨g, hg, hlabel, x, hmem, hx.not_fine⟩
  · rintro ⟨g, hg, hlabel, x, hx, hcols⟩
    have hmem := (mem_membersOf_iff hlabels).mpr ⟨g, hg, hlabel, hx⟩
    have hnot : ¬∀ x ∈ membersOf groups .soc, x.shape.cols = 1 := fun h => hcols (h x hmem)
    obtain ⟨before, y, hy⟩ := exists_firstNot_iff.mpr hnot
    exact ⟨_, ⟨before, y, hy, rfl⟩, rfl⟩

/-- Constraints are parted among the cones in their order and with their repetitions, the groups of two lists one
after the other are joined cone by cone, and so are their dimensions, which add up to the sizes of what is wrapped.
Groups under any distinct keys are refused exactly for members under a key that is no cone and then for a member of a
second-order cone that is no column. -/
theorem groups_and_dimensions :
    (∀ (xs ys : List (Node α)) (s t : ByCone (List (Node α))), classify xs = .ok s → classify ys = .ok t →
      ∃ u, classify (xs ++ ys) = .ok u ∧ (∀ c, u.get c = s.get c ++ t.get c) ∧
        ∀ d e, dimensions s.groups = .ok d → dimensions t.groups = .ok e →
          dimensions u.groups = .ok (joinedDimensions d e)) ∧
    (∀ (xs : List (Node α)) (s : ByCone (List (Node α))), classify xs = .ok s →
      (∀ n ∈ xs, ∃! m, n.Asks m) ∧
      (∀ c, s.get c = (xs.filter fun n => n.kind.cone? = some c).flatMap Node.children) ∧
      (Cone.all.flatMap s.get).Perm (xs.flatMap Node.children) ∧
      ∀ d, dimensions s.groups = .ok d →
        total (Cone.all.map fun c => total (d.get c)) = total ((xs.flatMap Node.children).map Node.size)) ∧
    ∀ groups : List (GroupKey × List (Node α)),
      ((∃ f, dimensions groups = .error f ∧ f.category = .unsupportedCone) ↔
        ∃ g ∈ groups, ¬g.1.IsCone ∧ g.2 ≠ []) ∧
      ((groups.map fun g => g.1.label).Nodup → (∀ g ∈ groups, ∀ x ∈ g.2, x.kind.isForeign = false) →
        (∀ g ∈ groups, g.1.IsCone ∨ g.2 = []) →
        ((∃ f, dimensions groups = .error f ∧ f.category = .malformedConstraint) ↔
          ∃ g ∈ groups, g.1.label = Cone.soc.label ∧ ∃ x ∈ g.2, x.shape.cols ≠ 1)) := by
  refine ⟨?_, ?_, ?_⟩
  · intro xs ys s t hs ht
    obtain ⟨u, hu, hget⟩ := exists_classify_append hs ht
    exact ⟨u, hu, hget, fun d e => dimensions_joined hget⟩
  · intro xs s hs
    exact ⟨existsUnique_asks_of_classify hs, get_of_classify hs, flatMap_get_perm hs, fun d => total_dimensions hs⟩
  · exact fun groups => ⟨exists_unsupported_iff, exists_malformed_iff⟩

/-- The same constraints twice, and groups under texts: an empty one of no cone, and a row under the label of the
second-order cones. -/
theorem groups_and_dimensions_crude :
    (∃ u, classify (Sample.crude ++ Sample.crude) = .ok u ∧
      dimensions u.groups = .ok ⟨[2], [4], [3, 2, 3, 2], [12]⟩) ∧
    ∃ f, dimensions [(⟨"sdp", "sdp"⟩, []), (⟨"soc", "soc"⟩, [Sample.leaf 0 ⟨1, 2⟩])] = .error f ∧
      f.category = .malformedConstraint := by
  obtain ⟨hjoined, _, hgroups⟩ := groups_and_dimensions (α := Int)
  constructor
  · obtain ⟨u, hu, _, hdims⟩ := hjoined Sample.crude Sample.crude _ _ rfl rfl
    exact ⟨u, hu, hdims _ _ rfl rfl⟩
  · refine ((hgroups _).2 (by decide) (by decide) ?_).mpr ?_
    · intro g hg
      rcases List.mem_cons.mp hg with rfl | hg
      · exact .inr rfl
      · obtain rfl := List.mem_singleton.mp hg
        exact .inl ⟨.soc, rfl⟩
    · exact ⟨_, List.mem_cons_of_mem _ List.mem_cons_self, rfl, _, List.mem_singleton_self _, by decide⟩

end ConicForm
