import ConicForm.Proofs.RowLayout

/-!
# Rows as a partition

The ranges of the constraints that ask for one cone follow one another, from the first row of the cone to its
last, and the cones follow one another as well. So the rows of a layout are parted among the constraints, and
cutting a vector by constraint and cutting it by cone are the same up to the order of the pieces. Nothing is
asked of the constraints but that the layout admits them.
-/

namespace ConicForm

namespace RowRange

variable {β : Type}

/-- The entries of a vector that stand in a range. -/
def entries (z : List β) (r : RowRange) : List β := Axis.slice z r.first (r.first + r.count)

/-- Whether the rows of a range come before those of another. -/
def Precedes (r s : RowRange) : Prop := r.first + r.count ≤ s.first

/-- Ranges that follow one another, the first one from a row on. -/
def Consecutive (first : Int) : List RowRange → Prop
  | [] => True
  | r :: rs => r.first = first ∧ Consecutive (first + r.count) rs

namespace Consecutive

variable {first : Int} {rs : List RowRange}

theorem bounds (h : Consecutive first rs) {r : RowRange} (hr : r ∈ rs) :
    first ≤ r.first ∧ r.first + r.count ≤ first + total (rs.map count) := by
  induction rs generalizing first with
  | nil => cases hr
  | cons s rs ih =>
    obtain ⟨hs, hrest⟩ := h
    rw [List.map_cons, total_cons]
    rcases List.mem_cons.mp hr with rfl | hr
    · omega
    · have := ih hrest hr
      omega

theorem pairwise (h : Consecutive first rs) : rs.Pairwise Precedes := by
  induction rs generalizing first with
  | nil => exact List.Pairwise.nil
  | cons r rs ih =>
    obtain ⟨hr, hrest⟩ := h
    refine List.pairwise_cons.mpr ⟨fun s hs => ?_, ih hrest⟩
    have := (hrest.bounds hs).1
    rw [Precedes]
    omega

/-- Every row from the first one to the last is in one of the ranges. -/
theorem exists_mem (h : Consecutive first rs) {k : Int} (hfirst : first ≤ k)
    (hlast : k < first + total (rs.map count)) : ∃ r ∈ rs, r.first ≤ k ∧ k < r.first + r.count := by
  induction rs generalizing first with
  | nil =>
    rw [List.map_nil, total_nil] at hlast
    omega
  | cons r rs ih =>
    obtain ⟨hr, hrest⟩ := h
    rw [List.map_cons, total_cons] at hlast
    by_cases hk : k < first + r.count
    · exact ⟨r, List.mem_cons_self, by omega, by omega⟩
    · obtain ⟨s, hs, hks⟩ := ih hrest (by omega) (by omega)
      exact ⟨s, List.mem_cons_of_mem r hs, hks⟩

/-- The entries in ranges that follow one another are those from the first row to the last. -/
theorem flatMap_entries {first : Nat} (h : Consecutive first rs) {z : List β}
    (hz : first + total (rs.map count) ≤ z.length) :
    rs.flatMap (entries z) = Axis.slice z first ((first : Int) + total (rs.map count)) := by
  rw [Axis.slice_ofNat hz]
  induction rs generalizing first with
  | nil => rfl
  | cons r rs ih =>
    obtain ⟨hr, hrest⟩ := h
    rw [List.map_cons, total_cons] at hz
    have hnext : Consecutive ((first + r.count : Nat) : Int) rs := by
      rw [Nat.cast_add]
      exact hrest
    have hentries : r.entries z = (z.drop first).take r.count := by
      rw [entries, hr, Axis.slice_ofNat (by omega)]
    rw [List.flatMap_cons, hentries, ih hnext (by omega), List.map_cons, total_cons, List.take_add,
      List.drop_drop]

end Consecutive

end RowRange

open RowRange (Consecutive entries)

variable {α : Type}

/-! Ranges of constraints -/

section ranges

variable {ns : List (Node α)} {ms : List (Cone × Node α)} {next : ByCone Int} {position : Nat} {rs : List RowRange}

/-- The ranges of one cone follow one another from its next free row on, whatever the constraints between
them ask for. -/
theorem consecutive_of_rowRangesFrom (h : rowRangesFrom next position ns = .ok rs) (c : Cone) :
    Consecutive (next.get c) (rs.filter fun r => r.cone = c) := by
  induction ns generalizing next position rs with
  | nil =>
    obtain rfl := Except.ok.inj h
    trivial
  | cons n ns ih =>
    rw [rowRangesFrom] at h
    obtain ⟨d, _, h⟩ := bind_eq_ok.mp h
    split at h
    · cases h
    obtain ⟨count, _, h⟩ := bind_eq_ok.mp h
    obtain ⟨rest, hrest, h⟩ := bind_eq_ok.mp h
    obtain rfl := Except.ok.inj h
    have hstep := ih hrest
    rw [ByCone.get_set] at hstep
    by_cases hd : d = c
    · subst hd
      rw [if_pos rfl] at hstep
      rw [List.filter_cons_of_pos (by simp)]
      exact ⟨rfl, hstep⟩
    · rw [if_neg (Ne.symm hd)] at hstep
      rwa [List.filter_cons_of_neg (by simpa using hd)]

/-- A range is one for a constraint if it has its cone and the size of what it wraps. -/
def RowRange.IsFor (r : RowRange) (n : Node α) : Prop :=
  ∃ x, n.kind.cone? = some r.cone ∧ n.children = [x] ∧ r.count = x.size

theorem isFor_of_rowRangesFrom (hms : List.Forall₂ Node.Asks ns ms) (h : rowRangesFrom next position ns = .ok rs) :
    List.Forall₂ (fun n r => r.IsFor n) ns rs := by
  induction hms generalizing next position rs with
  | nil =>
    obtain rfl := Except.ok.inj h
    exact .nil
  | @cons n m ns ms hn _ ih =>
    rw [rowRangesFrom] at h
    obtain ⟨c, hc, h⟩ := bind_eq_ok.mp h
    rw [hn.2] at h
    obtain ⟨count, hcount, h⟩ := bind_eq_ok.mp h
    obtain ⟨rest, hrest, h⟩ := bind_eq_ok.mp h
    obtain rfl := Except.ok.inj h
    exact .cons ⟨m.2, Node.cone_eq_ok hc, hn.2, Node.width_eq_ok hcount⟩ (ih hrest)

theorem counts_eq (hms : List.Forall₂ Node.Asks ns ms) (hrs : List.Forall₂ (fun n r => r.IsFor n) ns rs)
    (c : Cone) : (rs.filter fun r => r.cone = c).map RowRange.count = (membersAt c ms).map Node.size := by
  induction hms generalizing rs with
  | nil =>
    cases hrs
    rfl
  | @cons n m ns ms hn _ ih =>
    cases hrs with
    | @cons _ r _ rs hr hrs =>
      obtain ⟨x, hcone, hchildren, hcount⟩ := hr
      obtain rfl : x = m.2 := (List.cons.inj (hchildren.symm.trans hn.2)).1
      have hm : m.1 = r.cone := Option.some.inj (hn.1.symm.trans hcone)
      have hrest := ih hrs
      by_cases hc : r.cone = c
      · simpa [membersAt, hc, hm, hcount] using hrest
      · simpa [membersAt, hc, hm] using hrest

/-- The pieces of the constraints that ask for a cone are the entries in the ranges of the cone. -/
theorem pieces_eq {β : Type} (hrs : List.Forall₂ (fun n r => r.IsFor n) ns rs) (z : List β) (c : Cone) :
    ((ns.zip (rs.map (entries z))).filter fun e => e.1.kind.cone? = some c).flatMap Prod.snd =
      (rs.filter fun r => r.cone = c).flatMap (entries z) := by
  induction hrs with
  | nil => rfl
  | @cons n r ns rs hr _ ih =>
    obtain ⟨x, hcone, _, _⟩ := hr
    rw [List.map_cons, List.zip_cons_cons]
    by_cases hc : r.cone = c
    · rw [List.filter_cons_of_pos (by simp [hcone, hc]), List.filter_cons_of_pos (by simp [hc]), List.flatMap_cons,
        List.flatMap_cons, ih]
    · rw [List.filter_cons_of_neg (by simp [hcone, hc]), List.filter_cons_of_neg (by simp [hc]), ih]

end ranges

/-! Rows of a layout -/

theorem Cone.before_or_after (c d : Cone) : c = d ∨ c ∈ d.before ∨ d ∈ c.before := by
  cases c <;> cases d <;> decide

namespace Layout

variable {l : Layout α} {objective : Node α} {constraints : List (Node α)}

/-- The rows of a cone as one range. -/
def coneRange (l : Layout α) (c : Cone) : RowRange :=
  ⟨c, (firstRows (coneSizes l.dims)).get c, total (l.dims.get c)⟩

theorem first_coneRange (l : Layout α) (c : Cone) :
    (l.coneRange c).first = (total (c.before.map fun d => total (l.dims.get d)) : Nat) :=
  firstRows_coneSizes l.dims c

theorem total_coneRanges (l : Layout α) : total ((Cone.all.map l.coneRange).map RowRange.count) = l.height := by
  rw [List.map_map]
  rfl

theorem consecutive_coneRanges (l : Layout α) : Consecutive 0 (Cone.all.map l.coneRange) := by
  have hfirst := l.first_coneRange
  simp only [Cone.all, List.map_cons, List.map_nil, Consecutive, hfirst, Cone.before, total_cons, total_nil]
  simp only [coneRange, and_true]
  omega

theorem coneRange_precedes (l : Layout α) {c d : Cone} (h : c ∈ d.before) :
    (l.coneRange c).Precedes (l.coneRange d) := by
  obtain ⟨after, hall⟩ := d.exists_all_eq
  have hp := l.consecutive_coneRanges.pairwise
  rw [hall, List.map_append, List.map_cons] at hp
  exact (List.pairwise_append.mp hp).2.2 _ (List.mem_map.mpr ⟨c, h, rfl⟩) _ List.mem_cons_self

theorem coneRange_bounds (l : Layout α) (c : Cone) :
    0 ≤ (l.coneRange c).first ∧ (l.coneRange c).first + (l.coneRange c).count ≤ l.height := by
  have := l.consecutive_coneRanges.bounds (List.mem_map.mpr ⟨c, c.mem_all, rfl⟩)
  rwa [total_coneRanges, Int.zero_add] at this

/-- The layout's sizes in a solver's terms are its own if the members of the exponential cones have three
rows each. -/
theorem rows_coneDims (hs : Sizes l.members l.dims) (h : ∀ n ∈ l.members.exp, n.shape.rows = 3) :
    l.coneDims.rows = coneSizes l.dims := by
  have hexp := total_size_of_triples h
  apply ByCone.ext_get
  intro c
  rw [coneSizes, ByCone.get_map]
  cases c with
  | eq =>
    change ((l.dims.eq.headD 0 : Nat) : Int) = (total l.dims.eq : Nat)
    rw [hs.eq]
    rfl
  | leq =>
    change ((l.dims.leq.headD 0 : Nat) : Int) = (total l.dims.leq : Nat)
    rw [hs.leq]
    rfl
  | soc => exact integerTotal_ofNat l.dims.soc
  | exp =>
    change 3 * ((l.dims.exp.headD 0 / 3 : Nat) : Int) = (total l.dims.exp : Nat)
    rw [hs.exp, List.headD_cons, total_cons, total_nil]
    omega

/-- The ranges of the constraints fill the rows of the cones, those of one cone in the order of the
constraints. -/
structure Parts (l : Layout α) (constraints : List (Node α)) : Prop where
  isFor : List.Forall₂ (fun n r => r.IsFor n) constraints l.ranges
  consecutive : ∀ c, Consecutive (l.coneRange c).first (l.ranges.filter fun r => r.cone = c)
  total_counts : ∀ c, total ((l.ranges.filter fun r => r.cone = c).map RowRange.count) = (l.coneRange c).count
  soc_counts : (l.ranges.filter fun r => r.cone = .soc).map RowRange.count = l.dims.soc
  rows_eq : (∀ n ∈ constraints, n.kind.cone? = some .exp → ∀ x ∈ n.children, x.shape.rows = 3) →
    l.coneDims.rows = coneSizes l.dims

theorem parts_of_ofProblem (h : ofProblem objective constraints = .ok l) : l.Parts constraints := by
  obtain ⟨ms, dims, _, _, ranges, hasks, hdims, _, _, hranges, rfl⟩ := ofProblem_cases h
  have hmembers : ∀ c, (group ms).get c = membersAt c ms := fun c => ByCone.get_ofFn _ c
  have hs := dimensions_eq_ok hdims
  have hrs := isFor_of_rowRangesFrom hasks hranges
  refine ⟨hrs, consecutive_of_rowRangesFrom hranges, fun c => ?_, ?_, fun htriples => rows_coneDims hs ?_⟩
  · rw [counts_eq hasks hrs, ← hmembers, ← hs.total_get]
    rfl
  · rw [counts_eq hasks hrs, ← hmembers]
    exact hs.soc.symm
  · intro n hn
    have hn : n ∈ (group ms).get .exp := hn
    rw [hmembers] at hn
    obtain ⟨k, hk, hkn⟩ := exists_left_of_forall₂ hasks (mem_membersAt.mp hn)
    exact htriples k hk hkn.1 n (hkn.2 ▸ List.mem_cons_self)

namespace Parts

theorem bounds (h : l.Parts constraints) {r : RowRange} (hr : r ∈ l.ranges) :
    (l.coneRange r.cone).first ≤ r.first ∧
      r.first + r.count ≤ (l.coneRange r.cone).first + (l.coneRange r.cone).count := by
  have := (h.consecutive r.cone).bounds (List.mem_filter.mpr ⟨hr, by simp⟩)
  rwa [h.total_counts] at this

theorem precedes_of_before (h : l.Parts constraints) {r s : RowRange} (hr : r ∈ l.ranges) (hs : s ∈ l.ranges)
    (hc : r.cone ∈ s.cone.before) : r.Precedes s := by
  have hblocks := l.coneRange_precedes hc
  have hr := h.bounds hr
  have hs := h.bounds hs
  rw [RowRange.Precedes] at hblocks ⊢
  omega

theorem pairwise_same_cone (h : l.Parts constraints) :
    l.ranges.Pairwise fun r s => r.cone = s.cone → r.Precedes s := by
  rw [List.pairwise_iff_forall_sublist]
  intro r s hsub hc
  have hp := List.pairwise_filter.mp (h.consecutive s.cone).pairwise
  exact List.pairwise_iff_forall_sublist.mp hp hsub (by simp [hc]) (by simp)

/-- Of two ranges one comes before the other: that of the earlier cone, or of the earlier constraint. -/
theorem pairwise_precedes (h : l.Parts constraints) :
    l.ranges.Pairwise fun r s => r.Precedes s ∨ s.Precedes r := by
  rw [List.pairwise_iff_forall_sublist]
  intro r s hsub
  have hr : r ∈ l.ranges := hsub.subset List.mem_cons_self
  have hs : s ∈ l.ranges := hsub.subset (List.mem_cons_of_mem r List.mem_cons_self)
  rcases r.cone.before_or_after s.cone with hc | hc | hc
  · exact .inl (List.pairwise_iff_forall_sublist.mp h.pairwise_same_cone hsub hc)
  · exact .inl (h.precedes_of_before hr hs hc)
  · exact .inr (h.precedes_of_before hs hr hc)

theorem exists_mem_iff (h : l.Parts constraints) (k : Int) :
    (∃ r ∈ l.ranges, r.first ≤ k ∧ k < r.first + r.count) ↔ 0 ≤ k ∧ k < l.height := by
  constructor
  · rintro ⟨r, hr, hk⟩
    have hr := h.bounds hr
    have hblock := l.coneRange_bounds r.cone
    omega
  · rintro ⟨hfirst, hlast⟩
    obtain ⟨b, hb, hbk⟩ := l.consecutive_coneRanges.exists_mem hfirst
      (by rwa [total_coneRanges, Int.zero_add])
    obtain ⟨c, _, rfl⟩ := List.mem_map.mp hb
    obtain ⟨r, hr, hrk⟩ := (h.consecutive c).exists_mem hbk.1 (by rw [h.total_counts]; exact hbk.2)
    exact ⟨r, List.mem_of_mem_filter hr, hrk⟩

end Parts

/-! Vectors -/

variable {z : List α}

theorem get_split (h : l.coneDims.rows = coneSizes l.dims) (z : List α) (c : Cone) :
    (l.coneDims.split z).get c = entries z (l.coneRange c) := by
  rw [ConeDims.split, ByCone.get_ofFn, h, entries, coneRange, coneSizes, ByCone.get_map]

/-- The pieces of a vector by cone are the whole of it. -/
theorem flatMap_split (h : l.coneDims.rows = coneSizes l.dims) (hz : z.length = l.height) :
    Cone.all.flatMap (l.coneDims.split z).get = z := by
  have hwhole : 0 + total ((Cone.all.map l.coneRange).map RowRange.count) = z.length := by
    rw [total_coneRanges, hz, Nat.zero_add]
  have hcones : Consecutive ((0 : Nat) : Int) (Cone.all.map l.coneRange) := l.consecutive_coneRanges
  have hblocks := hcones.flatMap_entries hwhole.le
  rw [Axis.slice_ofNat hwhole.le, ← Nat.zero_add (total _), hwhole, List.drop_zero, List.take_length,
    List.flatMap_map] at hblocks
  rw [funext (get_split h z)]
  exact hblocks

/-- The pieces by constraint of those that ask for a cone are the piece of the cone. -/
theorem Parts.pieces_eq_split (h : l.Parts constraints) (hrows : l.coneDims.rows = coneSizes l.dims)
    (hz : z.length = l.height) (c : Cone) :
    ((constraints.zip (l.splitByConstraint z)).filter fun e => e.1.kind.cone? = some c).flatMap Prod.snd =
      (l.coneDims.split z).get c := by
  have hbounds := l.coneRange_bounds c
  have hcone := h.consecutive c
  obtain ⟨first, hfirst⟩ := Int.eq_ofNat_of_zero_le hbounds.1
  rw [hfirst] at hbounds hcone
  have hle : first + total ((l.ranges.filter fun r => r.cone = c).map RowRange.count) ≤ z.length := by
    rw [h.total_counts, hz]
    omega
  have hentries := hcone.flatMap_entries hle
  rw [h.total_counts] at hentries
  rw [get_split hrows, entries, hfirst, ← hentries]
  exact pieces_eq h.isFor z c

end Layout

/-- The ranges of the constraints part the rows: each constraint has one of its size, any two have no row in
common, every row is in one of them, and they are in the order of the cones and then of the constraints. The
entries of a vector by constraint are those by cone if the members of the exponential cones have three rows. -/
theorem rows_partitioned {l : Layout α} {objective : Node α} {constraints : List (Node α)}
    (h : Layout.ofProblem objective constraints = .ok l) :
    List.Forall₂ (fun n r => r.IsFor n) constraints l.ranges ∧
      l.ranges.Pairwise (fun r s => r.Precedes s ∨ s.Precedes r) ∧
      (∀ k : Int, (∃ r ∈ l.ranges, r.first ≤ k ∧ k < r.first + r.count) ↔ 0 ≤ k ∧ k < l.height) ∧
      (∀ r ∈ l.ranges, ∀ s ∈ l.ranges, r.cone ∈ s.cone.before → r.Precedes s) ∧
      l.ranges.Pairwise (fun r s => r.cone = s.cone → r.Precedes s) ∧
      (l.ranges.filter fun r => r.cone = .soc).map RowRange.count = l.dims.soc ∧
      ((∀ n ∈ constraints, n.kind.cone? = some .exp → ∀ x ∈ n.children, x.shape.rows = 3) →
        ∀ z : List α, z.length = l.height →
          Cone.all.flatMap (l.coneDims.split z).get = z ∧
          ∀ c, ((constraints.zip (l.splitByConstraint z)).filter fun e => e.1.kind.cone? = some c).flatMap
            Prod.snd = (l.coneDims.split z).get c) := by
  have hparts := Layout.parts_of_ofProblem h
  refine ⟨hparts.isFor, hparts.pairwise_precedes, hparts.exists_mem_iff,
    fun r hr s hs => hparts.precedes_of_before hr hs, hparts.pairwise_same_cone, hparts.soc_counts,
    fun htriples z hz => ?_⟩
  have hrows := hparts.rows_eq htriples
  exact ⟨Layout.flatMap_split hrows hz, hparts.pieces_eq_split hrows hz⟩

namespace Sample

/-- A variable of integers. -/
def leaf (ident : Nat) (s : Shape) : Node Int := ⟨ident, .variable, s, [], .loose (.int ident)⟩

/-- Constraints that no builder makes: one with a shape that is not its expression's, and one on a sum of
nothing. -/
def crude : List (Node Int) :=
  [⟨10, .exp, ⟨3, 2⟩, [leaf 3 ⟨3, 2⟩], .loose .none⟩, ⟨11, .leq, ⟨5, 5⟩, [leaf 1 ⟨2, 1⟩], .loose .none⟩,
    ⟨12, .soc, ⟨3, 1⟩, [leaf 2 ⟨3, 1⟩], .loose .none⟩, ⟨13, .eq, ⟨1, 1⟩, [leaf 0 ⟨1, 1⟩], .loose .none⟩,
    ⟨14, .soc, ⟨2, 1⟩, [⟨4, .sum, ⟨2, 1⟩, [], .loose .none⟩], .loose .none⟩]

def crudeLayout : Layout Int where
  members := ⟨[leaf 0 ⟨1, 1⟩], [leaf 1 ⟨2, 1⟩], [leaf 2 ⟨3, 1⟩, ⟨4, .sum, ⟨2, 1⟩, [], .loose .none⟩],
    [leaf 3 ⟨3, 2⟩]⟩
  dims := ⟨[1], [2], [3, 2], [6]⟩
  offsets := [(0, 0), (1, 1), (2, 3), (3, 6)]
  shapes := [(0, ⟨1, 1⟩), (1, ⟨2, 1⟩), (2, ⟨3, 1⟩), (3, ⟨3, 2⟩)]
  width := 12
  ranges := [⟨.exp, 8, 6⟩, ⟨.leq, 1, 2⟩, ⟨.soc, 3, 3⟩, ⟨.eq, 0, 1⟩, ⟨.soc, 6, 2⟩]

theorem ofProblem_crude : Layout.ofProblem (leaf 0 ⟨1, 1⟩) crude = .ok crudeLayout := by
  have hasc : Variable.Ascending
      [.ofShape 0 ⟨1, 1⟩, .ofShape 1 ⟨2, 1⟩, .ofShape 2 ⟨3, 1⟩, .ofShape 3 ⟨3, 2⟩] := by
    rw [Variable.Ascending]
    decide
  exact Layout.ofProblem_of_perm rfl rfl rfl rfl rfl (by decide) hasc rfl

theorem crude_triples : ∀ n ∈ crude, n.kind.cone? = some .exp → ∀ x ∈ n.children, x.shape.rows = 3 := by
  decide

end Sample

theorem rows_partitioned_crude : (∃ r ∈ Sample.crudeLayout.ranges, r.first ≤ 7 ∧ 7 < r.first + r.count) ∧
    ((Sample.crude.zip (Sample.crudeLayout.splitByConstraint [0, 1, 2, 3, 4, 5, 6, 7, 8, 9, 10, 11, 12, 13])).filter
      fun e => e.1.kind.cone? = some .soc).flatMap Prod.snd = [3, 4, 5, 6, 7] := by
  obtain ⟨_, _, hcover, _, _, _, hpieces⟩ := rows_partitioned Sample.ofProblem_crude
  exact ⟨(hcover 7).mpr (by decide), ((hpieces Sample.crude_triples _ rfl).2 .soc).trans (by decide)⟩

end ConicForm
