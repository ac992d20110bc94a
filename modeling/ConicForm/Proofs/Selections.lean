import ConicForm.Proofs.Slices
import Mathlib.Data.List.Nodup
import Mathlib.Data.List.Perm.Subperm

/-!
# Selections

What an index selects on an axis is stated without the way it is resolved: the position that an integer counts to, or
the positions that a slice comes to from its start, step by step, before its stop. The slice that stands for an index
selects the same positions in the same order, and stands for itself.
-/

namespace ConicForm

namespace Slice

/-- A place that is counted from the end of an axis if it is negative. -/
def fromEnd (n length : Int) : Int := if n < 0 then n + length else n

def stride (s : Slice) : Int := s.step.getD 1

/-- Where a slice starts: with a step forward at no place before the axis, and with a step back at none after it. -/
def first (s : Slice) (length : Int) : Int :=
  if 0 < s.stride then s.start.elim 0 fun n => max 0 (fromEnd n length)
  else s.start.elim (length - 1) fun n => min (length - 1) (fromEnd n length)

/-- Whether a slice comes to a position of an axis. -/
structure Reaches (s : Slice) (length p : Nat) : Prop where
  lt : p < length
  steps : ∃ k : Nat, (p : Int) = s.first length + k * s.stride
  before_stop : ∀ n, s.stop = some n → if 0 < s.stride then p < fromEnd n length else fromEnd n length < p

def toValue (s : Slice) : Value :=
  .slice (s.start.elim .none .int) (s.stop.elim .none .int) (s.step.elim .none .int)

end Slice

/-- What an axis is indexed by. -/
inductive Index where
  | position (n : Int)
  | range (s : Slice)

namespace Index

def toValue : Index → Value
  | .position n => .int n
  | .range s => s.toValue

/-- Whether an index selects some positions of an axis in their order. -/
def Picks (k : Index) (length : Nat) (ps : List Nat) : Prop :=
  match k with
  | .position n => (-(length : Int) ≤ n ∧ n < length) ∧ ps = [(Slice.fromEnd n length).toNat]
  | .range s => s.stride ≠ 0 ∧ (∀ p, p ∈ ps ↔ s.Reaches length p) ∧
      ps.Pairwise fun p q => if 0 < s.stride then p < q else q < p

end Index

/-! Slices by their spans -/

namespace Slice

variable {s : Slice} {sp : Span} {length : Nat}

theorem spanOfValue_toValue (s : Slice) (length : Nat) : spanOfValue s.toValue length = s.span length := by
  have hmember : ∀ o : Option Int, member (o.elim .none .int) = .ok o := by
    intro o
    cases o <;> rfl
  obtain ⟨start, stop, step⟩ := s
  simp only [spanOfValue, toValue, if_neg (Int.not_lt.mpr (Int.natCast_nonneg length)), ofMembers, hmember]
  by_cases h : step = some 0
  · subst h
    rfl
  · simp only [bind, Except.bind, if_neg h]
    rfl

theorem ofKey_toValue (s : Slice) (length : Nat) : ofKey s.toValue length = do
    let sp ← s.span length
    if (← sp.length) = 0 then throw (.emptySelection s.toValue length)
    return ofSpan sp := by
  rw [← spanOfValue_toValue]
  rfl

theorem exists_span (h : s.stride ≠ 0) (length : Int) : ∃ sp, s.span length = .ok sp := by
  rw [span]
  change ∃ sp, (if s.stride = 0 then _ else if s.stride < 0 then _ else _) = Except.ok sp
  rw [if_neg h]
  split
  · exact ⟨_, rfl⟩
  · exact ⟨_, rfl⟩

theorem stride_ne_zero (h : s.span length = .ok sp) : s.stride ≠ 0 := by
  intro h0
  rw [span, show s.step.getD 1 = 0 from h0] at h
  cases h

theorem span_forward (h : s.span length = .ok sp) (hs : 0 < s.stride) :
    sp = ⟨bound s.start 0 0 length length, bound s.stop length 0 length length, s.stride⟩ := by
  rw [span] at h
  change (if s.stride = 0 then _ else if s.stride < 0 then _ else _) = _ at h
  rw [if_neg (by omega), if_neg (by omega)] at h
  exact (Except.ok.inj h).symm

theorem span_backward (h : s.span length = .ok sp) (hs : s.stride < 0) :
    sp = ⟨bound s.start (length - 1) (-1) (length - 1) length, bound s.stop (-1) (-1) (length - 1) length,
      s.stride⟩ := by
  rw [span] at h
  change (if s.stride = 0 then _ else if s.stride < 0 then _ else _) = _ at h
  rw [if_neg (by omega), if_pos hs] at h
  exact (Except.ok.inj h).symm

theorem step_eq (h : s.span length = .ok sp) : sp.step = s.stride := by
  rcases lt_or_gt_of_ne (stride_ne_zero h) with hs | hs
  · rw [span_backward h hs]
  · rw [span_forward h hs]

/-- A slice starts where its span does, or neither comes to a place of the axis. -/
theorem steps_iff (h : s.span length = .ok sp) {p : Nat} (hp : p < length) :
    (∃ k : Nat, (p : Int) = sp.start + k * s.stride) ↔ ∃ k : Nat, (p : Int) = s.first length + k * s.stride := by
  -- Past one end of the axis the steps lead away from it.
  have haway : sp.start = s.first length ∨ ∀ k : Nat, (p : Int) ≠ sp.start + k * s.stride ∧
      (p : Int) ≠ s.first length + k * s.stride := by
    rcases lt_or_gt_of_ne (stride_ne_zero h) with hs | hs
    · have hback : ∀ k : Nat, (k : Int) * s.stride ≤ 0 := fun k =>
        Int.mul_nonpos_of_nonneg_of_nonpos (Int.natCast_nonneg k) hs.le
      rw [span_backward h hs, first, if_neg (by omega)]
      cases s.start with
      | none => exact .inl rfl
      | some n =>
        simp only [bound, fromEnd, Option.elim_some]
        by_cases hn : (if n < 0 then n + (length : Int) else n) < 0
        · refine .inr fun k => ?_
          have := hback k
          constructor <;> split at hn <;> split <;> omega
        · left
          split at hn <;> split <;> omega
    · have hforth : ∀ k : Nat, 0 ≤ (k : Int) * s.stride := fun k =>
        Int.mul_nonneg (Int.natCast_nonneg k) hs.le
      rw [span_forward h hs, first, if_pos hs]
      cases s.start with
      | none => exact .inl rfl
      | some n =>
        simp only [bound, fromEnd, Option.elim_some]
        by_cases hn : (length : Int) < n
        · refine .inr fun k => ?_
          have := hforth k
          constructor <;> split <;> omega
        · left
          split <;> omega
  rcases haway with hstart | haway
  · rw [hstart]
  · constructor
    · rintro ⟨k, hk⟩
      exact absurd hk (haway k).1
    · rintro ⟨k, hk⟩
      exact absurd hk (haway k).2

/-- Of the places of the axis, those before the stop of a slice are those before the stop of its span. -/
theorem before_stop_iff (h : s.span length = .ok sp) {p : Nat} (hp : p < length) :
    (if 0 < s.stride then (p : Int) < sp.stop else sp.stop < p) ↔
      ∀ n, s.stop = some n → if 0 < s.stride then (p : Int) < fromEnd n length else fromEnd n length < p := by
  rcases lt_or_gt_of_ne (stride_ne_zero h) with hs | hs
  · simp only [span_backward h hs, if_neg (show ¬0 < s.stride by omega)]
    cases s.stop with
    | none =>
      simp only [bound]
      exact iff_of_true (by omega) (by simp)
    | some n =>
      simp only [bound, fromEnd, Option.some.injEq, forall_eq']
      split <;> omega
  · simp only [span_forward h hs, if_pos hs]
    cases s.stop with
    | none =>
      simp only [bound]
      exact iff_of_true (by omega) (by simp)
    | some n =>
      simp only [bound, fromEnd, Option.some.injEq, forall_eq']
      split <;> omega

theorem mem_positions_iff_reaches (h : s.span length = .ok sp) {p : Nat} :
    (p : Int) ∈ sp.positions ↔ s.Reaches length p := by
  have hmem := Span.mem_positions_iff (s := sp) (by rw [step_eq h]; exact stride_ne_zero h) (p := p)
  rw [step_eq h] at hmem
  constructor
  · intro hp
    have hlt : p < length := by
      have := (span_onAxis h (Int.natCast_nonneg length)).mem_positions hp
      omega
    obtain ⟨hsteps, hstop⟩ := hmem.mp hp
    exact ⟨hlt, (steps_iff h hlt).mp hsteps, (before_stop_iff h hlt).mp hstop⟩
  · rintro ⟨hlt, hsteps, hstop⟩
    exact hmem.mpr ⟨(steps_iff h hlt).mpr hsteps, (before_stop_iff h hlt).mpr hstop⟩

/-- The positions of the span of a slice are what the slice comes to, in the order of its steps. -/
theorem picks_of_span (h : s.span length = .ok sp) : (Index.range s).Picks length (sp.positions.map Int.toNat) := by
  have hplace : ∀ {p : Int}, p ∈ sp.positions → 0 ≤ p := fun hp =>
    ((span_onAxis h (Int.natCast_nonneg length)).mem_positions hp).1
  have hordered : sp.positions.Pairwise fun p q => if 0 < s.stride then p < q else q < p := by
    rw [Span.positions, List.pairwise_map, step_eq h]
    refine List.pairwise_lt_range.imp fun {j k} hjk => ?_
    have hjk : (j : Int) < k := by omega
    split
    · next hs => exact Int.add_lt_add_left (Int.mul_lt_mul_of_pos_right hjk hs) _
    · next hs =>
      have := stride_ne_zero h
      exact Int.add_lt_add_left (Int.mul_lt_mul_of_neg_right hjk (by omega)) _
  refine ⟨stride_ne_zero h, fun p => ?_, ?_⟩
  · rw [← mem_positions_iff_reaches h, List.mem_map]
    constructor
    · rintro ⟨q, hq, rfl⟩
      rwa [Int.toNat_of_nonneg (hplace hq)]
    · exact fun hp => ⟨p, hp, Int.toNat_natCast p⟩
  · rw [List.pairwise_map]
    refine hordered.imp_of_mem fun {p q} hp hq hpq => ?_
    have hp := hplace hp
    have hq := hplace hq
    by_cases hs : 0 < s.stride
    · rw [if_pos hs] at hpq ⊢
      omega
    · rw [if_neg hs] at hpq ⊢
      omega

end Slice

namespace Index

variable {k : Index} {length : Nat} {ps qs : List Nat}

theorem Picks.lt (h : k.Picks length ps) : ∀ p ∈ ps, p < length := by
  cases k with
  | position n =>
    obtain ⟨hn, rfl⟩ := h
    intro p hp
    obtain rfl := List.mem_singleton.mp hp
    rw [Slice.fromEnd]
    split <;> omega
  | range s => exact fun p hp => ((h.2.1 p).mp hp).lt

theorem Picks.nodup (h : k.Picks length ps) : ps.Nodup := by
  cases k with
  | position n =>
    obtain ⟨_, rfl⟩ := h
    exact List.nodup_singleton _
  | range s =>
    refine h.2.2.imp fun {p q} hpq => ?_
    split at hpq <;> omega

/-- An axis has no more positions to select than places. -/
theorem Picks.length_le (h : k.Picks length ps) : ps.length ≤ length := by
  have hsub : ps ⊆ List.range length := fun p hp => List.mem_range.mpr (h.lt p hp)
  calc ps.length ≤ (List.range length).length := (h.nodup.subperm hsub).length_le
    _ = length := List.length_range

/-- An index selects in one way at most. -/
theorem Picks.unique (hp : k.Picks length ps) (hq : k.Picks length qs) : ps = qs := by
  cases k with
  | position n => exact hp.2.trans hq.2.symm
  | range s =>
    have hperm : ps.Perm qs := (List.perm_ext_iff_of_nodup hp.nodup hq.nodup).mpr fun p =>
      (hp.2.1 p).trans (hq.2.1 p).symm
    refine hperm.eq_of_pairwise ?_ hp.2.2 hq.2.2
    intro p q _ _ hpq hqp
    split at hpq <;> split at hqp <;> omega

end Index

/-! The slice that stands for an index -/

/-- What a slice is that stands for the selection of some positions: read again it selects them in their order, it
counts them, and it stands for itself. -/
structure Slice.Normal (s : Slice) (length : Nat) (ps : List Nat) : Prop where
  picks : (Index.range s).Picks length ps
  positions_eq : s.positions length = .ok ps
  lt : ∀ p ∈ ps, p < length
  nodup : ps.Nodup
  length_eq : Slice.lengthOfValue s.toValue length = .ok ps.length
  stable : Slice.ofKey s.toValue length = .ok s

namespace Slice

variable {k : Index} {s : Slice} {sp : Span} {length : Nat}

theorem length_positions (sp : Span) : (sp.positions.map Int.toNat).length = sp.count := by
  rw [List.length_map, Span.positions, List.length_map, List.length_range]

theorem span_length_eq (h : s.span length = .ok sp) (hl : length < Nat.pow 2 63) : sp.length = .ok sp.count := by
  have hle := (picks_of_span h).length_le
  rw [length_positions] at hle
  rw [Span.length, if_pos (by omega)]

theorem ofKey_of_span (h : s.span length = .ok sp) (hl : length < Nat.pow 2 63) (hc : sp.count ≠ 0) :
    ofKey s.toValue length = .ok (ofSpan sp) := by
  rw [ofKey_toValue, h]
  change (sp.length >>= _) = _
  rw [span_length_eq h hl]
  exact if_neg hc

/-- An index that has a slice selects what the slice does, and something. -/
theorem exists_normal (hl : length < Nat.pow 2 63) (h : ofKey k.toValue length = .ok s) :
    ∃ ps, k.Picks length ps ∧ ps ≠ [] ∧ s.Normal length ps := by
  obtain ⟨sp, haxis, hcount, rfl, hkey⟩ := ofKey_eq_ok h
  have hspan := span_ofSpan haxis hcount
  have hpicks := picks_of_span hspan
  refine ⟨_, ?_, ?_, hpicks, ?_, hpicks.lt, hpicks.nodup, ?_, ofKey_of_span hspan hl hcount⟩
  · rw [← hkey]
    cases k with
    | position n =>
      refine ⟨?_, rfl⟩
      change ofPosition (.int n) n length = _ at h
      rw [ofPosition] at h
      generalize hp : (if n < 0 then n + (length : Int) else n) = p at h
      split at h
      · cases h
      · split at hp <;> omega
    | range t =>
      change ofKey t.toValue length = _ at h
      rw [ofKey_toValue] at h
      obtain ⟨tp, ht, _⟩ := bind_eq_ok.mp h
      have hchosen : chosen t.toValue length = tp.positions.map Int.toNat := by
        have hvalue : spanOfValue t.toValue length = .ok tp := by rw [spanOfValue_toValue, ht]
        rw [toValue] at hvalue ⊢
        simp only [chosen, hvalue]
      change (Index.range t).Picks length (chosen t.toValue length)
      rw [hchosen]
      exact picks_of_span ht
  · intro hnil
    exact hcount (by rw [← length_positions, hnil]; rfl)
  · rw [positions, hspan]
    rfl
  · rw [lengthOfValue, spanOfValue_toValue, hspan, length_positions]
    exact span_length_eq hspan hl

/-- An index that selects something has a slice that stands for it. -/
theorem exists_ofKey {ps : List Nat} (hl : length < Nat.pow 2 63) (h : k.Picks length ps) (hne : ps ≠ []) :
    ∃ s, ofKey k.toValue length = .ok s := by
  cases k with
  | position n =>
    obtain ⟨hn, _⟩ := h
    change ∃ s, ofPosition (.int n) n length = .ok s
    simp only [ofPosition]
    rw [if_neg (by split <;> omega)]
    exact ⟨_, rfl⟩
  | range s =>
    obtain ⟨sp, hspan⟩ := exists_span h.1 length
    refine ⟨_, ofKey_of_span hspan hl fun hcount => hne ?_⟩
    rw [h.unique (picks_of_span hspan), Span.count_eq_zero_iff.mp hcount]
    rfl

theorem exists_ofKey_iff (hl : length < Nat.pow 2 63) :
    (∃ s, ofKey k.toValue length = .ok s) ↔ ∃ ps, k.Picks length ps ∧ ps ≠ [] := by
  constructor
  · rintro ⟨s, hs⟩
    obtain ⟨ps, hps, hne, _⟩ := exists_normal hl hs
    exact ⟨ps, hps, hne⟩
  · rintro ⟨ps, hps, hne⟩
    exact exists_ofKey hl hps hne

end Slice

end ConicForm
