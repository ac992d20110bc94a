import ConicForm.Proofs.Results
import ConicForm.Slice
import Mathlib.Algebra.Order.Ring.Int

/-!
# The positions that an index selects

An index states positions of an axis by itself, `Slice.chosen`. The slice that stands for it selects the
same positions, which are places of the axis.
-/

namespace ConicForm

namespace Span

/-- The spans that slices have on an axis. -/
structure OnAxis (s : Span) (length : Int) : Prop where
  step_ne_zero : s.step ≠ 0
  forward : 0 < s.step → 0 ≤ s.start ∧ s.stop ≤ length
  backward : s.step < 0 → s.start < length ∧ -1 ≤ s.stop

variable {s : Span} {length : Int}

theorem count_eq_zero_iff : s.count = 0 ↔ s.positions = [] := by
  rw [positions, List.map_eq_nil_iff, List.range_eq_nil]

theorem OnAxis.lt_of_count_ne_zero (h : s.OnAxis length) (hc : s.count ≠ 0) :
    0 < s.step ∧ s.start < s.stop ∨ s.step < 0 ∧ s.stop < s.start := by
  rw [count] at hc
  split at hc
  · next hs =>
    refine .inl ⟨hs, ?_⟩
    by_contra hlt
    exact hc (if_neg hlt)
  · next hs =>
    refine .inr ⟨by have := h.step_ne_zero; omega, ?_⟩
    by_contra hlt
    exact hc (if_neg hlt)

/-- A step is counted if it does not come to the stop. -/
theorem lt_count_iff (h : s.step ≠ 0) {k : Nat} : k < s.count ↔
    if 0 < s.step then s.start + k * s.step < s.stop else s.stop < s.start + k * s.step := by
  have hle : ∀ {d e : Int}, 0 < e → 0 < d → (k < ((d - 1) / e + 1).toNat ↔ k * e < d) := by
    intro d e he hd
    have hq : 0 ≤ (d - 1) / e := Int.ediv_nonneg (by omega) he.le
    have hk : (k : Int) ≤ (d - 1) / e ↔ k * e ≤ d - 1 := Int.le_ediv_iff_mul_le he
    omega
  have hneg : (k : Int) * -s.step = -(k * s.step) := Int.mul_neg _ _
  rw [count]
  split
  · next hs =>
    have hn : 0 ≤ (k : Int) * s.step := Int.mul_nonneg (by omega) (by omega)
    split
    · next hlt =>
      have := hle (d := s.stop - s.start) hs (by omega)
      omega
    · omega
  · next hs =>
    have hn : 0 ≤ (k : Int) * -s.step := Int.mul_nonneg (by omega) (by omega)
    split
    · next hlt =>
      have := hle (d := s.start - s.stop) (e := -s.step) (by omega) (by omega)
      omega
    · omega

/-- The positions are what the steps from the start come to before the stop. -/
theorem mem_positions_iff (h : s.step ≠ 0) {p : Int} : p ∈ s.positions ↔
    (∃ k : Nat, p = s.start + k * s.step) ∧ if 0 < s.step then p < s.stop else s.stop < p := by
  simp only [positions, List.mem_map, List.mem_range, lt_count_iff h]
  constructor
  · rintro ⟨k, hk, rfl⟩
    exact ⟨⟨k, rfl⟩, hk⟩
  · rintro ⟨⟨k, rfl⟩, hk⟩
    exact ⟨k, hk, rfl⟩

/-- The positions are places of the axis. -/
theorem OnAxis.mem_positions (h : s.OnAxis length) {p : Int} (hp : p ∈ s.positions) :
    0 ≤ p ∧ p < length := by
  obtain ⟨⟨k, rfl⟩, hstop⟩ := (mem_positions_iff h.step_ne_zero).mp hp
  by_cases hs : 0 < s.step
  · obtain ⟨h0, hl⟩ := h.forward hs
    have hn : 0 ≤ (k : Int) * s.step := Int.mul_nonneg (by omega) (by omega)
    rw [if_pos hs] at hstop
    omega
  · have hne := h.step_ne_zero
    obtain ⟨hl, h1⟩ := h.backward (by omega)
    have hn : 0 ≤ (k : Int) * -s.step := Int.mul_nonneg (by omega) (by omega)
    have hneg : (k : Int) * -s.step = -((k : Int) * s.step) := Int.mul_neg _ _
    rw [if_neg hs] at hstop
    omega

end Span

namespace Slice

variable {s : Slice} {sp : Span} {length : Int}

theorem bound_mem (value : Option Int) {missing low high : Int} (hm : low ≤ missing ∧ missing ≤ high)
    (hl : low ≤ 0) (hh : length - 1 ≤ high) (hlh : low ≤ high) :
    low ≤ bound value missing low high length ∧ bound value missing low high length ≤ high := by
  unfold bound
  cases value with
  | none => exact hm
  | some n =>
    simp only
    split <;> omega

theorem span_onAxis (h : s.span length = .ok sp) (hl : 0 ≤ length) : sp.OnAxis length := by
  rw [span] at h
  split at h
  · cases h
  · next h0 =>
    split at h
    · next hs =>
      obtain rfl := Except.ok.inj h
      refine ⟨h0, fun hp => absurd hp (by simp only; omega), fun _ => ⟨?_, ?_⟩⟩
      · have hhigh : bound s.start (length - 1) (-1) (length - 1) length ≤ length - 1 :=
          (bound_mem s.start (by omega) (by omega) (by omega) (by omega)).2
        simp only
        omega
      · exact (bound_mem s.stop (by omega) (by omega) (by omega) (by omega)).1
    · next hs =>
      obtain rfl := Except.ok.inj h
      refine ⟨h0, fun _ => ⟨?_, ?_⟩, fun hn => absurd hn (by simp only; omega)⟩
      · exact (bound_mem s.start (by omega) (by omega) (by omega) (by omega)).1
      · exact (bound_mem s.stop (by omega) (by omega) (by omega) (by omega)).2

/-- The slice of a span that selects any position has this span. -/
theorem span_ofSpan (h : sp.OnAxis length) (hc : sp.count ≠ 0) : (ofSpan sp).span length = .ok sp := by
  obtain ⟨start, stop, step⟩ := sp
  have h0 : step ≠ 0 := h.step_ne_zero
  rcases h.lt_of_count_ne_zero hc with ⟨hs, hlt⟩ | ⟨hs, hlt⟩
  · simp only at hs hlt
    obtain ⟨ha, hb⟩ := h.forward hs
    simp only at ha hb
    have h1 : ¬stop < 0 := by omega
    have h2 : ¬start < 0 := by omega
    have h3 : ¬step < 0 := by omega
    have h4 : min start length = start := by omega
    have h5 : min stop length = stop := by omega
    simp only [span, ofSpan, bound, Option.getD_some, if_neg h0, if_neg h1, if_neg h2, if_neg h3, h4, h5]
  · simp only at hs hlt
    obtain ⟨ha, hb⟩ := h.backward hs
    simp only at ha hb
    have h2 : ¬start < 0 := by omega
    have h4 : min start (length - 1) = start := by omega
    by_cases h1 : stop < 0
    · obtain rfl : stop = -1 := by omega
      simp only [span, ofSpan, bound, Option.getD_some, if_neg h0, if_pos h1, if_neg h2, if_pos hs, h4]
    · have h5 : min stop (length - 1) = stop := by omega
      simp only [span, ofSpan, bound, Option.getD_some, if_neg h0, if_neg h1, if_neg h2, if_pos hs, h4, h5]

/-- The positions that an index states on an axis: a single one, counted from the end if negative, or
those of a slice. -/
def chosen (key : Value) (length : Nat) : List Nat :=
  match key with
  | .int n => [(if n < 0 then n + length else n).toNat]
  | .word n => [(if n < 0 then n + length else n).toNat]
  | v =>
    match spanOfValue v length with
    | .ok s => s.positions.map Int.toNat
    | .error _ => []

/-- The slice that stands for an index selects the positions that the index states. -/
structure Selects (s : Slice) (key : Value) (length : Nat) : Prop where
  positions_eq : s.positions length = .ok (chosen key length)
  ne_nil : chosen key length ≠ []
  lt : ∀ p ∈ chosen key length, p < length
  length_eq : ∀ {n : Nat}, (do (← s.span length).length) = .ok n → n = (chosen key length).length

theorem selects_of_span {key : Value} {length : Nat} (hsp : sp.OnAxis length) (hc : sp.count ≠ 0)
    (hs : s.span length = .ok sp) (hkey : chosen key length = sp.positions.map Int.toNat) :
    s.Selects key length := by
  refine ⟨?_, ?_, ?_, ?_⟩
  · rw [positions, hs, hkey]
    rfl
  · rw [hkey]
    exact fun h => hc (Span.count_eq_zero_iff.mpr (List.map_eq_nil_iff.mp h))
  · rw [hkey]
    intro p hp
    obtain ⟨q, hq, rfl⟩ := List.mem_map.mp hp
    have := hsp.mem_positions hq
    omega
  · intro n hn
    rw [hs] at hn
    change sp.length = .ok n at hn
    rw [Span.length] at hn
    split at hn
    · rw [← Except.ok.inj hn, hkey, Span.positions, List.length_map, List.length_map, List.length_range]
    · cases hn

/-- A position that is taken is one of the axis, and the slice is that of a span with this position only. -/
theorem ofPosition_eq_ok {label : Value} {n : Int} {length : Nat} (h : ofPosition label n length = .ok s) :
    ∃ sp : Span, sp.OnAxis length ∧ sp.count ≠ 0 ∧ s = ofSpan sp ∧
      sp.positions.map Int.toNat = [(if n < 0 then n + (length : Int) else n).toNat] := by
  unfold ofPosition at h
  generalize (if n < 0 then n + (length : Int) else n) = p at h
  simp only at h
  split at h
  · cases h
  · next hp =>
    have hcount : (⟨p, p + 1, 1⟩ : Span).count = 1 := by simp [Span.count]
    refine ⟨⟨p, p + 1, 1⟩, ⟨Int.one_ne_zero, fun _ => ⟨?_, ?_⟩, nofun⟩, ?_, ?_, ?_⟩
    · simp only
      omega
    · simp only
      omega
    · rw [hcount]
      exact Nat.one_ne_zero
    · rw [← Except.ok.inj h, ofSpan, if_neg (by simp only; omega)]
    · rw [Span.positions, hcount]
      simp

/-- The slice that stands for an index is that of a span with the positions that the index states. -/
theorem ofKey_eq_ok {key : Value} {length : Nat} (h : ofKey key length = .ok s) :
    ∃ sp : Span, sp.OnAxis length ∧ sp.count ≠ 0 ∧ s = ofSpan sp ∧ chosen key length = sp.positions.map Int.toNat := by
  unfold ofKey at h
  split at h
  · obtain ⟨sp, haxis, hcount, hs, hpos⟩ := ofPosition_eq_ok h
    exact ⟨sp, haxis, hcount, hs, hpos.symm⟩
  · obtain ⟨sp, haxis, hcount, hs, hpos⟩ := ofPosition_eq_ok h
    exact ⟨sp, haxis, hcount, hs, hpos.symm⟩
  · next start stop step =>
    obtain ⟨sp, hsp, h⟩ := bind_eq_ok.mp h
    obtain ⟨n, hn, h⟩ := bind_eq_ok.mp h
    have hspan : ∃ t : Slice, t.span length = .ok sp := by
      rw [spanOfValue] at hsp
      split at hsp
      · cases hsp
      · obtain ⟨t, _, ht⟩ := bind_eq_ok.mp hsp
        exact ⟨t, ht⟩
    obtain ⟨t, ht⟩ := hspan
    have hcount : sp.count ≠ 0 := by
      rw [Span.length] at hn
      split at hn
      · obtain rfl := Except.ok.inj hn
        intro h0
        rw [if_pos h0] at h
        cases h
      · cases hn
    refine ⟨sp, span_onAxis ht (by omega), hcount, ?_, by simp only [chosen, hsp]⟩
    split at h
    · cases h
    · exact (Except.ok.inj h).symm
  · cases h

theorem ofKey_selects {key : Value} {length : Nat} (h : ofKey key length = .ok s) :
    s.Selects key length := by
  obtain ⟨sp, haxis, hcount, rfl, hkey⟩ := ofKey_eq_ok h
  exact selects_of_span haxis hcount (span_ofSpan haxis hcount) hkey

/-! Steps past the words -/

/-- Whether the slice has a step that does not fit into a word. -/
def IsWide (s : Slice) : Prop := Nat.pow 2 63 ≤ (s.step.getD 1).natAbs

theorem Selects.places_eq {key : Value} {length : Nat} (h : s.Selects key length) (hw : ¬s.IsWide) :
    s.places length = .ok (chosen key length) := by
  have hb : (!(chosen key length).isEmpty && decide (Nat.pow 2 63 ≤ (s.step.getD 1).natAbs)) = false := by
    rw [Bool.and_eq_false_iff]
    exact .inr (decide_eq_false hw)
  rw [places, h.positions_eq]
  simp only [hb]
  rfl

theorem Selects.places_of_isWide {key : Value} {length : Nat} (h : s.Selects key length) (hw : s.IsWide) :
    s.places length = .error .wrongType := by
  have hw : Nat.pow 2 63 ≤ (s.step.getD 1).natAbs := hw
  have hb : (!(chosen key length).isEmpty && decide (Nat.pow 2 63 ≤ (s.step.getD 1).natAbs)) = true := by
    rw [Bool.and_eq_true]
    exact ⟨by simpa using h.ne_nil, decide_eq_true hw⟩
  rw [places, h.positions_eq]
  simp only [hb]
  rfl

end Slice

end ConicForm
