import ConicForm.Proofs.Values

/-!
# Sizes of reshaped expressions

An expression is reshaped if the product of the dimensions is its size. Of two integers this is the exact product, so
the node has the size of the expression. The product of two words is wrapped before it is compared, so past the words
the node has another size.
-/

namespace ConicForm

/-! Products of words -/

theorem Value.wrapWord_eq_self {n : Int} (h0 : 0 ≤ n) (h : n < Nat.pow 2 63) : wrapWord n = n := by
  have h63 : ((Nat.pow 2 63 : Nat) : Int) = 9223372036854775808 := rfl
  have h64 : ((Nat.pow 2 64 : Nat) : Int) = 18446744073709551616 := rfl
  apply Int.bmod_eq_of_le <;> omega

theorem Value.wrapWord_lt (n : Int) : wrapWord n < Nat.pow 2 63 := by
  have h63 : ((Nat.pow 2 63 : Nat) : Int) = 9223372036854775808 := rfl
  have hlt : Int.bmod n (Nat.pow 2 64) < ((Nat.pow 2 64 : Nat) + 1) / 2 := Int.bmod_lt (by decide)
  have h64 : ((Nat.pow 2 64 : Nat) : Int) = 18446744073709551616 := rfl
  rw [wrapWord]
  omega

theorem Value.wordTimes_eq {m n : Int} (hm0 : 0 ≤ m) (hm : m < Nat.pow 2 63) (hn0 : 0 ≤ n) (hn : n < Nat.pow 2 63) :
    wordTimes m n = .ok (.word (wrapWord (m * n))) := by
  have hwm : isWord m = true := by rw [isWord, wrapWord_eq_self hm0 hm, beq_self_eq_true]
  have hwn : isWord n = true := by rw [isWord, wrapWord_eq_self hn0 hn, beq_self_eq_true]
  rw [wordTimes, hwm, hwn]
  rfl

namespace Node

variable {α : Type} {ident : Nat} {x : Node α} {rows cols : Int}

/-- Two positive dimensions reshape an expression if their product is its size. -/
theorem reshape_eq {a b v : Value} {product : Value} {k : Int} (hx : x.kind.isForeign = false)
    (ha : a.index? = some rows) (hb : b.index? = some cols) (hr : 0 < rows) (hc : 0 < cols)
    (hv : v ∈ [Value.tuple [a, b], .list [a, b]]) (htimes : a.times b = .ok product)
    (hproduct : product ∈ [Value.int k, .word k]) : reshape ident x v =
      if k = (x.size : Int) then .ok ⟨ident, .reshape, ⟨rows.toNat, cols.toNat⟩, [x], .loose .none⟩
      else .error (.sizeChanges x.shape (.tuple [a, b])) := by
  have hshape := Shape.ofValue_pair ha hb hr hc hv
  have harea : Shape.area v = .ok product := by rcases List.mem_pair.mp hv with rfl | rfl <;> exact htimes
  have htuple : Shape.asTuple v = .ok (.tuple [a, b]) := by rcases List.mem_pair.mp hv with rfl | rfl <;> rfl
  have hequal : product.equal (.int x.size) = .ok (k == (x.size : Int)) := by
    rcases List.mem_pair.mp hproduct with rfl | rfl <;> rfl
  rw [reshape, hshape, harea, width_of_not_foreign hx]
  change (product.equal (.int x.size) >>= _) = _
  rw [hequal, htuple]
  by_cases hk : k = (x.size : Int)
  · rw [if_pos hk, beq_iff_eq.mpr hk]
    change make ident .reshape v [x] (.loose .none) = _
    rw [make, hshape]
    rfl
  · rw [if_neg hk, beq_eq_false_iff_ne.mpr hk]
    rfl

/-- A reshaped expression has the two dimensions as its shape. -/
theorem reshape_eq_ok_iff {a b v : Value} {product : Value} {k : Int} (hx : x.kind.isForeign = false)
    (ha : a.index? = some rows) (hb : b.index? = some cols) (hr : 0 < rows) (hc : 0 < cols)
    (hv : v ∈ [Value.tuple [a, b], .list [a, b]]) (htimes : a.times b = .ok product)
    (hproduct : product ∈ [Value.int k, .word k]) {n : Node α} : reshape ident x v = .ok n ↔
      k = (x.size : Int) ∧ n = ⟨ident, .reshape, ⟨rows.toNat, cols.toNat⟩, [x], .loose .none⟩ := by
  rw [reshape_eq hx ha hb hr hc hv htimes hproduct]
  split
  · next hk => exact ⟨fun h => ⟨hk, (Except.ok.inj h).symm⟩, fun h => congrArg _ h.2.symm⟩
  · next hk => exact ⟨nofun, fun h => absurd h.1 hk⟩

theorem size_of_dimensions {k : Kind} {children : List (Node α)} {data : Payload α} (hr : 0 < rows) (hc : 0 < cols) :
    ((⟨ident, k, ⟨rows.toNat, cols.toNat⟩, children, data⟩ : Node α).size : Int) = rows * cols := by
  change ((rows.toNat * cols.toNat : Nat) : Int) = _
  rw [Int.natCast_mul, Int.toNat_of_nonneg hr.le, Int.toNat_of_nonneg hc.le]

/-- Two positive integers reshape an expression exactly if their product is its size, which the node keeps. Two
positive words reshape it if their wrapped product is its size, and the node keeps the size exactly if the product
is a word itself. -/
theorem reshape_keeps_size (hx : x.kind.isForeign = false) (hr : 0 < rows) (hc : 0 < cols) (ident : Nat) :
    (∀ v ∈ [Value.tuple [.int rows, .int cols], .list [.int rows, .int cols]],
      ((∃ n, reshape ident x v = .ok n) ↔ rows * cols = x.size) ∧
      ∀ n, reshape ident x v = .ok n → n.kind = .reshape ∧ n.children = [x] ∧ n.size = x.size) ∧
    (rows < Nat.pow 2 63 → cols < Nat.pow 2 63 →
      ∀ v ∈ [Value.tuple [.word rows, .word cols], .list [.word rows, .word cols]],
        ((∃ n, reshape ident x v = .ok n) ↔ Value.wrapWord (rows * cols) = x.size) ∧
        ∀ n, reshape ident x v = .ok n → n.kind = .reshape ∧ n.children = [x] ∧
          (n.size : Int) = rows * cols ∧ (n.size = x.size ↔ rows * cols < Nat.pow 2 63)) := by
  constructor
  · intro v hv
    have hok : ∀ n, reshape ident x v = .ok n ↔ _ := fun n =>
      reshape_eq_ok_iff hx rfl rfl hr hc hv rfl List.mem_cons_self
    refine ⟨⟨fun ⟨n, hn⟩ => ((hok n).mp hn).1, fun hk => ⟨_, (hok _).mpr ⟨hk, rfl⟩⟩⟩, fun n hn => ?_⟩
    obtain ⟨hk, rfl⟩ := (hok n).mp hn
    exact ⟨rfl, rfl, Int.ofNat_inj.mp ((size_of_dimensions hr hc).trans hk)⟩
  · intro hrw hcw v hv
    have htimes := Value.wordTimes_eq hr.le hrw hc.le hcw
    have hok : ∀ n, reshape ident x v = .ok n ↔ _ := fun n =>
      reshape_eq_ok_iff hx rfl rfl hr hc hv htimes (List.mem_cons_of_mem _ List.mem_cons_self)
    refine ⟨⟨fun ⟨n, hn⟩ => ((hok n).mp hn).1, fun hk => ⟨_, (hok _).mpr ⟨hk, rfl⟩⟩⟩, fun n hn => ?_⟩
    obtain ⟨hk, rfl⟩ := (hok n).mp hn
    have hsize : ((⟨ident, .reshape, ⟨rows.toNat, cols.toNat⟩, [x], .loose .none⟩ : Node α).size : Int) = rows * cols :=
      size_of_dimensions hr hc
    refine ⟨rfl, rfl, hsize, ?_⟩
    rw [← Int.ofNat_inj, hsize, ← hk]
    -- the wrapped product is a word, and it is the product only if that is one
    constructor
    · exact fun h => lt_of_eq_of_lt h (Value.wrapWord_lt _)
    · exact fun h => (Value.wrapWord_eq_self (Int.mul_pos hr hc).le h).symm

theorem reshape_keeps_size_trio : (∃ n, reshape 1 trio (.tuple [.int 1, .int 3]) = .ok n ∧ n.size = 3) ∧
    ∃ n, reshape 1 trio (.list [.word 1, .word 3]) = .ok n ∧ n.size = 3 := by
  have h := reshape_keeps_size (x := trio) rfl (show (0 : Int) < 1 by decide) (show (0 : Int) < 3 by decide) 1
  obtain ⟨hmade, hsize⟩ := h.1 _ List.mem_cons_self
  obtain ⟨hmade', hsize'⟩ := h.2 (by decide) (by decide) _ (List.mem_cons_of_mem _ List.mem_cons_self)
  obtain ⟨n, hn⟩ := hmade.mpr rfl
  obtain ⟨m, hm⟩ := hmade'.mpr rfl
  exact ⟨⟨n, hn, (hsize n hn).2.2⟩, m, hm, (hsize' m hm).2.2.2.mpr (by decide)⟩

def entry : Node ℚ := ⟨0, .variable, ⟨1, 1⟩, [], .loose (.int 1)⟩

/-- A single entry reshaped by two words whose product is no word. -/
theorem reshape_changes_size : ∃ n, reshape 1 entry (.tuple [.word 7, .word 7905747460161236407]) = .ok n ∧
    entry.size = 1 ∧ n.size = 55340232221128654849 :=
  ⟨⟨1, .reshape, ⟨7, 7905747460161236407⟩, [entry], .loose .none⟩, rfl, rfl, rfl⟩

end Node

end ConicForm
