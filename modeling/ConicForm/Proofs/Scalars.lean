import ConicForm.Proofs.Sorts

/-!
# Scalars of any sort

An entry of a column is a truth value, a word or a real. Two columns are combined entry by entry, each pair of entries
in the sort that they have in common, and the result is read as a real in the end. That an operation is exact on two
scalars says that it might as well have been done on the reals that they are read as. On a real and any scalar it is
exact by itself.
-/

namespace ConicForm

variable {α : Type}

/-- An entry of a column. -/
inductive Scalar (α : Type) where
  | truth (b : Bool)
  | word (n : Int)
  | real (x : α)

namespace Scalar

variable [OfDouble α]

/-- The real that a scalar is read as. -/
def read : Scalar α → α
  | truth b => ofDouble (Double.nearest (Value.ofBool b))
  | word n => ofDouble (Double.nearest n)
  | real x => x

/-- An operation on scalars in the sort that they have in common. -/
def combine (onTruths : Bool → Bool → Bool) (onWords : Int → Int → Int) (onReals : α → α → α) :
    Scalar α → Scalar α → Scalar α
  | truth p, truth q => truth (onTruths p q)
  | truth p, word n => word (onWords (Value.ofBool p) n)
  | word m, truth q => word (onWords m (Value.ofBool q))
  | word m, word n => word (onWords m n)
  | x, y => real (onReals x.read y.read)

def plus [Add α] : Scalar α → Scalar α → Scalar α := combine or (fun m n => Value.wrapWord (m + n)) (· + ·)

def times [Mul α] : Scalar α → Scalar α → Scalar α := combine and (fun m n => Value.wrapWord (m * n)) (· * ·)

/-- Whether two scalars are added as the reals that they are read as. -/
def AddsExactly [Add α] (x y : Scalar α) : Prop := (x.plus y).read = x.read + y.read

/-- Whether two scalars are multiplied as the reals that they are read as. -/
def MultipliesExactly [Mul α] (x y : Scalar α) : Prop := (x.times y).read = x.read * y.read

theorem combine_real_left (onTruths : Bool → Bool → Bool) (onWords : Int → Int → Int) (onReals : α → α → α) (x : α)
    (y : Scalar α) : (real x).combine onTruths onWords onReals y = real (onReals x y.read) := by
  cases y <;> rfl

theorem combine_real_right (onTruths : Bool → Bool → Bool) (onWords : Int → Int → Int) (onReals : α → α → α)
    (x : Scalar α) (y : α) : x.combine onTruths onWords onReals (real y) = real (onReals x.read y) := by
  cases x <;> rfl

theorem addsExactly_real [Add α] (x : Scalar α) (y : α) : x.AddsExactly (real y) ∧ (real y).AddsExactly x := by
  rw [AddsExactly, AddsExactly, plus, combine_real_left, combine_real_right]
  exact ⟨rfl, rfl⟩

theorem multipliesExactly_real [Mul α] (x : Scalar α) (y : α) :
    x.MultipliesExactly (real y) ∧ (real y).MultipliesExactly x := by
  rw [MultipliesExactly, MultipliesExactly, times, combine_real_left, combine_real_right]
  exact ⟨rfl, rfl⟩

end Scalar

namespace Numbers

/-- The entry of a column at a place. -/
def scalarAt [Zero α] (a : Numbers α) (i : Nat) : Scalar α :=
  match a with
  | .truths t => .truth (@Matrix.get Bool zeroTruth t.asRows i 0)
  | .words t => .word (@Matrix.get Int zeroWord t.asRows i 0)
  | .reals t => .real (t.asRows.get i 0)

variable [Zero α] [OfDouble α] {a b : Numbers α} {da : List Nat} {r : Nat} {source : Nat → Nat}

theorem realAt_eq_read (hzero : ofDouble (Double.nearest 0) = (0 : α)) (a : Numbers α) (i : Nat) :
    a.realAt i = (a.scalarAt i).read := by
  cases a with
  | truths t => exact realAt_truths hzero t i
  | words t => exact realAt_of_words? hzero rfl i
  | reals t => rfl

/-- An operation on arrays of dimensions `da` and on columns that takes the entry at place `source i` of the first and
the one at place `i` of the second. -/
def Pairs (da : List Nat) (r : Nat) (source : Nat → Nat) : Prop :=
  ∀ {β : Type} [Zero β] (f : β → β → β) (s t : Tensor β), s.dims = da → t.dims = [r] →
    ∃ u, s.zipWith f t = .ok u ∧ u.dims = [r] ∧
      ∀ i < r, u.asRows.get i 0 = f (s.asRows.get (source i) 0) (t.asRows.get i 0)

theorem pairs_same (r : Nat) : Pairs [r] r id := by
  intro β _ f s t hs ht
  have h : s.dims = t.dims := hs.trans ht.symm
  exact ⟨_, Tensor.zipWith_same f h, hs, fun i hi => Tensor.get_asRows_combine_of_lt f h hs hi Nat.one_pos⟩

theorem pairs_scalar (r : Nat) : Pairs [] r fun _ => 0 := by
  intro β _ f s t hs ht
  have hget : s.asRows.get 0 0 = s.get [] := by simp [Matrix.get, Tensor.asRows, Tensor.get, Tensor.place, hs]
  refine ⟨_, Tensor.zipWith_scalar f hs ht, ht, fun i hi => ?_⟩
  rw [hget]
  exact Tensor.get_asRows_map_of_lt _ ht hi Nat.one_pos

variable (onTruths : Bool → Bool → Bool) (onWords : Int → Int → Int) (onReals : α → α → α)

/-- Columns are combined entry by entry. -/
theorem exists_combine (hzero : ofDouble (Double.nearest 0) = (0 : α)) (hpairs : Pairs da r source) (ha : a.dims = da)
    (hb : b.dims = [r]) (hword : ∀ m n, Value.isWord (onWords m n) = true) :
    ∃ c, combine onTruths onWords onReals a b = .ok c ∧ c.dims = [r] ∧ c.Stored ∧
      ∀ i < r, c.scalarAt i = (a.scalarAt (source i)).combine onTruths onWords onReals (b.scalarAt i) := by
  -- Of two columns without reals the words are combined, unless both hold truth values.
  have hwords : ∀ s t : Tensor Int, s.dims = da → t.dims = [r] → ∃ c : Numbers α,
      (do return .words (← s.zipWith onWords t)) = Except.ok c ∧ c.dims = [r] ∧ c.Stored ∧ ∀ i < r, c.scalarAt i =
        .word (onWords (@Matrix.get Int zeroWord s.asRows (source i) 0) (@Matrix.get Int zeroWord t.asRows i 0)) := by
    intro s t hs ht
    obtain ⟨u, hu, hd, hget⟩ := @hpairs Int zeroWord onWords s t hs ht
    refine ⟨.words u, by rw [hu]; rfl, hd, (stored_words_iff hd).mpr fun i => ?_, fun i hi => ?_⟩
    · by_cases hi : i < r
      · rw [hget i hi]
        exact hword _ _
      · rw [@Matrix.get_of_rows_le Int zeroWord _ _ 0 (by rw [Tensor.rows_asRows hd]; omega)]
        rfl
    · rw [scalarAt, hget i hi]
  have hreals : ∀ a b : Numbers α, a.dims = da → b.dims = [r] → ∃ c : Numbers α,
      (do return .reals (← a.toReals.zipWith onReals b.toReals)) = Except.ok c ∧ c.dims = [r] ∧ c.Stored ∧
        ∀ i < r, c.scalarAt i = .real (onReals (a.scalarAt (source i)).read (b.scalarAt i).read) := by
    intro a b ha hb
    obtain ⟨u, hu, hd, hget⟩ := hpairs onReals a.toReals b.toReals ((dims_toReals a).trans ha)
      ((dims_toReals b).trans hb)
    refine ⟨.reals u, by rw [hu]; rfl, hd, trivial, fun i hi => ?_⟩
    rw [scalarAt, hget i hi, ← realAt_eq_read hzero, ← realAt_eq_read hzero]
    rfl
  have htruths : ∀ (t : Tensor Bool) (i : Nat), @Matrix.get Int zeroWord (wordsOfTruths t).asRows i 0 =
      Value.ofBool (@Matrix.get Bool zeroTruth t.asRows i 0) :=
    fun t i => @Tensor.get_asRows_map Bool Int zeroTruth zeroWord _ rfl t i 0
  cases a with
  | truths s =>
    cases b with
    | truths t =>
      obtain ⟨u, hu, hd, hget⟩ := @hpairs Bool zeroTruth onTruths s t ha hb
      have hcombine : combine onTruths onWords onReals (truths s) (truths t) =
        (do return truths (← @Tensor.zipWith Bool zeroTruth onTruths s t) : Result (Numbers α)) := rfl
      refine ⟨.truths u, by rw [hcombine, hu]; rfl, hd, trivial, fun i hi => ?_⟩
      rw [scalarAt, hget i hi]
      rfl
    | words t =>
      obtain ⟨c, hc, hd, hs, hget⟩ := hwords (wordsOfTruths s) t ha hb
      exact ⟨c, hc, hd, hs, fun i hi => by rw [hget i hi, htruths]; rfl⟩
    | reals t =>
      obtain ⟨c, hc, hd, hs, hget⟩ := hreals _ _ ha hb
      exact ⟨c, hc, hd, hs, hget⟩
  | words s =>
    cases b with
    | truths t =>
      obtain ⟨c, hc, hd, hs, hget⟩ := hwords s (wordsOfTruths t) ha hb
      exact ⟨c, hc, hd, hs, fun i hi => by rw [hget i hi, htruths]; rfl⟩
    | words t => exact hwords s t ha hb
    | reals t => exact hreals _ _ ha hb
  | reals s =>
    obtain ⟨c, hc, hd, hs, hget⟩ := hreals (reals s) b ha hb
    refine ⟨c, by cases b <;> exact hc, hd, hs, fun i hi => (hget i hi).trans ?_⟩
    exact (Scalar.combine_real_left onTruths onWords onReals _ _).symm

end Numbers

end ConicForm
