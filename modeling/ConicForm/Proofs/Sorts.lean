import ConicForm.Proofs.Constants

/-!
# Columns of any sort

A column holds truth values, words or reals. Its rows are moved, joined and added in the sort that the columns have in
common, and in each sort adding zero leaves an entry as it is, whatever it is: here the columns are followed through
these steps as the reals that they are read as in the end.
-/

namespace ConicForm

variable {α β : Type}

theorem Value.isWord_ofBool (b : Bool) : isWord (ofBool b) = true := by cases b <;> rfl

theorem Value.isWord_wrapWord (n : Int) : isWord (wrapWord n) = true := by
  rw [isWord, beq_iff_eq]
  exact Int.bmod_bmod

/-! Columns one after the other -/

theorem Tensor.toList_joinRows [Zero α] {ts : List (Tensor α)} (hne : ts ≠ []) (h : ∀ t ∈ ts, t.dims = [t.length]) :
    ∃ u, joinRows ts = .ok u ∧ u.dims = [total (ts.map length)] ∧ u.toList = ts.flatMap toList := by
  have hlen : ∀ t ∈ ts, t.toList.length = t.length := fun t ht => length_toList (h t ht)
  obtain ⟨u, hu, hd, hget⟩ := joinRows_map (f := id) length [] hne h
  rw [List.map_id] at hu
  refine ⟨u, hu, hd, ext_getD 0 ?_ fun k _ => ?_⟩
  · rw [length_toList hd, length_flatMap_eq hlen]
  · rw [getD_toList hd, hget]
    exact joined_eq_getD hlen (fun t ht k _ => (getD_toList (h t ht) k).symm) k

namespace Numbers

/-- An entry of a column as a real. -/
def realAt [Zero α] [OfDouble α] (a : Numbers α) (i : Nat) : α := a.toReals.asRows.get i 0

/-- An array of truth values. -/
def truths? : Numbers α → Option (Tensor Bool)
  | .truths t => some t
  | _ => none

/-- An array of words, or of truth values as words. -/
def words? : Numbers α → Option (Tensor Int)
  | .truths t => some (wordsOfTruths t)
  | .words t => some t
  | .reals _ => none

/-- Whether the words of an array are words of sixty-four bits. -/
def Stored : Numbers α → Prop
  | .words t => ∀ n ∈ t.toList, Value.isWord n = true
  | _ => True

section sorts

variable [OfDouble α] {a b : Numbers α}

theorem dims_of_truths? {t : Tensor Bool} (h : a.truths? = some t) : t.dims = a.dims ∧
    a.toReals.toList = t.toList.map fun b => ofDouble (Double.nearest (Value.ofBool b)) := by
  cases a with
  | truths s =>
    obtain rfl := Option.some.inj h
    exact ⟨rfl, by simp [toReals, realsOfWords, wordsOfTruths, Tensor.map, Tensor.toList]⟩
  | words s => cases h
  | reals s => cases h

theorem dims_of_words? {t : Tensor Int} (h : a.words? = some t) : t.dims = a.dims ∧
    a.toReals.toList = t.toList.map fun n => ofDouble (Double.nearest n) := by
  cases a with
  | truths s =>
    obtain rfl := Option.some.inj h
    exact ⟨rfl, by simp [toReals, realsOfWords, Tensor.map, Tensor.toList]⟩
  | words s =>
    obtain rfl := Option.some.inj h
    exact ⟨rfl, by simp [toReals, realsOfWords, Tensor.map, Tensor.toList]⟩
  | reals s => cases h

omit [OfDouble α] in
theorem isWord_of_words? {t : Tensor Int} (h : a.words? = some t) (hs : a.Stored) :
    ∀ n ∈ t.toList, Value.isWord n = true := by
  cases a with
  | truths s =>
    obtain rfl := Option.some.inj h
    intro n hn
    have hn : n ∈ s.toList.map Value.ofBool := by simpa [wordsOfTruths, Tensor.map, Tensor.toList] using hn
    obtain ⟨b, _, rfl⟩ := List.mem_map.mp hn
    exact Value.isWord_ofBool b
  | words s =>
    obtain rfl := Option.some.inj h
    exact hs
  | reals s => cases h

end sorts

section joins

variable [Zero α] [OfDouble α]

omit [Zero α] in
/-- Columns of one sort, one after the other, as reals. -/
theorem toList_joinRows [Zero β] {read : Numbers α → Option (Tensor β)} {f : β → α}
    (hread : ∀ a t, read a = some t → t.dims = a.dims ∧ a.toReals.toList = t.toList.map f) {as : List (Numbers α)}
    (hne : as ≠ []) (hd : ∀ a ∈ as, a.dims = [a.length]) {ts : List (Tensor β)} (h : as.mapM read = some ts) :
    ∃ u, Tensor.joinRows ts = .ok u ∧ u.dims = [total (as.map length)] ∧ u.toList = ts.flatMap Tensor.toList ∧
      u.toList.map f = as.flatMap fun a => a.toReals.toList := by
  have hall := forall₂_of_mapM_eq_some h
  have hdims : ∀ t ∈ ts, t.dims = [t.length] := by
    intro t ht
    obtain ⟨a, ha, hat⟩ := exists_left_of_forall₂ hall ht
    have hdt := (hread a t hat).1.trans (hd a ha)
    rw [Tensor.length_of_dims hdt, hdt]
  have hts : ts ≠ [] := by
    rintro rfl
    exact hne (List.length_eq_zero_iff.mp hall.length_eq)
  obtain ⟨u, hu, hud, hul⟩ := Tensor.toList_joinRows hts hdims
  have hparts : ts.map Tensor.length = as.map length ∧
      (ts.flatMap Tensor.toList).map f = as.flatMap fun a => a.toReals.toList := by
    clear h hdims hd hne hts hud hu hul
    induction hall with
    | nil => exact ⟨rfl, rfl⟩
    | @cons a t as ts hat _ ih =>
      obtain ⟨hdt, hlist⟩ := hread a t hat
      have hlen : t.length = a.length := congrArg (List.headD · 1) hdt
      obtain ⟨hlens, hlists⟩ := ih
      rw [List.map_cons, List.map_cons, List.flatMap_cons, List.flatMap_cons, List.map_append, hlen, hlens, hlist,
        hlists]
      exact ⟨rfl, rfl⟩
  exact ⟨u, hu, hparts.1 ▸ hud, hul, hul ▸ hparts.2⟩

/-- Columns of any sorts, one after the other, as reals. -/
theorem joinRows_eq {as : List (Numbers α)} (hne : as ≠ []) (hd : ∀ a ∈ as, a.dims = [a.length]) :
    ∃ g, joinRows as = .ok g ∧ g.dims = [total (as.map length)] ∧
      (g.toReals.toList = as.flatMap fun a => a.toReals.toList) ∧ ((∀ a ∈ as, a.Stored) → g.Stored) := by
  rw [joinRows]
  split
  · next ts hts =>
    have hts : as.mapM truths? = some ts := hts
    obtain ⟨u, hu, hud, _, hul⟩ :=
      @toList_joinRows α Bool _ zeroTruth _ _ (fun _ _ => dims_of_truths?) as hne hd ts hts
    refine ⟨.truths u, by rw [hu]; rfl, hud, ?_, fun _ => trivial⟩
    rw [(dims_of_truths? rfl).2, hul]
  · split
    · next ts hts =>
      have hts : as.mapM words? = some ts := hts
      obtain ⟨u, hu, hud, hlist, hul⟩ :=
        @toList_joinRows α Int _ zeroWord _ _ (fun _ _ => dims_of_words?) as hne hd ts hts
      refine ⟨.words u, by rw [hu]; rfl, hud, by rw [(dims_of_words? rfl).2, hul], fun hs n hn => ?_⟩
      rw [hlist] at hn
      obtain ⟨t, ht, hn⟩ := List.mem_flatMap.mp hn
      obtain ⟨a, ha, hat⟩ := exists_left_of_forall₂ (forall₂_of_mapM_eq_some hts) ht
      exact isWord_of_words? hat (hs a ha) n hn
    · have hdims : ∀ t ∈ as.map toReals, t.dims = [t.length] := by
        intro t ht
        obtain ⟨a, ha, rfl⟩ := List.mem_map.mp ht
        rw [Tensor.length, dims_toReals]
        exact hd a ha
      obtain ⟨u, hu, hud, hul⟩ := Tensor.toList_joinRows (fun h => hne (List.map_eq_nil_iff.mp h)) hdims
      have hlens : (as.map toReals).map Tensor.length = as.map length := by
        rw [List.map_map]
        exact List.map_congr_left fun a _ => congrArg (List.headD · 1) (dims_toReals a)
      refine ⟨.reals u, by rw [hu]; rfl, hlens ▸ hud, ?_, fun _ => trivial⟩
      rw [toReals, hul, List.flatMap_map]

theorem exists_reals_of_joinRows {as : List (Numbers α)} (hne : as ≠ []) (h : ∀ a ∈ as, ∃ t, a = .reals t)
    {g : Numbers α} (hg : joinRows as = .ok g) : ∃ u, g = .reals u := by
  have hreals : as = (as.map toReals).map .reals := by
    rw [List.map_map]
    refine ((List.map_congr_left fun a ha => ?_).trans (List.map_id as)).symm
    obtain ⟨t, rfl⟩ := h a ha
    rfl
  rw [hreals, joinRows_reals fun he => hne (List.map_eq_nil_iff.mp he)] at hg
  cases hu : Tensor.joinRows (as.map toReals) with
  | error e =>
    rw [hu] at hg
    cases hg
  | ok u =>
    rw [hu] at hg
    exact ⟨u, (Except.ok.inj hg).symm⟩

section columns

variable {xs : List β} {f : β → Numbers α}

/-- The entries of columns one after the other. -/
theorem joinRows_columns (size : β → Nat) (hne : xs ≠ []) (hd : ∀ x ∈ xs, (f x).dims = [size x]) :
    ∃ g, joinRows (xs.map f) = .ok g ∧ g.dims = [total (xs.map size)] ∧ ((∀ x ∈ xs, (f x).Stored) → g.Stored) ∧
      ∀ i, g.realAt i = joined (xs.map fun x => (size x, (f x).realAt)) i := by
  have hlength : ∀ x ∈ xs, (f x).length = size x := by
    intro x hx
    rw [length, hd x hx]
    rfl
  have hcolumns : ∀ a ∈ xs.map f, a.dims = [a.length] := by
    intro a ha
    obtain ⟨x, hx, rfl⟩ := List.mem_map.mp ha
    rw [hlength x hx, hd x hx]
  have hsizes : (xs.map f).map length = xs.map size := by
    rw [List.map_map]
    exact List.map_congr_left hlength
  have hreals : ∀ x ∈ xs, (f x).toReals.dims = [size x] := fun x hx => (dims_toReals _).trans (hd x hx)
  obtain ⟨g, hg, hgd, hgl, hgs⟩ := joinRows_eq (fun he => hne (List.map_eq_nil_iff.mp he)) hcolumns
  rw [hsizes] at hgd
  refine ⟨g, hg, hgd, fun hs => hgs (List.forall_mem_map.mpr hs), fun i => ?_⟩
  rw [realAt, ← Tensor.getD_toList ((dims_toReals g).trans hgd), hgl, List.flatMap_map]
  exact (joined_eq_getD (fun x hx => Tensor.length_toList (hreals x hx))
    (fun x hx k _ => (Tensor.getD_toList (hreals x hx) k).symm) i).symm

/-- The entries of real columns one after the other. -/
theorem joinRows_realColumns (size : β → Nat) (hne : xs ≠ []) (h : ∀ x ∈ xs, ∃ t, f x = .reals t ∧ t.dims = [size x]) :
    ∃ u, joinRows (xs.map f) = .ok (.reals u) ∧ u.dims = [total (xs.map size)] ∧
      ∀ i, u.asRows.get i 0 = joined (xs.map fun x => (size x, (f x).realAt)) i := by
  have hd : ∀ x ∈ xs, (f x).dims = [size x] := by
    intro x hx
    obtain ⟨t, ht, hd⟩ := h x hx
    rw [ht]
    exact hd
  obtain ⟨g, hg, hgd, _, hget⟩ := joinRows_columns size hne hd
  obtain ⟨u, rfl⟩ := exists_reals_of_joinRows (fun he => hne (List.map_eq_nil_iff.mp he))
    (List.forall_mem_map.mpr fun x hx => (h x hx).imp fun _ ht => ht.1) hg
  exact ⟨u, hg, hgd, hget⟩

end columns

end joins

/-! Rows moved and added -/

/-- Whether an entry of a column is the zero of the column's sort. -/
def ZeroAt [Zero α] (a : Numbers α) (i : Nat) : Prop :=
  match a with
  | .truths t => @Matrix.get Bool zeroTruth t.asRows i 0 = false
  | .words t => @Matrix.get Int zeroWord t.asRows i 0 = 0
  | .reals t => t.asRows.get i 0 = 0

section entries

variable [Zero α] [OfDouble α] {a b : Numbers α} {r : Nat}

omit [Zero α] [OfDouble α] in
theorem stored_words_iff {t : Tensor Int} (ht : t.dims = [r]) : (words t : Numbers α).Stored ↔
    ∀ i, Value.isWord (@Matrix.get Int zeroWord t.asRows i 0) = true := by
  constructor
  · intro h i
    rw [← @Tensor.getD_toList Int r zeroWord t ht, List.getD_eq_getElem?_getD]
    cases hi : t.toList[i]? with
    | none => rfl
    | some n => exact h n (List.mem_of_getElem? hi)
  · intro h n hn
    obtain ⟨i, hi, rfl⟩ := List.mem_iff_getElem.mp hn
    have hget := h i
    rwa [← @Tensor.getD_toList Int r zeroWord t ht, List.getD_eq_getElem _ _ hi] at hget

omit [OfDouble α] in
theorem zeroAt_iff_of_words? {t : Tensor Int} (h : a.words? = some t) (i : Nat) :
    a.ZeroAt i ↔ @Matrix.get Int zeroWord t.asRows i 0 = 0 := by
  cases a with
  | truths s =>
    obtain rfl := Option.some.inj h
    rw [wordsOfTruths, @Tensor.get_asRows_map Bool Int zeroTruth zeroWord _ rfl, ZeroAt]
    cases @Matrix.get Bool zeroTruth s.asRows i 0 <;> simp [Value.ofBool]
  | words s =>
    obtain rfl := Option.some.inj h
    exact Iff.rfl
  | reals s => cases h

variable (hzero : ofDouble (Double.nearest 0) = (0 : α))

include hzero

theorem realAt_of_words? {t : Tensor Int} (h : a.words? = some t) (i : Nat) :
    a.realAt i = ofDouble (Double.nearest (@Matrix.get Int zeroWord t.asRows i 0)) := by
  have hreals : a.toReals = realsOfWords t := by
    cases a with
    | truths s => exact congrArg realsOfWords (Option.some.inj h)
    | words s => exact congrArg realsOfWords (Option.some.inj h)
    | reals s => cases h
  rw [realAt, hreals]
  exact @Tensor.get_asRows_map Int α zeroWord _ _ hzero t i 0

theorem realAt_truths (t : Tensor Bool) (i : Nat) : (truths t : Numbers α).realAt i =
    ofDouble (Double.nearest (Value.ofBool (@Matrix.get Bool zeroTruth t.asRows i 0))) := by
  rw [realAt_of_words? hzero rfl, wordsOfTruths, @Tensor.get_asRows_map Bool Int zeroTruth zeroWord _ rfl]

theorem ZeroAt.realAt_eq {i : Nat} (h : a.ZeroAt i) : a.realAt i = 0 := by
  cases a with
  | truths t =>
    have h : @Matrix.get Bool zeroTruth t.asRows i 0 = false := h
    rw [realAt_truths hzero, h]
    exact hzero
  | words t =>
    have h : @Matrix.get Int zeroWord t.asRows i 0 = 0 := h
    rw [realAt_of_words? hzero rfl, h]
    exact hzero
  | reals t => exact h

/-- An operation that makes each row of a row of the column, or of zeros. -/
theorem exists_onEach {f : ∀ {β : Type} [Zero β], Tensor β → Result (Tensor β)} {source : Nat → Option Nat} {size : Nat}
    (hf : ∀ {β : Type} [Zero β] (t : Tensor β), t.dims = [r] → ∃ u, f t = .ok u ∧ u.dims = [size] ∧
      ∀ i < size, u.asRows.get i 0 = (source i).elim 0 fun k => t.asRows.get k 0) (hd : a.dims = [r]) :
    ∃ c, a.onEach f = .ok c ∧ c.dims = [size] ∧ (a.Stored → c.Stored) ∧
      ∀ i < size, (∀ k, source i = some k → c.realAt i = a.realAt k) ∧ (source i = none → c.ZeroAt i) := by
  cases a with
  | truths t =>
    obtain ⟨u, hu, hud, hget⟩ := @hf Bool zeroTruth t hd
    refine ⟨.truths u, by rw [onEach, hu]; rfl, hud, fun _ => trivial, fun i hi => ⟨fun k hk => ?_, fun hnone => ?_⟩⟩
    · rw [realAt_truths hzero, realAt_truths hzero, hget i hi, hk]
      rfl
    · exact (hget i hi).trans (by rw [hnone]; rfl)
  | words t =>
    obtain ⟨u, hu, hud, hget⟩ := @hf Int zeroWord t hd
    refine ⟨.words u, by rw [onEach, hu]; rfl, hud, fun hs => (stored_words_iff hud).mpr fun i => ?_,
      fun i hi => ⟨fun k hk => ?_, fun hnone => ?_⟩⟩
    · by_cases hi : i < size
      · rw [hget i hi]
        cases source i with
        | none => rfl
        | some k => exact (stored_words_iff hd).mp hs k
      · rw [@Matrix.get_of_rows_le Int zeroWord _ _ 0 (by rw [Tensor.rows_asRows hud]; omega)]
        rfl
    · rw [realAt_of_words? hzero rfl, realAt_of_words? hzero rfl, hget i hi, hk]
      rfl
    · exact (hget i hi).trans (by rw [hnone]; rfl)
  | reals t =>
    obtain ⟨u, hu, hud, hget⟩ := hf t hd
    refine ⟨.reals u, by rw [onEach, hu]; rfl, hud, fun _ => trivial, fun i hi => ⟨fun k hk => ?_, fun hnone => ?_⟩⟩
    · exact (hget i hi).trans (by rw [hk]; rfl)
    · exact (hget i hi).trans (by rw [hnone]; rfl)

end entries

/-! Sums -/

section sums

variable [AddZeroClass α] [OfDouble α] {a b : Numbers α} {r : Nat}

/-- Where one of the columns `a` and `b` is zero, `c` has the entry of the other one. -/
structure Overlays (c a b : Numbers α) (r : Nat) : Prop where
  dims : c.dims = [r]
  stored : c.Stored
  left : ∀ i < r, b.ZeroAt i → c.realAt i = a.realAt i
  right : ∀ i < r, a.ZeroAt i → c.realAt i = b.realAt i
  zero : ∀ i < r, a.ZeroAt i → b.ZeroAt i → c.ZeroAt i

variable (hzero : ofDouble (Double.nearest 0) = (0 : α))

include hzero

theorem overlays_truths {s t : Tensor Bool} (hs : s.dims = [r]) (h : s.dims = t.dims) :
    Overlays (truths (Tensor.combine or s t h) : Numbers α) (truths s) (truths t) r := by
  have hget : ∀ i < r, @Matrix.get Bool zeroTruth (Tensor.combine or s t h).asRows i 0 =
      or (@Matrix.get Bool zeroTruth s.asRows i 0) (@Matrix.get Bool zeroTruth t.asRows i 0) :=
    fun i hi => @Tensor.get_asRows_combine_of_lt Bool r [] zeroTruth or s t h hs i 0 hi Nat.one_pos
  refine ⟨hs, trivial, fun i hi hz => ?_, fun i hi hz => ?_, fun i hi ha hb => ?_⟩
  · have hz : @Matrix.get Bool zeroTruth t.asRows i 0 = false := hz
    rw [realAt_truths hzero, realAt_truths hzero, hget i hi, hz, Bool.or_false]
  · have hz : @Matrix.get Bool zeroTruth s.asRows i 0 = false := hz
    rw [realAt_truths hzero, realAt_truths hzero, hget i hi, hz, Bool.false_or]
  · have ha : @Matrix.get Bool zeroTruth s.asRows i 0 = false := ha
    have hb : @Matrix.get Bool zeroTruth t.asRows i 0 = false := hb
    exact (hget i hi).trans (by rw [ha, hb]; rfl)

theorem overlays_words {s t : Tensor Int} (ha : a.words? = some s) (hb : b.words? = some t) (hs : s.dims = [r])
    (h : s.dims = t.dims) (has : a.Stored) (hbs : b.Stored) :
    Overlays (words (Tensor.combine (fun m n => Value.wrapWord (m + n)) s t h) : Numbers α) a b r := by
  have hget : ∀ i, @Matrix.get Int zeroWord (Tensor.combine (fun m n => Value.wrapWord (m + n)) s t h).asRows i 0 =
      Value.wrapWord (@Matrix.get Int zeroWord s.asRows i 0 + @Matrix.get Int zeroWord t.asRows i 0) :=
    fun i => @Tensor.get_asRows_combine Int zeroWord _ rfl s t h i 0
  have hd : (Tensor.combine (fun m n => Value.wrapWord (m + n)) s t h).dims = [r] := hs
  have hword : ∀ {c : Numbers α} {u : Tensor Int}, c.words? = some u → c.Stored → u.dims = [r] →
      ∀ i, Value.wrapWord (@Matrix.get Int zeroWord u.asRows i 0) = @Matrix.get Int zeroWord u.asRows i 0 :=
    fun hc hcs hu i => eq_of_beq ((stored_words_iff (α := α) hu).mp (isWord_of_words? hc hcs) i)
  refine ⟨hd, (stored_words_iff hd).mpr fun i => ?_, fun i _ hz => ?_, fun i _ hz => ?_, fun i _ hza hzb => ?_⟩
  · rw [hget]
    exact Value.isWord_wrapWord _
  · rw [realAt_of_words? hzero rfl, realAt_of_words? hzero ha, hget, (zeroAt_iff_of_words? hb i).mp hz, Int.add_zero,
      hword ha has hs]
  · rw [realAt_of_words? hzero rfl, realAt_of_words? hzero hb, hget, (zeroAt_iff_of_words? ha i).mp hz, Int.zero_add,
      hword hb hbs (h ▸ hs)]
  · exact (hget i).trans (by rw [(zeroAt_iff_of_words? ha i).mp hza, (zeroAt_iff_of_words? hb i).mp hzb]; rfl)

theorem overlays_reals (ha : a.dims = [r]) (h : a.toReals.dims = b.toReals.dims) :
    Overlays (reals (Tensor.combine (· + ·) a.toReals b.toReals h)) a b r := by
  have hd : a.toReals.dims = [r] := (dims_toReals a).trans ha
  have hget : ∀ i, (reals (Tensor.combine (· + ·) a.toReals b.toReals h)).realAt i = a.realAt i + b.realAt i :=
    fun i => Tensor.get_asRows_combine _ (add_zero 0) h i 0
  refine ⟨hd, trivial, fun i _ hz => ?_, fun i _ hz => ?_, fun i _ hza hzb => ?_⟩
  · rw [hget, hz.realAt_eq hzero, add_zero]
  · rw [hget, hz.realAt_eq hzero, zero_add]
  · exact (hget i).trans (by rw [hza.realAt_eq hzero, hzb.realAt_eq hzero, add_zero])

omit hzero in
theorem plus_of_words? {s t : Tensor Int} (hs : a.words? = some s) (ht : b.words? = some t)
    (hmixed : a.truths? = none ∨ b.truths? = none) :
    a.plus b = do return .words (← s.zipWith (fun m n => Value.wrapWord (m + n)) t) := by
  cases a <;> cases b <;> cases hs <;> cases ht <;> first | rfl | (rcases hmixed with h | h <;> cases h)

omit hzero in
theorem plus_of_reals (h : a.words? = none ∨ b.words? = none) :
    a.plus b = do return .reals (← a.toReals.zipWith (· + ·) b.toReals) := by
  cases a <;> cases b <;> first | rfl | (rcases h with h | h <;> cases h)

/-- Columns are added in their common sort. -/
theorem exists_plus (ha : a.dims = [r]) (hb : b.dims = [r]) (has : a.Stored) (hbs : b.Stored) :
    ∃ c, a.plus b = .ok c ∧ Overlays c a b r := by
  by_cases hreals : a.words? = none ∨ b.words? = none
  · have h : a.toReals.dims = b.toReals.dims := by rw [dims_toReals, dims_toReals, ha, hb]
    exact ⟨_, by rw [plus_of_reals hreals, Tensor.zipWith_same _ h]; rfl, overlays_reals hzero ha h⟩
  · obtain ⟨s, hs⟩ := Option.ne_none_iff_exists'.mp fun h => hreals (.inl h)
    obtain ⟨t, ht⟩ := Option.ne_none_iff_exists'.mp fun h => hreals (.inr h)
    have hsd : s.dims = [r] := (dims_of_words? hs).1.trans ha
    have h : s.dims = t.dims := hsd.trans ((dims_of_words? ht).1.trans hb).symm
    by_cases hmixed : a.truths? = none ∨ b.truths? = none
    · exact ⟨_, by rw [plus_of_words? hs ht hmixed, Tensor.zipWith_same _ h]; rfl,
        overlays_words hzero hs ht hsd h has hbs⟩
    · cases a with
      | truths u =>
        cases b with
        | truths v =>
          have h : u.dims = v.dims := ha.trans hb.symm
          refine ⟨_, ?_, overlays_truths hzero ha h⟩
          change (do return truths (← @Tensor.zipWith Bool zeroTruth or u v) : Result (Numbers α)) = _
          rw [@Tensor.zipWith_same Bool zeroTruth or u v h]
          rfl
        | words v => exact absurd (.inr rfl) hmixed
        | reals v => exact absurd (.inr rfl) hmixed
      | words u => exact absurd (.inl rfl) hmixed
      | reals u => exact absurd (.inl rfl) hmixed

end sums

end Numbers

end ConicForm
