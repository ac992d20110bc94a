import ConicForm.Block.Rules
import ConicForm.Proofs.Coefficients

/-!
# Blocks under a renaming

A renaming that keeps ids apart keeps labels apart, so look-ups and insertions commute with it, and with them
every operation on blocks and every rule: a rule that is given renamed blocks makes the renamed block, or is
refused as before. Of a node a rule reads the kind, the shape, the data and the shapes of the children.
-/

namespace ConicForm

namespace Keyed

variable {κ β : Type} {g : κ → κ}

/-- The same entries under other keys. -/
def mapKeys (g : κ → κ) (entries : List (κ × β)) : List (κ × β) := entries.map fun e => (g e.1, e.2)

theorem mapM_mapKeys {γ : Type} {F G : κ → β → Result γ} (h : ∀ k v, F (g k) v = G k v) (entries : List (κ × β)) :
    (mapKeys g entries).mapM (fun e => do return (e.1, ← F e.1 e.2)) =
      mapKeys g <$> entries.mapM fun e => do return (e.1, ← G e.1 e.2) := by
  induction entries with
  | nil => rfl
  | cons e rest ih =>
    change ((g e.1, e.2) :: mapKeys g rest).mapM _ = _
    rw [List.mapM_cons, List.mapM_cons, ih]
    simp [mapKeys, h]

variable [BEq κ]

theorem get?_mapKeys (hg : ∀ k l, (g k == g l) = (k == l)) (entries : List (κ × β)) (k : κ) :
    get? (mapKeys g entries) (g k) = get? entries k := by
  induction entries with
  | nil => rfl
  | cons e rest ih =>
    change get? ((g e.1, e.2) :: mapKeys g rest) (g k) = _
    rw [get?_cons, get?_cons, hg, ih]

theorem put_mapKeys (hg : ∀ k l, (g k == g l) = (k == l)) (entries : List (κ × β)) (k : κ) (v : β) :
    put (mapKeys g entries) (g k) v = mapKeys g (put entries k v) := by
  induction entries with
  | nil => rfl
  | cons e rest ih =>
    change put ((g e.1, e.2) :: mapKeys g rest) (g k) v = _
    rw [put, put, hg, ih]
    split <;> rfl

theorem ofPairs_mapKeys (hg : ∀ k l, (g k == g l) = (k == l)) (pairs : List (κ × β)) :
    ofPairs (mapKeys g pairs) = mapKeys g (ofPairs pairs) := by
  have hfold : ∀ entries : List (κ × β),
      (mapKeys g pairs).foldl (fun entries p => put entries p.1 p.2) (mapKeys g entries) =
        mapKeys g (pairs.foldl (fun entries p => put entries p.1 p.2) entries) := by
    induction pairs with
    | nil => exact fun _ => rfl
    | cons p pairs ih =>
      intro entries
      change (mapKeys g pairs).foldl _ (put (mapKeys g entries) (g p.1) p.2) = _
      rw [put_mapKeys hg, ih]
      rfl
  exact hfold []

end Keyed

namespace Label

/-- The label of the variable that a variable is renamed to. -/
def renamed (f : Int → Int) (l : Label) : Label :=
  match l.id? with
  | some id => ofId (f id)
  | none => l

variable {f : Int → Int}

@[simp] theorem renamed_ofId (f : Int → Int) (id : Int) : (ofId id).renamed f = ofId (f id) := rfl

theorem id?_eq_of_beq {l m : Label} (h : l == m) : l.id? = m.id? := by
  rw [id?, id?, beq_iff.mp h]

theorem renamed_beq (hf : Function.Injective f) (l m : Label) : (l.renamed f == m.renamed f) = (l == m) := by
  rw [Bool.eq_iff_iff]
  cases hl : l.id? with
  | some i =>
    have hli := id?_eq_some_iff.mp hl
    cases hm : m.id? with
    | some j =>
      have hmj := id?_eq_some_iff.mp hm
      simp only [renamed, hl, hm, ofId_beq_ofId, hf.eq_iff]
      constructor
      · rintro rfl
        exact BEq.trans hli (BEq.symm hmj)
      · exact fun h => ofId_beq_ofId.mp (BEq.trans (BEq.symm hli) (BEq.trans h hmj))
    | none =>
      simp only [renamed, hl, hm]
      constructor
      · intro h
        cases (id?_eq_of_beq h).trans hm
      · intro h
        cases (hl.symm.trans (id?_eq_of_beq h)).trans hm
  | none =>
    cases hm : m.id? with
    | some j =>
      simp only [renamed, hl, hm]
      constructor
      · intro h
        cases hl.symm.trans (id?_eq_of_beq h)
      · intro h
        cases (hl.symm.trans (id?_eq_of_beq h)).trans hm
    | none => simp only [renamed, hl, hm]

end Label

namespace Block

variable {α : Type} {f : Int → Int}

/-- The block of the renamed variables. -/
def renamed (f : Int → Int) (b : Block α) : Block α := ⟨Keyed.mapKeys (Label.renamed f) b.coeffs, b.offset⟩

theorem coeff?_renamed (hf : Function.Injective f) (b : Block α) (l : Label) :
    (b.renamed f).coeff? (l.renamed f) = b.coeff? l :=
  Keyed.get?_mapKeys (Label.renamed_beq hf) b.coeffs l

/-! Operations on the rows -/

theorem mapCoeffs_renamed (F : Tensor α → Result (Tensor α)) (cs : List (Label × Tensor α)) :
    mapCoeffs F (Keyed.mapKeys (Label.renamed f) cs) = Keyed.mapKeys (Label.renamed f) <$> mapCoeffs F cs :=
  Keyed.mapM_mapKeys (F := fun _ t => F t) (fun _ _ => rfl) cs

/-- What changes all coefficients and the offset commutes with a renaming. -/
theorem mapped_renamed (F : Tensor α → Result (Tensor α)) (offset : Result (Numbers α)) (b : Block α) :
    (do return ⟨← mapCoeffs F (b.renamed f).coeffs, ← offset⟩ : Result (Block α)) =
      renamed f <$> (do return ⟨← mapCoeffs F b.coeffs, ← offset⟩ : Result (Block α)) := by
  rw [renamed, mapCoeffs_renamed]
  simp [renamed]

theorem operand_renamed (bs : List (Block α)) : operand (bs.map (renamed f)) = renamed f <$> operand bs := by
  cases bs <;> rfl

variable [Zero α]

theorem scale_renamed [Mul α] [OfDouble α] (b : Block α) (factor : Numbers α) :
    (b.renamed f).scale factor = renamed f <$> b.scale factor := mapped_renamed _ _ b

theorem apply_renamed [Add α] [Mul α] [OfDouble α] (b : Block α) (m : Tensor α) :
    (b.renamed f).apply m = renamed f <$> b.apply m := by
  rw [apply, apply, renamed, mapCoeffs_renamed]
  simp [renamed]

theorem gather_renamed (b : Block α) (places : List Nat) :
    (b.renamed f).gather places = renamed f <$> b.gather places := mapped_renamed _ _ b

theorem scatter_renamed (b : Block α) (rows : Selector) (size : Nat) :
    (b.renamed f).scatter rows size = renamed f <$> b.scatter rows size := by
  rw [scatter, scatter, map_bind]
  exact bind_congr fun _ => mapped_renamed _ _ b

theorem weigh_renamed [Mul α] [OfDouble α] (b : Block α) (weights : Numbers α) :
    (b.renamed f).weigh weights = renamed f <$> b.weigh weights := mapped_renamed _ _ b

/-! Sums -/

section sums

variable [Add α]

theorem addCoeff_renamed (hf : Function.Injective f) (cs : List (Label × Tensor α)) (e : Label × Tensor α) :
    addCoeff (Keyed.mapKeys (Label.renamed f) cs) (e.1.renamed f, e.2) =
      Keyed.mapKeys (Label.renamed f) <$> addCoeff cs e := by
  have hbeq := Label.renamed_beq hf
  rw [addCoeff, addCoeff]
  simp only [Keyed.get?_mapKeys hbeq]
  cases Keyed.get? cs e.1 with
  | some t => simp [Keyed.put_mapKeys hbeq]
  | none => simp [Keyed.mapKeys]

theorem foldlM_addCoeff_renamed (hf : Function.Injective f) (cs ds : List (Label × Tensor α)) :
    (Keyed.mapKeys (Label.renamed f) ds).foldlM addCoeff (Keyed.mapKeys (Label.renamed f) cs) =
      Keyed.mapKeys (Label.renamed f) <$> ds.foldlM addCoeff cs := by
  induction ds generalizing cs with
  | nil => rfl
  | cons e ds ih =>
    change addCoeff _ (e.1.renamed f, e.2) >>= _ = _
    rw [addCoeff_renamed hf, bind_map_left, List.foldlM_cons, map_bind]
    exact bind_congr fun cs => ih cs

variable [OfDouble α]

theorem add_renamed (hf : Function.Injective f) (left right : Block α) :
    (left.renamed f).add (right.renamed f) = renamed f <$> left.add right := by
  rw [add, add, renamed, renamed, foldlM_addCoeff_renamed hf]
  simp [renamed]

theorem sum_renamed (hf : Function.Injective f) (bs : List (Block α)) :
    sum (bs.map (renamed f)) = renamed f <$> sum bs := by
  cases bs with
  | nil => rfl
  | cons b bs =>
    change (bs.map (renamed f)).foldlM add (b.renamed f) = renamed f <$> bs.foldlM add b
    induction bs generalizing b with
    | nil => rfl
    | cons c bs ih =>
      rw [List.map_cons, List.foldlM_cons, List.foldlM_cons, add_renamed hf, bind_map_left, map_bind]
      exact bind_congr fun d => ih d

end sums

/-! Stacks -/

omit [Zero α] in
theorem widths_renamed (hf : Function.Injective f) (bs : List (Block α)) :
    widths (bs.map (renamed f)) = Keyed.mapKeys (Label.renamed f) <$> widths bs := by
  have hcoeffs : (bs.map (renamed f)).flatMap coeffs = Keyed.mapKeys (Label.renamed f) (bs.flatMap coeffs) := by
    rw [List.flatMap_map, Keyed.mapKeys, List.map_flatMap]
    rfl
  rw [widths, widths, hcoeffs, Keyed.mapM_mapKeys (F := fun _ t => columns t) fun _ _ => rfl]
  simp [Keyed.ofPairs_mapKeys (Label.renamed_beq hf)]

theorem column_renamed (hf : Function.Injective f) (bs : List (Block α)) (l : Label) (width : Nat) :
    column (bs.map (renamed f)) (l.renamed f) width = column bs l width := by
  rw [column, column, List.map_map]
  congr 1
  apply List.map_congr_left
  intro b _
  change ((b.renamed f).coeff? (l.renamed f)).getD (.zeros [b.size, width]) = _
  rw [coeff?_renamed hf]

theorem concat_renamed [OfDouble α] (hf : Function.Injective f) (bs : List (Block α)) :
    concat (bs.map (renamed f)) = renamed f <$> concat bs := by
  have hoffsets : (bs.map (renamed f)).map offset = bs.map offset := by
    rw [List.map_map]
    rfl
  rw [concat, concat, widths_renamed hf, hoffsets, bind_map_left]
  simp only [Keyed.mapM_mapKeys (column_renamed hf bs)]
  simp [renamed]

/-! Rules -/

omit [Zero α] in
theorem operandShape_congr {m n : Node α} (h : m.children.map Node.shape = n.children.map Node.shape) :
    operandShape m = operandShape n := by
  have hhead : ∀ n : Node α, operandShape n =
      match n.children.map Node.shape with
      | s :: _ => .ok s
      | [] => .error .missingPosition := by
    intro n
    rw [operandShape]
    cases n.children <;> rfl
  rw [hhead, hhead, h]

theorem placed_renamed {m n : Node α} (hs : m.shape = n.shape) {xs ys : List (Node α)}
    (h : ys.map Node.shape = xs.map Node.shape) (row : Nat) (bs : List (Block α)) :
    placed m row ys (bs.map (renamed f)) = List.map (renamed f) <$> placed n row xs bs := by
  induction xs generalizing ys row bs with
  | nil =>
    obtain rfl := List.map_eq_nil_iff.mp h
    rfl
  | cons x xs ih =>
    obtain ⟨y, ys, rfl, hy, hys⟩ := List.map_eq_cons_iff.mp h
    cases bs with
    | nil => rfl
    | cons b bs =>
      rw [List.map_cons, placed, placed, Node.size, Node.size, hs, hy, scatter_renamed, ih hys]
      simp

variable [One α] [Add α] [Neg α] [Mul α] [Div α] [OfDouble α]

/-- A rule commutes with a renaming, but that of a variable, which makes the block of the variable itself. -/
theorem rule_renamed (hf : Function.Injective f) {m n : Node α} (hk : m.kind = n.kind) (hkv : n.kind ≠ .variable)
    (hs : m.shape = n.shape) (hd : m.data = n.data) (hc : m.children.map Node.shape = n.children.map Node.shape)
    (bs : List (Block α)) : rule m (bs.map (renamed f)) = renamed f <$> rule n bs := by
  have hshape := operandShape_congr hc
  have hsize : m.size = n.size := congrArg Shape.size hs
  have hplaces : selectedPlaces m = selectedPlaces n := by rw [selectedPlaces, selectedPlaces, hd, hshape]
  have hunsupported : unsupported m = unsupported n := by rw [unsupported, unsupported, hk, hs]
  rw [rule, rule, hk]
  cases hn : n.kind with
  | «variable» => exact absurd hn hkv
  | scalarConst =>
    simp only [hd, hsize, map_bind]
    rfl
  | denseConst =>
    simp only [hd, map_bind]
    rfl
  | param =>
    simp only [hd, map_bind]
    rfl
  | sum => exact sum_renamed hf bs
  | neg => simp only [operand_renamed, bind_map_left, map_bind, scale_renamed]
  | mul =>
    simp only [mulRule, hd, hshape, operand_renamed, bind_map_left, map_bind, scale_renamed, apply_renamed]
    refine bind_congr fun lhs => ?_
    cases lhs.single? <;> simp only [map_bind]
  | rmul =>
    simp only [rmulRule, hd, hshape, operand_renamed, bind_map_left, map_bind, scale_renamed, apply_renamed]
    refine bind_congr fun lhs => ?_
    cases lhs.single? <;> simp only [map_bind]
  | mulElem => simp only [mulElemRule, hd, operand_renamed, bind_map_left, map_bind, weigh_renamed]
  | div => simp only [divRule, hd, operand_renamed, bind_map_left, map_bind, scale_renamed]
  | promote => simp only [promoteRule, hsize, operand_renamed, bind_map_left, map_bind, gather_renamed]
  | index => simp only [indexRule, hplaces, operand_renamed, bind_map_left, map_bind, gather_renamed]
  | transpose => simp only [transposeRule, hshape, operand_renamed, bind_map_left, map_bind, gather_renamed]
  | sumEntries => simp only [sumEntriesRule, hshape, operand_renamed, bind_map_left, map_bind, apply_renamed]
  | trace =>
    simp only [traceRule, hshape, operand_renamed, bind_map_left, map_bind, gather_renamed, apply_renamed]
  | reshape => exact operand_renamed bs
  | noOp => exact operand_renamed bs
  | hstack => exact concat_renamed hf bs
  | vstack => simp only [vstackRule, placed_renamed hs hc, bind_map_left, map_bind, sum_renamed hf]
  | _ => exact congrArg Except.error hunsupported

end Block

end ConicForm
