import Mathlib.SetTheory.Cardinal.Arithmetic
import ConicForm.Proofs.Locality
import ConicForm.Proofs.RenamedLayouts

/-!
# Programs of copies

A copy of a problem under a renaming that keeps the ids apart has the program of the problem, but for the order of the
columns: the right sides and the constant are the same, and so are the columns of a variable and of its copy. The ids
matter through their order only.
-/

namespace ConicForm

variable {α : Type} {f : Int → Int}

/-! Blocks -/

theorem Label.id?_renamed (label : Label) : (label.renamed f).id? = label.id?.map f := by
  rw [renamed]
  cases h : label.id? with
  | some id => exact id?_ofId (f id)
  | none => exact h

namespace Block

variable {b : Block α}

theorem mem_ids_renamed (hf : Function.Injective f) {id : Int} :
    f id ∈ ids (b.renamed f).coeffs ↔ id ∈ ids b.coeffs := by
  have hids : ids (b.renamed f).coeffs = (ids b.coeffs).map f := by
    rw [ids, ids, List.map_filterMap]
    exact List.filterMap_map.trans (List.filterMap_congr fun e _ => e.1.id?_renamed)
  rw [hids, List.mem_map_of_injective hf]

theorem entry_renamed [Zero α] (hf : Function.Injective f) (id : Int) (i j : Nat) :
    Coefficients.entry (b.renamed f).coeffs (f id) i j = Coefficients.entry b.coeffs id i j := by
  rw [Coefficients.entry, Coefficients.entry, ← Label.renamed_ofId]
  exact congrArg (Option.elim · 0 fun t => t.asRows.get i j)
    (Keyed.get?_mapKeys (Label.renamed_beq hf) b.coeffs (Label.ofId id))

end Block

theorem Numbers.IsColumn.ext [Zero α] [OfDouble α] {a b : Numbers α} {rows : Nat} (ha : a.IsColumn rows)
    (hb : b.IsColumn rows) (h : ∀ k < rows, a.toReals.asRows.get k 0 = b.toReals.asRows.get k 0) : a = b := by
  obtain ⟨t, rfl, ht⟩ := ha
  obtain ⟨u, rfl, hu⟩ := hb
  have hrows : t.asRows = u.asRows := by
    refine Matrix.ext_get ((Tensor.rows_asRows ht).trans (Tensor.rows_asRows hu).symm)
      ((Tensor.cols_asRows ht).trans (Tensor.cols_asRows hu).symm) fun i j hi hj => ?_
    rw [Tensor.cols_asRows ht] at hj
    obtain rfl : j = 0 := Nat.lt_one_iff.mp hj
    exact h i (Tensor.rows_asRows ht ▸ hi)
  obtain ⟨dims, entries, _⟩ := t
  obtain ⟨dims', entries', _⟩ := u
  obtain rfl : dims = dims' := ht.trans hu.symm
  obtain rfl : entries = entries' := congrArg Matrix.entries hrows
  rfl

namespace Program

variable [Zero α] [One α] [Add α] [Neg α] [Mul α] [Div α] [OfDouble α] [BEq α] {l l' : Layout α}
  {objective objective' n n' : Node α} {constraints constraints' : List (Node α)} {ms ms' : List (Cone × Node α)}
  {vs vs' : List Variable} {sense : Sense} {p p' : Program α}

/-- Rows that state an expression and a copy of it have the same right sides, and the same entries in the columns of a
variable and of its copy. -/
theorem States.of_copy (hf : Function.Injective f) {first : Nat} {c : Cone} (h : p.States l first c n)
    (h' : p'.States l' first c n') (hl : l.IsOf objective constraints ms) (hl' : l'.IsOf objective' constraints' ms')
    (hn : Node.IsPart objective constraints n) (hn' : Node.IsPart objective' constraints' n') (hc : n.IsCopy f n')
    {k : Nat} (hk : k < n.size) :
    p'.b.toReals.asRows.get (first + k) 0 = p.b.toReals.asRows.get (first + k) 0 ∧
      ∀ id start start' s, l.Holds id start s → l'.Holds (f id) start' s → ∀ j < s.size,
        p'.A.get (first + k) (start' + j) = p.A.get (first + k) (start + j) := by
  have hk' : k < n'.size := hc.size_eq.symm ▸ hk
  obtain ⟨b, G, hb, _, _, hrow⟩ := h.exists_spread hl hn
  obtain ⟨b', G', hb', _, _, hrow'⟩ := h'.exists_spread hl' hn'
  have hblock := hc.block_eq hf hn.1
  rw [hb] at hblock
  obtain rfl : b' = b.renamed f := Except.ok.inj (hb'.symm.trans hblock)
  constructor
  · have hright := congrArg Prod.snd (hrow k hk)
    have hright' := congrArg Prod.snd (hrow' k hk')
    have hsame : (c.stated (G'.row k) ((b.renamed f).constant k)).2 = (c.stated (G.row k) (b.constant k)).2 := by
      cases c <;> rfl
    exact hright'.trans (hsame.trans hright.symm)
  · intro id start start' s hh hh' j hj
    rw [h.get_eq hl hn hb hh hk hj, h'.get_eq hl' hn' hb' hh' hk' hj, Block.entry_renamed hf]
    exact congrArg c.turned (if_congr (Block.mem_ids_renamed hf) rfl rfl)

end Program

namespace Accepted

variable [Zero α] [One α] [Add α] [Neg α] [Mul α] [Div α] [OfDouble α] [BEq α] {l l' : Layout α}
  {objective objective' : Node α} {constraints constraints' : List (Node α)} {vs vs' : List Variable} {sense : Sense}
  {p p' : Program α}

/-- The direction of a program, in the columns of the variables. -/
theorem direction_get (h : Accepted sense objective constraints l p) : ∃ b, objective.block = .ok b ∧
    p.d = .reals (.scalar (sense.signed (b.constant 0))) ∧
    ∀ id start s, l.Holds id start s → ∀ j < s.size, p.c.getD (start + j) 0 =
      sense.signed (if id ∈ ids b.coeffs then 0 + Coefficients.entry b.coeffs id 0 j else 0) := by
  obtain ⟨ms, hl⟩ := h.exists_isOf
  obtain ⟨cost, rows, hp⟩ := h.exists_madeOf
  have hroot := Node.isPart_objective h.built
  have hone : 0 < objective.size := by
    rw [Node.size, hp.scalar]
    exact Nat.one_pos
  have hcost := Program.objective_hasSize hl h.built hp.scalar hp.cost_eq
  obtain ⟨hc, hd⟩ := Prod.mk.inj (Except.ok.inj (hp.direction_eq.symm.trans (Program.direction_row sense hcost)))
  obtain ⟨b, G, hblock, hspread, hrow⟩ := Program.plainRows_single hl hroot hp.cost_eq
  obtain ⟨hrow, hconstant⟩ := hrow 0 hone
  refine ⟨b, hblock, ?_, fun id start s hh j hj => ?_⟩
  · rw [hd, hconstant]
  · obtain ⟨vs, hvs⟩ := h.orders
    have hwidth := hvs.le_width hh
    have hget : cost.G.get 0 (start + j) = G.get 0 (start + j) := by rw [← Matrix.getD_row, hrow, Matrix.getD_row]
    rw [hc, Matrix.getD_map_row _ _ _ (by rw [hcost.cols_eq]; omega), hget,
      hroot.get_spread hl hblock hspread hh hone hj]

variable (hf : Function.Injective f) (hr : l.RenamedBy f l' vs vs') (h : Accepted sense objective constraints l p)
  (h' : Accepted sense objective' constraints' l' p')
include hf h h'

include hr in
/-- The rows of a problem and of a copy have the same right sides, and the same entries in the columns of a variable
and of its copy. -/
theorem row_of_copies (hc : List.Forall₂ (Node.IsCopy f) constraints constraints') {k : Nat} (hk : k < l.height) :
    p'.b.toReals.asRows.get k 0 = p.b.toReals.asRows.get k 0 ∧
      ∀ id start start' s, l.Holds id start s → l'.Holds (f id) start' s → ∀ j < s.size,
        p'.A.get k (start' + j) = p.A.get k (start + j) := by
  obtain ⟨ms, hl⟩ := h.exists_isOf
  obtain ⟨ms', hl'⟩ := h'.exists_isOf
  have hparts := Layout.parts_of_ofProblem h.laidOut
  obtain ⟨r, hrmem, hrk⟩ := (hparts.exists_mem_iff k).mpr ⟨Int.natCast_nonneg k, Int.ofNat_lt.mpr hk⟩
  obtain ⟨i, hir, rfl⟩ := List.getElem_of_mem hrmem
  have hi : i < constraints.length := hparts.isFor.length_eq ▸ hir
  have hi' : i < constraints'.length := hc.length_eq ▸ hi
  obtain ⟨m, first, hasks, hpart, hrange, hle, hstates⟩ := h.states_at hi
  obtain ⟨m', first', hasks', hpart', hrange', _, hstates'⟩ := h'.states_at hi'
  obtain ⟨hcone, hcopy⟩ := (hc.get hi hi').asks hasks hasks'
  rw [hr.ranges_eq, hrange] at hrange'
  obtain rfl : first = first' := Int.ofNat.inj (congrArg RowRange.first (Option.some.inj hrange'))
  rw [List.getElem?_eq_getElem hir] at hrange
  rw [Option.some.inj hrange] at hrk
  simp only at hrk
  obtain ⟨d, rfl⟩ : ∃ d, k = first + d := ⟨k - first, by omega⟩
  exact hstates.of_copy hf (hcone ▸ hstates') hl hl' hpart hpart' hcopy (by omega)

/-- The directions of a problem and of a copy have the same constant, and the same entries in the columns of a variable
and of its copy. -/
theorem direction_of_copies (ho : objective.IsCopy f objective') :
    p'.d = p.d ∧ ∀ id start start' s, l.Holds id start s → l'.Holds (f id) start' s → ∀ j < s.size,
      p'.c.getD (start' + j) 0 = p.c.getD (start + j) 0 := by
  obtain ⟨b, hblock, hd, hget⟩ := h.direction_get
  obtain ⟨b', hblock', hd', hget'⟩ := h'.direction_get
  have hcopy := ho.block_eq hf (h.built objective List.mem_cons_self)
  rw [hblock] at hcopy
  obtain rfl : b' = b.renamed f := Except.ok.inj (hblock'.symm.trans hcopy)
  refine ⟨hd'.trans hd.symm, fun id start start' s hh hh' j hj => ?_⟩
  rw [hget _ _ _ hh j hj, hget' _ _ _ hh' j hj, Block.entry_renamed hf]
  exact congrArg sense.signed (if_congr (Block.mem_ids_renamed hf) rfl rfl)

end Accepted

/-! Problems -/

/-- A renaming that keeps finitely many ids apart agrees on them with one that keeps all ids apart. -/
theorem exists_injective_extension {s : Set Int} (hs : s.Finite) (hf : Set.InjOn f s) :
    ∃ g, Function.Injective g ∧ ∀ id ∈ s, f id = g id := by
  have hlt : Cardinal.mk s < Cardinal.mk Int := by
    rw [Cardinal.mk_int]
    exact hs.lt_aleph0
  obtain ⟨g, hg⟩ := Cardinal.extend_function_of_lt ⟨s.domRestrict f, Set.injOn_iff_injective.mp hf⟩ hlt ⟨Equiv.refl Int⟩
  exact ⟨g, g.injective, fun id hid => (hg ⟨id, hid⟩).symm⟩

theorem getD_ofFn [Zero α] {n k : Nat} (z : Fin n → α) (hk : k < n) : (List.ofFn z).getD k 0 = z ⟨k, hk⟩ := by
  rw [List.getD_eq_getElem?_getD, List.getElem?_ofFn, dif_pos hk, Option.getD_some]

namespace Program

variable {l l' : Layout α} {p p' : Program α} {vs vs' : List Variable}

/-- Whether the columns of each variable are those of its copy. -/
def MovedBy [Zero α] (f : Int → Int) (l l' : Layout α) (p p' : Program α) : Prop :=
  ∀ id start start' s, l.Holds id start s → l'.Holds (f id) start' s → ∀ j < s.size,
    p'.c.getD (start' + j) 0 = p.c.getD (start + j) 0 ∧ ∀ k, p'.A.get k (start' + j) = p.A.get k (start + j)

/-- Under a renaming that keeps the order of the ids the columns stay where they are. -/
theorem MovedBy.eq_of_mono [Zero α] [OfDouble α] (h : MovedBy f l l' p p') (hr : l.RenamedBy f l' vs vs')
    (hp : p.Fits l) (hp' : p'.Fits l') (hf : StrictMonoOn f {id | id ∈ vs.map Variable.id}) :
    p'.c = p.c ∧ p'.A = p.A := by
  have hcolumn : ∀ a < l.width, p'.c.getD a 0 = p.c.getD a 0 ∧ ∀ k, p'.A.get k a = p.A.get k a := by
    intro a ha
    obtain ⟨id, start, s, hh, j, hj, rfl⟩ := hr.orders.exists_start ha
    exact h id start start s hh (hr.holds_of_mono hf hh) j hj
  have hlen : p'.c.length = p.c.length := by rw [hp'.length_c, hp.length_c, hr.width_eq]
  have hrows : p'.A.rows = p.A.rows := by rw [hp'.rows_eq, hp.rows_eq, hr.height_eq]
  have hcols : p'.A.cols = p.A.cols := by rw [hp'.cols_eq, hp.cols_eq, hr.width_eq]
  constructor
  · refine ext_getD 0 hlen fun a ha => (hcolumn a ?_).1
    rwa [hlen, hp.length_c] at ha
  · refine Matrix.ext_get hrows hcols fun k a _ ha => (hcolumn a ?_).2 k
    rwa [hcols, hp.cols_eq] at ha

end Program

/-- A copy of a problem under a renaming that keeps all ids apart is accepted. -/
theorem Accepted.exists_of_copies [Zero α] [One α] [Add α] [Neg α] [Mul α] [Div α] [OfDouble α] [BEq α]
    {objective objective' : Node α} {constraints constraints' : List (Node α)} {l : Layout α} {sense : Sense}
    {p : Program α} (h : Accepted sense objective constraints l p) (hf : Function.Injective f)
    (ho : objective.IsCopy f objective') (hc : List.Forall₂ (Node.IsCopy f) constraints constraints')
    (ht' : ToldApart (objective' :: constraints')) :
    ∃ l' p' vs vs', Accepted sense objective' constraints' l' p' ∧ l.RenamedBy f l' vs vs' ∧ p'.b = p.b ∧ p'.d = p.d ∧
      Program.MovedBy f l l' p p' := by
  obtain ⟨ms, hl⟩ := h.exists_isOf
  obtain ⟨_, _, hmade⟩ := h.exists_madeOf
  have hb' : ∀ n ∈ objective' :: constraints', n.Built := by
    intro n' hn'
    obtain ⟨n, hn, hcopy⟩ := exists_left_of_forall₂ (List.Forall₂.cons ho hc) hn'
    exact (h.built n hn).copy hcopy
  obtain ⟨l', vs, vs', hlaidOut, hr, hmembers⟩ := Layout.exists_of_copies hf h.laidOut ho hc
  obtain ⟨ms', hl'⟩ := Layout.ofProblem_eq_ok hb' hlaidOut
  -- The copies of the expressions have blocks, since these have.
  obtain ⟨⟨b, hobjective⟩, hblocks⟩ := h.exists_block
  have hobjective' : ∃ b, objective'.block = .ok b := by
    rw [ho.block_eq hf (h.built objective List.mem_cons_self), hobjective]
    exact ⟨_, rfl⟩
  have hblocks' : ∀ c, ∀ n ∈ l'.members.get c, ∃ b, n.block = .ok b := by
    intro c n' hn'
    obtain ⟨n, hn, hcopy⟩ := exists_left_of_forall₂ (hmembers c) hn'
    obtain ⟨b, hblock⟩ := hblocks c n hn
    rw [hcopy.block_eq hf (hl.isPart h.built hn).1, hblock]
    exact ⟨_, rfl⟩
  have htriples : ∀ n ∈ l'.members.get .exp, n.shape.rows = 3 := by
    intro n' hn'
    obtain ⟨n, hn, hcopy⟩ := exists_left_of_forall₂ (hmembers .exp) hn'
    rw [hcopy.shape_eq]
    exact hmade.triples n hn
  obtain ⟨p', hp'⟩ :=
    Program.exists_assemble sense hl' hb' ht' (ho.shape_eq.trans hmade.scalar) hobjective' hblocks' htriples
  have h' : Accepted sense objective' constraints' l' p' := ⟨hb', ht', hlaidOut, hp'⟩
  have hrow := fun {k} => h.row_of_copies hf hr h' hc (k := k)
  obtain ⟨hd, hdirection⟩ := h.direction_of_copies hf h' ho
  refine ⟨l', p', vs, vs', h', hr, ?_, hd, fun id start start' s hh hh' j hj => ⟨?_, fun k => ?_⟩⟩
  · have hcolumn := h'.fits.column
    rw [hr.height_eq] at hcolumn
    exact hcolumn.ext h.fits.column fun k hk => (hrow hk).1
  · exact hdirection id start start' s hh hh' j hj
  · by_cases hk : k < l.height
    · exact (hrow hk).2 id start start' s hh hh' j hj
    · rw [Matrix.get_of_rows_le _ _ (by rw [h'.fits.rows_eq, hr.height_eq]; omega),
        Matrix.get_of_rows_le _ _ (by rw [h.fits.rows_eq]; omega)]

/-- A copy of a problem under a renaming that keeps its ids apart is accepted, with the same rows, right sides and
constant, and the columns of each variable are those of its copy. If the renaming keeps the order of the ids nothing
is changed; otherwise the columns are permuted, and a point that is permuted along has the same values under the new
ids. -/
theorem program_of_renamed [Zero α] [One α] [Add α] [Neg α] [Mul α] [Div α] [OfDouble α] [BEq α]
    {objective objective' : Node α} {constraints constraints' : List (Node α)} {l : Layout α} {sense : Sense}
    {p : Program α} {f : Int → Int} (h : Accepted sense objective constraints l p)
    (hf : Set.InjOn f {id | ∃ n ∈ objective :: constraints, ∃ s, n.Leaf id s}) (ho : objective.IsCopy f objective')
    (hc : List.Forall₂ (Node.IsCopy f) constraints constraints') (ht' : ToldApart (objective' :: constraints')) :
    ∃ l' p', Layout.ofProblem objective' constraints' = .ok l' ∧ Program.assemble sense objective' l' = .ok p' ∧
      l'.width = l.width ∧ l'.dims = l.dims ∧ l'.ranges = l.ranges ∧ p'.b = p.b ∧ p'.d = p.d ∧ p'.dims = p.dims ∧
      (∀ id start s, l.Holds id start s → ∃ start', l'.Holds (f id) start' s ∧ ∀ j < s.size,
        p'.c.getD (start' + j) 0 = p.c.getD (start + j) 0 ∧
          ∀ k, p'.A.get k (start' + j) = p.A.get k (start + j)) ∧
      (StrictMonoOn f {id | ∃ n ∈ objective :: constraints, ∃ s, n.Leaf id s} → p'.c = p.c ∧ p'.A = p.A) ∧
      ∃ τ : Equiv.Perm (Fin l.width),
        (∀ a : Fin l.width, p'.c.getD a 0 = p.c.getD (τ a) 0 ∧ ∀ k, p'.A.get k a = p.A.get k (τ a)) ∧
        ∀ y : Fin l.width → α, ∃ values values', l.unpack (List.ofFn y) = .ok values ∧
          l'.unpack (List.ofFn fun a => y (τ a)) = .ok values' ∧
          values'.Perm (values.map fun e => (f e.1, e.2)) := by
  -- The renaming agrees on the ids that occur with one that keeps all ids apart.
  obtain ⟨ws, hws⟩ := h.orders
  have hfinite : {id | ∃ n ∈ objective :: constraints, ∃ s, n.Leaf id s}.Finite := by
    refine (List.finite_toSet (ws.map Variable.id)).subset fun id hid => ?_
    exact (Layout.mem_ids_iff h.built h.laidOut hws id).mpr hid
  obtain ⟨g, hg, hfg⟩ := exists_injective_extension hfinite hf
  have hcopy : ∀ n ∈ objective :: constraints, ∀ m, n.IsCopy f m → n.IsCopy g m :=
    fun n hn m hm => hm.congr fun id s hs => hfg id ⟨n, hn, s, hs⟩
  obtain ⟨l', p', vs, vs', h', hr, hright, hd, hmoved⟩ := h.exists_of_copies hg
    (hcopy objective List.mem_cons_self objective' ho)
    (forall₂_of_mem hc fun n hn => hcopy n (List.mem_cons_of_mem objective hn)) ht'
  have hids := Layout.mem_ids_iff h.built h.laidOut hr.orders
  have hr := hr.congr fun id hid => (hfg id ((hids id).mp hid)).symm
  have hmoved : Program.MovedBy f l l' p p' := by
    intro id start start' s hh hh'
    rw [hfg id ((hids id).mp (hr.orders.mem_ids hh))] at hh'
    exact hmoved id start start' s hh hh'
  have hset : {id | id ∈ vs.map Variable.id} = {id | ∃ n ∈ objective :: constraints, ∃ s, n.Leaf id s} :=
    Set.ext hids
  rw [← hset] at hf ⊢
  obtain ⟨τ, hτ⟩ := hr.exists_perm hf
  refine ⟨l', p', h'.laidOut, h'.assembled, hr.width_eq, hr.dims_eq, hr.ranges_eq, hright, hd, ?_,
    fun id start s hh => ?_, hmoved.eq_of_mono hr h.fits h'.fits, τ, fun a => ?_, fun y => ?_⟩
  · rw [h'.fits.dims_eq, h.fits.dims_eq, hr.coneDims_eq]
  · obtain ⟨start', hh'⟩ := hr.exists_holds hh
    exact ⟨start', hh', hmoved id start start' s hh hh'⟩
  · have hlt : (a : Nat) < l'.width := lt_of_lt_of_eq a.isLt hr.width_eq.symm
    obtain ⟨k, start', s, hh', j, hj, ha⟩ := hr.orders'.exists_start hlt
    obtain ⟨id, start, hh, rfl⟩ := hr.exists_of_holds hh'
    rw [hτ id start start' s hh hh' j hj a ha, ha]
    exact hmoved id start start' s hh hh' j hj
  · refine hr.unpack_perm List.length_ofFn (List.length_ofFn.trans hr.width_eq.symm)
      fun id start start' s hh hh' j hj => ?_
    have hle := hr.orders.le_width hh
    have hle' := hr.orders'.le_width hh'
    rw [hr.width_eq] at hle'
    rw [getD_ofFn _ (by omega), getD_ofFn _ (by omega)]
    exact congrArg y (Fin.ext (hτ id start start' s hh hh' j hj _ rfl))

namespace Sample

/-- The level and the pair with each other's id. -/
def levelCopy : Node ℚ := ⟨0, .variable, ⟨1, 1⟩, [], .loose (.int 3)⟩

def pairCopy : Node ℚ := ⟨1, .variable, ⟨2, 1⟩, [], .loose (.int 7)⟩

def columnCopy : Node ℚ := ⟨2, .vstack, ⟨3, 1⟩, [levelCopy, pairCopy], .loose .none⟩

def costCopy : Node ℚ := ⟨3, .neg, ⟨1, 1⟩, [levelCopy], .loose .none⟩

def constraintCopies : List (Node ℚ) :=
  [⟨4, .leq, ⟨2, 1⟩, [pairCopy], .loose .none⟩, ⟨5, .soc, ⟨3, 1⟩, [columnCopy], .loose .none⟩,
    ⟨6, .exp, ⟨3, 1⟩, [columnCopy], .loose .none⟩, ⟨7, .eq, ⟨1, 1⟩, [levelCopy], .loose .none⟩]

/-- A renaming that turns the order of the ids around. -/
def turned (id : Int) : Int := 10 - id

theorem toldApart_copies : ToldApart (costCopy :: constraintCopies) := by
  have hnodes : (costCopy :: constraintCopies).flatMap Node.nodes = [costCopy, levelCopy,
    ⟨4, .leq, ⟨2, 1⟩, [pairCopy], .loose .none⟩, pairCopy, ⟨5, .soc, ⟨3, 1⟩, [columnCopy], .loose .none⟩, columnCopy,
    levelCopy, pairCopy, ⟨6, .exp, ⟨3, 1⟩, [columnCopy], .loose .none⟩, columnCopy, levelCopy, pairCopy,
    ⟨7, .eq, ⟨1, 1⟩, [levelCopy], .loose .none⟩, levelCopy] := rfl
  rw [ToldApart, hnodes]
  simp [costCopy, columnCopy, levelCopy, pairCopy]

theorem isCopy_level : level.IsCopy turned levelCopy := Node.isCopy_iff.mpr ⟨rfl, rfl, rfl, .nil⟩

theorem isCopy_cost : cost.IsCopy turned costCopy := Node.isCopy_iff.mpr ⟨rfl, rfl, rfl, .cons isCopy_level .nil⟩

theorem areCopies_constraints : List.Forall₂ (Node.IsCopy turned) constraints constraintCopies := by
  have hpair : pair.IsCopy turned pairCopy := Node.isCopy_iff.mpr ⟨rfl, rfl, rfl, .nil⟩
  have hcolumn : column.IsCopy turned columnCopy :=
    Node.isCopy_iff.mpr ⟨rfl, rfl, rfl, .cons isCopy_level (.cons hpair .nil)⟩
  have hconstraint : ∀ {ident : Nat} {kind : Kind} {x y : Node ℚ}, kind ≠ .variable → x.IsCopy turned y →
      (⟨ident, kind, x.shape, [x], .loose .none⟩ : Node ℚ).IsCopy turned ⟨ident, kind, x.shape, [y], .loose .none⟩ :=
    fun hk hxy => Node.isCopy_iff.mpr ⟨rfl, rfl, (if_neg hk).symm, .cons hxy .nil⟩
  exact .cons (hconstraint (by decide) hpair) (.cons (hconstraint (by decide) hcolumn)
    (.cons (hconstraint (by decide) hcolumn) (.cons (hconstraint (by decide) isCopy_level) .nil)))

end Sample

theorem program_of_renamed_turned : ∃ p l' p', Program.assemble .maximize Sample.cost Sample.layout = .ok p ∧
    Layout.ofProblem Sample.costCopy Sample.constraintCopies = .ok l' ∧
    Program.assemble .maximize Sample.costCopy l' = .ok p' ∧ l'.ranges = Sample.layout.ranges ∧ p'.b = p.b ∧
    ∃ start', l'.Holds 3 start' ⟨1, 1⟩ ∧ p'.c.getD (start' + 0) 0 = p.c.getD (2 + 0) 0 := by
  obtain ⟨p, h⟩ := Sample.exists_accepted
  have hf : Set.InjOn Sample.turned {id | ∃ n ∈ Sample.cost :: Sample.constraints, ∃ s, n.Leaf id s} :=
    fun a _ b _ hab => sub_right_injective hab
  obtain ⟨l', p', h', hp', _, _, hranges, hright, _, _, hcolumns, _⟩ := program_of_renamed h hf
    Sample.isCopy_cost Sample.areCopies_constraints Sample.toldApart_copies
  obtain ⟨start', hh, hget⟩ := hcolumns 7 2 ⟨1, 1⟩ ⟨by decide, by decide⟩
  exact ⟨p, l', p', h.assembled, h', hp', hranges, hright, start', hh, (hget 0 (by decide)).1⟩

end ConicForm
