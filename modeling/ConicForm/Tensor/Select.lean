import ConicForm.Numbers.Reading
import ConicForm.Slice

/-!
# Selecting from an array

An index is a list of selectors, each for the next axis of an array; axes without one are kept. A slice
keeps some places of its axis, and positions read the axis: the arrays of positions of all axes that are
read are combined, and their common axes take the place of the first axis read. `Tensor.select` makes the
array that an index selects.
-/

namespace ConicForm

/-- The first place is where there is none. -/
local instance zeroPosition : Zero Nat := ⟨0⟩

inductive Selector where
  | position (n : Int)
  | newAxis
  | slice (s : Slice)
  | positions (t : Tensor Int)
  /-- The places where the entries are true. -/
  | mask (t : Tensor Bool)

namespace Selector

/-- A sequence of integers as positions; a list of truth values is a mask. -/
def ofSequence (v : Value) : Result Selector := do
  let items := v.atoms
  match v, items.mapM Value.truth? with
  | .list _, some (b :: bs) =>
    if v.dimensions? = some [items.length] then return .mask (.ofList (b :: bs))
    else throw .missingPosition
  | _, _ =>
    match items.mapM Value.index?, v.dimensions? with
    | some ns, some dims =>
      if !ns.all Value.isWord then throw .tooLarge
      return .positions (← Tensor.ofEntries dims ns)
    | some _, none => throw .ragged
    | none, _ => throw .missingPosition

def ofValue (v : Value) : Result Selector :=
  match v with
  | .int n => if Value.isWord n then .ok (.position n) else .error .tooLarge
  | .word n => .ok (.position n)
  | .truth b => .ok (.mask (.scalar b))
  | .none => .ok .newAxis
  | .slice start stop step => do
    return .slice ⟨← Slice.member start, ← Slice.member stop, ← Slice.member step⟩
  | .tuple _ => ofSequence v
  | .list _ => ofSequence v
  | _ => .error .wrongType

/-- The rows that a value states: integers, or a truth value for each row. -/
def ofRows (v : Value) : Result Selector := do
  match (← Numbers.ofValue v : Numbers Float) with
  | .truths t => return .mask t
  | .words t => return .positions t
  | .reals _ => throw .wrongType

def ofPlaces (places : List Nat) : Selector := .positions (.ofList (places.map fun n : Nat => (n : Int)))

/-- What becomes of one axis, of the array or new. -/
inductive Part where
  /-- The axis is kept at some of its places. -/
  | kept (places : List Nat)
  /-- A new axis of one place. -/
  | added
  /-- The axis is read at some places. -/
  | read (places : Tensor Nat)
  /-- A new axis of one place is read as often as stated. -/
  | addedRead (count : Nat)

def trueIndices (t : Tensor Bool) : List (List Nat) :=
  (t.toList.zipIdx.filter fun e => e.1).map fun e => Tensor.indexOf t.dims e.2

/-- The parts of an index on an array with the given dimensions. -/
def parts : List Selector → List Nat → Result (List Part)
  | [], dims => .ok (dims.map fun d => .kept (List.range d))
  | .newAxis :: rest, dims => do return .added :: (← parts rest dims)
  | .position n :: rest, d :: dims => do
    return .read (.scalar (Axis.source d n)) :: (← parts rest dims)
  | .slice s :: rest, d :: dims => do
    let ps ← s.places d
    return .kept ps :: (← parts rest dims)
  | .positions t :: rest, d :: dims => do
    return .read (t.map (Axis.source d)) :: (← parts rest dims)
  | .mask t :: rest, dims => do
    if t.rank = 0 then return .addedRead (trueIndices t).length :: (← parts rest dims)
    if dims.take t.rank ≠ t.dims then throw .missingPosition
    let found := trueIndices t
    let reads := (List.range t.rank).map fun axis =>
      Part.read (.ofList (found.map fun index => index.getD axis 0))
    return reads ++ (← parts rest (dims.drop t.rank))
  | _ :: _, [] => .error .missingPosition

/-- The places that rows are put to on an axis of the given size. -/
def targets (rows : Selector) (size : Nat) : Result (Tensor (Option Nat)) :=
  match rows with
  | .positions p => .ok (p.map (Axis.target? size))
  | .mask t =>
    if t.dims = [size] then .ok (.ofList ((trueIndices t).map fun index => some (index.headD 0)))
    else .error .missingPosition
  | _ => .error .wrongType

/-- The dimensions that an axis is read over, if it is read. -/
def Part.readDims? : Part → Option (List Nat)
  | .read t => some t.dims
  | .addedRead count => some [count]
  | _ => none

def readDims (ps : List Part) : Option (List Nat) :=
  (ps.filterMap Part.readDims?).foldlM commonDimensions []

/-- The dimensions of the selected array, `common` being those of the axes read. -/
def selectedDims (common : List Nat) : List Part → List Nat
  | [] => []
  | .kept places :: rest => places.length :: selectedDims common rest
  | .added :: rest => 1 :: selectedDims common rest
  | _ :: rest => common ++ selectedDims [] rest

/-- The index in the array, from the index in the axes that are kept or new and the index in those that
are read. -/
def sourceIndex (common : List Nat) : List Part → List Nat → List Nat
  | .kept places :: rest, i :: is => places.getD i 0 :: sourceIndex common rest is
  | .added :: rest, _ :: is => sourceIndex common rest is
  | .read t :: rest, is => t.getRepeated common :: sourceIndex common rest is
  | .addedRead _ :: rest, is => sourceIndex common rest is
  | _, _ => []

end Selector

namespace Tensor

variable {α : Type} [Zero α]

def select (t : Tensor α) (index : List Selector) : Result (Tensor α) := do
  let ps ← Selector.parts index t.dims
  match Selector.readDims ps with
  | none => throw .cannotStretch
  | some common =>
    let before := (ps.takeWhile fun p => p.readDims?.isNone).length
    return ofFn (Selector.selectedDims common ps) fun i =>
      t.get (Selector.sourceIndex ((i.drop before).take common.length) ps
        (i.take before ++ i.drop (before + common.length)))

/-- What a selector for the first axis selects. An array without rows has none to give, unless nothing is
asked for. -/
def selectRows (t : Tensor α) (rows : Selector) : Result (Tensor α) :=
  match rows with
  | .positions p =>
    if p.rank = 1 then t.takeRows (p.toList.map (Axis.source t.length))
    else if t.rank ≠ 0 ∧ t.length = 0 ∧ p.entries.size * t.asRows.cols ≠ 0 then .error .wrongType
    else t.select [rows]
  | _ => t.select [rows]

end Tensor

end ConicForm
