import ConicForm.Keyed
import ConicForm.Label
import ConicForm.Tensor.Product
import ConicForm.Tensor.Select

/-!
# Affine blocks

A block is an affine map from the variables to a column: a coefficient matrix for each variable and an
offset. The operations here act on the rows of a block, on every coefficient and on the offset alike. They
admit coefficients and offsets with any axes, of which the first one is that of the rows.
-/

namespace ConicForm

structure Block (α : Type) where
  /-- The coefficients of each variable, by the variable's label. -/
  coeffs : List (Label × Tensor α)
  offset : Numbers α

namespace Block

variable {α : Type}

def size (b : Block α) : Nat := b.offset.length

def coeff? (b : Block α) (label : Label) : Option (Tensor α) := Keyed.get? b.coeffs label

/-- The block without variables. -/
def const (offset : Numbers α) : Block α := ⟨[], offset⟩

def ofReals (coeffs : List (Label × Tensor α)) (offset : Tensor α) : Block α :=
  ⟨Keyed.ofPairs coeffs, .reals offset⟩

/-- The number of rows, which an offset without axes does not state. -/
def height (b : Block α) : Result Nat :=
  if b.offset.rank = 0 then .error .missingPosition else .ok b.size

/-- Changes every coefficient, all of which must allow it. -/
def mapCoeffs (f : Tensor α → Result (Tensor α)) (coeffs : List (Label × Tensor α)) :
    Result (List (Label × Tensor α)) :=
  coeffs.mapM fun e => do return (e.1, ← f e.2)

def columns (t : Tensor α) : Result Nat :=
  match t.dims with
  | _ :: n :: _ => .ok n
  | _ => .error .missingPosition

variable [Zero α]

/-- Multiplies by a factor, or by an array of factors. -/
def scale [Mul α] [OfDouble α] (b : Block α) (factor : Numbers α) : Result (Block α) := do
  let coeffs ← mapCoeffs (factor.toReals.zipWith (· * ·)) b.coeffs
  return ⟨coeffs, ← factor.times b.offset⟩

def scaleOf [Mul α] [OfDouble α] (b : Block α) (factor : Value) : Result (Block α) := do
  b.scale (← Numbers.ofFactor factor)

def apply [Add α] [Mul α] [OfDouble α] (b : Block α) (m : Tensor α) : Result (Block α) := do
  let coeffs ← mapCoeffs m.product b.coeffs
  return ⟨coeffs, .reals (← m.product b.offset.toReals)⟩

def select (b : Block α) (rows : Selector) : Result (Block α) := do
  let coeffs ← mapCoeffs (fun t => t.selectRows rows) b.coeffs
  return ⟨coeffs, ← b.offset.onEach fun t => t.selectRows rows⟩

/-- The rows at the given places; one past the end is cut to the last. -/
def gather (b : Block α) (places : List Nat) : Result (Block α) := b.select (.ofPlaces places)

/-- The block of `size` rows with the rows of `b` put to the given positions and zeros elsewhere. -/
def scatter (b : Block α) (rows : Selector) (size : Nat) : Result (Block α) := do
  let places ← rows.targets size
  let coeffs ← mapCoeffs (fun t => do t.putRows [← columns t] places size) b.coeffs
  return ⟨coeffs, ← b.offset.onEach fun t => t.putRows [] places size⟩

def weigh [Mul α] [OfDouble α] (b : Block α) (weights : Numbers α) : Result (Block α) := do
  let column := weights.toReals
  let column := column.withDims (column.dims ++ [1]) (by simp [Tensor.volume_append, volume])
  let coeffs ← mapCoeffs (column.zipWith (· * ·)) b.coeffs
  return ⟨coeffs, ← weights.times b.offset⟩

def addCoeff [Add α] (coeffs : List (Label × Tensor α)) (e : Label × Tensor α) :
    Result (List (Label × Tensor α)) :=
  match Keyed.get? coeffs e.1 with
  | some t => do return Keyed.put coeffs e.1 (← t.zipWith (· + ·) e.2)
  | none => .ok (coeffs ++ [e])

/-- The sum of two blocks; a variable may occur in only one of them. -/
def add [Add α] [OfDouble α] (left right : Block α) : Result (Block α) := do
  let coeffs ← right.coeffs.foldlM addCoeff left.coeffs
  return ⟨coeffs, ← left.offset.plus right.offset⟩

/-- The sum of at least one block, from the first to the last. -/
def sum [Add α] [OfDouble α] : List (Block α) → Result (Block α)
  | [] => .error .missingPosition
  | b :: rest => rest.foldlM add b

omit [Zero α] in
/-- The number of columns of each variable's coefficients, by the last block that has one. -/
def widths (blocks : List (Block α)) : Result (List (Label × Nat)) := do
  return Keyed.ofPairs (← (blocks.flatMap coeffs).mapM fun e => do return (e.1, ← columns e.2))

/-- The coefficients of one variable from top to bottom, zero in a block without it. -/
def column (blocks : List (Block α)) (label : Label) (width : Nat) : Result (Tensor α) :=
  Tensor.joinRows (blocks.map fun b => (b.coeff? label).getD (.zeros [b.size, width]))

/-- At least one block, one above the other. -/
def concat [OfDouble α] (blocks : List (Block α)) : Result (Block α) := do
  let coeffs ← (← widths blocks).mapM fun e => do return (e.1, ← column blocks e.1 e.2)
  return ⟨coeffs, ← Numbers.joinRows (blocks.map offset)⟩

/-- The coefficients of a block over all columns; `offsetOf` gives the first column of a variable. -/
def spread [Add α] (offsetOf : Label → Option Int) (width : Nat) (b : Block α) : Result (Matrix α) :=
  b.coeffs.foldlM
    (fun rows e =>
      match offsetOf e.1 with
      | some start => do Tensor.addColumns rows start (start + (← columns e.2 : Nat)) e.2
      | none => .error .missingKey)
    (Matrix.zeros b.size width)

/-- Blocks one above the other over all columns: the matrix and the offset of their affine map. -/
def stack [Add α] [OfDouble α] (offsetOf : Label → Option Int) (width : Nat)
    (blocks : List (Block α)) : Result (Matrix α × Numbers α) := do
  if blocks.isEmpty then return (Matrix.zeros 0 width, .reals (.zeros [0]))
  let parts ← blocks.mapM (spread offsetOf width)
  return (Matrix.stack width parts, ← Numbers.joinRows (blocks.map offset))

end Block

end ConicForm
