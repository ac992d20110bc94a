import ConicForm.Value.Number

/-!
# Slices

A slice selects positions along an axis by a start, a stop and a step, each of which may be left out;
negative positions count from the end. `Slice.span` resolves it on an axis, and `Slice.ofKey` turns an
integer or a slice into the slice with explicit members that selects the same, non-empty positions.
-/

namespace ConicForm

structure Slice where
  start : Option Int
  stop : Option Int
  step : Option Int
deriving DecidableEq, Inhabited, Repr

/-- The positions `start, start + step, …` before `stop`. -/
structure Span where
  start : Int
  stop : Int
  step : Int
deriving DecidableEq, Repr

namespace Span

def count (s : Span) : Nat :=
  if 0 < s.step then
    if s.start < s.stop then ((s.stop - s.start - 1) / s.step + 1).toNat else 0
  else if s.stop < s.start then ((s.start - s.stop - 1) / (-s.step) + 1).toNat
  else 0

def positions (s : Span) : List Int :=
  (List.range s.count).map fun k : Nat => s.start + (k : Int) * s.step

/-- The number of positions, which must be a word. -/
def length (s : Span) : Result Nat :=
  if s.count < Nat.pow 2 63 then .ok s.count else .error .tooLarge

end Span

namespace Slice

/-- An end of a slice on an axis: moved by the length if negative, and cut to the range. -/
def bound (value : Option Int) (missing low high length : Int) : Int :=
  match value with
  | none => missing
  | some n => if n < 0 then max (n + length) low else min n high

def span (s : Slice) (length : Int) : Result Span :=
  let step := s.step.getD 1
  if step = 0 then .error .zeroStep
  else if step < 0 then
    .ok ⟨bound s.start (length - 1) (-1) (length - 1) length,
      bound s.stop (-1) (-1) (length - 1) length, step⟩
  else .ok ⟨bound s.start 0 0 length length, bound s.stop length 0 length length, step⟩

/-- A member of a slice: an integer, a truth value, or nothing. -/
def member : Value → Result (Option Int)
  | .none => .ok none
  | .int n => .ok (some n)
  | .word n => .ok (some n)
  | .truth b => .ok (some (Value.ofBool b))
  | _ => .error .wrongType

def ofMembers (start stop step : Value) : Result Slice := do
  let stride ← member step
  if stride = some 0 then throw .zeroStep
  return ⟨← member start, ← member stop, stride⟩

/-- The slice that a value is, with the positions that it selects on an axis. -/
def spanOfValue (v : Value) (length : Int) : Result Span := do
  match v with
  | .slice start stop step =>
    if length < 0 then throw .negativeLength
    (← ofMembers start stop step).span length
  | _ => throw .missingProperty

def lengthOfValue (v : Value) (length : Int) : Result Nat := do
  (← spanOfValue v length).length

/-- The slice of the positions of a span. A stop before the first position is left out, as it would
count from the end. -/
def ofSpan (s : Span) : Slice :=
  ⟨some s.start, if s.stop < 0 then none else some s.stop, some s.step⟩

/-- The slice that selects one position, counted from the end if negative. -/
def ofPosition (key : Value) (position length : Int) : Result Slice :=
  let p := if position < 0 then position + length else position
  if p < 0 ∨ length ≤ p then .error (.indexOutOfBounds key length)
  else .ok ⟨some p, some (p + 1), some 1⟩

/-- The non-empty slice that an index, an integer or a slice, stands for on an axis. -/
def ofKey (key : Value) (length : Int) : Result Slice :=
  match key with
  | .int n => ofPosition key n length
  | .word n => ofPosition key n length
  | .slice _ _ _ => do
    let s ← spanOfValue key length
    if (← s.length) = 0 then throw (.emptySelection key length)
    return ofSpan s
  | _ => .error (.notAnIndex key)

/-- The positions of a slice on an axis, in the order of selection. -/
def positions (s : Slice) (length : Nat) : Result (List Nat) := do
  return (← s.span length).positions.map Int.toNat

/-- The places that entries are taken from by a slice. A step of sixty-four bits or more takes none. -/
def places (s : Slice) (length : Nat) : Result (List Nat) :=
  match s.positions length with
  | .error _ => .error .badIndex
  | .ok ps =>
    if !ps.isEmpty && Nat.pow 2 63 ≤ (s.step.getD 1).natAbs then .error .wrongType else .ok ps

end Slice

end ConicForm
