import ConicForm.Axis
import ConicForm.Layout

/-!
# Points and row vectors of a layout

A point of a program lists the entries of all variables, column by column of each and in the order of
the layout. `Layout.pack` makes one from the values of the variables and `Layout.unpack` takes one apart.
A vector with an entry for each row is cut up by cone or by constraint; where it is too short, so are
its pieces.
-/

namespace ConicForm

variable {α : Type}

namespace Layout

def valueAt [Zero α] (x : List α) (start : Int) (s : Shape) : Result (Matrix α) :=
  let entries := Axis.slice x start (start + s.size)
  if entries.length = s.size then .ok (Matrix.ofVec s.rows s.cols entries) else .error .mismatch

def unpack [Zero α] (l : Layout α) (x : List α) : Result (List (Int × Matrix α)) :=
  l.offsets.mapM fun e =>
    match Keyed.get? l.shapes e.1 with
    | some s => do return (e.1, ← valueAt x e.2 s)
    | none => .error .missingKey

/-- The column of `width` entries in which each value stands, column by column, from the first column of
its variable on. -/
def pack [Zero α] (l : Layout α) (values : List (Int × Matrix α)) : List α :=
  (List.range l.width).map fun (k : Nat) =>
    let holder := l.offsets.findSome? fun e =>
      match Keyed.get? values e.1 with
      | some m =>
        let place := (k : Int) - e.2
        if 0 ≤ place ∧ place < m.shape.size then some (m.vec.getD place.toNat 0) else none
      | none => none
    holder.getD 0

def splitByConstraint (l : Layout α) (z : List α) : List (List α) :=
  l.ranges.map fun r => Axis.slice z r.first (r.first + r.count)

end Layout

def ConeDims.split (d : ConeDims) (z : List α) : ByCone (List α) :=
  let first := firstRows d.rows
  ByCone.ofFn fun c => Axis.slice z (first.get c) (first.get c + d.rows.get c)

end ConicForm
