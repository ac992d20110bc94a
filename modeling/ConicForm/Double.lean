/-!
# Doubles and scalar types

A `Double` is an IEEE double told apart by its bits, so that it can be compared and printed exactly.
The library's algebra runs over any scalar type; `OfDouble` says how such a type reads a double, which
is also where its infinity and its not-a-number come from.
-/

namespace ConicForm

structure Double where
  bits : UInt64
deriving DecidableEq, Inhabited, Repr

namespace Double

def nan : Double := ⟨0x7ff8000000000000⟩
def infinity : Double := ⟨0x7ff0000000000000⟩
def zero : Double := ⟨0⟩
def one : Double := ⟨0x3ff0000000000000⟩

def negative (x : Double) : Bool := x.bits >>> 63 != 0

/-- The biased exponent, in eleven bits. -/
def exponentField (x : Double) : Nat := (x.bits >>> 52).toNat % 2048

/-- The stored fraction, in fifty-two bits. -/
def fraction (x : Double) : Nat := x.bits.toNat % Nat.pow 2 52

def isNaN (x : Double) : Bool := x.exponentField == 2047 && x.fraction != 0

def isInfinite (x : Double) : Bool := x.exponentField == 2047 && x.fraction == 0

def isFinite (x : Double) : Bool := x.exponentField != 2047

/-- Both zeros are zero. -/
def isZero (x : Double) : Bool := x.exponentField == 0 && x.fraction == 0

/-- The magnitude of a finite double is `significand * 2 ^ (scale - 1074)`. -/
def significand (x : Double) : Nat :=
  if x.exponentField = 0 then x.fraction else Nat.pow 2 52 + x.fraction

def scale (x : Double) : Nat := x.exponentField - 1

def toFloat (x : Double) : Float := Float.ofBits x.bits

def ofFloat (x : Float) : Double := ⟨x.toBits⟩

/-- The integer that a finite double is, if it is one. -/
def toInt? (x : Double) : Option Int :=
  if x.isFinite then
    let magnitude := x.significand * Nat.pow 2 x.scale
    if magnitude % Nat.pow 2 1074 = 0 then
      let n : Int := (magnitude / Nat.pow 2 1074 : Nat)
      some (if x.negative then -n else n)
    else none
  else none

/-- The double nearest to an integer, a tie going to the even significand; none past the largest. -/
def ofInt? (n : Int) : Option Double :=
  let magnitude := Float.ofScientific n.natAbs false 0
  if magnitude.isInf then none
  else some (ofFloat (if n < 0 then -magnitude else magnitude))

end Double

/-- A scalar type that doubles can be read into. -/
class OfDouble (α : Type) where
  ofDouble : Double → α

export OfDouble (ofDouble)

instance : OfDouble Float := ⟨Double.toFloat⟩

instance : OfDouble Double := ⟨id⟩

def notANumber (α : Type) [OfDouble α] : α := ofDouble Double.nan

def infinity (α : Type) [OfDouble α] : α := ofDouble Double.infinity

end ConicForm
