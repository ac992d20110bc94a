import ConicForm.Double

/-!
# Shortest decimals

The shortest decimal that reads back as a given double: on the grids of one, two, … seventeen
significant digits the value has two neighbours, and the first grid with a neighbour in the rounding
interval of the double wins. All arithmetic is exact, on natural numbers.
-/

namespace ConicForm

/-- The number `digits * 10 ^ exponent`. -/
structure Decimal where
  digits : Nat
  exponent : Int
deriving DecidableEq, Repr

namespace Decimal

/-- Three numbers over one denominator: a value between the ends of its rounding interval. -/
structure Interval where
  low : Nat
  value : Nat
  high : Nat
  denominator : Nat
  closed : Bool

/-- The reals that round to a positive finite double. Below a power of two the doubles are twice as
dense, so the lower half of the interval is half as long there; the ends belong to it when the
significand is even. -/
def Interval.ofDouble (x : Double) : Interval :=
  let unit := Nat.pow 2 x.scale
  let value := 4 * x.significand * unit
  let below := if x.fraction = 0 ∧ 1 < x.exponentField then unit else 2 * unit
  ⟨value - below, value, value + 2 * unit, Nat.pow 2 1076, x.significand % 2 == 0⟩

/-- Numerator of `d` over the interval's denominator times `divisor d`. -/
def scaled (i : Interval) (d : Decimal) : Nat := d.digits * Nat.pow 10 d.exponent.toNat * i.denominator

def divisor (d : Decimal) : Nat := Nat.pow 10 (-d.exponent).toNat

def Interval.contains (i : Interval) (d : Decimal) : Bool :=
  let n := scaled i d
  let k := divisor d
  if i.closed then i.low * k ≤ n && n ≤ i.high * k else i.low * k < n && n < i.high * k

/-- Distance of a decimal from the value, over the common denominator. -/
def Interval.distance (i : Interval) (d : Decimal) : Nat :=
  let n := scaled i d
  let v := i.value * divisor d
  (n - v) + (v - n)

/-- The number of decimal digits before the point; zero or less for values below one tenth. -/
def Interval.pointPosition (i : Interval) : Int :=
  (Nat.toDigits 10 (i.value * Nat.pow 10 400 / i.denominator)).length - 400

/-- The neighbour of the value on the grid of the given exponent that lies in the interval: the nearer
one if both do, the even one of two equally near. -/
def Interval.onGrid (i : Interval) (exponent : Int) : Option Decimal :=
  let below := i.value * Nat.pow 10 (-exponent).toNat / (i.denominator * Nat.pow 10 exponent.toNat)
  let lower : Decimal := ⟨below, exponent⟩
  let upper : Decimal := ⟨below + 1, exponent⟩
  match i.contains lower, i.contains upper with
  | true, true =>
    let l := i.distance lower
    let u := i.distance upper
    if l < u ∨ l = u ∧ below % 2 = 0 then some lower else some upper
  | true, false => some lower
  | false, true => some upper
  | false, false => none

/-- Moves trailing zeros of the digits into the exponent. -/
def stripZeros : Nat → Decimal → Decimal
  | 0, d => d
  | fuel + 1, d =>
    if d.digits ≠ 0 ∧ d.digits % 10 = 0 then stripZeros fuel ⟨d.digits / 10, d.exponent + 1⟩ else d

/-- The shortest decimal of a finite double's magnitude. -/
def shortest (x : Double) : Decimal :=
  if x.isZero then ⟨0, 0⟩
  else
    let i := Interval.ofDouble x
    let point := i.pointPosition
    match (List.range 17).findSome? fun k => i.onGrid (point - (k + 1 : Nat)) with
    | some d => stripZeros 20 d
    | none => ⟨0, 0⟩

end Decimal

/-- How decimals are spelled: positional while the point stands in a range of places, counted from
before the first digit, and with an exponent of at least two digits outside it. -/
structure NumberStyle where
  firstPoint : Int
  lastPoint : Int
  nan : String
  infinity : String
  fractionOfWhole : String

namespace NumberStyle

def exponentText (e : Int) : String :=
  let digits := toString e.natAbs
  "e" ++ (if e < 0 then "-" else "+") ++ (if digits.length < 2 then "0" ++ digits else digits)

/-- Text of a decimal whose first digit stands just after place `point`. -/
def place (style : NumberStyle) (digits : String) (point : Int) : String :=
  let size : Int := digits.length
  if style.firstPoint ≤ point ∧ point ≤ style.lastPoint then
    if point ≤ 0 then
      "0." ++ String.ofList (List.replicate (-point).toNat '0') ++ digits
    else if point ≥ size then
      digits ++ String.ofList (List.replicate (point - size).toNat '0') ++ style.fractionOfWhole
    else
      String.ofList (digits.toList.take point.toNat) ++ "." ++
        String.ofList (digits.toList.drop point.toNat)
  else
    let head := String.ofList (digits.toList.take 1)
    let tail := String.ofList (digits.toList.drop 1)
    (if tail = "" then head else head ++ "." ++ tail) ++ exponentText (point - 1)

def write (style : NumberStyle) (x : Double) : String :=
  if x.isNaN then style.nan
  else
    let sign := if x.negative then "-" else ""
    if x.isInfinite then sign ++ style.infinity
    else
      let d := Decimal.shortest x
      let digits := toString d.digits
      sign ++ style.place digits (if d.digits = 0 then 1 else digits.length + d.exponent)

end NumberStyle

end ConicForm
