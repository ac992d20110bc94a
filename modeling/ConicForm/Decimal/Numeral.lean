import ConicForm.Double

/-!
# Numerals

Reads a number as text: blanks around it, a sign, digits of any script with single underscores
between them, a point, an exponent, or a word for infinity or not-a-number in any case.
-/

namespace ConicForm.Numeral

/-- The blank characters: the ASCII ones without the separator controls, and the other spaces. -/
def isBlank (c : Char) : Bool :=
  let n := c.toNat
  (9 ≤ n && n ≤ 13) || n == 32 || n == 0x85 || n == 0xa0 || n == 0x1680 ||
    (0x2000 ≤ n && n ≤ 0x200a) || n == 0x2028 || n == 0x2029 || n == 0x202f || n == 0x205f ||
    n == 0x3000

/-- The zeros of the decimal digits outside ASCII; each is followed by its one to nine. -/
def foreignZeros : List Nat :=
  [0x660, 0x6f0, 0x7c0, 0x966, 0x9e6, 0xa66, 0xae6, 0xb66, 0xbe6, 0xc66, 0xce6, 0xd66, 0xde6, 0xe50,
   0xed0, 0xf20, 0x1040, 0x1090, 0x17e0, 0x1810, 0x1946, 0x19d0, 0x1a80, 0x1a90, 0x1b50, 0x1bb0,
   0x1c40, 0x1c50, 0xa620, 0xa8d0, 0xa900, 0xa9d0, 0xa9f0, 0xaa50, 0xabf0, 0xff10, 0x104a0, 0x10d30,
   0x11066, 0x110f0, 0x11136, 0x111d0, 0x112f0, 0x11450, 0x114d0, 0x11650, 0x116c0, 0x11730,
   0x118e0, 0x11950, 0x11c50, 0x11d50, 0x11da0, 0x16a60, 0x16ac0, 0x16b50, 0x1d7ce, 0x1d7d8,
   0x1d7e2, 0x1d7ec, 0x1d7f6, 0x1e140, 0x1e2f0, 0x1e950, 0x1fbf0]

/-- A decimal digit of any script as the ASCII one. -/
def plainDigit (c : Char) : Char :=
  match foreignZeros.find? fun z => z ≤ c.toNat && c.toNat < z + 10 with
  | some z => Char.ofNat (48 + (c.toNat - z))
  | none => c

def trim (cs : List Char) : List Char :=
  ((cs.dropWhile isBlank).reverse.dropWhile isBlank).reverse

/-- Removes the underscores of a text in which each stands between two digits. -/
def withoutUnderscores : List Char → Option (List Char)
  | [] => some []
  | '_' :: _ => none
  | a :: '_' :: b :: rest =>
    if a.isDigit && b.isDigit then (withoutUnderscores (b :: rest)).map (a :: ·) else none
  | c :: rest => (withoutUnderscores rest).map (c :: ·)

def value (digits : List Char) : Nat :=
  digits.foldl (fun n c => 10 * n + (c.toNat - 48)) 0

/-- The exponent after the digits: nothing, or the letter with an optional sign and digits. -/
def exponent? : List Char → Option Int
  | [] => some 0
  | e :: rest =>
    if e = 'e' ∨ e = 'E' then
      let (negative, digits) := match rest with
        | '-' :: ds => (true, ds)
        | '+' :: ds => (false, ds)
        | ds => (false, ds)
      if digits ≠ [] ∧ digits.all Char.isDigit then
        some (if negative then -(value digits : Int) else value digits)
      else none
    else none

/-- The double nearest to `digits * 10 ^ exponent`; exponents past the doubles' range are cut. -/
def nearest (digits : Nat) (exponent : Int) : Float :=
  if digits = 0 then 0.0
  else
    let size : Int := (Nat.toDigits 10 digits).length
    if size + exponent > 400 then Float.ofBits 0x7ff0000000000000
    else if size + exponent < -400 then 0.0
    else Float.ofScientific digits (exponent < 0) exponent.natAbs

def magnitude? (cs : List Char) : Option Float :=
  let word := String.ofList (cs.map Char.toLower)
  if word = "inf" ∨ word = "infinity" then some (Float.ofBits 0x7ff0000000000000)
  else if word = "nan" then some (Float.ofBits 0x7ff8000000000000)
  else do
    let whole := cs.takeWhile Char.isDigit
    let afterWhole := cs.dropWhile Char.isDigit
    let (part, rest) := match afterWhole with
      | '.' :: r => (r.takeWhile Char.isDigit, r.dropWhile Char.isDigit)
      | r => ([], r)
    if whole = [] ∧ part = [] then none
    else
      let e ← exponent? rest
      some (nearest (value (whole ++ part)) (e - part.length))

def read? (s : String) : Option Double := do
  let cs ← withoutUnderscores ((trim s.toList).map plainDigit)
  match cs with
  | '-' :: r => (magnitude? r).map fun x => Double.ofFloat (-x)
  | '+' :: r => (magnitude? r).map Double.ofFloat
  | r => (magnitude? r).map Double.ofFloat

end ConicForm.Numeral
