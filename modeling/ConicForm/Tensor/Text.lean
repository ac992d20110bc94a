import ConicForm.Decimal.Shortest
import ConicForm.Tensor

/-!
# The text of arrays

Arrays of doubles are written between brackets, one row a line, all numbers in one format: with up to
eight places after the point, or, where the magnitudes differ too much or are too large or too small,
with an exponent. `Tensor.text` is the text that stands for an array in a message, and `Tensor.record` the
one that also states its sort.
-/

namespace ConicForm

namespace Decimal

/-- A nonnegative quotient rounded to the nearest integer, a half to the even one. -/
def roundedQuotient (n d : Nat) : Nat :=
  let q := n / d
  let r := n % d
  if 2 * r < d then q else if d < 2 * r then q + 1 else if q % 2 = 0 then q else q + 1

/-- The magnitude of a double in units of `10 ^ -places`, rounded. -/
def inUnits (x : Double) (places : Int) : Nat :=
  let value := x.significand * Nat.pow 2 x.scale
  roundedQuotient (value * Nat.pow 10 places.toNat) (Nat.pow 2 1074 * Nat.pow 10 (-places).toNat)

/-- The shortest decimal of a double, or the one nearest to it with `places` digits after the point if
the shortest has more. -/
def atMost (x : Double) (places : Int) : Decimal :=
  let d := shortest x
  if -d.exponent ≤ places then d else stripZeros 400 ⟨inUnits x places, -places⟩

def point (d : Decimal) : Int := if d.digits = 0 then 1 else (toString d.digits).length + d.exponent

end Decimal

structure NumberParts where
  whole : String
  fraction : String
  /-- The exponent and its sign, if one is written. -/
  exponent : Option Int
deriving DecidableEq

namespace NumberParts

def zeros (n : Nat) : List Char := List.replicate n '0'

/-- A number with up to eight places after the point. -/
def positional (x : Double) : NumberParts :=
  let d := Decimal.atMost x 8
  let digits := (toString d.digits).toList
  let sign := if x.negative then "-" else ""
  if 0 ≤ d.exponent then ⟨sign ++ String.ofList (digits ++ zeros d.exponent.toNat), "", none⟩
  else
    let places := d.exponent.natAbs
    let padded := zeros (places + 1 - digits.length) ++ digits
    ⟨sign ++ String.ofList (padded.take (padded.length - places)),
      String.ofList (padded.drop (padded.length - places)), none⟩

/-- A number with one digit before the point and up to eight after it. -/
def scientific (x : Double) : NumberParts :=
  let d := Decimal.shortest x
  let d := if d.digits = 0 then d else Decimal.atMost x (9 - d.point)
  let digits := (toString d.digits).toList
  ⟨(if x.negative then "-" else "") ++ String.ofList (digits.take 1), String.ofList (digits.drop 1),
    some (d.point - 1)⟩

/-- The digits of an exponent, of which there are at least two. -/
def exponentDigits (width : Nat) (e : Int) : String :=
  let digits := (toString e.natAbs).toList
  String.ofList (zeros (max width 2 - digits.length) ++ digits)

end NumberParts

/-- The format that all numbers of an array are written in. -/
structure ArrayFormat where
  scientific : Bool
  /-- The widths before and after the point. -/
  left : Nat
  right : Nat
  exponentWidth : Nat
  fraction : Nat
deriving DecidableEq

namespace ArrayFormat

def parts (scientific : Bool) (x : Double) : NumberParts :=
  if scientific then .scientific x else .positional x

def largest (ns : List Nat) : Nat := ns.foldl max 0

def needsExponents (xs : List Double) : Bool :=
  let sizes := (xs.filter fun x => !x.isZero).map fun x => x.toFloat.abs
  match sizes with
  | [] => false
  | s :: rest =>
    let high := rest.foldl max s
    let low := rest.foldl min s
    high >= 1.0e8 || low < 0.0001 || high / low > 1000.0

def ofEntries (xs : List Double) : ArrayFormat :=
  let finite := xs.filter Double.isFinite
  let scientific := needsExponents finite
  let ps := finite.map (parts scientific)
  let left := largest (ps.map fun p => p.whole.length)
  let fraction := largest (ps.map fun p => p.fraction.length)
  let exponentWidth := if scientific then
      largest (ps.map fun p => (NumberParts.exponentDigits 2 (p.exponent.getD 0)).length)
    else 0
  let right := if scientific then exponentWidth + 2 + fraction else fraction
  let wordWidth := if xs.any fun x => x.isInfinite && x.negative then 4 else 3
  ⟨scientific, if finite.length = xs.length then left else max left (wordWidth - (right + 1)), right,
    exponentWidth, fraction⟩

def spaces (n : Nat) : String := String.ofList (List.replicate n ' ')

def write (f : ArrayFormat) (x : Double) : String :=
  if x.isFinite then
    let p := parts f.scientific x
    let whole := spaces (f.left - p.whole.length) ++ p.whole ++ "."
    match p.exponent with
    | some e =>
      whole ++ p.fraction ++ String.ofList (NumberParts.zeros (f.fraction - p.fraction.length)) ++ "e" ++
        (if e < 0 then "-" else "+") ++ NumberParts.exponentDigits f.exponentWidth e
    | none => whole ++ p.fraction ++ spaces (f.right - p.fraction.length)
  else
    let word := if x.isNaN then "nan" else if x.negative then "-inf" else "inf"
    spaces (f.left + f.right + 1 - word.length) ++ word

end ArrayFormat

/-- How an array is laid out: what stands between two entries, and how long a line may be. -/
structure ArrayStyle where
  separator : String
  /-- The separator at the end of a line. -/
  ending : String
  width : Nat

namespace ArrayStyle

/-- Adds words to lines that begin with some indent; a line that would be too long is ended, unless it
holds nothing yet. The words are followed by separators, the last one excepted. -/
def fill (style : ArrayStyle) (indent : String) (room : Nat) (done line : String) :
    List String → String
  | [] => done ++ line
  | word :: rest =>
    let full := room < line.length + word.length && indent.length < line.length
    let done := if full then done ++ line.trimAsciiEnd.toString ++ "\n" else done
    let line := (if full then indent else line) ++ word
    fill style indent room done (if rest.isEmpty then line else line ++ style.separator) rest

def chunks {β : Type} (length : Nat) : Nat → List β → List (List β)
  | 0, _ => []
  | count + 1, xs => xs.take length :: chunks length count (xs.drop length)

/-- The texts of the entries between brackets, those of the inner axes a line each; `indent` stands
before every line but the first, and `room` is what is left of the width. -/
def layOut (style : ArrayStyle) (indent : String) (room : Nat) : List Nat → List String → String
  | [], words => words.headD ""
  | [_], words =>
    let text := fill style indent (room - max style.ending.length 1) "" indent words
    "[" ++ String.ofList (text.toList.drop indent.length) ++ "]"
  | d :: ds, words =>
    let parts := (chunks (volume ds) d words).map (layOut style (indent ++ " ") (room - 1) ds)
    let between := style.ending ++ String.ofList (List.replicate ds.length '\n') ++ indent
    "[" ++ between.intercalate parts ++ "]"

end ArrayStyle

namespace Tensor

/-- Arrays by themselves have spaces between their entries. -/
def plainStyle : ArrayStyle := ⟨" ", "", 75⟩

/-- Arrays as they are recorded have commas between their entries. -/
def recordStyle : ArrayStyle := ⟨", ", ",", 74⟩

def words (t : Tensor Double) : List String :=
  let format := ArrayFormat.ofEntries t.toList
  t.toList.map format.write

/-- The text of an array; a single number without axes is written like any real. -/
def text (t : Tensor Double) : String :=
  match t.dims, t.toList with
  | [], x :: _ => realStyle.write x
  | _, [] => "[]"
  | dims, _ => plainStyle.layOut " " plainStyle.width dims t.words

def record (t : Tensor Double) : String :=
  let opening := "Array("
  let sort := "dtype=float64)"
  let body := match t.toList with
    | [] => "[], shape=" ++ t.shapeValue.nested
    | _ => recordStyle.layOut (ArrayFormat.spaces (opening.length + 1)) recordStyle.width t.dims t.words
  let lines := body.splitOn "\n"
  let last := (lines.getLast?.getD "").length + 2
  let gap := if 75 < last + sort.length + 1 then "\n" ++ ArrayFormat.spaces opening.length else " "
  opening ++ body ++ "," ++ gap ++ sort

end Tensor

end ConicForm
