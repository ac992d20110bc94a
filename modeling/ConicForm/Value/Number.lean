import ConicForm.Decimal.Numeral
import ConicForm.Failure

/-!
# Loose values as numbers

Reading a value as a double, and products of values: products of words wrap, a real makes the product
real, and a sequence or a text is repeated.
-/

namespace ConicForm.Value

def realOfInt (n : Int) : Result Double :=
  match Double.ofInt? n with
  | some x => .ok x
  | Option.none => .error .tooLarge

/-- A value as a double: a number, a truth value, or a text that spells a number. -/
def toReal : Value → Result Double
  | .int n => realOfInt n
  | .word n => realOfInt n
  | .real x => .ok x
  | .truth b => .ok (if b then Double.one else Double.zero)
  | .text s =>
    match Numeral.read? s with
    | some x => .ok x
    | Option.none => .error (.notANumeral s)
  | _ => .error .wrongType

/-- The double of a value that is a number; texts are none. -/
def number : Value → Result Double
  | .text _ => .error .wrongType
  | v => v.toReal

def repeated {β : Type} (items : List β) (times : Int) : List β :=
  (List.replicate times.toNat items).flatten

/-- A product of which one factor is a word: the other must be one, too, or fit into one. -/
def wordTimes (m n : Int) : Result Value :=
  if isWord m && isWord n then .ok (.word (wrapWord (m * n))) else .error .tooLarge

/-- A product of which one factor is real. -/
def realTimes (a b : Value) : Result Value := do
  let x ← a.number
  let y ← b.number
  return .real (Double.ofFloat (x.toFloat * y.toFloat))

def times (a b : Value) : Result Value :=
  match a, b with
  | .int m, .int n => .ok (.int (m * n))
  | .int m, .truth n => .ok (.int (m * ofBool n))
  | .truth m, .int n => .ok (.int (ofBool m * n))
  | .truth m, .truth n => .ok (.int (ofBool m * ofBool n))
  | .word m, .word n => wordTimes m n
  | .word m, .int n => wordTimes m n
  | .int m, .word n => wordTimes m n
  | .word m, .truth n => wordTimes m (ofBool n)
  | .truth m, .word n => wordTimes (ofBool m) n
  | .real x, b => realTimes (.real x) b
  | a, .real y => realTimes a (.real y)
  | .text s, b => sequenceTimes b fun n => .text (String.ofList (repeated s.toList n))
  | .tuple xs, b => sequenceTimes b fun n => .tuple (repeated xs n)
  | .list xs, b => sequenceTimes b fun n => .list (repeated xs n)
  | a, .text s => sequenceTimes a fun n => .text (String.ofList (repeated s.toList n))
  | a, .tuple xs => sequenceTimes a fun n => .tuple (repeated xs n)
  | a, .list xs => sequenceTimes a fun n => .list (repeated xs n)
  | _, _ => .error .wrongType
where
  sequenceTimes (count : Value) (make : Int → Value) : Result Value :=
    match count with
    | .int n => if isWord n then .ok (make n) else .error .tooLarge
    | .word n => .ok (make n)
    | .truth n => .ok (make (ofBool n))
    | _ => .error .wrongType

end ConicForm.Value
