import ConicForm.Decimal.Shortest
import ConicForm.Text.Quoted
import ConicForm.Value

/-!
# The text of loose values

`Value.shown` is the text that stands in a message and `Value.nested` the one inside a sequence, where
texts are quoted and words are marked as such.
-/

namespace ConicForm

/-- Reals are positional from 0.0001 to below 10 ^ 16 and keep a zero after the point of a whole. -/
def realStyle : NumberStyle := ⟨-3, 16, "nan", "inf", ".0"⟩

namespace Value

/-- How the type of a value is named in messages. -/
def typeName : Value → String
  | .int _ => "int"
  | .word _ => "numpy.int64"
  | .real _ => "float"
  | .truth _ => "bool"
  | .text _ => "str"
  | .none => "NoneType"
  | .tuple _ => "tuple"
  | .list _ => "list"
  | .slice _ _ _ => "slice"
  | .record _ _ => "dict"

def typeText (v : Value) : String := "<class '" ++ v.typeName ++ "'>"

mutual

def nested : Value → String
  | .int n => toString n
  | .word n => "np.int64(" ++ toString n ++ ")"
  | .real x => realStyle.write x
  | .truth b => if b then "True" else "False"
  | .text s => Text.quoted s
  | .none => "None"
  | .tuple [] => "()"
  | .tuple [v] => "(" ++ nested v ++ ",)"
  | .tuple (v :: rest) => "(" ++ nested v ++ nestedRest rest ++ ")"
  | .list [] => "[]"
  | .list (v :: rest) => "[" ++ nested v ++ nestedRest rest ++ "]"
  | .slice a b c => "slice(" ++ nested a ++ ", " ++ nested b ++ ", " ++ nested c ++ ")"
  | .record names items => "\x7b" ++ ", ".intercalate (nestedFields names items) ++ "\x7d"

def nestedRest : List Value → String
  | [] => ""
  | v :: rest => ", " ++ nested v ++ nestedRest rest

/-- The fields of a record, each item after its name. -/
def nestedFields : List String → List Value → List String
  | name :: names, v :: rest => (Text.quoted name ++ ": " ++ nested v) :: nestedFields names rest
  | _, _ => []

end

def shown : Value → String
  | .text s => s
  | .word n => toString n
  | v => v.nested

end Value

end ConicForm
