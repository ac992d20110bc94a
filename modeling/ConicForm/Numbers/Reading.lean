import ConicForm.Numbers
import ConicForm.Value.Number

/-!
# Loose values as arrays

`Numbers.ofValue` reads nested sequences of numbers as an array of the narrowest sort that holds them,
and `Numbers.ofFactor` the one number that an array may be multiplied by.
-/

namespace ConicForm

namespace Value

def isReal : Value → Bool
  | .real _ => true
  | _ => false

def isAbsent : Value → Bool
  | .none => true
  | _ => false

def isNumber : Value → Bool
  | .int _ => true
  | .word _ => true
  | .real _ => true
  | .truth _ => true
  | _ => false

def truth? : Value → Option Bool
  | .truth b => some b
  | _ => Option.none

/-- The word that a value is, where truth values count as words. -/
def word? : Value → Option Int
  | .int n => if isWord n then some n else Option.none
  | .word n => some n
  | .truth b => some (ofBool b)
  | _ => Option.none

end Value

def Tensor.ofEntries {β : Type} (dims : List Nat) (items : List β) : Result (Tensor β) :=
  if h : items.length = volume dims then .ok ⟨dims, items.toArray, by simpa using h⟩
  else .error .ragged

namespace Numbers

variable {α : Type} [OfDouble α]

def maxRank : Nat := 64

/-- The array of some numbers: reals where there is one or there are none, words where there is one,
and truth values otherwise. Integers past the words are only read next to a real. -/
def ofItems (dims : List Nat) (items : List Value) : Result (Numbers α) := do
  if items.isEmpty ∨ items.any Value.isReal then
    let xs ← items.mapM Value.number
    return .reals (← Tensor.ofEntries dims (xs.map ofDouble))
  else
    match items.mapM Value.truth?, items.mapM Value.word? with
    | some bs, _ => return .truths (← Tensor.ofEntries dims bs)
    | none, some ns => return .words (← Tensor.ofEntries dims ns)
    | none, none => throw .tooLarge

def ofValue (v : Value) : Result (Numbers α) := do
  let items := v.atoms
  if items.any Value.isAbsent then throw .ragged
  if !items.all Value.isNumber then throw .wrongType
  match v.dimensions? with
  | none => throw .ragged
  | some dims =>
    if maxRank < dims.length then throw .tooDeep
    ofItems dims items

/-- The number that an array may be multiplied by or filled with. -/
def ofFactor (v : Value) : Result (Numbers α) :=
  match v with
  | .truth b => .ok (.truths (.scalar b))
  | .int n => if Value.isWord n then .ok (.words (.scalar n)) else .error .tooLarge
  | .word n => .ok (.words (.scalar n))
  | .real x => .ok (.reals (.scalar (ofDouble x)))
  | _ => .error .wrongType

def ofDoubles (t : Tensor Double) : Numbers α := .reals (t.map ofDouble)

end Numbers

end ConicForm
