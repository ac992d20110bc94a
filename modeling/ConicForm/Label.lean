import ConicForm.Value.Order

/-!
# Labels

The names that variables go by in a block: numbers, texts, nothing, and tuples of these. Two labels are
the same when they are equal as values, so that a truth value, an integer and an integral real may be one
label; which of them it was first called by stays with it.
-/

namespace ConicForm

namespace Value

mutual

/-- Whether a value may be a label: anything but a list, a slice, a record, or a tuple that holds one. -/
def isLabel : Value → Bool
  | .list _ => false
  | .slice _ _ _ => false
  | .record _ _ => false
  | .tuple items => areLabels items
  | _ => true

def areLabels : List Value → Bool
  | [] => true
  | v :: rest => isLabel v && areLabels rest

end

mutual

/-- The one among the equal labels that stands for all: numbers that are integers are integers. -/
def canonical : Value → Value
  | .tuple items => .tuple (allCanonical items)
  | .real x =>
    match x.toInt? with
    | some n => .int n
    | Option.none => .real x
  | .word n => .int n
  | .truth b => .int (ofBool b)
  | v => v

def allCanonical : List Value → List Value
  | [] => []
  | v :: rest => canonical v :: allCanonical rest

end

end Value

structure Label where
  value : Value
deriving Repr, Inhabited

namespace Label

/-- What the label is told apart by. -/
def key (l : Label) : Value := l.value.canonical

instance : BEq Label := ⟨fun a b => decide (a.key = b.key)⟩

theorem beq_iff {a b : Label} : a == b ↔ a.key = b.key := by
  simp [BEq.beq]

instance : EquivBEq Label where
  rfl := beq_iff.2 rfl
  symm h := beq_iff.2 (beq_iff.1 h).symm
  trans h k := beq_iff.2 ((beq_iff.1 h).trans (beq_iff.1 k))

def ofId (id : Int) : Label := ⟨.int id⟩

@[simp] theorem key_ofId (id : Int) : (ofId id).key = .int id := rfl

theorem ofId_beq_ofId {i j : Int} : ofId i == ofId j ↔ i = j := by simp [beq_iff]

def ofValue (v : Value) : Result Label := if v.isLabel then .ok ⟨v⟩ else .error .wrongType

def id? (l : Label) : Option Int :=
  match l.key with
  | .int id => some id
  | _ => none

@[simp] theorem id?_ofId (id : Int) : (ofId id).id? = some id := rfl

/-- Whether two labels are one or have an order. -/
def isComparable (a b : Label) : Bool := a == b || (a.value.relation b.value).toBool

def le (a b : Label) : Bool :=
  match b.value.relation a.value with
  | .ok r => !r.isLess
  | .error _ => true

/-- Entries in the order of their labels, any two of which must have one. -/
def sorted {β : Type} (entries : List (Label × β)) : Result (List (Label × β)) :=
  if entries.all fun e => entries.all fun f => e.1.isComparable f.1 then
    .ok (entries.mergeSort fun e f => e.1.le f.1)
  else .error .wrongType

end Label

end ConicForm
