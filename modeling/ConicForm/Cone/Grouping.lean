import ConicForm.Cone
import ConicForm.Keyed
import ConicForm.Node
import ConicForm.Total

/-!
# Constraints by cone

Each constraint wraps one expression and names a cone. `classify` sorts the wrapped expressions by cone,
`dimensions` counts the rows of each cone, and `rowRanges` locates the rows of each constraint: cone by
cone and, within a cone, in the order of the constraints.
-/

namespace ConicForm

variable {α : Type}

/-- The cone that a kind of constraint asks for, if it is supported. -/
def Kind.cone? : Kind → Option Cone
  | .eq => some .eq
  | .leq => some .leq
  | .soc => some .soc
  | .exp => some .exp
  | _ => none

namespace Node

/-- The cone of a constraint; `position` is its place among the constraints. -/
def cone (n : Node α) (position : Int) : Result Cone :=
  match n.kind.cone? with
  | some c => .ok c
  | none =>
    if n.kind.isForeign then .error .missingProperty
    else .error (.unsupportedCone position n.kind.name)

/-- The cone of a constraint and the expression that it wraps. -/
def membership (n : Node α) (position : Nat) : Result (Cone × Node α) := do
  let c ← n.cone position
  match n.children with
  | [x] => return (c, x)
  | xs => throw (.wrongArity position n.kind.name xs.length)

/-- The memberships of the constraints from place `position` on. -/
def memberships (position : Nat) : List (Node α) → Result (List (Cone × Node α))
  | [] => .ok []
  | n :: rest => do
    let m ← n.membership position
    return m :: (← memberships (position + 1) rest)

end Node

/-- The expressions of each cone, in the order of their constraints. -/
def group (ms : List (Cone × Node α)) : ByCone (List (Node α)) :=
  ByCone.ofFn fun c => (ms.filter fun m => m.1 = c).map Prod.snd

def classify (constraints : List (Node α)) : Result (ByCone (List (Node α))) :=
  return group (← Node.memberships 0 constraints)

/-- The key of a group of expressions: what it is looked up by, and how a message names it. -/
structure GroupKey where
  label : String
  shown : String
deriving DecidableEq, Repr

namespace GroupKey

def ofCone (c : Cone) : GroupKey := ⟨c.label, c.name⟩

/-- The key that a name stands for: a cone's, the semidefinite cone's, or the text itself. -/
def ofName (name : String) : GroupKey :=
  match NamedCone.ofName? name with
  | some c => ⟨c.label, c.name⟩
  | none => ⟨name, name⟩

end GroupKey

/-- Sets the members of a group; the first key with a label stays. -/
def putGroup {β : Type} (groups : List (GroupKey × β)) (key : GroupKey) (members : β) :
    List (GroupKey × β) :=
  match groups with
  | [] => [(key, members)]
  | g :: rest =>
    if g.1.label = key.label then (g.1, members) :: rest else g :: putGroup rest key members

def membersOf {β : Type} (groups : List (GroupKey × List β)) (c : Cone) : List β :=
  match groups.find? fun g => g.1.label == c.label with
  | some g => g.2
  | none => []

def ByCone.groups {β : Type} (t : ByCone β) : List (GroupKey × β) :=
  t.toList.map fun e => (GroupKey.ofCone e.1, e.2)

/-- Refuses members under a key that is no supported cone. -/
def requireSupported {β : Type} (groups : List (GroupKey × List β)) : Result Unit :=
  groups.forM fun g =>
    if (Cone.ofLabel? g.1.label).isNone && !g.2.isEmpty then
      throw (.unsupportedGroup g.1.shown g.2.length)
    else pure ()

def totalWidth (members : List (Node α)) : Result Nat := do
  return total (← members.mapM Node.width)

/-- The rows of each member from place `member` on, which must be columns. -/
def columnHeights (member : Nat) : List (Node α) → Result (List Nat)
  | [] => .ok []
  | n :: rest => do
    if !n.shape.isColumn then throw (.socNotColumn member n.shape)
    return n.shape.rows :: (← columnHeights (member + 1) rest)

/-- The dimensions of the cones: one total for each, but one entry for each second-order cone. -/
def dimensions (groups : List (GroupKey × List (Node α))) : Result (ByCone (List Nat)) := do
  requireSupported groups
  let eq ← totalWidth (membersOf groups .eq)
  let leq ← totalWidth (membersOf groups .leq)
  let soc ← columnHeights 0 (membersOf groups .soc)
  let exp ← totalWidth (membersOf groups .exp)
  return ⟨[eq], [leq], soc, [exp]⟩

structure RowRange where
  cone : Cone
  first : Int
  count : Nat
deriving DecidableEq, Repr

def firstRows (sizes : ByCone Int) : ByCone Int :=
  let leq := sizes.eq
  let soc := leq + sizes.leq
  ⟨0, leq, soc, soc + sizes.soc⟩

/-- The rows of the constraints from place `position` on, `next` being the next free row of each
cone. -/
def rowRangesFrom (next : ByCone Int) (position : Nat) : List (Node α) → Result (List RowRange)
  | [] => .ok []
  | n :: rest => do
    let c ← n.cone position
    match n.children with
    | [] => throw .missingPosition
    | x :: _ =>
      let count ← x.width
      let first := next.get c
      return ⟨c, first, count⟩ ::
        (← rowRangesFrom (next.set c (first + count)) (position + 1) rest)

def rowRanges (constraints : List (Node α)) (sizes : ByCone Int) : Result (List RowRange) :=
  rowRangesFrom (firstRows sizes) 0 constraints

def coneSizes (dims : ByCone (List Nat)) : ByCone Int := dims.map fun ns => (total ns : Int)

/-- The sizes of the cones from a table of dimensions by name, which must have every cone and no name that
is none. -/
def sizesOfTable (table : List (String × List Int)) : Result (ByCone Int) := do
  if table.any fun e => (NamedCone.ofName? e.1).isNone then throw .missingKey
  let size (c : Cone) : Result Int :=
    match Keyed.get? (Keyed.ofPairs table) c.name with
    | some ns => .ok (integerTotal ns)
    | none => .error .missingKey
  return ⟨← size .eq, ← size .leq, ← size .soc, ← size .exp⟩

end ConicForm
