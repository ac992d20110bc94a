import ConicForm.Tensor.Rows
import ConicForm.Value.Order

/-!
# Arrays of numbers

An array holds truth values, words or reals. Operations on arrays of two sorts are done in the wider one:
reals with anything are reals, and words with truth values are words. Sums of truth values are
disjunctions, products conjunctions; sums, products and negations of words wrap to sixty-four bits.
-/

namespace ConicForm

/-- No truth is the zero of truth values. -/
local instance zeroTruth : Zero Bool := ⟨false⟩

local instance zeroWord : Zero Int := ⟨0⟩

inductive Numbers (α : Type) where
  | truths (t : Tensor Bool)
  | words (t : Tensor Int)
  | reals (t : Tensor α)
deriving DecidableEq

namespace Numbers

variable {α : Type}

def dims : Numbers α → List Nat
  | .truths t => t.dims
  | .words t => t.dims
  | .reals t => t.dims

def rank (a : Numbers α) : Nat := a.dims.length

def length (a : Numbers α) : Nat := a.dims.headD 1

def shapeValue (a : Numbers α) : Value := .tuple (a.dims.map fun n : Nat => .int n)

def shape (a : Numbers α) : Shape := ⟨a.dims.getD 0 1, a.dims.getD 1 1⟩

def wordsOfTruths (t : Tensor Bool) : Tensor Int := t.map Value.ofBool

def realsOfWords [OfDouble α] (t : Tensor Int) : Tensor α := t.map fun n => ofDouble (Double.nearest n)

def toReals [OfDouble α] : Numbers α → Tensor α
  | .truths t => realsOfWords (wordsOfTruths t)
  | .words t => realsOfWords t
  | .reals t => t

/-- The real of an array with a single entry and no axis. -/
def toScalar [OfDouble α] (a : Numbers α) : Result α :=
  if a.rank = 0 then
    match a.toReals.toList with
    | x :: _ => .ok x
    | [] => .error .wrongType
  else .error .wrongType

def onEach [Zero α] (f : ∀ {β : Type} [Zero β], Tensor β → Result (Tensor β)) :
    Numbers α → Result (Numbers α)
  | .truths t => return .truths (← f t)
  | .words t => return .words (← f t)
  | .reals t => return .reals (← f t)

def combine [Zero α] [OfDouble α] (onTruths : Bool → Bool → Bool) (onWords : Int → Int → Int)
    (onReals : α → α → α) (a b : Numbers α) : Result (Numbers α) :=
  match a, b with
  | .truths s, .truths t => return .truths (← s.zipWith onTruths t)
  | .truths s, .words t => return .words (← (wordsOfTruths s).zipWith onWords t)
  | .words s, .truths t => return .words (← s.zipWith onWords (wordsOfTruths t))
  | .words s, .words t => return .words (← s.zipWith onWords t)
  | a, b => return .reals (← a.toReals.zipWith onReals b.toReals)

def plus [Zero α] [Add α] [OfDouble α] (a b : Numbers α) : Result (Numbers α) :=
  combine or (fun m n => Value.wrapWord (m + n)) (· + ·) a b

def times [Zero α] [Mul α] [OfDouble α] (a b : Numbers α) : Result (Numbers α) :=
  combine and (fun m n => Value.wrapWord (m * n)) (· * ·) a b

/-- Truth values have no negation. -/
def negated [Neg α] : Numbers α → Result (Numbers α)
  | .truths _ => .error .wrongType
  | .words t => .ok (.words (t.map fun n => Value.wrapWord (-n)))
  | .reals t => .ok (.reals (t.map Neg.neg))

/-- The entries in the order in which the first index moves fastest, as an array with one axis. -/
def vec [Zero α] : Numbers α → Numbers α
  | .truths t => .truths (.ofList t.vec)
  | .words t => .words (.ofList t.vec)
  | .reals t => .reals (.ofList t.vec)

/-- The array with two axes that a constant of no, one or two axes stands for. -/
def asConstant [Zero α] (a : Numbers α) (vectorAsRow : Bool) : Result (Numbers α) :=
  a.onEach fun t => t.asConstant vectorAsRow

/-- The only entry, if the array has two axes of one place each, as an array without axes. -/
def single? (a : Numbers α) : Option (Numbers α) :=
  match a with
  | .truths t => if h : t.dims = [1, 1] then some (.truths (t.withDims [] (by simp [h, volume]))) else none
  | .words t => if h : t.dims = [1, 1] then some (.words (t.withDims [] (by simp [h, volume]))) else none
  | .reals t => if h : t.dims = [1, 1] then some (.reals (t.withDims [] (by simp [h, volume]))) else none

/-- The rows of at least one array, one array after the other, in the widest of their sorts. -/
def joinRows [Zero α] [OfDouble α] (as : List (Numbers α)) : Result (Numbers α) :=
  let truths? : Numbers α → Option (Tensor Bool)
    | .truths t => some t
    | _ => none
  let words? : Numbers α → Option (Tensor Int)
    | .truths t => some (wordsOfTruths t)
    | .words t => some t
    | .reals _ => none
  match as.mapM truths? with
  | some ts => return .truths (← Tensor.joinRows ts)
  | none =>
    match as.mapM words? with
    | some ts => return .words (← Tensor.joinRows ts)
    | none => return .reals (← Tensor.joinRows (as.map toReals))

def row [Zero α] (a : Numbers α) (place : Nat) : Numbers α :=
  match a with
  | .truths t => .truths (t.row place)
  | .words t => .words (t.row place)
  | .reals t => .reals (t.row place)

def sliceRows [Zero α] (a : Numbers α) (start stop : Int) : Numbers α :=
  match a with
  | .truths t => .truths (t.sliceRows start stop)
  | .words t => .words (t.sliceRows start stop)
  | .reals t => .reals (t.sliceRows start stop)

/-- One entry that fills `size` places: an array without axes, or one that is repeated. -/
def filling [Zero α] (a : Numbers α) (size : Nat) : Result (Numbers α) :=
  if 1 < a.rank then .error .cannotStretch else a.onEach fun t => t.repeatTo [size]

end Numbers

end ConicForm
