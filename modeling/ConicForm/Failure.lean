import ConicForm.Diagnosis
import ConicForm.Shape

/-!
# Failures

Every way in which a request can be refused, by its cause. `Failure.message` holds the wording; causes
that come from the arithmetic on arrays have none. `Failure.category` sorts the causes.
-/

namespace ConicForm

inductive Failure where
  -- Shapes
  | shapeNotSequence (v : Value)
  | shapeNotPair (v : Value)
  | dimensionNotInteger (axis : Nat) (v : Value)
  | dimensionNotPositive (axis : Nat) (n : Int)
  | tooManyDimensions (shape : Value)
  | tooManyItems
  | notEnoughItems (count : Nat)
  | shapesDiffer (left right : Value)
  | innerDimensionsDiffer (left right inner outer : Value)
  | unevenSequence (dims : List Nat)
  | emptyTruth
  | ambiguousTruth
  -- Indices
  | indexOutOfBounds (key : Value) (dim : Int)
  | notAnIndex (key : Value)
  | emptySelection (key : Value) (dim : Int)
  | zeroStep
  | negativeLength
  -- Nodes
  | unknownKind (kind : Value)
  | variableIdNotInteger (id : Value)
  | noTerms
  | nothingToStack (stack : String)
  | stackMismatch (stack axis : String) (first other : Shape)
  | divisionByZero
  | promotedNotScalar (shape : Shape)
  | traceNotSquare (shape : Shape)
  | sizeChanges (shape : Shape) (wanted : Value)
  | notANumeral (text : String)
  -- Problem definitions
  | idNotInteger (id : String)
  | unsupportedCone (position : Int) (kind : String)
  | unsupportedGroup (kind : String) (members : Nat)
  | wrongArity (position : Nat) (kind : String) (children : Nat)
  | socNotColumn (member : Nat) (shape : Shape)
  | expNotTriples (member : Nat) (shape : Shape)
  | inconsistentVariable (id : Int) (first other : Value)
  | unsupportedNode (kind : String) (shape : Shape) (isConstraint : Bool)
  | objectiveNotScalar (shape : Shape)
  -- Solving
  | unknownSolver (name : Value)
  | unknownSetting (name : String)
  | readOnlySetting
  | conesNotSupported (names : List String)
  -- Arithmetic and arrays
  | wrongType
  | mismatch
  | ragged
  | tooDeep
  | unreadable
  | nothingToJoin
  | cannotStretch
  | badIndex
  | tooLarge
  | zeroDivisor
  | missingKey
  | missingPosition
  | missingProperty
deriving DecidableEq, Repr

namespace Failure

/-- The sorts of failure that a caller tells apart. -/
inductive Category where
  | value
  | unsupportedCone
  | malformedConstraint
  | inconsistentSize
  | unsupportedNode
  | wrongType
  | tooLarge
  | zeroDivisor
  | missingKey
  | missingPosition
  | missingProperty
deriving DecidableEq, Repr

def category : Failure → Category
  | .unsupportedCone _ _ => .unsupportedCone
  | .unsupportedGroup _ _ => .unsupportedCone
  | .wrongArity _ _ _ => .malformedConstraint
  | .socNotColumn _ _ => .malformedConstraint
  | .expNotTriples _ _ => .malformedConstraint
  | .inconsistentVariable _ _ _ => .inconsistentSize
  | .unsupportedNode _ _ _ => .unsupportedNode
  | .wrongType => .wrongType
  | .mismatch => .wrongType
  | .tooLarge => .tooLarge
  | .zeroDivisor => .zeroDivisor
  | .missingKey => .missingKey
  | .missingPosition => .missingPosition
  | .missingProperty => .missingProperty
  | .readOnlySetting => .missingProperty
  | _ => .value

/-- The diagnosis of a malformed problem definition. -/
def diagnosis? : Failure → Option Diagnosis
  | .unsupportedCone position kind =>
    some ⟨"UnsupportedConeKind", [("constraint", toString position), ("kind", kind)],
      some "supported cones are EQ, LEQ, SOC, EXP"⟩
  | .unsupportedGroup kind members =>
    some ⟨"UnsupportedConeKind", [("kind", kind), ("members", toString members)], none⟩
  | .wrongArity position kind children =>
    some ⟨"MalformedConstraint",
      [("constraint", toString position), ("kind", kind), ("children", toString children)],
      some "a constraint node wraps exactly one expression"⟩
  | .socNotColumn member shape =>
    some ⟨"MalformedConstraint", [("soc constraint", toString member), ("shape", shape.text)],
      some "second-order cone constraints must be columns"⟩
  | .expNotTriples member shape =>
    some ⟨"MalformedConstraint", [("exp constraint", toString member), ("shape", shape.text)],
      some "exponential cone constraints have one (x, y, z) column per cone"⟩
  | .inconsistentVariable id first other =>
    some ⟨"InconsistentVariableSize",
      [("variable id", toString id), ("shapes", first.shown ++ " and " ++ other.shown)],
      some "every leaf of a variable must carry that variable's shape"⟩
  | .unsupportedNode kind shape isConstraint =>
    some ⟨"UnsupportedLinOpKind", [("kind", kind), ("shape", shape.text)],
      if isConstraint then some "constraint nodes may only appear at the root of a constraint tree"
      else none⟩
  | _ => none

/-- The wording of a failure that is not a diagnosis. -/
def sentence? : Failure → Option String
  | .shapeNotSequence v => some ("Shape must be tuple or list, got " ++ v.typeText)
  | .shapeNotPair v => some ("Shape must be a (rows, cols) pair, got " ++ v.shown)
  | .dimensionNotInteger axis v =>
    some ("Shape dimension " ++ toString axis ++ " must be integer, got " ++ v.typeText)
  | .dimensionNotPositive axis n =>
    some ("Shape dimension " ++ toString axis ++ " must be positive, got " ++ toString n)
  | .tooManyDimensions shape =>
    some ("Constants must have at most 2 dimensions, got shape " ++ shape.shown)
  | .tooManyItems => some "too many values to unpack (expected 2)"
  | .notEnoughItems count =>
    some ("not enough values to unpack (expected 2, got " ++ toString count ++ ")")
  | .shapesDiffer left right => some ("Incompatible shapes " ++ left.shown ++ " and " ++ right.shown)
  | .innerDimensionsDiffer left right inner outer =>
    some ("Cannot multiply shapes " ++ left.shown ++ " and " ++ right.shown ++
      ": inner dimensions " ++ inner.shown ++ " and " ++ outer.shown ++ " differ")
  | .unevenSequence dims =>
    some ("setting an array element with a sequence. The requested array has an inhomogeneous shape " ++
      "after " ++ toString dims.length ++ " dimensions. The detected shape was " ++
      (Value.tuple (dims.map fun n : Nat => .int n)).shown ++ " + inhomogeneous part.")
  | .emptyTruth =>
    some ("The truth value of an empty array is ambiguous. " ++
      "Use \x60array.size > 0\x60 to check that an array is not empty.")
  | .ambiguousTruth =>
    some ("The truth value of an array with more than one element is ambiguous. " ++
      "Use a.any() or a.all()")
  | .indexOutOfBounds key dim =>
    some ("Index " ++ key.shown ++ " out of bounds for axis of length " ++ toString dim)
  | .notAnIndex key => some ("Index must be int or slice, got " ++ key.typeText)
  | .emptySelection key dim =>
    some ("Index " ++ key.shown ++ " selects no elements from axis of length " ++ toString dim)
  | .zeroStep => some "slice step cannot be zero"
  | .negativeLength => some "length should not be negative"
  | .unknownKind kind => some ("Unknown node kind: " ++ kind.nested)
  | .variableIdNotInteger id => some ("Variable id must be an int, got " ++ id.typeText)
  | .noTerms => some "sum_expr needs at least one term"
  | .nothingToStack stack => some (stack ++ " needs at least one expression")
  | .stackMismatch stack axis first other =>
    some (stack ++ " " ++ axis ++ " mismatch: " ++ first.text ++ " and " ++ other.text)
  | .divisionByZero => some "Division by zero in div_expr"
  | .promotedNotScalar shape =>
    some ("Only scalar expressions can be promoted, got shape " ++ shape.text)
  | .traceNotSquare shape => some ("Trace needs a square expression, got shape " ++ shape.text)
  | .sizeChanges shape wanted => some ("Cannot reshape " ++ shape.text ++ " to " ++ wanted.shown)
  | .notANumeral text => some ("could not convert string to float: " ++ Text.quoted text)
  | .idNotInteger id => some ("Variable node carries non-integer id " ++ id)
  | .objectiveNotScalar shape => some ("Objective must be scalar, got shape " ++ shape.text)
  | .unknownSolver name =>
    some ("Unknown solver " ++ name.nested ++ "; expected 'clarabel' or 'osqp'")
  | .unknownSetting name => some ("Unknown Clarabel setting " ++ Text.quoted name)
  | .conesNotSupported names =>
    some ("OSQP solver only supports EQ and LEQ constraints. Problem has " ++
      ", ".intercalate names ++ " constraints; use solver='clarabel'.")
  | _ => none

def message (f : Failure) : Option String :=
  match f.diagnosis? with
  | some d => some d.render
  | none => f.sentence?

end Failure

/-- The answer of a step that may be refused. -/
abbrev Result (α : Type) := Except Failure α

end ConicForm
