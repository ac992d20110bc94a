/-!
# Cones

The cones that a constraint may ask for, in the order in which their rows are laid out, and tables with
one entry for each of them.
-/

namespace ConicForm

/-- The zero cone, the nonpositive values, the second-order cone and the exponential cone. -/
inductive Cone where
  | eq
  | leq
  | soc
  | exp
deriving DecidableEq, Repr, Inhabited

namespace Cone

/-- The cones in row order. -/
def all : List Cone := [.eq, .leq, .soc, .exp]

def label : Cone → String
  | .eq => "eq"
  | .leq => "leq"
  | .soc => "soc"
  | .exp => "exp"

def name : Cone → String
  | .eq => "EQ"
  | .leq => "LEQ"
  | .soc => "SOC"
  | .exp => "EXP"

def ofLabel? (s : String) : Option Cone := all.find? fun c => c.label == s

theorem mem_all (c : Cone) : c ∈ all := by cases c <;> decide

end Cone

/-- A cone by name: a supported one, or the semidefinite cone, which is known but not supported. -/
inductive NamedCone where
  | supported (c : Cone)
  | semidefinite
deriving DecidableEq, Repr, Inhabited

namespace NamedCone

def all : List NamedCone := Cone.all.map supported ++ [semidefinite]

def label : NamedCone → String
  | .supported c => c.label
  | .semidefinite => "sdp"

def name : NamedCone → String
  | .supported c => c.name
  | .semidefinite => "SDP"

def ofName? (name : String) : Option NamedCone := all.find? fun c => c.name == name

end NamedCone

structure ByCone (β : Type) where
  eq : β
  leq : β
  soc : β
  exp : β
deriving DecidableEq, Repr

namespace ByCone

variable {β γ : Type}

def get (t : ByCone β) : Cone → β
  | .eq => t.eq
  | .leq => t.leq
  | .soc => t.soc
  | .exp => t.exp

def ofFn (f : Cone → β) : ByCone β := ⟨f .eq, f .leq, f .soc, f .exp⟩

def set (t : ByCone β) (c : Cone) (x : β) : ByCone β := ofFn fun d => if d = c then x else t.get d

def map (f : β → γ) (t : ByCone β) : ByCone γ := ofFn fun c => f (t.get c)

def toList (t : ByCone β) : List (Cone × β) := Cone.all.map fun c => (c, t.get c)

@[simp] theorem get_ofFn (f : Cone → β) (c : Cone) : (ofFn f).get c = f c := by cases c <;> rfl

@[simp] theorem get_map (f : β → γ) (t : ByCone β) (c : Cone) : (t.map f).get c = f (t.get c) := by
  simp [map]

@[simp] theorem get_set (t : ByCone β) (c d : Cone) (x : β) :
    (t.set c x).get d = if d = c then x else t.get d := by simp [set]

theorem ext_get {s t : ByCone β} (h : ∀ c, s.get c = t.get c) : s = t := by
  cases s
  cases t
  have he := h .eq
  have hl := h .leq
  have hs := h .soc
  have hx := h .exp
  simp_all [get]

end ByCone

end ConicForm
