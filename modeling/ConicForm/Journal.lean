/-!
# Journals

What is noted down while a problem is stated and solved, in order, and the warnings that go to the
caller.
-/

namespace ConicForm

inductive Level where
  | debug
  | info
  | warning
deriving DecidableEq, Repr

namespace Level

def name : Level → String
  | .debug => "DEBUG"
  | .info => "INFO"
  | .warning => "WARNING"

end Level

inductive Origin where
  | layout
  | solve
  | clarabel
  | osqp
deriving DecidableEq, Repr

namespace Origin

def path : Origin → String
  | .layout => "conejax.canonicalize"
  | .solve => "conejax.api"
  | .clarabel => "conejax.solvers.clarabel_bridge"
  | .osqp => "conejax.solvers.osqp_bridge"

end Origin

structure Entry where
  level : Level
  origin : Origin
  text : String
deriving DecidableEq, Repr

structure Journal where
  entries : List Entry
  warnings : List String
deriving DecidableEq, Repr

namespace Journal

def empty : Journal := ⟨[], []⟩

def add (j : Journal) (e : Entry) : Journal := ⟨j.entries ++ [e], j.warnings⟩

def warn (j : Journal) (text : String) : Journal := ⟨j.entries, j.warnings ++ [text]⟩

end Journal

end ConicForm
