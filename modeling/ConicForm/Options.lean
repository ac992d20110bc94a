import ConicForm.Failure
import ConicForm.Keyed

/-!
# Solver options

Options are loose values by name, handed through to the solver. The names of the arguments that every
run is given are not free.
-/

namespace ConicForm

abbrev Options := List (String × Value)

namespace Options

def getOr (options : Options) (name : String) (default : Value) : Value :=
  (Keyed.get? options name).getD default

def without (options : Options) (names : List String) : Options :=
  options.filter fun e => !names.contains e.1

def sorted (options : Options) : Options := options.mergeSort fun a b => a.1 ≤ b.1

/-- Refuses options that name a run's own arguments. -/
def requireFree (options : Options) : Result Unit :=
  if options.any fun e => e.1 = "program" || e.1 = "descriptor" then .error .wrongType else .ok ()

end Options

end ConicForm
