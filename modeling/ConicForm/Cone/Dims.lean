import ConicForm.Cone
import ConicForm.Total
import ConicForm.Value.Printer

/-!
# Cone dimensions

The sizes of the cones of a program as a solver takes them: rows of the zero cone and of the nonnegative
orthant, the rows of each second-order cone, and the number of three-dimensional exponential cones. Sizes
that somebody states may be any integers.
-/

namespace ConicForm

structure ConeDims where
  zero : Int
  nonneg : Int
  soc : List Int
  exp : Int
deriving DecidableEq, Inhabited, Repr

namespace ConeDims

def rows (d : ConeDims) : ByCone Int := ⟨d.zero, d.nonneg, integerTotal d.soc, 3 * d.exp⟩

def text (d : ConeDims) : String :=
  "\x7b'zero': " ++ toString d.zero ++ ", 'nonneg': " ++ toString d.nonneg ++ ", 'soc': " ++
    (Value.list (d.soc.map Value.int)).nested ++ ", 'exp': " ++ toString d.exp ++ "\x7d"

end ConeDims

end ConicForm
