import ConicForm.Block

/-!
# The value of a block

What a block is as an affine map: its value where each variable has a given column, row by row the sum of
the coefficients' products with the columns and the offset.
-/

namespace ConicForm.Block

variable {α : Type} [Zero α] [Add α] [Mul α] [OfDouble α]

def linearPart (b : Block α) (x : Label → List α) (i : Nat) : α :=
  (b.coeffs.map fun e => Matrix.dot (e.2.asRows.row i) (x e.1)).sum

/-- The value where the variable with label `l` has the column `x l`. -/
def value (b : Block α) (x : Label → List α) : List α :=
  (List.range b.size).map fun i => b.linearPart x i + b.offset.toReals.toList.getD i 0

end ConicForm.Block
