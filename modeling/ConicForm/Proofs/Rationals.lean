import ConicForm.Residual
import Mathlib.Algebra.Order.Field.Rat
import Mathlib.Data.Rat.Sqrt

/-!
# Rational scalars

Rational numbers read every finite double exactly. They have no infinity and no not-a-number, which read as
zero, and only the norms that are rational are exact.
-/

namespace ConicForm

instance : OfDouble ℚ where
  ofDouble x :=
    let magnitude := mkRat (x.significand * Nat.pow 2 x.scale : Nat) (Nat.pow 2 1074)
    if x.isFinite then (if x.negative then -magnitude else magnitude) else 0

instance : Measured ℚ where
  norm x := Rat.sqrt (x.map fun y => y * y).sum
  positivePart x := if x < 0 then 0 else x
  above x y := x > y

example : (ofDouble ⟨0xc004000000000000⟩ : ℚ) = -5 / 2 := by decide +kernel

end ConicForm
