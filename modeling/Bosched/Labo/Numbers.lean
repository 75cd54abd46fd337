/-
The numbers of the tuner: `Float64` as an interface, and real arithmetic in its place.
-/
import Bosched.Lib.HalfEven
import Bosched.Runtime.Exact
import Bosched.Runtime.Reals

namespace Bosched

open Lib

/-- The `Float64` of the tuner, with the conversion from `Int64`, `exp`, and `round(Int64, x, RoundNearest)`. -/
class LaboFloat (D : Type) extends CDouble D where
  ofInt : Int → D
  exp : D → D
  roundNearest : D → Int

noncomputable instance realLabo : LaboFloat ℝ where
  ofInt z := z
  exp := Real.exp
  roundNearest := halfEven

/-- Rational numbers to execute the model; `exp` is rough away from zero. -/
instance exactLabo : LaboFloat ℚ where
  ofInt z := z
  exp x := 1 + x + x * x / 2
  roundNearest := halfEven

@[simp] theorem laboExp_real (x : ℝ) : LaboFloat.exp x = Real.exp x := rfl

@[simp] theorem cLog_real (x : ℝ) : CDouble.log x = Real.log x := rfl

@[simp] theorem cPow_real (x y : ℝ) : CDouble.pow x y = x ^ y := rfl

end Bosched
