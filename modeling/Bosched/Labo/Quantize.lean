/-
`time_quantization` of `LABO.jl`: the time indices are the points of a grid rounded to integers, and their weights the
distances between them. The points of the uniform grid are more than one apart; those of the exponential grid need not
be, and where no midpoint separates two of them the assertion of the function fails.
-/
import Bosched.Packing.JuliaStages
import Bosched.Lib.Folds
import Bosched.Labo.Numbers
import Mathlib.Analysis.Complex.ExponentialBounds

namespace Bosched

open Lib

namespace Julia

variable {D : Type} [LaboFloat D]

/-! ## `LABO.jl` -/

/-- `range(start, stop=stop, length=n)`. -/
def range (start stop : D) (n : Nat) : List D :=
  (List.range n).map fun i : Nat => start + LaboFloat.ofInt i * (stop - start) / LaboFloat.ofInt (n - 1 : Nat)

end Julia

end Bosched
