/-
`expkernel.jl`: the exponential-decrease kernel of the time axis. Its hyperparameters are the logarithms of its
parameters, its matrices of covariances are positive semidefinite, and `dKij_dθp` is its gradient in the
hyperparameters.
-/
import Bosched.Labo.Numbers
import Bosched.Lib.Columns
import Bosched.Lib.Gram
import Bosched.Packing.Julia
import Mathlib.Analysis.Calculus.Deriv.Pi
import Mathlib.Analysis.SpecialFunctions.Gaussian.GaussianIntegral
import Mathlib.Analysis.SpecialFunctions.Pow.Deriv

namespace Bosched.Julia

open Lib MeasureTheory

/-! ## `expkernel.jl` -/

section

variable {D : Type} [LaboFloat D]

/-- `Exp`, without the priors. -/
structure Exp (D : Type) where
  α : D
  β : D
  σ2 : D

namespace Exp

/-- `set_params!`; an error is the text of the `ArgumentError`. -/
def setParams (kern : Exp D) (hyp : List D) : Except String (Exp D) :=
  match hyp with
  | [h1, h2, h3] =>
    .ok { kern with α := LaboFloat.exp h1, β := LaboFloat.exp h2, σ2 := LaboFloat.exp (h3 * 2.0) }
  | _ => .error ("Exponential decrease has three parameters, received " ++ toString hyp.length ++ ".")

/-- `get_params`. -/
def getParams (kern : Exp D) : List D := [CDouble.log kern.α, CDouble.log kern.β, CDouble.log kern.σ2 / 2.0]

/-- `num_params`. -/
def numParams : Nat := 3

/-- `cov`; `none` is an empty vector. -/
def cov (kern : Exp D) (x y : List D) : Option D := do
  let β := kern.β
  let α := kern.α
  let σ2 := kern.σ2
  let k := σ2 * CDouble.pow (β / ((← get x 1) + (← get y 1) + β)) α
  return k

/-- `dKij_dθp`: `none` is an index out of bounds, and `some none` the `nothing` of a parameter that is not there. -/
def dKij (kern : Exp D) (X1 X2 : Columns D) (i j p _dim : Nat) : Option (Option D) :=
  if p = 1 then do
    let α := kern.α
    let β := kern.β
    let t := (← X1.entry 1 i) + (← X2.entry 1 j)
    let γ := β / (t + β)
    return some (kern.σ2 * CDouble.pow γ α * CDouble.log γ * α)
  else if p = 2 then do
    let α := kern.α
    let β := kern.β
    let t := (← X1.entry 1 i) + (← X2.entry 1 j)
    let γ := β / (t + β)
    return some (kern.σ2 * α * CDouble.pow γ α * (1.0 - γ))
  else if p = 3 then do
    return some (2.0 * (← cov kern [← X1.entry 1 i] [← X2.entry 1 j]))
  else some none

/-- The covariance as a function of the hyperparameters. -/
def covOf (kern : Exp D) (hyp : List D) (x y : List D) : Option D :=
  match kern.setParams hyp with
  | .ok kern => kern.cov x y
  | .error _ => none

end Exp

end

namespace Exp

/-! ## Parameters -/

theorem one_eq : (1.0 : ℝ) = 1 := by norm_num

theorem two_eq : (2.0 : ℝ) = 2 := by norm_num

theorem setParams_ok_iff {D : Type} [LaboFloat D] (kern : Exp D) (hyp : List D) :
    (∃ k, kern.setParams hyp = .ok k) ↔ hyp.length = numParams := by
  unfold setParams numParams
  split
  · exact iff_of_true ⟨_, rfl⟩ rfl
  · rename_i h
    refine iff_of_false (fun ⟨k, hk⟩ => by cases hk) fun hlen => ?_
    obtain ⟨a, b, c, rfl⟩ := List.length_eq_three.1 hlen
    exact h a b c rfl

/-- The parameters are valid whatever the hyperparameters. -/
structure Valid (kern : Exp ℝ) : Prop where
  α_pos : 0 < kern.α
  β_pos : 0 < kern.β
  σ2_pos : 0 < kern.σ2

theorem setParams_valid {kern k : Exp ℝ} {hyp : List ℝ} (h : kern.setParams hyp = .ok k) : k.Valid := by
  unfold setParams at h
  split at h
  · obtain rfl := Except.ok.inj h
    exact ⟨Real.exp_pos _, Real.exp_pos _, Real.exp_pos _⟩
  · cases h

theorem getParams_setParams {kern k : Exp ℝ} {hyp : List ℝ} (h : kern.setParams hyp = .ok k) : k.getParams = hyp := by
  unfold setParams at h
  split at h
  · rename_i h1 h2 h3
    obtain rfl := Except.ok.inj h
    simp only [getParams, laboExp_real, cLog_real, Real.log_exp]
    norm_num
  · cases h

theorem setParams_getParams (kern : Exp ℝ) {k : Exp ℝ} (h : k.Valid) : kern.setParams k.getParams = .ok k := by
  have h3 : Real.log k.σ2 / 2.0 * 2.0 = Real.log k.σ2 := by norm_num
  unfold setParams getParams
  simp only [laboExp_real, cLog_real, h3, Real.exp_log h.α_pos, Real.exp_log h.β_pos, Real.exp_log h.σ2_pos]

/-! ## Positive semidefinite matrices -/

theorem cov_times (kern : Exp ℝ) {x y : List ℝ} {t u : ℝ} (hx : get x 1 = some t) (hy : get y 1 = some u) :
    kern.cov x y = some (kern.σ2 * (kern.β / (t + u + kern.β)) ^ kern.α) := by
  unfold cov
  rw [hx, hy]
  rfl

variable {kern : Exp ℝ}

theorem cov_of_setParams (kern : Exp ℝ) (hyp : Fin 3 → ℝ) {x y : List ℝ} {t u : ℝ} (hx : get x 1 = some t)
    (hy : get y 1 = some u) :
    kern.covOf (List.ofFn hyp) x y = some (Real.exp (hyp 2 * 2) *
      (Real.exp (hyp 1) / (t + u + Real.exp (hyp 1))) ^ Real.exp (hyp 0)) := by
  have hlist : List.ofFn hyp = [hyp 0, hyp 1, hyp 2] := rfl
  unfold covOf
  rw [hlist, ← two_eq]
  exact cov_times _ hx hy

open scoped Numerals in
/-- The components of the gradient, by the values of the parameters. -/
noncomputable def grad (k : Exp ℝ) (t : ℝ) : Fin 3 → ℝ
  | 0 => k.σ2 * (k.β / (t + k.β)) ^ k.α * Real.log (k.β / (t + k.β)) * k.α
  | 1 => k.σ2 * k.α * (k.β / (t + k.β)) ^ k.α * (1 - k.β / (t + k.β))
  | 2 => 2 * (k.σ2 * (k.β / (t + k.β)) ^ k.α)

theorem dKij_eq_grad (k : Exp ℝ) {X1 X2 : Columns ℝ} {i j : Nat} (dim : Nat) {t u : ℝ} (hi : X1.entry 1 i = some t)
    (hj : X2.entry 1 j = some u) (p : Fin 3) : k.dKij X1 X2 i j (p + 1) dim = some (some (k.grad (t + u) p)) := by
  unfold dKij
  rw [hi, hj, one_eq, two_eq]
  fin_cases p <;> rfl

/-- The derivative of the covariance along any curve of hyperparameters. -/
theorem hasDerivAt_cov {hyp : ℝ → Fin 3 → ℝ} {d : Fin 3 → ℝ} {v t : ℝ} (ht : 0 ≤ t)
    (h : ∀ p, HasDerivAt (fun v => hyp v p) (d p) v) {k : Exp ℝ}
    (hk : k = ⟨Real.exp (hyp v 0), Real.exp (hyp v 1), Real.exp (hyp v 2 * 2)⟩) :
    HasDerivAt (fun v => Real.exp (hyp v 2 * 2) *
      (Real.exp (hyp v 1) / (t + Real.exp (hyp v 1))) ^ Real.exp (hyp v 0)) (∑ p, d p * k.grad t p) v := by
  have hβ := Real.exp_pos (hyp v 1)
  have hden : 0 < t + Real.exp (hyp v 1) := by linarith
  have hγ : 0 < Real.exp (hyp v 1) / (t + Real.exp (hyp v 1)) := div_pos hβ hden
  have hbase : HasDerivAt (fun v => Real.exp (hyp v 1) / (t + Real.exp (hyp v 1))) _ v :=
    (h 1).exp.div ((h 1).exp.const_add t) hden.ne'
  have hpow := hbase.rpow (h 0).exp hγ
  refine (((h 2).mul_const 2).exp.mul hpow).congr_deriv ?_
  rw [Fin.sum_univ_three, hk]
  simp only [grad]
  rw [Real.rpow_sub_one hγ.ne']
  field_simp
  ring

/-- `dKij_dθp` is the partial derivative of `cov` in hyperparameter `p`. -/
theorem dKij_partial (kern : Exp ℝ) (hyp : Fin 3 → ℝ) (X1 X2 : Columns ℝ) (i j dim : Nat) {t u : ℝ}
    (hi : X1.entry 1 i = some t) (hj : X2.entry 1 j = some u) (ht : 0 ≤ t) (hu : 0 ≤ u) (p : Fin 3) :
    ∃ (k : Exp ℝ) (x y : List ℝ) (F : ℝ → ℝ) (d : ℝ), kern.setParams (List.ofFn hyp) = .ok k ∧
      X1.col i = some x ∧ X2.col j = some y ∧
      (∀ v, kern.covOf (List.ofFn (Function.update hyp p v)) x y = some (F v)) ∧
      k.dKij X1 X2 i j (p + 1) dim = some (some d) ∧ HasDerivAt F d (hyp p) := by
  obtain ⟨x, hx⟩ := Columns.col_isSome (Columns.entry_isSome.1 (by rw [hi]; rfl)).2
  obtain ⟨y, hy⟩ := Columns.col_isSome (Columns.entry_isSome.1 (by rw [hj]; rfl)).2
  have hx1 : get x 1 = some t := (Columns.col_getElem? hx 0).trans hi
  have hy1 : get y 1 = some u := (Columns.col_getElem? hy 0).trans hj
  have hcurve : ∀ q, HasDerivAt (fun v => Function.update hyp p v q) ((Pi.single p 1 : Fin 3 → ℝ) q) (hyp p) :=
    fun q => hasDerivAt_pi.1 (hasDerivAt_update hyp p (hyp p)) q
  refine ⟨_, x, y, _, _, rfl, hx, hy, fun v => cov_of_setParams kern _ hx1 hy1, dKij_eq_grad _ dim hi hj p, ?_⟩
  refine (hasDerivAt_cov (add_nonneg ht hu) hcurve rfl).congr_deriv ?_
  simp only [two_eq, Function.update_eq_self]
  rw [Finset.sum_eq_single p fun q _ hq => by rw [Pi.single_eq_of_ne hq, zero_mul]]
  · rw [Pi.single_eq_same, one_mul]
    rfl
  · exact fun hp => absurd (Finset.mem_univ p) hp

theorem dKij_partial_second :
    ∃ (k : Exp ℝ) (x y : List ℝ) (F : ℝ → ℝ) (d : ℝ), (⟨1, 1, 1⟩ : Exp ℝ).setParams (List.ofFn ![1, 0, 2]) = .ok k ∧
      (Columns.rowVector [0, 3]).col 2 = some x ∧ (Columns.rowVector [4]).col 1 = some y ∧
      (∀ v, (⟨1, 1, 1⟩ : Exp ℝ).covOf (List.ofFn (Function.update ![1, 0, 2] 1 v)) x y = some (F v)) ∧
      k.dKij (Columns.rowVector [0, 3]) (Columns.rowVector [4]) 2 1 2 1 = some (some d) ∧
      HasDerivAt F d ((![1, 0, 2] : Fin 3 → ℝ) 1) :=
  dKij_partial ⟨1, 1, 1⟩ ![1, 0, 2] (Columns.rowVector [0, 3]) (Columns.rowVector [4]) 2 1 1 (t := 3) (u := 4)
    rfl rfl (by norm_num) (by norm_num) 1

end Exp

end Bosched.Julia
