/-
What the arithmetic of `double` guarantees on the numbers of the chunk-size computations: values
that are small integers, or halves of them, are exact, and a quotient is rounded to the nearest.
-/
import Bosched.Runtime.Exact

namespace Bosched

open Lib

variable {D : Type} [CDouble D]

/-- `val a x` says that `a` is finite with value `x`. IEEE arithmetic in the default rounding mode
has these properties, as has exact arithmetic. -/
structure Rounds (val : D → ℚ → Prop) : Prop where
  ofLong : ∀ {w : Word}, |w.toInt| ≤ 2 ^ 53 → val (CDouble.ofLong w) w.toInt
  three_halves : val 1.5 (3 / 2)
  mul : ∀ {a b x y} {z : Int}, val a x → val b y → x * y = z / 2 → |z| ≤ 2 ^ 53 → val (a * b) (x * y)
  div_exact : ∀ {a b x y} {z : Int}, val a x → val b y → y ≠ 0 → x / y = z → |z| ≤ 2 ^ 53 → val (a / b) (x / y)
  div : ∀ {a b x y}, val a x → val b y → y ≠ 0 → 1 / 2 ^ 64 ≤ |x / y| → |x / y| ≤ 2 ^ 64 →
    ∃ q, val (a / b) q ∧ |q - x / y| ≤ |x / y| / 2 ^ 53
  ceil : ∀ {a x}, val a x → |x| ≤ 2 ^ 53 → val (CDouble.ceil a) ⌈x⌉
  toLong : ∀ {a} {z : Int}, val a z → |z| ≤ 2 ^ 53 → (CDouble.toLong a).toInt = z

/-- Exact arithmetic rounds nothing. -/
theorem rounds_exact : Rounds (D := ℚ) (fun a x => a = x) where
  ofLong _ := rfl
  three_halves := by show (1.5 : ℚ) = 3 / 2; norm_num
  mul := by rintro _ _ _ _ _ rfl rfl _ _; rfl
  div_exact := by rintro _ _ _ _ _ rfl rfl _ _ _; rfl
  div := by
    rintro a b _ _ rfl rfl _ _ _
    refine ⟨a / b, rfl, ?_⟩
    rw [sub_self, abs_zero]
    positivity
  ceil := by
    rintro a _ rfl _
    have hceil : a.ceil = ⌈a⌉ := le_antisymm (Rat.ceil_le_iff.2 (Int.le_ceil a)) (Int.ceil_le.2 (Rat.ceil_le_iff.1 le_rfl))
    show ((a.ceil : Int) : ℚ) = ⌈a⌉
    rw [hceil]
  toLong := by
    rintro _ z rfl hz
    have hz' := abs_le.1 hz
    have htrunc : truncate (z : ℚ) = z := by
      unfold truncate
      simp
    show (if -2 ^ 63 ≤ truncate (z : ℚ) ∧ truncate (z : ℚ) < 2 ^ 63 then BitVec.ofInt 64 (truncate (z : ℚ))
      else BitVec.intMin 64).toInt = z
    rw [htrunc, if_pos (by omega)]
    exact toInt_ofInt_fits (by omega) (by omega)

/-- Rounding does not carry the quotient of a 32-bit weight across an integer. -/
theorem Rounds.ceil_div {val : D → ℚ → Prop} (h : Rounds val) {w P : Word} (hw : 0 ≤ w.toInt ∧ w.toInt < 2 ^ 32)
    (hP : 1 ≤ P.toInt ∧ P.toInt < 2 ^ 31) :
    (CDouble.toLong (CDouble.ceil (CDouble.ofLong w / (1.5 * CDouble.ofLong P) : D))).toInt =
      ⌈(w.toInt : ℚ) / (3 / 2 * P.toInt)⌉ := by
  obtain ⟨hw0, hw1⟩ := hw
  obtain ⟨hP0, hP1⟩ := hP
  have hPq : (1 : ℚ) ≤ P.toInt := by exact_mod_cast hP0
  have hwq : (w.toInt : ℚ) ≤ 2 ^ 32 := by exact_mod_cast le_of_lt hw1
  have hwq0 : (0 : ℚ) ≤ w.toInt := by exact_mod_cast hw0
  have hden : val (1.5 * CDouble.ofLong P) (3 / 2 * P.toInt) :=
    h.mul (z := 3 * P.toInt) h.three_halves (h.ofLong (by rw [abs_of_nonneg (by omega)]; omega))
      (by push_cast; ring) (by rw [abs_of_nonneg (by omega)]; omega)
  have hnum : val (CDouble.ofLong w) w.toInt := h.ofLong (by rw [abs_of_nonneg hw0]; omega)
  have hy : (3 / 2 * P.toInt : ℚ) ≠ 0 := by positivity
  set q : ℚ := (w.toInt : ℚ) / (3 / 2 * P.toInt) with hq
  have hq0 : 0 ≤ q := by positivity
  have hqle : q ≤ 2 ^ 32 := by
    rw [hq, div_le_iff₀ (by positivity)]
    nlinarith
  -- the value of the quotient as the program has it
  have hquot : ∃ q', val (CDouble.ofLong w / (1.5 * CDouble.ofLong P)) q' ∧ ⌈q'⌉ = ⌈q⌉ ∧ |q'| ≤ 2 ^ 53 := by
    have hceil := Int.le_ceil q
    have hceil' := Int.ceil_lt_add_one q
    by_cases hint : q = ⌈q⌉
    · have hz : |⌈q⌉| ≤ 2 ^ 53 := by
        have : (⌈q⌉ : ℚ) ≤ 2 ^ 32 := by rw [← hint]; exact hqle
        have h1 : ⌈q⌉ ≤ 2 ^ 32 := by exact_mod_cast this
        have h0 : 0 ≤ ⌈q⌉ := Int.ceil_nonneg hq0
        rw [abs_of_nonneg h0]
        omega
      refine ⟨q, h.div_exact hnum hden hy hint hz, rfl, ?_⟩
      rw [abs_of_nonneg hq0]
      linarith
    · -- an integer is at least `1 / 3P` away
      have hw1' : 1 ≤ w.toInt := by
        by_contra hcon
        have hw0' : w.toInt = 0 := by omega
        rw [hq, hw0'] at hint
        simp at hint
      have hwq1 : (1 : ℚ) ≤ w.toInt := by exact_mod_cast hw1'
      have hscale : q * (3 * P.toInt) = 2 * w.toInt := by
        rw [hq]
        field_simp
      have hgap : 1 ≤ (⌈q⌉ - q) * (3 * P.toInt) := by
        have hpos : 0 < (⌈q⌉ - q) * (3 * P.toInt) :=
          mul_pos (sub_pos.2 (lt_of_le_of_ne hceil hint)) (by positivity)
        rw [sub_mul, hscale] at hpos ⊢
        have : 0 < ⌈q⌉ * (3 * P.toInt) - 2 * w.toInt := by exact_mod_cast hpos
        exact_mod_cast (by omega : 1 ≤ ⌈q⌉ * (3 * P.toInt) - 2 * w.toInt)
      have hgap' : 1 ≤ (q - (⌈q⌉ - 1)) * (3 * P.toInt) := by
        have hpos : 0 < (q - (⌈q⌉ - 1)) * (3 * P.toInt) := mul_pos (by linarith) (by positivity)
        rw [sub_mul, hscale] at hpos ⊢
        have : 0 < 2 * w.toInt - (⌈q⌉ - 1) * (3 * P.toInt) := by exact_mod_cast hpos
        exact_mod_cast (by omega : 1 ≤ 2 * w.toInt - (⌈q⌉ - 1) * (3 * P.toInt))
      have hsmall : q / 2 ^ 53 * (3 * P.toInt) < 1 := by
        rw [div_mul_eq_mul_div, hscale, div_lt_one (by positivity)]
        linarith
      have hqlow : 1 / 2 ^ 64 ≤ q := by
        rw [hq, div_le_div_iff₀ (by positivity) (by positivity)]
        have : (P.toInt : ℚ) ≤ 2 ^ 31 := by exact_mod_cast le_of_lt hP1
        nlinarith
      obtain ⟨q', hval, herr⟩ := h.div hnum hden hy (by rw [← hq, abs_of_nonneg hq0]; exact hqlow)
        (by rw [← hq, abs_of_nonneg hq0]; linarith)
      rw [← hq, abs_of_nonneg hq0] at herr
      have herr' := abs_le.1 herr
      have hP3 : (0 : ℚ) < 3 * P.toInt := by positivity
      have hup : q' < ⌈q⌉ := by
        have : q / 2 ^ 53 < ⌈q⌉ - q := lt_of_mul_lt_mul_right (lt_of_lt_of_le hsmall hgap) (le_of_lt hP3)
        linarith
      have hlow : (⌈q⌉ : ℚ) - 1 < q' := by
        have : q / 2 ^ 53 < q - (⌈q⌉ - 1) := lt_of_mul_lt_mul_right (lt_of_lt_of_le hsmall hgap') (le_of_lt hP3)
        linarith
      refine ⟨q', hval, Int.ceil_eq_iff.2 ⟨hlow, le_of_lt hup⟩, ?_⟩
      have h2 : (⌈q⌉ : ℚ) ≤ 2 ^ 32 + 1 := by linarith
      have h0 : (0 : ℚ) ≤ ⌈q⌉ := by exact_mod_cast Int.ceil_nonneg hq0
      exact abs_le.2 ⟨by linarith, by linarith⟩
  obtain ⟨q', hval, hceil, hbound⟩ := hquot
  have hz : |⌈q⌉| ≤ 2 ^ 53 := by
    have h0 : 0 ≤ ⌈q⌉ := Int.ceil_nonneg hq0
    have h1 : ⌈q⌉ ≤ 2 ^ 32 := Int.ceil_le.2 (by exact_mod_cast hqle)
    rw [abs_of_nonneg h0]
    omega
  have hc := h.ceil hval hbound
  rw [hceil] at hc
  exact h.toLong hc hz

end Bosched
