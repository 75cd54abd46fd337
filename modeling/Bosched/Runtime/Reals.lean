/-
Real arithmetic in the place of `double`, for the laws of the chunk-size rules.
-/
import Bosched.Runtime.Types
import Mathlib.Analysis.SpecialFunctions.Pow.Real

namespace Bosched

open Lib

namespace Numerals

-- a definition with these numerals refers to what they need by name
scoped instance atLeastTwo_two : Nat.AtLeastTwo 2 := ⟨le_refl 2⟩
scoped instance atLeastTwo_four : Nat.AtLeastTwo 4 := ⟨by decide⟩
scoped instance neZero_two : NeZero 2 := ⟨by decide⟩

end Numerals

/-- A real truncated towards zero. -/
noncomputable def truncateReal (x : ℝ) : Int := if 0 ≤ x then ⌊x⌋ else ⌈x⌉

/-- The out-of-range conversions are those of the rational instance. -/
noncomputable instance realDouble : CDouble ℝ where
  ofLong w := w.toInt
  ofULong w := w.toNat
  toLong x :=
    let z := truncateReal x
    if -2 ^ 63 ≤ z ∧ z < 2 ^ 63 then BitVec.ofInt 64 z else BitVec.intMin 64
  toULong x :=
    let z := truncateReal x
    if 0 ≤ z ∧ z < 2 ^ 64 then BitVec.ofInt 64 z else BitVec.intMin 64
  sqrt := Real.sqrt
  log := Real.log
  ceil x := ⌈x⌉
  pow := Real.rpow
  lt a b := decide (a < b)

/-- A real in range converts to its floor. -/
theorem toNat_toULong_real {x : ℝ} (h0 : 0 ≤ x) (h : x < 2 ^ 64) : (CDouble.toULong x).toNat = ⌊x⌋₊ := by
  have hfloor : ((⌊x⌋₊ : Nat) : Int) = ⌊x⌋ := Int.natCast_floor_eq_floor h0
  have hlt : ⌊x⌋₊ < 2 ^ 64 := (Nat.floor_lt h0).2 (by exact_mod_cast h)
  have hz : truncateReal x = (⌊x⌋₊ : Nat) := by
    unfold truncateReal
    rw [if_pos h0, hfloor]
  show BitVec.toNat (if 0 ≤ truncateReal x ∧ truncateReal x < 2 ^ 64 then BitVec.ofInt 64 (truncateReal x)
    else BitVec.intMin 64) = _
  rw [hz, if_pos ⟨by omega, by exact_mod_cast hlt⟩, BitVec.ofInt_natCast, BitVec.toNat_ofNat]
  exact Nat.mod_eq_of_lt hlt

theorem truncateReal_of_nonneg {x : ℝ} (h : 0 ≤ x) : truncateReal x = ⌊x⌋₊ := by
  unfold truncateReal
  rw [if_pos h, Int.natCast_floor_eq_floor h]

theorem toNat_toLong_real {x : ℝ} (h0 : 0 ≤ x) (h : x < 2 ^ 63) : (CDouble.toLong x).toNat = ⌊x⌋₊ := by
  have hlt : ⌊x⌋₊ < 2 ^ 63 := (Nat.floor_lt h0).2 (by exact_mod_cast h)
  show BitVec.toNat (if -2 ^ 63 ≤ truncateReal x ∧ truncateReal x < 2 ^ 63 then BitVec.ofInt 64 (truncateReal x)
    else BitVec.intMin 64) = _
  rw [truncateReal_of_nonneg h0, if_pos ⟨by omega, by exact_mod_cast hlt⟩, BitVec.ofInt_natCast, BitVec.toNat_ofNat]
  exact Nat.mod_eq_of_lt (by omega)

end Bosched
