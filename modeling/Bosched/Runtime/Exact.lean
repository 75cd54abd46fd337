/-
Rational arithmetic in the place of `double`, to execute the model. The four operations are exact
and the conversions truncate, with the out-of-range results of x86-64; `sqrt`, `log` and `pow` are
rough away from `log 1 = 0`, perfect squares and integer exponents.
-/
import Bosched.Runtime.Types
import Mathlib.Algebra.Order.Floor.Semifield
import Mathlib.Data.Rat.Floor

namespace Bosched

open Lib

/-- A rational truncated towards zero. -/
def truncate (q : ℚ) : Int := q.num.tdiv q.den

/-- Division by zero gives zero here, where C gives an infinity or a NaN. -/
instance exactDouble : CDouble ℚ where
  ofLong w := w.toInt
  ofULong w := w.toNat
  toLong q :=
    let z := truncate q
    if -2 ^ 63 ≤ z ∧ z < 2 ^ 63 then BitVec.ofInt 64 z else BitVec.intMin 64
  toULong q :=
    let z := truncate q
    if 0 ≤ z ∧ z < 2 ^ 64 then BitVec.ofInt 64 z else BitVec.intMin 64
  sqrt q := mkRat (Nat.sqrt (q.num.toNat * q.den)) q.den
  log q := 2 * (q - 1) / (q + 1)
  ceil q := q.ceil
  pow b e := if b = 0 then 0 else if e.den = 1 then b ^ e.num else 1 + e * (b - 1)
  lt a b := decide (a < b)

/-- A rational in range converts to its floor. -/
theorem toNat_toULong_exact {q : ℚ} (h0 : 0 ≤ q) (h : q < 2 ^ 64) : (CDouble.toULong q).toNat = ⌊q⌋₊ := by
  have htrunc : truncate q = ⌊q⌋ := by
    unfold truncate
    rw [Int.tdiv_eq_ediv_of_nonneg (Rat.num_nonneg.2 h0), Rat.floor_def']
  have hlt : ⌊q⌋ < 2 ^ 64 := Int.floor_lt.2 (by exact_mod_cast h)
  have hge : 0 ≤ ⌊q⌋ := Int.floor_nonneg.2 h0
  have hval : CDouble.toULong q = BitVec.ofInt 64 ⌊q⌋ := by
    show (if 0 ≤ truncate q ∧ truncate q < 2 ^ 64 then BitVec.ofInt 64 (truncate q) else _) = _
    rw [htrunc, if_pos ⟨hge, hlt⟩]
  rw [hval, BitVec.toNat_ofInt, Int.emod_eq_of_lt hge (by exact_mod_cast hlt), Int.floor_toNat]

end Bosched
