/-
64-bit machine words. A C `long` and an `unsigned long` are the same word read two ways: `toInt`
and `toNat`. `+`, `-` and `*` wrap and do not depend on the reading; division does, and traps.
-/
import Mathlib.Tactic

namespace Bosched.Lib

abbrev Word := BitVec 64

/-- `/` on `long`: traps on a zero divisor and on `LONG_MIN / -1`. -/
def ldiv (a b : Word) : Option Word :=
  if b = 0#64 ∨ (a = BitVec.intMin 64 ∧ b = -1#64) then none else some (a.sdiv b)

/-- `/` on `unsigned long`: traps on a zero divisor. -/
def uldiv (a b : Word) : Option Word := if b = 0#64 then none else some (a / b)

/-- The subtraction `a - b` does not overflow a `long`. -/
def SubFits (a b : Word) : Prop := -2 ^ 63 ≤ a.toInt - b.toInt ∧ a.toInt - b.toInt < 2 ^ 63

instance (a b : Word) : Decidable (SubFits a b) := by unfold SubFits; infer_instance

/-- `-` on `long`: undefined on overflow. -/
def lsub (a b : Word) : Option Word := if SubFits a b then some (a - b) else none

/-- `+` on `long`: undefined on overflow. -/
def ladd (a b : Word) : Option Word :=
  if -2 ^ 63 ≤ a.toInt + b.toInt ∧ a.toInt + b.toInt < 2 ^ 63 then some (a + b) else none

/-- `*` on `long`: undefined on overflow. -/
def lmul (a b : Word) : Option Word :=
  if -2 ^ 63 ≤ a.toInt * b.toInt ∧ a.toInt * b.toInt < 2 ^ 63 then some (a * b) else none

/-- `+` on `long`, of an index: undefined on overflow. -/
def laddNat (a : Word) (k : Nat) : Option Word := if a.toInt + k < 2 ^ 63 then some (a + BitVec.ofNat 64 k) else none

theorem toInt_bounds (a : Word) : -2 ^ 63 ≤ a.toInt ∧ a.toInt < 2 ^ 63 := by
  have h1 := BitVec.le_toInt a
  have h2 := BitVec.toInt_lt (x := a)
  omega

theorem toInt_ofInt_fits {z : Int} (h1 : -2 ^ 63 ≤ z) (h2 : z < 2 ^ 63) : (BitVec.ofInt 64 z).toInt = z :=
  BitVec.toInt_ofInt_eq_self (by decide) (by omega) (by omega)

/-- A word whose value modulo `2^64` is that of an integer in `long` range reads as that integer. -/
theorem toInt_eq_of_ofInt {a : Word} {z : Int} (h : a = BitVec.ofInt 64 z) (h1 : -2 ^ 63 ≤ z) (h2 : z < 2 ^ 63) :
    a.toInt = z := by rw [h]; exact toInt_ofInt_fits h1 h2

theorem toInt_sub_fits {a b : Word} (h : SubFits a b) : (a - b).toInt = a.toInt - b.toInt := by
  apply toInt_eq_of_ofInt _ h.1 h.2
  rw [Int.sub_eq_add_neg, BitVec.ofInt_add, BitVec.ofInt_neg, BitVec.ofInt_toInt, BitVec.ofInt_toInt,
    BitVec.sub_eq_add_neg]

theorem laddNat_some {a r : Word} {k : Nat} (h : laddNat a k = some r) : r.toInt = a.toInt + k ∧ a.toInt + k < 2 ^ 63 := by
  unfold laddNat at h
  split at h
  · rename_i hlt
    cases h
    have hb := toInt_bounds a
    refine ⟨toInt_eq_of_ofInt ?_ (by omega) hlt, hlt⟩
    rw [BitVec.ofInt_add, BitVec.ofInt_toInt, BitVec.ofInt_natCast]
  · cases h

theorem ladd_eq {a b r : Word} (h : ladd a b = some r) : r = a + b := by
  unfold ladd at h
  split at h
  · exact (Option.some.inj h).symm
  · cases h

theorem lmul_eq {a b r : Word} (h : lmul a b = some r) : r = a * b := by
  unfold lmul at h
  split at h
  · exact (Option.some.inj h).symm
  · cases h

theorem lsub_eq {a b r : Word} (h : lsub a b = some r) : r = a - b := by
  unfold lsub at h
  split at h
  · exact (Option.some.inj h).symm
  · cases h

theorem ladd_some {a b r : Word} (h : ladd a b = some r) : r.toInt = a.toInt + b.toInt := by
  unfold ladd at h
  split at h
  · rename_i hf
    cases h
    apply toInt_eq_of_ofInt _ hf.1 hf.2
    rw [BitVec.ofInt_add, BitVec.ofInt_toInt, BitVec.ofInt_toInt]
  · cases h

theorem lmul_some {a b r : Word} (h : lmul a b = some r) : r.toInt = a.toInt * b.toInt := by
  unfold lmul at h
  split at h
  · rename_i hf
    cases h
    apply toInt_eq_of_ofInt _ hf.1 hf.2
    rw [BitVec.ofInt_mul, BitVec.ofInt_toInt, BitVec.ofInt_toInt]
  · cases h

theorem lsub_some {a b r : Word} (h : lsub a b = some r) : SubFits a b ∧ r.toInt = a.toInt - b.toInt := by
  unfold lsub at h
  split at h
  · rename_i hf
    cases h
    exact ⟨hf, toInt_sub_fits hf⟩
  · cases h

theorem ldiv_some {a b r : Word} (h : ldiv a b = some r) : b ≠ 0#64 ∧ r.toInt = a.toInt.tdiv b.toInt := by
  unfold ldiv at h
  split at h
  · cases h
  · rename_i hc
    cases h
    rw [not_or, not_and_or] at hc
    exact ⟨hc.1, BitVec.toInt_sdiv_of_ne_or_ne a b hc.2⟩

theorem uldiv_some {a b r : Word} (h : uldiv a b = some r) : b ≠ 0#64 ∧ r.toNat = a.toNat / b.toNat := by
  unfold uldiv at h
  split at h
  · cases h
  · rename_i hc
    cases h
    exact ⟨hc, BitVec.toNat_udiv⟩

/-- `a + c * b` with `c` unsigned, when the exact result is in `long` range. -/
theorem toInt_add_mul {a b c : Word} (h1 : -2 ^ 63 ≤ a.toInt + c.toNat * b.toInt)
    (h2 : a.toInt + c.toNat * b.toInt < 2 ^ 63) : (a + c * b).toInt = a.toInt + c.toNat * b.toInt := by
  apply toInt_eq_of_ofInt _ h1 h2
  rw [BitVec.ofInt_add, BitVec.ofInt_mul, BitVec.ofInt_toInt, BitVec.ofInt_toInt, BitVec.ofInt_natCast,
    BitVec.ofNat_toNat, BitVec.setWidth_eq]

/-- `a + c * b` on unsigned words, when the exact result fits. -/
theorem toNat_add_mul {a b c : Word} (h : a.toNat + c.toNat * b.toNat < 2 ^ 64) :
    (a + c * b).toNat = a.toNat + c.toNat * b.toNat := by
  rw [BitVec.toNat_add, BitVec.toNat_mul, Nat.add_mod_mod, Nat.mod_eq_of_lt h]

theorem toNat_sub_of_le {a b : Word} (h : b.toNat ≤ a.toNat) : (a - b).toNat = a.toNat - b.toNat :=
  BitVec.toNat_sub_of_le (by rw [BitVec.le_def]; exact h)

/-- A word that is non-negative as a `long` reads the same both ways. -/
theorem toNat_of_toInt_nonneg {a : Word} (h : 0 ≤ a.toInt) : (a.toNat : Int) = a.toInt := by
  have := BitVec.toInt_eq_toNat_cond a
  split at this <;> omega

end Bosched.Lib
