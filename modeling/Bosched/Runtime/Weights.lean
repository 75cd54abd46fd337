/-
Weights of tasks: the totals of consecutive entries of an array of `unsigned`, in the integers.
-/
import Bosched.Lib.BestFit
import Bosched.Runtime.Types

namespace Bosched

open Lib

/-- The weight of the first `k` tasks from task `j` on. -/
def prefixWeight (tasks : List U32) (j k : Nat) : Nat := prefixSum (tasks.map (·.toNat)) j k

@[simp] theorem prefixWeight_zero (tasks : List U32) (j : Nat) : prefixWeight tasks j 0 = 0 := prefixSum_zero _ j

theorem prefixWeight_succ {tasks : List U32} {j k : Nat} {w : U32} (h : tasks[j + k]? = some w) :
    prefixWeight tasks j (k + 1) = prefixWeight tasks j k + w.toNat :=
  prefixSum_succ _ (by rw [List.getElem?_map, h]; rfl)

theorem prefixWeight_mono (tasks : List U32) (j : Nat) : Monotone (prefixWeight tasks j) := prefixSum_mono _ j

theorem prefixWeight_add (tasks : List U32) (j k : Nat) :
    prefixWeight tasks 0 (j + k) = prefixWeight tasks 0 j + prefixWeight tasks j k := prefixSum_add _ j k

/-- A sum of two weights below `2^32` does not wrap around. -/
theorem toNat_add_weight {tasks : List U32} {j k n : Nat} {cw w : U32} (hcw : cw.toNat = prefixWeight tasks j k)
    (hw : tasks[j + k]? = some w) (hk : k < n) (hsum : prefixWeight tasks j n < 2 ^ 32) :
    (cw + w).toNat = prefixWeight tasks j (k + 1) := by
  have hle := prefixWeight_mono tasks j hk
  rw [Nat.succ_eq_add_one, prefixWeight_succ hw] at hle
  rw [prefixWeight_succ hw, BitVec.toNat_add, hcw, Nat.mod_eq_of_lt (by omega)]

theorem toInt_setWidth_weight (w : U32) : (w.setWidth 64).toInt = w.toNat := by
  have := w.isLt
  rw [BitVec.toInt_eq_toNat_cond, BitVec.toNat_setWidth, Nat.mod_eq_of_lt (by omega), if_pos (by omega)]

/-- A store behind the prefix leaves its weight alone. -/
theorem prefixWeight_set_of_le (tasks : List U32) {k m : Nat} (x : U32) (h : m ≤ k) :
    prefixWeight (tasks.set k x) 0 m = prefixWeight tasks 0 m := by
  unfold prefixWeight prefixSum
  rw [List.map_set, List.drop_zero, List.drop_zero, List.take_set_of_le h]

end Bosched
