/-
Cutting a prefix off a sequence of weights so that its total comes closest to a target. Totals
never fall along the sequence, so a scan that looks one element ahead finds the best cut.
-/
import Mathlib.Algebra.Order.Ring.Abs
import Mathlib.Order.Monotone.Basic
import Mathlib.Tactic

namespace Bosched.Lib

variable {α : Type} [CommRing α] [LinearOrder α] [IsStrictOrderedRing α]

/-- `k` is a best cut among `1, …, n`: no total comes closer to `c`, and none that comes as close
is larger. -/
structure BestCut (f : Nat → α) (c : α) (n k : Nat) : Prop where
  pos : 1 ≤ k
  le : k ≤ n
  best : ∀ m, 1 ≤ m → m ≤ n → |f k - c| < |f m - c| ∨ (|f k - c| = |f m - c| ∧ f m ≤ f k)

/-- The scan goes on from `m`: the next total is not too large, or closer than this one, or as close. -/
def GoesOn (f : Nat → α) (c : α) (m : Nat) : Prop := f (m + 1) ≤ c ∨ (f m < c ∧ f (m + 1) - c ≤ c - f m)

/-- The scan stops at `k`: nothing is left, the target is reached, or the next total is farther off. -/
def StopsAt (f : Nat → α) (c : α) (n k : Nat) : Prop := k = n ∨ c ≤ f k ∨ (f k < c ∧ c - f k < f (k + 1) - c)

theorem bestCut_of_scan {f : Nat → α} (hf : Monotone f) {c : α} {n k : Nat} (h1 : 1 ≤ k) (hn : k ≤ n)
    (hgo : ∀ m, 1 ≤ m → m < k → GoesOn f c m) (hstop : StopsAt f c n k) : BestCut f c n k := by
  refine ⟨h1, hn, fun m hm1 hmn => ?_⟩
  rcases Nat.lt_trichotomy m k with hlt | rfl | hgt
  · -- the last step to `k` made the distance no larger, and before it the totals were smaller
    have hmk : f m ≤ f k := hf (le_of_lt hlt)
    have hm : f m ≤ f (k - 1) := hf (by omega)
    have hlast := hgo (k - 1) (by omega) (by omega)
    unfold GoesOn at hlast
    rw [Nat.sub_add_cancel h1] at hlast
    have hdist : |f k - c| ≤ |f m - c| := by
      rcases hlast with hle | ⟨hbelow, hcloser⟩
      · rw [abs_of_nonpos (by linarith), abs_of_nonpos (by linarith)]
        linarith
      · rw [abs_of_nonpos (by linarith : f m - c ≤ 0)]
        exact abs_le.2 ⟨by linarith, by linarith⟩
    rcases lt_or_eq_of_le hdist with h | h
    · exact .inl h
    · exact .inr ⟨h, hmk⟩
  · exact .inr ⟨rfl, le_refl _⟩
  · have hkm : f k ≤ f m := hf (le_of_lt hgt)
    rcases hstop with rfl | hreached | ⟨hbelow, hfarther⟩
    · omega
    · rw [abs_of_nonneg (by linarith), abs_of_nonneg (by linarith)]
      rcases lt_or_eq_of_le hkm with h | h
      · exact .inl (by linarith)
      · exact .inr ⟨by rw [h], le_of_eq h.symm⟩
    · have hnext : f (k + 1) ≤ f m := hf hgt
      rw [abs_of_neg (by linarith), abs_of_nonneg (by linarith)]
      exact .inl (by linarith)

/-- The total of the first `k` weights from position `j` on. -/
def prefixSum (weights : List Nat) (j k : Nat) : Nat := ((weights.drop j).take k).sum

theorem prefixSum_zero (weights : List Nat) (j : Nat) : prefixSum weights j 0 = 0 := by
  simp [prefixSum]

theorem prefixSum_succ (weights : List Nat) {j k : Nat} {w : Nat} (h : weights[j + k]? = some w) :
    prefixSum weights j (k + 1) = prefixSum weights j k + w := by
  unfold prefixSum
  rw [List.take_add_one, List.getElem?_drop, h, List.sum_append]
  simp

theorem prefixSum_mono (weights : List Nat) (j : Nat) : Monotone (prefixSum weights j) :=
  fun _ _ h => (List.take_sublist_take_left h).sum_le_sum fun _ _ => Nat.zero_le _

theorem prefixSum_add (weights : List Nat) (j k : Nat) :
    prefixSum weights 0 (j + k) = prefixSum weights 0 j + prefixSum weights j k := by
  unfold prefixSum
  rw [List.drop_zero, List.take_add, List.sum_append]

end Bosched.Lib
