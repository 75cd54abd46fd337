/-
Tasks with weights, assigned to threads: the load of each thread over the tasks assigned so far.
The least load is at most the average, so giving a piece of work to the least loaded thread leaves
it at most the average and that piece.
-/
import Mathlib.Algebra.BigOperators.Intervals
import Mathlib.Algebra.Order.BigOperators.Group.Finset
import Mathlib.Tactic

namespace Bosched.Lib

open Finset

section

variable (w : Nat → Nat) (done : Nat → Prop) [DecidablePred done] (a : Nat → Nat) (n : Nat)

/-- The weight of the tasks that are done and assigned to thread `t`. -/
def loadOf (t : Nat) : Nat := ∑ j ∈ range n with done j ∧ a j = t, w j

/-- Each task counts for one thread at most. -/
theorem sum_loadOf_le (P : Nat) : ∑ t ∈ range P, loadOf w done a n t ≤ ∑ j ∈ range n, w j := by
  unfold loadOf
  simp only [sum_filter]
  rw [sum_comm]
  refine sum_le_sum fun j _ => ?_
  by_cases hd : done j
  · simp only [hd, true_and]
    rw [sum_ite_eq (range P) (a j) fun _ => w j]
    split
    · exact le_refl _
    · exact Nat.zero_le _
  · simp [hd]

theorem mul_loadOf_le {P t : Nat} (hleast : ∀ s < P, loadOf w done a n t ≤ loadOf w done a n s) :
    P * loadOf w done a n t ≤ ∑ j ∈ range n, w j := by
  have hconst : ∑ _s ∈ range P, loadOf w done a n t = P * loadOf w done a n t := by simp
  rw [← hconst]
  exact le_trans (sum_le_sum fun s hs => hleast s (mem_range.1 hs)) (sum_loadOf_le w done a n P)

end

/-- The tasks of an interval, none of them done before, are given to thread `t`. -/
theorem loadOf_assign {w : Nat → Nat} {done done' : Nat → Prop} [DecidablePred done] [DecidablePred done'] {a a' : Nat → Nat}
    {n lo hi t : Nat} (hn : hi ≤ n) (hdone : ∀ j, done' j ↔ done j ∨ (lo ≤ j ∧ j < hi))
    (hnew : ∀ j, lo ≤ j → j < hi → ¬ done j) (hin : ∀ j, lo ≤ j → j < hi → a' j = t)
    (hout : ∀ j, ¬ (lo ≤ j ∧ j < hi) → a' j = a j) (s : Nat) :
    loadOf w done' a' n s = loadOf w done a n s + if s = t then ∑ j ∈ Ico lo hi, w j else 0 := by
  unfold loadOf
  have hsplit : (range n).filter (fun j => done' j ∧ a' j = s) =
      (range n).filter (fun j => done j ∧ a j = s) ∪ (Ico lo hi).filter (fun _ => s = t) := by
    ext j
    simp only [mem_filter, mem_range, mem_union, mem_Ico, hdone]
    by_cases hj : lo ≤ j ∧ j < hi
    · have h1 := hnew j hj.1 hj.2
      have h2 := hin j hj.1 hj.2
      have h3 : j < n := by omega
      simp only [h1, h2, h3, hj, eq_comm]
      tauto
    · have h1 := hout j hj
      simp only [hj, h1]
      tauto
  have hdisj : Disjoint ((range n).filter fun j => done j ∧ a j = s) ((Ico lo hi).filter fun _ => s = t) := by
    refine disjoint_left.2 fun j hj hj' => ?_
    simp only [mem_filter, mem_Ico] at hj hj'
    exact hnew j hj'.1.1 hj'.1.2 hj.2.1
  rw [hsplit, sum_union hdisj]
  congr 1
  split
  · rename_i h
    rw [filter_true_of_mem fun _ _ => h]
  · rename_i h
    rw [filter_false_of_mem fun _ _ => h, sum_empty]

/-- Once all tasks are done the load is the weight assigned. -/
theorem loadOf_all {w : Nat → Nat} {done : Nat → Prop} [DecidablePred done] {a : Nat → Nat} {n : Nat} (h : ∀ j < n, done j)
    (t : Nat) : loadOf w done a n t = ∑ j ∈ range n with a j = t, w j := by
  unfold loadOf
  refine sum_congr (filter_congr fun j hj => ?_) fun _ _ => rfl
  rw [and_iff_right (h j (mem_range.1 hj))]

end Bosched.Lib
