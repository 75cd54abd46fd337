/-
The task count of `gomp_loop_init` against the iterations of the loop: `num_tasks` is the distance
divided by the step, rounded down, so it is at most the trip count, and equal to it for a step of
one.
-/
import Bosched.Iter.Css

namespace Bosched

open Lib

/-- The loop of a work share has the iterations of the loop of the program. -/
theorem shareLoop_trip (start fin : Word) {incr : Word} (hincr : incr ≠ 0) :
    (shareLoop start fin incr hincr).trip = (signedLoop start fin incr hincr).trip := by
  unfold shareLoop
  rw [canonicalEnd_eq]
  split
  · rename_i hb
    rw [(Loop.trip_eq_zero_iff _).2 (before_irrefl _ _), (Loop.trip_eq_zero_iff _).2 hb.2.asymm]
  · rfl

/-- The task count is at most the trip count. -/
theorem numTasks_le_trip {start fin incr n : Word} (hincr : incr ≠ 0) (h : numTasks start fin incr = some n) :
    n.toInt ≤ (signedLoop start fin incr hincr).trip := by
  obtain ⟨-, -, hn⟩ := numTasks_some h
  rw [← shareLoop_trip]
  rcases Nat.eq_zero_or_pos (shareLoop start fin incr hincr).trip with h0 | hpos
  · -- without iterations the end is the start
    have hfin := eq_of_not_before (not_before_canonicalEnd start fin hincr) ((Loop.trip_eq_zero_iff _).1 h0)
    rw [hn, hfin, sub_self, Int.zero_tdiv, h0]
    exact le_refl _
  · by_contra hlt
    have hdiv : ((shareLoop start fin incr hincr).trip : Int) <
        ((shareLoop start fin incr hincr).fin - (shareLoop start fin incr hincr).value 0).tdiv
          (shareLoop start fin incr hincr).incr := by
      rw [Loop.value_zero]
      show _ < ((canonicalEnd start fin incr).toInt - start.toInt).tdiv incr.toInt
      omega
    have := Loop.add_lt_trip _ hpos hdiv
    omega

/-- One iteration and one task: the loop steps exactly to its end. -/
theorem one_task_iff {start fin incr n : Word} (hincr : incr ≠ 0) (hn : numTasks start fin incr = some n) :
    (signedLoop start fin incr hincr).trip = 1 ∧ n.toInt = 1 ↔ fin.toInt = start.toInt + incr.toInt := by
  have hne := toInt_ne_zero hincr
  obtain ⟨-, -, hnt⟩ := numTasks_some hn
  rw [canonicalEnd_eq] at hnt
  have hvalue : ∀ k, (signedLoop start fin incr hincr).value k = start.toInt + k * incr.toInt := fun k => rfl
  have hb : ∀ k : Nat, Before incr.toInt (start.toInt + k * incr.toInt) fin.toInt ↔
      k < (signedLoop start fin incr hincr).trip :=
    fun k => by rw [← hvalue]; exact (signedLoop start fin incr hincr).before_fin_iff k
  have hb0 := hb 0
  have hb1 := hb 1
  rw [Nat.cast_zero, zero_mul, add_zero] at hb0
  rw [Nat.cast_one, one_mul] at hb1
  constructor
  · rintro ⟨ht, h1⟩
    have hbefore := hb0.2 (by omega)
    rw [if_neg fun h => h.2.asymm hbefore, h1] at hnt
    have hnot := hb1.not.2 (by omega)
    by_cases hp : 0 < incr.toInt
    · rw [before_pos hp] at hbefore hnot
      rw [Int.tdiv_eq_ediv_of_nonneg (by omega)] at hnt
      have := Int.ediv_mul_le (fin.toInt - start.toInt) hne
      rw [← hnt] at this
      omega
    · rw [before_neg hp] at hbefore hnot
      rw [← Int.neg_tdiv_neg, Int.tdiv_eq_ediv_of_nonneg (by omega)] at hnt
      have := Int.ediv_mul_le (-(fin.toInt - start.toInt)) (b := -incr.toInt) (by omega)
      rw [← hnt] at this
      omega
  · intro hfin
    have hbefore : Before incr.toInt start.toInt fin.toInt := by
      by_cases hp : 0 < incr.toInt
      · rw [before_pos hp]; omega
      · rw [before_neg hp]; omega
    have hdist : fin.toInt - start.toInt = incr.toInt := by omega
    rw [if_neg fun h => h.2.asymm hbefore, hdist, Int.tdiv_self hne] at hnt
    have h1 := hb0.1 hbefore
    have h2 := hb1.not.1 (by rw [← hfin]; exact before_irrefl _ _)
    exact ⟨by omega, hnt⟩

/-- A step of one. -/
theorem unit_step {start fin n : Word} (hn : numTasks start fin 1 = some n) :
    (signedLoop start fin 1 (by decide)).trip = (fin.toInt - start.toInt).toNat ∧
      n.toInt = (fin.toInt - start.toInt).toNat := by
  have h1 : (1 : Word).toInt = 1 := rfl
  obtain ⟨-, -, hnt⟩ := numTasks_some hn
  rw [h1, Int.tdiv_one, canonicalEnd_eq] at hnt
  simp only [h1, before_pos one_pos] at hnt
  constructor
  · unfold Loop.trip signedLoop
    simp only [h1, if_pos one_pos, Int.ediv_one]
    congr 1
    omega
  · split at hnt
    · rename_i hlt
      have := hlt.2
      omega
    · rename_i hge
      rw [not_and] at hge
      have := hge (by decide)
      omega

/-- The task count is undefined where the distance overflows, or is `LONG_MIN` for a step of `-1`. -/
theorem numTasks_none {start fin incr : Word} (hincr : incr ≠ 0) (hn : numTasks start fin incr = none) :
    Before incr.toInt start.toInt fin.toInt ∧ (¬ SubFits fin start ∨ (incr = -1 ∧ fin.toInt - start.toInt = -2 ^ 63)) := by
  have hmin : (BitVec.intMin 64).toInt = -2 ^ 63 := by decide
  unfold numTasks lsub at hn
  by_cases hfits : SubFits (canonicalEnd start fin incr) start
  · rw [if_pos hfits] at hn
    have hdiv : ldiv (canonicalEnd start fin incr - start) incr = none := hn
    unfold ldiv at hdiv
    split at hdiv
    · rename_i hc
      obtain ⟨h1, h2⟩ := hc.resolve_left hincr
      have hdist := toInt_sub_fits hfits
      rw [h1, hmin, canonicalEnd_eq] at hdist
      split at hdist
      · omega
      · refine ⟨?_, .inr ⟨h2, hdist.symm⟩⟩
        obtain rfl := h2
        rw [before_neg (by decide)]
        omega
    · cases hdiv
  · rw [canonicalEnd_eq] at hfits
    split at hfits
    · exact absurd (by unfold SubFits; omega) hfits
    · rename_i hb
      refine ⟨?_, .inl hfits⟩
      by_contra hnb
      have heq := eq_of_not_before (fun h => hb ⟨hincr, h⟩) hnb
      exact hfits (by unfold SubFits; omega)

/-- Where the loop has no iterations, or one that ends at its step, or the step one and a distance
that fits, the task count is defined. -/
theorem numTasks_defined {start fin incr : Word} (hincr : incr ≠ 0)
    (h : (signedLoop start fin incr hincr).trip = 0 ∨ fin.toInt = start.toInt + incr.toInt ∨
      (incr = 1 ∧ fin.toInt - start.toInt < 2 ^ 63)) : ∃ n, numTasks start fin incr = some n := by
  cases hn : numTasks start fin incr with
  | some n => exact ⟨n, rfl⟩
  | none =>
    exfalso
    obtain ⟨hb, hor⟩ := numTasks_none hincr hn
    have hi := toInt_bounds incr
    rcases h with ht | hfin | ⟨rfl, hdist⟩
    · exact (Loop.trip_eq_zero_iff _).1 ht hb
    · rcases hor with hfits | ⟨rfl, hdist⟩
      · exact hfits (by unfold SubFits; omega)
      · have h1 : (-1 : Word).toInt = -1 := by decide
        rw [h1] at hfin
        omega
    · rw [toInt_one, before_pos one_pos] at hb
      rcases hor with hfits | ⟨hneg, -⟩
      · exact hfits (by unfold SubFits; omega)
      · exact absurd hneg (by decide)

end Bosched
