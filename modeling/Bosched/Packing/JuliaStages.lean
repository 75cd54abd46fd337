/-
The stages of the tuner's `binlpt_balance`. The cut of the tasks into chunks is the greedy one at a `K_max`-th
of the total weight; it has no guard for the last chunk, so a cut with more parts is an error.
-/
import Bosched.Lib.Cuts
import Bosched.Lib.Folds
import Bosched.Packing.Julia
import Bosched.Packing.Stages

namespace Bosched.Julia

open Lib

/-! ## Arrays -/

theorem get_succ {α : Type} (a : List α) (i : Nat) : get a (i + 1) = a[i]? := rfl

theorem set_succ {α : Type} {a : List α} {i : Nat} (x : α) (h : i < a.length) : set a (i + 1) x = some (a.set i x) :=
  store_some x h

theorem set_eq_none {α : Type} {a : List α} {i : Nat} (x : α) (h : i = 0 ∨ a.length < i) : set a i x = none := by
  unfold set store
  rcases h with rfl | h
  · rfl
  · rw [if_neg (by omega), if_neg (by omega)]

section

variable {α : Type} [Add α]

/-- The sum of the first `i` elements, from left to right. -/
def partialSum (zero : α) (arr : List α) (i : Nat) : α := (arr.take i).foldl (· + ·) zero

theorem partialSum_succ (zero : α) {arr : List α} {i : Nat} {x : α} (h : arr[i]? = some x) :
    partialSum zero arr (i + 1) = partialSum zero arr i + x := by
  obtain ⟨hlt, rfl⟩ := List.getElem?_eq_some_iff.1 h
  unfold partialSum
  rw [List.take_add_one, List.getElem?_eq_getElem hlt, List.foldl_append]
  rfl

theorem partialSum_nat (arr : List Nat) (i : Nat) : partialSum 0 arr i = startOf arr i := by
  unfold partialSum startOf
  rw [List.sum_eq_foldl]

/-- `offset_cumsum` computes the sums of the elements before each position. -/
theorem offsetCumsum_spec (zero : α) (arr : List α) :
    ∃ sum, offsetCumsum zero arr = some sum ∧ sum.length = arr.length ∧
      ∀ i < arr.length, sum[i]? = some (partialSum zero arr i) := by
  have hloop := foldlM_range' (f := fun sum i => do set sum i ((← get sum (i - 1)) + (← get arr (i - 1))))
    (fun i sum => sum.length = arr.length ∧ ∀ k, k + 1 < i → k < arr.length → sum[k]? = some (partialSum zero arr k))
    (b := List.replicate arr.length zero) (n := arr.length - 1) (s := 2) ⟨List.length_replicate, fun k hk hlt => ?_⟩
    fun i sum h2 hi hI => ?_
  · obtain ⟨sum, hfold, hlen, hsum⟩ := hloop
    exact ⟨sum, hfold, hlen, fun i hi => hsum i (by omega) hi⟩
  · obtain rfl : k = 0 := by omega
    rw [List.getElem?_replicate_of_lt hlt]
    rfl
  · obtain ⟨hlen, hsum⟩ := hI
    obtain ⟨k, rfl⟩ : ∃ k, i = k + 2 := ⟨i - 2, by omega⟩
    obtain ⟨x, hx⟩ : ∃ x, arr[k]? = some x := ⟨_, List.getElem?_eq_getElem (by omega)⟩
    refine ⟨sum.set (k + 1) (partialSum zero arr k + x), ?_, by rw [List.length_set]; exact hlen, fun m hm hlt => ?_⟩
    · show (do set sum (k + 2) ((← get sum (k + 1)) + (← get arr (k + 1)))) = _
      rw [get_succ, get_succ, hsum k (by omega) (by omega), hx]
      exact set_succ _ (by omega)
    · rcases Nat.lt_or_eq_of_le (show m ≤ k + 1 by omega) with h | rfl
      · rw [List.getElem?_set_ne (by omega)]
        exact hsum m (by omega) hlt
      · rw [List.getElem?_set_self (by omega), partialSum_succ zero hx]

end

/-! ## The cut -/

variable {D : Type} [JuliaFloat D]

/-- What the inner loop of `compute_chunksizes` tests: the tasks `[i, j)`, counted from 0, weigh as much as
an even share. -/
def heavy (tasks : List D) (K i j : Nat) : Bool :=
  JuliaFloat.le (partialSum 0.0 tasks tasks.length / CDouble.ofLong (BitVec.ofNat 64 K))
    (partialSum 0.0 tasks j - partialSum 0.0 tasks i)

section

variable {tasks workload : List D} {K : Nat}

/-- The prefix sums are in place. -/
def Prefixes (tasks workload : List D) : Prop := ∀ i < tasks.length, workload[i]? = some (partialSum 0.0 tasks i)

theorem chunkEnd_spec {i j : Nat} (hw : Prefixes tasks workload) (hlast : j = tasks.length ∨ heavy tasks K i j = true)
    (hj : j ≤ tasks.length) (hi : i < tasks.length) : ∀ {fuel m : Nat}, tasks.length ≤ m + fuel → i < m → m ≤ j →
      (∀ k, m ≤ k → k < j → heavy tasks K i k = false) →
      chunkEnd workload (partialSum 0.0 tasks tasks.length / CDouble.ofLong (BitVec.ofNat 64 K)) (i + 1) tasks.length fuel
        (m + 1) = some (j + 1)
  | 0, m, hf, him, hmj, _ => by
    obtain rfl : m = j := by omega
    rfl
  | fuel + 1, m, hf, him, hmj, hlight => by
    rcases Nat.lt_or_eq_of_le (le_trans hmj hj) with hlt | heq
    · have hget : ∀ {k}, k < tasks.length → get workload (k + 1) = some (partialSum 0.0 tasks k) := fun hk => hw _ hk
      have hstep : chunkEnd workload (partialSum 0.0 tasks tasks.length / CDouble.ofLong (BitVec.ofNat 64 K)) (i + 1)
          tasks.length (fuel + 1) (m + 1) = if heavy tasks K i m then some (m + 1) else
            chunkEnd workload (partialSum 0.0 tasks tasks.length / CDouble.ofLong (BitVec.ofNat 64 K)) (i + 1)
              tasks.length fuel (m + 1 + 1) := by
        simp only [chunkEnd, if_pos (show m + 1 ≤ tasks.length by omega), hget hlt, hget hi, Option.bind_eq_bind,
          Option.bind_some]
        rfl
      rw [hstep]
      rcases Nat.lt_or_eq_of_le hmj with hmj' | rfl
      · rw [hlight m (le_refl m) hmj', if_neg (by decide)]
        exact chunkEnd_spec hw hlast hj hi (by omega) (by omega) hmj' fun k h1 h2 => hlight k (by omega) h2
      · rcases hlast with h | h
        · omega
        · rw [h, if_pos rfl]
    · obtain rfl : m = j := by omega
      simp [chunkEnd, heq]

/-- The outer loop stores the sizes of the greedy cut, if there is room for them. -/
theorem chunkLoop_spec (hw : Prefixes tasks workload) {i : Nat} {parts : List (Nat × Nat)}
    (h : Greedy (heavy tasks K) tasks.length i parts) : ∀ {fuel z : Nat} {pre : List Nat}, tasks.length ≤ i + fuel →
      chunkLoop workload (partialSum 0.0 tasks tasks.length / CDouble.ofLong (BitVec.ofNat 64 K)) tasks.length fuel
        (pre.length + 1) (i + 1) (pre ++ List.replicate z 0) =
      if parts.length ≤ z then some (pre ++ parts.map width ++ List.replicate (z - parts.length) 0) else none := by
  induction h with
  | nil =>
    intro fuel z pre hf
    rw [List.length_nil, if_pos (Nat.zero_le z), List.map_nil, List.append_nil]
    cases fuel with
    | zero => rfl
    | succ fuel => simp [chunkLoop]
  | @cons i j parts hij hjn hlight hend hparts ih =>
    intro fuel z pre hf
    obtain ⟨fuel, rfl⟩ : ∃ f, fuel = f + 1 := ⟨fuel - 1, by omega⟩
    have hchunk := chunkEnd_spec hw hend hjn (by omega) (by omega : tasks.length ≤ (i + 1) + (tasks.length - (i + 1)))
      (by omega) hij fun k h1 h2 => hlight k (by omega) h2
    simp only [chunkLoop, if_pos (show i + 1 ≤ tasks.length by omega), hchunk, Option.bind_eq_bind, Option.bind_some]
    cases z with
    | zero =>
      rw [set_eq_none _ (.inr (by simp)), if_neg (by simp)]
      rfl
    | succ z =>
      have hset : set (pre ++ List.replicate (z + 1) 0) (pre.length + 1) (j + 1 - (i + 1)) =
          some (pre ++ [j - i] ++ List.replicate z 0) := by
        rw [set_succ _ (by simp), List.set_append_right _ _ (le_refl _), Nat.sub_self, List.replicate_succ,
          List.set_cons_zero, List.append_assoc]
        congr 3
        omega
      have hih : chunkLoop workload (partialSum 0.0 tasks tasks.length / CDouble.ofLong (BitVec.ofNat 64 K)) tasks.length
          fuel ((pre ++ [j - i]).length + 1) (j + 1) (pre ++ [j - i] ++ List.replicate z 0) = _ := ih (by omega)
      rw [List.length_append, List.length_singleton] at hih
      rw [hset, Option.bind_some, hih, List.length_cons]
      by_cases hz : parts.length ≤ z
      · rw [if_pos hz, if_pos (by omega), Nat.add_sub_add_right]
        simp [width]
      · rw [if_neg hz, if_neg (by omega)]

/-- `compute_chunksizes` finds the greedy cut if it has at most `nchunks` parts, and is an error otherwise. -/
theorem computeChunksizes_spec (htasks : tasks ≠ []) {parts : List (Nat × Nat)}
    (h : Greedy (heavy tasks K) tasks.length 0 parts) :
    computeChunksizes tasks tasks.length K =
      if parts.length ≤ K then some (parts.map width ++ List.replicate (K - parts.length) 0) else none := by
  obtain ⟨workload, hworkload, hlen, hw⟩ := offsetCumsum_spec (0.0 : D) tasks
  have hpos : 0 < tasks.length := List.length_pos_of_ne_nil htasks
  obtain ⟨x, hx⟩ : ∃ x, tasks[tasks.length - 1]? = some x := ⟨_, List.getElem?_eq_getElem (by omega)⟩
  have htotal : partialSum 0.0 tasks (tasks.length - 1) + x = partialSum 0.0 tasks tasks.length := by
    rw [← partialSum_succ _ hx, Nat.sub_add_cancel hpos]
  unfold computeChunksizes
  rw [hworkload, Option.bind_eq_bind, Option.bind_some]
  rw [List.getLast?_eq_getElem?, List.getLast?_eq_getElem?, hlen, hw _ (by omega), hx]
  simp only [Option.bind_eq_bind, Option.bind_some, htotal]
  have hloop : chunkLoop workload (partialSum 0.0 tasks tasks.length / CDouble.ofLong (BitVec.ofNat 64 K)) tasks.length
      tasks.length (([] : List Nat).length + 1) (0 + 1) ([] ++ List.replicate K 0) = _ := chunkLoop_spec hw h (by omega)
  exact hloop

end

/-! ## The weights -/

/-- The weight of `size` tasks from position `off` on, as `compute_chunkweights` adds it up. -/
def chunkWeight (tasks : List D) (off size : Nat) : D := ((tasks.drop off).take size).foldl (· + ·) 0.0

theorem chunkWeight_succ {tasks : List D} {off k : Nat} {x : D} (h : tasks[off + k]? = some x) :
    chunkWeight tasks off (k + 1) = chunkWeight tasks off k + x := by
  obtain ⟨hlt, rfl⟩ := List.getElem?_eq_some_iff.1 h
  unfold chunkWeight
  rw [List.take_add_one, List.getElem?_drop, List.getElem?_eq_getElem hlt, List.foldl_append]
  rfl

/-- `compute_chunkweights` adds up the weights of the chunks. -/
theorem computeChunkweights_spec {tasks : List D} {sizes : List Nat} {K : Nat} (hK : sizes.length = K)
    (hsum : sizes.sum ≤ tasks.length) : ∃ chunks, computeChunkweights tasks sizes K = some chunks ∧ chunks.length = K ∧
      ∀ c < K, chunks[c]? = some (chunkWeight tasks (startOf sizes c) (sizes.getD c 0)) := by
  have hloop := foldlM_range' (f := fun (st : List D × Nat) i => do
      let size ← get sizes i
      (List.range' 1 size).foldlM (fun (st : List D × Nat) _ => do
        return (← set st.1 i ((← get st.1 i) + (← get tasks st.2)), st.2 + 1)) st)
    (fun i st => st.1.length = K ∧ st.2 = startOf sizes (i - 1) + 1 ∧
      ∀ c < K, st.1[c]? = some (if c + 1 < i then chunkWeight tasks (startOf sizes c) (sizes.getD c 0) else 0.0))
    (b := (List.replicate K 0.0, 1)) (n := K) (s := 1)
    ⟨List.length_replicate, by rw [Nat.sub_self, startOf_zero], fun c hc => ?_⟩ fun i st h1 hi hI => ?_
  · obtain ⟨⟨chunks, k⟩, hfold, hlen, -, hw⟩ := hloop
    refine ⟨chunks, ?_, hlen, fun c hc => ?_⟩
    · unfold computeChunkweights
      exact congrArg (fun r => r.bind fun st : List D × Nat => some st.1) hfold
    · rw [hw c hc, if_pos (by omega)]
  · rw [List.getElem?_replicate_of_lt hc, if_neg (by omega)]
  · obtain ⟨c, rfl⟩ : ∃ c, i = c + 1 := ⟨i - 1, by omega⟩
    obtain ⟨chunks, k⟩ := st
    obtain ⟨hlen, hk, hw⟩ := hI
    replace hlen : chunks.length = K := hlen
    replace hk : k = startOf sizes c + 1 := hk
    subst hk
    have hc : c < K := by omega
    obtain ⟨size, hsize⟩ : ∃ size, sizes[c]? = some size := ⟨_, List.getElem?_eq_getElem (by omega)⟩
    have hend : startOf sizes c + size ≤ tasks.length := by
      rw [← startOf_succ hsize]
      exact le_trans (startOf_le_sum sizes (c + 1)) hsum
    have hzero : chunks[c]? = some 0.0 := by
      rw [hw c hc, if_neg (by omega)]
    -- the inner loop adds the tasks of the chunk one after the other
    have hinner := foldlM_range' (f := fun (st : List D × Nat) _ => do
        return (← set st.1 (c + 1) ((← get st.1 (c + 1)) + (← get tasks st.2)), st.2 + 1))
      (fun j st => st = (chunks.set c (chunkWeight tasks (startOf sizes c) (j - 1)), startOf sizes c + j))
      (b := (chunks, startOf sizes c + 1)) (n := size) (s := 1) ?_ fun j st h1 hj hst => ?_
    · obtain ⟨st', hfold, rfl⟩ := hinner
      have hgetD : sizes.getD c 0 = size := by rw [List.getD_eq_getElem?_getD, hsize]; rfl
      refine ⟨(chunks.set c (chunkWeight tasks (startOf sizes c) (1 + size - 1)), startOf sizes c + (1 + size)), ?_,
        by rw [List.length_set]; exact hlen, ?_, fun m hm => ?_⟩
      · show (get sizes (c + 1)).bind _ = _
        rw [get_succ, hsize, Option.bind_some]
        exact hfold
      · show startOf sizes c + (1 + size) = startOf sizes (c + 1) + 1
        rw [startOf_succ hsize]
        omega
      · show (chunks.set c _)[m]? = _
        by_cases hmc : m = c
        · subst hmc
          rw [List.getElem?_set_self (by omega), if_pos (by omega), hgetD, Nat.add_sub_cancel_left]
        · rw [List.getElem?_set_ne (Ne.symm hmc), hw m hm]
          exact congrArg some (if_congr (by omega) rfl rfl)
    · rw [Nat.sub_self]
      have : chunkWeight tasks (startOf sizes c) 0 = 0.0 := rfl
      rw [this, Prod.mk.injEq]
      refine ⟨List.ext_getElem? fun m => ?_, rfl⟩
      by_cases hmc : m = c
      · subst hmc
        rw [List.getElem?_set_self (by omega), hzero]
      · rw [List.getElem?_set_ne (Ne.symm hmc)]
    · subst hst
      obtain ⟨q, rfl⟩ : ∃ q, j = q + 1 := ⟨j - 1, by omega⟩
      obtain ⟨x, hx⟩ : ∃ x, tasks[startOf sizes c + q]? = some x := ⟨_, List.getElem?_eq_getElem (by omega)⟩
      refine ⟨_, ?_, rfl⟩
      show (do return (← set (chunks.set c _) (c + 1) ((← get (chunks.set c _) (c + 1)) + (← get tasks _)), _)) = _
      rw [get_succ, List.getElem?_set_self (by omega), ← Nat.add_assoc, get_succ, hx]
      simp only [Option.bind_eq_bind, Option.bind_some, Option.pure_def]
      rw [set_succ _ (by rw [List.length_set]; omega), Option.bind_some, List.set_set, Nat.add_sub_cancel,
        Nat.add_sub_cancel, chunkWeight_succ hx]
      rfl

end Bosched.Julia
