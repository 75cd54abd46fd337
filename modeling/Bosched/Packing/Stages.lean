/-
The stages of `binlpt_balance`: the greedy cut of the tasks into chunks, the weights of the chunks,
and the sort that tracks where each chunk came from. Each stage is a loop with an invariant of its
own, and none of them fails on a workload whose total fits an `unsigned`.
-/
import Bosched.Lib.Folds
import Bosched.Runtime.Binlpt
import Bosched.Runtime.Weights

namespace Bosched

open Lib

theorem store_some {α : Type} {a : List α} {i : Nat} (x : α) (h : i < a.length) : store a i x = some (a.set i x) :=
  if_pos h

/-! ## Prefix weights -/

/-- `sum` holds the prefix weights of `a`. -/
def Cumulates (a sum : List U32) (n : Nat) : Prop := ∀ i < n, ∃ s, sum[i]? = some s ∧ s.toNat = prefixWeight a 0 i

/-- The prefix sums are the prefix weights in the arithmetic of `unsigned`. -/
theorem computeCummulativesum_ofNat {a : List U32} {n : Nat} (hn : 0 < n) (hlen : n ≤ a.length) :
    ∃ sum, computeCummulativesum a n = some sum ∧ sum.length = n ∧
      ∀ i < n, sum[i]? = some (BitVec.ofNat 32 (prefixWeight a 0 i)) := by
  have hloop := foldlM_range (f := fun sum i => do return sum ++ [(← sum[i]?) + (← a[i]?)]) (b := [0]) (n := n - 1)
    (fun i sum => sum.length = i + 1 ∧ ∀ m < i + 1, sum[m]? = some (BitVec.ofNat 32 (prefixWeight a 0 m)))
    ⟨rfl, fun m hm => ?_⟩ fun i sum hi hI => ?_
  · obtain ⟨sum, hfold, hl, hcum⟩ := hloop
    rw [Nat.sub_add_cancel hn] at hl hcum
    refine ⟨sum, ?_, hl, hcum⟩
    unfold computeCummulativesum
    rw [if_neg (by omega)]
    exact hfold
  · obtain rfl : m = 0 := by omega
    rw [prefixWeight_zero]
    rfl
  · obtain ⟨hl, hcum⟩ := hI
    obtain ⟨w, hw⟩ : ∃ w, a[i]? = some w := ⟨_, List.getElem?_eq_getElem (by omega)⟩
    have hw0 : a[0 + i]? = some w := by rwa [zero_add]
    refine ⟨sum ++ [BitVec.ofNat 32 (prefixWeight a 0 i) + w], by rw [hcum i (Nat.lt_succ_self i), hw]; rfl, by simp [hl],
      fun m hm => ?_⟩
    rcases Nat.lt_or_eq_of_le (Nat.le_of_lt_succ hm) with hlt | rfl
    · rw [List.getElem?_append_left (by omega)]
      exact hcum m hlt
    · rw [List.getElem?_append_right (by omega), hl, Nat.sub_self, prefixWeight_succ hw0, BitVec.ofNat_add,
        BitVec.ofNat_toNat, BitVec.setWidth_eq]
      rfl

theorem computeCummulativesum_spec {a : List U32} {n : Nat} (hn : 0 < n) (hlen : n ≤ a.length)
    (hsum : prefixWeight a 0 n < 2 ^ 32) : ∃ sum, computeCummulativesum a n = some sum ∧ Cumulates a sum n := by
  obtain ⟨sum, hfold, -, hcum⟩ := computeCummulativesum_ofNat hn hlen
  refine ⟨sum, hfold, fun i hi => ⟨_, hcum i hi, ?_⟩⟩
  have := prefixWeight_mono a 0 (le_of_lt hi)
  rw [BitVec.toNat_ofNat, Nat.mod_eq_of_lt (by omega)]

/-! ## The cut -/

section

variable {tasks workload : List U32} {n : Nat} {cw : U32}

/-- The inner loop stops behind the first task that takes the chunk over the chunk weight. -/
theorem chunkEnd_spec {i : Nat} (hw : Cumulates tasks workload n) (hi : i < n) :
    ∀ {fuel j : Nat}, n - j ≤ fuel → i < j → j ≤ n →
      (∀ m, i < m → m < j → prefixWeight tasks 0 m - prefixWeight tasks 0 i ≤ cw.toNat) →
      ∃ j', chunkEnd workload cw i n fuel j = some j' ∧ i < j' ∧ j' ≤ n ∧
        (∀ m, i < m → m < j' → prefixWeight tasks 0 m - prefixWeight tasks 0 i ≤ cw.toNat) ∧
        (j' < n → cw.toNat < prefixWeight tasks 0 j' - prefixWeight tasks 0 i)
  | 0, j, hf, hij, hj, hle => ⟨j, rfl, hij, hj, hle, fun h => by omega⟩
  | fuel + 1, j, hf, hij, hj, hle => by
    by_cases hjn : j < n
    · obtain ⟨sj, hsj, hvj⟩ := hw j hjn
      obtain ⟨si, hsi, hvi⟩ := hw i hi
      have hmono := prefixWeight_mono tasks 0 (le_of_lt hij)
      have hsub : (sj - si).toNat = prefixWeight tasks 0 j - prefixWeight tasks 0 i := by
        rw [BitVec.toNat_sub_of_le (by rw [BitVec.le_def]; omega), hvj, hvi]
      simp only [chunkEnd, if_pos hjn, hsj, hsi, Option.bind_eq_bind, Option.bind_some]
      split
      · rename_i hgt
        rw [gt_iff_lt, BitVec.lt_def, hsub] at hgt
        exact ⟨j, rfl, hij, hj, hle, fun _ => hgt⟩
      · rename_i hgt
        rw [gt_iff_lt, BitVec.lt_def, hsub] at hgt
        refine chunkEnd_spec hw hi (by omega) (by omega) hjn fun m h1 h2 => ?_
        rcases Nat.lt_or_eq_of_le (Nat.le_of_lt_succ h2) with hlt | rfl
        · exact hle m h1 hlt
        · exact not_lt.1 hgt
    · exact ⟨j, by simp [chunkEnd, hjn], hij, hj, hle, fun h => absurd h hjn⟩

/-- The weight of chunk `m`, which ends where the first `m + 1` sizes end. -/
def chunkWeight (tasks sizes : List U32) (m : Nat) : Nat :=
  prefixWeight tasks 0 (prefixWeight sizes 0 (m + 1)) - prefixWeight tasks 0 (prefixWeight sizes 0 m)

/-- Storing the size of chunk `k` moves the end of the cut. -/
theorem prefixWeight_store {sizes : List U32} {k : Nat} (hk : k < sizes.length) (x : U32) :
    prefixWeight (sizes.set k x) 0 (k + 1) = prefixWeight sizes 0 k + x.toNat := by
  have hget : (sizes.set k x)[0 + k]? = some x := by rw [zero_add, List.getElem?_set_self hk]
  rw [prefixWeight_succ hget, prefixWeight_set_of_le _ _ (le_refl k)]

/-- The sizes of the first `k` of `K` chunks, which reach up to task `i`, whatever the chunks weigh. -/
structure Spans (sizes : List U32) (n K k i : Nat) : Prop where
  len : sizes.length = K
  pos : prefixWeight sizes 0 k = i
  le : i ≤ n
  rest : ∀ m, k ≤ m → m < K → sizes[m]? = some 0
  room : i < n → k < K

/-- What `compute_chunksizes` computes for any weights: the sizes of `K` chunks, which add up to `n`. -/
structure CutsInto (sizes : List U32) (n K : Nat) : Prop where
  len : sizes.length = K
  total : prefixWeight sizes 0 K = n

theorem Spans.store {sizes : List U32} {K k i j : Nat} (h : Spans sizes n K k i) (hn : n < 2 ^ 32) (hi : i < n) (hij : i < j)
    (hj : j ≤ n) (hroom : j < n → k + 1 < K) : Spans (sizes.set k (BitVec.ofNat 32 (j - i))) n K (k + 1) j := by
  have hkK := h.room hi
  refine ⟨by rw [List.length_set]; exact h.len, ?_, hj, fun m hm hmK => ?_, hroom⟩
  · rw [prefixWeight_store (by rw [h.len]; exact hkK), h.pos, BitVec.toNat_ofNat, Nat.mod_eq_of_lt (by omega)]
    omega
  · rw [List.getElem?_set_ne (by omega)]
    exact h.rest m (by omega) hmK

/-- Behind the cut nothing is left to add. -/
theorem Spans.total {sizes : List U32} {K k i : Nat} (h : Spans sizes n K k i) :
    ∀ {m : Nat}, k ≤ m → m ≤ K → prefixWeight sizes 0 m = i
  | 0, hkm, _ => by rw [← h.pos, Nat.le_zero.1 hkm]
  | m + 1, hkm, hmK => by
    rcases Nat.lt_or_eq_of_le hkm with hlt | heq
    · have hzero : sizes[0 + m]? = some 0 := by rw [zero_add]; exact h.rest m (by omega) (by omega)
      rw [prefixWeight_succ hzero, h.total (by omega) (by omega)]
      rfl
    · rw [← heq]
      exact h.pos

theorem Spans.cutsInto {sizes : List U32} {K k : Nat} (h : Spans sizes n K k n) : CutsInto sizes n K := by
  refine ⟨h.len, ?_⟩
  rcases Nat.le_total k K with hkK | hKk
  · exact h.total hkK (le_refl K)
  · -- all sizes are in use
    have hall : prefixWeight sizes 0 k = prefixWeight sizes 0 K := by
      unfold prefixWeight prefixSum
      rw [List.drop_zero, List.take_of_length_le (by simp [h.len]; exact hKk), List.take_of_length_le (by simp [h.len])]
    rw [← hall]
    exact h.pos

theorem CutsInto.offset_le {sizes : List U32} {K : Nat} (h : CutsInto sizes n K) {m : Nat} (hm : m ≤ K) :
    prefixWeight sizes 0 m ≤ n := by
  rw [← h.total]
  exact prefixWeight_mono sizes 0 hm

theorem spans_nil {K : Nat} (hK : 0 < K) : Spans (List.replicate K 0) n K 0 0 :=
  ⟨List.length_replicate, by simp, Nat.zero_le n, fun m _ hm => List.getElem?_replicate_of_lt hm, fun _ => hK⟩

/-- The cut after `k` chunks, up to task `i`: as long as tasks are left the chunks are heavier than
the chunk weight, and none is heavier than an even share and one task. -/
structure CutTo (tasks : List U32) (n K cw top : Nat) (sizes : List U32) (k i : Nat) : Prop where
  len : sizes.length = K
  pos : prefixWeight sizes 0 k = i
  le : i ≤ n
  rest : ∀ m, k ≤ m → m < K → sizes[m]? = some 0
  heavy : i < n → k < K ∧ k * (cw + 1) ≤ prefixWeight tasks 0 i
  light : ∀ m < k, K * chunkWeight tasks sizes m ≤ prefixWeight tasks 0 n + K * top

theorem CutTo.spans {K cw top : Nat} {sizes : List U32} {k i : Nat} (h : CutTo tasks n K cw top sizes k i) :
    Spans sizes n K k i :=
  ⟨h.len, h.pos, h.le, h.rest, fun hi => (h.heavy hi).1⟩

/-- One more chunk `[i, j)`. -/
theorem CutTo.store {K top : Nat} {sizes : List U32} {k i j : Nat} (h : CutTo tasks n K cw.toNat top sizes k i)
    (hn : n < 2 ^ 32) (hi : i < n) (hij : i < j) (hj : j ≤ n)
    (hheavy : j < n → k + 1 < K ∧ cw.toNat < prefixWeight tasks 0 j - prefixWeight tasks 0 i)
    (hlight : K * (prefixWeight tasks 0 j - prefixWeight tasks 0 i) ≤ prefixWeight tasks 0 n + K * top) :
    CutTo tasks n K cw.toNat top (sizes.set k (BitVec.ofNat 32 (j - i))) (k + 1) j := by
  obtain ⟨hkK, hweight⟩ := h.heavy hi
  have hspans := h.spans.store hn hi hij hj fun hjn => (hheavy hjn).1
  refine ⟨hspans.len, hspans.pos, hspans.le, hspans.rest, fun hjn => ?_, fun m hm => ?_⟩
  · obtain ⟨hk1, hgt⟩ := hheavy hjn
    refine ⟨hk1, ?_⟩
    rw [Nat.add_mul]
    omega
  · rcases Nat.lt_or_eq_of_le (Nat.le_of_lt_succ hm) with hlt | rfl
    · unfold chunkWeight
      rw [prefixWeight_set_of_le _ _ (by omega), prefixWeight_set_of_le _ _ (by omega)]
      exact h.light m hlt
    · unfold chunkWeight
      rw [hspans.pos, prefixWeight_set_of_le _ _ (le_refl m), h.pos]
      exact hlight

theorem chunkLoop_succ {K fuel k i : Nat} {sizes : List U32} (hi : i < n) :
    chunkLoop workload cw n K (fuel + 1) k i sizes =
      (if k < K - 1 then chunkEnd workload cw i n (n - i) (i + 1) else some n).bind fun j =>
        (store sizes k (BitVec.ofNat 32 (j - i))).bind fun sizes => chunkLoop workload cw n K fuel (k + 1) j sizes := by
  simp only [chunkLoop, if_pos hi]
  split <;> rfl

/-- A chunk that is cut off is no heavier than the chunk weight and its last task. -/
theorem cut_light {i j top : Nat} (hlen : n ≤ tasks.length) (htop : ∀ w ∈ tasks, w.toNat ≤ top) (hij : i < j) (hj : j ≤ n)
    (hle : ∀ m, i < m → m < j → prefixWeight tasks 0 m - prefixWeight tasks 0 i ≤ cw.toNat) :
    prefixWeight tasks 0 j - prefixWeight tasks 0 i ≤ cw.toNat + top := by
  obtain ⟨w, hw⟩ : ∃ w, tasks[j - 1]? = some w := ⟨_, List.getElem?_eq_getElem (by omega)⟩
  have hlast : prefixWeight tasks 0 (j - 1 + 1) = prefixWeight tasks 0 (j - 1) + w.toNat :=
    prefixWeight_succ (by rwa [zero_add])
  rw [Nat.sub_add_cancel (by omega)] at hlast
  have hwtop := htop w (List.mem_of_getElem? hw)
  have hbefore : prefixWeight tasks 0 (j - 1) - prefixWeight tasks 0 i ≤ cw.toNat := by
    rcases Nat.lt_or_eq_of_le (Nat.le_sub_one_of_lt hij) with hlt | heq
    · exact hle (j - 1) hlt (by omega)
    · rw [← heq]
      omega
  omega

/-- What is left for the last chunk is no more than an even share, since the chunks before it are heavier. -/
theorem last_light {k total left : Nat} (h1 : k * (cw.toNat + 1) ≤ left) (h2 : total < (k + 1) * (cw.toNat + 1)) :
    (k + 1) * (total - left) ≤ total := by
  have hkey : k * total ≤ (k + 1) * left :=
    calc k * total ≤ k * ((k + 1) * (cw.toNat + 1)) := Nat.mul_le_mul_left k (le_of_lt h2)
      _ = (k + 1) * (k * (cw.toNat + 1)) := by ring
      _ ≤ (k + 1) * left := Nat.mul_le_mul_left (k + 1) h1
  have hsplit : (k + 1) * total = k * total + total := by ring
  rw [Nat.mul_sub, hsplit]
  omega

/-- The outer loop cuts up to the last task. -/
theorem chunkLoop_spec {K top : Nat} (hw : Cumulates tasks workload n) (hlen : n ≤ tasks.length) (hn : n < 2 ^ 32)
    (hK : 0 < K) (hcw : cw.toNat = prefixWeight tasks 0 n / K) (htop : ∀ w ∈ tasks, w.toNat ≤ top) :
    ∀ {fuel k i : Nat} {sizes : List U32}, n - i ≤ fuel → CutTo tasks n K cw.toNat top sizes k i →
      ∃ sizes' k', chunkLoop workload cw n K fuel k i sizes = some sizes' ∧ CutTo tasks n K cw.toNat top sizes' k' n
  | 0, k, i, sizes, hf, h => by
    obtain rfl : i = n := by have := h.le; omega
    exact ⟨sizes, k, rfl, h⟩
  | fuel + 1, k, i, sizes, hf, h => by
    by_cases hi : i < n
    · obtain ⟨hkK, hweight⟩ := h.heavy hi
      have hshare : K * cw.toNat ≤ prefixWeight tasks 0 n := by rw [hcw]; exact Nat.mul_div_le _ _
      have hover : prefixWeight tasks 0 n < K * (cw.toNat + 1) := by
        rw [hcw]
        exact Nat.lt_mul_div_succ _ hK
      have hend : ∃ j, (if k < K - 1 then chunkEnd workload cw i n (n - i) (i + 1) else some n) = some j ∧ i < j ∧ j ≤ n ∧
          (j < n → k + 1 < K ∧ cw.toNat < prefixWeight tasks 0 j - prefixWeight tasks 0 i) ∧
          K * (prefixWeight tasks 0 j - prefixWeight tasks 0 i) ≤ prefixWeight tasks 0 n + K * top := by
        split
        · rename_i hk
          have hnone : ∀ m, i < m → m < i + 1 → prefixWeight tasks 0 m - prefixWeight tasks 0 i ≤ cw.toNat :=
            fun m h1 h2 => by omega
          obtain ⟨j, hj, hij, hjn, hle, hgt⟩ := chunkEnd_spec hw hi (by omega : n - (i + 1) ≤ n - i) (Nat.lt_succ_self i) hi hnone
          refine ⟨j, hj, hij, hjn, fun hlt => ⟨by omega, hgt hlt⟩, ?_⟩
          have := Nat.mul_le_mul_left K (cut_light hlen htop hij hjn hle)
          rw [Nat.mul_add] at this
          omega
        · rename_i hk
          obtain rfl : K = k + 1 := by omega
          refine ⟨n, rfl, hi, le_refl n, fun hlt => absurd hlt (lt_irrefl n), ?_⟩
          have := last_light hweight hover
          omega
      obtain ⟨j, hj, hij, hjn, hheavy, hlight⟩ := hend
      obtain ⟨sizes', k', hrest, h'⟩ := chunkLoop_spec hw hlen hn hK hcw htop (by omega : n - j ≤ fuel)
        (h.store hn hi hij hjn hheavy hlight)
      refine ⟨sizes', k', ?_, h'⟩
      rw [chunkLoop_succ hi, hj, Option.bind_some, store_some _ (by rw [h.len]; exact hkK), Option.bind_some]
      exact hrest
    · obtain rfl : i = n := by have := h.le; omega
      exact ⟨sizes, k, by simp [chunkLoop], h⟩

/-- The inner loop makes progress, whatever the sums are. -/
theorem chunkEnd_some {i : Nat} (hw : workload.length = n) (hi : i < n) : ∀ {fuel j : Nat}, n - j ≤ fuel → i < j → j ≤ n →
    ∃ j', chunkEnd workload cw i n fuel j = some j' ∧ i < j' ∧ j' ≤ n
  | 0, j, _, hij, hj => ⟨j, rfl, hij, hj⟩
  | fuel + 1, j, hf, hij, hj => by
    by_cases hjn : j < n
    · obtain ⟨sj, hsj⟩ : ∃ s, workload[j]? = some s := ⟨_, List.getElem?_eq_getElem (by omega)⟩
      obtain ⟨si, hsi⟩ : ∃ s, workload[i]? = some s := ⟨_, List.getElem?_eq_getElem (by omega)⟩
      simp only [chunkEnd, if_pos hjn, hsj, hsi, Option.bind_eq_bind, Option.bind_some]
      split
      · exact ⟨j, rfl, hij, hj⟩
      · exact chunkEnd_some hw hi (by omega) (by omega) hjn
    · exact ⟨j, by simp [chunkEnd, hjn], hij, hj⟩

/-- The outer loop stores each size below the number of chunks: the last chunk takes what is left. -/
theorem chunkLoop_some {K : Nat} (hw : workload.length = n) (hn : n < 2 ^ 32) : ∀ {fuel k i : Nat} {sizes : List U32},
    n - i ≤ fuel → Spans sizes n K k i →
      ∃ sizes' k', chunkLoop workload cw n K fuel k i sizes = some sizes' ∧ Spans sizes' n K k' n
  | 0, k, i, sizes, hf, h => by
    obtain rfl : i = n := by have := h.le; omega
    exact ⟨sizes, k, rfl, h⟩
  | fuel + 1, k, i, sizes, hf, h => by
    by_cases hi : i < n
    · have hkK := h.room hi
      have hend : ∃ j, (if k < K - 1 then chunkEnd workload cw i n (n - i) (i + 1) else some n) = some j ∧ i < j ∧ j ≤ n ∧
          (j < n → k + 1 < K) := by
        split
        · obtain ⟨j, hj, hij, hjn⟩ := chunkEnd_some hw hi (by omega : n - (i + 1) ≤ n - i) (Nat.lt_succ_self i) hi
          exact ⟨j, hj, hij, hjn, fun _ => by omega⟩
        · exact ⟨n, rfl, hi, le_refl n, fun hlt => absurd hlt (lt_irrefl n)⟩
      obtain ⟨j, hj, hij, hjn, hroom⟩ := hend
      obtain ⟨sizes', k', hrest, h'⟩ := chunkLoop_some hw hn (by omega : n - j ≤ fuel) (h.store hn hi hij hjn hroom)
      refine ⟨sizes', k', ?_, h'⟩
      rw [chunkLoop_succ hi, hj, Option.bind_some, store_some _ (by rw [h.len]; exact hkK), Option.bind_some]
      exact hrest
    · obtain rfl : i = n := by have := h.le; omega
      exact ⟨sizes, k, by simp [chunkLoop], h⟩

/-- The cut succeeds for any weights, also if their sums wrap around. -/
theorem computeChunksizes_some {K : Nat} (hn0 : 0 < n) (hlen : n ≤ tasks.length) (hn : n < 2 ^ 32) (hK : 0 < K) :
    ∃ sizes, computeChunksizes tasks n K = some sizes ∧ CutsInto sizes n K := by
  obtain ⟨workload, hworkload, hwlen, -⟩ := computeCummulativesum_ofNat hn0 hlen
  obtain ⟨s, hs⟩ : ∃ s, workload[n - 1]? = some s := ⟨_, List.getElem?_eq_getElem (by omega)⟩
  obtain ⟨w, hw⟩ : ∃ w, tasks[n - 1]? = some w := ⟨_, List.getElem?_eq_getElem (by omega)⟩
  obtain ⟨sizes, k, hloop, hspans⟩ := chunkLoop_some hwlen hn (by omega : n - 0 ≤ n) (spans_nil hK)
  refine ⟨sizes, ?_, hspans.cutsInto⟩
  unfold computeChunksizes
  rw [hworkload]
  show (if K = 0 then none else _) = some sizes
  rw [if_neg (by omega), hs, hw]
  exact hloop

/-- What `compute_chunksizes` computes: the sizes add up to the number of tasks, and no chunk is
heavier than an even share and one task. -/
structure Cut (tasks : List U32) (n K top : Nat) (sizes : List U32) : Prop where
  len : sizes.length = K
  total : prefixWeight sizes 0 K = n
  light : ∀ m < K, K * chunkWeight tasks sizes m ≤ prefixWeight tasks 0 n + K * top

theorem computeChunksizes_spec {K top : Nat} (hn0 : 0 < n) (hlen : n ≤ tasks.length) (hn : n < 2 ^ 32) (hK : 0 < K)
    (hK32 : K < 2 ^ 32) (hsum : prefixWeight tasks 0 n < 2 ^ 32) (htop : ∀ w ∈ tasks, w.toNat ≤ top) :
    ∃ sizes, computeChunksizes tasks n K = some sizes ∧ Cut tasks n K top sizes := by
  obtain ⟨workload, hworkload, hw⟩ := computeCummulativesum_spec hn0 hlen hsum
  obtain ⟨s, hs, hsv⟩ := hw (n - 1) (by omega)
  obtain ⟨w, hwn⟩ : ∃ w, tasks[n - 1]? = some w := ⟨_, List.getElem?_eq_getElem (by omega)⟩
  have htotal : (s + w).toNat = prefixWeight tasks 0 n := by
    have hw0 : tasks[0 + (n - 1)]? = some w := by rwa [zero_add]
    rw [toNat_add_weight hsv hw0 (by omega : n - 1 < n) hsum, Nat.sub_add_cancel hn0]
  have hcw : ((s + w) / BitVec.ofNat 32 K).toNat = prefixWeight tasks 0 n / K := by
    rw [BitVec.toNat_udiv, htotal, BitVec.toNat_ofNat, Nat.mod_eq_of_lt hK32]
  have hstart : CutTo tasks n K ((s + w) / BitVec.ofNat 32 K).toNat top (List.replicate K 0) 0 0 :=
    let h₀ : Spans (List.replicate K 0) n K 0 0 := spans_nil hK
    ⟨h₀.len, h₀.pos, h₀.le, h₀.rest, fun _ => ⟨hK, by simp⟩, fun m hm => absurd hm (Nat.not_lt_zero m)⟩
  obtain ⟨sizes, k, hloop, hcut⟩ := chunkLoop_spec hw hlen hn hK hcw htop (by omega : n - 0 ≤ n) hstart
  refine ⟨sizes, ?_, hcut.len, hcut.spans.cutsInto.total, fun m hm => ?_⟩
  · unfold computeChunksizes
    rw [hworkload]
    show (if K = 0 then none else _) = some sizes
    rw [if_neg (by omega), hs, hwn]
    exact hloop
  · by_cases hmk : m < k
    · exact hcut.light m hmk
    · unfold chunkWeight
      rw [hcut.spans.total (by omega) (by omega), hcut.spans.total (by omega) (by omega), Nat.sub_self, Nat.mul_zero]
      exact Nat.zero_le _

end

/-! ## The weights of the chunks -/

section

variable {tasks sizes : List U32} {n K top : Nat}

theorem Cut.cutsInto (h : Cut tasks n K top sizes) : CutsInto sizes n K := ⟨h.len, h.total⟩

theorem Cut.offset_le (h : Cut tasks n K top sizes) {m : Nat} (hm : m ≤ K) : prefixWeight sizes 0 m ≤ n := h.cutsInto.offset_le hm

theorem Cut.chunkWeight_le (h : Cut tasks n K top sizes) {m : Nat} (hm : m < K) :
    chunkWeight tasks sizes m ≤ prefixWeight tasks 0 n :=
  le_trans (Nat.sub_le _ _) (prefixWeight_mono tasks 0 (h.offset_le hm))

/-- `chunks` holds the weights of the chunks. -/
def Weighs (tasks sizes chunks : List U32) (K : Nat) : Prop :=
  ∀ m < K, ∃ c, chunks[m]? = some c ∧ c.toNat = chunkWeight tasks sizes m

/-- The sums over the chunks are their weights in the arithmetic of `unsigned`. -/
theorem computeChunks_ofNat (h : CutsInto sizes n K) (hlen : n ≤ tasks.length) :
    ∃ chunks, computeChunks tasks sizes K = some chunks ∧ chunks.length = K ∧
      ∀ m < K, chunks[m]? = some (BitVec.ofNat 32 (chunkWeight tasks sizes m)) := by
  -- after chunk `i` the task counter is at the end of it
  let I : Nat → List U32 × Nat → Prop := fun i st => st.1.length = K ∧ st.2 = prefixWeight sizes 0 i ∧
    (∀ m < i, st.1[m]? = some (BitVec.ofNat 32 (chunkWeight tasks sizes m))) ∧ ∀ m, i ≤ m → m < K → st.1[m]? = some 0
  have hloop := foldlM_range (f := fun (st : List U32 × Nat) i => do
    let size ← sizes[i]?
    (List.range size.toNat).foldlM (fun (st : List U32 × Nat) _ => do
      return (← store st.1 i ((← st.1[i]?) + (← tasks[st.2]?)), st.2 + 1)) st) (b := (List.replicate K 0, 0)) (n := K) I
    ⟨List.length_replicate, by simp, fun m hm => absurd hm (Nat.not_lt_zero m),
      fun m _ hm => List.getElem?_replicate_of_lt hm⟩ fun i st hi hI => ?_
  · obtain ⟨⟨chunks, k⟩, hfold, hl, -, hweighs, -⟩ := hloop
    refine ⟨chunks, ?_, hl, hweighs⟩
    unfold computeChunks
    rw [hfold]
    rfl
  · obtain ⟨hl, hk, hweighs, hzero⟩ := hI
    obtain ⟨size, hsize⟩ : ∃ size, sizes[i]? = some size := ⟨_, List.getElem?_eq_getElem (by rw [h.len]; exact hi)⟩
    have hnext : prefixWeight sizes 0 (i + 1) = prefixWeight sizes 0 i + size.toNat :=
      prefixWeight_succ (by rwa [zero_add])
    have hle : prefixWeight sizes 0 (i + 1) ≤ n := h.offset_le hi
    -- the inner loop adds up the tasks of the chunk
    let J : Nat → List U32 × Nat → Prop := fun j st' => st'.1.length = K ∧ st'.2 = prefixWeight sizes 0 i + j ∧
      (∀ m, m ≠ i → st'.1[m]? = st.1[m]?) ∧ st'.1[i]? = some (BitVec.ofNat 32 (prefixWeight tasks (prefixWeight sizes 0 i) j))
    have hinner := foldlM_range (f := fun (st : List U32 × Nat) _ => do
      return (← store st.1 i ((← st.1[i]?) + (← tasks[st.2]?)), st.2 + 1)) (b := st) (n := size.toNat) J
      ⟨hl, by rw [hk]; rfl, fun _ _ => rfl, by rw [prefixWeight_zero]; exact hzero i (le_refl i) hi⟩ fun j st' hj hJ => ?_
    · obtain ⟨st', hfold, hl', hk', hother, hc⟩ := hinner
      refine ⟨st', by rw [hsize]; exact hfold, hl', by rw [hk', hnext], fun m hm => ?_, fun m hm hmK => ?_⟩
      · rcases Nat.lt_or_eq_of_le (Nat.le_of_lt_succ hm) with hlt | rfl
        · rw [hother m (by omega)]
          exact hweighs m hlt
        · rw [hc]
          unfold chunkWeight
          rw [hnext, prefixWeight_add, Nat.add_sub_cancel_left]
      · rw [hother m (by omega)]
        exact hzero m (by omega) hmK
    · obtain ⟨hl', hk', hother, hc⟩ := hJ
      obtain ⟨w, hw⟩ : ∃ w, tasks[prefixWeight sizes 0 i + j]? = some w := ⟨_, List.getElem?_eq_getElem (by omega)⟩
      have hi' : i < st'.1.length := by rw [hl']; exact hi
      refine ⟨(st'.1.set i (BitVec.ofNat 32 (prefixWeight tasks (prefixWeight sizes 0 i) j) + w), st'.2 + 1), ?_,
        by rw [List.length_set]; exact hl', by rw [hk']; omega, fun m hm => ?_, ?_⟩
      · rw [hc, hk', hw]
        show (do return (← store st'.1 i _, prefixWeight sizes 0 i + j + 1)) = _
        rw [store_some _ hi']
        rfl
      · rw [List.getElem?_set_ne (Ne.symm hm)]
        exact hother m hm
      · rw [List.getElem?_set_self hi', prefixWeight_succ hw, BitVec.ofNat_add, BitVec.ofNat_toNat, BitVec.setWidth_eq]

theorem computeChunks_spec (h : Cut tasks n K top sizes) (hlen : n ≤ tasks.length) (hsum : prefixWeight tasks 0 n < 2 ^ 32) :
    ∃ chunks, computeChunks tasks sizes K = some chunks ∧ chunks.length = K ∧ Weighs tasks sizes chunks K := by
  obtain ⟨chunks, hchunks, hl, hsums⟩ := computeChunks_ofNat h.cutsInto hlen
  refine ⟨chunks, hchunks, hl, fun m hm => ⟨_, hsums m hm, ?_⟩⟩
  rw [BitVec.toNat_ofNat, Nat.mod_eq_of_lt (lt_of_le_of_lt (h.chunkWeight_le hm) hsum)]

end

/-! ## The sort -/

/-- `a` and `map` after some exchanges: `map` still lists the positions `0, …, K - 1`, and `a` holds
the entries of `a₀` in that order. -/
structure Tracks (a₀ : List U32) (K : Nat) (map a : List U32) : Prop where
  len : a.length = K
  perm : (map.take K).Perm ((List.range K).map (BitVec.ofNat 32))
  entry : ∀ i < K, ∃ c, map[i]? = some c ∧ a[i]? = a₀[c.toNat]?

theorem exch_some {α : Type} {a : List α} {i j : Nat} {x y : α} (hx : a[i]? = some x) (hy : a[j]? = some y) :
    exch a i j = some ((a.set i y).set j x) := by
  obtain ⟨hi, -⟩ := List.getElem?_eq_some_iff.1 hx
  obtain ⟨hj, -⟩ := List.getElem?_eq_some_iff.1 hy
  unfold exch
  rw [hx, hy]
  show (do store (← store a i y) j x) = _
  rw [store_some _ hi]
  exact store_some _ (by rw [List.length_set]; exact hj)

theorem getElem?_exch {α : Type} {a : List α} {i j m : Nat} {x y : α} (hx : a[i]? = some x) (hy : a[j]? = some y) :
    ((a.set i y).set j x)[m]? = if m = j then some x else if m = i then some y else a[m]? := by
  obtain ⟨hi, -⟩ := List.getElem?_eq_some_iff.1 hx
  obtain ⟨hj, -⟩ := List.getElem?_eq_some_iff.1 hy
  by_cases hmj : m = j
  · rw [if_pos hmj, hmj, List.getElem?_set_self (by rw [List.length_set]; exact hj)]
  · rw [if_neg hmj, List.getElem?_set_ne (Ne.symm hmj)]
    by_cases hmi : m = i
    · rw [if_pos hmi, hmi, List.getElem?_set_self hi]
    · rw [if_neg hmi, List.getElem?_set_ne (Ne.symm hmi)]

section

variable {a₀ map a : List U32} {K : Nat}

/-- After an exchange the smaller of two entries is in front; the other entries stay. -/
structure Exchanged (a a' : List U32) (i j : Nat) : Prop where
  le : (a'.getD i 0).toNat ≤ (a'.getD j 0).toNat
  pair : (a'.getD i 0 = a.getD i 0 ∧ a'.getD j 0 = a.getD j 0) ∨ (a'.getD i 0 = a.getD j 0 ∧ a'.getD j 0 = a.getD i 0)
  rest : ∀ m, m ≠ i → m ≠ j → a'.getD m 0 = a.getD m 0

theorem Tracks.swap (h : Tracks a₀ K map a) {i j : Nat} (hij : i < j) (hj : j < K) :
    ∃ st, insertionSwap (map, a) i j = some st ∧ Tracks a₀ K st.1 st.2 ∧ Exchanged a st.2 i j := by
  have hi : i < K := hij.trans hj
  obtain ⟨x, hx⟩ : ∃ x, a[i]? = some x := ⟨_, List.getElem?_eq_getElem (by rw [h.len]; exact hi)⟩
  obtain ⟨y, hy⟩ : ∃ y, a[j]? = some y := ⟨_, List.getElem?_eq_getElem (by rw [h.len]; exact hj)⟩
  have hxd : a.getD i 0 = x := by rw [List.getD_eq_getElem?_getD, hx]; rfl
  have hyd : a.getD j 0 = y := by rw [List.getD_eq_getElem?_getD, hy]; rfl
  obtain ⟨ci, hci, hai⟩ := h.entry i hi
  obtain ⟨cj, hcj, haj⟩ := h.entry j hj
  by_cases hlt : y < x
  · have hget : ∀ m, ((a.set i y).set j x).getD m 0 = if m = j then x else if m = i then y else a.getD m 0 := fun m => by
      rw [List.getD_eq_getElem?_getD, getElem?_exch hx hy, List.getD_eq_getElem?_getD]
      split
      · rfl
      · split <;> rfl
    refine ⟨((map.set i cj).set j ci, (a.set i y).set j x), ?_, ⟨?_, ?_, fun m hm => ?_⟩, ?_, .inr ?_, fun m hmi hmj => ?_⟩
    · unfold insertionSwap
      simp only [hx, hy, Option.bind_eq_bind, Option.bind_some, if_pos hlt, exch_some hci hcj, exch_some hx hy]
      rfl
    · rw [List.length_set, List.length_set]
      exact h.len
    · refine List.Perm.trans ?_ h.perm
      have hti : (map.take K)[i]? = some ci := by rw [List.getElem?_take_of_lt hi]; exact hci
      have htj : (map.take K)[j]? = some cj := by rw [List.getElem?_take_of_lt hj]; exact hcj
      obtain ⟨hil, hie⟩ := List.getElem?_eq_some_iff.1 hti
      obtain ⟨hjl, hje⟩ := List.getElem?_eq_some_iff.1 htj
      rw [List.take_set, List.take_set, ← hie, ← hje]
      exact List.set_set_perm hil hjl
    · show ∃ c, ((map.set i cj).set j ci)[m]? = some c ∧ ((a.set i y).set j x)[m]? = a₀[c.toNat]?
      rw [getElem?_exch hci hcj, getElem?_exch hx hy]
      by_cases hmj : m = j
      · rw [if_pos hmj, if_pos hmj]
        exact ⟨ci, rfl, hx.symm.trans hai⟩
      · rw [if_neg hmj, if_neg hmj]
        by_cases hmi : m = i
        · rw [if_pos hmi, if_pos hmi]
          exact ⟨cj, rfl, hy.symm.trans haj⟩
        · rw [if_neg hmi, if_neg hmi]
          exact h.entry m hm
    · rw [hget, hget, if_neg (by omega), if_pos rfl, if_pos rfl]
      exact (BitVec.lt_def.1 hlt).le
    · rw [hget, hget, if_neg (by omega), if_pos rfl, if_pos rfl]
      exact ⟨hyd.symm, hxd.symm⟩
    · rw [hget, if_neg hmj, if_neg hmi]
  · refine ⟨(map, a), ?_, h, ?_, .inl ⟨rfl, rfl⟩, fun _ _ _ => rfl⟩
    · unfold insertionSwap
      simp only [hx, hy, Option.bind_eq_bind, Option.bind_some, if_neg hlt]
      rfl
    · rw [hxd, hyd]
      exact not_lt.1 fun hlt' => hlt (BitVec.lt_def.2 hlt')

/-- Each of the first `i` entries is at most those behind it. -/
def LeastTo (a : List U32) (K i : Nat) : Prop := ∀ p < i, ∀ q, p < q → q < K → (a.getD p 0).toNat ≤ (a.getD q 0).toNat

/-- An exchange behind the entries that are in place leaves them in place. -/
theorem Exchanged.leastTo {a' : List U32} {i j : Nat} (h : Exchanged a a' i j) (hij : i < j) (hj : j < K)
    (hleast : LeastTo a K i) : LeastTo a' K i := by
  intro p hp q hpq hq
  rw [h.rest p (by omega) (by omega)]
  by_cases hqi : q = i
  · subst hqi
    rcases h.pair with ⟨heq, -⟩ | ⟨heq, -⟩
    · rw [heq]
      exact hleast p hp q hpq hq
    · rw [heq]
      exact hleast p hp j (by omega) hj
  · by_cases hqj : q = j
    · subst hqj
      rcases h.pair with ⟨-, heq⟩ | ⟨-, heq⟩
      · rw [heq]
        exact hleast p hp q hpq hq
      · rw [heq]
        exact hleast p hp i hp (by omega)
    · rw [h.rest q hqi hqj]
      exact hleast p hp q hpq hq

/-- The sort only exchanges entries, the map follows them, and in the end they ascend. -/
theorem sort_spec (hK : K < 2 ^ 32) (hlen : a₀.length = K) (hmap : K ≤ map.length) :
    ∃ a' map', sort a₀ K map = some (a', map') ∧ Tracks a₀ K map' a' ∧ LeastTo a' K K := by
  -- the identity map first
  have hid := foldlM_range (f := fun map i => store map i (BitVec.ofNat 32 i)) (b := map) (n := K)
    (fun i map' => map'.length = map.length ∧ ∀ m < i, map'[m]? = some (BitVec.ofNat 32 m))
    ⟨rfl, fun m hm => absurd hm (Nat.not_lt_zero m)⟩ fun i map' hi hI => by
      refine ⟨_, store_some _ (by omega), by rw [List.length_set]; exact hI.1, fun m hm => ?_⟩
      rcases Nat.lt_or_eq_of_le (Nat.le_of_lt_succ hm) with hlt | rfl
      · rw [List.getElem?_set_ne (by omega)]
        exact hI.2 m hlt
      · rw [List.getElem?_set_self (by omega)]
  obtain ⟨map₀, hfold, hl₀, hid⟩ := hid
  have hstart : Tracks a₀ K map₀ a₀ := by
    refine ⟨hlen, ?_, fun i hi => ⟨_, hid i hi, ?_⟩⟩
    · refine List.Perm.of_eq (List.ext_getElem? fun m => ?_)
      rw [List.getElem?_map]
      by_cases hm : m < K
      · rw [List.getElem?_take_of_lt hm, hid m hm, List.getElem?_range hm]
        rfl
      · rw [List.getElem?_eq_none (by rw [List.length_take]; omega), List.getElem?_eq_none (by simp; omega)]
        rfl
    · rw [BitVec.toNat_ofNat, Nat.mod_eq_of_lt (by omega)]
  -- then the exchanges: a pass over the rest brings its least entry to the front
  have hloop := foldlM_range (f := fun st i =>
    (List.range' (i + 1) (K - (i + 1))).foldlM (fun st j => insertionSwap st i j) st) (b := (map₀, a₀)) (n := K - 1)
    (fun i st => Tracks a₀ K st.1 st.2 ∧ LeastTo st.2 K i) ⟨hstart, fun p hp => absurd hp (Nat.not_lt_zero p)⟩
    fun i st hi hI => ?_
  · obtain ⟨⟨map', a'⟩, hinsert, htracks, hleast⟩ := hloop
    refine ⟨a', map', ?_, htracks, fun p hp q hpq hq => hleast p (by omega) q hpq hq⟩
    unfold sort
    rw [hfold]
    have hinsertion : insertion map₀ a₀ K = some (map', a') := by
      unfold insertion
      exact hinsert
    simp only [Option.bind_eq_bind, Option.bind_some, hinsertion]
    rfl
  · obtain ⟨st', hfold, htracks, hleast, hfront⟩ := foldlM_range' (f := fun st j => insertionSwap st i j) (b := st)
      (n := K - (i + 1)) (s := i + 1) (fun j st => Tracks a₀ K st.1 st.2 ∧ LeastTo st.2 K i ∧
        ∀ q, i < q → q < j → (st.2.getD i 0).toNat ≤ (st.2.getD q 0).toNat) ⟨hI.1, hI.2, fun q h1 h2 => by omega⟩
      fun j st hij hjK hI => by
        obtain ⟨htracks, hleast, hfront⟩ := hI
        obtain ⟨st', hst', htracks', hex⟩ := htracks.swap (by omega : i < j) (by omega : j < K)
        refine ⟨st', hst', htracks', hex.leastTo (by omega) (by omega) hleast, fun q h1 h2 => ?_⟩
        rcases Nat.lt_or_eq_of_le (Nat.le_of_lt_succ h2) with hlt | rfl
        · rw [hex.rest q (by omega) (by omega)]
          have hold := hfront q h1 hlt
          rcases hex.pair with ⟨heq, -⟩ | ⟨-, heq⟩
          · rw [heq]
            exact hold
          · have hle := hex.le
            rw [heq] at hle
            exact hle.trans hold
        · exact hex.le
    refine ⟨st', hfold, htracks, fun p hp q hpq hq => ?_⟩
    rcases Nat.lt_or_eq_of_le (Nat.le_of_lt_succ hp) with hlt | rfl
    · exact hleast p hlt q hpq hq
    · exact hfront q hpq (by omega)

end

/-- `sort (a, n, map)` leaves the weights in ascending order and in `map` the position each came from. -/
theorem sort_sorts {n : U32} {a map : List U32} (_hn : 1 ≤ n.toNat) (hlen : a.length = n.toNat) (hmap : n.toNat ≤ map.length) :
    ∃ a' map', sort a n.toNat map = some (a', map') ∧ a'.length = n.toNat ∧ a'.Pairwise (fun x y => x.toNat ≤ y.toNat) ∧
      (map'.take n.toNat).Perm ((List.range n.toNat).map (BitVec.ofNat 32)) ∧
      ∀ i < n.toNat, ∃ c, map'[i]? = some c ∧ c.toNat < n.toNat ∧ a'[i]? = a[c.toNat]? := by
  obtain ⟨a', map', hsort, htracks, hleast⟩ := sort_spec n.isLt hlen hmap
  refine ⟨a', map', hsort, htracks.len, ?_, htracks.perm, fun i hi => ?_⟩
  · rw [List.pairwise_iff_getElem]
    intro p q hp hq hpq
    have hle := hleast p (by rw [← htracks.len]; exact hp) q hpq (by rw [← htracks.len]; exact hq)
    rw [List.getD_eq_getElem?_getD, List.getD_eq_getElem?_getD, List.getElem?_eq_getElem hp,
      List.getElem?_eq_getElem hq] at hle
    exact hle
  · obtain ⟨c, hc, hentry⟩ := htracks.entry i hi
    refine ⟨c, hc, ?_, hentry⟩
    -- the entry exists, so it was one of the old weights
    rw [List.getElem?_eq_getElem (by rw [htracks.len]; exact hi)] at hentry
    rw [← hlen]
    exact (List.getElem?_eq_some_iff.1 hentry.symm).1

/-- Three weights, and a map that held something else. -/
theorem sort_sorts_three : ∃ a' map', sort [5, 3, 4] 3 [9, 9, 9] = some (a', map') ∧ a'.length = 3 ∧
    a'.Pairwise (fun x y => x.toNat ≤ y.toNat) ∧ (map'.take 3).Perm ((List.range 3).map (BitVec.ofNat 32)) ∧
    ∀ i < 3, ∃ c, map'[i]? = some c ∧ c.toNat < 3 ∧ a'[i]? = [5, 3, 4][c.toNat]? :=
  sort_sorts (n := 3) (by decide) rfl (by decide)

end Bosched
