/-
The packing loop of the tuner's `binlpt_balance` in exact arithmetic: the chunks are dealt in the order of the stable
sort, from the last one on, each to the first of the least loaded threads.
-/
import Bosched.Lib.Deal
import Bosched.Packing.JuliaCover

namespace Bosched.Julia

open Lib

/-! ## One chunk -/

theorem leastLoaded_first {load : List ℚ} {P : Nat} (hlen : load.length = P) (hP : 0 < P) :
    ∃ t, leastLoaded load P = some (t + 1) ∧ FirstLeast (fun t => load.getD t 0) P t := by
  have hget : ∀ {t : Nat}, t < P → load[t]? = some (load.getD t 0) := fun ht => by
    rw [List.getD_eq_getElem?_getD, List.getElem?_eq_getElem (by omega)]
    rfl
  have hloop := foldlM_range' (f := fun tid j => do
      if CDouble.lt (← get load j) (← get load tid) then return j else return tid) (n := P - 1) (s := 2) (b := 1)
    (fun j tid => ∃ t, tid = t + 1 ∧ t < P ∧ t + 1 < j ∧ (∀ s, s + 1 < j → load.getD t 0 ≤ load.getD s 0) ∧
      ∀ s < t, load.getD t 0 < load.getD s 0)
    ⟨0, rfl, hP, by omega, fun s hs => by rw [show s = 0 by omega], fun s hs => absurd hs (Nat.not_lt_zero s)⟩
    fun j tid h2 hj hI => ?_
  · obtain ⟨tid, hfold, t, rfl, htP, -, hle, hfirst⟩ := hloop
    exact ⟨t, hfold, htP, fun s hs => hle s (by omega), hfirst⟩
  · obtain ⟨t, rfl, htP, htj, hle, hfirst⟩ := hI
    obtain ⟨m, rfl⟩ : ∃ m, j = m + 1 := ⟨j - 1, by omega⟩
    simp only [get_succ, hget (show m < P by omega), hget htP, Option.bind_eq_bind, Option.bind_some, Option.pure_def]
    by_cases hlt : load.getD m 0 < load.getD t 0
    · refine ⟨m + 1, if_pos (decide_eq_true hlt), m, rfl, by omega, by omega, fun s hs => ?_, fun s hs => ?_⟩
      · rcases Nat.lt_or_eq_of_le (show s ≤ m by omega) with h | rfl
        · exact hlt.le.trans (hle s (by omega))
        · exact le_refl _
      · exact hlt.trans_le (hle s (by omega))
    · refine ⟨t + 1, if_neg fun h => hlt (of_decide_eq_true h), t, rfl, htP, by omega, fun s hs => ?_, hfirst⟩
      rcases Nat.lt_or_eq_of_le (show s ≤ m by omega) with h | rfl
      · exact hle s (by omega)
      · exact not_lt.1 hlt

/-- The chunks that were assigned are dealt to their threads. -/
structure Dealing (tasks : List ℚ) (P : Nat) (st : Packing ℚ) : Prop where
  loads : st.load.length = P
  dealt : Dealt P (fun _ => 0) (st.assigned.map fun a => chunkWeight tasks a.off a.size) (st.assigned.map fun a => a.tid - 1)
    fun t => st.load.getD t 0

section

variable {tasks : List ℚ} {sizes chunkoff : List Nat} {chunks : List ℚ} {K P : Nat}

theorem getD_set {load : List ℚ} {t : Nat} (h : t < load.length) (x : ℚ) :
    (fun s => (load.set t x).getD s 0) = Function.update (fun s => load.getD s 0) t x := by
  funext s
  by_cases hs : s = t
  · rw [hs, Function.update_self, List.getD_eq_getElem?_getD, List.getElem?_set_self h, Option.getD_some]
  · rw [Function.update_of_ne hs, List.getD_eq_getElem?_getD, List.getElem?_set_ne (Ne.symm hs), ← List.getD_eq_getElem?_getD]

theorem Dealing.step (hs : Stages tasks sizes K chunks chunkoff) (hP : 0 < P) {st st' : Packing ℚ} {c : Nat}
    (h : Dealing tasks P st) (hstep : packChunk chunks sizes chunkoff P st c = some st') : Dealing tasks P st' := by
  unfold packChunk at hstep
  obtain ⟨weight, hweight, hstep⟩ := Option.bind_eq_some_iff.1 hstep
  split at hstep
  · cases hstep
    exact h
  · obtain ⟨t, htid, hleast⟩ := leastLoaded_first h.loads hP
    rw [htid, Option.bind_eq_bind, Option.bind_some] at hstep
    obtain ⟨size, hsize, hstep⟩ := Option.bind_eq_some_iff.1 hstep
    obtain ⟨off, hoff, hstep⟩ := Option.bind_eq_some_iff.1 hstep
    obtain ⟨map, -, hstep⟩ := Option.bind_eq_some_iff.1 hstep
    obtain ⟨x, hx, hstep⟩ := Option.bind_eq_some_iff.1 hstep
    obtain ⟨load, hload, hstep⟩ := Option.bind_eq_some_iff.1 hstep
    cases hstep
    have htP : t < st.load.length := by
      rw [h.loads]
      exact hleast.lt
    rw [set_succ _ htP] at hload
    cases hload
    -- the chunk that was found is the one the stages describe
    obtain ⟨m, rfl⟩ : ∃ m, c = m + 1 := ⟨c - 1, by
      rcases Nat.eq_zero_or_pos c with rfl | hc
      · cases hsize
      · omega⟩
    rw [get_succ] at hweight hsize hoff hx
    have hm : m < K := by
      rw [← hs.len]
      exact (List.getElem?_eq_some_iff.1 hsize).1
    rw [hs.offset m hm] at hoff
    cases hoff
    rw [hs.weight m hm, List.getD_eq_getElem?_getD, hsize] at hweight
    cases hweight
    have hxd : st.load.getD t 0 = x := by
      rw [List.getD_eq_getElem?_getD, hx]
      rfl
    refine ⟨by rw [List.length_set]; exact h.loads, ?_⟩
    have hsnoc := h.dealt.snoc hleast (chunkWeight tasks (startOf sizes m) size)
    rw [hxd] at hsnoc
    rw [List.map_append, List.map_append, getD_set htP]
    exact hsnoc

/-- The packing loop deals the chunks. -/
theorem Dealing.run (hs : Stages tasks sizes K chunks chunkoff) (hP : 0 < P) {order : List Nat} {st : Packing ℚ}
    (hfold : order.foldlM (packChunk chunks sizes chunkoff P) ⟨List.replicate tasks.length 0, List.replicate P 0.0, []⟩ = some st) :
    Dealing tasks P st := by
  have hzero : (0.0 : ℚ) = 0 := by decide +kernel
  refine foldlM_keep (Dealing tasks P) (fun _ _ _ h hstep => h.step hs hP hstep) ⟨List.length_replicate, ?_⟩ hfold
  have hidle : (fun t => (List.replicate P (0.0 : ℚ)).getD t 0) = fun _ => 0 := by
    funext t
    rw [List.getD_eq_getElem?_getD, List.getElem?_replicate]
    split
    · exact hzero
    · rfl
  show Dealt P (fun _ => 0) [] [] fun t => (List.replicate P (0.0 : ℚ)).getD t 0
  rw [hidle]
  exact .nil

/-! ## The order -/

/-- The stable sort puts the chunks in order: heavier ones first, and among equals the last one first. -/
theorem chunkOrder_pairwise (chunks : List ℚ) :
    (chunkOrder chunks).Pairwise (DealtBefore fun c => chunks.getD c 0) := by
  have hsort : (sortperm chunks).Pairwise fun a b => DealtBefore (fun i => chunks.getD (i - 1) 0) b a := by
    refine pairwise_insertionSort List.pairwise_lt_range' fun a ha b hb => ?_
    obtain ⟨ha1, ha2⟩ := List.mem_range'_1.1 ha
    obtain ⟨hb1, hb2⟩ := List.mem_range'_1.1 hb
    have hget : ∀ i, 1 ≤ i → i < 1 + chunks.length → get chunks i = some (chunks.getD (i - 1) 0) := fun i h1 h2 => by
      obtain ⟨k, rfl⟩ : ∃ k, i = k + 1 := ⟨i - 1, by omega⟩
      rw [get_succ, Nat.add_sub_cancel, List.getD_eq_getElem?_getD, List.getElem?_eq_getElem (by omega)]
      rfl
    unfold inOrder
    rw [hget a ha1 ha2, hget b hb1 hb2]
    show (!decide (chunks.getD (b - 1) 0 < chunks.getD (a - 1) 0)) = true ↔ _
    rw [Bool.not_eq_true', decide_eq_false_iff_not, not_lt]
  have hmem : ∀ i ∈ (sortperm chunks).reverse, 1 ≤ i := fun i hi =>
    (List.mem_range'_1.1 ((sortperm_perm chunks).mem_iff.1 hi)).1
  unfold chunkOrder
  rw [List.pairwise_map]
  refine (List.pairwise_reverse.2 hsort).imp_of_mem fun {a b} ha hb h => ?_
  have ha1 := hmem a ha
  have hb1 := hmem b hb
  rcases h with h | ⟨h, hlt⟩
  · exact .inl h
  · exact .inr ⟨h, by omega⟩

end

end Bosched.Julia
