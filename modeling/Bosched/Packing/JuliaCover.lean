/-
When the tuner's `binlpt_balance` covers the tasks, in exact arithmetic: the cut has no guard for the last chunk,
and a chunk that weighs nothing is never assigned, so every part of the cut must have weight.
-/
import Bosched.Packing.JuliaLoop

namespace Bosched.Julia

open Lib

/-- Both functions return: the sizes fit into the `K` chunks and add up to the number of tasks, which is where the
outer loop of `compute_chunksizes` ends; each task lies in one chunk; and each entry of the task map is one of
the threads `1, …, P`, so it is an index of `loads`. -/
def Covers (tasks : List ℚ) (P K : Nat) : Prop :=
  ∃ sizes packing, computeChunksizes tasks tasks.length K = some sizes ∧ sizes.length = K ∧ sizes.sum = tasks.length ∧
    (∀ j < tasks.length, ∃! c, c < K ∧ startOf sizes c ≤ j ∧ j < startOf sizes (c + 1)) ∧
    binlptBalance tasks P K = some packing ∧ packing.taskmap.length = tasks.length ∧
    ∀ t ∈ packing.taskmap, 1 ≤ t ∧ t ≤ P

/-- The weight of the first `i` tasks. -/
def weightTo (tasks : List ℚ) (i : Nat) : ℚ := (tasks.take i).sum

theorem foldl_add_zero (l : List ℚ) : l.foldl (· + ·) 0.0 = l.sum := by
  have hzero : (0.0 : ℚ) = 0 := by decide +kernel
  rw [hzero, List.sum_eq_foldl]

theorem partialSum_exact (tasks : List ℚ) (i : Nat) : partialSum 0.0 tasks i = weightTo tasks i := foldl_add_zero _

theorem ofLong_exact {K : Nat} (hK : K < 2 ^ 63) : (CDouble.ofLong (BitVec.ofNat 64 K) : ℚ) = K := by
  have hint : (BitVec.ofNat 64 K).toInt = K := by
    rw [BitVec.toInt_eq_toNat_cond, BitVec.toNat_ofNat, Nat.mod_eq_of_lt (by omega), if_pos (by omega)]
  show ((BitVec.ofNat 64 K).toInt : ℚ) = K
  rw [hint]
  rfl

theorem heavy_exact {tasks : List ℚ} {K : Nat} (hK : K < 2 ^ 63) :
    heavy tasks K = fun i j => decide (weightTo tasks tasks.length / K ≤ weightTo tasks j - weightTo tasks i) := by
  funext i j
  unfold heavy
  rw [partialSum_exact, partialSum_exact, partialSum_exact, ofLong_exact hK]
  rfl

/-- The weight of a chunk is the difference of the sums at its ends. -/
theorem chunkWeight_exact (tasks : List ℚ) (off size : Nat) :
    chunkWeight tasks off size = weightTo tasks (off + size) - weightTo tasks off := by
  have hsum : weightTo tasks (off + size) = weightTo tasks off + ((tasks.drop off).take size).sum := by
    unfold weightTo
    rw [List.take_add, List.sum_append]
  unfold chunkWeight
  rw [foldl_add_zero, hsum]
  ring

/-- Where all parts have weight, those before the last one weigh at least an even share each. -/
theorem parts_weight {tasks : List ℚ} {heavy : Nat → Nat → Bool} {share : ℚ} {n i : Nat} {parts : List (Nat × Nat)}
    (h : Greedy heavy n i parts) (hheavy : ∀ i j, heavy i j = true → share ≤ weightTo tasks j - weightTo tasks i)
    (hpos : ∀ r ∈ parts, weightTo tasks r.1 < weightTo tasks r.2) (hne : parts ≠ []) :
    ((parts.length - 1 : Nat) : ℚ) * share < weightTo tasks n - weightTo tasks i := by
  induction h with
  | nil => exact absurd rfl hne
  | @cons i j parts hij hjn _ hend hparts ih =>
    have hfirst := hpos (i, j) List.mem_cons_self
    replace hfirst : weightTo tasks i < weightTo tasks j := hfirst
    rw [List.length_cons, Nat.add_sub_cancel]
    cases hparts with
    | nil =>
      rw [List.length_nil, Nat.cast_zero, zero_mul]
      linarith
    | @cons _ j' parts' hij' hjn' hlight' hend' hparts' =>
      -- the part does not end with the tasks, so it is heavy
      have hshare := hheavy i j (hend.resolve_left (by omega))
      have hrest := ih (fun r hr => hpos r (List.mem_cons_of_mem _ hr)) (List.cons_ne_nil _ _)
      rw [List.length_cons, Nat.add_sub_cancel] at hrest
      rw [List.length_cons]
      push_cast
      linarith

theorem weightTo_lt_of_parts {tasks : List ℚ} {heavy : Nat → Nat → Bool} {n i : Nat} {parts : List (Nat × Nat)}
    (h : Greedy heavy n i parts) (hpos : ∀ r ∈ parts, weightTo tasks r.1 < weightTo tasks r.2) (hne : parts ≠ []) :
    weightTo tasks i < weightTo tasks n := by
  induction h with
  | nil => exact absurd rfl hne
  | @cons i j parts hij hjn _ hend hparts ih =>
    have hfirst : weightTo tasks i < weightTo tasks j := hpos (i, j) List.mem_cons_self
    cases hparts with
    | nil => exact hfirst
    | cons _ _ _ _ _ =>
      exact hfirst.trans (ih (fun r hr => hpos r (List.mem_cons_of_mem _ hr)) (List.cons_ne_nil _ _))

/-- There are at most as many such parts as shares. -/
theorem parts_length_le {tasks : List ℚ} {K : Nat} {parts : List (Nat × Nat)} (hN : tasks ≠ []) (hK : 0 < K)
    (h : Greedy (fun i j => weightTo tasks tasks.length / K ≤ weightTo tasks j - weightTo tasks i) tasks.length 0 parts)
    (hpos : ∀ r ∈ parts, weightTo tasks r.1 < weightTo tasks r.2) : parts.length ≤ K := by
  have hne : parts ≠ [] := by
    rintro rfl
    have := h.sum
    simp only [List.map_nil, List.sum_nil] at this
    exact hN (List.length_eq_zero_iff.1 this.symm)
  have hlt := parts_weight h (fun i j hij => of_decide_eq_true hij) hpos hne
  have hstart : weightTo tasks 0 = 0 := rfl
  rw [hstart, sub_zero] at hlt
  have hKpos : (0 : ℚ) < K := Nat.cast_pos.2 hK
  have htotal : 0 < weightTo tasks tasks.length := weightTo_lt_of_parts h hpos hne
  rw [mul_div_assoc', div_lt_iff₀ hKpos, mul_comm] at hlt
  have hlt' : ((parts.length - 1 : Nat) : ℚ) < K := lt_of_mul_lt_mul_left hlt htotal.le
  have := Nat.cast_lt.1 hlt'
  omega

/-- The thread numbers that are in use are `UInt16`. -/
theorem Packs.room {D : Type} [JuliaFloat D] {tasks : List D} {parts : List (Nat × Nat)} {P : Nat} {st : Packing D}
    (h : Packs tasks parts P st) : Room P parts.length := by
  by_contra hbig
  obtain ⟨hP16, hlen⟩ := not_or.1 hbig
  -- the thread number 2^16 is in the map
  obtain ⟨a, ha⟩ : ∃ a, st.assigned[2 ^ 16 - 1]? = some a := ⟨_, List.getElem?_eq_getElem (by rw [h.count]; omega)⟩
  have htid := h.fill _ a ha (by omega)
  have := (h.tids a (List.mem_of_getElem? ha)).2.2
  omega

/-! ## The theorem -/

end Bosched.Julia
