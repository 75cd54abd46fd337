/-
When the tuner's `binlpt_balance` and the runtime's compute the same map. They deal the same chunks in the same order
unless a chunk weighs an even share exactly, which ends it in the tuner and not in the runtime, or the exchange
sort of the runtime reorders chunks of equal weight, which the tuner's stable sort does not.
-/
import Bosched.Packing.Dealing
import Bosched.Packing.JuliaDealing

namespace Bosched

open Lib

/-- The weights as the tuner has them. -/
def exactWeights (tasks : List U32) : List ℚ := tasks.map fun w => (w.toNat : ℚ)

/-- Both functions return, and entry by entry the tuner's map, which counts the threads from 1, is the runtime's. -/
def Agree (tasks taskmap : List U32) (n P K : Nat) : Prop :=
  ∃ packing map, Julia.binlptBalance (exactWeights tasks) P K = some packing ∧
    binlptBalance tasks n P K taskmap = some map ∧ packing.taskmap = map.map fun t => t.toNat + 1

/-- The tasks `[i, j)` weigh at least an even share. -/
def evenShare (tasks : List U32) (n K i j : Nat) : Bool :=
  decide (prefixWeight tasks 0 n ≤ K * (prefixWeight tasks 0 j - prefixWeight tasks 0 i))

/-- The weights of the parts, and zeros for the chunks that are not used. -/
def partWeights (tasks : List U32) (parts : List (Nat × Nat)) (K : Nat) : List U32 :=
  parts.map (fun r => BitVec.ofNat 32 (prefixWeight tasks 0 r.2 - prefixWeight tasks 0 r.1)) ++
    List.replicate (K - parts.length) 0

/-- The exchange sort leaves equal weights, other than 0, in their order. -/
def KeepsTies (chunks : List U32) (K n : Nat) : Prop :=
  ∀ sorted sortmap, sort chunks K (List.replicate n 0) = some (sorted, sortmap) → ∀ p q, p < q → q < K →
    sorted.getD p 0 = sorted.getD q 0 → sorted.getD p 0 ≠ 0 → chunkNumber sortmap p < chunkNumber sortmap q

/-- In the greedy cut at an even share no part but the last weighs an even share exactly, the exchange sort leaves
parts of equal weight in their order, and the thread numbers are `UInt16`. -/
def DealtAlike (tasks : List U32) (n P K : Nat) : Prop :=
  ∃ parts, Greedy (evenShare tasks n K) n 0 parts ∧
    (∀ r ∈ parts, r.2 < n → K * (prefixWeight tasks 0 r.2 - prefixWeight tasks 0 r.1) ≠ prefixWeight tasks 0 n) ∧
    KeepsTies (partWeights tasks parts K) K n ∧ Julia.Room P parts.length

/-! ## The weights -/

section

variable {tasks : List U32} {n P K : Nat} {parts : List (Nat × Nat)} {heavy : Nat → Nat → Bool}

theorem weightTo_exactWeights (tasks : List U32) (i : Nat) : Julia.weightTo (exactWeights tasks) i = prefixWeight tasks 0 i := by
  unfold Julia.weightTo exactWeights prefixWeight prefixSum
  rw [List.drop_zero, ← List.map_take, ← List.map_take, Nat.cast_list_sum, List.map_map]
  rfl

theorem exactWeights_nonneg (tasks : List U32) : ∀ w ∈ exactWeights tasks, (0 : ℚ) ≤ w := by
  intro w hw
  obtain ⟨x, -, rfl⟩ := List.mem_map.1 hw
  exact Nat.cast_nonneg _

/-- The tuner's comparison with the exact share. -/
theorem heavy_exactWeights (hlen : tasks.length = n) (hK : 0 < K) (hK63 : K < 2 ^ 63) {i j : Nat} (hij : i < j) :
    Julia.heavy (exactWeights tasks) K i j = evenShare tasks n K i j := by
  have hN : (exactWeights tasks).length = n := by rw [← hlen]; exact List.length_map _
  have hmono := prefixWeight_mono tasks 0 hij.le
  have hKpos : (0 : ℚ) < K := Nat.cast_pos.2 hK
  rw [Julia.heavy_exact hK63]
  unfold evenShare
  rw [decide_eq_decide, weightTo_exactWeights, weightTo_exactWeights, weightTo_exactWeights, hN, div_le_iff₀ hKpos,
    ← Nat.cast_sub hmono, ← Nat.cast_mul, Nat.cast_le, mul_comm]

theorem greedy_exactWeights (hlen : tasks.length = n) (hK : 0 < K) (hK63 : K < 2 ^ 63) :
    Greedy (Julia.heavy (exactWeights tasks) K) (exactWeights tasks).length 0 parts ↔ Greedy (evenShare tasks n K) n 0 parts := by
  have hN : (exactWeights tasks).length = n := by rw [← hlen]; exact List.length_map _
  rw [hN]
  constructor
  · intro h
    refine h.transfer (fun i j hij _ hlight => by rwa [← heavy_exactWeights hlen hK hK63 hij]) fun r hr hlt => ?_
    obtain ⟨c, hc⟩ := List.mem_iff_getElem?.1 hr
    rw [← heavy_exactWeights hlen hK hK63 (h.getElem? hc).2.1]
    exact h.heavy_of_lt hr hlt
  · intro h
    refine h.transfer (fun i j hij _ hlight => by rwa [heavy_exactWeights hlen hK hK63 hij]) fun r hr hlt => ?_
    obtain ⟨c, hc⟩ := List.mem_iff_getElem?.1 hr
    rw [heavy_exactWeights hlen hK hK63 (h.getElem? hc).2.1]
    exact h.heavy_of_lt hr hlt

/-- The two cuts are the same exactly if no part that ends before the tasks do weighs an even share. -/
theorem greedy_overShare_iff (h : Greedy (evenShare tasks n K) n 0 parts) : Greedy (overShare tasks n K) n 0 parts ↔
    ∀ r ∈ parts, r.2 < n → K * (prefixWeight tasks 0 r.2 - prefixWeight tasks 0 r.1) ≠ prefixWeight tasks 0 n := by
  constructor
  · intro h' r hr hlt heq
    have hover := h'.heavy_of_lt hr hlt
    unfold overShare at hover
    rw [heq, decide_eq_true_iff] at hover
    exact lt_irrefl _ hover
  · intro hne
    refine h.transfer (fun i j _ _ hlight => ?_) fun r hr hlt => ?_
    · unfold evenShare at hlight
      unfold overShare
      rw [decide_eq_false_iff_not] at hlight ⊢
      exact fun hlt => hlight hlt.le
    · have heven := h.heavy_of_lt hr hlt
      unfold evenShare at heven
      unfold overShare
      rw [decide_eq_true_iff] at heven ⊢
      exact lt_of_le_of_ne heven (Ne.symm (hne r hr hlt))

/-- The weight of chunk `c` of the cut. -/
def cutWeight (tasks : List U32) (parts : List (Nat × Nat)) (K c : Nat) : Nat :=
  prefixWeight tasks 0 (startOf (Julia.sizesOf parts K) (c + 1)) - prefixWeight tasks 0 (startOf (Julia.sizesOf parts K) c)

theorem chunkWeight_sizesOf (h : Greedy heavy n 0 parts) (hn : n < 2 ^ 32) (c : Nat) :
    chunkWeight tasks (sizesOf parts K) c = cutWeight tasks parts K c := by
  unfold chunkWeight cutWeight
  rw [prefixWeight_sizesOf h hn, prefixWeight_sizesOf h hn]

theorem chunkWeight_exactWeights (c : Nat) : Julia.chunkWeight (exactWeights tasks) (startOf (Julia.sizesOf parts K) c)
    ((Julia.sizesOf parts K).getD c 0) = cutWeight tasks parts K c := by
  rw [Julia.chunkWeight_exact, ← Julia.startOf_succ_getD, weightTo_exactWeights, weightTo_exactWeights]
  exact (Nat.cast_sub (prefixWeight_mono tasks 0 (startOf_mono _ (Nat.le_succ c)))).symm

theorem live_exactWeights (c : Nat) : Julia.live (exactWeights tasks) (startOf (Julia.sizesOf parts K) c)
    ((Julia.sizesOf parts K).getD c 0) = true ↔ cutWeight tasks parts K c ≠ 0 := by
  have hzero : (0.0 : ℚ) = 0 := by decide +kernel
  unfold Julia.live
  rw [chunkWeight_exactWeights, hzero]
  show (!decide ((cutWeight tasks parts K c : ℚ) = 0)) = true ↔ _
  rw [Bool.not_eq_true', decide_eq_false_iff_not, Nat.cast_eq_zero]

theorem prefixWeight_strictMono (hpos : ∀ w ∈ tasks, 0 < w.toNat) {i j : Nat} (hij : i < j) (hj : j ≤ tasks.length) :
    prefixWeight tasks 0 i < prefixWeight tasks 0 j := by
  obtain ⟨w, hw⟩ : ∃ w, tasks[i]? = some w := ⟨_, List.getElem?_eq_getElem (by omega)⟩
  have hnext : prefixWeight tasks 0 (i + 1) = prefixWeight tasks 0 i + w.toNat := prefixWeight_succ (by rwa [zero_add])
  have := hpos w (List.mem_of_getElem? hw)
  have := prefixWeight_mono tasks 0 (show i + 1 ≤ j from hij)
  omega

theorem cutWeight_unused {c : Nat} (hc : parts.length ≤ c) : cutWeight tasks parts K c = 0 := by
  have hsize : (Julia.sizesOf parts K).getD c 0 = 0 := Julia.chunkAt_unused hc
  unfold cutWeight
  rw [Julia.startOf_succ_getD, hsize, Nat.add_zero, Nat.sub_self]

/-- Each part has weight, and the other chunks have none. -/
theorem cutWeight_ne_zero (hpos : ∀ w ∈ tasks, 0 < w.toNat) (hlen : tasks.length = n) (h : Greedy heavy n 0 parts) {c : Nat} :
    cutWeight tasks parts K c ≠ 0 ↔ c < parts.length := by
  by_cases hc : c < parts.length
  · unfold cutWeight
    obtain ⟨h1, h2, h3⟩ := Julia.startOf_sizesOf (K := K) h (List.getElem?_eq_getElem hc)
    have hle : parts[c].2 ≤ tasks.length := by
      have := (h.getElem? (List.getElem?_eq_getElem hc)).2.2
      have := startOf_le_sum (parts.map width) (c + 1)
      have := h.sum
      omega
    have := prefixWeight_strictMono hpos h2 hle
    rw [h1, h3]
    exact iff_of_true (by omega) hc
  · rw [cutWeight_unused (not_lt.1 hc)]
    exact iff_of_false (not_not.2 rfl) hc

theorem partWeights_getElem? (h : Greedy heavy n 0 parts) (hle : parts.length ≤ K) {c : Nat} (hc : c < K) :
    (partWeights tasks parts K)[c]? = some (BitVec.ofNat 32 (cutWeight tasks parts K c)) := by
  unfold partWeights
  by_cases hcp : c < parts.length
  · unfold cutWeight
    obtain ⟨h1, -, h3⟩ := Julia.startOf_sizesOf (K := K) h (List.getElem?_eq_getElem hcp)
    rw [List.getElem?_append_left (by rw [List.length_map]; exact hcp), List.getElem?_map, List.getElem?_eq_getElem hcp, h1, h3]
    rfl
  · rw [cutWeight_unused (not_lt.1 hcp), List.getElem?_append_right (by rw [List.length_map]; omega), List.length_map,
      List.getElem?_replicate_of_lt (by omega)]
    rfl

/-! ## The labels -/

/-- A map as a function of the task, and the order in which the chunks with weight were dealt to the threads. -/
structure Labels (tasks : List U32) (parts : List (Nat × Nat)) (K P : Nat) (order : List Nat) (thread : Nat → Nat) : Prop where
  nodup : order.Nodup
  mem : ∀ c, c ∈ order ↔ c < K ∧ cutWeight tasks parts K c ≠ 0
  dealt : ∃ ts load, Dealt P (fun _ => 0) (order.map (cutWeight tasks parts K)) ts load ∧
    ∀ q c t : Nat, order[q]? = some c → ts[q]? = some t → ∀ j, startOf (Julia.sizesOf parts K) c ≤ j →
      j < startOf (Julia.sizesOf parts K) (c + 1) → thread j = t

/-- Each task lies in one of the chunks that are dealt. -/
theorem Labels.exists_chunk {order : List Nat} {thread : Nat → Nat} (h : Labels tasks parts K P order thread)
    (hpos : ∀ w ∈ tasks, 0 < w.toNat) (hlen : tasks.length = n) (hparts : Greedy heavy n 0 parts) (hle : parts.length ≤ K) {j : Nat}
    (hj : j < n) : ∃ q c : Nat, order[q]? = some c ∧ c < parts.length ∧ startOf (Julia.sizesOf parts K) c ≤ j ∧
      j < startOf (Julia.sizesOf parts K) (c + 1) := by
  have hall : startOf (parts.map width) parts.length = n := by
    have := hparts.sum
    unfold startOf
    rw [List.take_of_length_le (by rw [List.length_map])]
    omega
  obtain ⟨c, hc, h1, h2⟩ := exists_startOf (by rw [hall]; exact hj : j < startOf (parts.map width) parts.length)
  have hget := List.getElem?_eq_getElem hc
  obtain ⟨h3, -, h4⟩ := Julia.startOf_sizesOf (K := K) hparts hget
  obtain ⟨h5, -, h6⟩ := hparts.getElem? hget
  obtain ⟨q, hq⟩ := List.mem_iff_getElem?.1 ((h.mem c).2 ⟨by omega, (cutWeight_ne_zero hpos hlen hparts).2 hc⟩)
  exact ⟨q, c, hq, hc, by omega, by omega⟩

/-- The same chunks in the same order go to the same threads. -/
theorem Labels.unique {order : List Nat} {thread thread' : Nat → Nat} (h : Labels tasks parts K P order thread)
    (h' : Labels tasks parts K P order thread') (hpos : ∀ w ∈ tasks, 0 < w.toNat) (hlen : tasks.length = n)
    (hparts : Greedy heavy n 0 parts) (hle : parts.length ≤ K) {j : Nat} (hj : j < n) : thread j = thread' j := by
  obtain ⟨q, c, hq, -, h1, h2⟩ := h.exists_chunk hpos hlen hparts hle hj
  obtain ⟨ts, load, hdealt, hentry⟩ := h.dealt
  obtain ⟨ts', load', hdealt', hentry'⟩ := h'.dealt
  obtain ⟨rfl, -⟩ := hdealt.unique hdealt'
  obtain ⟨t, ht⟩ : ∃ t, ts[q]? = some t := ⟨_, List.getElem?_eq_getElem (by
    rw [hdealt.length, List.length_map]
    exact (List.getElem?_eq_some_iff.1 hq).1)⟩
  rw [hentry q c t hq ht j h1 h2, hentry' q c t hq ht j h1 h2]

/-- With a thread for each chunk the threads are the positions in the order. -/
theorem Labels.thread_eq {order : List Nat} {thread : Nat → Nat} (h : Labels tasks parts K P order thread) (hKP : K ≤ P)
    {q c : Nat} (hq : order[q]? = some c) {j : Nat} (h1 : startOf (Julia.sizesOf parts K) c ≤ j)
    (h2 : j < startOf (Julia.sizesOf parts K) (c + 1)) : thread j = q := by
  obtain ⟨ts, load, hdealt, hentry⟩ := h.dealt
  have hqlt := (List.getElem?_eq_some_iff.1 hq).1
  have hlen : order.length ≤ K := by
    have hsub : order ⊆ List.range K := fun c hc => List.mem_range.2 ((h.mem c).1 hc).1
    have := (h.nodup.subperm hsub).length_le
    rwa [List.length_range] at this
  obtain ⟨t, ht⟩ : ∃ t, ts[q]? = some t := ⟨_, List.getElem?_eq_getElem (by rw [hdealt.length, List.length_map]; exact hqlt)⟩
  have hpos : ∀ w ∈ order.map (cutWeight tasks parts K), 0 < w := fun w hw => by
    obtain ⟨c, hc, rfl⟩ := List.mem_map.1 hw
    exact Nat.pos_of_ne_zero ((h.mem c).1 hc).2
  have hfill := hdealt.fill (k := 0) hpos (fun s hs => absurd hs (Nat.not_lt_zero s)) (fun _ _ _ => rfl) ht (by omega)
  rw [hentry q c t hq ht j h1 h2, hfill, Nat.zero_add]

/-- With a thread for each chunk a part starts where the thread changes. -/
theorem Labels.start_iff {order : List Nat} {thread : Nat → Nat} (h : Labels tasks parts K P order thread) (hKP : K ≤ P)
    (hpos : ∀ w ∈ tasks, 0 < w.toNat) (hlen : tasks.length = n) (hparts : Greedy heavy n 0 parts) (hle : parts.length ≤ K) {j : Nat}
    (hj0 : 0 < j) (hj : j < n) : (∃ r ∈ parts, r.1 = j) ↔ thread (j - 1) ≠ thread j := by
  obtain ⟨q, c, hq, hc, h1, h2⟩ := h.exists_chunk hpos hlen hparts hle hj
  obtain ⟨q', c', hq', hc', h1', h2'⟩ := h.exists_chunk hpos hlen hparts hle (show j - 1 < n by omega)
  rw [h.thread_eq hKP hq h1 h2, h.thread_eq hKP hq' h1' h2']
  obtain ⟨h3, -, -⟩ := Julia.startOf_sizesOf (K := K) hparts (List.getElem?_eq_getElem hc)
  constructor
  · rintro ⟨r, hr, rfl⟩ rfl
    rw [hq] at hq'
    cases hq'
    obtain ⟨d, hd⟩ := List.mem_iff_getElem?.1 hr
    obtain ⟨h4, h5, h6⟩ := Julia.startOf_sizesOf (K := K) hparts hd
    obtain rfl : c = d := startOf_unique h1 h2 (by omega) (by omega)
    omega
  · intro hne
    refine ⟨parts[c], List.getElem_mem hc, ?_⟩
    by_contra hstart
    -- the two tasks lie in one chunk
    obtain rfl : c = c' := startOf_unique (by omega) (by omega) h1' h2'
    refine hne ((List.getElem?_inj (List.getElem?_eq_some_iff.1 hq').1 h.nodup).1 (hq'.trans hq.symm))

/-- With a thread for each chunk the map determines the cut and the order. -/
theorem Labels.eq_of_thread {heavy' : Nat → Nat → Bool} {parts' : List (Nat × Nat)} {order order' : List Nat}
    {thread thread' : Nat → Nat} (h : Labels tasks parts K P order thread) (h' : Labels tasks parts' K P order' thread')
    (hKP : K ≤ P) (hpos : ∀ w ∈ tasks, 0 < w.toNat) (hlen : tasks.length = n) (hparts : Greedy heavy n 0 parts)
    (hparts' : Greedy heavy' n 0 parts') (hle : parts.length ≤ K) (hle' : parts'.length ≤ K)
    (hsame : ∀ j < n, thread j = thread' j) : parts = parts' ∧ order = order' := by
  obtain rfl : parts = parts' := hparts.eq_of_starts hparts' fun j hj => by
    by_cases hjn : j < n
    · rw [h.start_iff hKP hpos hlen hparts hle hj hjn, h'.start_iff hKP hpos hlen hparts' hle' hj hjn, hsame j hjn,
        hsame (j - 1) (by omega)]
    · have hnone : ∀ {heavy : Nat → Nat → Bool} {parts : List (Nat × Nat)}, Greedy heavy n 0 parts → ¬ ∃ r ∈ parts, r.1 = j := by
        rintro heavy parts hparts ⟨r, hr, rfl⟩
        obtain ⟨c, hc⟩ := List.mem_iff_getElem?.1 hr
        obtain ⟨-, h2, h3⟩ := hparts.getElem? hc
        have := startOf_le_sum (parts.map width) (c + 1)
        have := hparts.sum
        omega
      exact iff_of_false (hnone hparts) (hnone hparts')
  refine ⟨rfl, List.ext_getElem? fun q => ?_⟩
  -- the chunk at a position is the one whose tasks have this thread
  have hsub : ∀ {order order' : List Nat} {thread thread' : Nat → Nat}, Labels tasks parts K P order thread →
      Labels tasks parts K P order' thread' → (∀ j < n, thread j = thread' j) → ∀ c, order[q]? = some c → order'[q]? = some c := by
    intro order order' thread thread' h h' hsame c hq
    obtain ⟨hcK, hweight⟩ := (h.mem c).1 (List.mem_of_getElem? hq)
    have hc := (cutWeight_ne_zero hpos hlen hparts).1 hweight
    obtain ⟨h1, h2, h3⟩ := Julia.startOf_sizesOf (K := K) hparts (List.getElem?_eq_getElem hc)
    obtain ⟨q', hq'⟩ := List.mem_iff_getElem?.1 ((h'.mem c).2 ⟨hcK, hweight⟩)
    have hstart : parts[c].1 < n := by
      have := (hparts.getElem? (List.getElem?_eq_getElem hc)).2.2
      have := startOf_le_sum (parts.map width) (c + 1)
      have := hparts.sum
      omega
    have ht := h.thread_eq hKP hq (le_of_eq h1) (by omega)
    rw [hsame _ hstart, h'.thread_eq hKP hq' (le_of_eq h1) (by omega)] at ht
    rwa [ht] at hq'
  rcases hq : order[q]? with _ | c
  · rcases hq' : order'[q]? with _ | c'
    · rfl
    · rw [hsub h' h (fun j hj => (hsame j hj).symm) c' hq'] at hq
      cases hq
  · exact (hsub h h' hsame c hq).symm

/-! ## The runtime's map -/

/-- The order of the exchange sort is the one the tuner deals in exactly if ties are kept. -/
theorem Deals.pairwise_iff {chunks sorted sortmap map : List U32} {ts : List Nat} {load : Nat → Nat}
    (h : Deals tasks (sizesOf parts K) chunks sorted sortmap n K P ts load map) (hparts : Greedy heavy n 0 parts)
    (hn : n < 2 ^ 32) (hlt : ∀ c, cutWeight tasks parts K c < 2 ^ 32) :
    (dealOrder tasks (sizesOf parts K) sortmap K 0).Pairwise (DealtBefore (cutWeight tasks parts K)) ↔ KeepsTies chunks K n := by
  have hvalue : ∀ m < K, (sorted.getD m 0).toNat = cutWeight tasks parts K (chunkNumber sortmap m) := fun m hm => by
    rw [h.weight m hm, chunkWeight_sizesOf hparts hn, BitVec.toNat_ofNat, Nat.mod_eq_of_lt (hlt _)]
  have hpairs : (dealOrder tasks (sizesOf parts K) sortmap K 0).Pairwise (DealtBefore (cutWeight tasks parts K)) ↔
      ∀ p q, p < q → q < K → cutWeight tasks parts K (chunkNumber sortmap q) ≠ 0 →
        cutWeight tasks parts K (chunkNumber sortmap p) ≠ 0 →
        DealtBefore (cutWeight tasks parts K) (chunkNumber sortmap q) (chunkNumber sortmap p) := by
    unfold dealOrder
    rw [List.pairwise_filter, List.pairwise_map, List.pairwise_reverse, List.pairwise_iff_getElem]
    simp only [List.length_range', List.getElem_range', chunkWeight_sizesOf hparts hn, decide_eq_true_eq, Nat.sub_zero,
      Nat.zero_add, Nat.one_mul]
    exact ⟨fun hall p q hpq hq => hall p q (by omega) hq hpq, fun hall p q _ hq hpq => hall p q hpq hq⟩
  rw [hpairs]
  constructor
  · intro hall sorted' sortmap' hsort p q hpq hq heq hne
    rw [h.sorts] at hsort
    cases hsort
    have hp0 : cutWeight tasks parts K (chunkNumber sortmap p) ≠ 0 := by
      rw [← hvalue p (by omega)]
      exact fun hzero => hne (BitVec.eq_of_toNat_eq hzero)
    have hpq' : cutWeight tasks parts K (chunkNumber sortmap p) = cutWeight tasks parts K (chunkNumber sortmap q) := by
      rw [← hvalue p (by omega), ← hvalue q hq, heq]
    rcases hall p q hpq hq (hpq' ▸ hp0) hp0 with hlt' | ⟨-, hlt'⟩
    · omega
    · exact hlt'
  · intro hties p q hpq hq _ hp0
    have hle := h.least p (by omega) q hpq hq
    rw [hvalue p (by omega), hvalue q hq] at hle
    rcases Nat.lt_or_eq_of_le hle with hlt' | heq
    · exact .inl hlt'
    · refine .inr ⟨heq, hties sorted sortmap h.sorts p q hpq hq (BitVec.eq_of_toNat_eq ?_) fun hzero => hp0 ?_⟩
      · rw [hvalue p (by omega), hvalue q hq, heq]
      · rw [← hvalue p (by omega), hzero]
        rfl

theorem Deals.labels {chunks sorted sortmap map : List U32} {ts : List Nat} {load : Nat → Nat}
    (h : Deals tasks (sizesOf parts K) chunks sorted sortmap n K P ts load map) (hparts : Greedy heavy n 0 parts)
    (hn : n < 2 ^ 32) : Labels tasks parts K P (dealOrder tasks (sizesOf parts K) sortmap K 0) (taskThread map) := by
  have hweight : chunkWeight tasks (sizesOf parts K) = cutWeight tasks parts K :=
    funext fun c => chunkWeight_sizesOf hparts hn c
  refine ⟨?_, fun c => ⟨fun hc => ?_, fun ⟨hcK, hne⟩ => ?_⟩, ts, load, ?_, fun q c t hq ht j h1 h2 => ?_⟩
  · unfold dealOrder
    refine List.Nodup.filter _ (List.Nodup.map_on (fun i hi j hj hij => ?_) (List.nodup_reverse.2 List.nodup_range'))
    have hi' := List.mem_range'_1.1 (List.mem_reverse.1 hi)
    have hj' := List.mem_range'_1.1 (List.mem_reverse.1 hj)
    exact h.sortMap.inj i (by omega) j (by omega) hij
  · obtain ⟨m, -, hm, rfl⟩ := mem_dealOrder hc
    have hlive := (List.mem_filter.1 hc).2
    rw [decide_eq_true_iff, hweight] at hlive
    exact ⟨h.sortMap.lt m hm, hlive⟩
  · obtain ⟨m, hm, rfl⟩ := h.sortMap.surj c hcK
    refine List.mem_filter.2 ⟨List.mem_map.2 ⟨m, List.mem_reverse.2 (List.mem_range'_1.2 ⟨by omega, by omega⟩), rfl⟩, ?_⟩
    rw [decide_eq_true_iff, hweight]
    exact hne
  · have := h.dealt
    rwa [hweight] at this
  · refine h.entry q c t hq ht j ?_
    unfold InChunk offset
    rw [prefixWeight_sizesOf hparts hn, prefixWeight_sizesOf hparts hn]
    exact ⟨h1, h2⟩

theorem runtime_labels {taskmap : List U32} (hlen : tasks.length = n) (hn : n < 2 ^ 32) (hmaplen : taskmap.length = n)
    (hP : 0 < P) (hP32 : P < 2 ^ 32) (hK : 0 < K) (hKn : K ≤ n) (hsum : prefixWeight tasks 0 n < 2 ^ 32)
    (hparts : Greedy (overShare tasks n K) n 0 parts) : parts.length ≤ K ∧ ∃ order map,
      binlptBalance tasks n P K taskmap = some map ∧ map.length = n ∧ Labels tasks parts K P order (taskThread map) ∧
      (order.Pairwise (DealtBefore (cutWeight tasks parts K)) ↔ KeepsTies (partWeights tasks parts K) K n) := by
  obtain ⟨hle, hsizes⟩ := computeChunksizes_greedy (by omega) (le_of_eq hlen.symm) hK (by omega) hsum hparts
  have hsizeslen : (Julia.sizesOf parts K).length = K := by
    unfold Julia.sizesOf
    rw [List.length_append, List.length_map, List.length_replicate]
    omega
  have hcuts : CutsInto (sizesOf parts K) n K := by
    refine ⟨by unfold sizesOf; rw [List.length_map, hsizeslen], ?_⟩
    have := hparts.sum
    rw [prefixWeight_sizesOf hparts hn]
    unfold startOf Julia.sizesOf
    rw [List.take_of_length_le (by rw [List.length_append, List.length_map, List.length_replicate]; omega), List.sum_append,
      List.sum_replicate]
    simpa using this
  have hlt : ∀ c, cutWeight tasks parts K c < 2 ^ 32 := fun c => by
    have hend : startOf (Julia.sizesOf parts K) (c + 1) ≤ n := by
      have htotal := hcuts.total
      rw [prefixWeight_sizesOf hparts hn] at htotal
      rw [← htotal]
      unfold startOf
      rw [List.take_of_length_le (le_of_eq hsizeslen)]
      exact startOf_le_sum _ _
    have := prefixWeight_mono tasks 0 hend
    unfold cutWeight
    omega
  obtain ⟨chunks, hchunks, hclen, hweighs⟩ := computeChunks_ofNat hcuts (le_of_eq hlen.symm)
  obtain rfl : chunks = partWeights tasks parts K := by
    refine List.ext_getElem? fun c => ?_
    by_cases hc : c < K
    · rw [hweighs c hc, partWeights_getElem? hparts hle hc, chunkWeight_sizesOf hparts hn]
    · have hplen : (partWeights tasks parts K).length = K := by
        unfold partWeights
        rw [List.length_append, List.length_map, List.length_replicate]
        omega
      rw [List.getElem?_eq_none (by omega), List.getElem?_eq_none (by omega)]
  obtain ⟨sorted, sortmap, ts, load, map, hrun, hdeals⟩ := binlptBalance_deals hlen hn hmaplen hP hP32 hK hKn hsum hsizes hcuts
    hchunks hclen hweighs
  exact ⟨hle, _, map, hrun, hdeals.len, hdeals.labels hparts hn, hdeals.pairwise_iff hparts hn hlt⟩

/-! ## The tuner's map -/

theorem tuner_labels {packing : Julia.Packing ℚ} (hlen : tasks.length = n) (hn : 0 < n) (hP : 0 < P) (hK : 0 < K)
    (hK63 : K < 2 ^ 63) (hparts : Greedy (evenShare tasks n K) n 0 parts)
    (hrun : Julia.binlptBalance (exactWeights tasks) P K = some packing) : parts.length ≤ K ∧ Julia.Room P parts.length ∧
      packing.taskmap.length = n ∧ ∃ order thread, Labels tasks parts K P order thread ∧
      order.Pairwise (DealtBefore (cutWeight tasks parts K)) ∧ ∀ j < n, packing.taskmap[j]? = some (thread j + 1) := by
  have hN : (exactWeights tasks).length = n := by rw [← hlen]; exact List.length_map _
  have htasks : exactWeights tasks ≠ [] := List.ne_nil_of_length_pos (by omega)
  have hgreedy := (greedy_exactWeights hlen hK hK63).2 hparts
  have hle : parts.length ≤ K := by
    by_contra hgt
    unfold Julia.binlptBalance at hrun
    rw [Julia.computeChunksizes_spec htasks hgreedy, if_neg hgt] at hrun
    cases hrun
  have hpacks := Julia.binlptBalance_packs nonNegative_exact (exactWeights_nonneg tasks) htasks hP hgreedy hrun
  obtain ⟨chunks, chunkoff, hclen, hs, hperm, heq⟩ := Julia.binlptBalance_eq (P := P) hle hgreedy htasks
  rw [heq] at hrun
  obtain ⟨st, hfold, hrun⟩ := Option.bind_eq_some_iff.1 hrun
  obtain ⟨loads, -, hrun⟩ := Option.bind_eq_some_iff.1 hrun
  cases hrun
  have hpacked := (Julia.Packed.all nonNegative_exact (exactWeights_nonneg tasks) hs hP hperm).1 packing hfold
  have hdealing := Julia.Dealing.run hs hP hfold
  -- the assignments are those of the chunks with weight
  let live := fun c => Julia.live (exactWeights tasks) (startOf (Julia.sizesOf parts K) c) ((Julia.sizesOf parts K).getD c 0)
  have hassigned : packing.assigned.map (fun a => (a.off, a.size)) =
      ((Julia.chunkOrder chunks).filter live).map (Julia.chunkAt (Julia.sizesOf parts K)) := by
    rw [hpacked.chunks, List.filter_map]
    rfl
  have hlive : ∀ c, live c = true ↔ cutWeight tasks parts K c ≠ 0 := fun c => live_exactWeights c
  have hmem : ∀ c, c ∈ (Julia.chunkOrder chunks).filter live ↔ c < K ∧ cutWeight tasks parts K c ≠ 0 := fun c => by
    rw [List.mem_filter, hperm.mem_iff, List.mem_range, hlive]
  have hweights : packing.assigned.map (fun a => Julia.chunkWeight (exactWeights tasks) a.off a.size) =
      (((Julia.chunkOrder chunks).filter live).map (cutWeight tasks parts K)).map (fun w : Nat => (w : ℚ)) := by
    have hpair : packing.assigned.map (fun a => Julia.chunkWeight (exactWeights tasks) a.off a.size) =
        (packing.assigned.map fun a => (a.off, a.size)).map fun r => Julia.chunkWeight (exactWeights tasks) r.1 r.2 := by
      rw [List.map_map]
      rfl
    rw [hpair, hassigned, List.map_map, List.map_map]
    exact List.map_congr_left fun c _ => chunkWeight_exactWeights c
  have hdealt := hdealing.dealt
  rw [hweights] at hdealt
  have hcast : StrictMono fun w : Nat => (w : ℚ) := Nat.strictMono_cast
  have hzero : (fun w : Nat => (w : ℚ)) ∘ (fun _ : Nat => 0) = fun _ => (0 : ℚ) := funext fun _ => Nat.cast_zero
  have hdealt' : Dealt P ((fun w : Nat => (w : ℚ)) ∘ fun _ => 0)
      ((((Julia.chunkOrder chunks).filter live).map (cutWeight tasks parts K)).map fun w : Nat => (w : ℚ))
      (packing.assigned.map fun a => a.tid - 1) (fun t => packing.load.getD t 0) := by
    rw [hzero]
    exact hdealt
  obtain ⟨load, hdealt⟩ := hdealt'.of_map hcast fun x y => Nat.cast_add x y
  have htaskmap : ∀ j < n, ∃ a ∈ packing.assigned, a.Holds j ∧ packing.taskmap[j]? = some (a.tid - 1 + 1) ∧
      ∀ a' ∈ packing.assigned, a'.Holds j → a'.tid = a.tid := fun j hj => by
    obtain ⟨a, ha, hholds, hget, huniq⟩ := hpacks.entry j (by omega)
    have := (hpacks.tids a ha).1
    exact ⟨a, ha, hholds, by rw [hget, Nat.sub_add_cancel this], huniq⟩
  refine ⟨hle, hpacks.room, hpacks.len.trans hN, (Julia.chunkOrder chunks).filter live, fun j => packing.taskmap.getD j 0 - 1,
    ⟨(hperm.nodup_iff.2 List.nodup_range).filter _, hmem, _, load, hdealt, fun q c t hq ht j h1 h2 => ?_⟩, ?_, fun j hj => ?_⟩
  · rw [List.getElem?_map] at ht
    obtain ⟨a, ha, rfl⟩ := Option.map_eq_some_iff.1 ht
    have hpair : (a.off, a.size) = Julia.chunkAt (Julia.sizesOf parts K) c := by
      have hget : (packing.assigned.map fun a => (a.off, a.size))[q]? = some (a.off, a.size) := by
        rw [List.getElem?_map, ha]
        rfl
      rw [hassigned, List.getElem?_map, hq] at hget
      exact (Option.some.inj hget).symm
    unfold Julia.chunkAt at hpair
    rw [Prod.mk.injEq] at hpair
    have hholds : a.Holds j := by
      refine ⟨by omega, ?_⟩
      rw [hpair.1, hpair.2, ← Julia.startOf_succ_getD]
      exact h2
    have hj : j < n := by
      rw [← hN, ← hs.sum]
      exact lt_of_lt_of_le h2 (startOf_le_sum _ _)
    obtain ⟨a', -, -, hget, huniq⟩ := htaskmap j hj
    show packing.taskmap.getD j 0 - 1 = a.tid - 1
    rw [List.getD_eq_getElem?_getD, hget, huniq a (List.mem_of_getElem? ha) hholds]
    rfl
  · have hvalue : ∀ c < K, chunks.getD c 0 = (cutWeight tasks parts K c : ℚ) := fun c hc => by
      rw [List.getD_eq_getElem?_getD, hs.weight c hc, chunkWeight_exactWeights]
      rfl
    refine ((Julia.chunkOrder_pairwise chunks).filter _).imp_of_mem fun {c d} hc hd h => ?_
    have hc' := hvalue c ((hmem c).1 hc).1
    have hd' := hvalue d ((hmem d).1 hd).1
    replace h : chunks.getD d 0 < chunks.getD c 0 ∨ (chunks.getD d 0 = chunks.getD c 0 ∧ d < c) := h
    rwa [hc', hd', Nat.cast_lt, Nat.cast_inj] at h
  · obtain ⟨a, -, -, hget, -⟩ := htaskmap j hj
    show _ = some (packing.taskmap.getD j 0 - 1 + 1)
    rw [List.getD_eq_getElem?_getD, hget]
    rfl

end

/-! ## The theorem -/

/-- The two functions agree if there is one thread or the chunks are dealt alike, and where there is a thread for
each chunk only then. -/
theorem binlptBalance_agree (tasks taskmap : List U32) (ntasks nthreads maxChunks : U32) (hlen : tasks.length = ntasks.toNat)
    (hmap : taskmap.length = ntasks.toNat) (hpos : ∀ w ∈ tasks, 0 < w.toNat)
    (hsum : prefixWeight tasks 0 ntasks.toNat < 2 ^ 32) (hP : 1 ≤ nthreads.toNat) (hK : 1 ≤ maxChunks.toNat)
    (hKn : maxChunks.toNat ≤ ntasks.toNat) :
    (nthreads.toNat = 1 ∨ DealtAlike tasks ntasks.toNat nthreads.toNat maxChunks.toNat →
      Agree tasks taskmap ntasks.toNat nthreads.toNat maxChunks.toNat) ∧
    (maxChunks.toNat ≤ nthreads.toNat → Agree tasks taskmap ntasks.toNat nthreads.toNat maxChunks.toNat →
      nthreads.toNat = 1 ∨ DealtAlike tasks ntasks.toNat nthreads.toNat maxChunks.toNat) := by
  have hn0 : 0 < ntasks.toNat := by omega
  have hK32 : maxChunks.toNat < 2 ^ 32 := maxChunks.isLt
  have hK63 : maxChunks.toNat < 2 ^ 63 := by omega
  have hN : (exactWeights tasks).length = ntasks.toNat := by rw [← hlen]; exact List.length_map _
  have htasks : exactWeights tasks ≠ [] := List.ne_nil_of_length_pos (by omega)
  -- the two cuts
  obtain ⟨parts, hparts⟩ := exists_greedy (evenShare tasks ntasks.toNat maxChunks.toNat) ntasks.toNat ntasks.toNat
    (Nat.zero_le _) (by omega)
  obtain ⟨parts', hparts'⟩ := exists_greedy (overShare tasks ntasks.toNat maxChunks.toNat) ntasks.toNat ntasks.toNat
    (Nat.zero_le _) (by omega)
  have hgreedy := (greedy_exactWeights hlen hK hK63).2 hparts
  obtain ⟨hle', order', map, hruntime, hmaplen, hlabels', hties⟩ := runtime_labels hlen ntasks.isLt hmap hP nthreads.isLt hK hKn
    hsum hparts'
  have hget : ∀ j < ntasks.toNat, map[j]? = some (map.getD j 0) := fun j hj => by
    rw [List.getD_eq_getElem?_getD, List.getElem?_eq_getElem (by omega)]
    rfl
  -- the tuner's function returns if the thread numbers fit
  have hle : parts.length ≤ maxChunks.toNat := by
    refine Julia.parts_length_le htasks hK (by rwa [Julia.heavy_exact hK63] at hgreedy) fun r hr => ?_
    obtain ⟨c, hc⟩ := List.mem_iff_getElem?.1 hr
    obtain ⟨-, h2, h3⟩ := hparts.getElem? hc
    have := startOf_le_sum (parts.map width) (c + 1)
    have := hparts.sum
    rw [weightTo_exactWeights, weightTo_exactWeights, Nat.cast_lt]
    exact prefixWeight_strictMono hpos h2 (by omega)
  have hreturns : Julia.Room nthreads.toNat parts.length →
      ∃ packing, Julia.binlptBalance (exactWeights tasks) nthreads.toNat maxChunks.toNat = some packing := fun hroom => by
    refine Julia.exists_binlptBalance nonNegative_exact (exactWeights_nonneg tasks) htasks hP hgreedy hle hroom fun r hr => ?_
    obtain ⟨c, hc⟩ := List.mem_iff_getElem?.1 hr
    have hchunk := Julia.chunkAt_sizesOf (K := maxChunks.toNat) hparts hc
    unfold Julia.chunkAt at hchunk
    rw [Prod.mk.injEq] at hchunk
    have hlive : Julia.live (exactWeights tasks) (startOf (Julia.sizesOf parts maxChunks.toNat) c)
        ((Julia.sizesOf parts maxChunks.toNat).getD c 0) = true :=
      (live_exactWeights c).2 ((cutWeight_ne_zero hpos hlen hparts).2 (List.getElem?_eq_some_iff.1 hc).1)
    rwa [hchunk.1, hchunk.2] at hlive
  -- the maps are equal if the threads are
  have hequal : ∀ {packing : Julia.Packing ℚ} {thread : Nat → Nat}, packing.taskmap.length = ntasks.toNat →
      (∀ j < ntasks.toNat, packing.taskmap[j]? = some (thread j + 1)) →
      (packing.taskmap = map.map (fun t => t.toNat + 1) ↔ ∀ j < ntasks.toNat, thread j = taskThread map j) := by
    intro packing thread hplen hthread
    constructor
    · intro heq j hj
      have hj' := hthread j hj
      rw [heq, List.getElem?_map, hget j hj] at hj'
      exact (Nat.succ.inj (Option.some.inj hj')).symm
    · intro hsame
      refine List.ext_getElem? fun j => ?_
      by_cases hj : j < ntasks.toNat
      · rw [hthread j hj, List.getElem?_map, hget j hj, hsame j hj]
        rfl
      · rw [List.getElem?_eq_none (by omega), List.getElem?_eq_none (by rw [List.length_map]; omega)]
  constructor
  · rintro (hone | ⟨parts₁, hparts₁, hne, hkeeps, hroom⟩)
    · -- all tasks are on the only thread
      obtain ⟨packing, hrun⟩ := hreturns (.inl (by omega))
      obtain ⟨-, -, hplen, order, thread, hlabels, -, hthread⟩ := tuner_labels hlen hn0 hP hK hK63 hparts hrun
      refine ⟨packing, map, hrun, hruntime, (hequal hplen hthread).2 fun j hj => ?_⟩
      have hzero : ∀ {heavy : Nat → Nat → Bool} {parts : List (Nat × Nat)} {order : List Nat} {thread : Nat → Nat},
          Greedy heavy ntasks.toNat 0 parts → parts.length ≤ maxChunks.toNat →
          Labels tasks parts maxChunks.toNat nthreads.toNat order thread → thread j = 0 := by
        intro heavy parts order thread hparts hle h
        obtain ⟨q, c, hq, -, h1, h2⟩ := h.exists_chunk hpos hlen hparts hle hj
        obtain ⟨ts, load, hdealt, hentry⟩ := h.dealt
        obtain ⟨t, ht⟩ : ∃ t, ts[q]? = some t := ⟨_, List.getElem?_eq_getElem (by
          rw [hdealt.length, List.length_map]
          exact (List.getElem?_eq_some_iff.1 hq).1)⟩
        have := hdealt.lt t (List.mem_of_getElem? ht)
        rw [hentry q c t hq ht j h1 h2]
        omega
      rw [hzero hparts hle hlabels, hzero hparts' hle' hlabels']
    · obtain rfl := hparts.unique hparts₁
      obtain rfl := hparts'.unique ((greedy_overShare_iff hparts).2 hne)
      obtain ⟨packing, hrun⟩ := hreturns hroom
      obtain ⟨-, -, hplen, order, thread, hlabels, hpairs, hthread⟩ := tuner_labels hlen hn0 hP hK hK63 hparts hrun
      obtain rfl : order = order' := hpairs.eq_of_mem_iff (hties.2 hkeeps) fun c => by rw [hlabels.mem, hlabels'.mem]
      exact ⟨packing, map, hrun, hruntime, (hequal hplen hthread).2 fun j hj => hlabels.unique hlabels' hpos hlen hparts hle hj⟩
  · rintro hKP ⟨packing, map', hrun, hruntime', heq⟩
    rw [hruntime] at hruntime'
    cases hruntime'
    obtain ⟨-, hroom, hplen, order, thread, hlabels, hpairs, hthread⟩ := tuner_labels hlen hn0 hP hK hK63 hparts hrun
    obtain ⟨rfl, rfl⟩ := hlabels.eq_of_thread hlabels' hKP hpos hlen hparts hparts' hle hle' ((hequal hplen hthread).1 heq)
    exact .inr ⟨parts, hparts, (greedy_overShare_iff hparts).1 hparts', hties.1 hpairs, hroom⟩

/-- Three tasks of weights 5, 1 and 2 in three chunks for two threads: the cut has parts of weights 5 and 3. -/
theorem binlptBalance_agree_three : Agree [5, 1, 2] [0, 0, 0] 3 2 3 := by
  have hsort : sort (partWeights [5, 1, 2] [(0, 1), (1, 3)] 3) 3 (List.replicate 3 0) = some ([0, 3, 5], [2, 1, 0]) := by
    decide +kernel
  refine (binlptBalance_agree [5, 1, 2] [0, 0, 0] 3 2 3 rfl rfl (by simp) (by decide +kernel) (by decide) (by decide)
    (by decide)).1 (.inr ⟨[(0, 1), (1, 3)], ?_, by decide +kernel, fun sorted sortmap h p q hpq hq heq _ => ?_, .inl (by decide)⟩)
  · refine .cons (by decide) (by decide) (fun m h1 h2 => by omega) (.inr (by decide +kernel)) (.cons (by decide) (by decide)
      (fun m h1 h2 => ?_) (.inl rfl) .nil)
    obtain rfl : m = 2 := by omega
    decide +kernel
  · rw [show (BitVec.toNat 3 : Nat) = 3 from rfl, hsort] at h
    cases h
    replace hq : q < 3 := hq
    interval_cases q <;> interval_cases p <;> exact absurd heq (by decide)

/-- Two tasks of equal weight in two chunks: the runtime puts them into one. -/
theorem binlptBalance_not_agree : ¬ ∀ (tasks taskmap : List U32) (ntasks nthreads maxChunks : U32), tasks.length = ntasks.toNat →
    taskmap.length = ntasks.toNat → (∀ w ∈ tasks, 0 < w.toNat) → prefixWeight tasks 0 ntasks.toNat < 2 ^ 32 →
    1 ≤ nthreads.toNat → 1 ≤ maxChunks.toNat → maxChunks.toNat ≤ ntasks.toNat →
    Agree tasks taskmap ntasks.toNat nthreads.toNat maxChunks.toNat := by
  intro h
  obtain ⟨packing, map, htuner, hruntime, heq⟩ := h [1, 1] [0, 0] 2 2 2 rfl rfl (by simp) (by decide +kernel) (by decide)
    (by decide) (by decide)
  have hmap : (Julia.binlptBalance (exactWeights [1, 1]) 2 2).map (·.taskmap) = some [2, 1] := by decide +kernel
  have hmap' : binlptBalance [1, 1] 2 2 2 [0, 0] = some [0, 0] := by decide
  obtain ⟨packing', hrun, htaskmap⟩ := Option.map_eq_some_iff.1 hmap
  obtain rfl : packing' = packing := Option.some.inj (hrun.symm.trans htuner)
  obtain rfl : [0, 0] = map := Option.some.inj (hmap'.symm.trans hruntime)
  rw [htaskmap] at heq
  exact absurd heq (by decide)

end Bosched
