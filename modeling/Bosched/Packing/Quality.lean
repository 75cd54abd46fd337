/-
The quality of the packing of `binlpt_balance`: each chunk is a contiguous range of tasks that goes
to one thread, and a thread is over the average load by no more than the chunk it was given last.
-/
import Bosched.Lib.Deal
import Bosched.Lib.Loads
import Bosched.Packing.Stages
import Mathlib.Data.List.GetD

namespace Bosched

open Lib Finset

/-- The weight of task `j`. -/
def taskWeight (tasks : List U32) (j : Nat) : Nat := (tasks.getD j 0).toNat

/-- The thread of task `j`. -/
def taskThread (map : List U32) (j : Nat) : Nat := (map.getD j 0).toNat

theorem prefixWeight_eq_sum (tasks : List U32) : ∀ m, prefixWeight tasks 0 m = ∑ j ∈ range m, taskWeight tasks j
  | 0 => by simp
  | m + 1 => by
    rw [sum_range_succ, ← prefixWeight_eq_sum tasks m]
    unfold taskWeight
    by_cases hm : m < tasks.length
    · obtain ⟨w, hw⟩ : ∃ w, tasks[m]? = some w := ⟨_, List.getElem?_eq_getElem hm⟩
      rw [prefixWeight_succ (by rwa [zero_add]), List.getD_eq_getElem?_getD, hw]
      rfl
    · have hnone : tasks[m]? = none := List.getElem?_eq_none (by omega)
      rw [List.getD_eq_getElem?_getD, hnone]
      unfold prefixWeight prefixSum
      rw [List.drop_zero, List.take_of_length_le (by simp; omega), List.take_of_length_le (by simp; omega)]
      rfl

theorem chunkWeight_eq_sum (tasks sizes : List U32) (m : Nat) :
    chunkWeight tasks sizes m = ∑ j ∈ Ico (prefixWeight sizes 0 m) (prefixWeight sizes 0 (m + 1)), taskWeight tasks j := by
  have hmono : prefixWeight sizes 0 m ≤ prefixWeight sizes 0 (m + 1) := prefixWeight_mono sizes 0 (Nat.le_succ m)
  have hsplit := sum_range_add_sum_Ico (taskWeight tasks) hmono
  unfold chunkWeight
  rw [prefixWeight_eq_sum tasks, prefixWeight_eq_sum tasks]
  omega

/-! ## The thread with the least load -/

/-- The load of thread `t`. -/
def loadAt (load : List Word) (t : Nat) : Nat := (load.getD t 0).toNat

theorem leastLoaded_spec {load : List Word} {P : Nat} (hlen : load.length = P) (hP : 0 < P) :
    ∃ tid, leastLoaded load P = some tid ∧ FirstLeast (loadAt load) P tid := by
  have hget : ∀ {t : Nat}, t < P → load[t]? = some (load.getD t 0) := fun ht => by
    rw [List.getD_eq_getElem?_getD, List.getElem?_eq_getElem (by omega)]
    rfl
  have hloop := foldlM_range' (f := fun tid j => do
      if (← load[j]?) < (← load[tid]?) then return j else return tid) (n := P - 1) (s := 1) (b := 0)
    (fun j tid => tid < P ∧ (∀ t < j, loadAt load tid ≤ loadAt load t) ∧ tid < j ∧ ∀ t < tid, loadAt load tid < loadAt load t)
    ⟨hP, fun t ht => by rw [Nat.lt_one_iff.1 ht], Nat.one_pos, fun t ht => absurd ht (Nat.not_lt_zero t)⟩
    fun j tid hj hjP hI => ?_
  · obtain ⟨tid, hfold, htid, hleast, -, hfirst⟩ := hloop
    exact ⟨tid, hfold, htid, fun t ht => hleast t (by omega), hfirst⟩
  · obtain ⟨htid, hleast, htj, hfirst⟩ := hI
    rw [hget (by omega), hget htid]
    by_cases hlt : load.getD j 0 < load.getD tid 0
    · have hlt' : loadAt load j < loadAt load tid := BitVec.lt_def.1 hlt
      refine ⟨j, if_pos hlt, by omega, fun t ht => ?_, Nat.lt_succ_self j, fun t ht => lt_of_lt_of_le hlt' (hleast t ht)⟩
      rcases Nat.lt_or_eq_of_le (Nat.le_of_lt_succ ht) with h | rfl
      · exact le_of_lt (lt_of_lt_of_le hlt' (hleast t h))
      · exact le_refl _
    · have hge : loadAt load tid ≤ loadAt load j := not_lt.1 fun h => hlt (BitVec.lt_def.2 h)
      refine ⟨tid, if_neg hlt, htid, fun t ht => ?_, by omega, hfirst⟩
      rcases Nat.lt_or_eq_of_le (Nat.le_of_lt_succ ht) with h | rfl
      · exact hleast t h
      · exact hge

/-! ## The assignment -/

section

variable {tasks sizes sortmap : List U32} {n K P top : Nat}

/-- The offset of chunk `c`. -/
def offset (sizes : List U32) (c : Nat) : Nat := prefixWeight sizes 0 c

/-- Task `j` lies in chunk `c`. -/
def InChunk (sizes : List U32) (c j : Nat) : Prop := offset sizes c ≤ j ∧ j < offset sizes (c + 1)

instance (sizes : List U32) (c j : Nat) : Decidable (InChunk sizes c j) := inferInstanceAs (Decidable (_ ∧ _))

/-- Task `j` lies in one of the chunks at the positions `i, …, K - 1` of the sorted order. -/
def Done (sizes sortmap : List U32) (K i j : Nat) : Prop := ∃ m, m < K ∧ i ≤ m ∧ InChunk sizes (sortmap.getD m 0).toNat j

instance (sizes sortmap : List U32) (K i : Nat) : DecidablePred (Done sizes sortmap K i) :=
  fun _ => Nat.decidableExistsLT _

theorem InChunk.unique {c c' j : Nat} (h : InChunk sizes c j) (h' : InChunk sizes c' j) : c = c' := by
  obtain ⟨h1, h2⟩ := h
  obtain ⟨h3, h4⟩ := h'
  rcases Nat.lt_trichotomy c c' with hlt | heq | hgt
  · have : offset sizes (c + 1) ≤ offset sizes c' := prefixWeight_mono sizes 0 hlt
    omega
  · exact heq
  · have : offset sizes (c' + 1) ≤ offset sizes c := prefixWeight_mono sizes 0 hgt
    omega

theorem exists_inChunk {j : Nat} : ∀ {m : Nat}, j < offset sizes m → ∃ c < m, InChunk sizes c j
  | 0, h => by
    unfold offset at h
    simp at h
  | m + 1, h => by
    by_cases hj : j < offset sizes m
    · obtain ⟨c, hc, hin⟩ := exists_inChunk hj
      exact ⟨c, by omega, hin⟩
    · exact ⟨m, Nat.lt_succ_self m, not_lt.1 hj, h⟩

/-- The sort map is a bijection of the chunks. -/
structure SortMap (sortmap : List U32) (K : Nat) : Prop where
  get : ∀ i < K, sortmap[i]? = some (sortmap.getD i 0)
  lt : ∀ i < K, (sortmap.getD i 0).toNat < K
  inj : ∀ i < K, ∀ j < K, (sortmap.getD i 0).toNat = (sortmap.getD j 0).toNat → i = j
  surj : ∀ c < K, ∃ i < K, (sortmap.getD i 0).toNat = c

theorem sortMap_of_perm (hK : K < 2 ^ 32) (hperm : (sortmap.take K).Perm ((List.range K).map (BitVec.ofNat 32))) :
    SortMap sortmap K := by
  have hlen : (sortmap.take K).length = K := by rw [hperm.length_eq, List.length_map, List.length_range]
  have hlen' : K ≤ sortmap.length := by rw [List.length_take] at hlen; omega
  have hget : ∀ i < K, sortmap[i]? = some (sortmap.getD i 0) := fun i hi => by
    rw [List.getD_eq_getElem?_getD, List.getElem?_eq_getElem (by omega)]
    rfl
  have htake : ∀ i < K, (sortmap.take K)[i]? = some (sortmap.getD i 0) := fun i hi => by
    rw [List.getElem?_take_of_lt hi]
    exact hget i hi
  have hnat : ∀ {c : Nat}, c < K → (BitVec.ofNat 32 c).toNat = c := fun hc => by
    rw [BitVec.toNat_ofNat, Nat.mod_eq_of_lt (by omega)]
  have hnodup : (sortmap.take K).Nodup := by
    refine hperm.nodup_iff.2 (List.Nodup.map_on (fun x hx y hy hxy => ?_) List.nodup_range)
    have := congrArg BitVec.toNat hxy
    rwa [hnat (List.mem_range.1 hx), hnat (List.mem_range.1 hy)] at this
  refine ⟨hget, fun i hi => ?_, fun i hi j hj hij => ?_, fun c hc => ?_⟩
  · have hmem := hperm.mem_iff.1 (List.mem_of_getElem? (htake i hi))
    obtain ⟨c, hc, heq⟩ := List.mem_map.1 hmem
    rw [← heq, hnat (List.mem_range.1 hc)]
    exact List.mem_range.1 hc
  · have heq : sortmap.getD i 0 = sortmap.getD j 0 := BitVec.eq_of_toNat_eq hij
    have h1 := htake i hi
    rw [heq, ← htake j hj] at h1
    exact (List.getElem?_inj (by omega) hnodup).1 h1
  · have hmem : BitVec.ofNat 32 c ∈ sortmap.take K :=
      hperm.mem_iff.2 (List.mem_map.2 ⟨c, List.mem_range.2 hc, rfl⟩)
    obtain ⟨i, hi⟩ := List.mem_iff_getElem?.1 hmem
    have hiK : i < K := by
      obtain ⟨hlt, -⟩ := List.getElem?_eq_some_iff.1 hi
      omega
    rw [htake i hiK] at hi
    exact ⟨i, hiK, by rw [Option.some.inj hi, hnat hc]⟩

/-- The state of the packing loop once the chunks at the positions `i, …, K - 1` of the sorted order
are done: a chunk is on one thread as a whole, and a thread is over the average load by at most the
chunk it was given last. -/
structure Packed (tasks sizes sortmap : List U32) (n K P top i : Nat) (map : List U32) (load : List Word) : Prop where
  len : map.length = n
  loads : load.length = P
  lt : ∀ j < n, taskThread map j < P
  whole : ∀ c < K, ∃ t < P, ∀ j, InChunk sizes c j → taskThread map j = t
  held : ∀ t < P, (load.getD t 0).toNat = loadOf (taskWeight tasks) (Done sizes sortmap K i) (taskThread map) n t
  bound : ∀ t < P, K * (P * (load.getD t 0).toNat) ≤ K * prefixWeight tasks 0 n + P * (prefixWeight tasks 0 n + K * top)

/-- One more position of the sorted order adds the chunk there. -/
theorem done_step {i : Nat} (hi : i < K) (j : Nat) :
    Done sizes sortmap K i j ↔ Done sizes sortmap K (i + 1) j ∨ InChunk sizes (sortmap.getD i 0).toNat j := by
  constructor
  · rintro ⟨m, hmK, him, hin⟩
    rcases Nat.lt_or_eq_of_le him with hlt | rfl
    · exact Or.inl ⟨m, hmK, hlt, hin⟩
    · exact Or.inr hin
  · rintro (⟨m, hmK, him, hin⟩ | hin)
    · exact ⟨m, hmK, by omega, hin⟩
    · exact ⟨i, hi, le_refl i, hin⟩

theorem not_done_of_inChunk (hmap : SortMap sortmap K) {i : Nat} (hi : i < K) {j : Nat}
    (hin : InChunk sizes (sortmap.getD i 0).toNat j) : ¬ Done sizes sortmap K (i + 1) j := by
  rintro ⟨m, hmK, him, hin'⟩
  have := hmap.inj i hi m hmK (hin.unique hin')
  omega

/-- The load after chunk `c = sortmap[i]` is on thread `t`. -/
theorem loadOf_chunk (hcut : Cut tasks n K top sizes) (hmap : SortMap sortmap K) {i t : Nat} {map map' : List U32}
    (hi : i < K) (hin : ∀ j, InChunk sizes (sortmap.getD i 0).toNat j → taskThread map' j = t)
    (hout : ∀ j, ¬ InChunk sizes (sortmap.getD i 0).toNat j → taskThread map' j = taskThread map j) (s : Nat) :
    loadOf (taskWeight tasks) (Done sizes sortmap K i) (taskThread map') n s =
      loadOf (taskWeight tasks) (Done sizes sortmap K (i + 1)) (taskThread map) n s +
        if s = t then chunkWeight tasks sizes (sortmap.getD i 0).toNat else 0 := by
  rw [chunkWeight_eq_sum]
  exact loadOf_assign (hcut.offset_le (hmap.lt i hi)) (done_step hi)
    (fun j h1 h2 => not_done_of_inChunk hmap hi ⟨h1, h2⟩) (fun j h1 h2 => hin j ⟨h1, h2⟩) hout s

/-- The inner loop stores the thread for the tasks of one chunk. -/
theorem storeChunk_spec {map : List U32} {off size tid : Nat} (htid : tid < 2 ^ 32) (hfit : off + size ≤ map.length) :
    ∃ map', (List.range size).foldlM (fun map j => store map (off + j) (BitVec.ofNat 32 tid)) map = some map' ∧
      map'.length = map.length ∧ (∀ j, off ≤ j → j < off + size → taskThread map' j = tid) ∧
      ∀ j, ¬ (off ≤ j ∧ j < off + size) → taskThread map' j = taskThread map j := by
  refine foldlM_range (f := fun map j => store map (off + j) (BitVec.ofNat 32 tid)) (b := map) (n := size)
    (fun k map' => map'.length = map.length ∧ (∀ j, off ≤ j → j < off + k → taskThread map' j = tid) ∧
      ∀ j, ¬ (off ≤ j ∧ j < off + k) → taskThread map' j = taskThread map j)
    ⟨rfl, fun j h1 h2 => by omega, fun _ _ => rfl⟩ fun k map' hk hI => ?_
  obtain ⟨hlen, hin, hout⟩ := hI
  have hlt : off + k < map'.length := by omega
  refine ⟨_, store_some _ hlt, by rw [List.length_set]; exact hlen, fun j h1 h2 => ?_, fun j hj => ?_⟩
  · unfold taskThread
    by_cases hjk : j = off + k
    · rw [hjk, List.getD_eq_getElem?_getD, List.getElem?_set_self hlt, Option.getD_some, BitVec.toNat_ofNat,
        Nat.mod_eq_of_lt htid]
    · rw [List.getD_eq_getElem?_getD, List.getElem?_set_ne (Ne.symm hjk), ← List.getD_eq_getElem?_getD]
      exact hin j h1 (by omega)
  · unfold taskThread
    rw [List.getD_eq_getElem?_getD, List.getElem?_set_ne (by omega), ← List.getD_eq_getElem?_getD]
    exact hout j (by omega)

/-- A chunk without weight is skipped and stays on the thread it is on. -/
theorem Packed.skip (hcut : Cut tasks n K top sizes) (hmap : SortMap sortmap K) {i : Nat} {map : List U32} {load : List Word}
    (hi : i < K) (h : Packed tasks sizes sortmap n K P top (i + 1) map load)
    (hzero : chunkWeight tasks sizes (sortmap.getD i 0).toNat = 0) :
    Packed tasks sizes sortmap n K P top i map load := by
  obtain ⟨t, -, ht⟩ := h.whole _ (hmap.lt i hi)
  refine ⟨h.len, h.loads, h.lt, h.whole, fun s hs => ?_, h.bound⟩
  rw [loadOf_chunk hcut hmap hi ht (fun _ _ => rfl) s, h.held s hs, hzero, ite_self, add_zero]

/-- A chunk with weight goes to the thread with the least load. -/
theorem Packed.assign (hcut : Cut tasks n K top sizes) (hmap : SortMap sortmap K) (hsum : prefixWeight tasks 0 n < 2 ^ 32)
    {i tid : Nat} {map map' : List U32} {load : List Word} {weight : U32} (hi : i < K) (hP : 0 < P)
    (h : Packed tasks sizes sortmap n K P top (i + 1) map load)
    (hweight : weight.toNat = chunkWeight tasks sizes (sortmap.getD i 0).toNat) (htid : tid < P)
    (hleast : ∀ t < P, (load.getD tid 0).toNat ≤ (load.getD t 0).toNat) (hlen : map'.length = map.length)
    (hin : ∀ j, InChunk sizes (sortmap.getD i 0).toNat j → taskThread map' j = tid)
    (hout : ∀ j, ¬ InChunk sizes (sortmap.getD i 0).toNat j → taskThread map' j = taskThread map j) :
    Packed tasks sizes sortmap n K P top i map' (load.set tid (load.getD tid 0 + weight.setWidth 64)) := by
  have hc := hmap.lt i hi
  have hloads := h.loads
  -- the least load is at most the average
  have havg : P * (load.getD tid 0).toNat ≤ prefixWeight tasks 0 n := by
    rw [prefixWeight_eq_sum, h.held tid htid]
    exact mul_loadOf_le _ _ _ _ fun s hs => by rw [← h.held tid htid, ← h.held s hs]; exact hleast s hs
  have hle : (load.getD tid 0).toNat ≤ prefixWeight tasks 0 n := le_trans (Nat.le_mul_of_pos_left _ hP) havg
  have hwlt : weight.toNat < 2 ^ 32 := weight.isLt
  have hnew : (load.getD tid 0 + weight.setWidth 64).toNat = (load.getD tid 0).toNat + weight.toNat := by
    rw [BitVec.toNat_add, BitVec.toNat_setWidth, Nat.mod_eq_of_lt (by omega : weight.toNat < 2 ^ 64),
      Nat.mod_eq_of_lt (by omega)]
  have hself : (load.set tid (load.getD tid 0 + weight.setWidth 64)).getD tid 0 =
      load.getD tid 0 + weight.setWidth 64 := by
    rw [List.getD_eq_getElem?_getD, List.getElem?_set_self (by omega), Option.getD_some]
  have hother : ∀ t, t ≠ tid → (load.set tid (load.getD tid 0 + weight.setWidth 64)).getD t 0 = load.getD t 0 :=
    fun t ht => by
      rw [List.getD_eq_getElem?_getD, List.getElem?_set_ne (Ne.symm ht), ← List.getD_eq_getElem?_getD]
  refine ⟨by rw [hlen, h.len], by rw [List.length_set, h.loads], fun j hj => ?_, fun c hcK => ?_, fun s hs => ?_,
    fun s hs => ?_⟩
  · by_cases hjc : InChunk sizes (sortmap.getD i 0).toNat j
    · rw [hin j hjc]
      exact htid
    · rw [hout j hjc]
      exact h.lt j hj
  · by_cases hcc : c = (sortmap.getD i 0).toNat
    · exact ⟨tid, htid, fun j hj => hin j (by rw [← hcc]; exact hj)⟩
    · obtain ⟨t, ht, hall⟩ := h.whole c hcK
      exact ⟨t, ht, fun j hj => by rw [hout j fun hj' => hcc (hj.unique hj')]; exact hall j hj⟩
  · rw [loadOf_chunk hcut hmap hi hin hout s, ← h.held s hs, ← hweight]
    by_cases hst : s = tid
    · rw [hst, hself, hnew, if_pos rfl]
    · rw [hother s hst, if_neg hst, Nat.add_zero]
  · by_cases hst : s = tid
    · rw [hst, hself, hnew, hweight, Nat.mul_add, Nat.mul_add]
      have hlight := Nat.mul_le_mul_left P (hcut.light _ hc)
      have havg' := Nat.mul_le_mul_left K havg
      have hcomm : K * (P * chunkWeight tasks sizes (sortmap.getD i 0).toNat) =
          P * (K * chunkWeight tasks sizes (sortmap.getD i 0).toNat) := by ring
      omega
    · rw [hother s hst]
      exact h.bound s hs

end

/-! ## The packing -/

/-- The body of the packing loop, for the chunk at position `i` of the sorted order. -/
def packBody (sorted sortmap chunkoff sizes : List U32) (P : Nat) (st : List U32 × List Word) (i : Nat) :
    Option (List U32 × List Word) := do
  let weight ← sorted[i]?
  if weight = 0 then return st
  else
    let tid ← leastLoaded st.2 P
    let c := (← sortmap[i]?).toNat
    let off := (← chunkoff[c]?).toNat
    let taskmap ← (List.range (← sizes[c]?).toNat).foldlM
      (fun map j => store map (off + j) (BitVec.ofNat 32 tid)) st.1
    return (taskmap, ← store st.2 tid ((← st.2[tid]?) + weight.setWidth 64))

/-- A chunk without weight is passed over, another one goes to the least loaded thread. -/
theorem packBody_some {sorted sortmap chunkoff sizes map : List U32} {load : List Word} {P i : Nat} {weight c off size : U32}
    (hweight : sorted[i]? = some weight) (hc : sortmap[i]? = some c) (hoff : chunkoff[c.toNat]? = some off)
    (hsize : sizes[c.toNat]? = some size) (hfit : off.toNat + size.toNat ≤ map.length) (hload : load.length = P) (hP : 0 < P)
    (hP32 : P < 2 ^ 32) :
    (weight = 0 ∧ packBody sorted sortmap chunkoff sizes P (map, load) i = some (map, load)) ∨
    (weight ≠ 0 ∧ ∃ tid map', FirstLeast (loadAt load) P tid ∧
      map'.length = map.length ∧ (∀ j, off.toNat ≤ j → j < off.toNat + size.toNat → taskThread map' j = tid) ∧
      (∀ j, ¬ (off.toNat ≤ j ∧ j < off.toNat + size.toNat) → taskThread map' j = taskThread map j) ∧
      packBody sorted sortmap chunkoff sizes P (map, load) i =
        some (map', load.set tid (load.getD tid 0 + weight.setWidth 64))) := by
  unfold packBody
  by_cases hzero : weight = 0
  · refine .inl ⟨hzero, ?_⟩
    simp only [hweight, Option.bind_eq_bind, Option.bind_some, if_pos hzero]
    rfl
  · obtain ⟨tid, htid, hleast⟩ := leastLoaded_spec hload hP
    have htidP := hleast.lt
    obtain ⟨map', hstore, hlen', hin, hout⟩ := storeChunk_spec (by omega : tid < 2 ^ 32) hfit
    have hget : load[tid]? = some (load.getD tid 0) := by
      rw [List.getD_eq_getElem?_getD, List.getElem?_eq_getElem (by rw [hload]; exact htidP)]
      rfl
    refine .inr ⟨hzero, tid, map', hleast, hlen', hin, hout, ?_⟩
    simp only [hweight, Option.bind_eq_bind, Option.bind_some, if_neg hzero, htid, hc, hoff, hsize, hstore, hget,
      store_some _ (by rw [hload]; exact htidP : tid < load.length)]
    rfl

section

variable {tasks : List U32} {n K P top : Nat}

/-- The packing loop succeeds, and what it leaves is packed. -/
theorem binlptBalance_spec (hn0 : 0 < n) (hlen : tasks.length = n) (hn : n < 2 ^ 32) (hP : 0 < P) (hP32 : P < 2 ^ 32)
    (hK : 0 < K) (hKn : K ≤ n) (hsum : prefixWeight tasks 0 n < 2 ^ 32) (htop : ∀ w ∈ tasks, w.toNat ≤ top) :
    ∃ sizes sortmap map load, computeChunksizes tasks n K = some sizes ∧
      binlptBalance tasks n P K (List.replicate n 0) = some map ∧ Cut tasks n K top sizes ∧ SortMap sortmap K ∧
      Packed tasks sizes sortmap n K P top 0 map load := by
  obtain ⟨sizes, hsizes, hcut⟩ := computeChunksizes_spec hn0 (le_of_eq hlen.symm) hn hK (by omega) hsum htop
  obtain ⟨chunks, hchunks, hclen, hweighs⟩ := computeChunks_spec hcut (le_of_eq hlen.symm) hsum
  obtain ⟨chunkoff, hoff, hcum⟩ := computeCummulativesum_spec hK (le_of_eq hcut.len.symm) (by rw [hcut.total]; exact hn)
  have hroom : K ≤ (List.replicate n (0 : U32)).length := by
    rw [List.length_replicate]
    exact hKn
  obtain ⟨sorted, sortmap, hsort, htracks, -⟩ := sort_spec (by omega) hclen hroom
  have hmap : SortMap sortmap K := sortMap_of_perm (by omega) htracks.perm
  -- at first everything is on thread 0, and nothing is accounted to a thread
  have hthread : ∀ j, taskThread (List.replicate n 0) j = 0 := fun j => by
    unfold taskThread
    rw [List.getD_eq_getElem?_getD, List.getElem?_getD_replicate_default_eq]
    rfl
  have hidle : ∀ t, ((List.replicate P (0 : Word)).getD t 0).toNat = 0 := fun t => by
    rw [List.getD_eq_getElem?_getD, List.getElem?_getD_replicate_default_eq]
    rfl
  have hstart : Packed tasks sizes sortmap n K P top K (List.replicate n 0) (List.replicate P 0) := by
    refine ⟨List.length_replicate, List.length_replicate, fun j _ => by rw [hthread]; exact hP,
      fun c _ => ⟨0, hP, fun j _ => hthread j⟩, fun t _ => ?_, fun t _ => by rw [hidle]; simp⟩
    rw [hidle]
    refine (Finset.sum_eq_zero fun j hj => ?_).symm
    obtain ⟨-, ⟨m, hmK, hKm, -⟩, -⟩ := mem_filter.1 hj
    omega
  have hloop := foldlM_range_reverse (f := packBody sorted sortmap chunkoff sizes P)
    (fun i st => Packed tasks sizes sortmap n K P top i st.1 st.2) (n := K) (b := (List.replicate n 0, List.replicate P 0))
    hstart fun i st hi hI => ?_
  · obtain ⟨⟨map, load⟩, hfold, hpacked⟩ := hloop
    refine ⟨sizes, sortmap, map, load, hsizes, ?_, hcut, hmap, hpacked⟩
    unfold binlptBalance
    rw [hsizes, Option.bind_eq_bind, Option.bind_some, hchunks, Option.bind_eq_bind, Option.bind_some, hoff,
      Option.bind_eq_bind, Option.bind_some, hsort]
    exact congrArg (fun r => r.bind fun st : List U32 × List Word => some st.1) hfold
  · obtain ⟨map, load⟩ := st
    have hc := hmap.lt i hi
    obtain ⟨c, hget, hentry⟩ := htracks.entry i hi
    obtain rfl : sortmap.getD i 0 = c := Option.some.inj ((hmap.get i hi).symm.trans hget)
    obtain ⟨weight, hweight, hwv⟩ := hweighs _ hc
    rw [hweight] at hentry
    obtain ⟨off, hoffc, hoffv⟩ := hcum _ hc
    obtain ⟨size, hsize⟩ : ∃ size, sizes[(sortmap.getD i 0).toNat]? = some size :=
      ⟨_, List.getElem?_eq_getElem (by rw [hcut.len]; exact hc)⟩
    have hend : offset sizes ((sortmap.getD i 0).toNat + 1) = off.toNat + size.toNat := by
      rw [hoffv]
      exact prefixWeight_succ (by rwa [zero_add])
    have hfit : off.toNat + size.toNat ≤ map.length := by
      rw [← hend, hI.len]
      exact hcut.offset_le hc
    have hchunk : ∀ j, InChunk sizes (sortmap.getD i 0).toNat j ↔ off.toNat ≤ j ∧ j < off.toNat + size.toNat := by
      intro j
      unfold InChunk
      rw [hend, hoffv]
      rfl
    rcases packBody_some hentry hget hoffc hsize hfit hI.loads hP hP32 with
      ⟨hzero, hbody⟩ | ⟨-, tid, map', hleast, hlen', hin, hout, hbody⟩
    · exact ⟨(map, load), hbody, Packed.skip hcut hmap hi hI (by rw [← hwv, hzero]; rfl)⟩
    · refine ⟨_, hbody, Packed.assign hcut hmap hsum hi hP hI hwv hleast.lt hleast.le hlen' (fun j hj => ?_) fun j hj => ?_⟩
      · obtain ⟨h1, h2⟩ := (hchunk j).1 hj
        exact hin j h1 h2
      · exact hout j fun h => hj ((hchunk j).2 h)

end

/-! ## The bound -/

/-- The largest weight of a single task. -/
def largestTask (tasks : List U32) : Nat := (tasks.map (·.toNat)).foldr max 0

theorem le_largestTask {tasks : List U32} {w : U32} (h : w ∈ tasks) : w.toNat ≤ largestTask tasks := by
  unfold largestTask
  induction tasks with
  | nil => cases h
  | cons v tasks ih =>
    rw [List.map_cons, List.foldr_cons]
    rcases List.mem_cons.1 h with rfl | h
    · exact le_max_left _ _
    · exact le_trans (ih h) (le_max_right _ _)

/-- The weight of the tasks that are mapped to thread `t`. -/
def threadWeight (tasks map : List U32) (t : Nat) : Nat :=
  ∑ j ∈ range tasks.length with taskThread map j = t, taskWeight tasks j

/-- What the map is worth: the chunks cover the tasks, each goes to one thread as a whole, and no thread
is over the average load by more than an average chunk and one task. -/
structure BalancedLoad (tasks sizes map : List U32) (P K : Nat) : Prop where
  len : map.length = tasks.length
  lt : ∀ t ∈ map, t.toNat < P
  chunks : sizes.length = K
  total : offset sizes K = tasks.length
  whole : ∀ c < K, ∃ t < P, ∀ j, InChunk sizes c j → taskThread map j = t
  load : ∀ t < P, (threadWeight tasks map t : ℚ) ≤
    (prefixWeight tasks 0 tasks.length : ℚ) / P + (prefixWeight tasks 0 tasks.length : ℚ) / K + largestTask tasks

/-- A workload whose total fits an `unsigned` is packed, and the packing is balanced. -/
theorem binlptBalance_balanced (tasks : List U32) (ntasks nthreads maxChunks : U32) (hlen : tasks.length = ntasks.toNat)
    (hsum : prefixWeight tasks 0 ntasks.toNat < 2 ^ 32) (hthreads : 1 ≤ nthreads.toNat) (hchunks : 1 ≤ maxChunks.toNat)
    (hle : maxChunks.toNat ≤ ntasks.toNat) :
    ∃ sizes map, computeChunksizes tasks ntasks.toNat maxChunks.toNat = some sizes ∧
      binlptBalance tasks ntasks.toNat nthreads.toNat maxChunks.toNat (List.replicate ntasks.toNat 0) = some map ∧
      BalancedLoad tasks sizes map nthreads.toNat maxChunks.toNat := by
  obtain ⟨sizes, sortmap, map, load, hsizes, hbalance, hcut, hmap, h⟩ := binlptBalance_spec
    (by omega) hlen ntasks.isLt hthreads nthreads.isLt hchunks hle hsum fun w hw => le_largestTask hw
  refine ⟨sizes, map, hsizes, hbalance, by rw [h.len, hlen], fun t ht => ?_, hcut.len, by rw [hlen]; exact hcut.total,
    h.whole, fun t ht => ?_⟩
  · obtain ⟨j, hj⟩ := List.mem_iff_getElem?.1 ht
    obtain ⟨hjlt, -⟩ := List.getElem?_eq_some_iff.1 hj
    have hlt := h.lt j (by rw [← h.len]; exact hjlt)
    unfold taskThread at hlt
    rwa [List.getD_eq_getElem?_getD, hj] at hlt
  · -- by now every task is done
    have hall : ∀ j < tasks.length, Done sizes sortmap maxChunks.toNat 0 j := fun j hj => by
      have hj' : j < offset sizes maxChunks.toNat := by
        unfold offset
        rw [hcut.total, ← hlen]
        exact hj
      obtain ⟨c, hc, hin⟩ := exists_inChunk hj'
      obtain ⟨m, hm, hmc⟩ := hmap.surj c hc
      exact ⟨m, hm, Nat.zero_le m, by rwa [hmc]⟩
    have hload : threadWeight tasks map t = (load.getD t 0).toNat := by
      rw [h.held t ht, ← hlen, loadOf_all hall]
      rfl
    have hbound := h.bound t ht
    rw [← hload, ← hlen] at hbound
    have hbound' : ((maxChunks.toNat : ℚ)) * (nthreads.toNat * threadWeight tasks map t) ≤
        maxChunks.toNat * prefixWeight tasks 0 tasks.length +
          nthreads.toNat * (prefixWeight tasks 0 tasks.length + maxChunks.toNat * largestTask tasks) := by
      exact_mod_cast hbound
    have hP : (0 : ℚ) < nthreads.toNat := Nat.cast_pos.2 hthreads
    have hK : (0 : ℚ) < maxChunks.toNat := Nat.cast_pos.2 hchunks
    rw [div_add_div _ _ (ne_of_gt hP) (ne_of_gt hK), div_add' _ _ _ (ne_of_gt (mul_pos hP hK)),
      le_div_iff₀ (mul_pos hP hK)]
    linarith

/-- Eight tasks on two threads in four chunks. -/
theorem binlptBalance_balanced_eight : ∃ sizes map, computeChunksizes [5, 3, 2, 7, 1, 1, 1, 4] 8 4 = some sizes ∧
    binlptBalance [5, 3, 2, 7, 1, 1, 1, 4] 8 2 4 (List.replicate 8 0) = some map ∧
    BalancedLoad [5, 3, 2, 7, 1, 1, 1, 4] sizes map 2 4 :=
  binlptBalance_balanced [5, 3, 2, 7, 1, 1, 1, 4] 8 2 4 rfl (by decide) (by decide) (by decide) (by decide)

end Bosched
