/-
The array accesses of `binlpt_balance` as `bo_binlpt_load_loop` calls it, with `P * 2` chunks. The weights do
not matter for them, nor whether their sums wrap around: the one array that is too short is `sortmap`, which
has an entry for each task, while `sort` stores one for each chunk.
-/
import Bosched.Packing.Quality

namespace Bosched

open Lib

/-! ## With as many tasks as chunks -/

/-- The stages succeed for any weights if the sort map has room for the chunks. -/
theorem binlptBalance_some {tasks taskmap : List U32} {n P K : Nat} (hn0 : 0 < n) (hlen : tasks.length = n)
    (hn : n < 2 ^ 32) (hmap : taskmap.length = n) (hP : 0 < P) (hP32 : P < 2 ^ 32) (hK : 0 < K) (hKn : K ≤ n) :
    ∃ map, binlptBalance tasks n P K taskmap = some map ∧ map.length = n := by
  obtain ⟨sizes, hsizes, hcuts⟩ := computeChunksizes_some hn0 (le_of_eq hlen.symm) hn hK
  obtain ⟨chunks, hchunks, hclen, -⟩ := computeChunks_ofNat hcuts (le_of_eq hlen.symm)
  obtain ⟨chunkoff, hoff, hcum⟩ := computeCummulativesum_spec hK (le_of_eq hcuts.len.symm) (by rw [hcuts.total]; exact hn)
  obtain ⟨sorted, sortmap, hsort, htracks, -⟩ := sort_spec (by omega) hclen (by rw [List.length_replicate]; exact hKn :
    K ≤ (List.replicate n (0 : U32)).length)
  have hbij : SortMap sortmap K := sortMap_of_perm (by omega) htracks.perm
  have hloop := foldlM_range_reverse (f := packBody sorted sortmap chunkoff sizes P)
    (fun _ st => st.1.length = n ∧ st.2.length = P) (n := K) (b := (taskmap, List.replicate P 0))
    ⟨hmap, List.length_replicate⟩ fun i st hi hI => ?_
  · obtain ⟨⟨map, load⟩, hfold, hmaplen, -⟩ := hloop
    refine ⟨map, ?_, hmaplen⟩
    unfold binlptBalance
    rw [hsizes, Option.bind_eq_bind, Option.bind_some, hchunks, Option.bind_eq_bind, Option.bind_some, hoff,
      Option.bind_eq_bind, Option.bind_some, hsort]
    exact congrArg (fun r => r.bind fun st : List U32 × List Word => some st.1) hfold
  · obtain ⟨map, load⟩ := st
    obtain ⟨hmaplen, hloadlen⟩ := hI
    replace hmaplen : map.length = n := hmaplen
    have hc := hbij.lt i hi
    have hget := hbij.get i hi
    obtain ⟨weight, hweight⟩ : ∃ weight, sorted[i]? = some weight :=
      ⟨_, List.getElem?_eq_getElem (by rw [htracks.len]; exact hi)⟩
    obtain ⟨off, hoffc, hoffv⟩ := hcum _ hc
    obtain ⟨size, hsize⟩ : ∃ size, sizes[(sortmap.getD i 0).toNat]? = some size :=
      ⟨_, List.getElem?_eq_getElem (by rw [hcuts.len]; exact hc)⟩
    have hfit : off.toNat + size.toNat ≤ map.length := by
      have hend : prefixWeight sizes 0 ((sortmap.getD i 0).toNat + 1) = off.toNat + size.toNat := by
        rw [hoffv]
        exact prefixWeight_succ (by rwa [zero_add])
      rw [← hend, hmaplen]
      exact hcuts.offset_le hc
    rcases packBody_some hweight hget hoffc hsize hfit hloadlen hP hP32 with
      ⟨-, hbody⟩ | ⟨-, tid, map', -, hlen', -, -, hbody⟩
    · exact ⟨_, hbody, hmaplen, hloadlen⟩
    · exact ⟨_, hbody, hlen'.trans hmaplen, by rw [List.length_set]; exact hloadlen⟩

/-! ## With more chunks than tasks -/

theorem length_of_store {α : Type} {a a' : List α} {i : Nat} {x : α} (h : store a i x = some a') : a'.length = a.length := by
  unfold store at h
  split at h
  · cases h
    rw [List.length_set]
  · cases h

/-- `sort` stores an entry of the map for each position. -/
theorem sort_eq_none {a map : List U32} {K : Nat} (h : map.length < K) : sort a K map = none := by
  have hkeep : ∀ (i : Nat) (b b' : List U32), b.length = map.length → store b i (BitVec.ofNat 32 i) = some b' →
      b'.length = map.length := fun i b b' hb hstore => (length_of_store hstore).trans hb
  have hfold : (List.range K).foldlM (fun map i => store map i (BitVec.ofNat 32 i)) map = none := by
    rw [Option.eq_none_iff_forall_ne_some]
    intro map' hmap'
    obtain ⟨b, b', hb, hstore⟩ := foldlM_mem (fun b : List U32 => b.length = map.length) hkeep rfl hmap' map.length
      (List.mem_range.2 h)
    unfold store at hstore
    rw [if_neg (by omega)] at hstore
    cases hstore
  unfold sort
  rw [hfold]
  rfl

/-- The task map keeps its length. -/
theorem length_of_binlptBalance {tasks taskmap map : List U32} {n P K : Nat} (h : binlptBalance tasks n P K taskmap = some map) :
    map.length = taskmap.length := by
  unfold binlptBalance at h
  obtain ⟨sizes, -, h⟩ := Option.bind_eq_some_iff.1 h
  obtain ⟨chunks, -, h⟩ := Option.bind_eq_some_iff.1 h
  obtain ⟨chunkoff, -, h⟩ := Option.bind_eq_some_iff.1 h
  obtain ⟨⟨sorted, sortmap⟩, -, h⟩ := Option.bind_eq_some_iff.1 h
  obtain ⟨⟨map', load⟩, hfold, h⟩ := Option.bind_eq_some_iff.1 h
  cases h
  refine foldlM_keep (f := packBody sorted sortmap chunkoff sizes P) (fun st => st.1.length = taskmap.length)
    (fun i st st' hst hbody => ?_) (b := (taskmap, List.replicate P 0)) rfl hfold
  unfold packBody at hbody
  obtain ⟨weight, -, hbody⟩ := Option.bind_eq_some_iff.1 hbody
  split at hbody
  · cases hbody
    exact hst
  · obtain ⟨tid, -, hbody⟩ := Option.bind_eq_some_iff.1 hbody
    obtain ⟨c, -, hbody⟩ := Option.bind_eq_some_iff.1 hbody
    obtain ⟨off, -, hbody⟩ := Option.bind_eq_some_iff.1 hbody
    obtain ⟨size, -, hbody⟩ := Option.bind_eq_some_iff.1 hbody
    obtain ⟨map'', hstore, hbody⟩ := Option.bind_eq_some_iff.1 hbody
    obtain ⟨x, -, hbody⟩ := Option.bind_eq_some_iff.1 hbody
    obtain ⟨load', -, hbody⟩ := Option.bind_eq_some_iff.1 hbody
    cases hbody
    exact foldlM_keep (fun m : List U32 => m.length = taskmap.length) (fun j m m' hm hs => (length_of_store hs).trans hm) hst
      hstore

theorem binlptBalance_eq_none {tasks taskmap : List U32} {n P K : Nat} (h : n < K) :
    binlptBalance tasks n P K taskmap = none := by
  rw [Option.eq_none_iff_forall_ne_some]
  intro map hmap
  unfold binlptBalance at hmap
  obtain ⟨sizes, -, hmap⟩ := Option.bind_eq_some_iff.1 hmap
  obtain ⟨chunks, -, hmap⟩ := Option.bind_eq_some_iff.1 hmap
  obtain ⟨chunkoff, -, hmap⟩ := Option.bind_eq_some_iff.1 hmap
  obtain ⟨⟨sorted, sortmap⟩, hsort, -⟩ := Option.bind_eq_some_iff.1 hmap
  rw [sort_eq_none (by rw [List.length_replicate]; exact h)] at hsort
  cases hsort

/-! ## The call -/

/-- For any weights all accesses are below the allocated lengths exactly if there are at least `2 * P` tasks. -/
theorem binlptBalance_inBounds_iff (tasks taskmap : List U32) (ntasks nthreads : U32) (hlen : tasks.length = ntasks.toNat)
    (hmap : taskmap.length = ntasks.toNat) (hn : 1 ≤ ntasks.toNat) (hP : 1 ≤ nthreads.toNat) (hint : nthreads.toNat < 2 ^ 31) :
    (binlptBalance tasks ntasks.toNat nthreads.toNat (nthreads * 2).toNat taskmap).isSome ↔
      2 * nthreads.toNat ≤ ntasks.toNat := by
  have hK : (nthreads * 2).toNat = 2 * nthreads.toNat := by
    rw [BitVec.toNat_mul]
    show nthreads.toNat * 2 % 2 ^ 32 = _
    omega
  rw [hK]
  constructor
  · intro h
    by_contra hlt
    rw [binlptBalance_eq_none (not_le.1 hlt)] at h
    cases h
  · intro hle
    obtain ⟨map, hrun, -⟩ := binlptBalance_some (P := nthreads.toNat) hn hlen ntasks.isLt hmap hP nthreads.isLt
      (by omega) hle
    rw [hrun]
    rfl

/-- Two tasks on one thread. -/
theorem binlptBalance_inBounds_two : (binlptBalance [3, 5] 2 1 2 [0, 0]).isSome :=
  (binlptBalance_inBounds_iff [3, 5] [0, 0] 2 1 rfl rfl (by decide) (by decide) (by decide)).2 (by decide)

/-- One task on one thread: `sort` writes `sortmap[1]`, which is not allocated. -/
theorem binlptBalance_outOfBounds : ¬ ∀ (tasks taskmap : List U32) (ntasks nthreads : U32), tasks.length = ntasks.toNat →
    taskmap.length = ntasks.toNat → 1 ≤ ntasks.toNat → 1 ≤ nthreads.toNat → nthreads.toNat < 2 ^ 31 →
      (binlptBalance tasks ntasks.toNat nthreads.toNat (nthreads * 2).toNat taskmap).isSome := by
  intro h
  have hrun : binlptBalance [5] 1 1 2 [0] = none := by decide
  have hsome : (binlptBalance [5] 1 1 2 [0]).isSome := h [5] [0] 1 1 rfl rfl (by decide) (by decide) (by decide)
  rw [hrun] at hsome
  cases hsome

end Bosched
