/-
The task map `classic_mode` stores, and what the runtime makes of it. The tuner numbers the threads from 1
and fills its slots in order, so a cut with as many chunks as threads mentions thread `P`, which the team
does not have; with fewer chunks thread 0 is left without work.
-/
import Bosched.Iter.BinlptRuns
import Bosched.Packing.JuliaLoop

namespace Bosched

open Lib

/-! ## The stored map at run time -/

/-- Thread `t` was given index `k`. -/
def Delivered {D : Type} {P : Nat} (ws : GompWorkShare D) (log : List (Fin P × Ret)) (t : Fin P) (k : Nat) : Prop :=
  ∃ r ∈ threadChunks t log, r.1 ≤ ws.loopStart.toInt + k ∧ ws.loopStart.toInt + k < r.2

/-- A team of `P` threads executes the map: each index is handed to the thread that is accounted for it, where
`slot t` is the slot of `load` that stands for thread `t`. -/
structure Executes (D : Type) (slot : Nat → Nat) (N P : Nat) (assigned : List Julia.Assignment) (map : List U32) : Prop where
  len : map.length = N
  lt : ∀ t ∈ map, t.toNat < P
  accounted : ∀ t < P, ∀ k < N, (∃ x, map[k]? = some x ∧ x.toNat = t) ↔ ∃ a ∈ assigned, a.tid = slot t ∧ a.Holds k
  runs : ∀ (g : Globals D) (ws : GompWorkShare D) (nthreads : U32), nthreads.toNat = P → g.ntasks = BitVec.ofNat 32 N →
    ws.taskmap = map → ws.threadStart = List.replicate nthreads.toNat 0 → ws.loopStart.toInt + g.ntasks.toNat < 2 ^ 63 →
    ∀ c : Cfg (Fin nthreads.toNat) (List U32) Unit Ret, Reach (gompIterBinlptNext g ws) (binlptEntry ws) c →
      BinlptCoverage g ws c ∧ ((∀ t, (t, none) ∈ c.log) → ∀ k < N, ∃ t, Delivered ws c.log t k)

section

variable {D : Type} [JuliaFloat D]

theorem classicLoop_id {profile : RegionId → Option (Julia.Profile D)} {h : D} {P : Nat} {l l' : LoopJson D}
    (hl : Julia.classicLoop profile h P l = some l') : l'.id = l.id := by
  unfold Julia.classicLoop at hl
  obtain ⟨id, hid, hl⟩ := Option.bind_eq_some_iff.1 hl
  split at hl
  · cases hl
    rfl
  · obtain ⟨n, hn, hl⟩ := Option.bind_eq_some_iff.1 hl
    split at hl
    · cases hl
      rfl
    · obtain ⟨arr, -, hl⟩ := Option.bind_eq_some_iff.1 hl
      obtain ⟨packing, -, hl⟩ := Option.bind_eq_some_iff.1 hl
      cases hl
      rfl

/-- What is read back for a region from the whole file comes from the last loop with its id. -/
theorem loadWorkloadParams_classicMode {profile : RegionId → Option (Julia.Profile D)} {h : D} {P : Nat}
    {before after loops : List (LoopJson D)} {l : LoopJson D} {id : RegionId} {f : StateFile D}
    {table : AList fun _ : RegionId => WorkloadParams D} (hid : l.id = some id) (hafter : ∀ e ∈ after, e.id ≠ some id)
    (hmode : Julia.classicMode profile h P (before ++ l :: after) = some loops)
    (hload : loadWorkloadParams { f with loops := some loops } = some table) :
    ∃ l' bundle, Julia.classicLoop profile h P l = some l' ∧ readBundle l' = some bundle ∧ table.lookup id = some bundle := by
  unfold Julia.classicMode at hmode
  rw [List.mapM_append] at hmode
  obtain ⟨before', -, hmode⟩ := Option.bind_eq_some_iff.1 hmode
  obtain ⟨rest, hrest, hmode⟩ := Option.bind_eq_some_iff.1 hmode
  cases hmode
  rw [List.mapM_cons] at hrest
  obtain ⟨l', hl', hrest⟩ := Option.bind_eq_some_iff.1 hrest
  obtain ⟨after', hafter', hrest⟩ := Option.bind_eq_some_iff.1 hrest
  cases hrest
  replace hload : (before' ++ l' :: after').foldlM (fun result l => do
      let bundle ← readBundle l
      return result.insert (← l.id) bundle) ∅ = some table := hload
  rw [List.foldlM_append, Option.bind_eq_bind] at hload
  obtain ⟨table₁, -, hload⟩ := Option.bind_eq_some_iff.1 hload
  obtain ⟨table₂, htable₂, hload⟩ := Option.bind_eq_some_iff.1 hload
  obtain ⟨bundle, hbundle, htable₂⟩ := Option.bind_eq_some_iff.1 htable₂
  rw [classicLoop_id hl', hid] at htable₂
  cases htable₂
  refine ⟨l', bundle, hl', hbundle, ?_⟩
  -- the loops after it have other ids
  have hothers : ∀ {es es' : List (LoopJson D)} {t t' : AList fun _ : RegionId => WorkloadParams D},
      (∀ e ∈ es, e.id ≠ some id) → es.mapM (Julia.classicLoop profile h P) = some es' →
      es'.foldlM (fun result l => do
        let bundle ← readBundle l
        return result.insert (← l.id) bundle) t = some t' → t'.lookup id = t.lookup id := by
    intro es
    induction es with
    | nil =>
      intro es' t t' _ hes ht
      cases hes
      cases ht
      rfl
    | cons e es ih =>
      intro es' t t' hne hes ht
      rw [List.mapM_cons] at hes
      obtain ⟨e', he', hes⟩ := Option.bind_eq_some_iff.1 hes
      obtain ⟨es₁, hes₁, hes⟩ := Option.bind_eq_some_iff.1 hes
      cases hes
      obtain ⟨t₁, ht₁, ht⟩ := Option.bind_eq_some_iff.1 ht
      obtain ⟨b, -, ht₁⟩ := Option.bind_eq_some_iff.1 ht₁
      obtain ⟨r, hr, ht₁⟩ := Option.bind_eq_some_iff.1 ht₁
      cases ht₁
      rw [ih (fun e he => hne e (List.mem_cons_of_mem _ he)) hes₁ ht, AList.lookup_insert_ne]
      rintro rfl
      exact hne e List.mem_cons_self (by rw [← classicLoop_id he']; exact hr)
  rw [hothers hafter hafter' hload, AList.lookup_insert]

/-- The entries of the map that is read back. -/
theorem Julia.Packs.json {tasks : List D} {parts : List (Nat × Nat)} {P : Nat} {st : Julia.Packing D}
    (h : Julia.Packs tasks parts P st) {j : Nat} (hj : j < tasks.length) :
    ∃ a ∈ st.assigned, a.Holds j ∧ (∀ a' ∈ st.assigned, a'.Holds j → a'.tid = a.tid) ∧
      ∃ x, st.json[j]? = some x ∧ x.toNat = a.tid := by
  obtain ⟨a, ha, hholds, hget, huniq⟩ := h.entry j hj
  refine ⟨a, ha, hholds, huniq, BitVec.ofNat 32 a.tid, ?_, ?_⟩
  · unfold Julia.Packing.json
    rw [List.getElem?_map, hget]
    rfl
  · have := (h.tids a ha).2.2
    rw [BitVec.toNat_ofNat, Nat.mod_eq_of_lt (by omega)]

omit [JuliaFloat D] in
/-- The tasks are counted in an `int`. -/
theorem Executes.length_lt {slot : Nat → Nat} {N P : Nat} {assigned : List Julia.Assignment} {map : List U32} (hN : 0 < N)
    (hP : P < 2 ^ 32) (he : Executes D slot N P assigned map) (g₀ : Globals D) (ws₀ : GompWorkShare D) : N < 2 ^ 31 := by
  obtain ⟨nthreads, hn⟩ : ∃ nthreads : U32, nthreads.toNat = P :=
    ⟨BitVec.ofNat 32 P, by rw [BitVec.toNat_ofNat, Nat.mod_eq_of_lt hP]⟩
  let g : Globals D := { g₀ with ntasks := BitVec.ofNat 32 N }
  let ws : GompWorkShare D := { ws₀ with taskmap := map, threadStart := List.replicate nthreads.toNat 0, loopStart := 0 }
  have hmod : g.ntasks.toNat = N % 2 ^ 32 := BitVec.toNat_ofNat _ _
  have hfits : ws.loopStart.toInt + g.ntasks.toNat < 2 ^ 63 := by
    have h0 : ws.loopStart.toInt = 0 := rfl
    omega
  have hruns := he.runs g ws nthreads hn rfl rfl rfl hfits
  have hPlt : nthreads.toNat < 2 ^ 32 := nthreads.isLt
  have hle := Nat.mod_le N (2 ^ 32)
  have hlen := he.len
  have hteam : ∀ k < g.ntasks.toNat, TeamTask ws nthreads.toNat k := fun k hk =>
    ⟨_, List.getElem?_eq_getElem (show k < map.length by omega), by rw [hn]; exact he.lt _ (List.getElem_mem _)⟩
  have hint := ((gompIterBinlptNext_coverage_iff (show g.ntasks.toNat ≤ ws.taskmap.length by
    show g.ntasks.toNat ≤ map.length; omega) hteam rfl).1 fun c hr => (hruns c hr).1).1
  -- in a complete run the last index was handed out, so it is below the count
  obtain ⟨c, hr, hdone⟩ := exists_all_done hPlt (rfl : ws.threadStart = _) fun c hr => (hruns c hr).1.safe
  obtain ⟨hcover, hall⟩ := hruns c hr
  obtain ⟨t, r, hmem, -, hlast⟩ := hall hdone (N - 1) (by omega)
  obtain ⟨rs, hrs, -, hfull⟩ := hcover.inOrder t
  rw [hfull (hdone t)] at hmem
  obtain ⟨q, hq, rfl⟩ := List.mem_map.1 hmem
  have hq2 := ((hrs.mem_iff q).1 hq).le
  have hspan : (span ws q).2 = ws.loopStart.toInt + q.2 := rfl
  rw [hspan] at hlast
  omega

end

/-! ## One loop -/

end Bosched
