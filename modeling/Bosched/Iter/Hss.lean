/-
`gomp_iter_hss_next`: the calls of all threads, one after the other under the lock, cut the tasks
`[0, __ntasks)` from the position `ws->loop_start` on. That position is an index into `__tasks` and
the loop variable at once.
-/
import Bosched.Iter.Tasks
import Bosched.Runtime.Exact

namespace Bosched

open Lib

/-! ## The iterator -/

/-- The words a call changes: `ws->loop_start` and `ws->wremaining`. -/
structure HssState where
  loopStart : Word
  wremaining : U32

/-- `chunksize`, at least `ws->chunk_size`. -/
def hssChunksize (D : Type) [CDouble D] (wremaining : U32) (nthreads chunkSize : Word) : Word :=
  let chunksize := CDouble.toLong (CDouble.ceil
    (CDouble.ofLong (D := D) (wremaining.setWidth 64) / (1.5 * CDouble.ofLong nthreads)))
  if chunksize.slt chunkSize then chunkSize else chunksize

/-- `w2`: the weight with the task after `i`, and zero after the last. -/
def hssW2 (tasks : List U32) (ntasks i : Nat) (w1 : U32) : Option U32 :=
  if i + 1 < ntasks then tasks[i + 1]?.map (w1 + ·) else some 0

/-- The loop of `gomp_iter_hss_next` from task `i` on: the final `k` and `chunkweight`. -/
def hssScan (tasks : List U32) (ntasks : Nat) (chunksize : Word) : Nat → Nat → Nat → U32 → Option (Nat × U32)
  | 0, _, k, chunkweight => some (k, chunkweight)
  | fuel + 1, i, k, chunkweight =>
    if i < ntasks then do
      let w1 := chunkweight + (← tasks[i]?)
      let w2 ← hssW2 tasks ntasks i w1
      if (w2.setWidth 64).sle chunksize then hssScan tasks ntasks chunksize fuel (i + 1) (k + 1) w1
      -- best fit
      else if chunksize.sle (w1.setWidth 64) then return (k + 1, w1)
      -- best range approximation
      else if (chunksize - w1.setWidth 64).slt (w2.setWidth 64 - chunksize) then return (k + 1, w1)
      else hssScan tasks ntasks chunksize fuel (i + 1) (k + 1) w1
    else some (k, chunkweight)

variable {D : Type} [CDouble D] {ι : Type}

/-- `gomp_iter_hss_next`, with the lock around it. -/
def gompIterHssNext (g : Globals D) (team : Option U32) (ws : GompWorkShare D) : Prog ι Unit HssState Unit Ret
  | _, _, s, _ => do
    let chunksize := hssChunksize D s.wremaining ((team.getD 1).signExtend 64) ws.chunkSize
    -- the position is truncated to `unsigned` where it serves as an index
    let i := (s.loopStart.setWidth 32).toNat
    let (k, chunkweight) ← hssScan g.tasks g.ntasks.toNat chunksize (g.ntasks.toNat - i) i 0 0
    let pend := s.loopStart + BitVec.ofNat 64 k
    return (⟨pend, s.wremaining - chunkweight⟩, (),
      some (if s.loopStart = g.ntasks.setWidth 64 then none else some (s.loopStart, pend)))

/-- Before the first call. -/
def hssEntry (ws : GompWorkShare D) : Cfg ι HssState Unit Ret := ⟨⟨ws.loopStart, ws.wremaining⟩, fun _ => (), []⟩

/-! ## One call -/

omit [CDouble D] in
/-- The loop stays below the number of tasks, and takes at least one that is left. -/
theorem hssScan_some {tasks : List U32} {ntasks : Nat} (hlen : ntasks ≤ tasks.length) (chunksize : Word) :
    ∀ {fuel i : Nat} (k : Nat) (chunkweight : U32), fuel = ntasks - i →
      ∃ k' w, hssScan tasks ntasks chunksize fuel i k chunkweight = some (k', w) ∧
        k + min 1 (ntasks - i) ≤ k' ∧ k' ≤ k + (ntasks - i)
  | 0, i, k, chunkweight, h => ⟨k, chunkweight, rfl, by omega, by omega⟩
  | fuel + 1, i, k, chunkweight, h => by
    have hi : i < ntasks := by omega
    obtain ⟨w, hw⟩ : ∃ w, tasks[i]? = some w := ⟨_, List.getElem?_eq_getElem (by omega)⟩
    obtain ⟨w2, hw2⟩ : ∃ w2, hssW2 tasks ntasks i (chunkweight + w) = some w2 := by
      unfold hssW2
      split
      · obtain ⟨w', hw'⟩ : ∃ w', tasks[i + 1]? = some w' := ⟨_, List.getElem?_eq_getElem (by omega)⟩
        exact ⟨_, by rw [hw']; rfl⟩
      · exact ⟨_, rfl⟩
    obtain ⟨k', w', hrest, h1, h2⟩ := hssScan_some hlen chunksize (k + 1) (chunkweight + w) (by omega : fuel = ntasks - (i + 1))
    have hstop : ∃ k' w', some (k + 1, chunkweight + w) = some (k', w') ∧
        k + min 1 (ntasks - i) ≤ k' ∧ k' ≤ k + (ntasks - i) := ⟨k + 1, _, rfl, by omega, by omega⟩
    have hnext : ∃ k' w', hssScan tasks ntasks chunksize fuel (i + 1) (k + 1) (chunkweight + w) = some (k', w') ∧
        k + min 1 (ntasks - i) ≤ k' ∧ k' ≤ k + (ntasks - i) := ⟨k', w', hrest, by omega, by omega⟩
    simp only [hssScan, if_pos hi, hw, hw2, Option.bind_eq_bind, Option.bind_some]
    split
    · exact hnext
    · split
      · exact hstop
      · split
        · exact hstop
        · exact hnext

/-- How far the position can move: from the index it stands for to the number of tasks. -/
def hssLeft (g : Globals D) (start : Word) : Nat := g.ntasks.toNat - (start.setWidth 32).toNat

/-- A call moves the position on by at least one while it can. -/
theorem gompIterHssNext_some {g : Globals D} (team : Option U32) (ws : GompWorkShare D) {start : Word} {s : HssState}
    {a : Nat} (hlen : g.ntasks.toNat ≤ g.tasks.length) (hs : s.loopStart.toInt = start.toInt + a)
    (ha : a ≤ hssLeft g start) (i : ι) :
    ∃ (s' : HssState) (b : Nat), gompIterHssNext g team ws i () s () =
        some (s', (), some (if start.toInt + a = g.ntasks.toNat then none else some (s.loopStart, s'.loopStart))) ∧
      s'.loopStart.toInt = start.toInt + b ∧ b ≤ hssLeft g start ∧ a + min 1 (hssLeft g start - a) ≤ b := by
  unfold hssLeft at ha ⊢
  have hN := g.ntasks.isLt
  have h1 := BitVec.toInt_eq_toNat_cond s.loopStart
  have h2 := BitVec.toInt_eq_toNat_cond start
  have h3 := s.loopStart.isLt
  have h4 := start.isLt
  rw [BitVec.toNat_setWidth] at ha ⊢
  -- the index moves along with the position
  have hidx : g.ntasks.toNat - (s.loopStart.setWidth 32).toNat = g.ntasks.toNat - start.toNat % 2 ^ 32 - a := by
    rw [BitVec.toNat_setWidth]
    split at h1 <;> split at h2 <;> omega
  obtain ⟨k, w, hscan, hk1, hk2⟩ := hssScan_some hlen
    (hssChunksize D s.wremaining ((team.getD 1).signExtend 64) ws.chunkSize) 0 0
    (rfl : g.ntasks.toNat - (s.loopStart.setWidth 32).toNat = _)
  rw [hidx] at hk1 hk2
  have hnext : (s.loopStart + BitVec.ofNat 64 k).toInt = start.toInt + ((a + k : Nat) : Int) := by
    have hsum : s.loopStart.toInt + (k : Int) = start.toInt + ((a + k : Nat) : Int) := by rw [hs]; push_cast; ring
    apply toInt_eq_of_ofInt
    · rw [← hsum, BitVec.ofInt_add, BitVec.ofInt_toInt, BitVec.ofInt_natCast]
    · split at h2 <;> omega
    · split at h2 <;> omega
  have heq : s.loopStart = g.ntasks.setWidth 64 ↔ start.toInt + a = g.ntasks.toNat := by
    have h5 : (g.ntasks.setWidth 64).toInt = g.ntasks.toNat := by
      rw [BitVec.toInt_eq_toNat_cond, BitVec.toNat_setWidth, Nat.mod_eq_of_lt (by omega), if_pos (by omega)]
    rw [← BitVec.toInt_inj, h5, hs]
  refine ⟨⟨s.loopStart + BitVec.ofNat 64 k, s.wremaining - w⟩, a + k, ?_, hnext, by omega, by omega⟩
  unfold gompIterHssNext
  simp only [hscan, heq, Option.bind_eq_bind, Option.bind_some, Option.pure_def]

omit [CDouble D] in
/-- Where a call returns false, the position cannot move any more. -/
theorem hssLeft_of_done {g : Globals D} {start : Word} {a : Nat} (h : start.toInt + a = g.ntasks.toNat)
    (ha : a ≤ hssLeft g start) : a = hssLeft g start := by
  unfold hssLeft at ha ⊢
  have h1 := BitVec.toInt_eq_toNat_cond start
  have h2 := start.isLt
  have h3 := g.ntasks.isLt
  rw [BitVec.toNat_setWidth] at ha ⊢
  split at h1 <;> omega

/-! ## Whole runs -/

/-- After calls that moved the position by `a`, the ranges returned contain what it passed, and
only the last calls may not have moved it. -/
structure HssRun (g : Globals D) (start : Word) (s : HssState) (log : List (ι × Ret)) (a : Nat) : Prop where
  pos : s.loopStart.toInt = start.toInt + a
  le : a ≤ hssLeft g start
  moves : a = hssLeft g start ∨ log.length ≤ a
  ranges : ∀ v, (chunks BitVec.toInt log).countP (fun c => c.1 ≤ v ∧ v < c.2) =
    if start.toInt ≤ v ∧ v < start.toInt + a then 1 else 0

theorem HssRun.reach [DecidableEq ι] {g : Globals D} {team : Option U32} {ws : GompWorkShare D}
    (hlen : g.ntasks.toNat ≤ g.tasks.length) {c : Cfg ι HssState Unit Ret}
    (hr : Reach (gompIterHssNext g team ws) (hssEntry ws) c) :
    ∃ a, HssRun g ws.loopStart c.shared c.log a := by
  induction hr with
  | refl =>
    refine ⟨0, by simp [hssEntry], Nat.zero_le _, .inr (le_refl 0), fun v => ?_⟩
    rw [if_neg (by omega)]
    rfl
  | @tail d _ _ hs ih =>
    obtain ⟨a, hpos, hle, hmoves, hranges⟩ := ih
    cases hs with
    | @mk i _ s' l e hp =>
      obtain ⟨s'', b, hcall, hb1, hb2, hb3⟩ := gompIterHssNext_some team ws hlen hpos hle i
      cases hcall.symm.trans hp
      refine ⟨b, hb1, hb2, ?_, fun v => ?_⟩
      · rw [logged_some, List.length_append]
        show b = _ ∨ d.log.length + 1 ≤ b
        omega
      · rw [logged_some]
        split
        · rename_i hdone
          have := hssLeft_of_done hdone hle
          rw [chunks_none, hranges v, (by omega : b = a)]
        · rw [chunks_some, List.countP_append, hranges v, List.countP_singleton, hpos, hb1]
          simp only [decide_eq_true_eq]
          split <;> split <;> split <;> omega

/-- Every call of the iterator succeeds, and after finitely many calls the ranges returned with
true contain the values of the loop once each and nothing else, and every call returns false. -/
structure Delivers {S L : Type} [DecidableEq ι] (p : Prog ι Unit S L Ret) (c : Cfg ι S L Ret) (l : Loop) : Prop where
  safe : ∀ cfg, Reach p c cfg → ∀ i, (p i () cfg.shared (cfg.loc i)).isSome
  ends : ∃ N, ∀ cfg, Reach p c cfg → N ≤ cfg.log.length →
    Partitions l (chunks BitVec.toInt cfg.log) ∧ ∀ i r, p i () cfg.shared (cfg.loc i) = some r → r.2.2 = some none

/-- The position stops behind the last task it stands for, and the values of the loop must be the
integers it has passed on the way. -/
theorem gompIterHssNext_delivers [DecidableEq ι] [Nonempty ι] {g : Globals D} (team : Option U32) {ws : GompWorkShare D}
    {l : Loop} (hlen : g.ntasks.toNat ≤ g.tasks.length) :
    Delivers (gompIterHssNext g team ws) (hssEntry ws : Cfg ι HssState Unit Ret) l ↔
      ws.loopStart.toInt + hssLeft g ws.loopStart = g.ntasks.toNat ∧
      ∀ v, v ∈ l.values ↔ ws.loopStart.toInt ≤ v ∧ v < ws.loopStart.toInt + hssLeft g ws.loopStart := by
  have hstep : ∀ cfg : Cfg ι HssState Unit Ret, Reach (gompIterHssNext g team ws) (hssEntry ws) cfg → ∀ i,
      ∃ s l e, gompIterHssNext g team ws i () cfg.shared (cfg.loc i) = some (s, l, some e) := by
    intro cfg hr i
    obtain ⟨a, hrun⟩ := HssRun.reach hlen hr
    obtain ⟨s', b, hcall, -⟩ := gompIterHssNext_some team ws hlen hrun.pos hrun.le i
    exact ⟨_, _, _, hcall⟩
  constructor
  · rintro ⟨-, N, hN⟩
    obtain ⟨cfg, hr, hlog⟩ := exists_reach_length (p := gompIterHssNext g team ws) (c := hssEntry ws) rfl
      (Classical.arbitrary ι) () (fun cfg hr => hstep cfg hr _) (N + hssLeft g ws.loopStart + 1)
    obtain ⟨hpart, hfalse⟩ := hN cfg hr (by omega)
    obtain ⟨a, hrun⟩ := HssRun.reach hlen hr
    have hle := hrun.le
    have hmoves := hrun.moves
    obtain rfl : a = hssLeft g ws.loopStart := by omega
    refine ⟨?_, fun v => ?_⟩
    · obtain ⟨s', b, hcall, -⟩ := gompIterHssNext_some team ws hlen hrun.pos hrun.le (Classical.arbitrary ι)
      have := hfalse _ _ hcall
      by_contra hne
      rw [if_neg hne] at this
      cases this
    · have hcount := (hpart v).symm.trans (hrun.ranges v)
      split at hcount <;> rename_i h1 <;> split at hcount <;> rename_i h2 <;> simp_all
  · rintro ⟨hdone, hvalues⟩
    refine ⟨fun cfg hr i => ?_, hssLeft g ws.loopStart + 1, fun cfg hr hlog => ?_⟩
    · obtain ⟨s, l, e, hcall⟩ := hstep cfg hr i
      rw [hcall]; rfl
    · obtain ⟨a, hrun⟩ := HssRun.reach hlen hr
      have hle := hrun.le
      have hmoves := hrun.moves
      obtain rfl : a = hssLeft g ws.loopStart := by omega
      refine ⟨fun v => ?_, fun i r hp => ?_⟩
      · rw [hrun.ranges v]
        simp only [hvalues v]
      · obtain ⟨s', b, hcall, -⟩ := gompIterHssNext_some team ws hlen hrun.pos hrun.le i
        cases hcall.symm.trans hp
        rw [if_pos hdone]

/-! ## After `gomp_loop_init` -/

omit [CDouble D] in
/-- Summing the weights stays inside the table. -/
theorem foldlM_weights (tasks : List U32) : ∀ (is : List Nat) (w : U32), (∀ i ∈ is, i < tasks.length) →
    ∃ w', is.foldlM (fun w i => do return w + (← tasks[i]?)) w = some w'
  | [], w, _ => ⟨w, rfl⟩
  | i :: is, w, h => by
    obtain ⟨w', hw'⟩ := foldlM_weights tasks is (w + tasks.get ⟨i, h i List.mem_cons_self⟩)
      fun j hj => h j (List.mem_cons_of_mem i hj)
    refine ⟨w', ?_⟩
    rw [List.foldlM_cons, List.getElem?_eq_getElem (h i List.mem_cons_self)]
    exact hw'

/-- What `gomp_loop_init` leaves for the iterator. -/
theorem gompLoopInit_hss {g : Globals D} (team : Option U32) (now : Int) (ws : GompWorkShare D)
    {start fin incr n : Word} (chunkSize : Word) {r : RegionId} (hn : numTasks start fin incr = some n)
    (hlen : (n.setWidth 32).toNat ≤ (g.param r).hss.length) :
    ∃ g' ws', gompLoopInit g team now ws start fin incr .fsHss chunkSize r = some (g', ws') ∧
      g'.ntasks = n.setWidth 32 ∧ g'.tasks = (g.param r).hss ∧ ws'.loopStart = start := by
  have hparam : (boScheduleBegin g r n (teamNthreads team) now).param r = g.param r := by
    unfold Globals.param
    rw [boScheduleBegin_params]
  obtain ⟨w, hw⟩ := foldlM_weights (g.param r).hss (List.range (n.setWidth 32).toNat) 0
    fun i hi => lt_of_lt_of_le (List.mem_range.1 hi) hlen
  rw [← hparam] at hw ⊢
  rw [gompLoopInit_eq hn]
  refine ⟨_, _, (congrArg (fun o : Option U32 => o.bind _) hw), rfl, rfl, rfl⟩

/-- The schedule end to end: initialisation succeeds, and the calls of the team deliver the loop. -/
def HssEndToEnd (g : Globals D) (team : Option U32) (now : Int) (ws : GompWorkShare D) (start fin incr chunkSize : Word)
    (r : RegionId) (l : Loop) : Prop :=
  ∃ g' ws', gompLoopInit g team now ws start fin incr .fsHss chunkSize r = some (g', ws') ∧
    Delivers (gompIterHssNext g' team ws' : Prog (Fin (teamNthreads team).toNat) Unit HssState Unit Ret)
      (hssEntry ws') l

section

omit [CDouble D]

/-- The positions from the start to the last task are the loop. -/
theorem tasks_interval_iff {start fin incr n : Word} {M : Nat} (hincr : incr ≠ 0) (hn : numTasks start fin incr = some n)
    (hM : M = n.toNat % 2 ^ 32 - start.toNat % 2 ^ 32) :
    (start.toInt + M = (n.toNat % 2 ^ 32 : Nat) ∧
      ∀ v, v ∈ (signedLoop start fin incr hincr).values ↔ start.toInt ≤ v ∧ v < start.toInt + M) ↔
    start = 0 ∧ ((signedLoop start fin incr hincr).trip = 0 ∨ fin = incr ∨ (incr = 1 ∧ fin.toInt < 2 ^ 32)) := by
  have h0 : (0 : Word).toInt = 0 := rfl
  have hn0 := numTasks_nonneg hn
  have hnT := numTasks_le_trip hincr hn
  have hnat := toNat_of_toInt_nonneg hn0
  have hint := (signedLoop start fin incr hincr).interval_iff (by omega : M ≤ _)
  constructor
  · rintro ⟨hs, hset⟩
    have hcase := hint.1 hset
    obtain rfl : start = 0 := by
      apply BitVec.toInt_inj.1
      rw [h0]
      rcases hcase with ht | ⟨ht, h1⟩ | ⟨-, ht⟩ <;> omega
    refine ⟨rfl, ?_⟩
    rcases hcase with ht | ⟨ht, h1⟩ | ⟨hone, ht⟩
    · exact .inl ht
    · have hfin := (one_task_iff hincr hn).1 ⟨ht, by omega⟩
      rw [h0, zero_add] at hfin
      exact .inr (.inl (BitVec.toInt_inj.1 hfin))
    · obtain rfl : incr = 1 := BitVec.toInt_inj.1 hone
      have := (unit_step hn).1
      exact .inr (.inr ⟨rfl, by omega⟩)
  · rintro ⟨rfl, hcase⟩
    have hz : (0 : Word).toNat = 0 := rfl
    rw [hz] at hM
    have hN : (0 : Word).toInt + M = (n.toNat % 2 ^ 32 : Nat) := by rw [h0]; omega
    refine ⟨hN, hint.2 ?_⟩
    rcases hcase with ht | hfin | ⟨rfl, hfin⟩
    · exact .inl ht
    · have := (one_task_iff hincr hn).2 (by rw [hfin, h0, zero_add])
      exact .inr (.inl ⟨this.1, by omega⟩)
    · have := unit_step hn
      exact .inr (.inr ⟨rfl, by omega⟩)

end

/-- HSS delivers a loop exactly when it starts at zero and has no iterations, or one that ends at
its step, or the step one and fewer than `2^32` iterations: only then is the loop variable the
index of the task. -/
theorem gompIterHssNext_endToEnd_iff {g : Globals D} {team : Option U32} {now : Int} {ws : GompWorkShare D}
    {start fin incr chunkSize : Word} {r : RegionId} (hincr : incr ≠ 0) (hteam : team ≠ some 0)
    (hlen : (g.param r).hss.length = (signedLoop start fin incr hincr).trip) :
    HssEndToEnd g team now ws start fin incr chunkSize r (signedLoop start fin incr hincr) ↔
      start = 0 ∧ ((signedLoop start fin incr hincr).trip = 0 ∨ fin = incr ∨ (incr = 1 ∧ fin.toInt < 2 ^ 32)) := by
  have h0 : (0 : Word).toInt = 0 := rfl
  cases hn : numTasks start fin incr with
  | none =>
    -- initialisation is undefined
    constructor
    · rintro ⟨g', ws', hinit, -⟩
      obtain ⟨n, hn', -⟩ := gompLoopInit_some hinit
      rw [hn] at hn'
      cases hn'
    · rintro ⟨rfl, hor⟩
      have hf := toInt_bounds fin
      have hdef : ∃ n, numTasks 0 fin incr = some n :=
        numTasks_defined hincr (hor.imp_right (Or.imp (fun h => by rw [h, h0, zero_add]) fun h => ⟨h.1, by rw [h0]; omega⟩))
      obtain ⟨n, hn'⟩ := hdef
      rw [hn] at hn'
      cases hn'
  | some n =>
    have hn0 := numTasks_nonneg hn
    have hnT := numTasks_le_trip hincr hn
    have hnat := toNat_of_toInt_nonneg hn0
    have hN : (n.setWidth 32).toNat = n.toNat % 2 ^ 32 := BitVec.toNat_setWidth 32 n
    obtain ⟨g', ws', hinit, hg', htasks, rfl⟩ := gompLoopInit_hss team now ws chunkSize hn
      (by omega : (n.setWidth 32).toNat ≤ (g.param r).hss.length)
    have : Nonempty (Fin (teamNthreads team).toNat) := ⟨⟨0, teamNthreads_pos hteam⟩⟩
    have hdeliver : HssEndToEnd g team now ws ws'.loopStart fin incr chunkSize r (signedLoop ws'.loopStart fin incr hincr) ↔
        ws'.loopStart.toInt + hssLeft g' ws'.loopStart = g'.ntasks.toNat ∧
        ∀ v, v ∈ (signedLoop ws'.loopStart fin incr hincr).values ↔
          ws'.loopStart.toInt ≤ v ∧ v < ws'.loopStart.toInt + hssLeft g' ws'.loopStart := by
      rw [← gompIterHssNext_delivers (ι := Fin (teamNthreads team).toNat) team (by rw [htasks, hg']; omega)]
      constructor
      · rintro ⟨g1, ws1, hinit1, hd⟩
        cases hinit.symm.trans hinit1
        exact hd
      · exact fun hd => ⟨g', ws', hinit, hd⟩
    rw [hdeliver, hg', hN]
    refine tasks_interval_iff hincr hn ?_
    unfold hssLeft
    rw [hg', hN, BitVec.toNat_setWidth]

/-- A table with the given workload for region 7. -/
def hssTable (workload : List U32) : Globals ℚ :=
  (Globals.fresh 2).setParam 7 { WorkloadParams.zero with hss := workload }

/-- Two threads, `for (i = 0; i < 3; i++)`. -/
theorem gompIterHssNext_endToEnd_three :
    HssEndToEnd (hssTable [5, 1, 1]) (some 2) 0 .zero 0 3 1 1 7 (signedLoop 0 3 1 (by decide)) :=
  (gompIterHssNext_endToEnd_iff (by decide) (by decide) (by decide +kernel)).2 ⟨rfl, .inr (.inr ⟨rfl, by decide⟩)⟩

/-- Two threads, `for (i = 1; i < 3; i++)`: of the two tasks only the one with index 1 is handed
out, so iteration 2 never runs. -/
theorem gompIterHssNext_skips_task :
    ¬ HssEndToEnd (hssTable [5, 1]) (some 2) 0 .zero 1 3 1 1 7 (signedLoop 1 3 1 (by decide)) := by
  rintro ⟨g', ws', hinit, hd⟩
  obtain ⟨g1, ws1, hinit1, hg, htasks, hws⟩ := gompLoopInit_hss (g := hssTable [5, 1]) (some 2) 0 .zero 1 (r := 7)
    (by decide +kernel : numTasks 1 3 1 = some 2) (by decide +kernel)
  cases hinit1.symm.trans hinit
  have : Nonempty (Fin (teamNthreads (some 2)).toNat) := ⟨⟨0, by decide⟩⟩
  have hlen : g'.ntasks.toNat ≤ g'.tasks.length := by rw [htasks, hg]; decide +kernel
  have hvalues := ((gompIterHssNext_delivers _ hlen).1 hd).2 2
  unfold hssLeft at hvalues
  rw [hws, hg] at hvalues
  exact absurd (hvalues.1 (by decide)) (by decide)

end Bosched
