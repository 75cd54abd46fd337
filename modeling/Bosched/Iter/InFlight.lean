/-
`FS_BINLPT` and `FS_HSS` loops in flight while another loop is initialised. `__ntasks` and `__tasks`
are process-global: the initialisation of another such loop overwrites them under the calls that
still iterate the first one. Everything else an initialisation touches, the calls do not read.
-/
import Bosched.Iter.Hss
import Bosched.Iter.Binlpt

namespace Bosched

open Lib

section

variable {D : Type}

/-! ## What the calls read -/

/-- What the calls of a BINLPT loop of region `r` read outside the loop's own work share, whose
`taskmap` points into the table of the region. -/
structure BinlptReads [CDouble D] (g g' : Globals D) (r : RegionId) : Prop where
  ntasks : g'.ntasks = g.ntasks
  taskmap : (g.param r).binlpt ≠ [] → (g'.param r).binlpt = (g.param r).binlpt

/-- What the calls of an HSS loop read from position `start` on. -/
structure HssReads (g g' : Globals D) (start : Word) : Prop where
  ntasks : g'.ntasks = g.ntasks
  tasks : ∀ i, (start.setWidth 32).toNat ≤ i → i < g.ntasks.toNat → g'.tasks[i]? = g.tasks[i]?

/-- The BINLPT loop goes on from `c` as if `g` had not become `g'`. -/
structure BinlptUndisturbed [CDouble D] (g g' : Globals D) (r : RegionId) (ws : GompWorkShare D) {P : Nat}
    (c : Cfg (Fin P) (List U32) Unit Ret) : Prop where
  reads : BinlptReads g g' r
  runs : ∀ c', Reach (gompIterBinlptNext g' ws) c c' ↔ Reach (gompIterBinlptNext g ws) c c'

/-- The HSS loop goes on from `c` as if `g` had not become `g'`. -/
structure HssUndisturbed [CDouble D] {ι : Type} [DecidableEq ι] (g g' : Globals D) (team : Option U32) (ws : GompWorkShare D)
    (c : Cfg ι HssState Unit Ret) : Prop where
  reads : HssReads g g' c.shared.loopStart
  runs : ∀ c', Reach (gompIterHssNext g' team ws) c c' ↔ Reach (gompIterHssNext g team ws) c c'

/-- The calls of a BINLPT loop depend on the number of tasks only. -/
theorem gompIterBinlptNext_congr {g g' : Globals D} (h : g'.ntasks = g.ntasks) (ws : GompWorkShare D) {P : Nat} :
    (gompIterBinlptNext g' ws : Prog (Fin P) Unit (List U32) Unit Ret) = gompIterBinlptNext g ws := by
  unfold gompIterBinlptNext
  rw [h]

/-- A scan reads the tasks from its first one to the last. -/
theorem hssScan_congr {tasks tasks' : List U32} {ntasks : Nat} (chunksize : Word) :
    ∀ (fuel i k : Nat) (w : U32), (∀ j, i ≤ j → j < ntasks → tasks'[j]? = tasks[j]?) →
      hssScan tasks' ntasks chunksize fuel i k w = hssScan tasks ntasks chunksize fuel i k w
  | 0, i, k, w, _ => rfl
  | fuel + 1, i, k, w, h => by
    have hw2 : ∀ w1, hssW2 tasks' ntasks i w1 = hssW2 tasks ntasks i w1 := by
      intro w1
      unfold hssW2
      split
      · rename_i hlt
        rw [h (i + 1) (by omega) hlt]
      · rfl
    have hrest : ∀ w1, hssScan tasks' ntasks chunksize fuel (i + 1) (k + 1) w1 =
        hssScan tasks ntasks chunksize fuel (i + 1) (k + 1) w1 :=
      fun w1 => hssScan_congr chunksize fuel (i + 1) (k + 1) w1 fun j hj => h j (by omega)
    by_cases hi : i < ntasks
    · simp only [hssScan, if_pos hi, h i (le_refl i) hi, hw2, hrest]
    · simp only [hssScan, if_neg hi]

/-- A scan takes no more tasks than are left. -/
theorem hssScan_le {tasks : List U32} {ntasks : Nat} {chunksize : Word} :
    ∀ {fuel i k : Nat} {w : U32} {k' : Nat} {w' : U32},
      hssScan tasks ntasks chunksize fuel i k w = some (k', w') → k' ≤ k + fuel
  | 0, i, k, w, k', w', h => by
    cases h
    omega
  | fuel + 1, i, k, w, k', w', h => by
    unfold hssScan at h
    split at h
    · obtain ⟨x, -, h⟩ := Option.bind_eq_some_iff.1 h
      obtain ⟨w2, -, h⟩ := Option.bind_eq_some_iff.1 h
      have hnext : hssScan tasks ntasks chunksize fuel (i + 1) (k + 1) (w + x) = some (k', w') → k' ≤ k + (fuel + 1) := by
        intro hrest
        have := hssScan_le hrest
        omega
      have hstop : some (k + 1, w + x) = some (k', w') → k' ≤ k + (fuel + 1) := by
        intro heq
        cases heq
        omega
      split at h
      · exact hnext h
      · split at h
        · exact hstop h
        · split at h
          · exact hstop h
          · exact hnext h
    · cases h
      omega

variable [CDouble D] {ι : Type}

/-- The index of an HSS loop never moves back. -/
theorem gompIterHssNext_index {g : Globals D} {team : Option U32} {ws : GompWorkShare D} {i : ι} {a u u' : Unit}
    {s s' : HssState} {e : Option Ret} (h : gompIterHssNext g team ws i a s u = some (s', u', e)) :
    (s.loopStart.setWidth 32).toNat ≤ (s'.loopStart.setWidth 32).toNat := by
  unfold gompIterHssNext at h
  obtain ⟨⟨k, w⟩, hscan, h⟩ := Option.bind_eq_some_iff.1 h
  cases h
  have hk := hssScan_le hscan
  have hN := g.ntasks.isLt
  rw [BitVec.toNat_setWidth] at hk
  rw [BitVec.toNat_setWidth, BitVec.toNat_setWidth, BitVec.toNat_add, BitVec.toNat_ofNat]
  omega

/-- The calls of an HSS loop depend on what they read. -/
theorem gompIterHssNext_congr {g g' : Globals D} {start : Word} (h : HssReads g g' start) (team : Option U32)
    (ws : GompWorkShare D) {s : HssState} (hs : (start.setWidth 32).toNat ≤ (s.loopStart.setWidth 32).toNat) (i : ι)
    (a u : Unit) : gompIterHssNext g' team ws i a s u = gompIterHssNext g team ws i a s u := by
  unfold gompIterHssNext
  simp only [h.ntasks]
  rw [hssScan_congr]
  exact fun j hj => h.tasks j (by omega)

theorem HssReads.undisturbed [DecidableEq ι] {g g' : Globals D} {team : Option U32} {ws : GompWorkShare D}
    {c : Cfg ι HssState Unit Ret} (h : HssReads g g' c.shared.loopStart) : HssUndisturbed g g' team ws c := by
  refine ⟨h, fun c' => Iff.symm ?_⟩
  have hc : (c.shared.loopStart.setWidth 32).toNat ≤ (c.shared.loopStart.setWidth 32).toNat := le_refl _
  refine reach_congr ?_ (fun hJ i a => (gompIterHssNext_congr h team ws hJ i a _).symm) hc
  rintro d d' hJ ⟨i, a, hp⟩
  exact le_trans hJ (gompIterHssNext_index hp)

theorem BinlptReads.undisturbed {g g' : Globals D} {r : RegionId} {ws : GompWorkShare D} {P : Nat}
    {c : Cfg (Fin P) (List U32) Unit Ret} (h : BinlptReads g g' r) : BinlptUndisturbed g g' r ws c :=
  ⟨h, fun c' => by rw [gompIterBinlptNext_congr h.ntasks]⟩

/-! ## What an initialisation writes -/

theorem param_setParam_self (g : Globals D) (r r' : RegionId) : (g.setParam r (g.param r)).param r' = g.param r' := by
  by_cases h : r' = r
  · subst h
    exact g.param_setParam r' _
  · unfold Globals.param Globals.setParam
    rw [AList.lookup_insert_ne h]

/-- The globals of `loop.c`, and the stored task maps, are the same. -/
structure SameWorkloads (g g' : Globals D) : Prop where
  ntasks : g'.ntasks = g.ntasks
  tasks : g'.tasks = g.tasks
  param : ∀ r, g'.param r = g.param r

theorem SameWorkloads.trans {g g' g'' : Globals D} (h : SameWorkloads g g') (h' : SameWorkloads g' g'') :
    SameWorkloads g g'' :=
  ⟨h'.ntasks.trans h.ntasks, h'.tasks.trans h.tasks, fun r => (h'.param r).trans (h.param r)⟩

theorem sameWorkloads_setParam (g : Globals D) (r : RegionId) : SameWorkloads g (g.setParam r (g.param r)) :=
  ⟨rfl, rfl, param_setParam_self g r⟩

/-- Reading the parameter and the begin of a loop do not touch the workloads. -/
theorem sameWorkloads_begin (g : Globals D) (ws : GompWorkShare D) (sched : GompScheduleType) (r : RegionId) (n P : Word)
    (now : Int) : SameWorkloads g (boScheduleBegin (readParam g ws sched r).1 r n P now) := by
  unfold readParam boScheduleBegin
  simp only
  constructor
  · split <;> split <;> split <;> rfl
  · split <;> split <;> split <;> rfl
  · intro r'
    split <;> split <;> split <;> rfl

/-- A schedule without a workload of its own leaves the workloads alone. -/
theorem gompLoopInitSched_sameWorkloads {g g' : Globals D} {ws ws' : GompWorkShare D} {n P start incr : Word}
    {sched : GompScheduleType} {r : RegionId} (hb : sched ≠ .fsBinlpt) (hh : sched ≠ .fsHss)
    (h : gompLoopInitSched g ws n P start incr sched r = some (g', ws')) : SameWorkloads g g' := by
  cases sched
  case fsBinlpt => exact absurd rfl hb
  case fsHss => exact absurd rfl hh
  case fsTape | fsTss =>
    obtain ⟨⟨_, _⟩, hp, h⟩ := Option.bind_eq_some_iff.1 h
    obtain ⟨_, _, hp⟩ := Option.bind_eq_some_iff.1 hp
    cases hp
    cases h
    exact sameWorkloads_setParam _ _
  all_goals
    cases h
    first
      | exact ⟨rfl, rfl, fun _ => rfl⟩
      | exact sameWorkloads_setParam _ _

/-- A stored task map stays as it is. -/
theorem boBinlptLoadLoop_binlpt {g g' : Globals D} {r r' : RegionId} {map : List U32}
    (h : boBinlptLoadLoop g r = some (g', map)) (hmap : (g.param r').binlpt ≠ []) :
    (g'.param r').binlpt = (g.param r').binlpt := by
  unfold boBinlptLoadLoop at h
  dsimp only at h
  split at h
  · rename_i hlen
    split at h
    · cases h
    · obtain ⟨map', -, h⟩ := Option.bind_eq_some_iff.1 h
      cases h
      have hne : r' ≠ r := by
        rintro rfl
        exact hmap (List.eq_nil_of_length_eq_zero hlen)
      unfold Globals.param Globals.setParam
      rw [AList.lookup_insert_ne hne]
  · cases h
    rw [param_setParam_self]

theorem boBinlptLoadLoop_tasks {g g' : Globals D} {r : RegionId} {map : List U32}
    (h : boBinlptLoadLoop g r = some (g', map)) : g'.tasks = g.tasks := by
  unfold boBinlptLoadLoop at h
  dsimp only at h
  split at h
  · split at h
    · cases h
    · obtain ⟨map', -, h⟩ := Option.bind_eq_some_iff.1 h
      cases h
      rfl
  · cases h
    rfl

section

variable {g g' : Globals D} {team : Option U32} {now : Int} {ws ws' : GompWorkShare D} {start fin incr n chunkSize : Word}
  {sched : GompScheduleType} {r : RegionId}

theorem gompLoopInit_sameWorkloads (hb : sched ≠ .fsBinlpt) (hh : sched ≠ .fsHss)
    (h : gompLoopInit g team now ws start fin incr sched chunkSize r = some (g', ws')) : SameWorkloads g g' := by
  obtain ⟨n, -, hs⟩ := gompLoopInit_some h
  exact (sameWorkloads_begin g _ sched r n _ now).trans (gompLoopInitSched_sameWorkloads hb hh hs)

theorem gompLoopInit_binlpt_writes (hn : numTasks start fin incr = some n)
    (h : gompLoopInit g team now ws start fin incr .fsBinlpt chunkSize r = some (g', ws')) :
    g'.ntasks = n.setWidth 32 ∧ g'.tasks = g.tasks ∧
      ∀ r', (g.param r').binlpt ≠ [] → (g'.param r').binlpt = (g.param r').binlpt := by
  rw [gompLoopInit_eq hn] at h
  obtain ⟨⟨_, map⟩, hload, h⟩ := Option.bind_eq_some_iff.1 h
  cases h
  have hbegin := sameWorkloads_begin g (canonicalShare ws start fin incr .fsBinlpt chunkSize) .fsBinlpt r n
    (teamNthreads team) now
  refine ⟨boBinlptLoadLoop_ntasks hload, (boBinlptLoadLoop_tasks hload).trans hbegin.tasks, fun r' hmap => ?_⟩
  have hparam := congrArg WorkloadParams.binlpt (hbegin.param r')
  rw [← hparam] at hmap
  exact (boBinlptLoadLoop_binlpt hload hmap).trans hparam

theorem gompLoopInit_hss_writes (hn : numTasks start fin incr = some n)
    (h : gompLoopInit g team now ws start fin incr .fsHss chunkSize r = some (g', ws')) :
    g'.ntasks = n.setWidth 32 ∧ g'.tasks = (g.param r).hss ∧ ∀ r', g'.param r' = g.param r' := by
  rw [gompLoopInit_eq hn] at h
  obtain ⟨_, _, h⟩ := Option.bind_eq_some_iff.1 h
  cases h
  have hbegin := sameWorkloads_begin g (canonicalShare ws start fin incr .fsHss chunkSize) .fsHss r n
    (teamNthreads team) now
  exact ⟨rfl, congrArg WorkloadParams.hss (hbegin.param r), fun r' => (param_setParam_self _ _ _).trans (hbegin.param r')⟩

theorem gompLoopUllInit_sameWorkloads {up : Bool}
    (h : gompLoopUllInit g team now ws up start fin incr sched chunkSize r = some (g', ws')) : SameWorkloads g g' := by
  obtain ⟨n, -, h⟩ := Option.bind_eq_some_iff.1 h
  obtain ⟨_, -, h⟩ := Option.bind_eq_some_iff.1 h
  cases h
  exact sameWorkloads_begin g _ sched r n _ now

/-! ## Loops in flight -/

/-- The other loop has no workload, or as many tasks as the BINLPT loop in flight. -/
def SameTaskCount (g : Globals D) (sched : GompScheduleType) (n : Word) : Prop :=
  sched = .fsBinlpt ∨ sched = .fsHss → n.setWidth 32 = g.ntasks

/-- The other loop has no workload, or as many tasks as the HSS loop in flight, and if it is an HSS
loop as well, the same weights from position `start` on. -/
def SameWorkload (g : Globals D) (sched : GompScheduleType) (n : Word) (r : RegionId) (start : Word) : Prop :=
  SameTaskCount g sched n ∧ (sched = .fsHss →
    ∀ i, (start.setWidth 32).toNat ≤ i → i < g.ntasks.toNat → (g.param r).hss[i]? = g.tasks[i]?)

theorem binlptReads_iff (hn : numTasks start fin incr = some n)
    (h : gompLoopInit g team now ws start fin incr sched chunkSize r = some (g', ws')) (rf : RegionId) :
    BinlptReads g g' rf ↔ SameTaskCount g sched n := by
  unfold SameTaskCount
  by_cases hb : sched = .fsBinlpt
  · subst hb
    obtain ⟨hN, -, hmap⟩ := gompLoopInit_binlpt_writes hn h
    exact ⟨fun hr _ => hN ▸ hr.ntasks, fun hc => ⟨hN.trans (hc (.inl rfl)), hmap rf⟩⟩
  · by_cases hh : sched = .fsHss
    · subst hh
      obtain ⟨hN, -, hparam⟩ := gompLoopInit_hss_writes hn h
      exact ⟨fun hr _ => hN ▸ hr.ntasks, fun hc => ⟨hN.trans (hc (.inr rfl)), fun _ => by rw [hparam]⟩⟩
    · have hw := gompLoopInit_sameWorkloads hb hh h
      exact ⟨fun _ hs => absurd hs (by simp [hb, hh]), fun _ => ⟨hw.ntasks, fun _ => by rw [hw.param]⟩⟩

theorem hssReads_iff (hn : numTasks start fin incr = some n)
    (h : gompLoopInit g team now ws start fin incr sched chunkSize r = some (g', ws')) (pos : Word) :
    HssReads g g' pos ↔ SameWorkload g sched n r pos := by
  unfold SameWorkload SameTaskCount
  by_cases hb : sched = .fsBinlpt
  · subst hb
    obtain ⟨hN, htasks, -⟩ := gompLoopInit_binlpt_writes hn h
    exact ⟨fun hr => ⟨fun _ => hN ▸ hr.ntasks, nofun⟩, fun hc => ⟨hN.trans (hc.1 (.inl rfl)), fun i _ _ => by rw [htasks]⟩⟩
  · by_cases hh : sched = .fsHss
    · subst hh
      obtain ⟨hN, htasks, -⟩ := gompLoopInit_hss_writes hn h
      refine ⟨fun hr => ⟨fun _ => hN ▸ hr.ntasks, fun _ => ?_⟩, fun hc => ⟨hN.trans (hc.1 (.inr rfl)), ?_⟩⟩
      · have := hr.tasks
        rwa [htasks] at this
      · rw [htasks]
        exact hc.2 rfl
    · have hw := gompLoopInit_sameWorkloads hb hh h
      refine ⟨fun _ => ⟨fun hs => absurd hs (by simp [hb, hh]), fun hs => absurd hs hh⟩, fun _ => ⟨hw.ntasks, ?_⟩⟩
      intro i _ _
      rw [hw.tasks]

end

/-- From any point of a BINLPT and of an HSS loop in flight: the initialisation of another loop goes
unnoticed exactly when that loop has no workload or the same one. -/
theorem inFlight_undisturbed_iff {g : Globals D} (rf : RegionId) (wsb wsh : GompWorkShare D) {P : Nat}
    [DecidableEq ι] (cb : Cfg (Fin P) (List U32) Unit Ret) (team : Option U32) (ch : Cfg ι HssState Unit Ret) :
    (∀ {g' : Globals D} {team' : Option U32} {now : Int} {ws ws' : GompWorkShare D} {start fin incr n chunkSize : Word}
      {sched : GompScheduleType} {r : RegionId}, numTasks start fin incr = some n →
      gompLoopInit g team' now ws start fin incr sched chunkSize r = some (g', ws') →
      (BinlptUndisturbed g g' rf wsb cb ↔ SameTaskCount g sched n) ∧
        (HssUndisturbed g g' team wsh ch ↔ SameWorkload g sched n r ch.shared.loopStart)) ∧
    (∀ {g' : Globals D} {team' : Option U32} {now : Int} {ws ws' : GompWorkShare D} {up : Bool}
      {start fin incr chunkSize : Word} {sched : GompScheduleType} {r : RegionId},
      gompLoopUllInit g team' now ws up start fin incr sched chunkSize r = some (g', ws') →
      BinlptUndisturbed g g' rf wsb cb ∧ HssUndisturbed g g' team wsh ch) := by
  constructor
  · intro g' team' now ws ws' start fin incr n chunkSize sched r hn hinit
    constructor
    · rw [← binlptReads_iff hn hinit rf]
      exact ⟨fun h => h.reads, fun h => h.undisturbed⟩
    · rw [← hssReads_iff hn hinit]
      exact ⟨fun h => h.reads, fun h => h.undisturbed⟩
  · intro g' team' now ws ws' up start fin incr chunkSize sched r hinit
    have hw := gompLoopUllInit_sameWorkloads hinit
    have hb : BinlptReads g g' rf := ⟨hw.ntasks, fun _ => by rw [hw.param]⟩
    have hh : HssReads g g' ch.shared.loopStart := ⟨hw.ntasks, fun i _ _ => by rw [hw.tasks]⟩
    exact ⟨hb.undisturbed, hh.undisturbed⟩

end

/-- An HSS loop of three tasks, and a `GFS_STATIC` loop of nine iterations that begins meanwhile. -/
theorem inFlight_undisturbed_static :
    ∃ (g g' : Globals ℚ) (ws ws' : GompWorkShare ℚ),
      gompLoopInit (hssTable [5, 1, 1]) (some 2) 0 .zero 0 3 1 .fsHss 1 7 = some (g, ws) ∧
      gompLoopInit g (some 2) 0 .zero 0 9 1 .gfsStatic 0 8 = some (g', ws') ∧
      HssUndisturbed g g' (some 2) ws (hssEntry ws : Cfg (Fin 2) HssState Unit Ret) := by
  have hrun : (gompLoopInit (hssTable [5, 1, 1]) (some 2) 0 .zero 0 3 1 .fsHss 1 7).any (fun r =>
      (gompLoopInit r.1 (some 2) 0 .zero 0 9 1 .gfsStatic 0 8).any fun _ => true) = true := by decide +kernel
  obtain ⟨⟨g, ws⟩, hinit, hrun⟩ := (Option.any_eq_true _ _).1 hrun
  obtain ⟨⟨g', ws'⟩, hinit', -⟩ := (Option.any_eq_true _ _).1 hrun
  have hn : numTasks 0 9 1 = some 9 := by decide +kernel
  have hiff := (inFlight_undisturbed_iff 7 ws ws
    (binlptEntry ws : Cfg (Fin 2) (List U32) Unit Ret) (some 2) (hssEntry ws : Cfg (Fin 2) HssState Unit Ret)).1 hn hinit'
  exact ⟨g, g', ws, ws', hinit, hinit', hiff.2.2 ⟨fun h => by simp at h, nofun⟩⟩

/-- A BINLPT loop of three tasks, all for thread 0, and another one of one task that begins before
the first call: that call hands out one task, and without the other loop it would hand out three. -/
theorem inFlight_binlpt_disturbed :
    ∃ (g g' : Globals ℚ) (ws ws' : GompWorkShare ℚ),
      gompLoopInit ((binlptTable [0, 0, 0]).setParam 8 { WorkloadParams.zero with binlpt := [0] }) (some 1) 0 .zero 0 3 1
        .fsBinlpt 1 7 = some (g, ws) ∧
      gompLoopInit g (some 1) 0 .zero 0 1 1 .fsBinlpt 1 8 = some (g', ws') ∧
      (exec (gompIterBinlptNext g ws) (binlptEntry ws) [((0 : Fin 1), ())]).map (fun c => returned c.log) = some [(0, 3)] ∧
      (exec (gompIterBinlptNext g' ws) (binlptEntry ws) [((0 : Fin 1), ())]).map (fun c => returned c.log) = some [(0, 1)] ∧
      ¬ BinlptUndisturbed g g' 7 ws (binlptEntry ws : Cfg (Fin 1) (List U32) Unit Ret) := by
  have hrun : (gompLoopInit ((binlptTable [0, 0, 0]).setParam 8 { WorkloadParams.zero with binlpt := [0] }) (some 1) 0
      .zero 0 3 1 .fsBinlpt 1 7).any (fun r =>
      (gompLoopInit r.1 (some 1) 0 .zero 0 1 1 .fsBinlpt 1 8).any fun r' => decide
        ((exec (gompIterBinlptNext r.1 r.2) (binlptEntry r.2) [((0 : Fin 1), ())]).map (fun c => returned c.log) =
            some [(0, 3)] ∧
          (exec (gompIterBinlptNext r'.1 r.2) (binlptEntry r.2) [((0 : Fin 1), ())]).map (fun c => returned c.log) =
            some [(0, 1)] ∧ r.1.ntasks = 3 ∧ r'.1.ntasks = 1)) = true := by decide +kernel
  obtain ⟨⟨g, ws⟩, hinit, hrun⟩ := (Option.any_eq_true _ _).1 hrun
  obtain ⟨⟨g', ws'⟩, hinit', hrun⟩ := (Option.any_eq_true _ _).1 hrun
  obtain ⟨h1, h2, hN, hN'⟩ := of_decide_eq_true hrun
  refine ⟨g, g', ws, ws', hinit, hinit', h1, h2, fun h => ?_⟩
  have hsame := h.reads.ntasks
  rw [show g'.ntasks = 1 from hN', show g.ntasks = 3 from hN] at hsame
  exact absurd hsame (by decide)

end Bosched
