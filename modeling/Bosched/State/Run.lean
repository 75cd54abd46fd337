/-
A run of a program as far as its tuning state goes: `bo_load_data`, the calls of libgomp and of the
program into the runtime in any order, `bo_save_data`.
-/
import Bosched.State.File
import Bosched.Runtime.LoopInit

namespace Bosched

open Lib

variable {D : Type}

/-! ## Load and save -/

/-- What a run takes from its environment: the variables the runtime looks up, the ICV behind
`omp_get_max_threads`, and the contents of uninitialised memory. -/
structure Env (D : Type) where
  hist : Bool
  loopstat : Bool
  fallback : Bool
  eval : Bool
  profile : Bool
  nthreadsVar : U32
  junk : Indeterminate D

/-- A function applied to every state of the table. -/
def LoopStates.map (f : LoopState D → LoopState D) (states : LoopStates D) : LoopStates D :=
  ⟨states.entries.map fun e => ⟨e.1, f e.2⟩, by
    have hkeys : (states.entries.map fun e => (⟨e.1, f e.2⟩ : Sigma fun _ => LoopState D)).keys = states.entries.keys := by
      unfold List.keys
      rw [List.map_map]
      rfl
    unfold List.NodupKeys
    rw [hkeys]
    exact states.nodupKeys⟩

/-- `generate_random_warmup`: `warmup_next_param` draws once, so every loop that is warming up gets the
same parameter. `sobol` is the draw at a position, with the position after it. -/
def generateRandomWarmup (sobol : Nat → D × Nat) (qrng : Nat) (states : LoopStates D) : LoopStates D × Nat :=
  if states.entries.any fun e => e.2.warmingUp then
    (LoopStates.map (fun s => if s.warmingUp then { s with param := (sobol qrng).1 } else s) states, (sobol qrng).2)
  else (states, qrng)

variable [CDouble D]

/-- `bo_load_data`: the state of the runtime when `main` starts, with `_qrng`. -/
def boLoadData (env : Env D) (sobol : Nat → D × Nat) (file : Option (StateFile D)) : Option (Globals D × Nat) :=
  let g : Globals D := { Globals.fresh env.nthreadsVar with
    showLoopStat := env.loopstat, profileLoop := env.profile, isEval := env.eval, fallback := env.fallback }
  if env.profile then some (g, 0)
  else
    match file with
    | none => some ({ g with isNewFile := true }, 0)
    | some f => do
      let states ← readLoops env.hist env.junk f
      let params ← loadWorkloadParams f
      let (states, qrng) := generateRandomWarmup sobol f.qrng states
      return ({ g with loopStates := states, params := params }, qrng)

/-- `bo_save_data` gets as far as the lock file. -/
def Globals.saves (g : Globals D) : Prop := g.isEval = false ∧ g.profileLoop = false ∧ g.loopStates.entries ≠ []

instance (g : Globals D) : Decidable g.saves := by
  unfold Globals.saves
  haveI : Decidable (g.loopStates.entries ≠ []) := decidable_of_iff (¬ g.loopStates.entries.isEmpty = true) (by simp)
  infer_instance

/-- `bo_save_data`: the state file after it. `lock` is whether `fopen(lckname, "wx")` succeeds. -/
def boSaveData (g : Globals D) (qrng : Nat) (date : String) (lock : Bool) (file : Option (StateFile D)) :
    Option (StateFile D) :=
  if g.saves ∧ lock then some (writeLoops date qrng g.loopStates) else file

/-! ## What is loaded -/

omit [CDouble D] in
theorem LoopStates.lookup_map (f : LoopState D → LoopState D) (states : LoopStates D) (r : RegionId) :
    (LoopStates.map f states).lookup r = (states.lookup r).map f := by
  ext s
  rw [Option.mem_def.symm, AList.mem_lookup_iff, Option.map_eq_some_iff]
  unfold map
  rw [List.mem_map]
  constructor
  · rintro ⟨⟨r', s'⟩, hmem, heq⟩
    cases heq
    exact ⟨s', AList.mem_lookup_iff.2 hmem, rfl⟩
  · rintro ⟨s', hs, rfl⟩
    exact ⟨⟨r, s'⟩, AList.mem_lookup_iff.1 hs, rfl⟩

omit [CDouble D] in
/-- Only the parameter of a loop that is warming up changes. -/
theorem generateRandomWarmup_lookup (sobol : Nat → D × Nat) (qrng : Nat) (states : LoopStates D) (r : RegionId) :
    (generateRandomWarmup sobol qrng states).1.lookup r = (states.lookup r).map fun s =>
      if s.warmingUp then { s with param := (sobol qrng).1 } else s := by
  unfold generateRandomWarmup
  split
  · exact LoopStates.lookup_map _ states r
  · rename_i hany
    cases hs : states.lookup r with
    | none => rfl
    | some s =>
      have hw : s.warmingUp = false := by
        rw [← Bool.not_eq_true]
        exact fun hw => hany (List.any_eq_true.2 ⟨⟨r, s⟩, AList.mem_lookup_iff.1 hs, hw⟩)
      simp [hw]

/-- The entries of the file, if there is one. -/
def fileEntries (file : Option (StateFile D)) : List (LoopJson D) := (file.map StateFile.entries).getD []

/-- The state `bo_load_data` leaves, without `PROFILE`. -/
structure LoadEffect (env : Env D) (file : Option (StateFile D)) (g : Globals D) : Prop where
  isBoSchedule : g.isBoSchedule = false
  showLoopStat : g.showLoopStat = env.loopstat
  isNewFile : g.isNewFile = file.isNone
  isEval : g.isEval = env.eval
  profileLoop : g.profileLoop = false
  loop : ∀ r, (entryOf (fileEntries file) r = none ∧ g.loopStates.lookup r = none) ∨
    ∃ l, entryOf (fileEntries file) r = some l ∧ r ∈ g.loopStates ∧ LoadedFrom env.hist env.junk r l (g.loop r)

theorem boLoadData_effect {env : Env D} {sobol : Nat → D × Nat} {file : Option (StateFile D)} {g : Globals D}
    {qrng : Nat} (hp : env.profile = false) (h : boLoadData env sobol file = some (g, qrng)) : LoadEffect env file g := by
  unfold boLoadData at h
  simp only [hp, Bool.false_eq_true, if_false] at h
  cases file with
  | none =>
    cases h
    exact ⟨rfl, rfl, rfl, rfl, rfl, fun r => Or.inl ⟨rfl, AList.lookup_empty r⟩⟩
  | some f =>
    obtain ⟨states, hstates, h⟩ := Option.bind_eq_some_iff.1 h
    obtain ⟨params, -, h⟩ := Option.bind_eq_some_iff.1 h
    have hlookup := generateRandomWarmup_lookup sobol f.qrng states
    cases h
    refine ⟨rfl, rfl, rfl, rfl, rfl, fun r => ?_⟩
    rcases readState_lookup hstates r with ⟨he, hs⟩ | ⟨l, s, he, hs, hl⟩
    · exact Or.inl ⟨he, by rw [hlookup, hs]; rfl⟩
    · have hr := hlookup r
      rw [hs, Option.map_some] at hr
      refine Or.inr ⟨l, he, ?_, ?_⟩
      · exact AList.lookup_isSome.1 (Option.isSome_iff_exists.2 ⟨_, hr⟩)
      · unfold Globals.loop
        rw [hr, Option.getD_some]
        split
        · rename_i hw
          obtain ⟨param, hp, -⟩ := hl.params
          exact ⟨hl.warmup, hl.numTasks, hl.obsX, hl.obsY, hl.loopJson, param, hp, fun hf => absurd hf (by simp [hw])⟩
        · exact hl

/-! ## The calls of a run -/

/-- `bo_register_workload`, with the workload the program provides. -/
def boRegisterWorkload (g : Globals D) (tasks : List U32) : Globals D :=
  let regionId := ((g.loopStates.entries.find? fun e => e.2.numTasks > 32).map (·.1)).getD 0
  g.setParam regionId { g.param regionId with hss := tasks }

/-- The calls into the runtime. -/
inductive RuntimeCall (D : Type)
  | loopInit (team : Option U32) (now : Int) (ws : GompWorkShare D) (start fin incr : Word) (sched : GompScheduleType)
      (chunkSize : Word) (regionId : RegionId)
  | loopUllInit (team : Option U32) (now : Int) (ws : GompWorkShare D) (up : Bool) (start fin incr : Word)
      (sched : GompScheduleType) (chunkSize : Word) (regionId : RegionId)
  | scheduleEnd (regionId : RegionId) (now : Int)
  | fallbackStatic (regionId : RegionId) (isBo : Bool)
  | registerWorkload (tasks : List U32)

/-- A call; `none` when the program ends in it. -/
def RuntimeCall.run (g : Globals D) : RuntimeCall D → Option (Globals D)
  | .loopInit team now ws start fin incr sched chunkSize r =>
    (gompLoopInit g team now ws start fin incr sched chunkSize r).map (·.1)
  | .loopUllInit team now ws up start fin incr sched chunkSize r =>
    (gompLoopUllInit g team now ws up start fin incr sched chunkSize r).map (·.1)
  | .scheduleEnd r now => some (boScheduleEnd g r now)
  | .fallbackStatic r isBo => some (boFallbackStatic g r isBo).1
  | .registerWorkload tasks => some (boRegisterWorkload g tasks)

/-- The calls of a program, one after the other. -/
def runCalls : Globals D → List (RuntimeCall D) → Option (Globals D)
  | g, [] => some g
  | g, call :: calls => do runCalls (← call.run g) calls

/-- A process that runs the program. -/
structure Process (D : Type) where
  env : Env D
  sobol : Nat → D × Nat
  calls : List (RuntimeCall D)
  date : String

/-- The begin of a loop. -/
structure LoopBegin where
  regionId : RegionId
  isBo : Bool
  numTasks : Word
  procs : Word
  now : Int
  deriving DecidableEq

/-- The begin a call makes, unless the number of tasks traps. -/
def RuntimeCall.begins : RuntimeCall D → Option LoopBegin
  | .loopInit team now _ start fin incr sched _ r =>
    (numTasks start fin incr).map fun n => ⟨r, isBoSchedule sched, n, teamNthreads team, now⟩
  | .loopUllInit team now _ up start fin incr sched _ r =>
    (uldiv (canonicalEndUll up start fin - start) incr).map fun n => ⟨r, isBoSchedule sched, n, teamNthreads team, now⟩
  | _ => none

/-- The end a call makes. -/
def RuntimeCall.ends : RuntimeCall D → Option (RegionId × Int)
  | .scheduleEnd r now => some (r, now)
  | _ => none

/-! ## What a call does to the tuning state -/

/-- Parameter and begin of a loop. -/
def begun (g : Globals D) (b : LoopBegin) : Globals D :=
  boScheduleBegin (if b.isBo then (boScheduleParameter g b.regionId true).1 else g) b.regionId b.numTasks b.procs b.now

/-- A call begins a loop, ends one, looks at the parameter of a region, or leaves the tuning state alone. -/
inductive CallStep (g g' : Globals D) (call : RuntimeCall D) : Prop
  | begin (b : LoopBegin) (hb : call.begins = some b) (he : call.ends = none) (h : SameTuning (begun g b) g')
  | finish (r : RegionId) (now : Int) (hb : call.begins = none) (he : call.ends = some (r, now))
      (h : g' = boScheduleEnd g r now)
  | look (r : RegionId) (hb : call.begins = none) (he : call.ends = none) (h : g' = g.setLoop r (g.loop r))
  | quiet (hb : call.begins = none) (he : call.ends = none) (h : SameTuning g g')

theorem readParam_globals (g : Globals D) (ws : GompWorkShare D) (sched : GompScheduleType) (r : RegionId) :
    (readParam g ws sched r).1 = if isBoSchedule sched then (boScheduleParameter g r true).1 else g := by
  unfold readParam isParameterized
  split
  · rename_i h
    rw [h]
  · rfl

theorem RuntimeCall.run_cases {g g' : Globals D} {call : RuntimeCall D} (h : call.run g = some g') :
    CallStep g g' call := by
  cases call with
  | loopInit team now ws start fin incr sched chunkSize r =>
    obtain ⟨⟨g₁, ws'⟩, hinit, rfl⟩ := Option.map_eq_some_iff.1 h
    obtain ⟨n, hn, hs⟩ := gompLoopInit_some hinit
    refine .begin ⟨r, isBoSchedule sched, n, teamNthreads team, now⟩ ?_ rfl ?_
    · simp [begins, hn]
    · have ht := gompLoopInitSched_sameTuning hs
      rw [readParam_globals] at ht
      exact ht
  | loopUllInit team now ws up start fin incr sched chunkSize r =>
    obtain ⟨⟨g₁, ws'⟩, hinit, rfl⟩ := Option.map_eq_some_iff.1 h
    obtain ⟨n, hn, hinit⟩ := Option.bind_eq_some_iff.1 hinit
    obtain ⟨_, -, hinit⟩ := Option.bind_eq_some_iff.1 hinit
    cases hinit
    refine .begin ⟨r, isBoSchedule sched, n, teamNthreads team, now⟩ ?_ rfl ?_
    · have hn' : uldiv (canonicalEndUll up start fin - start) incr = some n := hn
      simp [begins, hn']
    · unfold begun
      rw [← readParam_globals g (canonicalShareUll ws up start fin incr sched chunkSize)]
      exact SameTuning.refl _
  | scheduleEnd r now => exact .finish r now rfl rfl (Option.some.inj h).symm
  | fallbackStatic r isBo =>
    cases h
    unfold boFallbackStatic
    split
    · exact .look r rfl rfl rfl
    · exact .quiet rfl rfl (SameTuning.refl g)
  | registerWorkload tasks =>
    cases h
    exact .quiet rfl rfl (sameTuning_setParam g _ _)

/-- The state of a region after its loop began. -/
def LoopState.begin (g : Globals D) (b : LoopBegin) (l : LoopState D) : LoopState D :=
  let l := if b.isBo && g.isNewFile then { l with warmingUp := true } else l
  let l := if b.isBo && g.isEval then { l with param := l.evalParam } else l
  if b.isBo || g.isBoSchedule || g.showLoopStat then { l with start := b.now, numTasks := b.numTasks } else l

/-- The state of a region after its loop ended: `bo_schedule_end` records under `_is_bo_schedule`. -/
def LoopState.finish (g : Globals D) (now : Int) (l : LoopState D) : LoopState D :=
  if g.isBoSchedule then { l with obsX := l.obsX ++ [l.param], obsY := l.obsY ++ [loopStop l now] } else l

/-- The state of region `r` after a call. -/
def RuntimeCall.effect (g : Globals D) (call : RuntimeCall D) (r : RegionId) : LoopState D :=
  match call.begins, call.ends with
  | some b, _ => if r = b.regionId then (g.loop r).begin g b else g.loop r
  | none, some (r', now) => if r = r' then (g.loop r).finish g now else g.loop r
  | none, none => g.loop r

/-- A call starts a loop under a BO schedule. -/
def RuntimeCall.startsBo (call : RuntimeCall D) : Bool := call.begins.any (·.isBo)

/-- What a call does to the tuning state. -/
structure CallEffect (g g' : Globals D) (call : RuntimeCall D) : Prop where
  isBoSchedule : g'.isBoSchedule = (g.isBoSchedule || call.startsBo)
  showLoopStat : g'.showLoopStat = g.showLoopStat
  isNewFile : g'.isNewFile = g.isNewFile
  isEval : g'.isEval = g.isEval
  profileLoop : g'.profileLoop = g.profileLoop
  loop : ∀ r, g'.loop r = call.effect g r
  keys : ∀ r, r ∈ g.loopStates → r ∈ g'.loopStates

omit [CDouble D] in
theorem mem_setLoop {g : Globals D} {r r' : RegionId} (l : LoopState D) (h : r' ∈ g.loopStates) :
    r' ∈ (g.setLoop r l).loopStates :=
  (AList.mem_insert _).2 (Or.inr h)

theorem loop_setLoop_eq (g : Globals D) (r r' : RegionId) (l : LoopState D) :
    (g.setLoop r l).loop r' = if r' = r then l else g.loop r' := by
  split
  · rename_i h
    rw [h, Globals.loop_setLoop]
  · rename_i h
    rw [Globals.loop_setLoop_ne g h]

theorem boScheduleParameter_loop (g : Globals D) (r r' : RegionId) :
    (boScheduleParameter g r true).1.loop r' =
      if r' = r then
        let l := if g.isNewFile then { g.loop r with warmingUp := true } else g.loop r
        if g.isEval then { l with param := l.evalParam } else l
      else g.loop r' := by
  unfold boScheduleParameter
  simp only [Bool.true_and]
  exact loop_setLoop_eq g r r' _

theorem boScheduleBegin_loop (g : Globals D) (r r' : RegionId) (n p : Word) (now : Int) :
    (boScheduleBegin g r n p now).loop r' =
      if r' = r then
        if g.isBoSchedule || g.showLoopStat then { g.loop r with start := now, numTasks := n } else g.loop r
      else g.loop r' := by
  unfold boScheduleBegin profilingInit
  have h := loop_setLoop_eq g r r'
  simp only [Globals.loop] at h ⊢
  split <;> split <;> exact h _

theorem begun_loop (g : Globals D) (b : LoopBegin) (r : RegionId) :
    (begun g b).loop r = if r = b.regionId then (g.loop r).begin g b else g.loop r := by
  unfold begun LoopState.begin
  rw [boScheduleBegin_loop]
  cases hb : b.isBo with
  | false =>
    simp only [Bool.false_and, Bool.false_or, Bool.false_eq_true, if_false]
    split
    · rename_i hr
      rw [hr]
    · rfl
  | true =>
    have hflag : (boScheduleParameter g b.regionId true).1.isBoSchedule = true := rfl
    simp only [Bool.true_and, Bool.true_or, if_true, hflag, boScheduleParameter_loop]
    split
    · rename_i hr
      rw [hr]
    · rfl

theorem boScheduleBegin_flags (g : Globals D) (r : RegionId) (n p : Word) (now : Int) :
    (boScheduleBegin g r n p now).isBoSchedule = g.isBoSchedule ∧
      (boScheduleBegin g r n p now).showLoopStat = g.showLoopStat ∧
      (boScheduleBegin g r n p now).isNewFile = g.isNewFile ∧ (boScheduleBegin g r n p now).isEval = g.isEval ∧
      (boScheduleBegin g r n p now).profileLoop = g.profileLoop := by
  unfold boScheduleBegin profilingInit
  refine ⟨?_, ?_, ?_, ?_, ?_⟩ <;> simp only <;> split <;> split <;> rfl

theorem begun_flags (g : Globals D) (b : LoopBegin) :
    (begun g b).isBoSchedule = (g.isBoSchedule || b.isBo) ∧ (begun g b).showLoopStat = g.showLoopStat ∧
      (begun g b).isNewFile = g.isNewFile ∧ (begun g b).isEval = g.isEval ∧
      (begun g b).profileLoop = g.profileLoop := by
  unfold begun
  obtain ⟨h1, h2, h3, h4, h5⟩ := boScheduleBegin_flags (if b.isBo then (boScheduleParameter g b.regionId true).1 else g)
    b.regionId b.numTasks b.procs b.now
  rw [h1, h2, h3, h4, h5]
  cases b.isBo
  · exact ⟨(Bool.or_false _).symm, rfl, rfl, rfl, rfl⟩
  · exact ⟨(Bool.or_true _).symm, rfl, rfl, rfl, rfl⟩

theorem mem_begun {g : Globals D} {r : RegionId} (b : LoopBegin) (h : r ∈ g.loopStates) : r ∈ (begun g b).loopStates := by
  have hbegin : ∀ {g : Globals D}, r ∈ g.loopStates → ∀ n p now,
      r ∈ (boScheduleBegin g b.regionId n p now).loopStates := by
    intro g h n p now
    unfold boScheduleBegin profilingInit
    simp only
    split <;> split <;> exact mem_setLoop _ h
  unfold begun
  split
  · have hparam : r ∈ (boScheduleParameter g b.regionId true).1.loopStates := mem_setLoop _ h
    exact hbegin hparam _ _ _
  · exact hbegin h _ _ _

omit [CDouble D] in
theorem SameTuning.loop [CDouble D] {g g' : Globals D} (h : SameTuning g g') (r : RegionId) : g'.loop r = g.loop r := by
  unfold Globals.loop
  rw [h.loopStates]

theorem CallStep.effect {g g' : Globals D} {call : RuntimeCall D} (h : CallStep g g' call) : CallEffect g g' call := by
  cases h with
  | begin b hb he ht =>
    obtain ⟨h1, h2, h3, h4, h5⟩ := begun_flags g b
    refine ⟨?_, ht.showLoopStat.trans h2, ht.isNewFile.trans h3, ht.isEval.trans h4, ht.profileLoop.trans h5, fun r => ?_, fun r hr => ?_⟩
    · rw [ht.isBoSchedule, h1]
      simp [RuntimeCall.startsBo, hb]
    · rw [ht.loop, begun_loop]
      simp only [RuntimeCall.effect, hb]
    · rw [ht.loopStates]
      exact mem_begun b hr
  | finish r now hb he h =>
    have hs : call.startsBo = false := by simp [RuntimeCall.startsBo, hb]
    subst h
    unfold boScheduleEnd
    refine ⟨?_, ?_, ?_, ?_, ?_, fun r' => ?_, fun r' hr => ?_⟩
    · rw [hs, Bool.or_false]
      split <;> [split; skip] <;> rfl
    · split <;> [split; skip] <;> rfl
    · split <;> [split; skip] <;> rfl
    · split <;> [split; skip] <;> rfl
    · split <;> [split; skip] <;> rfl
    · simp only [RuntimeCall.effect, hb, he, LoopState.finish]
      split
      · split
        · rename_i hbo
          rw [loop_setLoop_eq]
          split
          · rename_i hr
            rw [hr]
          · rfl
        · rw [loop_setLoop_eq]
          split
          · rename_i hr
            rw [hr]
          · rfl
      · rename_i hrec
        rw [Bool.not_eq_true, Bool.or_eq_false_iff] at hrec
        simp [hrec.1]
    · split <;> [split; skip]
      · exact mem_setLoop _ hr
      · exact mem_setLoop _ hr
      · exact hr
  | look r hb he h =>
    subst h
    refine ⟨?_, rfl, rfl, rfl, rfl, fun r' => ?_, fun r' hr => mem_setLoop _ hr⟩
    · simp [RuntimeCall.startsBo, hb, Globals.setLoop]
    · rw [loop_setLoop_eq]
      simp only [RuntimeCall.effect, hb, he]
      split
      · rename_i hr
        rw [hr]
      · rfl
  | quiet hb he h =>
    refine ⟨?_, h.showLoopStat, h.isNewFile, h.isEval, h.profileLoop, fun r => ?_, fun r hr => ?_⟩
    · rw [h.isBoSchedule]
      simp [RuntimeCall.startsBo, hb]
    · rw [h.loop]
      simp only [RuntimeCall.effect, hb, he]
    · rw [h.loopStates]
      exact hr

/-! ## What a run does to the tuning state -/

/-- A call starts a loop of region `r` under a BO schedule. -/
def RuntimeCall.startsBoIn (r : RegionId) (call : RuntimeCall D) : Bool :=
  call.begins.any fun b => b.isBo && b.regionId = r

/-- The number of tasks a call reports for region `r`. -/
def RuntimeCall.reports (r : RegionId) (call : RuntimeCall D) : Option Word :=
  (call.begins.filter fun b => b.regionId = r).map (·.numTasks)

/-- The number of tasks of the last execution of region `r`. -/
def lastReport (r : RegionId) : List (RuntimeCall D) → Option Word
  | [] => none
  | call :: calls => (lastReport r calls).or (call.reports r)

/-- The number of tasks of the last execution of region `r` that `bo_schedule_begin` records: those from
the first BO loop on, or all with `LOOPSTAT` (`on`). -/
def lastRecorded (r : RegionId) : Bool → List (RuntimeCall D) → Option Word
  | _, [] => none
  | on, call :: calls =>
    (lastRecorded r (on || call.startsBo) calls).or (if on || call.startsBo then call.reports r else none)

/-- What a call records for region `r`: parameter and time. -/
def RuntimeCall.observation (g : Globals D) (r : RegionId) (call : RuntimeCall D) : List (D × D) :=
  match call.ends with
  | some (r', now) => if g.isBoSchedule ∧ r = r' then [((g.loop r).param, loopStop (g.loop r) now)] else []
  | none => []

/-- What a run records for region `r`. -/
def observations (r : RegionId) : Globals D → List (RuntimeCall D) → List (D × D)
  | _, [] => []
  | g, call :: calls => call.observation g r ++ ((call.run g).map fun g' => observations r g' calls).getD []

/-- What a run does to the tuning state. -/
structure RunEffect (g g' : Globals D) (calls : List (RuntimeCall D)) : Prop where
  isBoSchedule : g'.isBoSchedule = (g.isBoSchedule || calls.any (·.startsBo))
  showLoopStat : g'.showLoopStat = g.showLoopStat
  isNewFile : g'.isNewFile = g.isNewFile
  isEval : g'.isEval = g.isEval
  profileLoop : g'.profileLoop = g.profileLoop
  loopJson : ∀ r, (g'.loop r).loopJson = (g.loop r).loopJson
  numTasks : ∀ r, (g'.loop r).numTasks =
    (lastRecorded r (g.isBoSchedule || g.showLoopStat) calls).getD (g.loop r).numTasks
  warmingUp : ∀ r, (g'.loop r).warmingUp = ((g.loop r).warmingUp || g.isNewFile && calls.any (·.startsBoIn r))
  obsX : ∀ r, (g'.loop r).obsX = (g.loop r).obsX ++ (observations r g calls).map (·.1)
  obsY : ∀ r, (g'.loop r).obsY = (g.loop r).obsY ++ (observations r g calls).map (·.2)
  keys : ∀ r, r ∈ g.loopStates → r ∈ g'.loopStates

section

variable {g : Globals D} {call : RuntimeCall D}

section

omit [CDouble D]

theorem RuntimeCall.begins_of_ends {p : RegionId × Int} (h : call.ends = some p) : call.begins = none := by
  cases call <;> first | rfl | cases h

theorem LoopState.begin_loopJson (b : LoopBegin) (l : LoopState D) : (l.begin g b).loopJson = l.loopJson := by
  unfold LoopState.begin
  simp only
  split <;> split <;> split <;> rfl

theorem LoopState.begin_obs (b : LoopBegin) (l : LoopState D) :
    (l.begin g b).obsX = l.obsX ∧ (l.begin g b).obsY = l.obsY := by
  unfold LoopState.begin
  simp only
  constructor <;> split <;> split <;> split <;> rfl

theorem LoopState.begin_numTasks (b : LoopBegin) (l : LoopState D) :
    (l.begin g b).numTasks = if b.isBo || g.isBoSchedule || g.showLoopStat then b.numTasks else l.numTasks := by
  unfold LoopState.begin
  simp only
  split <;> split <;> split <;> rfl

theorem LoopState.begin_warmingUp (b : LoopBegin) (l : LoopState D) :
    (l.begin g b).warmingUp = (l.warmingUp || g.isNewFile && b.isBo) := by
  unfold LoopState.begin
  cases b.isBo <;> cases g.isNewFile <;> cases g.isEval <;> simp <;> split <;> rfl

end

theorem RuntimeCall.effect_loopJson (r : RegionId) : (call.effect g r).loopJson = (g.loop r).loopJson := by
  unfold effect LoopState.finish
  split
  · split
    · exact LoopState.begin_loopJson _ _
    · rfl
  · split <;> [split; skip] <;> rfl
  · rfl

theorem RuntimeCall.effect_numTasks (r : RegionId) : (call.effect g r).numTasks =
    (if g.isBoSchedule || g.showLoopStat || call.startsBo then call.reports r else none).getD (g.loop r).numTasks := by
  unfold effect LoopState.finish startsBo reports
  split
  · rename_i b hb
    by_cases hr : r = b.regionId
    · subst hr
      simp only [hb, if_true, LoopState.begin_numTasks, Option.filter_some, decide_true, Option.map_some, Option.any_some]
      rw [Bool.or_comm, Bool.or_comm b.isBo, ← Bool.or_assoc, Bool.or_comm g.showLoopStat]
      split <;> rfl
    · have hr' : ¬ b.regionId = r := fun h => hr h.symm
      simp [hb, hr, hr', Option.filter_some]
  · rename_i hb _
    simp only [hb]
    split <;> [split; skip] <;> simp
  · rename_i hb _
    simp [hb]

theorem RuntimeCall.effect_warmingUp (r : RegionId) :
    (call.effect g r).warmingUp = ((g.loop r).warmingUp || g.isNewFile && call.startsBoIn r) := by
  unfold effect LoopState.finish startsBoIn
  split
  · rename_i b hb
    by_cases hr : r = b.regionId
    · subst hr
      simp [hb, LoopState.begin_warmingUp]
    · have hr' : ¬ b.regionId = r := fun h => hr h.symm
      simp [hb, hr, hr']
  · rename_i hb _
    simp only [hb]
    split <;> [split; skip] <;> simp
  · rename_i hb _
    simp [hb]

theorem RuntimeCall.effect_obs (r : RegionId) :
    (call.effect g r).obsX = (g.loop r).obsX ++ (call.observation g r).map (·.1) ∧
      (call.effect g r).obsY = (g.loop r).obsY ++ (call.observation g r).map (·.2) := by
  unfold effect LoopState.finish observation
  cases he : call.ends with
  | none =>
    simp only [List.map_nil, List.append_nil]
    split
    · split
      · exact LoopState.begin_obs _ _
      · exact ⟨rfl, rfl⟩
    · rename_i h
      cases h
    · exact ⟨rfl, rfl⟩
  | some p =>
    simp only [begins_of_ends he]
    by_cases hr : r = p.1
    · by_cases hbo : g.isBoSchedule = true <;> simp [hr, hbo]
    · simp [hr]

end

theorem runCalls_effect {g g' : Globals D} {calls : List (RuntimeCall D)} (h : runCalls g calls = some g') :
    RunEffect g g' calls := by
  induction calls generalizing g with
  | nil =>
    cases h
    exact ⟨by simp, rfl, rfl, rfl, rfl, fun _ => rfl, fun _ => rfl, by simp, by simp [observations], by simp [observations],
      fun _ h => h⟩
  | cons call calls ih =>
    obtain ⟨g₁, hcall, hrest⟩ := Option.bind_eq_some_iff.1 h
    have hs := (RuntimeCall.run_cases hcall).effect
    have hr := ih hrest
    have hobs : ∀ r, observations r g (call :: calls) = call.observation g r ++ observations r g₁ calls := by
      intro r
      simp [observations, hcall]
    refine ⟨?_, hr.showLoopStat.trans hs.showLoopStat, hr.isNewFile.trans hs.isNewFile, hr.isEval.trans hs.isEval,
      hr.profileLoop.trans hs.profileLoop, fun r => ?_, fun r => ?_, fun r => ?_, fun r => ?_, fun r => ?_, fun r hmem => hr.keys r (hs.keys r hmem)⟩
    · rw [hr.isBoSchedule, hs.isBoSchedule, List.any_cons, Bool.or_assoc]
    · rw [hr.loopJson, hs.loop, RuntimeCall.effect_loopJson]
    · rw [hr.numTasks, hs.isBoSchedule, hs.showLoopStat, hs.loop, RuntimeCall.effect_numTasks]
      have hon : (g.isBoSchedule || call.startsBo || g.showLoopStat) =
          (g.isBoSchedule || g.showLoopStat || call.startsBo) := by
        rw [Bool.or_assoc, Bool.or_comm call.startsBo, ← Bool.or_assoc]
      rw [hon, lastRecorded]
      cases lastRecorded r (g.isBoSchedule || g.showLoopStat || call.startsBo) calls <;> rfl
    · rw [hr.warmingUp, hs.isNewFile, hs.loop, RuntimeCall.effect_warmingUp, List.any_cons, Bool.and_or_distrib_left,
        Bool.or_assoc]
    · rw [hr.obsX, hs.loop, (RuntimeCall.effect_obs r).1, hobs, List.map_append, List.append_assoc]
    · rw [hr.obsY, hs.loop, (RuntimeCall.effect_obs r).2, hobs, List.map_append, List.append_assoc]

/-- A process that saves is not profiling, so it loaded the file. -/
theorem LoadEffect.of_saves {env : Env D} {sobol : Nat → D × Nat} {file : Option (StateFile D)} {g g' : Globals D}
    {qrng : Nat} {calls : List (RuntimeCall D)} (hload : boLoadData env sobol file = some (g, qrng))
    (hrun : RunEffect g g' calls) (hsaves : g'.saves) : LoadEffect env file g := by
  refine boLoadData_effect ?_ hload
  cases hp : env.profile with
  | false => rfl
  | true =>
    have hprof : g.profileLoop = true := by
      unfold boLoadData at hload
      simp only [hp, if_true, Option.some.injEq, Prod.mk.injEq] at hload
      rw [← hload.1]
    rw [← hrun.profileLoop, hsaves.2.1] at hprof
    cases hprof

omit [CDouble D] in
theorem lastRecorded_none {r : RegionId} {calls : List (RuntimeCall D)} (h : ∀ call ∈ calls, call.reports r = none)
    (on : Bool) : lastRecorded r on calls = none := by
  induction calls generalizing on with
  | nil => rfl
  | cons call calls ih =>
    unfold lastRecorded
    rw [ih fun c hc => h c (List.mem_cons_of_mem _ hc), h call List.mem_cons_self]
    simp

omit [CDouble D] in
/-- Once an execution is recorded, the later ones are. -/
theorem lastRecorded_or (r : RegionId) (calls : List (RuntimeCall D)) :
    lastRecorded r true calls = lastReport r calls ∧
      (lastRecorded r false calls = none ∨ lastRecorded r false calls = lastReport r calls) := by
  induction calls with
  | nil => exact ⟨rfl, Or.inl rfl⟩
  | cons call calls ih =>
    have htrue : lastRecorded r true (call :: calls) = lastReport r (call :: calls) := by
      simp [lastRecorded, lastReport, ih.1]
    refine ⟨htrue, ?_⟩
    cases hs : call.startsBo with
    | true =>
      right
      rw [← htrue]
      simp [lastRecorded, hs]
    | false =>
      simp only [lastRecorded, lastReport, hs, Bool.or_self, Bool.false_eq_true, if_false, Option.or_none]
      rcases ih.2 with h | h
      · exact Or.inl h
      · cases hr : lastReport r calls with
        | none => exact Or.inl (h.trans hr)
        | some n => exact Or.inr (by rw [h, hr]; rfl)

omit [CDouble D] in
theorem lastReport_of_recorded {r : RegionId} {on : Bool} {calls : List (RuntimeCall D)} {n : Word}
    (h : lastRecorded r on calls = some n) : lastReport r calls = some n := by
  have hor := lastRecorded_or r calls
  cases on with
  | true => exact hor.1 ▸ h
  | false =>
    rcases hor.2 with h' | h'
    · rw [h] at h'
      cases h'
    · exact h' ▸ h

end Bosched
