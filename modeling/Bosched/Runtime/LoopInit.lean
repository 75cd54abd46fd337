/-
`gomp_loop_init` and `gomp_loop_ull_init`: what a work share holds when its threads start to take
chunks from it. `none` is a run that does not get that far: a distance `end - start` that overflows
a `long`, a trapping division, a `value()` that throws, or an access outside a workload table.
-/
import Bosched.Runtime.Registry

namespace Bosched

open Lib

variable {D : Type} [CDouble D]

/-! ## `schedules.h` -/

/-- `clip`. -/
def clip (x low hi : Word) : Word := if x.slt low then low else if hi.slt x then hi else x

/-- `clip_ull`. -/
def clipUll (x low hi : Word) : Word := if x < low then low else if x > hi then hi else x

/-- The `pow` both `css_chunk_size` and `css_chunk_size_ull` convert. -/
def cssRaw (param n : D) (p : Word) : D :=
  CDouble.pow ((1.414213562 * n * param) / (CDouble.ofULong p * CDouble.sqrt (CDouble.log (CDouble.ofULong p))))
    (2.0 / 3.0)

/-- `css_chunk_size`. -/
def cssChunkSize (param : D) (n p : Word) : Word := clip (CDouble.toLong (cssRaw param (CDouble.ofLong n) p)) 1 n

/-- `css_chunk_size_ull`. -/
def cssChunkSizeUll (param : D) (n p : Word) : Word :=
  clipUll (CDouble.toULong (cssRaw param (CDouble.ofULong n) p)) 1 n

/-- `css_transform_range`. -/
def cssTransformRange (param : D) : D := CDouble.pow 2.0 (19.0 * param - 13.0)

/-- `fss_transform_range`. -/
def fssTransformRange (param : D) : D := CDouble.pow 2.0 (19.0 * param - 10.0)

/-- `fac_transform_range`. -/
def facTransformRange (param : D) : D := CDouble.pow 2.0 (5.0 * param)

/-- `tape_transform_range`. -/
def tapeTransformRange (param : D) : D := CDouble.pow 2.0 (13.0 * param - 7.0)

/-! ## `gomp_loop_init` -/

/-- `team ? team->nthreads : 1`. -/
def teamNthreads (team : Option U32) : Word := (team.getD 1).setWidth 64

/-- The `end` of a canonical loop: a loop without iterations ends at its start. -/
def canonicalEnd (start fin incr : Word) : Word :=
  if ((0#64).slt incr && fin.slt start) || (incr.slt 0#64 && start.slt fin) then start else fin

/-- `1UL << (sizeof (long) * __CHAR_BIT__ / 2 - 1)`. -/
def halfRange : Word := 0x80000000

/-- `ws->mode` of a dynamic schedule, from the chunk size already multiplied by `incr`. -/
def dynamicMode (fin incr chunkSize nthreads : Word) : Nat :=
  if (0#64).slt incr then
    if (nthreads ||| chunkSize) ≥ halfRange then 0
    else (fin.slt (BitVec.intMax 64 - (nthreads + 1) * chunkSize)).toNat
  else if (nthreads ||| -chunkSize) ≥ halfRange then 0
  else (((nthreads + 1) * -chunkSize - BitVec.intMax 64).slt fin).toNat

/-- The first batch of `FS_FSS` and `BO_FSS`: `F`, from the number of iterations as a double. -/
def fssFirst (numTasks : D) (nthreads : Word) (param : D) : Word :=
  let temp := CDouble.ofLong nthreads / 2.0 * param
  let b2 := (1.0 / numTasks) * temp * temp
  let x := 1.0 + b2 + CDouble.sqrt (b2 * (b2 + 2.0))
  CDouble.toULong ((numTasks / x) / CDouble.ofLong nthreads)

/-- `num_tasks` of `gomp_loop_init`. -/
def numTasks (start fin incr : Word) : Option Word := do ldiv (← lsub (canonicalEnd start fin incr) start) incr

/-- The `switch` of `gomp_loop_init`. -/
def gompLoopInitSched (g : Globals D) (ws : GompWorkShare D) (numTasks nthreads start incr : Word)
    (sched : GompScheduleType) (regionId : RegionId) : Option (Globals D × GompWorkShare D) :=
  match sched with
  | .boFac | .fsFac2 =>
    let param := if sched = .fsFac2 then 2.0 else facTransformRange ws.param
    let chunkSize := CDouble.toLong (CDouble.ofLong numTasks / param / CDouble.ofLong nthreads)
    some (g, { ws with param := param, chunkSize := chunkSize })
  | .boTape => some (g, { ws with param := tapeTransformRange ws.param })
  | .fsTape => do
    let (g, param) ← boTapeParameter g regionId
    return (g, { ws with param := param })
  | .fsTape3 => some (g, { ws with param := 3.0 })
  | .fsTss | .boTss | .fsTrap1 => do
    let (g, param) ←
      if sched = .fsTrap1 then
        let temp : D := CDouble.ofLong numTasks / CDouble.ofLong (2 * nthreads + 1)
        some (g, CDouble.ofLong (2 * numTasks) / (temp * temp))
      else if sched = .fsTss then boTssParameter g regionId
      else some (g, ws.param)
    -- the smoothing term
    let param := param + CDouble.ofLong nthreads / CDouble.ofLong numTasks
    let chunkSize := CDouble.toLong (CDouble.sqrt (2.0 * CDouble.ofLong numTasks / param) - 1.0)
    return (g, { ws with param := param, chunkSize := chunkSize, count := 0 })
  | .fsFss | .boFss =>
    let (g, param) := if sched = .boFss then (g, fssTransformRange ws.param) else boFssParameter g regionId
    let F := fssFirst (CDouble.ofLong numTasks) nthreads param
    let PF := F * nthreads
    some (g, { ws with param := param, chunkSize := F, barrier := ws.barrier + PF * ws.incr })
  | .fsBinlpt => do
    let g := { g with ntasks := numTasks.setWidth 32 }
    let (g, taskmap) ← boBinlptLoadLoop g regionId
    return (g, { ws with
      taskmap := taskmap, loopStart := start, nthreads := nthreads.setWidth 32,
      threadStart := List.replicate nthreads.toNat 0 })
  | .fsHss => do
    let (g, tasks) := boHssLoadLoop { g with ntasks := numTasks.setWidth 32 } regionId
    let g := { g with tasks := tasks }
    let wremaining ← (List.range g.ntasks.toNat).foldlM (fun w i => do return w + (← tasks[i]?)) 0
    return (g, { ws with loopStart := start, chunkSize := 1, wremaining := wremaining })
  | .gfsDynamic | .fsCss | .boCss =>
    let (g, param) :=
      if sched = .boCss then (g, cssTransformRange ws.param)
      else if sched = .fsCss then boCssParameter g regionId
      else (g, ws.param)
    -- `GFS_DYNAMIC` comes here with the `ws->param` an earlier loop left behind
    let chunkSize := cssChunkSize param numTasks nthreads * incr
    some (g, { ws with param := param, chunkSize := chunkSize, mode := dynamicMode ws.fin incr chunkSize nthreads })
  | _ => some (g, ws)

/-- The work share `gomp_loop_init` starts from. -/
def canonicalShare (ws : GompWorkShare D) (start fin incr : Word) (sched : GompScheduleType) (chunkSize : Word) :
    GompWorkShare D :=
  { ws with
    sched := sched, chunkSize := chunkSize, fin := canonicalEnd start fin incr, incr := incr
    next := start, barrier := start }

/-- The stored parameter of a parameterized schedule. -/
def readParam (g : Globals D) (ws : GompWorkShare D) (sched : GompScheduleType) (regionId : RegionId) :
    Globals D × GompWorkShare D :=
  if isParameterized sched then
    let (g, param) := boScheduleParameter g regionId (isBoSchedule sched)
    (g, { ws with param := param })
  else (g, ws)

/-- `gomp_loop_init`, called by a thread of `team` at clock reading `now`. -/
def gompLoopInit (g : Globals D) (team : Option U32) (now : Int) (ws : GompWorkShare D)
    (start fin incr : Word) (sched : GompScheduleType) (chunkSize : Word) (regionId : RegionId) :
    Option (Globals D × GompWorkShare D) := do
  let nthreads := teamNthreads team
  let ws := canonicalShare ws start fin incr sched chunkSize
  let numTasks ← numTasks start fin incr
  let (g, ws) := readParam g ws sched regionId
  let g := boScheduleBegin g regionId numTasks nthreads now
  gompLoopInitSched g ws numTasks nthreads start incr sched regionId

/-- No schedule changes where the loop runs, and the barrier leaves the start only by a batch. -/
structure SameLoop (ws ws' : GompWorkShare D) : Prop where
  sched : ws'.sched = ws.sched
  next : ws'.next = ws.next
  fin : ws'.fin = ws.fin
  incr : ws'.incr = ws.incr
  barrier : ws'.chunkSize = 0 → ws'.barrier = ws.barrier

omit [CDouble D] in
/-- The barrier condition carries over when the first change leaves the barrier alone. -/
theorem SameLoop.trans {a b c : GompWorkShare D} (h : SameLoop a b) (hb : b.barrier = a.barrier) (h' : SameLoop b c) :
    SameLoop a c :=
  ⟨h'.sched.trans h.sched, h'.next.trans h.next, h'.fin.trans h.fin, h'.incr.trans h.incr,
    fun h0 => (h'.barrier h0).trans hb⟩

theorem gompLoopInitSched_sameLoop {g g' : Globals D} {ws ws' : GompWorkShare D} {n P start incr : Word}
    {sched : GompScheduleType} {r : RegionId}
    (h : gompLoopInitSched g ws n P start incr sched r = some (g', ws')) : SameLoop ws ws' := by
  cases sched
  case fsFss | boFss =>
    cases h
    refine ⟨rfl, rfl, rfl, rfl, fun h0 => ?_⟩
    dsimp only at h0 ⊢
    rw [h0]
    simp
  case fsTape | fsTss | fsBinlpt =>
    obtain ⟨⟨_, _⟩, _, h⟩ := Option.bind_eq_some_iff.1 h
    cases h
    exact ⟨rfl, rfl, rfl, rfl, fun _ => rfl⟩
  case fsHss =>
    obtain ⟨_, _, h⟩ := Option.bind_eq_some_iff.1 h
    cases h
    exact ⟨rfl, rfl, rfl, rfl, fun _ => rfl⟩
  all_goals
    cases h
    exact ⟨rfl, rfl, rfl, rfl, fun _ => rfl⟩

/-- Two states that differ in the workload tables and the `loop.c` globals only. -/
structure SameTuning (g g' : Globals D) : Prop where
  loopStates : g'.loopStates = g.loopStates
  isBoSchedule : g'.isBoSchedule = g.isBoSchedule
  showLoopStat : g'.showLoopStat = g.showLoopStat
  isNewFile : g'.isNewFile = g.isNewFile
  isEval : g'.isEval = g.isEval
  profileLoop : g'.profileLoop = g.profileLoop

omit [CDouble D] in
theorem SameTuning.refl (g : Globals D) : SameTuning g g := ⟨rfl, rfl, rfl, rfl, rfl, rfl⟩

omit [CDouble D] in
theorem sameTuning_setParam (g : Globals D) (r : RegionId) (p : WorkloadParams D) : SameTuning g (g.setParam r p) :=
  ⟨rfl, rfl, rfl, rfl, rfl, rfl⟩

theorem boBinlptLoadLoop_sameTuning {g g' : Globals D} {r : RegionId} {map : List U32}
    (h : boBinlptLoadLoop g r = some (g', map)) : SameTuning g g' := by
  unfold boBinlptLoadLoop at h
  simp only at h
  split at h
  · split at h
    · cases h
    · obtain ⟨_, _, h⟩ := Option.bind_eq_some_iff.1 h
      cases h
      exact sameTuning_setParam _ _ _
  · cases h
    exact sameTuning_setParam _ _ _

theorem gompLoopInitSched_sameTuning {g g' : Globals D} {ws ws' : GompWorkShare D} {n P start incr : Word}
    {sched : GompScheduleType} {r : RegionId}
    (h : gompLoopInitSched g ws n P start incr sched r = some (g', ws')) : SameTuning g g' := by
  cases sched
  case fsTape =>
    obtain ⟨⟨_, _⟩, hp, h⟩ := Option.bind_eq_some_iff.1 h
    obtain ⟨_, _, hp⟩ := Option.bind_eq_some_iff.1 hp
    cases hp
    cases h
    exact sameTuning_setParam _ _ _
  case fsTss =>
    obtain ⟨⟨_, _⟩, hp, h⟩ := Option.bind_eq_some_iff.1 h
    obtain ⟨_, _, hp⟩ := Option.bind_eq_some_iff.1 hp
    cases hp
    cases h
    exact sameTuning_setParam _ _ _
  case fsBinlpt =>
    obtain ⟨⟨_, _⟩, hp, h⟩ := Option.bind_eq_some_iff.1 h
    cases h
    have hs := boBinlptLoadLoop_sameTuning hp
    exact ⟨hs.loopStates, hs.isBoSchedule, hs.showLoopStat, hs.isNewFile, hs.isEval, hs.profileLoop⟩
  case fsHss =>
    obtain ⟨_, _, h⟩ := Option.bind_eq_some_iff.1 h
    cases h
    exact ⟨rfl, rfl, rfl, rfl, rfl, rfl⟩
  all_goals
    cases h
    first
      | exact SameTuning.refl _
      | exact sameTuning_setParam _ _ _

theorem readParam_sameLoop (g : Globals D) (ws : GompWorkShare D) (sched : GompScheduleType) (r : RegionId) :
    SameLoop ws (readParam g ws sched r).2 := by
  unfold readParam
  split <;> exact ⟨rfl, rfl, rfl, rfl, fun _ => rfl⟩

theorem gompLoopInit_eq {g : Globals D} {team : Option U32} {now : Int} {ws : GompWorkShare D}
    {start fin incr n chunkSize : Word} {sched : GompScheduleType} {r : RegionId} (hn : numTasks start fin incr = some n) :
    gompLoopInit g team now ws start fin incr sched chunkSize r =
      gompLoopInitSched
        (boScheduleBegin (readParam g (canonicalShare ws start fin incr sched chunkSize) sched r).1 r n
          (teamNthreads team) now)
        (readParam g (canonicalShare ws start fin incr sched chunkSize) sched r).2 n (teamNthreads team)
        start incr sched r := by
  unfold gompLoopInit
  rw [hn]
  rfl

/-- What `gomp_loop_init` does, up to the schedule's own part. -/
theorem gompLoopInit_some {g g' : Globals D} {team : Option U32} {now : Int} {ws ws' : GompWorkShare D}
    {start fin incr chunkSize : Word} {sched : GompScheduleType} {r : RegionId}
    (h : gompLoopInit g team now ws start fin incr sched chunkSize r = some (g', ws')) :
    ∃ n, numTasks start fin incr = some n ∧
      gompLoopInitSched
        (boScheduleBegin (readParam g (canonicalShare ws start fin incr sched chunkSize) sched r).1 r n
          (teamNthreads team) now)
        (readParam g (canonicalShare ws start fin incr sched chunkSize) sched r).2 n (teamNthreads team)
        start incr sched r = some (g', ws') :=
  Option.bind_eq_some_iff.1 h

theorem gompLoopInit_sameLoop {g g' : Globals D} {team : Option U32} {now : Int} {ws ws' : GompWorkShare D}
    {start fin incr chunkSize : Word} {sched : GompScheduleType} {r : RegionId}
    (h : gompLoopInit g team now ws start fin incr sched chunkSize r = some (g', ws')) :
    SameLoop (canonicalShare ws start fin incr sched chunkSize) ws' := by
  obtain ⟨n, -, hs⟩ := gompLoopInit_some h
  have h1 := readParam_sameLoop g (canonicalShare ws start fin incr sched chunkSize) sched r
  exact h1.trans (by unfold readParam; split <;> rfl) (gompLoopInitSched_sameLoop hs)

/-! ## `gomp_loop_ull_init` -/

/-- The canonical `end_ull`. -/
def canonicalEndUll (up : Bool) (start fin : Word) : Word :=
  if (up && fin < start) || (!up && start < fin) then start else fin

/-- `ws->mode` of a dynamic schedule, before the direction bit. -/
def dynamicModeUll (up : Bool) (fin chunkSize nthreads : Word) : Nat :=
  if up then
    if (nthreads ||| chunkSize) < halfRange then (fin < (BitVec.allOnes 64 - (nthreads + 1) * chunkSize) : Bool).toNat
    else 0
  else if (nthreads ||| -chunkSize) < halfRange then
    (fin > ((nthreads + 1) * -chunkSize - BitVec.allOnes 64) : Bool).toNat
  else 0

/-- The `switch` of `gomp_loop_ull_init`. -/
def gompLoopUllInitSched (ws : GompWorkShare D) (up : Bool) (numTasks nthreads incr : Word)
    (sched : GompScheduleType) : Option (GompWorkShare D) :=
  match sched with
  | .fsFac2 => do return { ws with chunkSize := ← uldiv numTasks nthreads }
  | .boTape => some { ws with param := tapeTransformRange ws.param }
  | .fsTape => some { ws with param := 3.0 }
  | .fsTss | .boTss =>
    let param :=
      if sched = .fsTss then
        let temp : D := CDouble.ofULong numTasks / CDouble.ofLong (2 * nthreads + 1)
        CDouble.ofULong (2 * numTasks) / (temp * temp)
      else ws.param
    let chunkSize := CDouble.toULong (CDouble.sqrt (2.0 * CDouble.ofULong numTasks / param) - 1.0)
    some { ws with param := param, chunkSize := chunkSize, count := 0 }
  | .fsFss | .boFss =>
    let param := fssTransformRange ws.param
    let F := fssFirst (CDouble.ofULong numTasks) nthreads param
    let PF := F * nthreads
    let barrier := if up then ws.barrier + PF * ws.incr else ws.barrier + PF * -ws.incr
    some { ws with param := param, chunkSize := F, barrier := barrier }
  | .gfsDynamic | .fsCss | .boCss =>
    let ws :=
      if sched = .fsCss ∨ sched = .boCss then
        let param := cssTransformRange ws.param
        { ws with param := param, chunkSize := cssChunkSizeUll param numTasks nthreads }
      else ws
    let chunkSize := ws.chunkSize * incr
    some { ws with chunkSize := chunkSize, mode := dynamicModeUll up ws.fin chunkSize nthreads }
  | _ => some ws

/-- The work share `gomp_loop_ull_init` starts from. -/
def canonicalShareUll (ws : GompWorkShare D) (up : Bool) (start fin incr : Word) (sched : GompScheduleType)
    (chunkSize : Word) : GompWorkShare D :=
  { ws with
    sched := sched, chunkSize := chunkSize, fin := canonicalEndUll up start fin, incr := incr
    next := start, barrier := start, mode := 0 }

/-- `gomp_loop_ull_init`, called by a thread of `team` at clock reading `now`. -/
def gompLoopUllInit (g : Globals D) (team : Option U32) (now : Int) (ws : GompWorkShare D) (up : Bool)
    (start fin incr : Word) (sched : GompScheduleType) (chunkSize : Word) (regionId : RegionId) :
    Option (Globals D × GompWorkShare D) := do
  let nthreads := teamNthreads team
  let ws := canonicalShareUll ws up start fin incr sched chunkSize
  let numTasks ← uldiv (ws.fin - start) incr
  let (g, ws) := readParam g ws sched regionId
  let g := boScheduleBegin g regionId numTasks nthreads now
  let ws ← gompLoopUllInitSched ws up numTasks nthreads incr sched
  return (g, if up then ws else { ws with mode := ws.mode ||| 2 })

theorem gompLoopUllInitSched_sameLoop {ws ws' : GompWorkShare D} {up : Bool} {n P incr : Word}
    {sched : GompScheduleType} (h : gompLoopUllInitSched ws up n P incr sched = some ws') : SameLoop ws ws' := by
  cases sched
  case fsFss | boFss =>
    cases h
    refine ⟨rfl, rfl, rfl, rfl, fun h0 => ?_⟩
    dsimp only at h0 ⊢
    rw [h0]
    split <;> simp
  case fsFac2 =>
    obtain ⟨_, _, h⟩ := Option.bind_eq_some_iff.1 h
    cases h
    exact ⟨rfl, rfl, rfl, rfl, fun _ => rfl⟩
  all_goals
    cases h
    exact ⟨rfl, rfl, rfl, rfl, fun _ => rfl⟩

/-- Only the dynamic schedules compute a mode of their own. -/
theorem gompLoopUllInitSched_mode {ws ws' : GompWorkShare D} {up : Bool} {n P incr : Word}
    {sched : GompScheduleType} (h : gompLoopUllInitSched ws up n P incr sched = some ws')
    (hd : sched ≠ .gfsDynamic) (hf : sched ≠ .fsCss) (hb : sched ≠ .boCss) : ws'.mode = ws.mode := by
  cases sched
  case gfsDynamic => exact absurd rfl hd
  case fsCss => exact absurd rfl hf
  case boCss => exact absurd rfl hb
  case fsFac2 =>
    obtain ⟨_, _, h⟩ := Option.bind_eq_some_iff.1 h
    cases h; rfl
  all_goals cases h; rfl

theorem gompLoopUllInit_some {g g' : Globals D} {team : Option U32} {now : Int} {ws ws' : GompWorkShare D}
    {up : Bool} {start fin incr chunkSize : Word} {sched : GompScheduleType} {r : RegionId}
    (h : gompLoopUllInit g team now ws up start fin incr sched chunkSize r = some (g', ws')) :
    ∃ n ws₁, gompLoopUllInitSched (readParam g (canonicalShareUll ws up start fin incr sched chunkSize) sched r).2 up n
        (teamNthreads team) incr sched = some ws₁ ∧
      ws' = if up then ws₁ else { ws₁ with mode := ws₁.mode ||| 2 } := by
  obtain ⟨n, -, h⟩ := Option.bind_eq_some_iff.1 h
  obtain ⟨ws₁, h₁, h⟩ := Option.bind_eq_some_iff.1 h
  cases h
  exact ⟨n, ws₁, h₁, rfl⟩

theorem gompLoopUllInit_sameLoop {g g' : Globals D} {team : Option U32} {now : Int} {ws ws' : GompWorkShare D}
    {up : Bool} {start fin incr chunkSize : Word} {sched : GompScheduleType} {r : RegionId}
    (h : gompLoopUllInit g team now ws up start fin incr sched chunkSize r = some (g', ws')) :
    SameLoop (canonicalShareUll ws up start fin incr sched chunkSize) ws' := by
  obtain ⟨n, ws₁, hs, rfl⟩ := gompLoopUllInit_some h
  have h1 := readParam_sameLoop g (canonicalShareUll ws up start fin incr sched chunkSize) sched r
  have h2 := h1.trans (by unfold readParam; split <;> rfl) (gompLoopUllInitSched_sameLoop hs)
  split
  · exact h2
  · exact ⟨h2.sched, h2.next, h2.fin, h2.incr, h2.barrier⟩

/-- The mode of a schedule that is not dynamic tells the direction. -/
theorem gompLoopUllInit_mode {g g' : Globals D} {team : Option U32} {now : Int} {ws ws' : GompWorkShare D}
    {up : Bool} {start fin incr chunkSize : Word} {sched : GompScheduleType} {r : RegionId}
    (h : gompLoopUllInit g team now ws up start fin incr sched chunkSize r = some (g', ws'))
    (hd : sched ≠ .gfsDynamic) (hf : sched ≠ .fsCss) (hb : sched ≠ .boCss) : ws'.mode = if up then 0 else 2 := by
  obtain ⟨n, ws₁, hs, rfl⟩ := gompLoopUllInit_some h
  have hmode : ws₁.mode = 0 := by
    rw [gompLoopUllInitSched_mode hs hd hf hb]
    unfold readParam
    split <;> rfl
  split
  · exact hmode
  · show ws₁.mode ||| 2 = 2
    rw [hmode]; rfl

end Bosched
