/-
The entry points of `bosched.cpp` that libgomp calls: the parameters of a region, the begin and
end of a loop, the static fallback, and the workload tables. Each is a function on the
process-global state; clock readings are arguments.
-/
import Bosched.Runtime.Binlpt

namespace Bosched

open Lib

variable {D : Type} [CDouble D]

/-! ## Parameters -/

/-- `bo_schedule_parameter`. -/
def boScheduleParameter (g : Globals D) (regionId : RegionId) (isBo : Bool) : Globals D × D :=
  let l := g.loop regionId
  let l := if g.isNewFile then { l with warmingUp := true } else l
  let l := if isBo && g.isEval then { l with param := l.evalParam } else l
  ({ g.setLoop regionId l with isBoSchedule := isBo }, l.param)

/-- `bo_fss_parameter`. -/
def boFssParameter (g : Globals D) (regionId : RegionId) : Globals D × D :=
  let p := g.param regionId
  (g.setParam regionId p, p.fss)

/-- `bo_css_parameter`. -/
def boCssParameter (g : Globals D) (regionId : RegionId) : Globals D × D :=
  let p := g.param regionId
  (g.setParam regionId p, p.css)

/-- `bo_tss_parameter`; `none` when the region has no `tss` parameter (`value()` throws). -/
def boTssParameter (g : Globals D) (regionId : RegionId) : Option (Globals D × D) := do
  let p := g.param regionId
  return (g.setParam regionId p, ← p.tss)

/-- `bo_tape_parameter`; `none` when the region has no `tape` parameter (`value()` throws). -/
def boTapeParameter (g : Globals D) (regionId : RegionId) : Option (Globals D × D) := do
  let p := g.param regionId
  return (g.setParam regionId p, ← p.tape)

/-- `bo_fallback_static`: the comparison with `1e-5` is on the parameter stored for the region. -/
def boFallbackStatic (g : Globals D) (regionId : RegionId) (isBo : Bool) : Globals D × Bool :=
  if g.fallback && g.isEval && isBo then
    let l := g.loop regionId
    (g.setLoop regionId l, CDouble.lt l.param 0.00001)
  else (g, false)

/-! ## Workloads -/

/-- `bo_binlpt_load_loop`: the stored task map, computed from the workload on the first demand. -/
def boBinlptLoadLoop (g : Globals D) (regionId : RegionId) : Option (Globals D × List U32) := do
  let p := g.param regionId
  if p.binlpt.length = 0 then
    let ntasks := p.hss.length
    if ntasks = 0 then none
    else
      let map ← binlptBalance p.hss (BitVec.ofNat 32 ntasks).toNat g.nthreadsVar.toNat (g.nthreadsVar * 2).toNat
        (List.replicate ntasks 0)
      return (g.setParam regionId { p with binlpt := map }, map)
  else return (g.setParam regionId p, p.binlpt)

/-- `bo_hss_load_loop`. -/
def boHssLoadLoop (g : Globals D) (regionId : RegionId) : Globals D × List U32 :=
  let p := g.param regionId
  (g.setParam regionId p, p.hss)

/-! ## Begin and end -/

/-- `prof::profiling_init`; the time stamps are at the epoch of the clock. -/
def profilingInit (g : Globals D) (numTasks : Word) : Globals D :=
  { g with
    timestamp := List.replicate g.nthreadsVar.toNat (0, 0)
    loads := List.replicate numTasks.toNat 0.0 }

/-- `bosched::microsecond` of a time span in nanoseconds. -/
def microseconds (span : Int) : D := CDouble.ofLong (BitVec.ofInt 64 span) / 1000.0

/-- `prof::iteration_profile_start` by thread `tid`; `none` is an access out of bounds. -/
def iterationProfileStart (g : Globals D) (tid : Nat) (iter : Word) (now : Int) : Option (Globals D) := do
  return { g with timestamp := ← store g.timestamp tid (iter, now) }

/-- `prof::iteration_profile_stop` by thread `tid`; `none` is an access out of bounds. -/
def iterationProfileStop (g : Globals D) (tid : Nat) (now : Int) : Option (Globals D) := do
  let (iter, stamp) ← g.timestamp[tid]?
  return { g with loads := ← store g.loads iter.toNat (microseconds (now - stamp)) }

/-- `bo_workload_profile_start`. -/
def boWorkloadProfileStart (g : Globals D) (tid : Nat) (iter : Word) (now : Int) : Option (Globals D) :=
  if g.profileLoop then iterationProfileStart g tid iter now else some g

/-- `bo_workload_profile_stop`. -/
def boWorkloadProfileStop (g : Globals D) (tid : Nat) (now : Int) : Option (Globals D) :=
  if g.profileLoop then iterationProfileStop g tid now else some g

/-- `bo_schedule_begin`, at clock reading `now`. -/
def boScheduleBegin (g : Globals D) (regionId : RegionId) (numTasks procs : Word) (now : Int) : Globals D :=
  let l := g.loop regionId
  let g :=
    if g.isBoSchedule || g.showLoopStat then
      { g.setLoop regionId { l with start := now, numTasks := numTasks } with procs := procs }
    else g.setLoop regionId l
  if g.profileLoop then profilingInit g numTasks else g

/-- `loop_stop`, in microseconds of a nanosecond clock. -/
def loopStop (l : LoopState D) (now : Int) : D := CDouble.ofLong (BitVec.ofInt 64 (now - l.start)) / 1000.0

/-- `bo_schedule_end`, at clock reading `now`: the observation it records. -/
def boScheduleEnd (g : Globals D) (regionId : RegionId) (now : Int) : Globals D :=
  if g.isBoSchedule || g.showLoopStat then
    let l := g.loop regionId
    let execTime := loopStop l now
    if g.isBoSchedule then
      g.setLoop regionId { l with obsX := l.obsX ++ [l.param], obsY := l.obsY ++ [execTime] }
    else g.setLoop regionId l
  else g

/-! ## What the entry points leave alone -/

@[simp] theorem boScheduleParameter_tasks (g : Globals D) (r : RegionId) (b : Bool) :
    (boScheduleParameter g r b).1.tasks = g.tasks := rfl

@[simp] theorem boScheduleParameter_params (g : Globals D) (r : RegionId) (b : Bool) :
    (boScheduleParameter g r b).1.params = g.params := rfl

@[simp] theorem boScheduleBegin_params (g : Globals D) (r : RegionId) (n p : Word) (now : Int) :
    (boScheduleBegin g r n p now).params = g.params := by
  unfold boScheduleBegin
  simp only
  split <;> split <;> rfl

@[simp] theorem boScheduleBegin_nthreadsVar (g : Globals D) (r : RegionId) (n p : Word) (now : Int) :
    (boScheduleBegin g r n p now).nthreadsVar = g.nthreadsVar := by
  unfold boScheduleBegin
  simp only
  split <;> split <;> rfl

theorem boScheduleBegin_numTasks {g : Globals D} (h : g.isBoSchedule = true ∨ g.showLoopStat = true) (r : RegionId)
    (n p : Word) (now : Int) : ((boScheduleBegin g r n p now).loop r).numTasks = n := by
  have hc : (g.isBoSchedule || g.showLoopStat) = true := by
    rcases h with h | h <;> simp [h]
  unfold boScheduleBegin
  simp only [hc, if_true]
  split <;> simp [profilingInit, Globals.loop, Globals.setLoop]

end Bosched
