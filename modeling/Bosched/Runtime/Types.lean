/-
The data of the runtime: C `double` as an interface, the schedules of `libgomp.h`, the fields of
`struct gomp_work_share` a loop iterator uses, and the tables and flags of `bosched.cpp`.
-/
import Bosched.Lib.Word
import Mathlib.Data.List.AList

namespace Bosched

open Lib

abbrev U32 := BitVec 32

/-- The region id the compiler passes: the key of a loop's tuning state. -/
abbrev RegionId := Word

/-- C `double` arithmetic with the conversions and library functions the runtime uses. Nothing is
assumed of it, so a result about every `CDouble` holds for arbitrary results of double arithmetic. -/
class CDouble (D : Type) extends Add D, Sub D, Mul D, Div D, OfScientific D where
  ofLong : Word → D
  ofULong : Word → D
  toLong : D → Word
  toULong : D → Word
  sqrt : D → D
  log : D → D
  ceil : D → D
  pow : D → D → D
  lt : D → D → Bool

/-- `enum gomp_schedule_type`. -/
inductive GompScheduleType
  | gfsRuntime | gfsStatic | gfsDynamic | gfsGuided | gfsAuto
  | fsBinlpt | fsHss | fsAfac | fsFac2 | fsFss | fsTss | fsCss | fsTape | fsTrap1 | fsTape3
  | boFss | boFac | boCss | boTss | boTape
  deriving DecidableEq, Repr

/-- `is_bo_schedule`. -/
def isBoSchedule : GompScheduleType → Bool
  | .boFss | .boCss | .boTape | .boTss => true
  | _ => false

/-- `is_parameterized`. -/
def isParameterized (sched : GompScheduleType) : Bool := isBoSchedule sched

/-- `struct gomp_work_share`: what loop initialisation writes and the iterators read. The members
of the `long` and `unsigned long long` halves of its unions are one word each. -/
structure GompWorkShare (D : Type) where
  sched : GompScheduleType
  param : D
  mode : Nat
  chunkSize : Word
  fin : Word
  incr : Word
  barrier : Word
  count : Word
  next : Word
  loopStart : Word
  taskmap : List U32
  threadStart : List U32
  nthreads : U32
  wremaining : U32

/-- The `params` object of a state-file entry; an absent key is `none`. -/
structure ParamsJson (D : Type) where
  css : Option D
  fss : Option D
  tape : Option D
  tss : Option D
  binlpt : Option (List U32)
  hss : Option (List U32)

/-- A loop entry of the state file (a JSON object); an absent key is `none`. -/
structure LoopJson (D : Type) where
  id : Option RegionId
  n : Option Word
  warmup : Option Bool
  param : Option D
  evalParam1 : Option D
  evalParam2 : Option D
  obsX : Option (List (List D))
  obsY : Option (List (List D))
  histX : Option (List (List D))
  histY : Option (List (List D))
  params : Option (ParamsJson D)

/-- `nlohmann::json()`: no key is present. -/
def LoopJson.null {D : Type} : LoopJson D :=
  ⟨none, none, none, none, none, none, none, none, none, none, none⟩

/-- `loop_state_t`. -/
structure LoopState (D : Type) where
  param : D
  numTasks : Word
  evalParam : D
  obsX : List D
  obsY : List D
  warmingUp : Bool
  start : Int
  loopJson : LoopJson D

/-- `workload_params`. -/
structure WorkloadParams (D : Type) where
  css : D
  fss : D
  tss : Option D
  tape : Option D
  binlpt : List U32
  hss : List U32

/-- The process-global state of `bosched.cpp`, `profile.cpp` and `loop.c`, with the ICV that
`omp_get_max_threads` reads. -/
structure Globals (D : Type) where
  showLoopStat : Bool
  isBoSchedule : Bool
  isNewFile : Bool
  profileLoop : Bool
  isEval : Bool
  fallback : Bool
  loopStates : AList fun _ : RegionId => LoopState D
  params : AList fun _ : RegionId => WorkloadParams D
  procs : Word
  ntasks : U32
  tasks : List U32
  nthreadsVar : U32
  timestamp : List (Word × Int)
  loads : List D

variable {D : Type} [CDouble D]

/-- A value-initialised `loop_state_t`: what `_loop_states[id]` inserts. -/
def LoopState.zero : LoopState D := ⟨0.0, 0, 0.0, [], [], false, 0, .null⟩

/-- A value-initialised `workload_params`: what `_params[id]` inserts. -/
def WorkloadParams.zero : WorkloadParams D := ⟨0.0, 0.0, none, none, [], []⟩

/-- A zeroed work share. -/
def GompWorkShare.zero : GompWorkShare D := ⟨.gfsRuntime, 0.0, 0, 0, 0, 0, 0, 0, 0, 0, [], [], 0, 0⟩

namespace Globals

/-- No state file was loaded and no loop was run yet; `omp_get_max_threads` is `n`. -/
def fresh (n : U32) : Globals D :=
  ⟨false, false, false, false, false, false, ∅, ∅, 0, 0, [], n, [], []⟩

/-- `_loop_states[region_id]`, read. -/
def loop (g : Globals D) (regionId : RegionId) : LoopState D :=
  (g.loopStates.lookup regionId).getD LoopState.zero

/-- `_loop_states[region_id]`, written. -/
def setLoop (g : Globals D) (regionId : RegionId) (l : LoopState D) : Globals D :=
  { g with loopStates := g.loopStates.insert regionId l }

/-- `_params[region_id]`, read. -/
def param (g : Globals D) (regionId : RegionId) : WorkloadParams D :=
  (g.params.lookup regionId).getD WorkloadParams.zero

/-- `_params[region_id]`, written. -/
def setParam (g : Globals D) (regionId : RegionId) (p : WorkloadParams D) : Globals D :=
  { g with params := g.params.insert regionId p }

@[simp] theorem loop_setLoop (g : Globals D) (r : RegionId) (l : LoopState D) : (g.setLoop r l).loop r = l := by
  simp [loop, setLoop]

@[simp] theorem loop_setLoop_ne (g : Globals D) {r r' : RegionId} (h : r' ≠ r) (l : LoopState D) :
    (g.setLoop r l).loop r' = g.loop r' := by
  simp [loop, setLoop, AList.lookup_insert_ne h]

@[simp] theorem loop_setParam (g : Globals D) (r r' : RegionId) (p : WorkloadParams D) :
    (g.setParam r p).loop r' = g.loop r' := rfl

@[simp] theorem param_setParam (g : Globals D) (r : RegionId) (p : WorkloadParams D) :
    (g.setParam r p).param r = p := by
  simp [param, setParam]

end Globals

end Bosched
