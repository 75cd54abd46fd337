/-
`GOMP_loop_runtime_start` of a loop under a BO schedule, where the static fallback can be chosen. Each thread asks
`bo_fallback_static` for itself, from the parameter stored for the region, and goes to `gomp_loop_static_start` or to
the `*_start` function of the schedule; the first one there initialises the work share, and the others find it. From
the second chunk on, `GOMP_loop_runtime_next` goes by the schedule on the work share.
-/
import Bosched.Iter.StaticRuns

namespace Bosched

open Lib

/-! ## `loop.c` -/

/-- A call of `GOMP_loop_runtime_start`: its arguments, the `run-sched-var` and team of the threads, what the work share
held before, and the clock reading of the thread that initialises it. -/
structure RuntimeLoop (D : Type) where
  regionId : RegionId
  start : Word
  fin : Word
  incr : Word
  sched : GompScheduleType
  chunkSize : U32
  team : Option U32
  recycled : GompWorkShare D
  now : Int

/-- Where a thread stands: at the head of `GOMP_loop_runtime_start`, in front of `gomp_work_share_start` on the side it
has chosen, initialising the work share, in an iterator, or told that there is no more work. -/
inductive StartLocal
  | enter
  | arrive (fallback : Bool)
  | init (fallback : Bool)
  | static
  | cas (it : CasIter) (loc : Local)
  | dyn (loc : DynLocal)
  | finished
  deriving DecidableEq

/-- A thread took a side, or a call of an iterator returned: of `gomp_iter_static_next`, or of a dynamic one. -/
inductive StartEvent
  | chose (fallback : Bool)
  | took (fallback : Bool) (r : Ret)
  deriving DecidableEq

/-- `next_ws` of the team's last work share: empty, locked by the thread that initialises, or the work share, with the
words that the iterators write. -/
inductive NextShare (D : Type)
  | absent
  | locked
  | ready (ws : GompWorkShare D) (s : Cells)

/-- What the threads of a team share when they come to a loop. -/
structure LoopTeam (D : Type) where
  globals : Globals D
  share : NextShare D

/-- The iterator behind the `*_start` function of a schedule, and behind `GOMP_loop_runtime_next` for `ws->sched`: of a
BO schedule, and of the one that the fallback puts on the work share. -/
def iteratorOf : GompScheduleType → Option StartLocal
  | .gfsStatic => some .static
  | .boFss => some (.cas .fss .idle)
  | .boTss => some (.cas .tss .idle)
  | .boTape => some (.cas .tape .idle)
  | .boCss => some (.dyn .idle)
  | _ => none

section

variable {D : Type} [CDouble D] {P : Nat}

/-- One step of thread `i` in its iterator, and what the call returned, where it did. -/
def StartLocal.iterate (ws : GompWorkShare D) (team : Option U32) (i : Fin P) (s : Cells) (trip : Word) :
    StartLocal → Option (Cells × Word × StartLocal × Option Ret)
  | .static => do
    let (trip, r) ← gompIterStaticNext ws s (teamNthreads team) (BitVec.ofNat 64 i) trip
    return (s, trip, .static, some r)
  | .cas it loc => do
    let (s, loc, r) ← boIterNext it ws team i () s loc
    return (s, trip, .cas it loc, r)
  | .dyn loc => do
    let (next, loc, r) ← gompIterDynamicNext ws i () s.next loc
    return ({ s with next := next }, trip, .dyn loc, r)
  | _ => none

/-- Where a call leaves a thread: still in it, told that there is no more work, or in front of the iterator of the work
share, which `GOMP_loop_runtime_next` calls. -/
def afterCall (ws : GompWorkShare D) (loc : StartLocal) : Option Ret → Option StartLocal
  | none => some loc
  | some none => some .finished
  | some (some _) => iteratorOf ws.sched

namespace RuntimeLoop

variable (a : RuntimeLoop D)

/-- The schedule of a side. -/
def side (fallback : Bool) : GompScheduleType := if fallback then .gfsStatic else a.sched

/-- `gomp_loop_init`, as the `*_start` function of a side calls it. -/
def init (fallback : Bool) (g : Globals D) : Option (Globals D × GompWorkShare D) :=
  gompLoopInit g a.team a.now a.recycled a.start a.fin a.incr (a.side fallback)
    (if fallback then a.chunkSize.signExtend 64 else 0) a.regionId

/-- The threads of the team between `GOMP_loop_runtime_start` and the last call of `GOMP_loop_runtime_next`. A thread
also has its `static_trip`. -/
def threads : Prog (Fin P) Unit (LoopTeam D) (Word × StartLocal) StartEvent
  | _, _, s, (trip, .enter) =>
    let (g, fallback) := boFallbackStatic s.globals a.regionId (isBoSchedule a.sched)
    -- `gomp_loop_static_start` starts with the thread's `static_trip`
    some ({ s with globals := g }, (if fallback then 0 else trip, .arrive fallback), some (.chose fallback))
  | _, _, s, (trip, .arrive fallback) =>
    match s.share with
    | .absent => some ({ s with share := .locked }, (trip, .init fallback), none)
    | .locked => none
    | .ready _ _ => do return (s, (trip, ← iteratorOf (a.side fallback)), none)
  | _, _, s, (trip, .init fallback) => do
    let (g, ws) ← a.init fallback s.globals
    return (⟨g, .ready ws ws.cells⟩, (trip, ← iteratorOf (a.side fallback)), none)
  | i, _, s, (trip, loc) =>
    match s.share with
    | .ready ws cells => do
      let (cells, trip, loc', r) ← loc.iterate ws a.team i cells trip
      return ({ s with share := .ready ws cells }, (trip, ← afterCall ws loc' r),
        r.map (.took (decide (loc = .static))))
    | _ => none

end RuntimeLoop

/-- Every thread of the team comes to the loop, with what an earlier one left in its `static_trip`. -/
def runtimeEntry (g : Globals D) (trips : Fin P → Word) : Cfg (Fin P) (LoopTeam D) (Word × StartLocal) StartEvent :=
  ⟨⟨g, .absent⟩, fun i => (trips i, .enter), []⟩

end

/-! ## What a team should do -/

section

variable {D : Type} {P : Nat}

/-- What the calls of the iterators returned. -/
def StartEvent.ret : StartEvent → Option Ret
  | .took _ r => some r
  | .chose _ => none

/-- The calls that returned, by the threads. -/
def runtimeRets (log : List (Fin P × StartEvent)) : List (Fin P × Ret) := log.filterMap fun x => x.2.ret.map fun r => (x.1, r)

/-- All threads took one side of `bo_fallback_static`, and all calls were of one kind of iterator. -/
structure OneSided (log : List (Fin P × StartEvent)) : Prop where
  chose : ∀ {i j f f'}, (i, .chose f) ∈ log → (j, .chose f') ∈ log → f = f'
  took : ∀ {i j f f' r r'}, (i, .took f r) ∈ log → (j, .took f' r') ∈ log → f = f'

/-- Every thread was told that there is no more work. -/
def Finished (c : Cfg (Fin P) (LoopTeam D) (Word × StartLocal) StartEvent) : Prop := ∀ i, (c.loc i).2 = .finished

/-- In every run the threads take one side, from everywhere the team can get through the loop, and when it has every
iteration was executed once. -/
structure RunsTogether (p : Prog (Fin P) Unit (LoopTeam D) (Word × StartLocal) StartEvent) (l : Loop)
    (c₀ : Cfg (Fin P) (LoopTeam D) (Word × StartLocal) StartEvent) : Prop where
  sides : ∀ {c}, Reach p c₀ c → OneSided c.log
  ends : ∀ {c}, Reach p c₀ c → ∃ c', Reach p c c' ∧ Finished c'
  once : ∀ {c}, Reach p c₀ c → Finished c → EachOnce l (chunks BitVec.toInt (runtimeRets c.log))

end

end Bosched
