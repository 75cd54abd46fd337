/-
A team of threads over the worksharing constructs of a region: `gomp_work_share_start`, the three
ends of `work.c` and `GOMP_parallel_end`, each with the calls of `bo_schedule_begin` and
`bo_schedule_end` it makes. A member takes one atomic step at a time; the chunks of a construct
are handed out one by one, to whoever asks.
-/
import Bosched.Lib.Threads
import Bosched.Runtime.Types

namespace Bosched

open Lib

/-! ## Regions and constructs -/

/-- The end of a construct: `gomp_work_share_end`, `gomp_work_share_end_cancel`,
`gomp_work_share_end_nowait`. -/
inductive EndForm
  | barrier | cancel | nowait
  deriving DecidableEq, Repr

/-- A worksharing construct as the compiler emits it. -/
structure Construct where
  /-- the id its initialisation passes to `bo_schedule_begin`; `none` for sections and single constructs,
  which have no loop initialisation -/
  begins : Option RegionId
  /-- the id it passes to its end function -/
  ends : RegionId
  form : EndForm
  /-- its schedule is a BO one -/
  bo : Bool
  /-- some thread takes the static side of `bo_fallback_static` -/
  fallback : Bool
  /-- how many chunks its iterators hand out -/
  chunks : Nat
  deriving DecidableEq, Repr

/-- What a team executes. The initial thread is in no team; a combined construct initialises its loop
before the team starts (`gomp_parallel_loop_start`); `boAtEnd` is what `GOMP_parallel_end` finds in
`icv->run_sched_var`. -/
inductive Region
  | initial (body : List Construct)
  | parallel (nthreads : U32) (body : List Construct)
  | parallelLoop (nthreads : U32) (loop : Construct) (boAtEnd : Bool)
  deriving DecidableEq, Repr

namespace Region

/-- `thr->ts.team` of its threads: the team's `nthreads`, `none` where the pointer is `NULL`. -/
def team : Region → Option U32
  | initial _ => none
  | parallel n _ => some n
  | parallelLoop n _ _ => some n

def size (R : Region) : Nat := (R.team.getD 1).toNat

def body : Region → List Construct
  | initial body => body
  | parallel _ body => body
  | parallelLoop _ c _ => [c]

/-- `gomp_parallel_loop_start` has initialised the first work share. -/
def preInit : Region → Bool
  | parallelLoop .. => true
  | _ => false

end Region

/-! ## The state of a team -/

/-- The calls of `bo_schedule_begin` and `bo_schedule_end`, with the work share they are made for. -/
inductive TeamEvent
  | begin (regionId : RegionId) (share : Nat)
  | finish (regionId : RegionId) (share : Nat)
  deriving DecidableEq, Repr

/-- Where a member is: between two constructs, in one with no chunk or with one, waiting in a barrier
entered at a generation, or in the barrier of `gomp_team_end`. -/
inductive Status
  | between | inside | working | waiting (generation : Nat) | finished
  deriving DecidableEq, Repr

/-- A member: how many constructs it has ended, and whether `thr->ts.last_work_share` is set. -/
structure Member where
  pos : Nat
  status : Status
  lastWorkShare : Bool
  deriving DecidableEq, Repr

/-- The state the members share: the work shares started so far; the chunks left, `threads_completed`
and the team that `gomp_loop_init` read for each of them; the barrier. -/
structure TeamShared where
  started : Nat
  left : Nat → Nat
  completed : Nat → Nat
  sizedFor : Nat → Option U32
  arrived : Nat
  generation : Nat

/-- The member is done with its construct. -/
def Member.next (m : Member) : Member := ⟨m.pos + 1, .between, false⟩

@[simp] theorem Member.next_pos (m : Member) : m.next.pos = m.pos + 1 := rfl
@[simp] theorem Member.next_status (m : Member) : m.next.status = .between := rfl

/-! ## Starting and ending a construct -/

/-- `gomp_work_share_start` and the initialisation of the work share by the thread that is first; the
members of a combined construct find theirs initialised. -/
def gompWorkShareStart (R : Region) (c : Construct) (s : TeamShared) (m : Member) :
    TeamShared × Member × Option TeamEvent :=
  if R.preInit then (s, { m with status := .inside }, none)
  else if m.pos < s.started then (s, { m with status := .inside, lastWorkShare := R.team.isSome }, none)
  else
    ({ s with
        started := s.started + 1
        left := Function.update s.left m.pos c.chunks
        sizedFor := Function.update s.sizedFor m.pos R.team },
      { m with status := .inside, lastWorkShare := R.team.isSome }, c.begins.map (.begin · m.pos))

/-- Arriving at the team barrier: the last thread logs its event and lets the others go. -/
def arrive (n : U32) (s : TeamShared) (m : Member) (e : Option TeamEvent) : TeamShared × Member × Option TeamEvent :=
  if s.arrived + 1 = n.toNat then ({ s with arrived := 0, generation := s.generation + 1 }, m.next, e)
  else ({ s with arrived := s.arrived + 1 }, { m with status := .waiting s.generation }, none)

/-- `gomp_work_share_end`. -/
def gompWorkShareEnd (team : Option U32) (regionId : RegionId) (s : TeamShared) (m : Member) :
    TeamShared × Member × Option TeamEvent :=
  match team with
  | none => (s, m.next, none)
  | some n => arrive n s m (some (.finish regionId m.pos))

/-- `gomp_work_share_end_cancel`; it cannot be orphaned. -/
def gompWorkShareEndCancel (team : Option U32) (regionId : RegionId) (s : TeamShared) (m : Member) :
    Option (TeamShared × Member × Option TeamEvent) :=
  team.map fun n => arrive n s m (if m.lastWorkShare then some (.finish regionId m.pos) else none)

/-- `gomp_work_share_end_nowait`. The increment of `threads_completed` and the call it leads to are one
step: nobody reads the counter after the thread that completes it. -/
def gompWorkShareEndNowait (team : Option U32) (regionId : RegionId) (s : TeamShared) (m : Member) :
    TeamShared × Member × Option TeamEvent :=
  match team with
  | none => (s, m.next, some (.finish regionId m.pos))
  | some n =>
    let completed := s.completed m.pos + 1
    let s := { s with completed := Function.update s.completed m.pos completed }
    if m.lastWorkShare = false then (s, m.next, none)
    else (s, m.next, if completed = n.toNat then some (.finish regionId m.pos) else none)

/-- The end function of a construct. -/
def endConstruct (R : Region) (c : Construct) (s : TeamShared) (m : Member) :
    Option (TeamShared × Member × Option TeamEvent) :=
  match c.form with
  | .barrier => some (gompWorkShareEnd R.team c.ends s m)
  | .cancel => gompWorkShareEndCancel R.team c.ends s m
  | .nowait => some (gompWorkShareEndNowait R.team c.ends s m)

/-- The call of `bo_schedule_end` in `GOMP_parallel_end`: only `GOMP_parallel_loop_runtime` passes an id. -/
def gompParallelEnd : Region → Option TeamEvent
  | .parallelLoop _ c boAtEnd => if c.begins.getD 0 ≠ 0 ∧ boAtEnd = true then some (.finish (c.begins.getD 0) 0) else none
  | _ => none

/-! ## The steps of a member -/

inductive TeamAction
  | enter | take | done | leave | wake | finish
  deriving DecidableEq, Repr

/-- An iterator may tell a member that there is no chunk for it: none is left, or the chunks belong to
threads (the static side), or the loop was cancelled. -/
def mayLeave (c : Construct) (left : Nat) : Prop := left = 0 ∨ c.bo = false ∨ c.fallback = true ∨ c.form = .cancel

instance (c : Construct) (left : Nat) : Decidable (mayLeave c left) := inferInstanceAs (Decidable (_ ∨ _ ∨ _ ∨ _))

def teamStep (R : Region) : Prog Nat TeamAction TeamShared Member TeamEvent := fun i a s m =>
  if i < R.size then
    match a with
    | .enter =>
      if m.status = .between then (R.body[m.pos]?).map fun c => gompWorkShareStart R c s m else none
    | .take =>
      if m.status = .inside ∧ 0 < s.left m.pos then
        some ({ s with left := Function.update s.left m.pos (s.left m.pos - 1) }, { m with status := .working }, none)
      else none
    | .done => if m.status = .working then some (s, { m with status := .inside }, none) else none
    | .leave =>
      (R.body[m.pos]?).bind fun c =>
        if m.status = .inside ∧ mayLeave c (s.left m.pos) then endConstruct R c s m else none
    | .wake =>
      match m.status with
      | .waiting g => if g ≠ s.generation then some (s, m.next, none) else none
      | _ => none
    | .finish =>
      if m.status = .between ∧ m.pos = R.body.length then
        -- the master runs `GOMP_parallel_end`, with its call before the barrier of `gomp_team_end`
        some (s, { m with status := .finished }, if i = 0 then gompParallelEnd R else none)
      else none
  else none

/-- A region at its start; `outer` is the team of the thread that starts it, which `gomp_loop_init` reads
in `gomp_parallel_loop_start`. -/
def teamStart (R : Region) (outer : Option U32) : Cfg Nat TeamShared Member TeamEvent :=
  ⟨{ started := if R.preInit then 1 else 0
     left := fun k => ((R.body[k]?).map (·.chunks)).getD 0
     completed := fun _ => 0
     sizedFor := fun _ => outer
     arrived := 0
     generation := 0 },
   fun _ => ⟨0, .between, false⟩, []⟩

end Bosched
