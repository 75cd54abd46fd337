/-
The workload profile of a `schedule(dynamic)` loop. A thread enters through `gomp_loop_dynamic_start`, or through
`gomp_loop_dynamic_next` where the compiler combined the loop with its parallel region; both call
`bo_workload_profile_start` behind the iterator, and `next` calls `bo_workload_profile_stop` before it. Erasing the calls
gives a run of the iterator.
-/
import Bosched.Iter.Css

namespace Bosched

open Lib

/-! ## The entry points -/

/-- Where a thread stands: before its first entry point, in the iterator, about to start the profile of a chunk, in the
body of the loop, or told that there is no more work. -/
inductive ProfLocal
  | enter
  | calling (loc : DynLocal)
  | granted (istart : Word)
  | working
  | finished

/-- The iterator returned, or the profile was started or stopped, with what it read and wrote. -/
inductive ProfEvent
  | took (r : Ret)
  | start (iter : Word) (now : Int)
  | stop (iter : Word) (stamp now : Int)
  deriving DecidableEq

section

variable {D : Type} [CDouble D] {P : Nat}

/-- The head of `gomp_loop_dynamic_next`, by thread `i` at clock reading `now`. -/
def dynamicNextEntry (i : Fin P) (now : Int) (s : Word × Globals D) :
    Option ((Word × Globals D) × ProfLocal × Option ProfEvent) := do
  let g ← boWorkloadProfileStop s.2 i now
  let e := if s.2.profileLoop then s.2.timestamp[i.val]?.map fun t => .stop t.1 t.2 now else none
  return ((s.1, g), .calling .idle, e)

/-- `gomp_loop_dynamic_start` and `gomp_loop_dynamic_next`; the shared state is `ws->next` and that of the profile. -/
def profiledLoop (combined locked : Bool) (ws : GompWorkShare D) :
    Prog (Fin P) Int (Word × Globals D) ProfLocal ProfEvent
  | i, now, s, .enter => if combined then dynamicNextEntry i now s else some (s, .calling .idle, none)
  | i, now, s, .working => dynamicNextEntry i now s
  | i, _, s, .calling loc => (dynamicIter locked ws i () s.1 loc).map fun (next, loc, e) =>
    ((next, s.2), match e with
      | none => .calling loc
      | some none => .finished
      | some (some r) => .granted r.1, e.map .took)
  | i, now, s, .granted istart => do
    let g ← boWorkloadProfileStart s.2 i istart now
    return ((s.1, g), .working, if s.2.profileLoop then some (.start istart now) else none)
  | _, _, _, .finished => none

/-- The team behind `gomp_loop_init`. -/
def profEntry (ws : GompWorkShare D) (g : Globals D) : Cfg (Fin P) (Word × Globals D) ProfLocal ProfEvent :=
  ⟨(ws.next, g), fun _ => .enter, []⟩

end

/-! ## What the profile should be -/

section

variable {P : Nat}

/-- The last event of thread `i`. -/
def lastEvent (i : Fin P) (log : List (Fin P × ProfEvent)) : Option ProfEvent :=
  (log.filter fun x => x.1 = i).getLast?.map Prod.snd

/-- The event writes the slot of `iter`. -/
def ProfEvent.stopsAt (iter : Word) : ProfEvent → Bool
  | .stop w _ _ => w = iter
  | _ => false

end

/-! ## The iterator underneath -/

section

variable {D : Type} [CDouble D] {P : Nat} (ws : GompWorkShare D) {combined locked : Bool}

/-- Where the thread stands in the iterator. -/
def ProfLocal.inner : ProfLocal → DynLocal
  | .calling loc => loc
  | .finished => .stopped
  | _ => .idle

def ProfEvent.ret : ProfEvent → Option Ret
  | .took r => some r
  | _ => none

end

end Bosched
