/-
The chunks a loop hands out, as `GOMP_loop_runtime_start`, `GOMP_loop_ull_runtime_start` and their `*_next` functions
obtain them: the work share is initialised for the schedule, and the iterator of the schedule is called by one thread
after the other.
-/
import Bosched.Iter.Binlpt
import Bosched.Iter.Dynamic
import Bosched.Iter.Hss
import Bosched.Iter.Static
import Bosched.Lib.Calls

namespace Bosched

open Lib

variable {D : Type} {P : Nat}

/-! ## `iter.c` -/

section

variable (ws : GompWorkShare D) (nthreads : Word)

/-- `gomp_iter_static_next`; the shared state is the `static_trip` of every thread. -/
def staticNext : Prog (Fin P) Unit (Fin P → Word) Unit Ret
  | i, _, trips, _ => do
    let (trip, r) ← gompIterStaticNext ws ws.cells nthreads (BitVec.ofNat 64 i) (trips i)
    return (Function.update trips i trip, (), some r)

/-- `q` of the guided iterators: a share of what is left. -/
def guidedShare (chunkSize n : Word) : Option Word := do
  let q ← uldiv (n + nthreads - 1) nthreads
  return if q < chunkSize then chunkSize else q

/-- The loop of the guided iterators, up to its compare-and-swap. -/
def View.shareTop (v : View) (incr chunkSize start : Word) : Option (Local × Option Ret) :=
  if start = v.fin then some (.idle, some none)
  else do
    let n ← v.remaining start
    let q ← guidedShare nthreads chunkSize n
    return (.casNext start q (if q ≤ n then start + q * incr else v.fin), none)

variable {ι : Type}

/-- The guided iterators. -/
def View.shareNext (v : View) (incr chunkSize : Word) : Prog ι Unit Cells Local Ret
  | _, _, s, .idle => do return (s, ← v.shareTop nthreads incr chunkSize s.next)
  | _, _, s, .casNext start _ nend =>
    if s.next = start then some ({ s with next := nend }, .idle, some (some (start, nend)))
    else do return (s, ← v.shareTop nthreads incr chunkSize s.next)
  | _, _, _, _ => none

/-- `gomp_iter_guided_next`. -/
def gompIterGuidedNext : Prog ι Unit Cells Local Ret := (View.long ws).shareNext nthreads ws.incr ws.chunkSize

/-- A thread that was told that there is no more work, and asks again. -/
def recalled (p : Prog ι Unit Word DynLocal Ret) : Prog ι Unit Word DynLocal Ret
  | i, a, next, loc => (p i a next loc).map fun (next, loc, e) => (next, if loc = .stopped then .idle else loc, e)

/-! ## `iter_ull.c` -/

/-- `n` of `gomp_iter_ull_static_next`. -/
def ullStaticCount : Option Word :=
  if ws.mode = 0 then uldiv (ws.fin - ws.next + ws.incr - 1) ws.incr
  else uldiv (ws.next - ws.fin - ws.incr - 1) (-ws.incr)

/-- `gomp_iter_ull_static_next` of thread `i`: the new `static_trip`, and what it returns. -/
def gompIterUllStaticNext (i trip : Word) : Option (Word × Ret) :=
  if trip = -1 then some (trip, none)
  else if nthreads = 1 then some (-1, if ws.next = ws.fin then none else some (ws.next, ws.fin))
  else if ws.chunkSize = 0 then
    if 0 < trip then some (trip, none)
    else do
      let n ← ullStaticCount ws
      let q ← uldiv n nthreads
      let t := n % nthreads
      let (q, t) := if i < t then (q + 1, 0) else (q, t)
      let s0 := q * i + t
      let e0 := s0 + q
      if e0 ≤ s0 then some (1, none)
      else some (if e0 = n then -1 else 1, some (s0 * ws.incr + ws.next, e0 * ws.incr + ws.next))
  else do
    let n ← ullStaticCount ws
    let s0 := (trip * nthreads + i) * ws.chunkSize
    let e0 := s0 + ws.chunkSize
    if n ≤ s0 then some (trip, none)
    else
      let e0 := if n < e0 then n else e0
      some (if e0 = n then -1 else trip + 1, some (s0 * ws.incr + ws.next, e0 * ws.incr + ws.next))

/-- `gomp_iter_ull_static_next`; the shared state is the `static_trip` of every thread. -/
def ullStaticNext : Prog (Fin P) Unit (Fin P → Word) Unit Ret
  | i, _, trips, _ => do
    let (trip, r) ← gompIterUllStaticNext ws nthreads (BitVec.ofNat 64 i) (trips i)
    return (Function.update trips i trip, (), some r)

/-- `ws->mode & 2`: the loop runs downwards. -/
def goesDown : Bool := ws.mode &&& 2 ≠ 0

/-- The loop of `gomp_iter_ull_dynamic_next`, up to its compare-and-swap. -/
def ullDynamicTop (start chunk : Word) : DynLocal × Option Ret :=
  let left := ws.fin - start
  if start = ws.fin then (.idle, some none)
  else
    let chunk := if goesDown ws then if chunk < left then left else chunk else if chunk > left then left else chunk
    (.casNext start chunk (start + chunk), none)

/-- What `gomp_iter_ull_dynamic_next` makes of a fetch-and-add that returned `tmp`. -/
def ullDynamicFetched (tmp : Word) : Ret :=
  let nend := tmp + ws.chunkSize
  if goesDown ws then
    if tmp ≤ ws.fin then none else some (tmp, if nend < ws.fin then ws.fin else nend)
  else if tmp ≥ ws.fin then none else some (tmp, if nend > ws.fin then ws.fin else nend)

/-- `gomp_iter_ull_dynamic_next`; the shared word is `ws->next_ull`. -/
def gompIterUllDynamicNext : Prog ι Unit Word DynLocal Ret
  | _, _, next, .idle =>
    if ws.mode &&& 1 ≠ 0 then some (next + ws.chunkSize, .idle, some (ullDynamicFetched ws next))
    else some (next, ullDynamicTop ws next ws.chunkSize)
  | _, _, next, .casNext start chunk nend =>
    if next = start then some (nend, .idle, some (some (start, nend)))
    else some (next, ullDynamicTop ws next chunk)
  | _, _, _, .stopped => none

/-- `gomp_iter_ull_guided_next`. -/
def gompIterUllGuidedNext : Prog ι Unit Cells Local Ret := (View.ull ws).shareNext nthreads ws.incr ws.chunkSize

end

/-! ## `loop.c` and `loop_ull.c` -/

/-- The type of a loop variable: `long`, or `unsigned long long` with the direction of the loop. -/
inductive Width
  | long
  | ull (up : Bool)
  deriving DecidableEq

/-- The schedules that `GOMP_loop_runtime_start` and `GOMP_loop_ull_runtime_start` do not abort on. -/
def Width.accepts : Width → GompScheduleType → Bool
  | _, .gfsStatic | _, .gfsDynamic | _, .gfsGuided | _, .gfsAuto => true
  | _, .fsFac2 | _, .fsFss | _, .boFss | _, .fsTss | _, .boTss | _, .fsCss | _, .boCss | _, .fsTape | _, .boTape => true
  | .long, .fsBinlpt | .long, .fsHss | .long, .fsTrap1 | .long, .fsTape3 => true
  | _, _ => false

/-- The schedule that the `*_start` function of a schedule passes to `gomp_loop_init`. -/
def initSched : GompScheduleType → GompScheduleType
  | .gfsAuto => .gfsStatic
  | sched => sched

/-- The chunk size it passes on, of the `run-sched-var` chunk size. -/
def initChunk (sched : GompScheduleType) (chunkSize : Word) : Word :=
  match sched with
  | .gfsStatic | .gfsDynamic | .gfsGuided => chunkSize
  | _ => 0

section

variable (w : Width) (ws : GompWorkShare D) (team : Option U32)

/-- `gomp_iter_static_next` or `gomp_iter_ull_static_next`. -/
def Width.staticNext : Prog (Fin P) Unit (Fin P → Word) Unit Ret :=
  match w with
  | .long => Bosched.staticNext ws (teamNthreads team)
  | .ull _ => ullStaticNext ws (teamNthreads team)

/-- `gomp_iter_dynamic_next` or `gomp_iter_ull_dynamic_next`. -/
def Width.dynamicNext : Prog (Fin P) Unit Word DynLocal Ret :=
  match w with
  | .long => recalled (gompIterDynamicNext ws)
  | .ull _ => gompIterUllDynamicNext ws

/-- `gomp_iter_guided_next` or `gomp_iter_ull_guided_next`. -/
def Width.guidedNext : Prog (Fin P) Unit Cells Local Ret :=
  match w with
  | .long => gompIterGuidedNext ws (teamNthreads team)
  | .ull _ => gompIterUllGuidedNext ws (teamNthreads team)

end

variable [CDouble D]

/-- The work share a loop starts with. -/
def Width.init (w : Width) (g : Globals D) (team : Option U32) (now : Int) (ws : GompWorkShare D)
    (start fin incr : Word) (sched : GompScheduleType) (chunkSize : Word) (regionId : RegionId) :
    Option (Globals D × GompWorkShare D) :=
  match w with
  | .long => gompLoopInit g team now ws start fin incr (initSched sched) (initChunk sched chunkSize) regionId
  | .ull up => gompLoopUllInit g team now ws up start fin incr (initSched sched) (initChunk sched chunkSize) regionId

/-- `bo_iter_*_next` or `bo_iter_ull_*_next`. -/
def Width.casNext (w : Width) (ws : GompWorkShare D) (team : Option U32) (it : CasIter) : Prog (Fin P) Unit Cells Local Ret :=
  match w with
  | .long => boIterNext it ws team
  | .ull _ => boIterUllNext it ws team

/-- What calls of the iterator of `ws->sched` return, by the threads in the order of the log. -/
def Width.Sequence (w : Width) (g : Globals D) (team : Option U32) (ws : GompWorkShare D) (log : List (Fin P × Ret)) :
    Prop :=
  match ws.sched with
  | .gfsStatic | .gfsAuto => Answers (w.staticNext ws team) () (fun _ => 0) log
  | .gfsDynamic | .fsCss | .boCss => Answers (w.dynamicNext ws) .idle ws.next log
  | .gfsGuided => Answers (w.guidedNext ws team) .idle ws.cells log
  | .fsBinlpt => Answers (gompIterBinlptNext g ws) () ws.threadStart log
  | .fsHss => Answers (gompIterHssNext g team ws) () ⟨ws.loopStart, ws.wremaining⟩ log
  | .fsFac2 => Answers (w.casNext ws team .fac2) .idle ws.cells log
  | .fsFss | .boFss => Answers (w.casNext ws team .fss) .idle ws.cells log
  | .fsTss | .fsTrap1 | .boTss => Answers (w.casNext ws team .tss) .idle ws.cells log
  | .fsTape | .fsTape3 | .boTape => Answers (w.casNext ws team .tape) .idle ws.cells log
  | _ => False

/-- What a loop hands out whose work share held `ws` before. -/
def Width.Obtained (w : Width) (g : Globals D) (team : Option U32) (now : Int) (ws : GompWorkShare D)
    (start fin incr : Word) (sched : GompScheduleType) (chunkSize : Word) (regionId : RegionId)
    (log : List (Fin P × Ret)) : Prop :=
  ∃ g' ws', w.init g team now ws start fin incr sched chunkSize regionId = some (g', ws') ∧ w.Sequence g' team ws' log

end Bosched
