/-
The ORDERED construct of `ordered.c` under the loops with a queue: `gomp_loop_ordered_dynamic_*` and
`gomp_loop_ordered_guided_*`. The threads of a team run one such loop after the other, with no barrier in between. They
share the work share of each loop, whose queue the lock protects, and one release semaphore for each thread.
-/
import Bosched.Iter.Sequence
import Bosched.Lib.Line
import Bosched.Lib.Ring
import Bosched.Lib.Threads

namespace Bosched

open Lib

/-! ## `ordered.c` -/

/-- The fields of a work share that an ordered loop reads and writes. `lock` is the thread that holds the lock,
`orderedOwner` is `none` for `-1`. -/
structure OrderedShare where
  next : Word
  orderedTeamIds : Nat → Nat
  orderedNumUsed : Nat
  orderedOwner : Option Nat
  orderedCur : Nat
  lock : Option Nat

section

variable (nthreads : Nat)

/-- `gomp_ordered_first` of thread `id`, and the thread whose release semaphore it posts to. -/
def gompOrderedFirst (id : Nat) (ws : OrderedShare) : OrderedShare × Option Nat :=
  if nthreads = 1 then (ws, none)
  else
    let index := wrap nthreads (ws.orderedCur + ws.orderedNumUsed)
    ({ ws with
        orderedTeamIds := Function.update ws.orderedTeamIds index id
        orderedNumUsed := ws.orderedNumUsed + 1 },
      if ws.orderedNumUsed = 0 then some id else none)

/-- `gomp_ordered_last`. -/
def gompOrderedLast (ws : OrderedShare) : OrderedShare × Option Nat :=
  if nthreads = 1 then (ws, none)
  else
    let ws := { ws with orderedOwner := none, orderedNumUsed := ws.orderedNumUsed - 1 }
    if 0 < ws.orderedNumUsed then
      let next := if ws.orderedCur + 1 = nthreads then 0 else ws.orderedCur + 1
      ({ ws with orderedCur := next }, some (ws.orderedTeamIds next))
    else (ws, none)

/-- `gomp_ordered_next` of thread `id`. -/
def gompOrderedNext (id : Nat) (ws : OrderedShare) : OrderedShare × Option Nat :=
  if nthreads = 1 then (ws, none)
  else
    let ws := { ws with orderedOwner := none }
    if ws.orderedNumUsed = 1 then (ws, some id)
    else
      -- a full queue already holds the thread where it belongs
      let ws :=
        if ws.orderedNumUsed < nthreads then
          let index := wrap nthreads (ws.orderedCur + ws.orderedNumUsed)
          { ws with orderedTeamIds := Function.update ws.orderedTeamIds index id }
        else ws
      let index := if ws.orderedCur + 1 = nthreads then 0 else ws.orderedCur + 1
      ({ ws with orderedCur := index }, some (ws.orderedTeamIds index))

end

/-! ## `loop.c` -/

/-- An ordered loop: its values, the position `gomp_loop_init` starts it at, and the iterator called under the lock,
which moves `ws->next` to the end of the chunk it returns. -/
structure OrderedLoop where
  loop : Loop
  first : Word
  iter : Word → Option Ret

/-- The iterations of a chunk. -/
def OrderedLoop.items (L : OrderedLoop) (c : Chunk) : List Int := (L.loop.chunk (c.1.toInt, c.2.toInt)).values

section

variable (L : OrderedLoop) (nthreads id : Nat) (ws : OrderedShare)

/-- What `gomp_loop_ordered_dynamic_start` and `gomp_loop_ordered_guided_start` do under the lock. -/
def gompLoopOrderedStart : Option (OrderedShare × Option Nat × Option (List Int)) := do
  match ← L.iter ws.next with
  | none => return (ws, none, none)
  | some c =>
    let (ws, post) := gompOrderedFirst nthreads id { ws with next := c.2 }
    return (ws, post, some (L.items c))

/-- What `gomp_loop_ordered_dynamic_next` and `gomp_loop_ordered_guided_next` do under the lock. -/
def gompLoopOrderedNext : Option (OrderedShare × Option Nat × Option (List Int)) := do
  match ← L.iter ws.next with
  | none =>
    let (ws, post) := gompOrderedLast nthreads ws
    return (ws, post, none)
  | some c =>
    let (ws, post) := gompOrderedNext nthreads id { ws with next := c.2 }
    return (ws, post, some (L.items c))

end

/-! ## The threads -/

/-- The state the threads share. -/
structure OrderedTeam where
  shares : Nat → OrderedShare
  /-- the counts of the semaphores `team->ordered_release` -/
  release : Nat → Nat

/-- The work share of loop `k` is written. -/
def OrderedTeam.put (s : OrderedTeam) (k : Nat) (ws : OrderedShare) : OrderedTeam :=
  { s with shares := Function.update s.shares k ws }

@[simp] theorem OrderedTeam.put_release (s : OrderedTeam) (k : Nat) (ws : OrderedShare) :
    (s.put k ws).release = s.release :=
  rfl

@[simp] theorem OrderedTeam.put_self (s : OrderedTeam) (k : Nat) (ws : OrderedShare) : (s.put k ws).shares k = ws :=
  Function.update_self ..

theorem OrderedTeam.put_of_ne (s : OrderedTeam) {j k : Nat} (h : j ≠ k) (ws : OrderedShare) :
    (s.put k ws).shares j = s.shares j := Function.update_of_ne h ..

/-- Where a thread is in `gomp_ordered_sync`: about to compare `ws->ordered_owner` with itself, to wait for its
semaphore, or to write `ws->ordered_owner`. -/
inductive SyncAt
  | check | wait | claim
  deriving DecidableEq

/-- Where a thread is in a loop, with the iterations of its chunk it has still to run: before it; in an iteration,
outside the ordered block; in `gomp_ordered_sync`, called by the ordered block of an iteration or, with `none`, by the
`*_next` function; in the ordered block; about to take the lock in the `*_next` function; with the lock, about to post
to a semaphore if it has to and to return what the iterator returned. -/
inductive OrderedStatus
  | outside
  | body (items : List Int)
  | sync (pc : SyncAt) (block : Option (Int × List Int))
  | inside (v : Int) (items : List Int)
  | synced
  | locked (post : Option Nat) (r : Option (List Int))

/-- A thread: how many of the loops it has left behind, and where it is in the next one. -/
structure OrderedMember where
  pos : Nat
  status : OrderedStatus

/-- An ordered block begins or ends, or an iteration goes without one. -/
inductive OrderedEvent
  | block (k : Nat) (b : Handling Int)
  | skip (k : Nat) (v : Int)
  deriving DecidableEq

inductive OrderedAction
  | go | order | skip
  deriving DecidableEq

/-- Where a thread goes from `gomp_ordered_sync`: into the ordered block of an iteration, or on in the `*_next`
function. -/
def orderedSynced (k : Nat) : Option (Int × List Int) → OrderedStatus × Option OrderedEvent
  | some (v, items) => (.inside v items, some (.block k (.begin v)))
  | none => (.synced, none)

/-- The steps of a thread in loop `L`; `order` and `skip` choose what an iteration does. -/
def orderedRun (L : OrderedLoop) (nthreads i : Nat) (a : OrderedAction) (s : OrderedTeam) (m : OrderedMember) :
    Option (OrderedTeam × OrderedMember × Option OrderedEvent) :=
  let ws := s.shares m.pos
  match a, m.status with
  | .go, .outside =>
    if ws.lock = none then
      (gompLoopOrderedStart L nthreads i ws).map fun (ws, post, r) =>
        (s.put m.pos { ws with lock := some i }, { m with status := .locked post r }, none)
    else none
  | .order, .body (v :: items) => some (s, { m with status := .sync .check (some (v, items)) }, none)
  | .skip, .body (v :: items) => some (s, { m with status := .body items }, some (.skip m.pos v))
  | .go, .body [] => some (s, { m with status := .sync .check none }, none)
  | .go, .sync pc block =>
    let past := orderedSynced m.pos block
    match pc with
    | .check =>
      if nthreads = 1 ∨ ws.orderedOwner = some i then some (s, { m with status := past.1 }, past.2)
      else some (s, { m with status := .sync .wait block }, none)
    | .wait =>
      if 0 < s.release i then
        some ({ s with release := Function.update s.release i (s.release i - 1) },
          { m with status := .sync .claim block }, none)
      else none
    | .claim => some (s.put m.pos { ws with orderedOwner := some i }, { m with status := past.1 }, past.2)
  | .go, .inside v items => some (s, { m with status := .body items }, some (.block m.pos (.finish v)))
  | .go, .synced =>
    if ws.lock = none then
      (gompLoopOrderedNext L nthreads i ws).map fun (ws, post, r) =>
        (s.put m.pos { ws with lock := some i }, { m with status := .locked post r }, none)
    else none
  | .go, .locked (some j) r =>
    some ({ s with release := Function.update s.release j (s.release j + 1) }, { m with status := .locked none r },
      none)
  | .go, .locked none r =>
    some (s.put m.pos { ws with lock := none },
      match r with
      | some items => { m with status := .body items }
      | none => ⟨m.pos + 1, .outside⟩, none)
  | _, _ => none

/-- The threads of a team run the loops one after the other. -/
def orderedStep (loops : List OrderedLoop) (nthreads : Nat) :
    Prog Nat OrderedAction OrderedTeam OrderedMember OrderedEvent :=
  fun i a s m => if i < nthreads then (loops[m.pos]?).bind fun L => orderedRun L nthreads i a s m else none

/-- A work share as `gomp_init_work_share` and `gomp_loop_init` leave it. -/
def OrderedShare.init (first : Word) : OrderedShare := ⟨first, fun _ => 0, 0, none, 0, none⟩

/-- The team before the first loop. -/
def orderedStart (loops : List OrderedLoop) : Cfg Nat OrderedTeam OrderedMember OrderedEvent :=
  ⟨⟨fun k => .init ((loops[k]?).elim 0 (·.first)), fun _ => 0⟩, fun _ => ⟨0, .outside⟩, []⟩

end Bosched
