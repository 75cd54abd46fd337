/-
The work shares of a team as `work.c` keeps them. A thread reaches the work share of its next construct through the
link in the one it has; the first to get there takes a work share from the cache of the team, initialises it and links
it in; the last to leave a construct puts the work share before it back. Nothing but the links keeps a work share from
being used for two constructs at once.
-/
import Bosched.Lib.Threads

namespace Bosched

open Lib

/-! ## The cache -/

/-- What the fields `next_ws` and `next_free`, which are one word of a work share, hold: `held` stands for the values of
a `gomp_ptrlock_t` that some thread has taken, which are not the address of anything. -/
inductive Link
  | null | held | ptr (ws : Nat)
  deriving DecidableEq, Repr

/-- The work shares `first, …, last` are linked, in this order. -/
def linkBlock (link : Nat → Link) (first last : Nat) : Nat → Link :=
  fun a => if first ≤ a ∧ a < last then .ptr (a + 1) else if a = last then .null else link a

/-- The links of all work shares, and the fields of the team its cache is made of. The addresses below `brk` have been
allocated. -/
structure SharePool where
  link : Nat → Link
  workShareListAlloc : Link
  workShareListFree : Link
  workShareChunk : Nat
  brk : Nat

/-- `gomp_new_team`: the first of the eight work shares of the team is in use. -/
def SharePool.gompNewTeam : SharePool where
  link := linkBlock (fun _ => .null) 1 7
  workShareListAlloc := .ptr 1
  workShareListFree := .null
  workShareChunk := 8
  brk := 8

/-- Where a thread is in `alloc_work_share`: about to read `work_share_list_alloc`; to move it on to the work share
after `ws`; to read `work_share_list_free`; to read `ws->next_free`; to cut the list off behind `ws`; to move
`work_share_list_alloc` behind `next`; to call `gomp_malloc`; about to return `ws`. -/
inductive AllocAt
  | start | pop (ws : Nat) | look | peek (ws : Nat) | cut (ws next : Nat) | take (next : Nat) | grow | got (ws : Nat)
  deriving DecidableEq, Repr

/-- The next step of `alloc_work_share`; `none` after its last one, and where it follows a pointer that is not valid. -/
def SharePool.allocWorkShare (p : SharePool) : AllocAt → Option (SharePool × AllocAt)
  | .start =>
    match p.workShareListAlloc with
    | .ptr ws => some (p, .pop ws)
    | .null => some (p, .look)
    | .held => none
  | .pop ws => some ({ p with workShareListAlloc := p.link ws }, .got ws)
  | .look =>
    match p.workShareListFree with
    | .ptr ws => some (p, .peek ws)
    | .null => some (p, .grow)
    | .held => none
  | .peek ws =>
    match p.link ws with
    | .ptr next => some (p, .cut ws next)
    | .null => some (p, .grow)
    | .held => none
  | .cut ws next => some ({ p with link := Function.update p.link ws .null }, .take next)
  | .take next => some ({ p with workShareListAlloc := p.link next }, .got next)
  | .grow =>
    let chunk := p.workShareChunk * 2
    let ws := p.brk
    some
      ({ link := linkBlock p.link (ws + 1) (ws + (chunk - 1))
         workShareListAlloc := .ptr (ws + 1)
         workShareListFree := p.workShareListFree
         workShareChunk := chunk
         brk := p.brk + chunk }, .got ws)
  | .got _ => none

/-- Where a thread is in `free_work_share`: about to read `work_share_list_free`; to link the work share to the `head`
it has read; to compare and swap. -/
inductive FreeAt
  | read | link (head : Link) | cas (head : Link)
  deriving DecidableEq, Repr

/-- The next step of `free_work_share`, and where the thread is after it, if not at its end. -/
def SharePool.freeWorkShare (p : SharePool) (ws : Nat) : FreeAt → SharePool × Option FreeAt
  | .read => (p, some (.link p.workShareListFree))
  | .link head => ({ p with link := Function.update p.link ws head }, some (.cas head))
  | .cas head =>
    if p.workShareListFree = head then ({ p with workShareListFree := .ptr ws }, none) else (p, some .read)

/-! ## Constructs -/

/-- A worksharing construct: what its initialisation writes to the work share, where a thread enters it, the atomic
steps of thread `i` inside over what the team shares and what the work share holds, where a thread calls the end
function, and which one that is: `gomp_work_share_end_nowait`, or `gomp_work_share_end`. -/
structure Work (G C A B E : Type) where
  init : C
  entry : B
  step : (i : Nat) → A → G → C → B → Option (G × C × B × Option E)
  ends : B → Bool
  nowait : Bool

/-- What the threads share: what the constructs share besides the work shares, the work shares, by their addresses, and
the barrier of the team. -/
structure TeamShares (G C : Type) where
  global : G
  content : Nat → C
  threadsCompleted : Nat → Nat
  pool : SharePool
  arrived : Nat
  generation : Nat

/-- Where a thread is: between two constructs; in `alloc_work_share`; with the work share it has initialised, about to
link it in; in the construct; in `free_work_share`; waiting for the barrier to get past a generation; about to let the
others go from it. -/
inductive ShareStatus (B : Type)
  | between | alloc (pc : AllocAt) | inited (ws : Nat) | inside (b : B) | freeing (pc : FreeAt) | waiting (g : Nat)
  | releasing

/-- A thread: how many constructs it has left behind, `thr->ts.work_share`, `thr->ts.last_work_share`, and where it
is. -/
structure ShareMember (B : Type) where
  pos : Nat
  workShare : Nat
  lastWorkShare : Option Nat
  status : ShareStatus B

/-- The thread is done with its construct. -/
def ShareMember.done {B : Type} (m : ShareMember B) : ShareMember B :=
  { m with pos := m.pos + 1, lastWorkShare := none, status := .between }

variable {G C A B E : Type}

namespace TeamShares

/-- A link is written. -/
def setLink (s : TeamShares G C) (a : Nat) (l : Link) : TeamShares G C :=
  { s with pool := { s.pool with link := Function.update s.pool.link a l } }

/-- `gomp_work_share_start` up to its call of `alloc_work_share`. A thread that finds the lock `next_ws` taken waits for
the pointer. -/
def gompWorkShareStart (W : Work G C A B E) (s : TeamShares G C) (m : ShareMember B) :
    Option (TeamShares G C × ShareMember B) :=
  match s.pool.link m.workShare with
  | .null =>
    some (s.setLink m.workShare .held, { m with lastWorkShare := some m.workShare, status := .alloc .start })
  | .held => none
  | .ptr ws => some (s, { m with lastWorkShare := some m.workShare, workShare := ws, status := .inside W.entry })

/-- `gomp_init_work_share` and the initialisation of the construct. -/
def gompInitWorkShare (s : TeamShares G C) (ws : Nat) (init : C) : TeamShares G C :=
  { s.setLink ws .null with
    content := Function.update s.content ws init
    threadsCompleted := Function.update s.threadsCompleted ws 0 }

/-- `gomp_work_share_init_done`. -/
def gompWorkShareInitDone (s : TeamShares G C) (ws : Nat) : Option Nat → TeamShares G C
  | none => s
  | some last => s.setLink last (.ptr ws)

/-- `gomp_work_share_end_nowait` up to its call of `free_work_share`. -/
def gompWorkShareEndNowait (nthreads : Nat) (s : TeamShares G C) (m : ShareMember B) :
    TeamShares G C × ShareMember B :=
  let completed := s.threadsCompleted m.workShare + 1
  let s := { s with threadsCompleted := Function.update s.threadsCompleted m.workShare completed }
  match m.lastWorkShare with
  | none => (s, m.done)
  | some _ => if completed = nthreads then (s, { m with status := .freeing .read }) else (s, m.done)

/-- `gomp_work_share_end` up to its call of `free_work_share`. -/
def gompWorkShareEnd (nthreads : Nat) (s : TeamShares G C) (m : ShareMember B) : TeamShares G C × ShareMember B :=
  let arrived := s.arrived + 1
  ({ s with arrived := arrived },
    { m with
      status :=
        if arrived = nthreads then if m.lastWorkShare.isSome then .freeing .read else .releasing
        else .waiting s.generation })

end TeamShares

/-- A step in the construct, or the steps of `work.c` around it. -/
inductive ShareAction (A : Type)
  | go | run (a : A)

/-- The steps of thread `i` in and around construct `W`. -/
def recycledStep (nthreads : Nat) (W : Work G C A B E) :
    Prog Nat (ShareAction A) (TeamShares G C) (ShareMember B) E := fun i a s m =>
  match a, m.status with
  | .go, .between => (s.gompWorkShareStart W m).map fun r => (r.1, r.2, none)
  | .go, .alloc (.got ws) => some (s.gompInitWorkShare ws W.init, { m with status := .inited ws }, none)
  | .go, .alloc pc =>
    (s.pool.allocWorkShare pc).map fun r => ({ s with pool := r.1 }, { m with status := .alloc r.2 }, none)
  | .go, .inited ws =>
    some (s.gompWorkShareInitDone ws m.lastWorkShare, { m with workShare := ws, status := .inside W.entry }, none)
  | .run a, .inside b =>
    (W.step i a s.global (s.content m.workShare) b).map fun r =>
      ({ s with global := r.1, content := Function.update s.content m.workShare r.2.1 },
        { m with status := .inside r.2.2.1 }, r.2.2.2)
  | .go, .inside b =>
    if W.ends b then
      let r := if W.nowait then s.gompWorkShareEndNowait nthreads m else s.gompWorkShareEnd nthreads m
      some (r.1, r.2, none)
    else none
  | .go, .freeing pc =>
    m.lastWorkShare.map fun last =>
      let r := s.pool.freeWorkShare last pc
      ({ s with pool := r.1 },
        match r.2 with
        | some pc => { m with status := .freeing pc }
        | none => if W.nowait then m.done else { m with status := .releasing },
        none)
  | .go, .waiting g => if s.generation = g + 1 then some (s, m.done, none) else none
  | .go, .releasing => some ({ s with arrived := 0, generation := s.generation + 1 }, m.done, none)
  | _, _ => none

/-- The steps of `nthreads` threads, one construct of the list after the other. -/
def recycledRun (nthreads : Nat) (body : List (Work G C A B E)) :
    Prog Nat (ShareAction A) (TeamShares G C) (ShareMember B) E := fun i a s m =>
  if i < nthreads then (body[m.pos]?).bind fun W => recycledStep nthreads W i a s m else none

/-- A team at its start: every thread has the first work share. -/
def recycledStart (global : G) (content : Nat → C) : Cfg Nat (TeamShares G C) (ShareMember B) E :=
  ⟨{ global := global
     content := content
     threadsCompleted := fun _ => 0
     pool := .gompNewTeam
     arrived := 0
     generation := 0 },
   fun _ => ⟨0, 0, none, .between⟩, []⟩

end Bosched
