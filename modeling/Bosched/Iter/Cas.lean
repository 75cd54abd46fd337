/-
The `bo_iter_*_next` family of `schedules.h`: iterators that claim a chunk by moving `ws->next`
with a compare-and-swap. Every atomic load, compare-and-swap and fetch-add is one step; what a
thread computes on its own variables between two of them belongs to the earlier one.

The signed and the unsigned iterators differ in how they read the loop (`View`). One invariant
serves all of them: `next` stands on a position of the loop, and a thread that is about to claim
holds a position and a non-zero chunk size. The zero a work share may be initialised with is
overwritten before any thread can claim with it, since such a work share has `barrier == next`.
-/
import Bosched.Lib.Progression
import Bosched.Lib.Threads
import Bosched.Runtime.LoopInit

namespace Bosched

open Lib

/-! ## The work share as the iterators see it -/

abbrev Chunk := Word × Word

/-- What a call returns: `some (pstart, pend)` with true, `none` with false. -/
abbrev Ret := Option Chunk

/-- The words of the work share that the iterators write. -/
structure Cells where
  next : Word
  barrier : Word
  chunkSize : Word
  count : Word
  deriving DecidableEq

/-- How an iterator reads the loop: its end, the remaining count `R` from a position, and the
position `chunk_size` iterations further. -/
structure View where
  fin : Word
  remaining : Word → Option Word
  advance : Word → Word → Word

section

variable {D : Type}

def GompWorkShare.cells (ws : GompWorkShare D) : Cells := ⟨ws.next, ws.barrier, ws.chunkSize, ws.count⟩

/-- The arithmetic of the `long` iterators. -/
def View.long (ws : GompWorkShare D) : View where
  fin := ws.fin
  remaining start := ldiv (ws.fin - start) ws.incr
  advance start chunk := start + chunk * ws.incr

/-- The arithmetic of the `unsigned long long` iterators. -/
def View.ull (ws : GompWorkShare D) : View where
  fin := ws.fin
  remaining start := if ws.mode = 0 then uldiv (ws.fin - start) ws.incr else uldiv (start - ws.fin) (-ws.incr)
  advance start chunk := if ws.mode = 0 then start + chunk * ws.incr else start + chunk * -ws.incr

end

/-- Where a thread stands in a call: the atomic operation it does next, with the variables it
still needs. -/
inductive Local
  | idle
  | loadNext (chunk : Word)
  | loadBarrier (start : Word)
  | loadChunk (start barrier : Word)
  | casChunk (start barrier chunk F nbarrier : Word)
  | reloadNext (chunk : Word)
  | reloadBarrier (start chunk : Word)
  | casBarrier (start barrier F nbarrier : Word)
  | reloadStart (barrier chunk : Word)
  | casNext (start chunk nend : Word)
  deriving DecidableEq

namespace View

variable (v : View)

/-- `nend` of a claim. -/
def nend (start chunk R : Word) : Word := if chunk < R then v.advance start chunk else v.fin

/-- The end of the loop body: compute `nend` and go for `next`. -/
def claim (start chunk : Word) : Option Local := do
  let R ← v.remaining start
  return .casNext start chunk (v.nend start chunk R)

/-- The head of the loop body of `fac2` and `fss`, up to its first compare-and-swap. -/
def batchTop (nthreads : Word) (batch : Word → Option Word) (start barrier chunk : Word) :
    Option (Local × Option Ret) :=
  if start = v.fin then some (.idle, some none)
  else if barrier = start then do
    let R ← v.remaining start
    let F ← batch R
    let PF := F * nthreads
    let (F, nbarrier) := if F ≤ 1 then (1, v.fin) else (F, v.advance barrier PF)
    return (.casChunk start barrier chunk F nbarrier, none)
  else do
    return (← v.claim start chunk, none)

/-- The loop body of `tss`, up to its compare-and-swap. -/
def ticketTop (start chunk : Word) : Option (Local × Option Ret) :=
  if start = v.fin then some (.idle, some none) else do return (← v.claim start chunk, none)

/-- The loop body of `tape`, up to its compare-and-swap. -/
def guidedTop (guide : Word → Word) (start : Word) : Option (Local × Option Ret) :=
  if start = v.fin then some (.idle, some none)
  else do
    let R ← v.remaining start
    return (← v.claim start (guide R), none)

variable {ι : Type}

/-- `fac2` and `fss`, with `batch` for the chunk size of the next batch. -/
def batchedNext (nthreads : Word) (batch : Word → Option Word) : Prog ι Unit Cells Local Ret
  | _, _, s, .idle => some (s, .loadBarrier s.next, none)
  | _, _, s, .loadBarrier start => some (s, .loadChunk start s.barrier, none)
  | _, _, s, .loadChunk start barrier => do return (s, ← v.batchTop nthreads batch start barrier s.chunkSize)
  | _, _, s, .casChunk start barrier chunk F nbarrier =>
    if s.chunkSize = chunk then some ({ s with chunkSize := F }, .casBarrier start barrier F nbarrier, none)
    else some (s, .reloadNext s.chunkSize, none)
  | _, _, s, .reloadNext chunk => some (s, .reloadBarrier s.next chunk, none)
  | _, _, s, .reloadBarrier start chunk => do return (s, ← v.batchTop nthreads batch start s.barrier chunk)
  | _, _, s, .casBarrier start barrier F nbarrier =>
    if s.barrier = barrier then do return ({ s with barrier := nbarrier }, ← v.claim start F, none)
    else some (s, .reloadStart s.barrier F, none)
  | _, _, s, .reloadStart barrier chunk => do return (s, ← v.batchTop nthreads batch s.next barrier chunk)
  | _, _, s, .casNext start _ nend =>
    if s.next = start then some ({ s with next := nend }, .idle, some (some (start, nend)))
    else some (s, .loadBarrier s.next, none)
  | _, _, _, .loadNext _ => none

/-- `tss`, with `chunkOf` for the chunk size of a ticket. -/
def ticketNext (chunkOf : Word → Word) : Prog ι Unit Cells Local Ret
  | _, _, s, .idle => some ({ s with count := s.count + 1 }, .loadNext (chunkOf s.count), none)
  | _, _, s, .loadNext chunk => do return (s, ← v.ticketTop s.next chunk)
  | _, _, s, .casNext start chunk nend =>
    if s.next = start then some ({ s with next := nend }, .idle, some (some (start, nend)))
    else do return (s, ← v.ticketTop s.next chunk)
  | _, _, _, _ => none

/-- `tape`, with `guide` for the chunk size at a remaining count. -/
def guidedNext (guide : Word → Word) : Prog ι Unit Cells Local Ret
  | _, _, s, .idle => do return (s, ← v.guidedTop guide s.next)
  | _, _, s, .casNext start _ nend =>
    if s.next = start then some ({ s with next := nend }, .idle, some (some (start, nend)))
    else do return (s, ← v.guidedTop guide s.next)
  | _, _, _, _ => none

end View

/-! ## The iterators -/

section

variable {D : Type} [CDouble D] {ι : Type}

/-- `F` of `fac2`. -/
def fac2Batch (param : D) (nthreads R : Word) : Option Word :=
  some (CDouble.toULong (CDouble.ofULong R / param / CDouble.ofULong nthreads))

/-- `F` of `fss`; `1 / R` is an integer division. -/
def fssBatch (param : D) (nthreads R : Word) : Option Word := do
  let temp := CDouble.ofULong nthreads * param / 2.0
  let b2 := CDouble.ofULong (← uldiv 1 R) * temp * temp
  let x := 2.0 + b2 + CDouble.sqrt (b2 * (b2 + 4.0))
  return CDouble.toULong ((CDouble.ofULong R / x) / CDouble.ofULong nthreads)

/-- `chunk_size` of `tss`. -/
def tssChunk (param : D) (f count : Word) : Word :=
  let delta := CDouble.toULong (1.0 / param)
  let chunk := f - count * delta
  if chunk < 1 then 1 else chunk

/-- `tape_min_k`. -/
def tapeMinK (_nthreads : Word) : Word := 1

/-- `chunk_size` of `tape`. -/
def tapeChunk (v : D) (nthreads R : Word) : Word :=
  let kMin := tapeMinK nthreads
  let T : Word := CDouble.toULong
    ((CDouble.ofULong R : D) / CDouble.ofULong nthreads + CDouble.ofULong kMin / 2.0)
  let K := CDouble.toULong (CDouble.ofULong T + v * v / 2.0 - v * CDouble.sqrt (CDouble.ofULong (2 * T) + v * v / 4.0))
  if K < kMin then kMin else K

variable (ws : GompWorkShare D) (nthreads : Word)

/-- `bo_iter_fac2_next`. -/
def boIterFac2Next : Prog ι Unit Cells Local Ret :=
  (View.long ws).batchedNext nthreads (fac2Batch ws.param nthreads)

/-- `bo_iter_fss_next`. -/
def boIterFssNext : Prog ι Unit Cells Local Ret :=
  (View.long ws).batchedNext nthreads (fssBatch ws.param nthreads)

/-- `bo_iter_tss_next`. -/
def boIterTssNext : Prog ι Unit Cells Local Ret :=
  (View.long ws).ticketNext (tssChunk ws.param ws.chunkSize)

/-- `bo_iter_tape_next`. -/
def boIterTapeNext : Prog ι Unit Cells Local Ret :=
  (View.long ws).guidedNext (tapeChunk ws.param nthreads)

/-- `bo_iter_ull_fac2_next`. -/
def boIterUllFac2Next : Prog ι Unit Cells Local Ret :=
  (View.ull ws).batchedNext nthreads (fac2Batch ws.param nthreads)

/-- `bo_iter_ull_fss_next`. -/
def boIterUllFssNext : Prog ι Unit Cells Local Ret :=
  (View.ull ws).batchedNext nthreads (fssBatch ws.param nthreads)

/-- `bo_iter_ull_tss_next`. -/
def boIterUllTssNext : Prog ι Unit Cells Local Ret :=
  (View.ull ws).ticketNext (tssChunk ws.param ws.chunkSize)

/-- `bo_iter_ull_tape_next`. -/
def boIterUllTapeNext : Prog ι Unit Cells Local Ret :=
  (View.ull ws).guidedNext (tapeChunk ws.param nthreads)

end

inductive CasIter
  | fac2 | fss | tss | tape
  deriving DecidableEq

section

variable {D : Type} [CDouble D] {ι : Type}

/-- The `bo_iter_*_next` of an iterator kind, called by the threads of `team`. -/
def boIterNext (it : CasIter) (ws : GompWorkShare D) (team : Option U32) : Prog ι Unit Cells Local Ret :=
  match it with
  | .fac2 => boIterFac2Next ws (teamNthreads team)
  | .fss => boIterFssNext ws (teamNthreads team)
  | .tss => boIterTssNext ws
  | .tape => boIterTapeNext ws (teamNthreads team)

/-- The `bo_iter_ull_*_next` of an iterator kind, called by the threads of `team`. -/
def boIterUllNext (it : CasIter) (ws : GompWorkShare D) (team : Option U32) : Prog ι Unit Cells Local Ret :=
  match it with
  | .fac2 => boIterUllFac2Next ws (teamNthreads team)
  | .fss => boIterUllFssNext ws (teamNthreads team)
  | .tss => boIterUllTssNext ws
  | .tape => boIterUllTapeNext ws (teamNthreads team)

end

/-- Every thread of a team before its first call. -/
def entry {D ι : Type} (ws : GompWorkShare D) : Cfg ι Cells Local Ret := ⟨ws.cells, fun _ => .idle, []⟩

/-- The chunks returned with true, oldest first. -/
def returned {ι : Type} (log : List (ι × Ret)) : List Chunk := log.filterMap (·.2)

theorem tssChunk_ne_zero {D : Type} [CDouble D] (param : D) (f count : Word) : tssChunk param f count ≠ 0 := by
  unfold tssChunk
  simp only
  split
  · decide
  · rename_i h
    intro h0
    rw [h0] at h
    exact h (by decide)

theorem tapeChunk_ne_zero {D : Type} [CDouble D] (v : D) (nthreads R : Word) : tapeChunk v nthreads R ≠ 0 := by
  unfold tapeChunk tapeMinK
  simp only
  split
  · decide
  · rename_i h
    intro h0
    rw [h0] at h
    exact h (by decide)

end Bosched
