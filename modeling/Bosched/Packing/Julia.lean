/-
`binlpt_balance` of the tuner, `simulation/binlpt_utils.jl`, and `classic_mode`, which stores its task map.
Arrays are indexed from 1, and an access out of bounds is an error, as is a value that does not fit its
element type.
-/
import Bosched.State.File
import Mathlib.Data.List.Sort

namespace Bosched

open Lib

/-- Julia's `Float64`: the arithmetic of a `double` with `<=`, `==`, and the total order of `sort`. -/
class JuliaFloat (D : Type) extends CDouble D where
  le : D → D → Bool
  eq : D → D → Bool
  isless : D → D → Bool

namespace Julia

/-- `a[i]`. -/
def get {α : Type} (a : List α) (i : Nat) : Option α := if i = 0 then none else a[i - 1]?

/-- `a[i] = x`. -/
def set {α : Type} (a : List α) (i : Nat) (x : α) : Option (List α) := if i = 0 then none else store a (i - 1) x

/-- `offset_cumsum(arr)`. -/
def offsetCumsum {α : Type} [Add α] (zero : α) (arr : List α) : Option (List α) :=
  (List.range' 2 (arr.length - 1)).foldlM (fun sum i => do set sum i ((← get sum (i - 1)) + (← get arr (i - 1))))
    (List.replicate arr.length zero)

variable {D : Type} [JuliaFloat D]

/-- The inner loop of `compute_chunksizes`. -/
def chunkEnd (workload : List D) (chunkweight : D) (i ntasks : Nat) : Nat → Nat → Option Nat
  | 0, j => some j
  | fuel + 1, j =>
    if j ≤ ntasks then do
      if JuliaFloat.le chunkweight ((← get workload j) - (← get workload i)) then return j
      else chunkEnd workload chunkweight i ntasks fuel (j + 1)
    else some j

/-- The outer loop of `compute_chunksizes`, from chunk `k` at task `i`. -/
def chunkLoop (workload : List D) (chunkweight : D) (ntasks : Nat) : Nat → Nat → Nat → List Nat → Option (List Nat)
  | 0, _, _, chunksizes => some chunksizes
  | fuel + 1, k, i, chunksizes =>
    if i ≤ ntasks then do
      let j ← chunkEnd workload chunkweight i ntasks (ntasks - i) (i + 1)
      let chunksizes ← set chunksizes k (j - i)
      chunkLoop workload chunkweight ntasks fuel (k + 1) j chunksizes
    else some chunksizes

/-- `compute_chunksizes(tasks, ntasks, nchunks)`. -/
def computeChunksizes (tasks : List D) (ntasks nchunks : Nat) : Option (List Nat) := do
  let workload ← offsetCumsum 0.0 tasks
  let chunkweight := ((← workload.getLast?) + (← tasks.getLast?)) / CDouble.ofLong (BitVec.ofNat 64 nchunks)
  chunkLoop workload chunkweight ntasks ntasks 1 1 (List.replicate nchunks 0)

/-- `compute_chunkweights(tasks, ntasks, chunksizes, nchunks)`. -/
def computeChunkweights (tasks : List D) (chunksizes : List Nat) (nchunks : Nat) : Option (List D) := do
  let (chunks, _) ← (List.range' 1 nchunks).foldlM (fun (st : List D × Nat) i => do
    let size ← get chunksizes i
    (List.range' 1 size).foldlM (fun (st : List D × Nat) _ => do
      return (← set st.1 i ((← get st.1 i) + (← get tasks st.2)), st.2 + 1)) st)
    (List.replicate nchunks 0.0, 1)
  return chunks

/-- The thread with the least load, the first such one. -/
def leastLoaded (load : List D) (P : Nat) : Option Nat :=
  (List.range' 2 (P - 1)).foldlM (fun tid j => do
    if CDouble.lt (← get load j) (← get load tid) then return j else return tid) 1

/-- `!isless(chunks[b], chunks[a])`. -/
def inOrder (chunks : List D) (a b : Nat) : Bool :=
  match get chunks a, get chunks b with
  | some x, some y => !JuliaFloat.isless y x
  | _, _ => true

/-- `sortperm(chunks)`, a stable sort. -/
def sortperm (chunks : List D) : List Nat :=
  (List.range' 1 chunks.length).insertionSort fun a b => inOrder chunks a b = true

/-- A chunk that was accounted to `load[tid]`: the tasks from `off + 1` to `off + size`. -/
structure Assignment where
  off : Nat
  size : Nat
  tid : Nat

/-- The task at position `j`, counted from 0, belongs to the chunk. -/
def Assignment.Holds (a : Assignment) (j : Nat) : Prop := a.off ≤ j ∧ j < a.off + a.size

/-- The variables of the packing loop, and the assignments it has made so far. -/
structure Packing (D : Type) where
  taskmap : List Nat
  load : List D
  assigned : List Assignment

/-- An element of a `UInt16` array. -/
def toUInt16 (x : Nat) : Option Nat := if x < 2 ^ 16 then some x else none

/-- `taskmap[off + j] = tid` for `j = 1:size`. -/
def storeChunk (taskmap : List Nat) (off size tid : Nat) : Option (List Nat) :=
  (List.range' 1 size).foldlM (fun map j => do set map (off + j) (← toUInt16 tid)) taskmap

/-- The body of the packing loop, for the chunk `c = sortmap[i]`. -/
def packChunk (chunks : List D) (chunksizes chunkoff : List Nat) (P : Nat) (st : Packing D) (c : Nat) :
    Option (Packing D) := do
  let weight ← get chunks c
  if JuliaFloat.eq weight 0.0 then return st
  else
    let tid ← leastLoaded st.load P
    let size ← get chunksizes c
    let off ← get chunkoff c
    let taskmap ← storeChunk st.taskmap off size tid
    let load ← set st.load tid ((← get st.load tid) + weight)
    return ⟨taskmap, load, st.assigned ++ [⟨off, size, tid⟩]⟩

/-- `loads[taskmap[i]] += tasks[i]` for `i = 1:length(tasks)`. -/
def taskLoads (tasks : List D) (taskmap : List Nat) (P : Nat) : Option (List D) :=
  (List.range' 1 tasks.length).foldlM (fun loads i => do
    let t ← get taskmap i
    set loads t ((← get loads t) + (← get tasks i))) (List.replicate P 0.0)

/-- `binlpt_balance(tasks, P, K_max)`; it returns the `taskmap`. -/
def binlptBalance (tasks : List D) (P Kmax : Nat) : Option (Packing D) := do
  let chunksizes ← computeChunksizes tasks tasks.length Kmax
  let chunks ← computeChunkweights tasks chunksizes Kmax
  let chunkoff ← offsetCumsum 0 chunksizes
  let packing ← (sortperm chunks).reverse.foldlM (packChunk chunks chunksizes chunkoff P)
    ⟨List.replicate tasks.length 0, List.replicate P 0.0, []⟩
  let _ ← taskLoads tasks packing.taskmap P
  return packing

/-! ## `classic_mode` -/

/-- What the workload profile file holds for a loop: `mean`, `stdm`, `compute_workload_profile` and what
`stretch` makes of it. -/
structure Profile (D : Type) where
  mean : D
  std : D
  prof : List D
  stretched : List U32

/-- The `binlpt` entry as it is written. -/
def Packing.json (packing : Packing D) : List U32 := packing.taskmap.map (BitVec.ofNat 32)

/-- One iteration of `classic_mode`. -/
def classicLoop (profile : RegionId → Option (Profile D)) (h : D) (P : Nat) (l : LoopJson D) : Option (LoopJson D) := do
  let id ← l.id
  if id = 0#64 then return l
  let n ← l.n
  if n = 0#64 then return l
  let arr ← profile id
  let packing ← binlptBalance arr.prof P (2 * P)
  return { l with params := some {
    css := some (h / arr.std), fss := some (arr.mean / arr.std), tape := none, tss := none
    binlpt := some packing.json, hss := some arr.stretched } }

/-- `classic_mode`. -/
def classicMode (profile : RegionId → Option (Profile D)) (h : D) (P : Nat) (loops : List (LoopJson D)) :
    Option (List (LoopJson D)) :=
  loops.mapM (classicLoop profile h P)

end Julia

end Bosched
