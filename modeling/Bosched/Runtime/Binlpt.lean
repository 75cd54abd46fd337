/-
`binlpt_balance` of `utils.hpp` with the functions it calls. Every array access is checked: an
access at or past the allocated length is `none`, as is a division by zero.
-/
import Bosched.Runtime.Types

namespace Bosched

open Lib

/-- `a[i] = x`, checked. -/
def store {α : Type} (a : List α) (i : Nat) (x : α) : Option (List α) :=
  if i < a.length then some (a.set i x) else none

/-- `exch(a[i], a[j])`. -/
def exch {α : Type} (a : List α) (i j : Nat) : Option (List α) := do
  let x ← a[i]?
  let y ← a[j]?
  store (← store a i y) j x

/-- One comparison of `insertion`. -/
def insertionSwap (st : List U32 × List U32) (i j : Nat) : Option (List U32 × List U32) := do
  let (map, a) := st
  if (← a[j]?) < (← a[i]?) then
    return (← exch map i j, ← exch a i j)
  else
    return (map, a)

/-- `insertion(map, a, n)`: the exchange sort of `a[0..n)`, moving `map` along. -/
def insertion (map a : List U32) (n : Nat) : Option (List U32 × List U32) :=
  (List.range (n - 1)).foldlM (fun st i =>
    (List.range' (i + 1) (n - (i + 1))).foldlM (fun st j => insertionSwap st i j) st) (map, a)

/-- `sort(a, n, map)`: the sorted array and the map from new to old positions. -/
def sort (a : List U32) (n : Nat) (map : List U32) : Option (List U32 × List U32) := do
  let map ← (List.range n).foldlM (fun map i => store map i (BitVec.ofNat 32 i)) map
  let (map, a) ← insertion map a n
  return (a, map)

/-- `compute_cummulativesum(a, n)`. -/
def computeCummulativesum (a : List U32) (n : Nat) : Option (List U32) :=
  if n = 0 then none
  else (List.range (n - 1)).foldlM (fun sum i => do return sum ++ [(← sum[i]?) + (← a[i]?)]) [0]

/-- The inner loop of `compute_chunksizes`: the first `j` from the given one on whose prefix weight
exceeds the chunk weight, or `ntasks`. -/
def chunkEnd (workload : List U32) (chunkweight : U32) (i ntasks : Nat) : Nat → Nat → Option Nat
  | 0, j => some j
  | fuel + 1, j =>
    if j < ntasks then do
      if (← workload[j]?) - (← workload[i]?) > chunkweight then return j
      else chunkEnd workload chunkweight i ntasks fuel (j + 1)
    else some j

/-- The outer loop of `compute_chunksizes`, from chunk `k` at task `i`. -/
def chunkLoop (workload : List U32) (chunkweight : U32) (ntasks nchunks : Nat) :
    Nat → Nat → Nat → List U32 → Option (List U32)
  | 0, _, _, sizes => some sizes
  | fuel + 1, k, i, sizes =>
    if i < ntasks then do
      let j ← if k < nchunks - 1 then chunkEnd workload chunkweight i ntasks (ntasks - i) (i + 1) else some ntasks
      let sizes ← store sizes k (BitVec.ofNat 32 (j - i))
      chunkLoop workload chunkweight ntasks nchunks fuel (k + 1) j sizes
    else some sizes

/-- `compute_chunksizes(tasks, ntasks, nchunks)`. -/
def computeChunksizes (tasks : List U32) (ntasks nchunks : Nat) : Option (List U32) := do
  let workload ← computeCummulativesum tasks ntasks
  if nchunks = 0 then none
  else
    let chunkweight := ((← workload[ntasks - 1]?) + (← tasks[ntasks - 1]?)) / BitVec.ofNat 32 nchunks
    chunkLoop workload chunkweight ntasks nchunks ntasks 0 0 (List.replicate nchunks 0)

/-- `compute_chunks(tasks, ntasks, chunksizes, nchunks)`: the weight of each chunk. -/
def computeChunks (tasks chunksizes : List U32) (nchunks : Nat) : Option (List U32) := do
  let (chunks, _) ← (List.range nchunks).foldlM (fun (st : List U32 × Nat) i => do
    let size ← chunksizes[i]?
    (List.range size.toNat).foldlM (fun (st : List U32 × Nat) _ => do
      return (← store st.1 i ((← st.1[i]?) + (← tasks[st.2]?)), st.2 + 1)) st)
    (List.replicate nchunks 0, 0)
  return chunks

/-- The thread with the least load, the first such one. -/
def leastLoaded (load : List Word) (nthreads : Nat) : Option Nat :=
  (List.range' 1 (nthreads - 1)).foldlM (fun tid j => do
    if (← load[j]?) < (← load[tid]?) then return j else return tid) 0

/-- `binlpt_balance(tasks, ntasks, nthreads, max_chunks, taskmap)`. -/
def binlptBalance (tasks : List U32) (ntasks nthreads maxChunks : Nat) (taskmap : List U32) : Option (List U32) := do
  let chunksizes ← computeChunksizes tasks ntasks maxChunks
  let chunks ← computeChunks tasks chunksizes maxChunks
  let chunkoff ← computeCummulativesum chunksizes maxChunks
  let (chunks, sortmap) ← sort chunks maxChunks (List.replicate ntasks 0)
  let (taskmap, _) ← (List.range maxChunks).reverse.foldlM (fun (st : List U32 × List Word) i => do
    let weight ← chunks[i]?
    if weight = 0 then return st
    else
      let tid ← leastLoaded st.2 nthreads
      let c := (← sortmap[i]?).toNat
      let off := (← chunkoff[c]?).toNat
      let taskmap ← (List.range (← chunksizes[c]?).toNat).foldlM
        (fun map j => store map (off + j) (BitVec.ofNat 32 tid)) st.1
      return (taskmap, ← store st.2 tid ((← st.2[tid]?) + weight.setWidth 64)))
    (taskmap, List.replicate nthreads 0)
  return taskmap

/-- Three chunks of weights 8, 9 and 7: the heaviest goes to thread 0, the other two to thread 1. -/
example : binlptBalance [5, 3, 2, 7, 1, 1, 1, 4] 8 2 4 (List.replicate 8 0) = some [1, 1, 0, 0, 1, 1, 1, 1] := by
  decide

end Bosched
