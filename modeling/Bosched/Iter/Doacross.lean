/-
Doacross loops (`ordered.c`): a loop nest whose outermost loop is shared out by
`gomp_iter_dynamic_next`, with `GOMP_doacross_post` at the end of every iteration and
`GOMP_doacross_wait` for earlier ones. Posts and waits meet in one cell of `doacross->array` for
each `doacross->chunk_size` outer iterations. Every load and store of a cell is one step.

An iteration is given by its number in the order of the nest; it counts as posted from the store
that shows it, in a flattened cell, and from the call on where the cell has a word per dimension.
-/
import Bosched.Iter.Css
import Bosched.Lib.LoopNest

namespace Bosched

open Lib

/-! ## `gomp_doacross_init` -/

/-- `struct gomp_doacross_work_share`, without its array. -/
structure Doacross where
  chunkSize : Nat
  ncounts : Nat
  flattened : Bool
  shiftCounts : List Nat

/-- `this_bits`: the bit length of `count - 1`, and at least one bit. -/
def thisBits (count : Nat) : Nat := if count = 1 then 1 else Nat.log2 (count - 1) + 1

/-- `num_bits` after one more count; past `MAX_COLLAPSED_BITS` it stays there. -/
def addBits (numBits count : Nat) : Nat :=
  if numBits ≤ 64 then
    if numBits + thisBits count ≤ 64 then numBits + thisBits count else 65
  else numBits

/-- `shift_counts`: the innermost component has shift zero. -/
def shiftCounts (counts : List Nat) : List Nat :=
  (counts.foldr (fun count acc => (acc.2 :: acc.1, acc.2 + thisBits count)) (([] : List Nat), 0)).1

/-- `gomp_doacross_init`: the new `ws->doacross`, where `none` is `NULL`. -/
def gompDoacrossInit (team : Option U32) (counts : List Nat) (chunkSize : Nat) : Option Doacross :=
  if team = none ∨ team = some 1 then none
  else if 0 ∈ counts then none
  else some ⟨chunkSize, counts.length, counts.foldl addBits 0 ≤ 64, shiftCounts counts⟩

/-- The initialisation in `gomp_loop_doacross_dynamic_start`. -/
def gompLoopDoacrossDynamicInit {D : Type} [CDouble D] (g : Globals D) (team : Option U32) (now : Int)
    (ws : GompWorkShare D) (counts : List Nat) (chunkSize : Nat) :
    Option (Globals D × GompWorkShare D × Option Doacross) := do
  let (g, ws) ← gompLoopInit g team now ws 0 (BitVec.ofNat 64 counts.headI) 1 .gfsDynamic (BitVec.ofNat 64 chunkSize) 0
  return (g, ws, gompDoacrossInit team counts chunkSize)

/-! ## Posts and waits -/

/-- The shared words: `ws->next` and the cells, by entry and dimension. -/
structure DoaState where
  next : Word
  cells : Nat → Nat → Word

inductive DoaLocal
  | taking (d : DynLocal)
  | body (r hi : Nat)
  | postFlat (r hi : Nat)
  | postDims (r hi k : Nat)
  | postStore (r hi k : Nat)
  | waitFlat (r hi t : Nat)
  | waitDims (r hi t k : Nat)
  deriving DecidableEq

/-- In the body of an iteration a thread may wait for iteration `t`; any other action moves on. -/
inductive DoaAct
  | run
  | wait (t : Nat)
  deriving DecidableEq

inductive DoaEvent
  | returned (r : Ret)
  | posted (r : Nat)
  | waited (t : Nat)
  deriving DecidableEq

/-- `flattened`: the components of an iteration in one word. -/
def flatten (shiftCounts it : List Nat) : Word :=
  (it.zip shiftCounts).foldl (fun acc x => acc ||| (BitVec.ofNat 64 x.1 <<< x.2)) 0

section

variable {D : Type} (ws : GompWorkShare D) (counts : List Nat) (doa : Option Doacross)

/-- Iterations of the inner loops in one iteration of the outermost. -/
def innerTrip : Nat := counts.tail.prod

/-- `counts[0] / doacross->chunk_size`. -/
def entOf (d : Doacross) (r : Nat) : Nat := r / innerTrip counts / d.chunkSize

/-- The word a post leaves in dimension `k` of its cell. -/
def postWord (d : Doacross) (r k : Nat) : Word :=
  if d.flattened then flatten d.shiftCounts (vec counts r) + 1
  else BitVec.ofNat 64 ((vec counts r).getD k 0) + 1

/-- A store to a cell. -/
def DoaState.store (s : DoaState) (ent k : Nat) (w : Word) : DoaState :=
  { s with cells := fun e j => if e = ent ∧ j = k then w else s.cells e j }

/-- After an iteration: the next one of the chunk, or the next chunk. -/
def nextIteration (r hi : Nat) : DoaLocal :=
  if r + 1 < hi * innerTrip counts then .body (r + 1) hi else .taking .idle

/-- After a call of `gomp_iter_dynamic_next`. -/
def afterTake (d : DynLocal) : Option Ret → DoaLocal
  | some (some (lo, hi)) => if innerTrip counts = 0 then .taking d else .body (lo.toNat * innerTrip counts) hi.toNat
  | _ => .taking d

/-- After a post is done with dimension `k`: the dimensions below it are left. -/
def afterDim (r hi : Nat) : Nat → DoaLocal
  | 0 => nextIteration counts r hi
  | k + 1 => .postDims r hi k

variable {ι : Type}

/-- A thread of a doacross loop. -/
def doacrossThread : Prog ι DoaAct DoaState DoaLocal DoaEvent
  | i, .run, s, .taking d => do
    let (next, d', e) ← gompIterDynamicNext ws i () s.next d
    return ({ s with next := next }, afterTake counts d' e, e.map .returned)
  | _, .run, s, .body r hi =>
    match doa with
    | none => some (s, nextIteration counts r hi, some (.posted r))
    | some d =>
      if d.flattened then
        if s.cells (entOf counts d r) 0 = postWord counts d r 0 then
          some (s, nextIteration counts r hi, some (.posted r))
        else some (s, .postFlat r hi, none)
      else some (s, afterDim counts r hi d.ncounts, some (.posted r))
  | _, .wait t, s, .body r hi =>
    -- a wait is for an iteration that comes earlier in the nest
    if t < r then
      match doa with
      | none => some (s, .body r hi, some (.waited t))
      | some d => if d.flattened then some (s, .waitFlat r hi t, none) else some (s, .waitDims r hi t 0, none)
    else none
  | _, .run, s, .postFlat r hi => do
    let d ← doa
    return (s.store (entOf counts d r) 0 (postWord counts d r 0), nextIteration counts r hi, some (.posted r))
  | _, .run, s, .postDims r hi k => do
    let d ← doa
    if s.cells (entOf counts d r) k ≠ postWord counts d r k then return (s, .postStore r hi k, none)
    else return (s, afterDim counts r hi k, none)
  | _, .run, s, .postStore r hi k => do
    let d ← doa
    return (s.store (entOf counts d r) k (postWord counts d r k), afterDim counts r hi k, none)
  | _, .run, s, .waitFlat r hi t => do
    let d ← doa
    if flatten d.shiftCounts (vec counts t) < s.cells (entOf counts d t) 0 then
      return (s, .body r hi, some (.waited t))
    else return (s, .waitFlat r hi t, none)
  | _, .run, s, .waitDims r hi t k => do
    let d ← doa
    let thisv := BitVec.ofNat 64 ((vec counts t).getD k 0) + 1
    let cur := s.cells (entOf counts d t) k
    if thisv < cur then return (s, .body r hi, some (.waited t))
    else if thisv > cur then return (s, .waitDims r hi t 0, none)
    else if k + 1 = d.ncounts then return (s, .body r hi, some (.waited t))
    else return (s, .waitDims r hi t (k + 1), none)
  | _, .wait _, _, _ => none

/-- Every thread of the team before its first call; the cells are zeroed. -/
def doaEntry : Cfg ι DoaState DoaLocal DoaEvent := ⟨⟨ws.next, fun _ _ => 0⟩, fun _ => .taking .idle, []⟩

end

/-- Iteration `t` has been posted. -/
def Posted {ι : Type} (log : List (ι × DoaEvent)) (t : Nat) : Prop := ∃ i, (i, DoaEvent.posted t) ∈ log

/-- Every wait that returned did so after the iteration it waited for had been posted. -/
def WaitsSafe {ι : Type} (log : List (ι × DoaEvent)) : Prop :=
  ∀ pre i t post, log = pre ++ (i, .waited t) :: post → Posted pre t

/-! ## Packed iterations -/

theorem le_two_pow_thisBits (k : Nat) : k ≤ 2 ^ thisBits k := by
  unfold thisBits
  split
  · rename_i h
    rw [h]; decide
  · have := Nat.lt_log2_self (n := k - 1)
    omega

theorem addBits_sum : ∀ (counts : List Nat) (num : Nat), counts.foldl addBits num ≤ 64 →
    num + (counts.map thisBits).sum ≤ 64
  | [], num, h => by simpa using h
  | k :: ks, num, h => by
    have ih := addBits_sum ks (addBits num k) h
    rw [List.map_cons, List.sum_cons]
    unfold addBits at ih
    split at ih
    · split at ih <;> omega
    · omega

theorem shiftCounts_cons (k : Nat) (ks : List Nat) :
    shiftCounts (k :: ks) = (ks.map thisBits).sum :: shiftCounts ks := by
  have hsnd : ∀ ks : List Nat, (ks.foldr (fun count acc => (acc.2 :: acc.1, acc.2 + thisBits count))
      (([] : List Nat), 0)).2 = (ks.map thisBits).sum := by
    intro ks
    induction ks with
    | nil => rfl
    | cons k ks ih => rw [List.foldr_cons, ih, List.map_cons, List.sum_cons, Nat.add_comm]
  unfold shiftCounts
  rw [List.foldr_cons, hsnd]

/-- Or-ing shifted components into a word whose low bits are free adds the packed number. -/
theorem flatten_foldl : ∀ (counts : List Nat) {r : Nat} {acc : Word} {a : Nat}, r < counts.prod →
    acc.toNat = a * 2 ^ (counts.map thisBits).sum → (a + 1) * 2 ^ (counts.map thisBits).sum ≤ 2 ^ 64 →
    (((vec counts r).zip (shiftCounts counts)).foldl (fun acc x => acc ||| (BitVec.ofNat 64 x.1 <<< x.2)) acc).toNat =
      acc.toNat + packed thisBits counts r
  | [], r, acc, a, _, _, _ => rfl
  | k :: ks, r, acc, a, hr, ha, hbound => by
    rw [List.prod_cons] at hr
    have hpos : 0 < ks.prod := Nat.pos_of_ne_zero fun h0 => by rw [h0] at hr; omega
    have hq : r / ks.prod < 2 ^ thisBits k :=
      lt_of_lt_of_le (Nat.div_lt_of_lt_mul (by rw [mul_comm]; exact hr)) (le_two_pow_thisBits k)
    rw [List.map_cons, List.sum_cons, pow_add] at ha hbound
    rw [shiftCounts_cons, vec, List.zip_cons_cons, List.foldl_cons]
    have hS : 0 < 2 ^ (ks.map thisBits).sum := Nat.two_pow_pos _
    have hle : (r / ks.prod + 1) * 2 ^ (ks.map thisBits).sum ≤ 2 ^ thisBits k * 2 ^ (ks.map thisBits).sum :=
      Nat.mul_le_mul_right _ hq
    have hone : 2 ^ thisBits k * 2 ^ (ks.map thisBits).sum ≤ (a + 1) * (2 ^ thisBits k * 2 ^ (ks.map thisBits).sum) :=
      Nat.le_mul_of_pos_left _ (Nat.succ_pos a)
    have hsmall : r / ks.prod * 2 ^ (ks.map thisBits).sum < 2 ^ thisBits k * 2 ^ (ks.map thisBits).sum :=
      Nat.mul_lt_mul_of_pos_right hq hS
    have hr64 : r / ks.prod < 2 ^ 64 := by
      have : r / ks.prod ≤ r / ks.prod * 2 ^ (ks.map thisBits).sum := Nat.le_mul_of_pos_right _ hS
      omega
    -- the shifted component, and the word with it
    have hshift : (BitVec.ofNat 64 (r / ks.prod) <<< (ks.map thisBits).sum).toNat =
        r / ks.prod * 2 ^ (ks.map thisBits).sum := by
      rw [BitVec.toNat_shiftLeft, BitVec.toNat_ofNat, Nat.mod_eq_of_lt hr64, Nat.shiftLeft_eq]
      exact Nat.mod_eq_of_lt (by omega)
    have hor : (acc ||| (BitVec.ofNat 64 (r / ks.prod) <<< (ks.map thisBits).sum)).toNat =
        acc.toNat + r / ks.prod * 2 ^ (ks.map thisBits).sum := by
      rw [BitVec.toNat_or, hshift, ha, ← pow_add, mul_comm a, ← Nat.two_pow_add_eq_or_of_lt]
      rw [pow_add]; exact hsmall
    have hmul : acc.toNat + r / ks.prod * 2 ^ (ks.map thisBits).sum =
        (a * 2 ^ thisBits k + r / ks.prod) * 2 ^ (ks.map thisBits).sum := by rw [ha]; ring
    rw [flatten_foldl ks (a := a * 2 ^ thisBits k + r / ks.prod) (Nat.mod_lt r hpos) (by rw [hor, hmul]) ?_, hor, packed,
      Nat.add_assoc]
    calc (a * 2 ^ thisBits k + r / ks.prod + 1) * 2 ^ (ks.map thisBits).sum
        = a * (2 ^ thisBits k * 2 ^ (ks.map thisBits).sum) + (r / ks.prod + 1) * 2 ^ (ks.map thisBits).sum := by ring
      _ ≤ a * (2 ^ thisBits k * 2 ^ (ks.map thisBits).sum) + 2 ^ thisBits k * 2 ^ (ks.map thisBits).sum := by omega
      _ = (a + 1) * (2 ^ thisBits k * 2 ^ (ks.map thisBits).sum) := by ring
      _ ≤ 2 ^ 64 := hbound

/-- A flattened iteration is its packed number. -/
theorem toNat_flatten {counts : List Nat} {r : Nat} (hr : r < counts.prod) (hbits : counts.foldl addBits 0 ≤ 64) :
    (flatten (shiftCounts counts) (vec counts r)).toNat = packed thisBits counts r := by
  have hsum := addBits_sum counts 0 hbits
  have hpow : 2 ^ (counts.map thisBits).sum ≤ 2 ^ 64 := Nat.pow_le_pow_right (by decide) (by omega)
  unfold flatten
  rw [flatten_foldl counts (a := 0) hr (by simp) (by omega)]
  simp

end Bosched
