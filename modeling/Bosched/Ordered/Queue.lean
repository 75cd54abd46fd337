/-
The queue of an ordered loop. `ordered_team_ids` holds the threads that have a chunk, in the order in which they were
dealt theirs, and exactly one release is about: posted or about to be posted to the thread at the head, taken by it, or
turned by it into the ownership of the construct (`Turn`).
-/
import Bosched.Ordered.Model

namespace Bosched

open Lib

/-! ## The circular queue -/

/-- The threads in `ordered_team_ids`, from `ordered_cur` on. -/
def OrderedShare.queue (n : Nat) (ws : OrderedShare) : List Nat :=
  ring n ws.orderedCur ws.orderedNumUsed ws.orderedTeamIds

section

variable {n i : Nat} {ws : OrderedShare}

@[simp] theorem OrderedShare.queue_length : (ws.queue n).length = ws.orderedNumUsed := ring_length

theorem wrap_cur_succ (hcur : ws.orderedCur < n) :
    (if ws.orderedCur + 1 = n then 0 else ws.orderedCur + 1) = wrap n (ws.orderedCur + 1) := by
  unfold wrap; split <;> split <;> omega

/-- What an operation of `ordered.c` leaves alone. -/
structure OrderedFrame (ws ws' : OrderedShare) : Prop where
  next : ws'.next = ws.next
  lock : ws'.lock = ws.lock

theorem gompOrderedFirst_frame (n i : Nat) (ws : OrderedShare) : OrderedFrame ws (gompOrderedFirst n i ws).1 := by
  unfold gompOrderedFirst
  split <;> exact ⟨rfl, rfl⟩

theorem gompOrderedLast_frame (n : Nat) (ws : OrderedShare) : OrderedFrame ws (gompOrderedLast n ws).1 := by
  unfold gompOrderedLast
  split
  · exact ⟨rfl, rfl⟩
  · dsimp only
    split <;> exact ⟨rfl, rfl⟩

theorem gompOrderedNext_frame (n i : Nat) (ws : OrderedShare) : OrderedFrame ws (gompOrderedNext n i ws).1 := by
  unfold gompOrderedNext
  split
  · exact ⟨rfl, rfl⟩
  · dsimp only
    split
    · exact ⟨rfl, rfl⟩
    · split <;> exact ⟨rfl, rfl⟩

/-- What an operation makes of the queue and the owner, and whom it posts to. -/
structure QueueStep (n : Nat) (r : OrderedShare × Option Nat) (q : List Nat) (post owner : Option Nat) : Prop where
  cur : r.1.orderedCur < n
  queue : r.1.queue n = q
  post : r.2 = post
  owner : r.1.orderedOwner = owner

/-- A thread joins the queue; it posts to itself when it is alone. -/
theorem gompOrderedFirst_queue (i : Nat) (ws : OrderedShare) (hn : n ≠ 1) (hcur : ws.orderedCur < n)
    (hused : ws.orderedNumUsed < n) :
    QueueStep n (gompOrderedFirst n i ws) (ws.queue n ++ [i]) (if ws.queue n = [] then some i else none)
      ws.orderedOwner := by
  have hempty : ws.queue n = [] ↔ ws.orderedNumUsed = 0 := by rw [← List.length_eq_zero_iff, OrderedShare.queue_length]
  unfold gompOrderedFirst
  rw [if_neg hn]
  refine ⟨hcur, ring_push _ _ hused i, ?_, rfl⟩
  simp only [hempty]

/-- The thread at the head leaves the queue and posts to the next one. -/
theorem gompOrderedLast_queue {q : List Nat} (hn : n ≠ 1) (hcur : ws.orderedCur < n) (hused : ws.orderedNumUsed ≤ n)
    (hq : ws.queue n = i :: q) : QueueStep n (gompOrderedLast n ws) q q.head? none := by
  obtain ⟨m, hm⟩ : ∃ m, ws.orderedNumUsed = m + 1 := by
    have hlen : ws.orderedNumUsed = (i :: q).length := by rw [← hq, OrderedShare.queue_length]
    exact ⟨_, hlen⟩
  unfold OrderedShare.queue at hq
  rw [hm, ring_pop hcur (by omega)] at hq
  cases hq
  unfold gompOrderedLast
  rw [if_neg hn]
  simp only [hm, Nat.add_sub_cancel, wrap_cur_succ hcur]
  have hlt : wrap n (ws.orderedCur + 1) < n := wrap_lt (by omega)
  cases m with
  | zero => exact ⟨hcur, rfl, rfl, rfl⟩
  | succ m =>
    rw [if_pos (Nat.succ_pos m)]
    refine ⟨hlt, rfl, ?_, rfl⟩
    rw [ring_pop hlt (by omega)]
    rfl

/-- The thread at the head moves to the end of the queue and posts to the next one, which may be itself. -/
theorem gompOrderedNext_queue (ws : OrderedShare) {q : List Nat} (hn : n ≠ 1) (hcur : ws.orderedCur < n)
    (hused : ws.orderedNumUsed ≤ n)
    (hq : ws.queue n = i :: q) : QueueStep n (gompOrderedNext n i ws) (q ++ [i]) (q ++ [i]).head? none := by
  obtain ⟨m, hm⟩ : ∃ m, ws.orderedNumUsed = m + 1 := by
    have hlen : ws.orderedNumUsed = (i :: q).length := by rw [← hq, OrderedShare.queue_length]
    exact ⟨_, hlen⟩
  have hlt : wrap n (ws.orderedCur + 1) < n := wrap_lt (by omega)
  unfold gompOrderedNext
  rw [if_neg hn]
  dsimp only
  have hadv := wrap_cur_succ hcur
  unfold OrderedShare.queue at hq
  rcases Nat.eq_zero_or_pos m with rfl | hpos
  · -- the thread is alone in the queue
    rw [hm, ring_one hcur] at hq
    obtain ⟨rfl, rfl⟩ := List.cons.inj hq
    rw [if_pos hm]
    exact ⟨hcur, by rw [hm]; exact ring_one hcur, rfl, rfl⟩
  · rw [if_neg (by omega)]
    by_cases hfull : ws.orderedNumUsed < n
    · rw [if_pos hfull, hadv]
      -- the entry written behind the last one becomes the last of the queue that starts one later
      have hpush := ring_push ws.orderedCur ws.orderedTeamIds hfull i
      rw [ring_pop hcur hfull, hq, List.cons_append] at hpush
      obtain ⟨-, hqueue⟩ := List.cons.inj hpush
      refine ⟨hlt, hqueue, ?_, rfl⟩
      rw [← hqueue, hm, ring_pop hlt (by omega)]
      rfl
    · rw [if_neg hfull, hadv]
      have hn' : ws.orderedNumUsed = n := by omega
      rw [hn'] at hq
      have hqueue := ring_full hcur hq
      refine ⟨hlt, by rw [← hqueue]; simp only [OrderedShare.queue, hn'], ?_, rfl⟩
      obtain ⟨p, rfl⟩ : ∃ p, n = p + 1 := ⟨n - 1, by omega⟩
      rw [← hqueue, ring_pop hlt (by omega)]
      rfl

end

/-! ## What a thread has -/

/-- The iterations of its chunk that a thread has still to run; `none` where it has no chunk. -/
def OrderedStatus.items : OrderedStatus → Option (List Int)
  | .outside => none
  | .body items => some items
  | .sync _ block => some (block.elim [] fun b => b.1 :: b.2)
  | .inside _ items => some items
  | .synced => some []
  | .locked _ r => r

/-- The thread it is about to post to. -/
def OrderedStatus.post : OrderedStatus → Option Nat
  | .locked post _ => post
  | _ => none

/-- It has the lock. -/
def OrderedStatus.HoldsLock : OrderedStatus → Prop
  | .locked _ _ => True
  | _ => False

/-- It waits for its semaphore. -/
def OrderedStatus.Waits : OrderedStatus → Prop
  | .sync .wait _ => True
  | _ => False

/-- It has taken the release it waited for, and is not yet the owner. -/
def OrderedStatus.Claims : OrderedStatus → Prop
  | .sync .claim _ => True
  | _ => False

/-- It has come through `gomp_ordered_sync`. -/
def OrderedStatus.Past : OrderedStatus → Prop
  | .inside _ _ | .synced => True
  | _ => False

instance (st : OrderedStatus) : Decidable st.Claims :=
  match st with
  | .outside | .body _ | .sync .check _ | .sync .wait _ | .inside _ _ | .synced | .locked _ _ =>
    .isFalse (fun h => h)
  | .sync .claim _ => .isTrue trivial

end Bosched
