/-
The team always gets through its ordered loops. Every step lowers a rank, so no run goes on for ever; and as long as a
thread has a loop before it some thread can step, for the release of each loop is with the head of its queue.
-/
import Bosched.Lib.Halting
import Bosched.Ordered.Order

namespace Bosched

open Lib

/-! ## Every step lowers a rank -/

/-- How far a thread is from the end of its loop, and of the steps the lock and the semaphores make it take. -/
def OrderedStatus.rank : OrderedStatus → Nat
  | .outside => 3
  | .body items => 8 + 8 * items.length
  | .sync pc block =>
    let behind := match pc with
      | .check => 3
      | .wait => 2
      | .claim => 1
    block.elim (4 + behind) fun b => 9 + 8 * b.2.length + behind
  | .inside _ items => 9 + 8 * items.length
  | .synced => 4
  | .locked post r => (if post = none then 1 else 2) + r.elim 0 fun items => 8 + 8 * items.length

/-- How far a thread is from the end of the loops. -/
def OrderedMember.rank (loops : Nat) (m : OrderedMember) : Nat := 32 * (loops - m.pos) + m.status.rank

/-- The iterations of the first `m` loops that nobody has been dealt. -/
def undealt (loops : List OrderedLoop) (s : OrderedTeam) (m : Nat) : Nat :=
  ∑ k ∈ Finset.range m, (loops[k]?).elim 0 fun L => (L.left (s.shares k).next).length

def orderedRank (loops : List OrderedLoop) (n : Nat) (c : Cfg Nat OrderedTeam OrderedMember OrderedEvent) : Nat :=
  (∑ i ∈ Finset.range n, (c.loc i).rank loops.length) + 16 * undealt loops c.shared loops.length

section

variable {loops : List OrderedLoop} {n i : Nat} {L : OrderedLoop} {on : Word → Prop} {s s' : OrderedTeam}
  {m m' : OrderedMember} {e : Option OrderedEvent}

/-- What a step takes off the iterations to deal. -/
theorem undealt_update (hL : loops[m.pos]? = some L) (hr : OrderedRule L n i s m s' m' e) :
    undealt loops s' loops.length + (L.left (s.shares m.pos).next).length =
      undealt loops s loops.length + (L.left (s'.shares m.pos).next).length := by
  have hlt := (List.getElem?_eq_some_iff.1 hL).1
  have hshares : s'.shares = Function.update s.shares m.pos (s'.shares m.pos) := by
    funext k
    by_cases hk : k = m.pos
    · subst hk
      rw [Function.update_self]
    · rw [Function.update_of_ne hk, hr.shares hk]
  have hsum := sum_update s.shares hlt (s'.shares m.pos)
    fun k ws => (loops[k]?).elim 0 fun L => (L.left ws.next).length
  rw [← hshares] at hsum
  simp only [hL, Option.elim_some] at hsum
  exact hsum

theorem OrderedRule.rank (hL : loops[m.pos]? = some L) (hdeals : L.Deals on) (hon : on (s.shares m.pos).next)
    (hr : OrderedRule L n i s m s' m' e) :
    m'.rank loops.length + 16 * (L.left (s'.shares m.pos).next).length <
      m.rank loops.length + 16 * (L.left (s.shares m.pos).next).length := by
  have hlt := (List.getElem?_eq_some_iff.1 hL).1
  have hsynced : ∀ block, (orderedSynced m.pos block).1.rank + 1 ≤ (OrderedStatus.sync .claim block).rank := by
    intro block
    cases block with
    | none => exact le_rfl
    | some b => exact le_rfl
  unfold OrderedMember.rank
  cases hr with
  | @start ws post r hst hlock hrun =>
    rw [OrderedTeam.put_self, hst]
    have hpost : (if post = none then 1 else 2) ≤ 2 := by split <;> omega
    rcases gompLoopOrderedStart_cases hrun with ⟨-, rfl, rfl, rfl⟩ | ⟨ch, hch, rfl, hfirst⟩
    · simp only [OrderedStatus.rank, if_true, Option.elim_none]
      omega
    · obtain ⟨-, hne, hleft⟩ := hdeals.dealt hon hch
      have hframe := gompOrderedFirst_frame n i { s.shares m.pos with next := ch.2 }
      rw [← hfirst] at hframe
      have hpos := List.length_pos_iff.2 hne
      rw [hleft, hframe.next, List.length_append]
      simp only [OrderedStatus.rank, Option.elim_some]
      omega
  | @next ws post r hst hlock hrun =>
    rw [OrderedTeam.put_self, hst]
    have hpost : (if post = none then 1 else 2) ≤ 2 := by split <;> omega
    rcases gompLoopOrderedNext_cases hrun with ⟨-, rfl, hlast⟩ | ⟨ch, hch, rfl, hnext⟩
    · have hframe := gompOrderedLast_frame n (s.shares m.pos)
      rw [← hlast] at hframe
      rw [hframe.next]
      simp only [OrderedStatus.rank, Option.elim_none]
      omega
    · obtain ⟨-, hne, hleft⟩ := hdeals.dealt hon hch
      have hframe := gompOrderedNext_frame n i { s.shares m.pos with next := ch.2 }
      rw [← hnext] at hframe
      have hpos := List.length_pos_iff.2 hne
      rw [hleft, hframe.next, List.length_append]
      simp only [OrderedStatus.rank, Option.elim_some]
      omega
  | order v items hst | skip v items hst | done hst | leave v items hst =>
    all_goals
      rw [hst]
      simp only [OrderedStatus.rank, List.length_cons, List.length_nil, Option.elim_some, Option.elim_none]
      omega
  | notMine block hst | wait block hst =>
    all_goals
      rw [hst]
      cases block <;> simp only [OrderedStatus.rank, Option.elim_some, Option.elim_none] <;> omega
  | mine block hst =>
    have := hsynced block
    rw [hst]
    cases block <;> simp only [OrderedStatus.rank, Option.elim_some, Option.elim_none] at this ⊢ <;> omega
  | claim block hst =>
    have := hsynced block
    rw [OrderedTeam.put_self, hst]
    simp only at this ⊢
    omega
  | post j r hst =>
    rw [hst]
    simp only [OrderedStatus.rank, if_true, reduceCtorEq, if_false]
    omega
  | unlock items hst =>
    rw [OrderedTeam.put_self, hst]
    simp only [OrderedStatus.rank, if_true, Option.elim_some]
    omega
  | unlockLast hst =>
    rw [OrderedTeam.put_self, hst]
    simp only [OrderedStatus.rank, if_true, Option.elim_none]
    omega

/-- Every step of the team lowers the rank. -/
theorem Lined.rank {on : Nat → Word → Prop} {c c' : Cfg Nat OrderedTeam OrderedMember OrderedEvent}
    (hdeals : ∀ (k : Nat) (L : OrderedLoop), loops[k]? = some L → L.Deals (on k)) (h : Lined loops n on c)
    (hs : Step (orderedStep loops n) c c') : orderedRank loops n c' < orderedRank loops n c := by
  cases hs with
  | @mk i a s' m' e hp =>
    obtain ⟨hi, L, hL, hr⟩ := orderedStep_rule hp
    obtain ⟨line, -, hline⟩ := h _ L hL
    have hlt := hr.rank hL (hdeals _ L hL) hline.on
    have hleft := undealt_update hL hr
    have hsum := sum_update c.loc hi m' fun _ m => m.rank loops.length
    unfold orderedRank
    dsimp only at hsum ⊢
    omega

/-! ## Some thread can step -/

theorem gompLoopOrderedStart_isSome {ws : OrderedShare} (hdeals : L.Deals on) (hon : on ws.next) :
    ∃ r, gompLoopOrderedStart L n i ws = some r := by
  unfold gompLoopOrderedStart
  rcases hdeals.deal hon with ⟨hnone, -⟩ | ⟨ch, hch, -⟩
  · rw [hnone]
    exact ⟨_, rfl⟩
  · rw [hch]
    exact ⟨_, rfl⟩

theorem gompLoopOrderedNext_isSome {ws : OrderedShare} (hdeals : L.Deals on) (hon : on ws.next) :
    ∃ r, gompLoopOrderedNext L n i ws = some r := by
  unfold gompLoopOrderedNext
  rcases hdeals.deal hon with ⟨hnone, -⟩ | ⟨ch, hch, -⟩
  · rw [hnone]
    exact ⟨_, rfl⟩
  · rw [hch]
    exact ⟨_, rfl⟩

/-- A thread in a loop can step unless it waits for its semaphore, or for the lock. -/
theorem exists_orderedStep (hi : i < n) (hL : loops[m.pos]? = some L) (hdeals : L.Deals on)
    (hon : on (s.shares m.pos).next)
    (hwait : m.status.Waits → 0 < s.release i)
    (hlock : m.status = .outside ∨ m.status = .synced → (s.shares m.pos).lock = none) :
    ∃ a r, orderedStep loops n i a s m = some r := by
  have hstep : ∀ a, orderedStep loops n i a s m = orderedRun L n i a s m := by
    intro a
    unfold orderedStep
    rw [if_pos hi, hL, Option.bind_some]
  simp only [hstep]
  obtain ⟨k, st⟩ := m
  cases st with
  | outside =>
    obtain ⟨r, hr⟩ := gompLoopOrderedStart_isSome (n := n) (i := i) hdeals hon
    refine ⟨.go, ?_⟩
    simp only [orderedRun, hlock (.inl rfl), if_true, hr, Option.map_some]
    exact ⟨_, rfl⟩
  | synced =>
    obtain ⟨r, hr⟩ := gompLoopOrderedNext_isSome (n := n) (i := i) hdeals hon
    refine ⟨.go, ?_⟩
    simp only [orderedRun, hlock (.inr rfl), if_true, hr, Option.map_some]
    exact ⟨_, rfl⟩
  | body items =>
    cases items with
    | nil => exact ⟨.go, _, rfl⟩
    | cons v items => exact ⟨.order, _, rfl⟩
  | sync pc block =>
    refine ⟨.go, ?_⟩
    cases pc with
    | check =>
      simp only [orderedRun]
      split <;> exact ⟨_, rfl⟩
    | wait =>
      simp only [orderedRun, hwait trivial, if_true]
      exact ⟨_, rfl⟩
    | claim => exact ⟨_, rfl⟩
  | inside v items => exact ⟨.go, _, rfl⟩
  | locked post r =>
    cases post with
    | none => exact ⟨.go, _, rfl⟩
    | some j => exact ⟨.go, _, rfl⟩

/-- As long as a thread has a loop before it, some thread can step. -/
theorem Lined.progress {on : Nat → Word → Prop} {c : Cfg Nat OrderedTeam OrderedMember OrderedEvent}
    (hdeals : ∀ (k : Nat) (L : OrderedLoop), loops[k]? = some L → L.Deals (on k)) (h : Lined loops n on c) (hi : i < n)
    (hpos : (c.loc i).pos < loops.length) : ∃ c', Step (orderedStep loops n) c c' := by
  obtain ⟨L, hL⟩ : ∃ L, loops[(c.loc i).pos]? = some L := ⟨_, List.getElem?_eq_getElem hpos⟩
  obtain ⟨line, -, hline⟩ := h _ L hL
  have hturn := hline.turn
  -- the holder of the lock can step
  have hholder : (c.shared.shares (c.loc i).pos).lock ≠ none → ∃ c', Step (orderedStep loops n) c c' := by
    intro hlock
    obtain ⟨x, hl⟩ := Option.ne_none_iff_exists'.1 hlock
    obtain ⟨hx, hkx, hxl⟩ := (hturn.lock x).1 hl
    have hLx : loops[(c.loc x).pos]? = some L := by rw [hkx]; exact hL
    have hnot : ¬ (c.loc x).status.Waits ∧ (c.loc x).status ≠ .outside ∧ (c.loc x).status ≠ .synced := by
      cases hst : (c.loc x).status <;> rw [hst] at hxl <;> first | exact hxl.elim | exact ⟨fun h => h, nofun, nofun⟩
    obtain ⟨a, r, hstep⟩ := exists_orderedStep hx hLx (hdeals _ L hL) (by rw [hkx]; exact hline.on)
      (fun hw => absurd hw hnot.1) fun hs => hs.elim (fun he => absurd he hnot.2.1) fun he => absurd he hnot.2.2
    exact ⟨_, .mk x a hstep⟩
  -- with the lock free, so can every thread of the loop that does not wait in vain
  have hgo : ∀ j < n, (c.loc j).pos = (c.loc i).pos → ((c.loc j).status.Waits → 0 < c.shared.release j) →
      ∃ c', Step (orderedStep loops n) c c' := by
    intro j hj hk hwait
    by_cases hl : (c.shared.shares (c.loc i).pos).lock = none
    · have hLj : loops[(c.loc j).pos]? = some L := by rw [hk]; exact hL
      have hon : on (c.loc i).pos (c.shared.shares (c.loc j).pos).next := by rw [hk]; exact hline.on
      obtain ⟨a, r, hstep⟩ := exists_orderedStep hj hLj (hdeals _ L hL) hon hwait fun _ => by rw [hk]; exact hl
      exact ⟨_, .mk j a hstep⟩
    · exact hholder hl
  by_cases hwait : (c.loc i).status.Waits
  · by_cases hrel : 0 < c.shared.release i
    · exact hgo i hi rfl fun _ => hrel
    · -- the release is with the head of the queue
      obtain ⟨hn, -⟩ := hturn.waiting i hi rfl hwait
      have hmem : i ∈ line.queue.map (·.1) := by
        refine (hturn.mem i).2 ⟨hi, rfl, ?_⟩
        cases hst : (c.loc i).status <;> rw [hst] at hwait <;> first | exact hwait.elim | exact Option.some_ne_none _
      cases hq : line.queue.map (·.1) with
      | nil =>
        rw [hq] at hmem
        exact absurd hmem List.not_mem_nil
      | cons j t =>
        obtain ⟨hj, hk, -⟩ := (hturn.mem j).1 (by rw [hq]; exact List.mem_cons_self)
        by_cases hwj : (c.loc j).status.Waits ∧ c.shared.release j = 0
        swap
        · exact hgo j hj hk fun hw => Nat.pos_of_ne_zero fun h0 => hwj ⟨hw, h0⟩
        -- the holder of the lock has still to post it
        obtain ⟨hwj, h0⟩ := hwj
        refine hholder fun hl => ?_
        have htok := hturn.released hn j hj hk
        have hown := (hturn.waiting j hj hk hwj).2
        have hnc : ¬ (c.loc j).status.Claims := by
          intro hc
          cases hst : (c.loc j).status with
          | sync pc block =>
            rw [hst] at hwj hc
            cases pc with
            | wait => exact hc.elim
            | _ => exact hwj.elim
          | _ => rw [hst] at hc; exact hc.elim
        unfold releases at htok
        rw [hq, List.head?_cons, tally_self, if_neg hnc, tally_of_ne hown, h0, pendingPost, hl] at htok
        exact absurd htok (by simp)
  · exact hgo i hi rfl fun hw => absurd hw hwait

/-! ## Runs to the end -/

/-- Nobody leaves a loop before it is dealt out. -/
def Exhausted (loops : List OrderedLoop) (n : Nat) (c : Cfg Nat OrderedTeam OrderedMember OrderedEvent) : Prop :=
  ∀ (k : Nat) (L : OrderedLoop), loops[k]? = some L → ∀ i < n,
    (k < (c.loc i).pos ∨ ((c.loc i).pos = k ∧ ∃ post, (c.loc i).status = .locked post none)) →
    L.left (c.shared.shares k).next = []

/-- A step that moves the position of a loop is a chunk dealt. -/
theorem OrderedRule.next_cases (hr : OrderedRule L n i s m s' m' e) :
    (s'.shares m.pos).next = (s.shares m.pos).next ∨
      ∃ ch, L.iter (s.shares m.pos).next = some (some ch) ∧ (s'.shares m.pos).next = ch.2 := by
  cases hr with
  | @start ws post r hst hlock hrun =>
    rw [OrderedTeam.put_self]
    rcases gompLoopOrderedStart_cases hrun with ⟨-, rfl, rfl, rfl⟩ | ⟨ch, hch, rfl, hfirst⟩
    · exact .inl rfl
    · have hframe := gompOrderedFirst_frame n i { s.shares m.pos with next := ch.2 }
      rw [← hfirst] at hframe
      exact .inr ⟨ch, hch, hframe.next⟩
  | @next ws post r hst hlock hrun =>
    rw [OrderedTeam.put_self]
    rcases gompLoopOrderedNext_cases hrun with ⟨-, rfl, hlast⟩ | ⟨ch, hch, rfl, hnext⟩
    · have hframe := gompOrderedLast_frame n (s.shares m.pos)
      rw [← hlast] at hframe
      exact .inl hframe.next
    · have hframe := gompOrderedNext_frame n i { s.shares m.pos with next := ch.2 }
      rw [← hnext] at hframe
      exact .inr ⟨ch, hch, hframe.next⟩
  | claim | unlock | unlockLast =>
    rw [OrderedTeam.put_self]
    exact .inl rfl
  | _ => exact .inl rfl

/-- A thread that gets nothing from the iterator finds the loop dealt out. -/
theorem OrderedRule.left_of_none (hr : OrderedRule L n i s m s' m' e) (hdeals : L.Deals on)
    (hon : on (s.shares m.pos).next)
    {post : Option Nat} (hst' : m'.status = .locked post none) (hold : ∀ post, m.status ≠ .locked post none) :
    L.left (s.shares m.pos).next = [] := by
  have hnone : L.iter (s.shares m.pos).next = some none → L.left (s.shares m.pos).next = [] := by
    intro hnone
    rcases hdeals.deal hon with ⟨-, hleft⟩ | ⟨ch, hch, -⟩
    · exact hleft
    · rw [hnone] at hch
      cases hch
  cases hr with
  | start hst hlock hrun =>
    rcases gompLoopOrderedStart_cases hrun with ⟨hiter, -⟩ | ⟨ch, -, rfl, -⟩
    · exact hnone hiter
    · cases hst'
  | next hst hlock hrun =>
    rcases gompLoopOrderedNext_cases hrun with ⟨hiter, -⟩ | ⟨ch, -, rfl, -⟩
    · exact hnone hiter
    · cases hst'
  | post j r hst =>
    cases hst'
    exact absurd hst (hold _)
  | mine block | claim block => cases block <;> cases hst'
  | _ => cases hst'

theorem Exhausted.step {on : Nat → Word → Prop} {c c' : Cfg Nat OrderedTeam OrderedMember OrderedEvent}
    (hdeals : ∀ (k : Nat) (L : OrderedLoop), loops[k]? = some L → L.Deals (on k)) (hlined : Lined loops n on c)
    (h : Exhausted loops n c) (hs : Step (orderedStep loops n) c c') : Exhausted loops n c' := by
  cases hs with
  | @mk i a s' m' e hp =>
    obtain ⟨hi, L, hL, hr⟩ := orderedStep_rule hp
    obtain ⟨line, -, hline⟩ := hlined _ L hL
    intro k L' hL' j hj hout
    -- what was dealt out stays so
    have hstays : L'.left (c.shared.shares k).next = [] → L'.left (s'.shares k).next = [] := by
      intro hnil
      by_cases hk : k = (c.loc i).pos
      · subst hk
        obtain rfl : L = L' := Option.some.inj (hL.symm.trans hL')
        rcases hr.next_cases with hnext | ⟨ch, hch, -⟩
        · rw [hnext]
          exact hnil
        · obtain ⟨-, hne, hleft⟩ := (hdeals _ L hL).dealt hline.on hch
          rw [hleft, List.append_eq_nil_iff] at hnil
          exact absurd hnil.1 hne
      · rw [hr.shares hk]
        exact hnil
    refine hstays ?_
    change k < (Function.update c.loc i m' j).pos ∨ ((Function.update c.loc i m' j).pos = k ∧
      ∃ post, (Function.update c.loc i m' j).status = .locked post none) at hout
    by_cases hji : j = i
    · subst hji
      rw [Function.update_self] at hout
      rcases hr.pos with hpos | ⟨hst, rfl, -⟩
      · rcases hout with hlt | ⟨hk, post, hst'⟩
        · exact h k L' hL' j hj (.inl (hpos ▸ hlt))
        · have hk : (c.loc j).pos = k := hpos.symm.trans hk
          subst hk
          obtain rfl : L = L' := Option.some.inj (hL.symm.trans hL')
          by_cases hold : ∃ post, (c.loc j).status = .locked post none
          · exact h _ L hL j hj (.inr ⟨rfl, hold⟩)
          · exact hr.left_of_none (hdeals _ L hL) hline.on hst' fun post hp => hold ⟨post, hp⟩
      · rcases hout with hlt | ⟨-, post, hst'⟩
        · have hle : k ≤ (c.loc j).pos := Nat.lt_succ_iff.1 hlt
          rcases Nat.lt_or_eq_of_le hle with hlt | heq
          · exact h k L' hL' j hj (.inl hlt)
          · exact h k L' hL' j hj (.inr ⟨heq.symm, none, hst⟩)
        · cases hst'
    · rw [Function.update_of_ne hji] at hout
      exact h k L' hL' j hj hout

theorem Exhausted.reach {on : Nat → Word → Prop} {c : Cfg Nat OrderedTeam OrderedMember OrderedEvent} (hn : 0 < n)
    (hdeals : ∀ (k : Nat) (L : OrderedLoop), loops[k]? = some L → L.Deals (on k))
    (hr : Reach (orderedStep loops n) (orderedStart loops) c) : Exhausted loops n c := by
  induction hr with
  | refl =>
    rintro k L hL i hi (hlt | ⟨-, post, hst⟩)
    · exact absurd hlt (Nat.not_lt_zero k)
    · cases hst
  | tail hr hs ih => exact ih.step hdeals (.reach hn hdeals hr) hs

/-- When every thread has left the loops, all blocks of each loop have run: those of all the iterations that did not go
without one, in the order of the loop, the last one to its end. -/
theorem Lined.finished {on : Nat → Word → Prop} {c : Cfg Nat OrderedTeam OrderedMember OrderedEvent} (hn : 0 < n)
    (h : Lined loops n on c) (hex : Exhausted loops n c) (hdone : ∀ i < n, loops.length ≤ (c.loc i).pos) {k : Nat}
    (hL : loops[k]? = some L) :
    Serial (blocksOf k c.log) none ∧ begun (blocksOf k c.log) = L.loop.values.filter (· ∉ skippedOf k c.log) := by
  obtain ⟨line, hinv, hline⟩ := h k L hL
  have hlt := (List.getElem?_eq_some_iff.1 hL).1
  have hgone : ∀ i < n, (c.loc i).pos ≠ k := fun i hi hk => by have := hdone i hi; omega
  have hqueue : line.queue = [] := by
    rw [List.eq_nil_iff_forall_not_mem]
    intro x hx
    obtain ⟨hi, hk, -⟩ := (hline.turn.mem x.1).1 (List.mem_map_of_mem hx)
    exact hgone _ hi hk
  have hbusy : line.busy = none := by
    cases hb : line.busy with
    | none => rfl
    | some x =>
      obtain ⟨hi, hk, -⟩ := (hline.busy x.1 x.2).1 hb
      exact absurd hk (hgone _ hi)
  have hrest : line.rest = [] := by
    rw [hline.rest]
    have := hdone 0 hn
    exact hex k L hL 0 hn (.inl (by omega))
  refine ⟨?_, ?_⟩
  · have hserial := hinv.serial
    rwa [hline.log, hbusy] at hserial
  · have horder := hinv.order
    rw [hqueue, hrest, hline.skipped, hline.log] at horder
    rw [horder]
    simp

end

end Bosched
