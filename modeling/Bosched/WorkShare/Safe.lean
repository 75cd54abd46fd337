/-
What the cache never does: hand out a work share that some thread may still use, use one for two constructs, follow a
pointer that is not valid, or grow with the number of constructs instead of with how far the threads are apart.
-/
import Bosched.WorkShare.Refines

namespace Bosched

open Lib

variable {G C A B E : Type} {n : Nat} {body : List (Work G C A B E)} {global : G} {content : Nat → C}
  {c c' : Cfg Nat (TeamShares G C) (ShareMember B) E}

/-! ## Who uses which work share -/

/-- The work shares in use, those a thread has taken from the cache, and those of its two lists. -/
structure SharesSafe (n : Nat) (c : Cfg Nat (TeamShares G C) (ShareMember B) E) (live own alloc free : List Nat) :
    Prop where
  holds : c.shared.pool.Holds live own alloc free
  /-- every thread's work share is in use, and so is the one it may have to put back -/
  inUse : ∀ i < n, (c.loc i).workShare ∈ live
  last : ∀ i < n, ∀ b last, (c.loc i).status = .inside b → (c.loc i).lastWorkShare = some last → last ∈ live
  /-- threads in one construct, and no others, have the same work share -/
  same : ∀ i < n, ∀ j < n, ∀ b b', (c.loc i).status = .inside b → (c.loc j).status = .inside b' →
    ((c.loc i).workShare = (c.loc j).workShare ↔ (c.loc i).pos = (c.loc j).pos)
  /-- one thread at a time takes work shares, and it follows valid pointers only -/
  oneTakes : ∀ i < n, ∀ j < n, ∀ pc pc', (c.loc i).status = .alloc pc → (c.loc j).status = .alloc pc' → i = j
  valid : ∀ i < n, ∀ pc, (c.loc i).status = .alloc pc → (∃ ws, pc = .got ws) ∨
    ∃ r, c.shared.pool.allocWorkShare pc = some r
  /-- one thread at a time puts work shares back, and never fails to -/
  onePuts : ∀ i < n, ∀ j < n, ∀ pc pc', (c.loc i).status = .freeing pc → (c.loc j).status = .freeing pc' → i = j
  puts : ∀ i < n, ∀ head last, (c.loc i).status = .freeing (.cas head) → (c.loc i).lastWorkShare = some last →
    last ∈ live ∧ c.shared.pool.workShareListFree = head

theorem Recycles.safe {addr : Nat → Nat} {peak : Nat} {t : NumberedTeam G C} {loc' : Nat → NumberedMember B}
    (h : Recycles n body addr peak c.shared c.loc t loc') (hinv : NumberedInv n body t loc') :
    ∃ live own alloc free, SharesSafe n c live own alloc free := by
  obtain ⟨own, alloc, free, hc⟩ := h.cached
  have hbetween : ∀ i < n, t.freed ≤ (loc' i).reached ∧ (loc' i).reached ≤ t.started := by
    intro i hi
    have hm := hinv.member i hi
    have hle : (loc' i).needs ≤ (loc' i).reached := by
      unfold NumberedMember.needs NumberedMember.reached
      cases (loc' i).status <;> simp
    exact ⟨hm.freed.trans hle, hm.reached⟩
  have hinside : ∀ i < n, ∀ b, (c.loc i).status = .inside b → (c.loc i).workShare = addr ((c.loc i).pos + 1) ∧
      (c.loc i).lastWorkShare = some (addr (c.loc i).pos) ∧ t.freed ≤ (c.loc i).pos ∧
      (c.loc i).pos + 1 ≤ t.started := by
    intro i hi b hst
    have hp := h.placed i hi
    obtain ⟨hst', hshare, hlast⟩ := hp.inside_inv hst
    have hm := hinv.member i hi
    exact ⟨hshare, hlast, by simpa [NumberedMember.needs, hst', hp.pos] using hm.freed,
      by simpa [NumberedMember.reached, hst', hp.pos] using hm.reached⟩
  refine ⟨_, own, alloc, free, ⟨hc.holds, fun i hi => ?_, fun i hi b last hst hlast => ?_,
    fun i hi j hj b b' hst hst' => ?_, fun i hi j hj pc pc' hst hst' => ?_, fun i hi pc hst => ?_,
    fun i hi j hj pc pc' hst hst' => ?_, fun i hi head last hst hlast => ?_⟩⟩
  · obtain ⟨hlo, hhi⟩ := hbetween i hi
    exact mem_liveShares.2 ⟨_, hlo, hhi, ((h.placed i hi).workShare).symm⟩
  · obtain ⟨-, hlast', hlo, hhi⟩ := hinside i hi b hst
    rw [hlast] at hlast'
    cases hlast'
    exact mem_liveShares.2 ⟨_, hlo, Nat.le_of_succ_le hhi, rfl⟩
  · obtain ⟨hshare, -, hlo, hhi⟩ := hinside i hi b hst
    obtain ⟨hshare', -, hlo', hhi'⟩ := hinside j hj b' hst'
    rw [hshare, hshare']
    constructor
    · intro heq
      have := h.addr_inj (by omega) hhi (by omega) hhi' heq
      omega
    · intro heq
      rw [heq]
  · exact hinv.oneBuilds i hi j hj ((h.placed i hi).alloc_inv hst).1 ((h.placed j hj).alloc_inv hst').1
  · by_cases hgot : ∃ ws, pc = .got ws
    · exact .inl hgot
    · push Not at hgot
      exact .inr (hc.holds.exists_allocWorkShare (hc.alloc i hi pc hst) hgot)
  · exact hinv.closes_unique hi hj (by simp [NumberedMember.closes, ((h.placed i hi).freeing_inv hst).1])
      (by simp [NumberedMember.closes, ((h.placed j hj).freeing_inv hst').1])
  · obtain ⟨-, -, hlast'⟩ := (h.placed i hi).freeing_inv hst
    rw [hlast] at hlast'
    cases hlast'
    obtain ⟨hfreed, hlt⟩ := h.freeing_lt hinv hi hst
    exact ⟨mem_liveShares.2 ⟨_, hfreed.le, hlt.le, rfl⟩, (hc.freeing i hi _ hst).1⟩

/-- **No work share is used for two constructs at once**, and none that some thread still has is in the cache. -/
theorem recycledRun_safe (hn : 0 < n) (hr : Reach (recycledRun n body) (recycledStart global content) c) :
    ∃ live own alloc free, SharesSafe n c live own alloc free := by
  obtain ⟨d, -, hshows⟩ := (recycledRun_stutters n body).reach (Shows.start hn body global content) hr
  obtain ⟨addr, peak, t, loc', hrec, hinv, -⟩ := hshows.shows
  exact hrec.safe hinv

/-- A work share that is in use for the second time. -/
theorem recycledRun_safe_two :
    ∃ c, exec (recycledRun 2 (List.replicate 8 (countWork true))) (recycledStart () fun _ => 0) countTurns = some c ∧
      ∃ live own alloc free, SharesSafe 2 c live own alloc free := by
  have h : (exec (recycledRun 2 (List.replicate 8 (countWork true))) (recycledStart () fun _ => 0)
      countTurns).isSome = true := by
    decide +kernel
  obtain ⟨c, hc⟩ := Option.isSome_iff_exists.1 h
  exact ⟨c, hc, recycledRun_safe (by decide) (reach_of_exec hc)⟩

/-! ## How many work shares there are -/

/-- No thread is more than `k` constructs ahead of another. -/
def Abreast (n k : Nat) (c : Cfg Nat (TeamShares G C) (ShareMember B) E) : Prop :=
  ∀ i < n, ∀ j < n, (c.loc i).pos ≤ (c.loc j).pos + k

/-- Some thread has linked in the last work share that has been linked in. -/
theorem NumberedRule.front {i : Nat} {s s' : NumberedTeam G C} {loc : Nat → NumberedMember B} {m' : NumberedMember B}
    {e : Option E} (hi : i < n) (h : NumberedRule n body i s (loc i) s' m' e) (hinv : NumberedInv n body s loc)
    (hfront : ∃ j < n, s.started ≤ (loc j).pos + 1) :
    ∃ j < n, s'.started ≤ (Function.update loc i m' j).pos + 1 := by
  have hkeep : s'.started = s.started → (loc i).pos ≤ m'.pos →
      ∃ j < n, s'.started ≤ (Function.update loc i m' j).pos + 1 := by
    intro hstarted hpos
    obtain ⟨j, hj, hle⟩ := hfront
    refine ⟨j, hj, ?_⟩
    by_cases hji : j = i
    · subst hji
      rw [Function.update_self]
      omega
    · rw [Function.update_of_ne hji]
      omega
  cases h with
  | link W hW hst =>
    have hpos := ((hinv.member i hi).building hst).2
    refine ⟨i, hi, ?_⟩
    rw [Function.update_self]
    exact Nat.succ_le_succ hpos.ge
  | count | free | wake | release => exact hkeep rfl (Nat.le_succ _)
  | enter | build | run | countLast | arrive | arriveLast | freeLast => exact hkeep rfl le_rfl

/-- The program while the threads are abreast. -/
structure Bounded (n : Nat) (body : List (Work G C A B E)) (k : Nat) (c : Cfg Nat (TeamShares G C) (ShareMember B) E) :
    Prop where
  shows : ∃ addr t loc', Recycles n body addr (k + 2) c.shared c.loc t loc' ∧ NumberedInv n body t loc' ∧
    ∃ j < n, t.started ≤ (loc' j).pos + 1

theorem Bounded.step {k : Nat} (h : Bounded n body k c) (habreast : Abreast n k c)
    (hs : Step (recycledRun n body) c c') : Bounded n body k c' := by
  obtain ⟨addr, t, loc', hrec, hinv, hfront⟩ := h
  cases hs with
  | @mk i a s' m' e hp =>
    obtain ⟨hi, hrule⟩ := recycledRun_rule hp
    -- the thread that is ahead and the one that needs the oldest work share are not far apart
    have hpeak : t.started + 1 ≤ t.freed + (k + 2) := by
      obtain ⟨j, hj, hstarted⟩ := hfront
      obtain ⟨l, hl, hneeds⟩ := hinv.least
      have hle := habreast j hj l hl
      have hpos := (loc' l).pos_le_needs
      rw [(hrec.placed j hj).pos] at hstarted
      rw [(hrec.placed l hl).pos] at hpos
      omega
    obtain ⟨addr', t', m'', hrec', hcase⟩ := (hrec.rule hinv hi hpeak hrule).step
    rcases hcase with ⟨rfl, rfl, -, -⟩ | ⟨hrule', -, -⟩
    · rw [Function.update_eq_self] at hrec'
      exact ⟨addr', _, loc', hrec', hinv, hfront⟩
    · exact ⟨addr', t', _, hrec', hinv.rule hi hrule', hrule'.front hi hinv hfront⟩

theorem Bounded.brk {k : Nat} (h : Bounded n body k c) :
    c.shared.pool.brk = 8 ∨ 5 ≤ k ∧ c.shared.pool.brk ≤ 2 * k + 14 := by
  obtain ⟨addr, t, loc', hrec, -⟩ := h
  obtain ⟨own, alloc, free, hc⟩ := hrec.cached
  rcases hc.brk with hbrk | ⟨hbrk, hpeak⟩
  · exact .inl hbrk
  · exact .inr ⟨by omega, by omega⟩

theorem Bounded.start (hn : 0 < n) (body : List (Work G C A B E)) (k : Nat) (global : G) (content : Nat → C) :
    Bounded n body k (recycledStart global content) :=
  ⟨_, _, _, (Recycles.start n body global content).mono (Nat.le_add_left ..), .start hn global content, 0, hn,
    Nat.zero_le _⟩

/-- **The cache is as large as the threads are apart.** In a run in which no thread gets more than `k` constructs ahead
of another, the team has no more than `2 * k + 14` work shares, however many constructs there are; up to four
constructs, `gomp_malloc` is never called. -/
theorem recycledRun_brk (hn : 0 < n) {k : Nat}
    (hr : Relation.ReflTransGen (fun c c' => Step (recycledRun n body) c c' ∧ Abreast n k c')
      (recycledStart global content) c) :
    c.shared.pool.brk = 8 ∨ 5 ≤ k ∧ c.shared.pool.brk ≤ 2 * k + 14 := by
  have key : Bounded n body k c ∧ Abreast n k c := by
    induction hr with
    | refl => exact ⟨.start hn body k global content, fun _ _ _ _ => Nat.zero_le _⟩
    | tail _ hs ih => exact ⟨ih.1.step ih.2 hs.1, hs.2⟩
  exact key.1.brk

/-- No thread is ever further ahead than there are constructs. -/
theorem abreast_length (hn : 0 < n) (hr : Reach (recycledRun n body) (recycledStart global content) c) :
    Relation.ReflTransGen (fun c c' => Step (recycledRun n body) c c' ∧ Abreast n body.length c')
      (recycledStart global content) c := by
  induction hr with
  | refl => exact .refl
  | @tail c c' hr hs ih =>
    obtain ⟨d, -, ⟨addr, peak, t, loc', hrec, hinv, -⟩, -⟩ :=
      (recycledRun_stutters n body).reach (Shows.start hn body global content) (hr.tail hs)
    refine ih.tail ⟨hs, fun i hi j _ => ?_⟩
    have hbound := (hinv.member i hi).bound
    rw [(hrec.placed i hi).pos] at hbound
    exact hbound.trans (Nat.le_add_left ..)

/-- Eight constructs never need more than thirty work shares. -/
theorem recycledRun_brk_two :
    ∃ c, exec (recycledRun 2 (List.replicate 8 (countWork true))) (recycledStart () fun _ => 0) countTurns = some c ∧
      (c.shared.pool.brk = 8 ∨ 5 ≤ 8 ∧ c.shared.pool.brk ≤ 2 * 8 + 14) := by
  have h : (exec (recycledRun 2 (List.replicate 8 (countWork true))) (recycledStart () fun _ => 0)
      countTurns).isSome = true := by
    decide +kernel
  obtain ⟨c, hc⟩ := Option.isSome_iff_exists.1 h
  exact ⟨c, hc, recycledRun_brk (by decide) (abreast_length (by decide) (reach_of_exec hc))⟩

/-- Where all constructs end with a barrier, a thread is one construct ahead at most. -/
theorem NumberedInv.abreast {t : NumberedTeam G C} {loc' : Nat → NumberedMember B} (h : NumberedInv n body t loc')
    (hbody : ∀ W ∈ body, W.nowait = false) {i j : Nat} (hi : i < n) (hj : j < n) : (loc' i).pos ≤ (loc' j).pos + 1 := by
  have hbarriers : ∀ k ≤ body.length, Work.barriers body k = k := by
    intro k hk
    induction k with
    | zero => exact Nat.count_zero _
    | succ k ih =>
      have hW : body[k]? = some body[k] := List.getElem?_eq_getElem hk
      rw [Work.barriers_succ hW, hbody _ (List.getElem_mem hk), ih (Nat.le_of_succ_le hk)]
      rfl
  have hgen : ∀ i < n, t.generation ≤ (loc' i).pos + 1 ∧ (loc' i).pos ≤ t.generation := by
    intro i hi
    have hm := h.member i hi
    have hpos := hbarriers _ hm.bound
    by_cases hw : ∃ g, (loc' i).status = .waiting g
    · obtain ⟨g, hw⟩ := hw
      obtain ⟨-, hbar, hg⟩ := hm.waiting g hw
      omega
    · push Not at hw
      have hrun := hm.running hw
      omega
  obtain ⟨hlo, -⟩ := hgen j hj
  obtain ⟨-, hhi⟩ := hgen i hi
  omega

/-- **A team whose constructs all end with a barrier never calls `gomp_malloc`.** -/
theorem recycledRun_brk_barriers (hn : 0 < n) (hbody : ∀ W ∈ body, W.nowait = false)
    (hr : Reach (recycledRun n body) (recycledStart global content) c) : c.shared.pool.brk = 8 := by
  have key : Bounded n body 1 c := by
    induction hr with
    | refl => exact .start hn body 1 global content
    | tail _ hs ih =>
      obtain ⟨addr, t, loc', hrec, hinv, -⟩ := ih.shows
      refine ih.step (fun i hi j hj => ?_) hs
      rw [← (hrec.placed i hi).pos, ← (hrec.placed j hj).pos]
      exact hinv.abreast hbody hi hj
  rcases key.brk with hbrk | ⟨hlt, -⟩
  · exact hbrk
  · omega

/-- One thread alone in nine constructs, each with its barrier; the eighth gets its work share from those put back. -/
theorem recycledRun_brk_barriers_one :
    let go (k : Nat) := List.replicate k ((0 : Nat), (ShareAction.go : ShareAction Unit))
    let turn := go 5 ++ [(0, .run ())] ++ go 5
    ∃ c, exec (recycledRun 1 (List.replicate 9 (countWork false))) (recycledStart () fun _ => 0)
        ((List.replicate 7 turn).flatten ++ go 3 ++ turn ++ turn) = some c ∧
      (c.loc 0).pos = 9 ∧ c.shared.pool.brk = 8 := by
  intro go turn
  have h : ((exec (recycledRun 1 (List.replicate 9 (countWork false))) (recycledStart () fun _ => 0)
      ((List.replicate 7 turn).flatten ++ go 3 ++ turn ++ turn)).map fun c => (c.loc 0).pos) = some 9 := by
    decide +kernel
  obtain ⟨c, hc, hpos⟩ := Option.map_eq_some_iff.1 h
  refine ⟨c, hc, hpos, recycledRun_brk_barriers (by decide) (fun W hW => ?_) (reach_of_exec hc)⟩
  rw [List.eq_of_mem_replicate hW]
  rfl

end Bosched
