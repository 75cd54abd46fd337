/-
The invariant of an ordered loop, for every interleaving: the threads in the queue are those that have a chunk, and the
release of the construct is in one place (`Turn`).
-/
import Bosched.Ordered.Queue

namespace Bosched

open Lib

/-! ## What a step can do -/

/-- The steps of thread `i`, one constructor for each branch of the source. -/
inductive OrderedRule (L : OrderedLoop) (n i : Nat) (s : OrderedTeam) (m : OrderedMember) :
    OrderedTeam → OrderedMember → Option OrderedEvent → Prop
  | start {ws : OrderedShare} {post : Option Nat} {r : Option (List Int)} (hst : m.status = .outside)
      (hlock : (s.shares m.pos).lock = none) (h : gompLoopOrderedStart L n i (s.shares m.pos) = some (ws, post, r)) :
      OrderedRule L n i s m (s.put m.pos { ws with lock := some i })
        ⟨m.pos, .locked post r⟩ none
  | next {ws : OrderedShare} {post : Option Nat} {r : Option (List Int)} (hst : m.status = .synced)
      (hlock : (s.shares m.pos).lock = none) (h : gompLoopOrderedNext L n i (s.shares m.pos) = some (ws, post, r)) :
      OrderedRule L n i s m (s.put m.pos { ws with lock := some i })
        ⟨m.pos, .locked post r⟩ none
  | order (v : Int) (items : List Int) (hst : m.status = .body (v :: items)) :
      OrderedRule L n i s m s ⟨m.pos, .sync .check (some (v, items))⟩ none
  | skip (v : Int) (items : List Int) (hst : m.status = .body (v :: items)) :
      OrderedRule L n i s m s ⟨m.pos, .body items⟩ (some (.skip m.pos v))
  | done (hst : m.status = .body []) : OrderedRule L n i s m s ⟨m.pos, .sync .check none⟩ none
  | mine (block : Option (Int × List Int)) (hst : m.status = .sync .check block)
      (hown : n = 1 ∨ (s.shares m.pos).orderedOwner = some i) :
      OrderedRule L n i s m s ⟨m.pos, (orderedSynced m.pos block).1⟩ (orderedSynced m.pos block).2
  | notMine (block : Option (Int × List Int)) (hst : m.status = .sync .check block) (hn : n ≠ 1)
      (hown : (s.shares m.pos).orderedOwner ≠ some i) : OrderedRule L n i s m s ⟨m.pos, .sync .wait block⟩ none
  | wait (block : Option (Int × List Int)) (hst : m.status = .sync .wait block) (hsem : 0 < s.release i) :
      OrderedRule L n i s m { s with release := Function.update s.release i (s.release i - 1) }
        ⟨m.pos, .sync .claim block⟩ none
  | claim (block : Option (Int × List Int)) (hst : m.status = .sync .claim block) :
      OrderedRule L n i s m (s.put m.pos { s.shares m.pos with orderedOwner := some i })
        ⟨m.pos, (orderedSynced m.pos block).1⟩ (orderedSynced m.pos block).2
  | leave (v : Int) (items : List Int) (hst : m.status = .inside v items) :
      OrderedRule L n i s m s ⟨m.pos, .body items⟩ (some (.block m.pos (.finish v)))
  | post (j : Nat) (r : Option (List Int)) (hst : m.status = .locked (some j) r) :
      OrderedRule L n i s m { s with release := Function.update s.release j (s.release j + 1) }
        ⟨m.pos, .locked none r⟩ none
  | unlock (items : List Int) (hst : m.status = .locked none (some items)) :
      OrderedRule L n i s m (s.put m.pos { s.shares m.pos with lock := none })
        ⟨m.pos, .body items⟩ none
  | unlockLast (hst : m.status = .locked none none) :
      OrderedRule L n i s m (s.put m.pos { s.shares m.pos with lock := none })
        ⟨m.pos + 1, .outside⟩ none

theorem orderedRun_rule {L : OrderedLoop} {n i : Nat} {a : OrderedAction} {s s' : OrderedTeam} {m m' : OrderedMember}
    {e : Option OrderedEvent} (h : orderedRun L n i a s m = some (s', m', e)) : OrderedRule L n i s m s' m' e := by
  unfold orderedRun at h
  dsimp only at h
  split at h
  · -- before the loop
    rename_i hst
    split at h
    · rename_i hlock
      obtain ⟨⟨ws, post, r⟩, hrun, heq⟩ := Option.map_eq_some_iff.1 h
      cases heq
      exact .start hst hlock hrun
    · cases h
  · rename_i v items hst
    cases h
    exact .order v items hst
  · rename_i v items hst
    cases h
    exact .skip v items hst
  · rename_i hst
    cases h
    exact .done hst
  · -- in `gomp_ordered_sync`
    rename_i pc block hst
    cases pc with
    | check =>
      dsimp only at h
      split at h <;> cases h
      · rename_i hown
        exact .mine block hst hown
      · rename_i hown
        rw [not_or] at hown
        exact .notMine block hst hown.1 hown.2
    | wait =>
      dsimp only at h
      split at h
      · rename_i hsem
        cases h
        exact .wait block hst hsem
      · cases h
    | claim =>
      cases h
      exact .claim block hst
  · rename_i v items hst
    cases h
    exact .leave v items hst
  · rename_i hst
    split at h
    · rename_i hlock
      obtain ⟨⟨ws, post, r⟩, hrun, heq⟩ := Option.map_eq_some_iff.1 h
      cases heq
      exact .next hst hlock hrun
    · cases h
  · rename_i j r hst
    cases h
    exact .post j r hst
  · -- with the lock, and nobody to post to
    rename_i r hst
    cases r with
    | none =>
      cases h
      exact .unlockLast hst
    | some items =>
      cases h
      exact .unlock items hst
  · cases h

theorem orderedStep_rule {loops : List OrderedLoop} {n i : Nat} {a : OrderedAction} {s s' : OrderedTeam}
    {m m' : OrderedMember} {e : Option OrderedEvent} (h : orderedStep loops n i a s m = some (s', m', e)) :
    i < n ∧ ∃ L, loops[m.pos]? = some L ∧ OrderedRule L n i s m s' m' e := by
  unfold orderedStep at h
  split at h
  · rename_i hi
    obtain ⟨L, hL, h⟩ := Option.bind_eq_some_iff.1 h
    exact ⟨hi, L, hL, orderedRun_rule h⟩
  · cases h

/-! ## The invariant -/

/-- The post that the holder of the lock still has to make. -/
def pendingPost (ws : OrderedShare) (loc : Nat → OrderedMember) : Option Nat :=
  ws.lock.bind fun j => (loc j).status.post

/-- Whether a thread is the one meant, as a number. -/
def tally (o : Option Nat) (i : Nat) : Nat := if o = some i then 1 else 0

@[simp] theorem tally_none (i : Nat) : tally none i = 0 := rfl
@[simp] theorem tally_self (i : Nat) : tally (some i) i = 1 := if_pos rfl

theorem tally_of_ne {o : Option Nat} {i : Nat} (h : o ≠ some i) : tally o i = 0 := if_neg h

theorem tally_congr {o o' : Option Nat} {i : Nat} (h : o = some i ↔ o' = some i) : tally o i = tally o' i := by
  unfold tally
  simp only [h]

/-- The releases a thread is about to get, has not taken yet, has taken, or has turned into the ownership. -/
def releases (ws : OrderedShare) (release : Nat → Nat) (loc : Nat → OrderedMember) (i : Nat) : Nat :=
  release i + tally (pendingPost ws loc) i + (if (loc i).status.Claims then 1 else 0) +
    tally ws.orderedOwner i

/-- The loop `k` with the queue `q`: its threads are those with a chunk, and the one at the head has the release. -/
structure Turn (n k : Nat) (ws : OrderedShare) (release : Nat → Nat) (loc : Nat → OrderedMember) (q : List Nat) :
    Prop where
  mem : ∀ i, i ∈ q ↔ i < n ∧ (loc i).pos = k ∧ (loc i).status.items ≠ none
  nodup : q.Nodup
  lock : ∀ i, ws.lock = some i ↔ i < n ∧ (loc i).pos = k ∧ (loc i).status.HoldsLock
  ring : n ≠ 1 → ws.orderedCur < n ∧ ws.queue n = q
  post : ∀ i, pendingPost ws loc = some i → n ≠ 1 ∧ i ∈ q
  owner : n ≠ 1 → ∀ i, ws.orderedOwner = some i → i ∈ q
  past : n ≠ 1 → ∀ i < n, (loc i).pos = k → (loc i).status.Past → ws.orderedOwner = some i
  waiting : ∀ i < n, (loc i).pos = k → (loc i).status.Waits → n ≠ 1 ∧ ws.orderedOwner ≠ some i
  released : n ≠ 1 → ∀ i < n, (loc i).pos = k → releases ws release loc i = tally q.head? i

theorem OrderedStatus.Past.items {st : OrderedStatus} (h : st.Past) : st.items ≠ none := by
  cases st with
  | inside | synced => exact Option.some_ne_none _
  | _ => exact h.elim

theorem OrderedStatus.HoldsLock.of_post {st : OrderedStatus} {j : Nat} (h : st.post = some j) : st.HoldsLock := by
  cases st with
  | locked => trivial
  | _ => exact nomatch h

namespace Turn

section

variable {n k : Nat} {ws ws' : OrderedShare} {release release' : Nat → Nat} {loc loc' : Nat → OrderedMember}
  {q q' : List Nat} {i : Nat} {m' : OrderedMember}

theorem length_le (h : Turn n k ws release loc q) : q.length ≤ n := by
  have hsub : q ⊆ List.range n := fun i hi => List.mem_range.2 ((h.mem i).1 hi).1
  simpa using (List.subperm_of_subset h.nodup hsub).length_le

/-- There is room in the queue for a thread that is not in it. -/
theorem length_lt (h : Turn n k ws release loc q) (hi : i < n) (hni : i ∉ q) : q.length < n := by
  have hsub : i :: q ⊆ List.range n := by
    intro j hj
    rcases List.mem_cons.1 hj with rfl | hj
    · exact List.mem_range.2 hi
    · exact List.mem_range.2 ((h.mem j).1 hj).1
  simpa using (List.subperm_of_subset (List.nodup_cons.2 ⟨hni, h.nodup⟩) hsub).length_le

theorem used (h : Turn n k ws release loc q) (hn : n ≠ 1) : ws.orderedNumUsed = q.length := by
  rw [← (h.ring hn).2, OrderedShare.queue_length]

/-- A thread that is through `gomp_ordered_sync` is at the head of the queue. -/
theorem head_of_past (h : Turn n k ws release loc q) (hi : i < n) (hpos : (loc i).pos = k) (hp : (loc i).status.Past) :
    ∃ t, q = i :: t := by
  have hmem := (h.mem i).2 ⟨hi, hpos, hp.items⟩
  have hhead : q.head? = some i := by
    by_cases hn : n = 1
    · have hone : ∀ j ∈ q, j = i := fun j hj => by
        have := ((h.mem j).1 hj).1
        omega
      cases q with
      | nil => cases hmem
      | cons j t => rw [List.head?_cons, hone j List.mem_cons_self]
    · have hrel := h.released hn i hi hpos
      unfold releases at hrel
      rw [h.past hn i hi hpos hp, tally_self] at hrel
      by_contra hne
      rw [tally_of_ne hne] at hrel
      omega
  cases q with
  | nil => cases hmem
  | cons j t =>
    cases hhead
    exact ⟨t, rfl⟩

/-- A thread whose release is underway is at the head of the queue, and the release is nowhere else. -/
theorem head_of_releases (h : Turn n k ws release loc q) (hn : n ≠ 1) (hi : i < n) (hpos : (loc i).pos = k)
    (hr : 0 < releases ws release loc i) : q.head? = some i ∧ releases ws release loc i = 1 := by
  have hrel := h.released hn i hi hpos
  by_cases hhead : q.head? = some i
  · exact ⟨hhead, by rw [hrel, hhead, tally_self]⟩
  · rw [tally_of_ne hhead] at hrel
    omega

/-- A thread that is not in the queue has no release. -/
theorem release_eq_zero (h : Turn n k ws release loc q) (hn : n ≠ 1) (hi : i < n) (hpos : (loc i).pos = k)
    (hni : i ∉ q) :
    release i = 0 := by
  have hrel := h.released hn i hi hpos
  rw [tally_of_ne fun hh => hni (List.mem_of_mem_head? hh)] at hrel
  unfold releases at hrel
  omega

theorem start {first : Word} (hpos : ∀ i < n, (loc i).pos = k → (loc i).status = .outside) (hn : 0 < n)
    (hrel : ∀ i < n, (loc i).pos = k → release i = 0) : Turn n k (.init first) release loc [] where
  mem i := by
    constructor
    · exact fun h => absurd h List.not_mem_nil
    · rintro ⟨hi, hk, hitems⟩
      rw [hpos i hi hk] at hitems
      exact absurd rfl hitems
  nodup := List.nodup_nil
  lock i := by
    constructor
    · exact fun h => nomatch h
    · rintro ⟨hi, hk, hl⟩
      rw [hpos i hi hk] at hl
      exact hl.elim
  ring _ := ⟨hn, rfl⟩
  post _ h := nomatch h
  owner _ _ h := nomatch h
  past _ i hi hk hp := by
    rw [hpos i hi hk] at hp
    exact hp.elim
  waiting i hi hk hw := by
    rw [hpos i hi hk] at hw
    exact hw.elim
  released _ i hi hk := by
    have hclaims : ¬ (loc i).status.Claims := by rw [hpos i hi hk]; exact fun h => h
    unfold releases
    rw [if_neg hclaims, hrel i hi hk]
    rfl

/-! ## Steps in other loops -/

/-- What the threads of the loop do not see. -/
theorem frame (h : Turn n k ws release loc q) (hloc : ∀ j < n, (loc j).pos = k ∨ (loc' j).pos = k → loc' j = loc j)
    (hrel : ∀ j < n, (loc j).pos = k → release' j = release j) : Turn n k ws release' loc' q := by
  have hcongr : ∀ (P : OrderedStatus → Prop) j, (j < n ∧ (loc' j).pos = k ∧ P (loc' j).status) ↔
      (j < n ∧ (loc j).pos = k ∧ P (loc j).status) := by
    intro P j
    constructor
    · rintro ⟨hj, hk, hP⟩
      have heq := hloc j hj (.inr hk)
      rw [heq] at hk hP
      exact ⟨hj, hk, hP⟩
    · rintro ⟨hj, hk, hP⟩
      rw [hloc j hj (.inl hk)]
      exact ⟨hj, hk, hP⟩
  have hpend : pendingPost ws loc' = pendingPost ws loc := by
    unfold pendingPost
    cases hl : ws.lock with
    | none => rfl
    | some j =>
      obtain ⟨hj, hk, -⟩ := (h.lock j).1 hl
      rw [Option.bind_some, Option.bind_some, hloc j hj (.inl hk)]
  constructor
  · exact fun j => (h.mem j).trans (hcongr (fun st => st.items ≠ none) j).symm
  · exact h.nodup
  · exact fun j => (h.lock j).trans (hcongr OrderedStatus.HoldsLock j).symm
  · exact h.ring
  · rw [hpend]
    exact h.post
  · exact h.owner
  · intro hn j hj hk hp
    obtain ⟨-, hk, hp⟩ := (hcongr OrderedStatus.Past j).1 ⟨hj, hk, hp⟩
    exact h.past hn j hj hk hp
  · intro j hj hk hw
    obtain ⟨-, hk, hw⟩ := (hcongr OrderedStatus.Waits j).1 ⟨hj, hk, hw⟩
    exact h.waiting j hj hk hw
  · intro hn j hj hk
    have heq := hloc j hj (.inr hk)
    rw [heq] at hk
    rw [← h.released hn j hj hk]
    unfold releases
    rw [hpend, heq, hrel j hj hk]

/-- A thread comes from another loop. -/
theorem arrive (h : Turn n k ws release loc q) (hpos : (loc i).pos ≠ k) (hm' : m' = ⟨k, .outside⟩)
    (hrel : n ≠ 1 → release i = 0) : Turn n k ws release (Function.update loc i m') q := by
  subst hm'
  have hcongr : ∀ (P : OrderedStatus → Prop), ¬ P .outside → ∀ j,
      (j < n ∧ (Function.update loc i ⟨k, .outside⟩ j).pos = k ∧ P (Function.update loc i ⟨k, .outside⟩ j).status) ↔
      (j < n ∧ (loc j).pos = k ∧ P (loc j).status) := by
    intro P hP j
    by_cases hji : j = i
    · subst hji
      rw [Function.update_self]
      exact ⟨fun hj => absurd hj.2.2 hP, fun hj => absurd hj.2.1 hpos⟩
    · rw [Function.update_of_ne hji]
  have hpend : pendingPost ws (Function.update loc i ⟨k, .outside⟩) = pendingPost ws loc := by
    unfold pendingPost
    cases hl : ws.lock with
    | none => rfl
    | some j =>
      have hji : j ≠ i := by
        rintro rfl
        exact hpos ((h.lock j).1 hl).2.1
      rw [Option.bind_some, Option.bind_some, Function.update_of_ne hji]
  constructor
  · exact fun j => (h.mem j).trans (hcongr (fun st => st.items ≠ none) (fun h => h rfl) j).symm
  · exact h.nodup
  · exact fun j => (h.lock j).trans (hcongr OrderedStatus.HoldsLock (fun h => h) j).symm
  · exact h.ring
  · rw [hpend]
    exact h.post
  · exact h.owner
  · intro hn j hj hk hp
    obtain ⟨-, hk, hp⟩ := (hcongr OrderedStatus.Past (fun h => h) j).1 ⟨hj, hk, hp⟩
    exact h.past hn j hj hk hp
  · intro j hj hk hw
    obtain ⟨-, hk, hw⟩ := (hcongr OrderedStatus.Waits (fun h => h) j).1 ⟨hj, hk, hw⟩
    exact h.waiting j hj hk hw
  · intro hn j hj hk
    by_cases hji : j = i
    · subst hji
      -- nothing of the loop concerns the newcomer
      have hnot : j ∉ q := fun hmem => hpos ((h.mem j).1 hmem).2.1
      have hhead : q.head? ≠ some j := fun hh => hnot (List.mem_of_mem_head? hh)
      have hpost : pendingPost ws loc ≠ some j := fun hp => hnot (h.post j hp).2
      have hown : ws.orderedOwner ≠ some j := fun ho => hnot (h.owner hn j ho)
      have hclaims : ¬ (Function.update loc j ⟨k, .outside⟩ j).status.Claims := by
        rw [Function.update_self]
        exact fun h => h
      unfold releases
      rw [hpend, tally_of_ne hpost, if_neg hclaims, tally_of_ne hown, tally_of_ne hhead, hrel hn]
    · rw [Function.update_of_ne hji] at hk
      rw [← h.released hn j hj hk]
      unfold releases
      rw [hpend, Function.update_of_ne hji]

/-! ## Steps in the loop -/

/-- A step of a thread that keeps its chunk and does not have the lock. -/
theorem same (h : Turn n k ws release loc q) (hi : i < n) (hpos : (loc i).pos = k) (hpos' : m'.pos = k)
    (hitems : (loc i).status.items ≠ none) (hitems' : m'.status.items ≠ none) (hnl : ¬ (loc i).status.HoldsLock)
    (hnl' : ¬ m'.status.HoldsLock) (hlock : ws'.lock = ws.lock)
    (hring : ws'.orderedCur = ws.orderedCur ∧ ws'.queue n = ws.queue n)
    (howner : n ≠ 1 → ∀ j ≠ i, ws'.orderedOwner = some j ↔ ws.orderedOwner = some j)
    (hpast : n ≠ 1 → m'.status.Past → ws'.orderedOwner = some i)
    (hwait : m'.status.Waits → n ≠ 1 ∧ ws'.orderedOwner ≠ some i) (hrel : ∀ j ≠ i, release' j = release j)
    (htok : n ≠ 1 → release' i + (if m'.status.Claims then 1 else 0) + tally ws'.orderedOwner i =
      release i + (if (loc i).status.Claims then 1 else 0) + tally ws.orderedOwner i) :
    Turn n k ws' release' (Function.update loc i m') q := by
  have hmem : i ∈ q := (h.mem i).2 ⟨hi, hpos, hitems⟩
  have hpend : pendingPost ws' (Function.update loc i m') = pendingPost ws loc := by
    unfold pendingPost
    rw [hlock]
    cases hl : ws.lock with
    | none => rfl
    | some j =>
      have hji : j ≠ i := by
        rintro rfl
        exact hnl ((h.lock j).1 hl).2.2
      rw [Option.bind_some, Option.bind_some, Function.update_of_ne hji]
  constructor
  · intro j
    by_cases hji : j = i
    · subst hji
      rw [Function.update_self]
      exact ⟨fun _ => ⟨hi, hpos', hitems'⟩, fun _ => hmem⟩
    · rw [Function.update_of_ne hji]
      exact h.mem j
  · exact h.nodup
  · intro j
    rw [hlock]
    by_cases hji : j = i
    · subst hji
      rw [Function.update_self]
      exact ⟨fun hl => absurd ((h.lock j).1 hl).2.2 hnl, fun hl => absurd hl.2.2 hnl'⟩
    · rw [Function.update_of_ne hji]
      exact h.lock j
  · intro hn
    rw [hring.1, hring.2]
    exact h.ring hn
  · rw [hpend]
    exact h.post
  · intro hn j hj
    by_cases hji : j = i
    · subst hji
      exact hmem
    · exact h.owner hn j ((howner hn j hji).1 hj)
  · intro hn j hj hk hp
    by_cases hji : j = i
    · subst hji
      rw [Function.update_self] at hp
      exact hpast hn hp
    · rw [Function.update_of_ne hji] at hk hp
      exact (howner hn j hji).2 (h.past hn j hj hk hp)
  · intro j hj hk hw
    by_cases hji : j = i
    · subst hji
      rw [Function.update_self] at hw
      exact hwait hw
    · rw [Function.update_of_ne hji] at hk hw
      obtain ⟨hn, hne⟩ := h.waiting j hj hk hw
      exact ⟨hn, fun ho => hne ((howner hn j hji).1 ho)⟩
  · intro hn j hj hk
    by_cases hji : j = i
    · subst hji
      have hold := h.released hn j hj hpos
      unfold releases at hold ⊢
      rw [hpend, Function.update_self]
      have := htok hn
      omega
    · rw [Function.update_of_ne hji] at hk
      rw [← h.released hn j hj hk]
      unfold releases
      rw [hpend, Function.update_of_ne hji, hrel j hji, tally_congr (howner hn j hji)]

/-- A step that takes the lock and leaves the queue `q'` behind: a thread that posts then does it to the head of `q'`,
while nothing else is released. -/
theorem acquire {post : Option Nat} {r : Option (List Int)} (h : Turn n k ws release loc q) (hi : i < n)
    (hpos : (loc i).pos = k) (hfree : ws.lock = none) (hlock : ws'.lock = some i) (hothers : ∀ j ≠ i, j ∈ q' ↔ j ∈ q)
    (hmine : i ∈ q' ↔ r ≠ none) (hnodup : q'.Nodup) (hring : n ≠ 1 → ws'.orderedCur < n ∧ ws'.queue n = q')
    (hpost : ∀ j, post = some j → n ≠ 1 ∧ j ∈ q') (howner : n ≠ 1 → ∀ j, ws'.orderedOwner = some j → j ∈ q')
    (hpast : n ≠ 1 → ∀ j < n, j ≠ i → (loc j).pos = k → (loc j).status.Past → ws'.orderedOwner = some j)
    (hback : n ≠ 1 → ∀ j, ws'.orderedOwner = some j → ws.orderedOwner = some j)
    (hrel : n ≠ 1 → ∀ j < n, (loc j).pos = k ∨ j = i →
      release j + tally post j + (if j ≠ i ∧ (loc j).status.Claims then 1 else 0) +
        tally ws'.orderedOwner j = tally q'.head? j) :
    Turn n k ws' release (Function.update loc i ⟨k, .locked post r⟩) q' := by
  have hpend : pendingPost ws' (Function.update loc i ⟨k, .locked post r⟩) = post := by
    unfold pendingPost
    rw [hlock, Option.bind_some, Function.update_self]
    rfl
  constructor
  · intro j
    by_cases hji : j = i
    · subst hji
      rw [Function.update_self, hmine]
      exact ⟨fun hr => ⟨hi, rfl, hr⟩, fun hr => hr.2.2⟩
    · rw [Function.update_of_ne hji, hothers j hji]
      exact h.mem j
  · exact hnodup
  · intro j
    rw [hlock]
    by_cases hji : j = i
    · subst hji
      rw [Function.update_self]
      exact ⟨fun _ => ⟨hi, rfl, trivial⟩, fun _ => rfl⟩
    · rw [Function.update_of_ne hji]
      constructor
      · rintro ⟨⟩
        exact absurd rfl hji
      · intro hl
        have hl := (h.lock j).2 hl
        rw [hfree] at hl
        cases hl
  · exact hring
  · rw [hpend]
    exact hpost
  · exact howner
  · intro hn j hj hk hp
    by_cases hji : j = i
    · subst hji
      rw [Function.update_self] at hp
      exact hp.elim
    · rw [Function.update_of_ne hji] at hk hp
      exact hpast hn j hj hji hk hp
  · intro j hj hk hw
    by_cases hji : j = i
    · subst hji
      rw [Function.update_self] at hw
      exact hw.elim
    · rw [Function.update_of_ne hji] at hk hw
      obtain ⟨hn, hne⟩ := h.waiting j hj hk hw
      exact ⟨hn, fun ho => hne (hback hn j ho)⟩
  · intro hn j hj hk
    by_cases hji : j = i
    · subst hji
      have hnc : ¬ (Function.update loc j ⟨k, .locked post r⟩ j).status.Claims := by
        rw [Function.update_self]
        exact fun h => h
      have hself : ¬ (j ≠ j ∧ (loc j).status.Claims) := fun hc => hc.1 rfl
      rw [← hrel hn j hj (.inr rfl)]
      unfold releases
      rw [hpend, if_neg hnc, if_neg hself]
    · rw [Function.update_of_ne hji] at hk
      rw [← hrel hn j hj (.inl hk)]
      unfold releases
      simp only [hpend, Function.update_of_ne hji, ne_eq, hji, not_false_eq_true, true_and]

/-- The holder of the lock posts. -/
theorem posts {j : Nat} {r : Option (List Int)} (h : Turn n k ws release loc q) (hi : i < n) (hpos : (loc i).pos = k)
    (hst : (loc i).status = .locked (some j) r) :
    Turn n k ws (Function.update release j (release j + 1)) (Function.update loc i ⟨k, .locked none r⟩) q := by
  have hl : ws.lock = some i := (h.lock i).2 ⟨hi, hpos, by rw [hst]; trivial⟩
  have hpend : pendingPost ws loc = some j := by
    unfold pendingPost
    rw [hl, Option.bind_some, hst]
    rfl
  have hpend' : pendingPost ws (Function.update loc i ⟨k, .locked none r⟩) = none := by
    unfold pendingPost
    rw [hl, Option.bind_some, Function.update_self]
    rfl
  have hitems : (loc i).status.items = (OrderedStatus.locked none r).items := by rw [hst]; rfl
  have hclaims : ∀ x, (Function.update loc i ⟨k, .locked none r⟩ x).status.Claims ↔ (loc x).status.Claims := by
    intro x
    by_cases hxi : x = i
    · subst hxi
      rw [Function.update_self, hst]
      exact Iff.rfl
    · rw [Function.update_of_ne hxi]
  constructor
  · intro x
    by_cases hxi : x = i
    · subst hxi
      rw [Function.update_self, h.mem, hitems, hpos]
    · rw [Function.update_of_ne hxi]
      exact h.mem x
  · exact h.nodup
  · intro x
    by_cases hxi : x = i
    · subst hxi
      rw [Function.update_self]
      exact ⟨fun _ => ⟨hi, rfl, trivial⟩, fun _ => hl⟩
    · rw [Function.update_of_ne hxi]
      exact h.lock x
  · exact h.ring
  · rw [hpend']
    exact fun x hx => nomatch hx
  · exact h.owner
  · intro hn x hx hk hp
    by_cases hxi : x = i
    · subst hxi
      rw [Function.update_self] at hp
      exact hp.elim
    · rw [Function.update_of_ne hxi] at hk hp
      exact h.past hn x hx hk hp
  · intro x hx hk hw
    by_cases hxi : x = i
    · subst hxi
      rw [Function.update_self] at hw
      exact hw.elim
    · rw [Function.update_of_ne hxi] at hk hw
      exact h.waiting x hx hk hw
  · intro hn x hx hk
    have hk' : (loc x).pos = k := by
      by_cases hxi : x = i
      · rw [hxi]; exact hpos
      · rwa [Function.update_of_ne hxi] at hk
    have hold := h.released hn x hx hk'
    unfold releases at hold ⊢
    simp only [hpend', hclaims]
    rw [hpend] at hold
    by_cases hxj : x = j
    · subst hxj
      rw [Function.update_self, tally_none]
      rw [tally_self] at hold
      omega
    · have hne : some j ≠ some x := fun he => hxj (Option.some.inj he).symm
      rw [Function.update_of_ne hxj, tally_none]
      rw [tally_of_ne hne] at hold
      omega

/-- The holder of the lock, with nobody left to post to, unlocks. -/
theorem unlocks {r : Option (List Int)} (h : Turn n k ws release loc q) (hi : i < n) (hpos : (loc i).pos = k)
    (hst : (loc i).status = .locked none r) (hm' : r = none ∧ m'.pos ≠ k ∨ ∃ items, r = some items ∧
      m' = ⟨k, .body items⟩) :
    Turn n k { ws with lock := none } release (Function.update loc i m') q := by
  have hl : ws.lock = some i := (h.lock i).2 ⟨hi, hpos, by rw [hst]; trivial⟩
  have hpend : pendingPost ws loc = none := by
    unfold pendingPost
    rw [hl, Option.bind_some, hst]
    rfl
  have hpend' : pendingPost { ws with lock := none } (Function.update loc i m') = none := rfl
  have hitems : (loc i).status.items = r := by rw [hst]; rfl
  -- the thread has left, or runs its chunk
  have hgone : m'.pos = k → ∃ items, r = some items ∧ m'.status = .body items := by
    rcases hm' with ⟨-, hne⟩ | ⟨items, hr, rfl⟩
    · exact fun hk => absurd hk hne
    · exact fun _ => ⟨items, hr, rfl⟩
  constructor
  · intro x
    by_cases hxi : x = i
    · subst hxi
      rw [Function.update_self, h.mem, hitems]
      constructor
      · rintro ⟨-, -, hr⟩
        rcases hm' with ⟨hr', -⟩ | ⟨items, -, rfl⟩
        · exact absurd hr' hr
        · exact ⟨hi, rfl, Option.some_ne_none _⟩
      · rintro ⟨-, hk, -⟩
        obtain ⟨items, rfl, -⟩ := hgone hk
        exact ⟨hi, hpos, Option.some_ne_none _⟩
    · rw [Function.update_of_ne hxi]
      exact h.mem x
  · exact h.nodup
  · intro x
    constructor
    · exact fun hx => nomatch hx
    · rintro ⟨hx, hk, hxl⟩
      by_cases hxi : x = i
      · subst hxi
        rw [Function.update_self] at hk hxl
        obtain ⟨items, -, hst'⟩ := hgone hk
        rw [hst'] at hxl
        exact hxl.elim
      · rw [Function.update_of_ne hxi] at hk hxl
        have hx' := (h.lock x).2 ⟨hx, hk, hxl⟩
        rw [hl] at hx'
        exact absurd (Option.some.inj hx').symm hxi
  · exact h.ring
  · exact fun x hx => nomatch hx
  · exact h.owner
  · intro hn x hx hk hp
    by_cases hxi : x = i
    · subst hxi
      rw [Function.update_self] at hk hp
      obtain ⟨items, -, hst'⟩ := hgone hk
      rw [hst'] at hp
      exact hp.elim
    · rw [Function.update_of_ne hxi] at hk hp
      exact h.past hn x hx hk hp
  · intro x hx hk hw
    by_cases hxi : x = i
    · subst hxi
      rw [Function.update_self] at hk hw
      obtain ⟨items, -, hst'⟩ := hgone hk
      rw [hst'] at hw
      exact hw.elim
    · rw [Function.update_of_ne hxi] at hk hw
      exact h.waiting x hx hk hw
  · intro hn x hx hk
    have hclaims : (Function.update loc i m' x).status.Claims ↔ (loc x).status.Claims := by
      by_cases hxi : x = i
      · subst hxi
        rw [Function.update_self] at hk ⊢
        obtain ⟨items, -, hst'⟩ := hgone hk
        rw [hst', hst]
        exact Iff.rfl
      · rw [Function.update_of_ne hxi]
    have hk' : (loc x).pos = k := by
      by_cases hxi : x = i
      · rw [hxi]; exact hpos
      · rwa [Function.update_of_ne hxi] at hk
    have hold := h.released hn x hx hk'
    unfold releases at hold ⊢
    simp only [hpend', hclaims]
    rw [hpend] at hold
    exact hold

end

end Turn

/-! ## The steps -/

section

variable {L : OrderedLoop} {n k i : Nat} {s s' : OrderedTeam} {ws ws' : OrderedShare} {release : Nat → Nat}
  {loc : Nat → OrderedMember} {q : List Nat} {m' : OrderedMember} {e : Option OrderedEvent} {post : Option Nat}
  {r : Option (List Int)}

/-- What a `*_start` function does under the lock. -/
theorem gompLoopOrderedStart_cases (h : gompLoopOrderedStart L n i ws = some (ws', post, r)) :
    (L.iter ws.next = some none ∧ ws' = ws ∧ post = none ∧ r = none) ∨
    ∃ c, L.iter ws.next = some (some c) ∧ r = some (L.items c) ∧
      (ws', post) = gompOrderedFirst n i { ws with next := c.2 } := by
  obtain ⟨ret, hret, h⟩ := Option.bind_eq_some_iff.1 h
  cases ret with
  | none =>
    cases h
    exact .inl ⟨hret, rfl, rfl, rfl⟩
  | some c =>
    cases h
    exact .inr ⟨c, hret, rfl, rfl⟩

/-- What a `*_next` function does under the lock. -/
theorem gompLoopOrderedNext_cases (h : gompLoopOrderedNext L n i ws = some (ws', post, r)) :
    (L.iter ws.next = some none ∧ r = none ∧ (ws', post) = gompOrderedLast n ws) ∨
    ∃ c, L.iter ws.next = some (some c) ∧ r = some (L.items c) ∧
      (ws', post) = gompOrderedNext n i { ws with next := c.2 } := by
  obtain ⟨ret, hret, h⟩ := Option.bind_eq_some_iff.1 h
  cases ret with
  | none =>
    cases h
    exact .inl ⟨hret, rfl, rfl⟩
  | some c =>
    cases h
    exact .inr ⟨c, hret, rfl, rfl⟩

/-- A thread whose call of a `*_start` function got nothing. -/
theorem Turn.start_none (h : Turn n k ws release loc q) (hi : i < n) (hpos : (loc i).pos = k)
    (hst : (loc i).status = .outside) (hfree : ws.lock = none) :
    Turn n k { ws with lock := some i } release (Function.update loc i ⟨k, .locked none none⟩) q := by
  have hnot : i ∉ q := fun hmem => ((h.mem i).1 hmem).2.2 (by rw [hst]; rfl)
  refine h.acquire hi hpos hfree rfl (fun j _ => Iff.rfl) (by simp [hnot]) h.nodup h.ring nofun h.owner ?_ ?_ ?_
  · exact fun hn j hj _ hk hp => h.past hn j hj hk hp
  · exact fun _ _ ho => ho
  · intro hn j hj hk
    have hk : (loc j).pos = k := by
      rcases hk with hk | rfl
      · exact hk
      · exact hpos
    have hold := h.released hn j hj hk
    have hclaims : (j ≠ i ∧ (loc j).status.Claims) ↔ (loc j).status.Claims := by
      refine ⟨And.right, fun hc => ⟨?_, hc⟩⟩
      rintro rfl
      rw [hst] at hc
      exact hc.elim
    unfold releases pendingPost at hold
    rw [hfree] at hold
    simp only [hclaims]
    exact hold

/-- A thread with its first chunk joins the queue. -/
theorem Turn.start_some {c : Word} (h : Turn n k ws release loc q) (hi : i < n) (hpos : (loc i).pos = k)
    (hst : (loc i).status = .outside) (hfree : ws.lock = none) (items : List Int)
    (hrun : (ws', post) = gompOrderedFirst n i { ws with next := c }) :
    Turn n k { ws' with lock := some i } release (Function.update loc i ⟨k, .locked post (some items)⟩) (q ++ [i]) := by
  have hnot : i ∉ q := fun hmem => ((h.mem i).1 hmem).2.2 (by rw [hst]; rfl)
  have hnodup : (q ++ [i]).Nodup := by
    rw [List.nodup_append]
    refine ⟨h.nodup, List.nodup_singleton i, fun a ha b hb => ?_⟩
    rintro rfl
    rw [List.mem_singleton] at hb
    exact hnot (hb ▸ ha)
  -- a team of one has no queue to keep
  have hone : n = 1 → post = none := by
    rintro rfl
    rw [gompOrderedFirst, if_pos rfl] at hrun
    exact congrArg Prod.snd hrun
  have hstep : n ≠ 1 → QueueStep n (ws', post) (q ++ [i]) (if q = [] then some i else none) ws.orderedOwner := by
    intro hn
    have hused : ws.orderedNumUsed < n := by
      rw [h.used hn]
      exact h.length_lt hi hnot
    have hq := gompOrderedFirst_queue i { ws with next := c } hn (h.ring hn).1 hused
    have hqueue : OrderedShare.queue n { ws with next := c } = q := (h.ring hn).2
    rw [← hrun, hqueue] at hq
    exact hq
  refine h.acquire hi hpos hfree rfl (fun j hj => by simp [hj]) (by simp) hnodup ?_ ?_ ?_ ?_ ?_ ?_
  · exact fun hn => ⟨(hstep hn).cur, (hstep hn).queue⟩
  · intro j hj
    by_cases hn : n = 1
    · rw [hone hn] at hj
      cases hj
    · have hpost : post = if q = [] then some i else none := (hstep hn).post
      rw [hpost] at hj
      split at hj
      · cases hj
        exact ⟨hn, by simp⟩
      · cases hj
  · intro hn j hj
    have howner : ws'.orderedOwner = ws.orderedOwner := (hstep hn).owner
    exact List.mem_append_left _ (h.owner hn j (howner.symm.trans hj))
  · intro hn j hj _ hk hp
    exact (hstep hn).owner.trans (h.past hn j hj hk hp)
  · exact fun hn j ho => (hstep hn).owner.symm.trans ho
  · intro hn j hj hk
    have hk : (loc j).pos = k := by
      rcases hk with hk | rfl
      · exact hk
      · exact hpos
    have hold := h.released hn j hj hk
    have hclaims : (j ≠ i ∧ (loc j).status.Claims) ↔ (loc j).status.Claims := by
      refine ⟨And.right, fun hc => ⟨?_, hc⟩⟩
      rintro rfl
      rw [hst] at hc
      exact hc.elim
    have hpost : post = if q = [] then some i else none := (hstep hn).post
    have howner : ws'.orderedOwner = ws.orderedOwner := (hstep hn).owner
    unfold releases pendingPost at hold
    simp only [hfree, Option.bind_none, tally_none] at hold
    simp only [hclaims, howner, hpost]
    -- the newcomer is released exactly when nobody is before it
    cases q with
    | nil =>
      simp only [List.head?_nil, tally_none] at hold
      simp only [if_true, List.nil_append, List.head?_cons]
      omega
    | cons x t =>
      simp only [List.head?_cons] at hold
      simp only [reduceCtorEq, if_false, List.cons_append, List.head?_cons, tally_none]
      omega

/-- What the head of the queue leaves behind when it hands the construct on. -/
theorem Turn.hand_on {behind q' : List Nat} (h : Turn n k ws release loc (i :: behind)) (hi : i < n)
    (hpos : (loc i).pos = k) (hst : (loc i).status = .synced) (hfree : ws.lock = none)
    (hothers : ∀ j ≠ i, j ∈ q' ↔ j ∈ behind) (hmine : i ∈ q' ↔ r ≠ none) (hnodup : q'.Nodup)
    (hone : n = 1 → post = none)
    (hstep : n ≠ 1 → QueueStep n (ws', post) q' q'.head? none) :
    Turn n k { ws' with lock := some i } release (Function.update loc i ⟨k, .locked post r⟩) q' := by
  have hpast : (loc i).status.Past := by rw [hst]; trivial
  refine h.acquire hi hpos hfree rfl (fun j hj => by simp [hothers j hj, hj]) hmine hnodup ?_ ?_ ?_ ?_ ?_ ?_
  · exact fun hn => ⟨(hstep hn).cur, (hstep hn).queue⟩
  · intro j hj
    by_cases hn : n = 1
    · rw [hone hn] at hj
      cases hj
    · have hpost : post = q'.head? := (hstep hn).post
      exact ⟨hn, List.mem_of_mem_head? (hpost ▸ hj)⟩
  · intro hn j hj
    have howner : ws'.orderedOwner = none := (hstep hn).owner
    rw [show ({ ws' with lock := some i } : OrderedShare).orderedOwner = ws'.orderedOwner from rfl, howner] at hj
    cases hj
  · -- nobody else is through `gomp_ordered_sync`
    intro hn j hj hji hk hp
    obtain ⟨t, ht⟩ := h.head_of_past hj hk hp
    exact absurd (List.cons.inj ht).1.symm hji
  · exact fun hn j ho => nomatch (hstep hn).owner.symm.trans ho
  · intro hn j hj hk
    have hk : (loc j).pos = k := by
      rcases hk with hk | rfl
      · exact hk
      · exact hpos
    have hpost : post = q'.head? := (hstep hn).post
    have howner : ws'.orderedOwner = none := (hstep hn).owner
    -- before the step, the release was the ownership of the head
    have hold := h.released hn j hj hk
    unfold releases pendingPost at hold
    simp only [hfree, Option.bind_none, tally_none, h.past hn i hi hpos hpast, List.head?_cons] at hold
    have hclaims : ¬ (j ≠ i ∧ (loc j).status.Claims) := by
      rintro ⟨hji, hc⟩
      rw [if_pos hc] at hold
      omega
    simp only [howner, hpost, tally_none, if_neg hclaims]
    omega

/-- A thread that is dealt another chunk moves to the end of the queue. -/
theorem Turn.next_some {c : Word} {behind : List Nat} (h : Turn n k ws release loc (i :: behind)) (hi : i < n)
    (hpos : (loc i).pos = k) (hst : (loc i).status = .synced) (hfree : ws.lock = none) (items : List Int)
    (hrun : (ws', post) = gompOrderedNext n i { ws with next := c }) :
    Turn n k { ws' with lock := some i } release (Function.update loc i ⟨k, .locked post (some items)⟩)
      (behind ++ [i]) := by
  have hnodup : (behind ++ [i]).Nodup := (List.perm_append_singleton i behind).nodup_iff.2 h.nodup
  refine h.hand_on hi hpos hst hfree (fun j hj => by simp [hj]) (by simp) hnodup ?_ fun hn => ?_
  · rintro rfl
    rw [gompOrderedNext, if_pos rfl] at hrun
    exact congrArg Prod.snd hrun
  · have hused : ws.orderedNumUsed ≤ n := by
      rw [h.used hn]
      exact h.length_le
    rw [hrun]
    exact gompOrderedNext_queue { ws with next := c } hn (h.ring hn).1 hused (h.ring hn).2

/-- A thread for which there is no other chunk leaves the queue. -/
theorem Turn.next_none {behind : List Nat} (h : Turn n k ws release loc (i :: behind)) (hi : i < n)
    (hpos : (loc i).pos = k) (hst : (loc i).status = .synced) (hfree : ws.lock = none)
    (hrun : (ws', post) = gompOrderedLast n ws) :
    Turn n k { ws' with lock := some i } release (Function.update loc i ⟨k, .locked post none⟩) behind := by
  obtain ⟨hnot, hnodup⟩ := List.nodup_cons.1 h.nodup
  refine h.hand_on hi hpos hst hfree (fun j _ => Iff.rfl) (by simp [hnot]) hnodup ?_ fun hn => ?_
  · rintro rfl
    rw [gompOrderedLast, if_pos rfl] at hrun
    exact congrArg Prod.snd hrun
  · have hused : ws.orderedNumUsed ≤ n := by
      rw [h.used hn]
      exact h.length_le
    rw [hrun]
    exact gompOrderedLast_queue hn (h.ring hn).1 hused (h.ring hn).2

theorem orderedSynced_items (block : Option (Int × List Int)) :
    (orderedSynced k block).1.items ≠ none ∧ ¬ (orderedSynced k block).1.HoldsLock ∧
      ¬ (orderedSynced k block).1.Claims ∧ ¬ (orderedSynced k block).1.Waits := by
  cases block with
  | none => exact ⟨Option.some_ne_none _, fun h => h, fun h => h, fun h => h⟩
  | some b => exact ⟨Option.some_ne_none _, fun h => h, fun h => h, fun h => h⟩

/-- Every other step of a thread of the loop leaves the queue as it is. -/
theorem OrderedRule.turn (hr : OrderedRule L n i s (loc i) s' m' e) (hi : i < n) (hout : (loc i).status ≠ .outside)
    (hsynced : (loc i).status ≠ .synced) (h : Turn n (loc i).pos (s.shares (loc i).pos) s.release loc q) :
    Turn n (loc i).pos (s'.shares (loc i).pos) s'.release (Function.update loc i m') q := by
  have hring := (⟨rfl, rfl⟩ : (s.shares (loc i).pos).orderedCur = (s.shares (loc i).pos).orderedCur ∧
    (s.shares (loc i).pos).queue n = (s.shares (loc i).pos).queue n)
  cases hr with
  | start hst => exact absurd hst hout
  | next hst => exact absurd hst hsynced
  | order v items hst | skip v items hst | done hst | leave v items hst =>
    all_goals
      refine h.same hi rfl rfl (by rw [hst]; nofun) nofun (by rw [hst]; exact fun h => h) (fun h => h) rfl hring
        (fun _ _ _ => Iff.rfl) (fun _ h => h.elim) (fun h => h.elim) (fun _ _ => rfl) fun _ => ?_
      rw [hst]
      rfl
  | notMine block hst hn hown =>
    refine h.same hi rfl rfl (by rw [hst]; exact Option.some_ne_none _) (Option.some_ne_none _)
      (by rw [hst]; exact fun h => h) (fun h => h) rfl hring (fun _ _ _ => Iff.rfl) (fun _ h => h.elim)
      (fun _ => ⟨hn, hown⟩) (fun _ _ => rfl) fun _ => ?_
    rw [hst]
    rfl
  | mine block hst hown =>
    obtain ⟨hitems, hnl, hnc, hnw⟩ := orderedSynced_items (k := (loc i).pos) block
    have hitems' : (loc i).status.items ≠ none := by rw [hst]; exact Option.some_ne_none _
    have hnc' : ¬ (loc i).status.Claims := by rw [hst]; exact fun h => h
    refine h.same hi rfl rfl hitems' hitems (by rw [hst]; exact fun h => h) hnl rfl hring (fun _ _ _ => Iff.rfl)
      (fun hn _ => hown.resolve_left hn) (fun hw => absurd hw hnw) (fun _ _ => rfl) fun _ => ?_
    rw [if_neg hnc, if_neg hnc']
  | wait block hst hsem =>
    refine h.same hi rfl rfl (by rw [hst]; exact Option.some_ne_none _) (Option.some_ne_none _)
      (by rw [hst]; exact fun h => h) (fun h => h) rfl hring (fun _ _ _ => Iff.rfl) (fun _ h => h.elim)
        (fun h => h.elim)
      (fun j hj => Function.update_of_ne hj ..) fun _ => ?_
    have hnc : ¬ (loc i).status.Claims := by rw [hst]; exact fun h => h
    rw [if_neg hnc]
    show Function.update s.release i (s.release i - 1) i + 1 + tally (s.shares (loc i).pos).orderedOwner i = _
    rw [Function.update_self]
    omega
  | claim block hst =>
    obtain ⟨hitems, hnl, hnc, hnw⟩ := orderedSynced_items (k := (loc i).pos) block
    have hitems' : (loc i).status.items ≠ none := by rw [hst]; exact Option.some_ne_none _
    have hc : (loc i).status.Claims := by rw [hst]; trivial
    rw [OrderedTeam.put_self]
    -- the release is the one this thread has taken, so nobody is the owner
    have hfree : n ≠ 1 → (s.shares (loc i).pos).orderedOwner = none := by
      intro hn
      obtain ⟨hhead, hone⟩ := h.head_of_releases hn hi rfl (by unfold releases; rw [if_pos hc]; omega)
      cases hown : (s.shares (loc i).pos).orderedOwner with
      | none => rfl
      | some j =>
        have hjm := h.owner hn j hown
        obtain ⟨hj, hjk, -⟩ := (h.mem j).1 hjm
        obtain ⟨hhead', -⟩ := h.head_of_releases hn hj hjk (by unfold releases; rw [hown, tally_self]; omega)
        have hij : i = j := Option.some.inj (hhead.symm.trans hhead')
        subst hij
        unfold releases at hone
        rw [hown, tally_self, if_pos hc] at hone
        omega
    refine h.same hi rfl rfl hitems' hitems (by rw [hst]; exact fun h => h) hnl rfl hring ?_ (fun _ _ => rfl)
      (fun hw => absurd hw hnw) (fun _ _ => rfl) fun hn => ?_
    · intro hn j hj
      rw [hfree hn]
      exact ⟨fun he => absurd (Option.some.inj he).symm hj, nofun⟩
    · rw [if_neg hnc, if_pos hc, hfree hn, tally_none, tally_self]
      rfl
  | post j r hst => exact h.posts hi rfl hst
  | unlock items hst =>
    rw [OrderedTeam.put_self]
    exact h.unlocks hi rfl hst (.inr ⟨items, rfl, rfl⟩)
  | unlockLast hst =>
    rw [OrderedTeam.put_self]
    exact h.unlocks hi rfl hst (.inl ⟨rfl, by simp⟩)

end

end Bosched
