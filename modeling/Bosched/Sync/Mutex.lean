/-
`gomp_mutex_t` of `config/linux`: a futex that is 0 while the mutex is free, 1 while it is taken, and -1 while it is
taken and threads may be asleep. It excludes, and nobody is left asleep when it is free.
-/
import Bosched.Lib.Futex
import Bosched.Lib.Halting

namespace Bosched

open Lib

variable {ι : Type} [DecidableEq ι]

/-- Where a thread is: outside; in the first loop of `gomp_mutex_lock_slow`, spinning, about to set the flag, or about
to try again; in the second, about to exchange, or spinning; about to call `futex_wait`, or asleep; with the mutex; in
`gomp_mutex_unlock_slow`. -/
inductive MutexAt
  | out | spin | flag | retry | exchange | respin | wait | asleep | holds | wake
  deriving DecidableEq, Repr

/-- The head of the first loop of `gomp_mutex_lock_slow`. -/
def gompMutexLockSlow (oldval : Int) : MutexAt := if oldval = 1 then .spin else .exchange

/-- The steps of `gomp_mutex_lock` and `gomp_mutex_unlock`. -/
def gompMutex : Prog ι (FutexAct ι) (Futex ι Int) MutexAt Empty := fun i a m loc =>
  match loc, a with
  | .out, .go | .retry, .go =>
    if m.word = 0 then some ({ m with word := 1 }, .holds, none) else some (m, gompMutexLockSlow m.word, none)
  | .spin, .timeout => some (m, .flag, none)
  | .spin, .changed => if m.word ≠ 1 then some (m, .retry, none) else none
  | .flag, .go => some ({ m with word := -1 }, if m.word = 0 then .holds else .wait, none)
  | .exchange, .go => some ({ m with word := -1 }, if m.word = 0 then .holds else .respin, none)
  | .respin, .timeout => some (m, .wait, none)
  | .respin, .changed => if m.word ≠ -1 then some (m, .exchange, none) else none
  | .wait, .go =>
    let r := m.wait i (m.word = -1) MutexAt.asleep .exchange
    some (r.1, r.2, none)
  | .asleep, a => (m.sleep i MutexAt.exchange a).map fun r => (r.1, r.2, none)
  | .holds, .go => some ({ m with word := 0 }, if m.word < 0 then .wake else .out, none)
  | .wake, .wake j => (m.wake j).map fun m => (m, .out, none)
  | _, _ => none

/-- `gomp_mutex_init`. -/
def gompMutexInit : Cfg ι (Futex ι Int) MutexAt Empty := ⟨⟨0, []⟩, fun _ => .out, []⟩

/-! ## Nobody is left asleep -/

/-- A thread that will set the flag, or wake somebody. -/
def MutexAt.Busy : MutexAt → Prop
  | .exchange | .respin | .wait | .wake => True
  | _ => False

/-- Who sleeps may sleep on while the flag is set. -/
def MutexAttended (c : Cfg ι (Futex ι Int) MutexAt Empty) : Prop :=
  Attended Futex.asleep (· = MutexAt.asleep) (Woken Futex.asleep (· = MutexAt.asleep) MutexAt.Busy)
    (fun _ m _ => m.word = -1) c

/-- Steps other than the futex calls: the thread is busy after them, or the flag is set, or it was not busy before and
leaves a set flag alone. -/
theorem gompMutex_keeps {i : ι} {a : FutexAct ι} {m m' : Futex ι Int} {loc loc' : MutexAt} {e : Option Empty}
    (h : gompMutex i a m loc = some (m', loc', e)) (hwait : loc ≠ .wait) (hasleep : loc ≠ .asleep)
    (hwake : loc ≠ .wake) :
    m'.asleep = m.asleep ∧ (loc'.Busy ∨ m'.word = -1 ∨ (m.word = -1 → m'.word = -1) ∧ ¬ loc.Busy) := by
  cases loc with
  | wait => exact absurd rfl hwait
  | asleep => exact absurd rfl hasleep
  | wake => exact absurd rfl hwake
  | _ => cases a <;> simp only [gompMutex] at h <;> grind [MutexAt.Busy]

theorem gompMutex_attends {i : ι} {a : FutexAct ι} {m m' : Futex ι Int} {loc loc' : MutexAt} {e : Option Empty}
    (h : gompMutex i a m loc = some (m', loc', e)) :
    Attends Futex.asleep (· = MutexAt.asleep) (Woken Futex.asleep (· = MutexAt.asleep) MutexAt.Busy)
      (fun _ m _ => m.word = -1) i m loc m' loc' := by
  by_cases hcall : loc = .wait ∨ loc = .asleep ∨ loc = .wake
  · rcases hcall with rfl | rfl | rfl
    · rcases a with _ | _ | _ | _ | _ <;> cases h
      exact Futex.wait_attends rfl rfl rfl nofun rfl trivial fun hword _ _ =>
        (Futex.wait_word ..).trans (of_decide_eq_true hword)
    · obtain ⟨⟨m'', loc''⟩, hr, h⟩ := Option.map_eq_some_iff.1 h
      cases h
      exact Futex.sleep_attends hr rfl rfl trivial
    · rcases a with _ | _ | _ | j | _
      case wake =>
        obtain ⟨m'', hr, h⟩ := Option.map_eq_some_iff.1 h
        cases h
        exact Futex.wake_attends hr rfl rfl nofun
      all_goals cases h
  · push Not at hcall
    obtain ⟨hwait, hasleep, hwake⟩ := hcall
    obtain ⟨hqueue, hcase⟩ := gompMutex_keeps h hwait hasleep hwake
    refine .inner hqueue hasleep (hcase.imp_right ?_)
    rintro (hword | ⟨hmono, hbusy⟩)
    · exact .inl fun _ _ => hword
    · exact .inr ⟨fun _ _ => hmono, hbusy⟩

/-! ## Mutual exclusion -/

/-- The mutex is free just where its word is 0, and one thread has it otherwise. -/
structure MutexInv (c : Cfg ι (Futex ι Int) MutexAt Empty) : Prop where
  attended : MutexAttended c
  one : ∀ i j, c.loc i = .holds → c.loc j = .holds → i = j
  free : c.shared.word = 0 ↔ ∀ i, c.loc i ≠ .holds

/-- Threads get the mutex when the word is 0, and the word is 0 when they leave it; other steps leave alone whether it
is. -/
theorem gompMutex_cases {i : ι} {a : FutexAct ι} {m m' : Futex ι Int} {loc loc' : MutexAt} {e : Option Empty}
    (h : gompMutex i a m loc = some (m', loc', e)) :
    (loc ≠ .holds ∧ loc' = .holds ∧ m.word = 0 ∧ m'.word ≠ 0) ∨ (loc = .holds ∧ loc' ≠ .holds ∧ m'.word = 0) ∨
      (loc ≠ .holds ∧ loc' ≠ .holds ∧ (m'.word = 0 ↔ m.word = 0)) := by
  have hslow : ∀ w, gompMutexLockSlow w ≠ .holds := by
    intro w
    unfold gompMutexLockSlow
    split <;> nofun
  cases loc with
  | asleep =>
    obtain ⟨⟨m'', loc''⟩, hr, h⟩ := Option.map_eq_some_iff.1 h
    cases h
    obtain ⟨hword, rfl⟩ := Futex.sleep_word hr
    exact .inr (.inr ⟨nofun, nofun, by rw [hword]⟩)
  | wake =>
    cases a with
    | wake j =>
      obtain ⟨m'', hr, h⟩ := Option.map_eq_some_iff.1 h
      cases h
      exact .inr (.inr ⟨nofun, nofun, by rw [Futex.wake_word hr]⟩)
    | _ => cases h
  | holds =>
    cases a with
    | go =>
      cases h
      refine .inr (.inl ⟨rfl, ?_, rfl⟩)
      split <;> nofun
    | _ => cases h
  | _ => cases a <;> simp only [gompMutex] at h <;> grind [Futex.wait]

theorem MutexInv.step {c c' : Cfg ι (Futex ι Int) MutexAt Empty} (h : MutexInv c) (hs : Step gompMutex c c') :
    MutexInv c' := by
  have hattended := h.attended.step (fun _ _ _ _ _ hp => ⟨gompMutex_attends hp, (gompMutex_attends hp).woken⟩) hs
  cases hs with | @mk i a m' loc' e hp =>
  have hother : ∀ j, j ≠ i → Function.update c.loc i loc' j = c.loc j := fun j hj => Function.update_of_ne hj ..
  have hself : Function.update c.loc i loc' i = loc' := Function.update_self ..
  refine ⟨hattended, ?_, ?_⟩
  · -- a thread gets the mutex only when nobody has it
    intro j k hj hk
    change Function.update c.loc i loc' j = .holds at hj
    change Function.update c.loc i loc' k = .holds at hk
    by_cases hji : j = i <;> by_cases hki : k = i
    · rw [hji, hki]
    · rw [hother k hki] at hk
      rw [hji, hself] at hj
      rcases gompMutex_cases hp with ⟨-, -, hzero, -⟩ | ⟨-, hnot, -⟩ | ⟨-, hnot, -⟩
      · exact absurd hk (h.free.1 hzero k)
      · exact absurd hj hnot
      · exact absurd hj hnot
    · rw [hother j hji] at hj
      rw [hki, hself] at hk
      rcases gompMutex_cases hp with ⟨-, -, hzero, -⟩ | ⟨-, hnot, -⟩ | ⟨-, hnot, -⟩
      · exact absurd hj (h.free.1 hzero j)
      · exact absurd hk hnot
      · exact absurd hk hnot
    · rw [hother j hji] at hj
      rw [hother k hki] at hk
      exact h.one j k hj hk
  · show m'.word = 0 ↔ ∀ j, Function.update c.loc i loc' j ≠ .holds
    rcases gompMutex_cases hp with ⟨-, hgot, -, hne⟩ | ⟨hhad, hleft, hzero⟩ | ⟨hnot, hnot', hsame⟩
    · exact iff_of_false hne fun hall => hall i (hself.trans hgot)
    · refine iff_of_true hzero fun j => ?_
      by_cases hji : j = i
      · rwa [hji, hself]
      · rw [hother j hji]
        exact fun hj => hji (h.one j i hj hhad)
    · rw [hsame, h.free]
      refine forall_congr' fun j => ?_
      by_cases hji : j = i
      · rw [hji, hself]
        exact iff_of_true hnot hnot'
      · rw [hother j hji]

theorem MutexInv.reach {c : Cfg ι (Futex ι Int) MutexAt Empty} (hr : Reach gompMutex gompMutexInit c) : MutexInv c := by
  induction hr with
  | refl => exact ⟨⟨nofun, .inl nofun⟩, nofun, iff_of_true rfl fun _ => nofun⟩
  | tail _ hs ih => exact ih.step hs

/-! ## The threads inside get out -/

/-- How far a thread is from outside, when it meets with no one. -/
def MutexAt.rank : MutexAt → Nat
  | .out => 0
  | .wake => 1
  | .holds => 2
  | .flag | .retry | .exchange => 3
  | .spin | .respin | .wait | .asleep => 4

/-- Nobody starts to lock, and nobody wakes up for no reason. -/
def MutexAt.Inside (_ : ι) (a : FutexAct ι) (_ : Futex ι Int) (loc : MutexAt) : Prop := loc ≠ .out ∧ a ≠ .signal

instance (i : ι) (a : FutexAct ι) (m : Futex ι Int) (loc : MutexAt) : Decidable (MutexAt.Inside i a m loc) :=
  inferInstanceAs (Decidable (_ ∧ _))

/-- While somebody is inside, one of them can go on. -/
theorem MutexInv.moves {c : Cfg ι (Futex ι Int) MutexAt Empty} (h : MutexInv c) (hin : ∃ i, c.loc i ≠ .out) :
    ∃ i a m' loc' e, gompMutex.only MutexAt.Inside i a c.shared (c.loc i) = some (m', loc', e) ∧
      loc'.rank < (c.loc i).rank := by
  have hgo : ∀ i a m' loc', c.loc i ≠ .out → a ≠ .signal → gompMutex i a c.shared (c.loc i) = some (m', loc', none) →
      loc'.rank < (c.loc i).rank → ∃ i a m' loc' e, gompMutex.only MutexAt.Inside i a c.shared (c.loc i) =
        some (m', loc', e) ∧ loc'.rank < (c.loc i).rank := fun i a m' loc' hi ha hp hlt =>
    ⟨i, a, m', loc', none, Prog.only_eq_some.2 ⟨⟨hi, ha⟩, hp⟩, hlt⟩
  by_cases hzero : c.shared.word = 0
  · by_cases hwake : ∃ i, c.loc i = .wake
    · obtain ⟨i, hi⟩ := hwake
      obtain ⟨j, m', hj⟩ := c.shared.exists_wake
      refine hgo i (.wake j) m' .out (by rw [hi]; nofun) nofun ?_ (by rw [hi]; decide)
      rw [hi]
      show (c.shared.wake j).map _ = _
      rw [hj]
      rfl
    · push Not at hwake
      -- somebody inside is awake: the flag is not set, so that those asleep may not sleep on
      obtain ⟨i, hi, hawake⟩ : ∃ i, c.loc i ≠ .out ∧ i ∉ c.shared.asleep := by
        obtain ⟨i, hi⟩ := hin
        by_cases hq : i ∈ c.shared.asleep
        · rcases h.attended.attended with hall | ⟨j, hj | ⟨hj, hj'⟩⟩
          · have := hall i hq
            omega
          · refine ⟨j, fun heq => ?_, fun hm => ?_⟩
            · rw [heq] at hj
              exact hj
            · rw [h.attended.queued j hm] at hj
              exact hj
          · exact ⟨j, by rw [hj]; nofun, hj'⟩
        · exact ⟨i, hi, hq⟩
      have hhold := h.free.1 hzero i
      have hne := hwake i
      cases hloc : c.loc i with
      | out => exact absurd hloc hi
      | holds => exact absurd hloc hhold
      | wake => exact absurd hloc hne
      | spin =>
        refine hgo i .changed c.shared .retry hi nofun ?_ (by rw [hloc]; decide)
        simp [gompMutex, hloc, hzero]
      | flag =>
        refine hgo i .go { c.shared with word := -1 } .holds hi nofun ?_ (by rw [hloc]; decide)
        simp [gompMutex, hloc, hzero]
      | retry =>
        refine hgo i .go { c.shared with word := 1 } .holds hi nofun ?_ (by rw [hloc]; decide)
        simp [gompMutex, hloc, hzero]
      | exchange =>
        refine hgo i .go { c.shared with word := -1 } .holds hi nofun ?_ (by rw [hloc]; decide)
        simp [gompMutex, hloc, hzero]
      | respin =>
        refine hgo i .changed c.shared .exchange hi nofun ?_ (by rw [hloc]; decide)
        simp [gompMutex, hloc, hzero]
      | wait =>
        refine hgo i .go c.shared .exchange hi nofun ?_ (by rw [hloc]; decide)
        simp [gompMutex, Futex.wait, hloc, hzero]
      | asleep =>
        refine hgo i .go c.shared .exchange hi nofun ?_ (by rw [hloc]; decide)
        simp [gompMutex, Futex.sleep, hloc, hawake]
  · obtain ⟨i, hi⟩ : ∃ i, c.loc i = .holds := by
      by_contra hnone
      push Not at hnone
      exact hzero (h.free.2 hnone)
    refine hgo i .go { c.shared with word := 0 } (if c.shared.word < 0 then .wake else .out) (by rw [hi]; nofun) nofun
      (by rw [hi]; rfl) ?_
    rw [hi]
    split <;> decide

/-- **`gomp_mutex_t` excludes, and loses no wakeup.** In every interleaving of any threads, with spurious wakeups, one
thread at most has the mutex, and its word is 0 just when none has; and the threads inside can all get it and leave it,
with no help from threads outside or from spurious wakeups. -/
theorem gompMutex_excludes [Fintype ι] {c : Cfg ι (Futex ι Int) MutexAt Empty} (hr : Reach gompMutex gompMutexInit c) :
    (∀ i j, c.loc i = .holds → c.loc j = .holds → i = j) ∧ (c.shared.word = 0 ↔ ∀ i, c.loc i ≠ .holds) ∧
      ∃ c', Reach (gompMutex.only MutexAt.Inside) c c' ∧ ∀ i, c'.loc i = .out := by
  have h := MutexInv.reach hr
  exact ⟨h.one, h.free, exists_reach_only (Q := (· = MutexAt.out)) MutexAt.rank MutexInv.step MutexInv.moves h⟩

/-- Two threads wait for the mutex that a third has. -/
theorem gompMutex_excludes_three :
    ∃ c : Cfg (Fin 3) (Futex (Fin 3) Int) MutexAt Empty, Reach gompMutex gompMutexInit c ∧
      (c.loc 0 = .holds ∧ c.loc 1 = .asleep ∧ c.loc 2 = .asleep) ∧
      ((∀ i j, c.loc i = .holds → c.loc j = .holds → i = j) ∧ (c.shared.word = 0 ↔ ∀ i, c.loc i ≠ .holds) ∧
        ∃ c', Reach (gompMutex.only MutexAt.Inside) c c' ∧ ∀ i, c'.loc i = .out) := by
  have h : ((exec gompMutex gompMutexInit [((0 : Fin 3), FutexAct.go), (1, .go), (2, .go), (1, .timeout), (1, .go),
      (2, .timeout), (2, .go), (1, .go), (2, .go)]).map fun c => (c.loc 0, c.loc 1, c.loc 2)) =
        some (.holds, .asleep, .asleep) := by
    decide +kernel
  obtain ⟨c, hc, heq⟩ := Option.map_eq_some_iff.1 h
  simp only [Prod.mk.injEq] at heq
  exact ⟨c, reach_of_exec hc, heq, gompMutex_excludes (reach_of_exec hc)⟩

end Bosched
