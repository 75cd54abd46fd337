/-
The barrier of a team of `config/linux`, without tasks and cancellation: how many threads are still awaited, and a futex
that counts the generations. Nobody gets past the barrier before everybody has come to it, and nobody is left asleep at
it when everybody has.
-/
import Bosched.Lib.Futex

namespace Bosched

open Lib

variable {ι : Type} [DecidableEq ι]

/-- The high 29 bits of `generation`; the three low ones are flags for tasks and for cancellation. -/
abbrev Generation := BitVec 29

theorem generation_succ_ne (state : Generation) : state + 1 ≠ state := by
  bv_omega

structure GompBarrier (ι : Type) where
  generation : Futex ι Generation
  awaited : Int

/-- Where a thread is: outside; in `gomp_barrier_wait_start`, about to decrement `awaited`; in
`gomp_team_barrier_wait_end` as the last to come, about to write `awaited`, to write `generation`, or to wake all; as
another one, spinning, about to call `futex_wait`, asleep, or about to look at `generation`. -/
inductive BarrierAt
  | out | start (state : Generation) | reset (state : Generation) | store (state : Generation) | wake
    | spin (state : Generation) | wait (state : Generation) | asleep (state : Generation) | check (state : Generation)
  deriving DecidableEq, Repr

/-- A thread has come to the barrier, or left it. -/
inductive BarrierEvent
  | came | left
  deriving DecidableEq, Repr

/-- The steps of `gomp_team_barrier_wait`. -/
def gompTeamBarrierWait (total : Nat) : Prog ι (FutexAct ι) (GompBarrier ι) BarrierAt BarrierEvent := fun i a bar loc =>
  match loc, a with
  | .out, .go => some (bar, .start bar.generation.word, none)
  | .start state, .go =>
    let awaited := bar.awaited - 1
    some ({ bar with awaited := awaited }, if awaited = 0 then .reset state else .spin state, some .came)
  | .reset state, .go => some ({ bar with awaited := total }, .store state, none)
  | .store state, .go => some ({ bar with generation := { bar.generation with word := state + 1 } }, .wake, none)
  | .wake, .go => some ({ bar with generation := bar.generation.wakeAll }, .out, some .left)
  | .spin state, .timeout => some (bar, .wait state, none)
  | .spin state, .changed => if bar.generation.word ≠ state then some (bar, .check state, none) else none
  | .wait state, .go =>
    let r := bar.generation.wait i (bar.generation.word = state) (BarrierAt.asleep state) (.check state)
    some ({ bar with generation := r.1 }, r.2, none)
  | .asleep state, a =>
    (bar.generation.sleep i (BarrierAt.check state) a).map fun r => ({ bar with generation := r.1 }, r.2, none)
  | .check state, .go =>
    if bar.generation.word ≠ state + 1 then some (bar, .spin state, none) else some (bar, .out, some .left)
  | _, _ => none

/-- `gomp_barrier_init`. -/
def gompBarrierInit (count : Nat) : Cfg ι (GompBarrier ι) BarrierAt BarrierEvent :=
  ⟨⟨⟨0, []⟩, count⟩, fun _ => .out, []⟩

/-! ## Steps -/

/-- A thread that came to the barrier in a generation, and was not the last to. -/
def BarrierAt.Waits (state : Generation) : BarrierAt → Prop
  | .spin st | .wait st | .asleep st | .check st => st = state
  | _ => False

/-- What a step does to the count and to the generation. -/
inductive BarrierStep (total : Nat) (bar bar' : GompBarrier ι) : BarrierAt → BarrierAt → Option BarrierEvent → Prop
  | enter (hword : bar'.generation.word = bar.generation.word) (h : bar'.awaited = bar.awaited) :
      BarrierStep total bar bar' .out (.start bar.generation.word) none
  | come (state : Generation) (loc' : BarrierAt) (hword : bar'.generation.word = bar.generation.word)
      (h : bar'.awaited = bar.awaited - 1) (hloc' : loc' = if bar'.awaited = 0 then .reset state else .spin state) :
      BarrierStep total bar bar' (.start state) loc' (some .came)
  | reset (state : Generation) (hword : bar'.generation.word = bar.generation.word) (h : bar'.awaited = total) :
      BarrierStep total bar bar' (.reset state) (.store state) none
  | store (state : Generation) (hword : bar'.generation.word = state + 1) (h : bar'.awaited = bar.awaited) :
      BarrierStep total bar bar' (.store state) .wake none
  | wait (state : Generation) (loc loc' : BarrierAt) (hword : bar'.generation.word = bar.generation.word)
      (h : bar'.awaited = bar.awaited) (hloc : loc.Waits state) (hloc' : loc'.Waits state) :
      BarrierStep total bar bar' loc loc' none
  | leave (loc : BarrierAt) (hword : bar'.generation.word = bar.generation.word) (h : bar'.awaited = bar.awaited)
      (hloc : loc = .wake ∨ ∃ state, loc = .check state ∧ bar.generation.word = state + 1) :
      BarrierStep total bar bar' loc .out (some .left)

theorem gompTeamBarrierWait_check {total : Nat} {i : ι} {a : FutexAct ι} {bar bar' : GompBarrier ι}
    {state : Generation} {loc' : BarrierAt} {e : Option BarrierEvent}
    (h : gompTeamBarrierWait total i a bar (.check state) = some (bar', loc', e)) :
    bar' = bar ∧ (loc' = .spin state ∧ e = none ∨
      loc' = .out ∧ e = some .left ∧ bar.generation.word = state + 1) := by
  cases a with
  | go =>
    by_cases hword : bar.generation.word = state + 1
    · have hout := (if_neg (not_not.2 hword)).symm.trans h
      cases hout
      exact ⟨rfl, .inr ⟨rfl, rfl, hword⟩⟩
    · have hspin := (if_pos hword).symm.trans h
      cases hspin
      exact ⟨rfl, .inl ⟨rfl, rfl⟩⟩
  | timeout | changed | wake | signal => cases h

theorem gompTeamBarrierWait_step {total : Nat} {i : ι} {a : FutexAct ι} {bar bar' : GompBarrier ι}
    {loc loc' : BarrierAt} {e : Option BarrierEvent}
    (h : gompTeamBarrierWait total i a bar loc = some (bar', loc', e)) : BarrierStep total bar bar' loc loc' e := by
  cases loc with
  | out =>
    cases a <;> cases h
    exact .enter rfl rfl
  | start state =>
    cases a <;> cases h
    exact .come state _ rfl rfl rfl
  | reset state =>
    cases a <;> cases h
    exact .reset state rfl rfl
  | store state =>
    cases a <;> cases h
    exact .store state rfl rfl
  | wake =>
    cases a <;> cases h
    exact .leave .wake rfl rfl (.inl rfl)
  | spin state =>
    cases a with
    | timeout =>
      cases h
      exact .wait state _ _ rfl rfl rfl rfl
    | changed =>
      obtain ⟨-, h⟩ := Option.ite_none_right_eq_some.1 h
      cases h
      exact .wait state _ _ rfl rfl rfl rfl
    | go | wake | signal => cases h
  | wait state =>
    cases a <;> cases h
    refine .wait state _ _ (Futex.wait_word ..) rfl rfl ?_
    unfold Futex.wait
    split <;> rfl
  | asleep state =>
    obtain ⟨⟨f, loc''⟩, hr, h⟩ := Option.map_eq_some_iff.1 h
    cases h
    obtain ⟨hword, rfl⟩ := Futex.sleep_word hr
    exact .wait state _ _ hword rfl rfl rfl
  | check state =>
    obtain ⟨rfl, ⟨rfl, rfl⟩ | ⟨rfl, rfl, hword⟩⟩ := gompTeamBarrierWait_check h
    · exact .wait state _ _ rfl rfl rfl rfl
    · exact .leave _ rfl rfl (.inr ⟨state, rfl, hword⟩)

/-! ## Nobody is left asleep -/

def BarrierAt.Asleep (loc : BarrierAt) : Prop := ∃ state, loc = .asleep state

/-- Who sleeps may sleep on while the generation is the one he came in. -/
def BarrierAt.Quiet (_ : ι) (bar : GompBarrier ι) (loc : BarrierAt) : Prop :=
  ∀ state, loc = .asleep state → bar.generation.word = state

/-- Everybody asleep may sleep on, or somebody is about to wake all. -/
def BarrierAttended (c : Cfg ι (GompBarrier ι) BarrierAt BarrierEvent) : Prop :=
  Attended (fun bar => bar.generation.asleep) BarrierAt.Asleep (fun _ _ loc => loc = .wake) BarrierAt.Quiet c

/-- Steps other than the futex calls leave the queue alone, and the generation unless the thread is about to wake all
after them. -/
theorem gompTeamBarrierWait_keeps {total : Nat} {i : ι} {a : FutexAct ι} {bar bar' : GompBarrier ι}
    {loc loc' : BarrierAt} {e : Option BarrierEvent}
    (h : gompTeamBarrierWait total i a bar loc = some (bar', loc', e)) (hwait : ∀ state, loc ≠ .wait state)
    (hasleep : ∀ state, loc ≠ .asleep state) (hwake : loc ≠ .wake) :
    bar'.generation.asleep = bar.generation.asleep ∧
      (loc' = .wake ∨ bar'.generation.word = bar.generation.word) := by
  cases loc with
  | wait state => exact absurd rfl (hwait state)
  | asleep state => exact absurd rfl (hasleep state)
  | wake => exact absurd rfl hwake
  | out | start | reset =>
    cases a <;> cases h
    exact ⟨rfl, .inr rfl⟩
  | store =>
    cases a <;> cases h
    exact ⟨rfl, .inl rfl⟩
  | spin state =>
    cases a with
    | timeout =>
      cases h
      exact ⟨rfl, .inr rfl⟩
    | changed =>
      obtain ⟨-, h⟩ := Option.ite_none_right_eq_some.1 h
      cases h
      exact ⟨rfl, .inr rfl⟩
    | go | wake | signal => cases h
  | check state =>
    obtain ⟨rfl, -⟩ := gompTeamBarrierWait_check h
    exact ⟨rfl, .inr rfl⟩

theorem gompTeamBarrierWait_attends {total : Nat} {i : ι} {a : FutexAct ι} {bar bar' : GompBarrier ι}
    {loc loc' : BarrierAt} {e : Option BarrierEvent}
    (h : gompTeamBarrierWait total i a bar loc = some (bar', loc', e)) :
    Attends (fun bar => bar.generation.asleep) BarrierAt.Asleep (fun _ _ loc => loc = .wake) BarrierAt.Quiet i bar loc
      bar' loc' := by
  have hcongr : ∀ {b b' : GompBarrier ι}, b'.generation.word = b.generation.word →
      ∀ j m, BarrierAt.Quiet j b m → BarrierAt.Quiet j b' m :=
    fun hword _ _ hquiet state hm => hword.trans (hquiet state hm)
  by_cases hwait : ∃ state, loc = .wait state
  · obtain ⟨state, rfl⟩ := hwait
    cases a <;> cases h
    unfold Futex.wait
    split
    · rename_i hword
      refine .sleep rfl (fun hl => by obtain ⟨_, hl⟩ := hl; cases hl) ⟨state, rfl⟩
        (.inr ⟨hcongr rfl, fun st hst => ?_, by nofun⟩)
      cases hst
      exact of_decide_eq_true hword
    · exact .keep rfl (fun hl => by obtain ⟨_, hl⟩ := hl; cases hl) (.inr (.inr ⟨hcongr rfl, by nofun⟩))
  · by_cases hasleep : ∃ state, loc = .asleep state
    · obtain ⟨state, rfl⟩ := hasleep
      obtain ⟨⟨f, loc''⟩, hr, h⟩ := Option.map_eq_some_iff.1 h
      cases h
      exact Futex.sleep_attends_of_mono hr rfl rfl (hcongr (Futex.sleep_word hr).1) nofun
    · push Not at hwait hasleep
      by_cases hwake : loc = .wake
      · subst hwake
        cases a <;> cases h
        exact .none rfl
      · obtain ⟨hqueue, hcase⟩ := gompTeamBarrierWait_keeps h hwait hasleep hwake
        refine .keep hqueue (fun ⟨state, hl⟩ => absurd hl (hasleep state)) ?_
        rcases hcase with hloc' | hword
        · exact .inl hloc'
        · exact .inr (.inr ⟨hcongr hword, hwake⟩)

/-! ## Generations -/

/-- How often a thread has come to the barrier, or left it. -/
def timesOf (e : BarrierEvent) (i : ι) (log : List (ι × BarrierEvent)) : Nat := log.count (i, e)

theorem timesOf_logged (e : BarrierEvent) (i j : ι) (log : List (ι × BarrierEvent)) (e' : Option BarrierEvent) :
    timesOf e j (logged log i e') = timesOf e j log + if j = i ∧ e' = some e then 1 else 0 := by
  unfold timesOf
  cases e' with
  | none => simp
  | some e' =>
    rw [logged_some, List.count_append, List.count_singleton]
    grind

/-- Where a thread may be that has come `came` times and left `left` times, `g` generations after the first. -/
def BarrierAt.Ok (word : Generation) (g came left : Nat) : BarrierAt → Prop
  | .out => came = g ∧ left = g
  | .start state => state = word ∧ came = g ∧ left = g
  | .reset state | .store state => state = word ∧ came = g + 1 ∧ left = g
  | .wake => came = g ∧ left + 1 = g
  | .spin state | .wait state | .asleep state | .check state =>
    state = word ∧ came = g + 1 ∧ left = g ∨ state + 1 = word ∧ came = g ∧ left + 1 = g

/-- The last thread to come, before it has written the generation. -/
def BarrierAt.Last : BarrierAt → Prop
  | .reset _ | .store _ => True
  | _ => False

variable [Fintype ι]

/-- How often all threads have come. -/
def timesCome (log : List (ι × BarrierEvent)) : Nat := ∑ i, timesOf .came i log

/-- `g` generations after the first: threads have come in this generation or not yet, `awaited` counts those that have
not, and one thread is the last when all have. -/
structure BarrierInv (c : Cfg ι (GompBarrier ι) BarrierAt BarrierEvent) (g : Nat) : Prop where
  ok : ∀ i, (c.loc i).Ok c.shared.generation.word g (timesOf .came i c.log) (timesOf .left i c.log)
  one : ∀ i j, (c.loc i).Last → (c.loc j).Last → i = j
  full : ∀ i, (c.loc i).Last → ∀ j, timesOf .came j c.log = g + 1
  awaited : (∀ i state, c.loc i ≠ .store state) →
    c.shared.awaited + (timesCome c.log : Int) = (Fintype.card ι * (g + 1) : Nat)
  stored : ∀ i state, c.loc i = .store state → c.shared.awaited = Fintype.card ι
  pos : ∀ _ : ι, (∀ i, ¬ (c.loc i).Last) → 0 < c.shared.awaited

omit [Fintype ι] [DecidableEq ι] in
theorem BarrierAt.Ok.bounds {word : Generation} {g came left : Nat} {loc : BarrierAt}
    (h : loc.Ok word g came left) : left ≤ g ∧ g ≤ came ∧ came ≤ g + 1 := by
  cases loc <;> simp only [BarrierAt.Ok] at h <;> omega

omit [Fintype ι] in
theorem timesOf_other {e : BarrierEvent} {i j : ι} {log : List (ι × BarrierEvent)} {e' : Option BarrierEvent}
    (h : j ≠ i) : timesOf e j (logged log i e') = timesOf e j log := by
  rw [timesOf_logged, if_neg fun hi => h hi.1, Nat.add_zero]

omit [Fintype ι] in
theorem timesOf_ne {e : BarrierEvent} {i j : ι} {log : List (ι × BarrierEvent)} {e' : Option BarrierEvent}
    (h : e' ≠ some e) : timesOf e j (logged log i e') = timesOf e j log := by
  rw [timesOf_logged, if_neg fun hi => h hi.2, Nat.add_zero]

omit [Fintype ι] in
theorem timesOf_self {e : BarrierEvent} {i : ι} {log : List (ι × BarrierEvent)} :
    timesOf e i (logged log i (some e)) = timesOf e i log + 1 := by
  rw [timesOf_logged, if_pos ⟨rfl, rfl⟩]

theorem timesCome_ne {i : ι} {log : List (ι × BarrierEvent)} {e : Option BarrierEvent} (h : e ≠ some .came) :
    timesCome (logged log i e) = timesCome log :=
  Finset.sum_congr rfl fun _ _ => timesOf_ne h

theorem timesCome_came {i : ι} {log : List (ι × BarrierEvent)} :
    timesCome (logged log i (some .came)) = timesCome log + 1 := by
  unfold timesCome
  simp only [timesOf_logged, and_true, Finset.sum_add_distrib, Finset.sum_ite_eq', Finset.mem_univ, if_true]

/-- A step of a thread that is not the last one, and does not come, in the same generation. -/
theorem BarrierInv.keep {c : Cfg ι (GompBarrier ι) BarrierAt BarrierEvent} {g : Nat} (h : BarrierInv c g) {i : ι}
    {bar' : GompBarrier ι} {loc' : BarrierAt} {e : Option BarrierEvent}
    (hword : bar'.generation.word = c.shared.generation.word) (hawaited : bar'.awaited = c.shared.awaited)
    (he : e ≠ some .came) (hlast : ¬ (c.loc i).Last) (hlast' : ¬ loc'.Last)
    (hok : loc'.Ok c.shared.generation.word g (timesOf .came i c.log) (timesOf .left i (logged c.log i e))) :
    BarrierInv ⟨bar', Function.update c.loc i loc', logged c.log i e⟩ g := by
  have hother : ∀ j, j ≠ i → Function.update c.loc i loc' j = c.loc j := fun j hj => Function.update_of_ne hj ..
  have hself : Function.update c.loc i loc' i = loc' := Function.update_self ..
  have hsame : ∀ j, (Function.update c.loc i loc' j).Last ↔ (c.loc j).Last := by
    intro j
    by_cases hj : j = i
    · rw [hj, hself]
      exact iff_of_false hlast' hlast
    · rw [hother j hj]
  have hstore : ∀ j state, Function.update c.loc i loc' j = .store state ↔ c.loc j = .store state := by
    intro j state
    by_cases hj : j = i
    · rw [hj, hself]
      refine iff_of_false (fun hl => hlast' ?_) fun hl => hlast ?_
      · rw [hl]
        trivial
      · rw [hl]
        trivial
    · rw [hother j hj]
  refine ⟨fun j => ?_, fun j k hj hk => h.one j k ((hsame j).1 hj) ((hsame k).1 hk), fun j hj k => ?_, fun hno => ?_,
    fun j state hj => hawaited.trans (h.stored j state ((hstore j state).1 hj)), fun j hno => ?_⟩
  · show (Function.update c.loc i loc' j).Ok bar'.generation.word g _ _
    rw [hword, timesOf_ne he]
    by_cases hj : j = i
    · rw [hj, hself]
      exact hok
    · rw [hother j hj, timesOf_other hj]
      exact h.ok j
  · exact (timesOf_ne he).trans (h.full j ((hsame j).1 hj) k)
  · show bar'.awaited + ((timesCome (logged c.log i e) : Nat) : Int) = _
    rw [hawaited, timesCome_ne he]
    exact h.awaited fun j state hj => hno j state ((hstore j state).2 hj)
  · exact hawaited ▸ h.pos j fun k hk => hno k ((hsame k).2 hk)

/-- All have come as often as they can where each of them has. -/
theorem timesCome_eq_iff {log : List (ι × BarrierEvent)} {n : Nat} (hle : ∀ i, timesOf .came i log ≤ n) :
    timesCome log = Fintype.card ι * n ↔ ∀ i, timesOf .came i log = n := by
  have hsum : Fintype.card ι * n = ∑ _i : ι, n := by
    rw [Finset.sum_const, Finset.card_univ, smul_eq_mul]
  unfold timesCome
  rw [hsum, Finset.sum_eq_sum_iff_of_le fun i _ => hle i]
  exact ⟨fun h i => h i (Finset.mem_univ i), fun h i _ => h i⟩

/-- A thread comes: it is the last one where nobody is awaited any more. -/
theorem BarrierInv.come {c : Cfg ι (GompBarrier ι) BarrierAt BarrierEvent} {g : Nat} (h : BarrierInv c g) {i : ι}
    {state : Generation} (hloc : c.loc i = .start state) {bar' : GompBarrier ι}
    (hword : bar'.generation.word = c.shared.generation.word) (hawaited : bar'.awaited = c.shared.awaited - 1) :
    BarrierInv ⟨bar', Function.update c.loc i (if bar'.awaited = 0 then .reset state else .spin state),
      logged c.log i (some .came)⟩ g := by
  have hok := h.ok i
  rw [hloc] at hok
  obtain ⟨hstate, hcame, hleft⟩ := hok
  have hno : ∀ j, ¬ (c.loc j).Last := fun j hj => by
    have := h.full j hj i
    omega
  have hnostore : ∀ j st, c.loc j ≠ .store st := fun j st hj => hno j (by rw [hj]; trivial)
  have hcount := h.awaited hnostore
  have hpos := h.pos i hno
  have hother : ∀ l j, j ≠ i → Function.update c.loc i l j = c.loc j := fun l j hj => Function.update_of_ne hj ..
  have hself : ∀ l, Function.update c.loc i l i = l := fun l => Function.update_self ..
  have hlast : ∀ l j, (Function.update c.loc i l j).Last → j = i := fun l j hj => by
    by_contra hji
    rw [hother l j hji] at hj
    exact hno j hj
  have hleft' : timesOf .left i (logged c.log i (some .came)) = timesOf .left i c.log := timesOf_ne nofun
  have hok' : ∀ l : BarrierAt, l.Ok bar'.generation.word g (g + 1) g → ∀ j,
      (Function.update c.loc i l j).Ok bar'.generation.word g (timesOf .came j (logged c.log i (some .came)))
        (timesOf .left j (logged c.log i (some .came))) := by
    intro l hl j
    by_cases hj : j = i
    · rw [hj, hself, timesOf_self, hleft', hcame, hleft]
      exact hl
    · rw [hother l j hj, timesOf_other hj, timesOf_other hj, hword]
      exact h.ok j
  by_cases hzero : bar'.awaited = 0
  · rw [if_pos hzero]
    have hokr := hok' (.reset state) ⟨hstate.trans hword.symm, rfl, rfl⟩
    refine ⟨hokr, fun j k hj hk => (hlast _ j hj).trans (hlast _ k hk).symm, fun _ _ => ?_, fun _ => ?_,
      fun j st hj => ?_, fun _ hnone => absurd ?_ (hnone i)⟩
    · refine (timesCome_eq_iff fun j => (hokr j).bounds.2.2).1 ?_
      rw [timesCome_came]
      omega
    · show bar'.awaited + ((timesCome (logged c.log i (some .came)) : Nat) : Int) = _
      rw [timesCome_came]
      omega
    · change Function.update c.loc i (.reset state) j = .store st at hj
      by_cases hji : j = i
      · rw [hji, hself] at hj
        cases hj
      · rw [hother _ j hji] at hj
        exact absurd hj (hnostore j st)
    · show (Function.update c.loc i (.reset state) i).Last
      rw [hself]
      trivial
  · rw [if_neg hzero]
    have hnone : ∀ j, ¬ (Function.update c.loc i (.spin state) j).Last := fun j hj => by
      have hji := hlast _ j hj
      rw [hji, hself] at hj
      exact hj
    refine ⟨hok' (.spin state) (.inl ⟨hstate.trans hword.symm, rfl, rfl⟩), fun j _ hj => absurd hj (hnone j),
      fun j hj => absurd hj (hnone j), fun _ => ?_, fun j st hj => ?_, fun _ _ => ?_⟩
    · show bar'.awaited + ((timesCome (logged c.log i (some .came)) : Nat) : Int) = _
      rw [timesCome_came]
      omega
    · refine absurd ?_ (hnone j)
      change Function.update c.loc i (.spin state) j = .store st at hj
      rw [hj]
      trivial
    · show 0 < bar'.awaited
      omega

/-- The last thread writes `awaited`. -/
theorem BarrierInv.reset {c : Cfg ι (GompBarrier ι) BarrierAt BarrierEvent} {g : Nat} (h : BarrierInv c g) {i : ι}
    {state : Generation} (hloc : c.loc i = .reset state) {bar' : GompBarrier ι}
    (hword : bar'.generation.word = c.shared.generation.word) (hawaited : bar'.awaited = Fintype.card ι) :
    BarrierInv ⟨bar', Function.update c.loc i (.store state), c.log⟩ g := by
  have hi : (c.loc i).Last := by rw [hloc]; trivial
  have hother : ∀ j, j ≠ i → Function.update c.loc i (.store state) j = c.loc j := fun j hj =>
    Function.update_of_ne hj ..
  have hself : Function.update c.loc i (.store state) i = .store state := Function.update_self ..
  have hlast : ∀ j, (Function.update c.loc i (.store state) j).Last → j = i := fun j hj => by
    by_contra hji
    rw [hother j hji] at hj
    exact hji (h.one j i hj hi)
  refine ⟨fun j => ?_, fun j k hj hk => (hlast j hj).trans (hlast k hk).symm, fun _ _ => h.full i hi,
    fun hno => absurd hself (hno i state), fun _ _ _ => hawaited, fun _ hno => absurd ?_ (hno i)⟩
  swap
  · show (Function.update c.loc i (.store state) i).Last
    rw [hself]
    trivial
  show (Function.update c.loc i (.store state) j).Ok bar'.generation.word g _ _
  rw [hword]
  by_cases hj : j = i
  · have hok := h.ok i
    rw [hloc] at hok
    rw [hj, hself]
    exact hok
  · rw [hother j hj]
    exact h.ok j

/-- The last thread writes the generation: the next one has begun. -/
theorem BarrierInv.store {c : Cfg ι (GompBarrier ι) BarrierAt BarrierEvent} {g : Nat} (h : BarrierInv c g) {i : ι}
    {state : Generation} (hloc : c.loc i = .store state) {bar' : GompBarrier ι}
    (hword : bar'.generation.word = state + 1) (hawaited : bar'.awaited = c.shared.awaited) :
    BarrierInv ⟨bar', Function.update c.loc i .wake, c.log⟩ (g + 1) := by
  have hi : (c.loc i).Last := by rw [hloc]; trivial
  have hfull := h.full i hi
  have hoki := h.ok i
  rw [hloc] at hoki
  obtain ⟨hstate, -, hleft⟩ := hoki
  have hother : ∀ j, j ≠ i → Function.update c.loc i .wake j = c.loc j := fun j hj => Function.update_of_ne hj ..
  have hself : Function.update c.loc i .wake i = .wake := Function.update_self ..
  have hnone : ∀ j, ¬ (Function.update c.loc i .wake j).Last := fun j hj => by
    by_cases hji : j = i
    · rw [hji, hself] at hj
      exact hj
    · rw [hother j hji] at hj
      exact hji (h.one j i hj hi)
  have hcard : bar'.awaited = Fintype.card ι := hawaited.trans (h.stored i state hloc)
  refine ⟨fun j => ?_, fun j _ hj => absurd hj (hnone j), fun j hj => absurd hj (hnone j), fun _ => ?_,
    fun j st hj => ?_, fun j _ => ?_⟩
  · show (Function.update c.loc i .wake j).Ok bar'.generation.word (g + 1) _ _
    by_cases hj : j = i
    · rw [hj, hself]
      exact ⟨hfull i, congrArg (· + 1) hleft⟩
    · -- everybody else has come in the generation that is over now
      rw [hother j hj, hword]
      have hok := h.ok j
      have hcame := hfull j
      have hnot : ¬ (c.loc j).Last := fun hl => hj (h.one j i hl hi)
      cases hat : c.loc j with
      | out | start | wake =>
        rw [hat] at hok
        simp only [BarrierAt.Ok] at hok
        omega
      | reset | store =>
        rw [hat] at hnot
        exact absurd trivial hnot
      | spin st | wait st | asleep st | check st =>
        rw [hat] at hok
        rcases hok with ⟨hst, -, hl⟩ | ⟨-, hk, -⟩
        · exact .inr ⟨by rw [hst, ← hstate], hcame, congrArg (· + 1) hl⟩
        · omega
  · show bar'.awaited + ((timesCome c.log : Nat) : Int) = (Fintype.card ι * (g + 1 + 1) : Nat)
    rw [(timesCome_eq_iff fun j => (hfull j).le).2 hfull, hcard, Nat.mul_succ _ (g + 1)]
    omega
  · refine absurd ?_ (hnone j)
    change Function.update c.loc i .wake j = .store st at hj
    rw [hj]
    trivial
  · show 0 < bar'.awaited
    rw [hcard]
    exact Int.natCast_pos.2 (Fintype.card_pos_iff.2 ⟨i⟩)

theorem BarrierInv.step {c c' : Cfg ι (GompBarrier ι) BarrierAt BarrierEvent} {g : Nat} (h : BarrierInv c g)
    (hs : Step (gompTeamBarrierWait (Fintype.card ι)) c c') : ∃ g', BarrierInv c' g' := by
  cases hs with | @mk i a bar' loc' e hp =>
  have hok := h.ok i
  have hstep := gompTeamBarrierWait_step hp
  generalize hloc : c.loc i = loc at hstep hok
  cases hstep with
  | enter hword hawaited =>
    refine ⟨g, h.keep hword hawaited nofun (by rw [hloc]; exact id) id ?_⟩
    exact ⟨rfl, hok⟩
  | come state loc' hword hawaited hloc' =>
    rw [hloc']
    exact ⟨g, h.come hloc hword hawaited⟩
  | reset state hword hawaited => exact ⟨g, h.reset hloc hword hawaited⟩
  | store state hword hawaited => exact ⟨g + 1, h.store hloc hword hawaited⟩
  | wait state _ _ hword hawaited hwaits hwaits' =>
    have hlast : ∀ {l : BarrierAt}, l.Waits state → ¬ l.Last := by
      intro l hl
      cases l <;> first | exact id | exact absurd hl id
    have hsame : ∀ {l l' : BarrierAt} {w k d}, l.Waits state → l'.Waits state → l.Ok w g k d → l'.Ok w g k d := by
      intro l l' w k d hl hl' hok
      cases l <;> cases l' <;> simp only [BarrierAt.Waits] at hl hl' <;> subst hl <;> subst hl' <;> exact hok
    exact ⟨g, h.keep hword hawaited nofun (by rw [hloc]; exact hlast hwaits) (hlast hwaits')
      (hsame hwaits hwaits' hok)⟩
  | leave _ hword hawaited hat =>
    refine ⟨g, h.keep hword hawaited nofun ?_ id ?_⟩
    · rw [hloc]
      rcases hat with rfl | ⟨_, rfl, -⟩ <;> exact id
    · show _ = g ∧ _ = g
      rw [timesOf_self]
      rcases hat with rfl | ⟨state, rfl, hnext⟩
      · exact hok
      · rcases hok with ⟨hst, -, -⟩ | ⟨-, hok⟩
        · exact absurd (hnext.symm.trans hst.symm) (generation_succ_ne state)
        · exact hok

theorem BarrierInv.reach {c : Cfg ι (GompBarrier ι) BarrierAt BarrierEvent}
    (hr : Reach (gompTeamBarrierWait (Fintype.card ι)) (gompBarrierInit (Fintype.card ι)) c) : ∃ g, BarrierInv c g := by
  induction hr with
  | refl =>
    refine ⟨0, fun _ => ⟨rfl, rfl⟩, nofun, nofun, fun _ => ?_, nofun, fun i _ => ?_⟩
    · have hzero : timesCome ([] : List (ι × BarrierEvent)) = 0 := Finset.sum_eq_zero fun _ _ => rfl
      show (Fintype.card ι : Int) + ((timesCome ([] : List (ι × BarrierEvent)) : Nat) : Int) = _
      rw [hzero]
      omega
    · exact Int.natCast_pos.2 (Fintype.card_pos_iff.2 ⟨i⟩)
  | tail _ hs ih =>
    obtain ⟨g, ih⟩ := ih
    exact ih.step hs

/-- **The barrier of a team separates, and loses no wakeup.** In every interleaving of the threads of the team, with
spurious wakeups, and however often the generations wrap around, nobody has left the barrier more often than anybody has
come to it; and where every thread is outside or asleep, a thread is asleep only while another one has yet to come. -/
theorem gompTeamBarrierWait_separates {c : Cfg ι (GompBarrier ι) BarrierAt BarrierEvent}
    (hr : Reach (gompTeamBarrierWait (Fintype.card ι)) (gompBarrierInit (Fintype.card ι)) c) :
    (∀ i j, timesOf .left i c.log ≤ timesOf .came j c.log) ∧
      ((∀ i, c.loc i = .out ∨ i ∈ c.shared.generation.asleep) → ∀ i, c.loc i ≠ .out →
        ∃ j, c.loc j = .out ∧ timesOf .came j c.log < timesOf .came i c.log) := by
  obtain ⟨g, h⟩ := BarrierInv.reach hr
  refine ⟨fun i j => (h.ok i).bounds.1.trans (h.ok j).bounds.2.1, fun hrest i hi => ?_⟩
  have hattended : BarrierAttended c := by
    refine Attended.reach ⟨fun _ hi => absurd hi List.not_mem_nil, .inl fun _ hi => absurd hi List.not_mem_nil⟩ ?_ hr
    exact fun _ _ _ _ _ _ _ hp => ⟨gompTeamBarrierWait_attends hp, fun _ _ _ hb => hb⟩
  have hasleep : ∀ j, c.loc j ≠ .out → ∃ state, c.loc j = .asleep state := fun j hj =>
    hattended.queued j ((hrest j).resolve_left hj)
  -- nobody is about to wake all, so that those asleep have come in this generation
  have hcame : ∀ j, c.loc j ≠ .out → timesOf .came j c.log = g + 1 := by
    intro j hj
    obtain ⟨state, hat⟩ := hasleep j hj
    have hquiet : c.shared.generation.word = state := by
      rcases hattended.attended with hall | ⟨k, hk⟩
      · exact hall j ((hrest j).resolve_left hj) state hat
      · obtain ⟨st, hst⟩ := hasleep k (by rw [hk]; nofun)
        rw [hst] at hk
        cases hk
    have hok := h.ok j
    rw [hat] at hok
    rcases hok with ⟨-, hk, -⟩ | ⟨hst, -, -⟩
    · exact hk
    · exact absurd (hst.trans hquiet) (generation_succ_ne state)
  have hno : ∀ j, ¬ (c.loc j).Last := by
    intro j hj
    by_cases hout : c.loc j = .out
    · rw [hout] at hj
      exact hj
    · obtain ⟨state, hat⟩ := hasleep j hout
      rw [hat] at hj
      exact hj
  by_contra hall
  push Not at hall
  -- all have come, but then one would be the last
  have hfull : ∀ j, timesOf .came j c.log = g + 1 := by
    intro j
    by_cases hj : c.loc j = .out
    · have hge := hall j hj
      rw [hcame i hi] at hge
      exact le_antisymm (h.ok j).bounds.2.2 hge
    · exact hcame j hj
  have hcount := h.awaited fun j state hj => hno j (by rw [hj]; trivial)
  rw [(timesCome_eq_iff fun j => (hfull j).le).2 hfull] at hcount
  have := h.pos i hno
  omega

/-- Two threads have passed the barrier once, and one of them waits at it again. -/
theorem gompTeamBarrierWait_separates_two :
    ∃ c : Cfg (Fin 2) (GompBarrier (Fin 2)) BarrierAt BarrierEvent,
      Reach (gompTeamBarrierWait 2) (gompBarrierInit 2) c ∧ (c.loc 0 = .asleep 1 ∧ c.loc 1 = .out) ∧
      timesOf .came 0 c.log = 2 ∧ (∀ i j, timesOf .left i c.log ≤ timesOf .came j c.log) ∧
      ∃ j, c.loc j = .out ∧ timesOf .came j c.log < timesOf .came 0 c.log := by
  let go (i : Fin 2) : Fin 2 × FutexAct (Fin 2) := (i, .go)
  have h : ((exec (gompTeamBarrierWait 2) (gompBarrierInit 2) [go 0, go 0, (0, .timeout), go 0, go 1, go 1, go 1, go 1,
      go 1, go 0, go 0, go 0, go 0, (0, .timeout), go 0]).map fun c =>
        ((c.loc 0, c.loc 1), c.shared.generation.asleep, timesOf .came 0 c.log)) =
          some ((.asleep 1, .out), [0], 2) := by
    decide +kernel
  obtain ⟨c, hc, heq⟩ := Option.map_eq_some_iff.1 h
  simp only [Prod.mk.injEq] at heq
  obtain ⟨⟨h0, h1⟩, hq, htwo⟩ := heq
  have hr : Reach (gompTeamBarrierWait (Fintype.card (Fin 2))) (gompBarrierInit (Fintype.card (Fin 2))) c := by
    rw [Fintype.card_fin]
    exact reach_of_exec hc
  refine ⟨c, reach_of_exec hc, ⟨h0, h1⟩, htwo, (gompTeamBarrierWait_separates hr).1,
    (gompTeamBarrierWait_separates hr).2 (fun i => ?_) 0 (by rw [h0]; nofun)⟩
  fin_cases i
  · exact .inr (hq ▸ List.mem_singleton.2 rfl)
  · exact .inl h1

end Bosched
