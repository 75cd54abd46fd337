/-
Threads over a shared memory, interleaved one atomic step at a time. A program gives the next
atomic step of a thread from the shared state and the thread's own state; a step may log an
event. Invariants of all interleavings come from one rule (`Invariant.reach`): a step keeps the
shared part and its own thread's part, and does not disturb the part of any other thread.
-/
import Mathlib.Data.Nat.Count
import Mathlib.Logic.Function.Basic
import Mathlib.Logic.Relation
import Mathlib.Tactic

namespace Bosched.Lib

/-- A program of the threads `ι`: the atomic step a thread takes on an action, with the event it
logs; `none` when it cannot take it. -/
abbrev Prog (ι A S L E : Type) := ι → A → S → L → Option (S × L × Option E)

/-- A configuration: the shared state, the threads' states, and the events so far, oldest first. -/
structure Cfg (ι S L E : Type) where
  shared : S
  loc : ι → L
  log : List (ι × E)

variable {ι A S L E : Type}

/-- The log after a step of thread `i`. -/
def logged (log : List (ι × E)) (i : ι) : Option E → List (ι × E)
  | none => log
  | some e => log ++ [(i, e)]

@[simp] theorem logged_none (log : List (ι × E)) (i : ι) : logged log i none = log := rfl
@[simp] theorem logged_some (log : List (ι × E)) (i : ι) (e : E) : logged log i (some e) = log ++ [(i, e)] := rfl

variable [DecidableEq ι]

/-- One thread takes one atomic step. -/
inductive Step (p : Prog ι A S L E) : Cfg ι S L E → Cfg ι S L E → Prop
  | mk {c : Cfg ι S L E} (i : ι) (a : A) {s : S} {l : L} {e : Option E}
      (h : p i a c.shared (c.loc i) = some (s, l, e)) :
      Step p c ⟨s, Function.update c.loc i l, logged c.log i e⟩

/-- A step a thread can take, by what it leaves behind. -/
theorem exists_step {p : Prog ι A S L E} {c : Cfg ι S L E} {i : ι} {a : A} {s : S} {l : L} {e : Option E}
    (h : p i a c.shared (c.loc i) = some (s, l, e)) :
    ∃ d, Step p c d ∧ d.shared = s ∧ d.loc i = l ∧ (∀ j, j ≠ i → d.loc j = c.loc j) ∧ d.log = logged c.log i e :=
  ⟨_, .mk i a h, rfl, Function.update_self .., fun _ hj => Function.update_of_ne hj .., rfl⟩

/-- The step of a thread that is alone. -/
theorem step_alone {p : Prog Unit A S L E} {a : A} {s s' : S} {l l' : L} {e : Option E} {log : List (Unit × E)}
    (h : p () a s l = some (s', l', e)) : Step p ⟨s, fun _ => l, log⟩ ⟨s', fun _ => l', logged log () e⟩ := by
  have hloc : Function.update (fun _ => l) () l' = fun _ => l' := funext fun _ => Function.update_self ..
  rw [← hloc]
  exact .mk () a h

/-- Some interleaving leads from one configuration to the other. -/
abbrev Reach (p : Prog ι A S L E) : Cfg ι S L E → Cfg ι S L E → Prop := Relation.ReflTransGen (Step p)

/-- The program whose steps are only those that meet a condition on the state before them. -/
def Prog.only (p : Prog ι A S L E) (ok : ι → A → S → L → Prop) [∀ i a s l, Decidable (ok i a s l)] :
    Prog ι A S L E :=
  fun i a s l => if ok i a s l then p i a s l else none

omit [DecidableEq ι] in
theorem Prog.only_eq_some {p : Prog ι A S L E} {ok : ι → A → S → L → Prop} [∀ i a s l, Decidable (ok i a s l)]
    {i : ι} {a : A} {s : S} {l : L} {r : S × L × Option E} :
    p.only ok i a s l = some r ↔ ok i a s l ∧ p i a s l = some r := by
  unfold Prog.only; split <;> simp_all

omit [DecidableEq ι] in
theorem Prog.only_of_forall {p : Prog ι A S L E} {ok : ι → A → S → L → Prop} [∀ i a s l, Decidable (ok i a s l)]
    (h : ∀ i a s l, ok i a s l) : p.only ok = p := by
  funext i a s l
  exact if_pos (h i a s l)

theorem Reach.of_only {p : Prog ι A S L E} {ok : ι → A → S → L → Prop} [∀ i a s l, Decidable (ok i a s l)]
    {c c' : Cfg ι S L E} (h : Reach (p.only ok) c c') : Reach p c c' := by
  induction h with
  | refl => exact .refl
  | tail _ hs ih =>
    cases hs with
    | mk i a h => exact ih.tail (.mk i a (Prog.only_eq_some.1 h).2)

/-- Two programs that take the same steps wherever an invariant of the first holds have the same runs. -/
theorem reach_congr {p q : Prog ι A S L E} {J : Cfg ι S L E → Prop} (hstep : ∀ {c c'}, J c → Step p c c' → J c')
    (heq : ∀ {c}, J c → ∀ i a, p i a c.shared (c.loc i) = q i a c.shared (c.loc i)) {c c' : Cfg ι S L E} (hc : J c) :
    Reach p c c' ↔ Reach q c c' := by
  constructor
  · intro hr
    have key : J c' ∧ Reach q c c' := by
      induction hr with
      | refl => exact ⟨hc, .refl⟩
      | tail _ hs ih =>
        refine ⟨hstep ih.1 hs, ?_⟩
        cases hs with
        | mk i a h => exact ih.2.tail (.mk i a ((heq ih.1 i a).symm.trans h))
    exact key.2
  · intro hr
    have key : J c' ∧ Reach p c c' := by
      induction hr with
      | refl => exact ⟨hc, .refl⟩
      | tail _ hs ih =>
        cases hs with
        | mk i a h =>
          have hs : Step p _ _ := .mk i a ((heq ih.1 i a).trans h)
          exact ⟨hstep ih.1 hs, ih.2.tail hs⟩
    exact key.2

/-- A view of the configurations under which every step is a step of another program or none at all. -/
structure Views {S' L' E' A' : Type} (p : Prog ι A S L E) (q : Prog ι A' S' L' E') (fs : S → S') (fl : L → L')
    (fe : E → Option E') : Prop where
  step : ∀ {i a s l s' l' e}, p i a s l = some (s', l', e) → (fs s' = fs s ∧ fl l' = fl l ∧ e.bind fe = none) ∨
    ∃ a', q i a' (fs s) (fl l) = some (fs s', fl l', e.bind fe)

/-- A configuration as the view shows it. -/
def Cfg.view {S' L' E' : Type} (fs : S → S') (fl : L → L') (fe : E → Option E') (c : Cfg ι S L E) : Cfg ι S' L' E' :=
  ⟨fs c.shared, fun i => fl (c.loc i), c.log.filterMap fun x => (fe x.2).map fun e => (x.1, e)⟩

theorem Views.reach {S' L' E' A' : Type} {p : Prog ι A S L E} {q : Prog ι A' S' L' E'} {fs : S → S'} {fl : L → L'}
    {fe : E → Option E'} (h : Views p q fs fl fe) {c c' : Cfg ι S L E} (hr : Reach p c c') :
    Reach q (c.view fs fl fe) (c'.view fs fl fe) := by
  induction hr with
  | refl => exact .refl
  | @tail d _ _ hs ih =>
    cases hs with
    | @mk i a s l e hp =>
      have hloc : (fun j => fl (Function.update d.loc i l j)) = Function.update (fun j => fl (d.loc j)) i (fl l) := by
        funext j
        by_cases hj : j = i
        · subst hj
          rw [Function.update_self, Function.update_self]
        · rw [Function.update_of_ne hj, Function.update_of_ne hj]
      have hlog : (logged d.log i e).filterMap (fun x => (fe x.2).map fun e => (x.1, e)) =
          logged (d.log.filterMap fun x => (fe x.2).map fun e => (x.1, e)) i (e.bind fe) := by
        cases e with
        | none => rfl
        | some e =>
          rw [logged_some, List.filterMap_append, Option.bind_some]
          cases he : fe e <;> simp [he]
      have hview : (⟨s, Function.update d.loc i l, logged d.log i e⟩ : Cfg ι S L E).view fs fl fe =
          ⟨fs s, Function.update (d.view fs fl fe).loc i (fl l), logged (d.view fs fl fe).log i (e.bind fe)⟩ := by
        unfold Cfg.view
        rw [hloc, hlog]
      rw [hview]
      rcases h.step hp with ⟨hsame, hl, he⟩ | ⟨a', hq⟩
      · rw [hsame, hl, he, logged_none, show fl (d.loc i) = (d.view fs fl fe).loc i from rfl, Function.update_eq_self]
        exact ih
      · exact ih.tail (.mk i a' hq)

/-- Where some step lowers a rank until a goal is reached, there is a run to the goal. -/
theorem exists_reach_of_rank {p : Prog ι A S L E} {K goal : Cfg ι S L E → Prop} (rank : Cfg ι S L E → Nat)
    (h : ∀ c, K c → goal c ∨ ∃ c', Step p c c' ∧ K c' ∧ rank c' < rank c) {c : Cfg ι S L E} (hc : K c) :
    ∃ c', Reach p c c' ∧ K c' ∧ goal c' := by
  induction hn : rank c using Nat.strong_induction_on generalizing c with
  | _ n ih =>
    rcases h c hc with hgoal | ⟨d, hs, hd, hlt⟩
    · exact ⟨c, .refl, hc, hgoal⟩
    · obtain ⟨c', hr, hK, hgoal⟩ := ih (rank d) (hn ▸ hlt) hd rfl
      exact ⟨c', .head hs hr, hK, hgoal⟩

/-- Where every thread that has not got to `Q` can go on alone until it has, there is a run in which all of the
given threads get there. -/
theorem exists_reach_all {p : Prog ι A S L E} {K : Cfg ι S L E → Prop} {Q : L → Prop} (rank : ι → Cfg ι S L E → Nat)
    (h : ∀ c, K c → ∀ i, ¬ Q (c.loc i) → ∃ a s l e, p i a c.shared (c.loc i) = some (s, l, e) ∧
      K ⟨s, Function.update c.loc i l, logged c.log i e⟩ ∧
      rank i ⟨s, Function.update c.loc i l, logged c.log i e⟩ < rank i c) {c : Cfg ι S L E} (hc : K c) :
    ∀ is : List ι, ∃ c', Reach p c c' ∧ K c' ∧ ∀ i ∈ is, Q (c'.loc i)
  | [] => ⟨c, .refl, hc, nofun⟩
  | i :: is => by
    obtain ⟨d, hd, hKd, his⟩ := exists_reach_all rank h hc is
    -- the next thread goes on alone
    have hprogress : ∀ c, (K c ∧ ∀ j ∈ is, Q (c.loc j)) → Q (c.loc i) ∨
        ∃ c', Step p c c' ∧ (K c' ∧ ∀ j ∈ is, Q (c'.loc j)) ∧ rank i c' < rank i c := by
      rintro c ⟨hK, hdone⟩
      by_cases hi : Q (c.loc i)
      · exact .inl hi
      · obtain ⟨a, s, l, e, hp, hK', hlt⟩ := h c hK i hi
        refine .inr ⟨_, .mk i a hp, ⟨hK', fun j hj => ?_⟩, hlt⟩
        have hne : j ≠ i := fun heq => hi (heq ▸ hdone j hj)
        show Q (Function.update c.loc i l j)
        rw [Function.update_of_ne hne]
        exact hdone j hj
    obtain ⟨c', hr, ⟨hK', hdone⟩, hi⟩ := exists_reach_of_rank (rank i) hprogress ⟨hKd, his⟩
    refine ⟨c', hd.trans hr, hK', fun j hj => ?_⟩
    rcases List.mem_cons.1 hj with rfl | hj
    · exact hi
    · exact hdone j hj

/-- A thread that cannot go on from where it stands, whatever the others do, stays there. -/
theorem Reach.stuck {p : Prog ι A S L E} {c c' : Cfg ι S L E} {i : ι} (hr : Reach p c c')
    (h : ∀ d, Reach p c d → ∀ a, p i a d.shared (c.loc i) = none) : c'.loc i = c.loc i := by
  induction hr with
  | refl => rfl
  | @tail d _ hd hs ih =>
    cases hs with
    | @mk j a s l e hp =>
      by_cases hj : i = j
      · subst hj
        rw [ih, h d hd a] at hp
        cases hp
      · show Function.update d.loc j l i = c.loc i
        rw [Function.update_of_ne hj, ih]

/-- What every step leaves its thread with, all threads have in every run from where they have it. -/
theorem Reach.loc {p : Prog ι A S L E} {Q : L → Prop} {c c' : Cfg ι S L E} (hr : Reach p c c') (hc : ∀ i, Q (c.loc i))
    (h : ∀ {i a s l s' l' e}, Q l → p i a s l = some (s', l', e) → Q l') (i : ι) : Q (c'.loc i) := by
  induction hr with
  | refl => exact hc i
  | @tail d _ _ hs ih =>
    cases hs with
    | @mk j a s l e hp =>
      show Q (Function.update d.loc j l i)
      by_cases hj : i = j
      · subst hj
        rw [Function.update_self]
        exact h ih hp
      · rw [Function.update_of_ne hj]
        exact ih

/-- A run all of whose steps meet a condition is a run of the program with only these steps. -/
theorem Reach.only {p : Prog ι A S L E} {ok : ι → A → S → L → Prop} [∀ i a s l, Decidable (ok i a s l)]
    {c c' : Cfg ι S L E} (hr : Reach p c c') (h : ∀ d, Reach p c d → ∀ i a, ok i a d.shared (d.loc i)) :
    Reach (p.only ok) c c' := by
  induction hr with
  | refl => exact .refl
  | @tail d _ hd hs ih =>
    cases hs with
    | mk i a hp => exact ih.tail (.mk i a (Prog.only_eq_some.2 ⟨h d hd i a, hp⟩))

/-! ## Executing a schedule -/

/-- The step of thread `i` on action `a`, if it can take it. -/
def stepBy (p : Prog ι A S L E) (c : Cfg ι S L E) (i : ι) (a : A) : Option (Cfg ι S L E) :=
  (p i a c.shared (c.loc i)).map fun r => ⟨r.1, Function.update c.loc i r.2.1, logged c.log i r.2.2⟩

/-- The configuration a schedule leads to. -/
def exec (p : Prog ι A S L E) : Cfg ι S L E → List (ι × A) → Option (Cfg ι S L E)
  | c, [] => some c
  | c, (i, a) :: rest => (stepBy p c i a).bind fun c' => exec p c' rest

theorem step_of_stepBy {p : Prog ι A S L E} {c c' : Cfg ι S L E} {i : ι} {a : A} (h : stepBy p c i a = some c') :
    Step p c c' := by
  unfold stepBy at h
  rw [Option.map_eq_some_iff] at h
  obtain ⟨⟨s, l, e⟩, hp, rfl⟩ := h
  exact .mk i a hp

/-- What a schedule executes is an interleaving. -/
theorem reach_of_exec {p : Prog ι A S L E} :
    ∀ {sched : List (ι × A)} {c c' : Cfg ι S L E}, exec p c sched = some c' → Reach p c c'
  | [], c, c', h => by cases h; exact .refl
  | (i, a) :: rest, c, c', h => by
    obtain ⟨d, hd, h⟩ := Option.bind_eq_some_iff.1 h
    exact .head (step_of_stepBy hd) (reach_of_exec h)

/-- A schedule that ends in a configuration with a decidable property reaches one. -/
theorem exists_reach {p : Prog ι A S L E} {c : Cfg ι S L E} {sched : List (ι × A)} {P : Cfg ι S L E → Prop}
    [DecidablePred P] (h : (exec p c sched).any (fun c' => decide (P c')) = true) : ∃ c', Reach p c c' ∧ P c' := by
  obtain ⟨c', hc', hP⟩ := (Option.any_eq_true _ _).1 h
  exact ⟨c', reach_of_exec hc', of_decide_eq_true hP⟩

/-- Where a thread can always take a step that logs something, there are runs of every length. -/
theorem exists_reach_length {p : Prog ι A S L E} {c : Cfg ι S L E} (hlog : c.log = []) (i : ι) (a : A)
    (h : ∀ c', Reach p c c' → ∃ s l e, p i a c'.shared (c'.loc i) = some (s, l, some e)) :
    ∀ m, ∃ c', Reach p c c' ∧ c'.log.length = m
  | 0 => ⟨c, .refl, by rw [hlog]; rfl⟩
  | m + 1 => by
    obtain ⟨d, hd, hm⟩ := exists_reach_length hlog i a h m
    obtain ⟨s, l, e, hp⟩ := h d hd
    refine ⟨_, hd.tail (.mk i a hp), ?_⟩
    rw [logged_some, List.length_append, hm]
    rfl

theorem Reach.log_subset {p : Prog ι A S L E} {c c' : Cfg ι S L E} (h : Reach p c c') {x : ι × E} (hx : x ∈ c.log) :
    x ∈ c'.log := by
  induction h with
  | refl => exact hx
  | tail _ hs ih =>
    cases hs with
    | @mk i a s l e hp =>
      cases e with
      | none => exact ih
      | some e => exact List.mem_append_left _ ih

/-- Where a thread can always take a step, and each of its steps logs `done` or lowers a rank,
there is a run in which all of the given threads log `done`. -/
theorem exists_reach_done {p : Prog ι A S L E} {c : Cfg ι S L E} (rank : ι → S → Nat) (done : E) (a : A)
    (h : ∀ c', Reach p c c' → ∀ i, ∃ s l e, p i a c'.shared (c'.loc i) = some (s, l, some e) ∧
      (e = done ∨ rank i s < rank i c'.shared)) :
    ∀ is : List ι, ∃ c', Reach p c c' ∧ ∀ i ∈ is, (i, done) ∈ c'.log
  | [] => ⟨c, .refl, nofun⟩
  | i :: is => by
    obtain ⟨d, hd, his⟩ := exists_reach_done rank done a h is
    -- thread `i` goes on alone until it logs `done`
    have halone : ∀ n, ∀ c', Reach p c c' → rank i c'.shared ≤ n → ∃ c'', Reach p c' c'' ∧ (i, done) ∈ c''.log := by
      intro n
      induction n with
      | zero =>
        intro c' hc' hn
        obtain ⟨s, l, e, hp, rfl | hlt⟩ := h c' hc' i
        · exact ⟨_, .single (.mk i a hp), by simp⟩
        · omega
      | succ n ih =>
        intro c' hc' hn
        obtain ⟨s, l, e, hp, rfl | hlt⟩ := h c' hc' i
        · exact ⟨_, .single (.mk i a hp), by simp⟩
        · have hs := Step.mk i a hp
          obtain ⟨c'', hc'', hdone⟩ := ih _ (hc'.tail hs) (by show rank i s ≤ n; omega)
          exact ⟨c'', .head hs hc'', hdone⟩
    obtain ⟨d', hd', hi⟩ := halone _ d hd (le_refl _)
    refine ⟨d', hd.trans hd', fun j hj => ?_⟩
    rcases List.mem_cons.1 hj with rfl | hj
    · exact hi
    · exact hd'.log_subset (his j hj)

/-! ## The invariant rule -/

/-- A thread-modular invariant: a shared part over the shared state and the log, and a part for
each thread over the shared state and its own state. -/
structure Invariant (p : Prog ι A S L E) (G : S → List (ι × E) → Prop) (I : ι → S → L → Prop) : Prop where
  /-- a step keeps the shared part and the stepping thread's part -/
  own : ∀ {i a s l s' l' e log}, G s log → I i s l → p i a s l = some (s', l', e) →
    G s' (logged log i e) ∧ I i s' l'
  /-- a step keeps every other thread's part -/
  other : ∀ {i a s l s' l' e log j m}, G s log → I i s l → p i a s l = some (s', l', e) → j ≠ i →
    I j s m → I j s' m

/-- The invariant of a configuration. -/
def Holds (G : S → List (ι × E) → Prop) (I : ι → S → L → Prop) (c : Cfg ι S L E) : Prop :=
  G c.shared c.log ∧ ∀ i, I i c.shared (c.loc i)

variable {p : Prog ι A S L E} {G : S → List (ι × E) → Prop} {I : ι → S → L → Prop}

theorem Invariant.step (h : Invariant p G I) {c c' : Cfg ι S L E} (hc : Holds G I c) (hs : Step p c c') :
    Holds G I c' := by
  cases hs with
  | mk i a hp =>
    obtain ⟨hG, hI⟩ := h.own hc.1 (hc.2 i) hp
    refine ⟨hG, fun j => ?_⟩
    by_cases hj : j = i
    · subst hj; simpa using hI
    · simpa [Function.update_of_ne hj] using h.other hc.1 (hc.2 i) hp hj (hc.2 j)

/-- What every step keeps holds in every interleaving. -/
theorem Invariant.reach (h : Invariant p G I) {c c' : Cfg ι S L E} (hc : Holds G I c) (hr : Reach p c c') :
    Holds G I c' := by
  induction hr with
  | refl => exact hc
  | tail _ hs ih => exact h.step ih hs

/-! ## Threads that stop -/

/-- A thread that logs `done` is `stopped` and takes no further step. -/
structure Retires (p : Prog ι A S L E) (done : E) (stopped : L) : Prop where
  stops : ∀ {i a s l s' l'}, p i a s l = some (s', l', some done) → l' = stopped
  stays : ∀ {i a s}, p i a s stopped = none

/-- The threads that logged `done`. -/
def retired [DecidableEq E] (done : E) (log : List (ι × E)) : List ι := (log.filter fun x => x.2 = done).map (·.1)

omit [DecidableEq ι] in
theorem mem_retired [DecidableEq E] {done : E} {log : List (ι × E)} {i : ι} :
    i ∈ retired done log ↔ (i, done) ∈ log := by
  unfold retired
  simp only [List.mem_map, List.mem_filter, decide_eq_true_eq]
  constructor
  · rintro ⟨⟨j, e⟩, ⟨hmem, rfl⟩, rfl⟩
    exact hmem
  · intro h
    exact ⟨(i, done), ⟨h, rfl⟩, rfl⟩

omit [DecidableEq ι] in
theorem retired_append_done [DecidableEq E] (done : E) (log : List (ι × E)) (i : ι) :
    retired done (log ++ [(i, done)]) = retired done log ++ [i] := by
  simp [retired]

omit [DecidableEq ι] in
theorem retired_append_ne [DecidableEq E] {done e : E} (h : e ≠ done) (log : List (ι × E)) (i : ι) :
    retired done (log ++ [(i, e)]) = retired done log := by
  simp [retired, h]

/-- Every thread logs `done` at most once, as its last step. -/
theorem Retires.reach [DecidableEq E] {p : Prog ι A S L E} {done : E} {stopped : L} (h : Retires p done stopped)
    {c c' : Cfg ι S L E} (hlog : c.log = []) (hr : Reach p c c') :
    (retired done c'.log).Nodup ∧ ∀ i, (i, done) ∈ c'.log → c'.loc i = stopped := by
  induction hr with
  | refl => rw [hlog]; exact ⟨List.nodup_nil, nofun⟩
  | @tail d _ _ hs ih =>
    obtain ⟨hnodup, hstopped⟩ := ih
    cases hs with
    | @mk i a s l e hp =>
      -- the stepping thread has not logged `done` before
      have hi : (i, done) ∉ d.log := fun hmem => by
        rw [hstopped i hmem, h.stays] at hp
        cases hp
      have hother : ∀ j, (j, done) ∈ d.log → Function.update d.loc i l j = stopped := fun j hj => by
        have hne : j ≠ i := fun hji => hi (hji ▸ hj)
        rw [Function.update_of_ne hne]
        exact hstopped j hj
      cases e with
      | none => exact ⟨hnodup, hother⟩
      | some e =>
        by_cases he : e = done
        · subst he
          refine ⟨?_, fun j hj => ?_⟩
          · show (retired e (d.log ++ [(i, e)])).Nodup
            rw [retired_append_done, List.nodup_append]
            refine ⟨hnodup, List.nodup_singleton i, fun j hj k hk => ?_⟩
            rw [List.mem_singleton.1 hk]
            rintro rfl
            exact hi (mem_retired.1 hj)
          · by_cases hji : j = i
            · subst hji
              show Function.update d.loc j l j = stopped
              rw [Function.update_self]
              exact h.stops hp
            · exact hother j (by simpa [hji] using hj)
        · refine ⟨?_, fun j hj => hother j ?_⟩
          · show (retired done (d.log ++ [(i, e)])).Nodup
            rw [retired_append_ne he]; exact hnodup
          · simpa [Ne.symm he] using hj

/-- While some thread is still running, fewer threads have stopped than there are. -/
theorem Retires.card [DecidableEq E] [Fintype ι] {p : Prog ι A S L E} {done : E} {stopped : L}
    (h : Retires p done stopped) {c c' : Cfg ι S L E} (hlog : c.log = []) (hr : Reach p c c') {i : ι}
    (hi : c'.loc i ≠ stopped) : (retired done c'.log).length + 1 ≤ Fintype.card ι := by
  obtain ⟨hnodup, hstopped⟩ := h.reach hlog hr
  have hmem : i ∉ retired done c'.log := fun hm => hi (hstopped i (mem_retired.1 hm))
  exact (List.nodup_cons.2 ⟨hmem, hnodup⟩).length_le_card

/-! ## The rank rule -/

theorem exec_log_prefix {p : Prog ι A S L E} :
    ∀ {sched : List (ι × A)} {c c' : Cfg ι S L E}, exec p c sched = some c' → ∃ log', c'.log = c.log ++ log'
  | [], c, c', h => by cases h; exact ⟨[], (List.append_nil _).symm⟩
  | (i, a) :: rest, c, c', h => by
    obtain ⟨d, hd, h⟩ := Option.bind_eq_some_iff.1 h
    obtain ⟨log', hlog'⟩ := exec_log_prefix h
    unfold stepBy at hd
    rw [Option.map_eq_some_iff] at hd
    obtain ⟨⟨s, l, e⟩, -, rfl⟩ := hd
    rw [hlog']
    cases e with
    | none => exact ⟨log', rfl⟩
    | some e => exact ⟨(i, e) :: log', by simp⟩

/-- Where every step of a thread logs `done` or lowers the thread's rank, a thread that takes more
steps than its rank logs `done`, whatever the others do in between. -/
theorem exec_done {p : Prog ι A S L E} {J : Cfg ι S L E → Prop} {rank : L → Nat} {done : E}
    (hJ : ∀ {c c'}, J c → Step p c c' → J c')
    (hrank : ∀ {c i a s l e}, J c → p i a c.shared (c.loc i) = some (s, l, e) → e = some done ∨ rank l < rank (c.loc i))
    (i : ι) : ∀ {sched : List (ι × A)} {c c' : Cfg ι S L E}, J c → exec p c sched = some c' →
      rank (c.loc i) < sched.countP (fun x => x.1 = i) → ∃ log', c'.log = c.log ++ log' ∧ (i, done) ∈ log'
  | [], c, c', _, _, hcount => by simp at hcount
  | (j, a) :: rest, c, c', hc, h, hcount => by
    obtain ⟨d, hd, h⟩ := Option.bind_eq_some_iff.1 h
    have hJd := hJ hc (step_of_stepBy hd)
    unfold stepBy at hd
    rw [Option.map_eq_some_iff] at hd
    obtain ⟨⟨s, l, e⟩, hp, rfl⟩ := hd
    rcases hrank hc hp with rfl | hlt
    · by_cases hj : j = i
      · -- this very step logs it
        subst hj
        obtain ⟨log', hlog'⟩ := exec_log_prefix h
        exact ⟨(j, done) :: log', by rw [hlog']; simp, List.mem_cons_self⟩
      · rw [List.countP_cons_of_neg (by simpa using hj)] at hcount
        obtain ⟨log', hlog', hmem⟩ := exec_done hJ hrank i hJd h
          (by simpa only [Function.update_of_ne (Ne.symm hj)] using hcount)
        exact ⟨(j, done) :: log', by rw [hlog']; simp, List.mem_cons_of_mem _ hmem⟩
    · have hrest : rank (Function.update c.loc j l i) < rest.countP (fun x => x.1 = i) := by
        by_cases hj : j = i
        · subst hj
          rw [List.countP_cons_of_pos (by simp)] at hcount
          simp only [Function.update_self]
          omega
        · rw [List.countP_cons_of_neg (by simpa using hj)] at hcount
          simpa only [Function.update_of_ne (Ne.symm hj)] using hcount
      obtain ⟨log', hlog', hmem⟩ := exec_done hJ hrank i hJd h hrest
      cases e with
      | none => exact ⟨log', hlog', hmem⟩
      | some e => exact ⟨(j, e) :: log', by rw [hlog']; simp, List.mem_cons_of_mem _ hmem⟩

/-! ## Counting threads -/

/-- A thread's step leaves the number of threads with a property as it is, where it has it before as after. -/
theorem count_update_same {L : Type} (P : L → Prop) [DecidablePred P] {loc : Nat → L} {i : Nat} {l : L}
    (h : P l ↔ P (loc i)) (n : Nat) :
    Nat.count (fun j => P (Function.update loc i l j)) n = Nat.count (fun j => P (loc j)) n := by
  have hj : ∀ j, P (Function.update loc i l j) ↔ P (loc j) := fun j => by
    by_cases hj : j = i
    · subst hj; simpa using h
    · simp [Function.update_of_ne hj]
  simp only [hj]

/-- A thread's step raises it by one, where it has the property only after. -/
theorem count_update_succ {L : Type} (P : L → Prop) [DecidablePred P] {loc : Nat → L} {i : Nat} {l : L}
    (hl : P l) (hi : ¬P (loc i)) : ∀ {n : Nat}, i < n →
      Nat.count (fun j => P (Function.update loc i l j)) n = Nat.count (fun j => P (loc j)) n + 1
  | n + 1, hn => by
    rw [Nat.count_succ, Nat.count_succ]
    by_cases hin : i = n
    · subst hin
      -- the threads below `i` are unchanged
      have hlow : Nat.count (fun j => P (Function.update loc i l j)) i = Nat.count (fun j => P (loc j)) i := by
        refine le_antisymm (Nat.count_mono_left fun j hj h => ?_) (Nat.count_mono_left fun j hj h => ?_)
        · simpa [Function.update_of_ne (Nat.ne_of_lt hj)] using h
        · simpa [Function.update_of_ne (Nat.ne_of_lt hj)] using h
      simp [hlow, hl, hi]
    · rw [count_update_succ P hl hi (by omega)]
      simp only [Function.update_of_ne (Ne.symm hin)]
      omega

end Bosched.Lib
