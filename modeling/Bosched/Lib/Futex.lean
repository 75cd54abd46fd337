/-
Futexes: words that threads wait at, and the threads asleep there. A thread goes to sleep only while the word has the
value it expects, and sleeps until it is woken, or until nothing in particular happens. `Attended` is what a protocol
over a futex owes to those asleep: each of them waits for a word that is still to change, or there is somebody about who
will look at the word again or wake them.
-/
import Bosched.Lib.Threads

namespace Bosched.Lib

/-- A word that threads wait at, and the threads asleep there. -/
structure Futex (ι W : Type) where
  word : W
  asleep : List ι

/-- Who decides what a step does: `go` is the next step of the code; `timeout` and `changed` are the two ways out of
spinning; `wake j` is the call that wakes `j`; `signal` ends a sleep for no reason. -/
inductive FutexAct (ι : Type)
  | go | timeout | changed | wake (j : Option ι) | signal
  deriving DecidableEq

variable {ι W S L E A : Type} [DecidableEq ι]

namespace Futex

/-- `futex_wait`: thread `i` goes to sleep where the word has the value it expects, and goes on otherwise. -/
def wait (f : Futex ι W) (i : ι) (expected : Bool) (asleep next : L) : Futex ι W × L :=
  if expected then ({ f with asleep := i :: f.asleep }, asleep) else (f, next)

/-- A thread is taken off the queue. -/
def rouse (f : Futex ι W) (i : ι) : Futex ι W := { f with asleep := f.asleep.filter (· ≠ i) }

/-- `futex_wake` for one thread: it wakes one of those asleep, if there is one. -/
def wake (f : Futex ι W) : Option ι → Option (Futex ι W)
  | none => if f.asleep = [] then some f else none
  | some j => if j ∈ f.asleep then some (f.rouse j) else none

/-- `futex_wake` for all threads. -/
def wakeAll (f : Futex ι W) : Futex ι W := { f with asleep := [] }

/-- Thread `i` in its sleep: it goes on once it is off the queue, or when it is roused. -/
def sleep (f : Futex ι W) (i : ι) (next : L) : FutexAct ι → Option (Futex ι W × L)
  | .go => if i ∈ f.asleep then none else some (f, next)
  | .signal => some (f.rouse i, next)
  | _ => none

omit [DecidableEq ι] in
@[simp] theorem wait_word (f : Futex ι W) (i : ι) (expected : Bool) (asleep next : L) :
    (f.wait i expected asleep next).1.word = f.word := by
  unfold wait
  split <;> rfl

theorem mem_rouse {f : Futex ι W} {i j : ι} : j ∈ (f.rouse i).asleep ↔ j ∈ f.asleep ∧ j ≠ i := by
  unfold rouse
  rw [List.mem_filter, decide_eq_true_iff]

/-- Somebody can be woken, if anybody is asleep. -/
theorem exists_wake (f : Futex ι W) : ∃ j f', f.wake j = some f' := by
  cases h : f.asleep with
  | nil => exact ⟨none, f, if_pos h⟩
  | cons j rest => exact ⟨some j, f.rouse j, if_pos (h ▸ List.mem_cons_self)⟩

theorem wake_word {f f' : Futex ι W} {j : Option ι} (h : f.wake j = some f') : f'.word = f.word := by
  cases j with
  | none =>
    obtain ⟨-, h⟩ := Option.ite_none_right_eq_some.1 h
    cases h
    rfl
  | some j =>
    obtain ⟨-, h⟩ := Option.ite_none_right_eq_some.1 h
    cases h
    rfl

theorem sleep_word {f f' : Futex ι W} {i : ι} {next l' : L} {a : FutexAct ι} (h : f.sleep i next a = some (f', l')) :
    f'.word = f.word ∧ l' = next := by
  cases a with
  | go =>
    obtain ⟨-, h⟩ := Option.ite_none_left_eq_some.1 h
    cases h
    exact ⟨rfl, rfl⟩
  | signal =>
    cases h
    exact ⟨rfl, rfl⟩
  | timeout | changed | wake => cases h

end Futex

/-! ## Nobody is left asleep -/

section

variable (queue : S → List ι) (sleeping : L → Prop) (busy quiet : ι → S → L → Prop)

/-- Everybody asleep may sleep on, or somebody is `busy`: he will look at the word again, or wake somebody. -/
structure Attended (c : Cfg ι S L E) : Prop where
  queued : ∀ i ∈ queue c.shared, sleeping (c.loc i)
  attended : (∀ i ∈ queue c.shared, quiet i c.shared (c.loc i)) ∨ ∃ i, busy i c.shared (c.loc i)

/-- What a step of thread `i` may do to the threads asleep. -/
inductive Attends (i : ι) (s : S) (l : L) (s' : S) (l' : L) : Prop
  /-- the queue stays as it is: the thread is busy after it, all may sleep on, or it was not busy and nobody minds -/
  | keep (hqueue : queue s' = queue s) (hl : sleeping l → i ∉ queue s)
      (h : busy i s' l' ∨ (∀ j m, quiet j s' m) ∨ (∀ j m, quiet j s m → quiet j s' m) ∧ ¬ busy i s l)
  /-- the thread goes to sleep -/
  | sleep (hqueue : queue s' = i :: queue s) (hl : ¬ sleeping l) (hl' : sleeping l')
      (h : (∀ j m, quiet j s' m) ∨ (∀ j m, quiet j s m → quiet j s' m) ∧ quiet i s' l' ∧ ¬ busy i s l)
  /-- the thread wakes another one, which is busy then -/
  | wake (j : ι) (hj : j ∈ queue s) (hqueue : ∀ k, k ∈ queue s' ↔ k ∈ queue s ∧ k ≠ j) (hl : ¬ sleeping l)
      (h : ∀ m, sleeping m → busy j s' m)
  /-- nobody is asleep after it -/
  | none (hqueue : queue s' = [])
  /-- the thread wakes up -/
  | signal (hqueue : ∀ k, k ∈ queue s' ↔ k ∈ queue s ∧ k ≠ i)
      (h : busy i s' l' ∨ (∀ j m, quiet j s m → quiet j s' m) ∧ ¬ busy i s l)

variable {queue sleeping busy quiet} {p : Prog ι A S L E} {c c' : Cfg ι S L E}

/-- The one step lemma: what all steps of a program keep, if each of them does one of five things to the queue. -/
theorem Attended.step (h : Attended queue sleeping busy quiet c)
    (hp : ∀ i a s' l' e, p i a c.shared (c.loc i) = some (s', l', e) →
      Attends queue sleeping busy quiet i c.shared (c.loc i) s' l' ∧
        ∀ j m, j ≠ i → busy j c.shared m → busy j s' m)
    (hs : Step p c c') : Attended queue sleeping busy quiet c' := by
  cases hs with | @mk i a s' l' e hstep =>
  obtain ⟨hattends, hstay⟩ := hp i a s' l' e hstep
  have hself : Function.update c.loc i l' i = l' := Function.update_self ..
  have hother : ∀ {j}, j ≠ i → Function.update c.loc i l' j = c.loc j := fun hj => Function.update_of_ne hj ..
  -- a thread that is busy after the step
  have habout : busy i s' l' → ∃ j, busy j s' (Function.update c.loc i l' j) := fun hb => ⟨i, by rwa [hself]⟩
  -- what was there before it, where the thread was not busy
  have hbefore : ¬ busy i c.shared (c.loc i) → (∀ j m, quiet j c.shared m → quiet j s' m) →
      (∀ j ∈ queue c.shared, j ≠ i → quiet j s' (Function.update c.loc i l' j)) ∨
        ∃ j, busy j s' (Function.update c.loc i l' j) := by
    intro hbusy hmono
    rcases h.attended with hq | ⟨j, hb⟩
    · refine .inl fun j hj hji => ?_
      rw [hother hji]
      exact hmono j _ (hq j hj)
    · have hji : j ≠ i := by
        rintro rfl
        exact hbusy hb
      exact .inr ⟨j, by rw [hother hji]; exact hstay j _ hji hb⟩
  have hqueued : ∀ {j}, j ≠ i → j ∈ queue c.shared → sleeping (Function.update c.loc i l' j) := by
    intro j hji hj
    rw [hother hji]
    exact h.queued j hj
  rcases hattends with ⟨hqueue, hl, hcase⟩ | ⟨hqueue, hl, hl', hcase⟩ | ⟨j, hj, hqueue, hl, hwoken⟩ | hqueue |
    ⟨hqueue, hcase⟩
  · have hne : ∀ {j}, j ∈ queue s' → j ∈ queue c.shared ∧ j ≠ i := by
      intro j hj
      rw [hqueue] at hj
      refine ⟨hj, ?_⟩
      rintro rfl
      exact hl (h.queued j hj) hj
    refine ⟨fun j hj => hqueued (hne hj).2 (hne hj).1, ?_⟩
    rcases hcase with hb | hall | ⟨hmono, hbusy⟩
    · exact .inr (habout hb)
    · exact .inl fun j _ => hall j _
    · exact (hbefore hbusy hmono).imp_left fun hq j hj => hq j (hne hj).1 (hne hj).2
  · have hne : ∀ {j}, j ∈ queue c.shared → j ≠ i := by
      rintro j hj rfl
      exact hl (h.queued j hj)
    refine ⟨fun j hj => ?_, ?_⟩
    · change j ∈ queue s' at hj
      rw [hqueue] at hj
      rcases List.mem_cons.1 hj with rfl | hj
      · show sleeping (Function.update c.loc j l' j)
        rwa [hself]
      · exact hqueued (hne hj) hj
    · rcases hcase with hall | ⟨hmono, hquiet, hbusy⟩
      · exact .inl fun j _ => hall j _
      · refine (hbefore hbusy hmono).imp_left fun hq j hj => ?_
        change j ∈ queue s' at hj
        rw [hqueue] at hj
        rcases List.mem_cons.1 hj with rfl | hj
        · show quiet j s' (Function.update c.loc j l' j)
          rwa [hself]
        · exact hq j hj (hne hj)
  · have hne : ∀ {k}, k ∈ queue s' → k ∈ queue c.shared ∧ k ≠ i := by
      intro k hk
      have hk' := ((hqueue k).1 hk).1
      refine ⟨hk', ?_⟩
      rintro rfl
      exact hl (h.queued k hk')
    have hji : j ≠ i := by
      rintro rfl
      exact hl (h.queued j hj)
    exact ⟨fun k hk => hqueued (hne hk).2 (hne hk).1, .inr ⟨j, hwoken _ (hqueued hji hj)⟩⟩
  · have hnil : ∀ j, j ∉ queue s' := fun j hj => by
      rw [hqueue] at hj
      exact List.not_mem_nil hj
    exact ⟨fun j hj => absurd hj (hnil j), .inl fun j hj => absurd hj (hnil j)⟩
  · refine ⟨fun k hk => hqueued ((hqueue k).1 hk).2 ((hqueue k).1 hk).1, ?_⟩
    rcases hcase with hb | ⟨hmono, hbusy⟩
    · exact .inr (habout hb)
    · exact (hbefore hbusy hmono).imp_left fun hq k hk => hq k ((hqueue k).1 hk).1 ((hqueue k).1 hk).2

theorem Attended.reach (h : Attended queue sleeping busy quiet c)
    (hp : ∀ i a s l s' l' e, p i a s l = some (s', l', e) →
      Attends queue sleeping busy quiet i s l s' l' ∧ ∀ j m, j ≠ i → busy j s m → busy j s' m)
    (hr : Reach p c c') : Attended queue sleeping busy quiet c' := by
  induction hr with
  | refl => exact h
  | tail _ hs ih => exact ih.step (fun i a => hp i a _ _) hs

/-- A sleep under a protocol in which the thread does not get busy by it. -/
theorem Futex.sleep_attends_of_mono {i : ι} {s s' : S} {l l' next : L} {f f' : Futex ι W} {a : FutexAct ι}
    (h : f.sleep i next a = some (f', l')) (hs : queue s = f.asleep) (hs' : queue s' = f'.asleep)
    (hquiet : ∀ j m, quiet j s m → quiet j s' m) (hbusy : ¬ busy i s l) :
    Attends queue sleeping busy quiet i s l s' l' := by
  cases a with
  | go =>
    obtain ⟨hi, h⟩ := Option.ite_none_left_eq_some.1 h
    cases h
    exact .keep (hs'.trans hs.symm) (fun _ => by rwa [hs]) (.inr (.inr ⟨hquiet, hbusy⟩))
  | signal =>
    cases h
    refine .signal (fun k => ?_) (.inr ⟨hquiet, hbusy⟩)
    rw [hs, hs']
    exact mem_rouse
  | timeout | changed | wake => cases h

/-- A protocol in which a thread that is woken looks at the word again: one is busy, or woken and not yet up. -/
def Woken (queue : S → List ι) (sleeping busy : L → Prop) (i : ι) (s : S) (l : L) : Prop :=
  busy l ∨ sleeping l ∧ i ∉ queue s

variable {busy : L → Prop} {i : ι} {s s' : S} {l l' next asleep : L} {f f' : Futex ι W} {a : FutexAct ι} {j : Option ι}

omit [DecidableEq ι] in
/-- Only the thread itself goes to sleep. -/
theorem Attends.woken (h : Attends queue sleeping (Woken queue sleeping busy) quiet i s l s' l') (j : ι) (m : L)
    (hj : j ≠ i) (hw : Woken queue sleeping busy j s m) : Woken queue sleeping busy j s' m := by
  refine hw.imp_right fun hsl => ⟨hsl.1, fun hm => hsl.2 ?_⟩
  rcases h with ⟨hqueue, -, -⟩ | ⟨hqueue, -, -, -⟩ | ⟨k, -, hqueue, -, -⟩ | hqueue | ⟨hqueue, -⟩
  · exact hqueue ▸ hm
  · rw [hqueue] at hm
    exact (List.mem_cons.1 hm).resolve_left hj
  · exact ((hqueue j).1 hm).1
  · rw [hqueue] at hm
    exact absurd hm List.not_mem_nil
  · exact ((hqueue j).1 hm).1

/-! ## The steps of a protocol -/

omit [DecidableEq ι] in
/-- A step that is no call, by what it does to the word. -/
theorem Attends.inner (hqueue : queue s' = queue s) (hl : ¬ sleeping l)
    (h : busy l' ∨ (∀ j m, quiet j s' m) ∨ (∀ j m, quiet j s m → quiet j s' m) ∧ ¬ busy l) :
    Attends queue sleeping (Woken queue sleeping busy) quiet i s l s' l' := by
  refine .keep hqueue (fun hsl => absurd hsl hl) ?_
  rcases h with hbusy | hall | ⟨hmono, hbusy⟩
  · exact .inl (.inl hbusy)
  · exact .inr (.inl hall)
  · exact .inr (.inr ⟨hmono, fun hb => hb.elim hbusy fun hsl => hl hsl.1⟩)

theorem Futex.sleep_attends (h : f.sleep i next a = some (f', l')) (hs : queue s = f.asleep)
    (hs' : queue s' = f'.asleep)
    (hbusy : busy next) : Attends queue sleeping (Woken queue sleeping busy) quiet i s l s' l' := by
  cases a with
  | go =>
    obtain ⟨hi, h⟩ := Option.ite_none_left_eq_some.1 h
    cases h
    exact .keep (hs'.trans hs.symm) (fun _ => by rwa [hs]) (.inl (.inl hbusy))
  | signal =>
    cases h
    refine .signal (fun k => ?_) (.inl (.inl hbusy))
    rw [hs, hs']
    exact mem_rouse
  | timeout | changed | wake => cases h

theorem Futex.wake_attends (h : f.wake j = some f') (hs : queue s = f.asleep) (hs' : queue s' = f'.asleep)
    (hl : ¬ sleeping l) : Attends queue sleeping (Woken queue sleeping busy) quiet i s l s' l' := by
  cases j with
  | none =>
    obtain ⟨hnil, h⟩ := Option.ite_none_right_eq_some.1 h
    cases h
    exact .none (hs'.trans hnil)
  | some j =>
    obtain ⟨hj, h⟩ := Option.ite_none_right_eq_some.1 h
    cases h
    have hqueue : ∀ k, k ∈ queue s' ↔ k ∈ queue s ∧ k ≠ j := fun k => by
      rw [hs, hs']
      exact mem_rouse
    exact .wake j (hs ▸ hj) hqueue hl fun m hm => .inr ⟨hm, fun hj' => ((hqueue j).1 hj').2 rfl⟩

omit [DecidableEq ι] in
theorem Futex.wait_attends {expected : Bool} (h : f.wait i expected asleep next = (f', l')) (hs : queue s = f.asleep)
    (hs' : queue s' = f'.asleep) (hl : ¬ sleeping l) (hasleep : sleeping asleep) (hbusy : busy next)
    (hquiet : expected = true → ∀ j m, quiet j s' m) :
    Attends queue sleeping (Woken queue sleeping busy) quiet i s l s' l' := by
  unfold wait at h
  split at h
  · rename_i hword
    cases h
    exact .sleep (hs'.trans (congrArg _ hs.symm)) hl hasleep (.inl (hquiet hword))
  · cases h
    exact .keep (hs'.trans hs.symm) (fun hsl => absurd hsl hl) (.inl (.inl hbusy))

end

end Bosched.Lib
