/-
Auxiliary state: each thread carries a note that its steps update and its events record, and that no
step reads. Erasing the notes of a run gives a run of the program, and every run can be annotated.
-/
import Bosched.Lib.Threads

namespace Bosched.Lib

variable {ι A S L E H : Type}

/-- The program whose threads carry a note. -/
def Prog.noted (p : Prog ι A S L E) (note : S → L → H → H) : Prog ι A S (L × H) (E × H) :=
  fun i a s l => (p i a s l.1).map fun r => (r.1, (r.2.1, note s l.1 l.2), r.2.2.map fun e => (e, note s l.1 l.2))

/-- The configuration without the notes. -/
def Cfg.erase (c : Cfg ι S (L × H) (E × H)) : Cfg ι S L E := ⟨c.shared, fun i => (c.loc i).1, c.log.map fun x => (x.1, x.2.1)⟩

/-- The configuration with the same note for every thread, before any event. -/
def Cfg.annotate (c : Cfg ι S L E) (h : H) : Cfg ι S (L × H) (E × H) := ⟨c.shared, fun i => (c.loc i, h), []⟩

theorem Cfg.erase_annotate {c : Cfg ι S L E} (hlog : c.log = []) (h : H) : (c.annotate h).erase = c := by
  obtain ⟨s, l, log⟩ := c
  subst hlog
  rfl

theorem Prog.noted_eq_some {p : Prog ι A S L E} {note : S → L → H → H} {i : ι} {a : A} {s : S} {l : L × H}
    {r : S × (L × H) × Option (E × H)} (h : p.noted note i a s l = some r) :
    ∃ s' l' e, p i a s l.1 = some (s', l', e) ∧ r = (s', (l', note s l.1 l.2), e.map fun e => (e, note s l.1 l.2)) := by
  obtain ⟨⟨s', l', e⟩, hp, hr⟩ := Option.map_eq_some_iff.1 h
  exact ⟨s', l', e, hp, hr.symm⟩

variable [DecidableEq ι]

theorem Cfg.erase_step (c : Cfg ι S (L × H) (E × H)) (i : ι) (s : S) (l : L) (h : H) (e : Option E) :
    (⟨s, Function.update c.loc i (l, h), logged c.log i (e.map fun e => (e, h))⟩ : Cfg ι S (L × H) (E × H)).erase =
      ⟨s, Function.update c.erase.loc i l, logged c.erase.log i e⟩ := by
  have hloc : (fun j => (Function.update c.loc i (l, h) j).1) = Function.update c.erase.loc i l := by
    funext j
    by_cases hj : j = i
    · subst hj
      rw [Function.update_self, Function.update_self]
    · rw [Function.update_of_ne hj, Function.update_of_ne hj]
      rfl
  have hlog : (logged c.log i (e.map fun e => (e, h))).map (fun x => (x.1, x.2.1)) = logged c.erase.log i e := by
    cases e with
    | none => rfl
    | some e =>
      show (c.log ++ [(i, (e, h))]).map _ = c.log.map _ ++ [(i, e)]
      rw [List.map_append]
      rfl
  unfold Cfg.erase
  rw [hloc, hlog]
  rfl

/-- A run of the annotated program whose steps meet a condition is a run of the program whose steps meet what
the condition implies. -/
theorem Reach.erase {p q : Prog ι A S L E} {note : S → L → H → H} {ok : ι → A → S → L × H → Prop}
    [∀ i a s l, Decidable (ok i a s l)] (hq : ∀ {i a s l r}, ok i a s l → p i a s l.1 = some r → q i a s l.1 = some r)
    {c c' : Cfg ι S (L × H) (E × H)} (h : Reach ((p.noted note).only ok) c c') : Reach q c.erase c'.erase := by
  induction h with
  | refl => exact .refl
  | @tail d _ _ hs ih =>
    cases hs with
    | mk i a hp =>
      obtain ⟨hok, hp⟩ := Prog.only_eq_some.1 hp
      obtain ⟨s', l', e, hstep, hr⟩ := Prog.noted_eq_some hp
      cases hr
      rw [Cfg.erase_step]
      exact ih.tail (.mk i a (hq hok hstep))

/-- Every run can be annotated. -/
theorem Reach.annotate {p : Prog ι A S L E} (note : S → L → H → H) {c c' : Cfg ι S L E} (h : Reach p c c')
    {d : Cfg ι S (L × H) (E × H)} (hd : d.erase = c) : ∃ d', Reach (p.noted note) d d' ∧ d'.erase = c' := by
  induction h with
  | refl => exact ⟨d, .refl, hd⟩
  | tail _ hs ih =>
    obtain ⟨d₁, hr, hd₁⟩ := ih
    cases hs with
    | @mk i a s l e hp =>
      subst hd₁
      have hnoted : p.noted note i a d₁.shared (d₁.loc i) = some (s, (l, note d₁.shared (d₁.loc i).1 (d₁.loc i).2),
          e.map fun e => (e, note d₁.shared (d₁.loc i).1 (d₁.loc i).2)) := by
        unfold Prog.noted
        rw [show p i a d₁.shared (d₁.loc i).1 = some (s, l, e) from hp]
        rfl
      exact ⟨_, hr.tail (.mk i a hnoted), Cfg.erase_step d₁ i s l _ e⟩

end Bosched.Lib
