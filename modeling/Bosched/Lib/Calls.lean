/-
Calls that do not overlap: a thread goes on alone from the idle state until its call returns, and
then another call begins. Every such sequence is an interleaving; what the calls return is compared
with a list of expected results through a relation between the shared state and what is left of it.
-/
import Bosched.Lib.Threads

namespace Bosched.Lib

variable {ι S L E : Type} {p : Prog ι Unit S L E} {idle : L}

/-- Thread `i` goes on alone until it is idle again and its call has returned `e`. -/
inductive Solo (p : Prog ι Unit S L E) (idle : L) (i : ι) : S → L → S → E → Prop
  | last {s s' : S} {l : L} {e : E} (h : p i () s l = some (s', idle, some e)) : Solo p idle i s l s' e
  | more {s s₁ s' : S} {l l₁ : L} {e : E} (h : p i () s l = some (s₁, l₁, none)) (rest : Solo p idle i s₁ l₁ s' e) :
      Solo p idle i s l s' e

/-- Calls one after the other, by any threads. -/
inductive Calls (p : Prog ι Unit S L E) (idle : L) : S → List (ι × E) → S → Prop
  | nil {s : S} : Calls p idle s [] s
  | snoc {s s₁ s' : S} {log : List (ι × E)} {i : ι} {e : E} (before : Calls p idle s log s₁)
      (call : Solo p idle i s₁ idle s' e) : Calls p idle s (log ++ [(i, e)]) s'

/-- What calls one after the other return. -/
def Answers (p : Prog ι Unit S L E) (idle : L) (s : S) (log : List (ι × E)) : Prop := ∃ s', Calls p idle s log s'

/-! ## A call step by step -/

section

variable {i : ι} {s s' s₁ : S} {l l₁ : L} {e e₁ : E}

theorem Solo.defined (h : Solo p idle i s l s' e) : ∃ r, p i () s l = some r := by
  cases h with
  | last h => exact ⟨_, h⟩
  | more h => exact ⟨_, h⟩

theorem Solo.next (h : Solo p idle i s l s' e) (hstep : p i () s l = some (s₁, l₁, none)) : Solo p idle i s₁ l₁ s' e := by
  cases h with
  | last h => cases h.symm.trans hstep
  | more h rest =>
    cases h.symm.trans hstep
    exact rest

theorem Solo.ends (h : Solo p idle i s l s' e) (hstep : p i () s l = some (s₁, l₁, some e₁)) : s' = s₁ ∧ e = e₁ := by
  cases h with
  | last h =>
    cases h.symm.trans hstep
    exact ⟨rfl, rfl⟩
  | more h => cases h.symm.trans hstep

theorem Solo.next_iff (hstep : p i () s l = some (s₁, l₁, none)) : Solo p idle i s l s' e ↔ Solo p idle i s₁ l₁ s' e :=
  ⟨fun h => h.next hstep, .more hstep⟩

theorem Solo.ends_iff (hstep : p i () s l = some (s₁, idle, some e₁)) : Solo p idle i s l s' e ↔ s' = s₁ ∧ e = e₁ := by
  constructor
  · intro h
    exact h.ends hstep
  · rintro ⟨rfl, rfl⟩
    exact .last hstep

end

theorem Answers.singleton_iff {s : S} {i : ι} {e : E} : Answers p idle s [(i, e)] ↔ ∃ s', Solo p idle i s idle s' e := by
  constructor
  · rintro ⟨s', h⟩
    generalize hlog : [(i, e)] = log at h
    cases h with
    | nil => cases hlog
    | @snoc s₁ _ log' j e' before call =>
      obtain ⟨hnil, hlast⟩ := List.append_inj' (show [] ++ [(i, e)] = log' ++ [(j, e')] from hlog) rfl
      cases hlast
      subst hnil
      generalize hlog' : ([] : List (ι × E)) = log at before
      cases before with
      | nil => exact ⟨s', call⟩
      | snoc => exact absurd hlog'.symm (List.append_ne_nil_of_right_ne_nil _ (List.cons_ne_nil _ _))
  · rintro ⟨s', h⟩
    exact ⟨s', Calls.nil.snoc h⟩

/-! ## Two programs -/

section

variable {S' L' : Type} {q : Prog ι Unit S' L' E} {idle' : L'}

/-- Calls that another program can answer, where the calls before are `Ok`. -/
theorem Calls.simulate {Ok : List (ι × E) → Prop} {R : List (ι × E) → S → S' → Prop} (hok : ∀ {log x}, Ok (log ++ [x]) → Ok log)
    (hcall : ∀ {log i s t s' e}, Ok (log ++ [(i, e)]) → R log s t → Solo p idle i s idle s' e →
      ∃ t', Solo q idle' i t idle' t' e ∧ R (log ++ [(i, e)]) s' t')
    {s s' : S} {log : List (ι × E)} (h : Calls p idle s log s') (hlog : Ok log) {t : S'} (ht : R [] s t) :
    ∃ t', Calls q idle' t log t' ∧ R log s' t' := by
  induction h with
  | nil => exact ⟨t, .nil, ht⟩
  | snoc before call ih =>
    obtain ⟨t₁, hcalls, ht₁⟩ := ih (hok hlog)
    obtain ⟨t', hsolo, ht'⟩ := hcall hlog ht₁ call
    exact ⟨t', hcalls.snoc hsolo, ht'⟩

/-- A program whose calls another one can answer has its answers. -/
theorem Answers.simulate {R : S → S' → Prop}
    (hcall : ∀ {i s t s' e}, R s t → Solo p idle i s idle s' e → ∃ t', Solo q idle' i t idle' t' e ∧ R s' t')
    {s : S} {log : List (ι × E)} (h : Answers p idle s log) {t : S'} (ht : R s t) : Answers q idle' t log := by
  obtain ⟨s', hcalls⟩ := h
  obtain ⟨t', hcalls', -⟩ := hcalls.simulate (R := fun _ => R) (fun _ => trivial)
    (fun _ => hcall) trivial ht
  exact ⟨t', hcalls'⟩

end

/-- A program whose steps another one can take from the same places answers the calls of the other. -/
theorem Solo.simulate {S' : Type} {q : Prog ι Unit S' L E} {R : S → S' → L → Prop}
    (hstep : ∀ {i s t l s₁ l₁ e}, R s t l → p i () s l = some (s₁, l₁, e) → ∃ t₁, q i () t l = some (t₁, l₁, e) ∧ R s₁ t₁ l₁)
    {i : ι} {s s' : S} {l : L} {e : E} (h : Solo p idle i s l s' e) {t : S'} (ht : R s t l) :
    ∃ t', Solo q idle i t l t' e ∧ R s' t' idle := by
  induction h generalizing t with
  | last h =>
    obtain ⟨t₁, hq, ht₁⟩ := hstep ht h
    exact ⟨t₁, .last hq, ht₁⟩
  | more h rest ih =>
    obtain ⟨t₁, hq, ht₁⟩ := hstep ht h
    obtain ⟨t', hsolo, ht'⟩ := ih ht₁
    exact ⟨t', .more hq hsolo, ht'⟩

/-- Two programs that take the same steps wherever an invariant of them holds have the same answers. -/
theorem Answers.congr {q : Prog ι Unit S L E} {I : S → L → Prop} (hsame : ∀ {i s l}, I s l → p i () s l = q i () s l)
    (hinv : ∀ {i s l s' l' e}, I s l → p i () s l = some (s', l', e) → I s' l') {s : S} (hs : I s idle) {log : List (ι × E)} :
    Answers p idle s log ↔ Answers q idle s log := by
  constructor
  · intro h
    refine h.simulate (R := fun s t => s = t ∧ I s idle) (fun ht hcall => ?_) ⟨rfl, hs⟩
    refine hcall.simulate (R := fun s t l => s = t ∧ I s l) (fun ht hstep => ?_) ht
    obtain ⟨rfl, hs⟩ := ht
    exact ⟨_, (hsame hs).symm.trans hstep, rfl, hinv hs hstep⟩
  · intro h
    refine h.simulate (R := fun s t => s = t ∧ I s idle) (fun ht hcall => ?_) ⟨rfl, hs⟩
    refine hcall.simulate (R := fun s t l => s = t ∧ I s l) (fun ht hstep => ?_) ht
    obtain ⟨rfl, hs⟩ := ht
    have hstep := (hsame hs).trans hstep
    exact ⟨_, hstep, rfl, hinv hs hstep⟩

/-! ## Calls are interleavings -/

section

variable [DecidableEq ι]

theorem Solo.reach {i : ι} {s s' : S} {l : L} {e : E} (h : Solo p idle i s l s' e) (log : List (ι × E)) :
    Reach p ⟨s, Function.update (fun _ => idle) i l, log⟩ ⟨s', fun _ => idle, log ++ [(i, e)]⟩ := by
  induction h with
  | @last s s' l e h =>
    let c : Cfg ι S L E := ⟨s, Function.update (fun _ => idle) i l, log⟩
    have hp : p i () c.shared (c.loc i) = some (s', idle, some e) := by
      rw [show c.loc i = l from Function.update_self i l fun _ => idle]
      exact h
    have hs := Step.mk i () hp
    rw [Function.update_idem, Function.update_eq_self i fun _ : ι => idle] at hs
    exact .single hs
  | @more s s₁ s' l l₁ e h rest ih =>
    let c : Cfg ι S L E := ⟨s, Function.update (fun _ => idle) i l, log⟩
    have hp : p i () c.shared (c.loc i) = some (s₁, l₁, none) := by
      rw [show c.loc i = l from Function.update_self i l fun _ => idle]
      exact h
    have hs := Step.mk i () hp
    rw [Function.update_idem] at hs
    exact .head hs ih

theorem Calls.reach {s s' : S} {log : List (ι × E)} (h : Calls p idle s log s') (log₀ : List (ι × E)) :
    Reach p ⟨s, fun _ => idle, log₀⟩ ⟨s', fun _ => idle, log₀ ++ log⟩ := by
  induction h with
  | nil => rw [List.append_nil]
  | @snoc s₁ s' log i e before call ih =>
    have hidle := Function.update_eq_self i fun _ : ι => idle
    have hcall := call.reach (log₀ ++ log)
    rw [hidle] at hcall
    rw [← List.append_assoc]
    exact ih.trans hcall

end

/-- Where a thread's calls always return, it can call as often as it likes. -/
theorem Calls.exists_length {s : S} (i : ι) (h : ∀ {log s'}, Calls p idle s log s' → ∃ s'' e, Solo p idle i s' idle s'' e) :
    ∀ n, ∃ log s', Calls p idle s log s' ∧ log.length = n
  | 0 => ⟨[], s, .nil, rfl⟩
  | n + 1 => by
    obtain ⟨log, s', hcalls, hlen⟩ := Calls.exists_length i h n
    obtain ⟨s'', e, hcall⟩ := h hcalls
    exact ⟨log ++ [(i, e)], s'', hcalls.snoc hcall, by rw [List.length_append, hlen]; rfl⟩

/-! ## Calls against a list of results -/

/-- Where each call returns the head of the list of results that belongs to the state, or `none` once there
are no more, the calls return the list. -/
theorem Calls.results {O : Type} {out : E → Option O} {Rel : S → List O → Prop}
    (hcall : ∀ {i s os s' e}, Rel s os → Solo p idle i s idle s' e → out e = os.head? ∧ Rel s' os.tail)
    {s s' : S} {os : List O} {log : List (ι × E)} (h : Calls p idle s log s') (hs : Rel s os) :
    log.map (fun x => out x.2) = (List.range log.length).map (fun n => os[n]?) ∧ Rel s' (os.drop log.length) := by
  induction h with
  | nil => exact ⟨rfl, hs⟩
  | @snoc s₁ s' log i e before call ih =>
    obtain ⟨hmap, hrel⟩ := ih
    obtain ⟨hout, hrel'⟩ := hcall hrel call
    rw [List.head?_drop] at hout
    rw [List.tail_drop] at hrel'
    rw [List.length_append, List.length_singleton]
    refine ⟨?_, hrel'⟩
    rw [List.map_append, hmap, List.range_succ, List.map_append, List.map_singleton, List.map_singleton, hout]

end Bosched.Lib
