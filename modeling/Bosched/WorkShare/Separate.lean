/-
What the work shares are for: a team in which every construct has a work share of its own, initialised from the start.
The numbered work shares refine it: putting work shares back is not a step of it at all.
-/
import Bosched.WorkShare.Needs

namespace Bosched

open Lib

variable {G C A B E : Type}

structure SeparateTeam (G C : Type) where
  global : G
  content : Nat → C
  arrived : Nat
  generation : Nat

inductive SeparateStatus (B : Type)
  | between | inside (b : B) | waiting (g : Nat) | releasing

structure SeparateMember (B : Type) where
  pos : Nat
  status : SeparateStatus B

/-- The steps in a construct and around it; only the barriers at the end of some constructs hold the threads up. -/
def separateStep (nthreads : Nat) (W : Work G C A B E) :
    Prog Nat (ShareAction A) (SeparateTeam G C) (SeparateMember B) E := fun i a s m =>
  match a, m.status with
  | .go, .between => some (s, { m with status := .inside W.entry }, none)
  | .run a, .inside b =>
    (W.step i a s.global (s.content m.pos) b).map fun r =>
      ({ s with global := r.1, content := Function.update s.content m.pos r.2.1 },
        { m with status := .inside r.2.2.1 }, r.2.2.2)
  | .go, .inside b =>
    if W.ends b then
      if W.nowait then some (s, ⟨m.pos + 1, .between⟩, none)
      else
        some ({ s with arrived := s.arrived + 1 },
          { m with status := if s.arrived + 1 = nthreads then .releasing else .waiting s.generation }, none)
    else none
  | .go, .waiting g => if s.generation = g + 1 then some (s, ⟨m.pos + 1, .between⟩, none) else none
  | .go, .releasing =>
    some ({ s with arrived := 0, generation := s.generation + 1 }, ⟨m.pos + 1, .between⟩, none)
  | _, _ => none

/-- The threads of a team go from construct to construct. -/
def separateRun (nthreads : Nat) (body : List (Work G C A B E)) :
    Prog Nat (ShareAction A) (SeparateTeam G C) (SeparateMember B) E := fun i a s m =>
  if i < nthreads then (body[m.pos]?).bind fun W => separateStep nthreads W i a s m else none

def separateStart (body : List (Work G C A B E)) (global : G) (content : Nat → C) :
    Cfg Nat (SeparateTeam G C) (SeparateMember B) E :=
  ⟨{ global := global
     content := fun k => ((body[k]?).map (·.init)).getD (content k)
     arrived := 0
     generation := 0 },
   fun _ => ⟨0, .between⟩, []⟩

/-! ## The view of the numbered work shares -/

def NumberedTeam.separate (s : NumberedTeam G C) : SeparateTeam G C := ⟨s.global, s.content, s.arrived, s.generation⟩

/-- The thread without its part in the bookkeeping: the last to leave a nowait construct has left it. -/
def NumberedMember.separate (body : List (Work G C A B E)) (m : NumberedMember B) : SeparateMember B :=
  match m.status with
  | .between | .building => ⟨m.pos, .between⟩
  | .inside b => ⟨m.pos, .inside b⟩
  | .freeing => if Work.nowaitAt body m.pos then ⟨m.pos + 1, .between⟩ else ⟨m.pos, .releasing⟩
  | .waiting g => ⟨m.pos, .waiting g⟩
  | .releasing => ⟨m.pos, .releasing⟩

theorem separateRun_of {n i : Nat} {body : List (Work G C A B E)} {W : Work G C A B E} {m : SeparateMember B}
    (hi : i < n) (hW : body[m.pos]? = some W) (a : ShareAction A) (s : SeparateTeam G C) :
    separateRun n body i a s m = separateStep n W i a s m := by
  unfold separateRun
  rw [if_pos hi, hW, Option.bind_some]

/-- A step of the numbered work shares is a step of the team, but for those that only take or put back work shares. -/
theorem NumberedRule.separate {n i : Nat} {body : List (Work G C A B E)} {s s' : NumberedTeam G C}
    {m m' : NumberedMember B} {e : Option E} (hi : i < n) (h : NumberedRule n body i s m s' m' e) :
    (s'.separate = s.separate ∧ m'.separate body = m.separate body ∧ e = none ∧
        (m'.status = .building ∨ m.status = .freeing)) ∨
      ∃ a, separateRun n body i a s.separate (m.separate body) = some (s'.separate, m'.separate body, e) := by
  obtain ⟨p, st⟩ := m
  cases h with
  | build W hW hst hlt hfree =>
    obtain rfl : st = .between := hst
    exact .inl ⟨rfl, rfl, rfl, .inl rfl⟩
  | free W hW hst hform =>
    obtain rfl : st = .freeing := hst
    refine .inl ⟨rfl, ?_, rfl, .inr rfl⟩
    simp [NumberedMember.separate, Work.nowaitAt_of hW, hform]
  | freeLast W hW hst hform =>
    obtain rfl : st = .freeing := hst
    refine .inl ⟨rfl, ?_, rfl, .inr rfl⟩
    simp [NumberedMember.separate, Work.nowaitAt_of hW, hform]
  | enter W hW hst hlt =>
    obtain rfl : st = .between := hst
    exact .inr ⟨.go, separateRun_of hi hW .go s.separate⟩
  | link W hW hst =>
    obtain rfl : st = .building := hst
    exact .inr ⟨.go, separateRun_of hi hW .go s.separate⟩
  | run W hW b hst a g c b' e hstep =>
    obtain rfl : st = .inside b := hst
    refine .inr ⟨.run a, (separateRun_of hi hW (.run a) s.separate).trans ?_⟩
    show (W.step i a s.global (s.content p) b).map _ = _
    rw [hstep]
    rfl
  | count W hW b hst hend hform hn =>
    obtain rfl : st = .inside b := hst
    refine .inr ⟨.go, (separateRun_of hi hW .go s.separate).trans ?_⟩
    simp [separateStep, NumberedMember.separate, NumberedTeam.separate, hend, hform]
  | countLast W hW b hst hend hform hn =>
    obtain rfl : st = .inside b := hst
    refine .inr ⟨.go, (separateRun_of hi hW .go s.separate).trans ?_⟩
    simp [separateStep, NumberedMember.separate, NumberedTeam.separate, hend, hform, Work.nowaitAt_of hW]
  | arrive W hW b hst hend hform hn =>
    obtain rfl : st = .inside b := hst
    refine .inr ⟨.go, (separateRun_of hi hW .go s.separate).trans ?_⟩
    simp [separateStep, NumberedMember.separate, NumberedTeam.separate, hend, hform, hn]
  | arriveLast W hW b hst hend hform hn =>
    obtain rfl : st = .inside b := hst
    refine .inr ⟨.go, (separateRun_of hi hW .go s.separate).trans ?_⟩
    simp [separateStep, NumberedMember.separate, NumberedTeam.separate, hend, hform, hn, Work.nowaitAt_of hW]
  | wake W hW g hst hg =>
    obtain rfl : st = .waiting g := hst
    refine .inr ⟨.go, (separateRun_of hi hW .go s.separate).trans ?_⟩
    simp [separateStep, NumberedMember.separate, NumberedTeam.separate, hg]
  | release W hW hst =>
    obtain rfl : st = .releasing := hst
    exact .inr ⟨.go, separateRun_of hi hW .go s.separate⟩

end Bosched
