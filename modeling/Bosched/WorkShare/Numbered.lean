/-
Between the program and what it is for: a team whose work shares are numbered as its constructs are, with counters of
those that have been linked in and of those that have been put back, in place of links and addresses. Its invariant
(`NumberedInv`) says who may still need which work share.
-/
import Bosched.WorkShare.Model
import Mathlib.Data.Nat.Count

namespace Bosched

open Lib

variable {G C A B E : Type}

/-! ## The numbered work shares -/

/-- What the threads share, the work shares by the number of their construct: how many have been linked in, whether some
thread has taken the lock behind the last of them, and how many have been put back. -/
structure NumberedTeam (G C : Type) where
  global : G
  content : Nat → C
  completed : Nat → Nat
  started : Nat
  building : Bool
  freed : Nat
  arrived : Nat
  generation : Nat

inductive NumberedStatus (B : Type)
  | between | building | inside (b : B) | freeing | waiting (g : Nat) | releasing

structure NumberedMember (B : Type) where
  pos : Nat
  status : NumberedStatus B

/-- The thread is done with its construct. -/
def NumberedMember.done (m : NumberedMember B) : NumberedMember B := ⟨m.pos + 1, .between⟩

@[simp] theorem NumberedMember.done_pos (m : NumberedMember B) : m.done.pos = m.pos + 1 := rfl
@[simp] theorem NumberedMember.done_status (m : NumberedMember B) : m.done.status = .between := rfl

/-- The steps of thread `i`, one construct of the list after the other. -/
inductive NumberedRule (n : Nat) (body : List (Work G C A B E)) (i : Nat) (s : NumberedTeam G C)
    (m : NumberedMember B) : NumberedTeam G C → NumberedMember B → Option E → Prop
  | enter (W : Work G C A B E) (hW : body[m.pos]? = some W) (hst : m.status = .between) (h : m.pos < s.started) :
      NumberedRule n body i s m s ⟨m.pos, .inside W.entry⟩ none
  | build (W : Work G C A B E) (hW : body[m.pos]? = some W) (hst : m.status = .between) (h : ¬ m.pos < s.started)
      (hfree : s.building = false) :
      NumberedRule n body i s m { s with building := true } ⟨m.pos, .building⟩ none
  | link (W : Work G C A B E) (hW : body[m.pos]? = some W) (hst : m.status = .building) :
      NumberedRule n body i s m { s with started := s.started + 1, building := false } ⟨m.pos, .inside W.entry⟩ none
  | run (W : Work G C A B E) (hW : body[m.pos]? = some W) (b : B) (hst : m.status = .inside b) (a : A) (g : G) (c : C)
      (b' : B) (e : Option E) (h : W.step i a s.global (s.content m.pos) b = some (g, c, b', e)) :
      NumberedRule n body i s m { s with global := g, content := Function.update s.content m.pos c }
        ⟨m.pos, .inside b'⟩ e
  | count (W : Work G C A B E) (hW : body[m.pos]? = some W) (b : B) (hst : m.status = .inside b)
    (hend : W.ends b = true)
      (hform : W.nowait = true) (h : s.completed m.pos + 1 ≠ n) :
      NumberedRule n body i s m
        { s with completed := Function.update s.completed m.pos (s.completed m.pos + 1) } m.done none
  | countLast (W : Work G C A B E) (hW : body[m.pos]? = some W) (b : B) (hst : m.status = .inside b)
      (hend : W.ends b = true) (hform : W.nowait = true) (h : s.completed m.pos + 1 = n) :
      NumberedRule n body i s m
        { s with completed := Function.update s.completed m.pos (s.completed m.pos + 1) } ⟨m.pos, .freeing⟩ none
  | arrive (W : Work G C A B E) (hW : body[m.pos]? = some W) (b : B) (hst : m.status = .inside b)
    (hend : W.ends b = true)
      (hform : W.nowait = false) (h : s.arrived + 1 ≠ n) :
      NumberedRule n body i s m { s with arrived := s.arrived + 1 } ⟨m.pos, .waiting s.generation⟩ none
  | arriveLast (W : Work G C A B E) (hW : body[m.pos]? = some W) (b : B) (hst : m.status = .inside b)
      (hend : W.ends b = true) (hform : W.nowait = false) (h : s.arrived + 1 = n) :
      NumberedRule n body i s m { s with arrived := s.arrived + 1 } ⟨m.pos, .freeing⟩ none
  | free (W : Work G C A B E) (hW : body[m.pos]? = some W) (hst : m.status = .freeing) (hform : W.nowait = true) :
      NumberedRule n body i s m { s with freed := s.freed + 1 } m.done none
  | freeLast (W : Work G C A B E) (hW : body[m.pos]? = some W) (hst : m.status = .freeing) (hform : W.nowait = false) :
      NumberedRule n body i s m { s with freed := s.freed + 1 } ⟨m.pos, .releasing⟩ none
  | wake (W : Work G C A B E) (hW : body[m.pos]? = some W) (g : Nat) (hst : m.status = .waiting g)
      (h : s.generation = g + 1) : NumberedRule n body i s m s m.done none
  | release (W : Work G C A B E) (hW : body[m.pos]? = some W) (hst : m.status = .releasing) :
      NumberedRule n body i s m { s with arrived := 0, generation := s.generation + 1 } m.done none

/-- A team at its start. -/
def numberedStart (body : List (Work G C A B E)) (global : G) (content : Nat → C) : NumberedTeam G C where
  global := global
  content := fun k => ((body[k]?).map (·.init)).getD (content k)
  completed := fun _ => 0
  started := 0
  building := false
  freed := 0
  arrived := 0
  generation := 0

end Bosched
