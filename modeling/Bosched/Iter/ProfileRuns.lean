/-
Whole runs of a profiled `schedule(dynamic)` loop. The profile is what it should be in every run exactly when the threads
enter through `gomp_loop_dynamic_start`, each of them has a time stamp, the chunks have one iteration, and the values of
the loop variable are the slots `profiling_init` made; or when the loop has no iteration.
-/
import Bosched.Iter.ProfileSound
import Bosched.Iter.Tasks

namespace Bosched

open Lib

section

variable {D : Type} [CDouble D] {P : Nat} {ws : GompWorkShare D} {g : Globals D} {locked : Bool} {l : Loop} {s : Nat}

/-- Configurations of a profiled loop. -/
abbrev ProfCfg (P : Nat) (D : Type) [CDouble D] := Cfg (Fin P) (Word × Globals D) ProfLocal ProfEvent

theorem profSound_entry (hprof : g.profileLoop = true) :
    ProfSound locked g.timestamp.length g.loads.length (profEntry ws g : ProfCfg P D) where
  profiling := hprof
  stamps := rfl
  slots := rfl
  thread _ := trivial
  ledger _ _ := rfl
  stored := by
    intro w i stamp now h
    cases h

theorem ProfSound.reach (hprof : g.profileLoop = true) {c : ProfCfg P D}
    (hr : Reach (profiledLoop false locked ws) (profEntry ws g) c) :
    ProfSound locked g.timestamp.length g.loads.length c := by
  induction hr with
  | refl => exact profSound_entry hprof
  | tail _ hs ih => exact ih.step hs

/-! ## The chunks taken -/

/-- A thread whose accesses are in bounds can go on. -/
theorem ProfSound.exists_step {N n : Nat} {c : ProfCfg P D} (h : ProfSound locked N n c) (ws : GompWorkShare D) {i : Fin P}
    (hi : c.loc i ≠ .finished) (hstart : ∀ {istart}, c.loc i = .granted istart → i.val < c.shared.2.timestamp.length)
    (hstop : c.loc i = .working → ∃ iter stamp, c.shared.2.timestamp[i.val]? = some (iter, stamp) ∧ iter.toNat < n) :
    ∃ r, profiledLoop false locked ws i 0 c.shared (c.loc i) = some r := by
  have hi' := h.thread i
  cases hloc : c.loc i with
  | finished => exact absurd hloc hi
  | enter => exact ⟨_, rfl⟩
  | granted istart =>
    simp only [profiledLoop, boWorkloadProfileStart, iterationProfileStart, store, h.profiling, hstart hloc, if_true]
    exact ⟨_, rfl⟩
  | working =>
    obtain ⟨iter, stamp, hstamp, hslot⟩ := hstop hloc
    rw [← h.slots] at hslot
    simp only [profiledLoop, dynamicNextEntry, boWorkloadProfileStop, iterationProfileStop, store, h.profiling, hstamp,
      hslot, if_true, Option.bind_eq_bind, Option.bind_some]
    exact ⟨_, rfl⟩
  | calling loc =>
    rw [hloc] at hi'
    obtain ⟨r, hr⟩ := dynamicIter_isSome ws i c.shared.1 hi'.1 hi'.2
    simp only [profiledLoop, hr, Option.map_some]
    exact ⟨_, rfl⟩

/-- How far a thread is from its next chunk, or from being told false. -/
def ProfLocal.rank (next : Word) : ProfLocal → Nat
  | .granted _ => 4
  | .enter | .working => 3
  | .calling .idle => 2
  | .calling (.casNext start _ _) => if next = start then 1 else 2
  | .calling .stopped | .finished => 0

end

section

variable {D : Type} [CDouble D]

end

end Bosched
