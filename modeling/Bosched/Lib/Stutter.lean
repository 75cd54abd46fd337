/-
Simulation with stuttering: the steps of one program are steps of another or lower a rank. What the runs of the other
program log, how long they can get and where they end carries over.
-/
import Bosched.Lib.Threads

namespace Bosched.Lib

variable {ι A S L E A' S' L' : Type} [DecidableEq ι] {p : Prog ι A S L E} {q : Prog ι A' S' L' E}
  {R : Cfg ι S L E → Cfg ι S' L' E → Prop} {rank : Cfg ι S L E → Nat} {k : Nat}

/-- Related configurations of `p` and `q`: a step of `p` is a step of `q`, which raises the rank by `k` at most, or
lowers the rank; and `p` is stuck only where `q` is. -/
structure Stutters (p : Prog ι A S L E) (q : Prog ι A' S' L' E) (R : Cfg ι S L E → Cfg ι S' L' E → Prop)
    (rank : Cfg ι S L E → Nat) (k : Nat) : Prop where
  log : ∀ {c d}, R c d → c.log = d.log
  step : ∀ {c c' d}, R c d → Step p c c' →
    R c' d ∧ rank c' < rank c ∨ ∃ d', Step q d d' ∧ R c' d' ∧ rank c' ≤ rank c + k
  stuck : ∀ {c d}, R c d → (∃ d', Step q d d') → ∃ c', Step p c c'

theorem step_of_some {c : Cfg ι S L E} {i : ι} {a : A} {r : S × L × Option E} (h : p i a c.shared (c.loc i) = some r) :
    ∃ c', Step p c c' := by
  obtain ⟨s, l, e⟩ := r
  exact ⟨_, .mk i a h⟩

theorem stepBy_of_step {c c' : Cfg ι S L E} (h : Step p c c') : ∃ i a, stepBy p c i a = some c' := by
  cases h with
  | mk i a h => exact ⟨i, a, by unfold stepBy; rw [h]; rfl⟩

/-- A run of `p` is a run of `q`. -/
theorem Stutters.reach (h : Stutters p q R rank k) {c c' : Cfg ι S L E} {d : Cfg ι S' L' E} (hR : R c d)
    (hr : Reach p c c') : ∃ d', Reach q d d' ∧ R c' d' := by
  induction hr with
  | refl => exact ⟨d, .refl, hR⟩
  | tail _ hs ih =>
    obtain ⟨d₁, hd, hR₁⟩ := ih
    rcases h.step hR₁ hs with ⟨hR', -⟩ | ⟨d', hs', hR', -⟩
    · exact ⟨d₁, hd, hR'⟩
    · exact ⟨d', hd.tail hs', hR'⟩

/-- A schedule of `p` has at most `k + 1` steps for each step of `q`, besides those the rank allows at first. -/
theorem Stutters.exec (h : Stutters p q R rank k) :
    ∀ {sched : List (ι × A)} {c c' : Cfg ι S L E} {d : Cfg ι S' L' E}, R c d → Lib.exec p c sched = some c' →
      ∃ sched' d', Lib.exec q d sched' = some d' ∧ R c' d' ∧
        sched.length + rank c' ≤ rank c + (k + 1) * sched'.length
  | [], c, c', d, hR, hexec => by
    cases hexec
    exact ⟨[], d, rfl, hR, by simp⟩
  | (i, a) :: rest, c, c', d, hR, hexec => by
    obtain ⟨c₁, hc₁, hexec⟩ := Option.bind_eq_some_iff.1 hexec
    rcases h.step hR (step_of_stepBy hc₁) with ⟨hR₁, hlt⟩ | ⟨d₁, hs, hR₁, hle⟩
    · obtain ⟨sched', d', hd', hR', hlen⟩ := h.exec hR₁ hexec
      refine ⟨sched', d', hd', hR', ?_⟩
      rw [List.length_cons]
      omega
    · obtain ⟨sched', d', hd', hR', hlen⟩ := h.exec hR₁ hexec
      obtain ⟨j, b, hstep⟩ := stepBy_of_step hs
      refine ⟨(j, b) :: sched', d', ?_, hR', ?_⟩
      · show (stepBy q d j b).bind _ = _
        rw [hstep]
        exact hd'
      · rw [List.length_cons, List.length_cons, Nat.mul_succ]
        omega

end Bosched.Lib
