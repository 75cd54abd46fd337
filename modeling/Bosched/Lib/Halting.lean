/-
Threads whose every step lowers a rank: no schedule is longer than the rank, and where the only configurations in which
nobody can step are the wanted ones, every run ends in one of them.
-/
import Bosched.Lib.Threads
import Mathlib.Algebra.BigOperators.Group.Finset.Basic

namespace Bosched.Lib

variable {ι A S L E : Type} [DecidableEq ι] {p : Prog ι A S L E}

/-- Where every step lowers a rank, a schedule takes at most as many steps as the rank is lowered. -/
theorem exec_length_le {J : Cfg ι S L E → Prop} (rank : Cfg ι S L E → Nat) (hJ : ∀ {c c'}, J c → Step p c c' → J c')
    (hrank : ∀ {c c'}, J c → Step p c c' → rank c' < rank c) :
    ∀ {sched : List (ι × A)} {c c' : Cfg ι S L E}, J c → exec p c sched = some c' → sched.length + rank c' ≤ rank c
  | [], c, c', _, h => by
    cases h
    rw [List.length_nil, Nat.zero_add]
  | (i, a) :: rest, c, c', hc, h => by
    obtain ⟨d, hd, h⟩ := Option.bind_eq_some_iff.1 h
    have hs := step_of_stepBy hd
    have hlt := hrank hc hs
    have hle := exec_length_le rank hJ hrank (hJ hc hs) h
    rw [List.length_cons]
    omega

/-- Where every thread that has not logged `done` can take a step that logs it or lowers a rank, there is a run in which
all of the given threads log `done`. -/
theorem exists_reach_told {J : Cfg ι S L E → Prop} (rank : ι → Cfg ι S L E → Nat) (done : E)
    (h : ∀ c, J c → ∀ i, ∃ a s l e, p i a c.shared (c.loc i) = some (s, l, e) ∧
      J ⟨s, Function.update c.loc i l, logged c.log i e⟩ ∧
      (e = some done ∨ rank i ⟨s, Function.update c.loc i l, logged c.log i e⟩ < rank i c)) {c : Cfg ι S L E}
        (hc : J c) :
    ∀ is : List ι, ∃ c', Reach p c c' ∧ J c' ∧ ∀ i ∈ is, (i, done) ∈ c'.log
  | [] => ⟨c, .refl, hc, fun _ hi => absurd hi List.not_mem_nil⟩
  | i :: is => by
    obtain ⟨d, hd, hJd, his⟩ := exists_reach_told rank done h hc is
    -- the next thread goes on alone
    have halone : ∀ m c, J c → rank i c = m → ∃ c', Reach p c c' ∧ J c' ∧ (i, done) ∈ c'.log := by
      intro m
      induction m using Nat.strong_induction_on with
      | _ m ih =>
        rintro c hc rfl
        obtain ⟨a, s, l, e, hp, hJ, rfl | hlt⟩ := h c hc i
        · exact ⟨_, .single (.mk i a hp), hJ, List.mem_append_right _ List.mem_cons_self⟩
        · obtain ⟨c', hr, hJ', hi⟩ := ih _ hlt _ hJ rfl
          exact ⟨c', .head (.mk i a hp) hr, hJ', hi⟩
    obtain ⟨c', hr, hJ, hi⟩ := halone _ d hJd rfl
    refine ⟨c', hd.trans hr, hJ, fun j hj => ?_⟩
    rcases List.mem_cons.1 hj with rfl | hj
    · exact hi
    · exact hr.log_subset (his j hj)

/-- A step of one thread in a sum over all of them. -/
theorem sum_update {L : Type} (loc : Nat → L) {i n : Nat} (hi : i < n) (l : L) (f : Nat → L → Nat) :
    (∑ j ∈ Finset.range n, f j (Function.update loc i l j)) + f i (loc i) = (∑ j ∈ Finset.range n, f j (loc j)) +
      f i l := by
  have hmem : i ∈ Finset.range n := Finset.mem_range.2 hi
  have hrest : ∑ j ∈ (Finset.range n).erase i, f j (Function.update loc i l j) =
      ∑ j ∈ (Finset.range n).erase i, f j (loc j) :=
    Finset.sum_congr rfl fun j hj => by rw [Function.update_of_ne (Finset.ne_of_mem_erase hj)]
  rw [← Finset.add_sum_erase _ _ hmem, ← Finset.add_sum_erase _ (fun j => f j (loc j)) hmem, hrest,
    Function.update_self]
  omega

/-- Where some thread can take a step that lowers its own rank while not all have got to `Q`, there is a run in which
all get there. -/
theorem exists_reach_only [Fintype ι] {ok : ι → A → S → L → Prop} [∀ i a s l, Decidable (ok i a s l)]
    {K : Cfg ι S L E → Prop} {Q : L → Prop} (rank : L → Nat) (hstep : ∀ {c c'}, K c → Step p c c' → K c')
    (h : ∀ {c}, K c → (∃ i, ¬ Q (c.loc i)) → ∃ i a s l e, p.only ok i a c.shared (c.loc i) = some (s, l, e) ∧
      rank l < rank (c.loc i)) {c : Cfg ι S L E} (hc : K c) :
    ∃ c', Reach (p.only ok) c c' ∧ ∀ i, Q (c'.loc i) := by
  have hgo : ∀ c, K c → (∀ i, Q (c.loc i)) ∨
      ∃ c', Step (p.only ok) c c' ∧ K c' ∧ ∑ i, rank (c'.loc i) < ∑ i, rank (c.loc i) := by
    intro c hK
    by_cases hall : ∀ i, Q (c.loc i)
    · exact .inl hall
    · push Not at hall
      obtain ⟨i, a, s, l, e, hp, hlt⟩ := h hK hall
      refine .inr ⟨_, .mk i a hp, hstep hK (.mk i a (Prog.only_eq_some.1 hp).2),
        Finset.sum_lt_sum (fun j _ => ?_) ⟨i, Finset.mem_univ i, ?_⟩⟩
      · show rank (Function.update c.loc i l j) ≤ rank (c.loc j)
        by_cases hji : j = i
        · rw [hji, Function.update_self]
          exact hlt.le
        · rw [Function.update_of_ne hji]
      · show rank (Function.update c.loc i l i) < rank (c.loc i)
        rwa [Function.update_self]
  obtain ⟨c', hr, -, hall⟩ := exists_reach_of_rank (fun c => ∑ i, rank (c.loc i)) hgo hc
  exact ⟨c', hr, hall⟩

/-- One thread is missing from a full count just where all others have the property. -/
theorem count_add_one_iff {P : Nat → Prop} [DecidablePred P] {i n : Nat} (hi : i < n) (hP : ¬ P i) :
    Nat.count P n + 1 = n ↔ ∀ j < n, j ≠ i → P j := by
  have hcount : Nat.count (fun j => Function.update (fun j => decide (P j)) i true j = true) n = Nat.count P n + 1 := by
    have hi' : ¬ decide (P i) = true := fun h => hP (of_decide_eq_true h)
    have hrest : Nat.count (fun j => decide (P j) = true) n = Nat.count P n :=
      le_antisymm (Nat.count_mono_left fun j _ h => of_decide_eq_true h)
        (Nat.count_mono_left fun j _ h => decide_eq_true h)
    rw [count_update_succ (fun b : Bool => b = true) rfl hi' hi, hrest]
  rw [← hcount, Nat.count_iff_forall]
  constructor
  · intro h j hj hji
    have hj' := h j hj
    rw [Function.update_of_ne hji] at hj'
    exact of_decide_eq_true hj'
  · intro h j hj
    by_cases hji : j = i
    · subst hji
      rw [Function.update_self]
    · rw [Function.update_of_ne hji]
      exact decide_eq_true (h j hj hji)

end Bosched.Lib
