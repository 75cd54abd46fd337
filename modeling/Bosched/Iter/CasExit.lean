/-
How the calls of the compare-and-swap iterators end once `ws->next` has reached `ws->end`: no
claim succeeds any more, and from wherever a thread stands in its call, the retry paths lead it
to the test `start == end` within a bounded number of its own steps.
-/
import Bosched.Iter.Cas

namespace Bosched

open Lib

/-- A thread that is past the test `start == end` holds a start that is not the end. -/
def Local.Off (v : View) : Local → Prop
  | .casChunk start _ _ _ _ => start ≠ v.fin
  | .casBarrier start _ _ _ => start ≠ v.fin
  | .casNext start _ _ => start ≠ v.fin
  | _ => True

/-- How many own steps a thread may still take before the one that returns false. -/
def Local.rank (v : View) : Local → Nat
  | .idle => 2
  | .loadNext _ => 0
  | .loadBarrier start => if start = v.fin then 1 else 6
  | .loadChunk start _ => if start = v.fin then 0 else 5
  | .casChunk _ _ _ _ _ => 4
  | .reloadNext _ => 1
  | .reloadBarrier start _ => if start = v.fin then 0 else 5
  | .casBarrier _ _ _ _ => 3
  | .reloadStart _ _ => 0
  | .casNext _ _ _ => 2

theorem Local.rank_le (v : View) (loc : Local) : loc.rank v ≤ 6 := by
  cases loc with
  | loadBarrier | loadChunk | reloadBarrier => simp only [Local.rank]; split <;> omega
  | idle | loadNext | casChunk | reloadNext | casBarrier | reloadStart | casNext => simp [Local.rank]

/-- A step with `next` at the end leaves it there, and returns false or comes closer to that. -/
structure Exits {ι : Type} (v : View) (p : Prog ι Unit Cells Local Ret) : Prop where
  step : ∀ {i : ι} {a : Unit} {s s' : Cells} {loc loc' : Local} {e : Option Ret}, loc.Off v →
    p i a s loc = some (s', loc', e) →
    loc'.Off v ∧ (s.next = v.fin → s'.next = v.fin ∧ (e = some none ∨ loc'.rank v < loc.rank v))

namespace View

variable {ι : Type} (v : View)

theorem claim_eq {start chunk : Word} {loc : Local} (h : v.claim start chunk = some loc) :
    ∃ nend, loc = .casNext start chunk nend := by
  obtain ⟨R, hR, h⟩ := Option.bind_eq_some_iff.1 h
  cases h
  exact ⟨_, rfl⟩

/-- The head of the loop body returns false at the end, and goes for a word anywhere else. -/
theorem batchTop_cases {nthreads start barrier chunk : Word} {batch : Word → Option Word} {loc : Local}
    {e : Option Ret} (h : v.batchTop nthreads batch start barrier chunk = some (loc, e)) :
    (start = v.fin ∧ loc = .idle ∧ e = some none) ∨
      (start ≠ v.fin ∧ ((∃ F nbarrier, loc = .casChunk start barrier chunk F nbarrier) ∨
        ∃ nend, loc = .casNext start chunk nend)) := by
  unfold batchTop at h
  split at h
  · rename_i hfin
    cases h
    exact .inl ⟨hfin, rfl, rfl⟩
  · rename_i hfin
    refine .inr ⟨hfin, ?_⟩
    split at h
    · obtain ⟨R, hR, h⟩ := Option.bind_eq_some_iff.1 h
      obtain ⟨F, hF, h⟩ := Option.bind_eq_some_iff.1 h
      cases h
      exact .inl ⟨_, _, rfl⟩
    · obtain ⟨loc', hcl, h⟩ := Option.bind_eq_some_iff.1 h
      cases h
      exact .inr (v.claim_eq hcl)

theorem ticketTop_cases {start chunk : Word} {loc : Local} {e : Option Ret}
    (h : v.ticketTop start chunk = some (loc, e)) :
    (start = v.fin ∧ loc = .idle ∧ e = some none) ∨ (start ≠ v.fin ∧ ∃ nend, loc = .casNext start chunk nend) := by
  unfold ticketTop at h
  split at h
  · rename_i hfin
    cases h
    exact .inl ⟨hfin, rfl, rfl⟩
  · rename_i hfin
    obtain ⟨loc', hcl, h⟩ := Option.bind_eq_some_iff.1 h
    cases h
    exact .inr ⟨hfin, v.claim_eq hcl⟩

theorem guidedTop_cases {guide : Word → Word} {start : Word} {loc : Local} {e : Option Ret}
    (h : v.guidedTop guide start = some (loc, e)) :
    (start = v.fin ∧ loc = .idle ∧ e = some none) ∨
      (start ≠ v.fin ∧ ∃ chunk nend, loc = .casNext start chunk nend) := by
  unfold guidedTop at h
  split at h
  · rename_i hfin
    cases h
    exact .inl ⟨hfin, rfl, rfl⟩
  · rename_i hfin
    obtain ⟨R, hR, h⟩ := Option.bind_eq_some_iff.1 h
    obtain ⟨loc', hcl, h⟩ := Option.bind_eq_some_iff.1 h
    cases h
    exact .inr ⟨hfin, _, v.claim_eq hcl⟩

theorem batchTop_off {nthreads start barrier chunk : Word} {batch : Word → Option Word} {loc : Local}
    {e : Option Ret} (h : v.batchTop nthreads batch start barrier chunk = some (loc, e)) :
    loc.Off v ∧ (start = v.fin → e = some none) ∧ (start ≠ v.fin → loc.rank v ≤ 4) := by
  rcases v.batchTop_cases h with ⟨hfin, rfl, rfl⟩ | ⟨hfin, ⟨F, nbarrier, rfl⟩ | ⟨nend, rfl⟩⟩
  · exact ⟨trivial, fun _ => rfl, fun hne => absurd hfin hne⟩
  · exact ⟨hfin, fun h => absurd h hfin, fun _ => by simp [Local.rank]⟩
  · exact ⟨hfin, fun h => absurd h hfin, fun _ => by simp [Local.rank]⟩

theorem batchedNext_exits (nthreads : Word) (batch : Word → Option Word) :
    Exits v (v.batchedNext nthreads batch : Prog ι Unit Cells Local Ret) := by
  constructor
  intro i a s s' loc loc' e hoff h
  cases loc with
  | idle =>
    cases h
    exact ⟨trivial, fun hn => ⟨hn, .inr (by simp [Local.rank, hn])⟩⟩
  | loadNext chunk => cases h
  | loadBarrier start =>
    cases h
    refine ⟨trivial, fun hn => ⟨hn, .inr ?_⟩⟩
    simp only [Local.rank]
    split <;> omega
  | reloadNext chunk =>
    cases h
    exact ⟨trivial, fun hn => ⟨hn, .inr (by simp [Local.rank, hn])⟩⟩
  | loadChunk start barrier =>
    obtain ⟨⟨loc'', e''⟩, ht, h⟩ := Option.bind_eq_some_iff.1 h
    cases h
    obtain ⟨h0, h1, h2⟩ := v.batchTop_off ht
    refine ⟨h0, fun hn => ⟨hn, ?_⟩⟩
    by_cases hs : start = v.fin
    · exact .inl (h1 hs)
    · exact .inr (lt_of_le_of_lt (h2 hs) (by simp [Local.rank, hs]))
  | reloadBarrier start chunk =>
    obtain ⟨⟨loc'', e''⟩, ht, h⟩ := Option.bind_eq_some_iff.1 h
    cases h
    obtain ⟨h0, h1, h2⟩ := v.batchTop_off ht
    refine ⟨h0, fun hn => ⟨hn, ?_⟩⟩
    by_cases hs : start = v.fin
    · exact .inl (h1 hs)
    · exact .inr (lt_of_le_of_lt (h2 hs) (by simp [Local.rank, hs]))
  | reloadStart barrier chunk =>
    obtain ⟨⟨loc'', e''⟩, ht, h⟩ := Option.bind_eq_some_iff.1 h
    cases h
    obtain ⟨h0, h1, -⟩ := v.batchTop_off ht
    exact ⟨h0, fun hn => ⟨hn, .inl (h1 hn)⟩⟩
  | casChunk start barrier chunk F nbarrier =>
    simp only [batchedNext] at h
    split at h <;> cases h
    · exact ⟨hoff, fun hn => ⟨hn, .inr (by simp [Local.rank])⟩⟩
    · exact ⟨trivial, fun hn => ⟨hn, .inr (by simp [Local.rank])⟩⟩
  | casBarrier start barrier F nbarrier =>
    simp only [batchedNext] at h
    split at h
    · obtain ⟨loc'', hcl, h⟩ := Option.bind_eq_some_iff.1 h
      cases h
      obtain ⟨nend, rfl⟩ := v.claim_eq hcl
      exact ⟨hoff, fun hn => ⟨hn, .inr (by simp [Local.rank])⟩⟩
    · cases h
      exact ⟨trivial, fun hn => ⟨hn, .inr (by simp [Local.rank])⟩⟩
  | casNext start chunk nend =>
    simp only [batchedNext] at h
    split at h
    · rename_i hs
      cases h
      exact ⟨trivial, fun hn => absurd (hs.symm.trans hn) hoff⟩
    · cases h
      exact ⟨trivial, fun hn => ⟨hn, .inr (by simp [Local.rank, hn])⟩⟩

theorem ticketNext_exits (chunkOf : Word → Word) : Exits v (v.ticketNext chunkOf : Prog ι Unit Cells Local Ret) := by
  constructor
  intro i a s s' loc loc' e hoff h
  have htop : ∀ {chunk r}, v.ticketTop s.next chunk = some r →
      r.1.Off v ∧ (s.next = v.fin → s.next = v.fin ∧ (r.2 = some none ∨ r.1.rank v < loc.rank v)) := by
    intro chunk r ht
    rcases v.ticketTop_cases ht with ⟨-, hr, he⟩ | ⟨hs, nend, hr⟩ <;> rw [hr]
    · exact ⟨trivial, fun hn => ⟨hn, .inl he⟩⟩
    · exact ⟨hs, fun hn => absurd hn hs⟩
  cases loc with
  | idle =>
    cases h
    exact ⟨trivial, fun hn => ⟨hn, .inr (by simp [Local.rank])⟩⟩
  | loadNext chunk =>
    obtain ⟨⟨loc'', e''⟩, ht, h⟩ := Option.bind_eq_some_iff.1 h
    cases h
    exact htop ht
  | casNext start chunk nend =>
    simp only [ticketNext] at h
    split at h
    · rename_i hs
      cases h
      exact ⟨trivial, fun hn => absurd (hs.symm.trans hn) hoff⟩
    · obtain ⟨⟨loc'', e''⟩, ht, h⟩ := Option.bind_eq_some_iff.1 h
      cases h
      exact htop ht
  | loadBarrier | loadChunk | casChunk | reloadNext | reloadBarrier | casBarrier | reloadStart => cases h

theorem guidedNext_exits (guide : Word → Word) : Exits v (v.guidedNext guide : Prog ι Unit Cells Local Ret) := by
  constructor
  intro i a s s' loc loc' e hoff h
  have htop : ∀ {r}, v.guidedTop guide s.next = some r →
      r.1.Off v ∧ (s.next = v.fin → s.next = v.fin ∧ (r.2 = some none ∨ r.1.rank v < loc.rank v)) := by
    intro r ht
    rcases v.guidedTop_cases ht with ⟨-, hr, he⟩ | ⟨hs, chunk, nend, hr⟩ <;> rw [hr]
    · exact ⟨trivial, fun hn => ⟨hn, .inl he⟩⟩
    · exact ⟨hs, fun hn => absurd hn hs⟩
  cases loc with
  | idle =>
    obtain ⟨⟨loc'', e''⟩, ht, h⟩ := Option.bind_eq_some_iff.1 h
    cases h
    exact htop ht
  | casNext start chunk nend =>
    simp only [guidedNext] at h
    split at h
    · rename_i hs
      cases h
      exact ⟨trivial, fun hn => absurd (hs.symm.trans hn) hoff⟩
    · obtain ⟨⟨loc'', e''⟩, ht, h⟩ := Option.bind_eq_some_iff.1 h
      cases h
      exact htop ht
  | loadNext | loadBarrier | loadChunk | casChunk | reloadNext | reloadBarrier | casBarrier | reloadStart => cases h

end View

/-! ## Between two calls -/

namespace View

variable {ι : Type} (v : View) {i : ι} {a : Unit} {s s' : Cells} {loc loc' : Local} {r : Ret}

theorem batchTop_returns {nthreads start barrier chunk : Word} {batch : Word → Option Word}
    (h : v.batchTop nthreads batch start barrier chunk = some (loc', some r)) : loc' = .idle := by
  rcases v.batchTop_cases h with ⟨-, hloc, -⟩ | ⟨hne, -⟩
  · exact hloc
  · unfold batchTop at h
    rw [if_neg hne] at h
    split at h
    · obtain ⟨R, -, h⟩ := Option.bind_eq_some_iff.1 h
      obtain ⟨F, -, h⟩ := Option.bind_eq_some_iff.1 h
      cases h
    · obtain ⟨loc, -, h⟩ := Option.bind_eq_some_iff.1 h
      cases h

theorem ticketTop_returns {start chunk : Word} (h : v.ticketTop start chunk = some (loc', some r)) : loc' = .idle := by
  rcases v.ticketTop_cases h with ⟨-, hloc, -⟩ | ⟨hne, -⟩
  · exact hloc
  · unfold ticketTop at h
    rw [if_neg hne] at h
    obtain ⟨loc, -, h⟩ := Option.bind_eq_some_iff.1 h
    cases h

theorem guidedTop_returns {guide : Word → Word} {start : Word} (h : v.guidedTop guide start = some (loc', some r)) :
    loc' = .idle := by
  rcases v.guidedTop_cases h with ⟨-, hloc, -⟩ | ⟨hne, -⟩
  · exact hloc
  · unfold guidedTop at h
    rw [if_neg hne] at h
    obtain ⟨R, -, h⟩ := Option.bind_eq_some_iff.1 h
    obtain ⟨loc, -, h⟩ := Option.bind_eq_some_iff.1 h
    cases h

theorem batchedNext_returns {nthreads : Word} {batch : Word → Option Word}
    (h : v.batchedNext nthreads batch i a s loc = some (s', loc', some r)) : loc' = .idle := by
  cases loc with
  | idle | loadNext | loadBarrier | reloadNext => cases h
  | loadChunk | reloadBarrier | reloadStart =>
    obtain ⟨⟨_, _⟩, ht, h⟩ := Option.bind_eq_some_iff.1 h
    cases h
    exact v.batchTop_returns ht
  | casChunk =>
    simp only [batchedNext] at h
    split at h <;> cases h
  | casBarrier =>
    simp only [batchedNext] at h
    split at h
    · obtain ⟨loc'', -, h⟩ := Option.bind_eq_some_iff.1 h
      cases h
    · cases h
  | casNext =>
    simp only [batchedNext] at h
    split at h <;> cases h
    rfl

theorem ticketNext_returns {chunkOf : Word → Word} (h : v.ticketNext chunkOf i a s loc = some (s', loc', some r)) :
    loc' = .idle := by
  cases loc with
  | idle => cases h
  | loadNext =>
    obtain ⟨⟨_, _⟩, ht, h⟩ := Option.bind_eq_some_iff.1 h
    cases h
    exact v.ticketTop_returns ht
  | casNext =>
    simp only [ticketNext] at h
    split at h
    · cases h
      rfl
    · obtain ⟨⟨_, _⟩, ht, h⟩ := Option.bind_eq_some_iff.1 h
      cases h
      exact v.ticketTop_returns ht
  | loadBarrier | loadChunk | casChunk | reloadNext | reloadBarrier | casBarrier | reloadStart => cases h

theorem guidedNext_returns {guide : Word → Word} (h : v.guidedNext guide i a s loc = some (s', loc', some r)) :
    loc' = .idle := by
  cases loc with
  | idle =>
    obtain ⟨⟨_, _⟩, ht, h⟩ := Option.bind_eq_some_iff.1 h
    cases h
    exact v.guidedTop_returns ht
  | casNext =>
    simp only [guidedNext] at h
    split at h
    · cases h
      rfl
    · obtain ⟨⟨_, _⟩, ht, h⟩ := Option.bind_eq_some_iff.1 h
      cases h
      exact v.guidedTop_returns ht
  | loadNext | loadBarrier | loadChunk | casChunk | reloadNext | reloadBarrier | casBarrier | reloadStart => cases h

end View

/-- A call that has returned leaves its thread in front of the next one. -/
theorem boIterNext_returns {D ι : Type} [CDouble D] {it : CasIter} {ws : GompWorkShare D} {team : Option U32} {i : ι}
    {a : Unit} {s s' : Cells} {loc loc' : Local} {r : Ret} (h : boIterNext it ws team i a s loc = some (s', loc', some r)) :
    loc' = .idle := by
  cases it with
  | fac2 | fss => exact View.batchedNext_returns _ h
  | tss => exact View.ticketNext_returns _ h
  | tape => exact View.guidedNext_returns _ h

/-! ## Whole runs -/

section

variable {ι : Type} [DecidableEq ι] {v : View} {p : Prog ι Unit Cells Local Ret}

theorem Exits.off_reach {D : Type} (h : Exits v p) (ws : GompWorkShare D) {c : Cfg ι Cells Local Ret}
    (hr : Reach p (entry ws) c) (i : ι) : (c.loc i).Off v :=
  Reach.loc (Q := (·.Off v)) hr (fun _ => trivial) (fun hoff hp => (h.step hoff hp).1) i

/-- Once `next` is at the end, every thread that takes seven more steps returns false in them. -/
theorem Exits.returns (h : Exits v p) {c c' : Cfg ι Cells Local Ret} (hn : c.shared.next = v.fin)
    (hoff : ∀ i, (c.loc i).Off v) {i : ι} {sched : List (ι × Unit)} (hx : exec p c sched = some c')
    (hcount : 7 ≤ sched.countP fun x => x.1 = i) : ∃ log', c'.log = c.log ++ log' ∧ (i, none) ∈ log' := by
  have hrank := (c.loc i).rank_le v
  refine exec_done (J := fun c => c.shared.next = v.fin ∧ ∀ j, (c.loc j).Off v) ?_ ?_ i ⟨hn, hoff⟩ hx
    (lt_of_le_of_lt hrank hcount)
  · rintro c c' ⟨hn, hoff⟩ hs
    cases hs with
    | mk j a hp =>
      obtain ⟨hoff', hnext⟩ := h.step (hoff j) hp
      refine ⟨(hnext hn).1, fun k => ?_⟩
      by_cases hk : k = j
      · subst hk
        simpa using hoff'
      · simpa [Function.update_of_ne hk] using hoff k
  · rintro c j a s loc e ⟨hn, hoff⟩ hp
    exact ((h.step (hoff j) hp).2 hn).2

end

end Bosched
