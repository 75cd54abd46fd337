/-
The invariant of a team: where each member is against the shared counters, in every interleaving.
`threads_completed` counts the members past a nowait construct, the barrier's `awaited` counts those
waiting at its generation, and the generation says how many barriers every member has passed.
-/
import Bosched.Team.Model
import Mathlib.Data.Nat.Count

namespace Bosched

open Lib

/-! ## What a step can do -/

/-- The steps of member `i`, one constructor for each branch of the source. -/
inductive TeamRule (R : Region) (i : Nat) (s : TeamShared) (m : Member) :
    TeamShared → Member → Option TeamEvent → Prop
  | join (c : Construct) (hc : R.body[m.pos]? = some c) (hb : m.status = .between)
      (h : R.preInit = true ∨ m.pos < s.started) :
      TeamRule R i s m s ⟨m.pos, .inside, if R.preInit then m.lastWorkShare else R.team.isSome⟩ none
  | first (c : Construct) (hc : R.body[m.pos]? = some c) (hb : m.status = .between) (hR : R.preInit = false)
      (h : ¬m.pos < s.started) :
      TeamRule R i s m
        { s with
          started := s.started + 1
          left := Function.update s.left m.pos c.chunks
          sizedFor := Function.update s.sizedFor m.pos R.team }
        ⟨m.pos, .inside, R.team.isSome⟩ (c.begins.map (.begin · m.pos))
  | take (hb : m.status = .inside) (h : 0 < s.left m.pos) :
      TeamRule R i s m { s with left := Function.update s.left m.pos (s.left m.pos - 1) } { m with status := .working } none
  | done (hb : m.status = .working) : TeamRule R i s m s { m with status := .inside } none
  | orphan (c : Construct) (hc : R.body[m.pos]? = some c) (hb : m.status = .inside) (hR : R.team = none) :
      TeamRule R i s m s m.next (if c.form = .nowait then some (.finish c.ends m.pos) else none)
  | wait (c : Construct) (n : U32) (hc : R.body[m.pos]? = some c) (hb : m.status = .inside) (hR : R.team = some n)
      (hform : c.form ≠ .nowait) (hn : s.arrived + 1 ≠ n.toNat) :
      TeamRule R i s m { s with arrived := s.arrived + 1 } { m with status := .waiting s.generation } none
  | last (c : Construct) (n : U32) (hc : R.body[m.pos]? = some c) (hb : m.status = .inside) (hR : R.team = some n)
      (hform : c.form ≠ .nowait) (hn : s.arrived + 1 = n.toNat) :
      TeamRule R i s m { s with arrived := 0, generation := s.generation + 1 } m.next
        (if c.form = .barrier ∨ m.lastWorkShare = true then some (.finish c.ends m.pos) else none)
  | nowait (c : Construct) (n : U32) (hc : R.body[m.pos]? = some c) (hb : m.status = .inside) (hR : R.team = some n)
      (hform : c.form = .nowait) :
      TeamRule R i s m { s with completed := Function.update s.completed m.pos (s.completed m.pos + 1) } m.next
        (if m.lastWorkShare = true ∧ s.completed m.pos + 1 = n.toNat then some (.finish c.ends m.pos) else none)
  | wake (g : Nat) (hb : m.status = .waiting g) (hg : g ≠ s.generation) : TeamRule R i s m s m.next none
  | finish (hb : m.status = .between) (hpos : m.pos = R.body.length) :
      TeamRule R i s m s { m with status := .finished } (if i = 0 then gompParallelEnd R else none)

theorem endConstruct_rule {R : Region} {i : Nat} {c : Construct} {s s' : TeamShared} {m m' : Member}
    {e : Option TeamEvent} (hc : R.body[m.pos]? = some c) (hb : m.status = .inside)
    (h : endConstruct R c s m = some (s', m', e)) : TeamRule R i s m s' m' e := by
  unfold endConstruct at h
  cases hR : R.team with
  | none =>
    have hrule := TeamRule.orphan (i := i) (s := s) c hc hb hR
    cases hform : c.form <;> rw [hform, hR] at h
    · obtain ⟨rfl, rfl, rfl⟩ : s = s' ∧ m.next = m' ∧ none = e := by simpa [gompWorkShareEnd] using h
      simpa [hform] using hrule
    · exact absurd h (by simp [gompWorkShareEndCancel])
    · obtain ⟨rfl, rfl, rfl⟩ : s = s' ∧ m.next = m' ∧ some (TeamEvent.finish c.ends m.pos) = e := by
        simpa [gompWorkShareEndNowait] using h
      simpa [hform] using hrule
  | some n =>
    cases hform : c.form with
    | nowait =>
      have hrule := TeamRule.nowait (i := i) (s := s) c n hc hb hR hform
      simp only [hform, hR, gompWorkShareEndNowait, Option.some.injEq] at h
      by_cases hl : m.lastWorkShare = false
      · rw [if_pos hl] at h
        cases h
        simpa [hl] using hrule
      · rw [if_neg hl] at h
        cases h
        simpa [hl] using hrule
    | barrier =>
      have hne : c.form ≠ .nowait := by rw [hform]; decide
      simp only [hform, hR, gompWorkShareEnd, arrive, Option.some.injEq] at h
      by_cases hn : s.arrived + 1 = n.toNat
      · rw [if_pos hn] at h
        cases h
        simpa [hform] using TeamRule.last (i := i) c n hc hb hR hne hn
      · rw [if_neg hn] at h
        cases h
        exact .wait c n hc hb hR hne hn
    | cancel =>
      have hne : c.form ≠ .nowait := by rw [hform]; decide
      simp only [hform, hR, gompWorkShareEndCancel, arrive, Option.map_some, Option.some.injEq] at h
      by_cases hn : s.arrived + 1 = n.toNat
      · rw [if_pos hn] at h
        cases h
        simpa [hform] using TeamRule.last (i := i) c n hc hb hR hne hn
      · rw [if_neg hn] at h
        cases h
        exact .wait c n hc hb hR hne hn

theorem teamStep_rule {R : Region} {i : Nat} {a : TeamAction} {s s' : TeamShared} {m m' : Member}
    {e : Option TeamEvent} (h : teamStep R i a s m = some (s', m', e)) : i < R.size ∧ TeamRule R i s m s' m' e := by
  unfold teamStep at h
  by_cases hi : i < R.size
  swap
  · rw [if_neg hi] at h
    cases h
  rw [if_pos hi] at h
  refine ⟨hi, ?_⟩
  cases a with
  | enter =>
    by_cases hb : m.status = .between
    swap
    · simp [hb] at h
    obtain ⟨c, hc, h⟩ := Option.map_eq_some_iff.1 (by simpa only [hb, if_true] using h)
    unfold gompWorkShareStart at h
    by_cases hR : R.preInit = true
    · rw [if_pos hR] at h
      cases h
      simpa [hR] using TeamRule.join (i := i) c hc hb (.inl hR)
    · rw [if_neg hR] at h
      by_cases hp : m.pos < s.started
      · rw [if_pos hp] at h
        cases h
        simpa [hR] using TeamRule.join (i := i) c hc hb (.inr hp)
      · rw [if_neg hp] at h
        cases h
        exact .first c hc hb (by simpa using hR) hp
  | take =>
    by_cases hb : m.status = .inside ∧ 0 < s.left m.pos
    · simp only [hb, and_self, if_true] at h
      cases h
      exact .take hb.1 hb.2
    · simp [hb] at h
  | done =>
    by_cases hb : m.status = .working
    · simp only [hb, if_true] at h
      cases h
      exact .done hb
    · simp [hb] at h
  | leave =>
    obtain ⟨c, hc, h⟩ := Option.bind_eq_some_iff.1 h
    by_cases hb : m.status = .inside ∧ mayLeave c (s.left m.pos)
    · rw [if_pos hb] at h
      exact endConstruct_rule hc hb.1 h
    · rw [if_neg hb] at h
      cases h
  | wake =>
    cases hb : m.status with
    | waiting g =>
      by_cases hg : g ≠ s.generation
      · simp only [hb, hg, if_true, ne_eq, not_false_eq_true] at h
        cases h
        exact .wake g hb hg
      · simp [hb, hg] at h
    | _ => simp [hb] at h
  | finish =>
    by_cases hb : m.status = .between ∧ m.pos = R.body.length
    · rw [if_pos hb] at h
      cases h
      exact .finish hb.1 hb.2
    · rw [if_neg hb] at h
      cases h

/-! ## Barriers -/

namespace Region

/-- Construct `k` ends in a barrier. -/
def isBarrier (R : Region) (k : Nat) : Bool := (R.body[k]?).any fun c => c.form ≠ .nowait

/-- How many of the first `k` constructs end in a barrier. -/
def barriers (R : Region) (k : Nat) : Nat := Nat.count (fun j => R.isBarrier j = true) k

theorem isBarrier_of {R : Region} {k : Nat} {c : Construct} (hc : R.body[k]? = some c) :
    R.isBarrier k = true ↔ c.form ≠ .nowait := by
  unfold isBarrier
  rw [hc, Option.any_some, decide_eq_true_eq]

theorem barriers_succ {R : Region} {k : Nat} {c : Construct} (hc : R.body[k]? = some c) :
    R.barriers (k + 1) = R.barriers k + if c.form = .nowait then 0 else 1 := by
  unfold barriers
  rw [Nat.count_succ]
  by_cases hform : c.form = .nowait <;> simp [isBarrier_of hc, hform]

/-- Two barriers with as many barriers before them are the same. -/
theorem barriers_injective {R : Region} {k k' : Nat} (hk : R.isBarrier k = true) (hk' : R.isBarrier k' = true)
    (h : R.barriers k = R.barriers k') : k = k' := Nat.count_injective (p := fun j => R.isBarrier j = true) hk hk' h

end Region

/-! ## The invariant -/

/-- What holds of a member against the shared state. -/
structure MemberInv (R : Region) (s : TeamShared) (m : Member) : Prop where
  pos_le : m.pos ≤ s.started
  busy : m.status ≠ .between → m.status ≠ .finished → m.pos < s.started
  finished : m.status = .finished → m.pos = R.body.length
  /-- the work share before the initialised one of a combined construct is `NULL`, every other one is not -/
  noLast : R.preInit = true → m.lastWorkShare = false
  hasLast : m.status = .inside ∨ m.status = .working → R.team ≠ none → R.preInit = false → m.lastWorkShare = true
  waiting : ∀ g, m.status = .waiting g → R.team ≠ none ∧ R.isBarrier m.pos = true ∧ R.barriers m.pos = g ∧
    (g = s.generation ∨ g + 1 = s.generation)
  running : R.team ≠ none → (∀ g, m.status ≠ .waiting g) → R.barriers m.pos = s.generation

structure TeamInv (R : Region) (s : TeamShared) (loc : Nat → Member) : Prop where
  started_le : s.started ≤ R.body.length
  preInit : R.preInit = true → s.started = R.body.length
  member : ∀ i < R.size, MemberInv R s (loc i)
  arrived : s.arrived = Nat.count (fun i => (loc i).status = .waiting s.generation) R.size
  completed : R.team ≠ none → ∀ k c, R.body[k]? = some c → c.form = .nowait →
    s.completed k = Nat.count (fun i => k < (loc i).pos) R.size

/-- Another member's step that lets nobody go keeps what holds of a member. -/
theorem MemberInv.mono {R : Region} {s s' : TeamShared} {m : Member} (h : MemberInv R s m)
    (hstarted : s.started ≤ s'.started) (hgen : s'.generation = s.generation) : MemberInv R s' m where
  pos_le := h.pos_le.trans hstarted
  busy hb hf := (h.busy hb hf).trans_le hstarted
  finished := h.finished
  noLast := h.noLast
  hasLast := h.hasLast
  waiting g hg := by rw [hgen]; exact h.waiting g hg
  running hR hw := by rw [hgen]; exact h.running hR hw

/-- Entering a construct that is started. -/
theorem MemberInv.enter {R : Region} {s s' : TeamShared} {m : Member} {l : Bool} (h : MemberInv R s m)
    (hb : m.status = .between) (hpos : m.pos < s'.started) (hgen : s'.generation = s.generation)
    (hno : R.preInit = true → l = false) (hhas : R.team ≠ none → R.preInit = false → l = true) :
    MemberInv R s' ⟨m.pos, .inside, l⟩ where
  pos_le := le_of_lt hpos
  busy _ _ := hpos
  finished hf := nomatch hf
  noLast := hno
  hasLast _ := hhas
  waiting _ hg := nomatch hg
  running hR _ := by
    rw [hgen]
    exact h.running hR (by rw [hb]; simp)

/-- Going on to the next construct, where the generation counts the barriers passed. -/
theorem MemberInv.next {R : Region} {s' : TeamShared} {m : Member}
    (hpos : m.pos < s'.started) (hgen : R.team ≠ none → R.barriers (m.pos + 1) = s'.generation) :
    MemberInv R s' m.next where
  pos_le := hpos
  busy hb := absurd rfl hb
  finished hf := nomatch hf
  noLast _ := rfl
  hasLast hs := by rcases hs with hs | hs <;> cases hs
  waiting _ hg := nomatch hg
  running hR _ := hgen hR

namespace TeamInv

variable {R : Region} {s s' : TeamShared} {loc : Nat → Member} {i : Nat} {m' : Member}

/-- A step after which the counters count what they did. -/
theorem of_step (h : TeamInv R s loc) (hi : i < R.size) (hstarted : s.started ≤ s'.started)
    (hle : s'.started ≤ R.body.length) (hgen : s'.generation = s.generation)
    (hm : MemberInv R s' m')
    (harrived : s'.arrived = Nat.count (fun j => (Function.update loc i m' j).status = .waiting s'.generation) R.size)
    (hcompleted : R.team ≠ none → ∀ k c, R.body[k]? = some c → c.form = .nowait →
      s'.completed k = Nat.count (fun j => k < (Function.update loc i m' j).pos) R.size) :
    TeamInv R s' (Function.update loc i m') where
  started_le := hle
  preInit hR := le_antisymm hle (by rw [← h.preInit hR]; exact hstarted)
  member j hj := by
    by_cases hji : j = i
    · subst hji; simpa using hm
    · rw [Function.update_of_ne hji]
      exact (h.member j hj).mono hstarted hgen
  arrived := harrived
  completed := hcompleted

/-- A step that moves no member past a construct or into or out of the open barrier. -/
theorem of_same (h : TeamInv R s loc) (hi : i < R.size) (hstarted : s.started ≤ s'.started)
    (hle : s'.started ≤ R.body.length) (hgen : s'.generation = s.generation) (harr : s'.arrived = s.arrived)
    (hcomp : s'.completed = s.completed) (hpos : m'.pos = (loc i).pos) (hm : MemberInv R s' m')
    (hwait : m'.status ≠ .waiting s.generation) (hwait' : (loc i).status ≠ .waiting s.generation) :
    TeamInv R s' (Function.update loc i m') := by
  refine h.of_step hi hstarted hle hgen hm ?_ fun hR k c hc hform => ?_
  · rw [harr, h.arrived, hgen]
    exact (count_update_same (fun m : Member => m.status = .waiting s.generation) (by simp [hwait, hwait']) _).symm
  · rw [hcomp, h.completed hR k c hc hform]
    exact (count_update_same (fun m : Member => k < m.pos) (by rw [hpos]) _).symm

/-- When a thread is the last to arrive at the barrier, every other one waits there. -/
theorem others_waiting (h : TeamInv R s loc) (hi : i < R.size) {c : Construct} {n : U32}
    (hc : R.body[(loc i).pos]? = some c) (hb : (loc i).status = .inside) (hR : R.team = some n)
    (hform : c.form ≠ .nowait) (hn : s.arrived + 1 = n.toNat) {j : Nat} (hj : j < R.size) (hji : j ≠ i) :
    (loc j).status = .waiting s.generation ∧ (loc j).pos = (loc i).pos := by
  have hT : R.team ≠ none := by rw [hR]; simp
  have hsize : R.size = n.toNat := by unfold Region.size; rw [hR]; rfl
  -- with this thread the count is full
  have hall : Nat.count (fun j => (Function.update loc i { loc i with status := .waiting s.generation } j).status =
      .waiting s.generation) R.size = Nat.count (fun j => (loc j).status = .waiting s.generation) R.size + 1 :=
    count_update_succ (fun m : Member => m.status = .waiting s.generation) rfl (by rw [hb]; simp) hi
  rw [← h.arrived, hn, ← hsize] at hall
  have hwait : (loc j).status = .waiting s.generation := by
    have hj' := Nat.count_iff_forall.1 hall j hj
    rwa [Function.update_of_ne hji] at hj'
  obtain ⟨-, hbar, hgen, -⟩ := (h.member j hj).waiting _ hwait
  refine ⟨hwait, Region.barriers_injective hbar ((Region.isBarrier_of hc).2 hform) ?_⟩
  rw [hgen, (h.member i hi).running hT (by simp [hb])]

/-- Every step keeps the invariant. -/
theorem rule {e : Option TeamEvent} (h : TeamInv R s loc) (hi : i < R.size) (hr : TeamRule R i s (loc i) s' m' e) :
    TeamInv R s' (Function.update loc i m') := by
  have hm := h.member i hi
  have hwaitNe : ∀ {st}, (loc i).status = st → (∀ g, st ≠ .waiting g) → ∀ g, (loc i).status ≠ .waiting g := by
    rintro _ rfl hne; exact hne
  cases hr with
  | join c hc hb hj =>
    have hlt := (List.getElem?_eq_some_iff.1 hc).1
    have hstarted : (loc i).pos < s.started := by
      rcases hj with hR | hj
      · rw [h.preInit hR]; exact hlt
      · exact hj
    refine h.of_same hi le_rfl h.started_le rfl rfl rfl rfl (hm.enter hb hstarted rfl ?_ ?_) (by simp) (by simp [hb])
    · intro hR
      rw [if_pos hR]; exact hm.noLast hR
    · intro hT hR
      simpa [hR, Option.isSome_iff_ne_none] using hT
  | first c hc hb hR hpos =>
    have hlt := (List.getElem?_eq_some_iff.1 hc).1
    have hle := hm.pos_le
    refine h.of_same hi (Nat.le_succ _) ?_ rfl rfl rfl rfl (hm.enter hb ?_ rfl ?_ ?_) (by simp) (by simp [hb])
    · show s.started + 1 ≤ R.body.length
      omega
    · show (loc i).pos < s.started + 1
      omega
    · intro hR'
      rw [hR] at hR'; cases hR'
    · intro hT _
      simpa [Option.isSome_iff_ne_none] using hT
  | take hb hl =>
    refine h.of_same hi le_rfl h.started_le rfl rfl rfl rfl ?_ (by simp) (by simp [hb])
    have hlt := hm.busy (by simp [hb]) (by simp [hb])
    exact ⟨hm.pos_le, fun _ _ => hlt, nofun, hm.noLast, fun _ => hm.hasLast (.inl hb), nofun,
      fun hT _ => hm.running hT (hwaitNe hb (by simp))⟩
  | done hb =>
    refine h.of_same hi le_rfl h.started_le rfl rfl rfl rfl ?_ (by simp) (by simp [hb])
    have hlt := hm.busy (by simp [hb]) (by simp [hb])
    exact ⟨hm.pos_le, fun _ _ => hlt, nofun, hm.noLast, fun _ => hm.hasLast (.inr hb), nofun,
      fun hT _ => hm.running hT (hwaitNe hb (by simp))⟩
  | orphan c hc hb hR =>
    have hlt := hm.busy (by simp [hb]) (by simp [hb])
    refine h.of_step hi le_rfl h.started_le rfl (MemberInv.next hlt fun hT => absurd hR hT) ?_ fun hT => absurd hR hT
    rw [h.arrived]
    exact (count_update_same (fun m : Member => m.status = .waiting s.generation) (by simp [hb]) _).symm
  | wait c n hc hb hR hform hn =>
    have hT : R.team ≠ none := by rw [hR]; simp
    have hlt := hm.busy (by simp [hb]) (by simp [hb])
    have hrun := hm.running hT (hwaitNe hb (by simp))
    refine h.of_step hi le_rfl h.started_le rfl ?_ ?_ fun hT k c hc hform => ?_
    · refine ⟨hm.pos_le, fun _ _ => hlt, nofun, hm.noLast, by simp, ?_, fun _ hw => absurd rfl (hw s.generation)⟩
      rintro g ⟨⟩
      exact ⟨hT, (Region.isBarrier_of hc).2 hform, hrun, .inl rfl⟩
    · show s.arrived + 1 = _
      rw [h.arrived]
      exact (count_update_succ (fun m : Member => m.status = .waiting s.generation) rfl (by simp [hb]) hi).symm
    · show s.completed k = _
      rw [h.completed hT k c hc hform]
      refine (count_update_same (fun m : Member => k < m.pos) ?_ _).symm
      exact Iff.rfl
  | last c n hc hb hR hform hn =>
    have hT : R.team ≠ none := by rw [hR]; simp
    have hlt := hm.busy (by simp [hb]) (by simp [hb])
    have hrun := hm.running hT (hwaitNe hb (by simp))
    have hothers : ∀ j < R.size, j ≠ i → _ := fun j hj hji => h.others_waiting hi hc hb hR hform hn hj hji
    have hleave : MemberInv R { s with arrived := 0, generation := s.generation + 1 } (loc i).next := by
      refine MemberInv.next hlt fun _ => ?_
      rw [Region.barriers_succ hc, if_neg hform, hrun]
    refine ⟨h.started_le, h.preInit, fun j hj => ?_, ?_, fun hT k c' hc' hform' => ?_⟩
    · by_cases hji : j = i
      · subst hji; simpa using hleave
      · -- the others are let go from the generation before
        rw [Function.update_of_ne hji]
        have hj' := h.member j hj
        obtain ⟨hwait, -⟩ := hothers j hj hji
        obtain ⟨-, hbar, hgen, -⟩ := hj'.waiting _ hwait
        refine ⟨hj'.pos_le, hj'.busy, hj'.finished, hj'.noLast, hj'.hasLast, ?_, fun _ hw => absurd hwait (hw _)⟩
        intro g hg
        obtain rfl : s.generation = g := by rw [hwait] at hg; cases hg; rfl
        exact ⟨hT, hbar, hgen, .inr rfl⟩
    · refine (Nat.count_iff_forall_not.2 fun j hj => ?_).symm
      by_cases hji : j = i
      · subst hji; simp
      · rw [Function.update_of_ne hji, (hothers j hj hji).1]
        simp
    · show s.completed k = _
      rw [h.completed hT k c' hc' hform']
      refine (count_update_same (fun m : Member => k < m.pos) ?_ _).symm
      have hk : k ≠ (loc i).pos := by
        rintro rfl
        rw [hc] at hc'
        cases hc'
        exact hform hform'
      show k < (loc i).pos + 1 ↔ k < (loc i).pos
      omega
  | nowait c n hc hb hR hform =>
    have hT : R.team ≠ none := by rw [hR]; simp
    have hlt := hm.busy (by simp [hb]) (by simp [hb])
    have hrun := hm.running hT (hwaitNe hb (by simp))
    refine h.of_step hi le_rfl h.started_le rfl (MemberInv.next hlt fun _ => ?_) ?_ fun hT k c' hc' hform' => ?_
    · rw [Region.barriers_succ hc, if_pos hform]
      exact hrun
    · show s.arrived = _
      rw [h.arrived]
      exact (count_update_same (fun m : Member => m.status = .waiting s.generation) (by simp [hb]) _).symm
    · show Function.update s.completed (loc i).pos _ k = _
      by_cases hk : k = (loc i).pos
      · subst hk
        rw [Function.update_self, h.completed hT _ c' hc' hform']
        exact (count_update_succ (fun m : Member => (loc i).pos < m.pos) (Nat.lt_succ_self _) (lt_irrefl _) hi).symm
      · rw [Function.update_of_ne hk, h.completed hT k c' hc' hform']
        refine (count_update_same (fun m : Member => k < m.pos) ?_ _).symm
        show k < (loc i).pos + 1 ↔ k < (loc i).pos
        omega
  | wake g hb hg =>
    obtain ⟨hT, hbar, hgk, hgen⟩ := hm.waiting g hb
    have hlt := hm.busy (by simp [hb]) (by simp [hb])
    obtain ⟨c, hc⟩ : ∃ c, R.body[(loc i).pos]? = some c := by
      have := h.started_le
      exact ⟨_, List.getElem?_eq_getElem (by omega)⟩
    have hform := (Region.isBarrier_of hc).1 hbar
    refine h.of_step hi le_rfl h.started_le rfl (MemberInv.next hlt fun _ => ?_) ?_ fun hT k c' hc' hform' => ?_
    · rw [Region.barriers_succ hc, if_neg hform]
      omega
    · rw [h.arrived]
      exact (count_update_same (fun m : Member => m.status = .waiting s.generation) (by simp [hb, hg]) _).symm
    · rw [h.completed hT k c' hc' hform']
      refine (count_update_same (fun m : Member => k < m.pos) ?_ _).symm
      have hk : k ≠ (loc i).pos := by
        rintro rfl
        rw [hc] at hc'
        cases hc'
        exact hform hform'
      show k < (loc i).pos + 1 ↔ k < (loc i).pos
      omega
  | finish hb hpos =>
    refine h.of_same hi le_rfl h.started_le rfl rfl rfl rfl ?_ (by simp) (by simp [hb])
    exact ⟨hm.pos_le, fun _ hf => absurd rfl hf, fun _ => hpos, hm.noLast, by simp, nofun,
      fun hT _ => hm.running hT (hwaitNe hb (by simp))⟩

theorem start (R : Region) (outer : Option U32) :
    TeamInv R (teamStart R outer).shared (teamStart R outer).loc where
  started_le := by
    cases R <;> simp [teamStart, Region.preInit, Region.body]
  preInit hR := by
    cases R <;> simp_all [teamStart, Region.preInit, Region.body]
  member i _ := ⟨Nat.zero_le _, fun hb => absurd rfl hb, nofun, fun _ => rfl, by simp [teamStart], nofun,
    fun _ _ => Nat.count_zero _⟩
  arrived := (Nat.count_iff_forall_not.2 fun j _ => by simp [teamStart]).symm
  completed _ k _ _ _ := (Nat.count_iff_forall_not.2 fun j _ => by simp [teamStart]).symm

/-- The invariant holds in every interleaving. -/
theorem reach {outer : Option U32} {c : Cfg Nat TeamShared Member TeamEvent}
    (h : Reach (teamStep R) (teamStart R outer) c) : TeamInv R c.shared c.loc := by
  induction h with
  | refl => exact start R outer
  | tail _ hs ih =>
    cases hs with
    | mk i a hp =>
      obtain ⟨hi, hr⟩ := teamStep_rule hp
      exact ih.rule hi hr

end TeamInv

/-! ## Leaving a construct -/

/-- The member is past construct `k`, or was let go from its barrier. -/
def Member.hasLeft (s : TeamShared) (m : Member) (k : Nat) : Prop :=
  k < m.pos ∨ m.pos = k ∧ ∃ g, m.status = .waiting g ∧ g ≠ s.generation

def AllLeft (R : Region) (s : TeamShared) (loc : Nat → Member) (k : Nat) : Prop := ∀ j < R.size, (loc j).hasLeft s k

theorem not_hasLeft {s : TeamShared} {m : Member} {k : Nat} (hpos : m.pos = k)
    (hw : ∀ g, m.status = .waiting g → g = s.generation) : ¬m.hasLeft s k := by
  rintro (h | ⟨-, g, hg, hne⟩)
  · omega
  · exact hne (hw g hg)

section

variable {R : Region} {s s' : TeamShared} {loc : Nat → Member} {i : Nat} {m' : Member} {e : Option TeamEvent}

/-- A step takes its own member at most out of the construct it is in. -/
theorem TeamRule.hasLeft_own (hr : TeamRule R i s (loc i) s' m' e) (k : Nat) :
    m'.hasLeft s' k ↔ (loc i).hasLeft s k ∨ m'.pos = (loc i).pos + 1 ∧ k = (loc i).pos := by
  have hne : ∀ {st : Status} {m : Member} {t : TeamShared}, m.status = st → (∀ g, st ≠ .waiting g) →
      (m.hasLeft t k ↔ k < m.pos) := by
    rintro _ m t rfl hst
    refine ⟨fun h => ?_, .inl⟩
    rcases h with h | ⟨-, g, hg, -⟩
    · exact h
    · exact absurd hg (hst g)
  cases hr with
  | join c hc hb hj => rw [hne hb (by simp), hne rfl (by simp)]; simp
  | first c hc hb hR hpos => rw [hne hb (by simp), hne rfl (by simp)]; simp
  | take hb hl => rw [hne hb (by simp), hne rfl (by simp)]; simp
  | done hb => rw [hne hb (by simp), hne rfl (by simp)]; simp
  | orphan c hc hb hR =>
    rw [hne hb (by simp), hne rfl (by simp)]
    simp only [Member.next_pos, true_and]
    omega
  | wait c n hc hb hR hform hn =>
    rw [hne hb (by simp)]
    simp [Member.hasLeft]
  | last c n hc hb hR hform hn =>
    rw [hne hb (by simp), hne rfl (by simp)]
    simp only [Member.next_pos, true_and]
    omega
  | nowait c n hc hb hR hform =>
    rw [hne hb (by simp), hne rfl (by simp)]
    simp only [Member.next_pos, true_and]
    omega
  | wake g hb hg =>
    rw [hne rfl (by simp)]
    simp only [Member.hasLeft, Member.next_pos, hb, Status.waiting.injEq, exists_eq_left', true_and]
    constructor
    · intro h; omega
    · rintro ((h | ⟨h, -⟩) | h) <;> omega
  | finish hb hpos => rw [hne hb (by simp), hne rfl (by simp)]; simp

/-- A step changes what another member has left only by letting it go from the barrier. -/
theorem TeamRule.hasLeft_other (hr : TeamRule R i s (loc i) s' m' e) (h : TeamInv R s loc) (hi : i < R.size)
    {j : Nat} (hj : j < R.size) (hji : j ≠ i) (k : Nat) :
    (loc j).hasLeft s' k ↔ (loc j).hasLeft s k ∨ s'.generation ≠ s.generation ∧ k = (loc i).pos := by
  have hsame : s'.generation = s.generation → ((loc j).hasLeft s' k ↔
      (loc j).hasLeft s k ∨ s'.generation ≠ s.generation ∧ k = (loc i).pos) := fun hgen => by
    simp [Member.hasLeft, hgen]
  cases hr with
  | last c n hc hb hR hform hn =>
    obtain ⟨hwait, hpos⟩ := h.others_waiting hi hc hb hR hform hn hj hji
    simp only [Member.hasLeft, hwait, hpos, Status.waiting.injEq, exists_eq_left']
    constructor
    · intro h; omega
    · intro h; omega
  | _ => exact hsame rfl

/-! ## The effect of a step on the constructs -/

/-- Whether the end of a construct by its last member calls `bo_schedule_end`. -/
def Region.callsEnd (R : Region) (c : Construct) : Prop :=
  match R.team with
  | none => c.form = .nowait
  | some _ => R.preInit = false ∨ c.form = .barrier

/-- What a step does to the work shares: nothing, start one, end one, or end the region for a member. -/
inductive TeamEffect (R : Region) (i : Nat) (s : TeamShared) (loc : Nat → Member) (s' : TeamShared) (m' : Member) :
    Option TeamEvent → Prop
  | quiet (hleft : ∀ k, AllLeft R s' (Function.update loc i m') k ↔ AllLeft R s loc k)
      (hstarted : s'.started = s.started) (hfin : m'.status ≠ .finished) (hfin' : (loc i).status ≠ .finished) :
      TeamEffect R i s loc s' m' none
  | starts (c : Construct) (hc : R.body[s.started]? = some c) (hR : R.preInit = false)
      (hleft : ∀ k, AllLeft R s' (Function.update loc i m') k ↔ AllLeft R s loc k)
      (hopen : ¬AllLeft R s loc s.started) (hstarted : s'.started = s.started + 1)
      (hb : (loc i).status = .between) (hpos : (loc i).pos = s.started) :
      TeamEffect R i s loc s' m' (c.begins.map (.begin · s.started))
  | ends (k : Nat) (c : Construct) (e : Option TeamEvent) (hc : R.body[k]? = some c) (hk : k < s.started)
      (hleft : ∀ k', AllLeft R s' (Function.update loc i m') k' ↔ AllLeft R s loc k' ∨ k' = k)
      (hopen : ¬AllLeft R s loc k) (hstarted : s'.started = s.started)
      (hfin : m'.status ≠ .finished) (hfin' : (loc i).status ≠ .finished)
      (he : R.callsEnd c → e = some (.finish c.ends k)) (hne : ¬R.callsEnd c → e = none) :
      TeamEffect R i s loc s' m' e
  | region (hleft : ∀ k, AllLeft R s' (Function.update loc i m') k ↔ AllLeft R s loc k)
      (hstarted : s'.started = s.started) (hfin : m'.status = .finished) (hpos : (loc i).pos = R.body.length)
      (hb : (loc i).status = .between) :
      TeamEffect R i s loc s' m' (if i = 0 then gompParallelEnd R else none)

/-- Where a step lets nobody else go, only its own member decides whether all have left. -/
theorem allLeft_congr (hr : TeamRule R i s (loc i) s' m' e) (h : TeamInv R s loc) (hi : i < R.size)
    (hgen : s'.generation = s.generation) {k : Nat} (hown : m'.hasLeft s' k ↔ (loc i).hasLeft s k) :
    AllLeft R s' (Function.update loc i m') k ↔ AllLeft R s loc k := by
  refine forall_congr' fun j => imp_congr_right fun hj => ?_
  by_cases hji : j = i
  · subst hji; rw [Function.update_self]; exact hown
  · rw [Function.update_of_ne hji, hr.hasLeft_other h hi hj hji]
    simp [hgen]

/-- A nowait construct is left by going on. -/
theorem TeamInv.hasLeft_nowait (h : TeamInv R s loc) {j k : Nat} (hj : j < R.size) {c : Construct}
    (hc : R.body[k]? = some c) (hform : c.form = .nowait) : (loc j).hasLeft s k ↔ k < (loc j).pos := by
  refine ⟨fun hl => ?_, .inl⟩
  rcases hl with hl | ⟨rfl, g, hg, -⟩
  · exact hl
  · obtain ⟨-, hbar, -⟩ := (h.member j hj).waiting g hg
    exact absurd hform ((Region.isBarrier_of hc).1 hbar)

/-- All have left a nowait construct just when its counter is full. -/
theorem TeamInv.allLeft_nowait (h : TeamInv R s loc) {k : Nat} {c : Construct} (hc : R.body[k]? = some c)
    (hform : c.form = .nowait) (hT : R.team ≠ none) : AllLeft R s loc k ↔ s.completed k = R.size := by
  rw [h.completed hT k c hc hform, Nat.count_iff_forall]
  exact forall_congr' fun j => imp_congr_right fun hj => h.hasLeft_nowait hj hc hform

theorem TeamRule.effect (hr : TeamRule R i s (loc i) s' m' e) (h : TeamInv R s loc) (hi : i < R.size) :
    TeamEffect R i s loc s' m' e := by
  have hm := h.member i hi
  have hown := hr.hasLeft_own
  -- the steps inside a construct
  have hquiet : s'.generation = s.generation → s'.started = s.started → m'.pos = (loc i).pos →
      m'.status ≠ .finished → (loc i).status ≠ .finished → TeamEffect R i s loc s' m' none :=
    fun hgen hstarted hpos hfin hfin' =>
      .quiet (fun k => allLeft_congr hr h hi hgen (by rw [hown, hpos]; simp)) hstarted hfin hfin'
  have hnot : (loc i).status = .inside → ¬AllLeft R s loc (loc i).pos := fun hb hall =>
    not_hasLeft rfl (by rw [hb]; simp) (hall i hi)
  have hteam : ∀ {n}, R.team = some n → R.team ≠ none ∧ R.size = n.toNat := fun hR => by
    unfold Region.size
    rw [hR]
    exact ⟨by simp, rfl⟩
  cases hr with
  | join c hc hb hj => exact hquiet rfl rfl rfl (by simp) (by simp [hb])
  | take hb hl => exact hquiet rfl rfl rfl (by simp) (by simp [hb])
  | done hb => exact hquiet rfl rfl rfl (by simp) (by simp [hb])
  | wait c n hc hb hR hform hn => exact hquiet rfl rfl rfl (by simp) (by simp [hb])
  | first c hc hb hR hpos =>
    have heq : (loc i).pos = s.started := le_antisymm hm.pos_le (not_lt.1 hpos)
    have he : c.begins.map (TeamEvent.begin · (loc i).pos) = c.begins.map (.begin · s.started) := by rw [heq]
    rw [he]
    refine .starts c (by rw [← heq]; exact hc) hR
      (fun k => allLeft_congr (.first c hc hb hR hpos) h hi rfl (by rw [hown]; simp)) ?_ rfl hb heq
    intro hall
    exact not_hasLeft heq (by rw [hb]; simp) (hall i hi)
  | orphan c hc hb hR =>
    have hlt := hm.busy (by simp [hb]) (by simp [hb])
    have hsize : R.size = 1 := by unfold Region.size; rw [hR]; rfl
    obtain rfl : i = 0 := by omega
    have hcall : R.callsEnd c ↔ c.form = .nowait := by unfold Region.callsEnd; rw [hR]
    refine .ends (loc 0).pos c _ hc hlt (fun k => ?_) (hnot hb) rfl (by simp) (by simp [hb])
      (fun he => by rw [if_pos (hcall.1 he)]) (fun he => by rw [if_neg (mt hcall.2 he)])
    have hzero : ∀ s loc, AllLeft R s loc k ↔ (loc 0).hasLeft s k := fun s loc => by
      unfold AllLeft
      rw [hsize]
      exact ⟨fun hall => hall 0 Nat.one_pos, fun h0 j hj => by rw [Nat.lt_one_iff.1 hj]; exact h0⟩
    rw [hzero, hzero, Function.update_self, hown]
    simp
  | last c n hc hb hR hform hn =>
    have hlt := hm.busy (by simp [hb]) (by simp [hb])
    obtain ⟨hT, hsize⟩ := hteam hR
    have hrule := TeamRule.last (i := i) c n hc hb hR hform hn
    refine .ends (loc i).pos c _ hc hlt (fun k => ?_) (hnot hb) rfl (by simp) (by simp [hb]) ?_ ?_
    · by_cases hk : k = (loc i).pos
      · subst hk
        refine iff_of_true (fun j hj => ?_) (.inr rfl)
        by_cases hji : j = i
        · subst hji
          rw [Function.update_self]
          exact .inl (Nat.lt_succ_self _)
        · rw [Function.update_of_ne hji]
          exact (hrule.hasLeft_other h hi hj hji _).2 (.inr ⟨Nat.succ_ne_self _, rfl⟩)
      · refine Iff.trans (forall_congr' fun j => imp_congr_right fun hj => ?_) (or_iff_left hk).symm
        by_cases hji : j = i
        · subst hji
          rw [Function.update_self, hown]
          simp [hk]
        · rw [Function.update_of_ne hji, hrule.hasLeft_other h hi hj hji]
          simp [hk]
    · intro he
      simp only [Region.callsEnd, hR] at he
      refine if_pos ?_
      rcases he with he | he
      · exact .inr (hm.hasLast (.inl hb) hT he)
      · exact .inl he
    · intro he
      simp only [Region.callsEnd, hR, not_or] at he
      refine if_neg ?_
      rw [not_or]
      exact ⟨he.2, by rw [hm.noLast (by simpa using he.1)]; simp⟩
  | nowait c n hc hb hR hform =>
    have hlt := hm.busy (by simp [hb]) (by simp [hb])
    obtain ⟨hT, hsize⟩ := hteam hR
    have hrule := TeamRule.nowait (i := i) (s := s) c n hc hb hR hform
    have hinv := h.rule hi hrule
    have hall := (hinv.allLeft_nowait hc hform hT).trans (c := s.completed (loc i).pos + 1 = n.toNat) (by
      show Function.update s.completed _ _ _ = _ ↔ _
      rw [Function.update_self, hsize])
    have hother : ∀ k, k ≠ (loc i).pos → _ := fun k hk =>
      allLeft_congr (k := k) hrule h hi rfl (by rw [hown]; simp [hk])
    by_cases hn : s.completed (loc i).pos + 1 = n.toNat
    · refine .ends (loc i).pos c _ hc hlt (fun k => ?_) (hnot hb) rfl (by simp) (by simp [hb]) ?_ ?_
      · by_cases hk : k = (loc i).pos
        · subst hk
          exact iff_of_true (hall.2 hn) (.inr rfl)
        · rw [hother k hk, or_iff_left hk]
      · intro he
        simp only [Region.callsEnd, hR, hform, reduceCtorEq, or_false] at he
        exact if_pos ⟨hm.hasLast (.inl hb) hT he, hn⟩
      · intro he
        simp only [Region.callsEnd, hR, hform, reduceCtorEq, or_false] at he
        exact if_neg fun hl => absurd hl.1 (by rw [hm.noLast (by simpa using he)]; simp)
    · rw [if_neg fun hl => hn hl.2]
      refine .quiet (fun k => ?_) rfl (by simp) (by simp [hb])
      by_cases hk : k = (loc i).pos
      · subst hk
        exact iff_of_false (fun hl => hn (hall.1 hl)) (hnot hb)
      · exact hother k hk
  | wake g hb hg =>
    refine .quiet (fun k => allLeft_congr (.wake g hb hg) h hi rfl ?_) rfl (by simp) (by simp [hb])
    rw [hown]
    refine or_iff_left_of_imp fun hk => .inr ⟨hk.2.symm, g, hb, hg⟩
  | finish hb hpos =>
    refine .region (fun k => allLeft_congr (.finish hb hpos) h hi rfl ?_) rfl rfl hpos hb
    rw [hown]
    simp

end

end Bosched
