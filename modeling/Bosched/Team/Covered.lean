/-
When the recorded time of a loop covers the loop: `bo_schedule_end` is called after the last member
has left the work share, except by `GOMP_parallel_end` after a combined loop whose inner end is
`GOMP_loop_end_nowait`, where the master does not wait for the others.
-/
import Bosched.Team.Invariant

namespace Bosched

open Lib

/-! ## Calls of the end functions -/

/-- The master runs `GOMP_parallel_end` while other members may still be in the loop. -/
def EndsAlone (R : Region) : Prop :=
  ∃ n c, R = .parallelLoop n c true ∧ c.form = .nowait ∧ c.begins.getD 0 ≠ 0

section

variable {R : Region} {s s' : TeamShared} {loc : Nat → Member} {i : Nat} {m' : Member} {e : Option TeamEvent}

/-- Past the barrier of a combined loop, the master finds that every member has left the loop. -/
theorem TeamInv.allLeft_of_master (h : TeamInv R s loc) (hs : 0 < R.size) {n : U32} {c : Construct} {b : Bool}
    (hR : R = .parallelLoop n c b) (hform : c.form ≠ .nowait) (hb : (loc 0).status = .between)
    (hpos : (loc 0).pos = R.body.length) : AllLeft R s loc 0 := by
  have hT : R.team ≠ none := by rw [hR]; simp [Region.team]
  have hc : R.body[0]? = some c := by rw [hR]; rfl
  have hlen : R.body.length = 1 := by rw [hR]; rfl
  have hone : R.barriers 1 = 1 := by
    rw [Region.barriers_succ hc, if_neg hform]
    exact congrArg (· + 1) (Nat.count_zero _)
  have hgen : s.generation = 1 := by
    rw [← (h.member 0 hs).running hT (by simp [hb]), hpos, hlen, hone]
  intro j hj
  have hm := h.member j hj
  by_cases hj0 : (loc j).pos = 0
  · -- a member at the loop waits in the barrier the master has passed
    have hzero : R.barriers (loc j).pos = 0 := by rw [hj0]; exact Nat.count_zero _
    by_cases hw : ∃ g, (loc j).status = .waiting g
    · obtain ⟨g, hg⟩ := hw
      obtain ⟨-, -, hgz, -⟩ := hm.waiting g hg
      exact .inr ⟨hj0, g, hg, by omega⟩
    · have hrun := hm.running hT (not_exists.1 hw)
      omega
  · exact .inl (Nat.pos_of_ne_zero hj0)

/-- A call of `bo_schedule_end` is made by the last member to leave the work share, or by the master
of a combined loop without a barrier. -/
theorem TeamRule.finish_allLeft (hr : TeamRule R i s (loc i) s' m' e) (h : TeamInv R s loc) (hi : i < R.size)
    {r : RegionId} {k : Nat} (he : e = some (.finish r k)) :
    AllLeft R s' (Function.update loc i m') k ∨ EndsAlone R ∧ k = 0 ∧ i = 0 ∧ m'.status = .finished := by
  cases hr.effect h hi with
  | quiet => cases he
  | starts c hc hR hleft hopen hstarted _ _ => cases hb : c.begins <;> rw [hb] at he <;> cases he
  | ends k' c _ hc hk hleft hopen hstarted hfin hfin' hcall hne =>
    by_cases hcalls : R.callsEnd c
    · rw [hcall hcalls] at he
      cases he
      exact .inl ((hleft k).2 (.inr rfl))
    · rw [hne hcalls] at he; cases he
  | region hleft hstarted hfin hpos hb =>
    by_cases hi0 : i = 0
    swap
    · rw [if_neg hi0] at he; cases he
    subst hi0
    rw [if_pos rfl] at he
    cases R with
    | initial body => cases he
    | parallel n body => cases he
    | parallelLoop n c b =>
      dsimp only [gompParallelEnd] at he
      by_cases hid : c.begins.getD 0 ≠ 0 ∧ b = true
      swap
      · rw [if_neg hid] at he; cases he
      rw [if_pos hid] at he
      cases he
      obtain ⟨hid, rfl⟩ := hid
      by_cases hform : c.form = .nowait
      · exact .inr ⟨⟨n, c, rfl, hform, hid⟩, rfl, rfl, hfin⟩
      · exact .inl ((hleft 0).2 (h.allLeft_of_master hi rfl hform hb hpos))

/-- What all have left stays left. -/
theorem TeamRule.allLeft_mono (hr : TeamRule R i s (loc i) s' m' e) (h : TeamInv R s loc) (hi : i < R.size)
    {k : Nat} (hk : AllLeft R s loc k) : AllLeft R s' (Function.update loc i m') k := by
  intro j hj
  by_cases hji : j = i
  · subst hji
    rw [Function.update_self]
    exact (hr.hasLeft_own k).2 (.inl (hk j hj))
  · rw [Function.update_of_ne hji]
    exact (hr.hasLeft_other h hi hj hji k).2 (.inl (hk j hj))

theorem TeamRule.not_finished (hr : TeamRule R i s (loc i) s' m' e) : (loc i).status ≠ .finished := by
  cases hr <;> simp [*]

end

/-- In every interleaving, a work share whose end was called has been left by all, or by the master of
a combined loop without a barrier. -/
theorem finish_reach {R : Region} {outer : Option U32} {c : Cfg Nat TeamShared Member TeamEvent}
    (h : Reach (teamStep R) (teamStart R outer) c) {i : Nat} {r : RegionId} {k : Nat}
    (he : (i, .finish r k) ∈ c.log) :
    AllLeft R c.shared c.loc k ∨ EndsAlone R ∧ k = 0 ∧ (c.loc 0).status = .finished := by
  induction h with
  | refl => cases he
  | @tail d _ hd hs ih =>
    have hinv := TeamInv.reach hd
    cases hs with
    | @mk j a s m e hp =>
      obtain ⟨hj, hr⟩ := teamStep_rule hp
      have hold : (i, .finish r k) ∈ d.log → AllLeft R s (Function.update d.loc j m) k ∨
          EndsAlone R ∧ k = 0 ∧ (Function.update d.loc j m 0).status = .finished := fun hmem => by
        rcases ih hmem with hall | ⟨halone, hk, hfin⟩
        · exact .inl (hr.allLeft_mono hinv hj hall)
        · have hj0 : 0 ≠ j := by rintro rfl; exact hr.not_finished hfin
          exact .inr ⟨halone, hk, by rw [Function.update_of_ne hj0]; exact hfin⟩
      cases e with
      | none => exact hold he
      | some e =>
        rcases List.mem_append.1 he with he | he
        · exact hold he
        · obtain ⟨rfl, rfl⟩ : i = j ∧ TeamEvent.finish r k = e := by simpa using he
          rcases hr.finish_allLeft hinv hj rfl with hall | ⟨halone, hk, rfl, hfin⟩
          · exact .inl hall
          · refine .inr ⟨halone, hk, ?_⟩
            show (Function.update d.loc 0 m 0).status = _
            rw [Function.update_self]; exact hfin

/-! ## Covering -/

/-- Once the end of a BO loop with an id is called, no member works on the loop any more. -/
def Covered (R : Region) (c : Cfg Nat TeamShared Member TeamEvent) : Prop :=
  ∀ i r k cn id, (i, .finish r k) ∈ c.log → R.body[k]? = some cn → cn.bo = true → cn.begins = some id → id ≠ 0 →
    ∀ j < R.size, (c.loc j).pos = k → (c.loc j).status ≠ .working

/-- Some other member may work while the master runs `GOMP_parallel_end`. -/
def LeavesEarly (R : Region) : Prop :=
  ∃ n c, R = .parallelLoop n c true ∧ c.bo = true ∧ c.form = .nowait ∧ c.begins.getD 0 ≠ 0 ∧ 2 ≤ n.toNat ∧ 0 < c.chunks

/-- Nobody works on a combined loop without chunks. -/
theorem no_work {n : U32} {c : Construct} {b : Bool} (hc : c.chunks = 0) {outer : Option U32}
    {d : Cfg Nat TeamShared Member TeamEvent}
    (h : Reach (teamStep (.parallelLoop n c b)) (teamStart (.parallelLoop n c b) outer) d) :
    d.shared.left 0 = 0 ∧ ∀ j, (d.loc j).status ≠ .working := by
  induction h with
  | refl => exact ⟨hc, fun j => by simp [teamStart]⟩
  | @tail d _ hd hs ih =>
    have hinv := TeamInv.reach hd
    cases hs with
    | mk i a hp =>
      obtain ⟨hi, hr⟩ := teamStep_rule hp
      obtain ⟨hleft, hwork⟩ := ih
      have hother : ∀ {m : Member}, m.status ≠ .working → ∀ j, (Function.update d.loc i m j).status ≠ .working :=
        fun hm j => by
          by_cases hji : j = i
          · subst hji; rw [Function.update_self]; exact hm
          · rw [Function.update_of_ne hji]; exact hwork j
      cases hr with
      | first c' hc' hb hR hpos => cases hR
      | take hb hl =>
        -- the only work share is the first
        have hlt := (hinv.member i hi).busy (by simp [hb]) (by simp [hb])
        have hone := hinv.preInit rfl
        simp only [Region.body, List.length_singleton] at hone
        rw [hone, Nat.lt_one_iff] at hlt
        rw [hlt, hleft] at hl
        cases hl
      | _ => exact ⟨hleft, hother (by simp)⟩

theorem covered_of_not {R : Region} (hR : ¬LeavesEarly R) {outer : Option U32}
    {c : Cfg Nat TeamShared Member TeamEvent} (h : Reach (teamStep R) (teamStart R outer) c) : Covered R c := by
  intro i r k cn id he hcn hbo hid hne j hj hpos hwork
  rcases finish_reach h he with hall | ⟨⟨n, c', rfl, hform, hid'⟩, rfl, hfin⟩
  · exact not_hasLeft hpos (by rw [hwork]; simp) (hall j hj)
  · obtain rfl : c' = cn := Option.some.inj hcn
    by_cases hchunks : 0 < c'.chunks
    · have hn : n.toNat < 2 := by
        by_contra hn
        exact hR ⟨n, c', rfl, hbo, hform, hid', by omega, hchunks⟩
      have hsize : Region.size (.parallelLoop n c' true) = n.toNat := rfl
      obtain rfl : j = 0 := by omega
      rw [hfin] at hwork
      cases hwork
    · exact (no_work (by omega) h).2 j hwork

/-! ## A run that does not cover its loop -/

section

variable {R : Region} {i : Nat} {s : TeamShared} {m : Member}

theorem teamStep_take (hi : i < R.size) (hst : m.status = .inside) (hleft : 0 < s.left m.pos) :
    teamStep R i .take s m = some ({ s with left := Function.update s.left m.pos (s.left m.pos - 1) },
      { m with status := .working }, none) := by
  simp only [teamStep, if_pos hi]
  exact if_pos ⟨hst, hleft⟩

theorem teamStep_done (hi : i < R.size) (hst : m.status = .working) :
    teamStep R i .done s m = some (s, { m with status := .inside }, none) := by
  simp only [teamStep, if_pos hi]
  exact if_pos hst

/-- A member in a loop can take chunks until none is left, and work on the last one. -/
theorem exists_drain (hi : i < R.size) {k : Nat} : ∀ (q : Nat) {c : Cfg Nat TeamShared Member TeamEvent},
    (c.loc i).status = .inside → (c.loc i).pos = k → c.shared.left k = q + 1 →
    ∃ d, Reach (teamStep R) c d ∧ (d.loc i).status = .working ∧ (d.loc i).pos = k ∧ d.shared.left k = 0 ∧
      (∀ j, j ≠ i → d.loc j = c.loc j) ∧ d.log = c.log
  | q, c, hst, rfl, hleft => by
    obtain ⟨d, hd, hs, hloc, hother, hlog⟩ := exists_step (teamStep_take hi hst (by omega))
    have hwork : (d.loc i).status = .working := by rw [hloc]
    have hpos : (d.loc i).pos = (c.loc i).pos := by rw [hloc]
    have hpool : d.shared.left (c.loc i).pos = q := by
      rw [hs]
      show Function.update c.shared.left _ _ _ = q
      rw [Function.update_self, hleft]
      rfl
    cases q with
    | zero => exact ⟨d, .single hd, hwork, hpos, hpool, hother, hlog⟩
    | succ q =>
      -- the chunk is done before the next one is taken
      obtain ⟨d', hd', hs', hloc', hother', hlog'⟩ := exists_step (teamStep_done hi hwork)
      obtain ⟨f, hf, hst, hpos', hpool', hother'', hlog''⟩ := exists_drain hi (k := (c.loc i).pos) q (c := d')
        (by rw [hloc']) (by rw [hloc']; exact hpos) (by rw [hs']; exact hpool)
      refine ⟨f, .head hd (.head hd' hf), hst, hpos', hpool', fun j hj => ?_, ?_⟩
      · rw [hother'' j hj, hother' j hj, hother j hj]
      · rw [hlog'', hlog', hlog]; rfl

end

/-- Two members enter the loop, the second takes all its chunks, and the master ends the region while
the second works on the last one. -/
theorem exists_not_covered {n : U32} {c : Construct} (hbo : c.bo = true) (hform : c.form = .nowait)
    (hid : c.begins.getD 0 ≠ 0) (hn : 2 ≤ n.toNat) (hchunks : 0 < c.chunks) (outer : Option U32) :
    ∃ d, Reach (teamStep (.parallelLoop n c true)) (teamStart (.parallelLoop n c true) outer) d ∧
      ¬Covered (.parallelLoop n c true) d := by
  obtain ⟨R, hR⟩ : ∃ R, R = Region.parallelLoop n c true := ⟨_, rfl⟩
  rw [← hR]
  have hi : ∀ {i}, i < 2 → i < R.size := fun h => by rw [hR]; exact lt_of_lt_of_le h hn
  have hbody : R.body[0]? = some c := by rw [hR]; rfl
  have hpre : R.preInit = true := by rw [hR]; rfl
  obtain ⟨id, hbegins, hid'⟩ : ∃ id, c.begins = some id ∧ id ≠ 0 := by
    cases hb : c.begins with
    | none => rw [hb] at hid; exact absurd rfl hid
    | some id => rw [hb] at hid; exact ⟨id, rfl, hid⟩
  have hlen : R.body.length = 1 := by rw [hR]; rfl
  have hend : gompParallelEnd R = some (.finish id 0) := by
    rw [hR]
    simpa [gompParallelEnd, hbegins] using hid'
  have henter : ∀ {i : Nat} {d : Cfg Nat TeamShared Member TeamEvent}, i < 2 → d.loc i = ⟨0, .between, false⟩ →
      teamStep R i .enter d.shared (d.loc i) = some (d.shared, ⟨0, .inside, false⟩, none) := fun h hloc => by
    rw [hloc]
    simp only [teamStep, if_pos (hi h), if_true, hbody, Option.map_some, gompWorkShareStart, hpre]
  obtain ⟨d₁, hd₁, hs₁, hloc₁, hother₁, hlog₁⟩ := exists_step
    (c := teamStart R outer) (henter (i := 0) (by decide) rfl)
  obtain ⟨d₂, hd₂, hs₂, hloc₂, hother₂, hlog₂⟩ := exists_step (henter (i := 1) (d := d₁) (by decide) (hother₁ 1 (by decide)))
  -- the second member takes every chunk
  obtain ⟨q, hq⟩ := Nat.exists_eq_succ_of_ne_zero (Nat.ne_of_gt hchunks)
  obtain ⟨d₃, hd₃, hst₃, hpos₃, hpool₃, hother₃, hlog₃⟩ := exists_drain (hi (i := 1) (by decide)) (k := 0) q (c := d₂)
    (by rw [hloc₂]) (by rw [hloc₂]) (by rw [hs₂, hs₁]; simp [teamStart, hbody, hq])
  have hmaster : d₃.loc 0 = ⟨0, .inside, false⟩ := by
    rw [hother₃ 0 (by decide), hother₂ 0 (by decide), hloc₁]
  -- the master finds no chunk, leaves without waiting, and runs `GOMP_parallel_end`
  have hleave : teamStep R 0 .leave d₃.shared (d₃.loc 0) =
      some ({ d₃.shared with completed := Function.update d₃.shared.completed 0 (d₃.shared.completed 0 + 1) },
        ⟨1, .between, false⟩, none) := by
    rw [hmaster]
    simp only [teamStep, if_pos (hi (i := 0) (by decide)), hbody, Option.bind_some, hpool₃, mayLeave, true_or, and_true,
      if_true, endConstruct, hform]
    rw [hR]
    rfl
  obtain ⟨d₄, hd₄, -, hloc₄, hother₄, hlog₄⟩ := exists_step hleave
  have hfinish : teamStep R 0 .finish d₄.shared (d₄.loc 0) =
      some (d₄.shared, ⟨1, .finished, false⟩, some (.finish id 0)) := by
    rw [hloc₄]
    simp only [teamStep, if_pos (hi (i := 0) (by decide)), hlen, and_self, if_true, hend]
  obtain ⟨d₅, hd₅, -, hloc₅, hother₅, hlog₅⟩ := exists_step hfinish
  refine ⟨d₅, .head hd₁ (.head hd₂ (hd₃.trans (.head hd₄ (.single hd₅)))), fun hcov => ?_⟩
  have hone : d₅.loc 1 = d₃.loc 1 := by rw [hother₅ 1 (by decide), hother₄ 1 (by decide)]
  exact hcov 0 id 0 c id (by rw [hlog₅]; simp) hbody hbo hbegins hid' 1 (hi (by decide)) (by rw [hone]; exact hpos₃)
    (by rw [hone]; exact hst₃)

/-- The recorded time of a BO loop covers the loop in every interleaving of its team just where it is
not a combined loop that leaves its iterations without a barrier. -/
theorem boScheduleEnd_covered_iff (R : Region) :
    (∀ outer c, Reach (teamStep R) (teamStart R outer) c → Covered R c) ↔ ¬LeavesEarly R := by
  constructor
  · rintro h ⟨n, c, rfl, hbo, hform, hid, hn, hchunks⟩
    obtain ⟨d, hd, hnot⟩ := exists_not_covered hbo hform hid hn hchunks none
    exact hnot (h none d hd)
  · intro hR outer c hc
    exact covered_of_not hR hc

/-- `GOMP_parallel_loop_runtime` with id 7 on two threads, one chunk and `GOMP_loop_end_nowait`. -/
def nowaitLoop : Region := .parallelLoop 2 ⟨some 7, 7, .nowait, true, false, 1⟩ true

/-- The second thread still works on the chunk when the master has called `bo_schedule_end`. -/
theorem nowaitLoop_not_covered :
    ¬∀ R outer c, Reach (teamStep R) (teamStart R outer) c → Covered R c := by
  intro h
  have hrun : (exec (teamStep nowaitLoop) (teamStart nowaitLoop none)
      [(0, .enter), (1, .enter), (1, .take), (0, .leave), (0, .finish)]).any (fun c =>
        decide ((0, TeamEvent.finish 7 0) ∈ c.log ∧ (c.loc 1).pos = 0 ∧ (c.loc 1).status = .working)) = true := by
    decide +kernel
  obtain ⟨c, hc, hlog, hpos, hwork⟩ := exists_reach hrun
  exact h nowaitLoop none c hc 0 7 0 _ 7 hlog rfl rfl rfl (by decide) 1 (by decide) hpos hwork

end Bosched
