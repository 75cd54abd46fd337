/-
Recycling the work shares is invisible: a team that keeps its work shares in the cache logs what a team logs in which
every construct has a work share of its own, never gets stuck where that one would not, and takes at most a constant
number of steps more.
-/
import Bosched.Lib.Halting
import Bosched.Lib.Stutter
import Bosched.WorkShare.Recycles
import Bosched.WorkShare.Separate

namespace Bosched

open Lib

variable {G C A B E : Type}

/-! ## The steps of `work.c` still to come -/

/-- A bound for the steps in `alloc_work_share` before the work share is linked in. -/
def AllocAt.rank : AllocAt → Nat
  | .start => 7
  | .look => 6
  | .peek _ => 5
  | .cut _ _ => 4
  | .pop _ | .take _ | .grow => 3
  | .got _ => 2

/-- A bound for the steps that the thread takes for the cache until its next step in a construct or out of one. -/
def ShareMember.rank (m : ShareMember B) : Nat :=
  match m.status with
  | .between => 8
  | .alloc pc => pc.rank
  | .inited _ => 1
  | .inside _ | .waiting _ | .releasing => 0
  | .freeing .read => 11
  | .freeing (.link _) => 10
  | .freeing (.cas _) => 9

theorem SharePool.allocWorkShare_rank {p p' : SharePool} {pc pc' : AllocAt} (h : p.allocWorkShare pc = some (p', pc')) :
    pc'.rank < pc.rank := by
  unfold SharePool.allocWorkShare at h
  cases pc with
  | start | look | peek ws =>
    dsimp only at h
    split at h <;> cases h <;> simp [AllocAt.rank]
  | pop ws | cut ws next | take next | grow =>
    cases h
    simp [AllocAt.rank]
  | got ws => cases h

namespace Recycles

variable {n i peak : Nat} {body : List (Work G C A B E)} {addr : Nat → Nat} {s s' : TeamShares G C}
  {loc : Nat → ShareMember B} {t t' : NumberedTeam G C} {loc' : Nat → NumberedMember B} {m' : ShareMember B}
  {W : Work G C A B E} {e : Option E}

theorem mono (h : Recycles n body addr peak s loc t loc') {peak' : Nat} (hle : peak ≤ peak') :
    Recycles n body addr peak' s loc t loc' := by
  obtain ⟨own, alloc, free, hc⟩ := h.cached
  refine { h with cached := ⟨own, alloc, free, { hc with alloc := ?_, brk := ?_ }⟩ }
  · exact fun i hi pc hst => SharePool.alloc_mono (hc.alloc i hi pc hst) hle
  · rcases hc.brk with hbrk | ⟨hbrk, hpeak⟩
    · exact .inl hbrk
    · exact .inr ⟨by omega, by omega⟩

/-- What a step of the program does to the numbered work shares, and to the rank of the thread. -/
structure Stepped (n : Nat) (body : List (Work G C A B E)) (peak i : Nat) (s' : TeamShares G C)
    (loc : Nat → ShareMember B) (m' : ShareMember B) (e : Option E) (t : NumberedTeam G C)
    (loc' : Nat → NumberedMember B) : Prop where
  step : ∃ addr' t' m'', Recycles n body addr' peak s' (Function.update loc i m') t' (Function.update loc' i m'') ∧
    (t' = t ∧ m'' = loc' i ∧ e = none ∧ m'.rank < (loc i).rank ∨
      NumberedRule n body i t (loc' i) t' m'' e ∧ m'.rank ≤ (loc i).rank + 11 ∧
        (m''.status = .building ∨ (loc' i).status = .freeing → m'.rank < (loc i).rank))

/-- A step for the cache alone. -/
theorem Stepped.cache {addr' : Nat → Nat} (h : Recycles n body addr' peak s' (Function.update loc i m') t loc')
    (hrank : m'.rank < (loc i).rank) : Stepped n body peak i s' loc m' (none : Option E) t loc' :=
  ⟨addr', t, loc' i, by rw [Function.update_eq_self]; exact h, .inl ⟨rfl, rfl, rfl, hrank⟩⟩

/-- A step that only goes on in a construct, or out of it. -/
theorem Stepped.plain {addr' : Nat → Nat} {m'' : NumberedMember B}
    (hr : NumberedRule n body i t (loc' i) t' m'' e)
    (h : Recycles n body addr' peak s' (Function.update loc i m') t' (Function.update loc' i m''))
    (hrank : m'.rank ≤ (loc i).rank + 11)
    (hbuild : m''.status ≠ .building) (hfree : (loc' i).status ≠ .freeing) :
    Stepped n body peak i s' loc m' e t loc' :=
  ⟨addr', t', m'', h, .inr ⟨hr, hrank, fun hb => by
    rcases hb with hb | hb
    · exact absurd hb hbuild
    · exact absurd hb hfree⟩⟩

theorem rule (h : Recycles n body addr peak s loc t loc') (hinv : NumberedInv n body t loc') (hi : i < n)
    (hpeak : t.started + 1 ≤ t.freed + peak) (hr : RecycledRule n body i s (loc i) s' m' e) :
    Stepped n body peak i s' loc m' e t loc' := by
  have hp := h.placed i hi
  have hpos := hp.pos
  have hm := hinv.member i hi
  have hsame : ∀ k, t.started ≤ k → t.content k = t.content k ∧ t.completed k = t.completed k := fun _ _ => ⟨rfl, rfl⟩
  cases hr with
  | first W hW hst hnull =>
    obtain ⟨hst', -⟩ := hp.between_inv hst
    obtain ⟨⟨hlt, hfree⟩, hrec⟩ := h.first hinv hi hst hnull
    rw [← hpos] at hW
    have hrank : AllocAt.start.rank < (loc i).rank := by
      simp [ShareMember.rank, hst, AllocAt.rank]
    exact ⟨addr, _, _, hrec, .inr ⟨.build W hW hst' hlt hfree, hrank.le.trans (Nat.le_add_right ..), fun _ => hrank⟩⟩
  | enter W hW hst ws hws =>
    obtain ⟨hst', hshare⟩ := hp.between_inv hst
    rw [hshare, ← hpos] at hws
    -- the lock holds no pointer
    have hlt : (loc' i).pos < t.started := by
      by_contra hlt
      rw [h.link_front hinv hi hst' hlt] at hws
      cases hb : t.building <;> rw [hb] at hws <;> cases hws
    rw [h.link_between hinv hi hst' hlt] at hws
    cases hws
    rw [← hpos] at hW
    have hplaced : Placed addr ⟨(loc i).pos, addr ((loc' i).pos + 1), some (loc i).workShare, .inside W.entry⟩
        ⟨(loc' i).pos, .inside W.entry⟩ := by
      rw [hshare, ← hpos]
      exact .inside _ _
    refine Stepped.plain (.enter W hW hst' hlt) (h.of_plain (by simp [ShareMember.plain, hst]) hi (.inl rfl)
      hplaced rfl rfl rfl rfl h.global
      h.arrived h.generation h.content hsame fun _ _ => ⟨rfl, rfl⟩) (Nat.zero_le _)
      (fun hb => by cases hb) (by simp [hst'])
  | alloc W hW pc hst pool pc' hstep =>
    refine Stepped.cache (h.alloc hinv hi hpeak hst hstep) ?_
    have hrank := SharePool.allocWorkShare_rank hstep
    simpa [ShareMember.rank, hst] using hrank
  | init W hW ws hst =>
    refine Stepped.cache (h.init hinv hi hW hst) ?_
    simp [ShareMember.rank, hst, AllocAt.rank]
  | link W hW ws hst =>
    obtain ⟨hst', -, -⟩ := hp.inited_inv hst
    have hrec := h.link hinv hi hW hst
    rw [← hpos] at hW
    exact Stepped.plain (.link W hW hst') hrec (Nat.zero_le _) (fun hb => by cases hb) (by simp [hst'])
  | run W hW b hst a g c b' e hstep =>
    obtain ⟨hst', hshare, hlast⟩ := hp.inside_inv hst
    have hreached : (loc i).pos + 1 ≤ t.started := by simpa [NumberedMember.reached, hst', hpos] using hm.reached
    have hfreed : t.freed ≤ (loc i).pos := by simpa [NumberedMember.needs, hst', hpos] using hm.freed
    have hlive : addr ((loc i).pos + 1) ∈ liveShares addr t.freed t.started :=
      mem_liveShares.2 ⟨_, by omega, hreached, rfl⟩
    rw [hshare, (h.content _ (by omega) hreached).1, h.global] at hstep
    rw [← hpos] at hW hstep
    have hplaced : Placed addr ⟨(loc i).pos, (loc i).workShare, (loc i).lastWorkShare, .inside b'⟩
        ⟨(loc' i).pos, .inside b'⟩ := by
      rw [hshare, hlast, hpos]
      exact .inside _ _
    have hrec : Recycles n body addr peak
        { s with global := g, content := Function.update s.content (loc i).workShare c }
        (Function.update loc i ⟨(loc i).pos, (loc i).workShare, (loc i).lastWorkShare, .inside b'⟩)
        { t with global := g, content := Function.update t.content (loc' i).pos c }
        (Function.update loc' i ⟨(loc' i).pos, .inside b'⟩) := by
      refine h.of_plain (by simp [ShareMember.plain, hst]) hi (.inl rfl) hplaced rfl rfl rfl rfl rfl h.arrived
        h.generation (fun k hk hk' => ?_) (fun k hk => ⟨?_, rfl⟩) fun ws hws => ⟨?_, rfl⟩
      · refine ⟨?_, (h.content k hk hk').2⟩
        show Function.update s.content (loc i).workShare c (addr (k + 1)) = Function.update t.content (loc' i).pos c k
        rw [hshare, hpos]
        by_cases hkp : k = (loc i).pos
        · subst hkp
          rw [Function.update_self, Function.update_self]
        · rw [Function.update_of_ne hkp, Function.update_of_ne]
          · exact (h.content k hk hk').1
          · intro heq
            have := h.addr_inj hk hk' (by omega) hreached heq
            omega
      · exact Function.update_of_ne (by omega) ..
      · exact Function.update_of_ne (by rintro rfl; exact hws (hshare ▸ hlive)) ..
    exact Stepped.plain (.run W hW b hst' a g c b' e hstep) hrec (Nat.zero_le _) (fun hb => by cases hb)
      (by simp [hst'])
  | endNowait W hW b hst hend hform =>
    obtain ⟨hst', hshare, hlast⟩ := hp.inside_inv hst
    have hreached : (loc i).pos + 1 ≤ t.started := by simpa [NumberedMember.reached, hst', hpos] using hm.reached
    have hfreed : t.freed ≤ (loc i).pos := by simpa [NumberedMember.needs, hst', hpos] using hm.freed
    have hlive : addr ((loc i).pos + 1) ∈ liveShares addr t.freed t.started :=
      mem_liveShares.2 ⟨_, by omega, hreached, rfl⟩
    have hcompleted : s.threadsCompleted (loc i).workShare = t.completed (loc' i).pos := by
      rw [hshare, hpos]
      exact (h.content _ (by omega) hreached).2
    rw [← hpos] at hW
    have hcontent : ∀ k, t.freed ≤ k + 1 → k < t.started → s.content (addr (k + 1)) = t.content k ∧
        Function.update s.threadsCompleted (loc i).workShare (s.threadsCompleted (loc i).workShare + 1) (addr (k + 1)) =
          Function.update t.completed (loc' i).pos (t.completed (loc' i).pos + 1) k := by
      intro k hk hk'
      refine ⟨(h.content k hk hk').1, ?_⟩
      rw [hcompleted, hshare, hpos]
      by_cases hkp : k = (loc i).pos
      · subst hkp
        rw [Function.update_self, Function.update_self]
      · rw [Function.update_of_ne hkp, Function.update_of_ne]
        · exact (h.content k hk hk').2
        · intro heq
          have := h.addr_inj hk hk' (by omega) hreached heq
          omega
    have hfresh : ∀ k, t.started ≤ k → t.content k = t.content k ∧
        Function.update t.completed (loc' i).pos (t.completed (loc' i).pos + 1) k = t.completed k := fun k hk =>
      ⟨rfl, Function.update_of_ne (by omega) ..⟩
    have hother : ∀ ws, ws ∉ liveShares addr t.freed t.started → s.content ws = s.content ws ∧
        Function.update s.threadsCompleted (loc i).workShare (s.threadsCompleted (loc i).workShare + 1) ws =
          s.threadsCompleted ws := fun ws hws =>
      ⟨rfl, Function.update_of_ne (by rintro rfl; exact hws (hshare ▸ hlive)) ..⟩
    have hplain : (loc i).plain = true := by simp [ShareMember.plain, hst]
    unfold TeamShares.gompWorkShareEndNowait
    rw [hlast]
    dsimp only
    by_cases hn : s.threadsCompleted (loc i).workShare + 1 = n
    · rw [if_pos hn]
      have hplaced : Placed (B := B) addr ⟨(loc i).pos, (loc i).workShare, some (addr (loc i).pos), .freeing .read⟩
          ⟨(loc' i).pos, .freeing⟩ := by
        rw [hshare, hpos]
        exact .freeing _ _
      exact Stepped.plain (.countLast W hW b hst' hend hform (hcompleted ▸ hn))
        (h.of_plain hplain hi (.inr rfl) hplaced rfl rfl rfl rfl h.global h.arrived h.generation hcontent
        hfresh hother) (Nat.le_add_left ..) (fun hb => by cases hb)
        (by simp [hst'])
    · rw [if_neg hn]
      exact Stepped.plain (.count W hW b hst' hend hform (hcompleted ▸ hn))
        (h.of_plain hplain hi (.inl rfl) (.done hshare hpos) rfl rfl rfl rfl h.global h.arrived h.generation
        hcontent hfresh hother) (by show 8 ≤ _; omega) (fun hb => by cases hb)
        (by simp [hst'])
  | endBarrier W hW b hst hend hform =>
    obtain ⟨hst', hshare, hlast⟩ := hp.inside_inv hst
    rw [← hpos] at hW
    have hplain : (loc i).plain = true := by simp [ShareMember.plain, hst]
    have harrived : s.arrived + 1 = t.arrived + 1 := by rw [h.arrived]
    unfold TeamShares.gompWorkShareEnd
    rw [hlast]
    dsimp only
    by_cases hn : s.arrived + 1 = n
    · rw [if_pos hn]
      have hplaced : Placed (B := B) addr ⟨(loc i).pos, (loc i).workShare, some (addr (loc i).pos), .freeing .read⟩
          ⟨(loc' i).pos, .freeing⟩ := by
        rw [hshare, hpos]
        exact .freeing _ _
      exact Stepped.plain (.arriveLast W hW b hst' hend hform (harrived ▸ hn))
        (h.of_plain hplain hi (.inr rfl) hplaced rfl rfl rfl rfl h.global harrived h.generation h.content
        hsame fun _ _ => ⟨rfl, rfl⟩) (Nat.le_add_left ..)
        (fun hb => by cases hb) (by simp [hst'])
    · rw [if_neg hn]
      have hplaced : Placed (B := B) addr ⟨(loc i).pos, (loc i).workShare, some (addr (loc i).pos),
        .waiting s.generation⟩
          ⟨(loc' i).pos, .waiting t.generation⟩ := by
        rw [hshare, hpos, h.generation]
        exact .waiting _ _ _
      exact Stepped.plain (.arrive W hW b hst' hend hform (harrived ▸ hn))
        (h.of_plain hplain hi (.inl rfl) hplaced rfl rfl rfl rfl h.global harrived h.generation h.content
        hsame fun _ _ => ⟨rfl, rfl⟩) (Nat.zero_le _)
        (fun hb => by cases hb) (by simp [hst'])
  | freeing W hW pc hst last hlast pool pc' hstep =>
    refine Stepped.cache (h.freeing hinv hi hst hlast hstep) ?_
    cases pc with
    | read | link head =>
      cases hstep
      simp [ShareMember.rank, hst]
    | cas head =>
      rw [h.cas hinv hi hst hlast] at hstep
      cases hstep
  | free W hW pc hst last hlast pool hstep =>
    obtain ⟨hst', hshare, -⟩ := hp.freeing_inv hst
    have hrank : 9 ≤ (loc i).rank := by
      unfold ShareMember.rank
      rw [hst]
      cases pc <;> simp
    rw [← hpos] at hW
    by_cases hform : W.nowait = true
    · rw [if_pos hform]
      have hrec := h.free hinv hi hst hlast hstep (.done hshare hpos) rfl
      exact ⟨addr, _, _, hrec, .inr ⟨.free W hW hst' hform, by show 8 ≤ _; omega, fun _ => by show 8 < _; omega⟩⟩
    · rw [if_neg hform]
      have hplaced : Placed (B := B) addr ⟨(loc i).pos, (loc i).workShare, (loc i).lastWorkShare, .releasing⟩
          ⟨(loc' i).pos, .releasing⟩ := by
        rw [hshare, hpos]
        exact .releasing _ _
      have hrec := h.free hinv hi hst hlast hstep hplaced rfl
      exact ⟨addr, _, _, hrec, .inr ⟨.freeLast W hW hst' (by simpa using hform), Nat.zero_le _,
        fun _ => by show 0 < _; omega⟩⟩
  | wake W hW g hst hg =>
    obtain ⟨hst', hshare⟩ := hp.waiting_inv hst
    rw [← hpos] at hW
    exact Stepped.plain (.wake W hW g hst' (h.generation ▸ hg))
      (h.of_plain (by simp [ShareMember.plain, hst]) hi (.inl rfl) (.done hshare hpos) rfl rfl rfl rfl
      h.global h.arrived h.generation h.content hsame fun _ _ => ⟨rfl, rfl⟩)
      (by show 8 ≤ _; omega) (fun hb => by cases hb) (by simp [hst'])
  | release W hW hst =>
    obtain ⟨hst', hshare⟩ := hp.releasing_inv hst
    rw [← hpos] at hW
    exact Stepped.plain (.release W hW hst') (h.of_plain (by simp [ShareMember.plain, hst]) hi (.inl rfl)
      (.done hshare hpos) rfl rfl rfl rfl
      h.global rfl (congrArg (· + 1) h.generation) h.content hsame fun _ _ => ⟨rfl, rfl⟩)
      (by show 8 ≤ _; omega) (fun hb => by cases hb) (by simp [hst'])

end Recycles

/-! ## The team with its own work shares -/

/-- The team as it is seen without the cache. -/
structure Shows (n : Nat) (body : List (Work G C A B E)) (c : Cfg Nat (TeamShares G C) (ShareMember B) E)
    (d : Cfg Nat (SeparateTeam G C) (SeparateMember B) E) : Prop where
  shows : ∃ addr peak t loc', Recycles n body addr peak c.shared c.loc t loc' ∧ NumberedInv n body t loc' ∧
    d.shared = t.separate ∧ ∀ i < n, d.loc i = (loc' i).separate body
  log : c.log = d.log

/-- The ranks of all threads. -/
def shareRank (n : Nat) (c : Cfg Nat (TeamShares G C) (ShareMember B) E) : Nat := ∑ i ∈ Finset.range n, (c.loc i).rank

section

variable {n : Nat} {body : List (Work G C A B E)} {c c' : Cfg Nat (TeamShares G C) (ShareMember B) E}
  {d : Cfg Nat (SeparateTeam G C) (SeparateMember B) E}

theorem Shows.step (h : Shows n body c d) (hs : Step (recycledRun n body) c c') :
    Shows n body c' d ∧ shareRank n c' < shareRank n c ∨
      ∃ d', Step (separateRun n body) d d' ∧ Shows n body c' d' ∧ shareRank n c' ≤ shareRank n c + 11 := by
  obtain ⟨⟨addr, peak, t, loc', hrec, hinv, hshared, hloc⟩, hlog⟩ := h
  cases hs with
  | @mk i a s' m' e hp =>
    obtain ⟨hi, hrule⟩ := recycledRun_rule hp
    have hsum := sum_update c.loc hi m' fun _ m => m.rank
    obtain ⟨addr', t', m'', hrec', hcase⟩ :=
      ((hrec.mono (le_max_left peak (t.started + 1))).rule hinv hi (le_trans (le_max_right ..) (Nat.le_add_left ..))
        hrule).step
    have hloc' : ∀ st, st = m''.separate body →
        ∀ j < n, Function.update d.loc i st j = (Function.update loc' i m'' j).separate body := by
      rintro _ rfl j hj
      by_cases hji : j = i
      · subst hji
        rw [Function.update_self, Function.update_self]
      · rw [Function.update_of_ne hji, Function.update_of_ne hji]
        exact hloc j hj
    rcases hcase with ⟨rfl, rfl, rfl, hrank⟩ | ⟨hrule', hrank, hbook⟩
    · rw [Function.update_eq_self] at hrec'
      refine .inl ⟨⟨⟨addr', _, _, loc', hrec', hinv, hshared, hloc⟩, hlog⟩, ?_⟩
      unfold shareRank
      dsimp only
      omega
    · have hinv' := hinv.rule hi hrule'
      rcases hrule'.separate hi with ⟨hsame, hm, rfl, hst⟩ | ⟨b, hsep⟩
      · have hlt := hbook hst
        refine .inl ⟨⟨⟨addr', _, t', _, hrec', hinv', hshared.trans hsame.symm, ?_⟩, hlog⟩, ?_⟩
        · rw [← Function.update_eq_self i d.loc]
          exact hloc' _ ((hloc i hi).trans hm.symm)
        · unfold shareRank
          dsimp only
          omega
      · rw [← hshared, ← hloc i hi] at hsep
        refine .inr ⟨_, .mk i b hsep, ⟨⟨addr', _, t', _, hrec', hinv', rfl, hloc' _ rfl⟩, ?_⟩, ?_⟩
        · show logged c.log i e = logged d.log i e
          rw [hlog]
        · unfold shareRank
          dsimp only
          omega

theorem recycled_step_of {i : Nat} {W : Work G C A B E} (hi : i < n) (hW : body[(c.loc i).pos]? = some W)
    {a : ShareAction A} {r : TeamShares G C × ShareMember B × Option E}
    (h : recycledStep n W i a c.shared (c.loc i) = some r) : ∃ c', Step (recycledRun n body) c c' := by
  apply step_of_some (i := i) (a := a) (r := r)
  unfold recycledRun
  rw [if_pos hi, hW, Option.bind_some]
  exact h

/-- A thread in `alloc_work_share` or on its way out of it can go on. -/
theorem Recycles.builder_step {addr : Nat → Nat} {peak i : Nat} {t : NumberedTeam G C} {loc' : Nat → NumberedMember B}
    (h : Recycles n body addr peak c.shared c.loc t loc') (hinv : NumberedInv n body t loc') (hi : i < n)
    (hst : (loc' i).status = .building) : ∃ c', Step (recycledRun n body) c c' := by
  have hp := h.placed i hi
  have hlt : (c.loc i).pos < body.length := by
    rw [← hp.pos]
    exact (hinv.member i hi).construct (by rw [hst]; exact fun hb => by cases hb)
  have hW : body[(c.loc i).pos]? = some body[(c.loc i).pos] := List.getElem?_eq_getElem hlt
  obtain ⟨own, alloc, free, hc⟩ := h.cached
  rcases hp.building_inv hst with ⟨pc, hpc⟩ | ⟨ws, hws⟩
  · by_cases hgot : ∃ ws, pc = .got ws
    · obtain ⟨ws, rfl⟩ := hgot
      apply recycled_step_of hi hW (a := .go)
      simp only [recycledStep, hpc]
      rfl
    · push Not at hgot
      obtain ⟨r, hr⟩ := hc.holds.exists_allocWorkShare (hc.alloc i hi pc hpc) hgot
      apply recycled_step_of hi hW (a := .go)
      simp only [recycledStep, hpc]
      cases pc with
      | got ws => exact absurd rfl (hgot ws)
      | start | pop ws | look | peek ws | cut ws next | take next | grow =>
        rw [hr, Option.map_some]
  · apply recycled_step_of hi hW (a := .go)
    simp only [recycledStep, hws]
    rfl

/-- Where the team with its own work shares can go on, so can the program. -/
theorem Shows.stuck (h : Shows n body c d) (hd : ∃ d', Step (separateRun n body) d d') :
    ∃ c', Step (recycledRun n body) c c' := by
  obtain ⟨⟨addr, peak, t, loc', hrec, hinv, hshared, hloc⟩, -⟩ := h
  obtain ⟨d', hs⟩ := hd
  cases hs with
  | @mk i a s m e hsep =>
    have hi : i < n := by
      by_contra hi
      unfold separateRun at hsep
      rw [if_neg hi] at hsep
      cases hsep
    have hp := hrec.placed i hi
    have hpos := hp.pos
    have hm := hinv.member i hi
    rw [hshared, hloc i hi] at hsep
    have hwork : (loc' i).status ≠ .between → ∃ W, body[(c.loc i).pos]? = some W := by
      intro hne
      have hlt := hm.construct hne
      rw [hpos] at hlt
      exact ⟨_, List.getElem?_eq_getElem hlt⟩
    cases hst : (c.loc i).status with
    | between =>
      obtain ⟨hst', hshare⟩ := hp.between_inv hst
      have hview : (loc' i).separate body = ⟨(c.loc i).pos, .between⟩ := by
        unfold NumberedMember.separate
        rw [hst', hpos]
      rw [hview] at hsep
      unfold separateRun at hsep
      rw [if_pos hi] at hsep
      obtain ⟨W, hW, -⟩ := Option.bind_eq_some_iff.1 hsep
      by_cases hlt : (loc' i).pos < t.started
      · -- the next work share has been linked in
        have hlink := hrec.link_between hinv hi hst' hlt
        rw [hpos, ← hshare] at hlink
        apply recycled_step_of hi hW (a := .go)
        simp only [recycledStep, hst, TeamShares.gompWorkShareStart, hlink]
        rfl
      · have hlink := hrec.link_front hinv hi hst' hlt
        rw [hpos, ← hshare] at hlink
        cases hb : t.building with
        | true =>
          obtain ⟨j, hj, hstj⟩ := hinv.built hb
          exact hrec.builder_step hinv hj hstj
        | false =>
          rw [hb] at hlink
          apply recycled_step_of hi hW (a := .go)
          simp only [recycledStep, hst, TeamShares.gompWorkShareStart, hlink]
          rfl
    | alloc pc => exact hrec.builder_step hinv hi (hp.alloc_inv hst).1
    | inited ws => exact hrec.builder_step hinv hi (hp.inited_inv hst).1
    | inside b =>
      obtain ⟨hst', hshare, -⟩ := hp.inside_inv hst
      obtain ⟨W, hW⟩ := hwork (by rw [hst']; exact fun hb => by cases hb)
      have hreached : (c.loc i).pos + 1 ≤ t.started := by simpa [NumberedMember.reached, hst', hpos] using hm.reached
      have hfreed : t.freed ≤ (c.loc i).pos := by simpa [NumberedMember.needs, hst', hpos] using hm.freed
      have hcontent : c.shared.content (c.loc i).workShare = t.content (c.loc i).pos := by
        rw [hshare]
        exact (hrec.content _ (by omega) hreached).1
      have hview : (loc' i).separate body = ⟨(c.loc i).pos, .inside b⟩ := by
        unfold NumberedMember.separate
        rw [hst', hpos]
      rw [hview, separateRun_of hi hW] at hsep
      cases a with
      | go =>
        by_cases hend : W.ends b = true
        · apply recycled_step_of hi hW (a := .go)
          simp only [recycledStep, hst, hend, if_true]
          rfl
        · simp [separateStep, hend] at hsep
      | run a =>
        obtain ⟨r, hr, -⟩ := Option.map_eq_some_iff.1 hsep
        apply recycled_step_of hi hW (a := .run a)
        simp only [recycledStep, hst]
        rw [hcontent, hrec.global, show W.step i a t.global (t.content (c.loc i).pos) b = some r from hr]
        rfl
    | freeing pc =>
      obtain ⟨hst', -, hlast⟩ := hp.freeing_inv hst
      obtain ⟨W, hW⟩ := hwork (by rw [hst']; exact fun hb => by cases hb)
      apply recycled_step_of hi hW (a := .go)
      simp only [recycledStep, hst, hlast, Option.map_some]
      rfl
    | waiting g =>
      obtain ⟨hst', -⟩ := hp.waiting_inv hst
      obtain ⟨W, hW⟩ := hwork (by rw [hst']; exact fun hb => by cases hb)
      have hview : (loc' i).separate body = ⟨(c.loc i).pos, .waiting g⟩ := by
        unfold NumberedMember.separate
        rw [hst', hpos]
      rw [hview, separateRun_of hi hW] at hsep
      have hg : c.shared.generation = g + 1 := by
        rw [hrec.generation]
        by_contra hg
        cases a with
        | go => simp [separateStep, NumberedTeam.separate, hg] at hsep
        | run a => cases hsep
      apply recycled_step_of hi hW (a := .go)
      simp only [recycledStep, hst, hg, if_true]
      rfl
    | releasing =>
      obtain ⟨hst', -⟩ := hp.releasing_inv hst
      obtain ⟨W, hW⟩ := hwork (by rw [hst']; exact fun hb => by cases hb)
      apply recycled_step_of hi hW (a := .go)
      simp only [recycledStep, hst]
      rfl

/-- The program is the team with its own work shares, but for at most eleven steps of `work.c` for each of its steps. -/
theorem recycledRun_stutters (n : Nat) (body : List (Work G C A B E)) :
    Stutters (recycledRun n body) (separateRun n body) (Shows n body) (shareRank n) 11 where
  log h := h.log
  step h hs := h.step hs
  stuck h hd := h.stuck hd

theorem Recycles.start (n : Nat) (body : List (Work G C A B E)) (global : G) (content : Nat → C) :
    Recycles n body (fun _ => 0) 1 (recycledStart (B := B) (E := E) global content).shared
      (recycledStart (B := B) (E := E) global content).loc (numberedStart body global content) fun _ =>
        ⟨0, .between⟩ where
  placed i _ := .between 0 none
  global := rfl
  arrived := rfl
  generation := rfl
  content k _ hk := nomatch hk
  fresh k _ := by
    refine ⟨rfl, fun W hW => ?_⟩
    show ((body[k]?).map (·.init)).getD (content k) = W.init
    rw [hW]
    rfl
  links j _ hj := nomatch hj
  front := rfl
  cached := ⟨[], _, [],
    { holds := SharePool.holds_gompNewTeam
      alloc := fun _ _ _ hst => nomatch hst
      inited := fun _ _ _ hst => nomatch hst
      idle := fun _ => rfl
      freeing := fun _ _ _ hst => nomatch hst
      brk := .inl rfl }⟩

theorem Shows.start {n : Nat} (hn : 0 < n) (body : List (Work G C A B E)) (global : G) (content : Nat → C) :
    Shows n body (recycledStart global content) (separateStart body global content) where
  shows := ⟨_, _, _, _, .start n body global content, .start hn global content, rfl, fun _ _ => rfl⟩
  log := rfl

/-- A thread in a construct is where it would be with a work share of its own, and finds in the work share what it would
find there. -/
theorem Shows.inside (h : Shows n body c d) : c.shared.global = d.shared.global ∧ ∀ i < n, ∀ b,
    (c.loc i).status = .inside b → d.loc i = ⟨(c.loc i).pos, .inside b⟩ ∧
      c.shared.content (c.loc i).workShare = d.shared.content (c.loc i).pos := by
  obtain ⟨⟨addr, peak, t, loc', hrec, hinv, hshared, hloc⟩, -⟩ := h
  refine ⟨by rw [hshared]; exact hrec.global, fun i hi b hst => ?_⟩
  have hp := hrec.placed i hi
  have hm := hinv.member i hi
  obtain ⟨hst', hshare, -⟩ := hp.inside_inv hst
  have hreached : (c.loc i).pos + 1 ≤ t.started := by simpa [NumberedMember.reached, hst', hp.pos] using hm.reached
  have hfreed : t.freed ≤ (c.loc i).pos := by simpa [NumberedMember.needs, hst', hp.pos] using hm.freed
  refine ⟨?_, ?_⟩
  · rw [hloc i hi]
    unfold NumberedMember.separate
    rw [hst', hp.pos]
  · rw [hshare, hshared]
    exact (hrec.content _ (by omega) hreached).1

end

/-- A construct that counts the threads that come by. -/
def countWork (nowait : Bool) : Work Unit Nat Unit Bool Nat where
  init := 0
  entry := false
  step _ _ _ count counted := if counted then none else some ((), count + 1, true, some count)
  ends := id
  nowait := nowait

/-- Two threads take turns in seven constructs; then the first is alone in the eighth. -/
def countTurns : List (Nat × ShareAction Unit) :=
  let go (i k : Nat) := List.replicate k (i, ShareAction.go)
  (List.replicate 7 (go 0 5 ++ [(0, .run ())] ++ go 0 1 ++ go 1 1 ++ [(1, .run ())] ++ go 1 4)).flatten ++
    go 0 8 ++ [(0, .run ())]

end Bosched
