/-
Getting through a loop. A thread that goes on alone finishes its call within a bounded number of steps, wherever it
stands and however old the values are that it holds; with the invariants of the iterators this makes a run of a whole
team end, and then every iteration was handed out once.
-/
import Bosched.Iter.Divisors

namespace Bosched

open Lib

/-! ## What a team needs of an iterator -/

section

variable {ι S L : Type} [DecidableEq ι]

/-- How many chunks thread `i` got. -/
def taken (log : List (ι × Ret)) (i : ι) : Nat := log.countP fun x => x.1 = i ∧ x.2 ≠ none

theorem taken_le (rd : Word → Int) (log : List (ι × Ret)) (i : ι) : taken log i ≤ (chunks rd log).length := by
  unfold chunks returned taken
  rw [List.length_map, List.length_filterMap_eq_countP]
  refine List.countP_mono_left fun x _ hx => ?_
  simp only [ne_eq, Bool.decide_and, decide_not, Bool.and_eq_true, Bool.not_eq_eq_eq_not, Bool.not_true,
    decide_eq_false_iff_not] at hx
  exact Option.isSome_iff_ne_none.2 hx.2

/-- The chunks run every iteration of the loop, each once. -/
def EachOnce (l : Loop) (cs : List (Int × Int)) : Prop := (cs.flatMap fun c => (l.chunk c).values).Perm l.values

/-- The runs of `q` from `c₀` hand out the loop `l`: no thread gets more chunks than there are iterations, a thread
that has not stopped can go on, alone comes to the end of its call, and when all were told that there is no more work
every iteration was handed out once. -/
structure Drains (q : Prog ι Unit S L Ret) (c₀ : Cfg ι S L Ret) (l : Loop) (live : L → Prop) (rank : S → L → Nat)
    (B : Nat) : Prop where
  bound : ∀ {c}, Reach q c₀ c → ∀ i, taken c.log i ≤ l.trip
  moves : ∀ {c}, Reach q c₀ c → ∀ i, live (c.loc i) →
    ∃ s' l' e, q i () c.shared (c.loc i) = some (s', l', e) ∧ (e = none → rank s' l' < rank c.shared (c.loc i))
  low : ∀ s l, rank s l ≤ B
  once : ∀ {c}, Reach q c₀ c → (∀ i, (i, none) ∈ c.log) → EachOnce l (chunks BitVec.toInt c.log)

end

/-! ## The end of a call -/

/-- How many steps a thread takes alone before its call returns: it pays for every value that is out of date. -/
def Local.alone (s : Cells) : Local → Nat
  | .idle => 6
  | .loadNext _ => 2
  | .loadBarrier start => if start = s.next then 5 else 10
  | .loadChunk start barrier => if start = s.next ∧ barrier = s.barrier then 4 else 9
  | .casChunk start barrier chunk _ _ =>
    if chunk = s.chunkSize ∧ barrier = s.barrier then if start = s.next then 3 else 8 else 6
  | .reloadNext chunk => if chunk = s.chunkSize then 5 else 10
  | .reloadBarrier start chunk => if start = s.next ∧ chunk = s.chunkSize then 4 else 9
  | .casBarrier start barrier F _ =>
    if barrier = s.barrier then if start = s.next then 2 else 7 else if F = s.chunkSize then 5 else 10
  | .reloadStart barrier chunk => if barrier = s.barrier ∧ chunk = s.chunkSize then 4 else 9
  | .casNext start _ _ => if start = s.next then 1 else 6

theorem Local.alone_le (s : Cells) (loc : Local) : loc.alone s ≤ 10 := by
  cases loc <;> simp only [Local.alone] <;> (repeat' split) <;> omega

section

variable {ι : Type} (v : View) {i : ι} {a : Unit} {s s' : Cells} {loc loc' : Local}

/-- The head of the loop body leaves a thread in front of a compare-and-swap, with the values it was called with. -/
theorem View.batchTop_alone {nthreads start barrier chunk : Word} {batch : Word → Option Word}
    (h : v.batchTop nthreads batch start barrier chunk = some (loc', none)) :
    loc'.alone s ≤ 8 ∧ (start = s.next → barrier = s.barrier → chunk = s.chunkSize → loc'.alone s ≤ 3) := by
  rcases v.batchTop_cases h with ⟨-, -, he⟩ | ⟨-, ⟨F, nbarrier, rfl⟩ | ⟨nend, rfl⟩⟩
  · cases he
  · simp only [Local.alone]
    constructor
    · (repeat' split) <;> omega
    · rintro rfl rfl rfl
      simp
  · simp only [Local.alone]
    constructor
    · split <;> omega
    · rintro rfl - -
      simp

theorem View.batchedNext_alone {nthreads : Word} {batch : Word → Option Word}
    (h : v.batchedNext nthreads batch i a s loc = some (s', loc', none)) : loc'.alone s' < loc.alone s := by
  cases loc with
  | idle =>
    cases h
    simp [Local.alone]
  | loadNext => cases h
  | loadBarrier start =>
    cases h
    simp only [Local.alone, and_true]
    split <;> omega
  | loadChunk start barrier =>
    obtain ⟨⟨_, _⟩, ht, h⟩ := Option.bind_eq_some_iff.1 h
    cases h
    obtain ⟨hany, hfresh⟩ := v.batchTop_alone (s := s) ht
    show _ < if start = s.next ∧ barrier = s.barrier then 4 else 9
    split
    · rename_i hc
      have := hfresh hc.1 hc.2 rfl
      omega
    · omega
  | reloadNext chunk =>
    cases h
    simp only [Local.alone, true_and]
    split <;> omega
  | reloadBarrier start chunk =>
    obtain ⟨⟨_, _⟩, ht, h⟩ := Option.bind_eq_some_iff.1 h
    cases h
    obtain ⟨hany, hfresh⟩ := v.batchTop_alone (s := s) ht
    show _ < if start = s.next ∧ chunk = s.chunkSize then 4 else 9
    split
    · rename_i hc
      have := hfresh hc.1 rfl hc.2
      omega
    · omega
  | reloadStart barrier chunk =>
    obtain ⟨⟨_, _⟩, ht, h⟩ := Option.bind_eq_some_iff.1 h
    cases h
    obtain ⟨hany, hfresh⟩ := v.batchTop_alone (s := s) ht
    show _ < if barrier = s.barrier ∧ chunk = s.chunkSize then 4 else 9
    split
    · rename_i hc
      have := hfresh rfl hc.1 hc.2
      omega
    · omega
  | casChunk start barrier chunk F nbarrier =>
    simp only [View.batchedNext] at h
    split at h
    · rename_i hchunk
      cases h
      simp only [Local.alone, hchunk, true_and, if_true]
      (repeat' split) <;> omega
    · rename_i hchunk
      cases h
      simp [Local.alone, Ne.symm hchunk]
  | casBarrier start barrier F nbarrier =>
    simp only [View.batchedNext] at h
    split at h
    · rename_i hbarrier
      obtain ⟨loc'', hcl, h⟩ := Option.bind_eq_some_iff.1 h
      cases h
      obtain ⟨nend, rfl⟩ := v.claim_eq hcl
      simp only [Local.alone, hbarrier, if_true]
      split <;> omega
    · rename_i hbarrier
      cases h
      simp only [Local.alone, if_neg (Ne.symm hbarrier), true_and]
      split <;> omega
  | casNext start chunk nend =>
    simp only [View.batchedNext] at h
    split at h
    · cases h
    · rename_i hnext
      cases h
      simp [Local.alone, Ne.symm hnext]

theorem View.ticketNext_alone {chunkOf : Word → Word}
    (h : v.ticketNext chunkOf i a s loc = some (s', loc', none)) : loc'.alone s' < loc.alone s := by
  have htop : ∀ {chunk loc''}, v.ticketTop s.next chunk = some (loc'', none) → loc''.alone s = 1 := by
    intro chunk loc'' ht
    rcases v.ticketTop_cases ht with ⟨-, -, he⟩ | ⟨-, nend, rfl⟩
    · cases he
    · simp [Local.alone]
  cases loc with
  | idle =>
    cases h
    simp [Local.alone]
  | loadNext chunk =>
    obtain ⟨⟨_, _⟩, ht, h⟩ := Option.bind_eq_some_iff.1 h
    cases h
    rw [htop ht]
    simp [Local.alone]
  | casNext start chunk nend =>
    simp only [View.ticketNext] at h
    split at h
    · cases h
    · rename_i hnext
      obtain ⟨⟨_, _⟩, ht, h⟩ := Option.bind_eq_some_iff.1 h
      cases h
      rw [htop ht]
      simp [Local.alone, Ne.symm hnext]
  | loadBarrier | loadChunk | casChunk | reloadNext | reloadBarrier | casBarrier | reloadStart => cases h

theorem View.guidedNext_alone {guide : Word → Word}
    (h : v.guidedNext guide i a s loc = some (s', loc', none)) : loc'.alone s' < loc.alone s := by
  have htop : ∀ {loc''}, v.guidedTop guide s.next = some (loc'', none) → loc''.alone s = 1 := by
    intro loc'' ht
    rcases v.guidedTop_cases ht with ⟨-, -, he⟩ | ⟨-, chunk, nend, rfl⟩
    · cases he
    · simp [Local.alone]
  cases loc with
  | idle =>
    obtain ⟨⟨_, _⟩, ht, h⟩ := Option.bind_eq_some_iff.1 h
    cases h
    rw [htop ht]
    simp [Local.alone]
  | casNext start chunk nend =>
    simp only [View.guidedNext] at h
    split at h
    · cases h
    · rename_i hnext
      obtain ⟨⟨_, _⟩, ht, h⟩ := Option.bind_eq_some_iff.1 h
      cases h
      rw [htop ht]
      simp [Local.alone, Ne.symm hnext]
  | loadNext | loadBarrier | loadChunk | casChunk | reloadNext | reloadBarrier | casBarrier | reloadStart => cases h

end

/-! ## The compare-and-swap iterators -/

/-- The steps of the iterators are defined on every iteration of the loop that they can stand on. -/
def View.Remains (v : View) (rd : Word → Int) (l : Loop) : Prop := ∀ {start}, On rd l start → ∃ R, v.remaining start = some R

section

variable {ι : Type} {v : View} {rd : Word → Int} {l : Loop} {s0 : Word} {ok : Word → Word → Prop} {i : ι} {s : Cells}
  {loc : Local} {log : List (ι × Ret)}

theorem View.Remains.claim (h : v.Remains rd l) {start : Word} (chunk : Word) (hon : On rd l start) :
    ∃ loc, v.claim start chunk = some loc := by
  obtain ⟨R, hR⟩ := h hon
  refine ⟨.casNext start chunk (v.nend start chunk R), ?_⟩
  unfold View.claim
  rw [hR]
  rfl

/-- Where `tss` and `tape` threads stand. -/
def Local.Retries (ticket : Bool) : Local → Prop
  | .idle | .casNext .. => True
  | .loadNext _ => ticket = true
  | _ => False

theorem View.ticketNext_retries {chunkOf : Word → Word} {a : Unit} {s' : Cells} {loc' : Local} {e : Option Ret}
    (h : v.ticketNext chunkOf i a s loc = some (s', loc', e)) : loc'.Retries true := by
  have htop : ∀ {chunk r}, v.ticketTop s.next chunk = some r → r.1.Retries true := by
    intro chunk r ht
    rcases v.ticketTop_cases ht with ⟨-, hr, -⟩ | ⟨-, nend, hr⟩ <;> rw [hr] <;> trivial
  cases loc with
  | idle =>
    cases h
    rfl
  | loadNext chunk =>
    obtain ⟨⟨_, _⟩, ht, h⟩ := Option.bind_eq_some_iff.1 h
    cases h
    exact htop ht
  | casNext start chunk nend =>
    simp only [View.ticketNext] at h
    split at h
    · cases h
      trivial
    · obtain ⟨⟨_, _⟩, ht, h⟩ := Option.bind_eq_some_iff.1 h
      cases h
      exact htop ht
  | loadBarrier | loadChunk | casChunk | reloadNext | reloadBarrier | casBarrier | reloadStart => cases h

theorem View.guidedNext_retries {guide : Word → Word} {a : Unit} {s' : Cells} {loc' : Local} {e : Option Ret}
    (h : v.guidedNext guide i a s loc = some (s', loc', e)) : loc'.Retries false := by
  have htop : ∀ {r}, v.guidedTop guide s.next = some r → r.1.Retries false := by
    intro r ht
    rcases v.guidedTop_cases ht with ⟨-, hr, -⟩ | ⟨-, chunk, nend, hr⟩ <;> rw [hr] <;> trivial
  cases loc with
  | idle =>
    obtain ⟨⟨_, _⟩, ht, h⟩ := Option.bind_eq_some_iff.1 h
    cases h
    exact htop ht
  | casNext start chunk nend =>
    simp only [View.guidedNext] at h
    split at h
    · cases h
      trivial
    · obtain ⟨⟨_, _⟩, ht, h⟩ := Option.bind_eq_some_iff.1 h
      cases h
      exact htop ht
  | loadNext | loadBarrier | loadChunk | casChunk | reloadNext | reloadBarrier | casBarrier | reloadStart => cases h

variable (hs : v.Sound rd l ok) (hR : v.Remains rd l)

include hs hR

theorem View.Remains.ticketTop (chunk : Word) (hp : Passed rd l s s.next) : (v.ticketTop s.next chunk).isSome := by
  unfold View.ticketTop
  rcases hs.passed_cases hp with ⟨hfin, -⟩ | ⟨hne, hon⟩
  · rw [if_pos hfin]
    rfl
  · obtain ⟨loc, hcl⟩ := hR.claim chunk hon
    rw [if_neg hne, hcl]
    rfl

theorem View.Remains.guidedTop (guide : Word → Word) (hp : Passed rd l s s.next) : (v.guidedTop guide s.next).isSome := by
  unfold View.guidedTop
  rcases hs.passed_cases hp with ⟨hfin, -⟩ | ⟨hne, hon⟩
  · rw [if_pos hfin]
    rfl
  · obtain ⟨R, hrem⟩ := hR hon
    obtain ⟨loc, hcl⟩ := hR.claim (guide R) hon
    rw [if_neg hne, hrem, Option.bind_eq_bind, Option.bind_some, hcl]
    rfl

theorem View.Remains.ticketNext {chunkOf : Word → Word} (hp : Passed rd l s s.next) (hloc : loc.Retries true) :
    (v.ticketNext chunkOf i () s loc).isSome := by
  cases loc with
  | idle => rfl
  | loadNext chunk =>
    obtain ⟨r, hr⟩ := Option.isSome_iff_exists.1 (hR.ticketTop hs chunk hp)
    simp only [View.ticketNext, hr]
    rfl
  | casNext start chunk nend =>
    obtain ⟨r, hr⟩ := Option.isSome_iff_exists.1 (hR.ticketTop hs chunk hp)
    simp only [View.ticketNext, hr]
    split <;> rfl
  | loadBarrier | loadChunk | casChunk | reloadNext | reloadBarrier | casBarrier | reloadStart => exact absurd hloc id

theorem View.Remains.guidedNext {guide : Word → Word} (hp : Passed rd l s s.next) (hloc : loc.Retries false) :
    (v.guidedNext guide i () s loc).isSome := by
  obtain ⟨r, hr⟩ := Option.isSome_iff_exists.1 (hR.guidedTop hs guide hp)
  cases loc with
  | idle =>
    simp only [View.guidedNext, hr]
    rfl
  | casNext start chunk nend =>
    simp only [View.guidedNext, hr]
    split <;> rfl
  | loadNext => exact absurd hloc Bool.false_ne_true
  | loadBarrier | loadChunk | casChunk | reloadNext | reloadBarrier | casBarrier | reloadStart => exact absurd hloc id

end

section

variable {D : Type} [CDouble D] {ι : Type} [DecidableEq ι] {g g' : Globals D} {team team' : Option U32} {now : Int}
  {ws ws' : GompWorkShare D} {start fin incr chunkSize : Word} {sched : GompScheduleType} {r : RegionId}

omit [DecidableEq ι] in
theorem boIterNext_alone {it : CasIter} {i : ι} {a : Unit} {s s' : Cells} {loc loc' : Local}
    (h : boIterNext it ws team i a s loc = some (s', loc', none)) : loc'.alone s' < loc.alone s := by
  cases it with
  | fac2 | fss => exact View.batchedNext_alone _ h
  | tss => exact View.ticketNext_alone _ h
  | tape => exact View.guidedNext_alone _ h

/-- No step of `tss`, of `tape`, or of `fss` but for an empty batch is undefined. -/
theorem boIterNext_neverTraps {it : CasIter} (hincr : incr ≠ 0)
    (hinit : gompLoopInit g team now ws start fin incr sched chunkSize r = some (g', ws')) (hit : it ≠ .fac2)
    (hbatch : it = .fss → ¬ EmptyBatch (View.long ws') ws') :
    NeverTraps (boIterNext it ws' team' : Prog ι Unit Cells Local Ret) (boIterNext it ws' team') (entry ws') := by
  obtain ⟨hfits, htrap⟩ := long_divides hinit
  have hsame := gompLoopInit_sameLoop hinit
  have hfin : ws'.fin = canonicalEnd start fin incr := hsame.fin
  have hinc : ws'.incr = incr := hsame.incr
  have hincr' : ws'.incr ≠ 0 := by rw [hinc]; exact hincr
  have hl : shareLoop start fin incr hincr = signedLoop start ws'.fin ws'.incr hincr' := by
    simp only [shareLoop, signedLoop, hfin, hinc]
  have hsound := long_sound hincr' hfits
  have hremains : (View.long ws').Remains BitVec.toInt (signedLoop start ws'.fin ws'.incr hincr') := by
    rintro s ⟨k, hk, hs⟩
    rw [Loop.pos_of_lt _ hk] at hs
    obtain ⟨R, hR, -⟩ := long_remaining hincr' hfits htrap hk hs
    exact ⟨R, hR⟩
  intro c hr i
  have hG := boIterNext_reach it hincr (hfin ▸ hfits) hinit hr
  rw [show signedLoop start (canonicalEnd start fin incr) incr hincr = _ from hl] at hG
  cases it with
  | fac2 => exact absurd rfl hit
  | fss => exact (boIterFssNext_long i hincr hinit).2 (hbatch rfl) hr i
  | tss =>
    have hloc := Reach.loc (Q := Local.Retries true) hr (fun _ => trivial) (fun _ hp => View.ticketNext_retries hp) i
    exact hremains.ticketNext hsound hG.passed hloc
  | tape =>
    have hloc := Reach.loc (Q := Local.Retries false) hr (fun _ => trivial) (fun _ hp => View.guidedNext_retries hp) i
    exact hremains.guidedNext hsound hG.passed hloc

theorem boIterNext_drains [Nonempty ι] {it : CasIter} (hincr : incr ≠ 0)
    (hinit : gompLoopInit g team now ws start fin incr sched chunkSize r = some (g', ws')) (hit : it ≠ .fac2)
    (hbatch : it = .fss → ¬ EmptyBatch (View.long ws') ws') :
    Drains (boIterNext it ws' team' : Prog ι Unit Cells Local Ret) (entry ws') (shareLoop start fin incr hincr)
      (fun _ => True) Local.alone 10 := by
  obtain ⟨hfits, -⟩ := long_divides hinit
  have hfin : ws'.fin = canonicalEnd start fin incr := (gompLoopInit_sameLoop hinit).fin
  have hreach := fun {c : Cfg ι Cells Local Ret} (hr : Reach (boIterNext it ws' team') (entry ws') c) =>
    boIterNext_reach it hincr (hfin ▸ hfits) hinit hr
  constructor
  · intro c hr i
    obtain ⟨k, hk, -⟩ := (hreach hr).claimed
    exact le_trans (taken_le BitVec.toInt c.log i) (le_trans hk.length_le hk.le_trip)
  · intro c hr i _
    obtain ⟨⟨s', loc', e⟩, hp⟩ := Option.isSome_iff_exists.1 (boIterNext_neverTraps hincr hinit hit hbatch hr i)
    refine ⟨s', loc', e, hp, ?_⟩
    rintro rfl
    exact boIterNext_alone hp
  · exact Local.alone_le
  · intro c hr htold
    have hend := (hreach hr).done _ (htold (Classical.arbitrary ι))
    have htiles := (hreach hr).tiles (by rw [hend, show (View.long ws').fin = ws'.fin from rfl, hfin]; rfl)
    exact List.Perm.of_eq htiles.run

/-! ## The dynamic iterator -/

/-- A compare-and-swap on an old value has to be made again. -/
def DynLocal.alone (next : Word) : DynLocal → Nat
  | .idle => 2
  | .casNext start _ _ => if next = start then 1 else 2
  | .stopped => 0

omit [CDouble D] in
/-- Where its chunks are not empty, the dynamic iterator needs nothing else. -/
theorem gompIterDynamicNext_drains [Fintype ι] [Nonempty ι] {l : Loop} {s : Nat} (h : DynShare ws' l s (Fintype.card ι))
    (hs : 0 < s ∨ l.trip = 0) :
    Drains (gompIterDynamicNext ws' : Prog ι Unit Word DynLocal Ret) (dynEntry ws') l (· ≠ .stopped) DynLocal.alone 2 := by
  have hclaimed : ∀ {c : Cfg ι Word DynLocal Ret}, Reach (gompIterDynamicNext ws') (dynEntry ws') c →
      ∃ k, Claimed l (chunks BitVec.toInt c.log) k ∧ ((∃ i, (i, none) ∈ c.log) → k = l.trip) := by
    intro c hr
    obtain ⟨q, hcuts, hdone⟩ := h.strided false hr
    rcases Nat.eq_zero_or_pos s with rfl | hpos
    · have htrip := hs.resolve_left (lt_irrefl 0)
      obtain rfl : q = 0 := by
        by_contra hq
        have := hcuts.2 0 (Nat.pos_of_ne_zero hq)
        omega
      have hnil : chunks BitVec.toInt c.log = [] := hcuts.1
      rw [hnil]
      exact ⟨0, .nil, fun _ => htrip.symm⟩
    · refine ⟨_, hcuts.claimed hpos, ?_⟩
      rintro ⟨i, hi⟩
      exact Nat.min_eq_right (hdone i hi)
  constructor
  · intro c hr i
    obtain ⟨k, hk, -⟩ := hclaimed hr
    exact le_trans (taken_le BitVec.toInt c.log i) (le_trans hk.length_le hk.le_trip)
  · intro c hr i hlive
    obtain ⟨⟨s', loc', e⟩, hp⟩ := dynamicIter_isSome ws' i c.shared hlive (nofun : false = true → _)
    refine ⟨s', loc', e, hp, ?_⟩
    rintro rfl
    rcases dynamicIter_cases ws' hp with ⟨he, -⟩ | ⟨_, he, -⟩ | ⟨-, rfl, -, ⟨chunk, nend, rfl⟩, hstale⟩
    · cases he
    · cases he
    · have hrank : (c.loc i).alone c.shared = 2 := by
        generalize c.loc i = loc at hlive hstale
        cases loc with
        | idle => rfl
        | casNext start chunk nend => exact if_neg fun heq => hstale chunk nend (by rw [heq])
        | stopped => exact absurd rfl hlive
      rw [hrank]
      simp [DynLocal.alone]
  · intro next loc
    cases loc with
    | casNext =>
      simp only [DynLocal.alone]
      split <;> decide
    | idle | stopped => simp [DynLocal.alone]
  · intro c hr htold
    obtain ⟨k, hk, hend⟩ := hclaimed hr
    obtain rfl := hend ⟨Classical.arbitrary ι, htold _⟩
    exact List.Perm.of_eq hk.tiles.run

end

end Bosched
