/-
The task count of both initialisers against the iterations of the loop: `num_tasks` is the distance
divided by the step and rounded down, where `gomp_iter_static_next` rounds up. It is what
`bo_schedule_begin` records as `N`, what the first chunks are computed from, and what `__ntasks`
keeps, in 32 bits.
-/
import Bosched.Iter.Hss
import Bosched.Iter.Binlpt
import Bosched.Iter.Unsigned

namespace Bosched

open Lib

variable {D : Type} [CDouble D]

/-! ## The signed count -/

/-- `num_tasks` is the trip count when the loop has no iterations, or when it steps onto its end and
neither the distance nor the quotient overflows. -/
def StepsOntoEnd (start fin incr : Word) (trip : Nat) : Prop :=
  trip = 0 ∨ (incr.toInt ∣ fin.toInt - start.toInt ∧ SubFits fin start ∧
    ¬ (incr = -1 ∧ fin.toInt - start.toInt = -2 ^ 63))

theorem numTasks_eq_trip_iff {start fin incr : Word} (hincr : incr ≠ 0) :
    (∃ n, numTasks start fin incr = some n ∧ n.toNat = (signedLoop start fin incr hincr).trip) ↔
      StepsOntoEnd start fin incr (signedLoop start fin incr hincr).trip := by
  have hend := canonicalEnd_eq start fin incr
  unfold StepsOntoEnd
  rcases Nat.eq_zero_or_pos (signedLoop start fin incr hincr).trip with h0 | hpos
  · obtain ⟨n, hn⟩ := numTasks_defined hincr (.inl h0)
    have hle := numTasks_le_trip hincr hn
    have hn0 := numTasks_nonneg hn
    have hnat := toNat_of_toInt_nonneg hn0
    exact ⟨fun _ => .inl h0, fun _ => ⟨n, hn, by omega⟩⟩
  · have hb := (Loop.before_fin_iff _ 0).2 hpos
    rw [Loop.value_zero] at hb
    rw [if_neg fun h => h.2.asymm hb] at hend
    have hiff := (signedLoop start fin incr hincr).tdiv_eq_trip_iff hpos
    have hdist : (signedLoop start fin incr hincr).fin - (signedLoop start fin incr hincr).start =
      fin.toInt - start.toInt := rfl
    have hstep : (signedLoop start fin incr hincr).incr = incr.toInt := rfl
    rw [hdist, hstep] at hiff
    constructor
    · rintro ⟨n, hn, hnt⟩
      obtain ⟨-, hfits, hq⟩ := numTasks_some hn
      have hn0 := numTasks_nonneg hn
      have hnat := toNat_of_toInt_nonneg hn0
      rw [hend] at hfits hq
      refine .inr ⟨hiff.1 (by omega), hfits, ?_⟩
      rintro ⟨rfl, hd⟩
      have := toInt_bounds n
      rw [hd] at hq
      simp at hq
      omega
    · rintro (h | ⟨hdvd, hfits, hmin⟩)
      · omega
      · cases hn : numTasks start fin incr with
        | none => exact absurd hfits fun hf => (numTasks_none hincr hn).2.elim (fun h => h hf) hmin
        | some n =>
          obtain ⟨-, -, hq⟩ := numTasks_some hn
          have hn0 := numTasks_nonneg hn
          have hnat := toNat_of_toInt_nonneg hn0
          rw [hend, hiff.2 hdvd] at hq
          exact ⟨n, rfl, by omega⟩

/-- The use of the task count in `gomp_loop_init`, with the number of iterations in its place. -/
structure CountsLoop (D : Type) [CDouble D] (start fin incr : Word) (sched : GompScheduleType) (trip : Nat) : Prop where
  count : ∃ n, numTasks start fin incr = some n ∧ n.toNat = trip
  begun : ∀ (g : Globals D) team now ws chunkSize r g' ws',
    gompLoopInit g team now ws start fin incr sched chunkSize r = some (g', ws') →
    isBoSchedule sched = true ∨ g.isBoSchedule = true ∨ g.showLoopStat = true → (g'.loop r).numTasks.toNat = trip
  sized : ∀ (g : Globals D) team now ws chunkSize r,
    gompLoopInit g team now ws start fin incr sched chunkSize r =
      gompLoopInitSched
        (boScheduleBegin (readParam g (canonicalShare ws start fin incr sched chunkSize) sched r).1 r
          (BitVec.ofNat 64 trip) (teamNthreads team) now)
        (readParam g (canonicalShare ws start fin incr sched chunkSize) sched r).2 (BitVec.ofNat 64 trip)
        (teamNthreads team) start incr sched r
  ntasks : sched = .fsBinlpt ∨ sched = .fsHss → ∀ (g : Globals D) team now ws chunkSize r g' ws',
    gompLoopInit g team now ws start fin incr sched chunkSize r = some (g', ws') → g'.ntasks.toNat = trip

/-- After `readParam` the flags that make `bo_schedule_begin` record are the schedule's or the old ones. -/
theorem readParam_records {g : Globals D} (ws : GompWorkShare D) {sched : GompScheduleType} (r : RegionId)
    (h : isBoSchedule sched = true ∨ g.isBoSchedule = true ∨ g.showLoopStat = true) :
    (readParam g ws sched r).1.isBoSchedule = true ∨ (readParam g ws sched r).1.showLoopStat = true := by
  unfold readParam isParameterized
  split
  · rename_i hbo
    exact .inl hbo
  · rename_i hbo
    rcases h with h | h
    · exact absurd h hbo
    · exact h

/-- What either kind of workload schedule leaves in `__ntasks`. -/
theorem gompLoopInit_ntasks {g g' : Globals D} {team : Option U32} {now : Int} {ws ws' : GompWorkShare D}
    {start fin incr n chunkSize : Word} {sched : GompScheduleType} {r : RegionId}
    (hsched : sched = .fsBinlpt ∨ sched = .fsHss) (hn : numTasks start fin incr = some n)
    (h : gompLoopInit g team now ws start fin incr sched chunkSize r = some (g', ws')) :
    g'.ntasks = n.setWidth 32 := by
  rw [gompLoopInit_eq hn] at h
  rcases hsched with rfl | rfl
  · obtain ⟨⟨_, _⟩, hload, h⟩ := Option.bind_eq_some_iff.1 h
    cases h
    exact boBinlptLoadLoop_ntasks hload
  · obtain ⟨_, _, h⟩ := Option.bind_eq_some_iff.1 h
    cases h
    rfl

/-- Every count is used by an initialisation that gets through. -/
theorem gompLoopInit_workload (sched : GompScheduleType) (hsched : sched = .fsBinlpt ∨ sched = .fsHss) (r : RegionId)
    {start fin incr n : Word} (hn : numTasks start fin incr = some n) :
    ∃ (g : Globals D) (g' : Globals D) (ws' : GompWorkShare D),
      gompLoopInit g (some 1) 0 .zero start fin incr sched 0 r = some (g', ws') := by
  rcases hsched with rfl | rfl
  · let g : Globals D := (Globals.fresh 1).setParam r { WorkloadParams.zero with binlpt := [0] }
    have hload : (boBinlptLoadLoop g r).map Prod.snd = some [0] := by
      unfold boBinlptLoadLoop
      simp [g, Globals.param_setParam]
    obtain ⟨g', ws', h, -⟩ := gompLoopInit_binlpt (some 1) 0 .zero 0 hn hload
    exact ⟨g, g', ws', h⟩
  · let g : Globals D := (Globals.fresh 1).setParam r
      { WorkloadParams.zero with hss := List.replicate (n.setWidth 32).toNat 0 }
    have hlen : (n.setWidth 32).toNat ≤ (g.param r).hss.length := by
      simp only [g, Globals.param_setParam, List.length_replicate, le_refl]
    obtain ⟨g', ws', h, -⟩ := gompLoopInit_hss (some 1) 0 .zero 0 hn hlen
    exact ⟨g, g', ws', h⟩

theorem countsLoop_iff {start fin incr : Word} (hincr : incr ≠ 0) (sched : GompScheduleType) :
    CountsLoop D start fin incr sched (signedLoop start fin incr hincr).trip ↔
      StepsOntoEnd start fin incr (signedLoop start fin incr hincr).trip ∧
        (sched = .fsBinlpt ∨ sched = .fsHss → (signedLoop start fin incr hincr).trip < 2 ^ 32) := by
  rw [← numTasks_eq_trip_iff hincr]
  generalize (signedLoop start fin incr hincr).trip = trip
  constructor
  · intro h
    refine ⟨h.count, fun hsched => ?_⟩
    obtain ⟨n, hn, -⟩ := h.count
    obtain ⟨g, g', ws', hinit⟩ := gompLoopInit_workload (D := D) sched hsched 0 hn
    rw [← h.ntasks hsched _ _ _ _ _ _ _ _ hinit]
    exact g'.ntasks.isLt
  · rintro ⟨⟨n, hn, rfl⟩, hsmall⟩
    exact {
      count := ⟨n, hn, rfl⟩
      begun := by
        intro g team now ws chunkSize r g' ws' hinit hrec
        rw [gompLoopInit_eq hn] at hinit
        have hloops := (gompLoopInitSched_sameTuning hinit).loopStates
        have hbegin := boScheduleBegin_numTasks (readParam_records (canonicalShare ws start fin incr sched chunkSize) r hrec)
          r n (teamNthreads team) now
        unfold Globals.loop at hbegin ⊢
        rw [hloops, hbegin]
      sized := by
        intro g team now ws chunkSize r
        rw [BitVec.ofNat_toNat, BitVec.setWidth_eq]
        exact gompLoopInit_eq hn
      ntasks := by
        intro hsched g team now ws chunkSize r g' ws' hinit
        rw [gompLoopInit_ntasks hsched hn hinit, BitVec.toNat_setWidth, Nat.mod_eq_of_lt (hsmall hsched)] }

/-! ## The unsigned count -/

/-- `num_tasks` of `gomp_loop_ull_init`. A downward loop divides the negated distance by the negated
step, both modulo `2^64`: one, as long as the quotient does not reach two, or zero. -/
def StepsOntoEndUll (up : Bool) (start fin incr : Word) (trip : Nat) : Prop :=
  trip = 0 ∨
    if up then (incr.toNat : Int) ∣ (fin.toNat : Int) - start.toNat
    else trip = 1 ∧ 2 * (-incr).toNat < 2 ^ 64 + (start.toNat - fin.toNat)

theorem numTasksUll_up_iff {start fin incr : Word} (hincr : incr ≠ 0) (hlt : start.toNat < fin.toNat) :
    (fin - start).toNat / incr.toNat = (ullLoop true start fin incr hincr).trip ↔
      (incr.toNat : Int) ∣ (fin.toNat : Int) - start.toNat := by
  have hb : Before (ullStep true incr) start.toNat fin.toNat :=
    (before_pos ((ullStep_pos_iff true hincr).2 rfl) _ _).2 (by omega)
  have hpos : 0 < (ullLoop true start fin incr hincr).trip := by
    rw [Nat.pos_iff_ne_zero, Ne, Loop.trip_eq_zero_iff]
    exact fun h => h hb
  have hstep : (ullLoop true start fin incr hincr).incr = incr.toNat := rfl
  have hdist : (ullLoop true start fin incr hincr).fin - (ullLoop true start fin incr hincr).start =
    (fin.toNat : Int) - start.toNat := rfl
  rw [← hstep, ← hdist, ← Loop.tdiv_eq_trip_iff _ hpos, hdist, hstep, toNat_sub_of_le (by omega),
    Int.tdiv_eq_ediv_of_nonneg (by omega), ← Int.ofNat_sub (by omega), ← Int.natCast_ediv, Int.natCast_inj]

theorem numTasksUll_down_iff {start fin incr : Word} (hincr : incr ≠ 0) (hlt : fin.toNat < start.toNat) :
    (fin - start).toNat / incr.toNat = (ullLoop false start fin incr hincr).trip ↔
      (ullLoop false start fin incr hincr).trip = 1 ∧ 2 * (-incr).toNat < 2 ^ 64 + (start.toNat - fin.toNat) := by
  have hneg : (-incr).toNat = 2 ^ 64 - incr.toNat := by
    have := toNat_ne_zero hincr
    have := incr.isLt
    rw [BitVec.toNat_neg]
    omega
  have hdist : (fin - start).toNat = 2 ^ 64 - (start.toNat - fin.toNat) := by
    have := start.isLt
    rw [BitVec.toNat_sub]
    omega
  have hi0 := toNat_ne_zero hincr
  have hi := incr.isLt
  have hs := start.isLt
  have hnot : ¬ 0 < ullStep false incr := fun h => nomatch (ullStep_pos_iff false hincr).1 h
  have hk : ∀ k : Nat, fin.toNat + k * (-incr).toNat < start.toNat ↔ k < (ullLoop false start fin incr hincr).trip := by
    intro k
    rw [← Loop.before_fin_iff]
    show _ ↔ Before (ullStep false incr) ((start.toNat : Int) + k * -((-incr).toNat : Int)) fin.toNat
    rw [before_neg hnot]
    zify
    constructor <;> intro h <;> linarith
  have h0 := hk 0
  have h1 := hk 1
  rw [zero_mul, add_zero] at h0
  rw [one_mul] at h1
  constructor
  · intro hq
    have hle : (start.toNat - fin.toNat) ≤ (-incr).toNat := by
      by_contra hgt
      -- two iterations or more, and a quotient of zero
      rw [Nat.div_eq_of_lt (by omega)] at hq
      omega
    have htrip : (ullLoop false start fin incr hincr).trip = 1 := by omega
    refine ⟨htrip, ?_⟩
    rw [htrip] at hq
    have := Nat.lt_mul_div_succ (fin - start).toNat (by omega : 0 < incr.toNat)
    rw [hq] at this
    omega
  · rintro ⟨htrip, hsmall⟩
    rw [htrip]
    exact Nat.div_eq_of_lt_le (by omega) (by omega)

theorem numTasksUll_eq_trip_iff {up : Bool} {start fin incr : Word} (hincr : incr ≠ 0) :
    (∃ n, uldiv (canonicalEndUll up start fin - start) incr = some n ∧
        n.toNat = (ullLoop up start fin incr hincr).trip) ↔
      StepsOntoEndUll up start fin incr (ullLoop up start fin incr hincr).trip := by
  have hdiv : (∃ n, uldiv (canonicalEndUll up start fin - start) incr = some n ∧
      n.toNat = (ullLoop up start fin incr hincr).trip) ↔
      (canonicalEndUll up start fin - start).toNat / incr.toNat = (ullLoop up start fin incr hincr).trip := by
    have hz : ¬ incr = 0#64 := hincr
    unfold uldiv
    rw [if_neg hz]
    simp [BitVec.toNat_udiv]
  rw [hdiv, canonicalEndUll_eq hincr]
  unfold StepsOntoEndUll
  have htrip := (ullLoop up start fin incr hincr).trip_eq_zero_iff
  change _ ↔ ¬ Before (ullStep up incr) start.toNat fin.toNat at htrip
  by_cases h0 : (ullLoop up start fin incr hincr).trip = 0
  · have hend : (if Before (ullStep up incr) fin.toNat start.toNat then start else fin) = start := by
      split
      · rfl
      · rename_i hnb
        exact BitVec.eq_of_toNat_eq (by exact_mod_cast eq_of_not_before hnb (htrip.1 h0))
    simp [hend, h0]
  · have hb := not_not.1 (htrip.not.1 h0)
    rw [if_neg hb.asymm, or_iff_right h0]
    cases up with
    | true =>
      rw [before_pos ((ullStep_pos_iff true hincr).2 rfl)] at hb
      exact numTasksUll_up_iff hincr (by omega)
    | false =>
      rw [before_neg fun h => nomatch (ullStep_pos_iff false hincr).1 h] at hb
      exact numTasksUll_down_iff hincr (by omega)

/-- The use of the task count in `gomp_loop_ull_init`, with the number of iterations in its place. -/
structure CountsLoopUll (D : Type) [CDouble D] (up : Bool) (start fin incr : Word) (sched : GompScheduleType)
    (trip : Nat) : Prop where
  count : ∃ n, uldiv (canonicalEndUll up start fin - start) incr = some n ∧ n.toNat = trip
  begun : ∀ (g : Globals D) team now ws chunkSize r g' ws',
    gompLoopUllInit g team now ws up start fin incr sched chunkSize r = some (g', ws') →
    isBoSchedule sched = true ∨ g.isBoSchedule = true ∨ g.showLoopStat = true → (g'.loop r).numTasks.toNat = trip
  sized : ∀ (g : Globals D) team now ws chunkSize r,
    gompLoopUllInit g team now ws up start fin incr sched chunkSize r =
      (gompLoopUllInitSched (readParam g (canonicalShareUll ws up start fin incr sched chunkSize) sched r).2 up
        (BitVec.ofNat 64 trip) (teamNthreads team) incr sched).map fun ws' =>
      (boScheduleBegin (readParam g (canonicalShareUll ws up start fin incr sched chunkSize) sched r).1 r
        (BitVec.ofNat 64 trip) (teamNthreads team) now, if up then ws' else { ws' with mode := ws'.mode ||| 2 })

theorem gompLoopUllInit_eq {g : Globals D} {team : Option U32} {now : Int} {ws : GompWorkShare D} {up : Bool}
    {start fin incr n chunkSize : Word} {sched : GompScheduleType} {r : RegionId}
    (hn : uldiv (canonicalEndUll up start fin - start) incr = some n) :
    gompLoopUllInit g team now ws up start fin incr sched chunkSize r =
      (gompLoopUllInitSched (readParam g (canonicalShareUll ws up start fin incr sched chunkSize) sched r).2 up n
        (teamNthreads team) incr sched).map fun ws' =>
      (boScheduleBegin (readParam g (canonicalShareUll ws up start fin incr sched chunkSize) sched r).1 r n
        (teamNthreads team) now, if up then ws' else { ws' with mode := ws'.mode ||| 2 }) := by
  unfold gompLoopUllInit
  show (uldiv (canonicalEndUll up start fin - start) incr).bind _ = _
  rw [hn]
  exact (Option.map_eq_bind ..).symm

theorem countsLoopUll_iff {up : Bool} {start fin incr : Word} (hincr : incr ≠ 0) (sched : GompScheduleType) :
    CountsLoopUll D up start fin incr sched (ullLoop up start fin incr hincr).trip ↔
      StepsOntoEndUll up start fin incr (ullLoop up start fin incr hincr).trip := by
  rw [← numTasksUll_eq_trip_iff hincr]
  generalize (ullLoop up start fin incr hincr).trip = trip
  constructor
  · exact fun h => h.count
  · rintro ⟨n, hn, rfl⟩
    exact {
      count := ⟨n, hn, rfl⟩
      begun := by
        intro g team now ws chunkSize r g' ws' hinit hrec
        rw [gompLoopUllInit_eq hn] at hinit
        obtain ⟨ws₁, -, hinit⟩ := Option.map_eq_some_iff.1 hinit
        cases hinit
        rw [boScheduleBegin_numTasks (readParam_records _ r hrec)]
      sized := by
        intro g team now ws chunkSize r
        rw [BitVec.ofNat_toNat, BitVec.setWidth_eq]
        exact gompLoopUllInit_eq hn }

/-! ## Both widths -/

/-- Where each initialiser counts the iterations of the loop. -/
theorem loopInit_countsLoop_iff {incr : Word} (hincr : incr ≠ 0) :
    (∀ (start fin : Word) (sched : GompScheduleType),
      CountsLoop D start fin incr sched (signedLoop start fin incr hincr).trip ↔
        StepsOntoEnd start fin incr (signedLoop start fin incr hincr).trip ∧
          (sched = .fsBinlpt ∨ sched = .fsHss → (signedLoop start fin incr hincr).trip < 2 ^ 32)) ∧
    (∀ (up : Bool) (start fin : Word) (sched : GompScheduleType),
      CountsLoopUll D up start fin incr sched (ullLoop up start fin incr hincr).trip ↔
        StepsOntoEndUll up start fin incr (ullLoop up start fin incr hincr).trip) :=
  ⟨fun _ _ sched => countsLoop_iff hincr sched, fun _ _ _ sched => countsLoopUll_iff hincr sched⟩

/-- `for (i = 1; i < 7; i += 3)`, both ways. -/
theorem loopInit_countsLoop_three :
    CountsLoop ℚ 1 7 3 .fsFac2 2 ∧ CountsLoopUll ℚ true 1 7 3 .fsFac2 2 := by
  have h := loopInit_countsLoop_iff (D := ℚ) (by decide : (3 : Word) ≠ 0)
  have h1 := (h.1 1 7 .fsFac2).2 ⟨.inr (by decide +kernel), nofun⟩
  have h2 := (h.2 true 1 7 .fsFac2).2 (.inr (by decide +kernel))
  exact ⟨h1, h2⟩

/-- `for (i = 0; i < 4; i += 3)` runs two iterations and counts one. -/
theorem loopInit_miscounts :
    (signedLoop 0 4 3 (by decide)).trip = 2 ∧ numTasks 0 4 3 = some 1 ∧ ¬ CountsLoop ℚ 0 4 3 .fsFac2 2 ∧
      (ullLoop false 4 0 (-3) (by decide)).trip = 2 ∧ ¬ CountsLoopUll ℚ false 4 0 (-3) .fsFac2 2 := by
  refine ⟨by decide, by decide, fun h => ?_, by decide, fun h => ?_⟩
  · obtain ⟨n, hn, hnt⟩ := h.count
    cases (by decide : numTasks 0 4 3 = some 1).symm.trans hn
    exact absurd hnt (by decide)
  · obtain ⟨n, hn, hnt⟩ := h.count
    cases (by decide : uldiv (canonicalEndUll false 4 0 - 4) (-3) = some 0).symm.trans hn
    exact absurd hnt (by decide)

end Bosched
