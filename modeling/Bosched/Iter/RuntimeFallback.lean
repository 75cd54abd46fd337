/-
When a BO-scheduled loop with the static fallback is run by its whole team on one side, and every iteration is executed
once. The parameter that decides is the one stored before the loop; a thread that asks after the work share was
initialised for the BO schedule gets its answer from the parameter that was evaluated there.
-/
import Bosched.Iter.CasExit
import Bosched.Iter.RuntimeRuns
import Bosched.State.Run

namespace Bosched

open Lib

/-! ## The three iterators -/

/-- Where a thread stands in a compare-and-swap iterator. -/
def casOf : StartLocal → Local
  | .cas _ loc => loc
  | _ => .idle

/-- Where a thread stands in the dynamic iterator. -/
def dynOf : StartLocal → DynLocal
  | .dyn loc => loc
  | .finished => .stopped
  | _ => .idle

/-- The `static_trip` a thread goes on with: `gomp_loop_static_start` sets it to zero. -/
def tripOf (trip : Word) : StartLocal → Option Word
  | .static => some trip
  | .finished => none
  | _ => some 0

section

variable {D : Type} [CDouble D] {P : Nat} {ws' : GompWorkShare D} {team : Option U32}

theorem carries_static (hsched : ws'.sched = .gfsStatic) :
    Carries team ws' true .static (staticIter ws' (teamNthreads team) : Prog (Fin P) Unit Cells (Option Word) Ret) id
      tripOf (some 0) (· ≠ none) where
  enter _ := rfl
  arrive _ _ := rfl
  init _ _ := rfl
  starts h := by rw [h rfl]; rfl
  lives := by
    intro trip loc hin
    cases loc with
    | static => nofun
    | enter | arrive | init | cas | dyn | finished => exact absurd hin id
  step := by
    intro i cells cells' trip trip' loc loc' next r hin hit hnext
    cases loc with
    | static =>
      obtain ⟨⟨t, ret⟩, hcall, hit⟩ := Option.bind_eq_some_iff.1 hit
      cases hit
      have htrip : tripOf trip' next = if ret = none then none else some trip' := by
        cases ret with
        | none =>
          cases hnext
          rfl
        | some ch =>
          rw [if_neg (Option.some_ne_none _)]
          have hnext : iteratorOf ws'.sched = some next := hnext
          rw [hsched] at hnext
          cases hnext
          rfl
      rw [htrip]
      show staticIter ws' (teamNthreads team) i () cells (some trip) = _
      simp only [staticIter, hcall]
      rfl
    | enter | arrive | init | cas | dyn | finished => exact absurd hin id
  goes := by
    intro i cells trip loc hin hsome
    cases loc with
    | static =>
      change (staticIter ws' (teamNthreads team) i () cells (some trip)).isSome at hsome
      obtain ⟨r, hr⟩ := Option.isSome_iff_exists.1 hsome
      obtain ⟨x, hx, -⟩ := Option.bind_eq_some_iff.1 hr
      simp only [StartLocal.iterate, hx]
      rfl
    | enter | arrive | init | cas | dyn | finished => exact absurd hin id

theorem carries_cas {it : CasIter} (hsched : iteratorOf ws'.sched = some (.cas it .idle)) :
    Carries team ws' false (.cas it .idle) (boIterNext it ws' team : Prog (Fin P) Unit Cells Local Ret) id
      (fun _ => casOf) .idle (fun _ => True) where
  enter _ := rfl
  arrive _ _ := rfl
  init _ _ := rfl
  starts _ := rfl
  lives _ := trivial
  step := by
    intro i cells cells' trip trip' loc loc' next r hin hit hnext
    cases loc with
    | cas it' loc =>
      obtain rfl : it = it' := hin
      obtain ⟨⟨s, loc₁, r₁⟩, hcall, hit⟩ := Option.bind_eq_some_iff.1 hit
      cases hit
      show boIterNext it ws' team i () cells loc = _
      rw [hcall]
      match r with
      | none =>
        cases hnext
        rfl
      | some none =>
        cases hnext
        rw [boIterNext_returns hcall]
        rfl
      | some (some _) =>
        obtain rfl : StartLocal.cas it .idle = next := Option.some.inj (hsched.symm.trans hnext)
        rw [boIterNext_returns hcall]
        rfl
    | enter | arrive | init | static | dyn | finished => exact absurd hin id
  goes := by
    intro i cells trip loc hin hsome
    cases loc with
    | cas it' loc =>
      obtain rfl : it = it' := hin
      obtain ⟨r, hr⟩ := Option.isSome_iff_exists.1 hsome
      change boIterNext it ws' team i () cells loc = some r at hr
      simp only [StartLocal.iterate, hr]
      rfl
    | enter | arrive | init | static | dyn | finished => exact absurd hin id

theorem carries_dyn (hsched : iteratorOf ws'.sched = some (.dyn .idle)) :
    Carries team ws' false (.dyn .idle) (gompIterDynamicNext ws' : Prog (Fin P) Unit Word DynLocal Ret) (·.next)
      (fun _ => dynOf) .idle (· ≠ .stopped) where
  enter _ := rfl
  arrive _ _ := rfl
  init _ _ := rfl
  starts _ := rfl
  lives := by
    intro trip loc hin
    cases loc with
    | dyn loc => exact hin
    | enter | arrive | init | static | cas | finished => exact absurd hin id
  step := by
    intro i cells cells' trip trip' loc loc' next r hin hit hnext
    cases loc with
    | dyn loc =>
      obtain ⟨⟨s, loc₁, r₁⟩, hcall, hit⟩ := Option.bind_eq_some_iff.1 hit
      cases hit
      have hiter : dynamicIter false ws' i () cells.next loc = some (s, loc₁, r) := hcall
      show gompIterDynamicNext ws' i () cells.next loc = _
      rw [hcall]
      rcases dynamicIter_cases ws' hiter with ⟨rfl, rfl⟩ | ⟨ch, rfl, rfl⟩ | ⟨rfl, -⟩
      · cases hnext
        rfl
      · obtain rfl : StartLocal.dyn .idle = next := Option.some.inj (hsched.symm.trans hnext)
        rfl
      · cases hnext
        rfl
    | enter | arrive | init | static | cas | finished => exact absurd hin id
  goes := by
    intro i cells trip loc hin hsome
    cases loc with
    | dyn loc =>
      obtain ⟨r, hr⟩ := Option.isSome_iff_exists.1 hsome
      change gompIterDynamicNext ws' i () cells.next loc = some r at hr
      simp only [StartLocal.iterate, hr]
      rfl
    | enter | arrive | init | static | cas | finished => exact absurd hin id

end

/-! ## Initialising the work share -/

section

variable {D : Type} [CDouble D] {a : RuntimeLoop D} {g : Globals D} {n : Word} {P : Nat}

theorem boScheduleBegin_param (g : Globals D) (r : RegionId) (n p : Word) (now : Int) :
    ((boScheduleBegin g r n p now).loop r).param = (g.loop r).param := by
  rw [boScheduleBegin_loop, if_pos rfl]
  split <;> rfl

theorem boScheduleBegin_fallback (g : Globals D) (r : RegionId) (n p : Word) (now : Int) :
    (boScheduleBegin g r n p now).fallback = g.fallback := by
  unfold boScheduleBegin profilingInit
  simp only
  split <;> split <;> rfl

/-- The parameter is the one before the loop, or the one that was evaluated. -/
theorem Decides.begin {r : RegionId} {b : Bool} (h : Decides r b g) (n p : Word) (now : Int) :
    Decides r b (boScheduleBegin g r n p now) where
  isEval := (boScheduleBegin_flags g r n p now).2.2.2.1.trans h.isEval
  fallback := (boScheduleBegin_fallback g r n p now).trans h.fallback
  param := by rw [boScheduleBegin_param]; exact h.param

theorem Decides.evaluated {r : RegionId} {b b' : Bool} (h : Decides r b g)
    (heval : CDouble.lt (g.loop r).evalParam (0.00001 : D) = b') : Decides r b' (boScheduleParameter g r true).1 where
  isEval := h.isEval
  fallback := h.fallback
  param := by
    rw [boScheduleParameter_loop, if_pos rfl]
    simp only [h.isEval, if_true]
    rw [← heval]
    split <;> rfl

/-- The parameter a BO schedule gets. -/
theorem Decides.parameter {r : RegionId} {b : Bool} (h : Decides r b g) :
    (boScheduleParameter g r true).2 = (g.loop r).evalParam := by
  unfold boScheduleParameter
  simp only [h.isEval, Bool.and_self, if_true]
  split <;> rfl

/-- The schedules that `bo_fallback_static` is asked for have nothing to look up. -/
theorem exists_initSched (g : Globals D) (ws : GompWorkShare D) (n p start incr : Word) {sched : GompScheduleType}
    (r : RegionId) (hbo : isBoSchedule sched = true) : ∃ ws', gompLoopInitSched g ws n p start incr sched r = some (g, ws') := by
  cases sched <;> cases hbo <;> exact ⟨_, rfl⟩

theorem exists_call {sched : GompScheduleType} (hbo : isBoSchedule sched = true) :
    ∃ call, iteratorOf sched = some call ∧ call ≠ .static := by
  cases sched <;> cases hbo <;> exact ⟨_, rfl, nofun⟩

/-- The work share of the fallback. -/
def RuntimeLoop.staticShare (a : RuntimeLoop D) : GompWorkShare D :=
  canonicalShare a.recycled a.start a.fin a.incr .gfsStatic (a.chunkSize.signExtend 64)

theorem agreed_static (hbo : isBoSchedule a.sched = true) (h : Decides a.regionId true g)
    (hn : numTasks a.start a.fin a.incr = some n) : ∃ g', Agreed a P g true g' a.staticShare .static := by
  refine ⟨boScheduleBegin (asked g a.regionId) a.regionId n (teamNthreads a.team) a.now, ?_⟩
  exact {
    bo := hbo
    before := h
    init := gompLoopInit_eq hn
    after := .inr (h.asked.begin _ _ _)
    sched := rfl
    iterator := rfl
    static := rfl }

/-- The state that initialising for the BO schedule leaves. -/
def RuntimeLoop.evaluated (a : RuntimeLoop D) (g : Globals D) (n : Word) : Globals D :=
  boScheduleBegin (boScheduleParameter (asked g a.regionId) a.regionId true).1 a.regionId n (teamNthreads a.team) a.now

theorem Decides.init {b b' : Bool} (h : Decides a.regionId b g)
    (heval : CDouble.lt (g.loop a.regionId).evalParam (0.00001 : D) = b') : Decides a.regionId b' (a.evaluated g n) :=
  (h.asked.evaluated (by rw [loop_asked]; exact heval)).begin _ _ _

theorem init_bo (a : RuntimeLoop D) (g : Globals D) : a.init false g =
    gompLoopInit g a.team a.now a.recycled a.start a.fin a.incr a.sched 0 a.regionId := rfl

theorem exists_init (hbo : isBoSchedule a.sched = true) (hn : numTasks a.start a.fin a.incr = some n) :
    ∃ ws', a.init false (asked g a.regionId) = some (a.evaluated g n, ws') := by
  have hread : (readParam (asked g a.regionId) (canonicalShare a.recycled a.start a.fin a.incr a.sched 0) a.sched
      a.regionId).1 = (boScheduleParameter (asked g a.regionId) a.regionId true).1 := by
    unfold readParam isParameterized
    rw [hbo]
    rfl
  obtain ⟨ws', hws⟩ := exists_initSched (a.evaluated g n) (readParam (asked g a.regionId)
    (canonicalShare a.recycled a.start a.fin a.incr a.sched 0) a.sched a.regionId).2 n (teamNthreads a.team) a.start
    a.incr a.regionId hbo
  refine ⟨ws', ?_⟩
  rw [init_bo, gompLoopInit_eq hn, hread]
  exact hws

theorem agreed_bo {g' : Globals D} {ws' : GompWorkShare D} {call : StartLocal} (hbo : isBoSchedule a.sched = true)
    (h : Decides a.regionId false g) (hinit : a.init false (asked g a.regionId) = some (g', ws'))
    (hafter : P ≤ 1 ∨ Decides a.regionId false g') (hcall : iteratorOf a.sched = some call) :
    Agreed a P g false g' ws' call where
  bo := hbo
  before := h
  init := hinit
  after := hafter
  sched := (gompLoopInit_sameLoop hinit).sched
  iterator := hcall
  static := by
    obtain ⟨call', hcall', hne⟩ := exists_call hbo
    obtain rfl := Option.some.inj (hcall.symm.trans hcall')
    exact decide_eq_false hne

end

/-! ## What each side needs -/

/-- The loop of a work share runs the iterations of the loop of the program. -/
theorem eachOnce_shareLoop {start fin incr : Word} (hincr : incr ≠ 0) (cs : List (Int × Int)) :
    EachOnce (shareLoop start fin incr hincr) cs ↔ EachOnce (signedLoop start fin incr hincr) cs := by
  have hvalue : (shareLoop start fin incr hincr).value = (signedLoop start fin incr hincr).value := by
    funext k
    simp only [Loop.value, signedLoop]
  have hchunk : (shareLoop start fin incr hincr).chunk = (signedLoop start fin incr hincr).chunk := by
    funext c
    simp only [Loop.chunk, signedLoop]
  unfold EachOnce Loop.values
  rw [hvalue, hchunk, shareLoop_trip]

section

variable {D : Type} [CDouble D] {P : Nat} {a : RuntimeLoop D} {g g' : Globals D} {ws' : GompWorkShare D} {call : StartLocal}
  {trips : Fin P → Word}

omit [CDouble D] in
theorem RunsTogether.congr {p : Prog (Fin P) Unit (LoopTeam D) (Word × StartLocal) StartEvent} {l l' : Loop}
    {c₀ : Cfg (Fin P) (LoopTeam D) (Word × StartLocal) StartEvent} (hl : ∀ cs, EachOnce l cs ↔ EachOnce l' cs) :
    RunsTogether p l c₀ ↔ RunsTogether p l' c₀ := by
  constructor
  · exact fun h => ⟨h.sides, h.ends, fun hr hfin => (hl _).1 (h.once hr hfin)⟩
  · exact fun h => ⟨h.sides, h.ends, fun hr hfin => (hl _).2 (h.once hr hfin)⟩

variable (hP : (teamNthreads a.team).toNat = P) (hpos : 0 < P) (hincr : a.incr ≠ 0)

include hP hpos

theorem Agreed.static_iff (h : Agreed a P g true g' a.staticShare .static) :
    RunsTogether a.threads (shareLoop a.start a.fin a.incr hincr) (runtimeEntry g trips) ↔
      P = 1 ∨ StaticFits (shareLoop a.start a.fin a.incr hincr) := by
  have hshare : StaticShare a.staticShare (shareLoop a.start a.fin a.incr hincr) :=
    ⟨rfl, rfl, rfl, not_before_canonicalEnd a.start a.fin hincr⟩
  have hP32 : P < 2 ^ 32 := by
    rw [← hP, teamNthreads, BitVec.toNat_setWidth]
    exact lt_of_le_of_lt (Nat.mod_le _ _) (a.team.getD 1).isLt
  have hint : IntChunk a.staticShare.chunkSize := intChunk_signExtend a.chunkSize
  have hcarries : Carries a.team a.staticShare true .static _ id tripOf (some 0) (· ≠ none) := carries_static (P := P) rfl
  constructor
  · intro hruns
    by_contra hnot
    rw [not_or] at hnot
    obtain ⟨d, hr, htold⟩ := h.told hcarries hruns
    exact hnot.2 (hshare.fits_of_told hP hP32 hint hpos hnot.1 hr htold)
  · intro hfits
    exact h.runsTogether hcarries hpos (hshare.drains hP hP32 hint hpos fun hne => hfits.resolve_left hne) trips

omit hP in
theorem Agreed.cas_iff {it : CasIter} (h : Agreed a P g false g' ws' (.cas it .idle)) :
    RunsTogether a.threads (shareLoop a.start a.fin a.incr hincr) (runtimeEntry g trips) ↔
      (it = .fss → ¬ EmptyBatch (View.long ws') ws') := by
  have hsched : iteratorOf ws'.sched = some (.cas it .idle) := by rw [h.sched]; exact h.iterator
  have hcarries : Carries a.team ws' false (.cas it .idle) _ id (fun _ => casOf) .idle (fun _ => True) :=
    carries_cas (P := P) hsched
  have hit : it ≠ .fac2 := by
    rintro rfl
    revert hsched
    cases ws'.sched <;> exact nofun
  have : Nonempty (Fin P) := ⟨⟨0, hpos⟩⟩
  constructor
  · rintro hruns rfl hempty
    obtain ⟨d, hr, htold⟩ := h.told hcarries hruns
    have hlog : d.log = [] := hempty.silent hr
    have hmem := htold ⟨0, hpos⟩
    rw [hlog] at hmem
    cases hmem
  · intro hbatch
    exact h.runsTogether hcarries hpos (boIterNext_drains hincr h.init hit hbatch) trips

theorem Agreed.dyn_iff (h : Agreed a P g false g' ws' (.dyn .idle)) {s : Nat}
    (hshare : DynShare ws' (shareLoop a.start a.fin a.incr hincr) s (teamNthreads a.team).toNat) :
    RunsTogether a.threads (shareLoop a.start a.fin a.incr hincr) (runtimeEntry g trips) ↔
      0 < s ∨ (shareLoop a.start a.fin a.incr hincr).trip = 0 := by
  have hsched : iteratorOf ws'.sched = some (.dyn .idle) := by rw [h.sched]; exact h.iterator
  have hcarries : Carries a.team ws' false (.dyn .idle) _ (·.next) (fun _ => dynOf) .idle (· ≠ .stopped) :=
    carries_dyn (P := P) hsched
  have : Nonempty (Fin P) := ⟨⟨0, hpos⟩⟩
  rw [hP, ← Fintype.card_fin P] at hshare
  constructor
  · intro hruns
    obtain ⟨d, hr, htold⟩ := h.told hcarries hruns
    obtain ⟨q, -, hdone⟩ := hshare.strided false hr
    have htrip := hdone ⟨0, hpos⟩ (htold _)
    rcases Nat.eq_zero_or_pos s with rfl | hs
    · rw [Nat.mul_zero] at htrip
      exact .inr (Nat.le_zero.1 htrip)
    · exact .inl hs
  · intro hs
    exact h.runsTogether hcarries hpos (gompIterDynamicNext_drains hshare hs) trips

end

/-! ## The BO side -/

/-- The first cut of a loop of no tasks: `PF * incr` of the batch, or the chunk. -/
def RuntimeLoop.firstCut {D : Type} [CDouble D] (a : RuntimeLoop D) (param : D) : Word :=
  match a.sched with
  | .boFss =>
    fssFirst (CDouble.ofLong 0) (teamNthreads a.team) (fssTransformRange param) * teamNthreads a.team * a.incr
  | .boCss => cssChunkSize (cssTransformRange param) 0 (teamNthreads a.team)
  | _ => 1

section

variable {D : Type} [CDouble D] {P : Nat} {a : RuntimeLoop D} {g g' : Globals D} {ws' : GompWorkShare D} {n : Word}
  {trips : Fin P → Word}

theorem remaining_of_init (hn : numTasks a.start a.fin a.incr = some n)
    (hinit : a.init false (asked g a.regionId) = some (g', ws')) : (View.long ws').remaining ws'.next = some n := by
  have hsame := gompLoopInit_sameLoop hinit
  have hnext : ws'.next = a.start := hsame.next
  have hfin : ws'.fin = canonicalEnd a.start a.fin a.incr := hsame.fin
  have hinc : ws'.incr = a.incr := hsame.incr
  obtain ⟨d, hd, hdiv⟩ := Option.bind_eq_some_iff.1 hn
  obtain ⟨hfits, -⟩ := lsub_some hd
  unfold lsub at hd
  rw [if_pos hfits] at hd
  cases hd
  show ldiv (ws'.fin - ws'.next) ws'.incr = some n
  rw [hnext, hfin, hinc]
  exact hdiv

/-- The barrier of `BO_FSS`, behind the batch of the parameter that was evaluated. -/
theorem fss_barrier {b : Bool} (hsched : a.sched = .boFss) (h : Decides a.regionId b g)
    (hn : numTasks a.start a.fin a.incr = some n) (hinit : a.init false (asked g a.regionId) = some (g', ws')) :
    ws'.barrier = a.start + fssFirst (CDouble.ofLong n) (teamNthreads a.team)
      (fssTransformRange (g.loop a.regionId).evalParam) * teamNthreads a.team * a.incr := by
  rw [init_bo, gompLoopInit_eq hn, hsched] at hinit
  cases hinit
  have hparam := h.asked.parameter
  rw [loop_asked] at hparam
  rw [← hparam]
  rfl

/-- The chunk of `BO_CSS`. -/
theorem css_chunk {b : Bool} (hsched : a.sched = .boCss) (h : Decides a.regionId b g)
    (hn : numTasks a.start a.fin a.incr = some n) (hinit : a.init false (asked g a.regionId) = some (g', ws')) :
    ws'.chunkSize = cssChunkSize (cssTransformRange (g.loop a.regionId).evalParam) n (teamNthreads a.team) * a.incr := by
  rw [init_bo, gompLoopInit_eq hn, hsched] at hinit
  cases hinit
  have hparam := h.asked.parameter
  rw [loop_asked] at hparam
  rw [← hparam]
  rfl

/-- The loop has no iterations exactly if it ends at its start. -/
theorem shareLoop_trip_eq_zero_iff {start fin incr : Word} (hincr : incr ≠ 0) :
    (shareLoop start fin incr hincr).trip = 0 ↔ start = canonicalEnd start fin incr := by
  rw [Loop.trip_eq_zero_iff]
  constructor
  · intro hnot
    exact (BitVec.toInt_inj.1 (eq_of_not_before hnot (not_before_canonicalEnd start fin hincr)))
  · intro heq
    show ¬ Before incr.toInt start.toInt (canonicalEnd start fin incr).toInt
    rw [← heq]
    exact before_irrefl _ _

variable (hP : (teamNthreads a.team).toNat = P) (hpos : 0 < P) (hincr : a.incr ≠ 0)

include hP hpos

theorem Decides.bo_iff (hbo : isBoSchedule a.sched = true) (h : Decides a.regionId false g)
    (hn : numTasks a.start a.fin a.incr = some n) (hafter : P ≤ 1 ∨ Decides a.regionId false (a.evaluated g n)) :
    RunsTogether a.threads (shareLoop a.start a.fin a.incr hincr) (runtimeEntry g trips) ↔
      n ≠ 0 ∨ a.start = canonicalEnd a.start a.fin a.incr ∨ a.firstCut (g.loop a.regionId).evalParam ≠ 0 := by
  obtain ⟨ws', hinit⟩ := exists_init (g := g) hbo hn
  have hagreed : ∀ {call}, iteratorOf a.sched = some call → Agreed a P g false (a.evaluated g n) ws' call :=
    fun hcall => agreed_bo hbo h hinit hafter hcall
  have hnext : ws'.next = a.start := (gompLoopInit_sameLoop hinit).next
  have hfin : ws'.fin = canonicalEnd a.start a.fin a.incr := (gompLoopInit_sameLoop hinit).fin
  cases hsched : a.sched
  case boFss =>
    have hfss : Agreed a P g false (a.evaluated g n) ws' (.cas .fss .idle) := hagreed (by rw [hsched]; rfl)
    refine (hfss.cas_iff hpos hincr).trans ?_
    have hbarrier := fss_barrier hsched h hn hinit
    unfold RuntimeLoop.firstCut
    rw [hsched]
    dsimp only
    constructor
    · intro hempty
      by_contra hnot
      rw [not_or, not_or, not_not, not_not] at hnot
      obtain ⟨rfl, hne, hcut⟩ := hnot
      refine hempty rfl ⟨?_, remaining_of_init hn hinit, ?_⟩
      · show ws'.next ≠ ws'.fin
        rw [hnext, hfin]
        exact hne
      · rw [hbarrier, hcut, hnext]
        exact BitVec.add_zero a.start
    · rintro hor - ⟨hstarts, hshort, hbar⟩
      have hn0 : n = 0 := Option.some.inj ((remaining_of_init hn hinit).symm.trans hshort)
      subst hn0
      rcases hor with hne | heq | hcut
      · exact hne rfl
      · refine hstarts ?_
        show ws'.next = ws'.fin
        rw [hnext, hfin]
        exact heq
      · rw [hbarrier, hnext] at hbar
        exact hcut ((BitVec.add_right_inj a.start).1 (hbar.trans (BitVec.add_zero a.start).symm))
  case boTss | boTape =>
    refine ((hagreed (by rw [hsched]; rfl)).cas_iff hpos hincr).trans ?_
    unfold RuntimeLoop.firstCut
    rw [hsched]
    simp
  case boCss =>
    obtain ⟨n', param, hn', -, hshare⟩ := dynShare_of_init hincr (by rw [RuntimeLoop.side, if_neg Bool.false_ne_true, hsched]; rfl) hinit
    obtain rfl : n = n' := Option.some.inj (hn.symm.trans hn')
    refine ((hagreed (by rw [hsched]; rfl)).dyn_iff hP hpos hincr hshare).trans ?_
    have hchunk := css_chunk hsched h hn hinit
    generalize hc : cssChunkSize (cssTransformRange (g.loop a.regionId).evalParam) n (teamNthreads a.team) = c at hchunk
    obtain ⟨hc0, hc1, hclip⟩ : 0 ≤ c.toInt ∧ c.toInt ≤ max n.toInt 1 ∧ (0 < n.toInt → 1 ≤ c.toInt) := by
      rw [← hc]
      exact clip_bounds _ (numTasks_nonneg hn)
    -- the cuts are as long as the chunk
    have hcut : (cssChunkSize param n (teamNthreads a.team)).toNat = c.toNat := by
      have hmul := hshare.chunk
      rw [hchunk, toInt_mul_incr hn hc0 hc1] at hmul
      exact_mod_cast (mul_right_cancel₀ (toInt_ne_zero hincr) hmul).symm
    have hpos_iff : 0 < c.toNat ↔ c ≠ 0 := by
      rw [Nat.pos_iff_ne_zero]
      exact ⟨fun h0 hz => h0 (by rw [hz]; rfl), fun h0 hz => h0 (BitVec.eq_of_toNat_eq hz)⟩
    rw [hcut, hpos_iff, shareLoop_trip_eq_zero_iff hincr]
    have hfirst : a.firstCut (g.loop a.regionId).evalParam =
        cssChunkSize (cssTransformRange (g.loop a.regionId).evalParam) 0 (teamNthreads a.team) := by
      unfold RuntimeLoop.firstCut
      rw [hsched]
    rw [hfirst]
    by_cases hn0 : n = 0
    · subst hn0
      rw [hc]
      constructor
      · rintro (hne | heq)
        · exact .inr (.inr hne)
        · exact .inr (.inl heq)
      · rintro (hne | heq | hne)
        · exact absurd rfl hne
        · exact .inr heq
        · exact .inl hne
    · -- a loop with a task has a chunk
      have hn1 : 0 < n.toInt := lt_of_le_of_ne (numTasks_nonneg hn) fun h0 => toInt_ne_zero hn0 h0.symm
      have hc1 := hclip hn1
      refine ⟨fun _ => .inl hn0, fun _ => .inl ?_⟩
      rintro rfl
      exact absurd hc1 (by decide)
  all_goals
    rw [hsched] at hbo
    cases hbo

end

end Bosched
