/-
Who records observations. `bo_schedule_end` records under the process-global `_is_bo_schedule`, which the
first BO loop of the process sets and nothing resets: from then on every construct that ends records for
the region it names, sections and single regions for region 0.
-/
import Bosched.State.Run
import Bosched.Runtime.Exact

namespace Bosched

open Lib

variable {D : Type} [CDouble D]

/-! ## Executions -/

/-- An execution of a loop: its region, whether it is scheduled by a BO schedule, and with which parameter. -/
structure Execution (D : Type) where
  regionId : RegionId
  isBo : Bool
  param : D

/-- The runtime with the executions that have begun and not ended. -/
structure RuntimeState (D : Type) where
  globals : Globals D
  active : List (Execution D)

/-- A call into the runtime, with the execution an end belongs to: `finish i` ends the loop of the `i`-th
active execution, `sectionsEnd` a construct that is no loop. -/
inductive RuntimeStep (D : Type)
  | call (call : RuntimeCall D)
  | finish (i : Nat) (now : Int)
  | sectionsEnd (now : Int)

/-- The execution a begin starts: `bo_schedule_parameter` gives its parameter. -/
def execution (g : Globals D) (b : LoopBegin) : Execution D :=
  ⟨b.regionId, b.isBo, (boScheduleParameter g b.regionId b.isBo).2⟩

def RuntimeState.step (s : RuntimeState D) : RuntimeStep D → Option (RuntimeState D)
  | .call call =>
    if call.ends.isSome then none
    else do
      let g ← call.run s.globals
      return ⟨g, s.active ++ (call.begins.map (execution s.globals)).toList⟩
  | .finish i now => do
    let e ← s.active[i]?
    return ⟨boScheduleEnd s.globals e.regionId now, s.active.eraseIdx i⟩
  | .sectionsEnd now => some ⟨boScheduleEnd s.globals 0 now, s.active⟩

omit [CDouble D] in
/-- The execution a step ends. -/
def RuntimeStep.ended (s : RuntimeState D) : RuntimeStep D → Option (Execution D)
  | .finish i _ => s.active[i]?
  | _ => none

/-- The observations of region `r` grow by one if the step ends an execution of `r` under a BO schedule, the
parameter being the one it was scheduled with, and not at all otherwise. -/
def PureStep (s s' : RuntimeState D) (step : RuntimeStep D) : Prop :=
  ∀ r, (∃ e t, step.ended s = some e ∧ e.isBo = true ∧ e.regionId = r ∧
      (s'.globals.loop r).obsX = (s.globals.loop r).obsX ++ [e.param] ∧
      (s'.globals.loop r).obsY = (s.globals.loop r).obsY ++ [t]) ∨
    (¬ ∃ e, step.ended s = some e ∧ e.isBo = true ∧ e.regionId = r) ∧
      (s'.globals.loop r).obsX = (s.globals.loop r).obsX ∧ (s'.globals.loop r).obsY = (s.globals.loop r).obsY

/-- Every step of the run is pure. -/
def PureRun : RuntimeState D → List (RuntimeStep D) → Prop
  | _, [] => True
  | s, step :: steps => ∀ s', s.step step = some s' → PureStep s s' step ∧ PureRun s' steps

omit [CDouble D] in
/-- What ends is a BO loop, or no BO loop was initialised yet. -/
def Attributed (s : RuntimeState D) : RuntimeStep D → Prop
  | .call _ => True
  | .finish i _ => s.globals.isBoSchedule = true → ∀ e, s.active[i]? = some e → e.isBo = true
  | .sectionsEnd _ => s.globals.isBoSchedule = false

/-- Every step of the run is attributed. -/
def AttributedRun : RuntimeState D → List (RuntimeStep D) → Prop
  | _, [] => True
  | s, step :: steps => ∀ s', s.step step = some s' → Attributed s step ∧ AttributedRun s' steps

/-! ## The parameter of a region stays -/

/-- The parameter of an active BO execution is still that of its region; with `EVAL` it is `eval_param`. -/
structure ScheduledWith (g : Globals D) (e : Execution D) : Prop where
  flag : g.isBoSchedule = true
  param : e.param = (g.loop e.regionId).param
  eval : g.isEval = true → (g.loop e.regionId).param = (g.loop e.regionId).evalParam

/-- Every active BO execution is scheduled with the parameter of its region. -/
def RuntimeState.Inv (s : RuntimeState D) : Prop := ∀ e ∈ s.active, e.isBo = true → ScheduledWith s.globals e

omit [CDouble D] in
theorem LoopState.begin_param {g : Globals D} (b : LoopBegin) (l : LoopState D) :
    (l.begin g b).param = (if b.isBo && g.isEval then l.evalParam else l.param) ∧
      (l.begin g b).evalParam = l.evalParam := by
  unfold LoopState.begin
  cases b.isBo <;> cases g.isNewFile <;> cases g.isEval <;> simp <;> split <;> exact ⟨rfl, rfl⟩

/-- A call that is no end leaves the parameter of a region, but for `eval_param` with `EVAL`. -/
theorem RuntimeCall.effect_param {g : Globals D} {call : RuntimeCall D} (hc : call.ends = none) (r : RegionId) :
    ((call.effect g r).param = (g.loop r).param ∨ g.isEval = true ∧ (call.effect g r).param = (g.loop r).evalParam) ∧
      (call.effect g r).evalParam = (g.loop r).evalParam := by
  unfold effect
  split
  · split
    · obtain ⟨hp, he⟩ := LoopState.begin_param (g := g) ‹LoopBegin› (g.loop r)
      refine ⟨?_, he⟩
      rw [hp]
      split
      · rename_i hbo
        exact Or.inr ⟨(Bool.and_eq_true_iff.1 hbo).2, rfl⟩
      · exact Or.inl rfl
    · exact ⟨Or.inl rfl, rfl⟩
  · rename_i h
    rw [hc] at h
    cases h
  · exact ⟨Or.inl rfl, rfl⟩

theorem boScheduleEnd_effect (g : Globals D) (r : RegionId) (now : Int) :
    CallEffect g (boScheduleEnd g r now) (.scheduleEnd r now) := by
  have hrun : (RuntimeCall.scheduleEnd r now).run g = some (boScheduleEnd g r now) := rfl
  exact (RuntimeCall.run_cases hrun).effect

/-- What an end does to the states of the regions. -/
theorem boScheduleEnd_loop (g : Globals D) (r r' : RegionId) (now : Int) :
    (boScheduleEnd g r now).loop r' = if r' = r then (g.loop r').finish g now else g.loop r' :=
  (boScheduleEnd_effect g r now).loop r'

theorem ScheduledWith.finish {g : Globals D} {e : Execution D} (h : ScheduledWith g e) (r : RegionId) (now : Int) :
    ScheduledWith (boScheduleEnd g r now) e := by
  have he := boScheduleEnd_effect g r now
  have hsame : ((boScheduleEnd g r now).loop e.regionId).param = (g.loop e.regionId).param ∧
      ((boScheduleEnd g r now).loop e.regionId).evalParam = (g.loop e.regionId).evalParam := by
    rw [boScheduleEnd_loop]
    unfold LoopState.finish
    split <;> [split; skip] <;> exact ⟨rfl, rfl⟩
  refine ⟨?_, h.param.trans hsame.1.symm, fun heval => ?_⟩
  · rw [he.isBoSchedule, h.flag, Bool.true_or]
  · rw [he.isEval] at heval
    rw [hsame.1, hsame.2, h.eval heval]

theorem ScheduledWith.call {g g' : Globals D} {call : RuntimeCall D} {e : Execution D} (h : ScheduledWith g e)
    (hc : call.ends = none) (hs : CallEffect g g' call) : ScheduledWith g' e := by
  obtain ⟨hparam, heval⟩ := RuntimeCall.effect_param (g := g) hc e.regionId
  have hsame : (g'.loop e.regionId).param = (g.loop e.regionId).param := by
    rw [hs.loop]
    rcases hparam with hp | ⟨hev, hp⟩
    · exact hp
    · rw [hp, h.eval hev]
  refine ⟨?_, h.param.trans hsame.symm, fun hev => ?_⟩
  · rw [hs.isBoSchedule, h.flag, Bool.true_or]
  · rw [hs.isEval] at hev
    rw [hsame, hs.loop, heval, h.eval hev]

/-- A new BO execution is scheduled with the parameter of its region. -/
theorem ScheduledWith.start {g g' : Globals D} {call : RuntimeCall D} {b : LoopBegin} (hb : call.begins = some b)
    (hbo : b.isBo = true) (hs : CallEffect g g' call) : ScheduledWith g' (execution g b) := by
  have hloop : g'.loop b.regionId = (g.loop b.regionId).begin g b := by
    rw [hs.loop]
    unfold RuntimeCall.effect
    rw [hb]
    exact if_pos rfl
  obtain ⟨hp, he⟩ := LoopState.begin_param (g := g) b (g.loop b.regionId)
  rw [hbo, Bool.true_and] at hp
  unfold execution
  refine ⟨?_, ?_, fun heval => ?_⟩
  · rw [hs.isBoSchedule]
    unfold RuntimeCall.startsBo
    rw [hb, Option.any_some, hbo, Bool.or_true]
  · rw [hloop, hp, hbo]
    unfold boScheduleParameter
    cases g.isNewFile <;> cases g.isEval <;> rfl
  · rw [hs.isEval] at heval
    rw [hloop, hp, he, if_pos heval]

theorem RuntimeState.Inv.step {s s' : RuntimeState D} {step : RuntimeStep D} (h : s.Inv) (hs : s.step step = some s') :
    s'.Inv := by
  cases step with
  | call call =>
    dsimp only [RuntimeState.step] at hs
    split at hs
    · cases hs
    · rename_i hc
      rw [Bool.not_eq_true, Option.isSome_eq_false_iff, Option.isNone_iff_eq_none] at hc
      obtain ⟨g, hrun, hs⟩ := Option.bind_eq_some_iff.1 hs
      cases hs
      have heffect := (RuntimeCall.run_cases hrun).effect
      intro e he hbo
      rcases List.mem_append.1 he with he | he
      · exact (h e he hbo).call hc heffect
      · obtain ⟨b, hb, rfl⟩ := Option.map_eq_some_iff.1 (Option.mem_toList.1 he)
        exact ScheduledWith.start hb hbo heffect
  | finish i now =>
    obtain ⟨e', -, hs⟩ := Option.bind_eq_some_iff.1 hs
    cases hs
    intro e he hbo
    exact (h e (List.mem_of_mem_eraseIdx he) hbo).finish _ _
  | sectionsEnd now =>
    cases hs
    intro e he hbo
    exact (h e he hbo).finish _ _

/-! ## Pure steps -/

/-- A call that is no end records nothing. -/
theorem pureStep_call {s s' : RuntimeState D} {call : RuntimeCall D} (hs : s.step (.call call) = some s') :
    PureStep s s' (.call call) := by
  dsimp only [RuntimeState.step] at hs
  split at hs
  · cases hs
  · rename_i hc
    rw [Bool.not_eq_true, Option.isSome_eq_false_iff, Option.isNone_iff_eq_none] at hc
    obtain ⟨g, hrun, hs⟩ := Option.bind_eq_some_iff.1 hs
    cases hs
    have heffect := (RuntimeCall.run_cases hrun).effect
    intro r
    have hobs : (call.effect s.globals r).obsX = (s.globals.loop r).obsX ++ (call.observation s.globals r).map (·.1) ∧
        (call.effect s.globals r).obsY = (s.globals.loop r).obsY ++ (call.observation s.globals r).map (·.2) :=
      RuntimeCall.effect_obs r
    obtain ⟨hx, hy⟩ := hobs
    unfold RuntimeCall.observation at hx hy
    rw [hc, ← heffect.loop] at hx hy
    refine Or.inr ⟨?_, by simpa using hx, by simpa using hy⟩
    rintro ⟨e, he, -⟩
    cases he

/-- What an end in region `r` records. -/
theorem boScheduleEnd_obs (g : Globals D) (r r' : RegionId) (now : Int) :
    (g.isBoSchedule = true → r' = r → ((boScheduleEnd g r now).loop r').obsX = (g.loop r').obsX ++ [(g.loop r').param] ∧
      ((boScheduleEnd g r now).loop r').obsY = (g.loop r').obsY ++ [loopStop (g.loop r') now]) ∧
    (g.isBoSchedule = false ∨ r' ≠ r → ((boScheduleEnd g r now).loop r').obsX = (g.loop r').obsX ∧
      ((boScheduleEnd g r now).loop r').obsY = (g.loop r').obsY) := by
  rw [boScheduleEnd_loop]
  unfold LoopState.finish
  constructor
  · intro hflag hr
    rw [if_pos hr, if_pos hflag]
    exact ⟨rfl, rfl⟩
  · rintro (hflag | hr)
    · rw [hflag]
      split <;> exact ⟨rfl, rfl⟩
    · rw [if_neg hr]
      exact ⟨rfl, rfl⟩

/-- An end in region `r` that is not the end of a BO execution is pure only while the flag is not set. -/
theorem pureStep_end_iff {s : RuntimeState D} {step : RuntimeStep D} {active : List (Execution D)} {r : RegionId}
    {now : Int} (hended : ∀ e, step.ended s = some e → e.isBo = false) :
    PureStep s ⟨boScheduleEnd s.globals r now, active⟩ step ↔ s.globals.isBoSchedule = false := by
  have hnot : ∀ r', ¬ ∃ e, step.ended s = some e ∧ e.isBo = true ∧ e.regionId = r' := by
    rintro r' ⟨e, he, hbo, -⟩
    rw [hended e he] at hbo
    cases hbo
  constructor
  · intro hpure
    rw [← Bool.not_eq_true]
    intro hflag
    rcases hpure r with ⟨e, -, he, hbo, hr, -⟩ | ⟨-, hx, -⟩
    · exact hnot r ⟨e, he, hbo, hr⟩
    · have hgrow := ((boScheduleEnd_obs s.globals r r now).1 hflag rfl).1
      dsimp only at hx
      rw [hgrow] at hx
      simp at hx
  · intro hflag r'
    exact Or.inr ⟨hnot r', (boScheduleEnd_obs s.globals r r' now).2 (Or.inl hflag)⟩

theorem pureStep_iff {s s' : RuntimeState D} {step : RuntimeStep D} (h : s.Inv) (hs : s.step step = some s') :
    PureStep s s' step ↔ Attributed s step := by
  cases step with
  | call call => exact ⟨fun _ => trivial, fun _ => pureStep_call hs⟩
  | sectionsEnd now =>
    cases hs
    exact pureStep_end_iff fun e he => by cases he
  | finish i now =>
    obtain ⟨e, he, hs⟩ := Option.bind_eq_some_iff.1 hs
    cases hs
    unfold Attributed
    cases hbo : e.isBo with
    | false =>
      have hended : ∀ e', (RuntimeStep.finish i now).ended s = some e' → e'.isBo = false := by
        intro e' he'
        obtain rfl : e = e' := Option.some.inj (he.symm.trans he')
        exact hbo
      rw [pureStep_end_iff hended, ← Bool.not_eq_true]
      constructor
      · exact fun hflag hf => absurd hf hflag
      · intro hattr hflag
        have hbo' := hattr hflag e he
        rw [hbo] at hbo'
        cases hbo'
    | true =>
      have hw := h e (List.mem_of_getElem? he) hbo
      refine ⟨fun _ _ e' he' => ?_, fun _ r => ?_⟩
      · obtain rfl : e = e' := Option.some.inj (he.symm.trans he')
        exact hbo
      · by_cases hr : r = e.regionId
        · subst hr
          obtain ⟨hx, hy⟩ := (boScheduleEnd_obs s.globals e.regionId e.regionId now).1 hw.flag rfl
          refine Or.inl ⟨e, _, he, hbo, rfl, ?_, hy⟩
          rw [hw.param]
          exact hx
        · refine Or.inr ⟨?_, (boScheduleEnd_obs s.globals e.regionId r now).2 (Or.inr hr)⟩
          rintro ⟨e', he', -, hr'⟩
          obtain rfl : e = e' := Option.some.inj (he.symm.trans he')
          exact hr hr'.symm

theorem pureRun_iff {s : RuntimeState D} (h : s.Inv) (steps : List (RuntimeStep D)) :
    PureRun s steps ↔ AttributedRun s steps := by
  induction steps generalizing s with
  | nil => exact Iff.rfl
  | cons step steps ih =>
    constructor
    · intro hpure s' hs
      exact ⟨(pureStep_iff h hs).1 (hpure s' hs).1, (ih (h.step hs)).1 (hpure s' hs).2⟩
    · intro hattr s' hs
      exact ⟨(pureStep_iff h hs).2 (hattr s' hs).1, (ih (h.step hs)).2 (hattr s' hs).2⟩

/-- Observations are pure in a run if and only if nothing but BO loops ends after the first BO loop was
initialised. -/
theorem observations_pure_iff (g : Globals D) (steps : List (RuntimeStep D)) :
    PureRun ⟨g, []⟩ steps ↔ AttributedRun ⟨g, []⟩ steps :=
  pureRun_iff (fun _ he => by cases he) steps

/-- A BO loop of region 7 runs, then a sections construct ends. -/
def sectionsAfterBo : List (RuntimeStep ℚ) :=
  [.call (.loopInit (some 4) 0 GompWorkShare.zero 0 3 1 .boFss 0 7), .finish 0 5000, .sectionsEnd 9000]

/-- The end of the sections construct records an observation of region 0. -/
theorem sections_recorded : ¬ PureRun ⟨Globals.fresh 4, []⟩ sectionsAfterBo := by
  intro hpure
  have hrun : ((RuntimeState.step ⟨Globals.fresh 4, []⟩
      (.call (.loopInit (some 4) 0 GompWorkShare.zero 0 3 1 .boFss 0 7) : RuntimeStep ℚ)).any fun a =>
        (a.step (.finish 0 5000)).any fun b => b.globals.isBoSchedule && (b.step (.sectionsEnd 9000)).isSome) = true := by
    decide +kernel
  obtain ⟨a, ha, hrun⟩ := (Option.any_eq_true _ _).1 hrun
  obtain ⟨b, hb, hrun⟩ := (Option.any_eq_true _ _).1 hrun
  obtain ⟨hflag, hend⟩ := Bool.and_eq_true_iff.1 hrun
  obtain ⟨c, hc⟩ := Option.isSome_iff_exists.1 hend
  have hattr := (pureRun_iff (fun _ he => by cases he) sectionsAfterBo).1 hpure
  have hclear : b.globals.isBoSchedule = false := (((hattr a ha).2 b hb).2 c hc).1
  rw [hflag] at hclear
  cases hclear

end Bosched
