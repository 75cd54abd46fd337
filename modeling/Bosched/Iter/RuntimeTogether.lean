/-
When every interleaving of a team stays on one side of `bo_fallback_static`. Before the work share is initialised the
answer comes from the parameter stored for the region; initialising it for the BO schedule stores the parameter that was
evaluated, and a thread that asks after that gets its answer from there.
-/
import Bosched.Iter.RuntimeFallback
import Bosched.Runtime.Exact

namespace Bosched

open Lib

/-! ## Teams that do not get through -/

section

variable {D : Type} [CDouble D] {P : Nat} {a : RuntimeLoop D} {g : Globals D} {n : Word} {trips : Fin P → Word}

/-- Where the task count is undefined, nobody gets to an iterator. -/
theorem numTasks_none_unready (hn : numTasks a.start a.fin a.incr = none)
    {c : Cfg (Fin P) (LoopTeam D) (Word × StartLocal) StartEvent} (hr : Reach a.threads (runtimeEntry g trips) c)
    (i : Fin P) : (c.loc i).2 ≠ .finished := by
  have hinit : ∀ b g, a.init b g = none := fun b g => by
    unfold RuntimeLoop.init gompLoopInit
    rw [hn]
    rfl
  have hinv : Invariant (a.threads : Prog (Fin P) Unit (LoopTeam D) (Word × StartLocal) StartEvent)
      (fun s _ => ∀ ws cells, s.share ≠ .ready ws cells) (fun _ _ l => l.2 ≠ .finished) := by
    constructor
    · intro i u s l s' l' e log hG hI hp
      cases threads_step hp with
      | asks => exact ⟨hG, nofun⟩
      | locks => exact ⟨nofun, nofun⟩
      | joins h => exact absurd h (hG _ _)
      | inits h =>
        rw [hinit] at h
        cases h
      | iterates h => exact absurd h (hG _ _)
    · rintro i u s l s' l' e log j m - - - - hm
      exact hm
  have hentry : Holds (fun (s : LoopTeam D) _ => ∀ ws cells, s.share ≠ .ready ws cells) (fun _ _ l => l.2 ≠ .finished)
      (runtimeEntry g trips) := by
    refine ⟨fun ws cells h => ?_, fun i h => ?_⟩
    · cases h
    · cases h
  exact (hinv.reach hentry hr).2 i

/-- A thread that asks before the work share is initialised, and one that asks after that. -/
theorem exists_disagreement (trips : Fin P → Word) (hbo : isBoSchedule a.sched = true) (hP : 1 < P) (h : Decides a.regionId false g)
    (hn : numTasks a.start a.fin a.incr = some n)
    (heval : CDouble.lt (g.loop a.regionId).evalParam (0.00001 : D) = true) :
    ∃ c, Reach a.threads (runtimeEntry g trips) c ∧ ¬ OneSided c.log := by
  let i : Fin P := ⟨0, by omega⟩
  let j : Fin P := ⟨1, hP⟩
  have hij : j ≠ i := fun heq => Nat.one_ne_zero (congrArg Fin.val heq)
  obtain ⟨ws', hinit⟩ := exists_init (g := g) hbo hn
  obtain ⟨call, hcall, -⟩ := exists_call hbo
  let c₀ : Cfg (Fin P) (LoopTeam D) (Word × StartLocal) StartEvent := runtimeEntry g trips
  have h₁ : a.threads i () c₀.shared (c₀.loc i) =
      some (⟨asked g a.regionId, .absent⟩, (trips i, .arrive false), some (.chose false)) := by
    simp only [c₀, runtimeEntry, RuntimeLoop.threads, hbo, h.answer]
    rfl
  obtain ⟨c₁, hs₁, hg₁, hl₁, hother₁, hlog₁⟩ := exists_step h₁
  have h₂ : a.threads i () c₁.shared (c₁.loc i) = some (⟨asked g a.regionId, .locked⟩, (trips i, .init false), none) := by
    rw [hg₁, hl₁]
    rfl
  obtain ⟨c₂, hs₂, hg₂, hl₂, hother₂, hlog₂⟩ := exists_step h₂
  have h₃ : a.threads i () c₂.shared (c₂.loc i) =
      some (⟨a.evaluated g n, .ready ws' ws'.cells⟩, (trips i, call), none) := by
    rw [hg₂, hl₂]
    simp only [RuntimeLoop.threads, hinit]
    show (do return (_, (trips i, ← iteratorOf a.sched), none) : Option _) = _
    rw [hcall]
    rfl
  obtain ⟨c₃, hs₃, hg₃, -, hother₃, hlog₃⟩ := exists_step h₃
  -- the other thread asks now
  have hdec : Decides a.regionId true (a.evaluated g n) := h.init heval
  have hloc : c₃.loc j = (trips j, .enter) := by
    rw [hother₃ j hij, hother₂ j hij, hother₁ j hij]
    rfl
  have h₄ : a.threads j () c₃.shared (c₃.loc j) =
      some (⟨asked (a.evaluated g n) a.regionId, .ready ws' ws'.cells⟩, (0, .arrive true), some (.chose true)) := by
    rw [hg₃, hloc]
    simp only [RuntimeLoop.threads, hbo, hdec.answer]
    rfl
  obtain ⟨c₄, hs₄, -, -, -, hlog₄⟩ := exists_step h₄
  refine ⟨c₄, .head hs₁ (.head hs₂ (.head hs₃ (.single hs₄))), fun hone => ?_⟩
  have hlog : c₄.log = [(i, .chose false), (j, .chose true)] := by
    rw [hlog₄, hlog₃, hlog₂, hlog₁]
    rfl
  rw [hlog] at hone
  have hfalse : false = true := hone.chose (i := i) (j := j) (by simp) (by simp)
  cases hfalse

end

/-! ## Teams that do -/

section

variable {D : Type} [CDouble D]

/-- No thread can get another answer than the first one: it is the fallback, or nobody is there to ask later, or the
answer is the same for the parameter that the BO schedule gets. -/
def SidesAgree (a : RuntimeLoop D) (g : Globals D) : Prop :=
  CDouble.lt (g.loop a.regionId).param (0.00001 : D) = true ∨ teamNthreads a.team = 1 ∨
    CDouble.lt (g.loop a.regionId).evalParam (0.00001 : D) = false

/-- The side that the first answer leads to can run a loop of `n` tasks: `gomp_iter_static_next` does not overflow; a
BO schedule has a task, or no iteration, or a first cut that is not empty. -/
def SideRuns (a : RuntimeLoop D) (g : Globals D) (hincr : a.incr ≠ 0) (n : Word) : Prop :=
  if CDouble.lt (g.loop a.regionId).param (0.00001 : D) = true then
    teamNthreads a.team = 1 ∨ StaticFits (shareLoop a.start a.fin a.incr hincr)
  else n ≠ 0 ∨ a.start = canonicalEnd a.start a.fin a.incr ∨ a.firstCut (g.loop a.regionId).evalParam ≠ 0

/-- With EVAL and FALLBACK set, a team that comes to a BO-scheduled loop stays on one side in every interleaving, gets
through the loop and executes every iteration once, exactly if the parameter stored and the one evaluated lead to one
side, the number of tasks is defined, and that side can run the loop. -/
theorem gompLoopRuntimeStart_together_iff {a : RuntimeLoop D} {g : Globals D} (hbo : isBoSchedule a.sched = true)
    (hteam : a.team ≠ some 0) (hincr : a.incr ≠ 0) (heval : g.isEval = true) (hfallback : g.fallback = true)
    (trips : Fin (teamNthreads a.team).toNat → Word) :
    RunsTogether a.threads (signedLoop a.start a.fin a.incr hincr) (runtimeEntry g trips) ↔
      SidesAgree a g ∧ ∃ n, numTasks a.start a.fin a.incr = some n ∧ SideRuns a g hincr n := by
  have hpos := teamNthreads_pos hteam
  have hone : teamNthreads a.team = 1 ↔ (teamNthreads a.team).toNat = 1 :=
    ⟨fun h => by rw [h]; rfl, fun h => BitVec.eq_of_toNat_eq h⟩
  rw [← RunsTogether.congr (eachOnce_shareLoop hincr)]
  cases hn : numTasks a.start a.fin a.incr with
  | none =>
    constructor
    · intro hruns
      obtain ⟨c, hr, hfin⟩ := hruns.ends .refl
      exact absurd (hfin ⟨0, hpos⟩) (numTasks_none_unready hn hr _)
    · rintro ⟨-, n, hn', -⟩
      cases hn'
  | some n =>
    have hsome : (∃ m, some n = some m ∧ SideRuns a g hincr m) ↔ SideRuns a g hincr n :=
      ⟨fun ⟨m, hm, h⟩ => by rw [Option.some.inj hm]; exact h, fun h => ⟨n, rfl, h⟩⟩
    rw [hsome]
    cases hparam : CDouble.lt (g.loop a.regionId).param (0.00001 : D) with
    | true =>
      obtain ⟨g', hagreed⟩ := agreed_static (P := (teamNthreads a.team).toNat) hbo ⟨heval, hfallback, hparam⟩ hn
      rw [hagreed.static_iff rfl hpos hincr, SideRuns, if_pos hparam, hone]
      exact ⟨fun h => ⟨.inl hparam, h⟩, And.right⟩
    | false =>
      have hdec : Decides a.regionId false g := ⟨heval, hfallback, hparam⟩
      have hne : ¬ CDouble.lt (g.loop a.regionId).param (0.00001 : D) = true := by
        rw [hparam]
        exact Bool.false_ne_true
      rw [SideRuns, if_neg hne]
      by_cases hagree : SidesAgree a g
      · have hafter : (teamNthreads a.team).toNat ≤ 1 ∨ Decides a.regionId false (a.evaluated g n) := by
          rcases hagree with h | h | h
          · exact absurd h hne
          · exact .inl (le_of_eq (hone.1 h))
          · exact .inr (hdec.init h)
        rw [hdec.bo_iff rfl hpos hincr hbo hn hafter]
        exact ⟨fun h => ⟨hagree, h⟩, And.right⟩
      · refine ⟨fun hruns => ?_, fun h => absurd h.1 hagree⟩
        unfold SidesAgree at hagree
        rw [not_or, not_or, Bool.not_eq_false] at hagree
        have hP : 1 < (teamNthreads a.team).toNat :=
          lt_of_le_of_ne hpos fun h => hagree.2.1 (hone.2 h.symm)
        obtain ⟨c, hr, hnot⟩ := exists_disagreement trips hbo hP hdec hn hagree.2.2
        exact absurd (hruns.sides hr) hnot

end

/-! ## `for (i = 0; i < 4; i++)` -/

/-- The loop, under `BO_TAPE` and on two threads. -/
def fourTape : RuntimeLoop ℚ := ⟨7, 0, 4, 1, .boTape, 0, some 2, .zero, 0⟩

/-- EVAL and FALLBACK are set, and for the region `param` is stored and `evalParam` was evaluated. -/
def fallbackTable (param evalParam : ℚ) : Globals ℚ :=
  { (Globals.fresh 2 : Globals ℚ).setLoop 7 { LoopState.zero with param := param, evalParam := evalParam } with
    isEval := true, fallback := true }

/-- The fallback is chosen before and after. -/
theorem gompLoopRuntimeStart_together_static :
    RunsTogether (fourTape.threads : Prog (Fin 2) Unit (LoopTeam ℚ) (Word × StartLocal) StartEvent)
      (signedLoop 0 4 1 (by decide)) (runtimeEntry (fallbackTable 0 0) fun _ => 0) := by
  have hparam : CDouble.lt ((fallbackTable 0 0).loop 7).param (0.00001 : ℚ) = true := by decide +kernel
  have hfits : StaticFits (shareLoop 0 4 1 (by decide)) := by
    have htrip : (shareLoop 0 4 1 (by decide)).trip = 4 := by decide +kernel
    refine ⟨by decide +kernel, by rw [htrip]; decide, by rw [htrip]; decide +kernel⟩
  have hruns : SideRuns fourTape (fallbackTable 0 0) (by decide) 4 := by
    unfold SideRuns
    exact (if_pos hparam).mpr (.inr hfits)
  exact (gompLoopRuntimeStart_together_iff (a := fourTape) (g := fallbackTable 0 0) rfl (by decide) (by decide) rfl rfl _).2
    ⟨.inl hparam, 4, by decide +kernel, hruns⟩

/-- The parameter stored asks for the BO schedule, the one evaluated for the fallback: one thread takes iterations 2 and
3 from `gomp_iter_static_next`, and then the other one takes them from `bo_iter_tape_next`. -/
theorem gompLoopRuntimeStart_not_together :
    (∃ c, Reach (fourTape.threads : Prog (Fin 2) Unit (LoopTeam ℚ) (Word × StartLocal) StartEvent)
        (runtimeEntry (fallbackTable 1 0) fun _ => 0) c ∧ Finished c ∧
      (0, .chose false) ∈ c.log ∧ (1, .chose true) ∈ c.log ∧ (1, .took true (some (2, 4))) ∈ c.log ∧
      (0, .took false (some (2, 3))) ∈ c.log) ∧
    ¬ RunsTogether (fourTape.threads : Prog (Fin 2) Unit (LoopTeam ℚ) (Word × StartLocal) StartEvent)
      (signedLoop 0 4 1 (by decide)) (runtimeEntry (fallbackTable 1 0) fun _ => 0) := by
  let turns : List (Fin 2 × Unit) :=
    [(0, ()), (0, ()), (0, ()), (1, ()), (1, ()), (1, ())] ++ List.replicate 9 (0, ()) ++ [(1, ())]
  have hrun : (exec (fourTape.threads : Prog (Fin 2) Unit (LoopTeam ℚ) (Word × StartLocal) StartEvent)
      (runtimeEntry (fallbackTable 1 0) fun _ => 0) turns).any (fun c => decide ((∀ i, (c.loc i).2 = .finished) ∧
        (0, .chose false) ∈ c.log ∧ (1, .chose true) ∈ c.log ∧ (1, .took true (some (2, 4))) ∈ c.log ∧
        (0, .took false (some (2, 3))) ∈ c.log)) = true := by decide +kernel
  obtain ⟨c, hr, hfin, h0, h1, hstatic, htape⟩ := exists_reach hrun
  refine ⟨⟨c, hr, hfin, h0, h1, hstatic, htape⟩, fun h => ?_⟩
  cases (h.sides hr).chose h0 h1

end Bosched
