/-
The teams of a program: the initial thread and the teams its threads start, nested at will. A member
that has started a team waits until all of that team's members are in the barrier of `gomp_team_end`.
The thread count `gomp_loop_init` reads is that of the team whose threads run the loop, except for a
combined loop, which it initialises before `gomp_team_start` installs the team.
-/
import Bosched.Team.Invariant
import Bosched.Runtime.LoopInit
import Bosched.Runtime.Exact

namespace Bosched

open Lib

/-! ## Teams -/

/-- A team with the constructs it runs; `outer` is the team of the thread that started it, and `away`
the team a member has started and waits for. -/
structure Team where
  region : Region
  outer : Option U32
  cfg : Cfg Nat TeamShared Member TeamEvent
  away : Nat → Option Nat

def Team.start (R : Region) (outer : Option U32) : Team := ⟨R, outer, teamStart R outer, fun _ => none⟩

/-- All members are in the barrier of `gomp_team_end`. -/
def Team.Done (T : Team) : Prop := ∀ i < T.region.size, (T.cfg.loc i).status = .finished ∧ T.away i = none

instance (T : Team) : Decidable T.Done := inferInstanceAs (Decidable (∀ _ < _, _ ∧ _))

/-- `gomp_loop_init` in `gomp_parallel_loop_start`; a plain `GOMP_parallel` initialises no loop. -/
def gompParallelLoopStart : Region → Option TeamEvent
  | .parallelLoop _ c _ => c.begins.map (.begin · 0)
  | _ => none

/-! ## The steps of a program -/

inductive ForestAction
  | act (a : TeamAction)
  | fork (R : Region)
  | join

/-- Thread `x` is member `x.2` of team `x.1`. A member may start a team wherever it is, since it may run
an explicit task while it waits. -/
def forestStep : Prog (Nat × Nat) ForestAction (List Team) Unit TeamEvent := fun x a F _ =>
  (F[x.1]?).bind fun T =>
    match a, T.away x.2 with
    | .act a, none =>
      (teamStep T.region x.2 a T.cfg.shared (T.cfg.loc x.2)).map fun r =>
        (F.set x.1 { T with cfg := ⟨r.1, Function.update T.cfg.loc x.2 r.2.1, logged T.cfg.log x.2 r.2.2⟩ }, (), r.2.2)
    | .fork R, none =>
      if x.2 < T.region.size ∧ R.team ≠ none ∧ 0 < R.size then
        some (F.set x.1 { T with away := Function.update T.away x.2 (some F.length) } ++ [Team.start R T.region.team],
          (), gompParallelLoopStart R)
      else none
    | .join, some u =>
      (F[u]?).bind fun U =>
        if U.Done then some (F.set x.1 { T with away := Function.update T.away x.2 none }, (), none) else none
    | _, _ => none

/-- A program at its start: the initial thread with the constructs it meets outside any team. -/
def forestStart (body : List Construct) : Cfg (Nat × Nat) (List Team) Unit TeamEvent :=
  ⟨[Team.start (.initial body) none], fun _ => (), []⟩

/-- What a step does to the teams. -/
inductive ForestRule (x : Nat × Nat) (F : List Team) (T : Team) : ForestAction → List Team → Option TeamEvent → Prop
  | act (a : TeamAction) (s : TeamShared) (m : Member) (e : Option TeamEvent) (haway : T.away x.2 = none)
      (hstep : teamStep T.region x.2 a T.cfg.shared (T.cfg.loc x.2) = some (s, m, e)) :
      ForestRule x F T (.act a)
        (F.set x.1 { T with cfg := ⟨s, Function.update T.cfg.loc x.2 m, logged T.cfg.log x.2 e⟩ }) e
  | fork (R : Region) (haway : T.away x.2 = none) (hx : x.2 < T.region.size) (hR : R.team ≠ none) (hsize : 0 < R.size) :
      ForestRule x F T (.fork R)
        (F.set x.1 { T with away := Function.update T.away x.2 (some F.length) } ++ [Team.start R T.region.team])
        (gompParallelLoopStart R)
  | join (u : Nat) (U : Team) (haway : T.away x.2 = some u) (hU : F[u]? = some U) (hdone : U.Done) :
      ForestRule x F T .join (F.set x.1 { T with away := Function.update T.away x.2 none }) none

theorem forestStep_rule {x : Nat × Nat} {a : ForestAction} {F F' : List Team} {l l' : Unit} {e : Option TeamEvent}
    (h : forestStep x a F l = some (F', l', e)) : ∃ T, F[x.1]? = some T ∧ ForestRule x F T a F' e := by
  obtain ⟨T, hT, h⟩ := Option.bind_eq_some_iff.1 h
  refine ⟨T, hT, ?_⟩
  cases a with
  | act a =>
    cases haway : T.away x.2 with
    | some u => simp only [haway, reduceCtorEq] at h
    | none =>
      simp only [haway] at h
      obtain ⟨⟨s, m, e⟩, hstep, h⟩ := Option.map_eq_some_iff.1 h
      cases h
      exact .act a s m e haway hstep
  | fork R =>
    cases haway : T.away x.2 with
    | some u => simp only [haway, reduceCtorEq] at h
    | none =>
      simp only [haway] at h
      by_cases hg : x.2 < T.region.size ∧ R.team ≠ none ∧ 0 < R.size
      · rw [if_pos hg] at h
        cases h
        exact .fork R haway hg.1 hg.2.1 hg.2.2
      · rw [if_neg hg] at h
        cases h
  | join =>
    cases haway : T.away x.2 with
    | none => simp only [haway, reduceCtorEq] at h
    | some u =>
      simp only [haway] at h
      obtain ⟨U, hU, h⟩ := Option.bind_eq_some_iff.1 h
      by_cases hdone : U.Done
      · rw [if_pos hdone] at h
        cases h
        exact .join u U haway hU hdone
      · rw [if_neg hdone] at h
        cases h

/-! ## Every team runs its region -/

/-- Each team is somewhere on a run of its region. -/
def TeamsRun (F : List Team) : Prop :=
  ∀ T ∈ F, 0 < T.region.size ∧ Reach (teamStep T.region) (teamStart T.region T.outer) T.cfg

theorem ForestRule.teamsRun {x : Nat × Nat} {a : ForestAction} {F F' : List Team} {T : Team} {e : Option TeamEvent}
    (hr : ForestRule x F T a F' e) (hT : F[x.1]? = some T) (h : TeamsRun F) : TeamsRun F' := by
  obtain ⟨hsize, hrun⟩ := h T (List.mem_of_getElem? hT)
  cases hr with
  | act a s m e haway hstep =>
    intro U hU
    rcases List.mem_or_eq_of_mem_set hU with hU | rfl
    · exact h U hU
    · exact ⟨hsize, hrun.tail (.mk x.2 a hstep)⟩
  | fork R haway hx hR hR0 =>
    intro U hU
    rcases List.mem_append.1 hU with hU | hU
    · rcases List.mem_or_eq_of_mem_set hU with hU | rfl
      · exact h U hU
      · exact ⟨hsize, hrun⟩
    · rw [List.mem_singleton.1 hU]
      exact ⟨hR0, .refl⟩
  | join u U haway hU hdone =>
    intro V hV
    rcases List.mem_or_eq_of_mem_set hV with hV | rfl
    · exact h V hV
    · exact ⟨hsize, hrun⟩

theorem teamsRun_reach {body : List Construct} {c : Cfg (Nat × Nat) (List Team) Unit TeamEvent}
    (h : Reach forestStep (forestStart body) c) : TeamsRun c.shared := by
  induction h with
  | refl =>
    intro T hT
    rw [List.mem_singleton.1 hT]
    exact ⟨Nat.one_pos, .refl⟩
  | tail _ hs ih =>
    cases hs with
    | mk x a hp =>
      obtain ⟨T, hT, hr⟩ := forestStep_rule hp
      exact hr.teamsRun hT ih

/-! ## The thread count of a loop -/

/-- `gomp_loop_init` reads the team of the thread that calls it: for a combined loop, the one outside. -/
theorem sizedFor_reach {R : Region} {outer : Option U32} {c : Cfg Nat TeamShared Member TeamEvent}
    (h : Reach (teamStep R) (teamStart R outer) c) {k : Nat} (hk : k < c.shared.started) :
    c.shared.sizedFor k = if R.preInit then outer else R.team := by
  induction h with
  | refl =>
    by_cases hR : R.preInit = true
    · rw [if_pos hR]; rfl
    · have hk : k < if R.preInit then 1 else 0 := hk
      rw [if_neg hR] at hk
      cases hk
  | @tail d _ hd hs ih =>
    cases hs with
    | mk i a hp =>
      obtain ⟨hi, hr⟩ := teamStep_rule hp
      cases hr with
      | first c hc hb hR hpos =>
        have heq : (d.loc i).pos = d.shared.started := le_antisymm ((TeamInv.reach hd).member i hi).pos_le (not_lt.1 hpos)
        show Function.update d.shared.sizedFor _ _ k = _
        by_cases hki : k = (d.loc i).pos
        · rw [hki, Function.update_self, hR, if_neg Bool.false_ne_true]
        · have hk : k < d.shared.started + 1 := hk
          rw [Function.update_of_ne hki]
          exact ih (by omega)
      | _ => exact ih hk

variable {D : Type} [CDouble D]

/-- Every loop of the team is sized for as many threads as the team has, and the `thread_start` that
`gomp_loop_init` allocates for it has an entry for every team id. -/
def Sized (D : Type) [CDouble D] (T : Team) : Prop :=
  ∀ k < T.cfg.shared.started, teamNthreads (T.cfg.shared.sizedFor k) = teamNthreads T.region.team ∧
    ∀ (g g' : Globals D) (now : Int) (ws ws' : GompWorkShare D) (start fin incr chunkSize : Word) (r : RegionId),
      gompLoopInit g (T.cfg.shared.sizedFor k) now ws start fin incr .fsBinlpt chunkSize r = some (g', ws') →
        ∀ i < T.region.size, i < ws'.threadStart.length

theorem gompLoopInit_threadStart {g g' : Globals D} {team : Option U32} {now : Int} {ws ws' : GompWorkShare D}
    {start fin incr chunkSize : Word} {r : RegionId}
    (h : gompLoopInit g team now ws start fin incr .fsBinlpt chunkSize r = some (g', ws')) :
    ws'.threadStart.length = (teamNthreads team).toNat := by
  obtain ⟨n, -, hs⟩ := gompLoopInit_some h
  obtain ⟨⟨g₁, map⟩, -, hs⟩ := Option.bind_eq_some_iff.1 hs
  cases hs
  exact List.length_replicate

/-- A combined loop is started with as many threads as the team of the thread that starts it. -/
def StartedAlike (T : Team) : Prop := T.region.preInit = true → T.outer.getD 1 = T.region.team.getD 1

theorem teamNthreads_inj {a b : Option U32} (h : teamNthreads a = teamNthreads b) : a.getD 1 = b.getD 1 := by
  unfold teamNthreads at h
  have hnat := congrArg BitVec.toNat h
  simp only [BitVec.toNat_setWidth] at hnat
  apply BitVec.eq_of_toNat_eq
  omega

/-- In every run of a program the loops of its teams are sized for their own threads just where every
combined loop is started with the thread count of the team it is started from. -/
theorem sized_iff {body : List Construct} {c : Cfg (Nat × Nat) (List Team) Unit TeamEvent}
    (h : Reach forestStep (forestStart body) c) :
    (∀ T ∈ c.shared, Sized D T) ↔ ∀ T ∈ c.shared, StartedAlike T := by
  refine forall_congr' fun T => imp_congr_right fun hT => ?_
  obtain ⟨-, hrun⟩ := teamsRun_reach h T hT
  have hinv := TeamInv.reach hrun
  constructor
  · intro hs hpre
    have hone : 0 < T.cfg.shared.started := by
      rw [hinv.preInit hpre]
      cases hR : T.region with
      | parallelLoop n c b => exact Nat.one_pos
      | _ => rw [hR] at hpre; cases hpre
    have hcount := (hs 0 hone).1
    rw [sizedFor_reach hrun hone, if_pos hpre] at hcount
    exact teamNthreads_inj hcount
  · intro hs k hk
    have hcount : teamNthreads (T.cfg.shared.sizedFor k) = teamNthreads T.region.team := by
      rw [sizedFor_reach hrun hk]
      by_cases hpre : T.region.preInit = true
      · rw [if_pos hpre]
        unfold teamNthreads
        rw [hs hpre]
      · rw [if_neg hpre]
    refine ⟨hcount, fun g g' now ws ws' start fin incr chunkSize r hinit i hi => ?_⟩
    rw [gompLoopInit_threadStart hinit, hcount]
    have hsize : T.region.size = (teamNthreads T.region.team).toNat := by
      unfold Region.size teamNthreads
      rw [BitVec.toNat_setWidth]
      omega
    omega

instance (T : Team) : Decidable (StartedAlike T) := inferInstanceAs (Decidable (_ → _))

/-- A combined loop without iterations. -/
def emptyLoop : Construct := ⟨some 7, 7, .nowait, true, false, 0⟩

/-- Two threads of a team of two each run a combined loop with two threads. -/
theorem sized_nested : ∃ c, Reach forestStep (forestStart []) c ∧ c.shared.length = 3 ∧ ∀ T ∈ c.shared, Sized ℚ T := by
  have hrun : (exec forestStep (forestStart [])
      [((0, 0), .fork (.parallel 2 [])), ((1, 1), .fork (.parallelLoop 2 emptyLoop true))]).any (fun c =>
        decide (c.shared.length = 3 ∧ ∀ T ∈ c.shared, StartedAlike T)) = true := by
    decide +kernel
  obtain ⟨c, hc, hlen, halike⟩ := exists_reach hrun
  exact ⟨c, hc, hlen, (sized_iff hc).2 halike⟩

/-- A combined loop that the initial thread starts with two threads is sized for one. -/
theorem forked_not_sized :
    ¬∀ (body : List Construct) c, Reach forestStep (forestStart body) c → ∀ T ∈ c.shared, Sized ℚ T := by
  intro h
  have hrun : (exec forestStep (forestStart []) [((0, 0), .fork (.parallelLoop 2 emptyLoop true))]).any (fun c =>
      decide (∃ T ∈ c.shared, 0 < T.cfg.shared.started ∧
        teamNthreads (T.cfg.shared.sizedFor 0) ≠ teamNthreads T.region.team)) = true := by
    decide +kernel
  obtain ⟨c, hc, T, hT, hone, hne⟩ := exists_reach hrun
  exact hne (h [] c hc T hT 0 hone).1

end Bosched
