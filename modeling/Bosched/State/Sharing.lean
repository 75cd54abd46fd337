/-
Processes of one program that share a state file. `bo_load_data` reads the file when a process starts,
`bo_save_data` writes it when the process ends; the lock file is held around the write alone.
-/
import Bosched.State.Preserve
import Bosched.Lib.Threads

namespace Bosched

open Lib

variable {D : Type}

/-! ## The steps of a process -/

/-- The state file, its lock file, and how often the state file was written. -/
structure SharedFile (D : Type) where
  file : Option (StateFile D)
  lock : Bool
  writes : Nat

/-- How far a process is. `seen` is the number of writes before its load. A process that crashed, did not
get the lock or had nothing to save is gone. -/
inductive Phase (D : Type)
  | start
  | running (seen : Nat) (g : Globals D) (qrng : Nat) (calls : List (RuntimeCall D))
  | saving (seen : Nat) (g : Globals D) (qrng : Nat)
  | locked (seen : Nat) (g : Globals D) (qrng : Nat)
  | written (g : Globals D)
  | saved (g : Globals D)
  | gone

variable [CDouble D] {ι : Type}

/-- The steps of the processes: load, each call, the exclusive create of the lock file, the write, and the
removal of the lock file. -/
def processStep (procs : ι → Process D) : Prog ι Unit (SharedFile D) (Phase D) Unit := fun i _ s phase =>
  match phase with
  | .start =>
    match boLoadData (procs i).env (procs i).sobol s.file with
    | none => some (s, .gone, none)
    | some (g, qrng) => some (s, .running s.writes g qrng (procs i).calls, none)
  | .running seen g qrng (call :: calls) =>
    match call.run g with
    | none => some (s, .gone, none)
    | some g' => some (s, .running seen g' qrng calls, none)
  | .running seen g qrng [] => if g.saves then some (s, .saving seen g qrng, none) else some (s, .gone, none)
  | .saving seen g qrng =>
    if s.lock then some (s, .gone, none) else some ({ s with lock := true }, .locked seen g qrng, none)
  | .locked _ g qrng =>
    some ({ s with file := some (writeLoops (procs i).date qrng g.loopStates), writes := s.writes + 1 },
      .written g, none)
  | .written g => some ({ s with lock := false }, .saved g, none)
  | .saved _ | .gone => none

/-- All processes are about to start. -/
def sharedStart (s : SharedFile D) : Cfg ι (SharedFile D) (Phase D) Unit := ⟨s, fun _ => .start, []⟩

omit [CDouble D] in
/-- The observations `s` of region `r` are in the file. -/
def Present (file : Option (StateFile D)) (r : RegionId) (s : LoopState D) : Prop :=
  ∃ e ∈ fileEntries file, e.id = some r ∧ s.obsX ∈ e.obsX.getD [] ∧ s.obsY ∈ e.obsY.getD []

/-! ## What a write must not lose -/

/-- An entry with an observation. -/
def LoopJson.observed (e : LoopJson D) : Bool := (e.obsX.getD []).any fun v => !v.isEmpty

/-- `read_state` and `write_state` both take the entry along. -/
def Carried (g : Globals D) (e : LoopJson D) : Prop :=
  ¬ e.skipped ∧ (e.id.any fun r => (g.loop r).numTasks ≠ 0#64) = true

instance (g : Globals D) (e : LoopJson D) : Decidable (Carried g e) := by unfold Carried; infer_instance

/-- A process about to write loaded the file as it is now, carries every observed entry of it, and writes
every region it observed. -/
def KeepsUpdates (s : SharedFile D) : Phase D → Prop
  | .locked seen g _ => s.writes = seen ∧ (∀ e ∈ fileEntries s.file, e.observed = true → Carried g e) ∧
      ∀ p ∈ g.loopStates.entries, p.2.obsX.isEmpty = false → p.2.numTasks ≠ 0#64
  | _ => True

instance (s : SharedFile D) (phase : Phase D) : Decidable (KeepsUpdates s phase) := by
  cases phase <;> unfold KeepsUpdates <;> infer_instance

/-- The observations are in the only entry of the region. -/
def Kept (file : Option (StateFile D)) (r : RegionId) (s : LoopState D) : Prop :=
  ∃ e ∈ fileEntries file, e.id = some r ∧ (∀ e' ∈ fileEntries file, e'.id = some r → e' = e) ∧
    s.obsX ∈ e.obsX.getD [] ∧ s.obsY ∈ e.obsY.getD []

/-- `g` is what the process makes of the file it loads. -/
def RanFrom (proc : Process D) (file : Option (StateFile D)) (g : Globals D) : Prop :=
  ∃ g₀ qrng done, boLoadData proc.env proc.sobol file = some (g₀, qrng) ∧ runCalls g₀ done = some g

/-- What holds of a process in every run whose writes keep all updates. -/
def ProcessInv (proc : Process D) (s : SharedFile D) : Phase D → Prop
  | .start | .gone => True
  | .running seen g _ _ => seen ≤ s.writes ∧ (s.writes = seen → RanFrom proc s.file g)
  | .saving seen g _ | .locked seen g _ => seen ≤ s.writes ∧ g.saves ∧ (s.writes = seen → RanFrom proc s.file g)
  | .written g | .saved g => ∀ r, (g.loop r).obsX ≠ [] → Kept s.file r (g.loop r)

theorem runCalls_append (g : Globals D) (a b : List (RuntimeCall D)) :
    runCalls g (a ++ b) = (runCalls g a).bind fun g' => runCalls g' b := by
  induction a generalizing g with
  | nil => rfl
  | cons call a ih =>
    cases h : call.run g with
    | none => simp [runCalls, h]
    | some g' => simp [runCalls, h, ih]

theorem RanFrom.call {proc : Process D} {file : Option (StateFile D)} {g g' : Globals D} {call : RuntimeCall D}
    (h : RanFrom proc file g) (hc : call.run g = some g') : RanFrom proc file g' := by
  obtain ⟨g₀, qrng, done, hload, hrun⟩ := h
  refine ⟨g₀, qrng, done ++ [call], hload, ?_⟩
  rw [runCalls_append, hrun]
  simp [runCalls, hc]

theorem RanFrom.effect {proc : Process D} {file : Option (StateFile D)} {g : Globals D} (h : RanFrom proc file g)
    (hs : g.saves) : ∃ g₀ done, LoadEffect proc.env file g₀ ∧ RunEffect g₀ g done := by
  obtain ⟨g₀, qrng, done, hload, hrun⟩ := h
  have hr := runCalls_effect hrun
  exact ⟨g₀, done, LoadEffect.of_saves hload hr hs, hr⟩

/-- What a process observed is kept by its own write. -/
theorem kept_own {g : Globals D} (date : String) (qrng : Nat)
    (h : ∀ p ∈ g.loopStates.entries, p.2.obsX.isEmpty = false → p.2.numTasks ≠ 0#64) {r : RegionId}
    (hobs : (g.loop r).obsX ≠ []) : Kept (some (writeLoops date qrng g.loopStates)) r (g.loop r) := by
  cases hl : g.loopStates.lookup r with
  | none =>
    unfold Globals.loop at hobs
    rw [hl] at hobs
    exact absurd rfl hobs
  | some st =>
    have hst : g.loop r = st := by
      unfold Globals.loop
      rw [hl, Option.getD_some]
    have hmem := AList.mem_lookup_iff.1 hl
    have hn : (g.loop r).numTasks ≠ 0#64 := by
      rw [hst] at hobs ⊢
      exact h _ hmem (by simpa using hobs)
    obtain ⟨s, hs, hws⟩ := exists_writeLoops date qrng (AList.lookup_isSome.1 (by rw [hl]; rfl)) hn
    refine ⟨s, hs, (writeEntry_some hws).2, fun e he hid => ?_, ?_⟩
    · exact Option.some.inj ((writeEntry_of_mem he hid).2.symm.trans hws)
    · rw [writeEntry_eq hn] at hws
      cases hws
      simp

/-- What another process observed is kept by a write that carries its entry. -/
theorem kept_carried {env : Env D} {file : Option (StateFile D)} {g₀ g : Globals D} {calls : List (RuntimeCall D)}
    (date : String) (qrng : Nat) (hl : LoadEffect env file g₀) (hr : RunEffect g₀ g calls)
    (h : ∀ e ∈ fileEntries file, e.observed = true → Carried g e) {r : RegionId} {s : LoopState D} (hobs : s.obsX ≠ [])
    (hkept : Kept file r s) : Kept (some (writeLoops date qrng g.loopStates)) r s := by
  obtain ⟨e, he, hid, hunique, hx, hy⟩ := hkept
  have hobserved : e.observed = true := List.any_eq_true.2 ⟨s.obsX, hx, by simpa using hobs⟩
  obtain ⟨hsk, hn⟩ := h e he hobserved
  rw [hid, Option.any_some, decide_eq_true_eq] at hn
  obtain ⟨l, hlast⟩ := entryOf_isSome he hid hsk
  obtain ⟨hmem, hlid, -⟩ := entryOf_some hlast
  obtain rfl := hunique l hmem hlid
  rcases hl.loop r with ⟨hnone, -⟩ | ⟨-, -, hkey, -⟩
  · rw [hlast] at hnone
    cases hnone
  · obtain ⟨s', hs', hws⟩ := exists_writeLoops date qrng (hr.keys r hkey) hn
    have hw := writeEntry_written hl hr hws
    have hle : loadedEntry file r = l := by
      unfold loadedEntry
      rw [hlast, Option.getD_some]
    refine ⟨s', hs', hw.id, fun e he hid => Option.some.inj ((writeEntry_of_mem he hid).2.symm.trans hws), ?_, ?_⟩
    · rw [hw.obsX, hle, Option.getD_some]
      exact List.mem_append_left _ hx
    · rw [hw.obsY, hle, Option.getD_some]
      exact List.mem_append_left _ hy

/-- A step that leaves the file alone leaves every process's part alone. -/
theorem ProcessInv.congr {proc : Process D} {s s' : SharedFile D} {phase : Phase D} (hfile : s'.file = s.file)
    (hwrites : s'.writes = s.writes) (h : ProcessInv proc s phase) : ProcessInv proc s' phase := by
  cases phase <;> simp only [ProcessInv, hfile, hwrites] at h ⊢ <;> exact h

variable [DecidableEq ι]

omit [DecidableEq ι] in
/-- A write moves the other processes' loads into the past and keeps what they wrote. -/
theorem ProcessInv.write {proc proc' : Process D} {s : SharedFile D} {seen qrng : Nat} {g : Globals D} {phase : Phase D}
    (hinv : ProcessInv proc s (.locked seen g qrng)) (hok : KeepsUpdates s (.locked seen g qrng))
    (h : ProcessInv proc' s phase) :
    ProcessInv proc' { s with file := some (writeLoops proc.date qrng g.loopStates), writes := s.writes + 1 } phase := by
  obtain ⟨-, hsaves, hfrom⟩ := hinv
  obtain ⟨hseen, hcarried, -⟩ := hok
  obtain ⟨g₀, done, hl, hr⟩ := (hfrom hseen).effect hsaves
  cases phase with
  | start | gone => trivial
  | running seen' g' qrng' calls =>
    obtain ⟨hle, -⟩ := h
    refine ⟨Nat.le_succ_of_le hle, fun heq => ?_⟩
    dsimp only at heq
    omega
  | saving seen' g' qrng' | locked seen' g' qrng' =>
    obtain ⟨hle, hs, -⟩ := h
    refine ⟨Nat.le_succ_of_le hle, hs, fun heq => ?_⟩
    dsimp only at heq
    omega
  | written g' | saved g' =>
    intro r hobs
    exact kept_carried _ _ hl hr hcarried hobs (h r hobs)

omit [DecidableEq ι] in
theorem processStep_invariant (procs : ι → Process D) :
    Invariant ((processStep procs).only fun _ _ s phase => KeepsUpdates s phase) (fun _ _ => True)
      (fun i => ProcessInv (procs i)) := by
  constructor
  · intro i a s phase s' phase' e log _ hinv hstep
    obtain ⟨hok, hstep⟩ := Prog.only_eq_some.1 hstep
    refine ⟨trivial, ?_⟩
    cases phase with
    | start =>
      unfold processStep at hstep
      dsimp only at hstep
      cases hload : boLoadData (procs i).env (procs i).sobol s.file with
      | none =>
        rw [hload] at hstep
        cases hstep
        trivial
      | some p =>
        rw [hload] at hstep
        cases hstep
        exact ⟨le_refl _, fun _ => ⟨p.1, p.2, [], hload, rfl⟩⟩
    | running seen g qrng calls =>
      obtain ⟨hle, hfrom⟩ := hinv
      unfold processStep at hstep
      cases calls with
      | nil =>
        dsimp only at hstep
        split at hstep
        · rename_i hs
          cases hstep
          exact ⟨hle, hs, hfrom⟩
        · cases hstep
          trivial
      | cons call calls =>
        dsimp only at hstep
        cases hc : call.run g with
        | none =>
          rw [hc] at hstep
          cases hstep
          trivial
        | some g' =>
          rw [hc] at hstep
          cases hstep
          exact ⟨hle, fun heq => (hfrom heq).call hc⟩
    | saving seen g qrng =>
      unfold processStep at hstep
      dsimp only at hstep
      split at hstep
      · cases hstep
        trivial
      · cases hstep
        exact hinv
    | locked seen g qrng =>
      cases hstep
      intro r hobs
      exact kept_own _ _ hok.2.2 hobs
    | written g =>
      cases hstep
      exact hinv
    | saved g => cases hstep
    | gone => cases hstep
  · intro i a s phase s' phase' e log j phase'' _ hinv hstep _ hother
    obtain ⟨hok, hstep⟩ := Prog.only_eq_some.1 hstep
    cases phase with
    | locked seen g qrng =>
      cases hstep
      exact hinv.write hok hother
    | start =>
      have hs : s' = s := by
        unfold processStep at hstep
        dsimp only at hstep
        split at hstep <;> cases hstep <;> rfl
      rw [hs]
      exact hother
    | running seen g qrng calls =>
      have hs : s' = s := by
        unfold processStep at hstep
        cases calls <;> dsimp only at hstep <;> split at hstep <;> cases hstep <;> rfl
      rw [hs]
      exact hother
    | saving seen g qrng =>
      unfold processStep at hstep
      dsimp only at hstep
      split at hstep
      · cases hstep
        exact hother
      · cases hstep
        exact hother.congr rfl rfl
    | written g =>
      cases hstep
      exact hother.congr rfl rfl
    | saved g => cases hstep
    | gone => cases hstep

/-- In every interleaving whose writes keep all updates, what a process that got the lock observed is in
the file from its write on. -/
theorem sharedFile_present {procs : ι → Process D} {s : SharedFile D} {c : Cfg ι (SharedFile D) (Phase D) Unit}
    (h : Reach ((processStep procs).only fun _ _ s phase => KeepsUpdates s phase) (sharedStart s) c) {i : ι} {g : Globals D}
    (hsaved : c.loc i = .written g ∨ c.loc i = .saved g) {r : RegionId} (hobs : (g.loop r).obsX ≠ []) :
    Present c.shared.file r (g.loop r) := by
  have hstart : Holds (fun _ _ => True) (fun i => ProcessInv (procs i)) (sharedStart s) := ⟨trivial, fun _ => trivial⟩
  have hinv := ((processStep_invariant procs).reach hstart h).2 i
  have hkept : Kept c.shared.file r (g.loop r) := by
    rcases hsaved with heq | heq <;> rw [heq] at hinv <;> exact hinv r hobs
  obtain ⟨e, he, hid, -, hx, hy⟩ := hkept
  exact ⟨e, he, hid, hx, hy⟩

/-! ## Two processes -/

/-- Two processes that run the loop of region 7, in 5 and in 9 microseconds. -/
def twoProcesses (i : Fin 2) : Process ℚ :=
  ⟨plainEnv, quarter, [.loopInit (some 4) 0 GompWorkShare.zero 0 3 1 .boFss 0 7, .scheduleEnd 7 (if i = 0 then 5000 else 9000)], ""⟩

def noFile : SharedFile ℚ := ⟨none, false, 0⟩

/-- Seven steps of each process, one process after the other. -/
def inTurn : List (Fin 2 × Unit) := List.replicate 7 (0, ()) ++ List.replicate 7 (1, ())

/-- Both processes load before either writes. -/
def overlapping : List (Fin 2 × Unit) := [(0, ()), (1, ())] ++ List.replicate 6 (0, ()) ++ List.replicate 6 (1, ())

/-- A process has saved the observation of one execution of region 7. -/
def Phase.savedOne (phase : Phase ℚ) : Bool :=
  match phase with
  | .saved g => (g.loop 7).obsX.length = 1
  | _ => false

theorem Phase.savedOne_eq {phase : Phase ℚ} (h : phase.savedOne = true) :
    ∃ g, phase = .saved g ∧ (g.loop 7).obsX ≠ [] := by
  unfold savedOne at h
  split at h
  · rename_i g
    refine ⟨g, rfl, fun hnil => ?_⟩
    rw [hnil] at h
    simp at h
  · cases h

/-- Where the processes follow each other, both observations are in the file. -/
theorem sharedFile_present_inTurn : ∃ c, Reach (processStep twoProcesses) (sharedStart noFile) c ∧
    ∀ i, ∃ g, c.loc i = .saved g ∧ Present c.shared.file 7 (g.loop 7) := by
  have hrun : (exec ((processStep twoProcesses).only fun _ _ s phase => KeepsUpdates s phase) (sharedStart noFile)
      inTurn).any (fun c => decide (∀ i, (c.loc i).savedOne = true)) = true := by decide +kernel
  obtain ⟨c, hr, hsaved⟩ := exists_reach hrun
  refine ⟨c, hr.of_only, fun i => ?_⟩
  obtain ⟨g, hg, hobs⟩ := Phase.savedOne_eq (hsaved i)
  exact ⟨g, hg, sharedFile_present hr (Or.inr hg) hobs⟩

/-- Where they overlap, the second write replaces the first. -/
theorem sharedFile_loses_update : ¬ ∀ c, Reach (processStep twoProcesses) (sharedStart noFile) c →
    ∀ i g, c.loc i = .saved g → ∀ r, (g.loop r).obsX ≠ [] → Present c.shared.file r (g.loop r) := by
  intro hall
  have hrun : (exec (processStep twoProcesses) (sharedStart noFile) overlapping).any (fun c => decide
      ((c.loc 0).savedOne = true ∧ (match c.loc 0 with
        | .saved g => (fileEntries c.shared.file).all fun e => (g.loop 7).obsY ∉ e.obsY.getD []
        | _ => false) = true)) = true := by decide +kernel
  obtain ⟨c, hr, hsaved, hlost⟩ := exists_reach hrun
  obtain ⟨g, hg, hobs⟩ := Phase.savedOne_eq hsaved
  obtain ⟨e, he, -, -, hy⟩ := hall c hr 0 g hg 7 hobs
  rw [hg] at hlost
  exact of_decide_eq_true (List.all_eq_true.1 hlost e he) hy

end Bosched
