/-
Load followed by save. An entry travels as `loop_json`, which `write_state` copies, and as the members
of `loop_state_t`, which overwrite it: `num_tasks` whether the run set it or not, and one more
observation vector whether the loop ran or not.
-/
import Bosched.State.Run
import Bosched.Runtime.Exact

namespace Bosched

open Lib

variable {D : Type}

/-- The entry `e` came back as `s` from a run that executed its loop with `ran` tasks, if at all, and
observed `obsX` and `obsY`. -/
structure Preserved (e s : LoopJson D) (ran : Option Word) (obsX obsY : List D) : Prop where
  id : s.id = e.id
  params : s.params = e.params
  histX : s.histX = e.histX
  histY : s.histY = e.histY
  param : s.param = e.param
  evalParam1 : s.evalParam1 = e.evalParam1
  evalParam2 : s.evalParam2 = e.evalParam2
  n : s.n = ran.or e.n
  obsX : s.obsX = if ran.isSome then some (e.obsX.getD [] ++ [obsX]) else e.obsX
  obsY : s.obsY = if ran.isSome then some (e.obsY.getD [] ++ [obsY]) else e.obsY

/-- Two entries agree in what a run carries over from them. -/
structure SameCarried (e l : LoopJson D) : Prop where
  params : l.params = e.params
  histX : l.histX = e.histX
  histY : l.histY = e.histY
  param : l.param = e.param
  evalParam1 : l.evalParam1 = e.evalParam1
  evalParam2 : l.evalParam2 = e.evalParam2
  obsX : l.obsX.getD [] = e.obsX.getD []
  obsY : l.obsY.getD [] = e.obsY.getD []

/-- The run executes the loop of entry `e`, the last time with a number of tasks that is not zero and
that `bo_schedule_begin` records (or that was in the uninitialised member anyway), and no later entry
of the file replaces `e` with other data. -/
structure Refreshed (env : Env D) (f : StateFile D) (calls : List (RuntimeCall D)) (r : RegionId) (e : LoopJson D) :
    Prop where
  ran : ∃ n, lastReport r calls = some n ∧ n ≠ 0#64 ∧
    (lastRecorded r env.loopstat calls = some n ∨ env.junk.numTasks r = n)
  same : ∀ l, entryOf f.entries r = some l → SameCarried e l

variable [CDouble D] {env : Env D} {sobol : Nat → D × Nat} {file : Option (StateFile D)} {f : StateFile D}
  {g g' : Globals D} {qrng : Nat} {calls : List (RuntimeCall D)}

/-- A region with tasks is written. -/
theorem exists_writeLoops {r : RegionId} (date : String) (qrng : Nat) (hr : r ∈ g.loopStates) (hn : (g.loop r).numTasks ≠ 0#64) :
    ∃ s ∈ (writeLoops date qrng g.loopStates).entries, writeEntry r (g.loop r) = some s := by
  obtain ⟨st, hst⟩ := Option.isSome_iff_exists.1 (AList.lookup_isSome.2 hr)
  have hl : g.loop r = st := by
    unfold Globals.loop
    rw [hst, Option.getD_some]
  rw [hl] at hn ⊢
  exact ⟨_, mem_writeLoops.2 ⟨r, st, hst, writeEntry_eq hn⟩, writeEntry_eq hn⟩

/-- The written entry with a given id is that of the region. -/
theorem writeEntry_of_mem {r : RegionId} {date : String} {s : LoopJson D}
    (hs : s ∈ (writeLoops date qrng g.loopStates).entries) (hid : s.id = some r) :
    r ∈ g.loopStates ∧ writeEntry r (g.loop r) = some s := by
  obtain ⟨r', st, hst, hw⟩ := mem_writeLoops.1 hs
  have hr : r' = r := Option.some.inj ((writeEntry_some hw).2.symm.trans hid)
  subst hr
  refine ⟨AList.lookup_isSome.1 (Option.isSome_iff_exists.2 ⟨st, hst⟩), ?_⟩
  unfold Globals.loop
  rw [hst]
  exact hw

/-- `loop_json` of region `r` after the load. -/
def loadedEntry (file : Option (StateFile D)) (r : RegionId) : LoopJson D :=
  (entryOf (fileEntries file) r).getD .null

/-- `num_tasks` of region `r` at exit: recorded by the run, or the indeterminate member of a loaded state, or zero. -/
def exitCount (env : Env D) (file : Option (StateFile D)) (calls : List (RuntimeCall D)) (r : RegionId) : Word :=
  (lastRecorded r env.loopstat calls).getD
    (if (entryOf (fileEntries file) r).isSome then env.junk.numTasks r else 0#64)

/-- What a run writes for region `r`. -/
structure WrittenFrom (env : Env D) (file : Option (StateFile D)) (g : Globals D) (calls : List (RuntimeCall D))
    (r : RegionId) (s : LoopJson D) : Prop where
  carried : SameCarried (loadedEntry file r) { s with obsX := (loadedEntry file r).obsX, obsY := (loadedEntry file r).obsY }
  id : s.id = some r
  warmup : s.warmup = if (entryOf (fileEntries file) r).isSome then (loadedEntry file r).warmup
    else some (file.isNone && calls.any (·.startsBoIn r))
  n : s.n = some (exitCount env file calls r)
  obsX : s.obsX = some ((loadedEntry file r).obsX.getD [] ++ [(observations r g calls).map (·.1)])
  obsY : s.obsY = some ((loadedEntry file r).obsY.getD [] ++ [(observations r g calls).map (·.2)])

theorem numTasks_exit (hload : LoadEffect env file g) (hrun : RunEffect g g' calls) (r : RegionId) :
    (g'.loop r).numTasks = exitCount env file calls r := by
  unfold exitCount
  rw [hrun.numTasks, hload.isBoSchedule, hload.showLoopStat, Bool.false_or]
  rcases hload.loop r with ⟨hnone, hlookup⟩ | ⟨l, hsome, -, hl⟩
  · rw [hnone, Globals.loop, hlookup]
    rfl
  · rw [hsome, hl.numTasks]
    rfl

theorem writeEntry_written (hload : LoadEffect env file g) (hrun : RunEffect g g' calls) {r : RegionId} {s : LoopJson D}
    (hs : writeEntry r (g'.loop r) = some s) : WrittenFrom env file g calls r s := by
  rw [writeEntry_eq (writeEntry_some hs).1] at hs
  cases hs
  have hn := numTasks_exit hload hrun r
  have hw := hrun.warmingUp r
  rw [hload.isNewFile] at hw
  have hx := hrun.obsX r
  have hy := hrun.obsY r
  have hjson := hrun.loopJson r
  rcases hload.loop r with ⟨hnone, hlookup⟩ | ⟨l, hsome, -, hl⟩
  · have hzero : g.loop r = LoopState.zero := by
      rw [Globals.loop, hlookup]
      rfl
    have he : loadedEntry file r = .null := by
      rw [loadedEntry, hnone]
      rfl
    rw [hzero] at hw hx hy hjson
    refine ⟨?_, rfl, ?_, congrArg some hn, ?_, ?_⟩
    · rw [hjson, he]
      exact ⟨rfl, rfl, rfl, rfl, rfl, rfl, rfl, rfl⟩
    · rw [hw, hnone]
      rfl
    · rw [hjson, hx, he]
      rfl
    · rw [hjson, hy, he]
      rfl
  · have he : loadedEntry file r = l := by
      rw [loadedEntry, hsome]
      rfl
    have hfile : file.isNone = false := by
      cases file with
      | none => cases hsome
      | some f => rfl
    rw [hl.obsX] at hx
    rw [hl.obsY] at hy
    rw [hl.loopJson] at hjson
    refine ⟨?_, rfl, ?_, congrArg some hn, ?_, ?_⟩
    · rw [hjson, he]
      exact ⟨rfl, rfl, rfl, rfl, rfl, rfl, rfl, rfl⟩
    · rw [hw, hsome, he, hl.warmup, hfile, Bool.false_and, Bool.or_false]
      rfl
    · rw [hjson, hx, he]
      rfl
    · rw [hjson, hy, he]
      rfl

section

variable {f' : StateFile D} {date : String} {r : RegionId} {e l : LoopJson D}

/-- The state of the region of an entry comes from the last entry with its id. -/
theorem LoadEffect.entry (hl : LoadEffect env (some f) g) (he : e ∈ f.entries) (hid : e.id = some r)
    (hsk : ¬ e.skipped) :
    ∃ l, entryOf f.entries r = some l ∧ l ∈ f.entries ∧ l.id = some r ∧ ¬ l.skipped ∧ r ∈ g.loopStates := by
  obtain ⟨l, hlast⟩ := entryOf_isSome he hid hsk
  obtain ⟨hmem, hlid, hlsk⟩ := entryOf_some hlast
  rcases hl.loop r with ⟨hnone, -⟩ | ⟨-, -, hkey, -⟩
  · rw [show fileEntries (some f) = f.entries from rfl, hlast] at hnone
    cases hnone
  · exact ⟨l, hlast, hmem, hlid, hlsk, hkey⟩

omit [CDouble D] in
theorem loadedEntry_some (hlast : entryOf f.entries r = some l) : loadedEntry (some f) r = l := by
  unfold loadedEntry fileEntries
  rw [Option.map_some, Option.getD_some, hlast, Option.getD_some]

omit [CDouble D] in
theorem exitCount_some (hlast : entryOf f.entries r = some l) :
    exitCount env (some f) calls r = (lastRecorded r env.loopstat calls).getD (env.junk.numTasks r) := by
  unfold exitCount fileEntries
  rw [Option.map_some, Option.getD_some, hlast]
  rfl

/-- The last entry of a region only comes back from a run that executes its loop. -/
theorem ran_of_preserved (hlast : entryOf f.entries r = some l) {s : LoopJson D}
    (hw : WrittenFrom env (some f) g calls r s) (hn0 : exitCount env (some f) calls r ≠ 0#64)
    (hps : Preserved l s (lastReport r calls) ((observations r g calls).map (·.1)) ((observations r g calls).map (·.2))) :
    ∃ n, lastReport r calls = some n ∧ n ≠ 0#64 ∧
      (lastRecorded r env.loopstat calls = some n ∨ env.junk.numTasks r = n) := by
  have hle := loadedEntry_some hlast
  have hran : ∃ n, lastReport r calls = some n := by
    cases hn : lastReport r calls with
    | some n => exact ⟨n, rfl⟩
    | none =>
      -- an idle loop gets one more vector
      have hx := hps.obsX
      rw [hn, hw.obsX, hle] at hx
      cases hobs : l.obsX with
      | none => simp [hobs] at hx
      | some x => simp [hobs] at hx
  obtain ⟨n, hn⟩ := hran
  have hcount : exitCount env (some f) calls r = n := by
    have hsn := hps.n
    rw [hn, hw.n] at hsn
    exact Option.some.inj hsn
  refine ⟨n, hn, hcount ▸ hn0, ?_⟩
  rw [exitCount_some hlast] at hcount
  cases hrec : lastRecorded r env.loopstat calls with
  | none =>
    rw [hrec] at hcount
    exact Or.inr hcount
  | some m => exact Or.inl ((lastReport_of_recorded hrec).symm.trans hn)

theorem sameCarried_of_preserved (hlast : entryOf f.entries r = some l) {s : LoopJson D}
    (hw : WrittenFrom env (some f) g calls r s) (hran : (lastReport r calls).isSome)
    (hps : Preserved e s (lastReport r calls) ((observations r g calls).map (·.1)) ((observations r g calls).map (·.2))) :
    SameCarried e l := by
  have hc := hw.carried
  have hx := hps.obsX
  have hy := hps.obsY
  rw [loadedEntry_some hlast] at hc
  rw [hran, hw.obsX, loadedEntry_some hlast] at hx
  rw [hran, hw.obsY, loadedEntry_some hlast] at hy
  refine ⟨hc.params.symm.trans hps.params, hc.histX.symm.trans hps.histX, hc.histY.symm.trans hps.histY,
    hc.param.symm.trans hps.param, hc.evalParam1.symm.trans hps.evalParam1, hc.evalParam2.symm.trans hps.evalParam2, ?_, ?_⟩
  · exact List.append_cancel_right (Option.some.inj hx)
  · exact List.append_cancel_right (Option.some.inj hy)

/-- A refreshed entry comes back as it should. -/
theorem preserved_of_refreshed (hl : LoadEffect env (some f) g) (hr : RunEffect g g' calls) (date : String) (qrng : Nat)
    (he : e ∈ f.entries) (hid : e.id = some r) (hsk : ¬ e.skipped) (href : Refreshed env f calls r e) :
    ∃ s ∈ (writeLoops date qrng g'.loopStates).entries, Preserved e s (lastReport r calls)
      ((observations r g calls).map (·.1)) ((observations r g calls).map (·.2)) := by
  obtain ⟨l, hlast, -, -, -, hkey⟩ := hl.entry he hid hsk
  obtain ⟨⟨n, hn, hn0, hrec⟩, hsame⟩ := href
  have hsame := hsame l hlast
  have hcount : exitCount env (some f) calls r = n := by
    rw [exitCount_some hlast]
    cases hlr : lastRecorded r env.loopstat calls with
    | none =>
      rw [hlr] at hrec
      exact hrec.resolve_left (by simp)
    | some m => exact Option.some.inj ((lastReport_of_recorded hlr).symm.trans hn)
  have hne : (g'.loop r).numTasks ≠ 0#64 := by
    rw [numTasks_exit hl hr, hcount]
    exact hn0
  obtain ⟨s, hs, hws⟩ := exists_writeLoops date qrng (hr.keys r hkey) hne
  have hw := writeEntry_written hl hr hws
  have hc := hw.carried
  have hle := loadedEntry_some hlast
  rw [hle] at hc
  refine ⟨s, hs, hw.id.trans hid.symm, hc.params.trans hsame.params, hc.histX.trans hsame.histX,
    hc.histY.trans hsame.histY, hc.param.trans hsame.param, hc.evalParam1.trans hsame.evalParam1,
    hc.evalParam2.trans hsame.evalParam2, ?_, ?_, ?_⟩
  · rw [hw.n, hcount, hn]
    rfl
  · rw [hw.obsX, hn, hle, hsame.obsX]
    rfl
  · rw [hw.obsY, hn, hle, hsame.obsY]
    rfl

/-- Load followed by save gives every entry back, with the run's observations added, if and only if the
run refreshed every entry. -/
theorem loadSave_preserves_iff (hp : env.profile = false) (hload : boLoadData env sobol (some f) = some (g, qrng))
    (hrun : runCalls g calls = some g') (hsaves : g'.saves) (hsave : boSaveData g' qrng date true (some f) = some f') :
    (∀ e ∈ f.entries, ∀ r, e.id = some r → ¬ e.skipped → ∃ s ∈ f'.entries, Preserved e s (lastReport r calls)
        ((observations r g calls).map (·.1)) ((observations r g calls).map (·.2))) ↔
      ∀ e ∈ f.entries, ∀ r, e.id = some r → ¬ e.skipped → Refreshed env f calls r e := by
  have hl := boLoadData_effect hp hload
  have hr := runCalls_effect hrun
  obtain rfl : f' = writeLoops date qrng g'.loopStates := by
    unfold boSaveData at hsave
    rw [if_pos ⟨hsaves, rfl⟩] at hsave
    exact (Option.some.inj hsave).symm
  constructor
  · intro hpres e he r hid hsk
    obtain ⟨l, hlast, hmem, hlid, hlsk, hkey⟩ := hl.entry he hid hsk
    obtain ⟨s, hs, hps⟩ := hpres l hmem r hlid hlsk
    have hws := (writeEntry_of_mem hs (hps.id.trans hlid)).2
    have hn0 := (writeEntry_some hws).1
    rw [numTasks_exit hl hr] at hn0
    have hran := ran_of_preserved hlast (writeEntry_written hl hr hws) hn0 hps
    refine ⟨hran, fun l' hl' => ?_⟩
    obtain rfl : l = l' := Option.some.inj (hlast.symm.trans hl')
    obtain ⟨s', hs', hps'⟩ := hpres e he r hid hsk
    obtain ⟨n, hn, -⟩ := hran
    exact sameCarried_of_preserved hlast (writeEntry_written hl hr (writeEntry_of_mem hs' (hps'.id.trans hid)).2)
      (by rw [hn]; rfl) hps'
  · intro href e he r hid hsk
    exact preserved_of_refreshed hl hr date qrng he hid hsk (href e he r hid hsk)

end

/-! ## One entry -/

/-- No variable set, four threads. -/
def plainEnv : Env ℚ := ⟨false, false, false, false, false, 4, ⟨fun _ => 7, fun _ => 0, fun _ => 0⟩⟩

/-- A loop of three tasks that has warmed up once. -/
def warmEntry : LoopJson ℚ :=
  { LoopJson.null with id := some 7, n := some 3, warmup := some true, obsX := some [[1 / 2]], obsY := some [[10]] }

def warmFile : StateFile ℚ := ⟨"", 1, some [warmEntry], 0⟩

def quarter (qrng : Nat) : ℚ × Nat := (1 / 4, qrng + 1)

/-- The loop of region 7, once, under the BO variant of FSS. -/
def fssRun : List (RuntimeCall ℚ) :=
  [.loopInit (some 4) 0 GompWorkShare.zero 0 3 1 .boFss 0 7, .scheduleEnd 7 5000]

theorem mem_warmFile {e : LoopJson ℚ} {r : RegionId} (he : e ∈ warmFile.entries) (hid : e.id = some r) :
    e = warmEntry ∧ r = 7 := by
  obtain rfl : e = warmEntry := List.mem_singleton.1 he
  exact ⟨rfl, (Option.some.inj hid).symm⟩

/-- A run that executes the loop keeps its entry. -/
theorem loadSave_preserves_fss : ∃ g qrng g' f', boLoadData plainEnv quarter (some warmFile) = some (g, qrng) ∧
    runCalls g fssRun = some g' ∧ boSaveData g' qrng "" true (some warmFile) = some f' ∧
      ∀ e ∈ warmFile.entries, ∀ r, e.id = some r → ¬ e.skipped → ∃ s ∈ f'.entries,
        Preserved e s (lastReport r fssRun) ((observations r g fssRun).map (·.1)) ((observations r g fssRun).map (·.2)) := by
  have h : ((boLoadData plainEnv quarter (some warmFile)).any fun p =>
      (runCalls p.1 fssRun).any fun g' => decide g'.saves) = true := by decide +kernel
  obtain ⟨⟨g, qrng⟩, hload, h⟩ := (Option.any_eq_true _ _).1 h
  obtain ⟨g', hrun, hsaves⟩ := (Option.any_eq_true _ _).1 h
  have hsaves := of_decide_eq_true hsaves
  have hsave : boSaveData g' qrng "" true (some warmFile) = some (writeLoops "" qrng g'.loopStates) := if_pos ⟨hsaves, rfl⟩
  refine ⟨g, qrng, g', _, hload, hrun, hsave, ?_⟩
  refine (loadSave_preserves_iff rfl hload hrun hsaves hsave).2 fun e he r hid _ => ?_
  obtain ⟨rfl, rfl⟩ := mem_warmFile he hid
  refine ⟨⟨3, by decide, by decide, Or.inl (by decide)⟩, fun l hl => ?_⟩
  obtain ⟨hmem, hlid, -⟩ := entryOf_some hl
  obtain ⟨rfl, -⟩ := mem_warmFile hmem hlid
  exact ⟨rfl, rfl, rfl, rfl, rfl, rfl, rfl, rfl⟩

/-- A run that does not execute the loop: its entry gains an empty vector and a count from
uninitialised memory. -/
theorem loadSave_changes_idle_entry : ¬ ∀ (g g' : Globals ℚ) (qrng : Nat) (f' : StateFile ℚ),
    boLoadData plainEnv quarter (some warmFile) = some (g, qrng) → runCalls g [] = some g' → g'.saves →
      boSaveData g' qrng "" true (some warmFile) = some f' →
      ∀ e ∈ warmFile.entries, ∀ r, e.id = some r → ¬ e.skipped → ∃ s ∈ f'.entries,
        Preserved e s (lastReport r ([] : List (RuntimeCall ℚ))) [] [] := by
  intro hall
  have h : ((boLoadData plainEnv quarter (some warmFile)).any fun p =>
      decide (p.1.saves ∧ (boSaveData p.1 p.2 "" true (some warmFile)).any fun f' =>
        f'.entries.all fun s => s.obsX = some [[1 / 2], []])) = true := by decide +kernel
  obtain ⟨⟨g, qrng⟩, hload, h⟩ := (Option.any_eq_true _ _).1 h
  obtain ⟨hsaves, h⟩ := of_decide_eq_true h
  obtain ⟨f', hsave, h⟩ := (Option.any_eq_true _ _).1 h
  obtain ⟨s, hs, hpres⟩ := hall g g qrng f' hload rfl hsaves hsave warmEntry (List.mem_singleton.2 rfl) 7 rfl (by decide)
  have hx := of_decide_eq_true (List.all_eq_true.1 h s hs)
  rw [hpres.obsX] at hx
  exact absurd hx (by decide +kernel)

end Bosched
