/-
The state file over a sequence of runs, without the tuner. No run writes a `param` or `params` key, so
an entry loads only while it is warming up and its last observation vector is not empty.
-/
import Bosched.State.Preserve

namespace Bosched

open Lib

variable {D : Type}

/-! ## Runs one after the other -/

/-- A run of the program; `lock` is whether it gets the lock file at its end. -/
structure ProgramRun (D : Type) extends Process D where
  lock : Bool

/-- A call list records an observation of region `r`: an end of `r` after the begin of a BO loop. -/
def records (r : RegionId) : Bool → List (RuntimeCall D) → Bool
  | _, [] => false
  | on, call :: calls => (on && call.ends.any fun e => e.1 = r) || records r (on || call.startsBo) calls

variable [CDouble D]

/-- The state file after a run. A run that crashes saves nothing. -/
def ProgramRun.after (run : ProgramRun D) (file : Option (StateFile D)) : Option (StateFile D) :=
  match boLoadData run.env run.sobol file with
  | none => file
  | some (g, qrng) =>
    match runCalls g run.calls with
    | none => file
    | some g' => boSaveData g' qrng run.date run.lock file

/-- Every run of the sequence gets through `bo_load_data`. -/
def LoadsAll : Option (StateFile D) → List (ProgramRun D) → Prop
  | _, [] => True
  | file, run :: runs => (boLoadData run.env run.sobol file).isSome ∧ LoadsAll (run.after file) runs

/-- The run reaches the write of `bo_save_data`. -/
def ProgramRun.Writes (run : ProgramRun D) (file : Option (StateFile D)) : Prop :=
  ∃ g qrng g', boLoadData run.env run.sobol file = some (g, qrng) ∧ runCalls g run.calls = some g' ∧ g'.saves ∧
    run.lock = true

omit [CDouble D] in
/-- Region `r` counts as warming up: it is in the file, or there is no file and a BO loop of it was started. -/
def ProgramRun.warms (run : ProgramRun D) (file : Option (StateFile D)) (r : RegionId) : Prop :=
  (entryOf (fileEntries file) r).isSome ∨ file = none ∧ run.calls.any (·.startsBoIn r) = true

/-- The regions the run writes are warming up and were observed in it. -/
def ProgramRun.Safe (run : ProgramRun D) (file : Option (StateFile D)) : Prop :=
  run.Writes file → ∀ r, r ≠ 0#64 → exitCount run.env file run.calls r ≠ 0#64 →
    run.warms file r ∧ records r false run.calls = true

/-- Every run but the last is safe. -/
def SafeRuns : Option (StateFile D) → List (ProgramRun D) → Prop
  | _, [] => True
  | _, [_] => True
  | file, run :: next :: runs => run.Safe file ∧ SafeRuns (run.after file) (next :: runs)

/-! ## Files that load -/

omit [CDouble D] in
/-- An entry written without the tuner. -/
structure Untuned (e : LoopJson D) : Prop where
  id : ∃ r, e.id = some r
  n : ∃ n, e.n = some n ∧ n ≠ 0#64
  params : e.params = none
  param : e.param = none
  warmup : ∃ w, e.warmup = some w

omit [CDouble D] in
/-- An untuned entry that loads. -/
structure Warm (e : LoopJson D) : Prop extends Untuned e where
  warm : e.id ≠ some 0#64 → e.warmup = some true ∧ ∃ xs x ys, e.obsX = some (xs ++ [x :: ys])

omit [CDouble D] in
theorem foldlM_isSome_iff {α β : Type} {f : β → α → Option β} {p : α → Prop} {l : List α}
    (h : ∀ b, ∀ a ∈ l, (f b a).isSome ↔ p a) (b : β) : (l.foldlM f b).isSome ↔ ∀ a ∈ l, p a := by
  induction l generalizing b with
  | nil => simp
  | cons a l ih =>
    have ha := h b a List.mem_cons_self
    have ih := ih fun b a hm => h b a (List.mem_cons_of_mem _ hm)
    cases hf : f b a with
    | none =>
      rw [hf] at ha
      simp only [List.foldlM_cons, hf, List.forall_mem_cons]
      exact ⟨fun hs => absurd hs (by simp), fun ho => absurd (ha.2 ho.1) (by simp)⟩
    | some b' =>
      rw [hf] at ha
      simp only [List.foldlM_cons, hf, List.forall_mem_cons]
      exact ⟨fun hs => ⟨ha.1 rfl, (ih b').1 hs⟩, fun ho => (ih b').2 ho.2⟩

omit [CDouble D] in
theorem readState_isSome_iff (hist : Bool) (junk : Indeterminate D) (loops : List (LoopJson D)) :
    (readState hist junk loops).isSome ↔ ∀ l ∈ loops, (readEntry hist junk l).isSome := by
  refine foldlM_isSome_iff (fun states l _ => ?_) ∅
  cases readEntry hist junk l with
  | none => exact ⟨fun h => h, fun h => h⟩
  | some o => cases o <;> exact ⟨fun _ => rfl, fun _ => rfl⟩

theorem loadWorkloadParams_isSome {f : StateFile D} (h : ∀ l ∈ f.entries, Untuned l) : (loadWorkloadParams f).isSome := by
  refine (foldlM_isSome_iff (p := fun _ => True) (fun result l hl => ?_) ∅).2 fun _ _ => trivial
  obtain ⟨r, hr⟩ := (h l hl).id
  unfold readBundle
  rw [(h l hl).params, hr]
  exact ⟨fun _ => trivial, fun _ => rfl⟩

theorem boLoadData_isSome_iff {env : Env D} (hp : env.profile = false) (sobol : Nat → D × Nat) (f : StateFile D) :
    (boLoadData env sobol (some f)).isSome ↔
      (∀ l ∈ f.entries, (readEntry env.hist env.junk l).isSome) ∧ (loadWorkloadParams f).isSome := by
  rw [← readState_isSome_iff]
  unfold boLoadData readLoops
  simp only [hp, Bool.false_eq_true, if_false]
  cases readState env.hist env.junk f.entries with
  | none => simp
  | some states =>
    cases loadWorkloadParams f with
    | none => simp
    | some params => simp

omit [CDouble D] in
theorem readEntry_isSome_iff {hist : Bool} {junk : Indeterminate D} {e : LoopJson D} (h : Untuned e) :
    (readEntry hist junk e).isSome ↔ Warm e := by
  obtain ⟨r, hr⟩ := h.id
  obtain ⟨n, hn, hn0⟩ := h.n
  obtain ⟨w, hw⟩ := h.warmup
  by_cases hr0 : r = 0#64
  · subst hr0
    have hskip : readEntry hist junk e = some none := by
      unfold readEntry
      rw [hr]
      rfl
    rw [hskip]
    exact ⟨fun _ => ⟨h, fun hne => absurd hr hne⟩, fun _ => rfl⟩
  · have hread : (readEntry hist junk e).isSome ↔ (readParams hist (junk.evalParam r) e w).isSome := by
      unfold readEntry
      simp only [hr, hn, hw, Option.bind_eq_bind, Option.bind_some, if_neg hr0, if_neg hn0]
      cases readParams hist (junk.evalParam r) e w <;> simp
    have hne : e.id ≠ some 0#64 := by
      rw [hr, Ne, Option.some.injEq]
      exact hr0
    rw [hread]
    constructor
    · intro hs
      refine ⟨h, fun _ => ?_⟩
      cases w with
      | false =>
        unfold readParams at hs
        rw [h.param] at hs
        cases hs
      | true =>
        refine ⟨hw, ?_⟩
        obtain ⟨p, hp⟩ := Option.isSome_iff_exists.1 hs
        obtain ⟨xs, hxs, hp⟩ := Option.bind_eq_some_iff.1 hp
        obtain ⟨last, hlast, hp⟩ := Option.bind_eq_some_iff.1 hp
        obtain ⟨x, hhead, -⟩ := Option.bind_eq_some_iff.1 hp
        obtain ⟨ys, rfl⟩ := List.getLast?_eq_some_iff.1 hlast
        obtain ⟨zs, rfl⟩ := List.head?_eq_some_iff.1 hhead
        exact ⟨ys, x, zs, hxs⟩
    · intro hwarm
      obtain ⟨hw', xs, x, ys, hobs⟩ := hwarm.warm hne
      rw [hw] at hw'
      cases hw'
      unfold readParams
      rw [hobs]
      simp

/-- A file written without the tuner loads if and only if its entries are warm. -/
theorem boLoadData_isSome_iff_warm {env : Env D} (hp : env.profile = false) (sobol : Nat → D × Nat)
    {file : Option (StateFile D)} (h : ∀ e ∈ fileEntries file, Untuned e) :
    (boLoadData env sobol file).isSome ↔ ∀ e ∈ fileEntries file, Warm e := by
  cases file with
  | none =>
    unfold boLoadData
    simp [hp, fileEntries]
  | some f =>
    rw [boLoadData_isSome_iff hp]
    exact ⟨fun hs e he => (readEntry_isSome_iff (h e he)).1 (hs.1 e he),
      fun hw => ⟨fun e he => (readEntry_isSome_iff (h e he)).2 (hw e he), loadWorkloadParams_isSome h⟩⟩

/-! ## What one run leaves -/

theorem records_iff {g g' : Globals D} {calls : List (RuntimeCall D)} (h : runCalls g calls = some g') (r : RegionId) :
    observations r g calls ≠ [] ↔ records r g.isBoSchedule calls = true := by
  induction calls generalizing g with
  | nil => simp [observations, records]
  | cons call calls ih =>
    obtain ⟨g₁, hcall, hrest⟩ := Option.bind_eq_some_iff.1 h
    have hflag := (RuntimeCall.run_cases hcall).effect.isBoSchedule
    have ih := ih hrest
    rw [hflag] at ih
    have hobs : observations r g (call :: calls) = call.observation g r ++ observations r g₁ calls := by
      simp [observations, hcall]
    have hhead : call.observation g r ≠ [] ↔ (g.isBoSchedule && call.ends.any fun e => e.1 = r) = true := by
      unfold RuntimeCall.observation
      cases call.ends with
      | none => simp
      | some e =>
        have hcomm : r = e.1 ↔ e.1 = r := eq_comm
        simp [hcomm]
    rw [hobs, records, Bool.or_eq_true, ← hhead, ← ih, Ne, List.append_eq_nil_iff, not_and_or]

omit [CDouble D] in
theorem loadedEntry_untuned {file : Option (StateFile D)} (h : ∀ e ∈ fileEntries file, Warm e) (r : RegionId) :
    (loadedEntry file r).params = none ∧ (loadedEntry file r).param = none ∧
      (r ≠ 0#64 → (entryOf (fileEntries file) r).isSome → (loadedEntry file r).warmup = some true) := by
  unfold loadedEntry
  cases hl : entryOf (fileEntries file) r with
  | none => exact ⟨rfl, rfl, fun _ hf => absurd hf (by simp)⟩
  | some l =>
    obtain ⟨hmem, hid, -⟩ := entryOf_some hl
    have hw := h l hmem
    refine ⟨hw.params, hw.param, fun hr _ => (hw.warm ?_).1⟩
    rw [hid, Ne, Option.some.injEq]
    exact hr

section

variable {env : Env D} {file : Option (StateFile D)} {g g' : Globals D} {calls : List (RuntimeCall D)} {r : RegionId}
  {s : LoopJson D}

theorem WrittenFrom.untuned (h : WrittenFrom env file g calls r s) (hfile : ∀ e ∈ fileEntries file, Warm e)
    (hn : exitCount env file calls r ≠ 0#64) : Untuned s := by
  obtain ⟨hparams, hparam, -⟩ := loadedEntry_untuned hfile r
  refine ⟨⟨r, h.id⟩, ⟨_, h.n, hn⟩, h.carried.params.trans hparams, h.carried.param.trans hparam, ?_⟩
  rw [h.warmup]
  cases hl : entryOf (fileEntries file) r with
  | none => exact ⟨_, rfl⟩
  | some l =>
    obtain ⟨hmem, -, -⟩ := entryOf_some hl
    unfold loadedEntry
    rw [hl]
    exact (hfile l hmem).warmup

theorem WrittenFrom.warm_iff (h : WrittenFrom env file g calls r s) (hload : LoadEffect env file g)
    (hrun : runCalls g calls = some g') (hfile : ∀ e ∈ fileEntries file, Warm e)
    (hn : exitCount env file calls r ≠ 0#64) (hr : r ≠ 0#64) :
    Warm s ↔ ((entryOf (fileEntries file) r).isSome ∨ file = none ∧ calls.any (·.startsBoIn r) = true) ∧
      records r false calls = true := by
  have hrec := records_iff hrun r
  rw [hload.isBoSchedule] at hrec
  have hwarmup : s.warmup = some true ↔
      (entryOf (fileEntries file) r).isSome ∨ file = none ∧ calls.any (·.startsBoIn r) = true := by
    rw [h.warmup]
    by_cases hl : (entryOf (fileEntries file) r).isSome = true
    · rw [if_pos hl, (loadedEntry_untuned hfile r).2.2 hr hl]
      exact ⟨fun _ => Or.inl hl, fun _ => rfl⟩
    · rw [if_neg hl, Option.some.injEq, Bool.and_eq_true, Option.isNone_iff_eq_none]
      exact ⟨Or.inr, fun hor => hor.resolve_left hl⟩
  have hobs : (∃ xs x ys, s.obsX = some (xs ++ [x :: ys])) ↔ observations r g calls ≠ [] := by
    rw [h.obsX]
    cases hcases : observations r g calls with
    | nil => simp
    | cons o os => simp
  have hne : s.id ≠ some 0#64 := by
    rw [h.id, Ne, Option.some.injEq]
    exact hr
  rw [← hrec, ← hobs, ← hwarmup]
  exact ⟨fun hw => hw.warm hne, fun hw => ⟨h.untuned hfile hn, fun _ => hw⟩⟩

end

/-- What a run that gets to write leaves: the entries of the regions with tasks. -/
structure WrittenFile (run : ProgramRun D) (file : Option (StateFile D)) (g : Globals D) (f' : StateFile D) : Prop where
  after : run.after file = some f'
  load : LoadEffect run.env file g
  runs : ∃ g', runCalls g run.calls = some g'
  entries : ∀ s ∈ f'.entries, ∃ r, WrittenFrom run.env file g run.calls r s ∧ exitCount run.env file run.calls r ≠ 0#64
  regions : ∀ r, exitCount run.env file run.calls r ≠ 0#64 → ∃ s ∈ f'.entries, WrittenFrom run.env file g run.calls r s

theorem ProgramRun.Writes.written {run : ProgramRun D} {file : Option (StateFile D)} (h : run.Writes file) :
    ∃ g f', WrittenFile run file g f' := by
  obtain ⟨g, qrng, g', hload, hrun, hsaves, hlock⟩ := h
  have hr := runCalls_effect hrun
  have hl := LoadEffect.of_saves hload hr hsaves
  refine ⟨g, writeLoops run.date qrng g'.loopStates, ?_, hl, ⟨g', hrun⟩, fun s hs => ?_, fun r hn => ?_⟩
  · unfold ProgramRun.after boSaveData
    simp only [hload, hrun]
    exact if_pos ⟨hsaves, hlock⟩
  · obtain ⟨r, st, hst, hws⟩ := mem_writeLoops.1 hs
    have hws := (writeEntry_of_mem hs (writeEntry_some hws).2).2
    have hn := (writeEntry_some hws).1
    rw [numTasks_exit hl hr] at hn
    exact ⟨r, writeEntry_written hl hr hws, hn⟩
  · rw [← numTasks_exit hl hr] at hn
    have hkey : r ∈ g'.loopStates := by
      by_contra hmem
      refine hn ?_
      unfold Globals.loop
      rw [AList.lookup_eq_none.2 hmem]
      rfl
    obtain ⟨s, hs, hws⟩ := exists_writeLoops run.date qrng hkey hn
    exact ⟨s, hs, writeEntry_written hl hr hws⟩

theorem ProgramRun.after_of_not_writes {run : ProgramRun D} {file : Option (StateFile D)} (hw : ¬ run.Writes file) :
    run.after file = file := by
  unfold ProgramRun.after
  cases hload : boLoadData run.env run.sobol file with
  | none => rfl
  | some p =>
    cases hrun : runCalls p.1 run.calls with
    | none => simp only [hrun]
    | some g' =>
      simp only [hrun]
      exact if_neg fun hc => hw ⟨p.1, p.2, g', hload, hrun, hc.1, hc.2⟩

/-- A run on a file that loads leaves untuned entries, and they are warm if and only if the run is safe. -/
theorem ProgramRun.after_warm_iff {run : ProgramRun D} {file : Option (StateFile D)}
    (hfile : ∀ e ∈ fileEntries file, Warm e) :
    (∀ e ∈ fileEntries (run.after file), Untuned e) ∧
      ((∀ e ∈ fileEntries (run.after file), Warm e) ↔ run.Safe file) := by
  by_cases hw : run.Writes file
  · obtain ⟨g, f', hwritten⟩ := hw.written
    obtain ⟨g', hrun⟩ := hwritten.runs
    rw [hwritten.after]
    refine ⟨fun s hs => ?_, fun hwarm _ r hr0 hn => ?_, fun hsafe s hs => ?_⟩
    · obtain ⟨r, hws, hn⟩ := hwritten.entries s hs
      exact hws.untuned hfile hn
    · obtain ⟨s, hs, hws⟩ := hwritten.regions r hn
      exact (hws.warm_iff hwritten.load hrun hfile hn hr0).1 (hwarm s hs)
    · obtain ⟨r, hws, hn⟩ := hwritten.entries s hs
      by_cases hr0 : r = 0#64
      · exact ⟨hws.untuned hfile hn, fun hne => absurd (hr0 ▸ hws.id) hne⟩
      · exact (hws.warm_iff hwritten.load hrun hfile hn hr0).2 (hsafe hw r hr0 hn)
  · rw [ProgramRun.after_of_not_writes hw]
    exact ⟨fun e he => (hfile e he).toUntuned, fun _ hc => absurd hc hw, fun _ => hfile⟩

/-! ## Sequences of runs -/

theorem loadsAll_iff {runs : List (ProgramRun D)} (hp : ∀ run ∈ runs, run.env.profile = false)
    {file : Option (StateFile D)} (hfile : ∀ e ∈ fileEntries file, Warm e) : LoadsAll file runs ↔ SafeRuns file runs := by
  induction runs generalizing file with
  | nil => exact Iff.rfl
  | cons run runs ih =>
    have hrun := hp run List.mem_cons_self
    have hload := (boLoadData_isSome_iff_warm hrun run.sobol fun e he => (hfile e he).toUntuned).2 hfile
    cases runs with
    | nil => exact ⟨fun _ => trivial, fun _ => ⟨hload, trivial⟩⟩
    | cons next runs =>
      obtain ⟨huntuned, hiff⟩ := run.after_warm_iff hfile
      have hnext := hp next (List.mem_cons_of_mem _ List.mem_cons_self)
      have ih : (∀ e ∈ fileEntries (run.after file), Warm e) →
          (LoadsAll (run.after file) (next :: runs) ↔ SafeRuns (run.after file) (next :: runs)) :=
        ih fun run h => hp run (List.mem_cons_of_mem _ h)
      constructor
      · rintro ⟨-, hloads⟩
        have hwarm := (boLoadData_isSome_iff_warm hnext next.sobol huntuned).1 hloads.1
        exact ⟨hiff.1 hwarm, (ih hwarm).1 hloads⟩
      · rintro ⟨hsafe, hrest⟩
        exact ⟨hload, (ih (hiff.2 hsafe)).2 hrest⟩

/-- From no file on, every load succeeds if and only if every run but the last is safe. -/
theorem lifeCycle_loads_iff {runs : List (ProgramRun D)} (hp : ∀ run ∈ runs, run.env.profile = false) :
    LoadsAll none runs ↔ SafeRuns none runs :=
  loadsAll_iff hp fun _ he => absurd he List.not_mem_nil

/-- A run that executes the loop of region 7 under the BO variant of FSS. -/
def fssProgram : ProgramRun ℚ := ⟨⟨plainEnv, quarter, fssRun, ""⟩, true⟩

/-- A run that executes no loop. -/
def idleProgram : ProgramRun ℚ := ⟨⟨plainEnv, quarter, [], ""⟩, true⟩

theorem fssRun_reports {r : RegionId} (hr : r ≠ 7) : ∀ call ∈ fssRun, call.reports r = none := by
  have hbegins : fssRun.map RuntimeCall.begins = [some ⟨7, true, 3, 4, 0⟩, none] := by decide +kernel
  intro call hcall
  have hmem := List.mem_map_of_mem (f := RuntimeCall.begins) hcall
  rw [hbegins, List.mem_pair] at hmem
  unfold RuntimeCall.reports
  rcases hmem with h | h
  · rw [h, Option.filter_some, if_neg (by simpa using hr.symm)]
    rfl
  · rw [h]
    rfl

theorem exitCount_fss {r : RegionId} (hn : exitCount plainEnv none fssRun r ≠ 0#64) : r = 7 := by
  by_contra hr
  refine hn ?_
  have hnone : lastRecorded r plainEnv.loopstat fssRun = none := lastRecorded_none (fssRun_reports hr) _
  unfold exitCount
  rw [hnone]
  rfl

theorem lifeCycle_loads_fss : LoadsAll none [fssProgram, fssProgram] := by
  refine (lifeCycle_loads_iff fun run h => ?_).2 ⟨fun _ r _ hn => ?_, trivial⟩
  · obtain rfl : run = fssProgram := by simpa using h
    rfl
  · obtain rfl := exitCount_fss hn
    exact ⟨Or.inr ⟨rfl, by decide⟩, by decide⟩

/-- A run between the two that executes no loop leaves an empty vector, whose element 0 the next load takes. -/
theorem lifeCycle_load_fails : ¬ LoadsAll none [fssProgram, idleProgram, fssProgram] := by
  rintro ⟨-, -, hload, -⟩
  exact absurd hload (by decide +kernel)

end Bosched
