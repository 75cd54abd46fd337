/-
The state file: `state_io.hpp` and `param.hpp`. The JSON library keeps values as they are, so a file
is the values of its keys. Reading a key that is not there, an element of an empty array, or `null`
as a number is `none`.
-/
import Bosched.Runtime.Registry

namespace Bosched

open Lib

variable {D : Type}

/-- The state file. `write_loops` and `bo_save_data` write all four keys; `loops` is `null` when no
loop was serialised. `qrng` is the position of the Sobol sequence. -/
structure StateFile (D : Type) where
  date : String
  numLoops : Nat
  loops : Option (List (LoopJson D))
  qrng : Nat

/-- What `loop_state_t state;` leaves indeterminate, by region. -/
structure Indeterminate (D : Type) where
  numTasks : RegionId → Word
  evalParam : RegionId → D
  start : RegionId → Int

abbrev LoopStates (D : Type) := AList fun _ : RegionId => LoopState D

/-! ## `read_state` -/

/-- The entries `read_state` and the tuner pass over. -/
def LoopJson.skipped (l : LoopJson D) : Prop := l.id = some 0#64 ∨ l.n = some 0#64

instance (l : LoopJson D) : Decidable l.skipped := by unfold LoopJson.skipped; infer_instance

/-- `param` and `eval_param` of a loaded entry. -/
def readParams (hist : Bool) (junk : D) (l : LoopJson D) : Bool → Option (D × D)
  | false => do return (← l.param, ← if hist then l.evalParam1 else l.evalParam2)
  | true => do return (← (← (← l.obsX).getLast?).head?, junk)

/-- One iteration of `read_state`; `some none` is `continue`. -/
def readEntry (hist : Bool) (junk : Indeterminate D) (l : LoopJson D) : Option (Option (RegionId × LoopState D)) := do
  let id ← l.id
  if id = 0#64 then return none
  let n ← l.n
  if n = 0#64 then return none
  let warmup ← l.warmup
  let (param, evalParam) ← readParams hist (junk.evalParam id) l warmup
  return some (id, {
    param := param, numTasks := junk.numTasks id, evalParam := evalParam, obsX := [], obsY := []
    warmingUp := warmup, start := junk.start id, loopJson := l })

/-- `read_state`. -/
def readState (hist : Bool) (junk : Indeterminate D) (loops : List (LoopJson D)) : Option (LoopStates D) :=
  loops.foldlM (fun states l => do
    match ← readEntry hist junk l with
    | none => return states
    | some (id, state) => return states.insert id state) ∅

/-! ## `write_state` -/

/-- One iteration of `write_state`; `none` is `continue`. -/
def writeEntry (id : RegionId) (state : LoopState D) : Option (LoopJson D) :=
  if state.numTasks = 0#64 then none
  else some { state.loopJson with
    id := some id, warmup := some state.warmingUp, n := some state.numTasks
    obsX := some (state.loopJson.obsX.getD [] ++ [state.obsX])
    obsY := some (state.loopJson.obsY.getD [] ++ [state.obsY]) }

/-- `write_state`: `null` until the first `emplace_back`. -/
def writeState (states : LoopStates D) : Option (List (LoopJson D)) :=
  match states.entries.filterMap fun e => writeEntry e.1 e.2 with
  | [] => none
  | loops => some loops

/-- `write_loops`, with the `qrng` key `bo_save_data` adds. -/
def writeLoops (date : String) (qrng : Nat) (states : LoopStates D) : StateFile D :=
  { date := date, numLoops := states.entries.length, loops := writeState states, qrng := qrng }

/-- The entries a file holds. -/
def StateFile.entries (f : StateFile D) : List (LoopJson D) := f.loops.getD []

/-- `read_loops`. -/
def readLoops (hist : Bool) (junk : Indeterminate D) (f : StateFile D) : Option (LoopStates D) :=
  readState hist junk f.entries

/-! ## `load_workload_params` -/

/-- The `param_bundle` of one loop. -/
def readBundle [CDouble D] (l : LoopJson D) : Option (WorkloadParams D) :=
  match l.params with
  | none => some WorkloadParams.zero
  | some p => do
    return {
      css := ← p.css, fss := ← p.fss, tss := p.tss, tape := p.tape
      binlpt := p.binlpt.getD [], hss := p.hss.getD [] }

/-- `load_workload_params`. -/
def loadWorkloadParams [CDouble D] (f : StateFile D) : Option (AList fun _ : RegionId => WorkloadParams D) :=
  f.entries.foldlM (fun result l => do
    let bundle ← readBundle l
    return result.insert (← l.id) bundle) ∅

/-! ## What is read -/

/-- The entry whose state `read_state` keeps for region `r`: the last one with that id. -/
def entryOf (loops : List (LoopJson D)) (r : RegionId) : Option (LoopJson D) :=
  loops.reverse.find? fun l => l.id = some r ∧ ¬ l.skipped

theorem entryOf_some {loops : List (LoopJson D)} {r : RegionId} {l : LoopJson D} (h : entryOf loops r = some l) :
    l ∈ loops ∧ l.id = some r ∧ ¬ l.skipped := by
  have hp := List.find?_some h
  simp only [decide_eq_true_eq] at hp
  exact ⟨List.mem_reverse.1 (List.mem_of_find?_eq_some h), hp⟩

theorem entryOf_isSome {loops : List (LoopJson D)} {r : RegionId} {l : LoopJson D} (hl : l ∈ loops)
    (hid : l.id = some r) (hs : ¬ l.skipped) : ∃ l', entryOf loops r = some l' := by
  rw [← Option.isSome_iff_exists]
  unfold entryOf
  rw [List.find?_isSome]
  exact ⟨l, List.mem_reverse.2 hl, by simp [hid, hs]⟩

/-- What is kept of the entry `l` of region `r`: `param` is what `bo_load_data` makes of it. -/
structure LoadedFrom (hist : Bool) (junk : Indeterminate D) (r : RegionId) (l : LoopJson D) (s : LoopState D) : Prop where
  warmup : l.warmup = some s.warmingUp
  numTasks : s.numTasks = junk.numTasks r
  obsX : s.obsX = []
  obsY : s.obsY = []
  loopJson : s.loopJson = l
  params : ∃ param, readParams hist (junk.evalParam r) l s.warmingUp = some (param, s.evalParam) ∧
    (s.warmingUp = false → s.param = param)

theorem readEntry_none {hist : Bool} {junk : Indeterminate D} {l : LoopJson D} (h : readEntry hist junk l = some none) :
    l.skipped := by
  obtain ⟨id, hid, h⟩ := Option.bind_eq_some_iff.1 h
  split at h
  · rename_i h0
    exact Or.inl (h0 ▸ hid)
  · obtain ⟨n, hn, h⟩ := Option.bind_eq_some_iff.1 h
    split at h
    · rename_i h0
      exact Or.inr (h0 ▸ hn)
    · obtain ⟨w, -, h⟩ := Option.bind_eq_some_iff.1 h
      obtain ⟨⟨p, e⟩, -, h⟩ := Option.bind_eq_some_iff.1 h
      cases h

theorem readEntry_some {hist : Bool} {junk : Indeterminate D} {l : LoopJson D} {r : RegionId} {s : LoopState D}
    (h : readEntry hist junk l = some (some (r, s))) : l.id = some r ∧ ¬ l.skipped ∧ LoadedFrom hist junk r l s := by
  obtain ⟨id, hid, h⟩ := Option.bind_eq_some_iff.1 h
  split at h
  · cases h
  · rename_i hid0
    obtain ⟨n, hn, h⟩ := Option.bind_eq_some_iff.1 h
    split at h
    · cases h
    · rename_i hn0
      obtain ⟨w, hw, h⟩ := Option.bind_eq_some_iff.1 h
      obtain ⟨⟨p, e⟩, hp, h⟩ := Option.bind_eq_some_iff.1 h
      cases h
      refine ⟨hid, ?_, hw, rfl, rfl, rfl, rfl, p, hp, fun _ => rfl⟩
      unfold LoopJson.skipped
      rw [hid, hn, Option.some.injEq, Option.some.injEq]
      exact not_or.2 ⟨hid0, hn0⟩

/-- When `read_state` gets through, the state of a region is that of its last entry. -/
theorem readState_lookup {hist : Bool} {junk : Indeterminate D} {loops : List (LoopJson D)} {states : LoopStates D}
    (h : readState hist junk loops = some states) (r : RegionId) :
    (entryOf loops r = none ∧ states.lookup r = none) ∨
      ∃ l s, entryOf loops r = some l ∧ states.lookup r = some s ∧ LoadedFrom hist junk r l s := by
  induction loops using List.reverseRecOn generalizing states with
  | nil =>
    cases h
    exact Or.inl ⟨rfl, AList.lookup_empty r⟩
  | append_singleton loops l ih =>
    unfold readState at h
    rw [List.foldlM_append] at h
    obtain ⟨states', hrest, h⟩ := Option.bind_eq_some_iff.1 h
    have hlast : entryOf (loops ++ [l]) r = if l.id = some r ∧ ¬ l.skipped then some l else entryOf loops r := by
      unfold entryOf
      rw [List.reverse_append, List.reverse_singleton, List.singleton_append, List.find?_cons]
      split <;> simp_all
    rw [hlast]
    obtain ⟨e, he, h⟩ := Option.bind_eq_some_iff.1 h
    obtain ⟨o, ho, he⟩ := Option.bind_eq_some_iff.1 he
    cases h
    cases o with
    | none =>
      cases he
      rw [if_neg fun hc => hc.2 (readEntry_none ho)]
      exact ih hrest
    | some p =>
      obtain ⟨id, s⟩ := p
      cases he
      obtain ⟨hid, hs, hl⟩ := readEntry_some ho
      by_cases hr : r = id
      · subst hr
        rw [if_pos ⟨hid, hs⟩]
        exact Or.inr ⟨l, s, rfl, AList.lookup_insert _, hl⟩
      · rw [if_neg fun hc => hr (Option.some.inj (hc.1.symm.trans hid)), AList.lookup_insert_ne hr]
        exact ih hrest

/-! ## What is written -/

theorem writeEntry_eq {id : RegionId} {s : LoopState D} (h : s.numTasks ≠ 0#64) :
    writeEntry id s = some { s.loopJson with
      id := some id, warmup := some s.warmingUp, n := some s.numTasks
      obsX := some (s.loopJson.obsX.getD [] ++ [s.obsX])
      obsY := some (s.loopJson.obsY.getD [] ++ [s.obsY]) } := if_neg h

theorem writeEntry_some {id : RegionId} {s : LoopState D} {e : LoopJson D} (h : writeEntry id s = some e) :
    s.numTasks ≠ 0#64 ∧ e.id = some id := by
  unfold writeEntry at h
  split at h
  · cases h
  · rename_i hn
    cases h
    exact ⟨hn, rfl⟩

theorem writeLoops_entries (date : String) (qrng : Nat) (states : LoopStates D) :
    (writeLoops date qrng states).entries = states.entries.filterMap fun e => writeEntry e.1 e.2 := by
  unfold writeLoops StateFile.entries writeState
  split
  · rename_i h
    rw [h]
    rfl
  · rfl

/-- A written entry is the entry of a region of the map. -/
theorem mem_writeLoops {date : String} {qrng : Nat} {states : LoopStates D} {e : LoopJson D} :
    e ∈ (writeLoops date qrng states).entries ↔ ∃ r s, states.lookup r = some s ∧ writeEntry r s = some e := by
  rw [writeLoops_entries, List.mem_filterMap]
  constructor
  · rintro ⟨⟨r, s⟩, hmem, he⟩
    exact ⟨r, s, AList.mem_lookup_iff.2 hmem, he⟩
  · rintro ⟨r, s, hs, he⟩
    exact ⟨⟨r, s⟩, AList.mem_lookup_iff.1 hs, he⟩

end Bosched
