/-
The tuner, `bosched.jl`, on the files that runs and the tuner itself leave. `update_dataset` moves the
observation vectors of an entry to its history, and `bosched_mode` cuts the history to its shortest
vector. An error ends the tuner before it writes the file; `LABO.labo` is a parameter.
-/
import Bosched.State.LifeCycle

namespace Bosched

open Lib

variable {D : Type}

/-! ## `bosched.jl` -/

/-- The arguments `extra` and `thres` of `bosched_mode`. -/
structure TunerArgs where
  extra : Int
  thres : Int

/-- The matrices `x` and `y`, as lists of columns. -/
structure Matrices (D : Type) where
  rows : Nat
  x : List (List D)
  y : List (List D)

/-- What `LABO.labo` is called with; `y` is negated in the call. -/
structure LaboArgs (D : Type) where
  x : List (List D)
  y : List (List D)
  timeMax : Int

/-- `LABO.labo`: `θ_next` and `θ_mean`. -/
abbrev Labo (D : Type) := LaboArgs D → Option (D × D)

/-- `update_dataset`; a missing key is an error. -/
def updateDataset (l : LoopJson D) : Option (LoopJson D) := do
  let l := if l.histX.isNone then { l with histX := some [], histY := some [] } else l
  let obsX ← l.obsX
  if obsX.isEmpty then return l
  else
    return { l with
      histX := some ((← l.histX) ++ obsX), histY := some ((← l.histY) ++ (← l.obsY))
      obsX := some [], obsY := some [] }

/-- `i[1:n]`. -/
def firstRows (n : Nat) (v : List D) : Option (List D) := if n ≤ v.length then some (v.take n) else none

/-- `x` and `y` of an entry: its vectors cut to the shortest one, as columns. -/
def dataMatrices (l : LoopJson D) : Option (Matrices D) := do
  let histX ← l.histX
  let histY ← l.histY
  let lmax ← (histX.map List.length).min?
  let x ← histX.mapM (firstRows lmax)
  let y ← histY.mapM (firstRows lmax)
  if x.length = y.length then return ⟨lmax, x, y⟩ else none

variable [CDouble D]

/-- `ceil(Int64, v)`: an error outside of the range of `Int64`, as for an infinity or a NaN. -/
def ceilInt (v : D) : Option Int :=
  let c := CDouble.ceil v
  if CDouble.lt c 9223372036854775808.0 && !CDouble.lt c (0.0 - 9223372036854775808.0) then some (CDouble.toLong c).toInt
  else none

/-- `time_max` of the extrapolation. -/
def timeMax (D : Type) [CDouble D] (args : TunerArgs) (rows : Nat) : Option Int :=
  ceilInt ((CDouble.ofLong (BitVec.ofNat 64 rows) / CDouble.ofLong (BitVec.ofInt 64 args.thres) : D) *
    CDouble.ofLong (BitVec.ofInt 64 args.extra))

/-- The choice between the sum over executions and the extrapolation. -/
def laboArgs (args : TunerArgs) (m : Matrices D) : Option (LaboArgs D) :=
  if args.extra < 0 ∨ (m.rows : Int) < args.thres then
    -- `x[1:1, :]` and `sum(y, dims=1)`
    if m.rows = 0 then none
    else some ⟨m.x.map fun col => col.take 1, m.y.map fun col => [col.foldl (· + ·) 0.0], 1⟩
  else if args.thres < m.rows then do
    return ⟨m.x, m.y, ← timeMax D args m.rows⟩
  else some ⟨m.x, m.y, args.extra⟩

/-- `bosched_mode` on one entry, up to the call of `LABO.labo`. -/
def laboCall (args : TunerArgs) (l : LoopJson D) : Option (LoopJson D × Matrices D × LaboArgs D) := do
  let l ← updateDataset l
  let m ← dataMatrices l
  return (l, m, ← laboArgs args m)

/-- `argmin`: the position of the first least element. -/
def argmin : List D → Option Nat
  | [] => none
  | y :: ys => some ((ys.zipIdx 1).foldl (fun best p => if CDouble.lt p.1 best.1 then p else best) (y, 0)).2

/-- One iteration of `bosched_mode`. -/
def boschedLoop (args : TunerArgs) (labo : Labo D) (l : LoopJson D) : Option (LoopJson D) := do
  let id ← l.id
  if id = 0#64 then return l
  let n ← l.n
  if n = 0#64 then return l
  let (l, _, input) ← laboCall args l
  let (next, mean) ← labo input
  let best ← (← l.histX).flatten[← argmin (← l.histY).flatten]?
  return { l with evalParam1 := some best, evalParam2 := some mean, param := some next, warmup := some false }

/-- `bosched_mode`; there is no iterating over `nothing`. -/
def boschedMode (args : TunerArgs) (labo : Labo D) (loops : Option (List (LoopJson D))) : Option (List (LoopJson D)) := do
  (← loops).mapM (boschedLoop args labo)

/-! ## Runs of the program and of the tuner -/

/-- A run of the program or of the tuner. -/
inductive FileStep (D : Type)
  | run (run : ProgramRun D)
  | tune (args : TunerArgs) (labo : Labo D)

/-- The state file after a run of the tuner. -/
def tunerAfter (args : TunerArgs) (labo : Labo D) (file : Option (StateFile D)) : Option (StateFile D) :=
  file.map fun f => ((boschedMode args labo f.loops).map fun loops => { f with loops := some loops }).getD f

def FileStep.after (file : Option (StateFile D)) : FileStep D → Option (StateFile D)
  | .run program => program.after file
  | .tune args labo => tunerAfter args labo file

/-- The state file after a sequence of runs. -/
def fileAfter (file : Option (StateFile D)) (steps : List (FileStep D)) : Option (StateFile D) :=
  steps.foldl FileStep.after file

/-- The entry `e` gets to the call of `LABO.labo`: `l` is the updated entry, `m` its matrices. -/
structure EntryReady (args : TunerArgs) (e l : LoopJson D) (m : Matrices D) (input : LaboArgs D) : Prop where
  call : laboCall args e = some (l, m, input)
  histX : l.histX = some (e.histX.getD [] ++ e.obsX.getD [])
  histY : l.histY = some (e.histY.getD [] ++ e.obsY.getD [])
  obsX : l.obsX = some []
  obsY : l.obsY = some []
  rows : 0 < m.rows
  columns : 0 < m.x.length
  columnsX : m.x.length = (e.histX.getD [] ++ e.obsX.getD []).length
  columnsY : m.y.length = m.x.length
  columnX : ∀ col ∈ m.x, col.length = m.rows
  columnY : ∀ col ∈ m.y, col.length = m.rows

/-- The tuner gets to the call of `LABO.labo` with every entry it does not pass over. -/
def TunerAccepts (args : TunerArgs) (f : StateFile D) : Prop :=
  ∃ loops, f.loops = some loops ∧ ∀ e ∈ loops, (∃ r n, e.id = some r ∧ e.n = some n) ∧
    (¬ e.skipped → ∃ l m input, EntryReady args e l m input)

/-! ## Files the tuner accepts -/

omit [CDouble D] in
/-- The vectors of an entry, history first. -/
def LoopJson.vectors (e : LoopJson D) : List (List D) := e.histX.getD [] ++ e.obsX.getD []

/-- The extrapolation horizon of the entry is an `Int64`. -/
def HorizonFits (args : TunerArgs) (e : LoopJson D) : Prop :=
  let rows := ((e.vectors.map List.length).min?).getD 0
  args.extra < 0 ∨ (rows : Int) ≤ args.thres ∨ (timeMax D args rows).isSome

/-- The run writes at least one entry, and observed every region it writes. -/
def ProgramRun.Observes (run : ProgramRun D) (file : Option (StateFile D)) : Prop :=
  run.Writes file → (∃ r, exitCount run.env file run.calls r ≠ 0#64) ∧
    ∀ r, r ≠ 0#64 → exitCount run.env file run.calls r ≠ 0#64 → records r false run.calls = true

/-- Every run of the program in the sequence observes what it writes. -/
def ObservedSteps : Option (StateFile D) → List (FileStep D) → Prop
  | _, [] => True
  | file, FileStep.run run :: steps => run.Observes file ∧ ObservedSteps (run.after file) steps
  | file, FileStep.tune args labo :: steps => ObservedSteps (tunerAfter args labo file) steps

/-- Vectors of parameters and vectors of times that belong together. -/
def Paired (x y : List (List D)) : Prop := List.Forall₂ (fun a b => a ≠ [] ∧ a.length = b.length) x y

/-- An entry the tuner can use. -/
structure Usable (e : LoopJson D) : Prop where
  hist : (e.histX = none ∧ e.histY = none) ∨ ∃ x y, e.histX = some x ∧ e.histY = some y ∧ Paired x y
  obs : ∃ x y, e.obsX = some x ∧ e.obsY = some y ∧ Paired x y
  vectors : e.vectors ≠ []

/-- A file the tuner can use. -/
structure UsableFile (f : StateFile D) : Prop where
  loops : f.loops ≠ none
  keys : ∀ e ∈ f.entries, ∃ r n, e.id = some r ∧ e.n = some n
  usable : ∀ e ∈ f.entries, ¬ e.skipped → Usable e

omit [CDouble D]

theorem Usable.paired {e : LoopJson D} (h : Usable e) :
    Paired (e.histX.getD [] ++ e.obsX.getD []) (e.histY.getD [] ++ e.obsY.getD []) := by
  obtain ⟨x, y, hx, hy, hobs⟩ := h.obs
  rw [hx, hy]
  rcases h.hist with ⟨hnx, hny⟩ | ⟨x', y', hx', hy', hhist⟩
  · rw [hnx, hny]
    exact hobs
  · rw [hx', hy']
    exact List.rel_append hhist hobs

/-- The entry after `update_dataset`: the observations are history, all of them and once. -/
def LoopJson.updated (e : LoopJson D) : LoopJson D :=
  { e with
    histX := some (e.histX.getD [] ++ e.obsX.getD []), histY := some (e.histY.getD [] ++ e.obsY.getD [])
    obsX := some [], obsY := some [] }

theorem updateDataset_usable {e : LoopJson D} (h : Usable e) : updateDataset e = some e.updated := by
  obtain ⟨x, y, hx, hy, hobs⟩ := h.obs
  have hhist := h.hist
  unfold updateDataset LoopJson.updated
  cases e
  dsimp only at hx hy hhist ⊢
  subst hx hy
  rcases hhist with ⟨rfl, rfl⟩ | ⟨x', y', rfl, rfl, -⟩ <;> cases hobs <;> simp

theorem mapM_firstRows {n : Nat} {vs : List (List D)} (h : ∀ v ∈ vs, n ≤ v.length) :
    vs.mapM (firstRows n) = some (vs.map fun v => v.take n) := by
  induction vs with
  | nil => rfl
  | cons v vs ih =>
    have hv := h v List.mem_cons_self
    rw [List.mapM_cons, ih fun v hm => h v (List.mem_cons_of_mem _ hm)]
    simp [firstRows, hv]

/-- The second vector of a pair is as long as the first. -/
theorem Paired.length_mem {x y : List (List D)} (h : Paired x y) : ∀ b ∈ y, ∃ a ∈ x, a.length = b.length := by
  induction h with
  | nil => simp
  | cons hab _ ih =>
    intro b hb
    rcases List.mem_cons.1 hb with rfl | hb
    · exact ⟨_, List.mem_cons_self, hab.2⟩
    · obtain ⟨a, ha, hlen⟩ := ih b hb
      exact ⟨a, List.mem_cons_of_mem _ ha, hlen⟩

theorem Paired.ne_nil {x y : List (List D)} (h : Paired x y) : ∀ a ∈ x, a ≠ [] := by
  induction h with
  | nil => simp
  | cons hab _ ih => exact List.forall_mem_cons.2 ⟨hab.1, ih⟩

/-- Where every vector holds an observation, the matrices have a row, and a column for each vector. -/
theorem dataMatrices_usable {e : LoopJson D} (h : Usable e) : ∃ rows,
    (e.vectors.map List.length).min? = some rows ∧ 0 < rows ∧ (∀ a ∈ e.vectors, rows ≤ a.length) ∧
      (∀ b ∈ e.histY.getD [] ++ e.obsY.getD [], rows ≤ b.length) ∧
      dataMatrices e.updated = some ⟨rows, e.vectors.map fun v => v.take rows,
        (e.histY.getD [] ++ e.obsY.getD []).map fun v => v.take rows⟩ := by
  have hpaired := h.paired
  have hsome : ((e.vectors.map List.length).min?).isSome := by
    rw [List.isSome_min?_iff]
    simpa using h.vectors
  obtain ⟨rows, hmin⟩ := Option.isSome_iff_exists.1 hsome
  obtain ⟨hmem, hle⟩ := List.min?_eq_some_iff.1 hmin
  have hx : ∀ a ∈ e.vectors, rows ≤ a.length := fun a ha => hle _ (List.mem_map_of_mem ha)
  have hy : ∀ b ∈ e.histY.getD [] ++ e.obsY.getD [], rows ≤ b.length := by
    intro b hb
    obtain ⟨a, ha, hlen⟩ := hpaired.length_mem b hb
    exact hlen ▸ hx a ha
  have hpos : 0 < rows := by
    obtain ⟨a, ha, rfl⟩ := List.mem_map.1 hmem
    exact List.length_pos_iff.2 (hpaired.ne_nil a ha)
  refine ⟨rows, hmin, hpos, hx, hy, ?_⟩
  have hlen : (e.histX.getD [] ++ e.obsX.getD []).length = (e.histY.getD [] ++ e.obsY.getD []).length :=
    hpaired.length_eq
  unfold LoopJson.vectors at hmin hx ⊢
  unfold dataMatrices LoopJson.updated
  dsimp only
  simp only [Option.bind_eq_bind, Option.bind_some, hmin, mapM_firstRows hx, mapM_firstRows hy, List.length_map]
  rw [if_pos hlen]
  rfl

variable [CDouble D]

theorem laboArgs_isSome {args : TunerArgs} {m : Matrices D} (hrows : 0 < m.rows)
    (h : args.extra < 0 ∨ (m.rows : Int) ≤ args.thres ∨ (timeMax D args m.rows).isSome) : ∃ input, laboArgs args m = some input := by
  unfold laboArgs
  split
  · rw [if_neg (by omega)]
    exact ⟨_, rfl⟩
  · rename_i hsum
    split
    · rename_i hlt
      have ht : (timeMax D args m.rows).isSome := by
        rcases h with h | h | h
        · exact absurd (Or.inl h) hsum
        · omega
        · exact h
      obtain ⟨t, ht⟩ := Option.isSome_iff_exists.1 ht
      rw [ht]
      exact ⟨_, rfl⟩
    · exact ⟨_, rfl⟩

theorem entryReady_of_usable {args : TunerArgs} {e : LoopJson D} (h : Usable e) (hargs : HorizonFits args e) :
    ∃ l m input, EntryReady args e l m input := by
  obtain ⟨rows, hmin, hpos, hx, hy, hdata⟩ := dataMatrices_usable h
  unfold HorizonFits at hargs
  rw [hmin, Option.getD_some] at hargs
  obtain ⟨input, hinput⟩ := laboArgs_isSome (m := ⟨rows, e.vectors.map fun v => v.take rows,
    (e.histY.getD [] ++ e.obsY.getD []).map fun v => v.take rows⟩) hpos hargs
  refine ⟨e.updated, ⟨rows, e.vectors.map fun v => v.take rows,
    (e.histY.getD [] ++ e.obsY.getD []).map fun v => v.take rows⟩, input, ?_, rfl, rfl, rfl, rfl, hpos, ?_, ?_, ?_, ?_, ?_⟩
  · unfold laboCall
    rw [updateDataset_usable h]
    simp only [Option.bind_eq_bind, Option.bind_some, hdata, hinput]
    rfl
  · simpa [List.length_pos_iff] using h.vectors
  · rw [List.length_map]
    rfl
  · rw [List.length_map, List.length_map]
    exact h.paired.length_eq.symm
  · intro col hcol
    obtain ⟨v, hv, rfl⟩ := List.mem_map.1 hcol
    exact List.length_take_of_le (hx v hv)
  · intro col hcol
    obtain ⟨v, hv, rfl⟩ := List.mem_map.1 hcol
    exact List.length_take_of_le (hy v hv)

/-! ## Every run leaves a file the tuner can use -/

omit [CDouble D] in
theorem Usable.updated {e : LoopJson D} (h : Usable e) : Usable e.updated := by
  refine ⟨Or.inr ⟨_, _, rfl, rfl, h.paired⟩, ⟨[], [], rfl, rfl, .nil⟩, ?_⟩
  have hv := h.vectors
  unfold LoopJson.vectors LoopJson.updated at *
  simpa using hv

/-- An iteration of `bosched_mode` keeps the keys and the vectors. -/
theorem boschedLoop_usable {args : TunerArgs} {labo : Labo D} {e e' : LoopJson D} (hu : ¬ e.skipped → Usable e)
    (h : boschedLoop args labo e = some e') : e'.id = e.id ∧ e'.n = e.n ∧ (¬ e'.skipped → Usable e') := by
  obtain ⟨r, hr, h⟩ := Option.bind_eq_some_iff.1 h
  split at h
  · cases h
    exact ⟨rfl, rfl, hu⟩
  · rename_i hr0
    obtain ⟨n, hn, h⟩ := Option.bind_eq_some_iff.1 h
    split at h
    · cases h
      exact ⟨rfl, rfl, hu⟩
    · rename_i hn0
      have hskip : ¬ e.skipped := by
        unfold LoopJson.skipped
        rw [hr, hn, Option.some.injEq, Option.some.injEq]
        exact not_or.2 ⟨hr0, hn0⟩
      have hu := hu hskip
      obtain ⟨⟨l, m, input⟩, hcall, h⟩ := Option.bind_eq_some_iff.1 h
      obtain ⟨⟨next, mean⟩, -, h⟩ := Option.bind_eq_some_iff.1 h
      obtain ⟨x, -, h⟩ := Option.bind_eq_some_iff.1 h
      obtain ⟨y, -, h⟩ := Option.bind_eq_some_iff.1 h
      obtain ⟨i, -, h⟩ := Option.bind_eq_some_iff.1 h
      obtain ⟨best, -, h⟩ := Option.bind_eq_some_iff.1 h
      cases h
      obtain ⟨l', hupdate, hcall⟩ := Option.bind_eq_some_iff.1 hcall
      obtain ⟨m', -, hcall⟩ := Option.bind_eq_some_iff.1 hcall
      obtain ⟨input', -, hcall⟩ := Option.bind_eq_some_iff.1 hcall
      cases hcall
      obtain rfl : e.updated = l := Option.some.inj ((updateDataset_usable hu).symm.trans hupdate)
      exact ⟨rfl, rfl, fun _ => ⟨hu.updated.hist, hu.updated.obs, hu.updated.vectors⟩⟩

omit [CDouble D] in
theorem exists_of_mapM {α β : Type} {f : α → Option β} {l : List α} {l' : List β} (h : l.mapM f = some l') {b : β}
    (hb : b ∈ l') : ∃ a ∈ l, f a = some b := by
  induction l generalizing l' with
  | nil =>
    cases h
    cases hb
  | cons a l ih =>
    rw [List.mapM_cons] at h
    obtain ⟨b', hhead, h⟩ := Option.bind_eq_some_iff.1 h
    obtain ⟨bs, htail, h⟩ := Option.bind_eq_some_iff.1 h
    cases h
    rcases List.mem_cons.1 hb with rfl | hb
    · exact ⟨a, List.mem_cons_self, hhead⟩
    · obtain ⟨a', ha', hf⟩ := ih htail hb
      exact ⟨a', List.mem_cons_of_mem _ ha', hf⟩

/-- A run of the tuner leaves a file it can use again. -/
theorem tunerAfter_usable {args : TunerArgs} {labo : Labo D} {f f' : StateFile D} (hf : UsableFile f)
    (h : tunerAfter args labo (some f) = some f') : UsableFile f' := by
  unfold tunerAfter at h
  rw [Option.map_some, Option.some.injEq] at h
  cases hmode : boschedMode args labo f.loops with
  | none =>
    rw [hmode] at h
    exact h ▸ hf
  | some loops =>
    rw [hmode, Option.map_some, Option.getD_some] at h
    obtain ⟨old, hold, hmode⟩ := Option.bind_eq_some_iff.1 hmode
    have hentries : f.entries = old := by
      unfold StateFile.entries
      rw [hold, Option.getD_some]
    have hnew : ∀ e' ∈ f'.entries, ∃ e ∈ f.entries, boschedLoop args labo e = some e' := by
      intro e' he'
      rw [← h] at he'
      rw [hentries]
      exact exists_of_mapM hmode he'
    subst h
    refine ⟨by simp, fun e' he' => ?_, fun e' he' => ?_⟩
    · obtain ⟨e, he, hloop⟩ := hnew e' he'
      obtain ⟨hid, hn, -⟩ := boschedLoop_usable (hf.usable e he) hloop
      rw [hid, hn]
      exact hf.keys e he
    · obtain ⟨e, he, hloop⟩ := hnew e' he'
      exact (boschedLoop_usable (hf.usable e he) hloop).2.2

omit [CDouble D] in
theorem loadedEntry_usable {file : Option (StateFile D)} (hfile : ∀ f, file = some f → UsableFile f) (r : RegionId) :
    loadedEntry file r = .null ∨ Usable (loadedEntry file r) := by
  unfold loadedEntry
  cases hl : entryOf (fileEntries file) r with
  | none => exact Or.inl rfl
  | some l =>
    obtain ⟨hmem, -, hskip⟩ := entryOf_some hl
    cases file with
    | none => cases hmem
    | some f => exact Or.inr ((hfile f rfl).usable l hmem hskip)

/-- One more pair of vectors, not empty, keeps an entry usable. -/
theorem WrittenFrom.usable {env : Env D} {file : Option (StateFile D)} {g : Globals D} {calls : List (RuntimeCall D)}
    {r : RegionId} {s : LoopJson D} (h : WrittenFrom env file g calls r s) (hobs : observations r g calls ≠ [])
    (hl : loadedEntry file r = .null ∨ Usable (loadedEntry file r)) : Usable s := by
  have hx := h.obsX
  have hy := h.obsY
  have hhx : s.histX = (loadedEntry file r).histX := h.carried.histX
  have hhy : s.histY = (loadedEntry file r).histY := h.carried.histY
  have hlast : Paired [(observations r g calls).map (·.1)] [(observations r g calls).map (·.2)] :=
    .cons ⟨by simpa using hobs, by simp⟩ .nil
  refine ⟨?_, ⟨_, _, hx, hy, ?_⟩, ?_⟩
  · rw [hhx, hhy]
    rcases hl with hl | hl
    · rw [hl]
      exact Or.inl ⟨rfl, rfl⟩
    · exact hl.hist
  · refine List.rel_append ?_ hlast
    rcases hl with hl | hl
    · rw [hl]
      exact .nil
    · obtain ⟨x, y, hox, hoy, hpaired⟩ := hl.obs
      rw [hox, hoy]
      exact hpaired
  · unfold LoopJson.vectors
    rw [hx]
    simp

/-- A run of the program that observes what it writes leaves a file the tuner can use. -/
theorem ProgramRun.after_usable {run : ProgramRun D} {file : Option (StateFile D)} {f' : StateFile D}
    (hfile : ∀ f, file = some f → UsableFile f) (hobs : run.Observes file) (h : run.after file = some f') :
    UsableFile f' := by
  by_cases hw : run.Writes file
  · obtain ⟨⟨r₀, hr₀⟩, hobs⟩ := hobs hw
    obtain ⟨g, f, hwritten⟩ := hw.written
    obtain ⟨g', hrun⟩ := hwritten.runs
    obtain rfl : f = f' := Option.some.inj (hwritten.after.symm.trans h)
    refine ⟨fun hnull => ?_, fun s hs => ?_, fun s hs hskip => ?_⟩
    · obtain ⟨s, hs, -⟩ := hwritten.regions r₀ hr₀
      unfold StateFile.entries at hs
      rw [hnull] at hs
      cases hs
    · obtain ⟨r, hws, -⟩ := hwritten.entries s hs
      exact ⟨r, _, hws.id, hws.n⟩
    · obtain ⟨r, hws, hn⟩ := hwritten.entries s hs
      have hr : r ≠ 0#64 := by
        rintro rfl
        exact hskip (Or.inl hws.id)
      have hrec := records_iff hrun r
      rw [hwritten.load.isBoSchedule] at hrec
      exact hws.usable (hrec.2 (hobs r hr hn)) (loadedEntry_usable hfile r)
  · rw [ProgramRun.after_of_not_writes hw] at h
    exact hfile f' h

theorem fileAfter_usable {steps : List (FileStep D)} {file : Option (StateFile D)}
    (hfile : ∀ f, file = some f → UsableFile f) (h : ObservedSteps file steps) {f : StateFile D}
    (hf : fileAfter file steps = some f) : UsableFile f := by
  induction steps generalizing file with
  | nil => exact hfile f hf
  | cons step steps ih =>
    cases step with
    | run program => exact ih (fun f' hf' => ProgramRun.after_usable hfile h.1 hf') h.2 hf
    | tune args labo =>
      refine ih (fun f' hf' => ?_) h hf
      cases file with
      | none => cases hf'
      | some f₀ => exact tunerAfter_usable (hfile f₀ rfl) hf'

/-- In every sequence of runs of the program, each observing what it writes, and of the tuner, the file at
the end takes the tuner to the call of `LABO.labo` with every entry. -/
theorem tuner_accepts {steps : List (FileStep D)} (h : ObservedSteps none steps) {f : StateFile D}
    (hf : fileAfter none steps = some f) {args : TunerArgs}
    (hargs : ∀ e ∈ f.entries, ¬ e.skipped → HorizonFits args e) : TunerAccepts args f := by
  have hu := fileAfter_usable (fun f h => by cases h) h hf
  obtain ⟨loops, hloops⟩ := Option.ne_none_iff_exists'.1 hu.loops
  have hentries : f.entries = loops := by
    unfold StateFile.entries
    rw [hloops, Option.getD_some]
  refine ⟨loops, hloops, fun e he => ?_⟩
  rw [← hentries] at he
  exact ⟨hu.keys e he, fun hskip => entryReady_of_usable (hu.usable e he hskip) (hargs e he hskip)⟩

theorem tuner_accepts_fss : ∃ f, fileAfter none [.run fssProgram] = some f ∧ TunerAccepts ⟨-1, -1⟩ f := by
  have hsome : (fileAfter none [.run fssProgram]).isSome = true := by decide +kernel
  obtain ⟨f, hf⟩ := Option.isSome_iff_exists.1 hsome
  have hobserved : ObservedSteps none [.run fssProgram] := by
    refine ⟨fun _ => ⟨⟨7, by decide⟩, fun r _ hn => ?_⟩, trivial⟩
    obtain rfl := exitCount_fss hn
    decide
  exact ⟨f, hf, tuner_accepts hobserved hf fun _ _ _ => Or.inl (by decide)⟩

/-- After a run that does not execute the loop, the shortest vector is empty and `x[1:1, :]` has no row to take. -/
theorem tuner_fails_after_idle : ∃ f, fileAfter none [.run fssProgram, .run idleProgram] = some f ∧
    ¬ TunerAccepts ⟨-1, -1⟩ f := by
  have h : (fileAfter none [.run fssProgram, .run idleProgram]).any (fun f => f.entries.any fun e =>
      decide (¬ e.skipped) && (laboCall ⟨-1, -1⟩ e).isNone) = true := by decide +kernel
  obtain ⟨f, hf, h⟩ := (Option.any_eq_true _ _).1 h
  obtain ⟨e, he, h⟩ := List.any_eq_true.1 h
  obtain ⟨hskip, hnone⟩ := Bool.and_eq_true_iff.1 h
  refine ⟨f, hf, ?_⟩
  rintro ⟨loops, hloops, hready⟩
  have hmem : e ∈ loops := by
    unfold StateFile.entries at he
    rwa [hloops, Option.getD_some] at he
  obtain ⟨l, m, input, hentry⟩ := (hready e hmem).2 (of_decide_eq_true hskip)
  rw [hentry.call] at hnone
  cases hnone

end Bosched
