/-
The training data of the surrogate in `LABO.jl`: `data_preprocess` flattens the `T` by `D` matrices of the executions,
puts the time axis beside the flattened `x` and whitens the flattened `y`, and `fit_surrogate` takes the same random
subset of both. Every column it trains on is the time, the input and the whitened target of one execution at one time.
-/
import Bosched.Lib.Columns
import Bosched.Runtime.Exact
import Mathlib.Data.List.GetD

namespace Bosched.Julia

open Lib

variable {D : Type} [CDouble D]

/-! ## `LABO.jl` -/

/-- A time index as a `Float64`. -/
def ofTime (t : Nat) : D := CDouble.ofLong (BitVec.ofNat 64 t)

/-- `floor(Int64, size / length)` of two lengths; there is no integer for the quotient by zero. -/
def numData (size length : Nat) : Option Nat := if length = 0 then none else some (size / length)

section

-- `mean` and `stdm` of the Statistics package; `vcat` of nothing is an array without a type, which has no mean
variable (mean : List D → D) (stdm : List D → D → D)

/-- `whiten`. -/
def whiten (y : List D) : Option (List D) :=
  if y.isEmpty then none
  else
    let μ := mean y
    let σ := stdm y μ
    let y := y.map (· - μ)
    some (y.map (· / σ))

/-- `data_preprocess`. -/
def dataPreprocess (dataX dataY : Columns D) (timeIdx : List Nat) : Option (Columns D × List D) := do
  let dataX ← dataX.rowsAt timeIdx
  let dataY ← dataY.rowsAt timeIdx
  let dataX := Columns.rowVector dataX.flatten
  let dataY := dataY.flatten
  let numData ← numData dataX.cols timeIdx.length
  let iterAxe := Columns.repeated timeIdx numData
  let dataX ← Columns.hcat (iterAxe.map ofTime) (← dataX.row 1)
  let dataY ← whiten mean stdm dataY
  return (dataX.transpose, dataY)

/-- `fit_surrogate`: the data in its call of `build_gp`. `sample ndata n` is what `knuths_sample!` puts into `n` cells. -/
def fitSurrogate (sample : Nat → Nat → List Nat) (dataX : Columns D) (dataY : List D) (subsample : Nat) :
    Option (Columns D × List D) :=
  let ndata := dataX.cols
  if ndata > subsample then do
    let idx := sample ndata subsample
    return (← dataX.colsAt idx, ← Columns.gather dataY idx)
  else some (dataX, dataY)

/-- The part of `labo` from the matrices to `build_gp`. -/
def trainingData (sample : Nat → Nat → List Nat) (dataX dataY : Columns D) (timeIdx : List Nat) (subsample : Nat) :
    Option (Columns D × List D) := do
  let (dataX, dataY) ← dataPreprocess mean stdm dataX dataY timeIdx
  fitSurrogate sample dataX dataY subsample

end

/-! ## Alignment -/

/-- `knuths_sample!(1:n, idx)` with `k` cells: distinct members of `1:n`. -/
structure KnuthsSample (sample : Nat → Nat → List Nat) : Prop where
  length : ∀ {n k : Nat}, k ≤ n → (sample n k).length = k
  mem : ∀ {n k i : Nat}, k ≤ n → i ∈ sample n k → 1 ≤ i ∧ i ≤ n
  nodup : ∀ {n k : Nat}, k ≤ n → (sample n k).Nodup

/-- Column `j` of `X` and element `j` of `Y` are the time, the input and the target under `w` of the `j`-th of `pairs`,
which are distinct pairs of a time in `timeIdx` and an execution. -/
structure Aligned (x y : Columns D) (timeIdx : List Nat) (w : D → D) (pairs : List (Nat × Nat)) (X : Columns D)
    (Y : List D) : Prop where
  rows : X.rows = 2
  cols : X.cols = pairs.length
  targets : Y.length = pairs.length
  time : ∀ {j t d : Nat}, pairs[j]? = some (t, d) → X.entry 1 (j + 1) = some (ofTime t)
  input : ∀ {j t d : Nat}, pairs[j]? = some (t, d) → ∃ v, x.entry t d = some v ∧ X.entry 2 (j + 1) = some v
  target : ∀ {j t d : Nat}, pairs[j]? = some (t, d) → ∃ v, y.entry t d = some v ∧ Y[j]? = some (w v)
  mem : ∀ {t d : Nat}, (t, d) ∈ pairs → t ∈ timeIdx ∧ 1 ≤ d ∧ d ≤ x.cols
  once : pairs.Nodup

/-- The pair at position `k` of the flattened matrices: times first, then executions. -/
def pairAt (timeIdx : List Nat) (k : Nat) : Nat × Nat := (timeIdx.getD (k % timeIdx.length) 0, k / timeIdx.length + 1)

theorem pairAt_inj {timeIdx : List Nat} (hn : timeIdx.Nodup) {n j k : Nat} (hj : j < n * timeIdx.length)
    (h : pairAt timeIdx j = pairAt timeIdx k) : j = k := by
  have hK : 0 < timeIdx.length := Nat.pos_of_ne_zero fun h0 => by simp [h0] at hj
  have htime := congrArg Prod.fst h
  have hdiv : j / timeIdx.length = k / timeIdx.length := Nat.succ.inj (congrArg Prod.snd h)
  have hmod : j % timeIdx.length = k % timeIdx.length := by
    unfold pairAt at htime
    simp only [List.getD_eq_getElem _ _ (Nat.mod_lt _ hK)] at htime
    exact (hn.getElem_inj_iff).mp htime
  rw [← Nat.div_add_mod j timeIdx.length, hdiv, hmod, Nat.div_add_mod]

theorem pairAt_mem {timeIdx : List Nat} {n k : Nat} (hk : k < n * timeIdx.length) :
    (pairAt timeIdx k).1 ∈ timeIdx ∧ 1 ≤ (pairAt timeIdx k).2 ∧ (pairAt timeIdx k).2 ≤ n := by
  have hK : 0 < timeIdx.length := Nat.pos_of_ne_zero fun h0 => by simp [h0] at hk
  unfold pairAt
  rw [List.getD_eq_getElem _ _ (Nat.mod_lt _ hK)]
  exact ⟨List.getElem_mem _, Nat.succ_pos _, Nat.div_lt_of_lt_mul (by rwa [Nat.mul_comm])⟩

theorem pairAt_surj {timeIdx : List Nat} {n t d : Nat} (ht : t ∈ timeIdx) (h1 : 1 ≤ d) (hd : d ≤ n) :
    ∃ k < n * timeIdx.length, pairAt timeIdx k = (t, d) := by
  obtain ⟨i, hi, rfl⟩ := List.getElem_of_mem ht
  refine ⟨(d - 1) * timeIdx.length + i, ?_, ?_⟩
  · calc (d - 1) * timeIdx.length + i < (d - 1) * timeIdx.length + timeIdx.length := Nat.add_lt_add_left hi _
      _ = (d - 1 + 1) * timeIdx.length := (Nat.succ_mul _ _).symm
      _ ≤ n * timeIdx.length := Nat.mul_le_mul_right _ (by omega)
  · have hmod : ((d - 1) * timeIdx.length + i) % timeIdx.length = i := by
      rw [Nat.mul_add_mod_self_right, Nat.mod_eq_of_lt hi]
    have hdiv : ((d - 1) * timeIdx.length + i) / timeIdx.length = d - 1 := by
      rw [Nat.add_comm, Nat.add_mul_div_right _ _ (by omega), Nat.div_eq_of_lt hi, Nat.zero_add]
    unfold pairAt
    rw [hmod, hdiv, List.getD_eq_getElem _ _ hi, Nat.sub_add_cancel h1]

/-! ## The flattened data -/

/-- The data before the subset is taken: everything at position `k` belongs to the pair at that position. -/
structure Flattened (x y : Columns D) (timeIdx : List Nat) (w : D → D) (X : Columns D) (Y : List D) : Prop where
  rows : X.rows = 2
  cols : X.cols = x.cols * timeIdx.length
  targets : Y.length = x.cols * timeIdx.length
  time : ∀ {k : Nat}, k < x.cols * timeIdx.length → X.entry 1 (k + 1) = some (ofTime (pairAt timeIdx k).1)
  input : ∀ {k : Nat}, k < x.cols * timeIdx.length →
    ∃ v, x.entry (pairAt timeIdx k).1 (pairAt timeIdx k).2 = some v ∧ X.entry 2 (k + 1) = some v
  target : ∀ {k : Nat}, k < x.cols * timeIdx.length →
    ∃ v, y.entry (pairAt timeIdx k).1 (pairAt timeIdx k).2 = some v ∧ Y[k]? = some (w v)

omit [CDouble D] in
/-- Element `k` of the selected rows laid end to end. -/
theorem rowsAt_flatten {x N : Columns D} {timeIdx : List Nat} (h : x.rowsAt timeIdx = some N)
    (ht : ∀ t ∈ timeIdx, 1 ≤ t ∧ t ≤ x.rows) {k : Nat} (hk : k < x.cols * timeIdx.length) :
    ∃ v, x.entry (pairAt timeIdx k).1 (pairAt timeIdx k).2 = some v ∧ N.flatten[k]? = some v := by
  have hK : 0 < timeIdx.length := Nat.pos_of_ne_zero fun h0 => by simp [h0] at hk
  obtain ⟨hrows, hcols, hentry⟩ := Columns.rowsAt_entry h
  have hget : timeIdx[k % timeIdx.length]? = some (pairAt timeIdx k).1 := by
    unfold pairAt
    rw [List.getD_eq_getElem _ _ (Nat.mod_lt _ hK), List.getElem?_eq_getElem]
  have hdata : N.flatten[k]? = x.entry (pairAt timeIdx k).1 (pairAt timeIdx k).2 := by
    rw [show N.flatten = N.data from rfl, N.data_getElem? (by rw [hrows, hcols]; exact hk), hrows]
    exact hentry _ _ _ hget
  obtain ⟨hmem, h1, hle⟩ := pairAt_mem hk
  obtain ⟨v, hv⟩ := Option.isSome_iff_exists.mp (Columns.entry_isSome.mpr ⟨ht _ hmem, h1, hle⟩)
  exact ⟨v, hv, hdata.trans hv⟩

theorem dataPreprocess_flattened (mean : List D → D) (stdm : List D → D → D) {x y : Columns D} {timeIdx : List Nat}
    (hrows : y.rows = x.rows) (hcols : y.cols = x.cols) (ht : ∀ t ∈ timeIdx, 1 ≤ t ∧ t ≤ x.rows)
    (hK : 0 < timeIdx.length) (hD : 0 < x.cols) :
    ∃ N X Y, y.rowsAt timeIdx = some N ∧ dataPreprocess mean stdm x y timeIdx = some (X, Y) ∧
      Flattened x y timeIdx (fun v => (v - mean N.flatten) / stdm N.flatten (mean N.flatten)) X Y := by
  obtain ⟨M, hM⟩ := Columns.rowsAt_isSome ht
  obtain ⟨N, hN⟩ := Columns.rowsAt_isSome (M := y) (by rwa [hrows])
  obtain ⟨hMr, hMc, -⟩ := Columns.rowsAt_entry hM
  obtain ⟨hNr, hNc, -⟩ := Columns.rowsAt_entry hN
  have hMlen : M.flatten.length = x.cols * timeIdx.length := by rw [← hMc, ← hMr]; exact M.length_data
  have hNlen : N.flatten.length = x.cols * timeIdx.length := by rw [← hcols, ← hNc, ← hNr]; exact N.length_data
  have hnum : numData (Columns.rowVector M.flatten).cols timeIdx.length = some x.cols := by
    unfold numData
    rw [if_neg (by omega), show (Columns.rowVector M.flatten).cols = M.flatten.length from rfl, hMlen,
      Nat.mul_div_cancel _ hK]
  have haxe : ((Columns.repeated timeIdx x.cols).map (ofTime (D := D))).length = x.cols * timeIdx.length := by
    rw [List.length_map, Columns.repeated_length]
  obtain ⟨H, hH⟩ := Columns.hcat_isSome (hMlen.trans haxe.symm)
  obtain ⟨hHr, hHc, hHe⟩ := Columns.hcat_entry hH
  have hne : N.flatten.isEmpty = false := by
    rw [List.isEmpty_eq_false_iff, ← List.length_pos_iff, hNlen]
    exact Nat.mul_pos hD hK
  refine ⟨N, H.transpose, (N.flatten.map (· - mean N.flatten)).map (· / stdm N.flatten (mean N.flatten)), hN, ?_, ?_⟩
  · unfold dataPreprocess whiten
    simp only [Option.bind_eq_bind, hM, hN, Option.bind_some, hnum, Columns.rowVector_row, hH, hne, Bool.false_eq_true,
      if_false, Option.pure_def]
  · refine ⟨hHc, hHr.trans haxe, by rw [List.length_map, List.length_map, hNlen], fun {k} hk => ?_, fun {k} hk => ?_,
      fun {k} hk => ?_⟩
    · have hpos : k % timeIdx.length < timeIdx.length := Nat.mod_lt k hK
      rw [Columns.transpose_entry, (hHe k).1, List.getElem?_map, Columns.repeated_getElem? _ hk,
        List.getElem?_eq_getElem hpos]
      unfold pairAt
      rw [List.getD_eq_getElem _ _ hpos]
      rfl
    · obtain ⟨v, hv, hflat⟩ := rowsAt_flatten hM ht hk
      exact ⟨v, hv, by rw [Columns.transpose_entry, (hHe k).2, hflat]⟩
    · obtain ⟨v, hv, hflat⟩ := rowsAt_flatten hN (by rwa [hrows]) (by rwa [hcols])
      exact ⟨v, hv, by rw [List.getElem?_map, List.getElem?_map, hflat]; rfl⟩

/-- Without a time or an execution there is no vector to whiten, and nothing is trained on. -/
theorem dataPreprocess_none (mean : List D → D) (stdm : List D → D → D) {x y : Columns D} {timeIdx : List Nat}
    (hcols : y.cols = x.cols) (h : timeIdx = [] ∨ x.cols = 0) : dataPreprocess mean stdm x y timeIdx = none := by
  cases hres : dataPreprocess mean stdm x y timeIdx with
  | none => rfl
  | some r =>
    unfold dataPreprocess at hres
    simp only [Option.bind_eq_bind, Option.bind_eq_some_iff] at hres
    obtain ⟨M, hM, N, hN, n, hn, _, -, H, hH, Y, hY, -⟩ := hres
    rcases h with rfl | hD
    · unfold numData at hn
      rw [List.length_nil, if_pos rfl] at hn
      cases hn
    · have hlen : N.flatten.length = 0 := by
        rw [show N.flatten = N.data from rfl, N.length_data, (Columns.rowsAt_entry hN).2.1, hcols, hD, Nat.zero_mul]
      unfold whiten at hY
      rw [List.length_eq_zero_iff.mp hlen, List.isEmpty_nil, if_pos rfl] at hY
      cases hY

/-! ## The subset -/

/-- The columns at distinct positions of the flattened data are aligned. -/
theorem Flattened.aligned {x y : Columns D} {timeIdx : List Nat} {w : D → D} {X X' : Columns D} {Y Y' : List D}
    (h : Flattened x y timeIdx w X Y) (hn : timeIdx.Nodup) {positions : List Nat} (hp : positions.Nodup)
    (hlt : ∀ k ∈ positions, k < x.cols * timeIdx.length) (hrows : X'.rows = 2) (hcols : X'.cols = positions.length)
    (hlen : Y'.length = positions.length)
    (hX : ∀ i j k : Nat, positions[j]? = some k → X'.entry i (j + 1) = X.entry i (k + 1))
    (hY : ∀ j k : Nat, positions[j]? = some k → Y'[j]? = Y[k]?) :
    Aligned x y timeIdx w (positions.map (pairAt timeIdx)) X' Y' := by
  have hat : ∀ {j t d : Nat}, (positions.map (pairAt timeIdx))[j]? = some (t, d) →
      ∃ k, positions[j]? = some k ∧ k < x.cols * timeIdx.length ∧ pairAt timeIdx k = (t, d) := by
    intro j t d hj
    rw [List.getElem?_map, Option.map_eq_some_iff] at hj
    obtain ⟨k, hk, hpair⟩ := hj
    exact ⟨k, hk, hlt k (List.mem_of_getElem? hk), hpair⟩
  refine ⟨hrows, by rw [List.length_map, hcols], by rw [List.length_map, hlen], fun hj => ?_, fun hj => ?_,
    fun hj => ?_, fun hmem => ?_, ?_⟩
  · obtain ⟨k, hk, hkl, hpair⟩ := hat hj
    rw [hX _ _ k hk, h.time hkl, hpair]
  · obtain ⟨k, hk, hkl, hpair⟩ := hat hj
    rw [hX _ _ k hk]
    simpa only [hpair] using h.input hkl
  · obtain ⟨k, hk, hkl, hpair⟩ := hat hj
    rw [hY _ k hk]
    simpa only [hpair] using h.target hkl
  · obtain ⟨k, hk, hpair⟩ := List.mem_map.mp hmem
    have hk' := pairAt_mem (hlt k hk)
    rwa [hpair] at hk'
  · exact hp.map_on fun j hj k _ heq => pairAt_inj hn (hlt j hj) heq

theorem range_getElem?_some {n j k : Nat} (h : (List.range n)[j]? = some k) : j = k := by
  obtain ⟨hj, rfl⟩ := List.getElem?_eq_some_iff.mp h
  exact (List.getElem_range hj).symm

theorem fitSurrogate_aligned {sample : Nat → Nat → List Nat} (hs : KnuthsSample sample) {x y : Columns D}
    {timeIdx : List Nat} (hn : timeIdx.Nodup) {w : D → D} {X : Columns D} {Y : List D}
    (h : Flattened x y timeIdx w X Y) (subsample : Nat) :
    ∃ X' Y' positions, fitSurrogate sample X Y subsample = some (X', Y') ∧
      Aligned x y timeIdx w (positions.map (pairAt timeIdx)) X' Y' ∧
      (x.cols * timeIdx.length ≤ subsample → positions = List.range (x.cols * timeIdx.length)) := by
  unfold fitSurrogate
  by_cases hlarge : X.cols > subsample
  · have hle : subsample ≤ X.cols := Nat.le_of_lt hlarge
    obtain ⟨X', hX'⟩ := Columns.colsAt_isSome fun i hi => hs.mem hle hi
    obtain ⟨Y', hY'⟩ := Columns.gather_isSome (v := Y) fun i hi => by
      rw [h.targets, ← h.cols]
      exact hs.mem hle hi
    obtain ⟨hr, hc, hXe⟩ := Columns.colsAt_entry hX'
    obtain ⟨hlen, hYe⟩ := Columns.gather_getElem? hY'
    have hat : ∀ {j k : Nat}, ((sample X.cols subsample).map (· - 1))[j]? = some k →
        (sample X.cols subsample)[j]? = some (k + 1) := by
      intro j k hj
      rw [List.getElem?_map, Option.map_eq_some_iff] at hj
      obtain ⟨i, hi, rfl⟩ := hj
      rw [hi, Nat.sub_add_cancel (hs.mem hle (List.mem_of_getElem? hi)).1]
    refine ⟨X', Y', (sample X.cols subsample).map (· - 1), ?_, h.aligned hn ?_ ?_ (hr.trans h.rows) ?_ ?_ ?_ ?_, ?_⟩
    · simp only [if_pos hlarge, hX', hY', Option.bind_eq_bind, Option.bind_some, Option.pure_def]
    · refine (hs.nodup hle).map_on fun i hi j hj heq => ?_
      have h1 := (hs.mem hle hi).1
      have h2 := (hs.mem hle hj).1
      omega
    · intro k hk
      obtain ⟨i, hi, rfl⟩ := List.mem_map.mp hk
      have h1 := hs.mem hle hi
      rw [h.cols] at h1
      omega
    · rw [List.length_map, hc]
    · rw [List.length_map, hlen]
    · exact fun i j k hj => hXe i j (k + 1) (hat hj)
    · exact fun j k hj => hYe j k (hat hj)
    · intro hsmall
      rw [h.cols] at hlarge
      omega
  · refine ⟨X, Y, List.range (x.cols * timeIdx.length), if_neg hlarge, h.aligned hn List.nodup_range ?_ h.rows ?_ ?_ ?_ ?_,
      fun _ => rfl⟩
    · exact fun k hk => List.mem_range.mp hk
    · rw [List.length_range, h.cols]
    · rw [List.length_range, h.targets]
    · intro i j k hj
      rw [range_getElem?_some hj]
    · intro j k hj
      rw [range_getElem?_some hj]

/-- What `labo` trains its surrogate on: pairs of a time of `timeIdx` and an execution, each at most once and all of them
if they are no more than `subsample`, with the input and the whitened target that belong to the pair. -/
theorem trainingData_aligned (mean : List D → D) (stdm : List D → D → D) {sample : Nat → Nat → List Nat}
    (hs : KnuthsSample sample) {x y : Columns D} (hrows : y.rows = x.rows) (hcols : y.cols = x.cols)
    {timeIdx : List Nat} (hinc : timeIdx.Pairwise (· < ·)) (ht : ∀ t ∈ timeIdx, 1 ≤ t ∧ t ≤ x.rows) (subsample : Nat) :
    (trainingData mean stdm sample x y timeIdx subsample = none ↔ timeIdx = [] ∨ x.cols = 0) ∧
    ∀ X Y, trainingData mean stdm sample x y timeIdx subsample = some (X, Y) →
      ∃ N μ σ pairs, y.rowsAt timeIdx = some N ∧ μ = mean N.flatten ∧ σ = stdm N.flatten μ ∧
        Aligned x y timeIdx (fun v => (v - μ) / σ) pairs X Y ∧
        (x.cols * timeIdx.length ≤ subsample → ∀ t ∈ timeIdx, ∀ d, 1 ≤ d → d ≤ x.cols → (t, d) ∈ pairs) := by
  by_cases hempty : timeIdx = [] ∨ x.cols = 0
  · have hnone : trainingData mean stdm sample x y timeIdx subsample = none := by
      unfold trainingData
      rw [dataPreprocess_none mean stdm hcols hempty]
      rfl
    refine ⟨iff_of_true hnone hempty, fun X Y h => ?_⟩
    rw [hnone] at h
    cases h
  · have hK : 0 < timeIdx.length := List.length_pos_iff.mpr fun h => hempty (.inl h)
    have hD : 0 < x.cols := Nat.pos_of_ne_zero fun h => hempty (.inr h)
    obtain ⟨N, X, Y, hN, hpre, hflat⟩ := dataPreprocess_flattened mean stdm hrows hcols ht hK hD
    obtain ⟨X', Y', positions, hfit, haligned, hall⟩ := fitSurrogate_aligned hs (hinc.imp Nat.ne_of_lt) hflat subsample
    have hres : trainingData mean stdm sample x y timeIdx subsample = some (X', Y') := by
      unfold trainingData
      rw [hpre]
      exact hfit
    refine ⟨iff_of_false (by rw [hres]; exact Option.some_ne_none _) hempty, fun X₁ Y₁ h => ?_⟩
    rw [hres] at h
    cases h
    refine ⟨N, _, _, _, hN, rfl, rfl, haligned, fun hsmall t htm d h1 hd => ?_⟩
    obtain ⟨k, hk, hpair⟩ := pairAt_surj htm h1 hd
    rw [hall hsmall]
    exact List.mem_map.mpr ⟨k, List.mem_range.mpr hk, hpair⟩

/-! ## Two times of two executions -/

def exactMean (y : List ℚ) : ℚ := y.sum / y.length

def exactStdm (y : List ℚ) (μ : ℚ) : ℚ := CDouble.sqrt ((y.map fun v => (v - μ) ^ 2).sum / (y.length - 1))

theorem firstOnes_knuthsSample : KnuthsSample fun _ k => List.range' 1 k where
  length _ := List.length_range'
  mem hk hi := by
    have := List.mem_range'_1.mp hi
    omega
  nodup _ := List.nodup_range'

/-- `[3 5; 4 6]`. -/
def inputsTwo : Columns ℚ := ⟨2, 2, [3, 4, 5, 6], rfl⟩

/-- `[0 0; 0 2]`. -/
def targetsTwo : Columns ℚ := ⟨2, 2, [0, 0, 0, 2], rfl⟩

/-- Three of the four pairs. -/
theorem trainingData_aligned_two : ∃ X Y w pairs,
    trainingData exactMean exactStdm (fun _ k => List.range' 1 k) inputsTwo targetsTwo [1, 2] 3 = some (X, Y) ∧
    X.data = [1, 3, 2, 4, 1, 5] ∧ Y = [-1 / 2, -1 / 2, -1 / 2] ∧ Aligned inputsTwo targetsTwo [1, 2] w pairs X Y := by
  have hrun : (trainingData exactMean exactStdm (fun _ k => List.range' 1 k) inputsTwo targetsTwo [1, 2] 3).map
      (fun r => (r.1.data, r.2)) = some ([1, 3, 2, 4, 1, 5], [-1 / 2, -1 / 2, -1 / 2]) := by decide +kernel
  obtain ⟨⟨X, Y⟩, hres, hdata⟩ := Option.map_eq_some_iff.mp hrun
  obtain ⟨hX, hY⟩ := Prod.mk.inj hdata
  have hinc : [1, 2].Pairwise (· < ·) := by decide
  have ht : ∀ t ∈ [1, 2], 1 ≤ t ∧ t ≤ inputsTwo.rows := by decide
  obtain ⟨-, h⟩ := trainingData_aligned exactMean exactStdm firstOnes_knuthsSample
    (x := inputsTwo) (y := targetsTwo) rfl rfl hinc ht 3
  obtain ⟨_, _, _, pairs, -, -, -, haligned, -⟩ := h X Y hres
  exact ⟨X, Y, _, pairs, hres, hX, hY, haligned⟩

end Bosched.Julia
