/-
The sums of task weights in `unsigned`: those of `gomp_loop_init` and `gomp_iter_hss_next` for `FS_HSS`, and those
of the cut of `binlpt_balance`. They are the sums in the integers as long as the total of the weights that
`stretch` makes of a profile fits 32 bits.
-/
import Bosched.Iter.Hss
import Bosched.Packing.Stages

namespace Bosched

open Lib

/-! ## The weights -/

section

variable {K : Type} [Field K] [LinearOrder K]

namespace Julia

/-- `minimum(arr)`. -/
def minimum (arr : List K) : K := arr.foldl min (arr.headD 0)

/-- `maximum(arr)`. -/
def maximum (arr : List K) : K := arr.foldl max (arr.headD 0)

/-- `stretch(arr, lo, hi)`. -/
def stretch (arr : List K) (lo hi : K) : List K :=
  arr.map fun x => (x - minimum arr) / maximum arr * (hi - lo) + lo

end Julia

variable [FloorRing K]

/-- `static_cast<unsigned>(elem)` of a number in range. -/
def toUnsigned (x : K) : U32 := BitVec.ofNat 32 ⌊x⌋₊

/-- The `hss` weights that `load_workload_params` makes of what `classic_mode` stores for a profile. -/
def hssWeights (prof : List K) : List U32 := (Julia.stretch prof 1 4096).map toUnsigned

/-- `classic_mode` stretches the profile to the weight range. -/
def Stretched (prof : List K) : Prop := ∀ x ∈ Julia.stretch prof 1 4096, 1 ≤ x ∧ x ≤ 4096

end

/-- The total weight. -/
def totalWeight (tasks : List U32) : Nat := prefixWeight tasks 0 tasks.length

/-! ## The sums -/

/-- The pairs `w1`, `w2` that the loop of `gomp_iter_hss_next` computes from task `i` on. -/
def hssSums (tasks : List U32) (ntasks : Nat) (chunksize : Word) : Nat → Nat → U32 → Option (List (U32 × U32))
  | 0, _, _ => some []
  | fuel + 1, i, chunkweight =>
    if i < ntasks then do
      let w1 := chunkweight + (← tasks[i]?)
      let w2 ← hssW2 tasks ntasks i w1
      if (w2.setWidth 64).sle chunksize then return (w1, w2) :: (← hssSums tasks ntasks chunksize fuel (i + 1) w1)
      else if chunksize.sle (w1.setWidth 64) then return [(w1, w2)]
      else if (chunksize - w1.setWidth 64).slt (w2.setWidth 64 - chunksize) then return [(w1, w2)]
      else return (w1, w2) :: (← hssSums tasks ntasks chunksize fuel (i + 1) w1)
    else some []

/-- The loop of `gomp_iter_hss_next` makes one iteration for each pair, and the last `w1` is its `chunkweight`. -/
theorem hssScan_eq_sums (tasks : List U32) (ntasks : Nat) (chunksize : Word) : ∀ (fuel i k : Nat) (chunkweight : U32),
    hssScan tasks ntasks chunksize fuel i k chunkweight = (hssSums tasks ntasks chunksize fuel i chunkweight).map
      fun sums => (k + sums.length, (sums.getLast?.map Prod.fst).getD chunkweight)
  | 0, i, k, chunkweight => rfl
  | fuel + 1, i, k, chunkweight => by
    have hrest : ∀ (w1 w2 : U32), hssScan tasks ntasks chunksize fuel (i + 1) (k + 1) w1 =
        ((hssSums tasks ntasks chunksize fuel (i + 1) w1).map fun sums => (w1, w2) :: sums).map
          fun sums => (k + sums.length, (sums.getLast?.map Prod.fst).getD chunkweight) := by
      intro w1 w2
      rw [hssScan_eq_sums tasks ntasks chunksize fuel, Option.map_map]
      refine congrArg (fun f => Option.map f _) (funext fun sums => ?_)
      show (k + 1 + sums.length, _) = (k + (sums.length + 1), _)
      rw [Nat.add_assoc, Nat.add_comm 1, List.getLast?_cons]
      cases sums.getLast? <;> rfl
    unfold hssScan hssSums
    by_cases hi : i < ntasks
    · rw [if_pos hi, if_pos hi]
      cases tasks[i]? with
      | none => rfl
      | some w =>
        simp only [Option.bind_eq_bind, Option.bind_some]
        cases hssW2 tasks ntasks i (chunkweight + w) with
        | none => rfl
        | some w2 =>
          simp only [Option.bind_some]
          split
          · rw [hrest _ w2]
            cases hssSums tasks ntasks chunksize fuel (i + 1) (chunkweight + w) <;> rfl
          · split
            · rfl
            · split
              · rfl
              · rw [hrest _ w2]
                cases hssSums tasks ntasks chunksize fuel (i + 1) (chunkweight + w) <;> rfl
    · rw [if_neg hi, if_neg hi]
      rfl

/-- The accumulations over the weights are the sums in the integers. -/
structure ExactSums (D : Type) [CDouble D] (tasks : List U32) : Prop where
  /-- `ws->wremaining` after `gomp_loop_init` -/
  wremaining : ∀ (g g' : Globals D) (ws ws' : GompWorkShare D) (nthreads start incr : Word) (r : RegionId),
    (g.param r).hss = tasks →
    gompLoopInitSched g ws (BitVec.ofNat 64 tasks.length) nthreads start incr .fsHss r = some (g', ws') →
      ws'.wremaining.toNat = totalWeight tasks
  /-- `chunkweight` and its look-ahead in `gomp_iter_hss_next` -/
  chunkweight : ∀ (chunksize : Word) (i : Nat) (sums : List (U32 × U32)),
    hssSums tasks tasks.length chunksize (tasks.length - i) i 0 = some sums → ∀ m w1 w2, sums[m]? = some (w1, w2) →
      w1.toNat = prefixWeight tasks i (m + 1) ∧
      w2.toNat = if i + m + 1 < tasks.length then prefixWeight tasks i (m + 2) else 0
  /-- the prefix sums of `compute_cummulativesum` -/
  workload : ∀ sum, computeCummulativesum tasks tasks.length = some sum → ∀ i < tasks.length, ∃ s, sum[i]? = some s ∧
    s.toNat = prefixWeight tasks 0 i
  /-- the total in `compute_chunksizes` -/
  total : ∀ sum s w, computeCummulativesum tasks tasks.length = some sum → sum[tasks.length - 1]? = some s →
    tasks[tasks.length - 1]? = some w → (s + w).toNat = totalWeight tasks
  /-- the chunk sums of `compute_chunks` -/
  chunks : ∀ K sizes chunks, computeChunksizes tasks tasks.length K = some sizes →
    computeChunks tasks sizes K = some chunks → ∀ m < K, ∃ c, chunks[m]? = some c ∧ c.toNat = chunkWeight tasks sizes m

/-! ## A total that fits -/

section

variable {tasks : List U32}

theorem prefixWeight_le_total (tasks : List U32) (i k : Nat) : prefixWeight tasks i k ≤ totalWeight tasks := by
  have hadd := prefixWeight_add tasks i k
  have hall : prefixWeight tasks 0 (i + k) ≤ prefixWeight tasks 0 (max (i + k) tasks.length) :=
    prefixWeight_mono tasks 0 (le_max_left _ _)
  have hlen : prefixWeight tasks 0 (max (i + k) tasks.length) = totalWeight tasks := by
    unfold totalWeight prefixWeight prefixSum
    rw [List.drop_zero, List.take_of_length_le (by simp), List.take_of_length_le (by simp)]
  omega

/-- Loops that add up the weights from task `i` on. -/
theorem toNat_ofNat_prefixWeight (h : totalWeight tasks < 2 ^ 32) (i k : Nat) :
    (BitVec.ofNat 32 (prefixWeight tasks i k)).toNat = prefixWeight tasks i k := by
  rw [BitVec.toNat_ofNat, Nat.mod_eq_of_lt (lt_of_le_of_lt (prefixWeight_le_total tasks i k) h)]

theorem hssSums_exact (h : totalWeight tasks < 2 ^ 32) {chunksize : Word} {i : Nat} : ∀ {fuel k : Nat} {cw : U32}
    {sums : List (U32 × U32)}, cw.toNat = prefixWeight tasks i k →
      hssSums tasks tasks.length chunksize fuel (i + k) cw = some sums → ∀ m w1 w2, sums[m]? = some (w1, w2) →
        w1.toNat = prefixWeight tasks i (k + m + 1) ∧
        w2.toNat = if i + (k + m) + 1 < tasks.length then prefixWeight tasks i (k + m + 2) else 0
  | 0, k, cw, sums, hcw, hs, m, w1, w2, hm => by
    cases hs
    cases hm
  | fuel + 1, k, cw, sums, hcw, hs, m, w1, w2, hm => by
    unfold hssSums at hs
    by_cases hi : i + k < tasks.length
    · rw [if_pos hi] at hs
      obtain ⟨w, hw, hs⟩ := Option.bind_eq_some_iff.1 hs
      obtain ⟨v2, hv2, hs⟩ := Option.bind_eq_some_iff.1 hs
      have hfit : ∀ n, prefixWeight tasks i n < 2 ^ 32 := fun n => lt_of_le_of_lt (prefixWeight_le_total tasks i n) h
      have hv1 : (cw + w).toNat = prefixWeight tasks i (k + 1) :=
        toNat_add_weight hcw hw (Nat.lt_succ_self k) (hfit (k + 1))
      -- the look-ahead, which is zero after the last task
      have hv2' : v2.toNat = if i + k + 1 < tasks.length then prefixWeight tasks i (k + 2) else 0 := by
        unfold hssW2 at hv2
        split at hv2
        · rename_i hnext
          obtain ⟨w', hw', rfl⟩ := Option.map_eq_some_iff.1 hv2
          rw [if_pos hnext]
          exact toNat_add_weight hv1 (by rw [← Nat.add_assoc]; exact hw') (Nat.lt_succ_self (k + 1)) (hfit (k + 2))
        · rename_i hlast
          cases hv2
          rw [if_neg hlast]
          rfl
      have hhead : ∀ {rest : List (U32 × U32)}, sums = (cw + w, v2) :: rest →
          (∀ m w1 w2, rest[m]? = some (w1, w2) → w1.toNat = prefixWeight tasks i (k + 1 + m + 1) ∧
            w2.toNat = if i + (k + 1 + m) + 1 < tasks.length then prefixWeight tasks i (k + 1 + m + 2) else 0) →
          w1.toNat = prefixWeight tasks i (k + m + 1) ∧
            w2.toNat = if i + (k + m) + 1 < tasks.length then prefixWeight tasks i (k + m + 2) else 0 := by
        rintro rest rfl hrest
        cases m with
        | zero =>
          cases hm
          exact ⟨hv1, hv2'⟩
        | succ m =>
          have := hrest m w1 w2 hm
          rwa [show k + 1 + m = k + (m + 1) by omega] at this
      have hgo : (hssSums tasks tasks.length chunksize fuel (i + k + 1) (cw + w)).bind
          (fun sums => some ((cw + w, v2) :: sums)) = some sums →
          w1.toNat = prefixWeight tasks i (k + m + 1) ∧
            w2.toNat = if i + (k + m) + 1 < tasks.length then prefixWeight tasks i (k + m + 2) else 0 := by
        intro hs
        obtain ⟨rest, hrest, heq⟩ := Option.bind_eq_some_iff.1 hs
        exact hhead (Option.some.inj heq).symm fun m w1 w2 hm => hssSums_exact h (k := k + 1) hv1 hrest m w1 w2 hm
      have hstop : some [(cw + w, v2)] = some sums →
          w1.toNat = prefixWeight tasks i (k + m + 1) ∧
            w2.toNat = if i + (k + m) + 1 < tasks.length then prefixWeight tasks i (k + m + 2) else 0 :=
        fun hs => hhead (Option.some.inj hs).symm nofun
      split at hs
      · exact hgo hs
      · split at hs
        · exact hstop hs
        · split at hs
          · exact hstop hs
          · exact hgo hs
    · rw [if_neg hi] at hs
      cases hs
      cases hm

/-- The loop over `__tasks` in `gomp_loop_init` adds up the weights in the arithmetic of `unsigned`. -/
theorem sumLoop_eq {hss : List U32} {n : Nat} (hread : ∀ i ∈ List.range n, ∃ w, hss[i]? = some w) :
    (List.range n).foldlM (fun w i => do return w + (← hss[i]?)) 0 = some (BitVec.ofNat 32 (prefixWeight hss 0 n)) := by
  obtain ⟨s, hs, rfl⟩ := foldlM_range (f := fun w i => do return w + (← hss[i]?)) (b := 0) (n := n)
    (fun i s => s = BitVec.ofNat 32 (prefixWeight hss 0 i)) (by rw [prefixWeight_zero]; rfl) fun i s hi hI => by
      obtain ⟨w, hw⟩ := hread i (List.mem_range.2 hi)
      subst hI
      refine ⟨BitVec.ofNat 32 (prefixWeight hss 0 i) + w, by rw [hw]; rfl, ?_⟩
      rw [prefixWeight_succ (by rwa [zero_add]), BitVec.ofNat_add, BitVec.ofNat_toNat, BitVec.setWidth_eq]
  exact hs

/-- `ws->wremaining` after the init. -/
theorem wremaining_eq {D : Type} [CDouble D] {g g' : Globals D} {ws ws' : GompWorkShare D} {n nthreads start incr : Word}
    {r : RegionId} (h : gompLoopInitSched g ws n nthreads start incr .fsHss r = some (g', ws')) :
    ws'.wremaining = BitVec.ofNat 32 (prefixWeight (g.param r).hss 0 (n.setWidth 32).toNat) := by
  obtain ⟨wremaining, hfold, h⟩ := Option.bind_eq_some_iff.1 h
  cases h
  -- the loop reads each entry, so it can be followed to the end
  have hread : ∀ i ∈ List.range (n.setWidth 32).toNat, ∃ w, (g.param r).hss[i]? = some w := by
    intro i hi
    obtain ⟨b, b', -, hb'⟩ := foldlM_mem (fun _ => True) (fun _ _ _ _ _ => trivial) trivial hfold i hi
    obtain ⟨w, hw, -⟩ := Option.bind_eq_some_iff.1 hb'
    exact ⟨w, hw⟩
  exact Option.some.inj (hfold.symm.trans (sumLoop_eq hread))

/-- Weights of at least 1 add up to at least their number. -/
theorem length_le_total (hpos : ∀ w ∈ tasks, 1 ≤ w.toNat) : tasks.length ≤ totalWeight tasks := by
  have hle : ∀ n ≤ tasks.length, n ≤ prefixWeight tasks 0 n := by
    intro n
    induction n with
    | zero => exact fun _ => Nat.zero_le _
    | succ n ih =>
      intro hn
      obtain ⟨w, hw⟩ : ∃ w, tasks[n]? = some w := ⟨_, List.getElem?_eq_getElem hn⟩
      have := ih (by omega)
      have := hpos w (List.mem_of_getElem? hw)
      rw [prefixWeight_succ (by rwa [zero_add])]
      omega
  exact hle _ (le_refl _)

theorem exactSums_of_lt {D : Type} [CDouble D] (hne : tasks ≠ []) (hpos : ∀ w ∈ tasks, 1 ≤ w.toNat)
    (h : totalWeight tasks < 2 ^ 32) : ExactSums D tasks := by
  have hn0 : 0 < tasks.length := List.length_pos_of_ne_nil hne
  have hn : tasks.length < 2 ^ 32 := lt_of_le_of_lt (length_le_total hpos) h
  have hfit : ∀ i k, (BitVec.ofNat 32 (prefixWeight tasks i k)).toNat = prefixWeight tasks i k := toNat_ofNat_prefixWeight h
  constructor
  · rintro g g' ws ws' nthreads start incr r rfl hinit
    have hcount : ((BitVec.ofNat 64 (g.param r).hss.length).setWidth 32 : U32).toNat = (g.param r).hss.length := by
      rw [BitVec.toNat_setWidth, BitVec.toNat_ofNat, Nat.mod_eq_of_lt (by omega : (g.param r).hss.length < 2 ^ 64),
        Nat.mod_eq_of_lt hn]
    rw [wremaining_eq hinit, hcount]
    exact hfit 0 _
  · intro chunksize i sums hs m w1 w2 hm
    have := hssSums_exact h (k := 0) (by rw [prefixWeight_zero]; rfl : (0 : U32).toNat = _) hs m w1 w2 hm
    simpa only [zero_add] using this
  · intro sum hsum i hi
    obtain ⟨sum', hsum', hcum⟩ := computeCummulativesum_spec hn0 (le_refl _) h
    obtain rfl : sum = sum' := Option.some.inj (hsum.symm.trans hsum')
    exact hcum i hi
  · intro sum s w hsum hs hw
    obtain ⟨sum', hsum', hcum⟩ := computeCummulativesum_spec hn0 (le_refl _) h
    obtain rfl : sum = sum' := Option.some.inj (hsum.symm.trans hsum')
    obtain ⟨s', hs', hsv⟩ := hcum (tasks.length - 1) (by omega)
    obtain rfl : s = s' := Option.some.inj (hs.symm.trans hs')
    rw [toNat_add_weight hsv (by rwa [zero_add]) (by omega : tasks.length - 1 < tasks.length) h, Nat.sub_add_cancel hn0]
    rfl
  · intro K sizes chunks hsizes hchunks m hm
    obtain ⟨sizes', hsizes', hcuts⟩ := computeChunksizes_some hn0 (le_refl _) hn (by omega : 0 < K)
    obtain rfl : sizes = sizes' := Option.some.inj (hsizes.symm.trans hsizes')
    obtain ⟨chunks', hchunks', -, hc⟩ := computeChunks_ofNat hcuts (le_refl _)
    obtain rfl : chunks = chunks' := Option.some.inj (hchunks.symm.trans hchunks')
    have hle : chunkWeight tasks sizes m ≤ totalWeight tasks :=
      le_trans (Nat.sub_le _ _) (prefixWeight_le_total tasks 0 _)
    refine ⟨_, hc m hm, ?_⟩
    rw [BitVec.toNat_ofNat, Nat.mod_eq_of_lt (by omega)]

/-- A 32-bit `ws->wremaining` cannot be a total that does not fit 32 bits. -/
theorem lt_of_exactSums {D : Type} [CDouble D] (h : ExactSums D tasks) : totalWeight tasks < 2 ^ 32 := by
  let g : Globals D := (Globals.fresh 1).setParam 0 { WorkloadParams.zero with hss := tasks }
  have hhss : (g.param 0).hss = tasks := by rw [Globals.param_setParam]
  have hle : ((BitVec.ofNat 64 tasks.length).setWidth 32 : U32).toNat ≤ tasks.length := by
    rw [BitVec.toNat_setWidth, BitVec.toNat_ofNat]
    exact le_trans (Nat.mod_le _ _) (Nat.mod_le _ _)
  have hread : ∀ i ∈ List.range ((BitVec.ofNat 64 tasks.length).setWidth 32 : U32).toNat, ∃ w, (g.param 0).hss[i]? = some w := by
    intro i hi
    rw [hhss]
    exact ⟨_, List.getElem?_eq_getElem (lt_of_lt_of_le (List.mem_range.1 hi) hle)⟩
  have hinit : ∃ p, gompLoopInitSched g GompWorkShare.zero (BitVec.ofNat 64 tasks.length) 1 0 1 .fsHss 0 = some p := 
    ⟨_, Option.bind_eq_some_iff.2 ⟨_, sumLoop_eq hread, rfl⟩⟩
  obtain ⟨⟨g', ws'⟩, hinit⟩ := hinit
  rw [← h.wremaining g g' _ ws' 1 0 1 0 hhss hinit]
  exact ws'.wremaining.isLt

end

/-! ## Profiles -/

section

variable {K : Type} [LinearOrder K]

theorem foldl_min_le {l : List K} : ∀ {a : K}, l.foldl min a ≤ a ∧ ∀ x ∈ l, l.foldl min a ≤ x := by
  induction l with
  | nil => exact ⟨le_refl _, nofun⟩
  | cons y l ih =>
    intro a
    obtain ⟨h1, h2⟩ := ih (a := min a y)
    refine ⟨le_trans h1 (min_le_left _ _), fun x hx => ?_⟩
    rcases List.mem_cons.1 hx with rfl | hx
    · exact le_trans h1 (min_le_right _ _)
    · exact h2 x hx

theorem le_foldl_max {l : List K} : ∀ {a : K}, a ≤ l.foldl max a ∧ ∀ x ∈ l, x ≤ l.foldl max a := by
  induction l with
  | nil => exact ⟨le_refl _, nofun⟩
  | cons y l ih =>
    intro a
    obtain ⟨h1, h2⟩ := ih (a := max a y)
    refine ⟨le_trans (le_max_left _ _) h1, fun x hx => ?_⟩
    rcases List.mem_cons.1 hx with rfl | hx
    · exact le_trans (le_max_right _ _) h1
    · exact h2 x hx

variable [Field K] [IsStrictOrderedRing K] {prof : List K}

/-- A profile of times that are not negative, and not all zero, is stretched to the weight range. -/
theorem stretched_of_nonneg (h0 : ∀ x ∈ prof, 0 ≤ x) (hpos : ∃ x ∈ prof, 0 < x) : Stretched prof := by
  obtain ⟨p, hp, hp0⟩ := hpos
  have hmax : 0 < Julia.maximum prof := lt_of_lt_of_le hp0 (le_foldl_max.2 p hp)
  have hmin : 0 ≤ Julia.minimum prof := by
    have hmem : ∀ {l : List K} {a : K}, 0 ≤ a → (∀ x ∈ l, 0 ≤ x) → 0 ≤ l.foldl min a := by
      intro l
      induction l with
      | nil => exact fun ha _ => ha
      | cons y l ih => exact fun ha hl => ih (le_min ha (hl y List.mem_cons_self)) fun x hx => hl x (List.mem_cons_of_mem y hx)
    refine hmem ?_ h0
    cases prof with
    | nil => exact le_refl _
    | cons y l => exact h0 y List.mem_cons_self
  intro w hw
  obtain ⟨x, hx, rfl⟩ := List.mem_map.1 hw
  have hlow : Julia.minimum prof ≤ x := foldl_min_le.2 x hx
  have hhigh : x ≤ Julia.maximum prof := le_foldl_max.2 x hx
  have h1 : 0 ≤ (x - Julia.minimum prof) / Julia.maximum prof := div_nonneg (by linarith) hmax.le
  have h2 : (x - Julia.minimum prof) / Julia.maximum prof ≤ 1 := by
    rw [div_le_one hmax]
    linarith
  constructor <;> linarith

variable [FloorRing K]

theorem hssWeights_mem (h : Stretched prof) {w : U32} (hw : w ∈ hssWeights prof) : 1 ≤ w.toNat ∧ w.toNat ≤ 4096 := by
  obtain ⟨x, hx, rfl⟩ := List.mem_map.1 hw
  obtain ⟨h1, h2⟩ := h x hx
  have hlow : 1 ≤ ⌊x⌋₊ := Nat.le_floor (by simpa using h1)
  have hhigh : ⌊x⌋₊ ≤ 4096 := Nat.floor_le_of_le (by simpa using h2)
  unfold toUnsigned
  rw [BitVec.toNat_ofNat, Nat.mod_eq_of_lt (by omega)]
  exact ⟨hlow, hhigh⟩

/-- The accumulations over the weights of a profile are exact if, and only if, the total weight fits 32 bits. -/
theorem exactSums_iff (D : Type) [CDouble D] (hne : prof ≠ []) (h : Stretched prof) :
    ExactSums D (hssWeights prof) ↔ totalWeight (hssWeights prof) < 2 ^ 32 := by
  refine ⟨lt_of_exactSums, exactSums_of_lt ?_ fun w hw => (hssWeights_mem h hw).1⟩
  unfold hssWeights Julia.stretch
  simp only [ne_eq, List.map_eq_nil_iff]
  exact hne

end

/-- Three iterations that take 1, 2 and 3 microseconds. -/
theorem exactSums_iff_three : ExactSums ℚ (hssWeights [(1 : ℚ), 2, 3]) :=
  (exactSums_iff ℚ (by decide) (stretched_of_nonneg (by decide +kernel) ⟨1, by decide +kernel, by decide +kernel⟩)).2
    (by decide +kernel)

/-- One iteration that takes no time and `n` that take equally long. -/
theorem hssWeights_flat {n : Nat} (hn : 0 < n) : hssWeights (0 :: List.replicate n (1 : ℚ)) = 1 :: List.replicate n 4096 := by
  have hmin : ∀ n, (List.replicate n (1 : ℚ)).foldl min 0 = 0 := by
    intro n
    induction n with
    | zero => rfl
    | succ n ih => rw [List.replicate_succ, List.foldl_cons, min_eq_left (by norm_num), ih]
  have hmax : ∀ n, (List.replicate n (1 : ℚ)).foldl max 1 = 1 := by
    intro n
    induction n with
    | zero => rfl
    | succ n ih => rw [List.replicate_succ, List.foldl_cons, max_self, ih]
  have hlo : Julia.minimum (0 :: List.replicate n (1 : ℚ)) = 0 := by
    unfold Julia.minimum
    rw [List.headD_cons, List.foldl_cons, min_self, hmin]
  have hhi : Julia.maximum (0 :: List.replicate n (1 : ℚ)) = 1 := by
    obtain ⟨m, rfl⟩ : ∃ m, n = m + 1 := ⟨n - 1, by omega⟩
    unfold Julia.maximum
    rw [List.headD_cons, List.foldl_cons, max_self, List.replicate_succ, List.foldl_cons, max_eq_right (by norm_num), hmax]
  unfold hssWeights Julia.stretch
  rw [hlo, hhi, List.map_cons, List.map_cons, List.map_replicate, List.map_replicate]
  exact congrArg₂ List.cons (by decide +kernel) (congrArg (List.replicate n) (by decide +kernel))

theorem totalWeight_flat (n : Nat) : totalWeight (1 :: List.replicate n 4096) = n * 4096 + 1 := by
  unfold totalWeight prefixWeight prefixSum
  rw [List.drop_zero, List.take_of_length_le (by rw [List.length_map]), List.map_cons, List.map_replicate, List.sum_cons,
    List.sum_replicate]
  show 1 + n • 4096 = n * 4096 + 1
  rw [smul_eq_mul]
  omega

/-- With `2^20` iterations the total weight is `2^32 + 1`. -/
theorem exactSums_overflow : ¬ ∀ prof : List ℚ, prof ≠ [] → Stretched prof → ExactSums ℚ (hssWeights prof) := by
  intro h
  have hstretched : Stretched (0 :: List.replicate (2 ^ 20) (1 : ℚ)) := by
    refine stretched_of_nonneg (fun x hx => ?_) ⟨1, List.mem_cons_of_mem _ (List.mem_replicate.2 ⟨by norm_num, rfl⟩), by norm_num⟩
    rcases List.mem_cons.1 hx with rfl | hx
    · exact le_refl _
    · rw [(List.mem_replicate.1 hx).2]
      norm_num
  have hfit := lt_of_exactSums (h _ (List.cons_ne_nil _ _) hstretched)
  rw [hssWeights_flat (by norm_num), totalWeight_flat] at hfit
  norm_num at hfit

end Bosched
