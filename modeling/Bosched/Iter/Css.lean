/-
The chunk size behind the dynamic iterators. `gomp_loop_init` treats `GFS_DYNAMIC` in the same
arm as `FS_CSS` and `BO_CSS`: the chunk size the program asked for is replaced by
`css_chunk_size` of the parameter an earlier loop left in the work share.
-/
import Bosched.Iter.Dynamic

namespace Bosched

open Lib

/-! ## The computed chunk size -/

theorem toInt_one : (1 : Word).toInt = 1 := rfl

/-- `clip` to `[1, n]`, which is `{0, 1}` when `n` is zero. -/
theorem clip_bounds (x : Word) {n : Word} (hn : 0 ≤ n.toInt) :
    0 ≤ (clip x 1 n).toInt ∧ (clip x 1 n).toInt ≤ max n.toInt 1 ∧ (0 < n.toInt → 1 ≤ (clip x 1 n).toInt) := by
  unfold clip
  split
  · rw [toInt_one]; omega
  · rename_i h1
    rw [BitVec.slt_iff_toInt_lt, toInt_one] at h1
    split
    · omega
    · rename_i h2
      rw [BitVec.slt_iff_toInt_lt] at h2
      omega

/-- The number of tasks is the truncated quotient of the distance. -/
theorem numTasks_some {start fin incr n : Word} (h : numTasks start fin incr = some n) :
    incr ≠ 0 ∧ SubFits (canonicalEnd start fin incr) start ∧
      n.toInt = ((canonicalEnd start fin incr).toInt - start.toInt).tdiv incr.toInt := by
  obtain ⟨d, hd, hn⟩ := Option.bind_eq_some_iff.1 h
  obtain ⟨hfits, hd⟩ := lsub_some hd
  obtain ⟨hincr, hn⟩ := ldiv_some hn
  exact ⟨hincr, hfits, by rw [hn, hd]⟩

/-- The loop of a work share: the one of the program, with the canonical end. -/
abbrev shareLoop (start fin incr : Word) (h : incr ≠ 0) : Loop := signedLoop start (canonicalEnd start fin incr) incr h

theorem numTasks_nonneg {start fin incr n : Word} (h : numTasks start fin incr = some n) : 0 ≤ n.toInt := by
  obtain ⟨hincr, -, hn⟩ := numTasks_some h
  have hcan := not_before_canonicalEnd start fin hincr
  rw [hn]
  by_cases hp : 0 < incr.toInt
  · rw [before_pos hp] at hcan
    exact Int.tdiv_nonneg (by omega) (by omega)
  · rw [before_neg hp] at hcan
    exact Int.tdiv_nonneg_of_nonpos_of_nonpos (by omega) (by omega)

/-- Multiplying the step by at most the number of tasks, or by one, does not overflow. -/
theorem toInt_mul_incr {start fin incr n c : Word} (h : numTasks start fin incr = some n) (hc0 : 0 ≤ c.toInt)
    (hc : c.toInt ≤ max n.toInt 1) : (c * incr).toInt = c.toNat * incr.toInt := by
  have hcn := toNat_of_toInt_nonneg hc0
  have hn0 := numTasks_nonneg h
  obtain ⟨hincr, hfits, hn⟩ := numTasks_some h
  unfold SubFits at hfits
  have hb := toInt_bounds incr
  have hbounds : -2 ^ 63 ≤ c.toInt * incr.toInt ∧ c.toInt * incr.toInt < 2 ^ 63 := by
    rcases Int.lt_or_le 1 c.toInt with h1 | h1
    · -- then the chunk is at most the whole distance
      have hle : c.toInt ≤ n.toInt := by omega
      have hdm := Int.tdiv_mul_le ((canonicalEnd start fin incr).toInt - start.toInt) (toInt_ne_zero hincr)
      have hcan := not_before_canonicalEnd start fin hincr
      by_cases hp : 0 < incr.toInt
      · rw [before_pos hp] at hcan
        have h2 : c.toInt * incr.toInt ≤ n.toInt * incr.toInt := Int.mul_le_mul_of_nonneg_right hle (by omega)
        have h3 : 0 ≤ c.toInt * incr.toInt := Int.mul_nonneg hc0 (by omega)
        have h4 : n.toInt * incr.toInt ≤ (canonicalEnd start fin incr).toInt - start.toInt := by
          rw [hn, Int.tdiv_eq_ediv_of_nonneg (by omega)]
          exact Int.ediv_mul_le _ (by omega)
        omega
      · have hneg : incr.toInt < 0 := by have := toInt_ne_zero hincr; omega
        rw [before_neg hp] at hcan
        have h2 : n.toInt * incr.toInt ≤ c.toInt * incr.toInt := Int.mul_le_mul_of_nonpos_right hle (by omega)
        have h3 : c.toInt * incr.toInt ≤ 0 := Int.mul_nonpos_of_nonneg_of_nonpos hc0 (by omega)
        have h4 : (canonicalEnd start fin incr).toInt - start.toInt ≤ n.toInt * incr.toInt := by
          rw [hn, ← Int.neg_tdiv_neg, Int.tdiv_eq_ediv_of_nonneg (by omega)]
          have := Int.ediv_mul_le (-((canonicalEnd start fin incr).toInt - start.toInt)) (b := -incr.toInt) (by omega)
          rw [Int.mul_neg] at this
          omega
        omega
    · obtain h0 | h0 : c.toInt = 0 ∨ c.toInt = 1 := by omega
      · rw [h0]; omega
      · rw [h0]; omega
  rw [hcn]
  apply toInt_eq_of_ofInt _ hbounds.1 hbounds.2
  rw [BitVec.ofInt_mul, BitVec.ofInt_toInt, BitVec.ofInt_toInt]

/-! ## The mode -/

theorem lt_halfRange {a b : Word} (h : ¬ (a ||| b) ≥ halfRange) : a.toNat < 2 ^ 31 ∧ b.toNat < 2 ^ 31 := by
  have hh : halfRange.toNat = 2 ^ 31 := rfl
  rw [ge_iff_le, BitVec.not_le, BitVec.lt_def, hh, BitVec.toNat_or] at h
  have h1 : a.toNat ≤ a.toNat ||| b.toNat := Nat.left_le_or
  have h2 : b.toNat ≤ a.toNat ||| b.toNat := Nat.right_le_or
  omega

/-- What the overshoot of `P` threads amounts to, when both are in half range. -/
theorem toInt_overshoot {P c : Word} (hP : P.toNat < 2 ^ 31) (hc : c.toNat < 2 ^ 31) :
    ((P + 1) * c).toInt = (P.toNat + 1) * c.toNat ∧ (0 : Int) ≤ (P.toNat + 1) * c.toNat ∧
      ((P.toNat + 1) * c.toNat : Int) ≤ 2 ^ 62 := by
  have hle : (P.toNat + 1) * c.toNat ≤ 2 ^ 31 * 2 ^ 31 := Nat.mul_le_mul (by omega) (by omega)
  have hP1 : (P + 1).toNat = P.toNat + 1 := by
    rw [BitVec.toNat_add]
    exact Nat.mod_eq_of_lt (by show P.toNat + 1 < 2 ^ 64; omega)
  have hmul : ((P + 1) * c).toNat = (P.toNat + 1) * c.toNat := by
    rw [BitVec.toNat_mul, hP1]
    exact Nat.mod_eq_of_lt (by omega)
  have hint := BitVec.toInt_eq_toNat_cond ((P + 1) * c)
  rw [if_pos (by omega), hmul] at hint
  refine ⟨by rw [hint]; push_cast; ring, by positivity, by exact_mod_cast hle⟩

theorem dynamicMode_guard {fin incr chunk P : Word} {s : Nat}
    (hchunk : chunk.toInt = s * incr.toInt) (hmode : dynamicMode fin incr chunk P ≠ 0) :
    -2 ^ 63 ≤ fin.toInt + (P.toNat + 1) * (s * incr.toInt) ∧ fin.toInt + (P.toNat + 1) * (s * incr.toInt) < 2 ^ 63 := by
  have hz : (0#64).toInt = 0 := rfl
  have hmax : (BitVec.intMax 64).toInt = 2 ^ 63 - 1 := rfl
  have hf := toInt_bounds fin
  unfold dynamicMode at hmode
  simp only [BitVec.slt_iff_toInt_lt, hz] at hmode
  rw [← hchunk]
  split at hmode
  · rename_i hp
    split at hmode
    · exact absurd rfl hmode
    · rename_i hhalf
      obtain ⟨hP, hc⟩ := lt_halfRange hhalf
      obtain ⟨hover, h0, h62⟩ := toInt_overshoot hP hc
      have hcn := BitVec.toInt_eq_toNat_cond chunk
      rw [if_pos (by omega)] at hcn
      have hlt : fin.slt (BitVec.intMax 64 - (P + 1) * chunk) = true := by simpa using hmode
      rw [BitVec.slt_iff_toInt_lt, toInt_sub_fits (by unfold SubFits; rw [hmax, hover]; omega), hmax, hover,
        ← hcn] at hlt
      rw [← hcn] at h0 h62
      omega
  · rename_i hp
    split at hmode
    · exact absurd rfl hmode
    · rename_i hhalf
      obtain ⟨hP, hc⟩ := lt_halfRange hhalf
      obtain ⟨hover, h0, h62⟩ := toInt_overshoot hP hc
      have hcn := BitVec.toInt_eq_toNat_cond (-chunk)
      rw [if_pos (by omega)] at hcn
      -- a negative chunk whose negation is in half range
      have hneg : (-chunk).toInt = -chunk.toInt := by
        apply BitVec.toInt_neg_of_ne_intMin
        rintro rfl
        revert hc
        decide
      rw [hneg] at hcn
      have hlt : ((P + 1) * -chunk - BitVec.intMax 64).slt fin = true := by simpa using hmode
      rw [BitVec.slt_iff_toInt_lt, toInt_sub_fits (by unfold SubFits; rw [hmax, hover]; omega), hmax, hover,
        ← hcn] at hlt
      rw [← hcn] at h0 h62
      have hring : ((P.toNat : Int) + 1) * -chunk.toInt = -((P.toNat + 1) * chunk.toInt) := by ring
      rw [hring] at hlt h0 h62
      omega

/-! ## The initialised work share -/

section

variable {D : Type} [CDouble D]

/-- The schedules of the arm that calls `css_chunk_size`. -/
def isDynamic : GompScheduleType → Bool
  | .gfsDynamic | .fsCss | .boCss => true
  | _ => false

/-- `gomp_loop_init` of a dynamic schedule: `GFS_DYNAMIC` takes the parameter it finds. -/
theorem gompLoopInit_dynamic {g g' : Globals D} {team : Option U32} {now : Int} {ws ws' : GompWorkShare D}
    {start fin incr chunkSize : Word} {sched : GompScheduleType} {r : RegionId} (hd : isDynamic sched = true)
    (h : gompLoopInit g team now ws start fin incr sched chunkSize r = some (g', ws')) :
    ∃ n param, numTasks start fin incr = some n ∧ (sched = .gfsDynamic → param = ws.param) ∧
      ws'.chunkSize = cssChunkSize param n (teamNthreads team) * incr ∧
      ws'.mode = dynamicMode (canonicalEnd start fin incr) incr ws'.chunkSize (teamNthreads team) := by
  obtain ⟨n, hn, hs⟩ := gompLoopInit_some h
  cases sched <;> cases hd
  all_goals
    cases hs
    exact ⟨n, _, hn, by first | exact fun _ => rfl | exact nofun, rfl, rfl⟩

theorem dynShare_of_init {g g' : Globals D} {team : Option U32} {now : Int} {ws ws' : GompWorkShare D}
    {start fin incr chunkSize : Word} {sched : GompScheduleType} {r : RegionId} (hincr : incr ≠ 0)
    (hd : isDynamic sched = true)
    (h : gompLoopInit g team now ws start fin incr sched chunkSize r = some (g', ws')) :
    ∃ n param, numTasks start fin incr = some n ∧ (sched = .gfsDynamic → param = ws.param) ∧
      DynShare ws' (shareLoop start fin incr hincr) (cssChunkSize param n (teamNthreads team)).toNat
        (teamNthreads team).toNat := by
  have hsame := gompLoopInit_sameLoop h
  obtain ⟨n, param, hn, hparam, hchunk, hmode⟩ := gompLoopInit_dynamic hd h
  obtain ⟨hc0, hc1, -⟩ := clip_bounds (CDouble.toLong (cssRaw param (CDouble.ofLong n) (teamNthreads team)))
    (numTasks_nonneg hn)
  have hmul : ws'.chunkSize.toInt = (cssChunkSize param n (teamNthreads team)).toNat * incr.toInt := by
    rw [hchunk]
    exact toInt_mul_incr hn hc0 hc1
  obtain ⟨-, hfits, -⟩ := numTasks_some hn
  have hnext : ws'.next = start := hsame.next
  have hfin : ws'.fin = canonicalEnd start fin incr := hsame.fin
  have hinc : ws'.incr = incr := hsame.incr
  refine ⟨n, param, hn, hparam, ?_⟩
  exact {
    start := by rw [hnext]; rfl
    fin := by rw [hfin]; rfl
    incr := by rw [hinc]; rfl
    canonical := not_before_canonicalEnd start fin hincr
    fits := hfits
    chunk := hmul
    guard := fun hm => dynamicMode_guard hmul (by rw [← hmode]; exact hm) }

end

theorem teamNthreads_pos {team : Option U32} (hteam : team ≠ some 0) : 0 < (teamNthreads team).toNat := by
  unfold teamNthreads
  cases team with
  | none => decide
  | some P =>
    have hP : P.toNat ≠ 0 := fun h0 => hteam (congrArg some (BitVec.eq_of_toNat_eq h0))
    simp only [Option.getD_some, BitVec.toNat_setWidth]
    have := P.isLt
    omega

/-! ## Chunks of exactly the size asked for -/

/-- Every chunk has exactly `c` iterations, except the one that ends the loop. -/
def ExactChunks (l : Loop) (c : Int) (cs : List (Int × Int)) : Prop :=
  ∀ ch ∈ cs, ch.2 = l.fin ∨ ((l.chunk ch).trip : Int) = c

section

variable {D : Type} {ws : GompWorkShare D} {l : Loop} {s : Nat} {ι : Type} [DecidableEq ι]

/-- In a loop with an iteration, any thread can take the first chunk. -/
theorem DynShare.first {P : Nat} (h : DynShare ws l s P) (locked : Bool) (htrip : 0 < l.trip) (i : ι) :
    ∃ c x, Reach (dynamicIter locked ws) (dynEntry ws) c ∧ c.log = [(i, some x)] := by
  have hincr : ws.incr ≠ 0 := fun h0 => l.incr_ne (by rw [← h.incr, h0]; rfl)
  have hstart : ws.next.toInt = l.value 0 := by rw [h.start, l.value_zero]
  have hbefore : Before ws.incr.toInt ws.next.toInt ws.fin.toInt := by
    rw [h.incr, h.fin, hstart]
    exact (l.before_fin_iff 0).2 htrip
  have hne : ws.next ≠ ws.fin := fun heq => by
    rw [heq] at hbefore
    exact before_irrefl _ _ hbefore
  cases locked with
  | true =>
    refine ⟨_, _, .single (.mk i () (s := ws.next + clampChunk ws.incr ws.chunkSize (ws.fin - ws.next)) (l := .idle)
      (e := some (some (ws.next, ws.next + clampChunk ws.incr ws.chunkSize (ws.fin - ws.next)))) ?_), rfl⟩
    show gompIterDynamicNextLocked ws i () ws.next .idle = _
    simp only [gompIterDynamicNextLocked, if_neg hne]
  | false =>
    by_cases hmode : ws.mode = 0
    · have h1 : gompIterDynamicNext ws i () ws.next .idle = some (ws.next, .casNext ws.next
          (clampChunk ws.incr ws.chunkSize (ws.fin - ws.next))
          (ws.next + clampChunk ws.incr ws.chunkSize (ws.fin - ws.next)), none) := by
        simp only [gompIterDynamicNext, dynamicTop, hmode, ne_eq, not_true_eq_false, if_false, if_neg hne]
      have hstep := Step.mk (c := (dynEntry ws : Cfg ι Word DynLocal Ret)) i () h1
      refine ⟨_, (ws.next, ws.next + clampChunk ws.incr ws.chunkSize (ws.fin - ws.next)),
        .tail (.single hstep) (.mk i () (s := ws.next + clampChunk ws.incr ws.chunkSize (ws.fin - ws.next))
          (l := .idle) (e := some (some (ws.next, ws.next + clampChunk ws.incr ws.chunkSize (ws.fin - ws.next)))) ?_), rfl⟩
      show gompIterDynamicNext ws i () ws.next (Function.update (fun _ => DynLocal.idle) i _ i) = _
      rw [Function.update_self]
      simp only [gompIterDynamicNext, if_true]
    · refine ⟨_, _, .single (.mk i () (s := ws.next + ws.chunkSize) (l := .idle)
        (e := some (some (ws.next, if Before ws.incr.toInt ws.fin.toInt (ws.next + ws.chunkSize).toInt then ws.fin
          else ws.next + ws.chunkSize))) ?_), rfl⟩
      show gompIterDynamicNext ws i () ws.next .idle = _
      simp only [gompIterDynamicNext, if_pos hmode, DynShare.fetched_eq hincr, if_pos hbefore]

/-- The chunks are exact in every run exactly when the cuts are as long as asked for, or the first
one takes the whole loop. -/
theorem DynShare.exact_iff [Fintype ι] [Nonempty ι] (h : DynShare ws l s (Fintype.card ι)) (locked : Bool) (c : Int) :
    (∀ cfg : Cfg ι Word DynLocal Ret, Reach (dynamicIter locked ws) (dynEntry ws) cfg →
      ExactChunks l c (chunks BitVec.toInt cfg.log)) ↔ (s : Int) = c ∨ l.trip ≤ s := by
  constructor
  · intro hall
    by_contra hnot
    rw [not_or, Nat.not_le] at hnot
    obtain ⟨hsc, hs⟩ := hnot
    obtain ⟨cfg, x, hr, hlog⟩ := h.first locked (by omega) (Classical.arbitrary ι)
    -- the first cut ends before the end, and is `s` iterations long
    obtain ⟨q, hcuts, -⟩ := h.strided locked hr
    have hlen : (chunks BitVec.toInt cfg.log).length = 1 := by rw [hlog]; rfl
    obtain rfl : q = 1 := by
      rw [hcuts.1, List.length_map, List.length_range] at hlen
      exact hlen
    have hmem : l.cut s 0 ∈ chunks BitVec.toInt cfg.log := by
      rw [hcuts.1]
      exact List.mem_map_of_mem (List.mem_range.2 one_pos)
    rcases hall cfg hr _ hmem with hfin | hc
    · rw [Loop.cut, l.pos_eq_fin_iff] at hfin
      omega
    · rw [Loop.cut, l.chunk_trip_of_le (by omega) (by omega)] at hc
      omega
  · intro hsc cfg hr ch hch
    obtain ⟨q, hcuts, -⟩ := h.strided locked hr
    obtain ⟨j, hj, rfl⟩ := hcuts.mem hch
    rcases hsc with hsc | hsc
    · rcases Nat.lt_or_ge ((j + 1) * s) l.trip with hlt | hge
      · right
        rw [Loop.cut, l.chunk_trip_of_le (Nat.mul_le_mul_right s (Nat.le_succ j)) (le_of_lt hj), ← hsc,
          Nat.min_eq_left (le_of_lt hlt), Nat.succ_mul]
        omega
      · exact .inl (l.pos_of_le hge)
    · left
      refine l.pos_of_le (le_trans hsc ?_)
      rw [Nat.succ_mul]
      omega

end

section

variable {D : Type} [CDouble D]

/-- `schedule(dynamic, c)`: what is handed out has `c` iterations exactly when `css_chunk_size` of
the parameter found in the work share says `c`, or all the loop fits in one chunk of its size. -/
theorem dynamicIter_exact_iff {g g' : Globals D} {team : Option U32} {now : Int} {ws ws' : GompWorkShare D}
    {start fin incr c n : Word} {r : RegionId} (hincr : incr ≠ 0) (hteam : team ≠ some 0)
    (hn : numTasks start fin incr = some n)
    (hinit : gompLoopInit g team now ws start fin incr .gfsDynamic c r = some (g', ws')) (locked : Bool) :
    (∀ cfg : Cfg (Fin (teamNthreads team).toNat) Word DynLocal Ret,
      Reach (dynamicIter locked ws') (dynEntry ws') cfg →
        ExactChunks (shareLoop start fin incr hincr) c.toInt (chunks BitVec.toInt cfg.log)) ↔
    cssChunkSize ws.param n (teamNthreads team) = c ∨
      (shareLoop start fin incr hincr).trip ≤ (cssChunkSize ws.param n (teamNthreads team)).toNat := by
  obtain ⟨n', param, hn', hparam, hshare⟩ := dynShare_of_init hincr rfl hinit
  obtain rfl : n' = n := Option.some.inj (hn'.symm.trans hn)
  obtain rfl := hparam rfl
  have : Nonempty (Fin (teamNthreads team).toNat) := ⟨⟨0, teamNthreads_pos hteam⟩⟩
  have hshare' : DynShare ws' (shareLoop start fin incr hincr) (cssChunkSize ws.param n' (teamNthreads team)).toNat
      (Fintype.card (Fin (teamNthreads team).toNat)) := by
    rw [Fintype.card_fin]
    exact hshare
  rw [hshare'.exact_iff locked c.toInt]
  have hc0 : 0 ≤ (cssChunkSize ws.param n' (teamNthreads team)).toInt := (clip_bounds _ (numTasks_nonneg hn)).1
  rw [toNat_of_toInt_nonneg hc0, BitVec.toInt_inj]

end

/-- One thread, `for (i = 0; i < 4; i++)` and `schedule(dynamic, 1)`, in a zeroed work share: there
the two chunk sizes agree. -/
theorem dynamicIter_exact_iff_one :
    ∃ (g : Globals ℚ) (ws : GompWorkShare ℚ),
      gompLoopInit (.fresh 1) (some 1) 0 .zero 0 4 1 .gfsDynamic 1 0 = some (g, ws) ∧
      ∀ cfg : Cfg (Fin 1) Word DynLocal Ret, Reach (dynamicIter false ws) (dynEntry ws) cfg →
        ExactChunks (shareLoop 0 4 1 (by decide)) 1 (chunks BitVec.toInt cfg.log) := by
  have hinit : (gompLoopInit (D := ℚ) (.fresh 1) (some 1) 0 .zero 0 4 1 .gfsDynamic 1 0).any (fun _ => true) = true := by
    decide +kernel
  obtain ⟨⟨g, ws⟩, hinit, -⟩ := (Option.any_eq_true _ _).1 hinit
  exact ⟨g, ws, hinit, (dynamicIter_exact_iff (by decide) (by decide) (by decide +kernel : numTasks 0 4 1 = some 4) hinit
    false).2 (.inl (by decide +kernel))⟩

/-- One thread, `for (i = 0; i < 4; i++)` and `schedule(dynamic, 2)`, in a zeroed work share: the
first chunk is `[0, 1)`. -/
theorem dynamicIter_ignores_chunk_size :
    ∃ (g : Globals ℚ) (ws : GompWorkShare ℚ) (cfg : Cfg (Fin 1) Word DynLocal Ret),
      gompLoopInit (.fresh 1) (some 1) 0 .zero 0 4 1 .gfsDynamic 2 0 = some (g, ws) ∧
      Reach (gompIterDynamicNext ws) (dynEntry ws) cfg ∧ returned cfg.log = [(0, 1)] ∧
      ¬ ExactChunks (shareLoop 0 4 1 (by decide)) 2 (chunks BitVec.toInt cfg.log) := by
  have hrun : (gompLoopInit (D := ℚ) (.fresh 1) (some 1) 0 .zero 0 4 1 .gfsDynamic 2 0).any (fun r =>
      (exec (gompIterDynamicNext r.2) (dynEntry r.2) [((0 : Fin 1), ())]).any fun c =>
        decide (returned c.log = [(0, 1)])) = true := by decide +kernel
  obtain ⟨⟨g, ws⟩, hinit, hrun⟩ := (Option.any_eq_true _ _).1 hrun
  obtain ⟨cfg, hr, hret⟩ := exists_reach hrun
  refine ⟨g, ws, cfg, hinit, hr, hret, fun h => ?_⟩
  have hmem : ((0 : Int), (1 : Int)) ∈ chunks BitVec.toInt cfg.log := by
    unfold chunks
    rw [hret]
    decide
  -- one iteration, and not the last chunk
  rcases h _ hmem with hfin | htrip
  · exact absurd hfin (by decide)
  · exact absurd htrip (by decide)

end Bosched
