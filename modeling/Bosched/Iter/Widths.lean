/-
The `long` and the `unsigned long long` path side by side: an upward loop whose bounds and step are the same numbers
in both types. The two initialisers are copies that differ in the parameters and formulas of some schedules; where
those agree, so do the chunks.
-/
import Bosched.Iter.Dealt
import Bosched.Iter.Views

namespace Bosched

open Lib

variable {D : Type} {P : Nat}

/-! ## The static iterators -/

section

variable {a b : GompWorkShare D} (hnext : a.next = b.next) (hfin : a.fin = b.fin) (hincr : a.incr = b.incr)
  (hchunk : a.chunkSize = b.chunkSize) (hmode : b.mode = 0)

include hnext hfin hincr hmode

/-- Where the number of iterations is defined, it is the unsigned one. -/
theorem ullStaticCount_of_some (hpos : 0 < a.incr.toInt) (hle : a.next.toInt ≤ a.fin.toInt) {n : Word}
    (hn : staticCount a a.cells = some n) : ullStaticCount b = some n := by
  obtain ⟨d, hd, hn⟩ := Option.bind_eq_some_iff.1 hn
  obtain ⟨e, he, hn⟩ := Option.bind_eq_some_iff.1 hn
  have hslt : (0#64).slt a.incr = true := by
    rw [BitVec.slt_iff_toInt_lt]
    exact hpos
  have hm1 : (-1 : Word).toInt = -1 := rfl
  have hib := toInt_bounds a.incr
  have hsum : (a.incr + -1).toInt = a.incr.toInt + -1 := ladd_some (if_pos (by rw [hm1]; omega))
  rw [if_pos hslt] at he
  have hdint := (lsub_some hd).2
  have heint := ladd_some he
  rw [hsum, hdint, show a.cells.next = a.next from rfl] at heint
  have hebound := toInt_bounds e
  have henat := toNat_of_toInt_nonneg (by omega : 0 ≤ e.toInt)
  rw [ldiv_eq_uldiv (by omega) hpos, ladd_eq he, lsub_eq hd, show a.cells.next = a.next from rfl] at hn
  unfold ullStaticCount
  have hword : a.fin - a.next + a.incr - 1 = a.fin - a.next + (a.incr + -1) := by
    rw [← BitVec.add_assoc, BitVec.sub_eq_add_neg (a.fin - a.next + a.incr)]
  rw [if_pos hmode, ← hnext, ← hfin, ← hincr, hword]
  exact hn

include hchunk

/-- Where a call of the `long` iterator is defined, the other returns the same. -/
theorem ullStatic_of_some (hpos : 0 < a.incr.toInt) (hle : a.next.toInt ≤ a.fin.toInt) {nthreads i trip : Word} {r : Word × Ret}
    (hstep : gompIterStaticNext a a.cells nthreads i trip = some r) : gompIterUllStaticNext b nthreads i trip = some r := by
  have hcount := fun {n} => ullStaticCount_of_some hnext hfin hincr hmode hpos hle (n := n)
  -- the values of a chunk that has both
  have hvalues : ∀ {s0 e0 t : Word}, (do
        let start ← staticValue a a.cells s0
        let fin ← staticValue a a.cells e0
        return (t, some (start, fin)) : Option (Word × Ret)) = some r →
      some (t, some (s0 * b.incr + b.next, e0 * b.incr + b.next)) = some r := by
    intro s0 e0 t h
    obtain ⟨s, hs, h⟩ := Option.bind_eq_some_iff.1 h
    obtain ⟨e, he, h⟩ := Option.bind_eq_some_iff.1 h
    obtain ⟨p, hp, hs⟩ := Option.bind_eq_some_iff.1 hs
    obtain ⟨q, hq, he⟩ := Option.bind_eq_some_iff.1 he
    rw [← h, ladd_eq hs, ladd_eq he, lmul_eq hp, lmul_eq hq, ← hincr, ← hnext]
    rfl
  unfold gompIterStaticNext at hstep
  rw [show a.cells.chunkSize = a.chunkSize from rfl] at hstep
  unfold gompIterUllStaticNext
  split at hstep
  · rename_i htrip
    rw [if_pos htrip]
    exact hstep
  · rename_i htrip
    rw [if_neg htrip]
    split at hstep
    · rename_i hone
      rw [if_pos hone, ← hnext, ← hfin]
      exact hstep
    · rename_i hone
      rw [if_neg hone, ← hchunk]
      split at hstep
      · rename_i hc
        rw [if_pos hc]
        split at hstep
        · rename_i h0
          rw [if_pos h0]
          exact hstep
        · rename_i h0
          rw [if_neg h0]
          obtain ⟨n, hn, hstep⟩ := Option.bind_eq_some_iff.1 hstep
          obtain ⟨q, hq, hstep⟩ := Option.bind_eq_some_iff.1 hstep
          rw [hcount hn, Option.bind_eq_bind, Option.bind_some, hq, Option.bind_some]
          dsimp only at hstep ⊢
          generalize (if i < n % nthreads then (q + 1, (0 : Word)) else (q, n % nthreads)) = qt at hstep ⊢
          split at hstep
          · rename_i hempty
            rw [if_pos hempty]
            exact hstep
          · rename_i hempty
            rw [if_neg hempty]
            exact hvalues hstep
      · rename_i hc
        rw [if_neg hc]
        obtain ⟨n, hn, hstep⟩ := Option.bind_eq_some_iff.1 hstep
        rw [hcount hn, Option.bind_eq_bind, Option.bind_some]
        dsimp only at hstep ⊢
        split at hstep
        · rename_i hover
          rw [if_pos hover]
          exact hstep
        · rename_i hover
          rw [if_neg hover]
          exact hvalues hstep

end

/-! ## The work shares -/

section

variable [CDouble D] {g : Globals D} {team : Option U32} {now : Int} {ws : GompWorkShare D} {start fin incr chunkSize n : Word}
  {sched : GompScheduleType} {r : RegionId} {log : List (Fin P × Ret)}

/-- `gomp_loop_ull_init` of an upward loop, where the number of iterations is that of the `long` loop. -/
theorem gompLoopUllInit_up (hfits : FitsBoth start fin incr) (hn : numTasks start fin incr = some n) :
    gompLoopUllInit g team now ws true start fin incr sched chunkSize r =
      (gompLoopUllInitSched (readParam g (canonicalShareUll ws true start fin incr sched chunkSize) sched r).2 true n
        (teamNthreads team) incr sched).map fun ws' =>
          (boScheduleBegin (readParam g (canonicalShareUll ws true start fin incr sched chunkSize) sched r).1 r n
            (teamNthreads team) now, ws') := by
  have hn' : uldiv ((canonicalShareUll ws true start fin incr sched chunkSize).fin - start) incr = some n := by
    rw [← hn, hfits.numTasks_eq, ← hfits.canonicalEnd_eq]
    rfl
  unfold gompLoopUllInit
  dsimp only
  rw [hn', Option.bind_eq_bind, Option.bind_some]
  cases gompLoopUllInitSched (readParam g (canonicalShareUll ws true start fin incr sched chunkSize) sched r).2 true n
    (teamNthreads team) incr sched <;> rfl

theorem obtained_long_iff (hn : numTasks start fin incr = some n) {g' : Globals D} {ws' : GompWorkShare D}
    (h : gompLoopInitSched
      (boScheduleBegin (readParam g (canonicalShare ws start fin incr (initSched sched) (initChunk sched chunkSize))
        (initSched sched) r).1 r n (teamNthreads team) now)
      (readParam g (canonicalShare ws start fin incr (initSched sched) (initChunk sched chunkSize)) (initSched sched) r).2
      n (teamNthreads team) start incr (initSched sched) r = some (g', ws')) :
    Width.long.Obtained g team now ws start fin incr sched chunkSize r log ↔ Width.long.Sequence g' team ws' log :=
  obtained_iff_of_init ((gompLoopInit_eq hn).trans h)

theorem obtained_ull_iff (hfits : FitsBoth start fin incr) (hn : numTasks start fin incr = some n) {ws' : GompWorkShare D}
    (h : gompLoopUllInitSched
      (readParam g (canonicalShareUll ws true start fin incr (initSched sched) (initChunk sched chunkSize)) (initSched sched) r).2
      true n (teamNthreads team) incr (initSched sched) = some ws') :
    (Width.ull true).Obtained g team now ws start fin incr sched chunkSize r log ↔ (Width.ull true).Sequence
      (boScheduleBegin (readParam g (canonicalShareUll ws true start fin incr (initSched sched) (initChunk sched chunkSize))
        (initSched sched) r).1 r n (teamNthreads team) now) team ws' log :=
  obtained_iff_of_init ((gompLoopUllInit_up hfits hn).trans (congrArg (Option.map _) h))

end

/-! ## The schedules -/

section

variable [CDouble D]

/-- The first chunk of the trapezoid on a `long` loop, from its parameter. -/
def tssFirst (param : D) (n : Word) : Word := CDouble.toLong (CDouble.sqrt (2.0 * CDouble.ofLong n / param) - 1.0)

/-- The first chunk of the trapezoid on an `unsigned long long` loop. -/
def tssFirstUll (param : D) (n : Word) : Word := CDouble.toULong (CDouble.sqrt (2.0 * CDouble.ofULong n / param) - 1.0)

/-- The smoothing term that only `gomp_loop_init` adds to the parameter of the trapezoid. -/
def tssSmooth (param : D) (n nthreads : Word) : D := param + CDouble.ofLong nthreads / CDouble.ofLong n

/-- The parameter of `FS_TSS` in `gomp_loop_ull_init`. -/
def tssParamUll (D : Type) [CDouble D] (n nthreads : Word) : D :=
  let temp : D := CDouble.ofULong n / CDouble.ofLong (2 * nthreads + 1)
  CDouble.ofULong (2 * n) / (temp * temp)

/-- The two initialisers make the same rule of the schedule, for a loop of `n` iterations. -/
def WidthsAgree (g : Globals D) (team : Option U32) (ws : GompWorkShare D) (start fin incr : Word) (sched : GompScheduleType)
    (chunkSize : Word) (r : RegionId) (n : Word) : Prop :=
  let nthreads := teamNthreads team
  let param := (boScheduleParameter g r true).2
  match sched with
  | .gfsStatic | .gfsAuto => nthreads.toNat ≠ 1 → ∀ h : incr ≠ 0, StaticFits (shareLoop start fin incr h)
  | .gfsDynamic => cssChunkSize ws.param n nthreads = chunkSize
  | .fsCss => cssChunkSize (g.param r).css n nthreads = cssChunkSizeUll (cssTransformRange ws.param) n nthreads
  | .boCss => cssChunkSize (cssTransformRange param) n nthreads = cssChunkSizeUll (cssTransformRange param) n nthreads
  | .fsFac2 => fac2Batch (2.0 : D) nthreads = fac2Batch ws.param nthreads
  | .fsFss => fssFirst (CDouble.ofLong n) nthreads (g.param r).fss =
        fssFirst (CDouble.ofULong n) nthreads (fssTransformRange ws.param) ∧
      fssBatch (g.param r).fss nthreads = fssBatch (fssTransformRange ws.param) nthreads
  | .fsTss => ∃ x, (g.param r).tss = some x ∧
      tssChunk (tssSmooth x n nthreads) (tssFirst (tssSmooth x n nthreads) n) =
        tssChunk (tssParamUll D n nthreads) (tssFirstUll (tssParamUll D n nthreads) n)
  | .boTss => tssChunk (tssSmooth param n nthreads) (tssFirst (tssSmooth param n nthreads) n) =
      tssChunk param (tssFirstUll param n)
  | .fsTape => ∃ x, (g.param r).tape = some x ∧ tapeChunk x nthreads = tapeChunk (3.0 : D) nthreads
  | _ => True

variable {g : Globals D} {team : Option U32} {now : Int} {ws : GompWorkShare D} {start fin incr chunkSize n : Word}
  {sched : GompScheduleType} {r : RegionId} {log : List (Fin (teamNthreads team).toNat × Ret)}

omit [CDouble D] in
/-- Two loops under a schedule of the guided and batched families. -/
theorem views_agree_of_init (hfits : FitsBoth start fin incr) {a b : GompWorkShare D} (ha : a.fin = canonicalEnd start fin incr)
    (hb : b.fin = canonicalEndUll true start fin) (hia : a.incr = incr) (hib : b.incr = incr) (hmode : b.mode = 0) :
    (View.long a).Agree (View.ull b) fun w => w.toNat ≤ (canonicalEnd start fin incr).toNat := by
  have hagree := views_agree (a := a) (b := b) (by rw [ha, hb, hfits.canonicalEnd_eq]) (by rw [hia, hib]) hmode
    (by rw [hia]; exact hfits.incr) (by rw [ha]; exact hfits.end_lt)
  rw [ha] at hagree
  exact hagree

omit [CDouble D] in
/-- Where `gomp_loop_ull_init` chooses the fetch-and-add, no thread of the team moves `next` past the end of the type. -/
theorem dynamicModeUll_guard {fin chunk nthreads : Word} (h : dynamicModeUll true fin chunk nthreads &&& 1 ≠ 0) :
    fin.toNat + (nthreads.toNat + 1) * chunk.toNat < 2 ^ 64 := by
  unfold dynamicModeUll at h
  rw [if_pos rfl] at h
  split at h
  · rename_i hhalf
    obtain ⟨hP, hc⟩ := lt_halfRange (BitVec.not_le.2 hhalf)
    obtain ⟨hover, -, hle⟩ := toInt_overshoot hP hc
    have hnat := toNat_of_toInt_nonneg (by rw [hover]; positivity : 0 ≤ ((nthreads + 1) * chunk).toInt)
    rw [hover] at hnat
    have hnat : ((nthreads + 1) * chunk).toNat = (nthreads.toNat + 1) * chunk.toNat := by exact_mod_cast hnat
    have hlt : fin < BitVec.allOnes 64 - (nthreads + 1) * chunk := by
      by_contra hn
      rw [decide_eq_false hn] at h
      exact h rfl
    have hall : (BitVec.allOnes 64).toNat = 2 ^ 64 - 1 := BitVec.toNat_allOnes
    rw [BitVec.lt_def, toNat_sub_of_le (by rw [hall]; omega), hall, hnat] at hlt
    omega
  · exact absurd rfl h

omit [CDouble D] in
/-- The dynamic schedules, with a chunk size of as many steps in both types. -/
theorem widths_dynamic (hfits : FitsBoth start fin incr) (hn : numTasks start fin incr = some n) {c : Word} (hc0 : 0 ≤ c.toInt)
    (hc : c.toInt ≤ max n.toInt 1) {a b : GompWorkShare D} (hna : a.next = start) (hnb : b.next = start)
    (hfa : a.fin = canonicalEnd start fin incr) (hfb : b.fin = canonicalEndUll true start fin) (hia : a.incr = incr)
    (hca : a.chunkSize = c * incr) (hcb : b.chunkSize = c * incr)
    (hma : a.mode = dynamicMode (canonicalEnd start fin incr) incr (c * incr) (teamNthreads team))
    (hmb : b.mode = dynamicModeUll true (canonicalEndUll true start fin) (c * incr) (teamNthreads team)) (hlog : StopsWhenTold log) :
    Answers (Width.long.dynamicNext a) .idle start log ↔ Answers ((Width.ull true).dynamicNext b) .idle start log := by
  have hend := hfits.end_lt
  have hmul := toInt_mul_incr hn hc0 hc
  have hbound := toInt_bounds (c * incr)
  have hnonneg : 0 ≤ (c.toNat : Int) * incr.toInt := Int.mul_nonneg (Int.natCast_nonneg _) (le_of_lt hfits.incr)
  have hnat := toNat_of_toInt_nonneg (by rw [hmul]; exact hnonneg)
  have hendint := BitVec.toInt_eq_toNat_cond (canonicalEnd start fin incr)
  rw [if_pos (by omega)] at hendint
  have hlong : DealsOut .long a a.fin.toNat a.chunkSize.toNat (teamNthreads team).toNat := by
    refine dealsOut_long ?_ ?_ ?_ ?_ ?_
    · rw [hna, hfa]
      exact hfits.start_le
    · rw [hfa]
      exact hend
    · rw [hia]
      exact hfits.incr
    · rw [hca]
      omega
    · intro hmode
      rw [hma] at hmode
      obtain ⟨-, hguard⟩ := dynamicMode_guard hmul hmode
      rw [← hmul, ← hnat, hendint] at hguard
      rw [hfa, hca]
      exact_mod_cast hguard
  have hull : DealsOut (.ull true) b b.fin.toNat b.chunkSize.toNat (teamNthreads team).toNat := by
    refine dealsOut_ull ?_ ?_ ?_
    · rw [hnb, hfb, hfits.canonicalEnd_eq]
      exact hfits.start_le
    · unfold goesDown
      rw [hmb]
      unfold dynamicModeUll
      rw [if_pos rfl]
      split
      · cases decide (canonicalEndUll true start fin < _) <;> rfl
      · rfl
    · intro hmode
      rw [hmb] at hmode
      rw [hfb, hcb]
      exact dynamicModeUll_guard hmode
  have heqf : b.fin.toNat = a.fin.toNat := by rw [hfb, hfa, hfits.canonicalEnd_eq]
  have heqc : b.chunkSize.toNat = a.chunkSize.toNat := by rw [hca, hcb]
  rw [heqf, heqc] at hull
  rw [← hna]
  constructor
  · intro h
    rw [hna, ← hnb]
    exact answers_deal hlong hull (hna.trans hnb.symm) hlog h
  · intro h
    rw [hna, ← hnb] at h
    exact answers_deal hull hlong (hnb.trans hna.symm) hlog h

omit [CDouble D] in
/-- The static schedules: the same blocks, where no `long` overflows. -/
theorem widths_static (hfits : FitsBoth start fin incr) {c : Word} {a b : GompWorkShare D}
    (ha : a = canonicalShare ws start fin incr sched c) (hb : b = canonicalShareUll ws true start fin incr sched c)
    (hrule : (teamNthreads team).toNat ≠ 1 → ∀ h : incr ≠ 0, StaticFits (shareLoop start fin incr h)) :
    Answers (Width.long.staticNext a team) () (fun _ => 0) log ↔
      Answers ((Width.ull true).staticNext b team) () (fun _ => 0) log := by
  have hincr : incr ≠ 0 := fun h0 => absurd hfits.incr (by rw [h0]; decide)
  have hshare : StaticShare a (shareLoop start fin incr hincr) := by
    subst ha
    exact ⟨rfl, rfl, rfl, not_before_canonicalEnd start fin hincr⟩
  have hle : a.next.toInt ≤ a.fin.toInt := by
    have hcan := hshare.canonical
    rw [before_pos (show 0 < (shareLoop start fin incr hincr).incr from hfits.incr)] at hcan
    rw [hshare.start, hshare.fin]
    exact not_lt.1 hcan
  have hpos : 0 < a.incr.toInt := by
    rw [hshare.incr]
    exact hfits.incr
  have hfin : a.fin = b.fin := by
    subst ha hb
    exact hfits.canonicalEnd_eq.symm
  have hsame : ∀ i : Fin (teamNthreads team).toNat, ∀ trip, gompIterStaticNext a a.cells (teamNthreads team) (BitVec.ofNat 64 i) trip =
      gompIterUllStaticNext b (teamNthreads team) (BitVec.ofNat 64 i) trip := fun i trip => by
    have hi : (BitVec.ofNat 64 i.val).toNat < (teamNthreads team).toNat := by
      rw [BitVec.toNat_ofNat, Nat.mod_eq_of_lt (i.isLt.trans (teamNthreads team).isLt)]
      exact i.isLt
    obtain ⟨x, hx⟩ := hshare.exists_step (fun h1 => hrule h1 hincr) hi trip
    rw [hx]
    subst ha hb
    exact (ullStatic_of_some (a := canonicalShare ws start fin incr sched c) (b := canonicalShareUll ws true start fin incr sched c)
      rfl hfin rfl rfl rfl hpos hle hx).symm
  refine Answers.congr (I := fun _ _ => True) (fun {i trips loc} _ => ?_) (fun _ _ => trivial) trivial
  have hnext := hsame i (trips i)
  simp only [Width.staticNext, staticNext, ullStaticNext, hnext]

/-- Where the two initialisers make the same rule of the schedule, the chunks of an upward loop are the same. -/
theorem widths_obtained_iff (hconv : ∀ n : Word, 0 ≤ n.toInt → (CDouble.ofLong n : D) = CDouble.ofULong n)
    (haccept : (Width.ull true).accepts sched = true) (hteam : team ≠ some 0) (hfits : FitsBoth start fin incr)
    (hrule : ∀ n, numTasks start fin incr = some n → WidthsAgree g team ws start fin incr sched chunkSize r n)
    (hlog : isDynamic sched = true → StopsWhenTold log) :
    Width.long.Obtained g team now ws start fin incr sched chunkSize r log ↔
      (Width.ull true).Obtained g team now ws start fin incr sched chunkSize r log := by
  have hincr : incr ≠ 0 := fun h0 => absurd hfits.incr (by rw [h0]; decide)
  obtain ⟨n, hn⟩ : ∃ n, numTasks start fin incr = some n := by
    rw [hfits.numTasks_eq]
    exact ⟨_, if_neg hincr⟩
  have hrule := hrule n hn
  have hagree := fun {a b} => views_agree_of_init (D := D) hfits (a := a) (b := b)
  have hparam : (boScheduleBegin g r n (teamNthreads team) now).param r = g.param r := by
    unfold Globals.param
    rw [boScheduleBegin_params]
  cases sched
  case gfsStatic | gfsAuto =>
    refine (obtained_long_iff hn rfl).trans (Iff.trans ?_ (obtained_ull_iff hfits hn rfl).symm)
    exact widths_static hfits rfl rfl hrule
  case gfsGuided =>
    refine (obtained_long_iff hn rfl).trans (Iff.trans ?_ (obtained_ull_iff hfits hn rfl).symm)
    exact (hagree rfl rfl rfl rfl rfl).answers_shareNext hfits.start_le _ _ _ fun _ _ => rfl
  case boTape =>
    refine (obtained_long_iff hn rfl).trans (Iff.trans ?_ (obtained_ull_iff hfits hn rfl).symm)
    exact (hagree rfl rfl rfl rfl rfl).answers_guidedNext hfits.start_le rfl
  case fsTape =>
    obtain ⟨x, hx, hguide⟩ := hrule
    have hp : boTapeParameter (boScheduleBegin g r n (teamNthreads team) now) r =
        some ((boScheduleBegin g r n (teamNthreads team) now).setParam r (g.param r), x) := by
      unfold boTapeParameter
      dsimp only
      rw [hparam, hx]
      rfl
    refine Iff.trans (obtained_long_iff hn (Option.bind_eq_some_iff.2 ⟨_, hp, rfl⟩))
      (Iff.trans ?_ (obtained_ull_iff hfits hn rfl).symm)
    exact (hagree rfl rfl rfl rfl rfl).answers_guidedNext hfits.start_le hguide
  case boFss =>
    have hcells := congrArg (fun x => (⟨start, start + fssFirst x (teamNthreads team)
      (fssTransformRange (boScheduleParameter g r true).2) * teamNthreads team * incr, fssFirst x (teamNthreads team)
      (fssTransformRange (boScheduleParameter g r true).2), ws.count⟩ : Cells)) (hconv n (numTasks_nonneg hn))
    refine (obtained_long_iff hn rfl).trans (Iff.trans ?_ (obtained_ull_iff hfits hn rfl).symm)
    exact (hagree rfl rfl rfl rfl rfl).answers_batchedNext hfits.start_le hcells _ rfl
  case fsFss =>
    obtain ⟨hfirst, hbatch⟩ := hrule
    rw [← hparam] at hfirst hbatch
    have hcells := congrArg (fun F => (⟨start, start + F * teamNthreads team * incr, F, ws.count⟩ : Cells)) hfirst
    refine (obtained_long_iff hn rfl).trans (Iff.trans ?_ (obtained_ull_iff hfits hn rfl).symm)
    exact (hagree rfl rfl rfl rfl rfl).answers_batchedNext hfits.start_le hcells _ hbatch
  case fsFac2 =>
    have hq : uldiv n (teamNthreads team) = some (n / teamNthreads team) := if_neg fun h0 =>
      absurd (teamNthreads_pos hteam) (by rw [h0]; decide)
    refine Iff.trans (obtained_long_iff hn rfl) (Iff.trans ?_ (Iff.symm
      (obtained_ull_iff hfits hn (Option.bind_eq_some_iff.2 ⟨_, hq, rfl⟩))))
    -- the chunk size of the first of them
    have hstep : ∀ q, Answers ((View.long (canonicalShare ws start fin incr .fsFac2 0)).batchedNext (teamNthreads team)
          (fac2Batch (2.0 : D) (teamNthreads team))) .idle ⟨start, start, q, ws.count⟩ log ↔
        Answers ((View.ull (canonicalShareUll ws true start fin incr .fsFac2 0)).batchedNext (teamNthreads team)
          (fac2Batch ws.param (teamNthreads team))) .idle ⟨start, start, q, ws.count⟩ log := fun q =>
      (hagree rfl rfl rfl rfl rfl).answers_batchedNext hfits.start_le rfl _ hrule
    constructor
    · intro h
      exact answers_batchedNext_chunkSize (s := ⟨start, start, _, ws.count⟩) rfl _ ((hstep _).1 h)
    · intro h
      exact (hstep _).2 (answers_batchedNext_chunkSize (s := ⟨start, start, _, ws.count⟩) rfl _ h)
  case boTss =>
    refine (obtained_long_iff hn rfl).trans (Iff.trans ?_ (obtained_ull_iff hfits hn rfl).symm)
    exact (hagree rfl rfl rfl rfl rfl).answers_ticketNext hfits.start_le hrule _
  case fsTss =>
    obtain ⟨x, hx, hchunk⟩ := hrule
    have hp : boTssParameter (boScheduleBegin g r n (teamNthreads team) now) r =
        some ((boScheduleBegin g r n (teamNthreads team) now).setParam r (g.param r), x) := by
      unfold boTssParameter
      dsimp only
      rw [hparam, hx]
      rfl
    refine Iff.trans (obtained_long_iff hn (Option.bind_eq_some_iff.2 ⟨_, hp, rfl⟩))
      (Iff.trans ?_ (obtained_ull_iff hfits hn rfl).symm)
    exact (hagree rfl rfl rfl rfl rfl).answers_ticketNext hfits.start_le hchunk _
  case gfsDynamic | boCss =>
    have hmode := congrArg (fun c => dynamicModeUll true (canonicalEndUll true start fin) (c * incr) (teamNthreads team)) hrule.symm
    refine Iff.trans (obtained_long_iff hn rfl) (Iff.trans ?_ (obtained_ull_iff hfits hn rfl).symm)
    refine widths_dynamic hfits hn ?_ ?_ rfl rfl rfl rfl rfl rfl (congrArg (· * incr) hrule.symm) rfl hmode (hlog rfl)
    · exact (clip_bounds _ (numTasks_nonneg hn)).1
    · exact (clip_bounds _ (numTasks_nonneg hn)).2.1
  case fsCss =>
    have hrule : cssChunkSize (g.param r).css n (teamNthreads team) =
      cssChunkSizeUll (cssTransformRange ws.param) n (teamNthreads team) := hrule
    rw [← hparam] at hrule
    have hmode := congrArg (fun c => dynamicModeUll true (canonicalEndUll true start fin) (c * incr) (teamNthreads team)) hrule.symm
    refine Iff.trans (obtained_long_iff hn rfl) (Iff.trans ?_ (obtained_ull_iff hfits hn rfl).symm)
    refine widths_dynamic hfits hn ?_ ?_ rfl rfl rfl rfl rfl rfl (congrArg (· * incr) hrule.symm) rfl hmode (hlog rfl)
    · exact (clip_bounds _ (numTasks_nonneg hn)).1
    · exact (clip_bounds _ (numTasks_nonneg hn)).2.1
  all_goals cases haccept

end

/-- Ten iterations on two threads under `GFS_GUIDED`. -/
theorem widths_obtained_guided :
    Width.long.Obtained (P := 2) (Globals.fresh 2) (some 2) 0 (GompWorkShare.zero : GompWorkShare ℚ) 0 10 1 .gfsGuided 3 7
        [(0, some (0, 5)), (1, some (5, 8)), (0, some (8, 10)), (1, none)] ↔
      (Width.ull true).Obtained (P := 2) (Globals.fresh 2) (some 2) 0 (GompWorkShare.zero : GompWorkShare ℚ) 0 10 1 .gfsGuided 3 7
        [(0, some (0, 5)), (1, some (5, 8)), (0, some (8, 10)), (1, none)] := by
  have hconv : ∀ n : Word, 0 ≤ n.toInt → (CDouble.ofLong n : ℚ) = CDouble.ofULong n := fun n hn => by
    show ((n.toInt : Int) : ℚ) = (n.toNat : ℚ)
    rw [← toNat_of_toInt_nonneg hn, Int.cast_natCast]
  exact widths_obtained_iff hconv rfl (by decide) ⟨by decide, by decide, by decide⟩ (fun _ _ => trivial) nofun

/-- Ten iterations on two threads under `GFS_DYNAMIC` with the chunk size 3, in a zeroed work share: the first chunk of
the `long` loop is one iteration. -/
theorem widths_dynamic_differ :
    Width.long.Obtained (P := 2) (Globals.fresh 2) (some 2) 0 (GompWorkShare.zero : GompWorkShare ℚ) 0 10 1 .gfsDynamic 3 7
        [(0, some (0, 1))] ∧
      ¬ (Width.ull true).Obtained (P := 2) (Globals.fresh 2) (some 2) 0 (GompWorkShare.zero : GompWorkShare ℚ) 0 10 1 .gfsDynamic 3 7
        [(0, some (0, 1))] := by
  have hn : numTasks 0 10 1 = some 10 := rfl
  have hone : cssChunkSize (GompWorkShare.zero : GompWorkShare ℚ).param 10 (teamNthreads (some 2)) = 1 := by decide +kernel
  refine ⟨(obtained_dynamic_first (some 2) GompWorkShare.zero hn hone).2 (by decide), fun h => ?_⟩
  have hinit : (Width.ull true).init (Globals.fresh 2) (some 2) 0 (GompWorkShare.zero : GompWorkShare ℚ) 0 10 1 .gfsDynamic 3 7 =
      some (_, { canonicalShareUll GompWorkShare.zero true 0 10 1 .gfsDynamic 3 with mode := 1 }) := rfl
  have hfirst := (obtained_first_iff hinit rfl).1 h
  revert hfirst
  decide

end Bosched
