/-
Two loops that are given the same work share after different histories. `gomp_work_share_start` recycles the struct
with what the loop before left in it; initialisation writes the words that the iterators read, except `count`, which
only the trapezoid reads, and `param`, which four schedules read without having written it.
-/
import Bosched.Iter.Alone
import Bosched.Runtime.Exact

namespace Bosched

open Lib

variable {D : Type} {P : Nat}

/-! ## The ticket count -/

section

variable {ι : Type}

theorem batchedNext_ignores_count (v : View) (nthreads : Word) (batch : Word → Option Word) (k : Word) :
    Ignores (fun s => { s with count := k }) (v.batchedNext nthreads batch : Prog ι Unit Cells Local Ret) := by
  intro i s l s' l' e h
  cases l
  case loadChunk | reloadBarrier | reloadStart =>
    obtain ⟨r, hr, h⟩ := Option.bind_eq_some_iff.1 h
    cases h
    exact Option.bind_eq_some_iff.2 ⟨_, hr, rfl⟩
  case casBarrier start barrier F nbarrier =>
    unfold View.batchedNext at h ⊢
    dsimp only at h ⊢
    split at h
    · rename_i hb
      obtain ⟨r, hr, h⟩ := Option.bind_eq_some_iff.1 h
      cases h
      rw [if_pos hb]
      exact Option.bind_eq_some_iff.2 ⟨_, hr, rfl⟩
    · rename_i hb
      cases h
      rw [if_neg hb]
  case casChunk | casNext =>
    unfold View.batchedNext at h ⊢
    dsimp only at h ⊢
    split at h
    · rename_i hc
      cases h
      rw [if_pos hc]
    · rename_i hc
      cases h
      rw [if_neg hc]
  case loadNext => cases h
  all_goals
    cases h
    rfl

theorem retryNext_ignores_count (top : Word → Option (Local × Option Ret)) (k : Word) :
    Ignores (fun s => { s with count := k }) (retryNext top : Prog ι Unit Cells Local Ret) := by
  intro i s l s' l' e h
  cases l
  case idle =>
    obtain ⟨r, hr, h⟩ := Option.bind_eq_some_iff.1 h
    cases h
    exact Option.bind_eq_some_iff.2 ⟨_, hr, rfl⟩
  case casNext start chunk nend =>
    unfold retryNext at h ⊢
    dsimp only at h ⊢
    split at h
    · rename_i hc
      cases h
      rw [if_pos hc]
    · rename_i hc
      obtain ⟨r, hr, h⟩ := Option.bind_eq_some_iff.1 h
      cases h
      rw [if_neg hc]
      exact Option.bind_eq_some_iff.2 ⟨_, hr, rfl⟩
  all_goals cases h

theorem guidedNext_ignores_count (v : View) (guide : Word → Word) (k : Word) :
    Ignores (fun s => { s with count := k }) (v.guidedNext guide : Prog ι Unit Cells Local Ret) := by
  rw [v.guidedNext_eq]
  exact retryNext_ignores_count _ k

theorem shareNext_ignores_count (v : View) (nthreads incr chunkSize k : Word) :
    Ignores (fun s => { s with count := k }) (v.shareNext nthreads incr chunkSize : Prog ι Unit Cells Local Ret) := by
  rw [v.shareNext_eq]
  exact retryNext_ignores_count _ k

end

/-! ## The rule -/

variable [CDouble D]

/-- The two values that `ws->param` may hold from before make the same chunks, where the schedule is one that reads it
without having written it. -/
def Width.SameRule (w : Width) (sched : GompScheduleType) (start fin incr nthreads : Word) (p₁ p₂ : D) : Prop :=
  match w, sched with
  | .long, .gfsDynamic => ∀ n, numTasks start fin incr = some n → cssChunkSize p₁ n nthreads = cssChunkSize p₂ n nthreads
  | .ull up, .fsCss => ∀ n, uldiv (canonicalEndUll up start fin - start) incr = some n →
      cssChunkSizeUll (cssTransformRange p₁) n nthreads = cssChunkSizeUll (cssTransformRange p₂) n nthreads
  | .ull _, .fsFac2 => fac2Batch p₁ nthreads = fac2Batch p₂ nthreads
  | .ull up, .fsFss => (∀ n, uldiv (canonicalEndUll up start fin - start) incr = some n →
        fssFirst (CDouble.ofULong n) nthreads (fssTransformRange p₁) =
          fssFirst (CDouble.ofULong n) nthreads (fssTransformRange p₂)) ∧
      fssBatch (fssTransformRange p₁) nthreads = fssBatch (fssTransformRange p₂) nthreads
  | _, _ => True

theorem Width.SameRule.symm {w : Width} {sched : GompScheduleType} {start fin incr nthreads : Word} {p₁ p₂ : D}
    (h : w.SameRule sched start fin incr nthreads p₁ p₂) : w.SameRule sched start fin incr nthreads p₂ p₁ := by
  cases w <;> cases sched
  case long.gfsDynamic | ull.fsCss => exact fun n hn => (h n hn).symm
  case ull.fsFac2 => exact Eq.symm h
  case ull.fsFss => exact ⟨fun n hn => (h.1 n hn).symm, h.2.symm⟩
  all_goals trivial

/-! ## Initialisation -/

section

variable {g g' : Globals D} {team : Option U32} {now : Int} {ws₁ ws₂ a : GompWorkShare D}
  {start fin incr chunkSize : Word} {sched : GompScheduleType} {r : RegionId} {log : List (Fin P × Ret)}

omit [CDouble D] in
/-- What the dynamic iterators read of a work share. -/
theorem answers_dynamicNext_congr {w : Width} {a b : GompWorkShare D} {next : Word} {log : List (Fin P × Ret)}
    (h : Answers (w.dynamicNext a) .idle next log) (hmode : a.mode = b.mode) (hchunk : a.chunkSize = b.chunkSize)
    (hfin : a.fin = b.fin) (hincr : a.incr = b.incr) : Answers (w.dynamicNext b) .idle next log := by
  cases a
  cases b
  cases hmode
  cases hchunk
  cases hfin
  cases hincr
  exact h

/-- What the batched iterators read of the words of a work share. -/
theorem answers_batchedNext_congr {v : View} {nthreads : Word} {b₁ b₂ : Word → Option Word} {s t : Cells}
    {log : List (Fin P × Ret)} (h : Answers (v.batchedNext nthreads b₁) .idle s log) (hb : b₁ = b₂) (hnext : s.next = t.next)
    (hbarrier : s.barrier = t.barrier) (hchunk : s.chunkSize = t.chunkSize) :
    Answers (v.batchedNext nthreads b₂) .idle t log := by
  cases t
  cases hb
  cases hnext
  cases hbarrier
  cases hchunk
  exact h.of_ignores (batchedNext_ignores_count _ _ _ _)

/-- What a `long` loop hands out does not depend on what its work share held, as far as that leaves the rule alone. -/
theorem obtained_long (haccept : Width.long.accepts sched = true)
    (hrule : Width.long.SameRule sched start fin incr (teamNthreads team) ws₁.param ws₂.param)
    (h : Width.long.Obtained g team now ws₁ start fin incr sched chunkSize r log) :
    Width.long.Obtained g team now ws₂ start fin incr sched chunkSize r log := by
  obtain ⟨g', a, hinit, hseq⟩ := h
  obtain ⟨n, hn, hs⟩ := gompLoopInit_some hinit
  have hinit₂ : gompLoopInit g team now ws₂ start fin incr (initSched sched) (initChunk sched chunkSize) r = _ :=
    gompLoopInit_eq hn
  cases sched
  case gfsStatic | gfsAuto | fsCss | boCss | fsTrap1 | boTss =>
    cases hs
    exact ⟨_, _, hinit₂, hseq⟩
  case gfsDynamic =>
    have hrule := hrule n hn
    cases hs
    refine ⟨_, _, hinit₂, ?_⟩
    have hchunk : cssChunkSize ws₁.param n (teamNthreads team) * incr = cssChunkSize ws₂.param n (teamNthreads team) * incr := by
      rw [hrule]
    have hmode := congrArg (fun c => dynamicMode (canonicalEnd start fin incr) incr c (teamNthreads team)) hchunk
    have hseq : Answers (Width.long.dynamicNext _) .idle start log := hseq
    exact answers_dynamicNext_congr hseq hmode hchunk rfl rfl
  case gfsGuided =>
    cases hs
    exact ⟨_, _, hinit₂, Lib.Answers.of_ignores hseq (shareNext_ignores_count _ _ _ _ _)⟩
  case fsFac2 | fsFss | boFss =>
    cases hs
    exact ⟨_, _, hinit₂, answers_batchedNext_congr hseq rfl rfl rfl rfl⟩
  case fsTape3 | boTape =>
    cases hs
    exact ⟨_, _, hinit₂, Lib.Answers.of_ignores hseq (guidedNext_ignores_count _ _ _)⟩
  case fsTape =>
    obtain ⟨_, hp, hs⟩ := Option.bind_eq_some_iff.1 hs
    cases hs
    exact ⟨_, _, hinit₂.trans (Option.bind_eq_some_iff.2 ⟨_, hp, rfl⟩),
      Lib.Answers.of_ignores hseq (guidedNext_ignores_count _ _ _)⟩
  case fsTss | fsBinlpt =>
    obtain ⟨_, hp, hs⟩ := Option.bind_eq_some_iff.1 hs
    cases hs
    exact ⟨_, _, hinit₂.trans (Option.bind_eq_some_iff.2 ⟨_, hp, rfl⟩), hseq⟩
  case fsHss =>
    obtain ⟨_, hp, hs⟩ := Option.bind_eq_some_iff.1 hs
    cases hs
    exact ⟨_, _, hinit₂.trans (Option.bind_eq_some_iff.2 ⟨_, hp, rfl⟩), hseq⟩
  all_goals cases haccept

/-- What an `unsigned long long` loop hands out does not depend on what its work share held, as far as that leaves the
rule alone. -/
theorem obtained_ull {up : Bool} (haccept : (Width.ull up).accepts sched = true)
    (hrule : (Width.ull up).SameRule sched start fin incr (teamNthreads team) ws₁.param ws₂.param)
    (h : (Width.ull up).Obtained g team now ws₁ start fin incr sched chunkSize r log) :
    (Width.ull up).Obtained g team now ws₂ start fin incr sched chunkSize r log := by
  obtain ⟨g', a, hinit, hseq⟩ := h
  obtain ⟨n, hn, hs⟩ := Option.bind_eq_some_iff.1 hinit
  obtain ⟨a₁, ha₁, hs⟩ := Option.bind_eq_some_iff.1 hs
  have hinit₂ : ∀ b, gompLoopUllInitSched (readParam g (canonicalShareUll ws₂ up start fin incr (initSched sched)
        (initChunk sched chunkSize)) (initSched sched) r).2 up n (teamNthreads team) incr (initSched sched) = some b →
      (Width.ull up).init g team now ws₂ start fin incr sched chunkSize r = some (_, if up then b else { b with mode := b.mode ||| 2 }) :=
    fun b hb => Option.bind_eq_some_iff.2 ⟨n, hn, Option.bind_eq_some_iff.2 ⟨b, hb, rfl⟩⟩
  cases hs
  cases sched
  case gfsStatic | gfsAuto | gfsDynamic | boCss | fsTss | boTss =>
    cases ha₁
    cases up <;> exact ⟨_, _, hinit₂ _ rfl, hseq⟩
  case gfsGuided =>
    cases ha₁
    cases up <;> exact ⟨_, _, hinit₂ _ rfl, Lib.Answers.of_ignores hseq (shareNext_ignores_count _ _ _ _ _)⟩
  case boFss =>
    cases ha₁
    cases up <;> exact ⟨_, _, hinit₂ _ rfl, answers_batchedNext_congr hseq rfl rfl rfl rfl⟩
  case fsTape | boTape =>
    cases ha₁
    cases up <;> exact ⟨_, _, hinit₂ _ rfl, Lib.Answers.of_ignores hseq (guidedNext_ignores_count _ _ _)⟩
  case fsFac2 =>
    obtain ⟨F, hF, ha₁⟩ := Option.bind_eq_some_iff.1 ha₁
    cases ha₁
    have hb := fun b hb => hinit₂ b (Option.bind_eq_some_iff.2 ⟨F, hF, hb⟩)
    cases up <;> exact ⟨_, _, hb _ rfl, answers_batchedNext_congr hseq hrule rfl rfl rfl⟩
  case fsFss =>
    obtain ⟨hfirst, hbatch⟩ := hrule
    cases ha₁
    have hF := hfirst n hn
    cases up
    · refine ⟨_, _, hinit₂ _ rfl, answers_batchedNext_congr hseq hbatch rfl ?_ hF⟩
      exact congrArg (fun F => start + F * teamNthreads team * -incr) hF
    · refine ⟨_, _, hinit₂ _ rfl, answers_batchedNext_congr hseq hbatch rfl ?_ hF⟩
      exact congrArg (fun F => start + F * teamNthreads team * incr) hF
  case fsCss =>
    have hrule := hrule n hn
    cases ha₁
    have hchunk : cssChunkSizeUll (cssTransformRange ws₁.param) n (teamNthreads team) * incr =
        cssChunkSizeUll (cssTransformRange ws₂.param) n (teamNthreads team) * incr := by
      rw [hrule]
    have hmode := congrArg (fun c => dynamicModeUll up (canonicalEndUll up start fin) c (teamNthreads team)) hchunk
    cases up
    · have hseq : Answers ((Width.ull false).dynamicNext _) .idle start log := hseq
      exact ⟨_, _, hinit₂ _ rfl, answers_dynamicNext_congr hseq (congrArg (· ||| 2) hmode) hchunk rfl rfl⟩
    · have hseq : Answers ((Width.ull true).dynamicNext _) .idle start log := hseq
      exact ⟨_, _, hinit₂ _ rfl, answers_dynamicNext_congr hseq hmode hchunk rfl rfl⟩
  all_goals cases haccept

theorem obtained_of_rule {w : Width} (haccept : w.accepts sched = true)
    (hrule : w.SameRule sched start fin incr (teamNthreads team) ws₁.param ws₂.param)
    (h : w.Obtained g team now ws₁ start fin incr sched chunkSize r log) :
    w.Obtained g team now ws₂ start fin incr sched chunkSize r log := by
  cases w with
  | long => exact obtained_long haccept hrule h
  | ull up => exact obtained_ull haccept hrule h

end

/-! ## Two histories -/

/-- A work share that a loop left with the given parameter. -/
def leftWith (param : D) : GompWorkShare D := { (GompWorkShare.zero : GompWorkShare D) with param := param }

/-- Two histories of a work share that leave the rule of the schedule alone make no difference to what a loop hands
out. -/
theorem recycled_obtained_iff {P : Nat} {w : Width} {sched : GompScheduleType} (haccept : w.accepts sched = true)
    (g : Globals D) (team : Option U32) (now : Int) (ws₁ ws₂ : GompWorkShare D) (start fin incr chunkSize : Word)
    (r : RegionId) (hrule : w.SameRule sched start fin incr (teamNthreads team) ws₁.param ws₂.param)
    (log : List (Fin P × Ret)) :
    w.Obtained g team now ws₁ start fin incr sched chunkSize r log ↔
      w.Obtained g team now ws₂ start fin incr sched chunkSize r log :=
  ⟨obtained_of_rule haccept hrule, obtained_of_rule haccept hrule.symm⟩

/-- The trapezoid on a `long` loop, after two histories. -/
theorem recycled_obtained_trapezoid :
    Width.long.Obtained (Globals.fresh 2) (some 2) 0 (leftWith (0 : ℚ)) 0 10 1 .fsTrap1 0 7 [((0 : Fin 2), some (0, 1))] ↔
      Width.long.Obtained (Globals.fresh 2) (some 2) 0 (leftWith (100 : ℚ)) 0 10 1 .fsTrap1 0 7 [((0 : Fin 2), some (0, 1))] :=
  recycled_obtained_iff rfl _ _ _ (leftWith (0 : ℚ)) (leftWith (100 : ℚ)) 0 10 1 0 7
    (show Width.long.SameRule .fsTrap1 _ _ _ _ _ _ from trivial) _

/-- Ten iterations on two threads under `GFS_DYNAMIC`: the first chunk is one iteration after a loop that left the
parameter 0, and the whole loop after one that left 100. -/
theorem recycled_dynamic_leaks : ∃ log : List (Fin 2 × Ret),
    Width.long.Obtained (Globals.fresh 2) (some 2) 0 (leftWith (0 : ℚ)) 0 10 1 .gfsDynamic 3 7 log ∧
      ¬ Width.long.Obtained (Globals.fresh 2) (some 2) 0 (leftWith (100 : ℚ)) 0 10 1 .gfsDynamic 3 7 log := by
  have hn : numTasks 0 10 1 = some 10 := rfl
  have hone : cssChunkSize (leftWith (0 : ℚ)).param 10 (teamNthreads (some 2)) = 1 := by decide +kernel
  have hten : cssChunkSize (leftWith (100 : ℚ)).param 10 (teamNthreads (some 2)) = 10 := by decide +kernel
  refine ⟨[(0, some (0, 1))], (obtained_dynamic_first (some 2) (leftWith (0 : ℚ)) hn hone).2 (by decide), fun h => ?_⟩
  have hfirst := (obtained_dynamic_first (some 2) (leftWith (100 : ℚ)) hn hten).1 h
  revert hfirst
  decide

end Bosched
