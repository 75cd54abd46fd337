/-
What the iterators have in common, for the comparison of two of them: the guided ones are one loop around a
compare-and-swap, and a call of the dynamic ones that is alone is one function of `ws->next`, whether it moves it with
a fetch-and-add or with a compare-and-swap.
-/
import Bosched.Iter.Sequence

namespace Bosched

open Lib

variable {D : Type} {P : Nat}

/-! ## Words that an iterator leaves alone -/

section

variable {ι : Type}

/-- The iterator neither reads nor writes what `f` changes. -/
def Ignores (f : Cells → Cells) (p : Prog ι Unit Cells Local Ret) : Prop :=
  ∀ {i s l s' l' e}, p i () s l = some (s', l', e) → p i () (f s) l = some (f s', l', e)

/-- Such an iterator answers the same after the change. -/
theorem Lib.Answers.of_ignores {f : Cells → Cells} {p : Prog ι Unit Cells Local Ret} {s : Cells} {log : List (ι × Ret)}
    (h : Answers p .idle s log) (hp : Ignores f p) : Answers p .idle (f s) log := by
  refine h.simulate (R := fun s t => t = f s) (fun ht hcall => ?_) rfl
  refine hcall.simulate (R := fun s t _ => t = f s) (fun ht hstep => ?_) ht
  subst ht
  exact ⟨_, hp hstep, rfl⟩

theorem ticketNext_ignores_chunkSize (v : View) (chunkOf : Word → Word) (k : Word) :
    Ignores (fun s => { s with chunkSize := k }) (v.ticketNext chunkOf : Prog ι Unit Cells Local Ret) := by
  intro i s l s' l' e h
  cases l
  case idle =>
    cases h
    rfl
  case loadNext =>
    obtain ⟨r, hr, h⟩ := Option.bind_eq_some_iff.1 h
    cases h
    exact Option.bind_eq_some_iff.2 ⟨_, hr, rfl⟩
  case casNext =>
    unfold View.ticketNext at h ⊢
    dsimp only at h ⊢
    split at h
    · rename_i hc
      cases h
      rw [if_pos hc]
    · rename_i hc
      obtain ⟨r, hr, h⟩ := Option.bind_eq_some_iff.1 h
      cases h
      rw [if_neg hc]
      exact Option.bind_eq_some_iff.2 ⟨_, hr, rfl⟩
  all_goals cases h

end

/-! ## The guided iterators -/

section

variable {ι : Type}

/-- A loop around the compare-and-swap of `ws->next`, with `top` for its body up to there. -/
def retryNext (top : Word → Option (Local × Option Ret)) : Prog ι Unit Cells Local Ret
  | _, _, s, .idle => do return (s, ← top s.next)
  | _, _, s, .casNext start _ nend =>
    if s.next = start then some ({ s with next := nend }, .idle, some (some (start, nend)))
    else do return (s, ← top s.next)
  | _, _, _, _ => none

theorem View.guidedNext_eq (v : View) (guide : Word → Word) :
    (v.guidedNext guide : Prog ι Unit Cells Local Ret) = retryNext (v.guidedTop guide) := by
  funext i a s loc
  cases loc <;> rfl

theorem View.shareNext_eq (v : View) (nthreads incr chunkSize : Word) :
    (v.shareNext nthreads incr chunkSize : Prog ι Unit Cells Local Ret) = retryNext (v.shareTop nthreads incr chunkSize) := by
  funext i a s loc
  cases loc <;> rfl

end

/-! ## The dynamic iterators -/

/-- What a claim of `chunk`, cut down to what is left, makes of `ws->next`, and what the call returns. -/
def claimAlone (fin next chunk : Word) : Word × Ret :=
  if next = fin then (next, none) else (next + chunk, some (next, next + chunk))

/-- `chunk` of `gomp_iter_ull_dynamic_next`, cut down to what is left. -/
def ullClampChunk (ws : GompWorkShare D) (chunk left : Word) : Word :=
  if goesDown ws then if chunk < left then left else chunk else if chunk > left then left else chunk

/-- A call of the dynamic iterator. -/
def Width.dynamicCall (w : Width) (ws : GompWorkShare D) (next : Word) : Word × Ret :=
  match w with
  | .long =>
    if ws.mode ≠ 0 then (next + ws.chunkSize, (dynamicFetched ws next).2)
    else claimAlone ws.fin next (clampChunk ws.incr ws.chunkSize (ws.fin - next))
  | .ull _ =>
    if ws.mode &&& 1 ≠ 0 then (next + ws.chunkSize, ullDynamicFetched ws next)
    else claimAlone ws.fin next (ullClampChunk ws ws.chunkSize (ws.fin - next))

theorem solo_gompIterDynamicNext {ws : GompWorkShare D} {i : Fin P} {next next' : Word} {e : Ret} :
    Solo (recalled (gompIterDynamicNext ws)) .idle i next .idle next' e ↔
      next' = (Width.long.dynamicCall ws next).1 ∧ e = (Width.long.dynamicCall ws next).2 := by
  unfold Width.dynamicCall claimAlone
  by_cases hmode : ws.mode ≠ 0
  · simp only [if_pos hmode]
    apply Solo.ends_iff
    have hloc : (if (dynamicFetched ws next).1 = .stopped then .idle else (dynamicFetched ws next).1) = DynLocal.idle := by
      unfold dynamicFetched
      split <;> split <;> rfl
    unfold recalled gompIterDynamicNext
    simp only [if_pos hmode, Option.map_some]
    rw [hloc]
  · simp only [if_neg hmode]
    by_cases hfin : next = ws.fin
    · simp only [if_pos hfin]
      apply Solo.ends_iff
      unfold recalled gompIterDynamicNext dynamicTop
      simp only [if_neg hmode, if_pos hfin, Option.map_some, if_true]
    · simp only [if_neg hfin]
      have hstep : recalled (gompIterDynamicNext ws) i () next .idle = some (next,
          .casNext next (clampChunk ws.incr ws.chunkSize (ws.fin - next))
            (next + clampChunk ws.incr ws.chunkSize (ws.fin - next)), none) := by
        unfold recalled gompIterDynamicNext dynamicTop
        simp only [if_neg hmode, if_neg hfin, Option.map_some, reduceCtorEq, if_false]
      rw [Solo.next_iff hstep]
      apply Solo.ends_iff
      unfold recalled gompIterDynamicNext
      simp only [if_true, Option.map_some, reduceCtorEq, if_false]

theorem solo_gompIterUllDynamicNext {up : Bool} {ws : GompWorkShare D} {i : Fin P} {next next' : Word} {e : Ret} :
    Solo (gompIterUllDynamicNext ws) .idle i next .idle next' e ↔
      next' = ((Width.ull up).dynamicCall ws next).1 ∧ e = ((Width.ull up).dynamicCall ws next).2 := by
  unfold Width.dynamicCall claimAlone
  by_cases hmode : ws.mode &&& 1 ≠ 0
  · simp only [if_pos hmode]
    apply Solo.ends_iff
    unfold gompIterUllDynamicNext
    simp only [if_pos hmode]
  · simp only [if_neg hmode]
    by_cases hfin : next = ws.fin
    · simp only [if_pos hfin]
      apply Solo.ends_iff
      unfold gompIterUllDynamicNext ullDynamicTop
      simp only [if_neg hmode, if_pos hfin]
    · simp only [if_neg hfin]
      have hstep : gompIterUllDynamicNext ws i () next .idle = some (next,
          .casNext next (ullClampChunk ws ws.chunkSize (ws.fin - next))
            (next + ullClampChunk ws ws.chunkSize (ws.fin - next)), none) := by
        unfold gompIterUllDynamicNext ullDynamicTop
        simp only [if_neg hmode, if_neg hfin]
        rfl
      rw [Solo.next_iff hstep]
      apply Solo.ends_iff
      unfold gompIterUllDynamicNext
      simp only [if_true]

/-- A call that is alone always returns, with what the function says. -/
theorem solo_dynamicNext {w : Width} {ws : GompWorkShare D} {i : Fin P} {next next' : Word} {e : Ret} :
    Solo (w.dynamicNext ws) .idle i next .idle next' e ↔
      next' = (w.dynamicCall ws next).1 ∧ e = (w.dynamicCall ws next).2 := by
  cases w with
  | long => exact solo_gompIterDynamicNext
  | ull up => exact solo_gompIterUllDynamicNext

/-! ## Whole loops -/

section

variable [CDouble D] {g g' : Globals D} {team : Option U32} {now : Int} {ws ws' : GompWorkShare D} {start fin incr chunkSize : Word}
  {sched : GompScheduleType} {r : RegionId} {w : Width} {log : List (Fin P × Ret)}

theorem obtained_iff_of_init (h : w.init g team now ws start fin incr sched chunkSize r = some (g', ws')) :
    w.Obtained g team now ws start fin incr sched chunkSize r log ↔ w.Sequence g' team ws' log := by
  constructor
  · rintro ⟨g₁, ws₁, h₁, hseq⟩
    cases h.symm.trans h₁
    exact hseq
  · intro hseq
    exact ⟨g', ws', h, hseq⟩

/-- The first chunk under a dynamic schedule. -/
theorem obtained_first_iff {i : Fin P} {e : Ret} (h : w.init g team now ws start fin incr sched chunkSize r = some (g', ws'))
    (hd : isDynamic ws'.sched = true) :
    w.Obtained g team now ws start fin incr sched chunkSize r [(i, e)] ↔ e = (w.dynamicCall ws' ws'.next).2 := by
  have hseq : w.Sequence g' team ws' [(i, e)] ↔ Answers (w.dynamicNext ws') .idle ws'.next [(i, e)] := by
    unfold Width.Sequence
    cases hs : ws'.sched
    case gfsDynamic | fsCss | boCss => rfl
    all_goals
      rw [hs] at hd
      cases hd
  rw [obtained_iff_of_init h, hseq, Answers.singleton_iff]
  constructor
  · rintro ⟨s', hsolo⟩
    exact (solo_dynamicNext.1 hsolo).2
  · intro he
    exact ⟨_, solo_dynamicNext.2 ⟨rfl, he⟩⟩

/-- On a `long` loop under `GFS_DYNAMIC` it has the size that `css_chunk_size` makes of the parameter found. -/
theorem obtained_dynamic_first {n k : Word} (team : Option U32) (ws : GompWorkShare D) (hn : numTasks start fin incr = some n)
    (hk : cssChunkSize ws.param n (teamNthreads team) = k) {i : Fin P} {e : Ret} :
    Width.long.Obtained g team now ws start fin incr .gfsDynamic chunkSize r [(i, e)] ↔
      e = (Width.long.dynamicCall { canonicalShare ws start fin incr .gfsDynamic chunkSize with
        chunkSize := k * incr, mode := dynamicMode (canonicalEnd start fin incr) incr (k * incr) (teamNthreads team) } start).2 := by
  subst hk
  have hinit : Width.long.init g team now ws start fin incr .gfsDynamic chunkSize r =
      some (boScheduleBegin g r n (teamNthreads team) now, { canonicalShare ws start fin incr .gfsDynamic chunkSize with
        chunkSize := cssChunkSize ws.param n (teamNthreads team) * incr
        mode := dynamicMode (canonicalEnd start fin incr) incr (cssChunkSize ws.param n (teamNthreads team) * incr)
          (teamNthreads team) }) :=
    show gompLoopInit g team now ws start fin incr .gfsDynamic chunkSize r = _ from gompLoopInit_eq hn
  exact obtained_first_iff hinit rfl

end

end Bosched
