/-
`bo_iter_fac2_next` against the factoring rule, for calls that do not overlap: batches of `P` chunks,
each half of an even share of what remains at the start of the batch, and single iterations once that
share is too small. The code keeps the batch in two words, the chunk size and the barrier where the
next batch begins.
-/
import Bosched.Iter.Batches
import Bosched.Iter.Divisors
import Bosched.Lib.Calls

namespace Bosched

open Lib

/-! ## The reference -/

/-- The sizes of the chunks before the last one with `R` iterations remaining. What remains after a
batch is `R - P * F`, since a chunk of `F` iterations takes the remaining count down by `F`. -/
def factoring (P R : Nat) : List Nat :=
  if 2 ≤ R / (2 * P) then List.replicate P (R / (2 * P)) ++ factoring P (R - P * (R / (2 * P)))
  else List.replicate (R - 1) 1
termination_by R
decreasing_by
  rename_i h
  have hP : 0 < P := Nat.pos_of_ne_zero fun h0 => by simp [h0] at h
  have hR : 0 < R := Nat.pos_of_ne_zero fun h0 => by simp [h0] at h
  have := Nat.mul_pos hP (by omega : 0 < R / (2 * P))
  omega

/-- The chunks of the given sizes from `pos` on; the last chunk is the tail up to the end. -/
def Lib.Loop.chunksFrom (l : Loop) : Int → List Nat → List (Int × Int)
  | pos, [] => if pos = l.fin then [] else [(pos, l.fin)]
  | pos, c :: cs => (pos, pos + c * l.incr) :: l.chunksFrom (pos + c * l.incr) cs

/-- The chunks of the factoring reference. -/
def factoringChunks (l : Loop) (P : Nat) : List (Int × Int) :=
  l.chunksFrom l.start (factoring P ((l.fin - l.start).tdiv l.incr).toNat)

/-! ## A call from start to end -/

section

variable {ι : Type} {v : View} {nthreads : Word} {batch : Word → Option Word}

/-- A call of `fac2` or `fss` that is alone: it is told that the loop is at its end, or it claims with the
chunk size of the work share, or it opens a batch and claims with its chunk size. -/
inductive BatchCall (v : View) (nthreads : Word) (batch : Word → Option Word) (s : Cells) : Cells → Ret → Prop
  | finish (hn : s.next = v.fin) : BatchCall v nthreads batch s s none
  | claim {R : Word} (hn : s.next ≠ v.fin) (hb : s.barrier ≠ s.next) (hR : v.remaining s.next = some R) :
      BatchCall v nthreads batch s { s with next := v.nend s.next s.chunkSize R }
        (some (s.next, v.nend s.next s.chunkSize R))
  | renew {R F nbarrier : Word} (hn : s.next ≠ v.fin) (hb : s.barrier = s.next) (hR : v.remaining s.next = some R)
      (hF : v.NewBatch nthreads batch s.next F nbarrier) :
      BatchCall v nthreads batch s ⟨v.nend s.next F R, nbarrier, F, s.count⟩ (some (s.next, v.nend s.next F R))

/-- The steps of a claim that is alone. -/
theorem solo_claim {i : ι} {s s' : Cells} {start chunk : Word} {loc : Local} {e : Ret}
    (hcl : v.claim start chunk = some loc)
    (h : Solo (v.batchedNext nthreads batch : Prog ι Unit Cells Local Ret) .idle i s loc s' e) (hstart : s.next = start) :
    ∃ R, v.remaining start = some R ∧ s' = { s with next := v.nend start chunk R } ∧ e = some (start, v.nend start chunk R) := by
  obtain ⟨R, hR, hcl⟩ := Option.bind_eq_some_iff.1 hcl
  cases hcl
  obtain ⟨rfl, rfl⟩ := h.ends (if_pos hstart)
  exact ⟨R, hR, rfl, rfl⟩

theorem batchCall_of_solo {i : ι} {s s' : Cells} {e : Ret}
    (h : Solo (v.batchedNext nthreads batch : Prog ι Unit Cells Local Ret) .idle i s .idle s' e) :
    BatchCall v nthreads batch s s' e := by
  have h2 := (h.next rfl).next rfl
  -- the head of the loop body decides
  obtain ⟨⟨_, _, _⟩, hr⟩ := h2.defined
  obtain ⟨⟨loc, e₁⟩, ht, hr'⟩ := Option.bind_eq_some_iff.1 hr
  cases hr'
  unfold View.batchTop at ht
  split at ht
  · rename_i hfin
    cases ht
    obtain ⟨rfl, rfl⟩ := h2.ends hr
    exact .finish hfin
  · rename_i hfin
    split at ht
    · rename_i hbar
      obtain ⟨R, hR, ht⟩ := Option.bind_eq_some_iff.1 ht
      obtain ⟨F₀, hF₀, ht⟩ := Option.bind_eq_some_iff.1 ht
      obtain ⟨⟨F, nbarrier⟩, hFb⟩ : ∃ r, r = if F₀ ≤ 1 then ((1 : Word), v.fin) else (F₀, v.advance s.barrier (F₀ * nthreads)) :=
        ⟨_, rfl⟩
      simp only [← hFb] at ht
      cases ht
      -- both compare-and-swaps of the batch succeed
      have h3 := h2.next hr
      have h4 := h3.next (if_pos rfl)
      obtain ⟨r, hr4⟩ := h4.defined
      simp only [View.batchedNext, if_true] at hr4
      obtain ⟨loc', hcl, hr4'⟩ := Option.bind_eq_some_iff.1 hr4
      have h5 := h4.next (by simp only [View.batchedNext, if_true]; rw [hcl]; rfl)
      obtain ⟨R', hR', rfl, rfl⟩ := solo_claim hcl h5 rfl
      exact .renew hfin hbar hR' ⟨R, F₀, hR, hF₀, by rw [hFb, hbar]⟩
    · rename_i hbar
      obtain ⟨loc', hcl, ht⟩ := Option.bind_eq_some_iff.1 ht
      cases ht
      obtain ⟨R, hR, rfl, rfl⟩ := solo_claim hcl (h2.next hr) rfl
      exact .claim hfin hbar hR

/-- Where the counts are defined, a call that is alone returns. -/
theorem exists_solo (i : ι) {s : Cells} (hR : s.next ≠ v.fin → ∃ R, v.remaining s.next = some R ∧ ∃ F, batch R = some F) :
    ∃ s' e, Solo (v.batchedNext nthreads batch : Prog ι Unit Cells Local Ret) .idle i s .idle s' e := by
  by_cases hfin : s.next = v.fin
  · have h3 : (v.batchedNext nthreads batch : Prog ι Unit Cells Local Ret) i () s (.loadChunk s.next s.barrier) =
        some (s, .idle, some none) := by
      simp only [View.batchedNext, View.batchTop, if_pos hfin]
      rfl
    exact ⟨s, none, .more rfl (.more rfl (.last h3))⟩
  · obtain ⟨R, hR, F₀, hF₀⟩ := hR hfin
    have hcl : ∀ chunk, v.claim s.next chunk = some (.casNext s.next chunk (v.nend s.next chunk R)) := fun chunk => by
      unfold View.claim
      rw [hR]
      rfl
    by_cases hbar : s.barrier = s.next
    · obtain ⟨⟨F, nbarrier⟩, hFb⟩ : ∃ r, r = if F₀ ≤ 1 then ((1 : Word), v.fin) else (F₀, v.advance s.barrier (F₀ * nthreads)) :=
        ⟨_, rfl⟩
      have h3 : (v.batchedNext nthreads batch : Prog ι Unit Cells Local Ret) i () s (.loadChunk s.next s.barrier) =
          some (s, .casChunk s.next s.barrier s.chunkSize F nbarrier, none) := by
        simp only [View.batchedNext, View.batchTop, if_neg hfin, if_pos hbar, hR, hF₀, Option.bind_eq_bind, Option.bind_some,
          ← hFb]
        rfl
      have h5 : (v.batchedNext nthreads batch : Prog ι Unit Cells Local Ret) i () { s with chunkSize := F }
          (.casBarrier s.next s.barrier F nbarrier) = some (⟨s.next, nbarrier, F, s.count⟩,
            .casNext s.next F (v.nend s.next F R), none) := by
        simp only [View.batchedNext, if_true, hcl, Option.bind_eq_bind, Option.bind_some]
        rfl
      have h6 : (v.batchedNext nthreads batch : Prog ι Unit Cells Local Ret) i () ⟨s.next, nbarrier, F, s.count⟩
          (.casNext s.next F (v.nend s.next F R)) = some (⟨v.nend s.next F R, nbarrier, F, s.count⟩, .idle,
            some (some (s.next, v.nend s.next F R))) := if_pos rfl
      exact ⟨_, _, .more rfl (.more rfl (.more h3 (.more (if_pos rfl) (.more h5 (.last h6)))))⟩
    · have h3 : (v.batchedNext nthreads batch : Prog ι Unit Cells Local Ret) i () s (.loadChunk s.next s.barrier) =
          some (s, .casNext s.next s.chunkSize (v.nend s.next s.chunkSize R), none) := by
        simp only [View.batchedNext, View.batchTop, if_neg hfin, if_neg hbar, hcl, Option.bind_eq_bind, Option.bind_some]
        rfl
      exact ⟨_, _, .more rfl (.more rfl (.more h3 (.last (if_pos rfl))))⟩

end

/-! ## Positions of a signed loop -/

section

variable {D : Type} {ws : GompWorkShare D} {start : Word}

/-- A signed loop in range whose counts do not trap. -/
structure Countable (ws : GompWorkShare D) (start : Word) : Prop where
  incr : ws.incr ≠ 0
  fits : SubFits ws.fin start
  trap : ldiv (ws.fin - start) ws.incr ≠ none

/-- The word `w` is at iteration `k`, with `R` iterations remaining by the code's count. -/
structure At (ws : GompWorkShare D) (h : ws.incr ≠ 0) (start w : Word) (k : Nat) (R : Word) : Prop where
  lt : k < (signedLoop start ws.fin ws.incr h).trip
  value : w.toInt = (signedLoop start ws.fin ws.incr h).value k
  remaining : (View.long ws).remaining w = some R

theorem At.ne_fin {h : ws.incr ≠ 0} {w R : Word} {k : Nat} (ha : At ws h start w k R) : w ≠ ws.fin := by
  rintro rfl
  have hb := ((signedLoop start ws.fin ws.incr h).before_fin_iff k).2 ha.lt
  rw [← ha.value] at hb
  exact before_irrefl _ _ hb

/-- A chunk below the remaining count leads to the position behind it, and takes the count down by its size. -/
theorem At.advance (hc : Countable ws start) {w R chunk : Word} {k : Nat} (ha : At ws hc.incr start w k R) (hlt : chunk < R) :
    ((View.long ws).advance w chunk).toInt = w.toInt + chunk.toNat * ws.incr.toInt ∧
      ∃ R', At ws hc.incr start ((View.long ws).advance w chunk) (k + chunk.toNat) R' ∧ R'.toNat = R.toNat - chunk.toNat := by
  let l := signedLoop start ws.fin ws.incr hc.incr
  obtain ⟨hq, hadv⟩ := long_advance hc.incr hc.fits ha.lt ha.value ha.remaining hlt
  have hval : ((View.long ws).advance w chunk).toInt = l.value (k + chunk.toNat) := by
    rw [hadv, ha.value]
    exact (l.value_add k chunk.toNat).symm
  obtain ⟨R', hR', hint'⟩ := long_remaining hc.incr hc.fits hc.trap hq hval
  obtain ⟨R'', hR, hint⟩ := long_remaining hc.incr hc.fits hc.trap ha.lt ha.value
  cases hR.symm.trans ha.remaining
  have hsub := l.tdiv_value_add hq
  change (R'.toNat : Int) = (l.fin - l.value (k + chunk.toNat)).tdiv l.incr at hint'
  change (R.toNat : Int) = (l.fin - l.value k).tdiv l.incr at hint
  rw [hsub, ← hint] at hint'
  exact ⟨hadv, R', ⟨hq, hval, hR'⟩, by omega⟩

theorem countable_of_init {ws : GompWorkShare D} {start fin n : Word} (h : ws.incr ≠ 0)
    (hfin : ws.fin = canonicalEnd start fin ws.incr) (hn : numTasks start fin ws.incr = some n) : Countable ws start := by
  obtain ⟨-, hfits, -⟩ := numTasks_some hn
  rw [← hfin] at hfits
  refine ⟨h, hfits, ?_⟩
  obtain ⟨d, hd, hdiv⟩ := Option.bind_eq_some_iff.1 hn
  rw [← hfin] at hd
  unfold lsub at hd
  rw [if_pos hfits] at hd
  cases hd
  rw [hdiv]
  simp

/-- A loop with iterations starts at the first of them. -/
theorem at_start {fin : Word} (hc : Countable ws start) (hnext : ws.next = start)
    (hfin : ws.fin = canonicalEnd start fin ws.incr) (hne : ws.next ≠ ws.fin) :
    ∃ R, At ws hc.incr start ws.next 0 R ∧ R.toNat = ((ws.fin.toInt - start.toInt).tdiv ws.incr.toInt).toNat := by
  let l := signedLoop start ws.fin ws.incr hc.incr
  have htrip : 0 < l.trip := by
    by_contra h0
    have hnot := (Loop.trip_eq_zero_iff _).1 (Nat.le_zero.1 (not_lt.1 h0))
    have hcan := not_before_canonicalEnd start fin hc.incr
    rw [← hfin] at hcan
    rw [hnext] at hne
    exact hne (BitVec.toInt_inj.1 (eq_of_not_before hnot hcan))
  have hval : ws.next.toInt = l.value 0 := by
    rw [hnext, Loop.value_zero]
    rfl
  obtain ⟨R, hR, hint⟩ := long_remaining hc.incr hc.fits hc.trap htrip hval
  refine ⟨R, ⟨htrip, hval, hR⟩, ?_⟩
  rw [← hval, hnext] at hint
  omega

end

/-! ## The batches in the two words -/

section

variable {ws : GompWorkShare ℚ} {start nthreads : Word}

/-- Halving an even share is exact. -/
theorem fac2Batch_two {nthreads : Word} (hP : nthreads ≠ 0) (R : Word) :
    ∃ F, fac2Batch (2.0 : ℚ) nthreads R = some F ∧ F.toNat = R.toNat / (2 * nthreads.toNat) := by
  refine ⟨_, rfl, ?_⟩
  have hval : (CDouble.ofULong R : ℚ) / 2.0 / CDouble.ofULong nthreads = (R.toNat : ℚ) / ((2 * nthreads.toNat : Nat) : ℚ) := by
    show (R.toNat : ℚ) / 2.0 / nthreads.toNat = _
    rw [div_div]
    norm_num
  have hle : (R.toNat : ℚ) / ((2 * nthreads.toNat : Nat) : ℚ) ≤ R.toNat :=
    div_le_self (Nat.cast_nonneg _) (Nat.one_le_cast.2 (by have := toNat_ne_zero hP; omega))
  have hlt : (R.toNat : ℚ) < 2 ^ 64 := by exact_mod_cast R.isLt
  rw [hval, toNat_toULong_exact (by positivity) (lt_of_le_of_lt hle hlt), Nat.floor_div_eq_div]

/-- The work share between two calls, and the chunks that are still to come. -/
inductive Progress (ws : GompWorkShare ℚ) (hc : Countable ws start) (P : Nat) (s : Cells) : List (Int × Int) → Prop
  | done (hn : s.next = ws.fin) : Progress ws hc P s []
  /-- `m` chunks are left of a batch of chunks of `F`, and the barrier is behind them -/
  | batch {k m F : Nat} {R : Word} (hat : At ws hc.incr start s.next k R)
      (hbar : s.barrier.toInt = s.next.toInt + m * F * ws.incr.toInt)
      (hF : 0 < m → s.chunkSize.toNat = F ∧ 0 < F ∧ m * F < R.toNat) :
      Progress ws hc P s ((signedLoop start ws.fin ws.incr hc.incr).chunksFrom s.next.toInt
        (List.replicate m F ++ factoring P (R.toNat - m * F)))
  /-- the single iterations -/
  | units {k : Nat} {R : Word} (hat : At ws hc.incr start s.next k R) (hbar : s.barrier = ws.fin) (hchunk : s.chunkSize = 1) :
      Progress ws hc P s ((signedLoop start ws.fin ws.incr hc.incr).chunksFrom s.next.toInt (List.replicate (R.toNat - 1) 1))

/-- The chunk a call returns, as integers. -/
def readChunk (e : Ret) : Option (Int × Int) := e.map fun c => (c.1.toInt, c.2.toInt)

theorem chunksFrom_nil {l : Loop} {pos : Int} (h : pos ≠ l.fin) : l.chunksFrom pos [] = [(pos, l.fin)] := if_neg h

theorem factoring_of_lt {P R : Nat} (h : ¬ 2 ≤ R / (2 * P)) : factoring P R = List.replicate (R - 1) 1 := by
  rw [factoring, if_neg h]

theorem factoring_of_le {P R : Nat} (h : 2 ≤ R / (2 * P)) :
    factoring P R = List.replicate P (R / (2 * P)) ++ factoring P (R - P * (R / (2 * P))) := by
  rw [factoring, if_pos h]

/-- A claim of a single iteration, from where single iterations remain. -/
theorem Progress.claim_unit (hc : Countable ws start) {P k : Nat} {s s' : Cells} {R : Word}
    (hat : At ws hc.incr start s.next k R) (hnext : s'.next = (View.long ws).nend s.next 1 R) (hbar : s'.barrier = ws.fin)
    (hchunk : s'.chunkSize = 1) :
    (readChunk (some (s.next, (View.long ws).nend s.next 1 R)) =
        ((signedLoop start ws.fin ws.incr hc.incr).chunksFrom s.next.toInt (List.replicate (R.toNat - 1) 1)).head?) ∧
      Progress ws hc P s' ((signedLoop start ws.fin ws.incr hc.incr).chunksFrom s.next.toInt
        (List.replicate (R.toNat - 1) 1)).tail := by
  let l := signedLoop start ws.fin ws.incr hc.incr
  have hone : (1 : Word).toNat = 1 := rfl
  by_cases hlt : (1 : Word) < R
  · have hnend : (View.long ws).nend s.next 1 R = (View.long ws).advance s.next 1 := if_pos hlt
    obtain ⟨hadv, R', hat', hR'⟩ := hat.advance hc hlt
    rw [hnend] at hnext ⊢
    rw [BitVec.lt_def, hone] at hlt
    rw [hone, ← hnext] at hadv hat'
    rw [hone] at hR'
    obtain ⟨m, hm⟩ : ∃ m, R.toNat - 1 = m + 1 := ⟨R.toNat - 2, by omega⟩
    rw [hm, List.replicate_succ]
    have htail : R'.toNat - 1 = m := by omega
    have hpos : s.next.toInt + ((1 : Nat) : Int) * l.incr = s'.next.toInt := hadv.symm
    show some (s.next.toInt, ((View.long ws).advance s.next 1).toInt) = some (s.next.toInt, s.next.toInt + ((1 : Nat) : Int) * l.incr) ∧
      Progress ws hc P s' (l.chunksFrom (s.next.toInt + ((1 : Nat) : Int) * l.incr) (List.replicate m 1))
    rw [hpos, ← hnext, ← htail]
    exact ⟨rfl, .units hat' hbar hchunk⟩
  · have hnend : (View.long ws).nend s.next 1 R = ws.fin := if_neg hlt
    rw [hnend] at hnext ⊢
    rw [BitVec.lt_def, hone] at hlt
    have hzero : R.toNat - 1 = 0 := by omega
    have hne : s.next.toInt ≠ l.fin := fun h => hat.ne_fin (BitVec.toInt_inj.1 h)
    rw [hzero, List.replicate_zero, chunksFrom_nil hne]
    exact ⟨rfl, .done hnext⟩

/-- A claim of a chunk of a batch. -/
theorem Progress.claim_batch (hc : Countable ws start) {P k m n F : Nat} {s s' : Cells} {R chunk : Word} (hn : n = m + 1)
    (hat : At ws hc.incr start s.next k R) (hnext : s'.next = (View.long ws).nend s.next chunk R) (hF : chunk.toNat = F)
    (hpos : 0 < F) (hroom : n * F < R.toNat) (hbar : s'.barrier.toInt = s.next.toInt + n * F * ws.incr.toInt)
    (hchunk : s'.chunkSize = chunk) :
    (readChunk (some (s.next, (View.long ws).nend s.next chunk R)) =
        ((signedLoop start ws.fin ws.incr hc.incr).chunksFrom s.next.toInt
          (List.replicate n F ++ factoring P (R.toNat - n * F))).head?) ∧
      Progress ws hc P s' ((signedLoop start ws.fin ws.incr hc.incr).chunksFrom s.next.toInt
        (List.replicate n F ++ factoring P (R.toNat - n * F))).tail := by
  subst hn
  let l := signedLoop start ws.fin ws.incr hc.incr
  rw [Nat.add_mul, Nat.one_mul] at hroom
  have hlt : chunk < R := by rw [BitVec.lt_def]; omega
  have hnend : (View.long ws).nend s.next chunk R = (View.long ws).advance s.next chunk := if_pos hlt
  obtain ⟨hadv, R', hat', hR'⟩ := hat.advance hc hlt
  rw [hnend] at hnext ⊢
  rw [hF, ← hnext] at hadv hat'
  rw [hF] at hR'
  have hstep : s.next.toInt + (F : Int) * l.incr = s'.next.toInt := hadv.symm
  have hrest : R.toNat - (m + 1) * F = R'.toNat - m * F := by rw [Nat.add_mul, Nat.one_mul]; omega
  rw [List.replicate_succ, List.cons_append, hrest]
  show some (s.next.toInt, ((View.long ws).advance s.next chunk).toInt) = some (s.next.toInt, s.next.toInt + (F : Int) * l.incr) ∧
    Progress ws hc P s' (l.chunksFrom (s.next.toInt + (F : Int) * l.incr) (List.replicate m F ++ factoring P (R'.toNat - m * F)))
  rw [hstep, ← hnext]
  refine ⟨rfl, .batch hat' ?_ fun _ => ⟨by rw [hchunk]; exact hF, hpos, by omega⟩⟩
  rw [hbar, ← hstep]
  show _ = s.next.toInt + F * ws.incr.toInt + _
  push_cast
  ring

/-- Each call returns the next chunk of the reference. -/
theorem Progress.call (hc : Countable ws start) (hP : nthreads ≠ 0) {s s' : Cells} {os : List (Int × Int)} {e : Ret}
    (h : Progress ws hc nthreads.toNat s os) (hcall : BatchCall (View.long ws) nthreads (fac2Batch (2.0 : ℚ) nthreads) s s' e) :
    readChunk e = os.head? ∧ Progress ws hc nthreads.toNat s' os.tail := by
  cases h with
  | done hn =>
    cases hcall with
    | finish => exact ⟨rfl, .done hn⟩
    | claim hne | renew hne => exact absurd hn hne
  | units hat hbar hchunk =>
    cases hcall with
    | finish hn => exact absurd hn hat.ne_fin
    | claim hne hb hR =>
      cases hR.symm.trans hat.remaining
      rw [hchunk]
      exact Progress.claim_unit hc hat rfl hbar rfl
    | renew hne hb => exact absurd (hb.symm.trans hbar) hat.ne_fin
  | @batch k m F R hat hbar hF =>
    cases hcall with
    | finish hn => exact absurd hn hat.ne_fin
    | claim hne hb hR =>
      cases hR.symm.trans hat.remaining
      cases m with
      | zero => exact absurd (BitVec.toInt_inj.1 (by simpa using hbar)) hb
      | succ m =>
        obtain ⟨hchunk, hpos, hroom⟩ := hF (Nat.succ_pos m)
        exact Progress.claim_batch hc rfl hat rfl hchunk hpos hroom hbar rfl
    | @renew R' F' nbarrier hne hb hR hnew =>
      cases hR.symm.trans hat.remaining
      -- the barrier is met, so the batch is used up
      have hm : m = 0 := by
        by_contra hm
        obtain ⟨-, hpos, -⟩ := hF (Nat.pos_of_ne_zero hm)
        rw [hb] at hbar
        have hzero : (m : Int) * F * ws.incr.toInt = 0 := by omega
        have hm' : (m : Int) ≠ 0 := by exact_mod_cast hm
        have hF' : (F : Int) ≠ 0 := by exact_mod_cast hpos.ne'
        exact mul_ne_zero (mul_ne_zero hm' hF') (toInt_ne_zero hc.incr) hzero
      subst hm
      rw [List.replicate_zero, List.nil_append, Nat.zero_mul, Nat.sub_zero]
      obtain ⟨R', F₀, hR', hF₀, heq⟩ := hnew
      cases hR'.symm.trans hat.remaining
      obtain ⟨F₁, hF₁, hdiv⟩ := fac2Batch_two hP R
      cases hF₁.symm.trans hF₀
      by_cases hsmall : F₀ ≤ 1
      · rw [if_pos hsmall] at heq
        cases heq
        rw [BitVec.le_def, hdiv] at hsmall
        have hone : (1 : Word).toNat = 1 := rfl
        rw [factoring_of_lt (by omega)]
        exact Progress.claim_unit hc hat rfl rfl rfl
      · rw [if_neg hsmall] at heq
        cases heq
        rw [BitVec.le_def, hdiv] at hsmall
        have hone : (1 : Word).toNat = 1 := rfl
        have hPpos : 0 < nthreads.toNat := Nat.pos_of_ne_zero (toNat_ne_zero hP)
        have hhalf : 2 * nthreads.toNat * (R.toNat / (2 * nthreads.toNat)) ≤ R.toNat := Nat.mul_div_le _ _
        rw [← hdiv] at hhalf hsmall
        have hprod : nthreads.toNat * F'.toNat < R.toNat := by
          have : 0 < nthreads.toNat * F'.toNat := Nat.mul_pos hPpos (by omega)
          rw [Nat.mul_assoc] at hhalf
          omega
        have hmul : (F' * nthreads).toNat = nthreads.toNat * F'.toNat := by
          have := R.isLt
          rw [BitVec.toNat_mul, Nat.mul_comm, Nat.mod_eq_of_lt (by omega)]
        have hbarlt : F' * nthreads < R := by rw [BitVec.lt_def, hmul]; exact hprod
        obtain ⟨hbadv, -⟩ := hat.advance hc hbarlt
        rw [factoring_of_le (by rw [← hdiv]; omega), ← hdiv]
        obtain ⟨P, hPs⟩ : ∃ P, nthreads.toNat = P + 1 := ⟨nthreads.toNat - 1, by omega⟩
        refine Progress.claim_batch hc hPs hat rfl rfl (by omega) hprod ?_ rfl
        rw [hbadv, hmul]
        push_cast
        ring

theorem Progress.exists_remaining {hc : Countable ws start} {P : Nat} {s : Cells} {os : List (Int × Int)}
    (h : Progress ws hc P s os) (hne : s.next ≠ ws.fin) : ∃ R, (View.long ws).remaining s.next = some R := by
  cases h with
  | done hn => exact absurd hn hne
  | batch hat | units hat => exact ⟨_, hat.remaining⟩

end

/-! ## The iterator -/

section

variable {ι : Type}

/-- Calls of `bo_iter_fac2_next` that do not overlap return, and they hand out the chunks of the factoring
reference, in order, and then false. -/
theorem boIterFac2Next_factoring [DecidableEq ι] {g g' : Globals ℚ} {team : Option U32} {now : Int} {ws ws' : GompWorkShare ℚ}
    {start fin incr chunkSize : Word} {r : RegionId} (hincr : incr ≠ 0) (hteam : team ≠ some 0)
    (hinit : gompLoopInit g team now ws start fin incr .fsFac2 chunkSize r = some (g', ws')) {log : List (ι × Ret)} {s : Cells}
    (h : Calls (boIterFac2Next ws' (teamNthreads team)) .idle ws'.cells log s) :
    let l := shareLoop start fin incr hincr
    log.map (fun x => readChunk x.2) =
        (List.range log.length).map (fun n => (factoringChunks l (teamNthreads team).toNat)[n]?) ∧
      Reach (boIterFac2Next ws' (teamNthreads team)) (entry ws') ⟨s, fun _ => .idle, log⟩ ∧
      ∀ i : ι, ∃ s' e, Solo (boIterFac2Next ws' (teamNthreads team)) .idle i s .idle s' e := by
  obtain ⟨n, hn, hs⟩ := gompLoopInit_some hinit
  have hsame := gompLoopInit_sameLoop hinit
  have hnext : ws'.next = start := hsame.next
  have hfin : ws'.fin = canonicalEnd start fin incr := hsame.fin
  have hinc : ws'.incr = incr := hsame.incr
  have hbar : ws'.barrier = start := gompLoopInit_fac2_barrier hinit
  have hparam : ws'.param = (2.0 : ℚ) := by
    cases hs
    rfl
  have hP : teamNthreads team ≠ 0 := fun h0 => by
    have := teamNthreads_pos hteam
    rw [h0] at this
    exact absurd this (by decide)
  subst hinc
  have hc : Countable ws' start := countable_of_init hincr hfin hn
  intro l
  have hl : l = signedLoop start ws'.fin ws'.incr hincr := by
    show shareLoop start fin ws'.incr hincr = _
    unfold shareLoop
    rw [hfin]
  have hp : (boIterFac2Next ws' (teamNthreads team) : Prog ι Unit Cells Local Ret) =
      (View.long ws').batchedNext (teamNthreads team) (fac2Batch (2.0 : ℚ) (teamNthreads team)) := by
    unfold boIterFac2Next
    rw [hparam]
  rw [hp] at h ⊢
  have hstart : Progress ws' hc (teamNthreads team).toNat ws'.cells (factoringChunks l (teamNthreads team).toNat) := by
    unfold factoringChunks
    by_cases hne : ws'.next = ws'.fin
    · have hzero : (l.fin - l.start).tdiv l.incr = 0 := by
        rw [hl]
        show (ws'.fin.toInt - start.toInt).tdiv _ = 0
        rw [← hne, hnext, sub_self, Int.zero_tdiv]
      have hnil : factoring (teamNthreads team).toNat 0 = [] := by
        rw [factoring_of_lt (by simp)]
        rfl
      have hstop : l.start = l.fin := by
        rw [hl]
        show start.toInt = ws'.fin.toInt
        rw [← hne, hnext]
      rw [hzero, Int.toNat_zero, hnil]
      unfold Loop.chunksFrom
      rw [if_pos hstop]
      exact .done hne
    · obtain ⟨R, hat, hR⟩ := at_start hc hnext hfin hne
      -- the first call opens a batch at the start
      have hmet : ws'.cells.barrier.toInt = ws'.cells.next.toInt + ((0 : Nat) : Int) * ((0 : Nat) : Int) * ws'.incr.toInt := by
        rw [show ws'.cells.barrier = ws'.cells.next from hbar.trans hnext.symm]
        simp
      have hbatch : Progress ws' hc (teamNthreads team).toNat ws'.cells (l.chunksFrom ws'.cells.next.toInt
          (List.replicate 0 0 ++ factoring (teamNthreads team).toNat (R.toNat - 0 * 0))) := by
        rw [hl]
        exact .batch hat hmet fun h => absurd h (Nat.lt_irrefl 0)
      rw [List.replicate_zero, List.nil_append, Nat.zero_mul, Nat.sub_zero] at hbatch
      have hpos : ws'.cells.next.toInt = l.start := by
        rw [hl]
        show ws'.next.toInt = start.toInt
        rw [hnext]
      have hcount : R.toNat = ((l.fin - l.start).tdiv l.incr).toNat := by
        rw [hl]
        exact hR
      rwa [hpos, hcount] at hbatch
  have hresults := h.results (fun hrel hcall => Progress.call hc hP hrel (batchCall_of_solo hcall)) hstart
  refine ⟨hresults.1, h.reach [], fun i => exists_solo i fun hne => ?_⟩
  obtain ⟨R, hat⟩ := hresults.2.exists_remaining hne
  obtain ⟨F, hF, -⟩ := fac2Batch_two hP R
  exact ⟨R, hat, F, hF⟩

end

/-- The reference over 40 iterations for two threads. -/
theorem factoringChunks_forty : factoringChunks (shareLoop 0 40 1 (by decide)) 2 =
    [(0, 10), (10, 20), (20, 25), (25, 30), (30, 32), (32, 34), (34, 35), (35, 36), (36, 37), (37, 38), (38, 39), (39, 40)] := by
  have hsizes : factoring 2 40 = [10, 10, 5, 5, 2, 2, 1, 1, 1, 1, 1] := by
    unfold factoring factoring factoring factoring
    rfl
  have hcount : (((shareLoop 0 40 1 (by decide)).fin - (shareLoop 0 40 1 (by decide)).start).tdiv
      (shareLoop 0 40 1 (by decide)).incr).toNat = 40 := by decide +kernel
  unfold factoringChunks
  rw [hcount, hsizes]
  decide +kernel

/-- Thirteen calls over `for (i = 0; i < 40; i++)` in a team of two. -/
theorem boIterFac2Next_factoring_forty :
    ∃ (g : Globals ℚ) (ws : GompWorkShare ℚ) (log : List (Fin 2 × Ret)) (s : Cells),
      gompLoopInit (.fresh 2) (some 2) 0 .zero 0 40 1 .fsFac2 0 0 = some (g, ws) ∧
      Calls (boIterFac2Next ws (teamNthreads (some 2))) .idle ws.cells log s ∧
      log.map (fun x => readChunk x.2) = [some (0, 10), some (10, 20), some (20, 25), some (25, 30), some (30, 32),
        some (32, 34), some (34, 35), some (35, 36), some (36, 37), some (37, 38), some (38, 39), some (39, 40), none] := by
  obtain ⟨g, ws, hinit⟩ : ∃ (g : Globals ℚ) (ws : GompWorkShare ℚ),
      gompLoopInit (.fresh 2) (some 2) 0 .zero 0 40 1 .fsFac2 0 0 = some (g, ws) :=
    ⟨_, _, gompLoopInit_eq (by decide +kernel : numTasks 0 40 1 = some 40)⟩
  obtain ⟨log, s, hcalls, hlen⟩ := Calls.exists_length (0 : Fin 2) (fun h =>
    (boIterFac2Next_factoring (by decide) (by decide) hinit h).2.2 0) 13
  obtain ⟨hlog, -, -⟩ := boIterFac2Next_factoring (by decide) (by decide) hinit hcalls
  refine ⟨g, ws, log, s, hinit, hcalls, ?_⟩
  have hteam : (teamNthreads (some 2)).toNat = 2 := by decide
  rw [hlog, hlen, hteam, factoringChunks_forty]
  decide

end Bosched
