/-
`gomp_iter_static_next`: which iterations a thread takes depends on its number and on how often it
has been here (`static_trip`), and on nothing the other threads do. Wherever it is defined it hands
out the blocks of the even shares or, with a chunk size, of the blocks in turn.
-/
import Bosched.Lib.Blocks
import Bosched.Iter.Css

namespace Bosched

open Lib

/-! ## `iter.c` -/

section

variable {D : Type} (ws : GompWorkShare D) (s : Cells)

/-- `n`: the number of iterations. -/
def staticCount : Option Word := do
  let d ← lsub ws.fin s.next
  ldiv (← ladd d (ws.incr + if (0#64).slt ws.incr then -1 else 1)) ws.incr

/-- `(long) k * ws->incr + ws->next`. -/
def staticValue (k : Word) : Option Word := do ladd (← lmul k ws.incr) s.next

/-- `gomp_iter_static_next` of thread `i`: the new `static_trip`, and what it returns. -/
def gompIterStaticNext (nthreads i trip : Word) : Option (Word × Ret) :=
  if trip = -1 then some (trip, none)
  else if nthreads = 1 then some (-1, if s.next = ws.fin then none else some (s.next, ws.fin))
  else if s.chunkSize = 0 then
    if 0 < trip then some (trip, none)
    else do
      let n ← staticCount ws s
      let q ← uldiv n nthreads
      let t := n % nthreads
      let (q, t) := if i < t then (q + 1, 0) else (q, t)
      let s0 := q * i + t
      let e0 := s0 + q
      if e0 ≤ s0 then some (1, none)
      else do
        let start ← staticValue ws s s0
        let fin ← staticValue ws s e0
        return (if e0 = n then -1 else 1, some (start, fin))
  else do
    let n ← staticCount ws s
    let s0 := (trip * nthreads + i) * s.chunkSize
    let e0 := s0 + s.chunkSize
    if n ≤ s0 then some (trip, none)
    else do
      let e0 := if n < e0 then n else e0
      let start ← staticValue ws s s0
      let fin ← staticValue ws s e0
      return (if e0 = n then -1 else trip + 1, some (start, fin))

end

/-! ## The work share -/

/-- A work share for a loop that is not run behind its end. -/
structure StaticShare {D : Type} (ws : GompWorkShare D) (l : Loop) : Prop where
  start : ws.next.toInt = l.start
  fin : ws.fin.toInt = l.fin
  incr : ws.incr.toInt = l.incr
  canonical : ¬ Before l.incr l.fin l.start

/-- The computations of `gomp_iter_static_next` do not overflow: neither the sum behind the number of
iterations, nor that number, nor the value one iteration further than the last one. -/
structure StaticFits (l : Loop) : Prop where
  sum : -2 ^ 63 ≤ l.fin - l.start + (l.incr - if 0 < l.incr then 1 else -1) ∧
    l.fin - l.start + (l.incr - if 0 < l.incr then 1 else -1) < 2 ^ 63
  count : l.trip < 2 ^ 63
  past : -2 ^ 63 ≤ l.value l.trip ∧ l.value l.trip < 2 ^ 63

/-- The rounded quotient is the number of iterations. -/
theorem Lib.Loop.tdiv_round_up (l : Loop) (h : ¬ Before l.incr l.fin l.start) :
    (l.fin - l.start + (l.incr - if 0 < l.incr then 1 else -1)).tdiv l.incr = l.trip := by
  have hne := l.incr_ne
  unfold Loop.trip
  by_cases hp : 0 < l.incr
  · rw [before_pos hp] at h
    rw [if_pos hp, if_pos hp, Int.tdiv_eq_ediv_of_nonneg (by omega), Int.toNat_of_nonneg (Int.ediv_nonneg (by omega) (by omega))]
    congr 1
    ring
  · rw [before_neg hp] at h
    rw [if_neg hp, if_neg hp, ← Int.neg_tdiv_neg, Int.tdiv_eq_ediv_of_nonneg (by omega),
      Int.toNat_of_nonneg (Int.ediv_nonneg (by omega) (by omega))]
    congr 1
    ring

/-- Up to the value one further than the last, the steps from the start are no longer than the rounded distance. -/
theorem Lib.Loop.steps_between (l : Loop) (h : ¬ Before l.incr l.fin l.start) {k : Nat} (hk : k ≤ l.trip) :
    (0 ≤ k * l.incr ∧ k * l.incr ≤ l.trip * l.incr ∧
        l.trip * l.incr ≤ l.fin - l.start + (l.incr - if 0 < l.incr then 1 else -1)) ∨
      (k * l.incr ≤ 0 ∧ l.trip * l.incr ≤ k * l.incr ∧
        l.fin - l.start + (l.incr - if 0 < l.incr then 1 else -1) ≤ l.trip * l.incr) := by
  have htrip := l.tdiv_round_up h
  have hne := l.incr_ne
  have hk' : (k : Int) ≤ l.trip := by exact_mod_cast hk
  by_cases hp : 0 < l.incr
  · left
    rw [before_pos hp] at h
    refine ⟨by positivity, Int.mul_le_mul_of_nonneg_right hk' (le_of_lt hp), ?_⟩
    rw [if_pos hp] at htrip ⊢
    rw [← htrip, Int.tdiv_eq_ediv_of_nonneg (by omega)]
    exact Int.ediv_mul_le _ hne
  · right
    rw [before_neg hp] at h
    refine ⟨Int.mul_nonpos_of_nonneg_of_nonpos (by omega) (by omega),
      Int.mul_le_mul_of_nonpos_right hk' (by omega), ?_⟩
    rw [if_neg hp] at htrip ⊢
    rw [← htrip, ← Int.neg_tdiv_neg, Int.tdiv_eq_ediv_of_nonneg (by omega)]
    have := Int.ediv_mul_le (-(l.fin - l.start + (l.incr - -1))) (neg_ne_zero.2 hne)
    rw [Int.mul_neg] at this
    omega

/-- A chunk between two values runs the iterations between them. -/
theorem Lib.Loop.chunk_value_values (l : Loop) (a b : Nat) :
    (l.chunk (l.value a, l.value b)).values = (blockIndices (a, b)).map l.value := by
  have hval : ∀ k, (l.chunk (l.value a, l.value b)).value k = l.value (a + k) := fun k => by
    rw [l.value_add]
    rfl
  have hiff : ∀ k, k < (l.chunk (l.value a, l.value b)).trip ↔ k < b - a := fun k => by
    rw [← Loop.before_fin_iff, hval, Loop.chunk_incr, Loop.chunk_fin, l.before_value_iff]
    omega
  have htrip : (l.chunk (l.value a, l.value b)).trip = b - a := by
    have h1 := hiff (b - a)
    have h2 := hiff (l.chunk (l.value a, l.value b)).trip
    omega
  unfold Loop.values blockIndices
  rw [htrip, List.range'_eq_map_range, List.map_map]
  exact List.map_congr_left fun k _ => hval k

namespace StaticShare

variable {D : Type} {ws : GompWorkShare D} {l : Loop} (h : StaticShare ws l)

include h

theorem toInt_round (hincr : ws.incr ≠ 0) :
    (ws.incr + if (0#64).slt ws.incr then -1 else 1).toInt = l.incr - if 0 < l.incr then 1 else -1 := by
  have hb := toInt_bounds ws.incr
  have hne := toInt_ne_zero hincr
  have h1 : (1 : Word).toInt = 1 := rfl
  have hm1 : (-1 : Word).toInt = -1 := rfl
  have hz : (0#64).toInt = 0 := rfl
  simp only [BitVec.slt_iff_toInt_lt, hz]
  rw [← h.incr]
  by_cases hp : 0 < ws.incr.toInt
  · rw [if_pos hp, if_pos hp, ladd_some (if_pos (by omega) : ladd ws.incr (-1) = some (ws.incr + -1)), hm1]
    ring
  · rw [if_neg hp, if_neg hp, ladd_some (if_pos (by omega) : ladd ws.incr 1 = some (ws.incr + 1)), h1]
    ring

/-- Where the number of iterations is defined, it is that of the loop. -/
theorem count_some {n : Word} (hn : staticCount ws ws.cells = some n) : n.toNat = l.trip ∧ l.trip < 2 ^ 63 := by
  obtain ⟨d, hd, hn⟩ := Option.bind_eq_some_iff.1 hn
  obtain ⟨e, he, hn⟩ := Option.bind_eq_some_iff.1 hn
  obtain ⟨-, hd⟩ := lsub_some hd
  have he := ladd_some he
  obtain ⟨hincr, hq⟩ := ldiv_some hn
  rw [he, hd, h.toInt_round hincr, h.incr, show ws.cells.next = ws.next from rfl, h.start, h.fin,
    l.tdiv_round_up h.canonical] at hq
  have hb := toInt_bounds n
  have hnat := toNat_of_toInt_nonneg (by omega : 0 ≤ n.toInt)
  omega

/-- It is defined exactly if the rounded distance is a `long`. -/
theorem exists_count (hfits : StaticFits l) : ∃ n, staticCount ws ws.cells = some n := by
  obtain ⟨h1, h2⟩ := hfits.sum
  have hincr : ws.incr ≠ 0 := fun h0 => l.incr_ne (by rw [← h.incr, h0]; rfl)
  have hround := h.toInt_round hincr
  have hcan := h.canonical
  have hne := l.incr_ne
  have hb := toInt_bounds ws.fin
  have hb' := toInt_bounds ws.next
  have hsub : SubFits ws.fin ws.cells.next := by
    show SubFits ws.fin ws.next
    unfold SubFits
    rw [h.fin, h.start]
    by_cases hp : 0 < l.incr
    · rw [before_pos hp] at hcan
      rw [if_pos hp] at h1 h2
      omega
    · rw [before_neg hp] at hcan
      rw [if_neg hp] at h1 h2
      omega
  have hd : lsub ws.fin ws.cells.next = some (ws.fin - ws.cells.next) := if_pos hsub
  have hdint := (lsub_some hd).2
  rw [show ws.cells.next = ws.next from rfl, h.start, h.fin] at hdint
  have he : ladd (ws.fin - ws.cells.next) (ws.incr + if (0#64).slt ws.incr then -1 else 1) =
      some (ws.fin - ws.cells.next + (ws.incr + if (0#64).slt ws.incr then -1 else 1)) := by
    unfold ladd
    rw [show ws.cells.next = ws.next from rfl, hdint, hround]
    exact if_pos ⟨h1, h2⟩
  have heint := ladd_some he
  have hdiv : ldiv (ws.fin - ws.cells.next + (ws.incr + if (0#64).slt ws.incr then -1 else 1)) ws.incr ≠ none := by
    unfold ldiv
    rw [ne_eq, ite_eq_left_iff, not_forall]
    refine ⟨?_, by simp⟩
    rintro (h0 | ⟨hmin, hone⟩)
    · exact hincr h0
    · -- then there are `2 ^ 63` iterations
      have htrip := l.tdiv_round_up hcan
      have hmin' : (BitVec.intMin 64).toInt = -2 ^ 63 := by decide
      have hm1 : (-1#64).toInt = -1 := rfl
      rw [hmin, hmin', show ws.cells.next = ws.next from rfl, hdint, hround] at heint
      rw [← heint, ← h.incr, hone, hm1, show (-2 ^ 63 : Int).tdiv (-1) = 2 ^ 63 from by decide] at htrip
      have := hfits.count
      omega
  obtain ⟨n, hn⟩ := Option.ne_none_iff_exists'.1 hdiv
  refine ⟨n, ?_⟩
  unfold staticCount
  rw [hd, Option.bind_eq_bind, Option.bind_some, he]
  exact hn

/-- Where a value is defined, it is that of the loop. -/
theorem value_some {k r : Word} (hk : k.toNat < 2 ^ 63) (hr : staticValue ws ws.cells k = some r) :
    r.toInt = l.value k.toNat := by
  obtain ⟨p, hp, hr⟩ := Option.bind_eq_some_iff.1 hr
  have hkint := BitVec.toInt_eq_toNat_cond k
  rw [if_pos (by omega)] at hkint
  rw [ladd_some hr, lmul_some hp, h.incr, hkint, show ws.cells.next = ws.next from rfl, h.start]
  exact Int.add_comm _ _

theorem exists_value (hfits : StaticFits l) {k : Word} (hk : k.toNat ≤ l.trip) :
    ∃ r, staticValue ws ws.cells k = some r := by
  have hcount := hfits.count
  have hsum := hfits.sum
  have hpast := hfits.past
  have hkint := BitVec.toInt_eq_toNat_cond k
  rw [if_pos (by omega)] at hkint
  have hbetween := l.steps_between h.canonical hk
  have hstart := toInt_bounds ws.next
  rw [h.start] at hstart
  unfold Loop.value at hpast
  have hmul : lmul k ws.incr = some (k * ws.incr) := if_pos (by rw [hkint, h.incr]; omega)
  have hadd : ladd (k * ws.incr) ws.cells.next = some (k * ws.incr + ws.cells.next) := by
    refine if_pos ?_
    rw [lmul_some hmul, hkint, h.incr, show ws.cells.next = ws.next from rfl, h.start]
    omega
  refine ⟨k * ws.incr + ws.cells.next, ?_⟩
  unfold staticValue
  rw [hmul]
  exact hadd

end StaticShare

/-! ## The blocks of a thread -/

/-- The chunk size the blocks are made with: none for a team of one thread. -/
def staticChunk {D : Type} (ws : GompWorkShare D) (P : Nat) : Nat := if P = 1 then 0 else ws.chunkSize.toNat

/-- The value of `static_trip` of thread `i` of `P` that has taken `m` blocks. -/
inductive StaticAt (n P c i : Nat) : Word → Nat → Prop
  | fresh : StaticAt n P c i 0 0
  | taken (hP : P ≠ 1) (hc : c = 0) : StaticAt n P c i 1 1
  | turns {trip : Word} {m : Nat} (hc : c ≠ 0) (hn : n < 2 ^ 63) (htrip : trip.toNat = m + 1) (hlt : (m * P + i) * c < n) :
      StaticAt n P c i trip (m + 1)
  | last {m : Nat} (h : workerBlock n P c i m = none) : StaticAt n P c i (-1) m

/-- The chunk runs the iterations of the block; but for a team of one thread it ends on a value. -/
def HandsOut (l : Loop) (P : Nat) (b : Nat × Nat) (ch : Int × Int) : Prop :=
  (l.chunk ch).values = (blockIndices b).map l.value ∧ (P ≠ 1 → ch.2 = l.value b.2)

/-- A call that returned `r` when the thread had taken `m` blocks, and left `trip` behind. -/
def StaticStep (l : Loop) (P c i m : Nat) (trip : Word) : Ret → Prop
  | none => workerBlock l.trip P c i m = none
  | some ch => ∃ b, workerBlock l.trip P c i m = some b ∧ HandsOut l P b (ch.1.toInt, ch.2.toInt) ∧
      StaticAt l.trip P c i trip (m + 1)

theorem workerBlock_even {n P i : Nat} : workerBlock n P 0 i 0 =
    if evenStart n P i < evenStart n P (i + 1) then some (evenStart n P i, evenStart n P (i + 1)) else none := by
  unfold workerBlock
  simp

theorem workerBlock_even_succ (n P i m : Nat) : workerBlock n P 0 i (m + 1) = none := by
  unfold workerBlock
  simp

/-- The bounds of the even shares, as the words compute them. -/
theorem toNat_evenStart {n nthreads i : Word} (hi : i.toNat < nthreads.toNat) (hn : n.toNat < 2 ^ 63) :
    let (q, t) := if i < n % nthreads then (n / nthreads + 1, 0) else (n / nthreads, n % nthreads)
    (q * i + t).toNat = evenStart n.toNat nthreads.toNat i.toNat ∧
      (q * i + t + q).toNat = evenStart n.toNat nthreads.toNat (i.toNat + 1) := by
  have hle : evenStart n.toNat nthreads.toNat (i.toNat + 1) ≤ n.toNat :=
    le_of_le_of_eq (evenStart_mono _ _ hi) (evenStart_last _ (by omega))
  have hle' := le_trans (evenStart_mono n.toNat nthreads.toNat (Nat.le_succ i.toNat)) hle
  have hsucc := evenStart_succ n.toNat nthreads.toNat i.toNat
  have hdef : evenStart n.toNat nthreads.toNat i.toNat =
      n.toNat / nthreads.toNat * i.toNat + min i.toNat (n.toNat % nthreads.toNat) := rfl
  have hone : (1 : Word).toNat = 1 := rfl
  by_cases hlt : i < n % nthreads
  · simp only [if_pos hlt]
    rw [BitVec.lt_def, BitVec.toNat_umod] at hlt
    rw [if_pos hlt] at hsucc
    have hq : (n / nthreads + 1).toNat = n.toNat / nthreads.toNat + 1 := by
      rw [BitVec.toNat_add, BitVec.toNat_udiv, hone]
      exact Nat.mod_eq_of_lt (by omega)
    have hs : ((n / nthreads + 1) * i + 0).toNat = evenStart n.toNat nthreads.toNat i.toNat := by
      rw [Nat.min_eq_left (le_of_lt hlt)] at hdef
      rw [show (n / nthreads + 1) * i + 0 = (n / nthreads + 1) * i by simp, BitVec.toNat_mul, hq, Nat.succ_mul, hdef]
      exact Nat.mod_eq_of_lt (by omega)
    refine ⟨hs, ?_⟩
    rw [BitVec.toNat_add, hs, hq]
    omega
  · simp only [if_neg hlt]
    rw [BitVec.lt_def, BitVec.toNat_umod] at hlt
    rw [if_neg hlt] at hsucc
    have hs : (n / nthreads * i + n % nthreads).toNat = evenStart n.toNat nthreads.toNat i.toNat := by
      rw [Nat.min_eq_right (not_lt.1 hlt)] at hdef
      rw [BitVec.toNat_add, BitVec.toNat_mul, BitVec.toNat_udiv, BitVec.toNat_umod, Nat.mod_add_mod, hdef]
      exact Nat.mod_eq_of_lt (by omega)
    refine ⟨hs, ?_⟩
    rw [BitVec.toNat_add, hs, BitVec.toNat_udiv]
    omega

/-- A chunk size that is an `int`, read as an `unsigned long`. -/
def IntChunk (c : Word) : Prop := c.toNat < 2 ^ 31 ∨ 2 ^ 64 - 2 ^ 31 ≤ c.toNat

theorem intChunk_signExtend (c : BitVec 32) : IntChunk (c.signExtend 64) := by
  have hint : (c.signExtend 64).toInt = c.toInt := BitVec.toInt_signExtend_of_le (by decide)
  have h1 := BitVec.le_toInt c
  have h2 := BitVec.toInt_lt (x := c)
  have h3 := BitVec.toInt_eq_toNat_cond (c.signExtend 64)
  have h4 := (c.signExtend 64).isLt
  unfold IntChunk
  split at h3 <;> omega

/-- Where a block in turn starts: the product wraps around only behind the last iteration. -/
theorem toNat_turn {c x : Word} {n : Nat} (hc : IntChunk c) (hn : n < 2 ^ 63) (hsmall : c.toNat < 2 ^ 31 → x.toNat * c.toNat < 2 ^ 64)
    (hlarge : 2 ^ 64 - 2 ^ 31 ≤ c.toNat → x.toNat < 2 ^ 32) :
    (x.toNat * c.toNat < n → (x * c).toNat = x.toNat * c.toNat) ∧ (n ≤ x.toNat * c.toNat → n ≤ (x * c).toNat) := by
  rw [BitVec.toNat_mul]
  rcases hc with h | h
  · rw [Nat.mod_eq_of_lt (hsmall h)]
    exact ⟨fun _ => rfl, id⟩
  · refine ⟨fun hlt => Nat.mod_eq_of_lt (by omega), fun hle => ?_⟩
    have hx := hlarge h
    obtain ⟨d, hd⟩ : ∃ d, c.toNat = 2 ^ 64 - d := ⟨2 ^ 64 - c.toNat, by have := c.isLt; omega⟩
    have hcl := c.isLt
    have hd1 : 0 < d ∧ d ≤ 2 ^ 31 := by omega
    rcases Nat.eq_zero_or_pos x.toNat with h0 | hpos
    · rw [h0] at hle
      omega
    · have hxd : x.toNat * d ≤ (2 ^ 32 - 1) * 2 ^ 31 := Nat.mul_le_mul (by omega) hd1.2
      have hxd' : 1 * 1 ≤ x.toNat * d := Nat.mul_le_mul hpos hd1.1
      -- the product is `x * d` short of a multiple of `2 ^ 64`
      have hprod : x.toNat * c.toNat = (x.toNat - 1) * 2 ^ 64 + (2 ^ 64 - x.toNat * d) := by
        rw [hd, Nat.mul_sub, Nat.sub_mul, Nat.one_mul]
        omega
      rw [hprod, Nat.mul_add_mod', Nat.mod_eq_of_lt (by omega)]
      omega

namespace StaticShare

variable {D : Type} {ws : GompWorkShare D} {l : Loop} (h : StaticShare ws l) {nthreads i trip trip' : Word} {m : Nat} {r : Ret}

include h

/-- A team of one thread takes the loop as a whole. -/
theorem step_alone (hP : nthreads.toNat = 1) (hi : i.toNat < 1)
    (hat : StaticAt l.trip 1 0 i.toNat trip m)
    (hstep : gompIterStaticNext ws ws.cells nthreads i trip = some (trip', r)) : StaticStep l 1 0 i.toNat m trip' r := by
  have hone : nthreads = 1 := BitVec.eq_of_toNat_eq hP
  have hi0 : i.toNat = 0 := by omega
  have hstart : evenStart l.trip 1 0 = 0 := evenStart_zero _ _
  have hlast : evenStart l.trip 1 (0 + 1) = l.trip := evenStart_last _ one_pos
  unfold gompIterStaticNext at hstep
  split at hstep
  · rename_i hend
    cases hstep
    cases hat with
    | fresh => exact absurd hend (by decide)
    | taken hP => exact absurd rfl hP
    | turns hc => exact absurd rfl hc
    | last hnone => exact hnone
  · rename_i hend
    have hm : m = 0 := by
      cases hat with
      | fresh => rfl
      | taken hP => exact absurd rfl hP
      | turns hc => exact absurd rfl hc
      | last => exact absurd rfl hend
    subst hm
    cases hstep
    have htrip : ws.next = ws.fin ↔ l.trip = 0 := by
      rw [l.trip_eq_zero_iff, ← BitVec.toInt_inj, h.start, h.fin]
      exact ⟨fun heq => by rw [heq]; exact before_irrefl _ _, fun hnb => eq_of_not_before hnb h.canonical⟩
    rw [hi0]
    show StaticStep l 1 0 0 0 (-1) (if ws.next = ws.fin then none else some (ws.next, ws.fin))
    split
    · rename_i heq
      show workerBlock l.trip 1 0 0 0 = none
      rw [workerBlock_even, hstart, hlast, if_neg (by rw [htrip.1 heq]; omega)]
    · rename_i hne
      refine ⟨(0, l.trip), ?_, ⟨?_, fun h1 => absurd rfl h1⟩, .last (workerBlock_even_succ _ _ _ _)⟩
      · rw [workerBlock_even, hstart, hlast, if_pos (Nat.pos_of_ne_zero (hne ∘ htrip.2))]
      · show (l.chunk (ws.next.toInt, ws.fin.toInt)).values = _
        rw [h.start, h.fin]
        unfold blockIndices
        rw [Nat.sub_zero, ← List.range_eq_range']
        rfl

/-- Without a chunk size each thread takes its even share. -/
theorem step_even (hP : nthreads.toNat ≠ 1) (hi : i.toNat < nthreads.toNat) (hc : ws.chunkSize = 0)
    (hat : StaticAt l.trip nthreads.toNat 0 i.toNat trip m)
    (hstep : gompIterStaticNext ws ws.cells nthreads i trip = some (trip', r)) :
    StaticStep l nthreads.toNat 0 i.toNat m trip' r := by
  have hone : nthreads ≠ 1 := fun h1 => hP (by rw [h1]; rfl)
  unfold gompIterStaticNext at hstep
  split at hstep
  · rename_i hend
    cases hstep
    cases hat with
    | fresh => exact absurd hend (by decide)
    | taken => exact absurd hend (by decide)
    | turns hc => exact absurd rfl hc
    | last hnone => exact hnone
  · rename_i hend
    rw [if_pos (show ws.cells.chunkSize = 0 from hc)] at hstep
    split at hstep
    · rename_i hpos
      cases hstep
      cases hat with
      | fresh => exact absurd hpos (by decide)
      | taken => exact workerBlock_even_succ _ _ _ _
      | turns hc => exact absurd rfl hc
      | last => exact absurd rfl hend
    · rename_i hpos
      have hm : m = 0 := by
        cases hat with
        | fresh => rfl
        | taken => exact absurd (by decide) hpos
        | turns hc => exact absurd rfl hc
        | last => exact absurd rfl hend
      subst hm
      obtain ⟨n, hn, hstep⟩ := Option.bind_eq_some_iff.1 hstep
      obtain ⟨q, hq, hstep⟩ := Option.bind_eq_some_iff.1 hstep
      obtain ⟨hcount, h63⟩ := h.count_some hn
      obtain rfl : n / nthreads = q := by
        unfold uldiv at hq
        split at hq
        · cases hq
        · exact Option.some.inj hq
      have heven := toNat_evenStart hi (by omega : n.toNat < 2 ^ 63)
      dsimp only at hstep heven
      generalize (if i < n % nthreads then (n / nthreads + 1, (0 : Word)) else (n / nthreads, n % nthreads)) = qt at hstep heven
      obtain ⟨q, t⟩ := qt
      obtain ⟨hs0, he0⟩ := heven
      dsimp only at hs0 he0 hstep
      rw [hcount] at hs0 he0
      have hle : evenStart l.trip nthreads.toNat (i.toNat + 1) ≤ l.trip :=
        le_of_le_of_eq (evenStart_mono _ _ hi) (evenStart_last _ (by omega))
      split at hstep
      · rename_i hge
        cases hstep
        rw [BitVec.le_def, hs0, he0] at hge
        show workerBlock _ _ _ _ _ = none
        rw [workerBlock_even, if_neg (by omega)]
      · rename_i hlt
        rw [BitVec.le_def, hs0, he0] at hlt
        obtain ⟨start, hstart, hstep⟩ := Option.bind_eq_some_iff.1 hstep
        obtain ⟨fin, hfin, hstep⟩ := Option.bind_eq_some_iff.1 hstep
        cases hstep
        have hstart' := h.value_some (by omega) hstart
        have hfin' := h.value_some (by omega) hfin
        rw [hs0] at hstart'
        rw [he0] at hfin'
        refine ⟨(evenStart l.trip nthreads.toNat i.toNat, evenStart l.trip nthreads.toNat (i.toNat + 1)), ?_,
          ⟨?_, fun _ => hfin'⟩, ?_⟩
        · rw [workerBlock_even, if_pos (by omega)]
        · rw [hstart', hfin']
          exact l.chunk_value_values _ _
        · split
          · exact .last (workerBlock_even_succ _ _ _ _)
          · exact .taken hP rfl

omit h in
/-- Neither the turn nor the product wraps around before the last iteration. -/
theorem turn_bounds {P i c m n : Nat} (hP : P < 2 ^ 32) (hi : i < P) (hc0 : c ≠ 0) (hint : c < 2 ^ 31 ∨ 2 ^ 64 - 2 ^ 31 ≤ c)
    (hn : n < 2 ^ 63) (hprev : m = 0 ∨ ∃ m', m = m' + 1 ∧ (m' * P + i) * c < n) :
    m * P + i < 2 ^ 64 ∧ (c < 2 ^ 31 → (m * P + i) * c < 2 ^ 64) ∧ (2 ^ 64 - 2 ^ 31 ≤ c → m * P + i < 2 ^ 32) := by
  rcases hprev with rfl | ⟨m', rfl, hlt⟩
  · rw [Nat.zero_mul, Nat.zero_add]
    refine ⟨by omega, fun hc => ?_, fun _ => by omega⟩
    have := Nat.mul_le_mul (show i ≤ 2 ^ 32 by omega) (le_of_lt hc)
    omega
  · have hle : (m' * P + i) * 1 ≤ (m' * P + i) * c := Nat.mul_le_mul_left _ (by omega)
    have hx : (m' + 1) * P + i = m' * P + i + P := by ring
    rw [hx]
    refine ⟨by omega, fun hc => ?_, fun hc => ?_⟩
    · have := Nat.mul_le_mul (show P ≤ 2 ^ 32 - 1 by omega) (show c ≤ 2 ^ 31 - 1 by omega)
      rw [Nat.add_mul]
      omega
    · -- one block is more than the loop
      rcases Nat.eq_zero_or_pos (m' * P + i) with h0 | hpos
      · omega
      · have := Nat.mul_le_mul_right c hpos
        omega

/-- With a chunk size the threads take the blocks in turn. -/
theorem step_turns (hP : nthreads.toNat ≠ 1) (hP32 : nthreads.toNat < 2 ^ 32) (hi : i.toNat < nthreads.toNat)
    (hc : ws.chunkSize ≠ 0) (hint : IntChunk ws.chunkSize)
    (hat : StaticAt l.trip nthreads.toNat ws.chunkSize.toNat i.toNat trip m)
    (hstep : gompIterStaticNext ws ws.cells nthreads i trip = some (trip', r)) :
    StaticStep l nthreads.toNat ws.chunkSize.toNat i.toNat m trip' r := by
  have hone : nthreads ≠ 1 := fun h1 => hP (by rw [h1]; rfl)
  have hc0 : ws.chunkSize.toNat ≠ 0 := fun h0 => hc (BitVec.eq_of_toNat_eq h0)
  have hblock : ∀ n m, workerBlock n nthreads.toNat ws.chunkSize.toNat i.toNat m =
      if (m * nthreads.toNat + i.toNat) * ws.chunkSize.toNat < n then
        some (turnBlock n ws.chunkSize.toNat (m * nthreads.toNat + i.toNat)) else none := fun n m => if_neg hc0
  unfold gompIterStaticNext at hstep
  split at hstep
  · rename_i hend
    cases hstep
    cases hat with
    | fresh => exact absurd hend (by decide)
    | taken => exact absurd hend (by decide)
    | @turns _ m _ hn htrip hlt =>
      -- the turns never get that far
      have h1 : (m * 1 + 0) * 1 ≤ (m * nthreads.toNat + i.toNat) * ws.chunkSize.toNat :=
        Nat.mul_le_mul (Nat.add_le_add (Nat.mul_le_mul_left m (by omega)) (Nat.zero_le _)) (by omega)
      rw [hend, show (-1 : Word).toNat = 2 ^ 64 - 1 from rfl] at htrip
      omega
    | last hnone => exact hnone
  · rename_i hend
    rw [if_neg (show ws.cells.chunkSize ≠ 0 from hc)] at hstep
    obtain ⟨n, hn, hstep⟩ := Option.bind_eq_some_iff.1 hstep
    obtain ⟨hcount, h63⟩ := h.count_some hn
    -- the turn of this call
    have hturn : trip.toNat = m ∧ (m = 0 ∨ ∃ m', m = m' + 1 ∧ (m' * nthreads.toNat + i.toNat) * ws.chunkSize.toNat < l.trip) := by
      cases hat with
      | fresh => exact ⟨rfl, .inl rfl⟩
      | taken _ h0 => exact absurd h0 hc0
      | @turns _ m _ _ htrip hlt => exact ⟨htrip, .inr ⟨m, rfl, hlt⟩⟩
      | last => exact absurd rfl hend
    obtain ⟨htrip, hprev⟩ := hturn
    obtain ⟨hx, hsmall, hlarge⟩ := turn_bounds hP32 hi hc0 hint h63 hprev
    have hxw : (trip * nthreads + i).toNat = m * nthreads.toNat + i.toNat := by
      rw [BitVec.toNat_add, BitVec.toNat_mul, htrip, Nat.mod_add_mod]
      exact Nat.mod_eq_of_lt hx
    obtain ⟨hexact, hbehind⟩ := toNat_turn hint h63 (by rw [hxw]; exact hsmall) (by rw [hxw]; exact hlarge)
    rw [hxw] at hexact hbehind
    clear hprev
    have hthis := hblock l.trip m
    have hnext : l.trip ≤ (m * nthreads.toNat + i.toNat + 1) * ws.chunkSize.toNat →
        workerBlock l.trip nthreads.toNat ws.chunkSize.toNat i.toNat (m + 1) = none := fun hle => by
      rw [hblock, if_neg]
      have hstep : m * nthreads.toNat + i.toNat + 1 ≤ (m + 1) * nthreads.toNat + i.toNat := by
        rw [Nat.succ_mul]
        omega
      exact not_lt.2 (le_trans hle (Nat.mul_le_mul_right _ hstep))
    have hturns : (m * nthreads.toNat + i.toNat) * ws.chunkSize.toNat < l.trip →
        ∀ {t : Word}, t.toNat = m + 1 → StaticAt l.trip nthreads.toNat ws.chunkSize.toNat i.toNat t (m + 1) :=
      fun hlt _ ht => .turns hc0 h63 ht hlt
    have hm : m ≤ m * nthreads.toNat := Nat.le_mul_of_pos_right m (by omega)
    generalize hX : m * nthreads.toNat + i.toNat = x at hxw hexact hbehind hsmall hlarge hthis hnext hturns hx
    have hX1 : x * 1 ≤ x * ws.chunkSize.toNat := Nat.mul_le_mul_left x (by omega)
    change (if n ≤ (trip * nthreads + i) * ws.chunkSize then _ else _) = _ at hstep
    split at hstep
    · rename_i hge
      cases hstep
      rw [BitVec.le_def, hcount] at hge
      show workerBlock _ _ _ _ _ = none
      rw [hthis, if_neg]
      intro hlt
      rw [hexact hlt] at hge
      omega
    · rename_i hlt
      rw [BitVec.le_def, hcount] at hlt
      have hlt' : x * ws.chunkSize.toNat < l.trip := by
        by_contra hge
        exact hlt (hbehind (not_lt.1 hge))
      have hs0 := hexact hlt'
      have hsucc : (x + 1) * ws.chunkSize.toNat < 2 ^ 64 := by
        rw [Nat.succ_mul]
        have hcl := ws.chunkSize.isLt
        rcases Nat.eq_zero_or_pos x with h0 | hpos
        · rw [h0]
          omega
        · have := Nat.mul_le_mul_right ws.chunkSize.toNat hpos
          omega
      have he0 : ((trip * nthreads + i) * ws.chunkSize + ws.chunkSize).toNat = (x + 1) * ws.chunkSize.toNat := by
        rw [BitVec.toNat_add, hs0, Nat.succ_mul]
        rw [Nat.succ_mul] at hsucc
        exact Nat.mod_eq_of_lt hsucc
      have hmin : (if n < (trip * nthreads + i) * ws.chunkSize + ws.chunkSize then n
          else (trip * nthreads + i) * ws.chunkSize + ws.chunkSize).toNat = min ((x + 1) * ws.chunkSize.toNat) l.trip := by
        split
        · rename_i hover
          rw [BitVec.lt_def, he0, hcount] at hover
          rw [hcount, Nat.min_eq_right (le_of_lt hover)]
        · rename_i hover
          rw [BitVec.lt_def, he0, hcount] at hover
          rw [he0, Nat.min_eq_left (not_lt.1 hover)]
      rw [show ws.cells.chunkSize = ws.chunkSize from rfl] at hstep
      dsimp only at hstep
      generalize (if n < (trip * nthreads + i) * ws.chunkSize + ws.chunkSize then n
          else (trip * nthreads + i) * ws.chunkSize + ws.chunkSize) = e at hmin hstep
      obtain ⟨start, hstart, hstep⟩ := Option.bind_eq_some_iff.1 hstep
      obtain ⟨fin, hfin, hstep⟩ := Option.bind_eq_some_iff.1 hstep
      have hstart' := h.value_some (by rw [hs0]; omega) hstart
      have hfin' := h.value_some (by rw [hmin]; omega) hfin
      rw [hs0] at hstart'
      rw [hmin] at hfin'
      cases hstep
      refine ⟨turnBlock l.trip ws.chunkSize.toNat x, by rw [hthis, if_pos hlt'], ⟨?_, fun _ => hfin'⟩, ?_⟩
      · rw [hstart', hfin', l.chunk_value_values]
        unfold turnBlock
        rw [Nat.min_eq_left (le_of_lt hlt')]
      · split
        · rename_i hend'
          refine .last (hnext ?_)
          have := congrArg BitVec.toNat hend'
          rw [hmin, hcount] at this
          omega
        · refine hturns hlt' ?_
          rw [BitVec.toNat_add, htrip, show (1 : Word).toNat = 1 from rfl]
          exact Nat.mod_eq_of_lt (by omega)

/-- One call: the next block of the thread, or false when there is none. -/
theorem step (hP32 : nthreads.toNat < 2 ^ 32) (hi : i.toNat < nthreads.toNat) (hint : IntChunk ws.chunkSize)
    (hat : StaticAt l.trip nthreads.toNat (staticChunk ws nthreads.toNat) i.toNat trip m)
    (hstep : gompIterStaticNext ws ws.cells nthreads i trip = some (trip', r)) :
    StaticStep l nthreads.toNat (staticChunk ws nthreads.toNat) i.toNat m trip' r := by
  unfold staticChunk at hat ⊢
  by_cases hP : nthreads.toNat = 1
  · rw [if_pos hP] at hat ⊢
    rw [hP] at hat hi ⊢
    exact h.step_alone hP hi hat hstep
  · rw [if_neg hP] at hat ⊢
    by_cases hc : ws.chunkSize = 0
    · rw [hc] at hat ⊢
      exact h.step_even hP hi hc hat hstep
    · exact h.step_turns hP hP32 hi hc hint hat hstep

/-- Where nothing overflows every call is defined; a team of one thread computes nothing. -/
theorem exists_step (hfits : nthreads.toNat ≠ 1 → StaticFits l) (hi : i.toNat < nthreads.toNat) (trip : Word) :
    ∃ r, gompIterStaticNext ws ws.cells nthreads i trip = some r := by
  unfold gompIterStaticNext
  split
  · exact ⟨_, rfl⟩
  · split
    · exact ⟨_, rfl⟩
    · rename_i hone
      have hfits := hfits fun h1 => hone (BitVec.eq_of_toNat_eq h1)
      obtain ⟨n, hn⟩ := h.exists_count hfits
      obtain ⟨hcount, h63⟩ := h.count_some hn
      have hvalues : ∀ a b : Word, a.toNat ≤ l.trip → b.toNat ≤ l.trip → ∀ t : Word,
          ∃ r, (do
            let start ← staticValue ws ws.cells a
            let fin ← staticValue ws ws.cells b
            return (t, some (start, fin)) : Option (Word × Ret)) = some r := by
        intro a b ha hb t
        obtain ⟨v, hv⟩ := h.exists_value hfits ha
        obtain ⟨w, hw⟩ := h.exists_value hfits hb
        rw [hv, hw]
        exact ⟨_, rfl⟩
      split
      · split
        · exact ⟨_, rfl⟩
        · have hq : uldiv n nthreads = some (n / nthreads) := if_neg fun h0 => by rw [h0] at hi; exact absurd hi (by simp)
          have heven := toNat_evenStart hi (by omega : n.toNat < 2 ^ 63)
          rw [hn, Option.bind_eq_bind, Option.bind_some, hq, Option.bind_some]
          dsimp only at heven ⊢
          generalize (if i < n % nthreads then (n / nthreads + 1, (0 : Word)) else (n / nthreads, n % nthreads)) = qt at heven ⊢
          obtain ⟨q, t⟩ := qt
          obtain ⟨hs0, he0⟩ := heven
          dsimp only at hs0 he0 ⊢
          have hle : evenStart n.toNat nthreads.toNat (i.toNat + 1) ≤ n.toNat :=
            le_of_le_of_eq (evenStart_mono _ _ hi) (evenStart_last _ (by omega))
          split
          · exact ⟨_, rfl⟩
          · rename_i hlt
            rw [BitVec.le_def] at hlt
            exact hvalues _ _ (by omega) (by omega) _
      · rw [hn, Option.bind_eq_bind, Option.bind_some]
        dsimp only
        split
        · exact ⟨_, rfl⟩
        · rename_i hlt
          rw [BitVec.le_def] at hlt
          refine hvalues _ _ (by omega) ?_ _
          split
          · omega
          · rename_i hover
            rw [BitVec.lt_def] at hover
            omega

/-- The number of iterations is defined only if neither the sum behind it nor itself overflows. -/
theorem count_fits {n : Word} (hn : staticCount ws ws.cells = some n) :
    (-2 ^ 63 ≤ l.fin - l.start + (l.incr - if 0 < l.incr then 1 else -1) ∧
      l.fin - l.start + (l.incr - if 0 < l.incr then 1 else -1) < 2 ^ 63) ∧ l.trip < 2 ^ 63 := by
  refine ⟨?_, (h.count_some hn).2⟩
  obtain ⟨d, hd, hn⟩ := Option.bind_eq_some_iff.1 hn
  obtain ⟨e, he, hn⟩ := Option.bind_eq_some_iff.1 hn
  obtain ⟨-, hd⟩ := lsub_some hd
  have he := ladd_some he
  obtain ⟨hincr, -⟩ := ldiv_some hn
  rw [hd, h.toInt_round hincr, show ws.cells.next = ws.next from rfl, h.start, h.fin] at he
  rw [← he]
  exact toInt_bounds e

omit h in
/-- The first call of a thread computes it, but in a team of one thread. -/
theorem count_of_first (hP : nthreads.toNat ≠ 1) (hstep : gompIterStaticNext ws ws.cells nthreads i 0 = some (trip', r)) :
    ∃ n, staticCount ws ws.cells = some n := by
  unfold gompIterStaticNext at hstep
  rw [if_neg (by decide), if_neg fun h1 => hP (by rw [h1]; rfl)] at hstep
  split at hstep
  · rw [if_neg (by decide)] at hstep
    obtain ⟨n, hn, -⟩ := Option.bind_eq_some_iff.1 hstep
    exact ⟨n, hn⟩
  · obtain ⟨n, hn, -⟩ := Option.bind_eq_some_iff.1 hstep
    exact ⟨n, hn⟩

end StaticShare

end Bosched
