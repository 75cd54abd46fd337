/-
`gomp_iter_dynamic_next` and `gomp_iter_dynamic_next_locked`: the iterators behind the chunk size
`gomp_loop_init` computes for `GFS_DYNAMIC`, `FS_CSS` and `BO_CSS`. Whatever the interleaving, and
in each of the three ways to move `next` (a fetch-and-add, a compare-and-swap, under the lock), the
chunks handed out are the cuts of the loop every `chunk_size / incr` iterations, in order.
-/
import Bosched.Iter.CasInvariant
import Bosched.Iter.Signed

namespace Bosched

open Lib

/-- Where a thread stands: between calls, about to compare-and-swap `next`, or told that there is
no more work. -/
inductive DynLocal
  | idle
  | casNext (start chunk nend : Word)
  | stopped
  deriving DecidableEq

section

variable {D : Type} (ws : GompWorkShare D)

/-- `chunk`, cut down to what is left. -/
def clampChunk (incr chunk left : Word) : Word :=
  if incr.slt 0 then if chunk.slt left then left else chunk
  else if left.slt chunk then left else chunk

/-- The loop of `gomp_iter_dynamic_next`, up to its compare-and-swap. -/
def dynamicTop (start chunk : Word) : DynLocal × Option Ret :=
  let left := ws.fin - start
  if start = ws.fin then (.stopped, some none)
  else
    let chunk := clampChunk ws.incr chunk left
    (.casNext start chunk (start + chunk), none)

/-- What `gomp_iter_dynamic_next` makes of a fetch-and-add that returned `tmp`. -/
def dynamicFetched (tmp : Word) : DynLocal × Ret :=
  if (0#64).slt ws.incr then
    if ws.fin.sle tmp then (.stopped, none)
    else
      let nend := tmp + ws.chunkSize
      (.idle, some (tmp, if ws.fin.slt nend then ws.fin else nend))
  else
    if tmp.sle ws.fin then (.stopped, none)
    else
      let nend := tmp + ws.chunkSize
      (.idle, some (tmp, if nend.slt ws.fin then ws.fin else nend))

variable {ι : Type}

/-- `gomp_iter_dynamic_next`; the shared word is `ws->next`. -/
def gompIterDynamicNext : Prog ι Unit Word DynLocal Ret
  | _, _, next, .idle =>
    if ws.mode ≠ 0 then
      let r := dynamicFetched ws next
      some (next + ws.chunkSize, r.1, some r.2)
    else some (next, dynamicTop ws next ws.chunkSize)
  | _, _, next, .casNext start chunk nend =>
    if next = start then some (nend, .idle, some (some (start, nend)))
    else some (next, dynamicTop ws next chunk)
  | _, _, _, .stopped => none

/-- `gomp_iter_dynamic_next_locked`, with the lock around it. -/
def gompIterDynamicNextLocked : Prog ι Unit Word DynLocal Ret
  | _, _, next, .idle =>
    if next = ws.fin then some (next, .stopped, some none)
    else
      let left := ws.fin - next
      let chunk := clampChunk ws.incr ws.chunkSize left
      some (next + chunk, .idle, some (some (next, next + chunk)))
  | _, _, _, _ => none

/-- Every thread of a team before its first call. -/
def dynEntry : Cfg ι Word DynLocal Ret := ⟨ws.next, fun _ => .idle, []⟩

end

/-! ## The work share -/

theorem clampChunk_eq {incr : Word} (h : incr ≠ 0) (chunk left : Word) :
    clampChunk incr chunk left = if Before incr.toInt left.toInt chunk.toInt then left else chunk := by
  have hz : (0 : Word).toInt = 0 := rfl
  have hne := toInt_ne_zero h
  unfold clampChunk
  simp only [BitVec.slt_iff_toInt_lt, hz]
  by_cases hp : 0 < incr.toInt
  · simp only [if_neg (by omega : ¬ incr.toInt < 0), before_pos hp]
  · simp only [if_pos (by omega : incr.toInt < 0), before_neg hp]

/-- What a work share for `s` iterations a chunk satisfies, where at most `P` threads overshoot. -/
structure DynShare {D : Type} (ws : GompWorkShare D) (l : Loop) (s P : Nat) : Prop where
  start : ws.next.toInt = l.start
  fin : ws.fin.toInt = l.fin
  incr : ws.incr.toInt = l.incr
  canonical : ¬ Before l.incr l.fin l.start
  fits : -2 ^ 63 ≤ l.fin - l.start ∧ l.fin - l.start < 2 ^ 63
  chunk : ws.chunkSize.toInt = s * l.incr
  guard : ws.mode ≠ 0 → -2 ^ 63 ≤ l.fin + (P + 1) * (s * l.incr) ∧ l.fin + (P + 1) * (s * l.incr) < 2 ^ 63

namespace DynShare

variable {D : Type} {ws : GompWorkShare D} {l : Loop} {s P : Nat} (h : DynShare ws l s P)

include h

/-- What is left at a position, as the iterators compute it. -/
theorem left {w : Word} {k : Nat} (hk : k < l.trip) (hw : w.toInt = l.pos k) :
    (ws.fin - w).toInt = l.fin - l.value k := by
  rw [l.pos_of_lt hk] at hw
  have hb := l.value_between hk
  have hfits := h.fits
  rw [← h.fin, ← hw]
  apply toInt_sub_fits
  unfold SubFits
  rw [h.fin, hw]
  omega

/-- A chunk size from a position, cut down to what is left, ends `s` iterations later or at the
end. The chunk size may already be what was left at an earlier position. -/
theorem clamp {w chunk : Word} {k : Nat} (hk : k < l.trip) (hw : w.toInt = l.pos k)
    (hc : chunk = ws.chunkSize ∨ (l.trip ≤ k + s ∧ ¬ Before l.incr chunk.toInt (l.fin - l.value k))) :
    (w + clampChunk ws.incr chunk (ws.fin - w)).toInt = l.pos (k + s) ∧
      (clampChunk ws.incr chunk (ws.fin - w) = ws.chunkSize ∨
        (l.trip ≤ k + s ∧ (clampChunk ws.incr chunk (ws.fin - w)).toInt = l.fin - l.value k)) := by
  have hleft := h.left hk hw
  rw [l.pos_of_lt hk] at hw
  -- the end of the chunk when all that is left is taken
  have hend : ∀ c : Word, c.toInt = l.fin - l.value k → (w + c).toInt = l.fin := by
    intro c hc
    have hb := toInt_bounds ws.fin
    rw [h.fin] at hb
    apply toInt_eq_of_ofInt _ hb.1 hb.2
    have hsum : w.toInt + c.toInt = l.fin := by rw [hw, hc]; ring
    rw [← hsum, BitVec.ofInt_add, BitVec.ofInt_toInt, BitVec.ofInt_toInt]
  -- the end of the chunk when the loop goes on behind it
  have hmid : k + s < l.trip → (w + ws.chunkSize).toInt = l.value (k + s) := by
    intro hks
    have hb := l.value_between hks
    have hb1 := toInt_bounds ws.fin
    have hb2 := toInt_bounds ws.next
    rw [h.fin] at hb1
    rw [h.start] at hb2
    have hsum : w.toInt + ws.chunkSize.toInt = l.value (k + s) := by rw [l.value_add, h.chunk, hw]
    apply toInt_eq_of_ofInt _ (by omega) (by omega)
    rw [← hsum, BitVec.ofInt_add, BitVec.ofInt_toInt, BitVec.ofInt_toInt]
  have hincr : ws.incr ≠ 0 := fun h0 => l.incr_ne (by rw [← h.incr, h0]; rfl)
  simp only [clampChunk_eq hincr, h.incr, hleft]
  rcases hc with rfl | ⟨ht, hb⟩
  · have hiff := before_sub_iff l.incr (l.value k) l.fin (s * l.incr)
    rw [← l.value_add] at hiff
    simp only [h.chunk, hiff]
    split
    · rename_i hover
      have ht : l.trip ≤ k + s := by
        by_contra hks
        exact hover.asymm ((l.before_fin_iff _).2 (by omega))
      exact ⟨by rw [hend _ hleft, l.pos_of_le ht], .inr ⟨ht, hleft⟩⟩
    · rename_i hover
      refine ⟨?_, .inl rfl⟩
      by_cases hks : k + s < l.trip
      · rw [hmid hks, l.pos_of_lt hks]
      · -- the chunk ends exactly on the end
        have heq := eq_of_not_before ((l.before_fin_iff _).not.2 hks) hover
        rw [l.pos_of_le (by omega)]
        apply hend
        rw [h.chunk, ← heq, l.value_add]
        ring
  · split
    · exact ⟨by rw [hend _ hleft, l.pos_of_le ht], .inr ⟨ht, hleft⟩⟩
    · rename_i hover
      have heq := eq_of_not_before hb hover
      exact ⟨by rw [hend _ heq, l.pos_of_le ht], .inr ⟨ht, heq⟩⟩

omit h in
/-- A fetch-and-add that returned `tmp`, read in the direction of the loop. -/
theorem fetched_eq (hincr : ws.incr ≠ 0) (tmp : Word) :
    dynamicFetched ws tmp = if Before ws.incr.toInt tmp.toInt ws.fin.toInt then
      (.idle, some (tmp, if Before ws.incr.toInt ws.fin.toInt (tmp + ws.chunkSize).toInt then ws.fin
        else tmp + ws.chunkSize)) else (.stopped, none) := by
  have hz : (0#64).toInt = 0 := rfl
  have hne := toInt_ne_zero hincr
  unfold dynamicFetched
  simp only [BitVec.slt_iff_toInt_lt, BitVec.sle_iff_toInt_le, hz]
  by_cases hp : 0 < ws.incr.toInt
  · simp only [if_pos hp, before_pos hp]
    by_cases ht : tmp.toInt < ws.fin.toInt
    · rw [if_neg (by omega), if_pos ht]
    · rw [if_pos (by omega), if_neg ht]
  · simp only [if_neg hp, before_neg hp]
    by_cases ht : ws.fin.toInt < tmp.toInt
    · rw [if_neg (by omega), if_pos ht]
    · rw [if_pos (by omega), if_neg ht]

/-- Overshooting by no more chunks than the mode allows for stays in range. -/
theorem value_fits (hmode : ws.mode ≠ 0) {a d : Nat} (ha : a = 0 ∨ a < l.trip) (hd : d ≤ P + 1) :
    -2 ^ 63 ≤ l.value (a + d * s) ∧ l.value (a + d * s) < 2 ^ 63 := by
  obtain ⟨hg1, hg2⟩ := h.guard hmode
  have hb1 := toInt_bounds ws.next
  have hb2 := toInt_bounds ws.fin
  rw [h.start] at hb1
  rw [h.fin] at hb2
  have hd' : (d : Int) ≤ P + 1 := by exact_mod_cast hd
  have hvalue : l.value (a + d * s) = l.value a + d * (s * l.incr) := by
    rw [l.value_add]; push_cast; ring
  have hcan := h.canonical
  rw [hvalue]
  by_cases hp : 0 < l.incr
  · have hS : 0 ≤ (s : Int) * l.incr := by positivity
    have h1 : 0 ≤ (d : Int) * (s * l.incr) := by positivity
    have h2 : (d : Int) * (s * l.incr) ≤ (P + 1) * (s * l.incr) := Int.mul_le_mul_of_nonneg_right hd' hS
    rw [before_pos hp] at hcan
    rcases ha with rfl | ha
    · rw [l.value_zero]; omega
    · have := l.value_between ha; omega
  · have hS : (s : Int) * l.incr ≤ 0 := Int.mul_nonpos_of_nonneg_of_nonpos (by omega) (by omega)
    have h1 : (d : Int) * (s * l.incr) ≤ 0 := Int.mul_nonpos_of_nonneg_of_nonpos (by omega) hS
    have h2 : (P + 1) * ((s : Int) * l.incr) ≤ d * (s * l.incr) := Int.mul_le_mul_of_nonpos_right hd' hS
    rw [before_neg hp] at hcan
    rcases ha with rfl | ha
    · rw [l.value_zero]; omega
    · have := l.value_between ha; omega

end DynShare

/-! ## The fetch-and-add -/

section

variable {D : Type} {ws : GompWorkShare D} {l : Loop} {s P : Nat} {ι : Type} (h : DynShare ws l s P)

/-- `next` counts the chunks handed out and the threads that overshot the end. -/
structure Fetching (l : Loop) (s : Nat) (next : Word) (log : List (ι × Ret)) (q : Nat) : Prop where
  cuts : Strided l s q (chunks BitVec.toInt log)
  next : next.toInt = l.value ((q + (retired none log).length) * s)
  done : 0 < (retired none log).length → l.trip ≤ q * s

include h

theorem DynShare.fetch_step {next next' : Word} {loc' : DynLocal} {e : Option Ret} {log : List (ι × Ret)} {q : Nat}
    (i : ι) (hmode : ws.mode ≠ 0) (hF : Fetching l s next log q) (hcard : (retired none log).length + 1 ≤ P)
    (hstep : gompIterDynamicNext ws i () next .idle = some (next', loc', e)) :
    ∃ q', Fetching l s next' (logged log i e) q' := by
  obtain ⟨hcuts, hnext, hdone⟩ := hF
  have hincr : ws.incr ≠ 0 := fun h0 => l.incr_ne (by rw [← h.incr, h0]; rfl)
  -- the sum does not overflow
  have hfits : -2 ^ 63 ≤ l.value ((q + (retired none log).length) * s + s) ∧
      l.value ((q + (retired none log).length) * s + s) < 2 ^ 63 := by
    cases q with
    | zero =>
      have := h.value_fits hmode (a := 0) (d := (retired none log).length + 1) (.inl rfl) (by omega)
      rwa [show (0 + (retired none log).length) * s + s = 0 + ((retired none log).length + 1) * s by ring]
    | succ q =>
      have := h.value_fits hmode (a := q * s) (d := (retired none log).length + 2)
        (.inr (hcuts.2 q (Nat.lt_succ_self q))) (by omega)
      rwa [show (q + 1 + (retired none log).length) * s + s = q * s + ((retired none log).length + 2) * s by ring]
  have hsum : (next + ws.chunkSize).toInt = l.value ((q + (retired none log).length) * s + s) := by
    apply toInt_eq_of_ofInt _ hfits.1 hfits.2
    rw [l.value_add, ← hnext, ← h.chunk, BitVec.ofInt_add, BitVec.ofInt_toInt, BitVec.ofInt_toInt]
  simp only [gompIterDynamicNext, if_pos hmode, DynShare.fetched_eq hincr] at hstep
  rw [h.incr, h.fin, hnext] at hstep
  simp only [l.before_fin_iff] at hstep
  split at hstep
  · rename_i hlt
    -- nobody has overshot yet
    have hzero : (retired none log).length = 0 := by
      by_contra hne
      have := hdone (by omega)
      have : q * s ≤ (q + (retired none log).length) * s := Nat.mul_le_mul_right s (by omega)
      omega
    rw [hzero, Nat.add_zero] at hnext hlt hsum
    cases hstep
    refine ⟨q + 1, ?_, ?_, ?_⟩
    · have hend : (if Before l.incr l.fin (next + ws.chunkSize).toInt then ws.fin else next + ws.chunkSize).toInt =
          l.pos ((q + 1) * s) := by
        rw [Nat.succ_mul]
        by_cases hks : q * s + s < l.trip
        · have hb := (l.before_fin_iff _).2 hks
          rw [← hsum] at hb
          rw [if_neg hb.asymm, hsum, l.pos_of_lt hks]
        · rw [l.pos_of_le (by omega)]
          split
          · exact h.fin
          · rename_i hb
            rw [hsum] at hb ⊢
            exact eq_of_not_before ((l.before_fin_iff _).not.2 hks) hb
      rw [logged_some, chunks_some, hend, hnext, ← l.pos_of_lt hlt]
      exact hcuts.snoc hlt
    · rw [logged_some, retired_append_ne (Option.some_ne_none _), hsum, hzero, Nat.add_zero, Nat.succ_mul]
    · rw [logged_some, retired_append_ne (Option.some_ne_none _)]
      omega
  · rename_i hge
    cases hstep
    have hlen : (retired none (log ++ [(i, (none : Ret))])).length = (retired none log).length + 1 := by
      rw [retired_append_done, List.length_append]; rfl
    refine ⟨q, ?_, ?_, fun _ => ?_⟩
    · rw [logged_some, chunks_none]; exact hcuts
    · rw [logged_some, hlen, hsum]
      congr 1; ring
    · rcases Nat.eq_zero_or_pos (retired none log).length with hz | hp
      · rw [hz] at hge
        simpa using hge
      · exact hdone hp

end

/-! ## The compare-and-swap and the lock -/

section

variable {D : Type} {ws : GompWorkShare D} {l : Loop} {s P : Nat} {ι : Type} (h : DynShare ws l s P)

/-- `next` stands where the chunks handed out end. -/
def Cutting (l : Loop) (s : Nat) (next : Word) (log : List (ι × Ret)) : Prop :=
  ∃ q, Strided l s q (chunks BitVec.toInt log) ∧ next.toInt = l.pos (q * s) ∧ ∀ i, (i, none) ∈ log → l.trip ≤ q * s

/-- A thread about to compare-and-swap holds a position that `next` has passed; its chunk size is
that of the work share, or was cut down to what was left there. -/
def DynLocal.Inv (ws : GompWorkShare D) (l : Loop) (s : Nat) (next : Word) : DynLocal → Prop
  | .casNext start chunk nend => ∃ a b, a < l.trip ∧ a ≤ b ∧ b ≤ l.trip ∧ next.toInt = l.pos b ∧
      start.toInt = l.pos a ∧ nend.toInt = l.pos (a + s) ∧
      (chunk = ws.chunkSize ∨ (l.trip ≤ a + s ∧ chunk.toInt = l.fin - l.value a))
  | _ => True

omit D ws P in
theorem Cutting.none (i : ι) {next : Word} {log : List (ι × Ret)} (hc : Cutting l s next log)
    (hfin : next.toInt = l.fin) : Cutting l s next (log ++ [(i, none)]) := by
  obtain ⟨q, hcuts, hnext, -⟩ := hc
  refine ⟨q, by rw [chunks_none]; exact hcuts, hnext, fun _ _ => ?_⟩
  rw [hnext] at hfin
  exact (l.pos_eq_fin_iff _).1 hfin

omit D ws P in
/-- The next cut joins the chunks. -/
theorem Cutting.some (i : ι) {start nend : Word} {log : List (ι × Ret)} {a : Nat}
    (hc : Cutting l s start log) (ha : a < l.trip) (hstart : start.toInt = l.pos a) (hnend : nend.toInt = l.pos (a + s)) :
    Cutting l s nend (log ++ [(i, Option.some (start, nend))]) := by
  obtain ⟨q, hcuts, hnext, hdone⟩ := hc
  have hq : q * s = a := by
    rw [hstart] at hnext
    rcases Nat.lt_or_ge (q * s) l.trip with hlt | hge
    · exact (l.pos_inj (le_of_lt ha) (le_of_lt hlt) hnext).symm
    · rw [l.pos_of_le hge, l.pos_eq_fin_iff] at hnext
      omega
  refine ⟨q + 1, ?_, by rw [hnend, Nat.succ_mul, hq], fun j hj => ?_⟩
  · rw [chunks_some, hstart, hnend, ← hq, ← Nat.succ_mul]
    exact hcuts.snoc (by omega)
  · have hj' : (j, Option.none) ∈ log := by simpa using hj
    have := hdone j hj'
    omega

include h

/-- The loop of the compare-and-swap version, from where `next` stands. -/
theorem DynShare.top {next chunk : Word} {log : List (ι × Ret)} {a : Nat} (i : ι) (hc : Cutting l s next log)
    (hchunk : chunk = ws.chunkSize ∨
      (a < l.trip ∧ (∃ b, a ≤ b ∧ b ≤ l.trip ∧ next.toInt = l.pos b) ∧ l.trip ≤ a + s ∧ chunk.toInt = l.fin - l.value a)) :
    Cutting l s next (logged log i (dynamicTop ws next chunk).2) ∧ (dynamicTop ws next chunk).1.Inv ws l s next := by
  obtain ⟨q, hcuts, hnext, hdone⟩ := hc
  unfold dynamicTop
  by_cases hq : q * s < l.trip
  · have hne : next ≠ ws.fin := by
      rintro rfl
      rw [h.fin] at hnext
      exact absurd ((l.pos_eq_fin_iff _).1 hnext.symm) (by omega)
    simp only [if_neg hne]
    refine ⟨⟨q, hcuts, hnext, hdone⟩, ?_⟩
    have hcond : chunk = ws.chunkSize ∨ (l.trip ≤ q * s + s ∧ ¬ Before l.incr chunk.toInt (l.fin - l.value (q * s))) := by
      rcases hchunk with rfl | ⟨ha, ⟨b, hab, hb, hpos⟩, ht, hval⟩
      · exact .inl rfl
      · right
        obtain rfl : b = q * s := l.pos_inj hb (le_of_lt hq) (by rw [← hpos, ← hnext])
        refine ⟨by omega, ?_⟩
        -- less is left here than at the earlier position
        rw [hval, before_sub_iff]
        have hle := (l.before_value_iff (q * s) a).not.2 (by omega)
        have heq : l.value a + (l.fin - l.value (q * s)) = l.fin - (l.value (q * s) - l.value a) := by ring
        rw [heq]
        by_cases hp : 0 < l.incr
        · rw [before_pos hp] at hle ⊢; omega
        · rw [before_neg hp] at hle ⊢; omega
    obtain ⟨hnend, hclamp⟩ := h.clamp hq hnext hcond
    exact ⟨q * s, q * s, hq, le_refl _, le_of_lt hq, hnext, hnext, hnend, hclamp⟩
  · have heq : next = ws.fin := BitVec.toInt_inj.1 (by rw [hnext, h.fin, l.pos_of_le (by omega)])
    simp only [if_pos heq]
    exact ⟨Cutting.none i ⟨q, hcuts, hnext, hdone⟩ (by rw [heq, h.fin]), trivial⟩

/-- One step of the compare-and-swap version. -/
theorem DynShare.cas_step {i : ι} {a : Unit} {next next' : Word} {loc loc' : DynLocal} {e : Option Ret}
    {log : List (ι × Ret)} (hmode : ws.mode = 0) (hc : Cutting l s next log) (hI : loc.Inv ws l s next)
    (hstep : gompIterDynamicNext ws i a next loc = some (next', loc', e)) :
    Cutting l s next' (logged log i e) ∧ loc'.Inv ws l s next' ∧
      ∀ b ≤ l.trip, next.toInt = l.pos b → ∃ b', b ≤ b' ∧ b' ≤ l.trip ∧ next'.toInt = l.pos b' := by
  have hstay : ∀ b ≤ l.trip, next.toInt = l.pos b → ∃ b', b ≤ b' ∧ b' ≤ l.trip ∧ next.toInt = l.pos b' :=
    fun b hb hpos => ⟨b, le_refl b, hb, hpos⟩
  cases loc with
  | idle =>
    simp only [gompIterDynamicNext, hmode, ne_eq, not_true_eq_false, if_false, Option.some.injEq,
      Prod.mk.injEq] at hstep
    obtain ⟨rfl, htop⟩ := hstep
    obtain ⟨h1, h2⟩ := h.top (a := 0) i hc (.inl rfl)
    rw [htop] at h1 h2
    exact ⟨h1, h2, hstay⟩
  | stopped => cases hstep
  | casNext start chunk nend =>
    obtain ⟨a, b, ha, hab, hb, hnext, hstart, hnend, hchunk⟩ := hI
    simp only [gompIterDynamicNext] at hstep
    split at hstep
    · rename_i heq
      cases hstep
      subst heq
      refine ⟨hc.some i ha hstart hnend, trivial, fun b' hb' hpos => ?_⟩
      obtain rfl : b' = a := l.pos_inj hb' (le_of_lt ha) (by rw [← hpos, hstart])
      exact ⟨min (b' + s) l.trip, by omega, Nat.min_le_right _ _, by rw [hnend, l.pos_min]⟩
    · simp only [Option.some.injEq, Prod.mk.injEq] at hstep
      obtain ⟨rfl, htop⟩ := hstep
      have hcond := hchunk.imp_right fun h' => (⟨ha, ⟨b, hab, hb, hnext⟩, h'.1, h'.2⟩ :
        a < l.trip ∧ (∃ b, a ≤ b ∧ b ≤ l.trip ∧ next.toInt = l.pos b) ∧ l.trip ≤ a + s ∧ chunk.toInt = l.fin - l.value a)
      obtain ⟨h1, h2⟩ := h.top i hc hcond
      rw [htop] at h1 h2
      exact ⟨h1, h2, hstay⟩

theorem DynShare.cas_invariant (hmode : ws.mode = 0) :
    Invariant (gompIterDynamicNext ws : Prog ι Unit Word DynLocal Ret) (Cutting l s)
      (fun _ next loc => loc.Inv ws l s next) where
  own hG hI hp := by
    obtain ⟨hG', hI', -⟩ := h.cas_step hmode hG hI hp
    exact ⟨hG', hI'⟩
  other := by
    intro i a next loc next' loc' e log j m hG hI hp _ hJ
    obtain ⟨-, -, hmono⟩ := h.cas_step hmode hG hI hp
    cases m with
    | idle | stopped => trivial
    | casNext start chunk nend =>
      obtain ⟨a, b, ha, hab, hb, hnext, hrest⟩ := hJ
      obtain ⟨b', hb', ht, hnext'⟩ := hmono b hb hnext
      exact ⟨a, b', ha, by omega, ht, hnext', hrest⟩

theorem DynShare.locked_step {i : ι} {a : Unit} {next next' : Word} {loc loc' : DynLocal} {e : Option Ret}
    {log : List (ι × Ret)} (hc : Cutting l s next log)
    (hstep : gompIterDynamicNextLocked ws i a next loc = some (next', loc', e)) : Cutting l s next' (logged log i e) := by
  cases loc with
  | casNext | stopped => cases hstep
  | idle =>
    simp only [gompIterDynamicNextLocked] at hstep
    split at hstep
    · rename_i heq
      cases hstep
      exact hc.none i (by rw [heq, h.fin])
    · rename_i hne
      cases hstep
      obtain ⟨q, hcuts, hnext, hdone⟩ := hc
      have hq : q * s < l.trip := by
        by_contra hq
        exact hne (BitVec.toInt_inj.1 (by rw [hnext, h.fin, l.pos_of_le (by omega)]))
      exact Cutting.some i ⟨q, hcuts, hnext, hdone⟩ hq hnext (h.clamp hq hnext (.inl rfl)).1

end

/-! ## Whole runs -/

section

variable {D : Type} {ws : GompWorkShare D} {l : Loop} {s P : Nat} {ι : Type}

theorem gompIterDynamicNext_retires (ws : GompWorkShare D) :
    Retires (gompIterDynamicNext ws : Prog ι Unit Word DynLocal Ret) none .stopped where
  stops := by
    intro i a next loc next' loc' h
    have hfetch : (dynamicFetched ws next).2 = none → (dynamicFetched ws next).1 = .stopped := by
      unfold dynamicFetched
      split <;> split <;> simp
    have htop : ∀ chunk, (dynamicTop ws next chunk).2 = some none → (dynamicTop ws next chunk).1 = .stopped := by
      intro chunk
      unfold dynamicTop
      dsimp only
      split <;> simp
    cases loc with
    | stopped => cases h
    | idle =>
      simp only [gompIterDynamicNext] at h
      split at h
      · simp only [Option.some.injEq, Prod.mk.injEq] at h
        rw [← h.2.1]
        exact hfetch h.2.2
      · simp only [Option.some.injEq, Prod.mk.injEq] at h
        have := htop ws.chunkSize
        rw [h.2] at this
        exact this rfl
    | casNext start chunk nend =>
      simp only [gompIterDynamicNext] at h
      split at h
      · cases h
      · simp only [Option.some.injEq, Prod.mk.injEq] at h
        have := htop chunk
        rw [h.2] at this
        exact this rfl
  stays := rfl

theorem gompIterDynamicNext_not_cas (hmode : ws.mode ≠ 0) [DecidableEq ι] {c : Cfg ι Word DynLocal Ret}
    (hr : Reach (gompIterDynamicNext ws) (dynEntry ws) c) (i : ι) : c.loc i = .idle ∨ c.loc i = .stopped := by
  refine Reach.loc (Q := fun loc => loc = .idle ∨ loc = .stopped) hr (fun _ => .inl rfl) ?_ i
  intro i a s loc s' loc' e hloc hp
  rcases hloc with rfl | rfl
  · simp only [gompIterDynamicNext, if_pos hmode, Option.some.injEq, Prod.mk.injEq] at hp
    rw [← hp.2.1]
    unfold dynamicFetched
    split <;> split <;> simp
  · cases hp

/-- The two iterators. -/
def dynamicIter (locked : Bool) (ws : GompWorkShare D) : Prog ι Unit Word DynLocal Ret :=
  if locked then gompIterDynamicNextLocked ws else gompIterDynamicNext ws

/-- What one step of the iterator can lead to: a thread that neither got a chunk nor was told false is about to
compare-and-swap the value it has just read. -/
theorem dynamicIter_cases (ws : GompWorkShare D) {locked : Bool} {i : ι} {a : Unit} {next next' : Word} {loc loc' : DynLocal} {e : Option Ret}
    (h : dynamicIter locked ws i a next loc = some (next', loc', e)) :
    (e = some none ∧ loc' = .stopped) ∨ (∃ r, e = some (some r) ∧ loc' = .idle) ∨
    (e = none ∧ next' = next ∧ locked = false ∧ (∃ chunk nend, loc' = .casNext next chunk nend) ∧
      ∀ chunk nend, loc ≠ .casNext next chunk nend) := by
  have htop : ∀ chunk, (dynamicTop ws next chunk = (.stopped, some none)) ∨
      ∃ c d, dynamicTop ws next chunk = (.casNext next c d, none) := by
    intro chunk
    unfold dynamicTop
    dsimp only
    split
    · exact .inl rfl
    · exact .inr ⟨_, _, rfl⟩
  unfold dynamicIter at h
  cases locked with
  | true =>
    rw [if_pos rfl] at h
    cases loc with
    | casNext | stopped => cases h
    | idle =>
      simp only [gompIterDynamicNextLocked] at h
      split at h <;> cases h
      · exact .inl ⟨rfl, rfl⟩
      · exact .inr (.inl ⟨_, rfl, rfl⟩)
  | false =>
    rw [if_neg Bool.false_ne_true] at h
    cases loc with
    | stopped => cases h
    | idle =>
      simp only [gompIterDynamicNext] at h
      split at h
      · unfold dynamicFetched at h
        split at h <;> split at h <;> cases h
        · exact .inl ⟨rfl, rfl⟩
        · exact .inr (.inl ⟨_, rfl, rfl⟩)
        · exact .inl ⟨rfl, rfl⟩
        · exact .inr (.inl ⟨_, rfl, rfl⟩)
      · rcases htop ws.chunkSize with ht | ⟨c, d, ht⟩ <;> rw [ht] at h <;> cases h
        · exact .inl ⟨rfl, rfl⟩
        · exact .inr (.inr ⟨rfl, rfl, rfl, ⟨_, _, rfl⟩, nofun⟩)
    | casNext start chunk nend =>
      simp only [gompIterDynamicNext] at h
      split at h
      · cases h
        exact .inr (.inl ⟨_, rfl, rfl⟩)
      · rename_i hne
        rcases htop chunk with ht | ⟨c, d, ht⟩ <;> rw [ht] at h <;> cases h
        · exact .inl ⟨rfl, rfl⟩
        · refine .inr (.inr ⟨rfl, rfl, rfl, ⟨_, _, rfl⟩, ?_⟩)
          rintro _ _ ⟨⟩
          exact hne rfl

theorem dynamicIter_isSome (ws : GompWorkShare D) {locked : Bool} (i : ι) (next : Word) {loc : DynLocal} (h : loc ≠ .stopped)
    (hl : locked = true → loc = .idle) : ∃ r, dynamicIter locked ws i () next loc = some r := by
  unfold dynamicIter
  cases locked with
  | true =>
    obtain rfl := hl rfl
    simp only [if_true, gompIterDynamicNextLocked]
    split <;> exact ⟨_, rfl⟩
  | false =>
    rw [if_neg Bool.false_ne_true]
    cases loc with
    | stopped => exact absurd rfl h
    | idle =>
      simp only [gompIterDynamicNext]
      split <;> exact ⟨_, rfl⟩
    | casNext =>
      simp only [gompIterDynamicNext]
      split <;> exact ⟨_, rfl⟩

/-- In every run, the chunks handed out so far are the first cuts of the loop, and a thread that
was told false was told so when nothing was left to cut. -/
theorem DynShare.strided [DecidableEq ι] [Fintype ι] (h : DynShare ws l s (Fintype.card ι)) (locked : Bool)
    {c : Cfg ι Word DynLocal Ret} (hr : Reach (dynamicIter locked ws) (dynEntry ws) c) :
    ∃ q, Strided l s q (chunks BitVec.toInt c.log) ∧ ∀ i, (i, none) ∈ c.log → l.trip ≤ q * s := by
  have hstart : ws.next.toInt = l.pos 0 := by rw [h.start, l.pos_zero h.canonical]
  have hcut0 : Cutting l s ws.next ([] : List (ι × Ret)) :=
    ⟨0, .zero l s, by rw [Nat.zero_mul]; exact hstart, nofun⟩
  cases locked with
  | true =>
    have hcut : Cutting l s c.shared c.log := by
      induction hr with
      | refl => exact hcut0
      | tail _ hs ih =>
        cases hs with
        | mk i a hp => exact h.locked_step ih hp
    obtain ⟨q, hcuts, -, hdone⟩ := hcut
    exact ⟨q, hcuts, hdone⟩
  | false =>
    by_cases hmode : ws.mode = 0
    · have hinit : Holds (Cutting l s) (fun _ next loc => loc.Inv ws l s next) (dynEntry ws : Cfg ι Word DynLocal Ret) :=
        ⟨hcut0, fun _ => trivial⟩
      obtain ⟨⟨q, hcuts, -, hdone⟩, -⟩ := (h.cas_invariant hmode).reach hinit hr
      exact ⟨q, hcuts, hdone⟩
    · have hfetch : ∃ q, Fetching l s c.shared c.log q := by
        induction hr with
        | refl =>
          refine ⟨0, .zero l s, ?_, fun hp => absurd hp (lt_irrefl 0)⟩
          show ws.next.toInt = l.value ((0 + 0) * s)
          rw [Nat.add_zero, Nat.zero_mul, l.value_zero]
          exact h.start
        | @tail d _ hd hs ih =>
          obtain ⟨q, hq⟩ := ih
          cases hs with
          | @mk i a s' loc e hp =>
            rcases gompIterDynamicNext_not_cas hmode hd i with hl | hl
            · have hcard := (gompIterDynamicNext_retires ws).card rfl hd (i := i) (by rw [hl]; nofun)
              have hp' : gompIterDynamicNext ws i () d.shared .idle = some (s', loc, e) := by rw [← hl]; exact hp
              exact h.fetch_step i hmode hq hcard hp'
            · have hp' : gompIterDynamicNext ws i a d.shared .stopped = some (s', loc, e) := by rw [← hl]; exact hp
              cases hp'
      obtain ⟨q, hq⟩ := hfetch
      refine ⟨q, hq.cuts, fun i hi => hq.done ?_⟩
      exact List.length_pos_of_mem (mem_retired.2 hi)

end

end Bosched
