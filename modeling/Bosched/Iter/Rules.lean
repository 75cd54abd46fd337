/-
The chunk sizes of `tape` and the batches of `fss` over the reals, against the rules they are
meant to follow: the taper that never exceeds a thread's share of the remaining iterations, and the
factoring rule with the coefficient of variation as its parameter.
-/
import Bosched.Iter.Batches
import Bosched.Iter.CasExit
import Bosched.Runtime.Reals
import Mathlib.Algebra.Order.Floor.Semifield

namespace Bosched

open Lib

/-! ## Square roots -/

/-- `T + v²/2 - v√(2T + v²/4)` is `(√(2T + v²/4) - v/2)² - T`. -/
theorem taper_eq (T v : ℝ) (hT : 0 ≤ T) :
    T + v ^ 2 / 2 - v * √(2 * T + v ^ 2 / 4) = (√(2 * T + v ^ 2 / 4) - v / 2) ^ 2 - T := by
  have hs : √(2 * T + v ^ 2 / 4) ^ 2 = 2 * T + v ^ 2 / 4 := Real.sq_sqrt (by positivity)
  linear_combination -hs

theorem half_le_sqrt {a : ℝ} (ha : 0 ≤ a) (v : ℝ) : v / 2 ≤ √(a + v ^ 2 / 4) := by
  refine Real.le_sqrt_of_sq_le ?_
  linarith [show (v / 2) ^ 2 = v ^ 2 / 4 by ring]

/-- The taper is non-negative exactly for `v² ≤ T`, or where nothing is left. -/
theorem taper_nonneg_iff {T v : ℝ} (hT : 0 ≤ T) (hv : 0 ≤ v) :
    0 ≤ T + v ^ 2 / 2 - v * √(2 * T + v ^ 2 / 4) ↔ T = 0 ∨ v ^ 2 ≤ T := by
  have hhalf : v / 2 ≤ √(2 * T + v ^ 2 / 4) := half_le_sqrt (by positivity) v
  have hsqrtT : √T ^ 2 = T := Real.sq_sqrt hT
  rw [taper_eq T v hT]
  calc 0 ≤ (√(2 * T + v ^ 2 / 4) - v / 2) ^ 2 - T
      ↔ √T ^ 2 ≤ (√(2 * T + v ^ 2 / 4) - v / 2) ^ 2 := by rw [hsqrtT, sub_nonneg]
    _ ↔ √T ≤ √(2 * T + v ^ 2 / 4) - v / 2 := pow_le_pow_iff_left₀ (Real.sqrt_nonneg T) (by linarith) two_ne_zero
    _ ↔ √T + v / 2 ≤ √(2 * T + v ^ 2 / 4) := le_sub_iff_add_le
    _ ↔ (√T + v / 2) ^ 2 ≤ 2 * T + v ^ 2 / 4 := Real.le_sqrt (by positivity) (by positivity)
    _ ↔ √T * v ≤ √T * √T := by constructor <;> intro h <;> nlinarith
    _ ↔ T = 0 ∨ v ^ 2 ≤ T := ?_
  rcases eq_or_lt_of_le (Real.sqrt_nonneg T) with h0 | hpos
  · have hT0 : T = 0 := by rw [← hsqrtT, ← h0]; norm_num
    simp [hT0]
  · have hTpos : T ≠ 0 := fun h => by rw [h, Real.sqrt_zero] at hpos; exact lt_irrefl _ hpos
    rw [mul_le_mul_iff_right₀ hpos, or_iff_right hTpos, ← pow_le_pow_iff_left₀ hv (le_of_lt hpos) two_ne_zero, hsqrtT]

/-- With half of `2T` or less under the root, the taper is never negative. -/
theorem taper_nonneg_of_le {T S v : ℝ} (hS : 0 ≤ S) (h : S ≤ T) : 0 ≤ T + v ^ 2 / 2 - v * √(S + v ^ 2 / 4) := by
  have hs : √(S + v ^ 2 / 4) ^ 2 = S + v ^ 2 / 4 := Real.sq_sqrt (by positivity)
  have hsq := sq_nonneg (√(S + v ^ 2 / 4) - v / 2)
  linarith [show (√(S + v ^ 2 / 4) - v / 2) ^ 2 = √(S + v ^ 2 / 4) ^ 2 - v * √(S + v ^ 2 / 4) + v ^ 2 / 4 by ring]

/-- `b² + b√(b² + 4) ≤ y` without the root. -/
theorem add_mul_sqrt_le_iff {b y : ℝ} (hb : 0 ≤ b) (hy : 0 ≤ y) :
    b ^ 2 + b * √(b ^ 2 + 4) ≤ y ↔ 2 * b ^ 2 * (y + 2) ≤ y ^ 2 := by
  have hs : √(b ^ 2 + 4) ^ 2 = b ^ 2 + 4 := Real.sq_sqrt (by positivity)
  have hs0 : 0 ≤ √(b ^ 2 + 4) := Real.sqrt_nonneg _
  constructor
  · intro h
    have hsq : (b * √(b ^ 2 + 4)) ^ 2 ≤ (y - b ^ 2) ^ 2 :=
      pow_le_pow_left₀ (mul_nonneg hb hs0) (by linarith) 2
    rw [mul_pow, hs] at hsq
    linarith [hsq, show b ^ 2 * (b ^ 2 + 4) = b ^ 4 + 4 * b ^ 2 by ring,
      show (y - b ^ 2) ^ 2 = y ^ 2 - 2 * b ^ 2 * y + b ^ 4 by ring,
      show 2 * b ^ 2 * (y + 2) = 2 * b ^ 2 * y + 4 * b ^ 2 by ring]
  · intro h
    have hby : b ^ 2 ≤ y := by nlinarith [sq_nonneg b]
    have hsq : (b * √(b ^ 2 + 4)) ^ 2 ≤ (y - b ^ 2) ^ 2 := by
      rw [mul_pow, hs]
      linarith [h, show b ^ 2 * (b ^ 2 + 4) = b ^ 4 + 4 * b ^ 2 by ring,
        show (y - b ^ 2) ^ 2 = y ^ 2 - 2 * b ^ 2 * y + b ^ 4 by ring,
        show 2 * b ^ 2 * (y + 2) = 2 * b ^ 2 * y + 4 * b ^ 2 by ring]
    have := (pow_le_pow_iff_left₀ (mul_nonneg hb hs0) (by linarith) two_ne_zero).1 hsq
    linarith

/-! ## The taper -/

section

variable {D : Type} [CDouble D]

/-- `T` of `tape`. -/
def tapeShare (D : Type) [CDouble D] (nthreads R : Word) : Word :=
  CDouble.toULong ((CDouble.ofULong R : D) / CDouble.ofULong nthreads + CDouble.ofULong (tapeMinK nthreads) / 2.0)

/-- What `tape` converts to `K`. -/
def tapeValue (v : D) (T : Word) : D :=
  CDouble.ofULong T + v * v / 2.0 - v * CDouble.sqrt (CDouble.ofULong (2 * T) + v * v / 4.0)

theorem tapeChunk_eq (v : D) (nthreads R : Word) :
    tapeChunk v nthreads R = if CDouble.toULong (tapeValue v (tapeShare D nthreads R)) < 1 then 1
      else CDouble.toULong (tapeValue v (tapeShare D nthreads R)) := rfl

/-- Every claim a program goes for has the chunk size of the count that remains. -/
def View.Guides {ι : Type} (v : View) (guide : Word → Word) (p : Prog ι Unit Cells Local Ret) : Prop :=
  ∀ {i s s' loc start chunk nend e}, p i () s loc = some (s', .casNext start chunk nend, e) →
    ∃ R, v.remaining start = some R ∧ chunk = guide R

theorem View.guides_guidedNext {ι : Type} (v : View) (guide : Word → Word) :
    v.Guides guide (v.guidedNext guide : Prog ι Unit Cells Local Ret) := by
  intro i s s' loc start chunk nend e h
  have htop : ∀ {start'}, v.guidedTop guide start' = some (.casNext start chunk nend, e) →
      ∃ R, v.remaining start = some R ∧ chunk = guide R := by
    intro start' ht
    unfold View.guidedTop at ht
    split at ht
    · cases ht
    · obtain ⟨R, hR, ht⟩ := Option.bind_eq_some_iff.1 ht
      obtain ⟨loc', hcl, ht⟩ := Option.bind_eq_some_iff.1 ht
      cases ht
      obtain ⟨R', hR', hcl⟩ := Option.bind_eq_some_iff.1 hcl
      cases hcl
      exact ⟨R, hR, rfl⟩
  cases loc with
  | idle =>
    obtain ⟨⟨_, _⟩, ht, h⟩ := Option.bind_eq_some_iff.1 h
    cases h
    exact htop ht
  | casNext =>
    simp only [View.guidedNext] at h
    split at h
    · cases h
    · obtain ⟨⟨_, _⟩, ht, h⟩ := Option.bind_eq_some_iff.1 h
      cases h
      exact htop ht
  | loadNext | loadBarrier | loadChunk | casChunk | reloadNext | reloadBarrier | casBarrier | reloadStart => cases h

end

/-- Over the reals, `T` is the share of a thread, rounded. -/
theorem toNat_tapeShare {nthreads R : Word} (hP : nthreads ≠ 0) :
    (tapeShare ℝ nthreads R).toNat = ⌊(R.toNat : ℝ) / nthreads.toNat + 1 / 2⌋₊ := by
  have hval : (CDouble.ofULong R : ℝ) / CDouble.ofULong nthreads + CDouble.ofULong (tapeMinK nthreads) / 2.0 =
      (R.toNat : ℝ) / nthreads.toNat + 1 / 2 := by
    show (R.toNat : ℝ) / nthreads.toNat + ((1 : Nat) : ℝ) / 2.0 = _
    norm_num
  have hP1 : (1 : ℝ) ≤ nthreads.toNat := by
    have : nthreads.toNat ≠ 0 := fun h0 => hP (BitVec.eq_of_toNat_eq h0)
    exact_mod_cast Nat.one_le_iff_ne_zero.2 this
  have hR : (R.toNat : ℝ) + 1 ≤ 2 ^ 64 := by exact_mod_cast R.isLt
  have hdiv : (R.toNat : ℝ) / nthreads.toNat ≤ R.toNat := div_le_self (Nat.cast_nonneg _) hP1
  unfold tapeShare
  rw [hval, toNat_toULong_real (by positivity) (by linarith)]

theorem tapeValue_real (v : ℝ) (T : Word) :
    tapeValue v T = T.toNat + v ^ 2 / 2 - v * √((2 * T).toNat + v ^ 2 / 4) := by
  show (T.toNat : ℝ) + v * v / 2.0 - v * √((2 * T).toNat + v * v / 4.0) = _
  rw [← pow_two, show (2.0 : ℝ) = 2 by norm_num, show (4.0 : ℝ) = 4 by norm_num]

/-- The value is never above `T`. -/
theorem tapeValue_le {v : ℝ} (hv : 0 ≤ v) (T : Word) : tapeValue v T ≤ T.toNat := by
  have hhalf : v / 2 ≤ √((2 * T).toNat + v ^ 2 / 4) := half_le_sqrt (Nat.cast_nonneg _) v
  have hmul := mul_le_mul_of_nonneg_left hhalf hv
  rw [tapeValue_real]
  linarith [show v * (v / 2) = v ^ 2 / 2 by ring]

/-- `2 * T` wraps around from `2^63` on, and then the value is never negative. -/
theorem tapeValue_nonneg_iff {v : ℝ} (hv : 0 ≤ v) (T : Word) :
    0 ≤ tapeValue v T ↔ T = 0 ∨ v ^ 2 ≤ T.toNat ∨ 2 ^ 63 ≤ T.toNat := by
  have hT := T.isLt
  have h2 : (2 * T).toNat = 2 * T.toNat % 2 ^ 64 := BitVec.toNat_mul 2 T
  rw [tapeValue_real]
  by_cases hbig : 2 ^ 63 ≤ T.toNat
  · have hwrap : (2 * T).toNat = 2 * T.toNat - 2 ^ 64 := by omega
    refine iff_of_true ?_ (.inr (.inr hbig))
    have hle : (2 * T).toNat ≤ T.toNat := by omega
    exact taper_nonneg_of_le (Nat.cast_nonneg _) (Nat.cast_le.2 hle)
  · have hno : (2 * T).toNat = 2 * T.toNat := by omega
    rw [hno, Nat.cast_mul, Nat.cast_ofNat, taper_nonneg_iff (Nat.cast_nonneg _) hv]
    have h0 : ((T.toNat : ℝ) = 0) ↔ T = 0 := by
      rw [Nat.cast_eq_zero]
      exact ⟨fun h => BitVec.eq_of_toNat_eq h, fun h => by rw [h]; rfl⟩
    rw [h0]
    tauto

/-- A non-negative value makes a chunk size between one and `T`. -/
theorem tapeChunk_bounds {v : ℝ} (hv : 0 ≤ v) {nthreads R : Word} (h : 0 ≤ tapeValue v (tapeShare ℝ nthreads R)) :
    1 ≤ (tapeChunk v nthreads R).toNat ∧
      (tapeChunk v nthreads R).toNat ≤ max 1 (tapeShare ℝ nthreads R).toNat := by
  have hle := tapeValue_le hv (tapeShare ℝ nthreads R)
  have hT : ((tapeShare ℝ nthreads R).toNat : ℝ) < 2 ^ 64 := by exact_mod_cast (tapeShare ℝ nthreads R).isLt
  have hK := toNat_toULong_real h (lt_of_le_of_lt hle hT)
  have hKT : ⌊tapeValue v (tapeShare ℝ nthreads R)⌋₊ ≤ (tapeShare ℝ nthreads R).toNat :=
    Nat.floor_le_of_le hle
  rw [tapeChunk_eq]
  split
  · exact ⟨le_refl 1, le_max_left _ _⟩
  · rename_i hge
    rw [BitVec.lt_def] at hge
    have h1 : (1 : Word).toNat = 1 := rfl
    omega

/-- At a remaining count, what `tape` converts is not negative, and its chunk size is at least one
and at most the share of a thread. -/
structure TaperRange (v : ℝ) (nthreads R : Word) : Prop where
  value : 0 ≤ tapeValue v (tapeShare ℝ nthreads R)
  pos : 1 ≤ (tapeChunk v nthreads R).toNat
  le : (tapeChunk v nthreads R).toNat ≤ max 1 ⌊(R.toNat : ℝ) / nthreads.toNat + 1 / 2⌋₊

/-- Both iterators claim by the taper, and it stays in range exactly where `v²` is at most `T`.
From `2^63` on `2 * T` wraps around, to the same effect. -/
theorem boIterTapeNext_taperRange_iff {ι : Type} {ws : GompWorkShare ℝ} {nthreads : Word} (hP : nthreads ≠ 0)
    (hv : 0 ≤ ws.param) :
    (View.long ws).Guides (tapeChunk ws.param nthreads) (boIterTapeNext ws nthreads : Prog ι Unit Cells Local Ret) ∧
    (View.ull ws).Guides (tapeChunk ws.param nthreads) (boIterUllTapeNext ws nthreads : Prog ι Unit Cells Local Ret) ∧
    ∀ (R : Word) (T : Nat), T = ⌊(R.toNat : ℝ) / nthreads.toNat + 1 / 2⌋₊ →
      (T < 2 ^ 63 → tapeValue ws.param (tapeShare ℝ nthreads R) =
        T + ws.param ^ 2 / 2 - ws.param * √(2 * T + ws.param ^ 2 / 4)) ∧
      (TaperRange ws.param nthreads R ↔ T = 0 ∨ ws.param ^ 2 ≤ T ∨ 2 ^ 63 ≤ T) := by
  refine ⟨View.guides_guidedNext _ _, View.guides_guidedNext _ _, fun R T hT => ?_⟩
  rw [← toNat_tapeShare hP] at hT
  refine ⟨fun hlt => ?_, ?_⟩
  · have hmul : (2 * tapeShare ℝ nthreads R).toNat = 2 * (tapeShare ℝ nthreads R).toNat % 2 ^ 64 := BitVec.toNat_mul 2 _
    have h2 : (2 * tapeShare ℝ nthreads R).toNat = 2 * T := by omega
    rw [tapeValue_real, h2, hT, Nat.cast_mul, Nat.cast_ofNat]
  · have hzero : T = 0 ↔ tapeShare ℝ nthreads R = 0 := by
      rw [hT]
      exact ⟨fun h => BitVec.eq_of_toNat_eq h, fun h => by rw [h]; rfl⟩
    rw [hzero, hT, ← tapeValue_nonneg_iff hv]
    constructor
    · exact fun h => h.value
    · intro h
      obtain ⟨hpos, hle⟩ := tapeChunk_bounds hv h
      exact ⟨h, hpos, by rw [← toNat_tapeShare hP]; exact hle⟩

/-- With `v = 1`, two threads and ten iterations left, the chunk size is between 1 and 5. -/
theorem boIterTapeNext_taperRange_ten : TaperRange 1 2 10 := by
  let ws : GompWorkShare ℝ := { (GompWorkShare.zero : GompWorkShare ℝ) with param := 1 }
  have hv : 0 ≤ ws.param := by show (0 : ℝ) ≤ 1; norm_num
  have hP : (2 : Word) ≠ 0 := by decide
  have hT : (5 : Nat) = ⌊((10 : Word).toNat : ℝ) / (2 : Word).toNat + 1 / 2⌋₊ := by
    rw [show ((10 : Word).toNat : ℝ) / (2 : Word).toNat + 1 / 2 = 11 / 2 by
      norm_num [show (10 : Word).toNat = 10 from rfl, show (2 : Word).toNat = 2 from rfl]]
    exact ((Nat.floor_eq_iff (by norm_num)).2 ⟨by norm_num, by norm_num⟩).symm
  have hcond : ws.param ^ 2 ≤ (5 : Nat) := by show (1 : ℝ) ^ 2 ≤ _; norm_num
  exact ((boIterTapeNext_taperRange_iff (ι := Unit) hP hv).2.2 10 5 hT).2.2 (.inr (.inl hcond))

/-- `for (i = 0; i < 4; i++)` under `FS_TAPE3`, alone: the value is negative at the first claim. -/
theorem boIterTapeNext_negative :
    ∃ (g : Globals ℝ) (ws : GompWorkShare ℝ), gompLoopInit (.fresh 1) (some 1) 0 .zero 0 4 1 .fsTape3 0 0 = some (g, ws) ∧
      (View.long ws).remaining ws.next = some 4 ∧ tapeValue ws.param (tapeShare ℝ 1 4) < 0 ∧
      ¬ TaperRange ws.param (teamNthreads (some 1)) 4 := by
  have hT : (tapeShare ℝ 1 4).toNat = 4 := by
    rw [toNat_tapeShare (by decide), show ((4 : Word).toNat : ℝ) / (1 : Word).toNat + 1 / 2 = 9 / 2 by
      norm_num [show (4 : Word).toNat = 4 from rfl, show (1 : Word).toNat = 1 from rfl]]
    exact (Nat.floor_eq_iff (by norm_num)).2 ⟨by norm_num, by norm_num⟩
  have hneg : ¬ 0 ≤ tapeValue (3.0 : ℝ) (tapeShare ℝ 1 4) := by
    rw [tapeValue_nonneg_iff (by norm_num)]
    rintro (h | h | h)
    · rw [h] at hT
      cases hT
    · rw [hT] at h
      norm_num at h
    · rw [hT] at h
      norm_num at h
  refine ⟨_, _, gompLoopInit_eq (by decide +kernel : numTasks 0 4 1 = some 4), by decide +kernel, not_le.1 hneg, ?_⟩
  exact fun h => hneg h.value

/-! ## The factoring rule -/

open scoped Numerals in
/-- The batch of the factoring rule with `R` iterations left, after the first batch. -/
noncomputable def fssRule (param : ℝ) (P R : Nat) : Nat :=
  let b : ℝ := P * param / (2 * √R)
  let x : ℝ := 2 + b ^ 2 + b * √(b ^ 2 + 4)
  max 1 ⌊(R : ℝ) / (x * P)⌋₊

/-- Halving gives the batch of the rule exactly for batches of at most one iteration, or where the
remainder is large enough to leave room for the parameter. -/
theorem half_eq_fssRule_iff {param : ℝ} (hparam : 0 < param) {P R : Nat} (hP : 0 < P) (hR : 0 < R) :
    max 1 (R / (2 * P)) = fssRule param P R ↔
      R < 4 * P ∨ (R / (2 * P) : Nat) * (P : ℝ) ^ 3 * param ^ 2 ≤ 2 * ((R % (2 * P) : Nat) : ℝ) ^ 2 := by
  have hP' : (0 : ℝ) < P := Nat.cast_pos.2 hP
  have hR' : (0 : ℝ) < R := Nat.cast_pos.2 hR
  have hsR : 0 < √(R : ℝ) := Real.sqrt_pos.2 hR'
  unfold fssRule
  simp only
  set b : ℝ := P * param / (2 * √R) with hb
  have hb0 : 0 < b := by positivity
  have hb2 : b ^ 2 = P ^ 2 * param ^ 2 / (4 * R) := by
    rw [hb, div_pow, mul_pow, mul_pow, Real.sq_sqrt (le_of_lt hR')]
    norm_num
  have hx : 2 ≤ 2 + b ^ 2 + b * √(b ^ 2 + 4) := by
    have := Real.sqrt_nonneg (b ^ 2 + 4)
    nlinarith [sq_nonneg b]
  -- the rule never takes more than half
  have hle : ⌊(R : ℝ) / ((2 + b ^ 2 + b * √(b ^ 2 + 4)) * P)⌋₊ ≤ R / (2 * P) := by
    have hmono : (R : ℝ) / ((2 + b ^ 2 + b * √(b ^ 2 + 4)) * P) ≤ R / ((2 * P : Nat) : ℝ) := by
      push_cast
      gcongr
    rw [← Nat.floor_div_eq_div (K := ℝ) R (2 * P)]
    exact Nat.floor_le_floor hmono
  obtain ⟨m, hm⟩ : ∃ m, R / (2 * P) = m := ⟨_, rfl⟩
  obtain ⟨r, hr⟩ : ∃ r, R % (2 * P) = r := ⟨_, rfl⟩
  have hmr : 2 * P * m + r = R := by rw [← hm, ← hr]; exact Nat.div_add_mod R (2 * P)
  have hrlt : r < 2 * P := by rw [← hr]; exact Nat.mod_lt _ (by omega)
  rw [hm] at hle ⊢
  rw [hr]
  by_cases hsmall : R < 4 * P
  · have hm1 : m < 2 := by
      rw [← hm]
      exact (Nat.div_lt_iff_lt_mul (by omega)).2 (by omega)
    refine iff_of_true ?_ (.inl hsmall)
    omega
  · have hm2 : 2 ≤ m := by
      rw [← hm]
      exact (Nat.le_div_iff_mul_le (by omega)).2 (by omega)
    have hm' : (0 : ℝ) < m := Nat.cast_pos.2 (by omega)
    have hRr : (R : ℝ) = 2 * P * m + r := by rw [← hmr]; push_cast; ring
    have hiff : max 1 m = max 1 ⌊(R : ℝ) / ((2 + b ^ 2 + b * √(b ^ 2 + 4)) * P)⌋₊ ↔
        m ≤ ⌊(R : ℝ) / ((2 + b ^ 2 + b * √(b ^ 2 + 4)) * P)⌋₊ := by omega
    rw [hiff, or_iff_right hsmall, Nat.le_floor_iff (by positivity), le_div_iff₀ (by positivity)]
    -- what is left of the share of a thread, per chunk
    have hy : (R : ℝ) / (m * P) = 2 + r / (m * P) := by
      rw [hRr]
      field_simp
    calc (m : ℝ) * ((2 + b ^ 2 + b * √(b ^ 2 + 4)) * P) ≤ R
        ↔ 2 + b ^ 2 + b * √(b ^ 2 + 4) ≤ R / (m * P) := by
          rw [le_div_iff₀ (by positivity)]
          constructor <;> intro h <;> linarith
      _ ↔ b ^ 2 + b * √(b ^ 2 + 4) ≤ r / (m * P) := by
          rw [hy]
          constructor <;> intro h <;> linarith
      _ ↔ 2 * b ^ 2 * (r / (m * P) + 2) ≤ (r / (m * P)) ^ 2 := add_mul_sqrt_le_iff (le_of_lt hb0) (by positivity)
      _ ↔ P * param ^ 2 / (2 * m) ≤ (r / (m * P)) ^ 2 := by
          have : 2 * b ^ 2 * (r / (m * P) + 2) = P * param ^ 2 / (2 * m) := by
            rw [show (r : ℝ) / (m * P) + 2 = R / (m * P) by rw [hy]; ring, hb2]
            field_simp
            ring
          rw [this]
      _ ↔ m * (P : ℝ) ^ 3 * param ^ 2 ≤ 2 * (r : ℝ) ^ 2 := by
          rw [div_pow, div_le_div_iff₀ (by positivity) (by positivity)]
          constructor
          · intro h
            have : 0 < (m : ℝ) := hm'
            nlinarith
          · intro h
            nlinarith

/-- With an integer `1 / R`, the batch is half of what remains, shared out. -/
theorem fssBatch_real (param : ℝ) {nthreads R : Word} (hP : nthreads ≠ 0) (hR : 2 ≤ R.toNat) :
    ∃ F₀, fssBatch param nthreads R = some F₀ ∧ F₀.toNat = R.toNat / (2 * nthreads.toNat) := by
  have hdiv : uldiv 1 R = some 0 := by
    unfold uldiv
    rw [if_neg (fun h => by rw [h] at hR; exact absurd hR (by decide))]
    refine congrArg some (BitVec.eq_of_toNat_eq ?_)
    rw [BitVec.toNat_udiv]
    exact Nat.div_eq_of_lt hR
  unfold fssBatch
  rw [hdiv]
  refine ⟨_, rfl, ?_⟩
  set temp : ℝ := CDouble.ofULong nthreads * param / 2.0
  have hval : (CDouble.ofULong R : ℝ) / (2.0 + CDouble.ofULong (0 : Word) * temp * temp +
      CDouble.sqrt (CDouble.ofULong (0 : Word) * temp * temp * (CDouble.ofULong (0 : Word) * temp * temp + 4.0))) /
      CDouble.ofULong nthreads = (R.toNat : ℝ) / ((2 * nthreads.toNat : Nat) : ℝ) := by
    show (R.toNat : ℝ) / (2.0 + ((0 : Nat) : ℝ) * temp * temp +
      √(((0 : Nat) : ℝ) * temp * temp * (((0 : Nat) : ℝ) * temp * temp + 4.0))) / (nthreads.toNat : ℝ) = _
    rw [Nat.cast_zero, zero_mul, zero_mul, zero_mul, Real.sqrt_zero, add_zero, add_zero, div_div,
      show (2.0 : ℝ) = 2 by norm_num]
    push_cast
    rfl
  have hlt : (R.toNat : ℝ) / ((2 * nthreads.toNat : Nat) : ℝ) < 2 ^ 64 := by
    have hP1 : nthreads.toNat ≠ 0 := fun h0 => hP (BitVec.eq_of_toNat_eq h0)
    have hone : (1 : ℝ) ≤ ((2 * nthreads.toNat : Nat) : ℝ) := Nat.one_le_cast.2 (by omega)
    refine lt_of_le_of_lt (div_le_self (Nat.cast_nonneg _) hone) ?_
    exact_mod_cast R.isLt
  show (CDouble.toULong (_ : ℝ)).toNat = _
  rw [hval, toNat_toULong_real (by positivity) hlt, Nat.floor_div_eq_div]

section

variable {ι : Type} {v : View} {nthreads : Word} {batch : Word → Option Word}

/-- A thread that is about to install a chunk size has it from the barrier it stands on. -/
def Local.Opening (v : View) (nthreads : Word) (batch : Word → Option Word) : Local → Prop
  | .casChunk start barrier _ F nbarrier | .casBarrier start barrier F nbarrier =>
    barrier = start ∧ v.NewBatch nthreads batch start F nbarrier
  | _ => True

theorem batchTop_opening {start barrier chunk : Word} {loc : Local} {e : Option Ret}
    (h : v.batchTop nthreads batch start barrier chunk = some (loc, e)) : loc.Opening v nthreads batch := by
  unfold View.batchTop at h
  split at h
  · cases h
    trivial
  · split at h
    · rename_i hbar
      obtain ⟨R, hR, h⟩ := Option.bind_eq_some_iff.1 h
      obtain ⟨F₀, hF, h⟩ := Option.bind_eq_some_iff.1 h
      by_cases hF1 : F₀ ≤ 1
      · simp only [hF1, if_true] at h
        cases h
        exact ⟨hbar, R, F₀, hR, hF, by rw [if_pos hF1]⟩
      · simp only [hF1, if_false] at h
        cases h
        exact ⟨hbar, R, F₀, hR, hF, by rw [if_neg hF1, hbar]⟩
    · obtain ⟨loc', hcl, h⟩ := Option.bind_eq_some_iff.1 h
      cases h
      obtain ⟨nend, rfl⟩ := v.claim_eq hcl
      trivial

/-- In every run of `fac2` and `fss`, threads install the batch of the barrier they stand on. -/
theorem opening_invariant :
    Invariant (v.batchedNext nthreads batch : Prog ι Unit Cells Local Ret) (fun _ _ => True)
      fun _ _ loc => loc.Opening v nthreads batch where
  own := by
    intro i a s loc s' loc' e log _ hI h
    refine ⟨trivial, ?_⟩
    cases loc with
    | idle | loadBarrier | reloadNext => cases h; trivial
    | loadNext => cases h
    | loadChunk | reloadBarrier | reloadStart =>
      obtain ⟨⟨_, _⟩, ht, h⟩ := Option.bind_eq_some_iff.1 h
      cases h
      exact batchTop_opening ht
    | casChunk =>
      simp only [View.batchedNext] at h
      split at h <;> cases h
      · exact hI
      · trivial
    | casBarrier =>
      simp only [View.batchedNext] at h
      split at h
      · obtain ⟨loc'', hcl, h⟩ := Option.bind_eq_some_iff.1 h
        cases h
        obtain ⟨nend, rfl⟩ := v.claim_eq hcl
        trivial
      · cases h; trivial
    | casNext =>
      simp only [View.batchedNext] at h
      split at h <;> cases h <;> trivial
  other := fun _ _ _ _ h => h

/-- The step that installs a chunk size. -/
theorem casChunk_of_installs {i : ι} {s s' : Cells} {loc : Local} {start barrier F nbarrier : Word} {e : Option Ret}
    (h : v.batchedNext nthreads batch i () s loc = some (s', .casBarrier start barrier F nbarrier, e)) :
    s' = { s with chunkSize := F } ∧ ∃ chunk, loc = .casChunk start barrier chunk F nbarrier := by
  have htop : ∀ {start' barrier' chunk' e'}, v.batchTop nthreads batch start' barrier' chunk' ≠
      some (.casBarrier start barrier F nbarrier, e') := by
    intro start' barrier' chunk' e' ht
    rcases v.batchTop_cases ht with ⟨-, hl, -⟩ | ⟨-, ⟨_, _, hl⟩ | ⟨_, hl⟩⟩ <;> cases hl
  cases loc with
  | idle | loadBarrier | reloadNext | loadNext => cases h
  | loadChunk | reloadBarrier | reloadStart =>
    obtain ⟨⟨_, _⟩, ht, h⟩ := Option.bind_eq_some_iff.1 h
    cases h
    exact absurd ht htop
  | casChunk =>
    simp only [View.batchedNext] at h
    split at h <;> cases h
    exact ⟨rfl, _, rfl⟩
  | casBarrier =>
    simp only [View.batchedNext] at h
    split at h
    · obtain ⟨loc'', hcl, h⟩ := Option.bind_eq_some_iff.1 h
      obtain ⟨nend, rfl⟩ := v.claim_eq hcl
      cases h
    · cases h
  | casNext =>
    simp only [View.batchedNext] at h
    split at h <;> cases h

end

/-- The two iterators of `fss`, each with the way it reads the loop. -/
inductive FssIter {ι : Type} (ws : GompWorkShare ℝ) (nthreads : Word) : View → Prog ι Unit Cells Local Ret → Prop
  | signed : FssIter ws nthreads (View.long ws) (boIterFssNext ws nthreads)
  | unsigned : FssIter ws nthreads (View.ull ws) (boIterUllFssNext ws nthreads)

/-- In every run, the chunk size a step installs with `R ≥ 2` iterations left is that of the
factoring rule exactly where halving gives the same. -/
theorem boIterFssNext_rule_iff {ι : Type} [DecidableEq ι] {ws : GompWorkShare ℝ} {nthreads : Word} {v : View}
    {p : Prog ι Unit Cells Local Ret} (hP : nthreads ≠ 0) (hparam : 0 < ws.param) (hp : FssIter ws nthreads v p)
    {c : Cfg ι Cells Local Ret} (hr : Reach p (entry ws) c) {i : ι} {s : Cells} {start barrier F nbarrier : Word}
    {e : Option Ret} (h : p i () c.shared (c.loc i) = some (s, .casBarrier start barrier F nbarrier, e)) :
    s = { c.shared with chunkSize := F } ∧ barrier = start ∧ ∃ R, v.remaining start = some R ∧
      (2 ≤ R.toNat → (F.toNat = fssRule ws.param nthreads.toNat R.toNat ↔
        R.toNat < 4 * nthreads.toNat ∨
          (R.toNat / (2 * nthreads.toNat) : Nat) * (nthreads.toNat : ℝ) ^ 3 * ws.param ^ 2 ≤
            2 * ((R.toNat % (2 * nthreads.toNat) : Nat) : ℝ) ^ 2)) := by
  have hbatched : p = v.batchedNext nthreads (fssBatch ws.param nthreads) := by cases hp <;> rfl
  rw [hbatched] at hr h
  have hentry : Holds (fun _ _ => True) (fun _ _ loc => loc.Opening v nthreads (fssBatch ws.param nthreads))
      (entry ws : Cfg ι Cells Local Ret) := ⟨trivial, fun _ => trivial⟩
  have hinv := (opening_invariant.reach hentry hr).2 i
  obtain ⟨hs, chunk, hloc⟩ := casChunk_of_installs h
  rw [hloc] at hinv
  obtain ⟨hbar, R, F₀, hR, hF₀, heq⟩ := hinv
  refine ⟨hs, hbar, R, hR, fun hR2 => ?_⟩
  obtain ⟨F₁, hF₁, hhalf⟩ := fssBatch_real ws.param hP hR2
  cases hF₁.symm.trans hF₀
  have hPpos : 0 < nthreads.toNat := Nat.pos_of_ne_zero fun h0 => hP (BitVec.eq_of_toNat_eq h0)
  rw [← half_eq_fssRule_iff hparam hPpos (by omega), ← hhalf]
  have hF : F.toNat = max 1 F₀.toNat := by
    have h1 : (1 : Word).toNat = 1 := rfl
    split at heq
    · rename_i hle
      cases heq
      rw [BitVec.le_def] at hle
      omega
    · rename_i hlt
      cases heq
      rw [BitVec.le_def] at hlt
      omega
  rw [hF]

/-- A region whose stored `fss` parameter is 10. -/
noncomputable def fssTable : Globals ℝ := (Globals.fresh 1).setParam 7 { WorkloadParams.zero with fss := 10 }

/-- The first batch over 100 iterations takes half of them. -/
theorem fssFirst_hundred : fssFirst (100 : ℝ) 1 10 = 50 := by
  have hsqrt : √(1 / 4 * (1 / 4 + 2) : ℝ) = 3 / 4 := by
    rw [show (1 / 4 * (1 / 4 + 2) : ℝ) = (3 / 4) ^ 2 by norm_num]
    exact Real.sqrt_sq (by norm_num)
  have hone : (CDouble.ofLong (1 : Word) : ℝ) = 1 := by
    show (((1 : Word).toInt : Int) : ℝ) = 1
    rw [show (1 : Word).toInt = 1 by decide, Int.cast_one]
  have hb2 : (1.0 : ℝ) / 100 * (1 / 2.0 * 10) * (1 / 2.0 * 10) = 1 / 4 := by norm_num
  have hval : (100 : ℝ) / (1.0 + 1 / 4 + √(1 / 4 * (1 / 4 + 2.0))) / 1 = 50 := by
    rw [show (2.0 : ℝ) = 2 by norm_num, hsqrt]
    norm_num
  unfold fssFirst
  rw [hone]
  apply BitVec.eq_of_toNat_eq
  show (CDouble.toULong ((100 : ℝ) / (1.0 + (1.0 / 100 * (1 / 2.0 * 10) * (1 / 2.0 * 10)) +
    √((1.0 / 100 * (1 / 2.0 * 10) * (1 / 2.0 * 10)) * ((1.0 / 100 * (1 / 2.0 * 10) * (1 / 2.0 * 10)) + 2.0))) / 1)).toNat = _
  rw [hb2, hval, toNat_toULong_real (by norm_num) (by norm_num), show (50 : ℝ) = ((50 : Nat) : ℝ) by norm_num, Nat.floor_natCast]
  rfl

/-- Alone in the loop, a thread installs 25 at the end of the first batch. -/
theorem exists_second_batch {ws : GompWorkShare ℝ} (hnext : ws.next = 0) (hfin : ws.fin = 100) (hincr : ws.incr = 1)
    (hbar : ws.barrier = 50) (hchunk : ws.chunkSize = 50) :
    ∃ c : Cfg Unit Cells Local Ret, Reach (boIterFssNext ws 1) (entry ws) c ∧
      boIterFssNext ws 1 () () c.shared (c.loc ()) =
        some ({ c.shared with chunkSize := 25 }, .casBarrier 50 50 25 75, none) := by
  let p : Prog Unit Unit Cells Local Ret := boIterFssNext ws 1
  obtain ⟨F₀, hF₀, hhalf⟩ := fssBatch_real ws.param (by decide : (1 : Word) ≠ 0) (by decide : 2 ≤ (50 : Word).toNat)
  obtain rfl : F₀ = 25 := BitVec.eq_of_toNat_eq hhalf
  have hcells : ws.cells = ⟨0, 50, 50, ws.count⟩ := by
    unfold GompWorkShare.cells
    rw [hnext, hbar, hchunk]
  have hR : ∀ {start : Word}, (View.long ws).remaining start = ldiv (100 - start) 1 := by
    intro start
    show ldiv (ws.fin - start) ws.incr = _
    rw [hfin, hincr]
  have hne : ∀ {start : Word}, start ≠ 100 → ¬ start = (View.long ws).fin := by
    intro start h h'
    exact h (h'.trans hfin)
  -- the first batch is one chunk
  have hclaim : p () () ⟨0, 50, 50, ws.count⟩ (.loadChunk 0 50) = some (⟨0, 50, 50, ws.count⟩, .casNext 0 50 50, none) := by
    show (do return ((⟨0, 50, 50, ws.count⟩ : Cells), ← (View.long ws).batchTop 1 (fssBatch ws.param 1) 0 50 50)) = _
    unfold View.batchTop View.claim
    rw [if_neg (hne (by decide)), if_neg (by decide), hR, (by decide +kernel : ldiv (100 - 0) 1 = some (100 : Word))]
    show some (_, Local.casNext 0 50 ((View.long ws).nend 0 50 100), none) = _
    rw [show (View.long ws).nend 0 50 100 = 50 by
      show 0 + 50 * ws.incr = (50 : Word)
      rw [hincr]
      decide]
  -- the second begins at its end
  have hopen : p () () ⟨50, 50, 50, ws.count⟩ (.loadChunk 50 50) =
      some (⟨50, 50, 50, ws.count⟩, .casChunk 50 50 50 25 75, none) := by
    show (do return ((⟨50, 50, 50, ws.count⟩ : Cells), ← (View.long ws).batchTop 1 (fssBatch ws.param 1) 50 50 50)) = _
    unfold View.batchTop
    rw [if_neg (hne (by decide)), if_pos rfl, hR, (by decide +kernel : ldiv (100 - 50) 1 = some (50 : Word))]
    have hadvance : (View.long ws).advance 50 (25 * 1) = 75 := by
      show 50 + 25 * 1 * ws.incr = (75 : Word)
      rw [hincr]
      decide
    simp only [Option.bind_eq_bind, Option.bind_some, hF₀, hadvance]
    rfl
  have hgo : Reach p ⟨⟨0, 50, 50, ws.count⟩, fun _ => .idle, []⟩
      ⟨⟨50, 50, 50, ws.count⟩, fun _ => .casChunk 50 50 50 25 75, [((), some (0, 50))]⟩ := by
    have h1 : p () () ⟨0, 50, 50, ws.count⟩ .idle = some (⟨0, 50, 50, ws.count⟩, .loadBarrier 0, none) := rfl
    have h2 : p () () ⟨0, 50, 50, ws.count⟩ (.loadBarrier 0) = some (⟨0, 50, 50, ws.count⟩, .loadChunk 0 50, none) := rfl
    have h4 : p () () ⟨0, 50, 50, ws.count⟩ (.casNext 0 50 50) =
        some (⟨50, 50, 50, ws.count⟩, .idle, some (some (0, 50))) := rfl
    have h5 : p () () ⟨50, 50, 50, ws.count⟩ .idle = some (⟨50, 50, 50, ws.count⟩, .loadBarrier 50, none) := rfl
    have h6 : p () () ⟨50, 50, 50, ws.count⟩ (.loadBarrier 50) =
        some (⟨50, 50, 50, ws.count⟩, .loadChunk 50 50, none) := rfl
    exact .head (step_alone h1) (.head (step_alone h2) (.head (step_alone hclaim) (.head (step_alone h4)
      (.head (step_alone h5) (.head (step_alone h6) (.single (step_alone hopen)))))))
  rw [← hcells] at hgo
  exact ⟨_, hgo, rfl⟩

/-- What `gomp_loop_init` leaves for `FS_FSS`. -/
theorem gompLoopInit_fsFss {D : Type} [CDouble D] {g : Globals D} (team : Option U32) (now : Int) (ws : GompWorkShare D)
    {start fin incr n : Word} (chunkSize : Word) {r : RegionId} (hn : numTasks start fin incr = some n) :
    ∃ g' ws', gompLoopInit g team now ws start fin incr .fsFss chunkSize r = some (g', ws') ∧
      ws'.param = (g.param r).fss ∧ ws'.next = start ∧ ws'.fin = canonicalEnd start fin incr ∧ ws'.incr = incr ∧
      ws'.chunkSize = fssFirst (CDouble.ofLong n) (teamNthreads team) (g.param r).fss ∧
      ws'.barrier = start + ws'.chunkSize * teamNthreads team * incr := by
  have hfss : ((boScheduleBegin g r n (teamNthreads team) now).param r).fss = (g.param r).fss := by
    unfold Globals.param
    rw [boScheduleBegin_params]
  rw [← hfss, gompLoopInit_eq hn]
  exact ⟨_, _, rfl, rfl, rfl, rfl, rfl, rfl, rfl⟩

/-- The batch of 25 with 50 iterations left is not that of the rule, since halving leaves no remainder. -/
theorem boIterFssNext_rule_fifty :
    ∃ (ws : GompWorkShare ℝ) (c : Cfg Unit Cells Local Ret) (s : Cells), Reach (boIterFssNext ws 1) (entry ws) c ∧
      boIterFssNext ws 1 () () c.shared (c.loc ()) = some (s, .casBarrier 50 50 25 75, none) ∧
      (25 : Word).toNat ≠ fssRule ws.param (1 : Word).toNat (50 : Word).toNat := by
  let ws : GompWorkShare ℝ :=
    { (GompWorkShare.zero : GompWorkShare ℝ) with param := 10, fin := 100, incr := 1, barrier := 50, chunkSize := 50 }
  obtain ⟨c, hr, hstep⟩ := exists_second_batch (rfl : ws.next = 0) rfl rfl rfl rfl
  have hparam : 0 < ws.param := by show (0 : ℝ) < 10; norm_num
  obtain ⟨-, -, R, hR, hrule⟩ := boIterFssNext_rule_iff (by decide) hparam .signed hr hstep
  have hfifty : (View.long ws).remaining 50 = some 50 := by
    show ldiv (ws.fin - 50) ws.incr = _
    rw [show ws.fin = 100 from rfl, show ws.incr = 1 from rfl]
    decide +kernel
  obtain rfl : R = 50 := Option.some.inj (hR.symm.trans hfifty)
  refine ⟨ws, c, _, hr, hstep, fun h => ?_⟩
  rcases (hrule (by decide)).1 h with hlt | hle
  · exact absurd hlt (by decide)
  · rw [show (1 : Word).toNat = 1 from rfl, show (50 : Word).toNat = 50 from rfl, show ws.param = 10 from rfl] at hle
    norm_num at hle

/-- There the second batch is of 25 where the rule has 12. -/
theorem boIterFssNext_ignores_param :
    ∃ (g : Globals ℝ) (ws : GompWorkShare ℝ) (c : Cfg Unit Cells Local Ret) (s : Cells),
      gompLoopInit fssTable (some 1) 0 .zero 0 100 1 .fsFss 0 7 = some (g, ws) ∧
      Reach (boIterFssNext ws (teamNthreads (some 1))) (entry ws) c ∧ (View.long ws).remaining 50 = some 50 ∧
      boIterFssNext ws (teamNthreads (some 1)) () () c.shared (c.loc ()) = some (s, .casBarrier 50 50 25 75, none) ∧
      s.chunkSize = 25 ∧ fssRule ws.param 1 50 = 12 := by
  obtain ⟨g, ws, hinit, hparam, hnext, hfin, hincr, hchunk, hbar⟩ := gompLoopInit_fsFss (g := fssTable) (some 1) 0 .zero 0
    (r := 7) (by decide +kernel : numTasks 0 100 1 = some 100)
  have hfss : (fssTable.param 7).fss = 10 := congrArg WorkloadParams.fss (Globals.param_setParam _ _ _)
  have h100 : (CDouble.ofLong (100 : Word) : ℝ) = 100 := by
    show (((100 : Word).toInt : Int) : ℝ) = 100
    rw [show (100 : Word).toInt = 100 by decide]
    norm_num
  have hteam : teamNthreads (some 1) = 1 := by decide
  rw [hfss] at hparam
  rw [hteam, hfss, h100, fssFirst_hundred] at hchunk
  rw [hchunk, hteam, show (0 : Word) + 50 * 1 * 1 = 50 by decide] at hbar
  rw [hteam]
  obtain ⟨c, hr, hstep⟩ := exists_second_batch hnext (hfin.trans (by decide +kernel)) hincr hbar hchunk
  have hR : (View.long ws).remaining 50 = some 50 := by
    show ldiv (ws.fin - 50) ws.incr = _
    rw [hfin, hincr]
    decide +kernel
  refine ⟨g, ws, c, _, hinit, hr, hR, hstep, rfl, ?_⟩
  rw [hparam]
  unfold fssRule
  simp only
  have hb : ((1 : Nat) * (10 : ℝ) / (2 * √((50 : Nat) : ℝ))) ^ 2 = 1 / 2 := by
    rw [div_pow, mul_pow, mul_pow, Real.sq_sqrt (by norm_num)]
    norm_num
  have hprod : (1 : Nat) * (10 : ℝ) / (2 * √((50 : Nat) : ℝ)) * √(1 / 2 + 4) = 3 / 2 := by
    have h0 : (0 : ℝ) ≤ (1 : Nat) * (10 : ℝ) / (2 * √((50 : Nat) : ℝ)) := by positivity
    rw [← Real.sqrt_sq h0, hb, ← Real.sqrt_mul (by norm_num), show (1 / 2 * (1 / 2 + 4) : ℝ) = (3 / 2) ^ 2 by norm_num]
    exact Real.sqrt_sq (by norm_num)
  rw [hb, hprod, show ((50 : Nat) : ℝ) / ((2 + 1 / 2 + 3 / 2) * (1 : Nat)) = 25 / 2 by norm_num,
    show ⌊(25 / 2 : ℝ)⌋₊ = 12 from (Nat.floor_eq_iff (by norm_num)).2 ⟨by norm_num, by norm_num⟩]
  rfl

end Bosched
