/-
`css_chunk_size` and `css_chunk_size_ull` over the reals, against the rule they are meant to compute. The logarithm of
a team of one thread is zero, the value is converted before it is clipped, and the square root of two is rounded.
-/
import Bosched.Runtime.LoopInit
import Bosched.Runtime.Reals
import Mathlib.Analysis.Complex.ExponentialBounds

namespace Bosched

open Lib

open scoped Numerals in
/-- The chunk size before it is rounded and clipped, with `c` for the square root of two. -/
noncomputable def cssFormula (c param : ℝ) (N P : Nat) : ℝ := (c * N * param / (P * √(Real.log P))) ^ (2 / 3 : ℝ)

/-- The constant chunk rule. -/
noncomputable def cssRule (c param : ℝ) (N P : Nat) : Nat := min N (max 1 ⌊cssFormula c param N P⌋₊)

/-- Both functions divide by something else than zero, convert a value in range, and return the size of the rule. -/
structure FollowsCssRule (c param : ℝ) (n p : Word) : Prop where
  denominator : (CDouble.ofULong p * CDouble.sqrt (CDouble.log (CDouble.ofULong p)) : ℝ) ≠ 0
  long : -2 ^ 63 ≤ truncateReal (cssRaw param (CDouble.ofLong n) p) ∧ truncateReal (cssRaw param (CDouble.ofLong n) p) < 2 ^ 63
  ulong : 0 ≤ truncateReal (cssRaw param (CDouble.ofULong n) p) ∧ truncateReal (cssRaw param (CDouble.ofULong n) p) < 2 ^ 64
  size : (cssChunkSize param n p).toNat = cssRule c param n.toNat p.toNat
  sizeUll : (cssChunkSizeUll param n p).toNat = cssRule c param n.toNat p.toNat

/-! ## The value -/

/-- The constant of the source. -/
noncomputable def cssRoot : ℝ := 1.414213562

theorem cssRoot_le_sqrt : cssRoot ≤ √2 := by
  unfold cssRoot
  exact Real.le_sqrt_of_sq_le (by norm_num)

theorem cssRoot_nonneg : 0 ≤ cssRoot := by
  unfold cssRoot
  norm_num

theorem cssRaw_real (param x : ℝ) (p : Word) :
    cssRaw param x p = (cssRoot * x * param / (p.toNat * √(Real.log p.toNat))) ^ (2 / 3 : ℝ) := by
  have hexp : (2.0 / 3.0 : ℝ) = 2 / 3 := by norm_num
  show ((1.414213562 : ℝ) * x * param / (p.toNat * √(Real.log p.toNat))) ^ (2.0 / 3.0 : ℝ) = _
  rw [hexp]
  rfl

theorem cssRaw_ofLong {n : Word} (hn : 0 ≤ n.toInt) (param : ℝ) (p : Word) :
    cssRaw param (CDouble.ofLong n) p = cssFormula cssRoot param n.toNat p.toNat := by
  have hcast : (CDouble.ofLong n : ℝ) = n.toNat := by
    show ((n.toInt : Int) : ℝ) = _
    rw [← toNat_of_toInt_nonneg hn, Int.cast_natCast]
  rw [hcast, cssRaw_real]
  rfl

theorem cssRaw_ofULong (param : ℝ) (n p : Word) :
    cssRaw param (CDouble.ofULong n) p = cssFormula cssRoot param n.toNat p.toNat := cssRaw_real param _ p

theorem cssFormula_base_nonneg {c param : ℝ} (hc : 0 ≤ c) (hparam : 0 < param) (N P : Nat) :
    0 ≤ c * N * param / (P * √(Real.log P)) := by positivity

theorem cssFormula_nonneg {c param : ℝ} (hc : 0 ≤ c) (hparam : 0 < param) (N P : Nat) : 0 ≤ cssFormula c param N P :=
  Real.rpow_nonneg (cssFormula_base_nonneg hc hparam N P) _

/-- A larger root makes the chunks larger. -/
theorem cssFormula_le {c c' param : ℝ} (hc : 0 ≤ c) (hle : c ≤ c') (hparam : 0 < param) (N P : Nat) :
    cssFormula c param N P ≤ cssFormula c' param N P := by
  refine Real.rpow_le_rpow (cssFormula_base_nonneg hc hparam N P) ?_ (by norm_num)
  gcongr

/-- The logarithm is zero exactly for a team of one thread. -/
theorem cssDenominator_ne_zero {P : Nat} (hP : 1 ≤ P) : (P : ℝ) * √(Real.log P) ≠ 0 ↔ 2 ≤ P := by
  constructor
  · intro h
    by_contra hlt
    obtain rfl : P = 1 := by omega
    refine h ?_
    rw [Nat.cast_one, Real.log_one, Real.sqrt_zero, mul_zero]
  · intro h
    have hlog : 0 < Real.log P := Real.log_pos (by exact_mod_cast h)
    have hpos : (0 : ℝ) < P := by exact_mod_cast hP
    positivity

/-! ## The clip -/

theorem toNat_clip {x n : Word} (hx : x.toNat < 2 ^ 63) (hn : 1 ≤ n.toInt) : (clip x 1 n).toNat = min n.toNat (max 1 x.toNat) := by
  have hxi : x.toInt = x.toNat := by
    rw [BitVec.toInt_eq_toNat_cond, if_pos (by omega)]
  have hni := toNat_of_toInt_nonneg (by omega : 0 ≤ n.toInt)
  have hone : (1 : Word).toInt = 1 := rfl
  have hone' : (1 : Word).toNat = 1 := rfl
  unfold clip
  split
  · rename_i h
    rw [BitVec.slt_iff_toInt_lt, hone] at h
    omega
  · rename_i h
    rw [BitVec.slt_iff_toInt_lt, hone] at h
    split
    · rename_i h'
      rw [BitVec.slt_iff_toInt_lt] at h'
      omega
    · rename_i h'
      rw [BitVec.slt_iff_toInt_lt] at h'
      omega

theorem toNat_clipUll {x n : Word} (hn : 1 ≤ n.toNat) : (clipUll x 1 n).toNat = min n.toNat (max 1 x.toNat) := by
  have hone : (1 : Word).toNat = 1 := rfl
  unfold clipUll
  split
  · rename_i h
    rw [BitVec.lt_def, hone] at h
    omega
  · rename_i h
    rw [BitVec.lt_def, hone] at h
    split
    · rename_i h'
      rw [gt_iff_lt, BitVec.lt_def] at h'
      omega
    · rename_i h'
      rw [gt_iff_lt, BitVec.lt_def] at h'
      omega

/-- Two values are clipped to the same size exactly if no number of the range lies between them. -/
theorem clip_floor_eq_iff {x y : ℝ} (hx : 0 ≤ x) (hxy : x ≤ y) (N : Nat) :
    min N (max 1 ⌊x⌋₊) = min N (max 1 ⌊y⌋₊) ↔ ¬ ∃ m : Nat, 2 ≤ m ∧ m ≤ N ∧ x < m ∧ m ≤ y := by
  have hfloor : ⌊x⌋₊ ≤ ⌊y⌋₊ := Nat.floor_le_floor hxy
  constructor
  · rintro heq ⟨m, h2, hN, hlt, hle⟩
    have h1 : ⌊x⌋₊ < m := (Nat.floor_lt hx).2 hlt
    have h2' : m ≤ ⌊y⌋₊ := Nat.le_floor hle
    omega
  · intro hnone
    by_contra hne
    -- the larger of the two sizes is such a number
    refine hnone ⟨min N (max 1 ⌊y⌋₊), by omega, min_le_left _ _, (Nat.floor_lt hx).1 (by omega), ?_⟩
    exact (Nat.le_floor_iff (hx.trans hxy)).1 (by omega)

/-! ## The rule -/

theorem cssChunkSize_eq {param : ℝ} {n p : Word} (hn : 1 ≤ n.toInt) (hparam : 0 < param)
    (hlt : cssFormula cssRoot param n.toNat p.toNat < 2 ^ 63) :
    (cssChunkSize param n p).toNat = cssRule cssRoot param n.toNat p.toNat ∧
      (cssChunkSizeUll param n p).toNat = cssRule cssRoot param n.toNat p.toNat := by
  have h0 := cssFormula_nonneg cssRoot_nonneg hparam n.toNat p.toNat
  have hnat := toNat_of_toInt_nonneg (by omega : 0 ≤ n.toInt)
  have hlong := toNat_toLong_real h0 hlt
  have hulong := toNat_toULong_real h0 (hlt.trans (by norm_num))
  unfold cssChunkSize cssChunkSizeUll cssRule
  rw [cssRaw_ofLong (by omega), cssRaw_ofULong, toNat_clip, toNat_clipUll (by omega), hlong, hulong]
  · exact ⟨rfl, rfl⟩
  · rw [hlong]
    exact (Nat.floor_lt h0).2 (by exact_mod_cast hlt)
  · exact hn

/-- Both functions follow the rule exactly if there are at least two threads, the value is below `2^63`, and no number of
iterations lies between the value with the rounded root and the one with the exact root. -/
theorem cssChunkSize_followsRule_iff (param : ℝ) (n p : Word) (hn : 1 ≤ n.toInt) (hp : 1 ≤ p.toNat) (hparam : 0 < param) :
    FollowsCssRule √2 param n p ↔ 2 ≤ p.toNat ∧ cssFormula cssRoot param n.toNat p.toNat < 2 ^ 63 ∧
      ¬ ∃ m : Nat, 2 ≤ m ∧ m ≤ n.toNat ∧ cssFormula cssRoot param n.toNat p.toNat < m ∧ m ≤ cssFormula √2 param n.toNat p.toNat := by
  have h0 := cssFormula_nonneg cssRoot_nonneg hparam n.toNat p.toNat
  have hle := cssFormula_le cssRoot_nonneg cssRoot_le_sqrt hparam n.toNat p.toNat
  have hrange : ∀ k : Nat, truncateReal (cssFormula cssRoot param n.toNat p.toNat) < 2 ^ k ↔
      cssFormula cssRoot param n.toNat p.toNat < 2 ^ k := fun k => by
    rw [truncateReal_of_nonneg h0]
    exact_mod_cast Nat.floor_lt h0 (n := 2 ^ k)
  have hnonneg : 0 ≤ truncateReal (cssFormula cssRoot param n.toNat p.toNat) := by
    rw [truncateReal_of_nonneg h0]
    exact Int.natCast_nonneg _
  constructor
  · intro h
    have hlong := h.long
    rw [cssRaw_ofLong (by omega)] at hlong
    have hlt := (hrange 63).1 hlong.2
    refine ⟨(cssDenominator_ne_zero hp).1 h.denominator, hlt, (clip_floor_eq_iff h0 hle _).1 ?_⟩
    rw [← show cssRule cssRoot param n.toNat p.toNat = min _ (max 1 ⌊_⌋₊) from rfl, ← (cssChunkSize_eq hn hparam hlt).1, h.size]
    rfl
  · rintro ⟨hP, hlt, hnone⟩
    have hsame : cssRule cssRoot param n.toNat p.toNat = cssRule √2 param n.toNat p.toNat :=
      (clip_floor_eq_iff h0 hle _).2 hnone
    obtain ⟨hsize, hsizeUll⟩ := cssChunkSize_eq (p := p) hn hparam hlt
    refine ⟨(cssDenominator_ne_zero hp).2 hP, ?_, ?_, hsize.trans hsame, hsizeUll.trans hsame⟩
    · rw [cssRaw_ofLong (by omega)]
      exact ⟨by omega, (hrange 63).2 hlt⟩
    · rw [cssRaw_ofULong]
      exact ⟨hnonneg, (hrange 64).2 (hlt.trans (by norm_num))⟩

/-- Two iterations on two threads with the parameter 1. -/
theorem cssChunkSize_followsRule_two : FollowsCssRule √2 1 2 2 := by
  have htwo : (2 : Word).toNat = 2 := rfl
  have hlog : 1 / 2 < Real.log 2 := by
    have := Real.log_two_gt_d9
    linarith
  -- the value is below 2, so both sizes are 1
  have hlt : cssFormula √2 1 2 2 < 2 := by
    have hbase : √2 * (2 : Nat) * 1 / ((2 : Nat) * √(Real.log (2 : Nat))) ≤ 2 := by
      have hroot : √2 ≤ 2 * √(Real.log 2) := by
        rw [show (2 : ℝ) * √(Real.log 2) = √(4 * Real.log 2) by
          rw [Real.sqrt_mul (by norm_num), show (4 : ℝ) = 2 ^ 2 by norm_num, Real.sqrt_sq (by norm_num)]]
        exact Real.sqrt_le_sqrt (by linarith)
      rw [Nat.cast_ofNat, div_le_iff₀ (by positivity)]
      linarith
    have hmono : cssFormula √2 1 2 2 ≤ (2 : ℝ) ^ (2 / 3 : ℝ) :=
      Real.rpow_le_rpow (cssFormula_base_nonneg (Real.sqrt_nonneg 2) one_pos 2 2) hbase (by norm_num)
    have hpow : (2 : ℝ) ^ (2 / 3 : ℝ) < 2 ^ (1 : ℝ) := Real.rpow_lt_rpow_of_exponent_lt (by norm_num) (by norm_num)
    rw [Real.rpow_one] at hpow
    exact hmono.trans_lt hpow
  refine (cssChunkSize_followsRule_iff 1 2 2 (by decide) (by decide) one_pos).2 ⟨by decide, ?_, ?_⟩
  · rw [htwo]
    exact ((cssFormula_le cssRoot_nonneg cssRoot_le_sqrt one_pos 2 2).trans_lt hlt).trans (by norm_num)
  · rintro ⟨m, h2, -, -, hle⟩
    rw [htwo] at hle
    have : (m : ℝ) < 2 := hle.trans_lt hlt
    have : m < 2 := by exact_mod_cast this
    omega

/-- One iteration on one thread: the denominator is `1 * sqrt(log(1))`. -/
theorem cssChunkSize_not_followsRule : ¬ ∀ (param : ℝ) (n p : Word), 1 ≤ n.toInt → 1 ≤ p.toNat → 0 < param →
    FollowsCssRule √2 param n p := by
  intro h
  refine (h 1 1 1 (by decide) (by decide) one_pos).denominator ?_
  show ((1 : Nat) : ℝ) * √(Real.log (1 : Nat)) = 0
  rw [Nat.cast_one, Real.log_one, Real.sqrt_zero, mul_zero]

end Bosched
