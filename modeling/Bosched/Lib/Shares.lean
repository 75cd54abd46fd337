/-
Loops that are cut at fixed places: from each position a function says where the chunk that starts there ends. Whoever
takes the chunks, and in whatever order the takers come, they are the same. Under the rule of the guided schedules, by
which a chunk is a share of what is left, they never grow.
-/
import Bosched.Lib.Progression

namespace Bosched.Lib

namespace Loop

/-! ## The places -/

/-- The chunk that starts at a position ends at a later one. -/
structure CutBy (l : Loop) (cut : Nat → Nat) : Prop where
  lt : ∀ {k}, k < l.trip → k < cut k
  le : ∀ {k}, k < l.trip → cut k ≤ l.trip

/-- The first `m` chunks. -/
def cuts (l : Loop) (cut : Nat → Nat) (m : Nat) : List (Int × Int) :=
  (List.range m).map fun j => (l.pos (cut^[j] 0), l.pos (cut^[j + 1] 0))

variable {l : Loop} {cut : Nat → Nat} {m : Nat}

theorem cuts_succ : l.cuts cut (m + 1) = l.cuts cut m ++ [(l.pos (cut^[m] 0), l.pos (cut (cut^[m] 0)))] := by
  unfold cuts
  rw [List.range_succ, List.map_append, List.map_singleton, Function.iterate_succ_apply']

theorem CutBy.claimed (h : l.CutBy cut) : ∀ {m}, (∀ j < m, cut^[j] 0 < l.trip) → Claimed l (l.cuts cut m) (cut^[m] 0)
  | 0, _ => .nil
  | m + 1, hm => by
    rw [cuts_succ, Function.iterate_succ_apply']
    exact (h.claimed fun j hj => hm j (by omega)).snoc (h.lt (hm m (by omega))) (h.le (hm m (by omega)))

/-! ## Shares of what is left -/

/-- A chunk has `share n` iterations, where `n` strides are left, as long as there are so many. -/
def shareCut (l : Loop) (share : Nat → Nat) (k : Nat) : Nat :=
  let n := ((l.fin - l.value k).tdiv l.incr).toNat
  if share n ≤ n then k + share n else l.trip

variable {share : Nat → Nat} {k : Nat}

/-- At most one iteration is left beyond the strides that are. -/
theorem trip_le_left (hk : k < l.trip) : l.trip ≤ k + ((l.fin - l.value k).tdiv l.incr).toNat + 1 := by
  let n := ((l.fin - l.value k).tdiv l.incr).toNat
  by_contra hn
  have hlt : k + (n + 1) < l.trip := by
    show k + (((l.fin - l.value k).tdiv l.incr).toNat + 1) < l.trip
    omega
  have hsub := l.tdiv_value_add hlt
  have h0 := l.tdiv_nonneg hlt
  have hnat := Int.toNat_of_nonneg (l.tdiv_nonneg hk)
  change (n : Int) = _ at hnat
  push_cast at hsub
  omega

/-- The strides that are left end within the loop. -/
theorem left_le_trip (hk : k < l.trip) {q : Nat} (h1 : 1 ≤ q) (hq : q ≤ ((l.fin - l.value k).tdiv l.incr).toNat) :
    k + q ≤ l.trip := by
  have hnat := Int.toNat_of_nonneg (l.tdiv_nonneg hk)
  have := l.add_lt_trip hk (c := q - 1) (by omega)
  omega

/-- Where the strides that are left end is a position of the loop. -/
theorem pos_add_left (hk : k < l.trip) {q : Nat} (h1 : 1 ≤ q) (hq : q ≤ ((l.fin - l.value k).tdiv l.incr).toNat) :
    l.pos (k + q) = l.value k + q * l.incr := by
  rw [← l.value_add]
  rcases Nat.lt_or_ge (k + q) l.trip with hlt | hge
  · exact l.pos_of_lt hlt
  · -- past the last iteration the loop is at its end, if it steps onto it
    have htrip : k + q = l.trip := le_antisymm (left_le_trip hk h1 hq) hge
    rw [htrip, l.pos_trip]
    have hnat := Int.toNat_of_nonneg (l.tdiv_nonneg hk)
    have hval : l.value l.trip = l.value k + q * l.incr := by rw [← htrip, l.value_add]
    have hnot : ¬ Before l.incr (l.value l.trip) l.fin := (l.before_fin_iff l.trip).not.2 (lt_irrefl _)
    have hb := (l.before_fin_iff k).2 hk
    have hqn : (q : Int) ≤ (l.fin - l.value k).tdiv l.incr := by omega
    apply eq_of_not_before (fun hfin => ?_) hnot
    by_cases hp : 0 < l.incr
    · rw [before_pos hp] at hfin hb
      rw [Int.tdiv_eq_ediv_of_nonneg (by omega), Int.le_ediv_iff_mul_le hp] at hqn
      omega
    · have h0 : 0 < -l.incr := by have := l.incr_ne; omega
      rw [before_neg hp] at hfin hb
      rw [← Int.neg_tdiv_neg, Int.tdiv_eq_ediv_of_nonneg (by omega), Int.le_ediv_iff_mul_le h0, Int.mul_neg] at hqn
      omega

theorem cutBy_share (h : ∀ n, 1 ≤ share n) : l.CutBy (l.shareCut share) where
  lt := by
    intro k hk
    unfold shareCut
    dsimp only
    split
    · have := h ((l.fin - l.value k).tdiv l.incr).toNat
      omega
    · exact hk
  le := by
    intro k hk
    unfold shareCut
    dsimp only
    split
    · rename_i hle
      exact left_le_trip hk (h _) hle
    · exact le_refl _

/-! ### The sizes -/

/-- The number of iterations of chunk `j`. -/
def cutSize (cut : Nat → Nat) (j : Nat) : Nat := cut^[j + 1] 0 - cut^[j] 0

theorem cuts_sizes (h : l.CutBy cut) (hm : ∀ j < m, cut^[j] 0 < l.trip) :
    (l.cuts cut m).map (fun c => (l.chunk c).trip) = (List.range m).map (cutSize cut) := by
  unfold cuts
  rw [List.map_map]
  apply List.map_congr_left
  intro j hj
  have hj := hm j (List.mem_range.1 hj)
  show (l.chunk (l.pos (cut^[j] 0), l.pos (cut^[j + 1] 0))).trip = _
  have hsucc : cut^[j + 1] 0 = cut (cut^[j] 0) := Function.iterate_succ_apply' ..
  rw [l.chunk_trip (by rw [hsucc]; exact h.lt hj) (by rw [hsucc]; exact h.le hj)]
  rfl

/-- A chunk has the share it starts with, unless it is the last one, which may have less. -/
theorem shareCut_sub (share : Nat → Nat) (hk : k < l.trip) :
    let n := ((l.fin - l.value k).tdiv l.incr).toNat
    l.shareCut share k - k ≤ share n ∧ (l.shareCut share k < l.trip → l.shareCut share k - k = share n) := by
  intro n
  have htrip : l.trip ≤ k + n + 1 := trip_le_left hk
  have hcut : l.shareCut share k = if share n ≤ n then k + share n else l.trip := rfl
  rw [hcut]
  split <;> omega

/-- The strides that are left of a whole loop. -/
def strides (l : Loop) : Nat := ((l.fin - l.start).tdiv l.incr).toNat

theorem left_le_strides (hk : k < l.trip) : ((l.fin - l.value k).tdiv l.incr).toNat ≤ l.strides := by
  have hsub := l.tdiv_value_add (k := 0) (c := k) (by omega)
  rw [Nat.zero_add, l.value_zero] at hsub
  unfold strides
  omega

/-- Shares that grow with what is left make chunks that never grow. -/
theorem cutSize_succ_le (h : ∀ n, 1 ≤ share n) (hmono : MonotoneOn share (Set.Iic l.strides)) {j : Nat}
    (hk : (l.shareCut share)^[j] 0 < l.trip) (hj : (l.shareCut share)^[j + 1] 0 < l.trip) :
    cutSize (l.shareCut share) (j + 1) ≤ cutSize (l.shareCut share) j := by
  unfold cutSize
  rw [Function.iterate_succ_apply' _ (j + 1)]
  rw [Function.iterate_succ_apply'] at hj ⊢
  generalize (l.shareCut share)^[j] 0 = k at hk hj ⊢
  have hlt := (cutBy_share h).lt hk
  have hsize := (shareCut_sub share hk).2 hj
  have hnext := (shareCut_sub share hj).1
  -- less is left than before
  have hsub : (l.fin - l.value (l.shareCut share k)).tdiv l.incr =
      (l.fin - l.value k).tdiv l.incr - ((l.shareCut share k - k : Nat) : Int) := by
    have hadd := l.tdiv_value_add (k := k) (c := l.shareCut share k - k) (by omega)
    rwa [Nat.add_sub_cancel' (le_of_lt hlt)] at hadd
  have hshare := hmono (left_le_strides hj) (left_le_strides hk)
    (show ((l.fin - l.value (l.shareCut share k)).tdiv l.incr).toNat ≤ ((l.fin - l.value k).tdiv l.incr).toNat by omega)
  omega

/-- In the order in which they are taken the chunks never grow. -/
theorem cuts_sorted (h : ∀ n, 1 ≤ share n) (hmono : MonotoneOn share (Set.Iic l.strides))
    (hm : ∀ j < m, (l.shareCut share)^[j] 0 < l.trip) :
    ((l.cuts (l.shareCut share) m).map fun c => (l.chunk c).trip).Pairwise (· ≥ ·) := by
  rw [cuts_sizes (cutBy_share h) hm, List.pairwise_map]
  have hle : ∀ d i, i + d < m → cutSize (l.shareCut share) (i + d) ≤ cutSize (l.shareCut share) i := by
    intro d i hd
    induction d with
    | zero => exact le_refl _
    | succ d ih =>
      have hstep := cutSize_succ_le h hmono (hm (i + d) (by omega)) (hm (i + d + 1) hd)
      exact le_trans hstep (ih (by omega))
  refine List.Pairwise.imp_of_mem (fun {i j} _ hj hij => ?_) List.pairwise_lt_range
  obtain ⟨d, rfl⟩ : ∃ d, j = i + d := ⟨j - i, by omega⟩
  exact hle d i (List.mem_range.1 hj)

/-- All chunks but the last have their share. -/
theorem cuts_full (h : ∀ n, 1 ≤ share n) (hm : ∀ j < m, (l.shareCut share)^[j] 0 < l.trip) {b : Nat}
    (hb : ∀ n, b ≤ share n) :
    ∀ z ∈ ((l.cuts (l.shareCut share) m).map fun c => (l.chunk c).trip).dropLast, b ≤ z := by
  rw [cuts_sizes (cutBy_share h) hm]
  intro z hz
  cases m with
  | zero => exact absurd hz List.not_mem_nil
  | succ m =>
    rw [List.range_succ, List.map_append, List.map_singleton, List.dropLast_concat] at hz
    obtain ⟨j, hj, rfl⟩ := List.mem_map.1 hz
    have hj := List.mem_range.1 hj
    have hnext := hm (j + 1) (by omega)
    unfold cutSize
    rw [Function.iterate_succ_apply'] at hnext ⊢
    rw [(shareCut_sub share (hm j (by omega))).2 hnext]
    exact hb _

end Loop

end Bosched.Lib
