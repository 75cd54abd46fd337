/-
The positions `0, …, n - 1` given to `P` workers in blocks `[a, b)`: as evenly as possible, each
worker one block, or in turn, blocks of `c` positions one after the other. Either way the blocks of
all workers together are the positions, each once.
-/
import Mathlib.Data.List.FinRange
import Mathlib.Tactic

namespace Bosched.Lib

/-! ## Lists by key -/

/-- A list is made up of its parts by key. -/
theorem perm_flatMap_filter {α κ : Type} [DecidableEq κ] (f : α → κ) {keys : List κ} (hkeys : keys.Nodup) :
    ∀ {xs : List α}, (∀ x ∈ xs, f x ∈ keys) → (keys.flatMap fun k => xs.filter fun x => f x = k).Perm xs := by
  induction keys with
  | nil =>
    intro xs hcover
    rw [List.eq_nil_iff_forall_not_mem.2 fun x hx => nomatch hcover x hx]
    exact .nil
  | cons k keys ih =>
    intro xs hcover
    obtain ⟨hk, hkeys⟩ := List.nodup_cons.1 hkeys
    have hrest : (keys.flatMap fun k' => xs.filter fun x => f x = k') =
        keys.flatMap fun k' => (xs.filter fun x => ¬ f x = k).filter fun x => f x = k' := by
      refine List.flatMap_congr fun k' hk' => ?_
      have hne : k' ≠ k := fun h => hk (h ▸ hk')
      rw [List.filter_filter]
      refine List.filter_congr fun x _ => ?_
      by_cases hx : f x = k'
      · simp [hx, hne]
      · simp [hx]
    rw [List.flatMap_cons, hrest]
    have hih : (keys.flatMap fun k' => (xs.filter fun x => ¬ f x = k).filter fun x => f x = k').Perm
        (xs.filter fun x => ¬ f x = k) := ih hkeys fun x hx => by
      obtain ⟨hmem, hne⟩ := List.mem_filter.1 hx
      exact (List.mem_cons.1 (hcover x hmem)).resolve_left (of_decide_eq_true hne)
    refine (hih.append_left _).trans ?_
    have hsplit := List.filter_append_perm (fun x => decide (f x = k)) xs
    simpa using hsplit

/-! ## Blocks -/

/-- The positions of a block. -/
def blockIndices (b : Nat × Nat) : List Nat := List.range' b.1 (b.2 - b.1)

/-- Consecutive blocks are the positions up to the last bound. -/
theorem flatMap_consecutive {f : Nat → Nat} (h0 : f 0 = 0) (hmono : Monotone f) :
    ∀ m, ((List.range m).flatMap fun j => blockIndices (f j, f (j + 1))) = List.range (f m)
  | 0 => by rw [h0]; rfl
  | m + 1 => by
    have hle : f m ≤ f (m + 1) := hmono (Nat.le_succ m)
    rw [List.range_succ, List.flatMap_append, flatMap_consecutive h0 hmono m, List.flatMap_singleton]
    show List.range (f m) ++ List.range' (f m) (f (m + 1) - f m) = List.range (f (m + 1))
    have happ := List.range'_append_1 (s := 0) (m := f m) (n := f (m + 1) - f m)
    rwa [Nat.zero_add, Nat.add_sub_cancel' hle, ← List.range_eq_range', ← List.range_eq_range'] at happ

/-- Where the share of worker `i` starts when `n` positions are shared out evenly. -/
def evenStart (n P i : Nat) : Nat := n / P * i + min i (n % P)

theorem evenStart_zero (n P : Nat) : evenStart n P 0 = 0 := by simp [evenStart]

theorem evenStart_last (n : Nat) {P : Nat} (hP : 0 < P) : evenStart n P P = n := by
  unfold evenStart
  rw [Nat.min_eq_right (le_of_lt (Nat.mod_lt n hP)), Nat.div_add_mod']

theorem evenStart_succ (n P i : Nat) :
    evenStart n P (i + 1) = evenStart n P i + n / P + if i < n % P then 1 else 0 := by
  unfold evenStart
  rw [Nat.mul_succ]
  split <;> omega

theorem evenStart_mono (n P : Nat) : Monotone (evenStart n P) :=
  monotone_nat_of_le_succ fun i => by
    rw [evenStart_succ, Nat.add_assoc]
    exact Nat.le_add_right _ _

/-- Block `m` of `c` positions, the last one cut off at `n`. -/
def turnBlock (n c m : Nat) : Nat × Nat := (min (m * c) n, min ((m + 1) * c) n)

/-- Block `m` of worker `i`: of the even shares, where `c` is zero, and else the blocks in turn. -/
def workerBlock (n P c i m : Nat) : Option (Nat × Nat) :=
  if c = 0 then
    if m = 0 ∧ evenStart n P i < evenStart n P (i + 1) then some (evenStart n P i, evenStart n P (i + 1)) else none
  else if (m * P + i) * c < n then some (turnBlock n c (m * P + i)) else none

/-- `bs` are all the blocks of worker `i`. -/
structure AllBlocks (n P c i : Nat) (bs : List (Nat × Nat)) : Prop where
  block : ∀ m < bs.length, workerBlock n P c i m = bs[m]?
  last : workerBlock n P c i bs.length = none

theorem workerBlock_bounds {n P c i m : Nat} {b : Nat × Nat} (hi : i < P) (h : workerBlock n P c i m = some b) :
    b.1 < b.2 ∧ b.2 ≤ n := by
  unfold workerBlock at h
  split at h
  · split at h
    · rename_i hlt
      cases h
      refine ⟨hlt.2, ?_⟩
      calc evenStart n P (i + 1) ≤ evenStart n P P := evenStart_mono n P hi
        _ = n := evenStart_last n (by omega)
    · cases h
  · split at h
    · rename_i hc hlt
      cases h
      unfold turnBlock
      rw [Nat.succ_mul]
      omega
    · cases h

theorem AllBlocks.even {n P i : Nat} {bs : List (Nat × Nat)} (h : AllBlocks n P 0 i bs) :
    bs.flatMap blockIndices = blockIndices (evenStart n P i, evenStart n P (i + 1)) := by
  have hstep := evenStart_mono n P (Nat.le_succ i)
  have hone : ∀ m, 0 < m → workerBlock n P 0 i m = none := fun m hm => by
    unfold workerBlock
    rw [if_pos rfl, if_neg (by omega)]
  match bs with
  | [] =>
    have hlast := h.last
    unfold workerBlock at hlast
    rw [if_pos rfl, List.length_nil] at hlast
    split at hlast
    · cases hlast
    · rename_i hnot
      unfold blockIndices
      rw [show evenStart n P (i + 1) - evenStart n P i = 0 by omega]
      rfl
  | [b] =>
    have hb : workerBlock n P 0 i 0 = some b := h.block 0 (by simp)
    unfold workerBlock at hb
    rw [if_pos rfl] at hb
    split at hb
    · cases hb
      rw [List.flatMap_singleton]
    · cases hb
  | b :: b' :: bs =>
    have hb' : workerBlock n P 0 i 1 = some b' := h.block 1 (by simp)
    rw [hone 1 one_pos] at hb'
    cases hb'

theorem AllBlocks.turns {n P c i : Nat} {bs : List (Nat × Nat)} (hc : 0 < c) (hi : i < P) (h : AllBlocks n P c i bs) :
    bs.Perm (((List.range ((n + c - 1) / c)).filter fun m => m % P = i).map (turnBlock n c)) := by
  have hlt : ∀ m, m * c < n ↔ m < (n + c - 1) / c := fun m => by
    rw [Nat.lt_iff_add_one_le, Nat.lt_iff_add_one_le (m := m), Nat.le_div_iff_mul_le hc, Nat.succ_mul]
    omega
  have hblock : ∀ m, workerBlock n P c i m = if (m * P + i) * c < n then some (turnBlock n c (m * P + i)) else none := by
    intro m
    unfold workerBlock
    rw [if_neg (by omega)]
  have hbs : bs = (List.range bs.length).map fun m => turnBlock n c (m * P + i) := by
    refine List.ext_getElem? fun m => ?_
    rcases Nat.lt_or_ge m bs.length with hm | hm
    · have hb := h.block m hm
      rw [hblock, List.getElem?_eq_getElem hm] at hb
      split at hb
      · rw [List.getElem?_eq_getElem hm, ← Option.some.inj hb]
        simp [hm]
      · cases hb
    · rw [List.getElem?_eq_none hm, List.getElem?_eq_none (by simpa using hm)]
  rw [hbs, show (fun m => turnBlock n c (m * P + i)) = turnBlock n c ∘ fun m => m * P + i from rfl, ← List.map_map]
  refine List.Perm.map _ ((List.perm_ext_iff_of_nodup ?_ (List.nodup_range.filter _)).2 fun m => ?_)
  · refine List.nodup_range.map fun a b hab => ?_
    have hmul : a * P = b * P := by simpa using hab
    exact Nat.eq_of_mul_eq_mul_right (by omega) hmul
  · rw [List.mem_map, List.mem_filter, List.mem_range, ← hlt]
    simp only [List.mem_range, decide_eq_true_eq]
    constructor
    · rintro ⟨t, ht, rfl⟩
      have hb := h.block t ht
      rw [hblock, List.getElem?_eq_getElem ht] at hb
      refine ⟨?_, by rw [Nat.mul_add_mod', Nat.mod_eq_of_lt hi]⟩
      split at hb
      · assumption
      · cases hb
    · rintro ⟨hm, rfl⟩
      refine ⟨m / P, ?_, Nat.div_add_mod' m P⟩
      by_contra hge
      have hlast := h.last
      rw [hblock] at hlast
      split at hlast
      · cases hlast
      · rename_i hnot
        have hle : bs.length * P ≤ m / P * P := Nat.mul_le_mul_right P (not_lt.1 hge)
        have hdm := Nat.div_add_mod' m P
        exact hnot (lt_of_le_of_lt (Nat.mul_le_mul_right c (by omega)) hm)

theorem finRange_flatMap {α : Type} (P : Nat) (f : Nat → List α) :
    ((List.finRange P).flatMap fun i => f i.val) = (List.range P).flatMap f := by
  rw [← List.map_coe_finRange_eq_range, List.flatMap_map]

/-- All the blocks of all workers are the positions, each once. -/
theorem AllBlocks.perm {n P c : Nat} (hP : 0 < P) {bs : Fin P → List (Nat × Nat)} (h : ∀ i, AllBlocks n P c i.val (bs i)) :
    (((List.finRange P).flatMap bs).flatMap blockIndices).Perm (List.range n) := by
  rcases Nat.eq_zero_or_pos c with rfl | hc
  · rw [List.flatMap_assoc, List.flatMap_congr fun i _ => (h i).even,
      finRange_flatMap P fun i => blockIndices (evenStart n P i, evenStart n P (i + 1)),
      flatMap_consecutive (evenStart_zero n P) (evenStart_mono n P), evenStart_last n hP]
  · have hperm : ((List.finRange P).flatMap bs).Perm ((List.range ((n + c - 1) / c)).map (turnBlock n c)) := by
      have hparts : ((List.range P).flatMap fun i => (List.range ((n + c - 1) / c)).filter fun m => m % P = i).Perm
          (List.range ((n + c - 1) / c)) :=
        perm_flatMap_filter (fun m => m % P) List.nodup_range fun m _ => List.mem_range.2 (Nat.mod_lt m hP)
      rw [← finRange_flatMap P fun i => (List.range ((n + c - 1) / c)).filter fun m => m % P = i] at hparts
      refine (List.Perm.flatMap_left _ fun i _ => (h i).turns hc i.isLt).trans ?_
      have hmap := hparts.map (turnBlock n c)
      rwa [List.map_flatMap] at hmap
    have hend : min ((n + c - 1) / c * c) n = n := by
      have := Nat.div_add_mod' (n + c - 1) c
      have := Nat.mod_lt (n + c - 1) hc
      omega
    refine (hperm.flatMap_right _).trans ?_
    rw [List.flatMap_map]
    have hcons := flatMap_consecutive (f := fun m => min (m * c) n) (by simp)
      (fun a b hab => by have := Nat.mul_le_mul_right c hab; show min _ _ ≤ min _ _; omega) ((n + c - 1) / c)
    rw [hend] at hcons
    rw [← hcons]
    exact .refl _

end Bosched.Lib
