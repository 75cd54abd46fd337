/-
The best-fit chunk of `gomp_iter_hss_next`: the tasks of one call are the prefix of the remaining
tasks whose weight comes closest to a share of the remaining weight.
-/
import Bosched.Iter.Hss
import Bosched.Runtime.Rounded
import Bosched.Runtime.Weights

namespace Bosched

open Lib

theorem prefixWeight_int_mono (tasks : List U32) (j : Nat) : Monotone fun k => (prefixWeight tasks j k : Int) :=
  fun _ _ h => Int.ofNat_le.2 (prefixWeight_mono tasks j h)

/-- The scan from the `k`-th of `n` tasks on stops at the first cut where it need not go on. -/
theorem hssScan_spec {tasks : List U32} {ntasks j n : Nat} {c : Word} (hlen : ntasks ≤ tasks.length) (hn : j + n = ntasks)
    (hsum : prefixWeight tasks j n < 2 ^ 32) (hc : 0 ≤ c.toInt) :
    ∀ {fuel k : Nat} {cw : U32}, fuel = n - k → k ≤ n → 1 ≤ n → cw.toNat = prefixWeight tasks j k →
      (∀ m, 1 ≤ m → m ≤ k → m < n → GoesOn (fun m => (prefixWeight tasks j m : Int)) c.toInt m) →
      ∃ k' w, hssScan tasks ntasks c fuel (j + k) k cw = some (k', w) ∧ w.toNat = prefixWeight tasks j k' ∧
        1 ≤ k' ∧ k' ≤ n ∧ (∀ m, 1 ≤ m → m < k' → GoesOn (fun m => (prefixWeight tasks j m : Int)) c.toInt m) ∧
        StopsAt (fun m => (prefixWeight tasks j m : Int)) c.toInt n k'
  | 0, k, cw, hfuel, hk, hn1, hcw, hgo => by
    obtain rfl : k = n := by omega
    exact ⟨k, cw, rfl, hcw, hn1, le_refl _, fun m h1 h2 => hgo m h1 (le_of_lt h2) h2, .inl rfl⟩
  | fuel + 1, k, cw, hfuel, hk, hn1, hcw, hgo => by
    have hkn : k < n := by omega
    obtain ⟨w, hw⟩ : ∃ w, tasks[j + k]? = some w := ⟨_, List.getElem?_eq_getElem (by omega)⟩
    have hw1 := toNat_add_weight hcw hw hkn hsum
    have hi1 : ((cw + w).setWidth 64).toInt = (prefixWeight tasks j (k + 1) : Nat) := by
      rw [toInt_setWidth_weight, hw1]
    -- where the scan need not stop, the rest of it is the scan from the next task on
    have hnext : (k + 1 < n → GoesOn (fun m => (prefixWeight tasks j m : Int)) c.toInt (k + 1)) →
        ∃ k' w', hssScan tasks ntasks c fuel (j + k + 1) (k + 1) (cw + w) = some (k', w') ∧
          w'.toNat = prefixWeight tasks j k' ∧ 1 ≤ k' ∧ k' ≤ n ∧
          (∀ m, 1 ≤ m → m < k' → GoesOn (fun m => (prefixWeight tasks j m : Int)) c.toInt m) ∧
          StopsAt (fun m => (prefixWeight tasks j m : Int)) c.toInt n k' := by
      intro hgo1
      refine hssScan_spec hlen hn hsum hc (by omega) hkn hn1 hw1 fun m h1 h2 h3 => ?_
      rcases Nat.lt_or_eq_of_le h2 with h | rfl
      · exact hgo m h1 (by omega) h3
      · exact hgo1 h3
    have hstop : StopsAt (fun m => (prefixWeight tasks j m : Int)) c.toInt n (k + 1) →
        ∃ k' w', some (k + 1, cw + w) = some (k', w') ∧
          w'.toNat = prefixWeight tasks j k' ∧ 1 ≤ k' ∧ k' ≤ n ∧
          (∀ m, 1 ≤ m → m < k' → GoesOn (fun m => (prefixWeight tasks j m : Int)) c.toInt m) ∧
          StopsAt (fun m => (prefixWeight tasks j m : Int)) c.toInt n k' :=
      fun hs => ⟨k + 1, cw + w, rfl, hw1, by omega, hkn, fun m h1 h2 => hgo m h1 (by omega) (by omega), hs⟩
    have hi : j + k < ntasks := by omega
    by_cases hlast : k + 1 = n
    · -- after the last task the sentinel is zero
      have hw2 : hssW2 tasks ntasks (j + k) (cw + w) = some 0 := by
        unfold hssW2
        rw [if_neg (by omega)]
      have hle : ((0 : U32).setWidth 64).sle c = true := by
        rw [BitVec.sle_iff_toInt_le, toInt_setWidth_weight]
        exact hc
      simp only [hssScan, if_pos hi, hw, hw2, Option.bind_eq_bind, Option.bind_some, hle, if_true]
      exact hnext fun h => by omega
    · obtain ⟨w', hw'⟩ : ∃ w', tasks[j + (k + 1)]? = some w' := ⟨_, List.getElem?_eq_getElem (by omega)⟩
      have hw2 : hssW2 tasks ntasks (j + k) (cw + w) = some (cw + w + w') := by
        unfold hssW2
        rw [if_pos (by omega), show j + k + 1 = j + (k + 1) by omega, hw']
        rfl
      have hi2 : ((cw + w + w').setWidth 64).toInt = (prefixWeight tasks j (k + 1 + 1) : Nat) := by
        rw [toInt_setWidth_weight, toNat_add_weight hw1 hw' (by omega) hsum]
      have hmono : prefixWeight tasks j (k + 1) ≤ prefixWeight tasks j n := prefixWeight_mono _ j hkn
      have hmono2 : prefixWeight tasks j (k + 1 + 1) ≤ prefixWeight tasks j n := prefixWeight_mono _ j (by omega)
      have hcb := toInt_bounds c
      have hd1 : (c - (cw + w).setWidth 64).toInt = c.toInt - (prefixWeight tasks j (k + 1) : Nat) := by
        rw [toInt_sub_fits ⟨by rw [hi1]; omega, by rw [hi1]; omega⟩, hi1]
      have hd2 : ((cw + w + w').setWidth 64 - c).toInt = (prefixWeight tasks j (k + 1 + 1) : Nat) - c.toInt := by
        rw [toInt_sub_fits ⟨by rw [hi2]; omega, by rw [hi2]; omega⟩, hi2]
      simp only [hssScan, if_pos hi, hw, hw2, Option.bind_eq_bind, Option.bind_some]
      simp only [BitVec.sle_iff_toInt_le, BitVec.slt_iff_toInt_lt, hi1, hi2, hd1, hd2]
      split
      · rename_i hfits
        exact hnext fun _ => .inl hfits
      · rename_i hover
        split
        · rename_i hreached
          exact hstop (.inr (.inl hreached))
        · rename_i hbelow
          split
          · rename_i hfarther
            exact hstop (.inr (.inr ⟨not_le.1 hbelow, hfarther⟩))
          · rename_i hcloser
            exact hnext fun _ => .inr ⟨not_le.1 hbelow, not_lt.1 hcloser⟩

section

variable {D : Type} [CDouble D] {ι : Type}

/-- `chunksize` in the integers. -/
theorem toInt_hssChunksize {val : D → ℚ → Prop} (hD : Rounds val) {wremaining P : U32} (chunkSize : Word)
    (hP : 1 ≤ P.toInt) :
    (hssChunksize D wremaining (P.signExtend 64) chunkSize).toInt =
      max chunkSize.toInt ⌈(wremaining.toNat : ℚ) / (3 / 2 * P.toInt)⌉ := by
  have hw := wremaining.isLt
  have hext : (P.signExtend 64).toInt = P.toInt := BitVec.toInt_signExtend_of_le (by decide)
  have hP' : P.toInt < 2 ^ 31 := BitVec.toInt_lt
  have hceil := hD.ceil_div (w := wremaining.setWidth 64) (P := P.signExtend 64)
    ⟨by rw [toInt_setWidth_weight]; omega, by rw [toInt_setWidth_weight]; omega⟩ ⟨by rw [hext]; exact hP, by rw [hext]; exact hP'⟩
  rw [toInt_setWidth_weight, hext, Int.cast_natCast] at hceil
  unfold hssChunksize
  simp only [BitVec.slt_iff_toInt_lt, hceil]
  split
  · rename_i hlt
    rw [max_eq_left (le_of_lt hlt)]
  · rename_i hge
    rw [max_eq_right (not_lt.1 hge)]
    exact hceil

/-- With tasks left from `j` on, a call takes the prefix of them that best fits
`max(ws->chunk_size, ⌈wremaining / 1.5P⌉)`. -/
theorem gompIterHssNext_bestCut {val : D → ℚ → Prop} (hD : Rounds val) {g : Globals D} (team : Option U32)
    (ws : GompWorkShare D) {s : HssState} {j : Nat} (hlen : g.ntasks.toNat ≤ g.tasks.length)
    (hs : s.loopStart = BitVec.ofNat 64 j) (hj : j < g.ntasks.toNat) (hP : 1 ≤ (team.getD 1).toInt)
    (hsum : prefixWeight g.tasks j (g.ntasks.toNat - j) < 2 ^ 32) (i : ι) :
    ∃ k, BestCut (fun m => (prefixWeight g.tasks j m : Int))
        (max ws.chunkSize.toInt ⌈(s.wremaining.toNat : ℚ) / (3 / 2 * (team.getD 1).toInt)⌉) (g.ntasks.toNat - j) k ∧
      ∃ wremaining, gompIterHssNext g team ws i () s () =
          some (⟨BitVec.ofNat 64 (j + k), wremaining⟩, (), some (some (BitVec.ofNat 64 j, BitVec.ofNat 64 (j + k)))) ∧
        wremaining = s.wremaining - BitVec.ofNat 32 (prefixWeight g.tasks j k) ∧
        (prefixWeight g.tasks j k ≤ s.wremaining.toNat →
          wremaining.toNat = s.wremaining.toNat - prefixWeight g.tasks j k) := by
  have hN := g.ntasks.isLt
  have hwr := s.wremaining.isLt
  obtain ⟨c, hc⟩ : ∃ c, hssChunksize D s.wremaining ((team.getD 1).signExtend 64) ws.chunkSize = c := ⟨_, rfl⟩
  have hcv : c.toInt = max ws.chunkSize.toInt ⌈(s.wremaining.toNat : ℚ) / (3 / 2 * (team.getD 1).toInt)⌉ :=
    hc ▸ toInt_hssChunksize hD ws.chunkSize hP
  have hPq : (1 : ℚ) ≤ (team.getD 1).toInt := by exact_mod_cast hP
  have hc0 : 0 ≤ c.toInt := by
    rw [hcv]
    exact le_max_of_le_right (Int.ceil_nonneg (by positivity))
  -- the position as an index
  have hidx : (s.loopStart.setWidth 32).toNat = j := by
    rw [hs, BitVec.toNat_setWidth, BitVec.toNat_ofNat]
    omega
  have hcw : (0 : U32).toNat = prefixWeight g.tasks j 0 := (prefixWeight_zero _ j).symm
  obtain ⟨k, w, hscan, hw, hk1, hkn, hgo, hstop⟩ := hssScan_spec hlen (by omega : j + (g.ntasks.toNat - j) = g.ntasks.toNat)
    hsum hc0 rfl (Nat.zero_le _) (by omega) hcw (fun m h1 h2 => by omega)
  have hw' : w = BitVec.ofNat 32 (prefixWeight g.tasks j k) := by
    apply BitVec.eq_of_toNat_eq
    have := w.isLt
    rw [BitVec.toNat_ofNat, ← hw, Nat.mod_eq_of_lt this]
  refine ⟨k, hcv ▸ bestCut_of_scan (prefixWeight_int_mono _ j) hk1 hkn hgo hstop, s.wremaining - w, ?_, by rw [hw'], fun hle => ?_⟩
  · have hne : ¬ s.loopStart = g.ntasks.setWidth 64 := by
      intro h
      have := congrArg BitVec.toNat h
      rw [hs, BitVec.toNat_ofNat, BitVec.toNat_setWidth] at this
      omega
    have hpend : s.loopStart + BitVec.ofNat 64 k = BitVec.ofNat 64 (j + k) := by rw [hs, BitVec.ofNat_add]
    unfold gompIterHssNext
    simp only [hc, hidx, Nat.add_zero, Nat.sub_zero] at hscan ⊢
    simp only [hscan, Option.bind_eq_bind, Option.bind_some, hne, if_false, hpend, Option.pure_def]
    rw [hs]
  · rw [← hw] at hle ⊢
    rw [BitVec.toNat_sub]
    omega

end

/-- Two threads, three tasks of weights 5, 1, 1, of which 7 remain: the first task is closest to 3. -/
theorem gompIterHssNext_bestCut_first :
    ∃ g : Globals ℚ, g.tasks = [5, 1, 1] ∧ gompIterHssNext g (some 2) .zero () () ⟨0, 7⟩ () =
      some (⟨1, 2⟩, (), some (some (0, 1))) := by
  let g : Globals ℚ := { (Globals.fresh 2 : Globals ℚ) with ntasks := 3, tasks := [5, 1, 1] }
  let s : HssState := ⟨0, 7⟩
  have hlen : g.ntasks.toNat ≤ g.tasks.length := by decide
  have hs : s.loopStart = BitVec.ofNat 64 0 := rfl
  have hP : 1 ≤ ((some 2 : Option U32).getD 1).toInt := by decide
  obtain ⟨k, hk, w, hcall, hw, -⟩ := gompIterHssNext_bestCut (ι := Unit) rounds_exact (some 2) .zero hlen hs (by decide) hP
    (by decide) ()
  have hc : max (GompWorkShare.zero : GompWorkShare ℚ).chunkSize.toInt
      ⌈(s.wremaining.toNat : ℚ) / (3 / 2 * ((some 2 : Option U32).getD 1).toInt)⌉ = 3 := by decide +kernel
  rw [hc] at hk
  have hk3 : k ≤ 3 := hk.le
  have hpos := hk.pos
  -- the first prefix is closer than the others
  have hfirst := hk.best 1 (le_refl 1) (by decide)
  obtain rfl : k = 1 := by
    interval_cases k
    · rfl
    · exact absurd hfirst (by decide)
    · exact absurd hfirst (by decide)
  have hleft : s.wremaining - BitVec.ofNat 32 (prefixWeight g.tasks 0 1) = 2 := by decide
  exact ⟨g, rfl, by rw [hcall, hw, hleft]; rfl⟩

end Bosched
