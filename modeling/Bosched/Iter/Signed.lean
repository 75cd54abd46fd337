/-
The `long` iterators: whatever double arithmetic makes of the chunk sizes, and however the
threads' atomic steps interleave, the chunks returned by the time every thread was told that
there is no more work tile the loop.
-/
import Bosched.Iter.CasInvariant
import Bosched.Runtime.Exact

namespace Bosched

open Lib

/-! ## The loop of a work share -/

theorem toInt_ne_zero {a : Word} (h : a ≠ 0) : a.toInt ≠ 0 := by
  intro h0
  exact h (BitVec.toInt_inj.1 (by rw [h0]; rfl))

/-- `for (i = start; i before end; i += incr)` over `long`. -/
def signedLoop (start fin incr : Word) (h : incr ≠ 0) : Loop := ⟨start.toInt, fin.toInt, incr.toInt, toInt_ne_zero h⟩

/-- A loop whose end is behind its start in its direction ends at its start. -/
theorem canonicalEnd_eq (start fin incr : Word) :
    canonicalEnd start fin incr = if incr ≠ 0 ∧ Before incr.toInt fin.toInt start.toInt then start else fin := by
  have h0 : (0#64).toInt = 0 := rfl
  unfold canonicalEnd
  simp only [Bool.or_eq_true, Bool.and_eq_true, BitVec.slt_iff_toInt_lt, h0]
  congr 1
  unfold Before
  have hz : incr = 0 ↔ incr.toInt = 0 :=
    ⟨fun h => by rw [h]; rfl, fun h => BitVec.toInt_inj.1 (by rw [h]; rfl)⟩
  rw [ne_eq, hz, eq_iff_iff]
  split <;> omega

/-- The end of a work share is never behind its start. -/
theorem not_before_canonicalEnd (start fin : Word) {incr : Word} (h : incr ≠ 0) :
    ¬ Before incr.toInt (canonicalEnd start fin incr).toInt start.toInt := by
  rw [canonicalEnd_eq]
  split
  · exact before_irrefl _ _
  · rename_i hb
    exact fun hb' => hb ⟨h, hb'⟩

theorem subFits_canonicalEnd {start fin incr : Word} (h : SubFits fin start) :
    SubFits (canonicalEnd start fin incr) start := by
  rw [canonicalEnd_eq]
  split
  · unfold SubFits; omega
  · exact h

/-- What tiles the loop a work share runs tiles the loop of the program. -/
theorem tiles_of_canonicalEnd {start fin incr : Word} (h : incr ≠ 0) {cs : List (Int × Int)}
    (ht : Tiles (signedLoop start (canonicalEnd start fin incr) incr h) cs) :
    Tiles (signedLoop start fin incr h) cs := by
  rw [canonicalEnd_eq] at ht
  split at ht
  · rename_i hb
    have htrip : (signedLoop start fin incr h).trip = 0 :=
      ((signedLoop start fin incr h).trip_eq_zero_iff).2 hb.2.asymm
    rw [ht.eq_nil rfl]
    exact tiles_nil htrip
  · exact ht

/-! ## The arithmetic of the iterators -/

/-- A chunk below the remaining count ends on the position that many iterations further. -/
theorem long_advance {D : Type} {ws : GompWorkShare D} {start s chunk R : Word} {k : Nat} (h : ws.incr ≠ 0)
    (hfits : SubFits ws.fin start) (hk : k < (signedLoop start ws.fin ws.incr h).trip)
    (hs : s.toInt = (signedLoop start ws.fin ws.incr h).value k) (hR : (View.long ws).remaining s = some R)
    (hlt : chunk < R) :
    k + chunk.toNat < (signedLoop start ws.fin ws.incr h).trip ∧
      ((View.long ws).advance s chunk).toInt = s.toInt + chunk.toNat * ws.incr.toInt := by
  let l := signedLoop start ws.fin ws.incr h
  change k < l.trip at hk
  change s.toInt = l.value k at hs
  have hfin : l.fin = ws.fin.toInt := rfl
  have hincr : l.incr = ws.incr.toInt := rfl
  have hstart : l.start = start.toInt := rfl
  have hbetween := l.value_between hk
  -- the remaining distance fits, since the whole one does
  have hsub : SubFits ws.fin s := by
    unfold SubFits at hfits ⊢
    omega
  obtain ⟨-, hRint⟩ := ldiv_some hR
  rw [toInt_sub_fits hsub, hs, ← hfin, ← hincr] at hRint
  have hR0 : 0 ≤ R.toInt := by rw [hRint]; exact l.tdiv_nonneg hk
  have hchunk : (chunk.toNat : Int) < (l.fin - l.value k).tdiv l.incr := by
    rw [← hRint, ← toNat_of_toInt_nonneg hR0]
    exact_mod_cast hlt
  have hq : k + chunk.toNat < l.trip := l.add_lt_trip hk hchunk
  have hval : s.toInt + chunk.toNat * ws.incr.toInt = l.value (k + chunk.toNat) := by
    rw [hs, l.value_add, hincr]
  have hbetween' := l.value_between hq
  have hb1 := toInt_bounds ws.fin
  have hb2 := toInt_bounds start
  exact ⟨hq, toInt_add_mul (by rw [hval]; omega) (by rw [hval]; omega)⟩

/-- The `long` arithmetic stays on the loop's positions, for every chunk size. -/
theorem long_sound {D : Type} {ws : GompWorkShare D} {start : Word} (h : ws.incr ≠ 0) (hfits : SubFits ws.fin start) :
    (View.long ws).Sound BitVec.toInt (signedLoop start ws.fin ws.incr h) (fun _ _ => True) where
  fin := rfl
  inj h := BitVec.toInt_inj.1 h
  claim := by
    intro s chunk R k hs hk hR hc _
    let l := signedLoop start ws.fin ws.incr h
    unfold View.nend
    by_cases hlt : chunk < R
    · rw [l.pos_of_lt hk] at hs
      obtain ⟨hq, hadv⟩ := long_advance h hfits hk hs hR hlt
      refine ⟨k + chunk.toNat, ?_, le_of_lt hq, ?_⟩
      · have : chunk.toNat ≠ 0 := fun h0 => hc (BitVec.eq_of_toNat_eq h0)
        omega
      · rw [if_pos hlt, l.pos_of_lt hq, hadv, hs, l.value_add]
        rfl
    · refine ⟨l.trip, hk, le_refl _, ?_⟩
      rw [if_neg hlt, l.pos_trip]
      rfl

/-! ## Whole runs -/

section

variable {D : Type} [CDouble D] {ι : Type}

theorem boIterNext_keeps (it : CasIter) (ws : GompWorkShare D) (team : Option U32) {l : Loop}
    (hs : (View.long ws).Sound BitVec.toInt l fun _ _ => True) :
    Keeps (View.long ws) BitVec.toInt l ws.next it.live (fun _ _ => True)
      (boIterNext it ws team : Prog ι Unit Cells Local Ret) := by
  cases it with
  | fac2 => exact hs.batchedNext _ _ _
  | fss => exact hs.batchedNext _ _ _
  | tss => exact hs.ticketNext _ (tssChunk_ne_zero _ _)
  | tape => exact hs.guidedNext _ (tapeChunk_ne_zero _ _)

/-- The invariant of every run over an initialised work share. -/
theorem boIterNext_reach [DecidableEq ι] {g g' : Globals D} {team team' : Option U32} {now : Int} {ws ws' : GompWorkShare D}
    {start fin incr chunkSize : Word} {sched : GompScheduleType} {r : RegionId} (it : CasIter)
    (hincr : incr ≠ 0) (hfits : SubFits (canonicalEnd start fin incr) start)
    (hinit : gompLoopInit g team now ws start fin incr sched chunkSize r = some (g', ws'))
    {c : Cfg ι Cells Local Ret} (hr : Reach (boIterNext it ws' team') (entry ws') c) :
    Shared (View.long ws') BitVec.toInt (signedLoop start (canonicalEnd start fin incr) incr hincr) ws'.next it.live
      c.shared c.log := by
  have hsame := gompLoopInit_sameLoop hinit
  have hnext : ws'.next = start := hsame.next
  have hfin : ws'.fin = canonicalEnd start fin incr := hsame.fin
  have hinc : ws'.incr = incr := hsame.incr
  have hincr' : ws'.incr ≠ 0 := by rw [hinc]; exact hincr
  have hl : signedLoop start (canonicalEnd start fin incr) incr hincr = signedLoop start ws'.fin ws'.incr hincr' := by
    simp only [signedLoop, hfin, hinc]
  have hsound := long_sound hincr' (by rw [hfin]; exact hfits : SubFits ws'.fin start)
  rw [hl]
  -- the first position is the start, also of a loop without iterations
  have hstart : ws'.next.toInt = (signedLoop start ws'.fin ws'.incr hincr').pos 0 := by
    rw [hnext, Loop.pos_zero]
    · rfl
    · rw [← hl]
      exact not_before_canonicalEnd start fin hincr
  have hk := boIterNext_keeps it ws' team' hsound (ι := ι)
  have hall : (boIterNext it ws' team').only (fun (_ : ι) _ s loc => loc.Ok (fun _ _ => True) s) = boIterNext it ws' team' :=
    Prog.only_of_forall fun _ _ _ loc => by cases loc <;> simp [Local.Ok]
  rw [← hall] at hr
  exact (hk.reach hstart (hsame.fresh rfl) hr).1

/-- Once every thread has received false, the returned chunks tile the loop. -/
theorem boIterNext_tiles [DecidableEq ι] [Nonempty ι] {g g' : Globals D} {team team' : Option U32} {now : Int}
    {ws ws' : GompWorkShare D} {start fin incr chunkSize : Word} {sched : GompScheduleType} {r : RegionId} {it : CasIter}
    (hincr : incr ≠ 0) (hfits : SubFits fin start) (hinit : gompLoopInit g team now ws start fin incr sched chunkSize r = some (g', ws'))
    {c : Cfg ι Cells Local Ret} (hr : Reach (boIterNext it ws' team') (entry ws') c)
    (hfalse : ∀ i, (i, none) ∈ c.log) :
    Tiles (signedLoop start fin incr hincr) (chunks BitVec.toInt c.log) := by
  have hG := boIterNext_reach it hincr (subFits_canonicalEnd hfits) hinit hr
  have hfin : c.shared.next = ws'.fin := hG.done _ (hfalse (Classical.arbitrary ι))
  have hws : ws'.fin = canonicalEnd start fin incr := (gompLoopInit_sameLoop hinit).fin
  have htiles := hG.tiles (by rw [hfin, hws]; rfl)
  exact tiles_of_canonicalEnd hincr htiles

end

/-- Two threads that take turns over the four iterations of `for (i = 0; i < 7; i += 2)`. -/
theorem boIterNext_tiles_fac2 :
    ∃ (g : Globals ℚ) (ws : GompWorkShare ℚ) (c : Cfg (Fin 2) Cells Local Ret),
      gompLoopInit (.fresh 2) (some 2) 0 .zero 0 7 2 .fsFac2 0 0 = some (g, ws) ∧
      Reach (boIterNext .fac2 ws (some 2)) (entry ws) c ∧
      Tiles (signedLoop 0 7 2 (by decide)) (chunks BitVec.toInt c.log) := by
  let turns : List (Fin 2 × Unit) := (List.replicate 20 [(0, ()), (1, ())]).flatten
  have hrun : (gompLoopInit (D := ℚ) (.fresh 2) (some 2) 0 .zero 0 7 2 .fsFac2 0 0).any (fun r =>
      (exec (boIterNext .fac2 r.2 (some 2)) (entry r.2) turns).any fun c =>
        decide (∀ i, (i, none) ∈ c.log)) = true := by decide +kernel
  obtain ⟨⟨g, ws⟩, hinit, hrun⟩ := (Option.any_eq_true _ _).1 hrun
  obtain ⟨c, hr, hfalse⟩ := exists_reach hrun
  exact ⟨g, ws, c, hinit, hr, boIterNext_tiles (by decide) (by decide) hinit hr hfalse⟩

end Bosched
