/-
The `unsigned long long` iterators. For a downward loop, whose `incr_ull` is the negated step
modulo `2^64` and whose mode bit 2 is set, they compute the remaining count towards the end but
the end of a chunk away from it: `nend = start + chunk_size * -incr`. A run keeps to the loop as
long as no claim takes that branch, that is, as long as a downward loop is claimed whole.
-/
import Bosched.Iter.CasInvariant
import Bosched.Iter.CasExit
import Bosched.Runtime.Exact

namespace Bosched

open Lib

/-! ## The loop of a work share -/

/-- The step of an `unsigned long long` loop as an integer. -/
def ullStep (up : Bool) (incr : Word) : Int := if up then incr.toNat else -((-incr).toNat : Int)

theorem toNat_ne_zero {a : Word} (h : a ≠ 0) : a.toNat ≠ 0 := fun h0 => h (BitVec.eq_of_toNat_eq h0)

theorem ullStep_pos_iff (up : Bool) {incr : Word} (h : incr ≠ 0) : 0 < ullStep up incr ↔ up = true := by
  have h1 := toNat_ne_zero h
  unfold ullStep
  cases up
  · simp; omega
  · simp; omega

theorem ullStep_ne_zero (up : Bool) {incr : Word} (h : incr ≠ 0) : ullStep up incr ≠ 0 := by
  have h1 := toNat_ne_zero h
  have h2 : (-incr).toNat ≠ 0 := toNat_ne_zero (by simpa using h)
  unfold ullStep
  split <;> omega

/-- `for (i = start; i before end; i += step)` over `unsigned long long`. -/
def ullLoop (up : Bool) (start fin incr : Word) (h : incr ≠ 0) : Loop :=
  ⟨start.toNat, fin.toNat, ullStep up incr, ullStep_ne_zero up h⟩

theorem canonicalEndUll_eq {up : Bool} {start fin incr : Word} (h : incr ≠ 0) :
    canonicalEndUll up start fin = if Before (ullStep up incr) fin.toNat start.toNat then start else fin := by
  unfold canonicalEndUll Before
  congr 1
  simp only [ullStep_pos_iff up h, eq_iff_iff]
  cases up <;> simp [BitVec.lt_def]

theorem not_before_canonicalEndUll {up : Bool} {start fin incr : Word} (h : incr ≠ 0) :
    ¬ Before (ullStep up incr) (canonicalEndUll up start fin).toNat start.toNat := by
  rw [canonicalEndUll_eq h]
  split
  · exact before_irrefl _ _
  · assumption

/-! ## The arithmetic of the iterators -/

/-- A claim that does not take the downward branch of `nend`: the loop runs upward, or the chunk
is all that remains. -/
def WholeDown {D : Type} (ws : GompWorkShare D) (up : Bool) (start chunk : Word) : Prop :=
  up = true ∨ ∀ R ∈ (View.ull ws).remaining start, ¬ chunk < R

instance {D : Type} (ws : GompWorkShare D) (up : Bool) (start chunk : Word) : Decidable (WholeDown ws up start chunk) := by
  unfold WholeDown; infer_instance

theorem ull_sound {D : Type} {ws : GompWorkShare D} {up : Bool} (start : Word) (h : ws.incr ≠ 0)
    (hmode : ws.mode = if up then 0 else 2) :
    (View.ull ws).Sound (fun w => w.toNat) (ullLoop up start ws.fin ws.incr h) (WholeDown ws up) where
  fin := rfl
  inj := by
    intro a b hab
    exact BitVec.eq_of_toNat_eq (by exact_mod_cast hab)
  claim := by
    intro s chunk R k hs hk hR hc hok
    let l := ullLoop up start ws.fin ws.incr h
    unfold View.nend
    by_cases hlt : chunk < R
    · rcases hok with rfl | hwhole
      · replace hmode : ws.mode = 0 := hmode
        have hincr : l.incr = ws.incr.toNat := rfl
        have hfin : l.fin = ws.fin.toNat := rfl
        have hpos : 0 < l.incr := (ullStep_pos_iff true h).2 rfl
        rw [l.pos_of_lt hk] at hs
        have hb := (before_pos hpos _ _).1 ((l.before_fin_iff k).2 hk)
        -- the remaining count, as the library has it
        have hRint : (R.toNat : Int) = (l.fin - l.value k).tdiv l.incr := by
          simp only [View.ull, hmode, if_true] at hR
          obtain ⟨-, hR⟩ := uldiv_some hR
          have hle : s.toNat ≤ ws.fin.toNat := by
            omega
          rw [toNat_sub_of_le hle] at hR
          rw [hR, Int.tdiv_eq_ediv_of_nonneg (by omega), Int.natCast_ediv, Nat.cast_sub hle, hfin, hincr, ← hs]
        have hq : k + chunk.toNat < l.trip := l.add_lt_trip hk (by rw [← hRint]; exact_mod_cast hlt)
        have hval : (s.toNat : Int) + chunk.toNat * ws.incr.toNat = l.value (k + chunk.toNat) := by
          rw [l.value_add, hincr, ← hs]
        have hb' := (before_pos hpos _ _).1 ((l.before_fin_iff _).2 hq)
        refine ⟨k + chunk.toNat, ?_, le_of_lt hq, ?_⟩
        · have : chunk.toNat ≠ 0 := fun h0 => hc (BitVec.eq_of_toNat_eq h0)
          omega
        · have hfits : s.toNat + chunk.toNat * ws.incr.toNat < 2 ^ 64 := by
            have := ws.fin.isLt
            zify
            omega
          rw [if_pos hlt, l.pos_of_lt hq, ← hval]
          simp only [View.ull, hmode, if_true]
          rw [toNat_add_mul hfits]
          push_cast
          rfl
      · exact absurd hlt (hwhole R hR)
    · refine ⟨l.trip, hk, le_refl _, ?_⟩
      rw [if_neg hlt, l.pos_trip]
      rfl

/-! ## Whole runs -/

/-- The iterator `GOMP_loop_ull_runtime_start` calls for the schedule, if it is one of the four. -/
def ullIter : GompScheduleType → Option CasIter
  | .fsFac2 => some .fac2
  | .fsFss | .boFss => some .fss
  | .fsTss | .boTss => some .tss
  | .fsTape | .boTape => some .tape
  | _ => none

section

variable {D : Type} [CDouble D] {ι : Type}

/-- The tiling law at a state of a run of `p`: what was returned so far lies in the loop and covers
nothing twice, a thread is told false only at the end, there the whole loop is covered, and from
there on every thread that goes on returns false. -/
structure TilingLaw [DecidableEq ι] (l : Loop) (fin : Word) (p : Prog ι Unit Cells Local Ret)
    (c : Cfg ι Cells Local Ret) : Prop where
  within : ∀ ch ∈ chunks (fun w => w.toNat) c.log, ∀ v ∈ [ch.1, ch.2], ¬ Before l.incr v l.start ∧ ¬ Before l.incr l.fin v
  once : ∀ k < l.trip, (chunks (fun w => w.toNat) c.log).countP (fun ch => Covers l.incr ch (l.value k)) ≤ 1
  done : ∀ i, (i, none) ∈ c.log → c.shared.next = fin
  tiles : c.shared.next = fin → Tiles l (chunks (fun w => w.toNat) c.log)
  returns : c.shared.next = fin → ∀ {i sched c'}, exec p c sched = some c' →
    7 ≤ sched.countP (fun x => x.1 = i) → ∃ log', c'.log = c.log ++ log' ∧ (i, none) ∈ log'

theorem boIterUllNext_keeps (it : CasIter) (ws : GompWorkShare D) (team : Option U32) {l : Loop}
    {ok : Word → Word → Prop} (hs : (View.ull ws).Sound (fun w => w.toNat) l ok) :
    Keeps (View.ull ws) (fun w => w.toNat) l ws.next it.live ok (boIterUllNext it ws team : Prog ι Unit Cells Local Ret) := by
  cases it with
  | fac2 => exact hs.batchedNext _ _ _
  | fss => exact hs.batchedNext _ _ _
  | tss => exact hs.ticketNext _ (tssChunk_ne_zero _ _)
  | tape => exact hs.guidedNext _ (tapeChunk_ne_zero _ _)

theorem boIterUllNext_exits (it : CasIter) (ws : GompWorkShare D) (team : Option U32) :
    Exits (View.ull ws) (boIterUllNext it ws team : Prog ι Unit Cells Local Ret) := by
  cases it with
  | fac2 | fss => exact View.batchedNext_exits _ _ _
  | tss => exact View.ticketNext_exits _ _
  | tape => exact View.guidedNext_exits _ _

theorem pos_zero_ullLoop {up : Bool} {start fin incr : Word} (h : incr ≠ 0) :
    (ullLoop up start (canonicalEndUll up start fin) incr h).pos 0 = start.toNat := by
  rw [Loop.pos_zero]
  · rfl
  · exact not_before_canonicalEndUll h

variable [DecidableEq ι]

/-- The law for the loop a work share runs carries over to the loop of the program. -/
theorem tilingLaw_of_shared {up : Bool} {start fin incr : Word} (h : incr ≠ 0) {v : View} {s0 : Word}
    {live : Word → Prop} {p : Prog ι Unit Cells Local Ret} {c : Cfg ι Cells Local Ret}
    (hv : v.fin = canonicalEndUll up start fin)
    (hG : Shared v (fun w => w.toNat) (ullLoop up start v.fin incr h) s0 live c.shared c.log)
    (hex : Exits v p) (hoff : ∀ i, (c.loc i).Off v) : TilingLaw (ullLoop up start fin incr h) v.fin p c := by
  obtain ⟨k, hclaimed, hk⟩ := hG.claimed
  rw [hv] at hclaimed
  by_cases hb : Before (ullStep up incr) fin.toNat start.toNat
  · -- no iteration in the work share's loop, and none in the program's
    have hcs : chunks (fun w => w.toNat) c.log = [] := by
      refine hclaimed.eq_nil ((Loop.trip_eq_zero_iff _).2 ?_)
      rw [canonicalEndUll_eq h, if_pos hb]
      exact before_irrefl _ _
    have htrip : (ullLoop up start fin incr h).trip = 0 := (Loop.trip_eq_zero_iff _).2 hb.asymm
    exact {
      within := by rw [hcs]; exact nofun
      once := fun k hk => by omega
      done := hG.done
      tiles := fun _ => by rw [hcs]; exact tiles_nil htrip
      returns := fun hn => hex.returns hn hoff }
  · have hfin : canonicalEndUll up start fin = fin := by rw [canonicalEndUll_eq h, if_neg hb]
    rw [hfin] at hclaimed hv
    rw [hv] at hG
    exact {
      within := fun ch hch => hclaimed.bounds hch
      once := fun k hk => by
        rw [hclaimed.countP hk]
        split <;> omega
      done := hG.done
      tiles := fun hn => hG.tiles (by rw [hn, hv]; rfl)
      returns := fun hn => hex.returns hn hoff }

/-- In every run in which no claim takes the downward branch of `nend`, the tiling law holds at
every state. -/
theorem boIterUllNext_tilingLaw {g g' : Globals D} {team team' : Option U32} {now : Int} {ws ws' : GompWorkShare D}
    {up : Bool} {start fin incr chunkSize : Word} {sched : GompScheduleType} {r : RegionId} {it : CasIter}
    (hincr : incr ≠ 0) (hit : ullIter sched = some it)
    (hinit : gompLoopUllInit g team now ws up start fin incr sched chunkSize r = some (g', ws'))
    {c : Cfg ι Cells Local Ret}
    (hr : Reach ((boIterUllNext it ws' team').only fun _ _ s loc => loc.Ok (WholeDown ws' up) s) (entry ws') c) :
    TilingLaw (ullLoop up start fin incr hincr) ws'.fin (boIterUllNext it ws' team') c := by
  have hsame := gompLoopUllInit_sameLoop hinit
  have hnext : ws'.next = start := hsame.next
  have hfin : ws'.fin = canonicalEndUll up start fin := hsame.fin
  have hinc : ws'.incr = incr := hsame.incr
  have hmode : ws'.mode = if up then 0 else 2 :=
    gompLoopUllInit_mode hinit (by rintro rfl; cases hit) (by rintro rfl; cases hit) (by rintro rfl; cases hit)
  subst hinc
  have hsound := ull_sound start hincr hmode
  have hstart : (ws'.next.toNat : Int) = (ullLoop up start ws'.fin ws'.incr hincr).pos 0 := by
    rw [hnext, hfin, pos_zero_ullLoop]
  have hG := ((boIterUllNext_keeps it ws' team' hsound).reach hstart (hsame.fresh rfl) hr).1
  have hex := boIterUllNext_exits it ws' team' (ι := ι)
  have hoff := fun i => hex.off_reach ws' (Reach.of_only hr) i
  exact tilingLaw_of_shared hincr hfin hG hex hoff

end

/-- Two threads that take turns over the three iterations of `for (i = 1; i < 8; i += 3)`. -/
theorem boIterUllNext_tilingLaw_tape :
    ∃ (g : Globals ℚ) (ws : GompWorkShare ℚ) (c : Cfg (Fin 2) Cells Local Ret),
      gompLoopUllInit (.fresh 2) (some 2) 0 .zero true 1 8 3 .fsTape 0 0 = some (g, ws) ∧
      c.shared.next = ws.fin ∧ TilingLaw (ullLoop true 1 8 3 (by decide)) ws.fin (boIterUllNext .tape ws (some 2)) c := by
  let turns : List (Fin 2 × Unit) := (List.replicate 20 [(0, ()), (1, ())]).flatten
  have hrun : (gompLoopUllInit (D := ℚ) (.fresh 2) (some 2) 0 .zero true 1 8 3 .fsTape 0 0).any (fun r =>
      (exec ((boIterUllNext .tape r.2 (some 2)).only fun _ _ s loc => loc.Ok (WholeDown r.2 true) s) (entry r.2)
        turns).any fun c => decide (c.shared.next = r.2.fin)) = true := by decide +kernel
  obtain ⟨⟨g, ws⟩, hinit, hrun⟩ := (Option.any_eq_true _ _).1 hrun
  obtain ⟨c, hr, hnext⟩ := exists_reach hrun
  exact ⟨g, ws, c, hinit, hnext, boIterUllNext_tilingLaw (by decide) rfl hinit hr⟩

/-- `for (i = 10; i > 0; i--)` under `FS_TAPE`, alone: the first chunk returned is `[10, 11)`. -/
theorem boIterUllNext_leaves_loop :
    ∃ (g : Globals ℚ) (ws : GompWorkShare ℚ) (c : Cfg (Fin 1) Cells Local Ret),
      gompLoopUllInit (.fresh 1) (some 1) 0 .zero false 10 0 (-1) .fsTape 0 0 = some (g, ws) ∧
      Reach (boIterUllNext .tape ws (some 1)) (entry ws) c ∧ returned c.log = [(10, 11)] ∧
      ¬ TilingLaw (ullLoop false 10 0 (-1) (by decide)) ws.fin (boIterUllNext .tape ws (some 1)) c := by
  have hrun : (gompLoopUllInit (D := ℚ) (.fresh 1) (some 1) 0 .zero false 10 0 (-1) .fsTape 0 0).any (fun r =>
      (exec (boIterUllNext .tape r.2 (some 1)) (entry r.2) [((0 : Fin 1), ()), (0, ())]).any fun c =>
        decide (returned c.log = [(10, 11)])) = true := by decide +kernel
  obtain ⟨⟨g, ws⟩, hinit, hrun⟩ := (Option.any_eq_true _ _).1 hrun
  obtain ⟨c, hr, hret⟩ := exists_reach hrun
  refine ⟨g, ws, c, hinit, hr, hret, fun h => ?_⟩
  have hmem : ((10 : Int), (11 : Int)) ∈ chunks (fun w => w.toNat) c.log := by
    unfold chunks
    rw [hret]
    decide
  -- the end of the chunk lies before the start, in the direction of the loop
  exact (h.within _ hmem 11 (by decide)).1 (by decide)

end Bosched
