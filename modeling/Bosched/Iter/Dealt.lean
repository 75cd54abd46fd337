/-
The dynamic iterators called by one thread at a time, by threads that stop when they are told that there is no more
work: `ws->next` may run past the end, by a chunk for every thread that was told, but what is handed out does not
depend on how it is moved.
-/
import Bosched.Iter.Alone

namespace Bosched

open Lib

variable {D : Type} {P : Nat}

/-! ## The dynamic iterators -/

/-- No thread calls again after it was told that there is no more work. -/
def StopsWhenTold {ι : Type} (log : List (ι × Ret)) : Prop := log.Pairwise fun x y => x.1 = y.1 → x.2 ≠ none

/-- How often a thread was told so. -/
def timesTold {ι : Type} (log : List (ι × Ret)) : Nat := log.countP fun x => x.2 = none

theorem StopsWhenTold.before {ι : Type} {log : List (ι × Ret)} {x : ι × Ret} (h : StopsWhenTold (log ++ [x])) : StopsWhenTold log :=
  (List.pairwise_append.1 h).1

/-- A thread that calls leaves one of the team that was not told yet. -/
theorem StopsWhenTold.timesTold_lt {log : List (Fin P × Ret)} {i : Fin P} {r : Ret} (h : StopsWhenTold (log ++ [(i, r)])) :
    timesTold log < P := by
  obtain ⟨hlog, -, hcall⟩ := List.pairwise_append.1 h
  -- the threads that were told, and the one that calls
  have htold : (i :: (log.filter fun x => x.2 = none).map (·.1)).Nodup := by
    rw [List.nodup_cons]
    constructor
    · intro hi
      obtain ⟨x, hx, hxi⟩ := List.mem_map.1 hi
      obtain ⟨hx, hnone⟩ := List.mem_filter.1 hx
      exact hcall x hx _ (List.mem_singleton_self _) hxi (of_decide_eq_true hnone)
    · refine List.pairwise_map.2 ?_
      refine (hlog.sublist List.filter_sublist).imp_of_mem fun {x y} hx _ hxy heq => ?_
      exact hxy heq (of_decide_eq_true (List.mem_filter.1 hx).2)
  have hcard := htold.length_le_card
  rw [Fintype.card_fin, List.length_cons, List.length_map, ← List.countP_eq_length_filter] at hcard
  exact hcard

/-- What a call does at `s`: before the end `e` it hands out `size` further, cut off at the end; behind it, nothing. -/
structure DealsAt (e size : Nat) (s : Word) (call : Word × Ret) : Prop where
  claim : s.toNat < e → ∃ w : Word, call.2 = some (s, w) ∧ w.toNat = min (s.toNat + size) e ∧
    min call.1.toNat e = min (s.toNat + size) e
  done : e ≤ s.toNat → call.2 = none ∧ e ≤ call.1.toNat
  bound : call.1.toNat ≤ max e (s.toNat + size)

/-- The iterator moves `ws->next` with a fetch-and-add. -/
def Width.Fetches (w : Width) (ws : GompWorkShare D) : Prop :=
  match w with
  | .long => ws.mode ≠ 0
  | .ull _ => ws.mode &&& 1 ≠ 0

/-- A work share that is dealt out every `size` up to `e` by at most `P` threads. -/
structure DealsOut (w : Width) (ws : GompWorkShare D) (e size P : Nat) : Prop where
  start : ws.next.toNat ≤ e
  call : ∀ s : Word, (w.Fetches ws → s.toNat ≤ e + P * size) → (¬ w.Fetches ws → s.toNat ≤ e) → DealsAt e size s (w.dynamicCall ws s)
  stays : ∀ s : Word, ¬ w.Fetches ws → s.toNat ≤ e → (w.dynamicCall ws s).1.toNat ≤ e

/-- Where `ws->next` is after the calls of the log. -/
structure DealtTo (w : Width) (ws : GompWorkShare D) (e size : Nat) (log : List (Fin P × Ret)) (s : Word) : Prop where
  le : s.toNat ≤ e + (timesTold log + 1) * size
  stays : ¬ w.Fetches ws → s.toNat ≤ e

theorem DealsOut.dealtTo {w : Width} {ws : GompWorkShare D} {e size : Nat} (h : DealsOut w ws e size P) :
    DealtTo w ws e size ([] : List (Fin P × Ret)) ws.next :=
  ⟨le_trans h.start (Nat.le_add_right _ _), fun _ => h.start⟩

theorem DealtTo.call {w : Width} {ws : GompWorkShare D} {e size : Nat} {log : List (Fin P × Ret)} {s : Word}
    (hs : DealtTo w ws e size log s) (h : DealsOut w ws e size P) (hcall : DealsAt e size s (w.dynamicCall ws s)) (i : Fin P) :
    DealtTo w ws e size (log ++ [(i, (w.dynamicCall ws s).2)]) (w.dynamicCall ws s).1 := by
  refine ⟨?_, fun hf => h.stays s hf (hs.stays hf)⟩
  have hle := hs.le
  have hbound := hcall.bound
  unfold timesTold at hle ⊢
  rw [List.countP_append]
  by_cases hend : s.toNat < e
  · have hroom : 1 * size ≤ (List.countP (fun x => decide (x.2 = none)) log +
        List.countP (fun x => decide (x.2 = none)) [(i, (w.dynamicCall ws s).2)] + 1) * size :=
      Nat.mul_le_mul_right _ (by omega)
    omega
  · rw [(hcall.done (not_lt.1 hend)).1]
    have htold : List.countP (fun x : Fin P × Ret => decide (x.2 = none)) [(i, none)] = 1 := rfl
    rw [htold, Nat.succ_mul]
    omega

/-- Two such work shares, whichever way they are dealt out. -/
theorem answers_deal {w w' : Width} {a b : GompWorkShare D} {e size : Nat} {log : List (Fin P × Ret)} (ha : DealsOut w a e size P)
    (hb : DealsOut w' b e size P) (hnext : a.next = b.next) (hlog : StopsWhenTold log) (h : Answers (w.dynamicNext a) .idle a.next log) :
    Answers (w'.dynamicNext b) .idle b.next log := by
  have hstep : ∀ {log : List (Fin P × Ret)} {i s t s' r}, StopsWhenTold (log ++ [(i, r)]) →
      (min s.toNat e = min t.toNat e ∧ DealtTo w a e size log s ∧ DealtTo w' b e size log t) →
      Solo (w.dynamicNext a) .idle i s .idle s' r → ∃ t', Solo (w'.dynamicNext b) .idle i t .idle t' r ∧
        (min s'.toNat e = min t'.toNat e ∧ DealtTo w a e size (log ++ [(i, r)]) s' ∧ DealtTo w' b e size (log ++ [(i, r)]) t') := by
    rintro log i s t s' r hlog ⟨hsame, hs, ht⟩ hsolo
    obtain ⟨rfl, rfl⟩ := solo_dynamicNext.1 hsolo
    have hroom : (timesTold log + 1) * size ≤ P * size := Nat.mul_le_mul_right _ hlog.timesTold_lt
    have hsle := hs.le
    have htle := ht.le
    have hscall := ha.call s (fun _ => by omega) hs.stays
    have htcall := hb.call t (fun _ => by omega) ht.stays
    have hret : (w.dynamicCall a s).2 = (w'.dynamicCall b t).2 ∧
        min (w.dynamicCall a s).1.toNat e = min (w'.dynamicCall b t).1.toNat e := by
      by_cases hend : s.toNat < e
      · obtain rfl : s = t := BitVec.eq_of_toNat_eq (by omega)
        obtain ⟨x, hx, hxnat, hxpos⟩ := hscall.claim hend
        obtain ⟨y, hy, hynat, hypos⟩ := htcall.claim hend
        obtain rfl : x = y := BitVec.eq_of_toNat_eq (by omega)
        exact ⟨hx.trans hy.symm, by omega⟩
      · obtain ⟨hx, hxpos⟩ := hscall.done (by omega)
        obtain ⟨hy, hypos⟩ := htcall.done (by omega)
        exact ⟨hx.trans hy.symm, by omega⟩
    refine ⟨(w'.dynamicCall b t).1, solo_dynamicNext.2 ⟨rfl, hret.1⟩, hret.2, hs.call ha hscall i, ?_⟩
    rw [hret.1]
    exact ht.call hb htcall i
  obtain ⟨s', hcalls⟩ := h
  obtain ⟨t', hcalls', -⟩ := hcalls.simulate (R := fun log s t =>
      min s.toNat e = min t.toNat e ∧ DealtTo w a e size log s ∧ DealtTo w' b e size log t)
    StopsWhenTold.before hstep hlog ⟨by rw [hnext], ha.dealtTo, hb.dealtTo⟩
  exact ⟨t', hcalls'⟩

/-- A claim with a compare-and-swap, up to the end. -/
theorem claimAlone_dealsAt {fin s chunk : Word} {size : Nat} (hs : s.toNat ≤ fin.toNat)
    (hchunk : chunk.toNat = min size (fin.toNat - s.toNat)) :
    DealsAt fin.toNat size s (claimAlone fin s chunk) ∧ (claimAlone fin s chunk).1.toNat ≤ fin.toNat := by
  have hlt := fin.isLt
  have hnext : (s + chunk).toNat = min (s.toNat + size) fin.toNat := by
    rw [BitVec.toNat_add, Nat.mod_eq_of_lt (by omega)]
    omega
  unfold claimAlone
  split
  · rename_i heq
    subst heq
    exact ⟨⟨fun h => absurd h (lt_irrefl _), fun _ => ⟨rfl, le_refl _⟩, le_max_left _ _⟩, le_refl _⟩
  · rename_i hne
    have hne' : s.toNat ≠ fin.toNat := fun h => hne (BitVec.eq_of_toNat_eq h)
    dsimp only
    rw [hnext]
    refine ⟨⟨fun _ => ⟨s + chunk, rfl, hnext, ?_⟩, fun h => absurd h (by omega), ?_⟩, min_le_right _ _⟩
    · show min (s + chunk).toNat fin.toNat = _
      omega
    · show (s + chunk).toNat ≤ _
      omega

/-- A claim with a fetch-and-add that does not wrap around. -/
theorem fetched_dealsAt {fin s chunk : Word} {r : Ret} (hfits : s.toNat + chunk.toNat < 2 ^ 64)
    (hdone : fin.toNat ≤ s.toNat → r = none)
    (hclaim : s.toNat < fin.toNat → ∃ w : Word, r = some (s, w) ∧ w.toNat = min (s.toNat + chunk.toNat) fin.toNat) :
    DealsAt fin.toNat chunk.toNat s (s + chunk, r) := by
  have hnext : (s + chunk).toNat = s.toNat + chunk.toNat := by
    rw [BitVec.toNat_add, Nat.mod_eq_of_lt hfits]
  refine ⟨fun h => ?_, fun h => ⟨hdone h, ?_⟩, ?_⟩
  · obtain ⟨w, hw, hwnat⟩ := hclaim h
    exact ⟨w, hw, hwnat, by rw [hnext]⟩
  · rw [hnext]
    omega
  · rw [hnext]
    exact le_max_right _ _

/-- Words below `2^63` compare the same both ways. -/
theorem slt_iff_toNat {x y : Word} (hx : x.toNat < 2 ^ 63) (hy : y.toNat < 2 ^ 63) : x.slt y = true ↔ x.toNat < y.toNat := by
  rw [BitVec.slt_iff_toInt_lt, BitVec.toInt_eq_toNat_cond, BitVec.toInt_eq_toNat_cond, if_pos (by omega), if_pos (by omega)]
  exact Int.ofNat_lt

theorem sle_iff_toNat {x y : Word} (hx : x.toNat < 2 ^ 63) (hy : y.toNat < 2 ^ 63) : x.sle y = true ↔ x.toNat ≤ y.toNat := by
  rw [BitVec.sle_iff_toInt_le, BitVec.toInt_eq_toNat_cond, BitVec.toInt_eq_toNat_cond, if_pos (by omega), if_pos (by omega)]
  exact Int.ofNat_le

section

variable {ws : GompWorkShare D} (hstart : ws.next.toNat ≤ ws.fin.toNat)

include hstart

theorem dealsOut_long (hfin : ws.fin.toNat < 2 ^ 63) (hincr : 0 < ws.incr.toInt) (hchunk : ws.chunkSize.toNat < 2 ^ 63)
    (hguard : ws.mode ≠ 0 → ws.fin.toNat + (P + 1) * ws.chunkSize.toNat < 2 ^ 63) :
    DealsOut .long ws ws.fin.toNat ws.chunkSize.toNat P := by
  have hslt : (0#64).slt ws.incr = true := by
    rw [BitVec.slt_iff_toInt_lt]
    exact hincr
  have hslt' : ¬ ws.incr.slt 0 = true := by
    rw [BitVec.slt_iff_toInt_lt]
    exact not_lt.2 (le_of_lt hincr)
  have hcas : ∀ s : Word, s.toNat ≤ ws.fin.toNat →
      DealsAt ws.fin.toNat ws.chunkSize.toNat s (claimAlone ws.fin s (clampChunk ws.incr ws.chunkSize (ws.fin - s))) ∧
        (claimAlone ws.fin s (clampChunk ws.incr ws.chunkSize (ws.fin - s))).1.toNat ≤ ws.fin.toNat := fun s hs => by
    have hsub := toNat_sub_of_le hs
    refine claimAlone_dealsAt hs ?_
    unfold clampChunk
    rw [if_neg hslt']
    split
    · rename_i hlt
      rw [slt_iff_toNat (by omega) hchunk] at hlt
      omega
    · rename_i hlt
      rw [slt_iff_toNat (by omega) hchunk] at hlt
      omega
  refine ⟨hstart, fun s hf hn => ?_, fun s hn hs => ?_⟩
  · unfold Width.dynamicCall
    by_cases hmode : ws.mode ≠ 0
    · have hs := hf hmode
      have hguard := hguard hmode
      rw [Nat.succ_mul] at hguard
      dsimp only
      rw [if_pos hmode]
      have hsum : (s + ws.chunkSize).toNat = s.toNat + ws.chunkSize.toNat := by
        rw [BitVec.toNat_add, Nat.mod_eq_of_lt (by omega)]
      have hsle := sle_iff_toNat hfin (by omega : s.toNat < 2 ^ 63)
      have hslt'' := slt_iff_toNat hfin (by omega : (s + ws.chunkSize).toNat < 2 ^ 63)
      unfold dynamicFetched
      rw [if_pos hslt]
      refine fetched_dealsAt (by omega) (fun h => ?_) (fun h => ?_)
      · rw [if_pos (hsle.2 h)]
      · rw [if_neg (mt hsle.1 (not_le.2 h))]
        refine ⟨_, rfl, ?_⟩
        split
        · rename_i hlt
          rw [hslt''] at hlt
          omega
        · rename_i hlt
          rw [hslt''] at hlt
          omega
    · dsimp only
      rw [if_neg hmode]
      exact (hcas s (hn hmode)).1
  · have hmode : ¬ ws.mode ≠ 0 := hn
    unfold Width.dynamicCall
    dsimp only
    rw [if_neg hmode]
    exact (hcas s hs).2

theorem dealsOut_ull {up : Bool} (hdown : goesDown ws = false)
    (hguard : ws.mode &&& 1 ≠ 0 → ws.fin.toNat + (P + 1) * ws.chunkSize.toNat < 2 ^ 64) :
    DealsOut (.ull up) ws ws.fin.toNat ws.chunkSize.toNat P := by
  have hup : ¬ goesDown ws = true := by
    rw [hdown]
    exact Bool.false_ne_true
  have hcas : ∀ s : Word, s.toNat ≤ ws.fin.toNat →
      DealsAt ws.fin.toNat ws.chunkSize.toNat s (claimAlone ws.fin s (ullClampChunk ws ws.chunkSize (ws.fin - s))) ∧
        (claimAlone ws.fin s (ullClampChunk ws ws.chunkSize (ws.fin - s))).1.toNat ≤ ws.fin.toNat := fun s hs => by
    have hsub := toNat_sub_of_le hs
    refine claimAlone_dealsAt hs ?_
    unfold ullClampChunk
    rw [if_neg hup]
    split
    · rename_i hlt
      rw [gt_iff_lt, BitVec.lt_def] at hlt
      omega
    · rename_i hlt
      rw [gt_iff_lt, BitVec.lt_def] at hlt
      omega
  refine ⟨hstart, fun s hf hn => ?_, fun s hn hs => ?_⟩
  · unfold Width.dynamicCall
    by_cases hmode : ws.mode &&& 1 ≠ 0
    · have hs := hf hmode
      have hguard := hguard hmode
      rw [Nat.succ_mul] at hguard
      dsimp only
      rw [if_pos hmode]
      have hsum : (s + ws.chunkSize).toNat = s.toNat + ws.chunkSize.toNat := by
        rw [BitVec.toNat_add, Nat.mod_eq_of_lt (by omega)]
      unfold ullDynamicFetched
      dsimp only
      rw [if_neg hup]
      refine fetched_dealsAt (by omega) (fun h => ?_) (fun h => ?_)
      · rw [if_pos (BitVec.le_def.2 h)]
      · rw [if_neg (mt BitVec.le_def.1 (not_le.2 h))]
        refine ⟨_, rfl, ?_⟩
        split
        · rename_i hlt
          rw [gt_iff_lt, BitVec.lt_def] at hlt
          omega
        · rename_i hlt
          rw [gt_iff_lt, BitVec.lt_def] at hlt
          omega
    · dsimp only
      rw [if_neg hmode]
      exact (hcas s (hn hmode)).1
  · have hmode : ¬ ws.mode &&& 1 ≠ 0 := hn
    unfold Width.dynamicCall
    dsimp only
    rw [if_neg hmode]
    exact (hcas s hs).2

end

end Bosched
