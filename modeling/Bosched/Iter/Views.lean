/-
Two iterators over one loop, called by one thread at a time. The `long` and the `unsigned long long` reading of an
upward loop whose bounds and step are the same numbers in both types agree at every position up to its end, and the
iterators of each family, which know the loop only by its view, then take the same steps.
-/
import Bosched.Iter.Alone
import Bosched.Iter.Factoring

namespace Bosched

open Lib

variable {D : Type} {P : Nat}

/-! ## Two readings of a loop -/

/-- What two views of a loop have to agree on at the positions `ok` that the loop comes to. -/
structure View.Agree (v v' : View) (ok : Word → Prop) : Prop where
  fin : v.fin = v'.fin
  advance : v.advance = v'.advance
  remaining : ∀ {s}, ok s → v.remaining s = v'.remaining s
  atEnd : ok v.fin
  step : ∀ {s chunk R}, ok s → v.remaining s = some R → chunk ≤ R → ok (v.advance s chunk)

/-- The positions that a call has in hand are positions of the loop. -/
def Local.Holds (ok : Word → Prop) : Local → Prop
  | .loadBarrier start | .loadChunk start _ | .reloadBarrier start _ | .casChunk start _ _ _ _ | .casBarrier start _ _ _ =>
    ok start
  | .casNext _ _ nend => ok nend
  | _ => True

/-- Two loops around the compare-and-swap whose bodies agree at the positions of the loop. -/
theorem answers_retryNext {ι : Type} {s : Cells} {log : List (ι × Ret)} {top top' : Word → Option (Local × Option Ret)}
    (ok : Word → Prop) (heq : ∀ {start}, ok start → top start = top' start)
    (hholds : ∀ {start loc e}, ok start → top start = some (loc, e) → loc.Holds ok) (hs : ok s.next) :
    Answers (retryNext top) .idle s log ↔ Answers (retryNext top') .idle s log := by
  apply Answers.congr (I := fun s loc => ok s.next ∧ loc.Holds ok) _ _ ⟨hs, trivial⟩
  · rintro i s loc ⟨hnext, hloc⟩
    cases loc
    case idle | casNext => simp only [retryNext, heq hnext]
    all_goals rfl
  · rintro i s loc s' loc' e ⟨hnext, hloc⟩ hstep
    cases loc
    case idle =>
      obtain ⟨_, ht, hstep⟩ := Option.bind_eq_some_iff.1 hstep
      cases hstep
      exact ⟨hnext, hholds hnext ht⟩
    case casNext =>
      unfold retryNext at hstep
      dsimp only at hstep
      split at hstep
      · cases hstep
        exact ⟨hloc, trivial⟩
      · obtain ⟨_, ht, hstep⟩ := Option.bind_eq_some_iff.1 hstep
        cases hstep
        exact ⟨hnext, hholds hnext ht⟩
    all_goals cases hstep

namespace View.Agree

variable {v v' : View} {ok : Word → Prop} (h : v.Agree v' ok)

include h

theorem nend_ok {start chunk R : Word} (hs : ok start) (hR : v.remaining start = some R) : ok (v.nend start chunk R) := by
  unfold View.nend
  split
  · rename_i hlt
    exact h.step hs hR (BitVec.le_of_lt hlt)
  · exact h.atEnd

theorem claim_eq {start : Word} (hs : ok start) (chunk : Word) : v.claim start chunk = v'.claim start chunk := by
  unfold View.claim View.nend
  rw [h.remaining hs, h.advance, h.fin]

theorem claim_holds {start chunk : Word} {loc : Local} (hs : ok start) (hcl : v.claim start chunk = some loc) : loc.Holds ok := by
  obtain ⟨R, hR, hcl⟩ := Option.bind_eq_some_iff.1 hcl
  cases hcl
  exact h.nend_ok hs hR

theorem batchTop_eq {start : Word} (hs : ok start) (nthreads : Word) (batch : Word → Option Word) (barrier chunk : Word) :
    v.batchTop nthreads batch start barrier chunk = v'.batchTop nthreads batch start barrier chunk := by
  unfold View.batchTop
  rw [h.claim_eq hs, h.remaining hs, h.advance, h.fin]

theorem batchTop_holds {nthreads start barrier chunk : Word} {batch : Word → Option Word} {loc : Local} {e : Option Ret}
    (hs : ok start) (ht : v.batchTop nthreads batch start barrier chunk = some (loc, e)) : loc.Holds ok := by
  unfold View.batchTop at ht
  split at ht
  · cases ht
    trivial
  · split at ht
    · obtain ⟨R, hR, ht⟩ := Option.bind_eq_some_iff.1 ht
      obtain ⟨F, hF, ht⟩ := Option.bind_eq_some_iff.1 ht
      cases ht
      exact hs
    · obtain ⟨loc', hcl, ht⟩ := Option.bind_eq_some_iff.1 ht
      cases ht
      exact h.claim_holds hs hcl

/-! ### The iterators -/

variable {ι : Type} {s : Cells} {log : List (ι × Ret)}

theorem answers_batchedNext {t : Cells} (hs : ok s.next) (hst : s = t) (nthreads : Word) {batch batch' : Word → Option Word}
    (hbatch : batch = batch') :
    Answers (v.batchedNext nthreads batch) .idle s log ↔ Answers (v'.batchedNext nthreads batch') .idle t log := by
  subst hst hbatch
  apply Answers.congr (I := fun s loc => ok s.next ∧ loc.Holds ok) _ _ ⟨hs, trivial⟩
  · rintro i s loc ⟨hnext, hloc⟩
    cases loc
    case loadChunk | reloadBarrier => simp only [View.batchedNext, h.batchTop_eq hloc]
    case reloadStart => simp only [View.batchedNext, h.batchTop_eq hnext]
    case casBarrier => simp only [View.batchedNext, h.claim_eq hloc]
    all_goals rfl
  · rintro i s loc s' loc' e ⟨hnext, hloc⟩ hstep
    cases loc
    case idle =>
      cases hstep
      exact ⟨hnext, hnext⟩
    case loadBarrier =>
      cases hstep
      exact ⟨hnext, hloc⟩
    case loadChunk | reloadBarrier =>
      obtain ⟨_, ht, hstep⟩ := Option.bind_eq_some_iff.1 hstep
      cases hstep
      exact ⟨hnext, h.batchTop_holds hloc ht⟩
    case reloadStart =>
      obtain ⟨_, ht, hstep⟩ := Option.bind_eq_some_iff.1 hstep
      cases hstep
      exact ⟨hnext, h.batchTop_holds hnext ht⟩
    case reloadNext =>
      cases hstep
      exact ⟨hnext, hnext⟩
    case casChunk =>
      unfold View.batchedNext at hstep
      dsimp only at hstep
      split at hstep
      · cases hstep
        exact ⟨hnext, hloc⟩
      · cases hstep
        exact ⟨hnext, trivial⟩
    case casBarrier =>
      unfold View.batchedNext at hstep
      dsimp only at hstep
      split at hstep
      · obtain ⟨_, hcl, hstep⟩ := Option.bind_eq_some_iff.1 hstep
        cases hstep
        obtain ⟨_, hcl, heq⟩ := Option.bind_eq_some_iff.1 hcl
        cases heq
        exact ⟨hnext, h.claim_holds hloc hcl⟩
      · cases hstep
        exact ⟨hnext, trivial⟩
    case casNext =>
      unfold View.batchedNext at hstep
      dsimp only at hstep
      split at hstep
      · cases hstep
        exact ⟨hloc, trivial⟩
      · cases hstep
        exact ⟨hnext, hnext⟩
    case loadNext => cases hstep

theorem answers_ticketNext (hs : ok s.next) {chunkOf chunkOf' : Word → Word} (hchunk : chunkOf = chunkOf') (k : Word) :
    Answers (v.ticketNext chunkOf) .idle s log ↔ Answers (v'.ticketNext chunkOf') .idle { s with chunkSize := k } log := by
  subst hchunk
  have heq : ∀ {start}, ok start → ∀ chunk, v.ticketTop start chunk = v'.ticketTop start chunk := fun hs chunk => by
    unfold View.ticketTop
    rw [h.claim_eq hs, h.fin]
  have hholds : ∀ {start chunk loc e}, ok start → v.ticketTop start chunk = some (loc, e) → loc.Holds ok := fun hs ht => by
    unfold View.ticketTop at ht
    split at ht
    · cases ht
      trivial
    · obtain ⟨_, hcl, ht⟩ := Option.bind_eq_some_iff.1 ht
      cases ht
      exact h.claim_holds hs hcl
  have hignore : Answers (v'.ticketNext chunkOf) .idle s log ↔ Answers (v'.ticketNext chunkOf) .idle { s with chunkSize := k } log :=
    ⟨fun h => h.of_ignores (ticketNext_ignores_chunkSize _ _ k), fun h => h.of_ignores (ticketNext_ignores_chunkSize _ _ s.chunkSize)⟩
  refine Iff.trans ?_ hignore
  apply Answers.congr (I := fun s loc => ok s.next ∧ loc.Holds ok) _ _ ⟨hs, trivial⟩
  · rintro i s loc ⟨hnext, hloc⟩
    cases loc
    case loadNext | casNext => simp only [View.ticketNext, heq hnext]
    all_goals rfl
  · rintro i s loc s' loc' e ⟨hnext, hloc⟩ hstep
    cases loc
    case idle =>
      cases hstep
      exact ⟨hnext, trivial⟩
    case loadNext =>
      obtain ⟨_, ht, hstep⟩ := Option.bind_eq_some_iff.1 hstep
      cases hstep
      exact ⟨hnext, hholds hnext ht⟩
    case casNext =>
      unfold View.ticketNext at hstep
      dsimp only at hstep
      split at hstep
      · cases hstep
        exact ⟨hloc, trivial⟩
      · obtain ⟨_, ht, hstep⟩ := Option.bind_eq_some_iff.1 hstep
        cases hstep
        exact ⟨hnext, hholds hnext ht⟩
    all_goals cases hstep

theorem answers_guidedNext (hs : ok s.next) {guide guide' : Word → Word} (hguide : guide = guide') :
    Answers (v.guidedNext guide) .idle s log ↔ Answers (v'.guidedNext guide') .idle s log := by
  subst hguide
  rw [v.guidedNext_eq, v'.guidedNext_eq]
  apply answers_retryNext ok _ _ hs
  · intro start hstart
    unfold View.guidedTop
    simp only [h.claim_eq hstart, h.remaining hstart, h.fin]
  · intro start loc e hstart ht
    unfold View.guidedTop at ht
    split at ht
    · cases ht
      trivial
    · obtain ⟨R, hR, ht⟩ := Option.bind_eq_some_iff.1 ht
      obtain ⟨_, hcl, ht⟩ := Option.bind_eq_some_iff.1 ht
      cases ht
      exact h.claim_holds hstart hcl

theorem answers_shareNext (hs : ok s.next) (nthreads incr chunkSize : Word)
    (hincr : ∀ start q, v.advance start q = start + q * incr) :
    Answers (v.shareNext nthreads incr chunkSize) .idle s log ↔ Answers (v'.shareNext nthreads incr chunkSize) .idle s log := by
  rw [v.shareNext_eq, v'.shareNext_eq]
  apply answers_retryNext ok _ _ hs
  · intro start hstart
    unfold View.shareTop
    simp only [h.remaining hstart, h.fin]
  · intro start loc e hstart ht
    unfold View.shareTop at ht
    split at ht
    · cases ht
      trivial
    · obtain ⟨n, hn, ht⟩ := Option.bind_eq_some_iff.1 ht
      obtain ⟨q, hq, ht⟩ := Option.bind_eq_some_iff.1 ht
      cases ht
      show ok (if q ≤ n then start + q * incr else v.fin)
      split
      · rename_i hle
        rw [← hincr]
        exact h.step hstart hn hle
      · exact h.atEnd

end View.Agree

/-- Before a batch begins the chunk size makes no difference to a call. -/
theorem solo_batchedNext_chunkSize {v : View} {nthreads : Word} {batch : Word → Option Word} {i : Fin P} {s s' : Cells} {e : Ret}
    (hb : s.barrier = s.next) (h : Solo (v.batchedNext nthreads batch) .idle i s .idle s' e) (k : Word) :
    (s' = s ∧ Solo (v.batchedNext nthreads batch) .idle i { s with chunkSize := k } .idle { s with chunkSize := k } e) ∨
      Solo (v.batchedNext nthreads batch) .idle i { s with chunkSize := k } .idle s' e := by
  have hcall := batchCall_of_solo h
  obtain ⟨t', e', hsolo⟩ : ∃ t' e', Solo (v.batchedNext nthreads batch) .idle i { s with chunkSize := k } .idle t' e' := by
    refine exists_solo i fun hne => ?_
    cases hcall with
    | finish hn => exact absurd hn hne
    | claim _ hb' => exact absurd hb hb'
    | renew _ _ _ hF =>
      obtain ⟨R, F, hR, hF, -⟩ := hF
      exact ⟨R, hR, F, hF⟩
  have hcall' := batchCall_of_solo hsolo
  cases hcall with
  | finish hn =>
    cases hcall' with
    | finish => exact .inl ⟨rfl, hsolo⟩
    | claim hn' => exact absurd hn hn'
    | renew hn' => exact absurd hn hn'
  | claim _ hb' => exact absurd hb hb'
  | renew hn _ hR hF =>
    cases hcall' with
    | finish hn' => exact absurd hn' hn
    | claim _ hb' => exact absurd hb hb'
    | renew _ _ hR' hF' =>
      cases hR.symm.trans hR'
      obtain ⟨R₁, F₁, hR₁, hF₁, heq⟩ := hF
      obtain ⟨R₂, F₂, hR₂, hF₂, heq'⟩ := hF'
      cases hR₁.symm.trans hR₂
      cases hF₁.symm.trans hF₂
      cases heq.trans heq'.symm
      exact .inr hsolo

/-- The chunk size before the first batch makes no difference. -/
theorem answers_batchedNext_chunkSize {v : View} {nthreads : Word} {batch : Word → Option Word} {s : Cells} {log : List (Fin P × Ret)}
    (hb : s.barrier = s.next) (k : Word) (h : Answers (v.batchedNext nthreads batch) .idle s log) :
    Answers (v.batchedNext nthreads batch) .idle { s with chunkSize := k } log := by
  refine h.simulate (R := fun s t => t = s ∨ (s.barrier = s.next ∧ t = { s with chunkSize := k })) ?_ (.inr ⟨hb, rfl⟩)
  rintro i s t s' e (rfl | ⟨hb, rfl⟩) hcall
  · exact ⟨s', hcall, .inl rfl⟩
  · rcases solo_batchedNext_chunkSize hb hcall k with ⟨rfl, hsolo⟩ | hsolo
    · exact ⟨_, hsolo, .inr ⟨hb, rfl⟩⟩
    · exact ⟨s', hsolo, .inl rfl⟩

/-! ## The loop -/

/-- An upward loop whose bounds and step are the same numbers as `long` and as `unsigned long long`. -/
structure FitsBoth (start fin incr : Word) : Prop where
  start : 0 ≤ start.toInt
  fin : 0 ≤ fin.toInt
  incr : 0 < incr.toInt

theorem ldiv_eq_uldiv {a b : Word} (ha : a.toNat < 2 ^ 63) (hb : 0 < b.toInt) : ldiv a b = uldiv a b := by
  have hb0 : b ≠ 0#64 := by
    rintro rfl
    exact absurd hb (by decide)
  have hbnat := toNat_of_toInt_nonneg (le_of_lt hb)
  have hbint := toInt_bounds b
  have hamsb : a.msb = false := by
    rw [BitVec.msb_eq_decide]
    exact decide_eq_false (by omega)
  have hbmsb : b.msb = false := by
    rw [BitVec.msb_eq_decide]
    exact decide_eq_false (by omega)
  have htrap : ¬ (b = 0#64 ∨ (a = BitVec.intMin 64 ∧ b = -1#64)) := by
    rintro (h | ⟨h, -⟩)
    · exact hb0 h
    · rw [h] at ha
      exact absurd ha (by decide)
  unfold ldiv uldiv
  rw [if_neg htrap, if_neg hb0, BitVec.sdiv_eq, hamsb, hbmsb]
  rfl

namespace FitsBoth

variable {start fin incr : Word} (h : FitsBoth start fin incr)

include h

theorem canonicalEnd_eq : canonicalEndUll true start fin = canonicalEnd start fin incr := by
  have hs := toNat_of_toInt_nonneg h.start
  have hf := toNat_of_toInt_nonneg h.fin
  have hz : (0#64).toInt = 0 := rfl
  have hi := h.incr
  unfold canonicalEndUll canonicalEnd
  simp only [Bool.or_eq_true, Bool.and_eq_true, BitVec.slt_iff_toInt_lt, BitVec.lt_def, hz, decide_eq_true_eq]
  congr 1
  rw [eq_iff_iff]
  simp only [true_and, Bool.not_true, Bool.false_eq_true, false_and, or_false]
  omega

theorem start_le : start.toNat ≤ (canonicalEnd start fin incr).toNat := by
  have hs := toNat_of_toInt_nonneg h.start
  have hf := toNat_of_toInt_nonneg h.fin
  rw [← h.canonicalEnd_eq]
  unfold canonicalEndUll
  split
  · exact le_refl _
  · rename_i hn
    simp only [Bool.true_and, Bool.not_true, Bool.false_and, Bool.or_false, decide_eq_true_eq, BitVec.lt_def, not_lt] at hn
    exact hn

theorem end_lt : (canonicalEnd start fin incr).toNat < 2 ^ 63 := by
  have hs := toNat_of_toInt_nonneg h.start
  have hf := toNat_of_toInt_nonneg h.fin
  have hsb := toInt_bounds start
  have hfb := toInt_bounds fin
  unfold canonicalEnd
  split <;> omega

theorem numTasks_eq : numTasks start fin incr = uldiv (canonicalEnd start fin incr - start) incr := by
  have hle := h.start_le
  have hlt := h.end_lt
  have hs := toNat_of_toInt_nonneg h.start
  have he := BitVec.toInt_eq_toNat_cond (canonicalEnd start fin incr)
  rw [if_pos (by omega)] at he
  have hfits : SubFits (canonicalEnd start fin incr) start := by
    unfold SubFits
    omega
  have hsub : lsub (canonicalEnd start fin incr) start = some (canonicalEnd start fin incr - start) := if_pos hfits
  unfold numTasks
  rw [hsub, Option.bind_eq_bind, Option.bind_some, ldiv_eq_uldiv _ h.incr]
  rw [toNat_sub_of_le hle]
  omega

end FitsBoth

/-- The two views of a work share of such a loop agree up to its end. -/
theorem views_agree {a b : GompWorkShare D} (hfin : a.fin = b.fin) (hincr : a.incr = b.incr) (hmode : b.mode = 0)
    (hpos : 0 < a.incr.toInt) (hlt : a.fin.toNat < 2 ^ 63) :
    (View.long a).Agree (View.ull b) fun w => w.toNat ≤ a.fin.toNat := by
  have hR : ∀ {s : Word}, s.toNat ≤ a.fin.toNat → (View.long a).remaining s = (View.ull b).remaining s := fun {s} hs => by
    show ldiv (a.fin - s) a.incr = if b.mode = 0 then uldiv (b.fin - s) b.incr else uldiv (s - b.fin) (-b.incr)
    rw [if_pos hmode, ← hfin, ← hincr]
    refine ldiv_eq_uldiv ?_ hpos
    rw [toNat_sub_of_le hs]
    omega
  refine ⟨hfin, ?_, hR, le_refl _, ?_⟩
  · funext s chunk
    show s + chunk * a.incr = if b.mode = 0 then s + chunk * b.incr else s + chunk * -b.incr
    rw [if_pos hmode, hincr]
  · intro s chunk R hs hrem hle
    rw [hR hs] at hrem
    have hrem : (if b.mode = 0 then uldiv (b.fin - s) b.incr else uldiv (s - b.fin) (-b.incr)) = some R := hrem
    rw [if_pos hmode, ← hfin, ← hincr] at hrem
    obtain ⟨-, hRnat⟩ := uldiv_some hrem
    rw [toNat_sub_of_le hs] at hRnat
    have hmul : chunk.toNat * a.incr.toNat ≤ a.fin.toNat - s.toNat := by
      refine le_trans (Nat.mul_le_mul_right _ (BitVec.le_def.1 hle)) ?_
      rw [hRnat]
      exact Nat.div_mul_le_self _ _
    show (s + chunk * a.incr).toNat ≤ a.fin.toNat
    rw [toNat_add_mul (by omega)]
    omega

end Bosched
