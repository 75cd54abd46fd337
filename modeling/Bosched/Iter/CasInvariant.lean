/-
The invariant of the compare-and-swap iterators, for every interleaving of any number of threads:
the chunks returned so far are the positions `ws->next` has passed (`Shared`), and each thread
holds values that were current at some time (`Local.Inv`). A claim succeeds only if `next` still
is where the thread saw it, so stale values of the other words can only change chunk sizes.
-/
import Bosched.Iter.Cas

namespace Bosched

open Lib

/-- The arithmetic of an iterator is right for the loop, read by `rd`, on the claims that meet
`ok`: a claim of a non-zero chunk from a position ends on a later position. -/
structure View.Sound (v : View) (rd : Word → Int) (l : Loop) (ok : Word → Word → Prop) : Prop where
  fin : rd v.fin = l.fin
  inj : ∀ {a b}, rd a = rd b → a = b
  claim : ∀ {start chunk R : Word} {k : Nat}, rd start = l.pos k → k < l.trip →
    v.remaining start = some R → chunk ≠ 0 → ok start chunk →
    ∃ q, k < q ∧ q ≤ l.trip ∧ rd (v.nend start chunk R) = l.pos q

/-- The returned chunks, read by `rd`. -/
def chunks {ι : Type} (rd : Word → Int) (log : List (ι × Ret)) : List (Int × Int) :=
  (returned log).map fun c => (rd c.1, rd c.2)

@[simp] theorem chunks_nil {ι : Type} (rd : Word → Int) : chunks rd ([] : List (ι × Ret)) = [] := rfl

@[simp] theorem chunks_none {ι : Type} (rd : Word → Int) (log : List (ι × Ret)) (i : ι) :
    chunks rd (log ++ [(i, none)]) = chunks rd log := by
  simp [chunks, returned]

@[simp] theorem chunks_some {ι : Type} (rd : Word → Int) (log : List (ι × Ret)) (i : ι) (a b : Word) :
    chunks rd (log ++ [(i, some (a, b))]) = chunks rd log ++ [(rd a, rd b)] := by
  simp [chunks, returned]

/-! ## The invariant -/

/-- Which initial chunk sizes an iterator claims with: `tss` and `tape` compute their own. -/
def CasIter.live : CasIter → Word → Prop
  | .fac2 | .fss => (· ≠ 0)
  | .tss | .tape => fun _ => True

section

variable {ι : Type} (v : View) (rd : Word → Int) (l : Loop) (s0 : Word) (live : Word → Prop)

/-- What holds of the work share and the calls that returned. A chunk size that is not `live` is
the initial one, and then `next` and `barrier` are still at the start `s0`. -/
structure Shared (s : Cells) (log : List (ι × Ret)) : Prop where
  claimed : ∃ k, Claimed l (chunks rd log) k ∧ rd s.next = l.pos k
  done : ∀ i, (i, none) ∈ log → s.next = v.fin
  fresh : ¬ live s.chunkSize → s.next = s0 ∧ s.barrier = s0

/-- `start` is a position that `next` has reached. -/
def Passed (s : Cells) (start : Word) : Prop :=
  ∃ j k, j ≤ k ∧ k ≤ l.trip ∧ rd s.next = l.pos k ∧ rd start = l.pos j

/-- `start` is the value of an iteration. -/
def On (start : Word) : Prop := ∃ j, j < l.trip ∧ rd start = l.pos j

/-- What a thread knows at each point of a call. -/
def Local.Inv (s : Cells) : Local → Prop
  | .idle => True
  | .loadNext chunk => chunk ≠ 0
  | .loadBarrier start => Passed rd l s start ∧ (¬ live s.chunkSize → start = s0)
  | .loadChunk start barrier => Passed rd l s start ∧ (¬ live s.chunkSize → start = s0 ∧ barrier = s0)
  | .casChunk start _ chunk F _ => On rd l start ∧ F ≠ 0 ∧ (chunk ≠ 0 → live s.chunkSize)
  | .reloadNext chunk => chunk ≠ 0 ∧ live s.chunkSize
  | .reloadBarrier start chunk => Passed rd l s start ∧ chunk ≠ 0 ∧ live s.chunkSize
  | .casBarrier start _ F _ => On rd l start ∧ F ≠ 0 ∧ live s.chunkSize
  | .reloadStart _ chunk => chunk ≠ 0 ∧ live s.chunkSize
  | .casNext start chunk nend => On rd l start ∧ chunk ≠ 0 ∧ live s.chunkSize ∧
      ∃ R, v.remaining start = some R ∧ nend = v.nend start chunk R

/-- What a step does for the other threads: `next` only moves forward, and a live chunk size
stays live. -/
structure Advances (s s' : Cells) : Prop where
  next : ∀ k, k ≤ l.trip → rd s.next = l.pos k → ∃ k', k ≤ k' ∧ k' ≤ l.trip ∧ rd s'.next = l.pos k'
  live : live s.chunkSize → live s'.chunkSize

/-- A step logs nothing, or a call that returned false at the end of the loop. -/
def Quiet (s : Cells) (e : Option Ret) : Prop := e = none ∨ (e = some none ∧ s.next = v.fin)

end

/-- A step that moves `next` makes a claim that meets `ok`. -/
def Local.Ok (ok : Word → Word → Prop) (s : Cells) : Local → Prop
  | .casNext start chunk _ => s.next = start → ok start chunk
  | _ => True

instance {ok : Word → Word → Prop} [∀ a b, Decidable (ok a b)] (s : Cells) (l : Local) : Decidable (l.Ok ok s) := by
  cases l <;> unfold Local.Ok <;> infer_instance

/-- Every step of the program that meets `ok` keeps the invariant and only advances. -/
structure Keeps {ι : Type} (v : View) (rd : Word → Int) (l : Loop) (s0 : Word) (live : Word → Prop)
    (ok : Word → Word → Prop) (p : Prog ι Unit Cells Local Ret) : Prop where
  step : ∀ {i : ι} {a : Unit} {s s' : Cells} {loc loc' : Local} {e : Option Ret} {log : List (ι × Ret)},
    Shared v rd l s0 live s log → loc.Inv v rd l s0 live s → loc.Ok ok s → p i a s loc = some (s', loc', e) →
    Shared v rd l s0 live s' (logged log i e) ∧ loc'.Inv v rd l s0 live s' ∧ Advances rd l live s s'

section

variable {ι : Type} {v : View} {rd : Word → Int} {l : Loop} {s0 : Word} {live : Word → Prop}
  {ok : Word → Word → Prop} {s s' : Cells} {log : List (ι × Ret)}

theorem Passed.advance {start : Word} (ha : Advances rd l live s s') (h : Passed rd l s start) :
    Passed rd l s' start := by
  obtain ⟨j, k, hjk, hk, hn, hs⟩ := h
  obtain ⟨k', hk', ht, hn'⟩ := ha.next k hk hn
  exact ⟨j, k', by omega, ht, hn', hs⟩

/-- Another thread's step keeps what a thread knows. -/
theorem Local.Inv.advance {loc : Local} (ha : Advances rd l live s s') (h : loc.Inv v rd l s0 live s) :
    loc.Inv v rd l s0 live s' := by
  cases loc with
  | idle => trivial
  | loadNext chunk => exact h
  | loadBarrier start => exact ⟨h.1.advance ha, fun hl => h.2 fun hl' => hl (ha.live hl')⟩
  | loadChunk start barrier => exact ⟨h.1.advance ha, fun hl => h.2 fun hl' => hl (ha.live hl')⟩
  | casChunk start barrier chunk F nbarrier => exact ⟨h.1, h.2.1, fun hc => ha.live (h.2.2 hc)⟩
  | reloadNext chunk => exact ⟨h.1, ha.live h.2⟩
  | reloadBarrier start chunk => exact ⟨h.1.advance ha, h.2.1, ha.live h.2.2⟩
  | casBarrier start barrier F nbarrier => exact ⟨h.1, h.2.1, ha.live h.2.2⟩
  | reloadStart barrier chunk => exact ⟨h.1, ha.live h.2⟩
  | casNext start chunk nend => exact ⟨h.1, h.2.1, ha.live h.2.2.1, h.2.2.2⟩

theorem Advances.of_next (hn : s'.next = s.next) (hl : live s.chunkSize → live s'.chunkSize) :
    Advances rd l live s s' where
  next k hk h := ⟨k, le_refl k, hk, by rw [hn]; exact h⟩
  live := hl

/-- `next` itself is passed. -/
theorem Shared.passed (hG : Shared v rd l s0 live s log) : Passed rd l s s.next := by
  obtain ⟨k, hc, hk⟩ := hG.claimed
  exact ⟨k, k, le_refl k, hc.le_trip, hk, hk⟩

/-- A step that leaves `next` alone and returns at most false keeps the shared part. -/
theorem Shared.quiet (hG : Shared v rd l s0 live s log) {e : Option Ret} (i : ι) (hn : s'.next = s.next)
    (hf : ¬ live s'.chunkSize → ¬ live s.chunkSize ∧ s'.barrier = s.barrier) (he : Quiet v s e) :
    Shared v rd l s0 live s' (logged log i e) := by
  have hfresh : ¬ live s'.chunkSize → s'.next = s0 ∧ s'.barrier = s0 := by
    intro hl
    obtain ⟨hl', hb⟩ := hf hl
    rw [hn, hb]
    exact hG.fresh hl'
  rcases he with rfl | ⟨rfl, hfin⟩
  · exact ⟨by rw [hn]; exact hG.claimed, fun j hj => by rw [hn]; exact hG.done j hj, hfresh⟩
  · refine ⟨?_, fun _ _ => by rw [hn]; exact hfin, hfresh⟩
    rw [hn, logged_some, chunks_none]
    exact hG.claimed

theorem View.claim_inv {start chunk : Word} {loc : Local} (hon : On rd l start) (hc : chunk ≠ 0)
    (hl : live s.chunkSize) (h : v.claim start chunk = some loc) : loc.Inv v rd l s0 live s := by
  obtain ⟨R, hR, h⟩ := Option.bind_eq_some_iff.1 h
  cases h
  exact ⟨hon, hc, hl, R, hR, rfl⟩

variable (hs : v.Sound rd l ok)

include hs

theorem View.Sound.on_ne_fin {start : Word} (h : On rd l start) : start ≠ v.fin := by
  rintro rfl
  obtain ⟨j, hj, hp⟩ := h
  rw [hs.fin, ← l.pos_trip] at hp
  have := l.pos_inj (le_refl _) (le_of_lt hj) hp
  omega

/-- A passed position is the end only if `next` is, and else it is the value of an iteration. -/
theorem View.Sound.passed_cases {start : Word} (h : Passed rd l s start) :
    (start = v.fin ∧ s.next = v.fin) ∨ (start ≠ v.fin ∧ On rd l start) := by
  obtain ⟨j, k, hjk, hk, hn, hp⟩ := h
  by_cases hj : j < l.trip
  · exact .inr ⟨hs.on_ne_fin ⟨j, hj, hp⟩, j, hj, hp⟩
  · obtain rfl : j = l.trip := by omega
    obtain rfl : k = l.trip := by omega
    rw [l.pos_trip, ← hs.fin] at hn hp
    exact .inl ⟨hs.inj hp, hs.inj hn⟩

/-- A claim that finds `next` where the thread saw it: the chunk joins the returned ones. -/
theorem View.Sound.casNext {start chunk nend : Word} (i : ι) (hG : Shared v rd l s0 live s log)
    (hI : (Local.casNext start chunk nend).Inv v rd l s0 live s) (hok : ok start chunk) (hn : s.next = start) :
    Shared v rd l s0 live { s with next := nend } (log ++ [(i, some (start, nend))]) ∧
      Advances rd l live s { s with next := nend } := by
  obtain ⟨⟨j, hj, hp⟩, hc, hlive, R, hR, rfl⟩ := hI
  obtain ⟨k, hclaimed, hk⟩ := hG.claimed
  obtain rfl : j = k := l.pos_inj (le_of_lt hj) hclaimed.le_trip (by rw [← hp, ← hk, hn])
  obtain ⟨q, hjq, hq, hnend⟩ := hs.claim hp hj hR hc hok
  refine ⟨⟨⟨q, ?_, hnend⟩, ?_, fun hl => absurd hlive hl⟩, ⟨?_, id⟩⟩
  · rw [chunks_some, hp, hnend]
    exact hclaimed.snoc hjq hq
  · intro m hm
    -- no call can have returned false before this one claimed
    have hm' : (m, none) ∈ log := by simpa using hm
    exact absurd (hn.symm.trans (hG.done m hm')) (hs.on_ne_fin ⟨j, hj, hp⟩)
  · intro k' hk' hpos
    obtain rfl : k' = j := l.pos_inj hk' (le_of_lt hj) (by rw [← hpos, hk])
    exact ⟨q, le_of_lt hjq, hq, hnend⟩

/-! ## `fac2` and `fss` -/

/-- The head of the loop body, from a passed position: where the barrier is met any chunk size
will do, since the thread is about to replace it. -/
theorem View.Sound.batchTop {nthreads start barrier chunk : Word} {batch : Word → Option Word} {loc : Local}
    {e : Option Ret} (hp : Passed rd l s start) (hb : barrier = start ∨ chunk ≠ 0) (hc : chunk ≠ 0 → live s.chunkSize)
    (h : v.batchTop nthreads batch start barrier chunk = some (loc, e)) :
    loc.Inv v rd l s0 live s ∧ Quiet v s e := by
  unfold View.batchTop at h
  rcases hs.passed_cases hp with ⟨rfl, hn⟩ | ⟨hne, hon⟩
  · rw [if_pos rfl] at h
    cases h
    exact ⟨trivial, .inr ⟨rfl, hn⟩⟩
  · rw [if_neg hne] at h
    split at h
    · obtain ⟨R, hR, h⟩ := Option.bind_eq_some_iff.1 h
      obtain ⟨F, hF, h⟩ := Option.bind_eq_some_iff.1 h
      by_cases hF1 : F ≤ 1
      · simp only [hF1, if_true] at h
        cases h
        exact ⟨⟨hon, by decide, hc⟩, .inl rfl⟩
      · simp only [hF1, if_false] at h
        cases h
        have hF0 : F ≠ 0 := fun h0 => hF1 (by rw [h0]; decide)
        exact ⟨⟨hon, hF0, hc⟩, .inl rfl⟩
    · rename_i hbs
      obtain ⟨loc', hcl, h⟩ := Option.bind_eq_some_iff.1 h
      cases h
      have hc0 : chunk ≠ 0 := hb.resolve_left hbs
      exact ⟨v.claim_inv hon hc0 (hc hc0) hcl, .inl rfl⟩

/-- The steps of `fac2` and `fss`. -/
theorem View.Sound.batchedNext (s0 nthreads : Word) (batch : Word → Option Word) :
    Keeps v rd l s0 (· ≠ 0) ok (v.batchedNext nthreads batch : Prog ι Unit Cells Local Ret) := by
  constructor
  intro i a s s' loc loc' e log hG hI hok h
  have hrefl : Advances rd l (· ≠ 0) s s := .of_next rfl id
  have hquiet : ∀ {e}, Quiet v s e → Shared v rd l s0 (· ≠ 0) s (logged log i e) :=
    fun he => hG.quiet i rfl (fun hl => ⟨hl, rfl⟩) he
  have htop : ∀ {start barrier chunk r}, Passed rd l s start → barrier = start ∨ chunk ≠ 0 →
      (chunk ≠ 0 → s.chunkSize ≠ 0) → v.batchTop nthreads batch start barrier chunk = some r →
      r.1.Inv v rd l s0 (· ≠ 0) s ∧ Quiet v s r.2 :=
    fun hp hb hc ht => hs.batchTop hp hb hc ht
  cases loc with
  | idle =>
    cases h
    exact ⟨hquiet (.inl rfl), ⟨hG.passed, fun hl => (hG.fresh hl).1⟩, hrefl⟩
  | loadNext chunk => cases h
  | loadBarrier start =>
    cases h
    exact ⟨hquiet (.inl rfl), ⟨hI.1, fun hl => ⟨hI.2 hl, (hG.fresh hl).2⟩⟩, hrefl⟩
  | loadChunk start barrier =>
    obtain ⟨⟨_, _⟩, ht, h⟩ := Option.bind_eq_some_iff.1 h
    cases h
    have hb : barrier = start ∨ s.chunkSize ≠ 0 := by
      by_cases h0 : s.chunkSize = 0
      · obtain ⟨h1, h2⟩ := hI.2 (fun hl => hl h0)
        exact .inl (h2.trans h1.symm)
      · exact .inr h0
    obtain ⟨hinv, hq⟩ := htop hI.1 hb id ht
    exact ⟨hquiet hq, hinv, hrefl⟩
  | casChunk start barrier chunk F nbarrier =>
    obtain ⟨hon, hF, hl⟩ := hI
    simp only [View.batchedNext] at h
    split at h
    · cases h
      exact ⟨hG.quiet i rfl (fun hl => absurd hF hl) (.inl rfl), ⟨hon, hF, hF⟩, .of_next rfl fun _ => hF⟩
    · rename_i hne
      cases h
      -- the thread read zero only if the word is no longer zero now
      have hlive : s.chunkSize ≠ 0 := fun h0 => by
        by_cases hc : chunk = 0
        · exact hne (h0.trans hc.symm)
        · exact hl hc h0
      exact ⟨hquiet (.inl rfl), ⟨hlive, hlive⟩, hrefl⟩
  | reloadNext chunk =>
    cases h
    exact ⟨hquiet (.inl rfl), ⟨hG.passed, hI.1, hI.2⟩, hrefl⟩
  | reloadBarrier start chunk =>
    obtain ⟨⟨_, _⟩, ht, h⟩ := Option.bind_eq_some_iff.1 h
    cases h
    obtain ⟨hinv, hq⟩ := htop hI.1 (.inr hI.2.1) (fun _ => hI.2.2) ht
    exact ⟨hquiet hq, hinv, hrefl⟩
  | casBarrier start barrier F nbarrier =>
    obtain ⟨hon, hF, hl⟩ := hI
    simp only [View.batchedNext] at h
    split at h
    · obtain ⟨loc', hcl, h⟩ := Option.bind_eq_some_iff.1 h
      cases h
      exact ⟨hG.quiet i rfl (fun hl' => absurd hl hl') (.inl rfl), v.claim_inv hon hF hl hcl, .of_next rfl id⟩
    · cases h
      exact ⟨hquiet (.inl rfl), ⟨hF, hl⟩, hrefl⟩
  | reloadStart barrier chunk =>
    obtain ⟨⟨_, _⟩, ht, h⟩ := Option.bind_eq_some_iff.1 h
    cases h
    obtain ⟨hinv, hq⟩ := htop hG.passed (.inr hI.1) (fun _ => hI.2) ht
    exact ⟨hquiet hq, hinv, hrefl⟩
  | casNext start chunk nend =>
    simp only [View.batchedNext] at h
    split at h
    · rename_i hn
      cases h
      obtain ⟨hG', ha⟩ := hs.casNext i hG hI (hok hn) hn
      exact ⟨hG', trivial, ha⟩
    · cases h
      exact ⟨hquiet (.inl rfl), ⟨hG.passed, fun hl => absurd hI.2.2.1 hl⟩, hrefl⟩

/-! ## `tss` and `tape` -/

theorem View.Sound.ticketTop {start chunk : Word} {loc : Local} {e : Option Ret} (hp : Passed rd l s start)
    (hc : chunk ≠ 0) (hl : live s.chunkSize) (h : v.ticketTop start chunk = some (loc, e)) :
    loc.Inv v rd l s0 live s ∧ Quiet v s e := by
  unfold View.ticketTop at h
  rcases hs.passed_cases hp with ⟨rfl, hn⟩ | ⟨hne, hon⟩
  · rw [if_pos rfl] at h
    cases h
    exact ⟨trivial, .inr ⟨rfl, hn⟩⟩
  · rw [if_neg hne] at h
    obtain ⟨loc', hcl, h⟩ := Option.bind_eq_some_iff.1 h
    cases h
    exact ⟨v.claim_inv hon hc hl hcl, .inl rfl⟩

/-- The steps of `tss`. -/
theorem View.Sound.ticketNext (s0 : Word) {chunkOf : Word → Word} (hchunk : ∀ n, chunkOf n ≠ 0) :
    Keeps v rd l s0 (fun _ => True) ok (v.ticketNext chunkOf : Prog ι Unit Cells Local Ret) := by
  constructor
  intro i a s s' loc loc' e log hG hI hok h
  have hrefl : Advances rd l (fun _ => True) s s := .of_next rfl id
  have hquiet : ∀ {e}, Quiet v s e → Shared v rd l s0 (fun _ => True) s (logged log i e) :=
    fun he => hG.quiet i rfl (fun hl => ⟨hl, rfl⟩) he
  have hretry : ∀ {chunk r}, chunk ≠ 0 → v.ticketTop s.next chunk = some r →
      r.1.Inv v rd l s0 (fun _ => True) s ∧ Quiet v s r.2 :=
    fun hc ht => hs.ticketTop hG.passed hc trivial ht
  cases loc with
  | idle =>
    cases h
    exact ⟨hG.quiet i rfl (fun hl => absurd trivial hl) (.inl rfl), hchunk _, .of_next rfl id⟩
  | loadNext chunk =>
    obtain ⟨⟨_, _⟩, ht, h⟩ := Option.bind_eq_some_iff.1 h
    cases h
    obtain ⟨hinv, hq⟩ := hretry hI ht
    exact ⟨hquiet hq, hinv, hrefl⟩
  | casNext start chunk nend =>
    simp only [View.ticketNext] at h
    split at h
    · rename_i hn
      cases h
      obtain ⟨hG', ha⟩ := hs.casNext i hG hI (hok hn) hn
      exact ⟨hG', trivial, ha⟩
    · obtain ⟨⟨_, _⟩, ht, h⟩ := Option.bind_eq_some_iff.1 h
      cases h
      obtain ⟨hinv, hq⟩ := hretry hI.2.1 ht
      exact ⟨hquiet hq, hinv, hrefl⟩
  | loadBarrier | loadChunk | casChunk | reloadNext | reloadBarrier | casBarrier | reloadStart => cases h

theorem View.Sound.guidedTop {guide : Word → Word} (hguide : ∀ R, guide R ≠ 0) {start : Word} {loc : Local}
    {e : Option Ret} (hp : Passed rd l s start) (hl : live s.chunkSize)
    (h : v.guidedTop guide start = some (loc, e)) : loc.Inv v rd l s0 live s ∧ Quiet v s e := by
  unfold View.guidedTop at h
  rcases hs.passed_cases hp with ⟨rfl, hn⟩ | ⟨hne, hon⟩
  · rw [if_pos rfl] at h
    cases h
    exact ⟨trivial, .inr ⟨rfl, hn⟩⟩
  · rw [if_neg hne] at h
    obtain ⟨R, hR, h⟩ := Option.bind_eq_some_iff.1 h
    obtain ⟨loc', hcl, h⟩ := Option.bind_eq_some_iff.1 h
    cases h
    exact ⟨v.claim_inv hon (hguide R) hl hcl, .inl rfl⟩

/-- The steps of `tape`. -/
theorem View.Sound.guidedNext (s0 : Word) {guide : Word → Word} (hguide : ∀ R, guide R ≠ 0) :
    Keeps v rd l s0 (fun _ => True) ok (v.guidedNext guide : Prog ι Unit Cells Local Ret) := by
  constructor
  intro i a s s' loc loc' e log hG hI hok h
  have hrefl : Advances rd l (fun _ => True) s s := .of_next rfl id
  have hquiet : ∀ {e}, Quiet v s e → Shared v rd l s0 (fun _ => True) s (logged log i e) :=
    fun he => hG.quiet i rfl (fun hl => ⟨hl, rfl⟩) he
  have hretry : ∀ {r}, v.guidedTop guide s.next = some r → r.1.Inv v rd l s0 (fun _ => True) s ∧ Quiet v s r.2 :=
    fun ht => hs.guidedTop hguide hG.passed trivial ht
  cases loc with
  | idle =>
    obtain ⟨⟨_, _⟩, ht, h⟩ := Option.bind_eq_some_iff.1 h
    cases h
    exact ⟨hquiet (hretry ht).2, (hretry ht).1, hrefl⟩
  | casNext start chunk nend =>
    simp only [View.guidedNext] at h
    split at h
    · rename_i hn
      cases h
      obtain ⟨hG', ha⟩ := hs.casNext i hG hI (hok hn) hn
      exact ⟨hG', trivial, ha⟩
    · obtain ⟨⟨_, _⟩, ht, h⟩ := Option.bind_eq_some_iff.1 h
      cases h
      exact ⟨hquiet (hretry ht).2, (hretry ht).1, hrefl⟩
  | loadNext | loadBarrier | loadChunk | casChunk | reloadNext | reloadBarrier | casBarrier | reloadStart => cases h

end

/-! ## Whole runs -/

section

variable {ι : Type} {v : View} {rd : Word → Int} {l : Loop} {s0 : Word} {live : Word → Prop}
  {ok : Word → Word → Prop} [∀ a b, Decidable (ok a b)] {p : Prog ι Unit Cells Local Ret}

theorem Keeps.invariant (h : Keeps v rd l s0 live ok p) :
    Invariant (p.only fun _ _ s loc => loc.Ok ok s) (Shared v rd l s0 live) (fun _ s loc => loc.Inv v rd l s0 live s) where
  own hG hI hp := by
    obtain ⟨hok, hp⟩ := Prog.only_eq_some.1 hp
    obtain ⟨hG', hI', -⟩ := h.step hG hI hok hp
    exact ⟨hG', hI'⟩
  other hG hI hp _ hJ := by
    obtain ⟨hok, hp⟩ := Prog.only_eq_some.1 hp
    exact hJ.advance (h.step hG hI hok hp).2.2

/-- A work share in which no thread has taken a chunk. -/
theorem shared_entry {D : Type} (ws : GompWorkShare D) (hstart : rd ws.next = l.pos 0)
    (hfresh : ¬ live ws.chunkSize → ws.barrier = ws.next) :
    Holds (Shared v rd l ws.next live) (fun _ s loc => loc.Inv v rd l ws.next live s) (entry ws : Cfg ι Cells Local Ret) :=
  ⟨⟨⟨0, .nil, hstart⟩, nofun, fun hl => ⟨rfl, hfresh hl⟩⟩, fun _ => trivial⟩

/-- The returned chunks tile the loop once `next` is at its end. -/
theorem Shared.tiles {s : Cells} {log : List (ι × Ret)} (hG : Shared v rd l s0 live s log) (hfin : rd s.next = l.fin) :
    Tiles l (chunks rd log) := by
  obtain ⟨k, hc, hk⟩ := hG.claimed
  obtain rfl : k = l.trip := l.pos_inj hc.le_trip (le_refl _) (by rw [← hk, hfin, l.pos_trip])
  exact hc.tiles

variable [DecidableEq ι]

/-- The initial chunk size of a work share is zero only together with a barrier at the start. -/
theorem SameLoop.fresh {D : Type} {ws ws' : GompWorkShare D} (h : SameLoop ws ws') (hb : ws.barrier = ws.next)
    {it : CasIter} (hl : ¬ it.live ws'.chunkSize) : ws'.barrier = ws'.next := by
  have h0 : ws'.chunkSize = 0 := by
    cases it with
    | fac2 | fss => exact not_not.1 hl
    | tss | tape => exact absurd trivial hl
  rw [h.barrier h0, h.next, hb]

/-- In every run whose claims meet `ok`, what was returned is what `next` has passed. -/
theorem Keeps.reach {D : Type} {ws : GompWorkShare D} (h : Keeps v rd l ws.next live ok p)
    (hstart : rd ws.next = l.pos 0) (hfresh : ¬ live ws.chunkSize → ws.barrier = ws.next) {c : Cfg ι Cells Local Ret}
    (hr : Reach (p.only fun _ _ s loc => loc.Ok ok s) (entry ws) c) :
    Holds (Shared v rd l ws.next live) (fun _ s loc => loc.Inv v rd l ws.next live s) c :=
  h.invariant.reach (shared_entry ws hstart hfresh) hr

end

end Bosched
