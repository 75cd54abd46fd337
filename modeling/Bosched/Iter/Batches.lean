/-
The batches of `bo_iter_fac2_next` and `bo_iter_fss_next`. A batch is published in two
compare-and-swaps, of `chunk_size` and of `barrier`, and a thread that loses one of them goes on
with values it read at different times. As long as no thread acts on such a value, `next` reaches
every barrier exactly.
-/
import Bosched.Iter.Css
import Bosched.Runtime.Exact

namespace Bosched

open Lib

/-! ## The law -/

/-- `F` and `nbarrier` of the batch that begins at `start`. -/
def View.NewBatch (v : View) (nthreads : Word) (batch : Word → Option Word) (start F nbarrier : Word) : Prop :=
  ∃ R F₀, v.remaining start = some R ∧ batch R = some F₀ ∧
    (F, nbarrier) = if F₀ ≤ 1 then (1, v.fin) else (F₀, v.advance start (F₀ * nthreads))

theorem View.NewBatch.unique {v : View} {nthreads start F nbarrier F' nbarrier' : Word} {batch : Word → Option Word}
    (h : v.NewBatch nthreads batch start F nbarrier) (h' : v.NewBatch nthreads batch start F' nbarrier') : F = F' := by
  obtain ⟨R, F₀, hR, hF, heq⟩ := h
  obtain ⟨R', F₀', hR', hF', heq'⟩ := h'
  cases hR.symm.trans hR'
  cases hF.symm.trans hF'
  exact congrArg Prod.fst (heq.trans heq'.symm)

/-- `nbarrier` is `barrier + F * nthreads * incr`, without wrapping around. -/
def Exact (incr : Int) (nthreads barrier F nbarrier : Word) : Prop :=
  nbarrier.toInt = barrier.toInt + F.toNat * nthreads.toNat * incr

instance (incr : Int) (nthreads barrier F nbarrier : Word) : Decidable (Exact incr nthreads barrier F nbarrier) := by
  unfold Exact; infer_instance

/-- What a thread acts on is current: it publishes a batch for the barrier it saw, and that barrier
does not wrap around, it reloads `next` for the barrier it just read, and it claims with the chunk
size of the work share. -/
def Local.Current (fin : Word) (incr : Int) (nthreads : Word) (s : Cells) : Local → Prop
  | .casChunk _ barrier chunk _ _ => s.chunkSize = chunk → s.barrier = barrier
  | .casBarrier _ barrier F nbarrier => s.barrier = barrier → nbarrier = fin ∨ Exact incr nthreads barrier F nbarrier
  | .reloadStart barrier _ => s.barrier = barrier
  | .casNext start chunk _ => s.next = start → chunk = s.chunkSize
  | _ => True

instance (fin : Word) (incr : Int) (nthreads : Word) (s : Cells) (loc : Local) :
    Decidable (loc.Current fin incr nthreads s) :=
  match loc with
  | .casChunk _ barrier chunk _ _ => inferInstanceAs (Decidable (s.chunkSize = chunk → s.barrier = barrier))
  | .casBarrier _ barrier F nbarrier =>
    inferInstanceAs (Decidable (s.barrier = barrier → nbarrier = fin ∨ Exact incr nthreads barrier F nbarrier))
  | .reloadStart barrier _ => inferInstanceAs (Decidable (s.barrier = barrier))
  | .casNext start chunk _ => inferInstanceAs (Decidable (s.next = start → chunk = s.chunkSize))
  | .idle | .loadNext _ | .loadBarrier _ | .loadChunk .. | .reloadNext _ | .reloadBarrier .. => .isTrue trivial

/-- `next` is not past `barrier`, unless it is at the end; no thread claims from the barrier, and
the barrier moves only once `next` is there, together with a chunk size computed from what remains. -/
structure BatchLaw {ι : Type} (v : View) (incr : Int) (nthreads : Word) (batch : Word → Option Word)
    (p : Prog ι Unit Cells Local Ret) (c : Cfg ι Cells Local Ret) : Prop where
  hit : c.shared.next = v.fin ∨ ¬ Before incr c.shared.barrier.toInt c.shared.next.toInt
  claims : ∀ i s loc e, p i () c.shared (c.loc i) = some (s, loc, e) → s.next ≠ c.shared.next →
    c.shared.next ≠ c.shared.barrier
  renews : ∀ i s loc e, p i () c.shared (c.loc i) = some (s, loc, e) → s.barrier ≠ c.shared.barrier →
    (c.shared.next = c.shared.barrier ∨ c.shared.next = v.fin) ∧
      v.NewBatch nthreads batch c.shared.barrier s.chunkSize s.barrier

/-! ## The invariant -/

section

variable (v : View) (l : Loop) (nthreads : Word) (batch : Word → Option Word)

/-- The barrier is a whole number of chunks ahead of `next`. -/
def Aligned (s : Cells) : Prop :=
  s.next = v.fin ∨ s.barrier = v.fin ∨
    ∃ m : Nat, s.barrier.toInt = s.next.toInt + m * (s.chunkSize.toNat * l.incr)

/-- The barrier is not before a position that was taken from `next`. -/
def NotBehind (s : Cells) (start : Word) : Prop := start ≠ v.fin → ¬ Before l.incr s.barrier.toInt start.toInt

/-- While `next` is where the thread saw it, the barrier is somewhere else. -/
def Ahead (s : Cells) (start : Word) : Prop := s.next = start → s.barrier ≠ start

/-- A thread that is about to publish a batch. -/
structure Opens (s : Cells) (start barrier F nbarrier : Word) : Prop where
  passed : Passed BitVec.toInt l s start
  behind : NotBehind v l s start
  barrier : barrier = start
  ne_fin : start ≠ v.fin
  batch : v.NewBatch nthreads batch start F nbarrier

/-- What a thread knows of the current batch at each point of a call. -/
def Local.Batch (s : Cells) : Local → Prop
  | .loadBarrier start => Passed BitVec.toInt l s start ∧ NotBehind v l s start
  | .loadChunk start barrier => Passed BitVec.toInt l s start ∧ NotBehind v l s start ∧
      (barrier ≠ start → start ≠ v.fin → Ahead s start)
  | .casChunk start barrier _ F nbarrier => Opens v l nthreads batch s start barrier F nbarrier
  | .reloadBarrier start _ => Passed BitVec.toInt l s start ∧ NotBehind v l s start
  | .casBarrier start barrier F nbarrier => Opens v l nthreads batch s start barrier F nbarrier ∧
      (s.barrier = start → s.chunkSize = F)
  | .casNext start _ _ => start ≠ v.fin ∧ Passed BitVec.toInt l s start ∧ NotBehind v l s start ∧ Ahead s start
  | _ => True

/-- What a step of any thread does to the work share. -/
inductive BatchStep (s : Cells) : Cells → Prop
  | stay : BatchStep s s
  | publish {F nbarrier : Word} (hF : v.NewBatch nthreads batch s.barrier F nbarrier)
      (hn : s.next = s.barrier ∨ s.next = v.fin) : BatchStep s { s with chunkSize := F }
  | renew {nbarrier : Word} (hF : v.NewBatch nthreads batch s.barrier s.chunkSize nbarrier) (hon : On BitVec.toInt l s.barrier)
      (hnb : nbarrier = v.fin ∨ Exact l.incr nthreads s.barrier s.chunkSize nbarrier)
      (hn : s.next = s.barrier ∨ s.next = v.fin) : BatchStep s { s with barrier := nbarrier }
  | claim {R : Word} (hR : v.remaining s.next = some R) (hne : s.next ≠ v.fin) (hb : s.barrier ≠ s.next)
      (hlive : s.chunkSize ≠ 0) : BatchStep s { s with next := v.nend s.next s.chunkSize R }

end

section

variable {ι : Type} {v : View} {l : Loop} {nthreads : Word} {batch : Word → Option Word} {s s' : Cells}
  {log : List (ι × Ret)} {s0 : Word}

theorem not_before_add {incr a : Int} (n : Nat) : ¬ Before incr (a + n * incr) a := by
  have hn : (0 : Int) ≤ n := Int.natCast_nonneg n
  by_cases hp : 0 < incr
  · rw [before_pos hp]
    have := Int.mul_nonneg hn (le_of_lt hp)
    omega
  · rw [before_neg hp]
    have := Int.mul_nonpos_of_nonneg_of_nonpos hn (not_lt.1 hp)
    omega

theorem not_before_trans {incr a b c : Int} (h : ¬ Before incr b a) (h' : ¬ Before incr c b) : ¬ Before incr c a :=
  fun hca => h (Before.of_not_before h' hca)

/-- `next` is not past the barrier. -/
theorem Aligned.hit (hs : v.Sound BitVec.toInt l fun _ _ => True) (hA : Aligned v l s)
    (hp : Passed BitVec.toInt l s s.next) : NotBehind v l s s.next := by
  intro hne
  rcases hA with hn | hb | ⟨m, hm⟩
  · exact absurd hn hne
  · obtain ⟨hfin, -⟩ | ⟨-, j, hj, hpos⟩ := hs.passed_cases hp
    · exact absurd hfin hne
    · rw [hb, hs.fin, hpos, l.pos_of_lt hj]
      exact ((l.before_fin_iff j).2 hj).asymm
  · rw [hm, ← mul_assoc, ← Nat.cast_mul]
    exact not_before_add _

/-- A barrier that was taken from `next` is where `next` is. -/
theorem next_eq_barrier (hs : v.Sound BitVec.toInt l fun _ _ => True) (hA : Aligned v l s)
    (hG : Shared v BitVec.toInt l s0 (· ≠ 0) s log) (hp : Passed BitVec.toInt l s s.barrier) :
    s.next = s.barrier ∨ s.next = v.fin := by
  by_cases hne : s.next = v.fin
  · exact .inr hne
  · refine .inl (hs.inj ?_)
    have hhit := hA.hit hs hG.passed hne
    obtain ⟨j, k, hjk, hk, hn, hb⟩ := hp
    refine eq_of_not_before ?_ hhit
    rw [hn, hb]
    rcases Nat.lt_or_ge k l.trip with hlt | hge
    · rw [l.pos_of_lt hlt, l.before_pos_iff hlt]
      omega
    · rw [l.pos_of_le hge, ← hs.fin] at hn
      exact absurd (hs.inj hn) hne

theorem BatchStep.aligned (hs : v.Sound BitVec.toInt l fun _ _ => True)
    (hadv : ∀ {start chunk R : Word}, On BitVec.toInt l start → v.remaining start = some R → chunk < R →
      (v.advance start chunk).toInt = start.toInt + chunk.toNat * l.incr)
    (hG : Shared v BitVec.toInt l s0 (· ≠ 0) s log) (hA : Aligned v l s) (h : BatchStep v l nthreads batch s s') :
    Aligned v l s' := by
  cases h with
  | stay => exact hA
  | publish hF hn =>
    rcases hn with hn | hn
    · exact .inr (.inr ⟨0, by simp [hn]⟩)
    · exact .inl hn
  | renew hF hon hnb hn =>
    rcases hnb with rfl | hnb
    · exact .inr (.inl rfl)
    · rcases hn with hn | hn
      · refine .inr (.inr ⟨nthreads.toNat, ?_⟩)
        show _ = s.next.toInt + _
        unfold Exact at hnb
        rw [hnb, hn]
        ring
      · exact .inl hn
  | claim hR hne hb hlive =>
    rcases hA with hn | hbar | ⟨m, hm⟩
    · exact absurd hn hne
    · exact .inr (.inl hbar)
    · unfold View.nend
      split
      · rename_i hlt
        have hon : On BitVec.toInt l s.next := ((hs.passed_cases hG.passed).resolve_left fun h => hne h.1).2
        cases m with
        | zero => exact absurd (hs.inj (by simpa using hm)) hb
        | succ m =>
          refine .inr (.inr ⟨m, ?_⟩)
          show s.barrier.toInt = (v.advance s.next s.chunkSize).toInt + _
          rw [hm, hadv hon hR hlt]
          push_cast
          ring
      · exact .inl rfl

theorem BatchStep.notBehind (hs : v.Sound BitVec.toInt l fun _ _ => True) {start : Word}
    (h : BatchStep v l nthreads batch s s') (hb : NotBehind v l s start) : NotBehind v l s' start := by
  cases h with
  | stay | publish | claim => exact hb
  | renew hF hon hnb hn =>
    intro hne
    refine not_before_trans (hb hne) ?_
    rcases hnb with rfl | hnb
    · obtain ⟨j, hj, hpos⟩ := hon
      rw [hs.fin, hpos, l.pos_of_lt hj]
      exact ((l.before_fin_iff j).2 hj).asymm
    · unfold Exact at hnb
      rw [hnb, ← Nat.cast_mul]
      exact not_before_add _

/-- `next` never comes back to a position it has left. -/
theorem BatchStep.ahead (hs : v.Sound BitVec.toInt l fun _ _ => True) {start : Word} (hne : start ≠ v.fin)
    (h : BatchStep v l nthreads batch s s') (hp : Passed BitVec.toInt l s start) (ha : Ahead s start) :
    Ahead s' start := by
  cases h with
  | stay | publish => exact ha
  | renew hF hon hnb hn =>
    intro hstart
    rcases hn with hn | hn
    · exact absurd (hn.symm.trans hstart) (ha hstart)
    · exact absurd (hstart.symm.trans hn) hne
  | claim hR hnext hb hlive =>
    intro hstart
    obtain ⟨i, k, hik, hk, hn, hi⟩ := hp
    have hkt : k < l.trip := by
      by_contra hge
      rw [l.pos_of_le (by omega), ← hs.fin] at hn
      exact hnext (hs.inj hn)
    obtain ⟨q, hkq, hq, hnend⟩ := hs.claim hn hkt hR hlive trivial
    have := l.pos_inj (by omega : i ≤ l.trip) hq (by rw [← hi, ← hnend, ← hstart])
    omega

/-- What a thread knows of its batch survives the steps of the others. -/
theorem Local.Batch.advance (hs : v.Sound BitVec.toInt l fun _ _ => True) {loc : Local}
    (ha : Advances BitVec.toInt l (· ≠ 0) s s') (h : BatchStep v l nthreads batch s s')
    (hB : loc.Batch v l nthreads batch s) : loc.Batch v l nthreads batch s' := by
  have hopens : ∀ {start barrier F nbarrier}, Opens v l nthreads batch s start barrier F nbarrier →
      Opens v l nthreads batch s' start barrier F nbarrier :=
    fun ho => ⟨ho.passed.advance ha, h.notBehind hs ho.behind, ho.barrier, ho.ne_fin, ho.batch⟩
  cases loc with
  | idle | loadNext | reloadNext | reloadStart => trivial
  | loadBarrier start | reloadBarrier start => exact ⟨hB.1.advance ha, h.notBehind hs hB.2⟩
  | loadChunk start barrier =>
    obtain ⟨hp, hb, hah⟩ := hB
    exact ⟨hp.advance ha, h.notBehind hs hb, fun hne hfin => h.ahead hs hfin hp (hah hne hfin)⟩
  | casChunk start barrier chunk F nbarrier => exact hopens hB
  | casBarrier start barrier F nbarrier =>
    obtain ⟨ho, hF⟩ := hB
    refine ⟨hopens ho, fun hstart => ?_⟩
    cases h with
    | stay | claim => exact hF hstart
    | publish hnew hn =>
      -- another thread publishes the same batch
      rw [show s.barrier = start from hstart] at hnew
      exact hnew.unique ho.batch
    | @renew nbarrier' hnew hon hnb hn =>
      change nbarrier' = start at hstart
      -- the barrier does not move back to `start`
      have hnot : ¬ Before l.incr start.toInt s.barrier.toInt := by
        rcases hnb with rfl | hnb
        · exact absurd hstart.symm ho.ne_fin
        · unfold Exact at hnb
          rw [hstart] at hnb
          rw [hnb, ← Nat.cast_mul]
          exact not_before_add _
      exact hF (hs.inj (eq_of_not_before (ho.behind ho.ne_fin) hnot))
  | casNext start chunk nend =>
    obtain ⟨hne, hp, hb, hah⟩ := hB
    exact ⟨hne, hp.advance ha, h.notBehind hs hb, h.ahead hs hne hp hah⟩

/-- The head of the loop body, from a position and a barrier that were read in this order. -/
theorem batchTop_batch {start barrier chunk : Word} {loc : Local}
    {e : Option Ret} (hp : Passed BitVec.toInt l s start) (hb : NotBehind v l s start)
    (hah : barrier ≠ start → start ≠ v.fin → Ahead s start)
    (h : v.batchTop nthreads batch start barrier chunk = some (loc, e)) : loc.Batch v l nthreads batch s := by
  unfold View.batchTop at h
  split at h
  · cases h
    trivial
  · rename_i hne
    split at h
    · rename_i hbar
      obtain ⟨R, hR, h⟩ := Option.bind_eq_some_iff.1 h
      obtain ⟨F₀, hF, h⟩ := Option.bind_eq_some_iff.1 h
      by_cases hF1 : F₀ ≤ 1
      · simp only [hF1, if_true] at h
        cases h
        exact ⟨hp, hb, hbar, hne, R, F₀, hR, hF, by rw [if_pos hF1]⟩
      · simp only [hF1, if_false] at h
        cases h
        exact ⟨hp, hb, hbar, hne, R, F₀, hR, hF, by rw [if_neg hF1, hbar]⟩
    · rename_i hbar
      obtain ⟨loc', hcl, h⟩ := Option.bind_eq_some_iff.1 h
      cases h
      obtain ⟨R, hR, hcl⟩ := Option.bind_eq_some_iff.1 hcl
      cases hcl
      exact ⟨hne, hp, hb, hah hbar hne⟩

/-- A barrier that leaves the start of its batch. -/
theorem View.NewBatch.ne_start (hP : nthreads ≠ 0) {start F nbarrier : Word} (hne : start ≠ v.fin)
    (hF : v.NewBatch nthreads batch start F nbarrier) (hnb : nbarrier = v.fin ∨ Exact l.incr nthreads start F nbarrier) :
    nbarrier ≠ start := by
  rintro rfl
  rcases hnb with rfl | hnb
  · exact hne rfl
  · obtain ⟨R, F₀, -, -, heq⟩ := hF
    split at heq
    · exact hne (congrArg Prod.snd heq)
    · rename_i hF1
      obtain rfl : F = F₀ := congrArg Prod.fst heq
      unfold Exact at hnb
      have h1 : (F.toNat : Int) * nthreads.toNat * l.incr = 0 := by omega
      have hF0 : (F.toNat : Int) ≠ 0 := fun h0 => hF1 (by
        rw [BitVec.le_def]
        have : F.toNat = 0 := by exact_mod_cast h0
        omega)
      have hP0 : (nthreads.toNat : Int) ≠ 0 := fun h0 => hP (BitVec.eq_of_toNat_eq (by exact_mod_cast h0))
      exact mul_ne_zero (mul_ne_zero hF0 hP0) l.incr_ne h1

/-- The steps of `fac2` and `fss` on current values. -/
theorem View.Sound.batchedNext_batch (hs : v.Sound BitVec.toInt l fun _ _ => True) (hP : nthreads ≠ 0) {i : ι} {a : Unit}
    {loc loc' : Local} {e : Option Ret} (hG : Shared v BitVec.toInt l s0 (· ≠ 0) s log) (hA : Aligned v l s)
    (hI : loc.Inv v BitVec.toInt l s0 (· ≠ 0) s) (hB : loc.Batch v l nthreads batch s)
    (hok : loc.Current v.fin l.incr nthreads s)
    (h : v.batchedNext nthreads batch i a s loc = some (s', loc', e)) :
    BatchStep v l nthreads batch s s' ∧
      (Advances BitVec.toInt l (· ≠ 0) s s' → loc'.Batch v l nthreads batch s') := by
  have hnext : NotBehind v l s s.next := hA.hit hs hG.passed
  cases loc with
  | idle =>
    cases h
    exact ⟨.stay, fun _ => ⟨hG.passed, hnext⟩⟩
  | loadNext chunk => cases h
  | loadBarrier start =>
    cases h
    exact ⟨.stay, fun _ => ⟨hB.1, hB.2, fun hne _ _ => hne⟩⟩
  | loadChunk start barrier =>
    obtain ⟨⟨_, _⟩, ht, h⟩ := Option.bind_eq_some_iff.1 h
    cases h
    exact ⟨.stay, fun _ => batchTop_batch hB.1 hB.2.1 hB.2.2 ht⟩
  | casChunk start barrier chunk F nbarrier =>
    simp only [View.batchedNext] at h
    split at h
    · rename_i hc
      cases h
      have hbar : s.barrier = start := (hok hc).trans hB.barrier
      have hstep : BatchStep v l nthreads batch s { s with chunkSize := F } :=
        .publish (hbar ▸ hB.batch) (next_eq_barrier hs hA hG (hbar ▸ hB.passed))
      exact ⟨hstep, fun ha => ⟨⟨hB.passed.advance ha, hstep.notBehind hs hB.behind, hB.barrier, hB.ne_fin, hB.batch⟩,
        fun _ => rfl⟩⟩
    · cases h
      exact ⟨.stay, fun _ => trivial⟩
  | reloadNext chunk =>
    cases h
    exact ⟨.stay, fun _ => ⟨hG.passed, hnext⟩⟩
  | reloadBarrier start chunk =>
    obtain ⟨⟨_, _⟩, ht, h⟩ := Option.bind_eq_some_iff.1 h
    cases h
    exact ⟨.stay, fun _ => batchTop_batch hB.1 hB.2 (fun hne _ _ => hne) ht⟩
  | casBarrier start barrier F nbarrier =>
    obtain ⟨ho, hF⟩ := hB
    simp only [View.batchedNext] at h
    split at h
    · rename_i hc
      obtain ⟨loc', hcl, h⟩ := Option.bind_eq_some_iff.1 h
      cases h
      obtain ⟨R, hR, hcl⟩ := Option.bind_eq_some_iff.1 hcl
      cases hcl
      have hbar : s.barrier = start := hc.trans ho.barrier
      have hchunk := hF hbar
      have hnb : nbarrier = v.fin ∨ Exact l.incr nthreads start F nbarrier := by
        have := hok hc
        rwa [ho.barrier] at this
      have hstep : BatchStep v l nthreads batch s { s with barrier := nbarrier } := by
        refine .renew ?_ ?_ ?_ (next_eq_barrier hs hA hG (hbar ▸ ho.passed))
        · rw [hbar, hchunk]; exact ho.batch
        · rw [hbar]; exact hI.1
        · rw [hbar, hchunk]; exact hnb
      exact ⟨hstep, fun ha => ⟨ho.ne_fin, ho.passed.advance ha, hstep.notBehind hs ho.behind,
        fun _ => ho.batch.ne_start hP ho.ne_fin hnb⟩⟩
    · cases h
      exact ⟨.stay, fun _ => trivial⟩
  | reloadStart barrier chunk =>
    obtain ⟨⟨_, _⟩, ht, h⟩ := Option.bind_eq_some_iff.1 h
    cases h
    have hcur : s.barrier = barrier := hok
    exact ⟨.stay, fun _ => batchTop_batch hG.passed hnext (fun hne _ _ => hcur ▸ hne) ht⟩
  | casNext start chunk nend =>
    simp only [View.batchedNext] at h
    split at h
    · rename_i hc
      cases h
      obtain ⟨-, hchunk, hlive, R, hR, rfl⟩ := hI
      obtain ⟨hne, -, -, hah⟩ := hB
      obtain rfl := hok hc
      obtain rfl := hc
      exact ⟨.claim hR hne (hah rfl) hlive, fun _ => trivial⟩
    · cases h
      exact ⟨.stay, fun _ => ⟨hG.passed, hnext⟩⟩

/-- What every run on current values keeps. -/
theorem batch_invariant (hs : v.Sound BitVec.toInt l fun _ _ => True) (hP : nthreads ≠ 0)
    (hadv : ∀ {start chunk R : Word}, On BitVec.toInt l start → v.remaining start = some R → chunk < R →
      (v.advance start chunk).toInt = start.toInt + chunk.toNat * l.incr) :
    Invariant ((v.batchedNext nthreads batch : Prog ι Unit Cells Local Ret).only fun _ _ s loc =>
        loc.Current v.fin l.incr nthreads s)
      (fun s log => Shared v BitVec.toInt l s0 (· ≠ 0) s log ∧ Aligned v l s)
      (fun _ s loc => loc.Inv v BitVec.toInt l s0 (· ≠ 0) s ∧ loc.Batch v l nthreads batch s) where
  own := by
    rintro i a s loc s' loc' e log ⟨hG, hA⟩ ⟨hI, hB⟩ hp
    obtain ⟨hok, hp⟩ := Prog.only_eq_some.1 hp
    obtain ⟨hG', hI', ha⟩ := (hs.batchedNext s0 nthreads batch).step hG hI (by cases loc <;> simp [Local.Ok]) hp
    obtain ⟨hstep, hB'⟩ := hs.batchedNext_batch hP hG hA hI hB hok hp
    exact ⟨⟨hG', hstep.aligned hs hadv hG hA⟩, hI', hB' ha⟩
  other := by
    rintro i a s loc s' loc' e log j m ⟨hG, hA⟩ ⟨hI, hB⟩ hp - ⟨hJ, hC⟩
    obtain ⟨hok, hp⟩ := Prog.only_eq_some.1 hp
    obtain ⟨-, -, ha⟩ := (hs.batchedNext s0 nthreads batch).step hG hI (by cases loc <;> simp [Local.Ok]) hp
    obtain ⟨hstep, -⟩ := hs.batchedNext_batch hP hG hA hI hB hok hp
    exact ⟨hJ.advance ha, hC.advance hs ha hstep⟩

/-- Only a claim moves `next`, and only the second compare-and-swap of a batch moves `barrier`. -/
theorem batchedNext_moves {i : ι} {a : Unit} {loc loc' : Local} {e : Option Ret}
    (h : v.batchedNext nthreads batch i a s loc = some (s', loc', e)) :
    (s'.next ≠ s.next → ∃ start chunk nend, loc = .casNext start chunk nend ∧ s.next = start) ∧
      (s'.barrier ≠ s.barrier → ∃ start barrier F nbarrier, loc = .casBarrier start barrier F nbarrier ∧
        s.barrier = barrier ∧ s' = { s with barrier := nbarrier }) := by
  cases loc with
  | idle | loadBarrier | reloadNext =>
    cases h
    exact ⟨fun hne => absurd rfl hne, fun hne => absurd rfl hne⟩
  | loadNext => cases h
  | loadChunk | reloadBarrier | reloadStart =>
    obtain ⟨_, _, h⟩ := Option.bind_eq_some_iff.1 h
    cases h
    exact ⟨fun hne => absurd rfl hne, fun hne => absurd rfl hne⟩
  | casChunk start barrier chunk F nbarrier =>
    simp only [View.batchedNext] at h
    split at h <;>
    · cases h
      exact ⟨fun hne => absurd rfl hne, fun hne => absurd rfl hne⟩
  | casBarrier start barrier F nbarrier =>
    simp only [View.batchedNext] at h
    split at h
    · rename_i hc
      obtain ⟨_, _, h⟩ := Option.bind_eq_some_iff.1 h
      cases h
      exact ⟨fun hne => absurd rfl hne, fun _ => ⟨start, barrier, F, nbarrier, rfl, hc, rfl⟩⟩
    · cases h
      exact ⟨fun hne => absurd rfl hne, fun hne => absurd rfl hne⟩
  | casNext start chunk nend =>
    simp only [View.batchedNext] at h
    split at h
    · rename_i hc
      cases h
      exact ⟨fun _ => ⟨start, chunk, nend, rfl, hc⟩, fun hne => absurd rfl hne⟩
    · cases h
      exact ⟨fun hne => absurd rfl hne, fun hne => absurd rfl hne⟩

/-- The law follows from the invariant. -/
theorem batchLaw_of_invariant (hs : v.Sound BitVec.toInt l fun _ _ => True) {c : Cfg ι Cells Local Ret}
    (h : Holds (fun s log => Shared v BitVec.toInt l s0 (· ≠ 0) s log ∧ Aligned v l s)
      (fun _ s loc => loc.Inv v BitVec.toInt l s0 (· ≠ 0) s ∧ loc.Batch v l nthreads batch s) c) :
    BatchLaw v l.incr nthreads batch (v.batchedNext nthreads batch) c := by
  obtain ⟨⟨hG, hA⟩, hloc⟩ := h
  constructor
  · by_cases hne : c.shared.next = v.fin
    · exact .inl hne
    · exact .inr (hA.hit hs hG.passed hne)
  · intro i s loc e hp hmove hbar
    obtain ⟨start, chunk, nend, hcas, hc⟩ := (batchedNext_moves hp).1 hmove
    have hB := (hloc i).2
    rw [hcas] at hB
    exact hB.2.2.2 hc (hbar.symm.trans hc)
  · intro i s loc e hp hmove
    obtain ⟨start, barrier, F, nbarrier, hcas, hc, rfl⟩ := (batchedNext_moves hp).2 hmove
    have hB := (hloc i).2
    rw [hcas] at hB
    obtain ⟨ho, hF⟩ := hB
    have hstart : c.shared.barrier = start := hc.trans ho.barrier
    refine ⟨next_eq_barrier hs hA hG (hstart ▸ ho.passed), ?_⟩
    show v.NewBatch nthreads batch c.shared.barrier c.shared.chunkSize nbarrier
    rw [hstart, hF hstart]
    exact ho.batch

end

/-! ## Whole runs -/

/-- The iterator of a batched schedule. -/
def batchIter : GompScheduleType → Option CasIter
  | .fsFac2 => some .fac2
  | .fsFss | .boFss => some .fss
  | _ => none

/-- How the iterator sizes a batch. -/
def CasIter.batch {D : Type} [CDouble D] : CasIter → D → Word → Word → Option Word
  | .fac2 => fac2Batch
  | _ => fssBatch

section

variable {D : Type} [CDouble D] {ι : Type}

theorem boIterNext_eq_batchedNext {sched : GompScheduleType} {it : CasIter} (hit : batchIter sched = some it)
    (ws : GompWorkShare D) (team : Option U32) :
    (boIterNext it ws team : Prog ι Unit Cells Local Ret) =
      (View.long ws).batchedNext (teamNthreads team) (it.batch ws.param (teamNthreads team)) ∧ it.live = (· ≠ 0) := by
  cases sched <;> cases hit <;> exact ⟨rfl, rfl⟩

/-- `FS_FAC2` leaves its first batch to the first call. -/
theorem gompLoopInit_fac2_barrier {g g' : Globals D} {team : Option U32} {now : Int} {ws ws' : GompWorkShare D}
    {start fin incr chunkSize : Word} {r : RegionId}
    (hinit : gompLoopInit g team now ws start fin incr .fsFac2 chunkSize r = some (g', ws')) : ws'.barrier = start := by
  obtain ⟨n, -, hs⟩ := gompLoopInit_some hinit
  cases hs
  rfl

variable [DecidableEq ι]

/-- In every run whose steps act on current values, every batch is hit, from a first batch whose
barrier does not wrap around. -/
theorem boIterNext_batches {g g' : Globals D} {team team' : Option U32} {now : Int} {ws ws' : GompWorkShare D}
    {start fin incr chunkSize : Word} {sched : GompScheduleType} {r : RegionId} {it : CasIter}
    (hincr : incr ≠ 0) (hteam : team' ≠ some 0) (hit : batchIter sched = some it)
    (hinit : gompLoopInit g team now ws start fin incr sched chunkSize r = some (g', ws'))
    (hfirst : sched ≠ .fsFac2 → Exact incr.toInt (teamNthreads team) start ws'.chunkSize ws'.barrier)
    {c : Cfg ι Cells Local Ret}
    (hr : Reach ((boIterNext it ws' team').only fun _ _ s loc => loc.Current ws'.fin incr.toInt (teamNthreads team') s)
      (entry ws') c) :
    BatchLaw (View.long ws') incr.toInt (teamNthreads team') (it.batch ws'.param (teamNthreads team'))
      (boIterNext it ws' team') c := by
  obtain ⟨n, hn, -⟩ := gompLoopInit_some hinit
  have hsame := gompLoopInit_sameLoop hinit
  have hnext : ws'.next = start := hsame.next
  have hfin : ws'.fin = canonicalEnd start fin incr := hsame.fin
  have hinc : ws'.incr = incr := hsame.incr
  have hfac : sched = .fsFac2 → ws'.barrier = start := by
    rintro rfl
    exact gompLoopInit_fac2_barrier hinit
  obtain ⟨-, hfits, -⟩ := numTasks_some hn
  subst hinc
  rw [← hfin] at hfits
  obtain ⟨hprog, hlive⟩ := boIterNext_eq_batchedNext hit ws' team' (ι := ι)
  rw [hprog] at hr ⊢
  have hs := long_sound hincr hfits
  let l := signedLoop start ws'.fin ws'.incr hincr
  have hstart : ws'.next.toInt = l.pos 0 := by
    rw [hnext, Loop.pos_zero]
    · rfl
    · show ¬ Before _ ws'.fin.toInt start.toInt
      rw [hfin]
      exact not_before_canonicalEnd start fin hincr
  have hfresh : ¬ ws'.chunkSize ≠ 0 → ws'.barrier = ws'.next := by
    have hfresh : ¬ it.live ws'.chunkSize → ws'.barrier = ws'.next := hsame.fresh rfl
    rwa [hlive] at hfresh
  have hadv : ∀ {start' chunk R : Word}, On BitVec.toInt l start' → (View.long ws').remaining start' = some R →
      chunk < R → ((View.long ws').advance start' chunk).toInt = start'.toInt + chunk.toNat * l.incr := by
    rintro start' chunk R ⟨k, hk, hpos⟩ hR hlt
    rw [l.pos_of_lt hk] at hpos
    exact (long_advance hincr hfits hk hpos hR hlt).2
  have haligned : Aligned (View.long ws') l ws'.cells := by
    refine .inr (.inr ?_)
    show ∃ m : Nat, ws'.barrier.toInt = ws'.next.toInt + m * (ws'.chunkSize.toNat * ws'.incr.toInt)
    by_cases hsched : sched = .fsFac2
    · exact ⟨0, by rw [hfac hsched, hnext]; simp⟩
    · have := hfirst hsched
      unfold Exact at this
      refine ⟨(teamNthreads team).toNat, ?_⟩
      rw [this, hnext]
      ring
  have hentry : Holds (fun s log => Shared (View.long ws') BitVec.toInt l ws'.next (· ≠ 0) s log ∧ Aligned (View.long ws') l s)
      (fun _ s loc => loc.Inv (View.long ws') BitVec.toInt l ws'.next (· ≠ 0) s ∧
        loc.Batch (View.long ws') l (teamNthreads team') (it.batch ws'.param (teamNthreads team')) s)
      (entry ws' : Cfg ι Cells Local Ret) := by
    have hshared : Holds (Shared (View.long ws') BitVec.toInt l ws'.next (· ≠ 0))
        (fun _ s loc => loc.Inv (View.long ws') BitVec.toInt l ws'.next (· ≠ 0) s) (entry ws' : Cfg ι Cells Local Ret) :=
      shared_entry ws' hstart hfresh
    obtain ⟨hG, hI⟩ := hshared
    exact ⟨⟨hG, haligned⟩, fun i => ⟨hI i, trivial⟩⟩
  have hP : teamNthreads team' ≠ 0 := fun h0 => by
    have := teamNthreads_pos hteam
    rw [h0] at this
    exact absurd this (by decide)
  exact batchLaw_of_invariant hs ((batch_invariant hs hP hadv).reach hentry hr)

end

/-- Two threads over `for (i = 0; i < 20; i++)`: one takes the two chunks of the first batch and the
two of the second. -/
theorem boIterNext_batches_fac2 :
    ∃ (g : Globals ℚ) (ws : GompWorkShare ℚ) (c : Cfg (Fin 2) Cells Local Ret),
      gompLoopInit (.fresh 2) (some 2) 0 .zero 0 20 1 .fsFac2 0 0 = some (g, ws) ∧
      returned c.log = [(0, 5), (5, 10), (10, 12), (12, 14)] ∧ c.shared.barrier = 14 ∧
      BatchLaw (View.long ws) (1 : Word).toInt (teamNthreads (some 2)) (CasIter.fac2.batch ws.param (teamNthreads (some 2)))
        (boIterNext .fac2 ws (some 2)) c := by
  have hrun : (gompLoopInit (D := ℚ) (.fresh 2) (some 2) 0 .zero 0 20 1 .fsFac2 0 0).any (fun r =>
      (exec ((boIterNext .fac2 r.2 (some 2)).only fun _ _ s loc =>
          loc.Current r.2.fin (1 : Word).toInt (teamNthreads (some 2)) s)
        (entry r.2) (List.replicate 20 ((0 : Fin 2), ()))).any fun c =>
        decide (returned c.log = [(0, 5), (5, 10), (10, 12), (12, 14)] ∧ c.shared.barrier = 14)) = true := by
    decide +kernel
  obtain ⟨⟨g, ws⟩, hinit, hrun⟩ := (Option.any_eq_true _ _).1 hrun
  obtain ⟨c, hr, hret, hbar⟩ := exists_reach hrun
  exact ⟨g, ws, c, hinit, hret, hbar, boIterNext_batches (by decide) (by decide) rfl hinit (fun h => absurd rfl h) hr⟩

/-- Thread 0 loses the race for the first barrier, and when it goes on the other thread has taken the
first batch and published the second, of chunks of 2: it claims `[10, 15)` over the barrier 14. -/
theorem boIterNext_passes_barrier :
    ∃ (g : Globals ℚ) (ws : GompWorkShare ℚ) (c : Cfg (Fin 2) Cells Local Ret),
      gompLoopInit (.fresh 2) (some 2) 0 .zero 0 20 1 .fsFac2 0 0 = some (g, ws) ∧
      Reach (boIterNext .fac2 ws (some 2)) (entry ws) c ∧
      c.shared.next = 15 ∧ c.shared.barrier = 14 ∧
      ¬ BatchLaw (View.long ws) (1 : Word).toInt (teamNthreads (some 2))
        (CasIter.fac2.batch ws.param (teamNthreads (some 2))) (boIterNext .fac2 ws (some 2)) c := by
  let turns : List (Fin 2 × Unit) :=
    [0, 0, 0, 0, 1, 1, 1, 1, 1, 1, 1, 1, 1, 1, 1, 1, 1, 1, 1, 0, 0, 0].map fun i => (i, ())
  have hrun : (gompLoopInit (D := ℚ) (.fresh 2) (some 2) 0 .zero 0 20 1 .fsFac2 0 0).any (fun r =>
      (exec (boIterNext .fac2 r.2 (some 2)) (entry r.2) turns).any fun c =>
        decide (c.shared.next = 15 ∧ c.shared.barrier = 14 ∧ r.2.fin = 20)) = true := by decide +kernel
  obtain ⟨⟨g, ws⟩, hinit, hrun⟩ := (Option.any_eq_true _ _).1 hrun
  obtain ⟨c, hr, hnext, hbar, hfin⟩ := exists_reach hrun
  refine ⟨g, ws, c, hinit, hr, hnext, hbar, fun h => ?_⟩
  rcases h.hit with h | h
  · change c.shared.next = ws.fin at h
    rw [hnext, show ws.fin = 20 from hfin] at h
    exact absurd h (by decide)
  · rw [hnext, hbar] at h
    exact h (by decide)

end Bosched
