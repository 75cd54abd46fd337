/-
The divisors of `bo_iter_fss_next` and `bo_iter_ull_fss_next`. Where the barrier is met they divide
by the remaining count, which is zero on the last iteration of a loop that does not step onto its
end. The claims of an upward or signed loop never stop there, so the count can be zero at the start
only, and there only if the first batch left the barrier where it was.
-/
import Bosched.Iter.Rules
import Bosched.Iter.Tasks
import Bosched.Iter.Unsigned

namespace Bosched

open Lib

/-! ## Programs that do not trap -/

/-- A step of the iterators that is not defined is a division that traps: no run leads to one. -/
def NeverTraps {ι : Type} [DecidableEq ι] (p q : Prog ι Unit Cells Local Ret) (c : Cfg ι Cells Local Ret) : Prop :=
  ∀ {c'}, Reach q c c' → ∀ i, (p i () c'.shared (c'.loc i)).isSome

/-- The positions threads take chunks from and the barriers they see there, from which the steps
whose claims meet `ok` lead to such again, and no step traps. -/
structure View.Closed (v : View) (nthreads : Word) (batch : Word → Option Word) (starts barriers : Word → Prop)
    (ok : Word → Word → Prop) : Prop where
  remains : ∀ {start}, starts start → start ≠ v.fin → ∃ R, v.remaining start = some R
  opens : ∀ {start R}, starts start → start ≠ v.fin → barriers start → v.remaining start = some R →
    ∃ F, batch R = some F ∧ barriers (if F ≤ 1 then v.fin else v.advance start (F * nthreads))
  claims : ∀ {start chunk R}, starts start → start ≠ v.fin → v.remaining start = some R → ok start chunk →
    starts (v.nend start chunk R)

/-- A thread stands on such a position, with such a barrier. -/
def Local.Stands (v : View) (starts barriers : Word → Prop) : Local → Prop
  | .idle | .reloadNext _ => True
  | .loadNext _ => False
  | .loadBarrier start | .reloadBarrier start _ => starts start
  | .loadChunk start barrier => starts start ∧ barriers barrier
  | .casChunk start _ _ _ nbarrier | .casBarrier start _ _ nbarrier => starts start ∧ start ≠ v.fin ∧ barriers nbarrier
  | .reloadStart barrier _ => barriers barrier
  | .casNext start chunk nend => starts start ∧ start ≠ v.fin ∧ ∃ R, v.remaining start = some R ∧ nend = v.nend start chunk R

section

variable {ι : Type} {v : View} {nthreads : Word} {batch : Word → Option Word} {starts barriers : Word → Prop}
  {ok : Word → Word → Prop}

theorem View.Closed.claim (h : v.Closed nthreads batch starts barriers ok) {start : Word} (chunk : Word) (hs : starts start)
    (hne : start ≠ v.fin) : ∃ loc, v.claim start chunk = some loc ∧ loc.Stands v starts barriers := by
  obtain ⟨R, hR⟩ := h.remains hs hne
  refine ⟨.casNext start chunk (v.nend start chunk R), ?_, hs, hne, R, hR, rfl⟩
  unfold View.claim
  rw [hR]
  rfl

theorem View.Closed.batchTop (h : v.Closed nthreads batch starts barriers ok) {start barrier : Word} (chunk : Word)
    (hs : starts start) (hb : barriers barrier) :
    ∃ loc e, v.batchTop nthreads batch start barrier chunk = some (loc, e) ∧ loc.Stands v starts barriers := by
  unfold View.batchTop
  by_cases hne : start = v.fin
  · exact ⟨_, _, if_pos hne, trivial⟩
  · rw [if_neg hne]
    by_cases hbar : barrier = start
    · subst hbar
      obtain ⟨R, hR⟩ := h.remains hs hne
      obtain ⟨F, hF, hnb⟩ := h.opens hs hne hb hR
      rw [if_pos rfl, hR, Option.bind_eq_bind, Option.bind_some, hF, Option.bind_some]
      by_cases hF1 : F ≤ 1
      · rw [if_pos hF1] at hnb
        simp only [if_pos hF1]
        exact ⟨_, _, rfl, hs, hne, hnb⟩
      · rw [if_neg hF1] at hnb
        simp only [if_neg hF1]
        exact ⟨_, _, rfl, hs, hne, hnb⟩
    · obtain ⟨loc, hcl, hloc⟩ := h.claim chunk hs hne
      rw [if_neg hbar, hcl]
      exact ⟨_, _, rfl, hloc⟩

/-- No step traps, and the steps that meet `ok` lead to such positions again. -/
theorem View.Closed.step (h : v.Closed nthreads batch starts barriers ok) {i : ι} {a : Unit} {s : Cells} {loc : Local}
    (hnext : starts s.next) (hbar : barriers s.barrier) (hloc : loc.Stands v starts barriers) :
    ∃ s' loc' e, (v.batchedNext nthreads batch : Prog ι Unit Cells Local Ret) i a s loc = some (s', loc', e) ∧
      (loc.Ok ok s → starts s'.next ∧ barriers s'.barrier ∧ loc'.Stands v starts barriers) := by
  have htop : ∀ {start barrier : Word} (chunk : Word), starts start → barriers barrier →
      ∃ s' loc' e, (do return (s, ← v.batchTop nthreads batch start barrier chunk)) = some (s', loc', e) ∧
        (loc.Ok ok s → starts s'.next ∧ barriers s'.barrier ∧ loc'.Stands v starts barriers) := by
    intro start barrier chunk hs hb
    obtain ⟨loc', e, ht, hloc'⟩ := h.batchTop chunk hs hb
    exact ⟨s, loc', e, by rw [ht]; rfl, fun _ => ⟨hnext, hbar, hloc'⟩⟩
  cases loc with
  | idle => exact ⟨_, _, _, rfl, fun _ => ⟨hnext, hbar, hnext⟩⟩
  | loadNext => exact absurd hloc id
  | loadBarrier start => exact ⟨_, _, _, rfl, fun _ => ⟨hnext, hbar, hloc, hbar⟩⟩
  | loadChunk start barrier => exact htop s.chunkSize hloc.1 hloc.2
  | reloadNext chunk => exact ⟨_, _, _, rfl, fun _ => ⟨hnext, hbar, hnext⟩⟩
  | reloadBarrier start chunk => exact htop chunk hloc hbar
  | reloadStart barrier chunk => exact htop chunk hnext hloc
  | casChunk start barrier chunk F nbarrier =>
    simp only [View.batchedNext]
    split
    · exact ⟨_, _, _, rfl, fun _ => ⟨hnext, hbar, hloc⟩⟩
    · exact ⟨_, _, _, rfl, fun _ => ⟨hnext, hbar, trivial⟩⟩
  | casBarrier start barrier F nbarrier =>
    simp only [View.batchedNext]
    split
    · obtain ⟨loc', hcl, hloc'⟩ := h.claim F hloc.1 hloc.2.1
      rw [hcl]
      exact ⟨_, _, _, rfl, fun _ => ⟨hnext, hloc.2.2, hloc'⟩⟩
    · exact ⟨_, _, _, rfl, fun _ => ⟨hnext, hbar, hbar⟩⟩
  | casNext start chunk nend =>
    obtain ⟨hs, hne, R, hR, rfl⟩ := hloc
    simp only [View.batchedNext]
    split
    · rename_i hn
      exact ⟨_, _, _, rfl, fun hok => ⟨h.claims hs hne hR (hok hn), hbar, trivial⟩⟩
    · exact ⟨_, _, _, rfl, fun _ => ⟨hnext, hbar, hnext⟩⟩

variable [∀ a b, Decidable (ok a b)]

theorem View.Closed.invariant (h : v.Closed nthreads batch starts barriers ok) :
    Invariant ((v.batchedNext nthreads batch : Prog ι Unit Cells Local Ret).only fun _ _ s loc => loc.Ok ok s)
      (fun s _ => starts s.next ∧ barriers s.barrier) (fun _ _ loc => loc.Stands v starts barriers) where
  own := by
    intro i a s loc s' loc' e log hG hI hp
    obtain ⟨hok, hp⟩ := Prog.only_eq_some.1 hp
    obtain ⟨_, _, _, hstep, hnew⟩ := h.step (i := i) (a := a) hG.1 hG.2 hI
    cases hstep.symm.trans hp
    obtain ⟨hnext, hbar, hloc⟩ := hnew hok
    exact ⟨⟨hnext, hbar⟩, hloc⟩
  other := fun _ _ _ _ hJ => hJ

variable [DecidableEq ι]

/-- From such a work share no run whose claims meet `ok` leads to a trap. -/
theorem View.Closed.neverTraps (h : v.Closed nthreads batch starts barriers ok) {D : Type} {ws : GompWorkShare D}
    (hnext : starts ws.next) (hbar : barriers ws.barrier) :
    NeverTraps (v.batchedNext nthreads batch : Prog ι Unit Cells Local Ret)
      ((v.batchedNext nthreads batch).only fun _ _ s loc => loc.Ok ok s) (entry ws) := by
  intro c hr i
  have hentry : Holds (fun s _ => starts s.next ∧ barriers s.barrier) (fun _ _ loc => loc.Stands v starts barriers)
      (entry ws : Cfg ι Cells Local Ret) := ⟨⟨hnext, hbar⟩, fun _ => trivial⟩
  obtain ⟨⟨hn, hb⟩, hloc⟩ := h.invariant.reach hentry hr
  obtain ⟨s', loc', e, hstep, -⟩ := h.step (i := i) (a := ()) hn hb (hloc i)
  rw [hstep]
  rfl

end

/-! ## The remaining count as a divisor -/

section

variable {D : Type} [CDouble D]

theorem fssBatch_zero (param : D) (nthreads : Word) : fssBatch param nthreads 0 = none := rfl

theorem exists_fssBatch (param : D) (nthreads : Word) {R : Word} (h : R ≠ 0) : ∃ F, fssBatch param nthreads R = some F := by
  have hdiv : uldiv 1 R = some (1 / R) := if_neg h
  unfold fssBatch
  rw [hdiv]
  exact ⟨_, rfl⟩

/-- There is an iteration to run but less than a stride to the end, and the barrier is at the start. -/
structure EmptyBatch (v : View) (ws : GompWorkShare D) : Prop where
  starts : ws.next ≠ v.fin
  short : v.remaining ws.next = some 0
  barrier : ws.barrier = ws.next

variable {ι : Type} [DecidableEq ι] {v : View} {ws : GompWorkShare D} {nthreads : Word} {ok : Word → Word → Prop}
  [∀ a b, Decidable (ok a b)]

/-- The first call of a thread divides by zero. -/
theorem EmptyBatch.traps (h : EmptyBatch v ws) (i : ι) (param : D) :
    ¬ NeverTraps (v.batchedNext nthreads (fssBatch param nthreads) : Prog ι Unit Cells Local Ret)
      ((v.batchedNext nthreads (fssBatch param nthreads)).only fun _ _ s loc => loc.Ok ok s) (entry ws) := by
  intro hnever
  let q := (v.batchedNext nthreads (fssBatch param nthreads) : Prog ι Unit Cells Local Ret).only fun _ _ s loc => loc.Ok ok s
  let c₀ : Cfg ι Cells Local Ret := entry ws
  have h1 : q i () c₀.shared (c₀.loc i) = some (ws.cells, .loadBarrier ws.next, none) := if_pos trivial
  obtain ⟨c₁, hs₁, hc₁, hl₁, -, -⟩ := exists_step h1
  have h2 : q i () c₁.shared (c₁.loc i) = some (ws.cells, .loadChunk ws.next ws.barrier, none) := by
    rw [hc₁, hl₁]
    exact if_pos trivial
  obtain ⟨c₂, hs₂, hc₂, hl₂, -, -⟩ := exists_step h2
  have h3 := hnever (.head hs₁ (.single hs₂)) i
  rw [hc₂, hl₂, h.barrier] at h3
  simp only [View.batchedNext, View.batchTop, if_neg h.starts, h.short] at h3
  cases h3

omit [∀ a b, Decidable (ok a b)] in
/-- So no call of any thread ever returns. -/
theorem EmptyBatch.silent (h : EmptyBatch v ws) {param : D} {c : Cfg ι Cells Local Ret}
    (hr : Reach (v.batchedNext nthreads (fssBatch param nthreads)) (entry ws) c) : c.log = [] := by
  have hinv : Invariant (v.batchedNext nthreads (fssBatch param nthreads) : Prog ι Unit Cells Local Ret)
      (fun s log => s = ws.cells ∧ log = [])
      (fun _ _ loc => loc = .idle ∨ loc = .loadBarrier ws.next ∨ loc = .loadChunk ws.next ws.barrier) := by
    constructor
    · rintro i a s loc s' loc' e log ⟨rfl, rfl⟩ (rfl | rfl | rfl) hp
      · cases hp
        exact ⟨⟨rfl, rfl⟩, .inr (.inl rfl)⟩
      · cases hp
        exact ⟨⟨rfl, rfl⟩, .inr (.inr rfl)⟩
      · rw [h.barrier] at hp
        simp only [View.batchedNext, View.batchTop, if_neg h.starts, h.short] at hp
        cases hp
    · rintro i a s loc s' loc' e log j m - - - - hm
      exact hm
  have hentry : Holds (fun s log => s = ws.cells ∧ log = [])
      (fun (_ : ι) _ loc => loc = Local.idle ∨ loc = .loadBarrier ws.next ∨ loc = .loadChunk ws.next ws.barrier)
      (entry ws : Cfg ι Cells Local Ret) := ⟨⟨rfl, rfl⟩, fun _ => .inl rfl⟩
  exact (hinv.reach hentry hr).1.2

omit [DecidableEq ι] [∀ a b, Decidable (ok a b)] in
/-- Where the barrier is not at a start with nothing remaining, all that is left is one chunk. -/
theorem closed_short (param : D) (hshort : v.remaining ws.next = some 0) :
    v.Closed nthreads (fssBatch param nthreads) (fun start => start = ws.next ∨ start = v.fin) (· ≠ ws.next) ok where
  remains := by
    rintro start (rfl | rfl) hne
    · exact ⟨0, hshort⟩
    · exact absurd rfl hne
  opens := by
    rintro start R (rfl | rfl) hne hb hR
    · exact absurd rfl hb
    · exact absurd rfl hne
  claims := by
    rintro start chunk R (rfl | rfl) hne hR -
    · cases hshort.symm.trans hR
      exact .inr (if_neg (by simp))
    · exact absurd rfl hne

/-- An iterator whose claims never stop short of a stride from the end divides by zero exactly if its first
batch is empty. -/
theorem neverTraps_iff (param : D) (starts : Word → Prop) (i : ι)
    (hclosed : v.Closed nthreads (fssBatch param nthreads) starts (fun _ => True) ok)
    (hstart : ws.next = v.fin ∨ v.remaining ws.next ≠ some 0 → starts ws.next) :
    NeverTraps (v.batchedNext nthreads (fssBatch param nthreads) : Prog ι Unit Cells Local Ret)
      ((v.batchedNext nthreads (fssBatch param nthreads)).only fun _ _ s loc => loc.Ok ok s) (entry ws) ↔
      ¬ EmptyBatch v ws := by
  constructor
  · exact fun hnever h => h.traps i param hnever
  · intro h
    by_cases hgood : ws.next = v.fin ∨ v.remaining ws.next ≠ some 0
    · exact hclosed.neverTraps (hstart hgood) trivial
    · rw [not_or, not_not] at hgood
      have hbar : ws.barrier ≠ ws.next := fun hb => h ⟨hgood.1, hgood.2, hb⟩
      exact (closed_short param hgood.2).neverTraps (Or.inl rfl) hbar

end

/-! ## The two widths -/

section

variable {D : Type} [CDouble D] {ws : GompWorkShare D} (nthreads : Word)

/-- A claim does not stop less than a stride from the end. -/
def View.LandsClear (v : View) (start chunk : Word) : Prop :=
  ∀ R ∈ v.remaining start, chunk < R → v.advance start chunk = v.fin ∨ v.remaining (v.advance start chunk) ≠ some 0

instance (v : View) (start chunk : Word) : Decidable (v.LandsClear start chunk) := by
  unfold View.LandsClear; infer_instance

omit [CDouble D] in
/-- On the iterations of a signed loop the remaining count is that of the integers. -/
theorem long_remaining {start s : Word} {k : Nat} (h : ws.incr ≠ 0) (hfits : SubFits ws.fin start)
    (htrap : ldiv (ws.fin - start) ws.incr ≠ none) (hk : k < (signedLoop start ws.fin ws.incr h).trip)
    (hs : s.toInt = (signedLoop start ws.fin ws.incr h).value k) :
    ∃ R, (View.long ws).remaining s = some R ∧
      (R.toNat : Int) = (ws.fin.toInt - (signedLoop start ws.fin ws.incr h).value k).tdiv ws.incr.toInt := by
  let l := signedLoop start ws.fin ws.incr h
  change k < l.trip at hk
  change s.toInt = l.value k at hs
  have hbetween := l.value_between hk
  have hfin : l.fin = ws.fin.toInt := rfl
  have hstart : l.start = start.toInt := rfl
  have hsub : SubFits ws.fin s := by
    unfold SubFits at hfits ⊢
    omega
  have hd := toInt_sub_fits hsub
  have hdiv : ∃ R, ldiv (ws.fin - s) ws.incr = some R := by
    unfold ldiv
    refine ⟨_, if_neg ?_⟩
    rintro (h0 | ⟨hmin, hone⟩)
    · exact h h0
    · -- only the whole distance can be that long
      have hmin' : (ws.fin - s).toInt = -2 ^ 63 := by rw [hmin]; decide
      have hsame : s = start := by
        apply BitVec.toInt_inj.1
        unfold SubFits at hfits
        omega
      rw [hsame] at hmin
      exact htrap (if_pos (.inr ⟨hmin, hone⟩))
  obtain ⟨R, hR⟩ := hdiv
  obtain ⟨-, hRint⟩ := ldiv_some hR
  rw [hd, hs] at hRint
  have h0 : 0 ≤ R.toInt := by rw [hRint]; exact l.tdiv_nonneg hk
  exact ⟨R, hR, by rw [toNat_of_toInt_nonneg h0, hRint]⟩

/-- The positions of a signed loop with at least a stride to the end. -/
theorem long_closed {start : Word} (h : ws.incr ≠ 0) (hfits : SubFits ws.fin start)
    (htrap : ldiv (ws.fin - start) ws.incr ≠ none) (param : D) :
    (View.long ws).Closed nthreads (fssBatch param nthreads)
      (fun s => s = ws.fin ∨ (View.long ws).remaining s ≠ some 0 ∧
        ∃ k < (signedLoop start ws.fin ws.incr h).trip, s.toInt = (signedLoop start ws.fin ws.incr h).value k)
      (fun _ => True) (fun _ _ => True) where
  remains := by
    rintro s (rfl | ⟨-, k, hk, hs⟩) hne
    · exact absurd rfl hne
    · obtain ⟨R, hR, -⟩ := long_remaining h hfits htrap hk hs
      exact ⟨R, hR⟩
  opens := by
    rintro s R (rfl | ⟨hpos, -⟩) hne - hR
    · exact absurd rfl hne
    · have hR0 : R ≠ 0 := fun h0 => hpos (h0 ▸ hR)
      obtain ⟨F, hF⟩ := exists_fssBatch param nthreads hR0
      exact ⟨F, hF, trivial⟩
  claims := by
    rintro s chunk R (rfl | ⟨-, k, hk, hs⟩) hne hR -
    · exact absurd rfl hne
    · let l := signedLoop start ws.fin ws.incr h
      unfold View.nend
      split
      · rename_i hlt
        obtain ⟨hq, hadv⟩ := long_advance h hfits hk hs hR hlt
        have hval : ((View.long ws).advance s chunk).toInt = l.value (k + chunk.toNat) := by
          rw [hadv, hs]
          exact (l.value_add k chunk.toNat).symm
        obtain ⟨R', hR', hint⟩ := long_remaining h hfits htrap hq hval
        obtain ⟨R'', hR'', hint'⟩ := long_remaining h hfits htrap hk hs
        cases hR''.symm.trans hR
        refine .inr ⟨fun h0 => ?_, k + chunk.toNat, hq, hval⟩
        cases hR'.symm.trans h0
        have hsub := l.tdiv_value_add hq
        change ((0#64).toNat : Int) = (l.fin - l.value (k + chunk.toNat)).tdiv l.incr at hint
        change (R.toNat : Int) = (l.fin - l.value k).tdiv l.incr at hint'
        rw [hsub, ← hint'] at hint
        rw [BitVec.lt_def] at hlt
        have h00 : (0#64).toNat = 0 := rfl
        omega
      · exact .inl rfl

omit [CDouble D] in
theorem ull_remaining_some (h : ws.incr ≠ 0) (s : Word) : ∃ R, (View.ull ws).remaining s = some R := by
  have hneg : -ws.incr ≠ 0 := by simpa using h
  unfold View.ull uldiv
  simp only
  split
  · exact ⟨_, if_neg h⟩
  · exact ⟨_, if_neg hneg⟩

/-- In a run whose claims do not stop there, every position has at least a stride to the end. -/
theorem ull_closed (h : ws.incr ≠ 0) (param : D) :
    (View.ull ws).Closed nthreads (fssBatch param nthreads)
      (fun s => s = ws.fin ∨ (View.ull ws).remaining s ≠ some 0) (fun _ => True) (View.ull ws).LandsClear where
  remains := fun _ _ => ull_remaining_some h _
  opens := by
    rintro s R (rfl | hpos) hne - hR
    · exact absurd rfl hne
    · have hR0 : R ≠ 0 := fun h0 => hpos (h0 ▸ hR)
      obtain ⟨F, hF⟩ := exists_fssBatch param nthreads hR0
      exact ⟨F, hF, trivial⟩
  claims := by
    rintro s chunk R - - hR hclear
    unfold View.nend
    split
    · rename_i hlt
      exact hclear R hR hlt
    · exact .inl rfl

/-- An upward loop has no other claims. -/
theorem ull_up_closed (h : ws.incr ≠ 0) (hmode : ws.mode = 0) (param : D) :
    (View.ull ws).Closed nthreads (fssBatch param nthreads)
      (fun s => s = ws.fin ∨ (View.ull ws).remaining s ≠ some 0 ∧ s.toNat ≤ ws.fin.toNat) (fun _ => True)
      (fun _ _ => True) where
  remains := fun _ _ => ull_remaining_some h _
  opens := by
    rintro s R (rfl | ⟨hpos, -⟩) hne - hR
    · exact absurd rfl hne
    · have hR0 : R ≠ 0 := fun h0 => hpos (h0 ▸ hR)
      obtain ⟨F, hF⟩ := exists_fssBatch param nthreads hR0
      exact ⟨F, hF, trivial⟩
  claims := by
    rintro s chunk R (rfl | ⟨-, hle⟩) hne hR -
    · exact absurd rfl hne
    · have hrem : ∀ {s' : Word}, (View.ull ws).remaining s' = uldiv (ws.fin - s') ws.incr := if_pos hmode
      have hadv : (View.ull ws).advance s chunk = s + chunk * ws.incr := if_pos hmode
      unfold View.nend
      split
      · rename_i hlt
        rw [hrem] at hR
        obtain ⟨-, hRnat⟩ := uldiv_some hR
        rw [toNat_sub_of_le hle] at hRnat
        rw [BitVec.lt_def] at hlt
        -- the chunk ends at most where `R` strides end
        have hinc := toNat_ne_zero h
        have hmul : (chunk.toNat + 1) * ws.incr.toNat ≤ ws.fin.toNat - s.toNat := by
          rw [← Nat.le_div_iff_mul_le (by omega), ← hRnat]
          exact hlt
        rw [Nat.add_mul, Nat.one_mul] at hmul
        have hfin := ws.fin.isLt
        have hend : (s + chunk * ws.incr).toNat = s.toNat + chunk.toNat * ws.incr.toNat := toNat_add_mul (by omega)
        refine .inr ⟨fun h0 => ?_, by rw [hadv, hend]; omega⟩
        rw [hrem, hadv] at h0
        obtain ⟨-, hdiv⟩ := uldiv_some h0
        rw [toNat_sub_of_le (by omega), hend] at hdiv
        have hlt' := (Nat.div_eq_zero_iff.1 hdiv.symm).resolve_left hinc
        omega
      · exact .inl rfl

end

/-! ## The iterators -/

/-- `FS_FSS` and `BO_FSS`. -/
def isFss (sched : GompScheduleType) : Prop := sched = .fsFss ∨ sched = .boFss

/-- What an initialised signed loop leaves to divide: a distance that fits, and a count that does not trap. -/
theorem long_divides {D : Type} [CDouble D] {g g' : Globals D} {team : Option U32} {now : Int} {ws ws' : GompWorkShare D}
    {start fin incr chunkSize : Word} {sched : GompScheduleType} {r : RegionId}
    (hinit : gompLoopInit g team now ws start fin incr sched chunkSize r = some (g', ws')) :
    SubFits ws'.fin start ∧ ldiv (ws'.fin - start) ws'.incr ≠ none := by
  obtain ⟨n, hn, -⟩ := gompLoopInit_some hinit
  have hsame := gompLoopInit_sameLoop hinit
  have hfin : ws'.fin = canonicalEnd start fin incr := hsame.fin
  have hinc : ws'.incr = incr := hsame.incr
  obtain ⟨-, hfits, -⟩ := numTasks_some hn
  rw [← hfin] at hfits
  refine ⟨hfits, ?_⟩
  obtain ⟨d, hd, hdiv⟩ := Option.bind_eq_some_iff.1 hn
  rw [← hfin] at hd
  unfold lsub at hd
  rw [if_pos hfits] at hd
  cases hd
  rw [hinc, hdiv]
  simp

/-- The signed iterator over an initialised loop. -/
theorem boIterFssNext_long {D : Type} [CDouble D] {ι : Type} [DecidableEq ι] (i : ι) {g g' : Globals D}
    {team team' : Option U32} {now : Int} {ws ws' : GompWorkShare D} {start fin incr chunkSize : Word}
    {sched : GompScheduleType} {r : RegionId} (hincr : incr ≠ 0)
    (hinit : gompLoopInit g team now ws start fin incr sched chunkSize r = some (g', ws')) :
    let p : Prog ι Unit Cells Local Ret := boIterFssNext ws' (teamNthreads team')
    NeverTraps p p (entry ws') ↔ ¬ EmptyBatch (View.long ws') ws' := by
  obtain ⟨hfits, htrap⟩ := long_divides hinit
  have hsame := gompLoopInit_sameLoop hinit
  have hnext : ws'.next = start := hsame.next
  have hfin : ws'.fin = canonicalEnd start fin incr := hsame.fin
  have hinc : ws'.incr = incr := hsame.incr
  subst hinc
  intro p
  have hp : p = (View.long ws').batchedNext (teamNthreads team') (fssBatch ws'.param (teamNthreads team')) := rfl
  rw [hp]
  have hstart : ws'.next = (View.long ws').fin ∨ (View.long ws').remaining ws'.next ≠ some 0 →
      ws'.next = ws'.fin ∨ (View.long ws').remaining ws'.next ≠ some 0 ∧
        ∃ k < (signedLoop start ws'.fin ws'.incr hincr).trip,
          ws'.next.toInt = (signedLoop start ws'.fin ws'.incr hincr).value k := fun hgood => by
    by_cases hne : ws'.next = ws'.fin
    · exact .inl hne
    · refine .inr ⟨hgood.resolve_left hne, 0, ?_, by rw [hnext, Loop.value_zero]; rfl⟩
      by_contra h0
      have htrip := (Loop.trip_eq_zero_iff _).1 (Nat.le_zero.1 (not_lt.1 h0))
      have hcan := not_before_canonicalEnd start fin hincr
      rw [← hfin] at hcan
      rw [hnext] at hne
      exact hne (BitVec.toInt_inj.1 (eq_of_not_before htrip hcan))
  have hiff := neverTraps_iff ws'.param _ i (long_closed (teamNthreads team') hincr hfits htrap ws'.param) hstart
  rwa [show ∀ p : Prog ι Unit Cells Local Ret, p.only (fun _ _ s loc => loc.Ok (fun _ _ => True) s) = p from
    fun p => Prog.only_of_forall fun _ _ _ loc => by cases loc <;> simp [Local.Ok]] at hiff

/-- In every run over an initialised loop, `bo_iter_fss_next` divides by zero exactly if the loop is shorter than
its stride and its first batch is empty; so does `bo_iter_ull_fss_next` in an upward loop, and in a downward one in
every run whose claims do not stop less than a stride from the end. -/
theorem boIterFssNext_neverTraps_iff {D : Type} [CDouble D] {ι : Type} [DecidableEq ι] (i : ι) {g g' : Globals D}
    {team team' : Option U32} {now : Int} {ws ws' : GompWorkShare D} {start fin incr chunkSize : Word}
    {sched : GompScheduleType} {r : RegionId} (hincr : incr ≠ 0) (hsched : isFss sched) :
    (gompLoopInit g team now ws start fin incr sched chunkSize r = some (g', ws') →
      let p : Prog ι Unit Cells Local Ret := boIterFssNext ws' (teamNthreads team')
      NeverTraps p p (entry ws') ↔ ¬ EmptyBatch (View.long ws') ws') ∧
    ∀ up, gompLoopUllInit g team now ws up start fin incr sched chunkSize r = some (g', ws') →
      let p : Prog ι Unit Cells Local Ret := boIterUllFssNext ws' (teamNthreads team')
      (NeverTraps p (if up then p else p.only fun _ _ s loc => loc.Ok (View.ull ws').LandsClear s) (entry ws') ↔
        ¬ EmptyBatch (View.ull ws') ws') := by
  have hany : ∀ p : Prog ι Unit Cells Local Ret, p.only (fun _ _ s loc => loc.Ok (fun _ _ => True) s) = p :=
    fun p => Prog.only_of_forall fun _ _ _ loc => by cases loc <;> simp [Local.Ok]
  refine ⟨fun hinit => boIterFssNext_long i hincr hinit, fun up hinit => ?_⟩
  have hsame := gompLoopUllInit_sameLoop hinit
  have hnext : ws'.next = start := hsame.next
  have hfin : ws'.fin = canonicalEndUll up start fin := hsame.fin
  have hinc : ws'.incr = incr := hsame.incr
  have hmode : ws'.mode = if up then 0 else 2 :=
    gompLoopUllInit_mode hinit (by rintro rfl; rcases hsched with h | h <;> cases h)
      (by rintro rfl; rcases hsched with h | h <;> cases h) (by rintro rfl; rcases hsched with h | h <;> cases h)
  subst hinc
  intro p
  have hp : p = (View.ull ws').batchedNext (teamNthreads team') (fssBatch ws'.param (teamNthreads team')) := rfl
  rw [hp]
  cases up with
  | true =>
    have hstart : ws'.next = (View.ull ws').fin ∨ (View.ull ws').remaining ws'.next ≠ some 0 →
        ws'.next = ws'.fin ∨ (View.ull ws').remaining ws'.next ≠ some 0 ∧ ws'.next.toNat ≤ ws'.fin.toNat := fun hgood => by
      by_cases hne : ws'.next = ws'.fin
      · exact .inl hne
      · refine .inr ⟨hgood.resolve_left hne, ?_⟩
        have hcan : ¬ Before (ullStep true ws'.incr) (canonicalEndUll true start fin).toNat start.toNat :=
          not_before_canonicalEndUll hincr
        rw [before_pos ((ullStep_pos_iff true hincr).2 rfl), ← hfin] at hcan
        rw [hnext]
        omega
    have hiff := neverTraps_iff ws'.param _ i (ull_up_closed (teamNthreads team') hincr hmode ws'.param) hstart
    rwa [hany] at hiff
  | false =>
    exact neverTraps_iff ws'.param _ i (ull_closed (teamNthreads team') hincr ws'.param) fun hgood => hgood

/-- `for (i = 0; i < 3; i++)`, alone. -/
theorem boIterFssNext_neverTraps_three :
    ∃ (g : Globals ℚ) (ws : GompWorkShare ℚ), gompLoopInit (.fresh 1) (some 1) 0 .zero 0 3 1 .fsFss 0 0 = some (g, ws) ∧
      NeverTraps (boIterFssNext ws (teamNthreads (some 1)) : Prog Unit Unit Cells Local Ret)
        (boIterFssNext ws (teamNthreads (some 1))) (entry ws) := by
  have hrun : (gompLoopInit (D := ℚ) (.fresh 1) (some 1) 0 .zero 0 3 1 .fsFss 0 0).any (fun r =>
      decide ((View.long r.2).remaining r.2.next = some 3)) = true := by decide +kernel
  obtain ⟨⟨g, ws⟩, hinit, hrem⟩ := (Option.any_eq_true _ _).1 hrun
  refine ⟨g, ws, hinit, ((boIterFssNext_neverTraps_iff () (by decide) (.inl rfl)).1 hinit).2 fun h => ?_⟩
  cases (of_decide_eq_true hrem).symm.trans h.short

/-- A region whose stored `fss` parameter is 1. -/
def fssOneTable : Globals ℚ := (Globals.fresh 1).setParam 7 { WorkloadParams.zero with fss := 1 }

/-- `for (i = 0; i < 1; i += 2)`, alone: the first call divides by zero. -/
theorem boIterFssNext_divides_by_zero :
    ∃ (g : Globals ℚ) (ws : GompWorkShare ℚ) (c : Cfg Unit Cells Local Ret),
      gompLoopInit fssOneTable (some 1) 0 .zero 0 1 2 .fsFss 0 7 = some (g, ws) ∧
      Reach (boIterFssNext ws (teamNthreads (some 1))) (entry ws) c ∧
      c.loc () = .loadChunk 0 0 ∧ (View.long ws).remaining 0 = some 0 ∧ uldiv 1 0 = none ∧
      boIterFssNext ws (teamNthreads (some 1)) () () c.shared (c.loc ()) = none ∧
      ¬ NeverTraps (boIterFssNext ws (teamNthreads (some 1)) : Prog Unit Unit Cells Local Ret)
        (boIterFssNext ws (teamNthreads (some 1))) (entry ws) := by
  have hrun : (gompLoopInit fssOneTable (some 1) 0 .zero 0 1 2 .fsFss 0 7).any (fun r =>
        decide ((View.long r.2).remaining 0 = some 0) &&
        (exec (boIterFssNext r.2 (teamNthreads (some 1))) (entry r.2) [((), ()), ((), ())]).any fun c =>
          decide (c.loc () = .loadChunk 0 0 ∧
            boIterFssNext r.2 (teamNthreads (some 1)) () () c.shared (c.loc ()) = none)) = true := by decide +kernel
  obtain ⟨⟨g, ws⟩, hinit, hrun⟩ := (Option.any_eq_true _ _).1 hrun
  obtain ⟨hrem, hrun⟩ := Bool.and_eq_true_iff.1 hrun
  obtain ⟨c, hr, hloc, hnone⟩ := exists_reach hrun
  refine ⟨g, ws, c, hinit, hr, hloc, of_decide_eq_true hrem, rfl, hnone, fun h => ?_⟩
  have hsome := h hr ()
  rw [hnone] at hsome
  cases hsome

end Bosched
