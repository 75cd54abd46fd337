/-
The calls of `bo_schedule_begin` and `bo_schedule_end` of each region id over the runs of a program:
they alternate, and every begin is matched, where each construct makes one end call for its begin call
and no loop begins while another instance with its id is in flight.
-/
import Bosched.Lib.Sessions
import Bosched.Team.Forest

namespace Bosched

open Lib

/-! ## The calls of a region -/

/-- The call an event makes for region `r`: `true` for `bo_schedule_begin`, `false` for `bo_schedule_end`. -/
def TeamEvent.callOf (r : RegionId) : TeamEvent → Option Bool
  | .begin r' _ => if r' = r then some true else none
  | .finish r' _ => if r' = r then some false else none

def callsOf (r : RegionId) (log : List ((Nat × Nat) × TeamEvent)) : List Bool := log.filterMap (·.2.callOf r)

theorem callsOf_logged (r : RegionId) (log : List ((Nat × Nat) × TeamEvent)) (x : Nat × Nat) (e : Option TeamEvent) :
    callsOf r (logged log x e) = callsOf r log ++ (e.bind (TeamEvent.callOf r)).toList := by
  cases e with
  | none => simp
  | some e =>
    unfold callsOf
    rw [logged_some, List.filterMap_append]
    cases he : e.callOf r <;> simp [he]

/-! ## The loops in flight -/

/-- The end call of a combined loop without a barrier is left to the master. -/
def Region.endsAtMaster : Region → Bool
  | .parallelLoop _ c _ => c.form ≠ .barrier
  | _ => false

instance (s : TeamShared) (m : Member) (k : Nat) : Decidable (m.hasLeft s k) :=
  match hm : m.status with
  | .waiting g => decidable_of_iff (k < m.pos ∨ m.pos = k ∧ g ≠ s.generation) (by simp [Member.hasLeft, hm])
  | .between | .inside | .working | .finished => decidable_of_iff (k < m.pos) (by simp [Member.hasLeft, hm])

instance (R : Region) (s : TeamShared) (loc : Nat → Member) (k : Nat) : Decidable (AllLeft R s loc k) :=
  inferInstanceAs (Decidable (∀ _ < _, _))

/-- The work share of construct `k` is in use: a member has not left it or, for a combined loop without
a barrier, the master has not come to `GOMP_parallel_end`. -/
def InUse (R : Region) (s : TeamShared) (loc : Nat → Member) (k : Nat) : Prop :=
  k < s.started ∧ if R.endsAtMaster then (loc 0).status ≠ .finished else ¬AllLeft R s loc k

instance (R : Region) (s : TeamShared) (loc : Nat → Member) (k : Nat) : Decidable (InUse R s loc k) :=
  inferInstanceAs (Decidable (_ ∧ _))

/-- A loop with id `r` is in use as construct `k`. -/
def Uses (R : Region) (s : TeamShared) (loc : Nat → Member) (r : RegionId) (k : Nat) : Prop :=
  InUse R s loc k ∧ (R.body[k]?).bind (·.begins) = some r

instance (R : Region) (s : TeamShared) (loc : Nat → Member) (r : RegionId) (k : Nat) : Decidable (Uses R s loc r k) :=
  inferInstanceAs (Decidable (_ ∧ _))

/-- Some team runs a loop with id `r`. -/
def InFlight (F : List Team) (r : RegionId) : Prop :=
  ∃ T ∈ F, ∃ k < T.cfg.shared.started, Uses T.region T.cfg.shared T.cfg.loc r k

instance (F : List Team) (r : RegionId) : Decidable (InFlight F r) :=
  inferInstanceAs (Decidable (∃ T ∈ F, ∃ k, k < T.cfg.shared.started ∧ _))

/-! ## Constructs with matching calls -/

/-- The calls that one instance of the construct makes in the region: one begin and one end with the
same id, or none. -/
def CallsMatch (R : Region) (c : Construct) : Prop :=
  match R with
  | .initial _ => if c.form = .nowait then c.begins = some c.ends else c.begins = none
  | .parallel _ _ => c.begins = some c.ends
  | .parallelLoop _ _ boAtEnd =>
    if c.form = .barrier then c.begins = some c.ends ∧ ¬(c.ends ≠ 0 ∧ boAtEnd = true)
    else c.begins = none ∨ c.begins.getD 0 ≠ 0 ∧ boAtEnd = true

instance (R : Region) (c : Construct) : Decidable (CallsMatch R c) :=
  match R with
  | .initial _ => inferInstanceAs (Decidable (if c.form = .nowait then c.begins = some c.ends else c.begins = none))
  | .parallel _ _ => inferInstanceAs (Decidable (c.begins = some c.ends))
  | .parallelLoop _ _ boAtEnd => inferInstanceAs (Decidable (
    if c.form = .barrier then c.begins = some c.ends ∧ ¬(c.ends ≠ 0 ∧ boAtEnd = true)
    else c.begins = none ∨ c.begins.getD 0 ≠ 0 ∧ boAtEnd = true))

/-- A construct may begin: its calls match, and no loop with its id is in flight. -/
def MayBegin (F : List Team) (R : Region) (c : Construct) : Prop :=
  CallsMatch R c ∧ ∀ r ∈ c.begins, ¬InFlight F r

-- not by the instance for all `BitVec 64`
instance (F : List Team) (R : Region) (c : Construct) : Decidable (MayBegin F R c) :=
  decidable_of_iff (CallsMatch R c ∧ (c.begins.all fun r => !decide (InFlight F r)) = true)
    (by cases hb : c.begins <;> simp [MayBegin, hb])

/-- The condition on a step: where it initialises a work share, the construct may begin. -/
def BeginsAlone (x : Nat × Nat) (a : ForestAction) (F : List Team) (_ : Unit) : Prop :=
  match a with
  | .act _ => ∀ T ∈ F[x.1]?, T.region.preInit = false → (T.cfg.loc x.2).status = .between →
      (T.cfg.loc x.2).pos = T.cfg.shared.started →
        ∀ c ∈ T.region.body[T.cfg.shared.started]?, MayBegin F T.region c
  | .fork R => R.preInit = true → ∀ c ∈ R.body[0]?, MayBegin F R c
  | .join => True

instance (x : Nat × Nat) (a : ForestAction) (F : List Team) (l : Unit) : Decidable (BeginsAlone x a F l) :=
  match a with
  | .act _ => inferInstanceAs (Decidable (∀ T ∈ F[x.1]?, T.region.preInit = false →
    (T.cfg.loc x.2).status = .between → (T.cfg.loc x.2).pos = T.cfg.shared.started →
      ∀ c ∈ T.region.body[T.cfg.shared.started]?, MayBegin F T.region c))
  | .fork R => inferInstanceAs (Decidable (R.preInit = true → ∀ c ∈ R.body[0]?, MayBegin F R c))
  | .join => inferInstanceAs (Decidable True)

/-! ## What a step does to the loops in use -/

/-- The loops in use before and after a step, by the event it logs. -/
inductive UsesEffect (used used' : RegionId → Nat → Prop) : Option TeamEvent → Prop
  | same (h : ∀ r k, used' r k ↔ used r k) : UsesEffect used used' none
  | begins (r : RegionId) (k : Nat) (h : ∀ r' k', used' r' k' ↔ used r' k' ∨ r' = r ∧ k' = k) :
      UsesEffect used used' (some (.begin r k))
  | ends (r : RegionId) (k : Nat) (hopen : used r k) (h : ∀ r' k', used' r' k' ↔ used r' k' ∧ ¬(r' = r ∧ k' = k)) :
      UsesEffect used used' (some (.finish r k))

section

variable {R : Region} {s s' : TeamShared} {loc : Nat → Member} {i : Nat} {m' : Member} {e : Option TeamEvent}

theorem Region.endsAtMaster_preInit (h : R.endsAtMaster = true) : R.preInit = true := by
  cases R <;> first | rfl | cases h

theorem Region.callsEnd_false (h : R.endsAtMaster = true) {k : Nat} {c : Construct} (hc : R.body[k]? = some c) :
    ¬R.callsEnd c := by
  cases R with
  | parallelLoop n c' b =>
    have hform : c'.form ≠ .barrier := by simpa [endsAtMaster] using h
    have hmem : c = c' := List.mem_singleton.1 (List.mem_of_getElem? hc)
    subst hmem
    simpa [callsEnd, team, preInit] using hform
  | _ => cases h

/-- A step that leaves the started shares, what is left and the master as they are. -/
theorem uses_congr (hstarted : s'.started = s.started)
    (hleft : ∀ k, AllLeft R s' (Function.update loc i m') k ↔ AllLeft R s loc k)
    (hfin : R.endsAtMaster = true → (i = 0 → (m'.status = .finished ↔ (loc 0).status = .finished))) (r : RegionId) (k : Nat) :
    Uses R s' (Function.update loc i m') r k ↔ Uses R s loc r k := by
  unfold Uses InUse
  rw [hstarted, hleft]
  by_cases hend : R.endsAtMaster = true
  · rw [if_pos hend, if_pos hend]
    by_cases hi : i = 0
    · subst hi
      rw [Function.update_self, ne_eq, hfin hend rfl]
    · rw [Function.update_of_ne (Ne.symm hi)]
  · rw [if_neg hend, if_neg hend]

/-- A construct that makes no begin call is never in use under an id. -/
theorem not_uses {k : Nat} {c : Construct} (hc : R.body[k]? = some c) (hb : c.begins = none) (r : RegionId) :
    ¬Uses R s loc r k := by
  rintro ⟨-, h⟩
  rw [hc, Option.bind_some, hb] at h
  cases h

theorem uses_iff {k : Nat} {c : Construct} {r : RegionId} (hc : R.body[k]? = some c) (hb : c.begins = some r) (r' : RegionId) :
    Uses R s loc r' k ↔ InUse R s loc k ∧ r' = r := by
  unfold Uses
  rw [hc, Option.bind_some, hb, Option.some.injEq, eq_comm]

/-- Each end call ends the loop it is made for, where the calls of the constructs match. -/
theorem TeamEffect.uses (h : TeamEffect R i s loc s' m' e) (hinv : TeamInv R s loc)
    (hmatch : ∀ k < s'.started, ∀ c, R.body[k]? = some c → CallsMatch R c) :
    UsesEffect (Uses R s loc) (Uses R s' (Function.update loc i m')) e := by
  cases h with
  | quiet hleft hstarted hfin hfin' =>
    refine .same (uses_congr hstarted hleft fun _ hi => ?_)
    subst hi
    exact iff_of_false hfin hfin'
  | starts c hc hR hleft hopen hstarted _ _ =>
    have hend : R.endsAtMaster = false := by
      by_contra hend
      rw [Region.endsAtMaster_preInit (by simpa using hend)] at hR
      cases hR
    have huse : ∀ k, InUse R s' (Function.update loc i m') k ↔ InUse R s loc k ∨ k = s.started := fun k => by
      unfold InUse
      rw [hend, hstarted, hleft, if_neg Bool.false_ne_true, if_neg Bool.false_ne_true]
      by_cases hk : k = s.started
      · subst hk
        exact iff_of_true ⟨Nat.lt_succ_self _, hopen⟩ (.inr rfl)
      · simp only [hk, or_false]
        exact and_congr_left fun _ => by omega
    have hold : ∀ r, ¬Uses R s loc r s.started := fun r hu => absurd hu.1.1 (lt_irrefl _)
    cases hb : c.begins with
    | none =>
      refine .same fun r k => ?_
      by_cases hk : k = s.started
      · subst hk
        exact iff_of_false (not_uses hc hb r) (hold r)
      · exact and_congr_left fun _ => (huse k).trans (or_iff_left hk)
    | some r =>
      refine .begins r s.started fun r' k => ?_
      by_cases hk : k = s.started
      · subst hk
        rw [uses_iff hc hb, huse, or_iff_right (hold r')]
        simp
      · rw [or_iff_left fun h => hk h.2]
        exact and_congr_left fun _ => (huse k).trans (or_iff_left hk)
  | ends k c e hc hk hleft hopen hstarted hfin hfin' he hne =>
    by_cases hend : R.endsAtMaster = true
    · rw [hne (Region.callsEnd_false hend hc)]
      refine .same fun r k' => ?_
      unfold Uses InUse
      rw [hstarted, if_pos hend, if_pos hend]
      by_cases hi : i = 0
      · subst hi
        rw [Function.update_self, iff_true_intro hfin, iff_true_intro hfin']
      · rw [Function.update_of_ne (Ne.symm hi)]
    · have huse : ∀ k', InUse R s' (Function.update loc i m') k' ↔ InUse R s loc k' ∧ k' ≠ k := fun k' => by
        unfold InUse
        rw [hstarted, hleft, if_neg hend, if_neg hend]
        tauto
      have hinuse : InUse R s loc k := ⟨hk, by rw [if_neg hend]; exact hopen⟩
      have hcase : R.callsEnd c ∧ c.begins = some c.ends ∨ ¬R.callsEnd c ∧ c.begins = none := by
        have hm := hmatch k (by rw [hstarted]; exact hk) c hc
        cases R with
        | initial body =>
          by_cases hform : c.form = .nowait
          · exact .inl ⟨hform, by simpa [CallsMatch, hform] using hm⟩
          · exact .inr ⟨hform, by simpa [CallsMatch, hform] using hm⟩
        | parallel n body => exact .inl ⟨.inl rfl, hm⟩
        | parallelLoop n c' b =>
          have hmem : c = c' := List.mem_singleton.1 (List.mem_of_getElem? hc)
          subst hmem
          have hform : c.form = .barrier := by simpa [Region.endsAtMaster] using hend
          refine .inl ⟨.inr hform, ?_⟩
          simp only [CallsMatch, hform, if_true] at hm
          exact hm.1
      rcases hcase with ⟨hcalls, hb⟩ | ⟨hcalls, hb⟩
      · rw [he hcalls]
        refine .ends c.ends k ((uses_iff hc hb _).2 ⟨hinuse, rfl⟩) fun r k' => ?_
        by_cases hkk : k' = k
        · subst hkk
          rw [uses_iff hc hb, uses_iff hc hb, huse]
          tauto
        · simp only [Uses, huse, hkk, ne_eq, not_false_eq_true, and_true, and_false]
      · rw [hne hcalls]
        refine .same fun r k' => ?_
        by_cases hkk : k' = k
        · subst hkk
          exact iff_of_false (not_uses hc hb r) (not_uses hc hb r)
        · simp only [Uses, huse, hkk, ne_eq, not_false_eq_true, and_true]
  | region hleft hstarted hfin hpos hb =>
    by_cases hi : i = 0
    swap
    · rw [if_neg hi]
      exact .same (uses_congr hstarted hleft fun _ h0 => absurd h0 hi)
    subst hi
    rw [if_pos rfl]
    cases R with
    | initial body => exact .same (uses_congr hstarted hleft nofun)
    | parallel n body => exact .same (uses_congr hstarted hleft nofun)
    | parallelLoop n c b =>
      have hone : s.started = 1 := hinv.preInit rfl
      have hm := hmatch 0 (by omega) c rfl
      by_cases hform : c.form = .barrier
      · have hend : Region.endsAtMaster (.parallelLoop n c b) = false := by simp [Region.endsAtMaster, hform]
        simp only [CallsMatch, hform, if_true] at hm
        have hnone : gompParallelEnd (.parallelLoop n c b) = none := if_neg (by rw [hm.1]; exact hm.2)
        rw [hnone]
        exact .same (uses_congr hstarted hleft fun h => by rw [hend] at h; cases h)
      · have hend : Region.endsAtMaster (.parallelLoop n c b) = true := by simp [Region.endsAtMaster, hform]
        have hinuse : ∀ k, InUse (.parallelLoop n c b) s loc k ↔ k = 0 := fun k => by
          unfold InUse
          rw [if_pos hend, hone, hb]
          simp
        have hclosed : ∀ k, ¬InUse (.parallelLoop n c b) s' (Function.update loc 0 m') k := fun k hu => by
          obtain ⟨-, hu⟩ := hu
          rw [if_pos hend, Function.update_self] at hu
          exact hu hfin
        simp only [CallsMatch, hform, if_false] at hm
        rcases hm with hm | hm
        · have hnone : gompParallelEnd (.parallelLoop n c b) = none := if_neg (by rw [hm]; simp)
          rw [hnone]
          refine .same fun r k => iff_of_false (fun hu => hclosed k hu.1) fun hu => ?_
          rw [(hinuse k).1 hu.1] at hu
          exact not_uses (c := c) rfl hm r hu
        · obtain ⟨r, hr⟩ : ∃ r, c.begins = some r := by
            cases hbeg : c.begins with
            | none => rw [hbeg] at hm; exact absurd rfl hm.1
            | some r => exact ⟨r, rfl⟩
          have hsome : gompParallelEnd (.parallelLoop n c b) = some (.finish r 0) := by
            have hif : gompParallelEnd (.parallelLoop n c b) = some (.finish (c.begins.getD 0) 0) := if_pos hm
            rw [hif, hr]; rfl
          rw [hsome]
          refine .ends r 0 ((uses_iff (c := c) rfl hr r).2 ⟨(hinuse 0).2 rfl, rfl⟩) fun r' k => ?_
          refine iff_of_false (fun hu => hclosed k hu.1) ?_
          rintro ⟨hu, hne⟩
          obtain rfl := (hinuse k).1 hu.1
          exact hne ⟨((uses_iff (c := c) rfl hr r').1 hu).2, rfl⟩

end

/-! ## Programs -/

/-- A loop with id `r` is in use as construct `x.2` of team `x.1`. -/
def Using (F : List Team) (r : RegionId) (x : Nat × Nat) : Prop :=
  ∃ T, F[x.1]? = some T ∧ Uses T.region T.cfg.shared T.cfg.loc r x.2

theorem inFlight_iff {F : List Team} {r : RegionId} : InFlight F r ↔ ∃ x, Using F r x := by
  constructor
  · rintro ⟨T, hT, k, -, hu⟩
    obtain ⟨t, ht⟩ := List.getElem?_of_mem hT
    exact ⟨(t, k), T, ht, hu⟩
  · rintro ⟨⟨t, k⟩, T, hT, hu⟩
    exact ⟨T, List.mem_of_getElem? hT, k, hu.1.1, hu⟩

/-- Replacing a team changes its own loops only. -/
theorem using_set {F : List Team} {t : Nat} {T T' : Team} (hT : F[t]? = some T) (r : RegionId) (x : Nat × Nat) :
    Using (F.set t T') r x ↔
      if x.1 = t then Uses T'.region T'.cfg.shared T'.cfg.loc r x.2 else Using F r x := by
  have ht := (List.getElem?_eq_some_iff.1 hT).1
  unfold Using
  by_cases hx : x.1 = t
  · rw [if_pos hx, hx, List.getElem?_set_self ht]
    simp
  · rw [if_neg hx, List.getElem?_set_ne (Ne.symm hx)]

theorem using_append {F : List Team} {T : Team} (r : RegionId) (x : Nat × Nat) :
    Using (F ++ [T]) r x ↔ Using F r x ∨ x.1 = F.length ∧ Uses T.region T.cfg.shared T.cfg.loc r x.2 := by
  unfold Using
  rcases Nat.lt_trichotomy x.1 F.length with h | h | h
  · rw [List.getElem?_append_left h]
    simp [Nat.ne_of_lt h]
  · rw [h, List.getElem?_concat_length, List.getElem?_eq_none (le_refl _)]
    simp
  · rw [List.getElem?_eq_none (by simp; omega), List.getElem?_eq_none (by omega)]
    simp [Nat.ne_of_gt h]

/-- What the calls of a program are tied to: its teams run their regions, the constructs started have
matching calls, and the loops in use are the open sessions of the ids. -/
structure CallsInv (F : List Team) (log : List ((Nat × Nat) × TeamEvent)) : Prop where
  runs : TeamsRun F
  matching : ∀ T ∈ F, ∀ k < T.cfg.shared.started, ∀ c, T.region.body[k]? = some c → CallsMatch T.region c
  sessions : Sessions (callsOf · log) (Using F)

theorem callsInv_start (body : List Construct) : CallsInv (forestStart body).shared (forestStart body).log where
  runs := teamsRun_reach .refl
  matching T hT k hk := by
    rw [List.mem_singleton.1 hT] at hk
    cases hk
  sessions := .start (fun _ => rfl) fun r x hu => by
    obtain ⟨T, hT, hu⟩ := hu
    rw [List.mem_singleton.1 (List.mem_of_getElem? hT)] at hu
    exact absurd hu.1.1 (Nat.not_lt_zero _)

/-- The sessions after a team's step. -/
theorem sessions_of_effect {F : List Team} {t i : Nat} {T T' : Team} {log : List ((Nat × Nat) × TeamEvent)}
    {e : Option TeamEvent} (h : Sessions (callsOf · log) (Using F)) (hT : F[t]? = some T)
    (he : UsesEffect (Uses T.region T.cfg.shared T.cfg.loc) (Uses T'.region T'.cfg.shared T'.cfg.loc) e)
    (hnew : ∀ r k, e = some (.begin r k) → ¬InFlight F r) :
    Sessions (callsOf · (logged log (t, i) e)) (Using (F.set t T')) := by
  have hold : ∀ r x, Using F r x ↔ if x.1 = t then Uses T.region T.cfg.shared T.cfg.loc r x.2 else Using F r x := by
    intro r x
    by_cases hx : x.1 = t
    · rw [if_pos hx]
      unfold Using
      rw [hx, hT]
      simp
    · rw [if_neg hx]
  cases he with
  | same hsame =>
    refine h.congr (fun r => by rw [callsOf_logged]; simp) fun r x => ?_
    rw [using_set hT, hold]
    by_cases hx : x.1 = t
    · rw [if_pos hx, if_pos hx, hsame]
    · rw [if_neg hx, if_neg hx]
  | begins r k hbegin =>
    refine h.opens (k := r) (x := (t, k)) (fun y hy => hnew r k rfl (inFlight_iff.2 ⟨y, hy⟩)) ?_ (fun r' hr' => ?_)
      fun r' x => ?_
    · rw [callsOf_logged]; simp [TeamEvent.callOf]
    · rw [callsOf_logged]; simp [TeamEvent.callOf, Ne.symm hr']
    · rw [using_set hT, hold]
      by_cases hx : x.1 = t
      · rw [if_pos hx, if_pos hx, hbegin, Prod.ext_iff, hx]
        simp
      · rw [if_neg hx, if_neg hx]
        exact (or_iff_left fun hr => hx (by rw [hr.2])).symm
  | ends r k hopen hend =>
    have hopen' : Using F r (t, k) := ⟨T, hT, hopen⟩
    refine h.closes hopen' ?_ (fun r' hr' => ?_) fun r' x => ?_
    · rw [callsOf_logged]; simp [TeamEvent.callOf]
    · rw [callsOf_logged]; simp [TeamEvent.callOf, Ne.symm hr']
    · rw [using_set hT, hold]
      by_cases hx : x.1 = t
      · rw [if_pos hx, if_pos hx, hend, Prod.ext_iff, hx]
        simp
      · rw [if_neg hx, if_neg hx]
        exact (and_iff_left fun hr => hx (by rw [hr.2])).symm

/-- A region at its start uses the loop it has initialised, if it has one. -/
theorem uses_start {R : Region} (hsize : 0 < R.size) (outer : Option U32) :
    UsesEffect (fun _ _ => False) (Uses R (teamStart R outer).shared (teamStart R outer).loc) (gompParallelLoopStart R) := by
  cases R with
  | initial body => exact .same fun r k => iff_of_false (fun hu => absurd hu.1.1 (Nat.not_lt_zero _)) id
  | parallel n body => exact .same fun r k => iff_of_false (fun hu => absurd hu.1.1 (Nat.not_lt_zero _)) id
  | parallelLoop n c b =>
    have hone : ∀ {k}, InUse (.parallelLoop n c b) (teamStart (.parallelLoop n c b) outer).shared
        (teamStart (.parallelLoop n c b) outer).loc k ↔ k = 0 := fun {k} => by
      constructor
      · rintro ⟨hk, -⟩
        exact Nat.lt_one_iff.1 hk
      · rintro rfl
        refine ⟨Nat.one_pos, ?_⟩
        split
        · simp [teamStart]
        · exact fun hall => not_hasLeft rfl (by simp [teamStart]) (hall 0 hsize)
    cases hb : c.begins with
    | none =>
      rw [show gompParallelLoopStart (.parallelLoop n c b) = none by simp [gompParallelLoopStart, hb]]
      refine .same fun r k => iff_of_false (fun hu => ?_) id
      rw [hone.1 hu.1] at hu
      exact not_uses (c := c) rfl hb r hu
    | some r =>
      rw [show gompParallelLoopStart (.parallelLoop n c b) = some (.begin r 0) by simp [gompParallelLoopStart, hb]]
      refine .begins r 0 fun r' k => ?_
      rw [false_or]
      constructor
      · intro hu
        obtain rfl := hone.1 hu.1
        exact ⟨((uses_iff (c := c) rfl hb r').1 hu).2, rfl⟩
      · rintro ⟨rfl, rfl⟩
        exact (uses_iff (c := c) rfl hb r').2 ⟨hone.2 rfl, rfl⟩

/-- The sessions after a team is started. -/
theorem sessions_of_start {F : List Team} {x : Nat × Nat} {T : Team} {log : List ((Nat × Nat) × TeamEvent)}
    {e : Option TeamEvent} (h : Sessions (callsOf · log) (Using F))
    (he : UsesEffect (fun _ _ => False) (Uses T.region T.cfg.shared T.cfg.loc) e)
    (hnew : ∀ r k, e = some (.begin r k) → ¬InFlight F r) :
    Sessions (callsOf · (logged log x e)) (Using (F ++ [T])) := by
  cases he with
  | same hsame =>
    refine h.congr (fun r => by rw [callsOf_logged]; simp) fun r y => ?_
    rw [using_append, hsame]
    simp
  | begins r k hbegin =>
    refine h.opens (k := r) (x := (F.length, k)) (fun y hy => hnew r k rfl (inFlight_iff.2 ⟨y, hy⟩)) ?_
      (fun r' hr' => ?_) fun r' y => ?_
    · rw [callsOf_logged]; simp [TeamEvent.callOf]
    · rw [callsOf_logged]; simp [TeamEvent.callOf, Ne.symm hr']
    · rw [using_append, hbegin, Prod.ext_iff]
      simp only [false_or]
      tauto
  | ends r k hopen _ => exact hopen.elim

/-- What a program's step keeps. -/
theorem CallsInv.step {x : Nat × Nat} {a : ForestAction} {F F' : List Team} {T : Team}
    {log : List ((Nat × Nat) × TeamEvent)} {e : Option TeamEvent} (h : CallsInv F log) (hT : F[x.1]? = some T)
    (hr : ForestRule x F T a F' e) (hok : BeginsAlone x a F ()) : CallsInv F' (logged log x e) := by
  have hmem := List.mem_of_getElem? hT
  have hruns := hr.teamsRun hT h.runs
  -- the loops of a team do not depend on who has started a team
  have haway : ∀ w, Sessions (callsOf · log) (Using (F.set x.1 { T with away := w })) := fun w =>
    sessions_of_effect (e := none) (i := x.2) h.sessions hT (.same fun _ _ => Iff.rfl) nofun
  have hmatchSet : ∀ w, ∀ U ∈ F.set x.1 { T with away := w }, ∀ k < U.cfg.shared.started, ∀ c,
      U.region.body[k]? = some c → CallsMatch U.region c := by
    intro w U hU
    rcases List.mem_or_eq_of_mem_set hU with hU | rfl
    · exact h.matching U hU
    · exact h.matching T hmem
  cases hr with
  | act a s m e haway' hstep =>
    obtain ⟨hi, hrule⟩ := teamStep_rule hstep
    have hinv := TeamInv.reach (h.runs T hmem).2
    have heff := hrule.effect hinv hi
    have hmay : ∀ c, T.region.body[T.cfg.shared.started]? = some c → s.started = T.cfg.shared.started + 1 →
        MayBegin F T.region c := by
      intro c hc hs
      cases heff with
      | starts c' hc' hR hleft hopen hstarted hb hpos => exact hok T hT hR hb hpos c hc
      | _ => omega
    have hle : s.started ≤ T.cfg.shared.started + 1 := by
      cases heff <;> omega
    have hmatch : ∀ k < s.started, ∀ c, T.region.body[k]? = some c → CallsMatch T.region c := by
      intro k hk c hc
      by_cases hlt : k < T.cfg.shared.started
      · exact h.matching T hmem k hlt c hc
      · obtain rfl : k = T.cfg.shared.started := by omega
        exact (hmay c hc (by omega)).1
    refine ⟨hruns, ?_, ?_⟩
    · intro U hU
      rcases List.mem_or_eq_of_mem_set hU with hU | rfl
      · exact h.matching U hU
      · exact hmatch
    · refine sessions_of_effect (i := x.2) h.sessions hT (heff.uses hinv hmatch) fun r k he => ?_
      cases heff with
      | starts c hc hR hleft hopen hstarted hb hpos =>
        obtain ⟨r', hr', hev⟩ := Option.map_eq_some_iff.1 he
        cases hev
        exact (hmay c hc hstarted).2 r hr'
      | quiet => cases he
      | ends k' c _ hc hk hleft hopen hstarted hfin hfin' hcall hne =>
        by_cases hcalls : T.region.callsEnd c
        · rw [hcall hcalls] at he; cases he
        · rw [hne hcalls] at he; cases he
      | region =>
        split at he
        · unfold gompParallelEnd at he
          split at he
          · split at he <;> cases he
          · cases he
        · cases he
  | fork R haway' hx hR hsize =>
    refine ⟨hruns, ?_, ?_⟩
    · intro U hU
      rcases List.mem_append.1 hU with hU | hU
      · exact hmatchSet _ U hU
      · rw [List.mem_singleton.1 hU]
        intro k hk c hc
        by_cases hpre : R.preInit = true
        · have hk : k < if R.preInit then 1 else 0 := hk
          rw [if_pos hpre, Nat.lt_one_iff] at hk
          subst hk
          exact (hok hpre c hc).1
        · have hk : k < if R.preInit then 1 else 0 := hk
          rw [if_neg hpre] at hk
          cases hk
    · refine sessions_of_start (haway _) (uses_start hsize T.region.team) fun r k he => ?_
      cases R with
      | parallelLoop n c b =>
        obtain ⟨r', hr', hev⟩ := Option.map_eq_some_iff.1 he
        cases hev
        have hnot := (hok rfl c rfl).2 r hr'
        rw [inFlight_iff] at hnot ⊢
        rintro ⟨y, hy⟩
        refine hnot ⟨y, ?_⟩
        rw [using_set hT] at hy
        split at hy
        case isTrue hyx => exact ⟨T, by rw [hyx]; exact hT, hy⟩
        case isFalse => exact hy
      | _ => cases he
  | join u U haway' hU hdone => exact ⟨hruns, hmatchSet _, haway _⟩

theorem callsInv_reach {body : List Construct} {c : Cfg (Nat × Nat) (List Team) Unit TeamEvent}
    (h : Reach (forestStep.only BeginsAlone) (forestStart body) c) : CallsInv c.shared c.log := by
  induction h with
  | refl => exact callsInv_start body
  | tail _ hs ih =>
    cases hs with
    | mk x a hp =>
      obtain ⟨hok, hp⟩ := Prog.only_eq_some.1 hp
      obtain ⟨T, hT, hr⟩ := forestStep_rule hp
      exact ih.step hT hr hok

/-- No loop is in use in a team whose members are all at its end. -/
theorem not_uses_of_done {T : Team} (hT : T.Done) (hinv : TeamInv T.region T.cfg.shared T.cfg.loc)
    (hsize : 0 < T.region.size) (r : RegionId) (k : Nat) : ¬Uses T.region T.cfg.shared T.cfg.loc r k := by
  rintro ⟨⟨hk, hopen⟩, -⟩
  by_cases hend : T.region.endsAtMaster = true
  · rw [if_pos hend] at hopen
    exact hopen (hT 0 hsize).1
  · rw [if_neg hend] at hopen
    refine hopen fun j hj => .inl ?_
    rw [(hinv.member j hj).finished (hT j hj).1]
    exact hk.trans_le hinv.started_le

/-- In every run of a program whose constructs make matching calls and begin only while no loop with
their id is in flight, the begin and end calls of each id alternate, and when the program has finished
each begin is matched by one end. -/
theorem boSchedule_calls_alternate {body : List Construct} {c : Cfg (Nat × Nat) (List Team) Unit TeamEvent}
    (h : Reach (forestStep.only BeginsAlone) (forestStart body) c) :
    (∀ r, Alternates (callsOf r c.log)) ∧ ((∀ T ∈ c.shared, T.Done) → ∀ r, Balanced (callsOf r c.log)) := by
  have hinv := callsInv_reach h
  refine ⟨hinv.sessions.alternates, fun hdone r => hinv.sessions.balanced (fun r x hu => ?_) r⟩
  obtain ⟨T, hT, hu⟩ := hu
  have hmem := List.mem_of_getElem? hT
  obtain ⟨hsize, hrun⟩ := hinv.runs T hmem
  exact not_uses_of_done (hdone T hmem) (TeamInv.reach hrun) hsize r x.2 hu

/-- The initial thread runs an orphaned loop with id 3 and, in a team of two, a combined loop with id 7. -/
theorem boSchedule_calls_alternate_two :
    ∃ c, Reach (forestStep.only BeginsAlone) (forestStart [⟨some 3, 3, .nowait, true, false, 0⟩]) c ∧
      callsOf 3 c.log = [true, false] ∧ callsOf 7 c.log = [true, false] ∧ ∀ r, Balanced (callsOf r c.log) := by
  have hrun : (exec (forestStep.only BeginsAlone) (forestStart [⟨some 3, 3, .nowait, true, false, 0⟩])
      [((0, 0), .fork (.parallelLoop 2 ⟨some 7, 7, .nowait, true, false, 1⟩ true)),
        ((1, 0), .act .enter), ((1, 1), .act .enter), ((1, 1), .act .take), ((1, 1), .act .done),
        ((1, 0), .act .leave), ((1, 1), .act .leave), ((1, 1), .act .finish), ((1, 0), .act .finish),
        ((0, 0), .join), ((0, 0), .act .enter), ((0, 0), .act .leave), ((0, 0), .act .finish)]).any (fun c =>
      decide (callsOf 3 c.log = [true, false] ∧ callsOf 7 c.log = [true, false] ∧ ∀ T ∈ c.shared, T.Done)) = true := by
    decide +kernel
  obtain ⟨c, hc, hthree, hseven, hdone⟩ := exists_reach hrun
  exact ⟨c, hc, hthree, hseven, (boSchedule_calls_alternate hc).2 hdone⟩

/-- `GOMP_loop_end` outside any team never calls `bo_schedule_end`. -/
theorem orphan_not_balanced :
    ¬∀ (body : List Construct) c, Reach forestStep (forestStart body) c →
      (∀ r, Alternates (callsOf r c.log)) ∧ ((∀ T ∈ c.shared, T.Done) → ∀ r, Balanced (callsOf r c.log)) := by
  intro h
  have hrun : (exec forestStep (forestStart [⟨some 5, 5, .barrier, true, false, 0⟩])
      [((0, 0), .act .enter), ((0, 0), .act .leave), ((0, 0), .act .finish)]).any (fun c =>
      decide ((callsOf 5 c.log).length = 1 ∧ ∀ T ∈ c.shared, T.Done)) = true := by
    decide +kernel
  obtain ⟨c, hc, hlen, hdone⟩ := exists_reach hrun
  have heven := ((h _ c hc).2 hdone 5).2
  omega

end Bosched
