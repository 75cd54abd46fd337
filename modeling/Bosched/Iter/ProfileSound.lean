/-
What every step of a profiled loop keeps, where the threads enter through `gomp_loop_dynamic_start`: a thread in the body
holds the time stamp of its own start, the chunks taken are those whose profile was stopped and those still running, and
a slot holds the time of the last stop that wrote it.
-/
import Bosched.Iter.Profile

namespace Bosched

open Lib

variable {D : Type} [CDouble D] {P : Nat}

/-! ## One step -/

/-- The steps of a thread, with what they read and write. -/
inductive ProfStep (locked : Bool) (ws : GompWorkShare D) (i : Fin P) (now : Int) (next : Word) (g : Globals D) :
    ProfLocal → Word → Globals D → ProfLocal → Option ProfEvent → Prop
  | enter : ProfStep locked ws i now next g .enter next g (.calling .idle) none
  | stop {iter : Word} {stamp : Int} (hstamp : g.timestamp[i.val]? = some (iter, stamp))
      (hslot : iter.toNat < g.loads.length) :
      ProfStep locked ws i now next g .working next
        { g with loads := g.loads.set iter.toNat (microseconds (now - stamp)) } (.calling .idle) (some (.stop iter stamp now))
  | start {istart : Word} (hi : i.val < g.timestamp.length) :
      ProfStep locked ws i now next g (.granted istart) next { g with timestamp := g.timestamp.set i (istart, now) }
        .working (some (.start istart now))
  | told {loc : DynLocal} {next' : Word} (h : dynamicIter locked ws i () next loc = some (next', .stopped, some none)) :
      ProfStep locked ws i now next g (.calling loc) next' g .finished (some (.took none))
  | got {loc : DynLocal} {next' : Word} {r : Chunk}
      (h : dynamicIter locked ws i () next loc = some (next', .idle, some (some r))) :
      ProfStep locked ws i now next g (.calling loc) next' g (.granted r.1) (some (.took (some r)))
  | retry {loc : DynLocal} {chunk nend : Word} (hlocked : locked = false)
      (h : dynamicIter locked ws i () next loc = some (next, .casNext next chunk nend, none))
      (hstale : ∀ chunk nend, loc ≠ .casNext next chunk nend) :
      ProfStep locked ws i now next g (.calling loc) next g (.calling (.casNext next chunk nend)) none

theorem profiledLoop_step {locked : Bool} {ws : GompWorkShare D} {i : Fin P} {now : Int} {s s' : Word × Globals D}
    {loc loc' : ProfLocal} {e : Option ProfEvent} (hprof : s.2.profileLoop = true)
    (h : profiledLoop false locked ws i now s loc = some (s', loc', e)) :
    ProfStep locked ws i now s.1 s.2 loc s'.1 s'.2 loc' e := by
  cases loc with
  | finished => cases h
  | enter =>
    cases h
    exact .enter
  | working =>
    obtain ⟨g, hg, h⟩ := Option.bind_eq_some_iff.1 h
    unfold boWorkloadProfileStop iterationProfileStop store at hg
    rw [if_pos hprof] at hg
    obtain ⟨⟨iter, stamp⟩, hstamp, hg⟩ := Option.bind_eq_some_iff.1 hg
    obtain ⟨loads, hloads, hg⟩ := Option.bind_eq_some_iff.1 hg
    split at hloads
    · rename_i hslot
      cases hloads
      cases hg
      cases h
      rw [if_pos hprof, hstamp]
      exact .stop hstamp hslot
    · cases hloads
  | granted istart =>
    obtain ⟨g, hg, h⟩ := Option.bind_eq_some_iff.1 h
    unfold boWorkloadProfileStart iterationProfileStart store at hg
    rw [if_pos hprof] at hg
    obtain ⟨stamps, hstamps, hg⟩ := Option.bind_eq_some_iff.1 hg
    split at hstamps
    · rename_i hi
      cases hstamps
      cases hg
      cases h
      rw [if_pos hprof]
      exact .start hi
    · cases hstamps
  | calling loc =>
    obtain ⟨⟨next, loc', e'⟩, hiter, h⟩ := Option.map_eq_some_iff.1 h
    rcases dynamicIter_cases ws hiter with ⟨rfl, rfl⟩ | ⟨r, rfl, rfl⟩ | ⟨rfl, rfl, hl, ⟨c, d, rfl⟩, hstale⟩ <;> cases h
    · exact .told hiter
    · exact .got hiter
    · exact .retry hl hiter hstale

/-! ## The ledger -/

/-- The first iterations of the chunks taken. -/
def ProfEvent.tookAt : ProfEvent → Option Word
  | .took (some r) => some r.1
  | _ => none

/-- The slots written. -/
def ProfEvent.stopAt : ProfEvent → Option Word
  | .stop iter _ _ => some iter
  | _ => none

/-- The words of the events, each with the thread it belongs to. -/
def wordsOf (f : ProfEvent → Option Word) (log : List (Fin P × ProfEvent)) : List (Fin P × Word) :=
  log.filterMap fun x => (f x.2).map fun w => (x.1, w)

theorem wordsOf_logged (f : ProfEvent → Option Word) (log : List (Fin P × ProfEvent)) (i : Fin P)
    (e : Option ProfEvent) :
    wordsOf f (logged log i e) = wordsOf f log ++ ((e.bind f).map fun w => (i, w)).toList := by
  cases e with
  | none => simp
  | some e =>
    unfold wordsOf
    rw [logged_some, List.filterMap_append, Option.bind_some]
    cases h : f e <;> simp [h]

theorem count_wordsOf_logged (f : ProfEvent → Option Word) (log : List (Fin P × ProfEvent)) (i : Fin P)
    (e : Option ProfEvent) (j : Fin P) (w : Word) :
    (wordsOf f (logged log i e)).count (j, w) =
      (wordsOf f log).count (j, w) + if j = i ∧ e.bind f = some w then 1 else 0 := by
  rw [wordsOf_logged, List.count_append]
  congr 1
  cases h : e.bind f with
  | none => simp
  | some v =>
    rw [Option.map_some, Option.toList_some, List.count_singleton]
    by_cases hj : j = i
    · by_cases hv : v = w <;> simp [hj, hv]
    · simp [hj, Ne.symm hj]

/-- The chunk whose profile a thread has yet to stop. -/
def pending (g : Globals D) (i : Fin P) : ProfLocal → Option Word
  | .granted istart => some istart
  | .working => g.timestamp[i.val]?.map Prod.fst
  | _ => none

/-! ## The invariant -/

omit [CDouble D] in
theorem lastEvent_self (log : List (Fin P × ProfEvent)) (i : Fin P) (e : ProfEvent) :
    lastEvent i (log ++ [(i, e)]) = some e := by
  simp [lastEvent, List.filter_append]

omit [CDouble D] in
theorem lastEvent_other {i j : Fin P} (h : j ≠ i) (log : List (Fin P × ProfEvent)) (e : Option ProfEvent) :
    lastEvent j (logged log i e) = lastEvent j log := by
  cases e with
  | none => rfl
  | some e => simp [lastEvent, List.filter_append, Ne.symm h]

/-- What a thread knows where it stands. -/
def ProfLocal.Sound (locked : Bool) (g : Globals D) (log : List (Fin P × ProfEvent)) (i : Fin P) : ProfLocal → Prop
  | .enter => True
  | .calling loc => loc ≠ .stopped ∧ (locked = true → loc = .idle)
  | .granted istart => ∃ iend, (i, .took (some (istart, iend))) ∈ log
  | .working => ∃ iter stamp iend, g.timestamp[i.val]? = some (iter, stamp) ∧
      lastEvent i log = some (.start iter stamp) ∧ (i, .took (some (iter, iend))) ∈ log
  | .finished => (i, .took none) ∈ log

/-- The invariant, with `N` time stamps and `n` slots. -/
structure ProfSound (locked : Bool) (N n : Nat) (c : Cfg (Fin P) (Word × Globals D) ProfLocal ProfEvent) : Prop where
  profiling : c.shared.2.profileLoop = true
  stamps : c.shared.2.timestamp.length = N
  slots : c.shared.2.loads.length = n
  thread : ∀ i, (c.loc i).Sound locked c.shared.2 c.log i
  ledger : ∀ i w, (wordsOf ProfEvent.tookAt c.log).count (i, w) =
    (wordsOf ProfEvent.stopAt c.log).count (i, w) + if pending c.shared.2 i (c.loc i) = some w then 1 else 0
  stored : ∀ w i stamp now, (c.log.filter fun x => x.2.stopsAt w).getLast? = some (i, .stop w stamp now) →
    c.shared.2.loads[w.toNat]? = some (microseconds (now - stamp))

theorem mem_logged {ι E : Type} {x : ι × E} {log : List (ι × E)} (h : x ∈ log) (i : ι) (e : Option E) : x ∈ logged log i e := by
  cases e with
  | none => exact h
  | some e => exact List.mem_append_left _ h

omit [CDouble D] in
/-- A step of another thread leaves a thread's knowledge true. -/
theorem ProfLocal.Sound.other {locked : Bool} {g g' : Globals D} {log : List (Fin P × ProfEvent)} {i j : Fin P}
    (hj : j ≠ i) {loc : ProfLocal} (h : loc.Sound locked g log j) (hg : g'.timestamp[j.val]? = g.timestamp[j.val]?)
    (e : Option ProfEvent) : loc.Sound locked g' (logged log i e) j := by
  cases loc with
  | enter => trivial
  | calling => exact h
  | finished => exact mem_logged h i e
  | granted =>
    obtain ⟨iend, hmem⟩ := h
    exact ⟨iend, mem_logged hmem i e⟩
  | working =>
    obtain ⟨iter, stamp, iend, hstamp, hlast, hmem⟩ := h
    exact ⟨iter, stamp, iend, hg.trans hstamp, (lastEvent_other hj log e).trans hlast, mem_logged hmem i e⟩

/-- The invariant after a step, from what concerns the stepping thread. -/
theorem ProfSound.next {locked : Bool} {N n : Nat} {c : Cfg (Fin P) (Word × Globals D) ProfLocal ProfEvent}
    (h : ProfSound locked N n c) {i : Fin P} {next : Word} {g : Globals D} {loc : ProfLocal} {e : Option ProfEvent}
    (hprof : g.profileLoop = true) (hstamps : g.timestamp.length = N) (hslots : g.loads.length = n)
    (hother : ∀ j : Fin P, j ≠ i → g.timestamp[j.val]? = c.shared.2.timestamp[j.val]?)
    (hthread : loc.Sound locked g (logged c.log i e) i)
    (hledger : ∀ w, (if pending c.shared.2 i (c.loc i) = some w then 1 else 0) +
        (if e.bind ProfEvent.tookAt = some w then 1 else 0) =
      (if e.bind ProfEvent.stopAt = some w then 1 else 0) + if pending g i loc = some w then 1 else 0)
    (hstored : ∀ w j stamp now, ((logged c.log i e).filter fun x => x.2.stopsAt w).getLast? = some (j, .stop w stamp now) →
      g.loads[w.toNat]? = some (microseconds (now - stamp))) :
    ProfSound locked N n ⟨(next, g), Function.update c.loc i loc, logged c.log i e⟩ where
  profiling := hprof
  stamps := hstamps
  slots := hslots
  thread j := by
    by_cases hj : j = i
    · subst hj
      simpa only [Function.update_self] using hthread
    · simp only [Function.update_of_ne hj]
      exact (h.thread j).other hj (hother j hj) e
  ledger j w := by
    rw [count_wordsOf_logged, count_wordsOf_logged, h.ledger j w]
    by_cases hj : j = i
    · subst hj
      have := hledger w
      simp only [Function.update_self, true_and]
      omega
    · have hpend : pending g j (c.loc j) = pending c.shared.2 j (c.loc j) := by
        cases c.loc j with
        | working => exact congrArg (Option.map Prod.fst) (hother j hj)
        | _ => rfl
      simp only [Function.update_of_ne hj, hj, false_and, if_false, hpend]
      omega
  stored := hstored

/-- An event that does not write the slot is none of its writes. -/
theorem filter_stopsAt_logged {log : List (Fin P × ProfEvent)} {i : Fin P} {e : Option ProfEvent} {w : Word}
    (he : ∀ e', e = some e' → e'.stopsAt w = false) :
    ((logged log i e).filter fun x => x.2.stopsAt w) = log.filter fun x => x.2.stopsAt w := by
  cases e with
  | none => rfl
  | some e => rw [logged_some, List.filter_append, List.filter_singleton, he e rfl, cond_false, List.append_nil]

theorem ProfSound.step {locked : Bool} {ws : GompWorkShare D} {N n : Nat}
    {c c' : Cfg (Fin P) (Word × Globals D) ProfLocal ProfEvent} (h : ProfSound locked N n c)
    (hs : Step (profiledLoop false locked ws) c c') : ProfSound locked N n c' := by
  cases hs with
  | @mk i now s' loc' e hp =>
    have hstep := profiledLoop_step h.profiling hp
    generalize hloc : c.loc i = loc at hstep
    have hthread := h.thread i
    rw [hloc] at hthread
    -- a step that writes no slot
    have hquiet : (∀ w e', e = some e' → e'.stopsAt w = false) → ∀ w j stamp now,
        ((logged c.log i e).filter fun x => x.2.stopsAt w).getLast? = some (j, .stop w stamp now) →
        c.shared.2.loads[w.toNat]? = some (microseconds (now - stamp)) := by
      intro he w j stamp now hlast
      rw [filter_stopsAt_logged (he w)] at hlast
      exact h.stored w j stamp now hlast
    obtain ⟨next', g'⟩ := s'
    cases hstep with
    | enter =>
      refine h.next h.profiling h.stamps h.slots (fun _ _ => rfl) ⟨DynLocal.noConfusion, fun _ => rfl⟩ (fun w => ?_)
        (hquiet (by rintro _ _ ⟨⟩))
      rw [hloc]
      simp [pending]
    | @stop iter stamp hstamp hslot =>
      refine h.next h.profiling h.stamps (by rw [List.length_set, h.slots]) (fun _ _ => rfl)
        ⟨DynLocal.noConfusion, fun _ => rfl⟩ (fun w => ?_) (fun w j stamp' now' hlast => ?_)
      · rw [hloc]
        simp [pending, hstamp, ProfEvent.tookAt, ProfEvent.stopAt]
      · by_cases hw : iter = w
        · -- this stop wrote the slot last
          subst hw
          rw [logged_some, List.filter_append] at hlast
          simp [ProfEvent.stopsAt] at hlast
          obtain ⟨-, rfl, rfl⟩ := hlast
          rw [List.getElem?_set_self hslot]
        · rw [filter_stopsAt_logged (by rintro _ ⟨⟩; exact decide_eq_false hw)] at hlast
          have hne : iter.toNat ≠ w.toNat := fun heq => hw (BitVec.eq_of_toNat_eq heq)
          rw [List.getElem?_set_ne hne]
          exact h.stored w j stamp' now' hlast
    | @start istart hi =>
      obtain ⟨iend, hmem⟩ := hthread
      have hself : (c.shared.2.timestamp.set i (istart, now))[i.val]? = some (istart, now) := List.getElem?_set_self hi
      refine h.next h.profiling (by rw [List.length_set, h.stamps]) h.slots (fun j hj => ?_)
        ⟨istart, now, iend, hself, lastEvent_self _ i _, mem_logged hmem i _⟩ (fun w => ?_) (hquiet (by rintro _ _ ⟨⟩; rfl))
      · exact List.getElem?_set_ne fun heq => hj (Fin.ext heq.symm)
      · rw [hloc]
        simp [pending, hi, ProfEvent.tookAt, ProfEvent.stopAt]
    | told hiter =>
      refine h.next h.profiling h.stamps h.slots (fun _ _ => rfl) (by simp [ProfLocal.Sound]) (fun w => ?_) (hquiet (by rintro _ _ ⟨⟩; rfl))
      rw [hloc]
      simp [pending, ProfEvent.tookAt, ProfEvent.stopAt]
    | @got loc next r hiter =>
      refine h.next h.profiling h.stamps h.slots (fun _ _ => rfl) ⟨r.2, by simp⟩ (fun w => ?_) (hquiet (by rintro _ _ ⟨⟩; rfl))
      rw [hloc]
      simp [pending, ProfEvent.tookAt, ProfEvent.stopAt]
    | retry hlocked =>
      refine h.next h.profiling h.stamps h.slots (fun _ _ => rfl) ⟨DynLocal.noConfusion, fun hl => ?_⟩ (fun w => ?_)
        (hquiet (by rintro _ _ ⟨⟩))
      · rw [hlocked] at hl
        cases hl
      · rw [hloc]
        simp [pending]

end Bosched
