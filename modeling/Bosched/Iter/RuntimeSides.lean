/-
Teams that agree on `bo_fallback_static`. As long as every thread that still has to ask gets the same answer, all go to
one side, the work share is initialised once for it, and what the threads then do is a run of that side's iterator.
-/
import Bosched.Iter.RuntimeStart

namespace Bosched

open Lib

/-! ## One step -/

section

variable {D : Type} [CDouble D] {P : Nat}

/-- What one thread can do. -/
inductive StartStep (a : RuntimeLoop D) (i : Fin P) (s : LoopTeam D) :
    Word × StartLocal → LoopTeam D → Word × StartLocal → Option StartEvent → Prop
  | asks {trip : Word} :
    StartStep a i s (trip, .enter)
      { s with globals := (boFallbackStatic s.globals a.regionId (isBoSchedule a.sched)).1 }
      (if (boFallbackStatic s.globals a.regionId (isBoSchedule a.sched)).2 then 0 else trip,
        .arrive (boFallbackStatic s.globals a.regionId (isBoSchedule a.sched)).2)
      (some (.chose (boFallbackStatic s.globals a.regionId (isBoSchedule a.sched)).2))
  | locks {trip : Word} {f : Bool} (h : s.share = .absent) :
    StartStep a i s (trip, .arrive f) { s with share := .locked } (trip, .init f) none
  | joins {trip : Word} {f : Bool} {ws : GompWorkShare D} {cells : Cells} {call : StartLocal}
      (h : s.share = .ready ws cells) (hcall : iteratorOf (a.side f) = some call) :
    StartStep a i s (trip, .arrive f) s (trip, call) none
  | inits {trip : Word} {f : Bool} {g : Globals D} {ws : GompWorkShare D} {call : StartLocal}
      (h : a.init f s.globals = some (g, ws)) (hcall : iteratorOf (a.side f) = some call) :
    StartStep a i s (trip, .init f) ⟨g, .ready ws ws.cells⟩ (trip, call) none
  | iterates {trip trip' : Word} {loc loc' next : StartLocal} {ws : GompWorkShare D} {cells cells' : Cells} {r : Option Ret}
      (h : s.share = .ready ws cells) (hit : loc.iterate ws a.team i cells trip = some (cells', trip', loc', r))
      (hnext : afterCall ws loc' r = some next) :
    StartStep a i s (trip, loc) { s with share := .ready ws cells' } (trip', next)
      (r.map (.took (decide (loc = .static))))

theorem iterates_of_threads {a : RuntimeLoop D} {i : Fin P} {s s' : LoopTeam D} {trip : Word} {loc : StartLocal}
    {l' : Word × StartLocal} {e : Option StartEvent} (h : (match s.share with
      | .ready ws cells => do
        let (cells, trip, loc', r) ← loc.iterate ws a.team i cells trip
        return ({ s with share := .ready ws cells }, (trip, ← afterCall ws loc' r),
          r.map (.took (decide (loc = .static))))
      | _ => none) = some (s', l', e)) : StartStep a i s (trip, loc) s' l' e := by
  split at h
  · rename_i ws cells hshare
    obtain ⟨⟨cells', trip', loc', r⟩, hit, h⟩ := Option.bind_eq_some_iff.1 h
    obtain ⟨next, hnext, h⟩ := Option.bind_eq_some_iff.1 h
    cases h
    exact .iterates hshare hit hnext
  · cases h

theorem threads_step {a : RuntimeLoop D} {i : Fin P} {u : Unit} {s s' : LoopTeam D} {l l' : Word × StartLocal}
    {e : Option StartEvent} (h : a.threads i u s l = some (s', l', e)) : StartStep a i s l s' l' e := by
  obtain ⟨trip, loc⟩ := l
  cases loc with
  | enter =>
    cases h
    exact .asks
  | arrive f =>
    simp only [RuntimeLoop.threads] at h
    split at h
    · rename_i hshare
      cases h
      exact .locks hshare
    · cases h
    · rename_i ws cells hshare
      obtain ⟨call, hcall, h⟩ := Option.bind_eq_some_iff.1 h
      cases h
      exact .joins hshare hcall
  | init f =>
    obtain ⟨⟨g, ws⟩, hinit, h⟩ := Option.bind_eq_some_iff.1 h
    obtain ⟨call, hcall, h⟩ := Option.bind_eq_some_iff.1 h
    cases h
    exact .inits hinit hcall
  | static | cas | dyn | finished => exact iterates_of_threads h

/-! ## Threads on one side -/

/-- The state in which `_loop_states[region_id]` was looked up. -/
def asked (g : Globals D) (r : RegionId) : Globals D := g.setLoop r (g.loop r)

/-- With EVAL and FALLBACK set, `bo_fallback_static` answers `b` for a BO schedule. -/
structure Decides (r : RegionId) (b : Bool) (g : Globals D) : Prop where
  isEval : g.isEval = true
  fallback : g.fallback = true
  param : CDouble.lt (g.loop r).param (0.00001 : D) = b

theorem Decides.answer {r : RegionId} {b : Bool} {g : Globals D} (h : Decides r b g) : boFallbackStatic g r true = (asked g r, b) := by
  unfold boFallbackStatic
  rw [h.isEval, h.fallback, Bool.and_self, Bool.and_self, if_pos rfl]
  show (Bosched.asked g r, CDouble.lt (g.loop r).param 0.00001) = _
  rw [h.param]

theorem loop_asked (g : Globals D) (r : RegionId) : (asked g r).loop r = g.loop r := Globals.loop_setLoop g r _

theorem Decides.asked {r : RegionId} {b : Bool} {g : Globals D} (h : Decides r b g) : Decides r b (asked g r) :=
  ⟨h.isEval, h.fallback, by rw [loop_asked]; exact h.param⟩

omit [CDouble D] in
theorem setLoop_setLoop (g : Globals D) (r : RegionId) (l l' : LoopState D) : (g.setLoop r l).setLoop r l' = g.setLoop r l' := by
  unfold Globals.setLoop
  rw [AList.insert_insert]

theorem asked_asked (g : Globals D) (r : RegionId) : asked (asked g r) r = asked g r := by
  unfold asked
  rw [setLoop_setLoop, Globals.loop_setLoop]

/-- The iterator of a location, wherever the thread stands in it. -/
def InCall : StartLocal → StartLocal → Prop
  | .static, .static => True
  | .cas it _, .cas it' _ => it = it'
  | .dyn _, .dyn loc => loc ≠ .stopped
  | _, _ => False

/-- What makes a team of `P` threads go to one side: the answer before the work share is initialised, for the side the
result of initialising it, and, where there is a thread that can ask later, the same answer after that. -/
structure Agreed (a : RuntimeLoop D) (P : Nat) (g : Globals D) (b : Bool) (g' : Globals D) (ws' : GompWorkShare D)
    (call : StartLocal) : Prop where
  bo : isBoSchedule a.sched = true
  before : Decides a.regionId b g
  init : a.init b (asked g a.regionId) = some (g', ws')
  after : P ≤ 1 ∨ Decides a.regionId b g'
  sched : ws'.sched = a.side b
  iterator : iteratorOf (a.side b) = some call
  static : decide (call = .static) = b

section

variable (a : RuntimeLoop D) (g : Globals D) (b : Bool) (call : StartLocal)

/-- Where a thread on side `b` stands, for what the team shares. -/
def Stands (s : LoopTeam D) : Word × StartLocal → Prop
  | (_, .enter) => Decides a.regionId b s.globals
  | (trip, .arrive f) => f = b ∧ (b = true → trip = 0) ∧
      (s.globals = asked g a.regionId ∨ ∃ ws cells, s.share = .ready ws cells)
  | (trip, .init f) => f = b ∧ (b = true → trip = 0) ∧ s.globals = asked g a.regionId ∧ s.share = .locked
  | (_, .finished) => ∃ ws cells, s.share = .ready ws cells
  | (_, loc) => InCall call loc ∧ ∃ ws cells, s.share = .ready ws cells

end

/-- A run on one side. -/
structure Sided (a : RuntimeLoop D) (g : Globals D) (b : Bool) (ws' : GompWorkShare D) (call : StartLocal)
    (c : Cfg (Fin P) (LoopTeam D) (Word × StartLocal) StartEvent) : Prop where
  share : ∀ {ws cells}, c.shared.share = .ready ws cells → ws = ws'
  globals : (∃ ws cells, c.shared.share = .ready ws cells) ∨ c.shared.globals = g ∨
    c.shared.globals = asked g a.regionId
  stands : ∀ i, Stands a g b call c.shared (c.loc i)
  locked : c.shared.share = .locked → ∃ i trip, c.loc i = (trip, .init b)
  alone : ∀ {i j trip trip' f f'}, c.loc i = (trip, .init f) → c.loc j = (trip', .init f') → i = j
  chose : ∀ {i f}, (i, .chose f) ∈ c.log → f = b
  took : ∀ {i f r}, (i, .took f r) ∈ c.log → f = b
  told : ∀ {i}, (c.loc i).2 = .finished → (i, none) ∈ runtimeRets c.log

/-! ## What every step keeps -/

section

variable {a : RuntimeLoop D} {g g' : Globals D} {b : Bool} {ws' : GompWorkShare D} {call : StartLocal}

theorem runtimeRets_logged (log : List (Fin P × StartEvent)) (i : Fin P) (e : Option StartEvent) :
    runtimeRets (logged log i e) = logged (runtimeRets log) i (e.bind StartEvent.ret) := by
  cases e with
  | none => rfl
  | some e =>
    unfold runtimeRets
    rw [logged_some, List.filterMap_append, Option.bind_some]
    cases e <;> simp [StartEvent.ret]

omit [CDouble D] in
theorem InCall.static_iff {loc : StartLocal} (h : InCall call loc) : loc = .static ↔ call = .static := by
  cases call <;> cases loc <;> simp_all [InCall]

/-- A step of thread `i` that leaves the others where they can stand, and itself too. -/
theorem Sided.next {c : Cfg (Fin P) (LoopTeam D) (Word × StartLocal) StartEvent} (hc : Sided a g b ws' call c) {i : Fin P}
    {s' : LoopTeam D} {l' : Word × StartLocal} {e : Option StartEvent}
    (hshare : ∀ {ws cells}, s'.share = .ready ws cells → ws = ws')
    (hglobals : (∃ ws cells, s'.share = .ready ws cells) ∨ s'.globals = g ∨ s'.globals = asked g a.regionId)
    (hown : Stands a g b call s' l') (hother : ∀ j ≠ i, Stands a g b call s' (c.loc j))
    (hlocked : s'.share = .locked → (∃ trip, l' = (trip, .init b)) ∨
      c.shared.share = .locked ∧ ∀ trip, c.loc i ≠ (trip, .init b))
    (halone : ∀ {trip f}, l' = (trip, .init f) → c.shared.share = .absent)
    (hchose : ∀ {f}, e = some (.chose f) → f = b) (htook : ∀ {f r}, e = some (.took f r) → f = b)
    (htold : l'.2 = .finished → ∃ f, e = some (.took f none)) :
    Sided a g b ws' call ⟨s', Function.update c.loc i l', logged c.log i e⟩ := by
  have hmem : ∀ {j e'}, (j, e') ∈ logged c.log i e → (j, e') ∈ c.log ∨ e = some e' := by
    intro j e' h
    cases e with
    | none => exact .inl h
    | some e =>
      rw [logged_some, List.mem_append, List.mem_singleton] at h
      rcases h with h | h
      · exact .inl h
      · cases h
        exact .inr rfl
  -- nobody initialises where there is no work share yet
  have hnone : c.shared.share = .absent → ∀ {j trip f}, c.loc j ≠ (trip, .init f) := by
    intro h j trip f hj
    have hstands := hc.stands j
    rw [hj] at hstands
    have hlocked : c.shared.share = .locked := hstands.2.2.2
    rw [h] at hlocked
    cases hlocked
  constructor
  · exact hshare
  · exact hglobals
  · intro j
    show Stands a g b call s' (Function.update c.loc i l' j)
    by_cases hj : j = i
    · subst hj
      rw [Function.update_self]
      exact hown
    · rw [Function.update_of_ne hj]
      exact hother j hj
  · intro hl
    rcases hlocked hl with ⟨trip, htrip⟩ | ⟨hold, hi⟩
    · exact ⟨i, trip, by rw [← htrip]; exact Function.update_self ..⟩
    · obtain ⟨j, trip, hj⟩ := hc.locked hold
      have hji : j ≠ i := fun heq => hi trip (heq ▸ hj)
      exact ⟨j, trip, by rw [← hj]; exact Function.update_of_ne hji ..⟩
  · intro j k trip trip' f f' hj hk
    dsimp only at hj hk
    by_cases hji : j = i
    · by_cases hki : k = i
      · rw [hji, hki]
      · subst hji
        rw [Function.update_self] at hj
        rw [Function.update_of_ne hki] at hk
        exact absurd hk (hnone (halone hj))
    · rw [Function.update_of_ne hji] at hj
      by_cases hki : k = i
      · subst hki
        rw [Function.update_self] at hk
        exact absurd hj (hnone (halone hk))
      · rw [Function.update_of_ne hki] at hk
        exact hc.alone hj hk
  · intro j f h
    rcases hmem h with h | h
    · exact hc.chose h
    · exact hchose h
  · intro j f r h
    rcases hmem h with h | h
    · exact hc.took h
    · exact htook h
  · intro j hj
    dsimp only at hj ⊢
    rw [runtimeRets_logged]
    by_cases hji : j = i
    · subst hji
      rw [Function.update_self] at hj
      obtain ⟨f, rfl⟩ := htold hj
      simp [StartEvent.ret]
    · rw [Function.update_of_ne hji] at hj
      have := hc.told hj
      cases he : e.bind StartEvent.ret <;> simp [this]

/-- Where the share is ready the state it was initialised from no longer matters. -/
theorem Stands.of_ready {s s' : LoopTeam D} {l : Word × StartLocal} (h : Stands a g b call s l)
    (hready : ∃ ws cells, s'.share = .ready ws cells) (henter : l.2 = .enter → Decides a.regionId b s'.globals)
    (hinit : ∀ trip f, l ≠ (trip, .init f)) : Stands a g b call s' l := by
  obtain ⟨trip, loc⟩ := l
  cases loc with
  | enter => exact henter rfl
  | arrive f => exact ⟨h.1, h.2.1, .inr hready⟩
  | init f => exact absurd rfl (hinit trip f)
  | finished => exact hready
  | static | cas | dyn => exact ⟨h.1, hready⟩

omit [CDouble D] in
theorem inCall_self {sched : GompScheduleType} (h : iteratorOf sched = some call) : InCall call call := by
  cases sched <;> cases h <;> simp [InCall]

omit [CDouble D] in
theorem InCall.inside {loc : StartLocal} (h : InCall call loc) : (∀ f, loc ≠ .init f) ∧ loc ≠ .finished := by
  cases call <;> cases loc <;> simp_all [InCall]

/-- A thread in the iterator. -/
theorem InCall.stands {s : LoopTeam D} {loc : StartLocal} (h : InCall call loc) (trip : Word)
    (hready : ∃ ws cells, s.share = .ready ws cells) : Stands a g b call s (trip, loc) := by
  cases loc with
  | static | cas | dyn => exact ⟨h, hready⟩
  | enter | arrive | init | finished => cases call <;> exact absurd h id

/-- A thread stays in its iterator until it is told that there is no more work. -/
theorem InCall.next {ws : GompWorkShare D} {team : Option U32} {i : Fin P} {cells cells' : Cells} {trip trip' : Word}
    {loc loc' next : StartLocal} {r : Option Ret} (h : InCall call loc) (hcall : iteratorOf ws.sched = some call)
    (hit : loc.iterate ws team i cells trip = some (cells', trip', loc', r)) (hnext : afterCall ws loc' r = some next) :
    InCall call next ∨ (next = .finished ∧ r = some none) := by
  match r with
  | some none =>
    cases hnext
    exact .inr ⟨rfl, rfl⟩
  | some (some _) =>
    obtain rfl : call = next := Option.some.inj (hcall.symm.trans hnext)
    exact .inl (inCall_self hcall)
  | none =>
    cases hnext
    refine .inl ?_
    cases loc with
    | static =>
      obtain ⟨_, -, hit⟩ := Option.bind_eq_some_iff.1 hit
      cases hit
    | cas it loc =>
      obtain ⟨⟨_, _, _⟩, -, hit⟩ := Option.bind_eq_some_iff.1 hit
      cases hit
      cases call <;> exact h
    | dyn loc =>
      obtain ⟨⟨next, loc', r⟩, hdyn, hit⟩ := Option.bind_eq_some_iff.1 hit
      cases hit
      have hiter : dynamicIter false ws i () cells.next loc = some (next, loc', none) := hdyn
      rcases dynamicIter_cases ws hiter with ⟨he, -⟩ | ⟨_, he, -⟩ | ⟨-, -, -, ⟨_, _, rfl⟩, -⟩
      · cases he
      · cases he
      · cases call with
        | dyn => exact nofun
        | _ => exact absurd h id
    | enter | arrive | init | finished => cases hit

theorem Sided.entry (h : Decides a.regionId b g) (trips : Fin P → Word) : Sided a g b ws' call (runtimeEntry g trips) where
  share := nofun
  globals := .inr (.inl rfl)
  stands _ := h
  locked := nofun
  alone := nofun
  chose := nofun
  took := nofun
  told := nofun

/-- Every step of a team that agrees stays on its side. -/
theorem Agreed.step (h : Agreed a P g b g' ws' call) {c c' : Cfg (Fin P) (LoopTeam D) (Word × StartLocal) StartEvent}
    (hc : Sided a g b ws' call c) (hs : Step a.threads c c') : Sided a g b ws' call c' := by
  cases hs with
  | @mk i u s' l' e hp =>
    have hstep := threads_step hp
    have hi := hc.stands i
    generalize hloc : c.loc i = l at hstep hi
    cases hstep with
    | @asks trip =>
      have hdec : Decides a.regionId b c.shared.globals := hi
      rw [h.bo, hdec.answer]
      refine hc.next hc.share ?_ ⟨rfl, fun hb => if_pos hb, ?_⟩ ?_ (fun hl => .inr ⟨hl, ?_⟩) nofun ?_ nofun nofun
      · rcases hc.globals with hready | hg | hg
        · exact .inl hready
        · exact .inr (.inr (by rw [hg]))
        · exact .inr (.inr (by rw [hg, asked_asked]))
      · rcases hc.globals with hready | hg | hg
        · exact .inr hready
        · exact .inl (by rw [hg])
        · exact .inl (by rw [hg, asked_asked])
      · intro j _
        have hj := hc.stands j
        generalize c.loc j = l at hj
        obtain ⟨t, loc⟩ := l
        cases loc with
        | enter => exact Decides.asked hj
        | arrive f =>
          refine ⟨hj.1, hj.2.1, ?_⟩
          rcases hj.2.2 with hg | hready
          · exact .inl (by rw [hg, asked_asked])
          · exact .inr hready
        | init f => exact ⟨hj.1, hj.2.1, by rw [hj.2.2.1, asked_asked], hj.2.2.2⟩
        | static | cas | dyn | finished => exact hj
      · intro t ht
        rw [hloc] at ht
        cases ht
      · rintro f ⟨⟩
        rfl
    | @locks trip f habsent =>
      have hg : c.shared.globals = asked g a.regionId := by
        rcases hi.2.2 with hg | ⟨ws, cells, hready⟩
        · exact hg
        · rw [habsent] at hready
          cases hready
      refine hc.next nofun (.inr (.inr hg)) ⟨hi.1, hi.2.1, hg, rfl⟩ ?_ (fun _ => .inl ⟨trip, by rw [hi.1]⟩)
        (fun _ => habsent) nofun nofun nofun
      intro j _
      have hj := hc.stands j
      have hnone : ∀ ws cells, c.shared.share ≠ .ready ws cells := by
        rw [habsent]
        exact nofun
      generalize c.loc j = l at hj
      obtain ⟨t, loc⟩ := l
      cases loc with
      | enter => exact hj
      | arrive f => exact ⟨hj.1, hj.2.1, .inl hg⟩
      | init f =>
        have hl : c.shared.share = .locked := hj.2.2.2
        rw [habsent] at hl
        cases hl
      | finished =>
        obtain ⟨ws, cells, hready⟩ := hj
        exact absurd hready (hnone _ _)
      | static | cas | dyn =>
        obtain ⟨-, ws, cells, hready⟩ := hj
        exact absurd hready (hnone _ _)
    | @joins trip f ws cells call' hready hcall =>
      obtain rfl := hi.1
      obtain rfl : call = call' := Option.some.inj (h.iterator.symm.trans hcall)
      have hin := inCall_self h.iterator
      refine hc.next hc.share hc.globals (hin.stands trip ⟨ws, cells, hready⟩) (fun j _ => hc.stands j)
        (fun hl => ?_) (fun heq => ?_) nofun nofun fun hfin => ?_
      · rw [hready] at hl
        cases hl
      · exact absurd (congrArg Prod.snd heq) (hin.inside.1 _)
      · exact absurd hfin hin.inside.2
    | @inits trip f g'' ws call' hinit hcall =>
      obtain rfl := hi.1
      obtain rfl : call = call' := Option.some.inj (h.iterator.symm.trans hcall)
      have hin := inCall_self h.iterator
      have hready : ∃ ws₁ cells, (NextShare.ready ws ws.cells : NextShare D) = .ready ws₁ cells := ⟨_, _, rfl⟩
      rw [hi.2.2.1, h.init] at hinit
      cases hinit
      refine hc.next ?_ (.inl hready) (hin.stands trip hready) (fun j hj => ?_) nofun (fun heq => ?_) nofun nofun
        fun hfin => ?_
      · rintro ws cells ⟨⟩
        rfl
      · refine (hc.stands j).of_ready hready (fun _ => ?_) fun t f' ht => hj (hc.alone ht hloc)
        -- there is another thread that still has to ask
        refine h.after.resolve_left fun hP => hj ?_
        have := i.isLt
        have := j.isLt
        exact Fin.ext (by omega)
      · exact absurd (congrArg Prod.snd heq) (hin.inside.1 _)
      · exact absurd hfin hin.inside.2
    | @iterates trip trip' loc loc' next ws cells cells' r hready hit hnext =>
      obtain rfl := hc.share hready
      have hready' : ∃ ws₁ cells₁, (NextShare.ready ws cells' : NextShare D) = .ready ws₁ cells₁ := ⟨_, _, rfl⟩
      have hin : InCall call loc := by
        cases loc with
        | static | cas | dyn => exact hi.1
        | enter | arrive | init | finished => cases hit
      have hn := hin.next (by rw [h.sched]; exact h.iterator) hit hnext
      refine hc.next ?_ (.inl hready') ?_ (fun j _ => ?_) nofun (fun heq => ?_) ?_ ?_ fun hfin => ?_
      · rintro ws₁ cells₁ ⟨⟩
        rfl
      · rcases hn with hn | ⟨rfl, -⟩
        · exact hn.stands trip' hready'
        · exact hready'
      · have hj := hc.stands j
        refine hj.of_ready hready' (fun henter => ?_) fun t f ht => ?_
        · generalize c.loc j = lj at hj henter
          obtain ⟨t, locj⟩ := lj
          obtain rfl : locj = .enter := henter
          exact hj
        · rw [ht] at hj
          have hl : c.shared.share = .locked := hj.2.2.2
          rw [hready] at hl
          cases hl
      · rcases hn with hn | ⟨rfl, -⟩
        · exact absurd (congrArg Prod.snd heq) (hn.inside.1 _)
        · cases heq
      · intro f hf
        cases r <;> cases hf
      · intro f r' hf
        cases r with
        | none => cases hf
        | some r =>
          cases hf
          rw [← h.static]
          exact decide_eq_decide.2 hin.static_iff
      · rcases hn with hn | ⟨-, rfl⟩
        · exact absurd hfin hn.inside.2
        · exact ⟨_, rfl⟩

theorem Agreed.sided (h : Agreed a P g b g' ws' call) {trips : Fin P → Word}
    {c : Cfg (Fin P) (LoopTeam D) (Word × StartLocal) StartEvent} (hr : Reach a.threads (runtimeEntry g trips) c) :
    Sided a g b ws' call c := by
  induction hr with
  | refl => exact .entry h.before trips
  | tail _ hs ih => exact h.step ih hs

/-- A run on one side is one-sided. -/
theorem Sided.oneSided {c : Cfg (Fin P) (LoopTeam D) (Word × StartLocal) StartEvent} (hc : Sided a g b ws' call c) :
    OneSided c.log where
  chose hi hj := (hc.chose hi).trans (hc.chose hj).symm
  took hi hj := (hc.took hi).trans (hc.took hj).symm

end

end

end Bosched
