/-
The run of an iterator inside the run of a team that agrees on `bo_fallback_static`. Until the work share is ready the
iterator has not started; from then on each step of a thread in it is a step of the iterator. So a team comes to the
end of its loop exactly if the iterator does, and then it has executed what the iterator handed out.
-/
import Bosched.Iter.RuntimeSides

namespace Bosched

open Lib

section

variable {D S L : Type} [CDouble D] {P : Nat}

/-- `q` is the iterator that starts at `call`, on the part `toS` of the words and with what `toL` says of a thread. -/
structure Carries (team : Option U32) (ws' : GompWorkShare D) (b : Bool) (call : StartLocal)
    (q : Prog (Fin P) Unit S L Ret) (toS : Cells → S) (toL : Word → StartLocal → L) (l₀ : L) (live : L → Prop) : Prop where
  enter : ∀ trip, toL trip .enter = l₀
  arrive : ∀ trip f, toL trip (.arrive f) = l₀
  init : ∀ trip f, toL trip (.init f) = l₀
  starts : ∀ {trip}, (b = true → trip = 0) → toL trip call = l₀
  lives : ∀ {trip loc}, InCall call loc → live (toL trip loc)
  step : ∀ {i cells cells' trip trip' loc loc' next r}, InCall call loc →
    loc.iterate ws' team i cells trip = some (cells', trip', loc', r) → afterCall ws' loc' r = some next →
    q i () (toS cells) (toL trip loc) = some (toS cells', toL trip' next, r)
  goes : ∀ {i cells trip loc}, InCall call loc → (q i () (toS cells) (toL trip loc)).isSome →
    (loc.iterate ws' team i cells trip).isSome

/-- The words the iterators write: those of the work share, before it is ready those it will have then. -/
def viewCells (ws' : GompWorkShare D) (s : LoopTeam D) : Cells :=
  match s.share with
  | .ready _ cells => cells
  | _ => ws'.cells

variable {a : RuntimeLoop D} {g g' : Globals D} {b : Bool} {ws' : GompWorkShare D} {call : StartLocal}
  {q : Prog (Fin P) Unit S L Ret} {toS : Cells → S} {toL : Word → StartLocal → L} {l₀ : L} {live : L → Prop}

/-- The iterator's part of a configuration. -/
def inner (ws' : GompWorkShare D) (toS : Cells → S) (toL : Word → StartLocal → L)
    (c : Cfg (Fin P) (LoopTeam D) (Word × StartLocal) StartEvent) : Cfg (Fin P) S L Ret :=
  c.view (fun s => toS (viewCells ws' s)) (fun l => toL l.1 l.2) StartEvent.ret

open Classical in
/-- The steps of a team that agrees are steps of its iterator, or none. -/
theorem Agreed.views (h : Agreed a P g b g' ws' call) (hq : Carries a.team ws' b call q toS toL l₀ live) :
    Views ((a.threads : Prog (Fin P) Unit (LoopTeam D) (Word × StartLocal) StartEvent).only fun _ _ s l =>
      (∀ {ws cells}, s.share = .ready ws cells → ws = ws') ∧ Stands a g b call s l) q
      (fun s => toS (viewCells ws' s)) (fun l => toL l.1 l.2) StartEvent.ret where
  step := by
    intro i u s l s' l' e hp
    obtain ⟨⟨hshare, hi⟩, hp⟩ := Prog.only_eq_some.1 hp
    cases threads_step hp with
    | asks => exact .inl ⟨rfl, by rw [hq.enter, hq.arrive], rfl⟩
    | locks habsent =>
      refine .inl ⟨?_, by rw [hq.arrive, hq.init], rfl⟩
      show toS ws'.cells = toS (viewCells ws' s)
      unfold viewCells
      rw [habsent]
    | @joins trip f ws cells call' hready hcall =>
      obtain rfl := hi.1
      obtain rfl : call = call' := Option.some.inj (h.iterator.symm.trans hcall)
      exact .inl ⟨rfl, by rw [hq.arrive, hq.starts hi.2.1], rfl⟩
    | @inits trip f g'' ws call' hinit hcall =>
      obtain rfl := hi.1
      obtain rfl : call = call' := Option.some.inj (h.iterator.symm.trans hcall)
      rw [hi.2.2.1, h.init] at hinit
      cases hinit
      refine .inl ⟨?_, by rw [hq.init, hq.starts hi.2.1], rfl⟩
      show toS ws'.cells = toS (viewCells ws' s)
      unfold viewCells
      rw [hi.2.2.2]
    | @iterates trip trip' loc loc' next ws cells cells' r hready hit hnext =>
      obtain rfl := hshare hready
      have hin : InCall call loc := by
        cases loc with
        | static | cas | dyn => exact hi.1
        | enter | arrive | init | finished => cases hit
      refine .inr ⟨(), ?_⟩
      have hview : viewCells ws s = cells := by
        unfold viewCells
        rw [hready]
      rw [hview]
      have hret : (r.map (StartEvent.took (decide (loc = .static)))).bind StartEvent.ret = r := by
        cases r <;> rfl
      rw [hret]
      exact hq.step hin hit hnext

/-- The run of the iterator in the run of a team. -/
theorem Agreed.inner_reach (h : Agreed a P g b g' ws' call) (hq : Carries a.team ws' b call q toS toL l₀ live)
    {trips : Fin P → Word} {c : Cfg (Fin P) (LoopTeam D) (Word × StartLocal) StartEvent}
    (hr : Reach a.threads (runtimeEntry g trips) c) : Reach q ⟨toS ws'.cells, fun _ => l₀, []⟩ (inner ws' toS toL c) := by
  classical
  have honly : Reach (a.threads.only fun _ _ s l =>
      (∀ {ws cells}, s.share = .ready ws cells → ws = ws') ∧ Stands a g b call s l) (runtimeEntry g trips) c :=
    hr.only fun d hd i _ => ⟨fun hready => (h.sided hd).share hready, (h.sided hd).stands i⟩
  have hview := (h.views hq).reach honly
  have hentry : (runtimeEntry g trips).view (fun s => toS (viewCells ws' s)) (fun l => toL l.1 l.2) StartEvent.ret =
      ⟨toS ws'.cells, fun _ => l₀, []⟩ := by
    unfold Cfg.view runtimeEntry
    simp only [hq.enter]
    rfl
  rwa [hentry] at hview

/-- A team that is through has an iterator that has told all its threads. -/
theorem Agreed.inner_told (h : Agreed a P g b g' ws' call) {trips : Fin P → Word}
    {c : Cfg (Fin P) (LoopTeam D) (Word × StartLocal) StartEvent} (hr : Reach a.threads (runtimeEntry g trips) c)
    (hfin : Finished c) (i : Fin P) : (i, none) ∈ (inner ws' toS toL c).log := (h.sided hr).told (hfin i)

/-! ## To the end of the loop -/

/-- Some thread can initialise the work share, as long as nobody has. -/
theorem Agreed.readies (h : Agreed a P g b g' ws' call) (hP : 0 < P) {trips : Fin P → Word}
    {c : Cfg (Fin P) (LoopTeam D) (Word × StartLocal) StartEvent} (hr : Reach a.threads (runtimeEntry g trips) c) :
    ∃ c', Reach a.threads c c' ∧ ∃ ws cells, c'.shared.share = .ready ws cells := by
  have hlocked : ∀ {c : Cfg (Fin P) (LoopTeam D) (Word × StartLocal) StartEvent},
      Reach a.threads (runtimeEntry g trips) c → c.shared.share = .locked →
      ∃ c', Reach a.threads c c' ∧ ∃ ws cells, c'.shared.share = .ready ws cells := by
    intro c hr hl
    obtain ⟨i, trip, hi⟩ := (h.sided hr).locked hl
    have hstands := (h.sided hr).stands i
    rw [hi] at hstands
    have hp : a.threads i () c.shared (c.loc i) = some (⟨g', .ready ws' ws'.cells⟩, (trip, call), none) := by
      rw [hi]
      simp only [RuntimeLoop.threads, hstands.2.2.1, h.init, h.iterator]
      rfl
    exact ⟨_, .single (.mk i () hp), ws', ws'.cells, rfl⟩
  have harrive : ∀ {c : Cfg (Fin P) (LoopTeam D) (Word × StartLocal) StartEvent} {i : Fin P} {trip : Word} {f : Bool},
      Reach a.threads (runtimeEntry g trips) c → c.shared.share = .absent → c.loc i = (trip, .arrive f) →
      ∃ c', Reach a.threads c c' ∧ ∃ ws cells, c'.shared.share = .ready ws cells := by
    intro c i trip f hr habsent hi
    have hp : a.threads i () c.shared (c.loc i) = some ({ c.shared with share := .locked }, (trip, .init f), none) := by
      rw [hi]
      simp only [RuntimeLoop.threads, habsent]
    have hs := Step.mk i () hp
    obtain ⟨c', hr', hready⟩ := hlocked (hr.tail hs) rfl
    exact ⟨c', .head hs hr', hready⟩
  cases hshare : c.shared.share with
  | ready ws cells => exact ⟨c, .refl, ws, cells, hshare⟩
  | locked => exact hlocked hr hshare
  | absent =>
    let i : Fin P := ⟨0, hP⟩
    have hstands := (h.sided hr).stands i
    have hnone : ∀ {ws cells}, c.shared.share ≠ .ready ws cells := by
      intro ws cells hready
      rw [hshare] at hready
      cases hready
    obtain ⟨trip, loc, hi⟩ : ∃ trip loc, c.loc i = (trip, loc) := ⟨_, _, rfl⟩
    rw [hi] at hstands
    cases loc with
    | enter =>
      have hp : a.threads i () c.shared (c.loc i) = some
          ({ c.shared with globals := (boFallbackStatic c.shared.globals a.regionId (isBoSchedule a.sched)).1 },
            (if (boFallbackStatic c.shared.globals a.regionId (isBoSchedule a.sched)).2 then 0 else trip,
              .arrive (boFallbackStatic c.shared.globals a.regionId (isBoSchedule a.sched)).2),
            some (.chose (boFallbackStatic c.shared.globals a.regionId (isBoSchedule a.sched)).2)) := by
        rw [hi]
        rfl
      have hs := Step.mk i () hp
      obtain ⟨c', hr', hready⟩ := harrive (hr.tail hs) hshare (Function.update_self ..)
      exact ⟨c', .head hs hr', hready⟩
    | arrive f => exact harrive hr hshare hi
    | init f =>
      have hl : c.shared.share = .locked := hstands.2.2.2
      rw [hshare] at hl
      cases hl
    | finished =>
      obtain ⟨ws, cells, hready⟩ := hstands
      exact absurd hready hnone
    | static | cas | dyn =>
      obtain ⟨-, ws, cells, hready⟩ := hstands
      exact absurd hready hnone

/-- How far a thread of a ready work share is from the next return of its iterator. -/
def StartLocal.rank (B r : Nat) : StartLocal → Nat
  | .finished => 0
  | .enter => B + 3
  | .arrive _ => B + 2
  | _ => r + 1

/-- The chunks a thread may still get come first. -/
def startRank (l : Loop) (B : Nat) (rank : S → L → Nat) (ws' : GompWorkShare D) (toS : Cells → S) (toL : Word → StartLocal → L)
    (i : Fin P) (c : Cfg (Fin P) (LoopTeam D) (Word × StartLocal) StartEvent) : Nat :=
  (B + 4) * (l.trip - taken (runtimeRets c.log) i) +
    (c.loc i).2.rank B (rank (toS (viewCells ws' c.shared)) (toL (c.loc i).1 (c.loc i).2))

theorem taken_some {log : List (Fin P × Ret)} (i : Fin P) (ch : Chunk) : taken (log ++ [(i, some ch)]) i = taken log i + 1 := by
  unfold taken
  rw [List.countP_append]
  simp

theorem taken_none {log : List (Fin P × Ret)} (i : Fin P) : taken (log ++ [(i, none)]) i = taken log i := by
  unfold taken
  rw [List.countP_append]
  simp

theorem rank_inCall {loc : StartLocal} (h : InCall call loc) (B r : Nat) : loc.rank B r = r + 1 := by
  cases loc with
  | static | cas | dyn => rfl
  | enter | arrive | init | finished => cases call <;> exact absurd h id

theorem threads_iterate {i : Fin P} {s : LoopTeam D} {ws : GompWorkShare D} {cells cells' : Cells} {trip trip' : Word}
    {loc loc' next : StartLocal} {r : Option Ret} (hin : InCall call loc) (hready : s.share = .ready ws cells)
    (hit : loc.iterate ws a.team i cells trip = some (cells', trip', loc', r)) (hnext : afterCall ws loc' r = some next) :
    a.threads i () s (trip, loc) = some ({ s with share := .ready ws cells' }, (trip', next),
      r.map (.took (decide (loc = .static)))) := by
  cases loc with
  | static | cas | dyn =>
    simp only [RuntimeLoop.threads, hready, hit, hnext, Option.bind_eq_bind, Option.bind_some]
    rfl
  | enter | arrive | init | finished => cases call <;> exact absurd hin id

/-- A thread that is not through can make a step, and is closer to the end after it. -/
theorem Agreed.moves (h : Agreed a P g b g' ws' call) (hq : Carries a.team ws' b call q toS toL l₀ live)
    {l : Loop} {rank : S → L → Nat} {B : Nat} (hd : Drains q ⟨toS ws'.cells, fun _ => l₀, []⟩ l live rank B)
    {trips : Fin P → Word} {c : Cfg (Fin P) (LoopTeam D) (Word × StartLocal) StartEvent}
    (hr : Reach a.threads (runtimeEntry g trips) c) (hready : ∃ ws cells, c.shared.share = .ready ws cells) {i : Fin P}
    (hi : (c.loc i).2 ≠ .finished) : ∃ s l' e, a.threads i () c.shared (c.loc i) = some (s, l', e) ∧
      (∃ ws cells, s.share = .ready ws cells) ∧
      startRank l B rank ws' toS toL i ⟨s, Function.update c.loc i l', logged c.log i e⟩ <
        startRank l B rank ws' toS toL i c := by
  obtain ⟨ws, cells, hready⟩ := hready
  obtain rfl := (h.sided hr).share hready
  have hstands := (h.sided hr).stands i
  have hinner := h.inner_reach hq hr
  have hview : viewCells ws c.shared = cells := by
    unfold viewCells
    rw [hready]
  obtain ⟨trip, loc, hloc⟩ : ∃ trip loc, c.loc i = (trip, loc) := ⟨_, _, rfl⟩
  have hold : startRank l B rank ws toS toL i c = (B + 4) * (l.trip - taken (runtimeRets c.log) i) +
      loc.rank B (rank (toS cells) (toL trip loc)) := by
    unfold startRank
    rw [hloc, hview]
  have hnew : ∀ {s : LoopTeam D} {l' : Word × StartLocal} {e : Option StartEvent},
      startRank l B rank ws toS toL i ⟨s, Function.update c.loc i l', logged c.log i e⟩ =
        (B + 4) * (l.trip - taken (logged (runtimeRets c.log) i (e.bind StartEvent.ret)) i) +
          l'.2.rank B (rank (toS (viewCells ws s)) (toL l'.1 l'.2)) := by
    intro s l' e
    unfold startRank
    dsimp only
    rw [Function.update_self, runtimeRets_logged]
  have hincall : InCall call loc → ∃ s l' e, a.threads i () c.shared (trip, loc) = some (s, l', e) ∧
      (∃ ws cells, s.share = .ready ws cells) ∧
      startRank l B rank ws toS toL i ⟨s, Function.update c.loc i l', logged c.log i e⟩ <
        startRank l B rank ws toS toL i c := by
    intro hin
    have hlive : live ((inner ws toS toL c).loc i) := by
      show live (toL (c.loc i).1 (c.loc i).2)
      rw [hloc]
      exact hq.lives hin
    obtain ⟨s₁, l₁, r₁, hmove, hlt⟩ := hd.moves hinner i hlive
    have hmove' : q i () (toS cells) (toL trip loc) = some (s₁, l₁, r₁) := by
      rw [← hmove]
      show _ = q i () (toS (viewCells ws c.shared)) (toL (c.loc i).1 (c.loc i).2)
      rw [hview, hloc]
    obtain ⟨⟨cells', trip', loc', r⟩, hit⟩ := Option.isSome_iff_exists.1 (hq.goes hin (by rw [hmove']; rfl))
    have hnext : ∃ next, afterCall ws loc' r = some next := by
      match r with
      | none | some none => exact ⟨_, rfl⟩
      | some (some _) => exact ⟨call, by rw [← h.iterator, ← h.sched]; rfl⟩
    obtain ⟨next, hnext⟩ := hnext
    have hstep := hq.step hin hit hnext
    rw [hmove'] at hstep
    cases hstep
    have hp := threads_iterate hin hready hit hnext
    refine ⟨_, _, _, hp, ⟨ws, cells', rfl⟩, ?_⟩
    rw [hnew, hold, rank_inCall hin]
    have hret : (r₁.map (StartEvent.took (decide (loc = .static)))).bind StartEvent.ret = r₁ := by
      cases r₁ <;> rfl
    have hcells : viewCells ws ({ c.shared with share := .ready ws cells' } : LoopTeam D) = cells' := rfl
    rw [hret, hcells]
    have hn := hin.next (by rw [h.sched]; exact h.iterator) hit hnext
    match r₁ with
    | none =>
      -- the call goes on
      rcases hn with hn | ⟨-, hr₁⟩
      · have hlt : rank (toS cells') (toL trip' next) < rank (toS (viewCells ws c.shared)) (toL (c.loc i).1 (c.loc i).2) := hlt rfl
        rw [hview, hloc] at hlt
        rw [logged_none, rank_inCall hn]
        dsimp only at hlt ⊢
        omega
      · cases hr₁
    | some none =>
      rcases hn with hn | ⟨rfl, -⟩
      · cases hnext
        exact absurd rfl hn.inside.2
      · rw [logged_some, taken_none]
        show _ + 0 < _
        omega
    | some (some ch) =>
      -- the chunk was one of those left
      have hs : Step a.threads c _ := .mk i () (by rw [hloc]; exact hp)
      have hbound := hd.bound (h.inner_reach hq (hr.tail hs)) i
      change taken (runtimeRets (logged c.log i (some (.took (decide (loc = .static)) (some ch))))) i ≤ l.trip at hbound
      rw [runtimeRets_logged] at hbound
      change taken (runtimeRets c.log ++ [(i, some ch)]) i ≤ l.trip at hbound
      rw [taken_some] at hbound
      rcases hn with hn | ⟨-, hr₁⟩
      · rw [logged_some, taken_some, rank_inCall hn]
        have hlow := hd.low (toS cells') (toL trip' next)
        obtain ⟨k, hk⟩ : ∃ k, l.trip - taken (runtimeRets c.log) i = k + 1 := ⟨l.trip - taken (runtimeRets c.log) i - 1, by omega⟩
        rw [hk, show l.trip - (taken (runtimeRets c.log) i + 1) = k by omega, Nat.mul_succ]
        dsimp only
        omega
      · cases hr₁
  rw [hloc] at hstands hi ⊢
  cases loc with
  | enter =>
    refine ⟨_, _, _, rfl, ⟨ws, cells, hready⟩, ?_⟩
    rw [hnew, hold]
    show _ + (B + 2) < _ + (B + 3)
    exact Nat.lt_succ_self _
  | arrive f =>
    obtain rfl := hstands.1
    have hp : a.threads i () c.shared (trip, .arrive f) = some (c.shared, (trip, call), none) := by
      simp only [RuntimeLoop.threads, hready, h.iterator]
      rfl
    refine ⟨_, _, _, hp, ⟨ws, cells, hready⟩, ?_⟩
    rw [hnew, hold, rank_inCall (inCall_self h.iterator)]
    have hlow := hd.low (toS (viewCells ws c.shared)) (toL trip call)
    show _ + (rank (toS (viewCells ws c.shared)) (toL trip call) + 1) < _ + (B + 2)
    exact Nat.add_lt_add_left (by omega) _
  | init f =>
    have hl : c.shared.share = .locked := hstands.2.2.2
    rw [hready] at hl
    cases hl
  | finished => exact absurd rfl hi
  | static | cas | dyn => exact hincall hstands.1

/-- From everywhere the team can get through the loop. -/
theorem Agreed.ends (h : Agreed a P g b g' ws' call) (hq : Carries a.team ws' b call q toS toL l₀ live) (hP : 0 < P)
    {l : Loop} {rank : S → L → Nat} {B : Nat} (hd : Drains q ⟨toS ws'.cells, fun _ => l₀, []⟩ l live rank B)
    {trips : Fin P → Word} {c : Cfg (Fin P) (LoopTeam D) (Word × StartLocal) StartEvent}
    (hr : Reach a.threads (runtimeEntry g trips) c) : ∃ c', Reach a.threads c c' ∧ Finished c' := by
  let K : Cfg (Fin P) (LoopTeam D) (Word × StartLocal) StartEvent → Prop := fun c =>
    Reach a.threads (runtimeEntry g trips) c ∧ ∃ ws cells, c.shared.share = .ready ws cells
  obtain ⟨d, hd', hready⟩ := h.readies hP hr
  obtain ⟨c', hr', -, hfin⟩ := exists_reach_all (Q := fun l => l.2 = .finished) (K := K)
    (startRank l B rank ws' toS toL) (fun c hc i hi => by
      obtain ⟨s, l', e, hp, hready', hlt⟩ := h.moves hq hd hc.1 hc.2 hi
      exact ⟨(), s, l', e, hp, ⟨hc.1.tail (.mk i () hp), hready'⟩, hlt⟩)
    ⟨hr.trans hd', hready⟩ (List.finRange P)
  exact ⟨c', hd'.trans hr', fun i => hfin i (List.mem_finRange i)⟩

/-- A team that agrees does what it should, where the iterator does. -/
theorem Agreed.runsTogether (h : Agreed a P g b g' ws' call) (hq : Carries a.team ws' b call q toS toL l₀ live) (hP : 0 < P)
    {l : Loop} {rank : S → L → Nat} {B : Nat} (hd : Drains q ⟨toS ws'.cells, fun _ => l₀, []⟩ l live rank B)
    (trips : Fin P → Word) : RunsTogether (a.threads : Prog (Fin P) Unit _ _ _) l (runtimeEntry g trips) where
  sides hr := (h.sided hr).oneSided
  ends hr := h.ends hq hP hd hr
  once hr hfin := hd.once (h.inner_reach hq hr) (h.inner_told hr hfin)

/-- And where it does, the iterator has a run in which it tells all threads that there is no more work. -/
theorem Agreed.told (h : Agreed a P g b g' ws' call) (hq : Carries a.team ws' b call q toS toL l₀ live) {l : Loop}
    {trips : Fin P → Word} (hruns : RunsTogether (a.threads : Prog (Fin P) Unit _ _ _) l (runtimeEntry g trips)) :
    ∃ d, Reach q ⟨toS ws'.cells, fun _ => l₀, []⟩ d ∧ ∀ i, (i, none) ∈ d.log := by
  obtain ⟨c, hr, hfin⟩ := hruns.ends .refl
  exact ⟨_, h.inner_reach hq hr, h.inner_told hr hfin⟩

end

end Bosched
