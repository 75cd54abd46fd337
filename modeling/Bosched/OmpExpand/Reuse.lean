/-
A run of the compiler over the functions of a translation unit. The regions of one function are released before
those of the next are allocated, so the ids of the loops with runtime schedule are distinct exactly in the runs
in which no region of such a loop is allocated where one of an earlier function was.
-/
import Bosched.OmpExpand.RegionIds

namespace Bosched.OmpExpand

open Lib Lib.Siblings

/-- Between two functions no region is allocated. -/
structure Idle (s : Compiler) : Prop where
  root : s.root = 0
  heap : ∀ a, s.heap a = none

theorem idle_start (supply : List Addr) : Idle (Compiler.start supply) := ⟨rfl, fun _ => rfl⟩

theorem Idle.forest {s : Compiler} (h : Idle s) : Forest s nil :=
  have hnone : ∀ a r, s.heap a ≠ some r := fun a r hr => by
    rw [h.heap a] at hr
    cases hr
  ⟨h.root, List.nodup_nil, fun a => by rw [h.heap a]; simp [addrs], fun a r hr => absurd hr (hnone a r),
    fun a r hr => absurd hr (hnone a r)⟩

/-! ## One function -/

/-- What the compiler is like after a function whose regions were those of `b`. -/
structure Executed (s b s' : Compiler) : Prop where
  idle : Idle s'
  fn : s'.fn = s.fn + 1
  built : b.fn = s.fn
  calls : ∃ new, s'.calls = s.calls ++ new ∧ Emits b new fun _ => True

/-- `execute_expand_omp`. -/
theorem executeExpandOmp_spec {s b : Compiler} (h : Idle s) {f : Dom} (hb : Compiler.buildOmpRegions f s = some b) :
    ∃ s', Compiler.executeExpandOmp s f = some s' ∧ Executed s b s' := by
  have hbuild := hb
  unfold Compiler.buildOmpRegions at hbuild
  rw [if_pos h.root] at hbuild
  obtain ⟨t, hgrown⟩ := h.forest.buildOmpRegions1 (.inl rfl) hbuild
  have hforest := hgrown.forest
  have hsize : t.addrs.length ≤ f.size := by
    have := hgrown.size
    simp only [addrs, List.length_nil] at this
    omega
  unfold Compiler.executeExpandOmp
  rw [hb, Option.bind_eq_bind, Option.bind_some]
  by_cases hroot : b.root = 0
  · have hnone : ∀ a, b.heap a = none := by
      have ht : t = nil := by
        cases t with
        | nil => rfl
        | node a i n =>
          obtain ⟨ha, ha0, -⟩ := hforest.linked
          exact absurd (ha.symm.trans hroot) ha0
      intro a
      have halive := hforest.alive a
      rw [ht] at halive
      simpa [addrs] using halive
    refine ⟨{ b with fn := b.fn + 1 }, if_pos hroot, ⟨hroot, hnone⟩, congrArg (· + 1) hgrown.buildsOn.fn,
      hgrown.buildsOn.fn, [], ?_, fun c hc => absurd hc List.not_mem_nil, ?_⟩
    · rw [List.append_nil]
      exact hgrown.buildsOn.calls
    · rintro a - loop (⟨r, f, hr, -⟩ | ⟨r, i, f, hr, -⟩)
      · rw [hnone a] at hr
        cases hr
      · rw [hnone a] at hr
        cases hr
  · rw [if_neg hroot]
    obtain ⟨e, hexpand, he⟩ := expandOmp_spec hforest.linked hforest.nodup
      (fun a _ r hr c _ => hforest.plain a r hr) (by omega : t.addrs.length < 2 * f.size + 1)
    have hroot' : e.root = b.root := he.expands.root
    have hlinked : Holds e.heap e.root t := by
      rw [hroot']
      exact he.expands.holds hforest.linked
    obtain ⟨h', hfree, hfreed, hkept⟩ := freeSiblings_spec hlinked hforest.nodup
      (by omega : 2 * t.addrs.length < 2 * f.size + 1)
    have hrelease : Compiler.ompFreeRegions (2 * f.size + 1) e = some { e with heap := h', root := 0 } := by
      unfold Compiler.ompFreeRegions
      rw [hfree]
      rfl
    obtain ⟨new, hcalls, hnew⟩ := he.emits
    refine ⟨{ e with heap := h', root := 0, fn := e.fn + 1 }, ?_, ⟨rfl, fun a => ?_⟩, ?_, hgrown.buildsOn.fn, new, ?_,
      hnew.sound, fun a _ loop hn => hnew.complete a ?_ loop hn⟩
    · rw [hexpand, Option.bind_some, hrelease]
      rfl
    · show h' a = none
      by_cases ha : a ∈ t.addrs
      · exact hfreed a ha
      · have hdead : ¬ (b.heap a).isSome := fun hs => ha ((hforest.alive a).1 hs)
        rw [hkept a ha, he.expands.same a ha]
        simpa using hdead
    · exact congrArg (· + 1) (he.expands.fn.trans hgrown.buildsOn.fn)
    · show e.calls = s.calls ++ new
      rw [hcalls, hgrown.buildsOn.calls]
    · rw [← hforest.alive]
      rcases hn with ⟨r, f, hr, -⟩ | ⟨r, i, f, hr, -⟩
      · rw [hr]
        rfl
      · rw [hr]
        rfl

/-! ## The functions of a translation unit -/

/-- The region trees of the functions as they are built, in the order of the functions. -/
def builtRegions : List Dom → Compiler → Option (List Compiler)
  | [], _ => some []
  | f :: fns, s => do
    let b ← Compiler.buildOmpRegions f s
    let s ← Compiler.executeExpandOmp s f
    return b :: (← builtRegions fns s)

/-- The calls for loops with runtime schedule are those of the loops the built regions stand for. -/
structure Accounts (calls : List GompCall) (bs : List Compiler) : Prop where
  sound : ∀ c ∈ calls, ∃ b ∈ bs, c.fn = b.fn ∧ (c.sched = .runtime → NamesLoop b.heap c.regionId c.loop)
  complete : ∀ b ∈ bs, ∀ a loop, NamesLoop b.heap a loop →
    ∃ c ∈ calls, c.fn = b.fn ∧ c.regionId = a ∧ c.sched = .runtime ∧ c.loop = loop

theorem Accounts.cons {b : Compiler} {bs : List Compiler} {new calls : List GompCall} (h : Emits b new fun _ => True)
    (h' : Accounts calls bs) : Accounts (new ++ calls) (b :: bs) := by
  refine ⟨fun c hc => ?_, fun b' hb' a loop hn => ?_⟩
  · rcases List.mem_append.1 hc with hc | hc
    · exact ⟨b, List.mem_cons_self, h.sound c hc⟩
    · obtain ⟨b', hb', hcall⟩ := h'.sound c hc
      exact ⟨b', List.mem_cons_of_mem b hb', hcall⟩
  · rcases List.mem_cons.1 hb' with rfl | hb'
    · obtain ⟨c, hc, hid, hs, hl⟩ := h.complete a trivial loop hn
      exact ⟨c, List.mem_append_left _ hc, (h.sound c hc).1, hid, hs, hl⟩
    · obtain ⟨c, hc, hcall⟩ := h'.complete b' hb' a loop hn
      exact ⟨c, List.mem_append_right _ hc, hcall⟩

/-- Every run of the compiler: the regions of each function have been built, and the calls account for them. -/
theorem compile_spec {fns : List Dom} : ∀ {s s' : Compiler}, Idle s → Compiler.compile fns s = some s' →
    ∃ bs new, builtRegions fns s = some bs ∧ s'.calls = s.calls ++ new ∧ Accounts new bs ∧
      bs.Pairwise (·.fn < ·.fn) ∧ ∀ b ∈ bs, s.fn ≤ b.fn := by
  induction fns with
  | nil =>
    intro s s' _ h
    cases h
    exact ⟨[], [], rfl, (List.append_nil _).symm, ⟨nofun, nofun⟩, .nil, nofun⟩
  | cons f fns ih =>
    intro s s' hidle h
    obtain ⟨s₁, hs₁, h⟩ := Option.bind_eq_some_iff.1 h
    obtain ⟨b, hb, -⟩ := Option.bind_eq_some_iff.1 hs₁
    obtain ⟨s₂, hs₂, hx⟩ := executeExpandOmp_spec hidle hb
    obtain rfl : s₁ = s₂ := Option.some.inj (hs₁.symm.trans hs₂)
    obtain ⟨new, hcalls, hnew⟩ := hx.calls
    obtain ⟨bs, rest, hbs, hrest, haccounts, hpw, hfn⟩ := ih hx.idle h
    have hlater : ∀ b' ∈ bs, b.fn < b'.fn := fun b' hb' => by
      have := hfn b' hb'
      have := hx.fn
      have := hx.built
      omega
    refine ⟨b :: bs, new ++ rest, ?_, ?_, haccounts.cons hnew, List.pairwise_cons.2 ⟨hlater, hpw⟩, fun b' hb' => ?_⟩
    · unfold builtRegions
      rw [hb, Option.bind_eq_bind, Option.bind_some, hs₁, Option.bind_eq_bind, Option.bind_some, hbs]
      rfl
    · rw [hrest, hcalls, List.append_assoc]
    · rcases List.mem_cons.1 hb' with rfl | hb'
      · exact hx.built.ge
      · exact (hx.built.ge.trans (hlater b' hb').le)

/-! ## Distinct ids -/

/-- In the emitted calls the loops with runtime schedule have distinct ids. -/
def DistinctIds (calls : List GompCall) : Prop :=
  ∀ c ∈ calls, ∀ c' ∈ calls, c.sched = .runtime → c'.sched = .runtime → (c.fn, c.loop) ≠ (c'.fn, c'.loop) →
    c.regionId ≠ c'.regionId

instance (calls : List GompCall) : Decidable (DistinctIds calls) := by
  unfold DistinctIds
  infer_instance

/-- The two functions have no regions of loops with runtime schedule at the same address. -/
def Apart (b b' : Compiler) : Prop := ∀ a loop loop', NamesLoop b.heap a loop → ¬ NamesLoop b'.heap a loop'

instance : Std.Symm Apart where
  symm _ _ h a l l' hl hl' := h a l' l hl' hl

/-- The ids of the loops with runtime schedule are distinct exactly if the allocator never places a region of such a
loop where one of an earlier function was. -/
theorem distinctIds_iff_apart {fns : List Dom} {supply : List Addr} {s : Compiler}
    (h : Compiler.compile fns (Compiler.start supply) = some s) :
    ∃ bs, builtRegions fns (Compiler.start supply) = some bs ∧ (DistinctIds s.calls ↔ bs.Pairwise Apart) := by
  obtain ⟨bs, new, hbs, hcalls, haccounts, hpw, -⟩ := compile_spec (idle_start supply) h
  refine ⟨bs, hbs, ?_⟩
  obtain rfl : s.calls = new := by
    rw [hcalls]
    exact List.nil_append _
  constructor
  · intro hdistinct
    refine hpw.imp_of_mem fun {b b'} hb hb' hlt a l l' hl hl' => ?_
    obtain ⟨c, hc, hf, hid, hs, -⟩ := haccounts.complete b hb a l hl
    obtain ⟨c', hc', hf', hid', hs', -⟩ := haccounts.complete b' hb' a l' hl'
    refine hdistinct c hc c' hc' hs hs' (fun heq => ?_) (hid.trans hid'.symm)
    have hfn : c.fn = c'.fn := congrArg Prod.fst heq
    omega
  · intro hapart c hc c' hc' hs hs' hne hid
    obtain ⟨b, hb, hf, hn⟩ := haccounts.sound c hc
    obtain ⟨b', hb', hf', hn'⟩ := haccounts.sound c' hc'
    have hnames := hn hs
    rw [hid] at hnames
    by_cases hbb : b = b'
    · -- two loops of one function
      subst hbb
      refine hne (Prod.ext (hf.trans hf'.symm) ?_)
      exact hnames.unique (hn' hs')
    · -- two functions
      exact hapart.forall hb hb' hbb _ _ _ hnames (hn' hs')

/-- A function with one loop, whose schedule is runtime. -/
def oneLoop : Dom :=
  .node 0 (some (.for ⟨.for, some .runtime, none, fun h => absurd rfl h⟩))
    (.node 1 (some .continue) (.node 2 (some .return) .nil .nil) .nil) .nil

/-- The allocator takes another address for the second function. -/
theorem distinctIds_iff_apart_fresh : ∃ s bs, Compiler.compile [oneLoop, oneLoop] (Compiler.start [0x10, 0x20]) = some s ∧
    builtRegions [oneLoop, oneLoop] (Compiler.start [0x10, 0x20]) = some bs ∧ bs.Pairwise Apart ∧
    s.calls = [⟨.loopRuntimeStart, 0, 0, .runtime, 0x10⟩, ⟨.loopEnd, 0, 0, .runtime, 0x10⟩,
      ⟨.loopRuntimeStart, 1, 0, .runtime, 0x20⟩, ⟨.loopEnd, 1, 0, .runtime, 0x20⟩] := by
  have hrun : (Compiler.compile [oneLoop, oneLoop] (Compiler.start [0x10, 0x20])).map (·.calls) =
      some [⟨.loopRuntimeStart, 0, 0, .runtime, 0x10⟩, ⟨.loopEnd, 0, 0, .runtime, 0x10⟩,
        ⟨.loopRuntimeStart, 1, 0, .runtime, 0x20⟩, ⟨.loopEnd, 1, 0, .runtime, 0x20⟩] := by decide +kernel
  obtain ⟨s, hs, hcalls⟩ := Option.map_eq_some_iff.1 hrun
  obtain ⟨bs, hbs, hiff⟩ := distinctIds_iff_apart hs
  refine ⟨s, bs, hs, hbs, hiff.1 ?_, hcalls⟩
  rw [hcalls]
  decide

/-- The address of the first function's region is returned again for the second one: both loops have the id 0x10. -/
theorem regionIds_clash : ¬ ∀ (fns : List Dom) (supply : List Addr) (s : Compiler),
    Compiler.compile fns (Compiler.start supply) = some s → DistinctIds s.calls := by
  intro h
  have hrun : (Compiler.compile [oneLoop, oneLoop] (Compiler.start [0x10, 0x10])).map (·.calls) =
      some [⟨.loopRuntimeStart, 0, 0, .runtime, 0x10⟩, ⟨.loopEnd, 0, 0, .runtime, 0x10⟩,
        ⟨.loopRuntimeStart, 1, 0, .runtime, 0x10⟩, ⟨.loopEnd, 1, 0, .runtime, 0x10⟩] := by decide +kernel
  obtain ⟨s, hs, hcalls⟩ := Option.map_eq_some_iff.1 hrun
  have hdistinct := h _ _ s hs
  rw [hcalls] at hdistinct
  revert hdistinct
  decide

end Bosched.OmpExpand
