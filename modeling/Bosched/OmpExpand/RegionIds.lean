/-
The region ids of the loops with runtime schedule. Within a function the ids of different loops differ, since
their regions are allocated at the same time; the regions are released before the next function, so the
allocator may return their addresses again, and then two loops of different functions share their id.
-/
import Bosched.OmpExpand.Trees

namespace Bosched.OmpExpand

open Lib Lib.Siblings

/-! ## The loops a region stands for -/

/-- The region of a worksharing loop with runtime schedule. -/
def LoopRegion (h : Addr → Option OmpRegion) (a : Addr) (loop : Nat) : Prop :=
  ∃ r f, h a = some r ∧ r.type = .for f ∧ f.isRuntime = true ∧ r.entry = loop

/-- A parallel region that `determine_parallel_type` combines with the workshare in it. -/
def Combines (h : Addr → Option OmpRegion) (r : OmpRegion) : Prop :=
  r.type = .parallel true ∧ r.exit ≠ none ∧ r.inner ≠ 0 ∧ ∃ i, h r.inner = some i ∧ i.exit ≠ none ∧ i.cont ≠ none ∧
    (i.type = .sections ∨ ∃ f, i.type = .for f ∧ f.combines = true)

/-- The parallel region of a combined loop with runtime schedule. -/
def CombinedRegion (h : Addr → Option OmpRegion) (a : Addr) (loop : Nat) : Prop :=
  ∃ r i f, h a = some r ∧ Combines h r ∧ h r.inner = some i ∧ i.type = .for f ∧ f.schedKind = .runtime ∧ i.entry = loop

/-- The address of the region is an id of the loop. -/
def NamesLoop (h : Addr → Option OmpRegion) (a : Addr) (loop : Nat) : Prop := LoopRegion h a loop ∨ CombinedRegion h a loop

/-- A region stands for one loop only. -/
theorem NamesLoop.unique {h : Addr → Option OmpRegion} {a : Addr} {l l' : Nat} (hl : NamesLoop h a l)
    (hl' : NamesLoop h a l') : l = l' := by
  rcases hl with ⟨r, f, hr, ht, -, rfl⟩ | ⟨r, i, f, hr, hc, hi, -, -, rfl⟩
  · rcases hl' with ⟨r', f', hr', -, -, rfl⟩ | ⟨r', i', f', hr', hc', -⟩
    · rw [Option.some.inj (hr.symm.trans hr')]
    · obtain rfl : r = r' := Option.some.inj (hr.symm.trans hr')
      rw [hc'.1] at ht
      cases ht
  · rcases hl' with ⟨r', f', hr', ht', -, rfl⟩ | ⟨r', i', f', hr', hc', hi', -, -, rfl⟩
    · obtain rfl : r = r' := Option.some.inj (hr.symm.trans hr')
      rw [hc.1] at ht'
      cases ht'
    · obtain rfl : r = r' := Option.some.inj (hr.symm.trans hr')
      rw [Option.some.inj (hi.symm.trans hi')]

/-! ## What the expansion changes -/

/-- A region without what the expansion writes. -/
def core (r : OmpRegion) : OmpRegion := { r with schedKind := .static, isCombinedParallel := false }

/-- A part of the expansion: it writes schedules and marks only, and only in the regions of `touched`. -/
structure Expands (s s' : Compiler) (touched : Addr → Prop) : Prop where
  root : s'.root = s.root
  supply : s'.supply = s.supply
  fn : s'.fn = s.fn
  shape : ∀ b, (s'.heap b).map core = (s.heap b).map core
  same : ∀ b, ¬ touched b → s'.heap b = s.heap b

theorem Expands.refl (s : Compiler) (touched : Addr → Prop) : Expands s s touched :=
  ⟨rfl, rfl, rfl, fun _ => rfl, fun _ _ => rfl⟩

theorem Expands.trans {s s' s'' : Compiler} {p q r : Addr → Prop} (h : Expands s s' p) (h' : Expands s' s'' q)
    (hp : ∀ b, p b → r b) (hq : ∀ b, q b → r b) : Expands s s'' r :=
  ⟨h'.root.trans h.root, h'.supply.trans h.supply, h'.fn.trans h.fn, fun b => (h'.shape b).trans (h.shape b),
    fun b hb => (h'.same b fun hqb => hb (hq b hqb)).trans (h.same b fun hpb => hb (hp b hpb))⟩

/-- What is in a region before is in it afterwards, up to schedules and marks. -/
theorem Expands.read {s s' : Compiler} {p : Addr → Prop} (h : Expands s s' p) {b : Addr} {r : OmpRegion}
    (hr : s.heap b = some r) : ∃ r', s'.heap b = some r' ∧ core r' = core r := by
  have hshape := h.shape b
  rw [hr] at hshape
  exact Option.map_eq_some_iff.1 hshape

theorem Expands.read_back {s s' : Compiler} {p : Addr → Prop} (h : Expands s s' p) {b : Addr} {r' : OmpRegion}
    (hr : s'.heap b = some r') : ∃ r, s.heap b = some r ∧ core r' = core r := by
  have hshape := (h.shape b).symm
  rw [hr] at hshape
  obtain ⟨r, hr, hcore⟩ := Option.map_eq_some_iff.1 hshape
  exact ⟨r, hr, hcore.symm⟩

theorem core_links {r r' : OmpRegion} (h : core r' = core r) :
    r'.outer = r.outer ∧ r'.inner = r.inner ∧ r'.next = r.next ∧ r'.entry = r.entry ∧ r'.exit = r.exit ∧ r'.cont = r.cont ∧
      r'.type = r.type := by
  unfold core at h
  simp only [OmpRegion.mk.injEq] at h
  exact ⟨h.1, h.2.1, h.2.2.1, h.2.2.2.1, h.2.2.2.2.1, h.2.2.2.2.2.1, h.2.2.2.2.2.2.1⟩

theorem Expands.holds {s s' : Compiler} {p : Addr → Prop} (h : Expands s s' p) {a : Addr} {t : Siblings Addr}
    (hl : Holds s.heap a t) : Holds s'.heap a t :=
  hl.congr fun b _ r hr => by
    obtain ⟨r', hr', hcore⟩ := h.read hr
    exact ⟨r', hr', (core_links hcore).2.1, (core_links hcore).2.2.1⟩

theorem Expands.combines {s s' : Compiler} {p : Addr → Prop} (h : Expands s s' p) {r r' : OmpRegion} (hcore : core r' = core r)
    (hc : Combines s.heap r) : Combines s'.heap r' := by
  obtain ⟨ht, hx, hin, i, hi, hix, hic, hcl⟩ := hc
  obtain ⟨-, h2, -, -, h5, -, h7⟩ := core_links hcore
  obtain ⟨i', hi', hcore'⟩ := h.read hi
  obtain ⟨-, -, -, -, g5, g6, g7⟩ := core_links hcore'
  exact ⟨by rw [h7]; exact ht, by rw [h5]; exact hx, by rw [h2]; exact hin, i', by rw [h2]; exact hi', by rw [g5]; exact hix,
    by rw [g6]; exact hic, by rw [g7]; exact hcl⟩

theorem Expands.namesLoop {s s' : Compiler} {p : Addr → Prop} (h : Expands s s' p) {a : Addr} {loop : Nat}
    (hn : NamesLoop s.heap a loop) : NamesLoop s'.heap a loop := by
  rcases hn with ⟨r, f, hr, ht, hf, rfl⟩ | ⟨r, i, f, hr, hc, hi, ht, hf, rfl⟩
  · obtain ⟨r', hr', hcore⟩ := h.read hr
    obtain ⟨-, -, -, h4, -, -, h7⟩ := core_links hcore
    exact .inl ⟨r', f, hr', by rw [h7]; exact ht, hf, h4⟩
  · obtain ⟨r', hr', hcore⟩ := h.read hr
    obtain ⟨i', hi', hcore'⟩ := h.read hi
    obtain ⟨-, g2, -, -, -, -, -⟩ := core_links hcore
    obtain ⟨-, -, -, g4, -, -, g7⟩ := core_links hcore'
    exact .inr ⟨r', i', f, hr', h.combines hcore hc, by rw [g2]; exact hi', by rw [g7]; exact ht, hf, g4⟩

/-- The expansion can be read backwards. -/
theorem Expands.symm_shape {s s' : Compiler} {p : Addr → Prop} (h : Expands s s' p) : Expands s' s fun _ => True :=
  ⟨h.root.symm, h.supply.symm, h.fn.symm, fun b => (h.shape b).symm, fun _ hb => absurd trivial hb⟩

theorem Expands.namesLoop_iff {s s' : Compiler} {p : Addr → Prop} (h : Expands s s' p) {a : Addr} {loop : Nat} :
    NamesLoop s'.heap a loop ↔ NamesLoop s.heap a loop :=
  ⟨h.symm_shape.namesLoop, h.namesLoop⟩

theorem Expands.write {s : Compiler} {a : Addr} {r r' : OmpRegion} (hr : s.heap a = some r) (hcore : core r' = core r)
    {p : Addr → Prop} (hp : p a) : Expands s (s.write a r') p := by
  refine ⟨rfl, rfl, rfl, fun b => ?_, fun b hb => s.write_ne r' fun hba => hb (hba ▸ hp)⟩
  by_cases hba : b = a
  · subst hba
    rw [s.write_self, hr]
    exact congrArg some hcore
  · rw [s.write_ne r' hba]

theorem Expands.emit (s : Compiler) (callee : Callee) (loop : Nat) (sched : ScheduleKind) (id : Addr) {p : Addr → Prop} :
    Expands s (s.emit callee loop sched id) p :=
  ⟨rfl, rfl, rfl, fun _ => rfl, fun _ _ => rfl⟩

/-! ## The steps of the expansion -/

/-- Not marked as combined, unless as the workshare of a combined parallel. -/
def Plain (r : OmpRegion) : Prop := ∀ c, r.type = .parallel c → r.isCombinedParallel = false

/-- What `determine_parallel_type` does to region `a`, which holds `r` before and `r'` afterwards. -/
structure Determined (s s' : Compiler) (a : Addr) (r r' : OmpRegion) : Prop where
  calls : s'.calls = s.calls
  expands : Expands s s' fun b => b = a ∨ (b = r.inner ∧ b ≠ 0)
  read : s'.heap a = some r'
  core : core r' = core r
  marked : ∀ c, r.type = .parallel c → (r'.isCombinedParallel = true ↔ Combines s.heap r)
  inner : ∀ i c, s'.heap r.inner = some i → i.type = .parallel c → s.heap r.inner = some i

/-- A region that is not combined is left alone. -/
theorem determined_keep {s : Compiler} {a : Addr} {r : OmpRegion} (ha : s.heap a = some r) (hplain : Plain r)
    (hno : ¬ Combines s.heap r) : Determined s s a r r :=
  ⟨rfl, .refl s _, ha, rfl, fun c hc => by rw [hplain c hc]; simp [hno], fun _ _ hi _ => hi⟩

/-- Both regions are marked. -/
theorem determined_mark {s : Compiler} {a : Addr} {r i : OmpRegion} (ha : s.heap a = some r) (hi : s.heap r.inner = some i)
    (h0 : r.inner ≠ 0) (hne : r.inner ≠ a) {b : Bool} (hb : b = true ↔ Combines s.heap r) (htype : ∀ c, i.type ≠ .parallel c) :
    Determined s ((s.write a { r with isCombinedParallel := b }).write r.inner { i with isCombinedParallel := b }) a r
      { r with isCombinedParallel := b } := by
  have hi₁ : (s.write a { r with isCombinedParallel := b }).heap r.inner = some i := by
    rw [s.write_ne _ hne]
    exact hi
  refine ⟨rfl, ?_, ?_, rfl, fun _ _ => hb, fun j c hj hjc => ?_⟩
  · have h₁ : Expands s (s.write a { r with isCombinedParallel := b }) (· = a) := Expands.write ha (by rfl) (by rfl)
    exact h₁.trans (q := (· = r.inner)) (Expands.write hi₁ (by rfl) (by rfl)) (fun _ h => .inl h)
      (fun b h => .inr ⟨h, fun hb => h0 (h ▸ hb)⟩)
  · rw [Compiler.write_ne _ _ (Ne.symm hne), Compiler.write_self]
  · rw [Compiler.write_self] at hj
    cases hj
    exact absurd hjc (htype c)

theorem determineParallelType_inner {s : Compiler} {a : Addr} {r i : OmpRegion} (ha : s.heap a = some r) (h0 : r.inner ≠ 0)
    (hi : s.heap r.inner = some i) : Compiler.determineParallelType s a =
      if r.exit = none ∨ i.exit = none ∨ i.cont = none then some s else
        (match r.type, i.type with
        | .parallel true, .for f => some ((s.write a { r with isCombinedParallel := f.combines }).write r.inner
            { i with isCombinedParallel := f.combines })
        | .parallel true, .sections => some ((s.write a { r with isCombinedParallel := true }).write r.inner
            { i with isCombinedParallel := true })
        | _, _ => some s) := by
  unfold Compiler.determineParallelType
  rw [ha, Option.bind_eq_bind, Option.bind_some, if_neg h0, hi]
  rfl

/-- `determine_parallel_type` marks the parallel region if it is combined with the workshare in it, and the
workshare likewise. -/
theorem determineParallelType_spec {s : Compiler} {a : Addr} {r : OmpRegion} (ha : s.heap a = some r)
    (hplain : Plain r) (hinner : r.inner = 0 ∨ ∃ i, s.heap r.inner = some i) (hne : r.inner ≠ a) :
    ∃ s' r', Compiler.determineParallelType s a = some s' ∧ Determined s s' a r r' := by
  by_cases h0 : r.inner = 0
  · refine ⟨s, r, ?_, determined_keep ha hplain fun hc => hc.2.2.1 h0⟩
    unfold Compiler.determineParallelType
    rw [ha, Option.bind_eq_bind, Option.bind_some, if_pos h0]
    rfl
  · obtain ⟨i, hi⟩ := hinner.resolve_left h0
    have hdet := determineParallelType_inner ha h0 hi
    by_cases hends : r.exit = none ∨ i.exit = none ∨ i.cont = none
    · refine ⟨s, r, by rw [hdet, if_pos hends], determined_keep ha hplain ?_⟩
      rintro ⟨-, hx, -, i', hi', hix, hic, -⟩
      obtain rfl : i = i' := Option.some.inj (hi.symm.trans hi')
      rcases hends with h | h | h
      · exact hx h
      · exact hix h
      · exact hic h
    · rw [if_neg hends] at hdet
      obtain ⟨hx, hends⟩ := not_or.1 hends
      obtain ⟨hix, hic⟩ := not_or.1 hends
      have hcombines : Combines s.heap r ↔
          r.type = .parallel true ∧ (i.type = .sections ∨ ∃ f, i.type = .for f ∧ f.combines = true) := by
        constructor
        · rintro ⟨ht, -, -, i', hi', -, -, hcl⟩
          obtain rfl : i = i' := Option.some.inj (hi.symm.trans hi')
          exact ⟨ht, hcl⟩
        · rintro ⟨ht, hcl⟩
          exact ⟨ht, hx, h0, i, hi, hix, hic, hcl⟩
      split at hdet
      · rename_i f hrt hit
        refine ⟨_, _, hdet, determined_mark ha hi h0 hne ?_ fun c hc => by rw [hit] at hc; cases hc⟩
        rw [hcombines, hrt, hit]
        simp
      · rename_i hrt hit
        refine ⟨_, _, hdet, determined_mark ha hi h0 hne ?_ fun c hc => by rw [hit] at hc; cases hc⟩
        rw [hcombines, hrt, hit]
        simp
      · rename_i hfor hsections
        refine ⟨s, r, hdet, determined_keep ha hplain fun hc => ?_⟩
        obtain ⟨ht, hcl⟩ := hcombines.1 hc
        rcases hcl with hcl | ⟨f, hcl, -⟩
        · exact hsections ht hcl
        · exact hfor f ht hcl

/-- The calls `new` that are emitted for the regions of `touched`: those for a loop with runtime schedule carry the
address of one of its regions, and each loop that a region of `touched` stands for has one. -/
structure Emits (s : Compiler) (new : List GompCall) (touched : Addr → Prop) : Prop where
  sound : ∀ c ∈ new, c.fn = s.fn ∧ (c.sched = .runtime → NamesLoop s.heap c.regionId c.loop)
  complete : ∀ a, touched a → ∀ loop, NamesLoop s.heap a loop →
    ∃ c ∈ new, c.regionId = a ∧ c.sched = .runtime ∧ c.loop = loop

theorem Emits.nil (s : Compiler) {touched : Addr → Prop} (h : ∀ a, ¬ touched a) : Emits s [] touched :=
  ⟨fun _ hc => absurd hc List.not_mem_nil, fun a ha => absurd ha (h a)⟩

theorem Emits.append {s : Compiler} {new new' : List GompCall} {p q : Addr → Prop} (h : Emits s new p) (h' : Emits s new' q) :
    Emits s (new ++ new') fun b => p b ∨ q b := by
  refine ⟨fun c hc => ?_, ?_⟩
  · rcases List.mem_append.1 hc with hc | hc
    · exact h.sound c hc
    · exact h'.sound c hc
  · rintro a (ha | ha) loop hn
    · obtain ⟨c, hc, hcall⟩ := h.complete a ha loop hn
      exact ⟨c, List.mem_append_left _ hc, hcall⟩
    · obtain ⟨c, hc, hcall⟩ := h'.complete a ha loop hn
      exact ⟨c, List.mem_append_right _ hc, hcall⟩

/-- The calls can be accounted for in an earlier state. -/
theorem Emits.before {s s' : Compiler} {p q : Addr → Prop} (he : Expands s s' q) {new : List GompCall} (h : Emits s' new p) :
    Emits s new p :=
  ⟨fun c hc => ⟨(h.sound c hc).1.trans he.fn, fun hs => he.namesLoop_iff.1 ((h.sound c hc).2 hs)⟩,
    fun a ha loop hn => h.complete a ha loop (he.namesLoop hn)⟩

/-- The schedules of the loops are entered in their regions. -/
def Scheduled (h : Addr → Option OmpRegion) (a : Addr) : Prop := ∀ r f, h a = some r → r.type = .for f → r.schedKind = f.schedKind

/-- The regions of `touched` are expanded. -/
structure Expanded (s s' : Compiler) (touched : Addr → Prop) : Prop where
  expands : Expands s s' touched
  emits : ∃ new, s'.calls = s.calls ++ new ∧ Emits s new touched
  scheduled : ∀ a, touched a → Scheduled s'.heap a

/-- Disjoint parts of the tree are expanded one after the other. -/
theorem Expanded.trans {s s' s'' : Compiler} {p q : Addr → Prop} (h : Expanded s s' p) (h' : Expanded s' s'' q)
    (hdisj : ∀ b, p b → ¬ q b) : Expanded s s'' fun b => p b ∨ q b := by
  obtain ⟨new, hcalls, hnew⟩ := h.emits
  obtain ⟨new', hcalls', hnew'⟩ := h'.emits
  refine ⟨h.expands.trans h'.expands (fun _ => .inl) (fun _ => .inr), ⟨new ++ new', ?_, hnew.append (hnew'.before h.expands)⟩, ?_⟩
  · rw [hcalls', hcalls, List.append_assoc]
  · rintro a (ha | ha)
    · unfold Scheduled
      rw [h'.expands.same a (hdisj a ha)]
      exact h.scheduled a ha
    · exact h'.scheduled a ha

/-- A region of a loop stands for this loop only. -/
theorem namesLoop_for {h : Addr → Option OmpRegion} {a : Addr} {r : OmpRegion} {f : GompFor} {loop : Nat} (ha : h a = some r)
    (ht : r.type = .for f) (hn : NamesLoop h a loop) : f.isRuntime = true ∧ loop = r.entry := by
  rcases hn with ⟨r', f', hr', ht', hf', rfl⟩ | ⟨r', i, f', hr', hc, -⟩
  · obtain rfl : r = r' := Option.some.inj (ha.symm.trans hr')
    rw [ht] at ht'
    cases ht'
    exact ⟨hf', rfl⟩
  · obtain rfl : r = r' := Option.some.inj (ha.symm.trans hr')
    have hp := hc.1
    rw [ht] at hp
    cases hp

/-- `expand_omp_for`. -/
theorem expandOmpFor_spec {s : Compiler} {a : Addr} {r : OmpRegion} {f : GompFor} (ha : s.heap a = some r)
    (ht : r.type = .for f) : ∃ s', Compiler.expandOmpFor s a f = some s' ∧ Expanded s s' (· = a) := by
  have hwrite : Expands s (s.write a { r with schedKind := f.schedKind }) (· = a) := Expands.write ha (by rfl) (by rfl)
  have hself : (s.write a { r with schedKind := f.schedKind }).heap a = some { r with schedKind := f.schedKind } :=
    Compiler.write_self ..
  have hsched : ∀ {s' : Compiler}, s'.heap a = some { r with schedKind := f.schedKind } → ∀ b, b = a → Scheduled s'.heap b := by
    rintro s' hs' b rfl r' f' hr' ht'
    obtain rfl := Option.some.inj (hs'.symm.trans hr')
    have hff : GimpleOmp.for f = .for f' := ht.symm.trans ht'
    cases hff
    rfl
  unfold Compiler.expandOmpFor
  rw [ha, Option.bind_eq_bind, Option.bind_some]
  by_cases hopen : f.kind ≠ .for ∨ (f.schedKind = .static ∧ !f.haveOrdered)
  · refine ⟨_, if_pos hopen, hwrite, ⟨[], (List.append_nil _).symm, nofun, ?_⟩, hsched hself⟩
    rintro b rfl loop hn
    have hrun := of_decide_eq_true (namesLoop_for ha ht hn).1
    rcases hopen with hk | ⟨hs, -⟩
    · exact absurd hrun.1 hk
    · rw [hs] at hrun
      cases hrun.2
  · obtain ⟨hkind, -⟩ := not_or.1 hopen
    replace hkind : f.kind = .for := not_not.1 hkind
    have hloop : f.schedKind = .runtime → NamesLoop s.heap a r.entry := fun hs =>
      .inl ⟨r, f, ha, ht, decide_eq_true ⟨hkind, hs⟩, rfl⟩
    have hlast : Emits s [⟨.loopEnd, s.fn, r.entry, f.schedKind, a⟩] (· = a) := by
      refine ⟨fun c hc => ?_, ?_⟩
      · rw [List.mem_singleton.1 hc]
        exact ⟨rfl, hloop⟩
      · rintro b rfl loop hn
        obtain ⟨hr, rfl⟩ := namesLoop_for ha ht hn
        exact ⟨_, List.mem_singleton_self _, rfl, (of_decide_eq_true hr).2, rfl⟩
    rw [if_neg hopen]
    by_cases hstart : (!r.isCombinedParallel && decide (f.ordered.getD 0 = 0) && decide (f.schedKind = .runtime)) = true
    · have hrun : f.schedKind = .runtime := of_decide_eq_true (Bool.and_eq_true_iff.1 hstart).2
      have hfirst : Emits s [⟨.loopRuntimeStart, s.fn, r.entry, .runtime, a⟩] fun _ => False := by
        refine ⟨fun c hc => ?_, fun _ hb => hb.elim⟩
        rw [List.mem_singleton.1 hc]
        exact ⟨rfl, fun _ => hloop hrun⟩
      rw [if_pos hstart]
      refine ⟨_, rfl, (hwrite.trans (Expands.emit _ _ _ _ _ (p := (· = a))) (fun _ h => h) (fun _ h => h)).trans
          (Expands.emit _ _ _ _ _ (p := (· = a))) (fun _ h => h) (fun _ h => h), ⟨_, List.append_assoc .., ?_⟩, hsched hself⟩
      exact ⟨(hfirst.append hlast).sound, fun b hb => (hfirst.append hlast).complete b (.inr hb)⟩
    · rw [if_neg hstart]
      exact ⟨_, rfl, hwrite.trans (Expands.emit _ _ _ _ _ (p := (· = a))) (fun _ h => h) (fun _ h => h), ⟨_, rfl, hlast⟩,
        hsched hself⟩

/-- No call is emitted for a region that stands for no loop. -/
theorem expanded_none {s : Compiler} {a : Addr} {r : OmpRegion} (ha : s.heap a = some r) (hfor : ∀ f, r.type ≠ .for f)
    (hno : ∀ loop, ¬ NamesLoop s.heap a loop) : Expanded s s (· = a) := by
  refine ⟨.refl s _, ⟨[], (List.append_nil _).symm, nofun, ?_⟩, ?_⟩
  · rintro b rfl loop hn
    exact absurd hn (hno loop)
  · rintro b rfl r' f hr' ht
    obtain rfl : r = r' := Option.some.inj (ha.symm.trans hr')
    exact absurd ht (hfor f)

/-- A parallel region stands for the loop with runtime schedule it is combined with. -/
theorem namesLoop_parallel {h : Addr → Option OmpRegion} {a : Addr} {r : OmpRegion} {c : Bool} {loop : Nat} (ha : h a = some r)
    (ht : r.type = .parallel c) (hn : NamesLoop h a loop) :
    Combines h r ∧ ∃ i f, h r.inner = some i ∧ i.type = .for f ∧ f.schedKind = .runtime ∧ i.entry = loop := by
  rcases hn with ⟨r', f, hr', ht', -⟩ | ⟨r', i, f, hr', hc, hi, hit, hs, hl⟩
  · obtain rfl : r = r' := Option.some.inj (ha.symm.trans hr')
    rw [ht] at ht'
    cases ht'
  · obtain rfl : r = r' := Option.some.inj (ha.symm.trans hr')
    exact ⟨hc, i, f, hi, hit, hs, hl⟩

/-- `expand_parallel_call`, once the parallel region is marked and the schedule of the loop in it is entered. -/
theorem expandParallelCall_spec {s : Compiler} {a : Addr} {r : OmpRegion} {c : Bool} (ha : s.heap a = some r)
    (ht : r.type = .parallel c) (hmark : r.isCombinedParallel = true ↔ Combines s.heap r)
    (hinner : r.inner ≠ 0 → Scheduled s.heap r.inner) :
    ∃ s', Compiler.expandParallelCall s a = some s' ∧ Expanded s s' (· = a) := by
  have hfor : ∀ f, r.type ≠ .for f := fun f hf => by rw [ht] at hf; cases hf
  unfold Compiler.expandParallelCall
  rw [ha, Option.bind_eq_bind, Option.bind_some]
  by_cases hc : r.isCombinedParallel = true
  · obtain ⟨-, -, h0, i, hi, -, -, hcl⟩ := hmark.1 hc
    rw [if_pos hc, hi, Option.bind_some]
    rcases hcl with hcl | ⟨f, hcl, -⟩
    · rw [hcl]
      refine ⟨s, rfl, expanded_none ha hfor fun loop hn => ?_⟩
      obtain ⟨-, i', f, hi', hif, -⟩ := namesLoop_parallel ha ht hn
      obtain rfl : i = i' := Option.some.inj (hi.symm.trans hi')
      rw [hcl] at hif
      cases hif
    · rw [hcl]
      have hsi := hinner h0 i f hi hcl
      by_cases hs : i.schedKind = .runtime
      · have hname : NamesLoop s.heap a i.entry :=
          .inr ⟨r, i, f, ha, hmark.1 hc, hi, hcl, by rw [← hsi]; exact hs, rfl⟩
        refine ⟨s.emit .parallelLoopRuntime i.entry .runtime a, ?_, .emit _ _ _ _ _, ⟨_, rfl, fun c hc => ?_, ?_⟩, ?_⟩
        · show some _ = some _
          rw [if_pos hs]
        · rw [List.mem_singleton.1 hc]
          exact ⟨rfl, fun _ => hname⟩
        · rintro b rfl loop hn
          exact ⟨_, List.mem_singleton_self _, rfl, rfl, hname.unique hn⟩
        · rintro b rfl r' f' hr' ht'
          obtain rfl : r = r' := Option.some.inj (ha.symm.trans hr')
          exact absurd ht' (hfor f')
      · refine ⟨s, ?_, expanded_none ha hfor fun loop hn => ?_⟩
        · show some _ = some _
          rw [if_neg hs]
        · obtain ⟨-, i', f', hi', hif, hsf, -⟩ := namesLoop_parallel ha ht hn
          obtain rfl : i = i' := Option.some.inj (hi.symm.trans hi')
          rw [hcl] at hif
          cases hif
          exact hs (hsi.trans hsf)
  · rw [if_neg hc]
    exact ⟨s, rfl, expanded_none ha hfor fun loop hn => hc (hmark.2 (namesLoop_parallel ha ht hn).1)⟩

/-- The `switch` of `expand_omp`. -/
theorem expandRegion_spec {s : Compiler} {a : Addr} {r : OmpRegion} (ha : s.heap a = some r)
    (hmark : ∀ c, r.type = .parallel c → (r.isCombinedParallel = true ↔ Combines s.heap r))
    (hinner : r.inner ≠ 0 → Scheduled s.heap r.inner) :
    ∃ s', Compiler.expandRegion s a = some s' ∧ Expanded s s' (· = a) := by
  unfold Compiler.expandRegion
  rw [ha, Option.bind_eq_bind, Option.bind_some]
  split
  · rename_i c ht
    exact expandParallelCall_spec ha ht (hmark c ht) hinner
  · rename_i f ht
    exact expandOmpFor_spec ha ht
  · rename_i hpar hfor
    refine ⟨s, rfl, expanded_none ha (fun f ht => hfor f ht) ?_⟩
    rintro loop (⟨r', f, hr', ht, -⟩ | ⟨r', -, -, hr', hc, -⟩)
    · obtain rfl : r = r' := Option.some.inj (ha.symm.trans hr')
      exact hfor f ht
    · obtain rfl : r = r' := Option.some.inj (ha.symm.trans hr')
      exact hpar true hc.1

/-! ## The expansion of a function -/

/-- `expand_omp`: the regions of the list of trees are expanded. -/
theorem expandOmp_spec {t : Siblings Addr} : ∀ {s : Compiler} {a : Addr} {fuel : Nat}, Holds s.heap a t → t.addrs.Nodup →
    (∀ b ∈ t.addrs, ∀ r, s.heap b = some r → Plain r) → t.addrs.length < fuel →
      ∃ s', Compiler.expandOmp fuel s a = some s' ∧ Expanded s s' (· ∈ t.addrs) := by
  induction t with
  | nil =>
    intro s a fuel hl _ _ hfuel
    obtain rfl : a = 0 := hl
    obtain ⟨fuel, rfl⟩ : ∃ k, fuel = k + 1 := ⟨fuel - 1, by simp only [addrs, List.length_nil] at hfuel; omega⟩
    exact ⟨s, rfl, .refl s _, ⟨[], (List.append_nil _).symm, .nil s fun b hb => absurd hb List.not_mem_nil⟩,
      fun b hb => absurd hb List.not_mem_nil⟩
  | node c i n ihi ihn =>
    intro s a fuel hl hnd hplain hfuel
    obtain ⟨rfl, ha0, r, hr, hi, hn⟩ := hl
    obtain ⟨han, hnd⟩ := List.nodup_cons.1 hnd
    obtain ⟨hndi, hndn, hdisj⟩ := List.nodup_append'.1 hnd
    have hai : a ∉ i.addrs := fun h => han (List.mem_append_left _ h)
    have hanext : a ∉ n.addrs := fun h => han (List.mem_append_right _ h)
    simp only [addrs, List.length_cons, List.length_append] at hfuel
    obtain ⟨fuel, rfl⟩ : ∃ k, fuel = k + 1 := ⟨fuel - 1, by omega⟩
    -- the first region inside, if there is one
    have hfirst : r.inner ≠ 0 → r.inner ∈ i.addrs := by
      intro h0
      cases i with
      | nil => exact absurd hi h0
      | node d j k =>
        obtain ⟨hd, -⟩ := hi
        rw [hd]
        exact List.mem_cons_self
    have hinner : r.inner = 0 ∨ ∃ q, s.heap r.inner = some q := by
      by_cases h0 : r.inner = 0
      · exact .inl h0
      · exact .inr (hi.mem (hfirst h0)).2
    have hne : r.inner ≠ a := by
      intro hra
      exact hai (hra ▸ hfirst (hra.symm ▸ ha0))
    obtain ⟨s₁, r₁, hdet, hd⟩ := determineParallelType_spec hr (hplain a List.mem_cons_self r hr) hinner hne
    obtain ⟨-, hri, hrn, -, -, -, hrt⟩ := core_links hd.core
    -- what is inside
    have hplain₁ : ∀ b ∈ i.addrs, ∀ q, s₁.heap b = some q → Plain q := by
      intro b hb q hq c hqc
      have hold : s.heap b = some q := by
        by_cases hbr : b = r.inner
        · subst hbr
          exact hd.inner q c hq hqc
        · rw [← hd.expands.same b (not_or.2 ⟨fun hba => hai (hba ▸ hb), fun hbr' => hbr hbr'.1⟩)]
          exact hq
      exact hplain b (List.mem_cons_of_mem a (List.mem_append_left _ hb)) q hold c hqc
    obtain ⟨s₂, hexp₂, h₂⟩ := ihi (hd.expands.holds hi) hndi hplain₁ (by omega : i.addrs.length < fuel)
    have hr₂ : s₂.heap a = some r₁ := by rw [h₂.expands.same a hai, hd.read]
    have hcombines : Combines s₂.heap r₁ ↔ Combines s.heap r :=
      ⟨fun h => hd.expands.symm_shape.combines hd.core.symm (h₂.expands.symm_shape.combines rfl h),
        fun h => h₂.expands.combines rfl (hd.expands.combines hd.core h)⟩
    -- the region itself
    obtain ⟨s₃, hexp₃, h₃⟩ := expandRegion_spec hr₂ (fun c hc => by
      rw [hrt] at hc
      rw [hcombines]
      exact hd.marked c hc) (fun h0 => h₂.scheduled _ (by rw [hri] at h0 ⊢; exact hfirst h0))
    obtain ⟨r₃, hr₃, hcore₃⟩ := h₃.expands.read hr₂
    obtain ⟨-, -, hrn₃, -⟩ := core_links hcore₃
    -- its siblings
    have hsame : ∀ b ∈ n.addrs, s₃.heap b = s.heap b := by
      intro b hb
      rw [h₃.expands.same b fun hba => hanext (hba ▸ hb), h₂.expands.same b fun hbi => hdisj hbi hb]
      refine hd.expands.same b (not_or.2 ⟨fun hba => hanext (hba ▸ hb), fun hbr => ?_⟩)
      exact hdisj (hfirst (hbr.1 ▸ hbr.2)) (hbr.1 ▸ hb)
    have hn₃ : Holds s₃.heap r₃.next n := by
      rw [hrn₃, hrn]
      exact h₃.expands.holds (h₂.expands.holds (hd.expands.holds hn))
    obtain ⟨s₄, hexp₄, h₄⟩ := ihn hn₃ hndn (fun b hb q hq => by
      rw [hsame b hb] at hq
      exact hplain b (List.mem_cons_of_mem a (List.mem_append_right _ hb)) q hq) (by omega : n.addrs.length < fuel)
    refine ⟨s₄, ?_, ?_⟩
    · unfold Compiler.expandOmp
      simp only [if_neg ha0, Option.bind_eq_bind, hdet, Option.bind_some, hd.read, hri, hexp₂, hexp₃, hr₃, hexp₄]
    · have hparts := (h₂.trans h₃ fun b hb hba => hai (hba ▸ hb)).trans h₄ fun b hb hbn => by
        rcases hb with hb | rfl
        · exact hdisj hb hbn
        · exact hanext hbn
      have hmem : ∀ b, (b ∈ i.addrs ∨ b = a) ∨ b ∈ n.addrs ↔ b ∈ (node a i n).addrs := by
        intro b
        simp only [addrs, List.mem_cons, List.mem_append]
        tauto
      obtain ⟨new, hcalls, hnew⟩ := hparts.emits
      refine ⟨hd.expands.trans hparts.expands ?_ fun b hb => (hmem b).1 hb, ⟨new, ?_, ?_⟩, fun b hb =>
        hparts.scheduled b ((hmem b).2 hb)⟩
      · rintro b (rfl | ⟨rfl, h0⟩)
        · exact List.mem_cons_self
        · exact List.mem_cons_of_mem a (List.mem_append_left _ (hfirst h0))
      · rw [hcalls, hd.calls]
      · have hnew' := hnew.before hd.expands
        exact ⟨hnew'.sound, fun b hb => hnew'.complete b ((hmem b).2 hb)⟩

end Bosched.OmpExpand
