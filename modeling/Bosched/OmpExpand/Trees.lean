/-
The allocated regions form a forest under the links `inner` and `next`: building keeps it one, whatever
addresses the allocator returns, and releasing it leaves no region allocated.
-/
import Bosched.Lib.Siblings
import Bosched.OmpExpand.Regions

namespace Bosched.OmpExpand

open Lib Lib.Siblings

/-- The heap holds the list of trees `t` at `a`. -/
abbrev Holds (h : Addr → Option OmpRegion) (a : Addr) (t : Siblings Addr) : Prop :=
  Linked OmpRegion.inner OmpRegion.next 0 h a t

/-- The allocated regions are those of the forest `t`, none of them is marked yet, and each links a region that is
allocated, or none, as the one around it. -/
structure Forest (s : Compiler) (t : Siblings Addr) : Prop where
  linked : Holds s.heap s.root t
  nodup : t.addrs.Nodup
  alive : ∀ a, (s.heap a).isSome ↔ a ∈ t.addrs
  outer : ∀ a r, s.heap a = some r → r.outer = 0 ∨ r.outer ∈ t.addrs
  plain : ∀ a r, s.heap a = some r → r.isCombinedParallel = false

@[simp] theorem Compiler.write_self (s : Compiler) (a : Addr) (r : OmpRegion) : (s.write a r).heap a = some r := by
  unfold Compiler.write
  exact Function.update_self ..

theorem Compiler.write_ne (s : Compiler) {a b : Addr} (r : OmpRegion) (h : b ≠ a) : (s.write a r).heap b = s.heap b := by
  unfold Compiler.write
  exact Function.update_of_ne h ..

/-! ## Building -/

/-- A region gets other contents but keeps its links. -/
theorem Forest.write {s : Compiler} {t : Siblings Addr} (h : Forest s t) {a : Addr} {r r' : OmpRegion}
    (ha : s.heap a = some r) (hi : r'.inner = r.inner) (hn : r'.next = r.next) (ho : r'.outer = r.outer)
    (hc : r'.isCombinedParallel = r.isCombinedParallel) : Forest (s.write a r') t := by
  have hsome : (s.heap a).isSome := by rw [ha]; rfl
  refine ⟨h.linked.congr fun b _ q hq => ?_, h.nodup, fun b => ?_, fun b q hq => ?_, fun b q hq => ?_⟩
  · by_cases hba : b = a
    · subst hba
      obtain rfl : r = q := Option.some.inj (ha.symm.trans hq)
      exact ⟨r', s.write_self b r', hi, hn⟩
    · exact ⟨q, by rw [s.write_ne r' hba]; exact hq, rfl, rfl⟩
  · by_cases hba : b = a
    · subst hba
      rw [s.write_self, ← h.alive, hsome]
      rfl
    · rw [s.write_ne r' hba]
      exact h.alive b
  · by_cases hba : b = a
    · subst hba
      rw [s.write_self] at hq
      cases hq
      rw [ho]
      exact h.outer b r ha
    · rw [s.write_ne r' hba] at hq
      exact h.outer b q hq
  · by_cases hba : b = a
    · subst hba
      rw [s.write_self] at hq
      cases hq
      rw [hc]
      exact h.plain b r ha
    · rw [s.write_ne r' hba] at hq
      exact h.plain b q hq

/-- The allocator returns a fresh address. -/
theorem Compiler.malloc_some {s s' : Compiler} {a : Addr} (h : s.malloc = some (a, s')) :
    a ≠ 0 ∧ s.heap a = none ∧ ∃ supply, s' = { s with supply := supply } := by
  unfold Compiler.malloc at h
  split at h
  · cases h
  · split at h
    · cases h
    · rename_i hfree
      cases h
      obtain ⟨h0, hnone⟩ := not_or.1 hfree
      exact ⟨h0, by simpa using hnone, _, rfl⟩

/-- What a step of the building leaves alone. -/
structure BuildsOn (s s' : Compiler) : Prop where
  calls : s'.calls = s.calls
  fn : s'.fn = s.fn

theorem BuildsOn.trans {s s' s'' : Compiler} (h : BuildsOn s s') (h' : BuildsOn s' s'') : BuildsOn s s'' :=
  ⟨h'.calls.trans h.calls, h'.fn.trans h.fn⟩

/-- A new region under a region of the forest, or on top. -/
theorem Forest.newOmpRegion {s s' : Compiler} {t : Siblings Addr} (h : Forest s t) {bb : Nat} {type : GimpleOmp}
    {parent a : Addr} (hparent : parent = 0 ∨ parent ∈ t.addrs) (hnew : s.newOmpRegion bb type parent = some (a, s')) :
    ∃ t', Forest s' t' ∧ t'.addrs.Perm (a :: t.addrs) ∧ BuildsOn s s' := by
  obtain ⟨⟨b, s₁⟩, hmalloc, hnew⟩ := Option.bind_eq_some_iff.1 hnew
  obtain ⟨hb0, hfree, supply, rfl⟩ := Compiler.malloc_some hmalloc
  have hbt : b ∉ t.addrs := fun hb => by
    have := (h.alive b).2 hb
    rw [hfree] at this
    cases this
  have hne : ∀ {c}, c ∈ t.addrs → c ≠ b := fun hc hcb => hbt (hcb ▸ hc)
  by_cases hp : parent = 0
  · subst hp
    simp only [ne_eq, not_true_eq_false, if_false] at hnew
    cases hnew
    have hold : ∀ {c}, c ≠ a → (Function.update s.heap a (some ⟨0, 0, s.root, bb, none, none, type, .static, false⟩)) c =
        s.heap c := fun hc => Function.update_of_ne hc ..
    refine ⟨node a nil t, ⟨⟨rfl, hb0, _, Function.update_self .., rfl, h.linked.congr fun c hc q hq =>
        ⟨q, by rw [← hq]; exact hold (hne hc), rfl, rfl⟩⟩, ?_, fun c => ?_, fun c q hq => ?_, fun c q hq => ?_⟩, .refl _,
      ⟨rfl, rfl⟩⟩
    · exact List.nodup_cons.2 ⟨hbt, h.nodup⟩
    · show (Function.update s.heap a _ c).isSome ↔ c ∈ a :: t.addrs
      by_cases hc : c = a
      · subst hc
        simp
      · rw [hold hc, h.alive]
        simp [hc]
    · replace hq : Function.update s.heap a _ c = some q := hq
      by_cases hc : c = a
      · subst hc
        rw [Function.update_self] at hq
        cases hq
        exact .inl rfl
      · rw [hold hc] at hq
        exact (h.outer c q hq).imp_right fun ho => List.mem_cons_of_mem a ho
    · replace hq : Function.update s.heap a _ c = some q := hq
      by_cases hc : c = a
      · subst hc
        rw [Function.update_self] at hq
        cases hq
        rfl
      · rw [hold hc] at hq
        exact h.plain c q hq
  · simp only [ne_eq, hp, not_false_eq_true, if_true] at hnew
    obtain ⟨pr, hpr, hnew⟩ := Option.bind_eq_some_iff.1 hnew
    cases hnew
    replace hpr : s.heap parent = some pr := hpr
    have hmem := hparent.resolve_left hp
    have hpa : parent ≠ a := hne hmem
    set r : OmpRegion := ⟨parent, 0, pr.inner, bb, none, none, type, .static, false⟩ with hr
    set s₁ : Compiler := { s with supply := supply } with hs₁
    have hold : ∀ {c}, c ≠ a → c ≠ parent → ((s₁.write a r).write parent { pr with inner := a }).heap c = s.heap c :=
      fun hca hcp => by rw [Compiler.write_ne _ _ hcp, Compiler.write_ne _ _ hca]
    have hself : ((s₁.write a r).write parent { pr with inner := a }).heap parent = some { pr with inner := a } :=
      Compiler.write_self ..
    have hnewr : ((s₁.write a r).write parent { pr with inner := a }).heap a = some r := by
      rw [Compiler.write_ne _ _ (Ne.symm hpa), Compiler.write_self]
    have hperm := addrs_insert (x := a) h.nodup hmem
    refine ⟨t.insert parent a, ⟨?_, ?_, fun c => ?_, fun c q hq => ?_, fun c q hq => ?_⟩, hperm, ⟨rfl, rfl⟩⟩
    · exact h.linked.insert h.nodup hb0 hpr hself hnewr rfl rfl rfl rfl (fun c hc hcp => hold (hne hc) hcp) hmem
    · exact hperm.nodup_iff.2 (List.nodup_cons.2 ⟨hbt, h.nodup⟩)
    · rw [hperm.mem_iff, List.mem_cons]
      by_cases hca : c = a
      · rw [hca, hnewr]
        simp
      · by_cases hcp : c = parent
        · rw [hcp, hself]
          simp [hmem]
        · rw [hold hca hcp, h.alive]
          simp [hca]
    · rw [hperm.mem_iff]
      have hin : ∀ {x}, x ∈ t.addrs → x ∈ a :: t.addrs := fun hx => List.mem_cons_of_mem a hx
      by_cases hca : c = a
      · rw [hca, hnewr] at hq
        cases hq
        exact .inr (hin hmem)
      · by_cases hcp : c = parent
        · rw [hcp, hself] at hq
          cases hq
          exact (h.outer parent pr hpr).imp_right hin
        · rw [hold hca hcp] at hq
          exact (h.outer c q hq).imp_right hin
    · by_cases hca : c = a
      · rw [hca, hnewr] at hq
        cases hq
        rfl
      · by_cases hcp : c = parent
        · rw [hcp, hself] at hq
          cases hq
          exact h.plain parent pr hpr
        · rw [hold hca hcp] at hq
          exact h.plain c q hq

/-- A forest that has grown by at most `n` regions. -/
structure Grown (s s' : Compiler) (t t' : Siblings Addr) (n : Nat) : Prop where
  forest : Forest s' t'
  subset : ∀ a ∈ t.addrs, a ∈ t'.addrs
  size : t'.addrs.length ≤ t.addrs.length + n
  buildsOn : BuildsOn s s'

theorem Forest.grown_write {s : Compiler} {t : Siblings Addr} (h : Forest s t) {a : Addr} {r r' : OmpRegion}
    (ha : s.heap a = some r) (hi : r'.inner = r.inner) (hn : r'.next = r.next) (ho : r'.outer = r.outer)
    (hc : r'.isCombinedParallel = r.isCombinedParallel) : Grown s (s.write a r') t t 1 :=
  ⟨h.write ha hi hn ho hc, fun _ h => h, Nat.le_succ _, ⟨rfl, rfl⟩⟩

/-- A block that opens a region. -/
theorem Forest.opened {s s' : Compiler} {t : Siblings Addr} (h : Forest s t) {bb : Nat} {type : GimpleOmp}
    {parent below : Addr} (hparent : parent = 0 ∨ parent ∈ t.addrs) (hv : (do
      let (region, s) ← s.newOmpRegion bb type parent
      return (if type.standAlone then parent else region, s)) = some (below, s')) :
    ∃ t', Grown s s' t t' 1 ∧ (below = 0 ∨ below ∈ t'.addrs) := by
  obtain ⟨⟨a, s₁⟩, hnew, hv⟩ := Option.bind_eq_some_iff.1 hv
  cases hv
  obtain ⟨t', hf, hperm, hb⟩ := h.newOmpRegion hparent hnew
  have hin : ∀ x ∈ t.addrs, x ∈ t'.addrs := fun x hx => hperm.mem_iff.2 (List.mem_cons_of_mem a hx)
  refine ⟨t', ⟨hf, hin, ?_, hb⟩, ?_⟩
  · rw [hperm.length_eq, List.length_cons]
  · split
    · exact hparent.imp_right (hin parent)
    · exact .inr (hperm.mem_iff.2 List.mem_cons_self)

/-- One block: the blocks below it have a parent in the forest, or none. -/
theorem Forest.visitBlock {s s' : Compiler} {t : Siblings Addr} (h : Forest s t) {bb : Nat} {last : Option GimpleOmp}
    {parent below : Addr} (hparent : parent = 0 ∨ parent ∈ t.addrs)
    (hv : Compiler.visitBlock bb last parent s = some (below, s')) :
    ∃ t', Grown s s' t t' 1 ∧ (below = 0 ∨ below ∈ t'.addrs) := by
  have hkeep : Grown s s t t 1 := ⟨h, fun _ h => h, Nat.le_succ _, ⟨rfl, rfl⟩⟩
  -- a block that ends one
  have hread : ∀ {p : OmpRegion}, s.enclosing parent = some p → s.heap parent = some p := by
    intro p hp
    unfold Compiler.enclosing at hp
    split at hp
    · cases hp
    · exact hp
  cases last with
  | none =>
    cases hv
    exact ⟨t, hkeep, hparent⟩
  | some type =>
    cases type with
    | «return» =>
      simp only [Compiler.visitBlock] at hv
      obtain ⟨p, hp, hv⟩ := Option.bind_eq_some_iff.1 hv
      cases hv
      exact ⟨t, h.grown_write (hread hp) rfl rfl rfl rfl, h.outer parent p (hread hp)⟩
    | atomicStore =>
      simp only [Compiler.visitBlock] at hv
      obtain ⟨p, hp, hv⟩ := Option.bind_eq_some_iff.1 hv
      split at hv
      · cases hv
        exact ⟨t, h.grown_write (hread hp) rfl rfl rfl rfl, h.outer parent p (hread hp)⟩
      · cases hv
    | «continue» =>
      simp only [Compiler.visitBlock] at hv
      obtain ⟨p, hp, hv⟩ := Option.bind_eq_some_iff.1 hv
      cases hv
      exact ⟨t, h.grown_write (hread hp) rfl rfl rfl rfl, hparent⟩
    | sectionsSwitch =>
      cases hv
      exact ⟨t, hkeep, hparent⟩
    | parallel | task | sections | «section» | single | master | taskgroup | critical | teams | «for» | ordered | target
    | atomicLoad => exact h.opened hparent hv

/-- The blocks of a function. -/
theorem Forest.buildOmpRegions1 {f : Dom} : ∀ {s s' : Compiler} {t : Siblings Addr} {parent : Addr}, Forest s t →
    parent = 0 ∨ parent ∈ t.addrs → Compiler.buildOmpRegions1 f parent s = some s' → ∃ t', Grown s s' t t' f.size := by
  induction f with
  | nil =>
    intro s s' t parent h _ hb
    cases hb
    exact ⟨t, h, fun _ h => h, le_refl _, ⟨rfl, rfl⟩⟩
  | node bb last son next ihs ihn =>
    intro s s' t parent h hparent hb
    obtain ⟨⟨below, s₁⟩, hv, hb⟩ := Option.bind_eq_some_iff.1 hb
    obtain ⟨s₂, hson, hb⟩ := Option.bind_eq_some_iff.1 hb
    obtain ⟨t₁, g₁, hbelow⟩ := h.visitBlock hparent hv
    obtain ⟨t₂, g₂⟩ := ihs g₁.forest hbelow hson
    obtain ⟨t₃, g₃⟩ := ihn g₂.forest (hparent.imp_right fun hp => g₂.subset _ (g₁.subset _ hp)) hb
    refine ⟨t₃, g₃.forest, fun a ha => g₃.subset a (g₂.subset a (g₁.subset a ha)), ?_,
      (g₁.buildsOn.trans g₂.buildsOn).trans g₃.buildsOn⟩
    have := g₁.size
    have := g₂.size
    have := g₃.size
    simp only [Dom.size]
    omega

/-! ## Releasing -/

/-- The regions of a list of trees are released, and no others. -/
theorem freeSiblings_spec {t : Siblings Addr} : ∀ {h : Addr → Option OmpRegion} {a : Addr} {fuel : Nat}, Holds h a t →
    t.addrs.Nodup → 2 * t.addrs.length < fuel → ∃ h', Compiler.freeSiblings fuel h a = some h' ∧
      (∀ b ∈ t.addrs, h' b = none) ∧ ∀ b, b ∉ t.addrs → h' b = h b := by
  induction t with
  | nil =>
    intro h a fuel hl _ hfuel
    obtain rfl : a = 0 := hl
    refine ⟨h, ?_, nofun, fun _ _ => rfl⟩
    cases fuel with
    | zero => rfl
    | succ fuel => rfl
  | node c i n ihi ihn =>
    intro h a fuel hl hnd hfuel
    obtain ⟨rfl, ha, r, hr, hi, hn⟩ := hl
    obtain ⟨hcn, hnd⟩ := List.nodup_cons.1 hnd
    obtain ⟨hndi, hndn, hdisj⟩ := List.nodup_append'.1 hnd
    simp only [addrs, List.length_cons, List.length_append] at hfuel
    obtain ⟨fuel, rfl⟩ : ∃ k, fuel = k + 2 := ⟨fuel - 2, by omega⟩
    obtain ⟨h₁, hfree₁, hnone₁, hkeep₁⟩ := ihi hi hndi (by omega : 2 * i.addrs.length < fuel)
    have hai : a ∉ i.addrs := fun h => hcn (List.mem_append_left _ h)
    have han : a ∉ n.addrs := fun h => hcn (List.mem_append_right _ h)
    have ha₁ : (h₁ a).isSome := by rw [hkeep₁ a hai, hr]; rfl
    -- what is freed so far is not linked by the siblings
    have hn₁ : Holds (Function.update h₁ a none) r.next n := hn.congr fun b hb q hq => by
      have hba : b ≠ a := fun hba => han (hba ▸ hb)
      refine ⟨q, ?_, rfl, rfl⟩
      rw [Function.update_of_ne hba, hkeep₁ b fun hbi => hdisj hbi hb]
      exact hq
    obtain ⟨h₂, hfree₂, hnone₂, hkeep₂⟩ := ihn hn₁ hndn (by omega : 2 * n.addrs.length < fuel + 1)
    have hone : Compiler.freeOmpRegion1 (fuel + 1) h a = some (Function.update h₁ a none) := by
      unfold Compiler.freeOmpRegion1
      rw [hr, Option.bind_eq_bind, Option.bind_some, hfree₁, Option.bind_eq_bind, Option.bind_some]
      exact if_pos ha₁
    refine ⟨h₂, ?_, fun b hb => ?_, fun b hb => ?_⟩
    · unfold Compiler.freeSiblings
      rw [if_neg ha, hr, Option.bind_eq_bind, Option.bind_some, hone, Option.bind_eq_bind, Option.bind_some]
      exact hfree₂
    · by_cases hbn : b ∈ n.addrs
      · exact hnone₂ b hbn
      · rw [hkeep₂ b hbn]
        by_cases hba : b = a
        · rw [hba, Function.update_self]
        · rw [Function.update_of_ne hba]
          exact hnone₁ b ((List.mem_append.1 ((List.mem_cons.1 hb).resolve_left hba)).resolve_right hbn)
    · obtain ⟨hba, hb⟩ := not_or.1 (mt List.mem_cons.2 hb)
      obtain ⟨hbi, hbn⟩ := not_or.1 (mt List.mem_append.2 hb)
      rw [hkeep₂ b hbn, Function.update_of_ne hba, hkeep₁ b hbi]

end Bosched.OmpExpand
