/-
The task map of a region is computed at the first demand and cached beside the workload. A workload that is
registered later and a change of the number of threads leave the cached map alone.
-/
import Bosched.Packing.Bounds
import Bosched.State.Run
import Bosched.Runtime.Exact

namespace Bosched

open Lib

variable {D : Type} [CDouble D]

/-! ## Sessions -/

/-- The calls the cache depends on. -/
inductive WorkloadCall
  | registerWorkload (tasks : List U32)
  | setMaxThreads (n : U32)
  | loadLoop (regionId : RegionId)

/-- The runtime, and the regions whose workload was registered so far. -/
structure Session (D : Type) where
  g : Globals D
  registered : List RegionId

/-- The region `bo_register_workload` picks. -/
def registerTarget (g : Globals D) : RegionId := ((g.loopStates.entries.find? fun e => e.2.numTasks > 32).map (·.1)).getD 0

/-- A call; `none` when it does not return. -/
def Session.call (s : Session D) : WorkloadCall → Option (Session D)
  | .registerWorkload tasks => some ⟨boRegisterWorkload s.g tasks, registerTarget s.g :: s.registered⟩
  | .setMaxThreads n => some { s with g := { s.g with nthreadsVar := n } }
  | .loadLoop regionId => (boBinlptLoadLoop s.g regionId).map fun r => { s with g := r.1 }

/-- The calls of a program, one after the other. -/
def Session.run (s : Session D) (calls : List WorkloadCall) : Option (Session D) := calls.foldlM Session.call s

/-- `binlpt_balance` of a workload for `P` threads, as `bo_binlpt_load_loop` calls it. -/
def balanceOf (hss : List U32) (P : U32) : Option (List U32) :=
  binlptBalance hss (BitVec.ofNat 32 hss.length).toNat P.toNat (P * 2).toNat (List.replicate hss.length 0)

/-- A map that is loaded now for a region with a registered workload is that of the workload and the number of
threads there are now. -/
def LoadsCurrent (s : Session D) : Prop :=
  ∀ r ∈ s.registered, ∀ g' map, boBinlptLoadLoop s.g r = some (g', map) →
    map.length = (s.g.param r).hss.length ∧ balanceOf (s.g.param r).hss s.g.nthreadsVar = some map

/-- A workload is registered for a region without a cached map, or it is the one the region has; the number of
threads changes while no registered region has a cached map. -/
def Timely (s : Session D) : WorkloadCall → Prop
  | .registerWorkload tasks => (s.g.param (registerTarget s.g)).binlpt = [] ∨
      (registerTarget s.g ∈ s.registered ∧ tasks = (s.g.param (registerTarget s.g)).hss)
  | .setMaxThreads n => n = s.g.nthreadsVar ∨ ∀ r ∈ s.registered, (s.g.param r).binlpt = []
  | .loadLoop _ => True

/-- Every call of the run is timely in the state it finds. -/
def AllTimely : Session D → List WorkloadCall → Prop
  | _, [] => True
  | s, c :: calls => Timely s c ∧ ∀ s', s.call c = some s' → AllTimely s' calls

/-! ## The cache -/

/-- The cached maps of the registered regions are those of their workloads. -/
def Coherent (s : Session D) : Prop :=
  ∀ r ∈ s.registered, (s.g.param r).binlpt ≠ [] → balanceOf (s.g.param r).hss s.g.nthreadsVar = some (s.g.param r).binlpt

theorem param_setParam_ne (g : Globals D) {r r' : RegionId} (h : r' ≠ r) (p : WorkloadParams D) :
    (g.setParam r p).param r' = g.param r' := by
  simp [Globals.param, Globals.setParam, AList.lookup_insert_ne h]

/-- A load returns the cached map, or computes and caches one. -/
theorem boBinlptLoadLoop_cases {g g' : Globals D} {r : RegionId} {map : List U32}
    (h : boBinlptLoadLoop g r = some (g', map)) :
    (∃ p, g' = g.setParam r p ∧ p.hss = (g.param r).hss ∧ p.binlpt = map) ∧
      ((g.param r).binlpt = map ∧ map ≠ [] ∨ (g.param r).binlpt = [] ∧ balanceOf (g.param r).hss g.nthreadsVar = some map) := by
  unfold boBinlptLoadLoop at h
  simp only at h
  split at h
  · rename_i h0
    split at h
    · cases h
    · obtain ⟨m, hm, h⟩ := Option.bind_eq_some_iff.1 h
      cases h
      exact ⟨⟨_, rfl, rfl, rfl⟩, .inr ⟨List.length_eq_zero_iff.1 h0, hm⟩⟩
  · rename_i h0
    cases h
    exact ⟨⟨_, rfl, rfl, rfl⟩, .inl ⟨rfl, fun hnil => h0 (by rw [hnil]; rfl)⟩⟩

theorem boBinlptLoadLoop_nthreadsVar {g g' : Globals D} {r : RegionId} {map : List U32}
    (h : boBinlptLoadLoop g r = some (g', map)) : g'.nthreadsVar = g.nthreadsVar := by
  obtain ⟨⟨p, rfl, -⟩, -⟩ := boBinlptLoadLoop_cases h
  rfl

/-- One timely call. -/
theorem Coherent.call {s s' : Session D} {c : WorkloadCall} (h : Coherent s) (ht : Timely s c) (hc : s.call c = some s') :
    Coherent s' := by
  cases c with
  | registerWorkload tasks =>
    cases hc
    intro r hr hne
    have hg : boRegisterWorkload s.g tasks =
        s.g.setParam (registerTarget s.g) { s.g.param (registerTarget s.g) with hss := tasks } := rfl
    by_cases hrt : r = registerTarget s.g
    · subst hrt
      simp only [hg, Globals.param_setParam] at hne ⊢
      rcases ht with hnil | ⟨hold, rfl⟩
      · exact absurd hnil hne
      · exact h _ hold hne
    · simp only [hg, param_setParam_ne _ hrt] at hne ⊢
      exact h r ((List.mem_cons.1 hr).resolve_left hrt) hne
  | setMaxThreads n =>
    cases hc
    intro r hr hne
    rcases ht with rfl | hnone
    · exact h r hr hne
    · exact absurd (hnone r hr) hne
  | loadLoop r' =>
    obtain ⟨⟨g', map⟩, hload, rfl⟩ := Option.map_eq_some_iff.1 hc
    have hthreads := boBinlptLoadLoop_nthreadsVar hload
    obtain ⟨⟨p, rfl, hhss, hmap⟩, hcases⟩ := boBinlptLoadLoop_cases hload
    intro r hr hne
    by_cases hrr : r = r'
    · subst hrr
      simp only [Globals.param_setParam] at hne ⊢
      rw [hhss, hmap, hthreads]
      rcases hcases with ⟨hcached, hne'⟩ | ⟨-, hnew⟩
      · rw [← hcached]
        exact h r hr (by rw [hcached]; exact hne')
      · exact hnew
    · simp only [param_setParam_ne _ hrr] at hne ⊢
      exact h r hr hne

theorem Coherent.run : ∀ {calls : List WorkloadCall} {s s' : Session D}, Coherent s → AllTimely s calls →
    s.run calls = some s' → Coherent s'
  | [], s, s', h, _, hrun => by
    cases hrun
    exact h
  | c :: calls, s, s', h, hall, hrun => by
    obtain ⟨s₁, hc, hrun⟩ := Option.bind_eq_some_iff.1 hrun
    exact Coherent.run (h.call hall.1 hc) (hall.2 s₁ hc) hrun

theorem Coherent.loads {s : Session D} (h : Coherent s) : LoadsCurrent s := by
  intro r hr g' map hload
  obtain ⟨-, hcases⟩ := boBinlptLoadLoop_cases hload
  have hbalance : balanceOf (s.g.param r).hss s.g.nthreadsVar = some map := by
    rcases hcases with ⟨rfl, hne⟩ | ⟨-, hnew⟩
    · exact h r hr hne
    · exact hnew
  refine ⟨?_, hbalance⟩
  rw [length_of_binlptBalance hbalance, List.length_replicate]

/-- In every run of timely calls, from whatever the state file holds, the maps that are loaded for registered workloads
are current. -/
theorem loadsCurrent_of_timely {g₀ : Globals D} {calls : List WorkloadCall} {s : Session D}
    (hrun : Session.run ⟨g₀, []⟩ calls = some s) (hall : AllTimely ⟨g₀, []⟩ calls) : LoadsCurrent s :=
  (Coherent.run (nofun : Coherent (⟨g₀, []⟩ : Session D)) hall hrun).loads

/-- A workload of two tasks is registered and loaded on one thread. -/
theorem loadsCurrent_of_timely_two : ∃ s : Session ℚ,
    Session.run ⟨Globals.fresh 1, []⟩ [.registerWorkload [3, 5], .loadLoop 0] = some s ∧ s.registered = [0] ∧
      LoadsCurrent s := by
  have hrun : (Session.run (⟨Globals.fresh 1, []⟩ : Session ℚ) [.registerWorkload [3, 5], .loadLoop 0]).map
      (·.registered) = some [0] := by decide +kernel
  obtain ⟨s, hs, hreg⟩ := Option.map_eq_some_iff.1 hrun
  refine ⟨s, hs, hreg, loadsCurrent_of_timely hs ⟨.inl (by decide +kernel), fun s' hs' => ⟨trivial, fun _ _ => trivial⟩⟩⟩

/-- Another workload of three tasks is registered, and the map of the first one is loaded. -/
theorem loadsCurrent_stale : ¬ ∀ (g₀ : Globals ℚ) (calls : List WorkloadCall) (s : Session ℚ),
    Session.run ⟨g₀, []⟩ calls = some s → LoadsCurrent s := by
  intro h
  have hrun : (Session.run (⟨Globals.fresh 1, []⟩ : Session ℚ)
      [.registerWorkload [3, 5], .loadLoop 0, .registerWorkload [1, 2, 3]]).map
      (fun s => (s.registered, (s.g.param 0).hss, (boBinlptLoadLoop s.g 0).map Prod.snd)) =
        some ([0, 0], [1, 2, 3], some [0, 0]) := by decide +kernel
  obtain ⟨s, hs, heq⟩ := Option.map_eq_some_iff.1 hrun
  rw [Prod.mk.injEq, Prod.mk.injEq] at heq
  obtain ⟨hreg, hhss, hload⟩ := heq
  obtain ⟨⟨g', map⟩, hload, rfl⟩ := Option.map_eq_some_iff.1 hload
  have hlen := (h _ _ s hs 0 (by rw [hreg]; exact List.mem_cons_self) g' [0, 0] hload).1
  rw [hhss] at hlen
  cases hlen

end Bosched
