/-
`particle_gp.jl`: a Gaussian process with one model for each sample of its hyperparameters. GaussianProcesses.jl is an
interface, and `LaysOut` the layout of its parameter vectors.
-/
import Bosched.Labo.Numbers
import Bosched.Lib.Columns
import Bosched.Packing.JuliaStages

namespace Bosched.Julia

open Lib

/-- The keyword arguments that choose the components of a parameter vector. -/
structure Components where
  noise : Bool
  domean : Bool
  kern : Bool

/-- What the sampler and the particles use of a model of GaussianProcesses.jl: the parameters of its components, and
the functions on it. A failed evaluation leaves a model behind and no target. -/
class GPBase (M : Type) (D : outParam Type) where
  logNoise : M → List D
  mean : M → List D
  kernel : M → List D
  dim : M → Nat
  getParams : M → Components → List D
  setParams : M → List D → Components → Option M
  numParams : M → Components → Nat
  updateMll : M → Option M
  updateTarget : M → M × Option D
  updateTargetAndDtarget : M → M × Option (D × List D)
  dtarget : M → List D

/-- The part of a parameter vector that a flag turns on. -/
def part {D : Type} (flag : Bool) (v : List D) : List D := if flag then v else []

/-- Two models with the same parameters. -/
structure SameParams {M D : Type} [GPBase M D] (m m' : M) : Prop where
  logNoise : GPBase.logNoise m' = GPBase.logNoise m
  mean : GPBase.mean m' = GPBase.mean m
  kernel : GPBase.kernel m' = GPBase.kernel m

/-- A parameter vector is the noise, then the mean, then the kernel, each if its flag is on; what is behind them is
not read, and evaluating a model keeps its parameters. -/
structure LaysOut (M : Type) {D : Type} [GPBase M D] : Prop where
  get : ∀ (m : M) c, GPBase.getParams m c =
    part c.noise (GPBase.logNoise m) ++ part c.domean (GPBase.mean m) ++ part c.kern (GPBase.kernel m)
  set : ∀ (m : M) c noise mean kern rest, noise.length = (part c.noise (GPBase.logNoise m)).length →
    mean.length = (part c.domean (GPBase.mean m)).length → kern.length = (part c.kern (GPBase.kernel m)).length →
    ∃ m', GPBase.setParams m (noise ++ mean ++ kern ++ rest) c = some m' ∧
      GPBase.logNoise m' = (if c.noise then noise else GPBase.logNoise m) ∧
      GPBase.mean m' = (if c.domean then mean else GPBase.mean m) ∧
      GPBase.kernel m' = (if c.kern then kern else GPBase.kernel m)
  updateMll : ∀ m m' : M, GPBase.updateMll m = some m' → SameParams m m'
  updateTarget : ∀ m : M, SameParams m (GPBase.updateTarget m).1
  updateDtarget : ∀ m : M, SameParams m (GPBase.updateTargetAndDtarget m).1

section

variable {M D : Type} [GPBase M D]

/-- Two models whose components have as many parameters. -/
structure SameShape (m m' : M) : Prop where
  logNoise : (GPBase.logNoise m').length = (GPBase.logNoise m).length
  mean : (GPBase.mean m').length = (GPBase.mean m).length
  kernel : (GPBase.kernel m').length = (GPBase.kernel m).length

theorem SameShape.refl (m : M) : SameShape m m := ⟨rfl, rfl, rfl⟩

theorem SameShape.trans {m m' m'' : M} (h : SameShape m m') (h' : SameShape m' m'') : SameShape m m'' :=
  ⟨h'.logNoise.trans h.logNoise, h'.mean.trans h.mean, h'.kernel.trans h.kernel⟩

theorem SameParams.shape {m m' : M} (h : SameParams m m') : SameShape m m' :=
  ⟨congrArg _ h.logNoise, congrArg _ h.mean, congrArg _ h.kernel⟩

/-- The number of parameters of all components. -/
def paramCount (m : M) : Nat := (GPBase.logNoise m).length + (GPBase.mean m).length + (GPBase.kernel m).length

theorem SameShape.paramCount_eq {m m' : M} (h : SameShape m m') : paramCount m' = paramCount m := by
  unfold paramCount
  rw [h.logNoise, h.mean, h.kernel]

/-- A vector as long as the parameters of a model, in the parts that belong to its components. -/
theorem exists_parts {m : M} {v : List D} (hv : v.length = paramCount m) :
    ∃ noise mean kern, v = noise ++ mean ++ kern ∧ noise.length = (GPBase.logNoise m).length ∧
      mean.length = (GPBase.mean m).length ∧ kern.length = (GPBase.kernel m).length := by
  unfold paramCount at hv
  refine ⟨v.take (GPBase.logNoise m).length, (v.drop (GPBase.logNoise m).length).take (GPBase.mean m).length,
    (v.drop (GPBase.logNoise m).length).drop (GPBase.mean m).length, ?_, ?_, ?_, ?_⟩
  · rw [List.append_assoc, List.take_append_drop, List.take_append_drop]
  · rw [List.length_take]
    omega
  · rw [List.length_take, List.length_drop]
    omega
  · rw [List.length_drop, List.length_drop]
    omega

end

variable {M D : Type} [LaboFloat D] [GPBase M D]

/-! ## `particle_gp.jl` -/

/-- `ParticleGP`: a weight for each model. -/
structure ParticleGP (M D : Type) where
  gp : List M
  η : Columns D
  weights : List D
  dim : Nat
  numGpparam : Nat
  kwargs : Components
  length_gp : gp.length = weights.length

theorem length_of_mapM {α β : Type} {f : α → Option β} : ∀ {l : List α} {l' : List β}, l.mapM f = some l' →
    l'.length = l.length
  | [], l', h => by
    cases h
    rfl
  | a :: l, l', h => by
    rw [List.mapM_cons] at h
    obtain ⟨b, -, h⟩ := Option.bind_eq_some_iff.1 h
    obtain ⟨bs, hbs, h⟩ := Option.bind_eq_some_iff.1 h
    obtain rfl := Option.some.inj h
    rw [List.length_cons, List.length_cons, length_of_mapM hbs]

/-- The keyword arguments of `ParticleGP` that a call leaves out. -/
def ParticleGP.defaults : Components := { noise := true, domean := false, kern := true }

/-- The model of particle `i`. -/
def localModel (gp : M) (particles : Columns D) (kwargs : Components) (i : Nat) : Option M := do
  let localModel ← GPBase.setParams gp (← particles.col i) kwargs
  GPBase.updateMll localModel

/-- `ParticleGP(gp, particles, weights; kwargs...)`. -/
def ParticleGP.weighted (gp : M) (particles : Columns D) (weights : List D) (kwargs : Components) :
    Option (ParticleGP M D) :=
  match h : (List.range' 1 weights.length).mapM (localModel gp particles kwargs) with
  | some models =>
    some { gp := models, η := ⟨0, 0, [], rfl⟩, weights := weights, dim := GPBase.dim gp,
           numGpparam := GPBase.numParams gp { noise := true, domean := false, kern := true }, kwargs := kwargs,
           length_gp := (length_of_mapM h).trans List.length_range' }
  | none => none

/-- `ParticleGP(gp, particles)`. -/
def ParticleGP.ofParticles (gp : M) (particles : Columns D) : Option (ParticleGP M D) :=
  let numParticles := particles.cols
  ParticleGP.weighted gp particles (List.replicate numParticles (1.0 / LaboFloat.ofInt numParticles))
    ParticleGP.defaults

/-- `TimeMarginalizedGP`. -/
structure TimeMarginalizedGP (M D : Type) where
  nonMargGp : ParticleGP M D
  timeIdx : List Int
  timeW : List D

/-! ## The models -/

theorem get_mapM {β : Type} {f : Nat → Option β} : ∀ {n s : Nat} {l : List β}, (List.range' s n).mapM f = some l →
    ∀ {i : Nat}, i < n → l[i]? = f (s + i)
  | 0, _, _, _, _, hi => absurd hi (Nat.not_lt_zero _)
  | n + 1, s, l, h, i, hi => by
    rw [List.range'_succ, List.mapM_cons] at h
    obtain ⟨b, hb, h⟩ := Option.bind_eq_some_iff.1 h
    obtain ⟨bs, hbs, h⟩ := Option.bind_eq_some_iff.1 h
    obtain rfl := Option.some.inj h
    cases i with
    | zero => exact hb.symm
    | succ i =>
      rw [List.getElem?_cons_succ, get_mapM hbs (by omega)]
      congr 1
      omega

omit [LaboFloat D] in
theorem ParticleGP.weighted_gp {gp : M} {particles : Columns D} {weights : List D} {kwargs : Components}
    {pg : ParticleGP M D} (h : ParticleGP.weighted gp particles weights kwargs = some pg) :
    pg.weights = weights ∧ ∀ i, 1 ≤ i → i ≤ weights.length → Julia.get pg.gp i = localModel gp particles kwargs i := by
  unfold ParticleGP.weighted at h
  split at h
  · rename_i models hm
    obtain rfl := Option.some.inj h
    refine ⟨rfl, fun i h1 hi => ?_⟩
    obtain ⟨i, rfl⟩ : ∃ k, i = k + 1 := ⟨i - 1, by omega⟩
    rw [get_succ, get_mapM hm hi, Nat.add_comm]
  · cases h

omit [LaboFloat D] in
/-- Setting a vector with its mean in a model where the flag of the mean is off. -/
theorem LaysOut.shifted (L : LaysOut M) {m : M} {v noise mean kern : List D} (hv : v = noise ++ mean ++ kern)
    (hn : noise.length = (GPBase.logNoise m).length) (hk : kern.length = (GPBase.kernel m).length) :
    ∃ m', GPBase.setParams m v ParticleGP.defaults = some m' ∧ GPBase.logNoise m' = noise ∧
      GPBase.mean m' = GPBase.mean m ∧ GPBase.kernel m' = (mean ++ kern).take kern.length := by
  have hlen : kern.length ≤ (mean ++ kern).length := by
    rw [List.length_append]
    omega
  obtain ⟨m', hm', h1, h2, h3⟩ := L.set m ParticleGP.defaults noise [] ((mean ++ kern).take kern.length)
    ((mean ++ kern).drop kern.length) hn rfl (by rw [List.length_take_of_le hlen]; exact hk)
  rw [List.append_nil, List.append_assoc, List.take_append_drop, ← List.append_assoc, ← hv] at hm'
  exact ⟨m', hm', h1, h2, h3⟩

end Bosched.Julia
