/-
`mcmc.jl`: the samplers of the hyperparameters. Both read and write the models with the noise, the mean and the kernel,
and both hand their samples to `ParticleGP` without its keyword arguments, which leaves the mean out: a particle takes
the mean of its sample for its first kernel parameters.
-/
import Bosched.Labo.ParticleGp
import Bosched.Lib.Folds
import Bosched.Packing.Bounds

namespace Bosched.Julia

open Lib

variable {M D S : Type} [LaboFloat D] [GPBase M D]

/-! ## `mcmc.jl` -/

/-- The random numbers the slice sampler draws: `rand()` and `rand(Uniform(lower, upper))`. -/
structure Random (S D : Type) where
  rand : S → D × S
  uniform : D → D → S → D × S

/-- `rand(n)`. -/
def Random.vector (r : Random S D) : Nat → S → List D × S
  | 0, s => ([], s)
  | n + 1, s =>
    let (x, s) := r.rand s
    let (xs, s) := r.vector n s
    (x :: xs, s)

/-- `params_kwargs`. -/
def paramsKwargs : Components := { noise := true, domean := true, kern := true }

/-- `samples[:,1:thinning:end]`; a step of zero is an error. -/
def thinned (samples : Columns D) (thinning : Nat) : Option (Columns D) :=
  if thinning = 0 then none
  else samples.colsAt (List.range' 1 ((samples.cols + thinning - 1) / thinning) thinning)

section

-- `-Inf`
variable (negInf : D)

/-- `targetlogp` of `slice` and `logp` of `nuts`, with the model it leaves behind. -/
def targetlogp (θ : List D) (gp : M) : D × M :=
  match GPBase.setParams gp θ paramsKwargs with
  | none => (negInf, gp)
  | some gp =>
    match GPBase.updateTarget gp with
    | (gp, some target) => (target, gp)
    | (gp, none) => (negInf, gp)

/-- `logp∂logp` of `nuts`. -/
def logpDlogp (θ : List D) (gp : M) : (D × List D) × M :=
  match GPBase.setParams gp θ paramsKwargs with
  | none => ((negInf, (GPBase.dtarget gp).map fun _ => 0.0), gp)
  | some gp =>
    match GPBase.updateTargetAndDtarget gp with
    | (gp, some target) => (target, gp)
    | (gp, none) => ((negInf, (GPBase.dtarget gp).map fun _ => 0.0), gp)

/-! ### `slice` -/

/-- The bounds of coordinate `i` after the value has replaced one of them. -/
def narrowed (lower upper : List D) (i : Nat) (value θi : D) : Option (List D × List D) :=
  if CDouble.lt value θi then (set lower i value).map fun lower => (lower, upper)
  else (set upper i value).map fun upper => (lower, upper)

/-- The loop over the coordinates in `sample!`. -/
def shrinkAt (r : Random S D) (θ : List D) (st : List D × List D × List D × S) (i : Nat) :
    Option (List D × List D × List D × S) := do
  let (x, lower, upper, s) := st
  let value ← get x i
  let (lower, upper) ← narrowed lower upper i value (← get θ i)
  let (xi, s) := r.uniform (← get lower i) (← get upper i) s
  return (← set x i xi, lower, upper, s)

/-- The loop of `sample!` while the target is below `p0`; `none` is a loop that needs more rounds than `fuel`. -/
def shrinkLoop (r : Random S D) (θ : List D) (p0 : D) :
    Nat → List D × List D × List D × S → M → Option (List D × M × S)
  | 0, _, _ => none
  | fuel + 1, st, gp =>
    let (p, gp) := targetlogp negInf st.1 gp
    if CDouble.lt p p0 then do
      let st ← (List.range' 1 θ.length).foldlM (shrinkAt r θ) st
      shrinkLoop r θ p0 fuel st gp
    else some (st.1, gp, st.2.2.2)

/-- `sample!`. -/
def sampleStep (r : Random S D) (fuel : Nat) (θ : List D) (w : D) (gp : M) (s : S) : Option (List D × M × S) :=
  let (p, gp) := targetlogp negInf θ gp
  let (u, s) := r.rand s
  let p0 := p + CDouble.log u
  let n := θ.length
  let (us, s) := r.vector n s
  let lower := List.zipWith (fun a u => a - w * u) θ us
  let upper := lower.map (· + w)
  let (vs, s) := r.vector n s
  let x := List.zipWith (fun v a => w * v + a) vs lower
  shrinkLoop negInf r θ p0 fuel (x, lower, upper, s) gp

/-- `slice` up to its samples, with the model the last evaluation leaves behind. -/
def sliceSamples (r : Random S D) (fuel numSamples numAdapts thinning : Nat) (width : D) (gp : M) (s : S) :
    Option (Columns D × M × S) := do
  let θ := GPBase.getParams gp paramsKwargs
  let samples := Columns.ofFn θ.length numSamples fun _ _ => (0.0 : D)
  let (θ, gp, s) ← (List.range' 1 numAdapts).foldlM (fun (θ, gp, s) _ => sampleStep negInf r fuel θ width gp s)
    (θ, gp, s)
  let (samples, _, gp, s) ← (List.range' 1 numSamples).foldlM (fun (samples, θ, gp, s) i => do
    let (θ, gp, s) ← sampleStep negInf r fuel θ width gp s
    return (← Columns.setCol samples i θ, θ, gp, s)) (samples, θ, gp, s)
  return (← thinned samples thinning, gp, s)

/-- `slice`. -/
def slice (r : Random S D) (fuel numSamples numAdapts thinning : Nat) (width : D) (gp : M) (s : S) :
    Option (ParticleGP M D × S) := do
  let (samples, gp, s) ← sliceSamples negInf r fuel numSamples numAdapts thinning width gp s
  return (← ParticleGP.ofParticles gp samples, s)

/-! ### `nuts` -/

/-- An evaluation by AdvancedHMC: `logp∂logp` or `logp`, at a vector. -/
def evaluated (gp : M) (call : Bool × List D) : M :=
  if call.1 then (logpDlogp negInf call.2 gp).2 else (targetlogp negInf call.2 gp).2

/-- `nuts` up to its samples. `hmc` is `AdvancedHMC.sample`: from the model and the first vector, the evaluations it
makes and the samples it returns. -/
def nutsSamples (hmc : M → List D → Nat → Nat → List (Bool × List D) × List (List D))
    (numSamples numAdapts thinning : Nat) (gp : M) : Option (Columns D × M) := do
  let θInit := GPBase.getParams gp paramsKwargs
  let (calls, samples) := hmc gp θInit (numSamples + numAdapts) numAdapts
  let gp := calls.foldl (evaluated negInf) gp
  let samples ← Columns.ofCols samples
  return (← thinned samples thinning, gp)

/-- `nuts`. -/
def nuts (hmc : M → List D → Nat → Nat → List (Bool × List D) × List (List D))
    (numSamples numAdapts thinning : Nat) (gp : M) : Option (ParticleGP M D) := do
  let (samples, gp) ← nutsSamples negInf hmc numSamples numAdapts thinning gp
  ParticleGP.ofParticles gp samples

end

/-! ## Sampling keeps the components -/

variable (L : LaysOut M)

include L

omit [LaboFloat D] in
theorem LaysOut.getAll (m : M) :
    GPBase.getParams m paramsKwargs = GPBase.logNoise m ++ GPBase.mean m ++ GPBase.kernel m := L.get m paramsKwargs

omit [LaboFloat D] in
theorem LaysOut.length_getAll (m : M) : (GPBase.getParams m paramsKwargs).length = paramCount m := by
  rw [L.getAll, List.length_append, List.length_append]
  rfl

omit [LaboFloat D] in
theorem LaysOut.setAll {m : M} {v : List D} (hv : v.length = paramCount m) :
    ∃ m', GPBase.setParams m v paramsKwargs = some m' ∧ SameShape m m' := by
  obtain ⟨noise, mean, kern, rfl, hn, hm, hk⟩ := exists_parts hv
  obtain ⟨m', hm', h1, h2, h3⟩ := L.set m paramsKwargs noise mean kern [] hn hm hk
  rw [List.append_nil] at hm'
  exact ⟨m', hm', by rw [h1]; exact hn, by rw [h2]; exact hm, by rw [h3]; exact hk⟩

variable (negInf : D)

omit [LaboFloat D] in
theorem targetlogp_shape {m : M} {θ : List D} (hθ : θ.length = paramCount m) :
    SameShape m (targetlogp negInf θ m).2 := by
  obtain ⟨m', hm', hshape⟩ := L.setAll hθ
  have hupd := (L.updateTarget m').shape
  rcases hres : GPBase.updateTarget m' with ⟨gp, _ | target⟩ <;> rw [hres] at hupd <;>
    simp only [targetlogp, hm', hres] <;> exact hshape.trans hupd

theorem logpDlogp_shape {m : M} {θ : List D} (hθ : θ.length = paramCount m) : SameShape m (logpDlogp negInf θ m).2 := by
  obtain ⟨m', hm', hshape⟩ := L.setAll hθ
  have hupd := (L.updateDtarget m').shape
  rcases hres : GPBase.updateTargetAndDtarget m' with ⟨gp, _ | target⟩ <;> rw [hres] at hupd <;>
    simp only [logpDlogp, hm', hres] <;> exact hshape.trans hupd

theorem evaluated_shape {m : M} {call : Bool × List D} (hθ : call.2.length = paramCount m) :
    SameShape m (evaluated negInf m call) := by
  unfold evaluated
  split
  · exact logpDlogp_shape L negInf hθ
  · exact targetlogp_shape L negInf hθ

theorem evaluations_shape : ∀ {calls : List (Bool × List D)} {m : M}, (∀ c ∈ calls, c.2.length = paramCount m) →
    SameShape m (calls.foldl (evaluated negInf) m)
  | [], m, _ => SameShape.refl m
  | c :: calls, m, h => by
    have hc := evaluated_shape L negInf (h c List.mem_cons_self)
    rw [List.foldl_cons]
    exact hc.trans (evaluations_shape fun d hd => (h d (List.mem_cons_of_mem c hd)).trans hc.paramCount_eq.symm)

omit L [LaboFloat D] in
theorem Random.vector_length (r : Random S D) : ∀ (n : Nat) (s : S), (r.vector n s).1.length = n
  | 0, _ => rfl
  | n + 1, s => by
    unfold Random.vector
    rw [List.length_cons, r.vector_length n]

omit L [LaboFloat D] in
theorem length_of_set {a a' : List D} {i : Nat} {x : D} (h : set a i x = some a') : a'.length = a.length := by
  unfold set at h
  split at h
  · cases h
  · exact length_of_store h

omit L in
theorem shrinkAt_length {r : Random S D} {θ : List D} {st st' : List D × List D × List D × S} {i : Nat}
    (h : shrinkAt r θ st i = some st') : st'.1.length = st.1.length := by
  obtain ⟨x, lower, upper, s⟩ := st
  unfold shrinkAt at h
  simp only [Option.bind_eq_bind, Option.bind_eq_some_iff, Option.pure_def] at h
  obtain ⟨value, -, θi, -, bounds, -, lo, -, up, -, x', hx, h⟩ := h
  obtain rfl := Option.some.inj h
  exact length_of_set hx

theorem shrinkLoop_shape {r : Random S D} {θ : List D} {p0 : D} : ∀ {fuel : Nat}
    {st : List D × List D × List D × S} {m m' : M} {x : List D} {s' : S}, st.1.length = paramCount m →
    shrinkLoop negInf r θ p0 fuel st m = some (x, m', s') → x.length = paramCount m ∧ SameShape m m'
  | 0, _, _, _, _, _, _, h => by cases h
  | fuel + 1, st, m, m', x, s', hst, h => by
    have hshape := targetlogp_shape L negInf hst
    unfold shrinkLoop at h
    simp only at h
    split at h
    · obtain ⟨st', hst', h⟩ := Option.bind_eq_some_iff.1 h
      have hlen : st'.1.length = paramCount m :=
        foldlM_keep (fun st => st.1.length = paramCount m) (fun i b b' hb hs => (shrinkAt_length hs).trans hb) hst hst'
      obtain ⟨hx, hm'⟩ := shrinkLoop_shape (hlen.trans hshape.paramCount_eq.symm) h
      exact ⟨hx.trans hshape.paramCount_eq, hshape.trans hm'⟩
    · cases h
      exact ⟨hst, hshape⟩

theorem sampleStep_shape {r : Random S D} {fuel : Nat} {θ θ' : List D} {w : D} {m m' : M} {s s' : S}
    (hθ : θ.length = paramCount m) (h : sampleStep negInf r fuel θ w m s = some (θ', m', s')) :
    θ'.length = paramCount m ∧ SameShape m m' := by
  have hshape := targetlogp_shape L negInf hθ
  unfold sampleStep at h
  simp only at h
  obtain ⟨hx, hm'⟩ := shrinkLoop_shape L negInf (by
    simp only [List.length_zipWith, Random.vector_length, min_self, hθ, hshape.paramCount_eq]) h
  exact ⟨hx.trans hshape.paramCount_eq, hshape.trans hm'⟩

omit L [LaboFloat D] [GPBase M D] in
theorem thinned_rows {samples N : Columns D} {thinning : Nat} (h : thinned samples thinning = some N) :
    N.rows = samples.rows := by
  unfold thinned at h
  split at h
  · cases h
  · exact (Columns.colsAt_entry h).1

/-- The samples of `slice` have a row for each parameter of the model it leaves behind. -/
theorem sliceSamples_shape {r : Random S D} {fuel numSamples numAdapts thinning : Nat} {w : D} {m m' : M}
    {s s' : S} {samples : Columns D}
    (h : sliceSamples negInf r fuel numSamples numAdapts thinning w m s = some (samples, m', s')) :
    samples.rows = paramCount m ∧ SameShape m m' := by
  unfold sliceSamples at h
  obtain ⟨⟨θ₁, m₁, s₁⟩, hadapt, h⟩ := Option.bind_eq_some_iff.1 h
  obtain ⟨⟨N, θ₂, m₂, s₂⟩, hsample, h⟩ := Option.bind_eq_some_iff.1 h
  obtain ⟨N', hthin, h⟩ := Option.bind_eq_some_iff.1 h
  cases h
  have h1 : θ₁.length = paramCount m ∧ SameShape m m₁ :=
    foldlM_keep (fun st : List D × M × S => st.1.length = paramCount m ∧ SameShape m st.2.1)
      (fun i st st' hst hstep => by
        obtain ⟨hθ, hm⟩ := sampleStep_shape L negInf (hst.1.trans hst.2.paramCount_eq.symm) hstep
        exact ⟨hθ.trans hst.2.paramCount_eq, hst.2.trans hm⟩)
      ⟨L.length_getAll m, SameShape.refl m⟩ hadapt
  have h2 : N.rows = paramCount m ∧ θ₂.length = paramCount m ∧ SameShape m m' :=
    foldlM_keep (fun st : Columns D × List D × M × S =>
        st.1.rows = paramCount m ∧ st.2.1.length = paramCount m ∧ SameShape m st.2.2.1)
      (fun i st st' hst hstep => by
        obtain ⟨⟨θ, gp, t⟩, hs, hstep⟩ := Option.bind_eq_some_iff.1 hstep
        obtain ⟨P, hP, hstep⟩ := Option.bind_eq_some_iff.1 hstep
        cases hstep
        obtain ⟨hθ, hm⟩ := sampleStep_shape L negInf (hst.2.1.trans hst.2.2.paramCount_eq.symm) hs
        exact ⟨(Columns.setCol_entry hP).1.1.trans hst.1, hθ.trans hst.2.2.paramCount_eq, hst.2.2.trans hm⟩)
      ⟨L.length_getAll m, h1⟩ hsample
  exact ⟨(thinned_rows hthin).trans h2.1, h2.2.2⟩

/-- The evaluations and the samples of AdvancedHMC are vectors as long as the first one. -/
structure SameDimension (hmc : M → List D → Nat → Nat → List (Bool × List D) × List (List D)) : Prop where
  calls : ∀ gp θ n a, ∀ c ∈ (hmc gp θ n a).1, c.2.length = θ.length
  samples : ∀ gp θ n a, ∀ v ∈ (hmc gp θ n a).2, v.length = θ.length

/-- The samples of `nuts` have a row for each parameter of the model it leaves behind. -/
theorem nutsSamples_shape {hmc : M → List D → Nat → Nat → List (Bool × List D) × List (List D)}
    (H : SameDimension hmc) {numSamples numAdapts thinning : Nat} {m m' : M} {samples : Columns D}
    (h : nutsSamples negInf hmc numSamples numAdapts thinning m = some (samples, m')) :
    samples.rows = paramCount m ∧ SameShape m m' := by
  unfold nutsSamples at h
  obtain ⟨N, hN, h⟩ := Option.bind_eq_some_iff.1 h
  obtain ⟨N', hthin, h⟩ := Option.bind_eq_some_iff.1 h
  cases h
  refine ⟨(thinned_rows hthin).trans ?_, evaluations_shape L negInf fun c hc =>
    (H.calls m _ _ numAdapts c hc).trans (L.length_getAll m)⟩
  obtain ⟨-, hrows, -⟩ := Columns.ofCols_col hN
  match hcols : (hmc m (GPBase.getParams m paramsKwargs) (numSamples + numAdapts) numAdapts).2 with
  | [] =>
    rw [hcols] at hN
    cases hN
  | v :: vs =>
    have hv := List.mem_of_mem_head? (show v ∈ (v :: vs).head? from rfl)
    rw [← hcols] at hv
    rw [← hrows v hv, H.samples m _ _ numAdapts v hv, L.length_getAll]

/-! ## The particles -/

omit [LaboFloat D] [GPBase M D] L in
/-- A list is the beginning of `v` followed by it when it repeats `v`. -/
theorem take_append_self_iff {v k : List D} (hv : v ≠ []) :
    (v ++ k).take k.length = k ↔ ∀ j < k.length, k[j]? = v[j % v.length]? := by
  have hpos := List.length_pos_of_ne_nil hv
  constructor
  · intro h j
    induction j using Nat.strongRecOn with
    | ind j ih =>
      intro hj
      have hget : k[j]? = (v ++ k)[j]? := by
        conv_lhs => rw [← h]
        rw [List.getElem?_take_of_lt hj]
      rw [hget]
      by_cases hjv : j < v.length
      · rw [List.getElem?_append_left hjv, Nat.mod_eq_of_lt hjv]
      · rw [List.getElem?_append_right (by omega), ih (j - v.length) (by omega) (by omega),
          ← Nat.mod_eq_sub_mod (by omega)]
  · intro h
    refine List.ext_getElem? fun j => ?_
    by_cases hj : j < k.length
    · rw [List.getElem?_take_of_lt hj]
      by_cases hjv : j < v.length
      · rw [List.getElem?_append_left hjv, h j hj, Nat.mod_eq_of_lt hjv]
      · rw [List.getElem?_append_right (by omega), h j hj, h (j - v.length) (by omega),
          ← Nat.mod_eq_sub_mod (by omega)]
    · rw [List.getElem?_eq_none (by rw [List.length_take]; omega), List.getElem?_eq_none (by omega)]

/-- Every particle has all the parameters of its sample. -/
def Carries (pg : ParticleGP M D) (samples : Columns D) : Prop :=
  ∀ i, 1 ≤ i → i ≤ samples.cols → ∃ c m, samples.col i = some c ∧ get pg.gp i = some m ∧
    GPBase.getParams m paramsKwargs = c

/-- The sample `v` cannot tell its mean from the mean of `gp` and from its first kernel parameters. -/
def Repeats (gp : M) (v : List D) : Prop :=
  let noise := (GPBase.logNoise gp).length
  let mean := (GPBase.mean gp).length
  mean = 0 ∨ (v.drop noise).take mean = GPBase.mean gp ∧
    ∀ j < (GPBase.kernel gp).length, v[noise + mean + j]? = v[noise + j % mean]?

omit [LaboFloat D] in
/-- What a particle has is the noise of its sample, the mean of the model, and the values behind the noise. -/
theorem localModel_params {m m' : M} {particles : Columns D} {i : Nat} {noise mean kern : List D}
    (hc : particles.col i = some (noise ++ mean ++ kern)) (hn : noise.length = (GPBase.logNoise m).length)
    (hk : kern.length = (GPBase.kernel m).length)
    (h : localModel m particles ParticleGP.defaults i = some m') :
    GPBase.getParams m' paramsKwargs = noise ++ GPBase.mean m ++ (mean ++ kern).take kern.length := by
  obtain ⟨m₀, hm₀, h1, h2, h3⟩ := L.shifted rfl hn hk
  simp only [localModel, hc, Option.bind_eq_bind, Option.bind_some] at h
  rw [hm₀] at h
  have hsame := L.updateMll m₀ m' h
  rw [L.getAll, hsame.logNoise, hsame.mean, hsame.kernel, h1, h2, h3]

omit [LaboFloat D] L in
theorem repeats_iff {m : M} {noise mean kern : List D} (hn : noise.length = (GPBase.logNoise m).length)
    (hm : mean.length = (GPBase.mean m).length) (hk : kern.length = (GPBase.kernel m).length) :
    noise ++ GPBase.mean m ++ (mean ++ kern).take kern.length = noise ++ mean ++ kern ↔
      Repeats m (noise ++ mean ++ kern) := by
  have hparts : noise ++ GPBase.mean m ++ (mean ++ kern).take kern.length = noise ++ mean ++ kern ↔
      GPBase.mean m = mean ∧ (mean ++ kern).take kern.length = kern := by
    rw [List.append_assoc, List.append_assoc, List.append_right_inj]
    exact ⟨fun h => List.append_inj h hm.symm, fun ⟨h1, h2⟩ => by rw [h1, h2]⟩
  have hdrop : ((noise ++ mean ++ kern).drop noise.length).take mean.length = mean := by
    rw [List.append_assoc, List.drop_left, List.take_left]
  have hkern : ∀ j, (noise ++ mean ++ kern)[noise.length + mean.length + j]? = kern[j]? := fun j => by
    rw [← List.length_append, List.getElem?_append_right (by omega), Nat.add_sub_cancel_left]
  rw [hparts]
  unfold Repeats
  simp only
  rw [← hn, ← hm, ← hk, hdrop]
  by_cases hmean : mean = []
  · subst hmean
    refine iff_of_true ⟨List.eq_nil_of_length_eq_zero hm.symm, ?_⟩ (.inl rfl)
    rw [List.nil_append, List.take_length]
  · have hpos := List.length_pos_of_ne_nil hmean
    have hmod : ∀ j, (noise ++ mean ++ kern)[noise.length + j % mean.length]? = mean[j % mean.length]? := fun j => by
      rw [List.append_assoc, List.getElem?_append_right (by omega), Nat.add_sub_cancel_left,
        List.getElem?_append_left (Nat.mod_lt j hpos)]
    rw [take_append_self_iff hmean]
    simp only [hkern, hmod]
    exact ⟨fun h => .inr ⟨h.1.symm, h.2⟩, fun h => (h.resolve_left (by omega)).imp Eq.symm id⟩

/-- The particles of samples as long as the parameters of a model. -/
theorem carries_iff {m : M} {samples : Columns D} {pg : ParticleGP M D} (hrows : samples.rows = paramCount m)
    (h : ParticleGP.ofParticles m samples = some pg) :
    Carries pg samples ↔ ∀ i c, samples.col i = some c → Repeats m c := by
  obtain ⟨-, hmodels⟩ := ParticleGP.weighted_gp h
  rw [List.length_replicate] at hmodels
  have hone : ∀ i c, samples.col i = some c → ∃ m', get pg.gp i = some m' ∧
      (GPBase.getParams m' paramsKwargs = c ↔ Repeats m c) := by
    intro i c hc
    obtain ⟨h1, hi⟩ := Columns.col_mem hc
    obtain ⟨noise, mean, kern, rfl, hn, hm, hk⟩ := exists_parts (hrows ▸ Columns.col_length hc)
    have hlt : i - 1 < pg.gp.length := by
      rw [pg.length_gp, (ParticleGP.weighted_gp h).1, List.length_replicate]
      omega
    obtain ⟨m', hm'⟩ : ∃ m', get pg.gp i = some m' := ⟨_, by
      rw [show i = i - 1 + 1 by omega, get_succ, List.getElem?_eq_getElem hlt]⟩
    refine ⟨m', hm', ?_⟩
    rw [localModel_params L hc hn hk ((hmodels i h1 hi).symm.trans hm')]
    exact repeats_iff hn hm hk
  constructor
  · intro hcarry i c hc
    obtain ⟨h1, hi⟩ := Columns.col_mem hc
    obtain ⟨m', hm', hiff⟩ := hone i c hc
    obtain ⟨c', m'', hc', hm'', hparams⟩ := hcarry i h1 hi
    rw [hc] at hc'
    obtain rfl := Option.some.inj hc'
    rw [hm'] at hm''
    obtain rfl := Option.some.inj hm''
    exact hiff.1 hparams
  · intro hrep i h1 hi
    obtain ⟨c, hc⟩ := Columns.col_isSome ⟨h1, hi⟩
    obtain ⟨m', hm', hiff⟩ := hone i c hc
    exact ⟨c, m', hc, hm', hiff.2 (hrep i c hc)⟩

omit L

/-! ## The particles carry their samples -/

/-- A model that is its parameters. -/
structure Params (D : Type) where
  logNoise : List D
  mean : List D
  kernel : List D

def Params.set {D : Type} (m : Params D) (v : List D) (c : Components) : Option (Params D) :=
  let noise := (part c.noise m.logNoise).length
  let mean := (part c.domean m.mean).length
  let kern := (part c.kern m.kernel).length
  if noise + mean + kern ≤ v.length then
    some { logNoise := if c.noise then v.take noise else m.logNoise,
           mean := if c.domean then (v.drop noise).take mean else m.mean,
           kernel := if c.kern then (v.drop (noise + mean)).take kern else m.kernel }
  else none

instance paramsGP (D : Type) : GPBase (Params D) D where
  logNoise := Params.logNoise
  mean := Params.mean
  kernel := Params.kernel
  dim _ := 2
  getParams m c := part c.noise m.logNoise ++ part c.domean m.mean ++ part c.kern m.kernel
  setParams := Params.set
  numParams m c := (part c.noise m.logNoise ++ part c.domean m.mean ++ part c.kern m.kernel).length
  updateMll := some
  updateTarget m := (m, none)
  updateTargetAndDtarget m := (m, none)
  dtarget _ := []

omit [LaboFloat D] in
theorem paramsGP_laysOut : LaysOut (Params D) where
  get _ _ := rfl
  set m c noise mean kern rest hn hm hk := by
    change noise.length = (part c.noise m.logNoise).length at hn
    change mean.length = (part c.domean m.mean).length at hm
    change kern.length = (part c.kern m.kernel).length at hk
    refine ⟨_, if_pos ?_, ?_, ?_, ?_⟩
    · simp only [List.length_append]
      rw [hn, hm, hk]
      omega
    · show (if c.noise then List.take _ _ else _) = _
      rw [← hn]
      simp only [List.append_assoc, List.take_left]
      rfl
    · show (if c.domean then List.take _ (List.drop _ _) else _) = _
      rw [← hn, ← hm]
      simp only [List.append_assoc, List.drop_left, List.take_left]
      rfl
    · show (if c.kern then List.take _ (List.drop _ _) else _) = _
      rw [← hn, ← hm, ← hk, ← List.length_append]
      simp only [List.append_assoc _ kern rest, List.drop_left, List.take_left]
      rfl
  updateMll m m' h := by
    obtain rfl := Option.some.inj h
    exact ⟨rfl, rfl, rfl⟩
  updateTarget _ := ⟨rfl, rfl, rfl⟩
  updateDtarget _ := ⟨rfl, rfl, rfl⟩

/-- A walk that adds one to every parameter in each of its steps. -/
def stroll (_ : Params ℚ) (θ : List ℚ) (n _ : Nat) : List (Bool × List ℚ) × List (List ℚ) :=
  ((List.range n).map fun k => (true, θ.map (· + (k + 1 : Nat))), (List.range n).map fun k => θ.map (· + (k + 1 : Nat)))

theorem stroll_dimension : SameDimension stroll where
  calls _ θ n _ c hc := by
    obtain ⟨k, -, rfl⟩ := List.mem_map.1 hc
    exact List.length_map _
  samples _ θ n _ v hv := by
    obtain ⟨k, -, rfl⟩ := List.mem_map.1 hv
    exact List.length_map _

/-- The samples inside a call of `nuts` or of `slice` on `gp`, and the model they are given to. -/
inductive Sampled (negInf : D) (gp : M) (samples : Columns D) (gp' : M) : Prop
  | nuts (hmc : M → List D → Nat → Nat → List (Bool × List D) × List (List D)) (H : SameDimension hmc)
      (numSamples numAdapts thinning : Nat)
      (h : nutsSamples negInf hmc numSamples numAdapts thinning gp = some (samples, gp'))
  | slice {S : Type} (r : Random S D) (fuel numSamples numAdapts thinning : Nat) (w : D) (s s' : S)
      (h : sliceSamples negInf r fuel numSamples numAdapts thinning w gp s = some (samples, gp', s'))

include L in
/-- The particles have the parameters of their samples exactly when every sample repeats its mean. -/
theorem particles_carry_iff {gp gp' : M} {samples : Columns D} {pg : ParticleGP M D}
    (hrun : Sampled negInf gp samples gp') (hpg : ParticleGP.ofParticles gp' samples = some pg) :
    Carries pg samples ↔ ∀ i c, samples.col i = some c → Repeats gp' c := by
  have hshape : samples.rows = paramCount gp ∧ SameShape gp gp' := by
    cases hrun with
    | nuts hmc H _ _ _ h => exact nutsSamples_shape L negInf H h
    | slice r _ _ _ _ _ _ _ h => exact sliceSamples_shape L negInf h
  exact carries_iff L (hshape.1.trans hshape.2.paramCount_eq.symm) hpg

theorem particles_carry_iff_two :
    ∃ (samples : Columns ℚ) (gp' : Params ℚ) (pg : ParticleGP (Params ℚ) ℚ),
      Sampled 0 (⟨[-2], [0], [1]⟩ : Params ℚ) samples gp' ∧ ParticleGP.ofParticles gp' samples = some pg ∧
      samples.cols = 2 ∧ (Carries pg samples ↔ ∀ i c, samples.col i = some c → Repeats gp' c) :=
  have hrun := Sampled.nuts stroll stroll_dimension 2 0 1
    (show nutsSamples 0 stroll 2 0 1 (⟨[-2], [0], [1]⟩ : Params ℚ) = some (_, _) from rfl)
  ⟨_, _, _, hrun, rfl, rfl, particles_carry_iff paramsGP_laysOut 0 hrun rfl⟩

/-- With one noise, one mean and one kernel parameter, the kernel of the first particle has the mean of its sample. -/
theorem particles_carry_shifted :
    ∃ (samples : Columns ℚ) (gp' : Params ℚ) (pg : ParticleGP (Params ℚ) ℚ),
      nutsSamples 0 stroll 2 0 1 (⟨[-2], [0], [1]⟩ : Params ℚ) = some (samples, gp') ∧
      ParticleGP.ofParticles gp' samples = some pg ∧ ¬Carries pg samples := by
  refine ⟨_, _, _, rfl, rfl, fun h => ?_⟩
  obtain ⟨c, m, hc, hm, hparams⟩ := h 1 (by decide) (by decide)
  have hcol := hc.trans (congrArg some hparams.symm)
  have hget := congrArg (Option.map fun m : Params ℚ => GPBase.getParams m paramsKwargs) hm
  have hcarry := hcol.trans hget.symm
  revert hcarry
  decide +kernel

end Bosched.Julia
