/-
The acquisition of `LABO.jl` and `acquisition.jl`: `labo` draws `y*` samples for the particles of the surrogate, and the
entropy-search `acquisition` averages over the particles what each gains at its own samples. The loop of `labo` is over
the number of particles where it should be over its range, so that it draws for the last particle alone.
-/
import Bosched.Labo.ParticleGp
import Bosched.Lib.Folds
import Bosched.Packing.Bounds

namespace Bosched.Julia

open Lib

variable {M D S : Type} [LaboFloat D]

/-! ## `acquisition.jl` -/

/-- `dot(v, w)`; `none` is a mismatch of the lengths. -/
def dot (v w : List D) : Option D :=
  if v.length = w.length then some ((List.zipWith (· * ·) v w).foldl (· + ·) 0.0) else none

/-- What is used of the packages: `predict_y`, `pdf` and `cdf` of `Normal()`, and `mean`. -/
structure Packages (M D : Type) where
  predictY : M → Columns D → List D × List D
  pdf : D → D
  cdf : D → D
  mean : List D → D

variable (pk : Packages M D)

/-- `α`. -/
def entropyGain (μ σ2 : D) (η : List D) : D :=
  let z := η.map fun y => (y - μ) / CDouble.sqrt σ2
  let ϕ := z.map pk.pdf
  let Φ := z.map fun z => pk.cdf z + 1e-20
  pk.mean (List.zipWith (· - ·) (List.zipWith (· / ·) (List.zipWith (· * ·) z ϕ) (Φ.map (2.0 * ·)))
    (Φ.map CDouble.log))

open scoped Numerals in
/-- The gain of one model at `x` with the samples `η`, marginal over time. -/
def marginalGain (x : D) (gp : TimeMarginalizedGP M D) (model : M) (η : List D) : Option D := do
  let t := gp.timeIdx
  let xt := Columns.ofFn 2 t.length fun row k => if row = 0 then LaboFloat.ofInt (t.get k) else x
  let (μ, σ2) := pk.predictY model xt
  let μ ← dot μ gp.timeW
  let σ2 ← dot σ2 gp.timeW
  return entropyGain pk μ σ2 η

/-- The loop body of `acquisition`. -/
def particleGain (x : D) (gp : TimeMarginalizedGP M D) (i : Nat) : Option D := do
  marginalGain pk x gp (← get gp.nonMargGp.gp i) (← gp.nonMargGp.η.col i)

/-- `acquisition(x, gp::TimeMarginalizedGP)`. -/
def acquisition (x : D) (gp : TimeMarginalizedGP M D) : Option D := do
  let nmgp := gp.nonMargGp
  let P := nmgp.weights.length
  let w := nmgp.weights
  let αRes ← (List.range' 1 P).foldlM (fun αRes i => do set αRes i (← particleGain pk x gp i)) (List.replicate P 0.0)
  dot αRes w

/-! ## `LABO.jl` -/

/-- What `for i in P` iterates over when `P` is a number: the number. -/
def iterated (P : Nat) : List Nat := [P]

/-- The sampling of `y*` in `labo`, with the random state and a record of the samples drawn for each particle. -/
def sampleYstars (sampleYstar : D → Nat → Nat → M → S → List D × S) (η : D) (gp : TimeMarginalizedGP M D) (s : S) :
    Option (TimeMarginalizedGP M D × List (Nat × List D) × S) := do
  let P := gp.nonMargGp.weights.length
  let numYstar := 32
  let numGridx := 1024
  let ηs := Columns.ofFn numYstar P fun _ _ => (0.0 : D)
  let (ηs, draws, s) ← (iterated P).foldlM (fun (ηs, draws, s) i => do
    let (ystar, s) := sampleYstar η numYstar numGridx (← get gp.nonMargGp.gp i) s
    return (← Columns.setCol ηs i ystar, draws ++ [(i, ystar)], s)) (ηs, [], s)
  return ({ gp with nonMargGp := { gp.nonMargGp with η := ηs } }, draws, s)

/-! ## The average over the particles -/

/-- The average of what the particles gain, particle `i` at the samples `ystars[i]`. -/
def averageGain (x : D) (gp : TimeMarginalizedGP M D) (ystars : List (List D)) : Option D := do
  let gains ← (gp.nonMargGp.gp.zip ystars).mapM fun (model, ystar) => marginalGain pk x gp model ystar
  dot gains gp.nonMargGp.weights

/-- A loop that stores a value in every place computes the list of the values. -/
theorem fill_eq_mapM {α : Type} (f : Nat → Option α) : ∀ (done rest : List α),
    (List.range' (done.length + 1) rest.length).foldlM (fun a i => do set a i (← f i)) (done ++ rest) =
      ((List.range' (done.length + 1) rest.length).mapM f).map (done ++ ·)
  | done, [] => by
    show some (done ++ []) = _
    rfl
  | done, r :: rest => by
    rw [List.length_cons, List.range'_succ, List.foldlM_cons, List.mapM_cons]
    cases hf : f (done.length + 1) with
    | none => rfl
    | some y =>
      have hset : set (done ++ r :: rest) (done.length + 1) y = some ((done ++ [y]) ++ rest) := by
        rw [set_succ y (by rw [List.length_append, List.length_cons]; omega)]
        simp only [List.set_append_right _ _ (le_refl _), Nat.sub_self, List.set_cons_zero, List.append_assoc,
          List.singleton_append]
      have ih := fill_eq_mapM f (done ++ [y]) rest
      rw [List.length_append, List.length_singleton] at ih
      simp only [Option.bind_eq_bind, Option.bind_some, hset]
      simp only [Option.bind_eq_bind] at ih
      rw [ih]
      cases (List.range' (done.length + 1 + 1) rest.length).mapM f with
      | none => rfl
      | some ys => exact congrArg some (by simp only [List.append_assoc, List.singleton_append])

theorem mapM_range'_eq {α β : Type} {f : Nat → Option β} {g : α → Option β} : ∀ {l : List α} {s : Nat},
    (∀ i a, l[i]? = some a → f (s + i) = g a) → (List.range' s l.length).mapM f = l.mapM g
  | [], _, _ => rfl
  | a :: l, s, h => by
    have h0 : f s = g a := h 0 a rfl
    rw [List.length_cons, List.range'_succ, List.mapM_cons, List.mapM_cons, h0,
      mapM_range'_eq (l := l) (s := s + 1) fun i b hb => by
        rw [show s + 1 + i = s + (i + 1) by omega]
        exact h (i + 1) b hb]

/-- The acquisition averages what each particle gains at its column. -/
theorem acquisition_eq {gp : TimeMarginalizedGP M D} {ystars : List (List D)}
    (hlen : ystars.length = gp.nonMargGp.weights.length)
    (hcol : ∀ i y, ystars[i]? = some y → gp.nonMargGp.η.col (i + 1) = some y) (x : D) :
    acquisition pk x gp = averageGain pk x gp ystars := by
  have hzip : (gp.nonMargGp.gp.zip ystars).length = gp.nonMargGp.weights.length := by
    rw [List.length_zip, gp.nonMargGp.length_gp, hlen, min_self]
  have hfill := fill_eq_mapM (particleGain pk x gp) [] (List.replicate gp.nonMargGp.weights.length (0.0 : D))
  have hmap := mapM_range'_eq (l := gp.nonMargGp.gp.zip ystars) (s := 1) (f := particleGain pk x gp)
    (g := fun (model, ystar) => marginalGain pk x gp model ystar) fun i (model, y) hi => by
      obtain ⟨hmodel, hy⟩ := List.getElem?_zip_eq_some.1 hi
      unfold particleGain
      rw [Nat.add_comm, get_succ, hmodel, hcol i y hy]
      rfl
  rw [hzip] at hmap
  rw [List.length_nil, List.length_replicate, List.nil_append] at hfill
  unfold acquisition averageGain
  simp only [Option.bind_eq_bind] at hfill hmap ⊢
  rw [hfill, zero_add, hmap]
  simp only [List.nil_append, Option.map_id_fun']
  rfl

/-! ## The samples of every particle -/

/-- Every column holds samples that were drawn for its particle, and the acquisition averages what each particle gains
at samples of its own. -/
structure OwnSamples (gp : TimeMarginalizedGP M D) (draws : List (Nat × List D)) : Prop where
  columns : ∀ i, 1 ≤ i → i ≤ gp.nonMargGp.weights.length → ∃ y, (i, y) ∈ draws ∧ gp.nonMargGp.η.col i = some y
  average : ∃ ystars, ystars.length = gp.nonMargGp.weights.length ∧
    (∀ i y, ystars[i]? = some y → (i + 1, y) ∈ draws) ∧
    ∀ (pk : Packages M D) (x : D), acquisition pk x gp = averageGain pk x gp ystars

variable {sampleYstar : D → Nat → Nat → M → S → List D × S}

/-- `sample_ystar` returns as many samples as it is asked for. -/
def SamplesAll (sampleYstar : D → Nat → Nat → M → S → List D × S) : Prop :=
  ∀ η n grid model s, (sampleYstar η n grid model s).1.length = n

/-- `labo` draws for the last particle and for no other. -/
theorem sampleYstars_last (hall : SamplesAll sampleYstar) (η : D) (gp : TimeMarginalizedGP M D)
    (hP : 1 ≤ gp.nonMargGp.weights.length) (s : S) :
    ∃ ηs y s', sampleYstars sampleYstar η gp s =
        some ({ gp with nonMargGp := { gp.nonMargGp with η := ηs } }, [(gp.nonMargGp.weights.length, y)], s') ∧
      ηs.col gp.nonMargGp.weights.length = some y := by
  obtain ⟨P, hP'⟩ : ∃ P, gp.nonMargGp.weights.length = P + 1 := ⟨gp.nonMargGp.weights.length - 1, by omega⟩
  have hlt : P < gp.nonMargGp.gp.length := by
    rw [gp.nonMargGp.length_gp]
    omega
  have hmodel : get gp.nonMargGp.gp (P + 1) = some gp.nonMargGp.gp[P] := List.getElem?_eq_getElem hlt
  obtain ⟨ηs, hset⟩ := Columns.setCol_isSome (M := Columns.ofFn 32 (P + 1) fun _ _ => (0.0 : D)) (j := P + 1)
    ⟨by omega, le_refl _⟩ (hall η 32 1024 gp.nonMargGp.gp[P] s)
  refine ⟨ηs, (sampleYstar η 32 1024 gp.nonMargGp.gp[P] s).1, (sampleYstar η 32 1024 gp.nonMargGp.gp[P] s).2, ?_, ?_⟩
  · unfold sampleYstars iterated
    rw [hP']
    simp only [List.foldlM_cons, List.foldlM_nil, hmodel, hset, Option.bind_eq_bind, Option.bind_some, Option.pure_def,
      List.nil_append]
  · rw [hP']
    exact Columns.setCol_col hset ⟨by omega, le_refl _⟩

/-- The particles have samples of their own exactly when there is one particle. -/
theorem sampleYstars_own_iff (hall : SamplesAll sampleYstar) (η : D) (gp : TimeMarginalizedGP M D)
    (hP : 1 ≤ gp.nonMargGp.weights.length) (s : S) :
    ∃ gp' draws s', sampleYstars sampleYstar η gp s = some (gp', draws, s') ∧
      (OwnSamples gp' draws ↔ gp.nonMargGp.weights.length = 1) := by
  obtain ⟨ηs, y, s', hrun, hcol⟩ := sampleYstars_last hall η gp hP s
  refine ⟨_, _, s', hrun, fun hown => ?_, fun hone => ?_⟩
  · -- nothing is drawn for the first of several particles
    obtain ⟨z, hz, -⟩ := hown.columns 1 (le_refl 1) hP
    exact (Prod.mk.inj (List.mem_singleton.1 hz)).1.symm
  · refine ⟨fun i h1 hi => ?_, [y], hone.symm, fun i z hz => ?_, fun pk x => ?_⟩
    · obtain rfl : i = gp.nonMargGp.weights.length := le_antisymm hi (by omega)
      exact ⟨y, List.mem_singleton.2 rfl, hcol⟩
    · obtain ⟨hi, rfl⟩ := List.getElem?_eq_some_iff.1 hz
      obtain rfl : i = 0 := Nat.lt_one_iff.1 hi
      rw [hone]
      exact List.mem_singleton.2 rfl
    · refine acquisition_eq pk ?_ (fun i z hz => ?_) x
      · exact hone.symm
      obtain ⟨hi, rfl⟩ := List.getElem?_eq_some_iff.1 hz
      obtain rfl : i = 0 := Nat.lt_one_iff.1 hi
      rw [hone] at hcol
      exact hcol

/-- A surrogate of two models, and a sampler whose samples are the model it is given. -/
def twoParticles : TimeMarginalizedGP ℚ ℚ where
  nonMargGp :=
    { gp := [3, 5], η := ⟨0, 0, [], rfl⟩, weights := [1 / 2, 1 / 2], dim := 2, numGpparam := 3,
      kwargs := ParticleGP.defaults, length_gp := rfl }
  timeIdx := [1]
  timeW := [1]

def modelSamples (_ : ℚ) (n _ : Nat) (model : ℚ) (s : Nat) : List ℚ × Nat := (List.replicate n model, s + n)

theorem modelSamples_all : SamplesAll modelSamples := fun _ _ _ _ _ => List.length_replicate

theorem sampleYstars_own_iff_two :
    ∃ gp' draws s', sampleYstars modelSamples 0 twoParticles 0 = some (gp', draws, s') ∧
      (OwnSamples gp' draws ↔ twoParticles.nonMargGp.weights.length = 1) :=
  sampleYstars_own_iff modelSamples_all 0 twoParticles (by decide) 0

/-- The column of the first of two particles keeps its zeros. -/
theorem sampleYstars_two :
    ∃ gp' draws s', sampleYstars modelSamples 0 twoParticles 0 = some (gp', draws, s') ∧
      gp'.nonMargGp.η.col 1 = some (List.replicate 32 0) ∧ ¬OwnSamples gp' draws := by
  refine ⟨_, _, _, rfl, by decide +kernel, fun hown => ?_⟩
  obtain ⟨y, hy, -⟩ := hown.columns 1 (le_refl 1) (by decide)
  exact absurd (Prod.mk.inj (List.mem_singleton.1 hy)).1 (by decide)

end Bosched.Julia
