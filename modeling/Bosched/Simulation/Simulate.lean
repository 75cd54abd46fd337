/-
The simulator of `simulation.jl`: the chunk rules of its schedules and the loop of `simulate`. A chunk is the range from
its start to its stop, both included, while the next one starts at that stop: the iterations at the borders are
evaluated twice, and the last chunk goes one past the last iteration.
-/
import Bosched.Labo.Numbers
import Bosched.Packing.JuliaStages

namespace Bosched

open Lib

/-- The numbers of the simulator, with `floor(Int64, x)` and `ceil(Int64, x)`. -/
class SimFloat (D : Type) extends LaboFloat D where
  floorInt : D → Int
  ceilInt : D → Int

noncomputable instance realSim : SimFloat ℝ where
  floorInt x := ⌊x⌋
  ceilInt x := ⌈x⌉

instance exactSim : SimFloat ℚ where
  floorInt x := ⌊x⌋
  ceilInt x := ⌈x⌉

namespace Julia

variable {D S : Type} [SimFloat D]

/-! ## Arithmetic -/

def ofInt (z : Int) : D := LaboFloat.ofInt z

/-- A quotient by zero is no number, and no `Int64` after it. -/
def quotient (x y : D) : Option D := if CDouble.lt y 0.0 || CDouble.lt 0.0 y then some (x / y) else none

/-- `√x`; `none` is a `DomainError`. -/
def root (x : D) : Option D := if CDouble.lt x 0.0 then none else some (CDouble.sqrt x)

/-- `x^y` for a fraction `y`; `none` is a `DomainError`. -/
def power (x y : D) : Option D := if CDouble.lt x 0.0 then none else some (CDouble.pow x y)

/-- `max(x, y)`. -/
def larger (x y : D) : D := if CDouble.lt x y then y else x

/-- `min(x, y)`. -/
def smaller (x y : D) : D := if CDouble.lt y x then y else x

/-- `i == 1`. -/
def isOne (i : D) : Bool := !CDouble.lt i 1.0 && !CDouble.lt 1.0 i

/-! ## The chunk rules -/

/-- The schedules that do not look at the cost of an iteration. -/
inductive Schedule
  | fss | fac2 | css | tss | taper | taper3 | boFss | boFac | boCss | boTss | boTaper

/-- `θ`: the parameters, and what the rules keep between their calls. An absent key is `none`. -/
structure Theta (D : Type) where
  param : Option D
  kFirst : Option D
  kLast : Option D
  kMin : Option D
  α : Option D
  μ : Option D
  σ : Option D
  kPrev : Option D
  index : Option Int
  chunk : Option Int

/-- The start and the stop of a chunk, and the parameters after the call. -/
abbrev Chunk (D : Type) := D × D × Theta D

/-- A rule that computes a size for every `P` chunks. -/
def batched (size : Option D) (i : D) (P : Nat) (θ : Theta D) : Option (Chunk D) :=
  match θ.index with
  | none | some 1 => do
    let K := SimFloat.ceilInt (← size)
    return (i, i + ofInt K, { θ with index := some P, chunk := some K })
  | some index => do return (i, i + ofInt (← θ.chunk), { θ with index := some (index - 1) })

/-- The size of a batch of the factoring rules, by the variability `b`. -/
def factored (b i R : D) (P : Nat) : Option D := do
  let x := (if isOne i then 1.0 else 2.0) + b * b + b * (← root (b * b + 4.0))
  quotient R (x * ofInt P)

/-- The size of a tapered chunk. -/
def tapered (Km v R : D) (P : Nat) : Option D := do
  let x := (← quotient R (ofInt P)) + Km / 2.0
  return larger Km (ofInt (SimFloat.ceilInt (x + v * v / 2.0 - v * (← root (2.0 * x + v * v / 4.0)))))

def chunkFss (i R : D) (P : Nat) (θ : Theta D) : Option (Chunk D) :=
  batched (do
    let b ← quotient (ofInt P * (← θ.σ)) (2.0 * (← root R) * (← θ.μ))
    factored b i R P) i P θ

def chunkBoFss (i R : D) (P : Nat) (θ : Theta D) : Option (Chunk D) :=
  batched (do
    let b := (← quotient (ofInt P) (2.0 * (← root R))) * (← θ.param)
    factored b i R P) i P θ

def chunkFac2 (i R : D) (P : Nat) (θ : Theta D) : Option (Chunk D) := batched (quotient R (2.0 * ofInt P)) i P θ

def chunkBoFac (i R : D) (P : Nat) (θ : Theta D) : Option (Chunk D) :=
  batched (do quotient (← quotient R (ofInt P)) (← θ.param)) i P θ

def chunkCss (i : D) (P N : Nat) (h : D) (θ : Theta D) : Option (Chunk D) := do
  let _μ ← θ.μ
  let K ← power (← quotient (h * (← root 2.0) * ofInt N) ((← θ.σ) * ofInt P * (← root (CDouble.log (ofInt P)))))
    (2.0 / 3.0)
  return (i, i + ofInt (SimFloat.ceilInt K), θ)

def chunkBoCss (i : D) (P N : Nat) (θ : Theta D) : Option (Chunk D) := do
  let _μ ← θ.μ
  let _σ ← θ.σ
  let K ← power ((← quotient ((← root 2.0) * ofInt N) (ofInt P * (← root (CDouble.log (ofInt P))))) * (← θ.param))
    (2.0 / 3.0)
  return (i, i + ofInt (SimFloat.ceilInt K), θ)

def chunkTss (i : D) (N : Nat) (θ : Theta D) : Option (Chunk D) := do
  let Kf ← θ.kFirst
  let Kl ← θ.kLast
  if isOne i then return (i, i + ofInt (SimFloat.ceilInt Kf), { θ with kPrev := some Kf })
  else
    let C := CDouble.ceil (← quotient (2.0 * ofInt N) (Kf + Kl))
    let δ ← quotient (Kf - Kl) (C - 1.0)
    let K := larger ((← θ.kPrev) - δ) Kl
    return (i, ofInt (SimFloat.floorInt (i + K)), { θ with kPrev := some K })

def chunkBoTss (i : D) (N : Nat) (θ : Theta D) : Option (Chunk D) := do
  let δ ← quotient 1.0 ((← θ.param) + 1e-7)
  let Kf ← root (2.0 * ofInt N * δ - 1.0)
  if isOne i then return (i, i + ofInt (SimFloat.floorInt Kf), { θ with kPrev := some Kf })
  else
    let K := larger ((← θ.kPrev) - δ) 1.0
    return (i, i + ofInt (SimFloat.floorInt K), { θ with kPrev := some K })

def chunkTaper (i R : D) (P : Nat) (θ : Theta D) : Option (Chunk D) := do
  let v ← quotient ((← θ.α) * (← θ.σ)) (← θ.μ)
  return (i, i + (← tapered (← θ.kMin) v R P), θ)

def chunkTaper3 (i R : D) (P : Nat) (θ : Theta D) : Option (Chunk D) := do
  return (i, i + (← tapered 1.0 3.0 R P), θ)

def chunkBoTaper (i R : D) (P : Nat) (θ : Theta D) : Option (Chunk D) := do
  let _μ ← θ.μ
  let _σ ← θ.σ
  return (i, i + (← tapered 1.0 (← θ.param) R P), θ)

/-- `chunk!`. -/
def chunk (sched : Schedule) (i R : D) (P N : Nat) (h : D) (θ : Theta D) : Option (Chunk D) :=
  match sched with
  | .fss => chunkFss i R P θ
  | .fac2 => chunkFac2 i R P θ
  | .css => chunkCss i P N h θ
  | .tss => chunkTss i N θ
  | .taper => chunkTaper i R P θ
  | .taper3 => chunkTaper3 i R P θ
  | .boFss => chunkBoFss i R P θ
  | .boFac => chunkBoFac i R P θ
  | .boCss => chunkBoCss i P N θ
  | .boTss => chunkBoTss i N θ
  | .boTaper => chunkBoTaper i R P θ

/-! ## `simulate` -/

/-- `collect(start:stop)`. -/
def unitRange (start stop : D) : List D :=
  if CDouble.lt stop start then []
  else (List.range (SimFloat.floorInt (stop - start) + 1).toNat).map fun k : Nat => start + ofInt k

/-- `sample_work`, with the random state after it. -/
def sampleWork (f : S → D → Nat → D × S) (N : Nat) : S → List D → List D × S
  | s, [] => ([], s)
  | s, i :: is =>
    let (w, s) := f s i N
    let (ws, s) := sampleWork f N s is
    (w :: ws, s)

/-- `sum(work)`. -/
def total (work : List D) : D := work.foldl (· + ·) 0.0

/-- The first place of the least of `m`, in place `p`, and the elements from place `k` on. -/
def argminFrom : Nat → Nat → D → List D → Nat
  | _, p, _, [] => p
  | k, p, m, x :: xs => if CDouble.lt x m then argminFrom (k + 1) k x xs else argminFrom (k + 1) p m xs

/-- `argmin(hist)`, counted from one. -/
def argmin : List D → Option Nat
  | [] => none
  | w :: ws => some (argminFrom 2 1 w ws)

/-- An evaluation of `f`, and the processor that is charged for it. -/
structure Evaluation (D : Type) where
  iteration : D
  cost : D
  processor : Nat
  deriving DecidableEq

/-- The variables of the loop, and the evaluations of `f` in their order. -/
structure SimState (D S : Type) where
  i : D
  R : D
  hist : List D
  totalW : D
  θ : Theta D
  prng : S
  evals : List (Evaluation D)

/-- The body of the loop. -/
def simulateStep (sched : Schedule) (f : S → D → Nat → D × S) (P N : Nat) (h : D) (st : SimState D S) :
    Option (SimState D S) := do
  let p ← argmin st.hist
  let (start, stop, θ) ← chunk sched st.i st.R P N h st.θ
  let K := stop - start
  let stop := start + smaller st.R K
  let range := unitRange start stop
  let (work, prng) := sampleWork f N st.prng range
  let hist ← set st.hist p ((← get st.hist p) + (h + total work))
  return { i := st.i + K, R := st.R - K, hist := hist, totalW := st.totalW + total work, θ := θ, prng := prng,
           evals := st.evals ++ (range.zip work).map fun x => ⟨x.1, x.2, p⟩ }

/-- `while(i <= N)`; `none` is an exception, or a loop that needs more rounds than the fuel. -/
def simulateLoop (sched : Schedule) (f : S → D → Nat → D × S) (P N : Nat) (h : D) :
    Nat → SimState D S → Option (SimState D S)
  | 0, st => if CDouble.lt (ofInt N) st.i then some st else none
  | fuel + 1, st =>
    if CDouble.lt (ofInt N) st.i then some st
    else do simulateLoop sched f P N h fuel (← simulateStep sched f P N h st)

/-- `simulate` up to its statistics. -/
def simulate (sched : Schedule) (f : S → D → Nat → D × S) (P N : Nat) (h : D) (θ : Theta D) (prng : S) (fuel : Nat) :
    Option (SimState D S) :=
  simulateLoop sched f P N h fuel
    { i := 1.0, R := ofInt N, hist := List.replicate P 0.0, totalW := 0.0, θ := θ, prng := prng, evals := [] }

/-! ## What a round does -/

theorem batched_spec {size : Option D} {i : D} {P : Nat} {θ θ' : Theta D} {start stop : D}
    (h : batched size i P θ = some (start, stop, θ')) : start = i ∧ ∃ z, stop = i + ofInt z := by
  unfold batched at h
  split at h <;> simp only [Option.bind_eq_bind, Option.bind_eq_some_iff, Option.pure_def] at h <;>
    obtain ⟨x, -, h⟩ := h <;> cases h <;> exact ⟨rfl, _, rfl⟩

/-- The rules but `TAPER` stop a whole number behind the start, or at a whole number. -/
def WholeStop (i stop : D) : Prop := stop = i + 1.0 ∨ ∃ z, stop = i + ofInt z ∨ stop = ofInt z

theorem tapered_whole {v R K i : D} {P : Nat} (h : tapered 1.0 v R P = some K) : WholeStop i (i + K) := by
  unfold tapered at h
  simp only [Option.bind_eq_bind, Option.bind_eq_some_iff, Option.pure_def] at h
  obtain ⟨q, -, r, -, h⟩ := h
  obtain rfl := Option.some.inj h
  unfold larger
  split
  · exact .inr ⟨_, .inl rfl⟩
  · exact .inl rfl

/-- Every rule starts its chunk where the loop stands. -/
theorem chunk_spec {sched : Schedule} {i R h : D} {P N : Nat} {θ θ' : Theta D} {start stop : D}
    (hc : chunk sched i R P N h θ = some (start, stop, θ')) : start = i ∧ (sched ≠ .taper → WholeStop i stop) := by
  have ofBatch : ∀ {size : Option D}, batched size i P θ = some (start, stop, θ') →
      start = i ∧ (sched ≠ .taper → WholeStop i stop) := fun hb =>
    (batched_spec hb).imp id fun ⟨z, hz⟩ _ => .inr ⟨z, .inl hz⟩
  cases sched with
  | fss => exact ofBatch hc
  | fac2 => exact ofBatch hc
  | boFss => exact ofBatch hc
  | boFac => exact ofBatch hc
  | css =>
    simp only [chunk, chunkCss, Option.bind_eq_bind, Option.bind_eq_some_iff, Option.pure_def] at hc
    obtain ⟨_, -, _, -, _, -, _, -, _, -, K, -, hc⟩ := hc
    cases hc
    exact ⟨rfl, fun _ => .inr ⟨_, .inl rfl⟩⟩
  | boCss =>
    simp only [chunk, chunkBoCss, Option.bind_eq_bind, Option.bind_eq_some_iff, Option.pure_def] at hc
    obtain ⟨_, -, _, -, _, -, _, -, _, -, _, -, K, -, hc⟩ := hc
    cases hc
    exact ⟨rfl, fun _ => .inr ⟨_, .inl rfl⟩⟩
  | tss =>
    simp only [chunk, chunkTss, Option.bind_eq_bind, Option.bind_eq_some_iff, Option.pure_def] at hc
    obtain ⟨Kf, -, Kl, -, hc⟩ := hc
    split at hc
    · cases hc
      exact ⟨rfl, fun _ => .inr ⟨_, .inl rfl⟩⟩
    · simp only [Option.bind_eq_some_iff] at hc
      obtain ⟨_, -, _, -, _, -, hc⟩ := hc
      cases hc
      exact ⟨rfl, fun _ => .inr ⟨_, .inr rfl⟩⟩
  | boTss =>
    simp only [chunk, chunkBoTss, Option.bind_eq_bind, Option.bind_eq_some_iff, Option.pure_def] at hc
    obtain ⟨_, -, _, -, _, -, hc⟩ := hc
    split at hc
    · cases hc
      exact ⟨rfl, fun _ => .inr ⟨_, .inl rfl⟩⟩
    · simp only [Option.bind_eq_some_iff] at hc
      obtain ⟨_, -, hc⟩ := hc
      cases hc
      exact ⟨rfl, fun _ => .inr ⟨_, .inl rfl⟩⟩
  | taper =>
    simp only [chunk, chunkTaper, Option.bind_eq_bind, Option.bind_eq_some_iff, Option.pure_def] at hc
    obtain ⟨_, -, _, -, _, -, _, -, _, -, _, -, hc⟩ := hc
    cases hc
    exact ⟨rfl, fun hne => absurd rfl hne⟩
  | taper3 =>
    simp only [chunk, chunkTaper3, Option.bind_eq_bind, Option.bind_eq_some_iff, Option.pure_def] at hc
    obtain ⟨K, hK, hc⟩ := hc
    cases hc
    exact ⟨rfl, fun _ => tapered_whole hK⟩
  | boTaper =>
    simp only [chunk, chunkBoTaper, Option.bind_eq_bind, Option.bind_eq_some_iff, Option.pure_def] at hc
    obtain ⟨_, -, _, -, _, -, K, hK, hc⟩ := hc
    cases hc
    exact ⟨rfl, fun _ => tapered_whole hK⟩

/-- A round evaluates the range from the start of its chunk, and advances by the size of the chunk. -/
theorem simulateStep_spec {sched : Schedule} {f : S → D → Nat → D × S} {P N : Nat} {h : D} {st st' : SimState D S}
    (hs : simulateStep sched f P N h st = some st') :
    ∃ stop, chunk sched st.i st.R P N h st.θ = some (st.i, stop, st'.θ) ∧ st'.i = st.i + (stop - st.i) ∧
      st'.R = st.R - (stop - st.i) ∧ ∃ p,
        let range := unitRange st.i (st.i + smaller st.R (stop - st.i))
        let work := (sampleWork f N st.prng range).1
        st'.evals = st.evals ++ (range.zip work).map (fun x => ⟨x.1, x.2, p⟩) ∧
          st'.totalW = st.totalW + total work := by
  unfold simulateStep at hs
  obtain ⟨p, -, hs⟩ := Option.bind_eq_some_iff.1 hs
  obtain ⟨⟨start, stop, θ⟩, hc, hs⟩ := Option.bind_eq_some_iff.1 hs
  obtain rfl := (chunk_spec hc).1
  obtain ⟨w, -, hs⟩ := Option.bind_eq_some_iff.1 hs
  obtain ⟨hist, -, hs⟩ := Option.bind_eq_some_iff.1 hs
  cases hs
  exact ⟨stop, hc, rfl, rfl, p, rfl, rfl⟩

/-! ## Over the reals -/

theorem lt_real {x y : ℝ} : CDouble.lt x y = true ↔ x < y := decide_eq_true_iff

theorem ofInt_real (z : Int) : (ofInt z : ℝ) = z := rfl

theorem zero_real : (0.0 : ℝ) = 0 := by norm_num

theorem one_real : (1.0 : ℝ) = 1 := by norm_num

theorem two_real : (2.0 : ℝ) = 2 := by norm_num

theorem larger_real (x y : ℝ) : larger x y = max x y := by
  unfold larger
  split
  · rename_i h
    exact (max_eq_right (lt_real.1 h).le).symm
  · rename_i h
    exact (max_eq_left (not_lt.1 fun hlt => h (lt_real.2 hlt))).symm

theorem smaller_real (x y : ℝ) : smaller x y = min x y := by
  unfold smaller
  split
  · rename_i h
    exact (min_eq_right (lt_real.1 h).le).symm
  · rename_i h
    exact (min_eq_left (not_lt.1 fun hlt => h (lt_real.2 hlt))).symm

theorem quotient_real {x y : ℝ} (hy : y ≠ 0) : quotient x y = some (x / y) := by
  unfold quotient
  rw [if_pos]
  rw [Bool.or_eq_true, lt_real, lt_real, zero_real]
  exact lt_or_gt_of_ne hy

theorem root_real {x : ℝ} (hx : 0 ≤ x) : root x = some √x := by
  unfold root
  rw [if_neg fun hlt => not_lt.2 hx (zero_real ▸ lt_real.1 hlt)]
  rfl

/-- What is in `start:stop`. -/
theorem mem_unitRange {start stop x : ℝ} : x ∈ unitRange start stop ↔ ∃ k : Nat, x = start + k ∧ x ≤ stop := by
  unfold unitRange
  split
  · rename_i hlt
    rw [lt_real] at hlt
    refine iff_of_false (List.not_mem_nil) fun ⟨k, hx, hle⟩ => ?_
    have : (0 : ℝ) ≤ k := Nat.cast_nonneg k
    linarith
  · have hfloor : ∀ k : Nat, k < (⌊stop - start⌋ + 1).toNat ↔ start + k ≤ stop := by
      intro k
      have hiff : (k : Int) ≤ ⌊stop - start⌋ ↔ ((k : Int) : ℝ) ≤ stop - start := Int.le_floor
      rw [Int.cast_natCast] at hiff
      rw [← le_sub_iff_add_le', ← hiff]
      omega
    constructor
    · intro hx
      obtain ⟨k, hk, rfl⟩ := List.mem_map.1 hx
      exact ⟨k, rfl, (hfloor k).1 (List.mem_range.1 hk)⟩
    · rintro ⟨k, rfl, hle⟩
      exact List.mem_map.2 ⟨k, List.mem_range.2 ((hfloor k).2 hle), rfl⟩

variable {sched : Schedule} {f : S → ℝ → Nat → ℝ × S} {P N : Nat} {h : ℝ}

theorem simulateLoop_cases {fuel : Nat} {st st' : SimState ℝ S} (hrun : simulateLoop sched f P N h fuel st = some st') :
    (N < st.i ∧ st' = st) ∨ (st.i ≤ N ∧ ∃ fuel' < fuel, ∃ st₁, simulateStep sched f P N h st = some st₁ ∧
      simulateLoop sched f P N h fuel' st₁ = some st') := by
  by_cases hi : (N : ℝ) < st.i
  · have hlt : CDouble.lt (ofInt N) st.i = true := lt_real.2 (by rw [ofInt_real]; exact_mod_cast hi)
    refine .inl ⟨hi, ?_⟩
    cases fuel <;> unfold simulateLoop at hrun <;> rw [if_pos hlt] at hrun <;> exact (Option.some.inj hrun).symm
  · have hge : ¬CDouble.lt (ofInt N) st.i = true := fun hlt => hi (by exact_mod_cast lt_real.1 hlt)
    cases fuel with
    | zero =>
      unfold simulateLoop at hrun
      rw [if_neg hge] at hrun
      cases hrun
    | succ fuel =>
      unfold simulateLoop at hrun
      rw [if_neg hge] at hrun
      obtain ⟨st₁, hstep, hrun⟩ := Option.bind_eq_some_iff.1 hrun
      exact .inr ⟨not_lt.1 hi, fuel, Nat.lt_succ_self fuel, st₁, hstep, hrun⟩

/-- The iterations evaluated, in their order. -/
def SimState.done (st : SimState ℝ S) : List ℝ := st.evals.map Evaluation.iteration

/-- What the evaluations cost. -/
def SimState.costs (st : SimState ℝ S) : List ℝ := st.evals.map Evaluation.cost

theorem sampleWork_length (f : S → ℝ → Nat → ℝ × S) (N : Nat) : ∀ (s : S) (range : List ℝ),
    (sampleWork f N s range).1.length = range.length
  | _, [] => rfl
  | s, i :: is => by
    unfold sampleWork
    rw [List.length_cons, List.length_cons, sampleWork_length]

theorem total_real (work : List ℝ) : total work = work.sum := by
  unfold total
  rw [List.sum_eq_foldl, zero_real]

theorem simulateStep_done {st st' : SimState ℝ S} (hs : simulateStep sched f P N h st = some st') :
    ∃ K, chunk sched st.i st.R P N h st.θ = some (st.i, st.i + K, st'.θ) ∧ st'.i = st.i + K ∧ st'.R = st.R - K ∧
      st'.done = st.done ++ unitRange st.i (st.i + min st.R K) := by
  obtain ⟨stop, hc, hi, hR, p, hevals, -⟩ := simulateStep_spec hs
  refine ⟨stop - st.i, by rw [add_sub_cancel]; exact hc, hi, hR, ?_⟩
  unfold SimState.done
  rw [hevals, List.map_append, List.map_map, smaller_real]
  exact congrArg _ (List.map_fst_zip (sampleWork_length f N _ _).ge)

/-- `total_w` is the sum of what the evaluations cost. -/
theorem simulateStep_total {st st' : SimState ℝ S} (hs : simulateStep sched f P N h st = some st')
    (htotal : st.totalW = st.costs.sum) : st'.totalW = st'.costs.sum := by
  obtain ⟨stop, -, -, -, p, hevals, hw⟩ := simulateStep_spec hs
  unfold SimState.costs at htotal ⊢
  rw [hw, htotal, total_real, hevals, List.map_append, List.sum_append, List.map_map]
  exact congrArg (_ + List.sum ·) (List.map_snd_zip (sampleWork_length f N _ _).le).symm

theorem simulateLoop_total : ∀ {fuel : Nat} {st st' : SimState ℝ S}, st.totalW = st.costs.sum →
    simulateLoop sched f P N h fuel st = some st' → st'.totalW = st'.costs.sum
  | fuel, st, st', htotal, hrun => by
    rcases simulateLoop_cases hrun with ⟨-, rfl⟩ | ⟨-, fuel', hlt, st₁, hstep, hrun⟩
    · exact htotal
    · exact simulateLoop_total (simulateStep_total hstep htotal) hrun

theorem simulateLoop_grows : ∀ {fuel : Nat} {st st' : SimState ℝ S}, simulateLoop sched f P N h fuel st = some st' →
    ∃ more, st'.done = st.done ++ more
  | fuel, st, st', hrun => by
    rcases simulateLoop_cases hrun with ⟨-, rfl⟩ | ⟨-, fuel', hlt, st₁, hstep, hrun⟩
    · exact ⟨[], (List.append_nil _).symm⟩
    · obtain ⟨K, -, -, -, hdone⟩ := simulateStep_done hstep
      obtain ⟨more, hmore⟩ := simulateLoop_grows hrun
      exact ⟨_, by rw [hmore, hdone, List.append_assoc]⟩

/-! ## Whole chunks -/

theorem WholeStop.whole {i stop : ℝ} (h : WholeStop i stop) (hi : ∃ m : Int, i = m) : ∃ m : Int, stop = m := by
  obtain ⟨m, rfl⟩ := hi
  rcases h with rfl | ⟨z, rfl | rfl⟩
  · exact ⟨m + 1, by rw [one_real]; push_cast; rfl⟩
  · exact ⟨m + z, by rw [ofInt_real]; push_cast; rfl⟩
  · exact ⟨z, rfl⟩

/-- When all chunks are whole, the last one goes on to the number behind the last iteration. -/
theorem simulateLoop_overruns (hs : sched ≠ .taper) : ∀ {fuel : Nat} {st st' : SimState ℝ S},
    (∃ m : Int, st.i = m) → st.R = N - st.i + 1 → st.i ≤ N → simulateLoop sched f P N h fuel st = some st' →
    (N + 1 : ℝ) ∈ st'.done
  | fuel, st, st', ⟨m, hm⟩, hR, hi, hrun => by
    rcases simulateLoop_cases hrun with ⟨hlt, -⟩ | ⟨-, fuel', hfuel, st₁, hstep, hrun⟩
    · exact absurd hi (not_le.2 hlt)
    · obtain ⟨K, hc, hi₁, hR₁, hdone⟩ := simulateStep_done hstep
      obtain ⟨m₁, hm₁⟩ := ((chunk_spec hc).2 hs).whole ⟨m, hm⟩
      rw [← hi₁] at hm₁
      by_cases hlast : st₁.i ≤ N
      · exact simulateLoop_overruns hs ⟨m₁, hm₁⟩ (by rw [hR₁, hi₁, hR]; ring) hlast hrun
      · obtain ⟨more, hmore⟩ := simulateLoop_grows hrun
        have hle : m ≤ N := by
          rw [hm] at hi
          exact_mod_cast hi
        have hlt : (N : Int) + 1 ≤ m₁ := by
          rw [hm₁] at hlast
          exact_mod_cast not_le.1 hlast
        have hlt' : (N + 1 : ℝ) ≤ m₁ := by exact_mod_cast hlt
        have hmin : min st.R K = st.R := min_eq_left (by linarith)
        rw [hmore, hdone, hmin, hR]
        refine List.mem_append_left _ (List.mem_append_right _ (mem_unitRange.2 ⟨((N : Int) + 1 - m).toNat, ?_, ?_⟩))
        · have hcast : (((N : Int) + 1 - m).toNat : ℝ) = N + 1 - m := by
            have := Int.toNat_of_nonneg (show 0 ≤ (N : Int) + 1 - m by omega)
            exact_mod_cast this
          rw [hcast, hm]
          ring
        · linarith

/-! ## Tapered chunks -/

open scoped Numerals in
/-- The size of a tapered chunk before its lower bound. -/
noncomputable def taperCeil (Km v R : ℝ) (P : Nat) : Int :=
  let x := R / P + Km / 2
  ⌈x + v * v / 2 - v * √(2 * x + v * v / 4)⌉

/-- The parameters of `TAPER`, for a chunk when `R` remain. -/
structure TaperSize (θ : Theta ℝ) (P : Nat) (R Km K : ℝ) : Prop where
  kMin : θ.kMin = some Km
  size : ∃ α σ μ, θ.α = some α ∧ θ.σ = some σ ∧ θ.μ = some μ ∧ μ ≠ 0 ∧ K = max Km (taperCeil Km (α * σ / μ) R P)

theorem tapered_real {Km v R : ℝ} {P : Nat} (hP : 1 ≤ P) (hKm : 0 < Km) (hR : 0 ≤ R) :
    tapered Km v R P = some (max Km (taperCeil Km v R P)) := by
  have hP0 : ((P : Int) : ℝ) ≠ 0 := by
    have : P ≠ 0 := by omega
    exact_mod_cast this
  have hx : 0 ≤ 2 * (R / P + Km / 2) + v * v / 4 := by
    have := mul_self_nonneg v
    positivity
  have h4 : (4.0 : ℝ) = 4 := by norm_num
  unfold tapered taperCeil
  rw [ofInt_real, quotient_real hP0]
  simp only [Option.bind_eq_bind, Option.bind_some, two_real, h4, Int.cast_natCast, root_real hx, larger_real,
    Option.pure_def]
  rfl

/-- What is promised of the parameters: those that are there are positive. -/
structure Positive (θ : Theta ℝ) : Prop where
  param : ∀ x, θ.param = some x → 0 < x
  kFirst : ∀ x, θ.kFirst = some x → 0 < x
  kLast : ∀ x, θ.kLast = some x → 0 < x
  kMin : ∀ x, θ.kMin = some x → 0 < x
  α : ∀ x, θ.α = some x → 0 < x
  μ : ∀ x, θ.μ = some x → 0 < x
  σ : ∀ x, θ.σ = some x → 0 < x

theorem chunkTaper_iff {θ θ' : Theta ℝ} (hθ : Positive θ) (hP : 1 ≤ P) {i R K : ℝ} (hR : 0 ≤ R) :
    chunk .taper i R P N h θ = some (i, i + K, θ') ↔ θ' = θ ∧ ∃ Km, TaperSize θ P R Km K := by
  constructor
  · intro hc
    simp only [chunk, chunkTaper, Option.bind_eq_bind, Option.bind_eq_some_iff, Option.pure_def] at hc
    obtain ⟨α, hα, σ, hσ, μ, hμ, v, hv, Km, hKm, K', hK', hc⟩ := hc
    rw [quotient_real (hθ.μ μ hμ).ne'] at hv
    obtain rfl := Option.some.inj hv
    rw [tapered_real hP (hθ.kMin Km hKm) hR] at hK'
    obtain ⟨-, hc⟩ := Prod.mk.inj (Option.some.inj hc)
    obtain ⟨hc, hθ'⟩ := Prod.mk.inj hc
    refine ⟨hθ'.symm, Km, hKm, α, σ, μ, hα, hσ, hμ, (hθ.μ μ hμ).ne', ?_⟩
    rw [Option.some.inj hK']
    exact (add_left_cancel hc).symm
  · rintro ⟨rfl, Km, hKm, α, σ, μ, hα, hσ, hμ, hne, rfl⟩
    simp only [chunk, chunkTaper, hα, hσ, hμ, hKm, quotient_real hne, tapered_real hP (hθ.kMin Km hKm) hR,
      Option.bind_eq_bind, Option.bind_some, Option.pure_def]

/-- Two chunks that are no shorter than a positive bound leave a number that is evaluated twice, or none of the
iterations. -/
theorem taper_one_chunk {θ : Theta ℝ} (hθ : Positive θ) (hP : 1 ≤ P) {fuel : Nat} {st st₁ st' : SimState ℝ S}
    (hst : st.θ = θ) (hi : st.i ≤ N) (hR : st.R = N - st.i + 1)
    (hstep : simulateStep .taper f P N h st = some st₁) (hrun : simulateLoop .taper f P N h fuel st₁ = some st')
    (hnodup : st'.done.Nodup) (hwhole : ∀ x ∈ st'.done, ∃ m : Int, x = m) : N < st₁.i := by
  obtain ⟨K, hc, hi₁, hR₁, hdone⟩ := simulateStep_done hstep
  rw [hst] at hc
  obtain ⟨hθ₁, Km, hsize⟩ := (chunkTaper_iff hθ hP (by linarith)).1 hc
  obtain ⟨α, σ, μ, -, -, -, -, hK⟩ := hsize.size
  have hKpos : 0 < K := lt_of_lt_of_le (hθ.kMin Km hsize.kMin) (hK ▸ le_max_left _ _)
  by_contra hle
  rw [not_lt] at hle
  rcases simulateLoop_cases hrun with ⟨hlt, -⟩ | ⟨-, fuel', -, st₂, hstep₂, hrun₂⟩
  · exact absurd hle (not_le.2 hlt)
  obtain ⟨K₂, hc₂, -, -, hdone₂⟩ := simulateStep_done hstep₂
  rw [hθ₁] at hc₂
  obtain ⟨-, Km₂, hsize₂⟩ := (chunkTaper_iff hθ hP (by linarith)).1 hc₂
  obtain ⟨α₂, σ₂, μ₂, -, -, -, -, hK₂⟩ := hsize₂.size
  have hK₂pos : 0 < K₂ := lt_of_lt_of_le (hθ.kMin Km₂ hsize₂.kMin) (hK₂ ▸ le_max_left _ _)
  obtain ⟨more, hmore⟩ := simulateLoop_grows hrun₂
  -- the start of each of the two chunks is evaluated
  have hfirst : st.i ∈ unitRange st.i (st.i + min st.R K) :=
    mem_unitRange.2 ⟨0, by rw [Nat.cast_zero, add_zero], by linarith [le_min (show 0 ≤ st.R by linarith) hKpos.le]⟩
  have hsecond : st₁.i ∈ unitRange st₁.i (st₁.i + min st₁.R K₂) :=
    mem_unitRange.2 ⟨0, by rw [Nat.cast_zero, add_zero], by linarith [le_min (show 0 ≤ st₁.R by linarith) hK₂pos.le]⟩
  have hsplit : st'.done = st.done ++ (unitRange st.i (st.i + min st.R K) ++
      (unitRange st₁.i (st₁.i + min st₁.R K₂) ++ more)) := by
    rw [hmore, hdone₂, hdone]
    simp only [List.append_assoc]
  obtain ⟨m, hm⟩ := hwhole st.i (by
    rw [hsplit]
    exact List.mem_append_right _ (List.mem_append_left _ hfirst))
  obtain ⟨m₁, hm₁⟩ := hwhole st₁.i (by
    rw [hsplit]
    exact List.mem_append_right _ (List.mem_append_right _ (List.mem_append_left _ hsecond)))
  -- the start of the second is the end of the first
  have hlt : m < m₁ := by
    have : (m : ℝ) < m₁ := by linarith
    exact_mod_cast this
  have hcast : ((m₁ - m).toNat : ℝ) = m₁ - m := by
    have := Int.toNat_of_nonneg (show 0 ≤ m₁ - m by omega)
    exact_mod_cast this
  have hagain : st₁.i ∈ unitRange st.i (st.i + min st.R K) :=
    mem_unitRange.2 ⟨(m₁ - m).toNat, by rw [hcast]; linarith, by rw [min_eq_right (by linarith)]; linarith⟩
  rw [hsplit] at hnodup
  have hdisj := (List.nodup_append.1 (List.nodup_append.1 hnodup).2.1).2.2
  exact hdisj st₁.i hagain st₁.i (List.mem_append_left _ hsecond) rfl

/-! ## Conservation -/

/-- `simulate` ends, having evaluated every iteration once, with the sum of their costs. -/
def Conserves (sched : Schedule) (f : S → ℝ → Nat → ℝ × S) (P N : Nat) (h : ℝ) (θ : Theta ℝ) (prng : S) : Prop :=
  ∃ fuel st, simulate sched f P N h θ prng fuel = some st ∧
    st.done.Perm ((List.range' 1 N).map fun i : Nat => (i : ℝ)) ∧ st.totalW = st.costs.sum

/-- One tapered chunk that ends between the last iteration and the number behind it. -/
def EndsBetween (θ : Theta ℝ) (P N : Nat) : Prop :=
  ∃ Km α σ μ, θ.kMin = some Km ∧ θ.α = some α ∧ θ.σ = some σ ∧ θ.μ = some μ ∧ (N : ℝ) - 1 < Km ∧ Km < N ∧
    taperCeil Km (α * σ / μ) N P ≤ Km

theorem unitRange_between (hN : 1 ≤ N) {K : ℝ} (h1 : (N : ℝ) - 1 < K) (h2 : K < N) :
    unitRange (1 : ℝ) (1 + K) = (List.range' 1 N).map fun i : Nat => (i : ℝ) := by
  have hN' : (1 : ℝ) ≤ N := by exact_mod_cast hN
  have hfloor : ⌊1 + K - 1⌋ = (N : Int) - 1 := by
    rw [Int.floor_eq_iff]
    push_cast
    constructor <;> linarith
  have hlen : (⌊1 + K - 1⌋ + 1).toNat = N := by
    rw [hfloor]
    omega
  unfold unitRange
  rw [if_neg fun hlt => by rw [lt_real] at hlt; linarith]
  show (List.range (⌊1 + K - 1⌋ + 1).toNat).map (fun k : Nat => (1 : ℝ) + ofInt k) = _
  rw [hlen, List.range'_eq_map_range, List.map_map]
  refine List.map_congr_left fun k _ => ?_
  simp only [Function.comp_apply, ofInt_real, Int.cast_natCast, Nat.cast_add, Nat.cast_one]

theorem argminFrom_range : ∀ {ws : List ℝ} {k p : Nat} {m : ℝ}, 1 ≤ p → p < k →
    1 ≤ argminFrom k p m ws ∧ argminFrom k p m ws < k + ws.length
  | [], k, p, m, h1, hp => ⟨h1, hp⟩
  | w :: ws, k, p, m, h1, hp => by
    unfold argminFrom
    rw [List.length_cons]
    split
    · obtain ⟨hq1, hq⟩ := argminFrom_range (show 1 ≤ k by omega) (show k < k + 1 by omega)
      exact ⟨hq1, by omega⟩
    · obtain ⟨hq1, hq⟩ := argminFrom_range h1 (show p < k + 1 by omega)
      exact ⟨hq1, by omega⟩

theorem argmin_range {hist : List ℝ} (hhist : hist ≠ []) : ∃ p, argmin hist = some p ∧ 1 ≤ p ∧ p ≤ hist.length := by
  cases hist with
  | nil => exact absurd rfl hhist
  | cons w ws =>
    obtain ⟨h1, hlt⟩ := argminFrom_range (le_refl 1) Nat.one_lt_two
    exact ⟨_, rfl, h1, by rw [List.length_cons]; omega⟩

/-- A round whose rule gives a chunk does not fail. -/
theorem simulateStep_isSome {st : SimState ℝ S} (hhist : st.hist ≠ []) {start stop : ℝ} {θ' : Theta ℝ}
    (hc : chunk sched st.i st.R P N h st.θ = some (start, stop, θ')) :
    ∃ st', simulateStep sched f P N h st = some st' := by
  obtain ⟨p, hp, h1, hle⟩ := argmin_range hhist
  obtain ⟨p, rfl⟩ : ∃ k, p = k + 1 := ⟨p - 1, by omega⟩
  have hget : get st.hist (p + 1) = some st.hist[p] := List.getElem?_eq_getElem hle
  unfold simulateStep
  simp only [hp, hc, hget, Option.bind_eq_bind, Option.bind_some, set_succ _ hle, Option.pure_def]
  exact ⟨_, rfl⟩

/-- The number behind the last iteration is past the end of a chunk, or the chunk is as long as all iterations. -/
theorem past_of_size {K : ℝ} (hK : (N : ℝ) ≤ K) : (N + 1 : ℝ) ∈ unitRange (1 : ℝ) (1 + min (N : ℝ) K) := by
  rw [min_eq_left hK]
  exact mem_unitRange.2 ⟨N, by ring, by linarith⟩

theorem conserves_of_endsBetween (hN : 1 ≤ N) (hP : 1 ≤ P) {θ : Theta ℝ} (hθ : Positive θ) (prng : S)
    (hend : EndsBetween θ P N) : Conserves .taper f P N h θ prng := by
  obtain ⟨Km, α, σ, μ, hKm, hα, hσ, hμ, h1, h2, hceil⟩ := hend
  have hN' : (1 : ℝ) ≤ N := by exact_mod_cast hN
  let st : SimState ℝ S :=
    { i := 1.0, R := ofInt N, hist := List.replicate P 0.0, totalW := 0.0, θ := θ, prng := prng, evals := [] }
  have hsize : TaperSize θ P N Km Km := ⟨hKm, α, σ, μ, hα, hσ, hμ, (hθ.μ μ hμ).ne', (max_eq_left hceil).symm⟩
  have hc : chunk .taper st.i st.R P N h st.θ = some (st.i, st.i + Km, θ) :=
    (chunkTaper_iff hθ hP (by show (0 : ℝ) ≤ N; linarith)).2 ⟨rfl, Km, hsize⟩
  have hhist : st.hist ≠ [] := by
    show List.replicate P (0.0 : ℝ) ≠ []
    rw [Ne, List.replicate_eq_nil_iff]
    omega
  obtain ⟨st₁, hstep⟩ := simulateStep_isSome (f := f) hhist hc
  obtain ⟨K, hc₁, hi₁, -, hdone⟩ := simulateStep_done hstep
  obtain rfl : K = Km := by
    rw [hc] at hc₁
    obtain ⟨-, hc₁⟩ := Prod.mk.inj (Option.some.inj hc₁)
    exact (add_left_cancel (Prod.mk.inj hc₁).1).symm
  have hst : st.i = 1 := one_real
  have hlt : CDouble.lt (ofInt N) st₁.i = true := by
    rw [lt_real, ofInt_real, hi₁, hst]
    push_cast
    linarith
  have hge : ¬CDouble.lt (ofInt N) st.i = true := by
    rw [lt_real, ofInt_real, hst]
    push_cast
    linarith
  refine ⟨1, st₁, ?_, ?_, simulateStep_total hstep zero_real⟩
  · show simulateLoop .taper f P N h 1 st = some st₁
    unfold simulateLoop
    rw [if_neg hge, hstep]
    show simulateLoop .taper f P N h 0 st₁ = some st₁
    unfold simulateLoop
    rw [if_pos hlt]
  · rw [hdone, hst, show st.R = (N : ℝ) from rfl, min_eq_right h2.le, unitRange_between hN h1 h2]
    exact List.Perm.refl _

/-- A run that evaluates every iteration once evaluates nothing else, and nothing twice. -/
theorem done_of_perm {done : List ℝ} (hperm : done.Perm ((List.range' 1 N).map fun i : Nat => (i : ℝ))) :
    done.Nodup ∧ (∀ x ∈ done, ∃ m : Int, x = m) ∧ (N + 1 : ℝ) ∉ done := by
  have hmem : ∀ x ∈ done, ∃ m : Nat, m ≤ N ∧ x = m := by
    intro x hx
    obtain ⟨m, hm, rfl⟩ := List.mem_map.1 (hperm.mem_iff.1 hx)
    exact ⟨m, by have := (List.mem_range'_1.1 hm).2; omega, rfl⟩
  refine ⟨hperm.nodup_iff.2 (List.Nodup.map Nat.cast_injective List.nodup_range'), fun x hx => ?_, fun hx => ?_⟩
  · obtain ⟨m, -, rfl⟩ := hmem x hx
    exact ⟨m, (Int.cast_natCast m).symm⟩
  · obtain ⟨m, hm, heq⟩ := hmem _ hx
    have : N + 1 = m := by exact_mod_cast heq
    omega

theorem not_conserves_of_whole (hs : sched ≠ .taper) (hN : 1 ≤ N) (θ : Theta ℝ) (prng : S) :
    ¬Conserves sched f P N h θ prng := by
  rintro ⟨fuel, st, hrun, hperm, -⟩
  refine (done_of_perm hperm).2.2 (simulateLoop_overruns hs ⟨1, by rw [one_real, Int.cast_one]⟩ ?_ ?_ hrun)
  · show (N : ℝ) = N - 1.0 + 1
    rw [one_real]
    ring
  · show (1.0 : ℝ) ≤ N
    rw [one_real]
    exact_mod_cast hN

theorem endsBetween_of_conserves (hN : 1 ≤ N) (hP : 1 ≤ P) {θ : Theta ℝ} (hθ : Positive θ) {prng : S}
    (hcons : Conserves .taper f P N h θ prng) : EndsBetween θ P N := by
  have hN' : (1 : ℝ) ≤ N := by exact_mod_cast hN
  obtain ⟨fuel, st, hrun, hperm, -⟩ := hcons
  obtain ⟨hnodup, hwhole, hpast⟩ := done_of_perm hperm
  rcases simulateLoop_cases hrun with ⟨hlt, -⟩ | ⟨-, fuel', -, st₁, hstep, hrun₁⟩
  · exact absurd hN' (not_le.2 (one_real ▸ hlt))
  have hone := taper_one_chunk hθ hP rfl (by rw [one_real]; exact hN')
    (by show (N : ℝ) = N - 1.0 + 1; rw [one_real]; ring) hstep hrun₁ hnodup hwhole
  obtain ⟨K, hc, hi₁, -, hdone⟩ := simulateStep_done hstep
  obtain ⟨-, Km, hKm, α, σ, μ, hα, hσ, hμ, -, hK⟩ :=
    (chunkTaper_iff hθ hP (show (0 : ℝ) ≤ (N : Int) by push_cast; linarith)).1 hc
  rw [Int.cast_natCast] at hK
  obtain ⟨more, hmore⟩ := simulateLoop_grows hrun₁
  have hlow : (N : ℝ) - 1 < K := by
    rw [hi₁, one_real] at hone
    linarith
  have hhigh : K < N := by
    by_contra hge
    refine hpast ?_
    rw [hmore, hdone, one_real]
    exact List.mem_append_left _ (List.mem_append_right _ (past_of_size (not_lt.1 hge)))
  -- the size is no integer
  rcases max_choice Km (taperCeil Km (α * σ / μ) N P : ℝ) with hmax | hmax
  · rw [hmax] at hK
    subst hK
    exact ⟨K, α, σ, μ, hKm, hα, hσ, hμ, hlow, hhigh, max_eq_left_iff.1 hmax⟩
  · rw [hmax] at hK
    rw [hK] at hlow hhigh
    have hlow' : (N : Int) - 1 < taperCeil Km (α * σ / μ) N P := by exact_mod_cast hlow
    have hhigh' : taperCeil Km (α * σ / μ) N P < N := by exact_mod_cast hhigh
    omega

/-- `simulate` evaluates every iteration once exactly when it makes one chunk of a size that is not whole. -/
theorem simulate_conserves_iff (hN : 1 ≤ N) (hP : 1 ≤ P) {θ : Theta ℝ} (hθ : Positive θ) (prng : S) :
    Conserves sched f P N h θ prng ↔ sched = .taper ∧ EndsBetween θ P N := by
  constructor
  · intro hcons
    by_cases hs : sched = .taper
    · subst hs
      exact ⟨rfl, endsBetween_of_conserves hN hP hθ hcons⟩
    · exact absurd hcons (not_conserves_of_whole hs hN θ prng)
  · rintro ⟨rfl, hend⟩
    exact conserves_of_endsBetween hN hP hθ prng hend

/-- The parameters of a schedule that has none. -/
def noTheta (D : Type) : Theta D := ⟨none, none, none, none, none, none, none, none, none, none⟩

theorem noTheta_positive : Positive (noTheta ℝ) :=
  ⟨nofun, nofun, nofun, nofun, nofun, nofun, nofun⟩

theorem simulate_conserves_iff_four :
    Conserves .fac2 (fun s i _ => (i, s)) 2 4 1 (noTheta ℝ) () ↔ Schedule.fac2 = .taper ∧ EndsBetween (noTheta ℝ) 2 4 :=
  simulate_conserves_iff (by decide) (by decide) noTheta_positive ()

/-- Four iterations for two processors, each as costly as its number. -/
theorem simulate_four_not_conserves : ¬Conserves .fac2 (fun s i _ => (i, s)) 2 4 1 (noTheta ℝ) () :=
  have hs : Schedule.fac2 ≠ .taper := nofun
  not_conserves_of_whole hs (by decide) _ _

-- the same run over the rational numbers
example : (simulate .fac2 (fun s i _ => (i, s)) 2 4 1 (noTheta ℚ) () 4).map
    (fun st => (st.evals.map Evaluation.iteration, st.totalW)) = some ([1, 2, 2, 3, 3, 4, 4, 5], 24) := by
  decide +kernel

end Julia

end Bosched
