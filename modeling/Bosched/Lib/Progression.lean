/-
Counted loops over an arithmetic progression: the values `start, start + incr, …` before `fin`
in the direction of `incr`, how many there are, and what it means for a list of chunks `[s, e)`
to tile them. A cursor that only moves forward and hands out what it passes (`Claimed`) tiles the
loop once it has reached the end.
-/
import Mathlib.Tactic

namespace Bosched.Lib

/-! ## The direction of a loop -/

/-- `v` comes strictly before `w` in the direction of `incr`. -/
def Before (incr v w : Int) : Prop := if 0 < incr then v < w else w < v

instance (incr v w : Int) : Decidable (Before incr v w) := by unfold Before; infer_instance

theorem before_pos {incr : Int} (h : 0 < incr) (v w : Int) : Before incr v w ↔ v < w := by
  unfold Before; rw [if_pos h]

theorem before_neg {incr : Int} (h : ¬ 0 < incr) (v w : Int) : Before incr v w ↔ w < v := by
  unfold Before; rw [if_neg h]

theorem Before.trans {incr u v w : Int} (h1 : Before incr u v) (h2 : Before incr v w) : Before incr u w := by
  by_cases hp : 0 < incr
  · rw [before_pos hp] at *; omega
  · rw [before_neg hp] at *; omega

theorem before_irrefl (incr v : Int) : ¬ Before incr v v := by
  unfold Before; split <;> omega

theorem Before.asymm {incr v w : Int} (h : Before incr v w) : ¬ Before incr w v :=
  fun h' => before_irrefl incr v (h.trans h')

theorem Before.of_not_before {incr u v w : Int} (h : ¬ Before incr v u) (h' : Before incr v w) : Before incr u w := by
  by_cases hp : 0 < incr
  · rw [before_pos hp] at *; omega
  · rw [before_neg hp] at *; omega

theorem eq_of_not_before {incr v w : Int} (h : ¬ Before incr v w) (h' : ¬ Before incr w v) : v = w := by
  by_cases hp : 0 < incr
  · rw [before_pos hp] at h h'; omega
  · rw [before_neg hp] at h h'; omega

theorem before_sub_iff (incr u v w : Int) : Before incr (v - u) w ↔ Before incr v (u + w) := by
  by_cases hp : 0 < incr
  · rw [before_pos hp, before_pos hp]; omega
  · rw [before_neg hp, before_neg hp]; omega

/-! ## Loops -/

/-- A counted loop: `for (v = start; v before fin; v += incr)`. -/
structure Loop where
  start : Int
  fin : Int
  incr : Int
  incr_ne : incr ≠ 0

namespace Loop

/-- The number of iterations. -/
def trip (l : Loop) : Nat :=
  if 0 < l.incr then ((l.fin - l.start + l.incr - 1) / l.incr).toNat
  else ((l.start - l.fin - l.incr - 1) / -l.incr).toNat

/-- The value of iteration `k`. -/
def value (l : Loop) (k : Nat) : Int := l.start + k * l.incr

/-- The values the loop runs through, in order. -/
def values (l : Loop) : List Int := (List.range l.trip).map l.value

/-- Where a cursor stands that has passed `k` iterations: on the next value, or on `fin`. -/
def pos (l : Loop) (k : Nat) : Int := if k < l.trip then l.value k else l.fin

/-- The loop a chunk `[s, e)` runs. -/
def chunk (l : Loop) (c : Int × Int) : Loop := { l with start := c.1, fin := c.2 }

@[simp] theorem chunk_start (l : Loop) (c : Int × Int) : (l.chunk c).start = c.1 := rfl
@[simp] theorem chunk_fin (l : Loop) (c : Int × Int) : (l.chunk c).fin = c.2 := rfl
@[simp] theorem chunk_incr (l : Loop) (c : Int × Int) : (l.chunk c).incr = l.incr := rfl

theorem value_zero (l : Loop) : l.value 0 = l.start := by simp [value]

theorem value_add (l : Loop) (j k : Nat) : l.value (j + k) = l.value j + k * l.incr := by
  unfold value; push_cast; ring

/-- Iteration `k` exists exactly when its value comes before `fin`. -/
theorem before_fin_iff (l : Loop) (k : Nat) : Before l.incr (l.value k) l.fin ↔ k < l.trip := by
  unfold trip value
  by_cases h : 0 < l.incr
  · have hk : (k + 1 : Int) * l.incr = k * l.incr + l.incr := by ring
    rw [before_pos h, if_pos h, Int.lt_toNat, ← Int.add_one_le_iff (a := (k : Int)), Int.le_ediv_iff_mul_le h, hk]
    constructor <;> intro h' <;> omega
  · have h0 : 0 < -l.incr := by have := l.incr_ne; omega
    have hk : (k + 1 : Int) * -l.incr = -(k * l.incr) - l.incr := by ring
    rw [before_neg h, if_neg h, Int.lt_toNat, ← Int.add_one_le_iff (a := (k : Int)), Int.le_ediv_iff_mul_le h0, hk]
    constructor <;> intro h' <;> omega

theorem before_value_iff (l : Loop) (j k : Nat) : Before l.incr (l.value j) (l.value k) ↔ j < k := by
  unfold value
  by_cases h : 0 < l.incr
  · rw [before_pos h, Int.add_lt_add_iff_left, Int.mul_lt_mul_right h]
    exact Int.ofNat_lt
  · have h0 : l.incr < 0 := by have := l.incr_ne; omega
    rw [before_neg h, Int.add_lt_add_iff_left, mul_lt_mul_right_of_neg h0]
    exact Int.ofNat_lt

/-- An iteration comes before a cursor exactly when the cursor has passed it. -/
theorem before_pos_iff (l : Loop) {j : Nat} (hj : j < l.trip) (k : Nat) :
    Before l.incr (l.value j) (l.pos k) ↔ j < k := by
  unfold Loop.pos
  split
  · exact l.before_value_iff j k
  · rw [before_fin_iff]; omega

theorem pos_of_lt (l : Loop) {k : Nat} (h : k < l.trip) : l.pos k = l.value k := if_pos h

theorem pos_trip (l : Loop) : l.pos l.trip = l.fin := if_neg (lt_irrefl _)

/-- A cursor starts on the start, also of a loop without iterations that ends there. -/
theorem pos_zero (l : Loop) (h : ¬ Before l.incr l.fin l.start) : l.pos 0 = l.start := by
  unfold pos
  split
  · exact l.value_zero
  · rename_i ht
    rw [← before_fin_iff, value_zero] at ht
    exact eq_of_not_before h ht

theorem trip_eq_zero_iff (l : Loop) : l.trip = 0 ↔ ¬ Before l.incr l.start l.fin := by
  have h := l.before_fin_iff 0
  rw [value_zero] at h
  rw [h]
  omega

theorem pos_inj (l : Loop) {j k : Nat} (hj : j ≤ l.trip) (hk : k ≤ l.trip) (h : l.pos j = l.pos k) : j = k := by
  rcases lt_trichotomy j k with hlt | rfl | hlt
  · have := (l.before_pos_iff (by omega : j < l.trip) k).2 hlt
    rw [← h, l.pos_of_lt (by omega)] at this
    exact absurd this (before_irrefl _ _)
  · rfl
  · have := (l.before_pos_iff (by omega : k < l.trip) j).2 hlt
    rw [h, l.pos_of_lt (by omega)] at this
    exact absurd this (before_irrefl _ _)

/-- The truncated quotient of what remains at iteration `k` counts iterations that all exist. -/
theorem add_lt_trip (l : Loop) {k c : Nat} (hk : k < l.trip) (hc : (c : Int) < (l.fin - l.value k).tdiv l.incr) :
    k + c < l.trip := by
  have hb := (l.before_fin_iff k).2 hk
  rw [← before_fin_iff, value_add]
  by_cases h : 0 < l.incr
  · rw [before_pos h] at hb ⊢
    rw [Int.tdiv_eq_ediv_of_nonneg (by omega), ← Int.add_one_le_iff, Int.le_ediv_iff_mul_le h] at hc
    have : ((c : Int) + 1) * l.incr = c * l.incr + l.incr := by ring
    omega
  · have h0 : 0 < -l.incr := by have := l.incr_ne; omega
    rw [before_neg h] at hb ⊢
    rw [← Int.neg_tdiv_neg, Int.tdiv_eq_ediv_of_nonneg (by omega), ← Int.add_one_le_iff,
      Int.le_ediv_iff_mul_le h0] at hc
    have : ((c : Int) + 1) * -l.incr = -(c * l.incr) - l.incr := by ring
    omega

theorem tdiv_nonneg (l : Loop) {k : Nat} (hk : k < l.trip) : 0 ≤ (l.fin - l.value k).tdiv l.incr := by
  have hb := (l.before_fin_iff k).2 hk
  by_cases h : 0 < l.incr
  · rw [before_pos h] at hb
    exact Int.tdiv_nonneg (by omega) (by omega)
  · rw [before_neg h] at hb
    exact Int.tdiv_nonneg_of_nonpos_of_nonpos (by omega) (by omega)

/-- The truncated quotient of what remains goes down by the iterations taken. -/
theorem tdiv_value_add (l : Loop) {k c : Nat} (hq : k + c < l.trip) :
    (l.fin - l.value (k + c)).tdiv l.incr = (l.fin - l.value k).tdiv l.incr - c := by
  have hb := (l.before_fin_iff (k + c)).2 hq
  have hk := (l.before_fin_iff k).2 (by omega : k < l.trip)
  have hval := l.value_add k c
  by_cases h : 0 < l.incr
  · rw [before_pos h] at hb hk
    rw [Int.tdiv_eq_ediv_of_nonneg (by omega), Int.tdiv_eq_ediv_of_nonneg (by omega), hval, ← sub_sub,
      Int.sub_mul_ediv_right _ _ l.incr_ne]
  · rw [before_neg h] at hb hk
    have h0 : -l.incr ≠ 0 := neg_ne_zero.2 l.incr_ne
    rw [← Int.neg_tdiv_neg, ← Int.neg_tdiv_neg (l.fin - l.value k), Int.tdiv_eq_ediv_of_nonneg (by omega),
      Int.tdiv_eq_ediv_of_nonneg (by omega), ← Int.sub_mul_ediv_right _ _ h0, hval]
    congr 1
    ring

/-- The truncated quotient of a loop with iterations is their number exactly when the loop steps onto its end. -/
theorem tdiv_eq_trip_iff (l : Loop) (h : 0 < l.trip) :
    (l.fin - l.start).tdiv l.incr = l.trip ↔ l.incr ∣ l.fin - l.start := by
  constructor
  · intro hq
    -- one iteration more would start at or past the end, and the quotient is rounded towards zero
    have hnot := (l.before_fin_iff l.trip).not.2 (lt_irrefl _)
    have hb := (l.before_fin_iff 0).2 h
    rw [value_zero] at hb
    unfold value at hnot
    rw [← hq] at hnot
    have hmod := Int.mul_tdiv_add_tmod (l.fin - l.start) l.incr
    have hcomm : l.incr * (l.fin - l.start).tdiv l.incr = (l.fin - l.start).tdiv l.incr * l.incr := Int.mul_comm _ _
    apply Int.dvd_of_tmod_eq_zero
    by_cases hp : 0 < l.incr
    · rw [before_pos hp] at hb hnot
      have := Int.tmod_nonneg (a := l.fin - l.start) l.incr (by omega)
      omega
    · rw [before_neg hp] at hb hnot
      have := Int.tmod_nonneg (a := -(l.fin - l.start)) l.incr (by omega)
      rw [Int.neg_tmod] at this
      omega
  · rintro ⟨q, hq⟩
    rw [hq, Int.mul_tdiv_cancel_left _ l.incr_ne]
    have hq0 : 0 ≤ q := by
      have := l.tdiv_nonneg h
      rwa [value_zero, hq, Int.mul_tdiv_cancel_left _ l.incr_ne] at this
    have hfin : l.fin = l.value q.toNat := by
      unfold value
      rw [Int.toNat_of_nonneg hq0, Int.mul_comm]
      omega
    have hk : ∀ k, k < l.trip ↔ k < q.toNat := fun k => by rw [← before_fin_iff, hfin, before_value_iff]
    have h1 := hk l.trip
    have h2 := hk q.toNat
    omega

/-- The values lie between the start and the end. -/
theorem value_between (l : Loop) {k : Nat} (hk : k < l.trip) :
    (l.start ≤ l.value k ∧ l.value k < l.fin) ∨ (l.fin < l.value k ∧ l.value k ≤ l.start) := by
  have hb := (l.before_fin_iff k).2 hk
  have hn : (0 : Int) ≤ k := Int.natCast_nonneg k
  by_cases h : 0 < l.incr
  · rw [before_pos h] at hb
    have : 0 ≤ k * l.incr := Int.mul_nonneg hn (by omega)
    exact .inl ⟨by unfold value; omega, hb⟩
  · rw [before_neg h] at hb
    have : k * l.incr ≤ 0 := Int.mul_nonpos_of_nonneg_of_nonpos hn (by omega)
    exact .inr ⟨hb, by unfold value; omega⟩

/-- A chunk between two cursors runs exactly the iterations between them. -/
theorem chunk_trip (l : Loop) {p q : Nat} (hpq : p < q) (hq : q ≤ l.trip) :
    (l.chunk (l.pos p, l.pos q)).trip = q - p := by
  have key : ∀ k, k < (l.chunk (l.pos p, l.pos q)).trip ↔ k < q - p := by
    intro k
    rw [← before_fin_iff]
    have hv : (l.chunk (l.pos p, l.pos q)).value k = l.value (p + k) := by
      rw [value_add, ← l.pos_of_lt (by omega : p < l.trip)]; rfl
    rw [hv]
    by_cases hk : p + k < l.trip
    · rw [chunk_incr, chunk_fin, l.before_pos_iff hk]; omega
    · constructor
      · intro hb
        have hqt : ¬ q < l.trip ∨ q < l.trip := by omega
        rcases hqt with h | h
        · have hfin : l.pos q = l.fin := if_neg h
          rw [chunk_incr, chunk_fin, hfin, before_fin_iff] at hb
          omega
        · rw [chunk_incr, chunk_fin, l.pos_of_lt h, before_value_iff] at hb
          omega
      · intro hb; omega
  have h1 := key (q - p)
  have h2 := key (l.chunk (l.pos p, l.pos q)).trip
  omega

theorem chunk_values (l : Loop) {p q : Nat} (hpq : p < q) (hq : q ≤ l.trip) :
    (l.chunk (l.pos p, l.pos q)).values = (List.range (q - p)).map fun k => l.value (p + k) := by
  unfold values
  rw [l.chunk_trip hpq hq]
  apply List.map_congr_left
  intro k _
  rw [value_add, ← l.pos_of_lt (by omega : p < l.trip)]
  rfl

end Loop

/-! ## Tilings -/

/-- The value `v` lies in the chunk `[c.1, c.2)`, read in the direction of `incr`. -/
def Covers (incr : Int) (c : Int × Int) (v : Int) : Prop := ¬ Before incr v c.1 ∧ Before incr v c.2

instance (incr : Int) (c : Int × Int) (v : Int) : Decidable (Covers incr c v) := by
  unfold Covers; infer_instance

/-- The chunks tile the loop: every iteration lies in exactly one of them, none starts before the
loop or reaches past `fin`, none is empty, and running them in their order runs the loop. -/
structure Tiles (l : Loop) (cs : List (Int × Int)) : Prop where
  once : ∀ k < l.trip, cs.countP (fun c => Covers l.incr c (l.value k)) = 1
  within : ∀ c ∈ cs, ¬ Before l.incr c.1 l.start ∧ ¬ Before l.incr l.fin c.2
  nonempty : ∀ c ∈ cs, Before l.incr c.1 c.2
  run : cs.flatMap (fun c => (l.chunk c).values) = l.values

theorem tiles_nil {l : Loop} (h : l.trip = 0) : Tiles l [] := by
  refine ⟨fun k hk => ?_, nofun, nofun, ?_⟩
  · omega
  · unfold Loop.values
    rw [h]; rfl

/-- Nothing tiles a loop that ends at its start. -/
theorem Tiles.eq_nil {l : Loop} {cs : List (Int × Int)} (h : Tiles l cs) (hl : l.fin = l.start) : cs = [] := by
  rw [List.eq_nil_iff_forall_not_mem]
  intro c hc
  obtain ⟨h1, h2⟩ := h.within c hc
  rw [hl] at h2
  exact h2 ((h.nonempty c hc).of_not_before h1)

/-- The chunks handed out by a forward cursor that now stands at `p`, oldest first. -/
inductive Claimed (l : Loop) : List (Int × Int) → Nat → Prop
  | nil : Claimed l [] 0
  | snoc {cs : List (Int × Int)} {p q : Nat} (h : Claimed l cs p) (hpq : p < q) (hq : q ≤ l.trip) :
      Claimed l (cs ++ [(l.pos p, l.pos q)]) q

namespace Claimed

variable {l : Loop} {cs : List (Int × Int)} {p : Nat}

theorem le_trip (h : Claimed l cs p) : p ≤ l.trip := by
  cases h with
  | nil => exact Nat.zero_le _
  | snoc _ _ hq => exact hq

theorem eq_nil (h : Claimed l cs p) (h0 : l.trip = 0) : cs = [] := by
  cases h with
  | nil => rfl
  | snoc _ hpq hq => omega

/-- Every chunk moves the cursor. -/
theorem length_le (h : Claimed l cs p) : cs.length ≤ p := by
  induction h with
  | nil => exact le_refl 0
  | snoc _ hpq _ ih =>
    rw [List.length_append, List.length_singleton]
    omega

/-- Every handed-out chunk lies between two cursor positions. -/
theorem mem (h : Claimed l cs p) : ∀ c ∈ cs, ∃ a b, a < b ∧ b ≤ p ∧ b ≤ l.trip ∧ c = (l.pos a, l.pos b) := by
  induction h with
  | nil => intro c hc; cases hc
  | @snoc cs p q _ hpq hq ih =>
    intro c hc
    rcases List.mem_append.1 hc with hc | hc
    · obtain ⟨a, b, hab, hbp, hbt, rfl⟩ := ih c hc
      exact ⟨a, b, hab, by omega, hbt, rfl⟩
    · rw [List.mem_singleton] at hc
      exact ⟨p, q, hpq, le_refl _, hq, hc⟩

theorem covers_iff {a b k : Nat} (hk : k < l.trip) :
    Covers l.incr (l.pos a, l.pos b) (l.value k) ↔ a ≤ k ∧ k < b := by
  unfold Covers
  rw [l.before_pos_iff hk, l.before_pos_iff hk]; omega

/-- An iteration is covered once if the cursor has passed it, and not at all before that. -/
theorem countP (h : Claimed l cs p) {k : Nat} (hk : k < l.trip) :
    cs.countP (fun c => Covers l.incr c (l.value k)) = if k < p then 1 else 0 := by
  induction h with
  | nil => simp
  | @snoc cs p q _ hpq hq ih =>
    rw [List.countP_append, ih, List.countP_singleton]
    simp only [decide_eq_true_eq, covers_iff hk]
    split <;> split <;> split <;> omega

theorem run (h : Claimed l cs p) :
    cs.flatMap (fun c => (l.chunk c).values) = (List.range p).map l.value := by
  induction h with
  | nil => rfl
  | @snoc cs p q _ hpq hq ih =>
    rw [List.flatMap_append, ih, List.flatMap_singleton, l.chunk_values hpq hq]
    obtain ⟨d, rfl⟩ : ∃ d, q = p + d := ⟨q - p, by omega⟩
    rw [Nat.add_sub_cancel_left, List.range_add, List.map_append, List.map_map]
    rfl

theorem nonempty (h : Claimed l cs p) : ∀ c ∈ cs, Before l.incr c.1 c.2 := by
  intro c hc
  obtain ⟨a, b, hab, -, hb, rfl⟩ := h.mem c hc
  rw [l.pos_of_lt (by omega : a < l.trip)]
  exact (l.before_pos_iff (by omega) b).2 hab

theorem within (h : Claimed l cs p) : ∀ c ∈ cs, ¬ Before l.incr c.1 l.start ∧ ¬ Before l.incr l.fin c.2 := by
  intro c hc
  obtain ⟨a, b, hab, -, hb, rfl⟩ := h.mem c hc
  constructor
  · rw [l.pos_of_lt (by omega : a < l.trip), ← l.value_zero, l.before_value_iff]
    exact Nat.not_lt_zero _
  · rcases Nat.lt_or_ge b l.trip with hlt | hge
    · rw [l.pos_of_lt hlt]
      exact ((l.before_fin_iff b).2 hlt).asymm
    · have : l.pos b = l.fin := if_neg (by omega)
      rw [this]; exact before_irrefl _ _

/-- Both ends of a handed-out chunk lie in the loop. -/
theorem bounds (h : Claimed l cs p) {c : Int × Int} (hc : c ∈ cs) :
    ∀ v ∈ [c.1, c.2], ¬ Before l.incr v l.start ∧ ¬ Before l.incr l.fin v := by
  obtain ⟨h1, h2⟩ := h.within c hc
  have h3 := h.nonempty c hc
  intro v hv
  rcases List.mem_cons.1 hv with rfl | hv
  · exact ⟨h1, fun hb => h2 (hb.trans h3)⟩
  · obtain rfl := List.mem_singleton.1 hv
    exact ⟨fun hb => h1 (h3.trans hb), h2⟩

/-- A cursor that has reached the end has tiled the loop. -/
theorem tiles (h : Claimed l cs l.trip) : Tiles l cs where
  once k hk := by rw [h.countP hk, if_pos hk]
  within := h.within
  nonempty := h.nonempty
  run := h.run

end Claimed

/-! ## Chunks of a fixed size -/

namespace Loop

variable (l : Loop)

/-- Chunk `j` of a loop that is cut every `s` iterations. -/
def cut (s j : Nat) : Int × Int := (l.pos (j * s), l.pos ((j + 1) * s))

theorem pos_of_le {k : Nat} (h : l.trip ≤ k) : l.pos k = l.fin := if_neg (by omega)

theorem pos_min (k : Nat) : l.pos (min k l.trip) = l.pos k := by
  rcases Nat.lt_or_ge k l.trip with h | h
  · rw [Nat.min_eq_left (by omega)]
  · rw [Nat.min_eq_right h, l.pos_trip, l.pos_of_le h]

theorem pos_eq_fin_iff (k : Nat) : l.pos k = l.fin ↔ l.trip ≤ k := by
  refine ⟨fun h => ?_, l.pos_of_le⟩
  by_contra hk
  have := l.pos_inj (by omega : k ≤ l.trip) (le_refl _) (by rw [h, l.pos_trip])
  omega

/-- The number of iterations between two cursors. -/
theorem chunk_trip_of_le {p q : Nat} (hpq : p ≤ q) (hp : p ≤ l.trip) :
    (l.chunk (l.pos p, l.pos q)).trip = min q l.trip - p := by
  rw [← l.pos_min q]
  rcases Nat.lt_or_ge p (min q l.trip) with h | h
  · exact l.chunk_trip h (Nat.min_le_right _ _)
  · obtain rfl : p = min q l.trip := by omega
    rw [Nat.sub_self]
    exact (trip_eq_zero_iff _).2 (before_irrefl _ _)

end Loop

/-- The chunks are the first `q` cuts of the loop, each of them with something left to cut. -/
def Strided (l : Loop) (s q : Nat) (cs : List (Int × Int)) : Prop :=
  cs = (List.range q).map (l.cut s) ∧ ∀ j < q, j * s < l.trip

namespace Strided

variable {l : Loop} {s q : Nat} {cs : List (Int × Int)}

theorem zero (l : Loop) (s : Nat) : Strided l s 0 [] := ⟨rfl, nofun⟩

theorem snoc (h : Strided l s q cs) (hq : q * s < l.trip) : Strided l s (q + 1) (cs ++ [l.cut s q]) := by
  refine ⟨by rw [h.1, List.range_succ, List.map_append]; rfl, fun j hj => ?_⟩
  rcases Nat.lt_succ_iff_lt_or_eq.1 hj with hj | rfl
  · exact h.2 j hj
  · exact hq

theorem mem (h : Strided l s q cs) {c : Int × Int} (hc : c ∈ cs) : ∃ j, j * s < l.trip ∧ c = l.cut s j := by
  rw [h.1, List.mem_map] at hc
  obtain ⟨j, hj, rfl⟩ := hc
  exact ⟨j, h.2 j (List.mem_range.1 hj), rfl⟩

/-- Cuts of at least one iteration are handed out by a forward cursor. -/
theorem claimed (hs : 0 < s) : ∀ {q : Nat} {cs : List (Int × Int)}, Strided l s q cs → Claimed l cs (min (q * s) l.trip)
  | 0, cs, h => by
    rw [h.1, Nat.zero_mul, Nat.zero_min]
    exact .nil
  | q + 1, cs, h => by
    have hq : q * s < l.trip := h.2 q (Nat.lt_succ_self q)
    have hprev : Strided l s q ((List.range q).map (l.cut s)) := ⟨rfl, fun j hj => h.2 j (by omega)⟩
    have ih := claimed hs hprev
    rw [Nat.min_eq_left (by omega)] at ih
    have hlt : q * s < min ((q + 1) * s) l.trip := by rw [Nat.succ_mul]; omega
    have := ih.snoc hlt (Nat.min_le_right _ _)
    rw [l.pos_min] at this
    rw [h.1, List.range_succ, List.map_append]
    exact this

end Strided

/-! ## Ranges of integers -/

theorem Loop.mem_values {l : Loop} {v : Int} : v ∈ l.values ↔ ∃ k < l.trip, l.value k = v := by
  unfold Loop.values
  simp only [List.mem_map, List.mem_range]

/-- The loops of at least `n` iterations whose values are some of the `n` integers from the start
on: it must be all of them. -/
theorem Loop.selected_iff {l : Loop} {n : Nat} (hn : n ≤ l.trip) (Q : Nat → Prop) :
    (∀ v, v ∈ l.values ↔ ∃ i < n, Q i ∧ v = l.start + i) ↔
      (∀ i < n, Q i) ∧ (l.trip = 0 ∨ (l.trip = 1 ∧ n = 1) ∨ (l.incr = 1 ∧ l.trip = n)) := by
  have hvalue : ∀ k, l.value k = l.start + k * l.incr := fun k => rfl
  constructor
  · intro hset
    have hmem : ∀ k < l.trip, ∃ i < n, Q i ∧ l.value k = l.start + i :=
      fun k hk => (hset _).1 (Loop.mem_values.2 ⟨k, hk, rfl⟩)
    rcases Nat.lt_trichotomy l.trip 1 with h0 | h1 | h2
    · exact ⟨fun i hi => by omega, .inl (by omega)⟩
    · obtain ⟨i, hi, hQ, -⟩ := hmem 0 (by omega)
      obtain rfl : i = 0 := by omega
      refine ⟨fun j hj => ?_, .inr (.inl ⟨h1, by omega⟩)⟩
      obtain rfl : j = 0 := by omega
      exact hQ
    · -- the step is positive, and the last value is close to the start
      obtain ⟨i, hi, -, hone⟩ := hmem 1 h2
      obtain ⟨j, hj, -, hlast⟩ := hmem (l.trip - 1) (by omega)
      have hne := l.incr_ne
      rw [hvalue, Nat.cast_one, one_mul] at hone
      rw [hvalue] at hlast
      have hmul : ((l.trip - 1 : Nat) : Int) * 1 ≤ ((l.trip - 1 : Nat) : Int) * l.incr :=
        Int.mul_le_mul_of_nonneg_left (by omega) (Int.natCast_nonneg _)
      have hincr : l.incr = 1 := by
        by_contra hne1
        have hmul2 : ((l.trip - 1 : Nat) : Int) * 2 ≤ ((l.trip - 1 : Nat) : Int) * l.incr :=
          Int.mul_le_mul_of_nonneg_left (by omega) (Int.natCast_nonneg _)
        omega
      refine ⟨fun k hk => ?_, .inr (.inr ⟨hincr, by omega⟩)⟩
      obtain ⟨m, -, hQ, hm⟩ := hmem k (by omega)
      rw [hvalue, hincr, mul_one] at hm
      obtain rfl : m = k := by omega
      exact hQ
  · rintro ⟨hQ, htrip⟩ v
    rw [Loop.mem_values]
    constructor
    · rintro ⟨k, hk, rfl⟩
      refine ⟨k, by omega, hQ k (by omega), ?_⟩
      rw [hvalue]
      rcases htrip with ht | ⟨ht, rfl⟩ | ⟨hincr, ht⟩
      · omega
      · obtain rfl : k = 0 := by omega
        simp
      · rw [hincr, mul_one]
    · rintro ⟨i, hi, -, rfl⟩
      refine ⟨i, by omega, ?_⟩
      rw [hvalue]
      rcases htrip with ht | ⟨ht, rfl⟩ | ⟨hincr, ht⟩
      · omega
      · obtain rfl : i = 0 := by omega
        simp
      · rw [hincr, mul_one]

/-- The loops of at least `n` iterations whose values are the `n` integers from the start on. -/
theorem Loop.interval_iff {l : Loop} {n : Nat} (hn : n ≤ l.trip) :
    (∀ v, v ∈ l.values ↔ l.start ≤ v ∧ v < l.start + n) ↔
      l.trip = 0 ∨ (l.trip = 1 ∧ n = 1) ∨ (l.incr = 1 ∧ l.trip = n) := by
  have hiff : ∀ v, (l.start ≤ v ∧ v < l.start + n) ↔ ∃ i < n, True ∧ v = l.start + i := by
    intro v
    constructor
    · rintro ⟨h1, h2⟩
      exact ⟨(v - l.start).toNat, by omega, trivial, by omega⟩
    · rintro ⟨i, hi, -, rfl⟩
      omega
  have hsel := l.selected_iff hn fun _ => True
  rw [and_iff_right fun _ _ => trivial] at hsel
  rw [← hsel]
  exact forall_congr' fun v => by rw [hiff v]

/-- The ranges `[s, e)` contain the values of the loop, each in exactly one range, and no other
integer. -/
def Partitions (l : Loop) (cs : List (Int × Int)) : Prop :=
  ∀ v, cs.countP (fun c => c.1 ≤ v ∧ v < c.2) = if v ∈ l.values then 1 else 0

end Bosched.Lib
