/-
The greedy cut of the positions `0, …, n - 1` into consecutive parts: a part ends at the first
position at which it is heavy, or at the end.
-/
import Mathlib.Tactic

namespace Bosched.Lib

/-- `parts` is the greedy cut from position `i` on; `heavy i j` says that `[i, j)` is heavy. -/
inductive Greedy (heavy : Nat → Nat → Bool) (n : Nat) : Nat → List (Nat × Nat) → Prop
  | nil : Greedy heavy n n []
  | cons {i j : Nat} {parts : List (Nat × Nat)} (hij : i < j) (hjn : j ≤ n) (hlight : ∀ m, i < m → m < j → heavy i m = false)
      (hend : j = n ∨ heavy i j = true) (h : Greedy heavy n j parts) : Greedy heavy n i ((i, j) :: parts)

/-- The size of a part. -/
def width (r : Nat × Nat) : Nat := r.2 - r.1

/-- Where the `c`-th of some consecutive parts starts. -/
def startOf (sizes : List Nat) (c : Nat) : Nat := (sizes.take c).sum

theorem startOf_zero (sizes : List Nat) : startOf sizes 0 = 0 := by simp [startOf]

theorem startOf_succ {sizes : List Nat} {c size : Nat} (h : sizes[c]? = some size) :
    startOf sizes (c + 1) = startOf sizes c + size := by
  obtain ⟨hlt, rfl⟩ := List.getElem?_eq_some_iff.1 h
  unfold startOf
  rw [List.take_add_one, List.getElem?_eq_getElem hlt, List.sum_append]
  simp

theorem startOf_mono (sizes : List Nat) : Monotone (startOf sizes) := by
  refine monotone_nat_of_le_succ fun c => ?_
  by_cases hc : c < sizes.length
  · rw [startOf_succ (List.getElem?_eq_getElem hc)]
    omega
  · unfold startOf
    rw [List.take_of_length_le (by omega), List.take_of_length_le (by omega)]

theorem startOf_le_sum (sizes : List Nat) (c : Nat) : startOf sizes c ≤ sizes.sum := by
  have h : startOf sizes (max c sizes.length) = sizes.sum := by
    unfold startOf
    rw [List.take_of_length_le (le_max_right _ _)]
  rw [← h]
  exact startOf_mono sizes (le_max_left _ _)

/-- Every position below the sum lies in one of the parts. -/
theorem exists_startOf {sizes : List Nat} {j : Nat} : ∀ {K : Nat}, j < startOf sizes K →
    ∃ c < K, startOf sizes c ≤ j ∧ j < startOf sizes (c + 1)
  | 0, h => by rw [startOf_zero] at h; omega
  | K + 1, h => by
    by_cases hK : j < startOf sizes K
    · obtain ⟨c, hc, h1, h2⟩ := exists_startOf hK
      exact ⟨c, by omega, h1, h2⟩
    · exact ⟨K, by omega, by omega, h⟩

/-- And in one only. -/
theorem startOf_unique {sizes : List Nat} {j c c' : Nat} (h1 : startOf sizes c ≤ j) (h2 : j < startOf sizes (c + 1))
    (h1' : startOf sizes c' ≤ j) (h2' : j < startOf sizes (c' + 1)) : c = c' := by
  rcases Nat.lt_trichotomy c c' with h | h | h
  · have := startOf_mono sizes (show c + 1 ≤ c' by omega)
    omega
  · exact h
  · have := startOf_mono sizes (show c' + 1 ≤ c by omega)
    omega

variable {heavy : Nat → Nat → Bool} {n : Nat}

theorem Greedy.le {i : Nat} {parts : List (Nat × Nat)} (h : Greedy heavy n i parts) : i ≤ n := by
  cases h with
  | nil => exact le_refl _
  | cons hij hjn => omega

/-- The cut is determined by what is heavy. -/
theorem Greedy.unique {i : Nat} {parts parts' : List (Nat × Nat)} (h : Greedy heavy n i parts)
    (h' : Greedy heavy n i parts') : parts = parts' := by
  induction h generalizing parts' with
  | nil =>
    cases h' with
    | nil => rfl
    | cons hij hjn => omega
  | @cons i j parts hij hjn hlight hend _ ih =>
    cases h' with
    | nil => omega
    | @cons _ j' _ hij' hjn' hlight' hend' h' =>
      obtain rfl : j = j' := by
        rcases Nat.lt_trichotomy j j' with hlt | heq | hgt
        · rcases hend with rfl | hh
          · omega
          · rw [hlight' j hij hlt] at hh
            cases hh
        · exact heq
        · rcases hend' with rfl | hh
          · omega
          · rw [hlight j' hij' hgt] at hh
            cases hh
      rw [ih h']

/-- From every position the first heavy one, or the end, is found. -/
theorem exists_cut {i : Nat} (hi : i < n) :
    ∃ j, i < j ∧ j ≤ n ∧ (∀ m, i < m → m < j → heavy i m = false) ∧ (j = n ∨ heavy i j = true) := by
  have hex : ∃ j, i < j ∧ (j = n ∨ heavy i j = true) := ⟨n, hi, .inl rfl⟩
  refine ⟨Nat.find hex, (Nat.find_spec hex).1, Nat.find_min' hex ⟨hi, .inl rfl⟩, fun m h1 h2 => ?_, (Nat.find_spec hex).2⟩
  have := Nat.find_min hex h2
  simp only [h1, true_and, not_or, Bool.not_eq_true] at this
  exact this.2

/-- There is a greedy cut. -/
theorem exists_greedy (heavy : Nat → Nat → Bool) (n : Nat) : ∀ (fuel : Nat) {i : Nat}, i ≤ n → n ≤ i + fuel →
    ∃ parts, Greedy heavy n i parts
  | 0, i, hi, h => by
    obtain rfl : i = n := by omega
    exact ⟨[], .nil⟩
  | fuel + 1, i, hi, h => by
    rcases Nat.lt_or_eq_of_le hi with hlt | rfl
    · obtain ⟨j, hij, hjn, hlight, hend⟩ := (exists_cut hlt : ∃ j, _ ∧ _ ∧ (∀ m, _ → _ → heavy _ m = false) ∧ _)
      obtain ⟨parts, hparts⟩ := exists_greedy heavy n fuel hjn (by omega)
      exact ⟨(i, j) :: parts, .cons hij hjn hlight hend hparts⟩
    · exact ⟨[], .nil⟩

/-- The parts are nonempty and lie behind one another. -/
theorem Greedy.getElem? {i : Nat} {parts : List (Nat × Nat)} (h : Greedy heavy n i parts) :
    ∀ {c : Nat} {r : Nat × Nat}, parts[c]? = some r →
      r.1 = i + startOf (parts.map width) c ∧ r.1 < r.2 ∧ r.2 = i + startOf (parts.map width) (c + 1) := by
  induction h with
  | nil => exact fun h => by cases h
  | @cons i j parts hij hjn _ _ _ ih =>
    intro c r hr
    cases c with
    | zero =>
      cases hr
      have hsize : (((i, j) :: parts).map width)[0]? = some (j - i) := rfl
      have hone : startOf (((i, j) :: parts).map width) (0 + 1) = 0 + (j - i) := by
        rw [startOf_succ hsize, startOf_zero]
      rw [hone, startOf_zero]
      exact ⟨rfl, hij, by show j = _; omega⟩
    | succ c =>
      obtain ⟨h1, h2, h3⟩ := ih (c := c) (r := r) hr
      have hshift : ∀ c, startOf (((i, j) :: parts).map width) (c + 1) = (j - i) + startOf (parts.map width) c := fun c => by
        simp [startOf, width]
      rw [hshift, hshift]
      exact ⟨by omega, h2, by omega⟩

/-- The parts cover the positions. -/
theorem Greedy.sum {i : Nat} {parts : List (Nat × Nat)} (h : Greedy heavy n i parts) : i + (parts.map width).sum = n := by
  induction h with
  | nil => simp
  | @cons i j parts hij hjn _ _ _ ih =>
    rw [List.map_cons, List.sum_cons]
    show i + (j - i + (parts.map width).sum) = n
    omega

/-- A part that does not end with the positions is heavy. -/
theorem Greedy.heavy_of_lt {i : Nat} {parts : List (Nat × Nat)} (h : Greedy heavy n i parts) {r : Nat × Nat} (hr : r ∈ parts)
    (hlt : r.2 < n) : heavy r.1 r.2 = true := by
  induction h with
  | nil => cases hr
  | cons _ _ _ hend _ ih =>
    rcases List.mem_cons.1 hr with rfl | hr
    · exact hend.resolve_left (ne_of_lt hlt)
    · exact ih hr

/-- Another notion of heavy cuts alike if it is stricter and still holds where the parts end. -/
theorem Greedy.transfer {heavy' : Nat → Nat → Bool} {i : Nat} {parts : List (Nat × Nat)} (h : Greedy heavy n i parts)
    (hlight : ∀ i j, i < j → j ≤ n → heavy i j = false → heavy' i j = false)
    (hends : ∀ r ∈ parts, r.2 < n → heavy' r.1 r.2 = true) : Greedy heavy' n i parts := by
  induction h with
  | nil => exact .nil
  | @cons i j parts hij hjn hlight' hend hparts ih =>
    refine .cons hij hjn (fun m h1 h2 => hlight i m h1 (by omega) (hlight' m h1 h2)) ?_
      (ih fun r hr => hends r (List.mem_cons_of_mem _ hr))
    rcases Nat.lt_or_eq_of_le hjn with hlt | heq
    · exact .inr (hends (i, j) List.mem_cons_self hlt)
    · exact .inl heq

theorem Greedy.start_le {i : Nat} {parts : List (Nat × Nat)} (h : Greedy heavy n i parts) {r : Nat × Nat} (hr : r ∈ parts) :
    i ≤ r.1 := by
  obtain ⟨c, hc⟩ := List.mem_iff_getElem?.1 hr
  have := (h.getElem? hc).1
  omega

/-- Two cuts whose parts start at the same positions are the same. -/
theorem Greedy.eq_of_starts {heavy' : Nat → Nat → Bool} {i : Nat} {parts parts' : List (Nat × Nat)}
    (h : Greedy heavy n i parts) (h' : Greedy heavy' n i parts')
    (hstarts : ∀ j, i < j → ((∃ r ∈ parts, r.1 = j) ↔ ∃ r ∈ parts', r.1 = j)) : parts = parts' := by
  induction h generalizing parts' with
  | nil =>
    cases h' with
    | nil => rfl
    | cons hij hjn => omega
  | @cons i j parts hij hjn _ _ hparts ih =>
    cases h' with
    | nil => omega
    | @cons _ j' parts' hij' hjn' _ _ hparts' =>
      -- behind the first part the next one starts, unless it is the last
      have hnext : ∀ {heavy : Nat → Nat → Bool} {j : Nat} {rest : List (Nat × Nat)}, Greedy heavy n j rest → j < n →
          ∃ r ∈ rest, r.1 = j := fun hrest hlt => by
        cases hrest with
        | nil => omega
        | cons _ _ _ _ _ => exact ⟨_, List.mem_cons_self, rfl⟩
      have hfirst : ∀ {heavy : Nat → Nat → Bool} {j m : Nat} {rest : List (Nat × Nat)}, Greedy heavy n j rest → i < m →
          (∃ r ∈ (i, j) :: rest, r.1 = m) → ∃ r ∈ rest, r.1 = m := fun hrest hm ⟨r, hr, hrm⟩ => by
        rcases List.mem_cons.1 hr with rfl | hr
        · exact absurd hrm (ne_of_lt hm)
        · exact ⟨r, hr, hrm⟩
      obtain rfl : j = j' := by
        rcases Nat.lt_trichotomy j j' with hlt | heq | hgt
        · obtain ⟨r, hr, hrj⟩ := hnext hparts (by omega)
          obtain ⟨r', hr', hrj'⟩ := hfirst hparts' hij ((hstarts j hij).1 ⟨r, List.mem_cons_of_mem _ hr, hrj⟩)
          have := hparts'.start_le hr'
          omega
        · exact heq
        · obtain ⟨r, hr, hrj⟩ := hnext hparts' (by omega)
          obtain ⟨r', hr', hrj'⟩ := hfirst hparts hij' ((hstarts j' hij').2 ⟨r, List.mem_cons_of_mem _ hr, hrj⟩)
          have := hparts.start_le hr'
          omega
      rw [ih hparts' fun m hm => ⟨fun ⟨r, hr, hrm⟩ => ?_, fun ⟨r, hr, hrm⟩ => ?_⟩]
      · exact hfirst hparts' (by omega) ((hstarts m (by omega)).1 ⟨r, List.mem_cons_of_mem _ hr, hrm⟩)
      · exact hfirst hparts (by omega) ((hstarts m (by omega)).2 ⟨r, List.mem_cons_of_mem _ hr, hrm⟩)

end Bosched.Lib
