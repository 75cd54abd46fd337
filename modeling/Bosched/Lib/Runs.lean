/-
The maximal runs of a property on the positions `0, …, n - 1`, in increasing order, and how a scan
from left to right finds one after the other.
-/
import Mathlib.Tactic

namespace Bosched.Lib

/-- `[r.1, r.2)` is a maximal run of positions with the property. -/
structure MaximalRun (p : Nat → Prop) (n : Nat) (r : Nat × Nat) : Prop where
  lt : r.1 < r.2
  le : r.2 ≤ n
  all : ∀ m, r.1 ≤ m → m < r.2 → p m
  left : r.1 = 0 ∨ ¬ p (r.1 - 1)
  right : r.2 = n ∨ ¬ p r.2

/-- `rs` lists the maximal runs, in increasing order. -/
structure RunsOf (p : Nat → Prop) (n : Nat) (rs : List (Nat × Nat)) : Prop where
  sorted : rs.Pairwise fun a b => a.2 < b.1
  mem_iff : ∀ r, r ∈ rs ↔ MaximalRun p n r

/-- `rs` are the runs a scan from position `i` on finds. -/
inductive RunsFrom (p : Nat → Prop) (n : Nat) : Nat → List (Nat × Nat) → Prop
  | nil {i : Nat} (h : ∀ m, i ≤ m → m < n → ¬ p m) : RunsFrom p n i []
  | cons {i a b : Nat} {rs : List (Nat × Nat)} (hia : i ≤ a) (hab : a < b) (hbn : b ≤ n)
      (hskip : ∀ m, i ≤ m → m < a → ¬ p m) (hall : ∀ m, a ≤ m → m < b → p m) (hend : b = n ∨ ¬ p b) (h : RunsFrom p n b rs) : RunsFrom p n i ((a, b) :: rs)

variable {p : Nat → Prop} {n i : Nat}

theorem RunsFrom.le {rs : List (Nat × Nat)} (h : RunsFrom p n i rs) : ∀ r ∈ rs, i ≤ r.1 ∧ r.1 < r.2 := by
  induction h with
  | nil => exact nofun
  | cons hia hab _ _ _ _ _ ih =>
    intro r hr
    rcases List.mem_cons.1 hr with rfl | hr
    · exact ⟨hia, hab⟩
    · obtain ⟨h1, h2⟩ := ih r hr
      exact ⟨by omega, h2⟩

/-- The first run found from a position is the one the scan stops at. -/
theorem RunsFrom.unique {rs : List (Nat × Nat)} {a b : Nat} (h : RunsFrom p n i rs) (hia : i ≤ a) (hab : a < b)
    (hbn : b ≤ n) (hskip : ∀ m, i ≤ m → m < a → ¬ p m) (hall : ∀ m, a ≤ m → m < b → p m) (hend : b = n ∨ ¬ p b) :
    ∃ rest, rs = (a, b) :: rest ∧ RunsFrom p n b rest := by
  cases h with
  | nil hnone => exact absurd (hall a (le_refl a) hab) (hnone a hia (by omega))
  | @cons _ a' b' rest hia' hab' hbn' hskip' hall' hend' h =>
    obtain rfl : a = a' := by
      rcases Nat.lt_trichotomy a a' with hlt | heq | hgt
      · exact absurd (hall a (le_refl a) hab) (hskip' a hia hlt)
      · exact heq
      · exact absurd (hall' a' (le_refl a') hab') (hskip a' hia' hgt)
    obtain rfl : b = b' := by
      rcases Nat.lt_trichotomy b b' with hlt | heq | hgt
      · rcases hend with rfl | hb
        · omega
        · exact absurd (hall' b (le_of_lt hab) hlt) hb
      · exact heq
      · rcases hend' with rfl | hb
        · omega
        · exact absurd (hall b' (le_of_lt hab') hgt) hb
    exact ⟨rest, rfl, h⟩

theorem RunsFrom.eq_nil {rs : List (Nat × Nat)} (h : RunsFrom p n i rs) (hnone : ∀ m, i ≤ m → m < n → ¬ p m) :
    rs = [] := by
  cases h with
  | nil => rfl
  | cons hia hab hbn _ hall => exact absurd (hall _ (le_refl _) hab) (hnone _ hia (by omega))

/-- A scan from the beginning of a run, or from outside of all of them, finds the maximal runs from
there on. -/
theorem RunsFrom.runs {rs : List (Nat × Nat)} (h : RunsFrom p n i rs) (hi : i = 0 ∨ n ≤ i ∨ ¬ p i) :
    (rs.Pairwise fun a b => a.2 < b.1) ∧ ∀ r, r ∈ rs ↔ MaximalRun p n r ∧ i ≤ r.1 := by
  induction h with
  | @nil i hnone =>
    refine ⟨List.Pairwise.nil, fun r => ⟨nofun, ?_⟩⟩
    rintro ⟨hr, hir⟩
    have := hr.lt
    have := hr.le
    exact absurd (hr.all r.1 (le_refl _) hr.lt) (hnone r.1 hir (by omega))
  | @cons i a b rs hia hab hbn hskip hall hend hfrom ih =>
    obtain ⟨hsorted, hmem⟩ := ih (by rcases hend with rfl | hb; exact .inr (.inl (le_refl _)); exact .inr (.inr hb))
    have hfirst : MaximalRun p n (a, b) := by
      refine ⟨hab, hbn, hall, ?_, hend⟩
      rcases Nat.lt_or_eq_of_le hia with hlt | rfl
      · exact .inr (hskip (a - 1) (by omega) (by show a - 1 < a; omega))
      · rcases hi with h0 | hn | hp
        · exact .inl h0
        · omega
        · exact absurd (hall i (le_refl i) hab) hp
    refine ⟨List.Pairwise.cons (fun r hr => ?_) hsorted, fun r => ?_⟩
    · obtain ⟨hle, hlt⟩ := hfrom.le r hr
      obtain ⟨hrun, -⟩ := (hmem r).1 hr
      -- the next run does not touch this one
      rcases Nat.lt_or_eq_of_le hle with h | h
      · exact h
      · rcases hend with rfl | hb
        · have := hrun.le
          omega
        · exact absurd (h ▸ hrun.all r.1 (le_refl _) hlt) hb
    · rw [List.mem_cons, hmem]
      constructor
      · rintro (rfl | ⟨hrun, hbr⟩)
        · exact ⟨hfirst, hia⟩
        · exact ⟨hrun, by omega⟩
      · rintro ⟨hrun, hir⟩
        by_cases hbr : b ≤ r.1
        · exact .inr ⟨hrun, hbr⟩
        · left
          have hlt := hrun.lt
          have hle := hrun.le
          have hr1 := hrun.all r.1 (le_refl _) hlt
          have har : a ≤ r.1 := by
            by_contra hra
            exact hskip r.1 hir (by omega) hr1
          -- the run starts at `a`, since the position before it has the property otherwise
          have h1 : r.1 = a := by
            rcases Nat.lt_or_eq_of_le har with hgt | heq
            · rcases hrun.left with h0 | hp
              · omega
              · exact absurd (hall (r.1 - 1) (by omega) (by omega)) hp
            · exact heq.symm
          have h2 : r.2 = b := by
            rcases Nat.lt_trichotomy r.2 b with hl | he | hg
            · rcases hrun.right with hn | hp
              · omega
              · exact absurd (hall r.2 (by omega) hl) hp
            · exact he
            · rcases hend with hn | hp
              · omega
              · exact absurd (hrun.all b (by omega) hg) hp
          exact Prod.ext h1 h2

/-- A position in the range of the scan lies in one of the runs if it has the property, and in none otherwise. -/
theorem RunsFrom.countP [DecidablePred p] {rs : List (Nat × Nat)} (h : RunsFrom p n i rs) {k : Nat} (hik : i ≤ k)
    (hkn : k < n) : (rs.countP fun r => r.1 ≤ k ∧ k < r.2) = if p k then 1 else 0 := by
  induction h with
  | nil hnone => rw [if_neg (hnone k hik hkn)]; rfl
  | @cons i a b rs hia hab hbn hskip hall hend hfrom ih =>
    by_cases hkb : b ≤ k
    · rw [List.countP_cons_of_neg (by simp only [decide_eq_true_eq]; omega), ih hkb]
    · -- the runs after `b` are behind the position
      have hrest : (rs.countP fun r => r.1 ≤ k ∧ k < r.2) = 0 := by
        refine List.countP_eq_zero.2 fun r hr => ?_
        have := (hfrom.le r hr).1
        simp only [decide_eq_true_eq]
        omega
      by_cases hka : a ≤ k
      · rw [List.countP_cons_of_pos (by simp only [decide_eq_true_eq]; omega), hrest, if_pos (hall k hka (by omega))]
      · rw [List.countP_cons_of_neg (by simp only [decide_eq_true_eq]; omega), hrest, if_neg (hskip k hik (by omega))]

theorem RunsFrom.runsOf {rs : List (Nat × Nat)} (h : RunsFrom p n 0 rs) : RunsOf p n rs := by
  obtain ⟨hsorted, hmem⟩ := h.runs (.inl rfl)
  exact ⟨hsorted, fun r => by rw [hmem]; simp⟩

/-- There are runs from every position. -/
theorem exists_runsFrom [DecidablePred p] (n : Nat) : ∀ (fuel : Nat) {i : Nat}, n ≤ i + fuel → ∃ rs, RunsFrom p n i rs
  | 0, i, h => ⟨[], .nil fun m h1 h2 => by omega⟩
  | fuel + 1, i, h => by
    by_cases hex : ∃ a, i ≤ a ∧ a < n ∧ p a
    · -- the first position with the property, and the first one after it without
      have hfind := Nat.find_spec hex
      have hmin : ∀ m, m < Nat.find hex → ¬ (i ≤ m ∧ m < n ∧ p m) := fun m hm => Nat.find_min hex hm
      obtain ⟨a, ha⟩ : ∃ a, Nat.find hex = a := ⟨_, rfl⟩
      rw [ha] at hfind hmin
      obtain ⟨hia, han, hpa⟩ := hfind
      have hex' : ∃ b, a < b ∧ (b = n ∨ ¬ p b) := ⟨n, han, .inl rfl⟩
      have hfind' := Nat.find_spec hex'
      have hmin' : ∀ m, m < Nat.find hex' → ¬ (a < m ∧ (m = n ∨ ¬ p m)) := fun m hm => Nat.find_min hex' hm
      have hbn : Nat.find hex' ≤ n := Nat.find_min' hex' ⟨han, .inl rfl⟩
      obtain ⟨b, hb⟩ : ∃ b, Nat.find hex' = b := ⟨_, rfl⟩
      rw [hb] at hfind' hmin' hbn
      obtain ⟨hab, hend⟩ := hfind'
      obtain ⟨rs, hrs⟩ := exists_runsFrom n fuel (by omega : n ≤ b + fuel)
      refine ⟨(a, b) :: rs, .cons hia hab hbn (fun m h1 h2 hp => hmin m h2 ⟨h1, by omega, hp⟩) (fun m h1 h2 => ?_) hend hrs⟩
      by_contra hp
      rcases Nat.lt_or_eq_of_le h1 with hlt | rfl
      · exact hmin' m h2 ⟨hlt, .inr hp⟩
      · exact hp hpa
    · exact ⟨[], .nil fun m h1 h2 hp => hex ⟨m, h1, h2, hp⟩⟩

/-- A property of the positions determines the list of its maximal runs. -/
theorem RunsOf.unique {rs rs' : List (Nat × Nat)} (h : RunsOf p n rs) (h' : RunsOf p n rs') : rs = rs' := by
  have hirrefl : ∀ {l : List (Nat × Nat)}, RunsOf p n l → l.Nodup := by
    intro l hl
    refine hl.sorted.imp_of_mem fun {a b} ha _ hab => ?_
    rintro rfl
    have := ((hl.mem_iff a).1 ha).lt
    omega
  have hperm : rs.Perm rs' := (List.perm_ext_iff_of_nodup (hirrefl h) (hirrefl h')).2 fun r => by
    rw [h.mem_iff, h'.mem_iff]
  refine hperm.eq_of_pairwise (fun a b ha hb hab hba => ?_) h.sorted h'.sorted
  have h1 := ((h.mem_iff a).1 ha).lt
  have h2 := ((h'.mem_iff b).1 hb).lt
  omega

end Bosched.Lib
