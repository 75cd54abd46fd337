/-
Loops whose body can fail, as folds in `Option`: an invariant that every iteration re-establishes
holds at the end, and the loop does not fail.
-/
import Mathlib.Tactic

namespace Bosched.Lib

variable {β : Type} {f : β → Nat → Option β} {b : β}

/-- `for (i = s; i < s + n; i++)`. -/
theorem foldlM_range' (I : Nat → β → Prop) : ∀ {n s : Nat} {b : β}, I s b →
    (∀ i b, s ≤ i → i < s + n → I i b → ∃ b', f b i = some b' ∧ I (i + 1) b') →
    ∃ b', (List.range' s n).foldlM f b = some b' ∧ I (s + n) b'
  | 0, s, b, h0, _ => ⟨b, rfl, h0⟩
  | n + 1, s, b, h0, hstep => by
    obtain ⟨b₁, hb₁, h1⟩ := hstep s b (le_refl s) (by omega) h0
    obtain ⟨b', hb', h'⟩ := foldlM_range' (n := n) I h1 fun i b hi hn hI => hstep i b (by omega) (by omega) hI
    refine ⟨b', ?_, by rwa [show s + (n + 1) = s + 1 + n by omega]⟩
    rw [List.range'_succ, List.foldlM_cons, hb₁]
    exact hb'

/-- `for (i = 0; i < n; i++)`. -/
theorem foldlM_range (I : Nat → β → Prop) {n : Nat} (h0 : I 0 b)
    (hstep : ∀ i b, i < n → I i b → ∃ b', f b i = some b' ∧ I (i + 1) b') :
    ∃ b', (List.range n).foldlM f b = some b' ∧ I n b' := by
  obtain ⟨b', hb', h'⟩ := foldlM_range' I h0 (n := n) fun i b _ hn hI => hstep i b (by omega) hI
  rw [zero_add] at h'
  exact ⟨b', by rw [List.range_eq_range']; exact hb', h'⟩

/-- `for (i = n; i > 0; i--)`, with `i - 1` in the body. -/
theorem foldlM_range_reverse (I : Nat → β → Prop) : ∀ {n : Nat} {b : β}, I n b →
    (∀ i b, i < n → I (i + 1) b → ∃ b', f b i = some b' ∧ I i b') →
    ∃ b', (List.range n).reverse.foldlM f b = some b' ∧ I 0 b'
  | 0, b, h0, _ => ⟨b, rfl, h0⟩
  | n + 1, b, h0, hstep => by
    obtain ⟨b₁, hb₁, h1⟩ := hstep n b (by omega) h0
    obtain ⟨b', hb', h'⟩ := foldlM_range_reverse I h1 fun i b hi hI => hstep i b (by omega) hI
    refine ⟨b', ?_, h'⟩
    rw [List.range_succ, List.reverse_append, List.reverse_singleton, List.singleton_append, List.foldlM_cons, hb₁]
    exact hb'

/-- An invariant of the body holds after a loop that did not fail. -/
theorem foldlM_keep {γ : Type} {f : β → γ → Option β} (I : β → Prop) (hstep : ∀ i b b', I b → f b i = some b' → I b') :
    ∀ {l : List γ} {b b' : β}, I b → l.foldlM f b = some b' → I b'
  | [], b, b', h0, h => by
    cases h
    exact h0
  | j :: l, b, b', h0, h => by
    obtain ⟨b₁, hb₁, hrest⟩ := Option.bind_eq_some_iff.1 h
    exact foldlM_keep I hstep (hstep j b b₁ h0 hb₁) hrest

/-- Every step of a loop that did not fail was taken from a state with the invariant. -/
theorem foldlM_mem {γ : Type} {f : β → γ → Option β} (I : β → Prop) (hstep : ∀ i b b', I b → f b i = some b' → I b') :
    ∀ {l : List γ} {b b' : β}, I b → l.foldlM f b = some b' → ∀ i ∈ l, ∃ b₁ b₂, I b₁ ∧ f b₁ i = some b₂
  | [], _, _, _, _ => nofun
  | j :: l, b, b', h0, h => by
    obtain ⟨b₁, hb₁, hrest⟩ := Option.bind_eq_some_iff.1 h
    intro i hi
    rcases List.mem_cons.1 hi with rfl | hi
    · exact ⟨b, b₁, h0, hb₁⟩
    · exact foldlM_mem I hstep (hstep j b b₁ h0 hb₁) hrest i hi

end Bosched.Lib
