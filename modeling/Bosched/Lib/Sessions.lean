/-
Sessions opened and closed by calls: for each key a list of calls, `true` for one that opens and
`false` for one that closes. Where a call opens a key only while none of its sessions is open, and
closes the one that is, the calls on each key alternate, starting with an opening one.
-/
import Mathlib.Tactic

namespace Bosched.Lib

/-- The calls open and close in turn, starting with an opening one. -/
def Alternates (calls : List Bool) : Prop := ∀ n b, calls[n]? = some b → (b = true ↔ n % 2 = 0)

theorem Alternates.nil : Alternates [] := by
  intro n b h
  cases h

theorem Alternates.concat {calls : List Bool} {b : Bool} (h : Alternates calls) (hb : b = true ↔ calls.length % 2 = 0) :
    Alternates (calls ++ [b]) := by
  intro n b' hn
  rcases Nat.lt_trichotomy n calls.length with hlt | rfl | hgt
  · rw [List.getElem?_append_left hlt] at hn
    exact h n b' hn
  · obtain rfl : b = b' := by simpa using hn
    exact hb
  · rw [List.getElem?_eq_none (by simp; omega)] at hn
    cases hn

/-- Every opening call is closed again. -/
def Balanced (calls : List Bool) : Prop := Alternates calls ∧ calls.length % 2 = 0

variable {K I : Type}

/-- The sessions `used` of each key against its calls. -/
structure Sessions (calls : K → List Bool) (used : K → I → Prop) : Prop where
  alternates : ∀ k, Alternates (calls k)
  odd_iff : ∀ k, (calls k).length % 2 = 1 ↔ ∃ x, used k x
  unique : ∀ k x y, used k x → used k y → x = y

namespace Sessions

variable {calls calls' : K → List Bool} {used used' : K → I → Prop}

theorem start (hcalls : ∀ k, calls k = []) (hused : ∀ k x, ¬used k x) : Sessions calls used where
  alternates k := by rw [hcalls]; exact .nil
  odd_iff k := by
    rw [hcalls]
    exact iff_of_false (by simp) fun ⟨x, hx⟩ => hused k x hx
  unique k x _ hx := absurd hx (hused k x)

/-- Without a call the same sessions are open. -/
theorem congr (h : Sessions calls used) (hcalls : ∀ k, calls' k = calls k) (hused : ∀ k x, used' k x ↔ used k x) :
    Sessions calls' used' where
  alternates k := by rw [hcalls]; exact h.alternates k
  odd_iff k := by simpa only [hcalls, hused] using h.odd_iff k
  unique k x y hx hy := h.unique k x y ((hused k x).1 hx) ((hused k y).1 hy)

/-- A session of a key that has none. -/
theorem opens (h : Sessions calls used) {k : K} {x : I} (hnew : ∀ y, ¬used k y)
    (hcall : calls' k = calls k ++ [true]) (hcalls : ∀ k', k' ≠ k → calls' k' = calls k')
    (hused : ∀ k' y, used' k' y ↔ used k' y ∨ k' = k ∧ y = x) : Sessions calls' used' := by
  have heven : (calls k).length % 2 = 0 := by
    have hodd := mt (h.odd_iff k).1 (not_exists.2 hnew)
    omega
  refine ⟨fun k' => ?_, fun k' => ?_, fun k' y z hy hz => ?_⟩
  · by_cases hk : k' = k
    · subst hk
      rw [hcall]
      exact (h.alternates k').concat (by simp [heven])
    · rw [hcalls k' hk]; exact h.alternates k'
  · by_cases hk : k' = k
    · subst hk
      rw [hcall, List.length_append]
      exact iff_of_true (by simp; omega) ⟨x, (hused k' x).2 (.inr ⟨rfl, rfl⟩)⟩
    · rw [hcalls k' hk, h.odd_iff k']
      simp [hused, hk]
  · rcases (hused k' y).1 hy with hy | ⟨rfl, rfl⟩ <;> rcases (hused _ z).1 hz with hz | ⟨hk, rfl⟩
    · exact h.unique k' y z hy hz
    · subst hk; exact absurd hy (hnew y)
    · exact absurd hz (hnew z)
    · rfl

/-- The end of the session that is open. -/
theorem closes (h : Sessions calls used) {k : K} {x : I} (hx : used k x)
    (hcall : calls' k = calls k ++ [false]) (hcalls : ∀ k', k' ≠ k → calls' k' = calls k')
    (hused : ∀ k' y, used' k' y ↔ used k' y ∧ ¬(k' = k ∧ y = x)) : Sessions calls' used' := by
  have hodd : (calls k).length % 2 = 1 := (h.odd_iff k).2 ⟨x, hx⟩
  refine ⟨fun k' => ?_, fun k' => ?_, fun k' y z hy hz => h.unique k' y z ((hused k' y).1 hy).1 ((hused k' z).1 hz).1⟩
  · by_cases hk : k' = k
    · subst hk
      rw [hcall]
      exact (h.alternates k').concat (by simp [hodd])
    · rw [hcalls k' hk]; exact h.alternates k'
  · by_cases hk : k' = k
    · subst hk
      rw [hcall, List.length_append]
      refine iff_of_false (by simp; omega) ?_
      rintro ⟨y, hy⟩
      obtain ⟨hy, hne⟩ := (hused k' y).1 hy
      exact hne ⟨rfl, h.unique k' y x hy hx⟩
    · rw [hcalls k' hk, h.odd_iff k']
      simp [hused, hk]

/-- Where no session is open, every key's calls are balanced. -/
theorem balanced (h : Sessions calls used) (hnone : ∀ k x, ¬used k x) (k : K) : Balanced (calls k) := by
  refine ⟨h.alternates k, ?_⟩
  have hodd := mt (h.odd_iff k).1 (not_exists.2 (hnone k))
  omega

end Sessions

end Bosched.Lib
