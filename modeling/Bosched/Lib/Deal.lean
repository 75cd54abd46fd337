/-
Pieces of work dealt one after the other, each to the first of the least loaded threads. The weights and their order
determine the threads, so two programs that deal the same pieces in the same order agree.
-/
import Mathlib.Algebra.Order.Monoid.Defs
import Mathlib.Data.List.Sort
import Mathlib.Tactic

namespace Bosched.Lib

section

variable {α β : Type} [LinearOrder α] [LinearOrder β]

/-- `t` is the first of the least loaded among the threads `0, …, P - 1`. -/
structure FirstLeast (load : Nat → α) (P t : Nat) : Prop where
  lt : t < P
  le : ∀ s < P, load t ≤ load s
  first : ∀ s < t, load t < load s

theorem FirstLeast.unique {load : Nat → α} {P t t' : Nat} (h : FirstLeast load P t) (h' : FirstLeast load P t') : t = t' := by
  rcases Nat.lt_trichotomy t t' with hlt | heq | hgt
  · exact absurd (h.le t' h'.lt) (not_le.2 (h'.first t hlt))
  · exact heq
  · exact absurd (h'.le t h.lt) (not_le.2 (h.first t' hgt))

/-- What holds of the loads below `P` is all that matters. -/
theorem FirstLeast.congr {load load' : Nat → α} {P t : Nat} (h : FirstLeast load P t) (heq : ∀ s < P, load s = load' s) :
    FirstLeast load' P t := by
  refine ⟨h.lt, fun s hs => ?_, fun s hs => ?_⟩
  · rw [← heq t h.lt, ← heq s hs]
    exact h.le s hs
  · rw [← heq t h.lt, ← heq s (hs.trans h.lt)]
    exact h.first s hs

theorem FirstLeast.map {f : α → β} (hf : StrictMono f) {load : Nat → α} {P t : Nat} (h : FirstLeast load P t) :
    FirstLeast (f ∘ load) P t :=
  ⟨h.lt, fun s hs => hf.monotone (h.le s hs), fun s hs => hf (h.first s hs)⟩

theorem FirstLeast.of_map {f : α → β} (hf : StrictMono f) {load : Nat → α} {P t : Nat} (h : FirstLeast (f ∘ load) P t) :
    FirstLeast load P t :=
  ⟨h.lt, fun s hs => hf.le_iff_le.1 (h.le s hs), fun s hs => hf.lt_iff_lt.1 (h.first s hs)⟩

/-- Where the threads `0, …, k - 1` have work and the others have none, it is the next one's turn. -/
theorem FirstLeast.eq_of_idle [Zero α] {load : Nat → α} {P k t : Nat} (h : FirstLeast load P t) (hk : k < P)
    (hbusy : ∀ s < k, 0 < load s) (hidle : ∀ s, k ≤ s → s < P → load s = 0) : t = k := by
  rcases Nat.lt_trichotomy t k with hlt | heq | hgt
  · have := h.le k hk
    rw [hidle k (le_refl k) hk] at this
    exact absurd (hbusy t hlt) (not_lt.2 this)
  · exact heq
  · have := h.first k hgt
    rw [hidle k (le_refl k) hk, hidle t hgt.le h.lt] at this
    exact absurd this (lt_irrefl 0)

variable [Add α] [Add β]

/-- The pieces of the weights `ws` go, one after the other, to the threads `ts`; the loads before and after. -/
inductive Dealt (P : Nat) : (Nat → α) → List α → List Nat → (Nat → α) → Prop
  | nil {load : Nat → α} : Dealt P load [] [] load
  | cons {load load' : Nat → α} {w : α} {ws : List α} {t : Nat} {ts : List Nat} (ht : FirstLeast load P t)
      (h : Dealt P (Function.update load t (load t + w)) ws ts load') : Dealt P load (w :: ws) (t :: ts) load'

theorem Dealt.unique {P : Nat} {load load₁ load₂ : Nat → α} {ws : List α} {ts₁ ts₂ : List Nat} (h₁ : Dealt P load ws ts₁ load₁)
    (h₂ : Dealt P load ws ts₂ load₂) : ts₁ = ts₂ ∧ load₁ = load₂ := by
  induction h₁ generalizing ts₂ with
  | nil =>
    cases h₂
    exact ⟨rfl, rfl⟩
  | cons ht _ ih =>
    cases h₂ with
    | cons ht' h₂ =>
      obtain rfl := ht.unique ht'
      obtain ⟨rfl, rfl⟩ := ih h₂
      exact ⟨rfl, rfl⟩

theorem Dealt.snoc {P : Nat} {load load' : Nat → α} {ws : List α} {ts : List Nat} (h : Dealt P load ws ts load') {t : Nat}
    (ht : FirstLeast load' P t) (w : α) :
    Dealt P load (ws ++ [w]) (ts ++ [t]) (Function.update load' t (load' t + w)) := by
  induction h with
  | nil => exact .cons ht .nil
  | cons hs _ ih => exact .cons hs (ih ht)

theorem Dealt.length {P : Nat} {load load' : Nat → α} {ws : List α} {ts : List Nat} (h : Dealt P load ws ts load') :
    ts.length = ws.length := by
  induction h with
  | nil => rfl
  | cons _ _ ih => rw [List.length_cons, List.length_cons, ih]

theorem Dealt.lt {P : Nat} {load load' : Nat → α} {ws : List α} {ts : List Nat} (h : Dealt P load ws ts load') :
    ∀ t ∈ ts, t < P := by
  induction h with
  | nil => exact nofun
  | cons ht _ ih =>
    rintro t (_ | ⟨_, hmem⟩)
    · exact ht.lt
    · exact ih t hmem

/-- Weights of another kind that add up and compare in the same way are dealt in the same way. -/
theorem Dealt.map {f : α → β} (hf : StrictMono f) (hadd : ∀ x y, f (x + y) = f x + f y) {P : Nat} {load load' : Nat → α}
    {ws : List α} {ts : List Nat} (h : Dealt P load ws ts load') : Dealt P (f ∘ load) (ws.map f) ts (f ∘ load') := by
  induction h with
  | nil => exact .nil
  | @cons load load' w ws t ts ht _ ih =>
    refine .cons (ht.map hf) ?_
    rw [Function.comp_update, hadd] at ih
    exact ih

theorem Dealt.of_map {f : α → β} (hf : StrictMono f) (hadd : ∀ x y, f (x + y) = f x + f y) {P : Nat} {ws : List α} :
    ∀ {load : Nat → α} {ts : List Nat} {load' : Nat → β}, Dealt P (f ∘ load) (ws.map f) ts load' →
      ∃ load₁, Dealt P load ws ts load₁ := by
  induction ws with
  | nil =>
    intro load ts load' h
    cases h
    exact ⟨load, .nil⟩
  | cons w ws ih =>
    intro load ts load' h
    cases h with
    | @cons _ _ _ _ t ts ht h =>
      rw [Function.comp_apply, ← hadd, ← Function.comp_update] at h
      obtain ⟨load₁, h₁⟩ := ih h
      exact ⟨load₁, .cons (ht.of_map hf) h₁⟩

end

/-- Pieces with weight fill the idle threads in order. -/
theorem Dealt.fill {α : Type} [AddMonoid α] [LinearOrder α] {P k : Nat} {load load' : Nat → α} {ws : List α} {ts : List Nat}
    (h : Dealt P load ws ts load') (hws : ∀ w ∈ ws, 0 < w) (hbusy : ∀ s < k, 0 < load s)
    (hidle : ∀ s, k ≤ s → s < P → load s = 0) : ∀ {q t : Nat}, ts[q]? = some t → k + q < P → t = k + q := by
  induction h generalizing k with
  | nil =>
    intro q t hq
    cases hq
  | @cons load load' w ws t ts ht _ ih =>
    have hnext : k < P → t = k := fun hk => ht.eq_of_idle hk hbusy hidle
    intro q t' hq hlt
    obtain rfl : t = k := hnext (by omega)
    cases q with
    | zero =>
      cases hq
      rfl
    | succ q =>
      have hrest := ih (k := t + 1) (fun w hw => hws w (List.mem_cons_of_mem _ hw)) (fun s hs => ?_) (fun s hs hsP => ?_)
        (q := q) (t := t') hq (by omega)
      · omega
      · by_cases hst : s = t
        · rw [hst, Function.update_self, hidle t (le_refl t) ht.lt, zero_add]
          exact hws w List.mem_cons_self
        · rw [Function.update_of_ne hst]
          exact hbusy s (by omega)
      · rw [Function.update_of_ne (by omega)]
        exact hidle s (by omega) hsP

/-! ## The order of the pieces -/

section

variable {α : Type} [LinearOrder α] {w : Nat → α}

/-- Piece `c` is dealt before `d`: it is heavier, or as heavy and has the larger number. -/
def DealtBefore (w : Nat → α) (c d : Nat) : Prop := w d < w c ∨ (w d = w c ∧ d < c)

instance : Std.Irrefl (DealtBefore w) where
  irrefl c h := by
    rcases h with h | ⟨-, h⟩
    · exact lt_irrefl _ h
    · exact lt_irrefl _ h

instance : Std.Antisymm (DealtBefore w) where
  antisymm c d h h' := by
    rcases h with h | ⟨heq, h⟩
    · rcases h' with h' | ⟨heq', -⟩
      · exact absurd h (lt_asymm h')
      · exact absurd h (by rw [heq']; exact lt_irrefl _)
    · rcases h' with h' | ⟨-, h'⟩
      · exact absurd h' (by rw [heq]; exact lt_irrefl _)
      · exact absurd h (lt_asymm h')

/-- A piece with the smallest number is put behind what is lighter or as light, and so before its equals. -/
theorem pairwise_orderedInsert {r : Nat → Nat → Prop} [DecidableRel r] {a : Nat} {l : List Nat}
    (hr : ∀ b ∈ l, r a b ↔ w a ≤ w b) (ha : ∀ b ∈ l, a < b) (hl : l.Pairwise fun c d => DealtBefore w d c) :
    (l.orderedInsert r a).Pairwise fun c d => DealtBefore w d c := by
  induction l with
  | nil => exact List.pairwise_singleton _ a
  | cons b l ih =>
    obtain ⟨hb, hl⟩ := List.pairwise_cons.1 hl
    have hfirst : ∀ c, w a ≤ w c → a < c → DealtBefore w c a := fun c hle hlt => by
      rcases lt_or_eq_of_le hle with h | h
      · exact .inl h
      · exact .inr ⟨h, hlt⟩
    by_cases hab : r a b
    · rw [List.orderedInsert_cons, if_pos hab]
      have hle := (hr b List.mem_cons_self).1 hab
      refine List.pairwise_cons.2 ⟨fun c hc => ?_, List.pairwise_cons.2 ⟨hb, hl⟩⟩
      rcases List.mem_cons.1 hc with rfl | hcl
      · exact hfirst c hle (ha c hc)
      · refine hfirst c (hle.trans ?_) (ha c hc)
        rcases hb c hcl with h | ⟨h, -⟩
        · exact h.le
        · exact h.le
    · rw [List.orderedInsert_cons, if_neg hab]
      have hlt : w b < w a := not_le.1 fun h => hab ((hr b List.mem_cons_self).2 h)
      refine List.pairwise_cons.2 ⟨fun c hc => ?_, ih (fun c hc => hr c (List.mem_cons_of_mem b hc))
        (fun c hc => ha c (List.mem_cons_of_mem b hc)) hl⟩
      rcases (List.mem_orderedInsert r).1 hc with rfl | hc
      · exact .inl hlt
      · exact hb c hc

/-- A stable sort of pieces in the order of their numbers: among equals the numbers still ascend. -/
theorem pairwise_insertionSort {r : Nat → Nat → Prop} [DecidableRel r] {l : List Nat} (hl : l.Pairwise (· < ·))
    (hr : ∀ a ∈ l, ∀ b ∈ l, r a b ↔ w a ≤ w b) : (l.insertionSort r).Pairwise fun c d => DealtBefore w d c := by
  induction l with
  | nil => exact .nil
  | cons a l ih =>
    obtain ⟨ha, hl⟩ := List.pairwise_cons.1 hl
    refine pairwise_orderedInsert (fun b hb => ?_) (fun b hb => ?_) (ih hl fun b hb c hc => ?_)
    · exact hr a List.mem_cons_self b (List.mem_cons_of_mem a ((List.mem_insertionSort r).1 hb))
    · exact ha b ((List.mem_insertionSort r).1 hb)
    · exact hr b (List.mem_cons_of_mem a hb) c (List.mem_cons_of_mem a hc)

end

end Bosched.Lib
