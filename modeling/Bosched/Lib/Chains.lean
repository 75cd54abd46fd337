/-
Singly linked lists in a heap: from a pointer through the cells of the list to the null pointer.
-/
import Mathlib.Data.List.Basic
import Mathlib.Logic.Function.Basic

namespace Bosched.Lib

/-- How pointers represent the null pointer and the cells. -/
structure Pointers (A P : Type) where
  null : P
  ptr : A → P
  ptr_inj : Function.Injective ptr
  ptr_ne_null : ∀ a, ptr a ≠ null

variable {A P : Type} {K : Pointers A P} {next : A → P} {p : P}

/-- The pointer leads to the cells, in this order; `next a` is the pointer in cell `a`. -/
inductive Chain (K : Pointers A P) (next : A → P) : P → List A → Prop
  | nil : Chain K next K.null []
  | cons {a : A} {as : List A} (h : Chain K next (next a) as) : Chain K next (K.ptr a) (a :: as)

theorem Chain.congr {next' : A → P} {as : List A} (h : Chain K next p as) (heq : ∀ a ∈ as, next' a = next a) :
    Chain K next' p as := by
  induction h with
  | nil => exact .nil
  | cons _ ih =>
    have htail := ih fun a ha => heq a (List.mem_cons_of_mem _ ha)
    rw [← heq _ List.mem_cons_self] at htail
    exact .cons htail

/-- A write to a cell outside the list. -/
theorem Chain.update [DecidableEq A] {as : List A} {b : A} (h : Chain K next p as) (hb : b ∉ as) (q : P) :
    Chain K (Function.update next b q) p as :=
  h.congr fun _ ha => Function.update_of_ne (ne_of_mem_of_not_mem ha hb) ..

theorem Chain.null_or_ptr {as : List A} (h : Chain K next p as) : p = K.null ∨ ∃ a, p = K.ptr a := by
  cases h with
  | nil => exact .inl rfl
  | cons _ => exact .inr ⟨_, rfl⟩

theorem Chain.null_inv {as : List A} (h : Chain K next K.null as) : as = [] := by
  generalize hq : K.null = q at h
  cases h with
  | nil => rfl
  | cons _ => exact absurd hq.symm (K.ptr_ne_null _)

theorem Chain.ptr_inv {as : List A} {a : A} (h : Chain K next (K.ptr a) as) :
    ∃ rest, as = a :: rest ∧ Chain K next (next a) rest := by
  generalize hq : K.ptr a = q at h
  cases h with
  | nil => exact absurd hq (K.ptr_ne_null _)
  | cons h =>
    cases K.ptr_inj hq
    exact ⟨_, rfl, h⟩

/-- The pointer in a cell of the list leads to the cells after it. -/
theorem Chain.after {b : A} {bs : List A} : ∀ {p : P} {as : List A}, Chain K next p (as ++ b :: bs) →
    Chain K next (next b) bs
  | _, [], h => by
    cases h with
    | cons h => exact h
  | _, _ :: _, h => by
    cases h with
    | cons h => exact h.after

/-- Writing the null pointer to a cell cuts off the cells after it. -/
theorem Chain.cut [DecidableEq A] {b : A} {bs : List A} : ∀ {p : P} {as : List A}, Chain K next p (as ++ b :: bs) →
    b ∉ as → Chain K (Function.update next b K.null) p (as ++ [b])
  | _, [], h, _ => by
    cases h with
    | cons _ =>
      refine .cons ?_
      rw [Function.update_self]
      exact .nil
  | _, a :: as, h, hb => by
    cases h with
    | cons h =>
      refine .cons ?_
      rw [Function.update_of_ne (ne_of_mem_of_not_mem List.mem_cons_self hb)]
      exact h.cut fun hmem => hb (List.mem_cons_of_mem _ hmem)

end Bosched.Lib
