/-
Queues in circular buffers: the entries from the head on, wrapping at the capacity. An index is
wrapped by one comparison and one subtraction, as the buffers of real programs do it.
-/
import Mathlib.Data.List.Range
import Mathlib.Logic.Function.Basic
import Mathlib.Tactic

namespace Bosched.Lib

/-- An index below `2 * n`, wrapped at `n`. -/
def wrap (n i : Nat) : Nat := if n ≤ i then i - n else i

theorem wrap_lt {n i : Nat} (h : i < 2 * n) : wrap n i < n := by
  unfold wrap; split <;> omega

/-- The slots of a queue do not overlap. -/
theorem wrap_inj {n head i j : Nat} (hi : i < n) (hj : j < n) (h : wrap n (head + i) = wrap n (head + j)) :
    i = j := by
  unfold wrap at h; split at h <;> split at h <;> omega

theorem wrap_of_lt {n i : Nat} (h : i < n) : wrap n i = i := if_neg (by omega)

theorem wrap_succ {n head i : Nat} (hh : head < n) (hi : i + 1 < n) :
    wrap n (wrap n (head + 1) + i) = wrap n (head + (i + 1)) := by
  unfold wrap; split <;> split <;> split <;> omega

section

variable {α : Type} {n head used : Nat} {buf : Nat → α}

/-- The `used` entries from `head` on. -/
def ring (n head used : Nat) (buf : Nat → α) : List α := (List.range used).map fun i => buf (wrap n (head + i))

@[simp] theorem ring_zero : ring n head 0 buf = [] := rfl

@[simp] theorem ring_length : (ring n head used buf).length = used := by simp [ring]

theorem ring_one (h : head < n) : ring n head 1 buf = [buf head] := by
  simp [ring, wrap_of_lt h]

/-- Writing the slot behind the last entry appends it. -/
theorem ring_push (head : Nat) (buf : Nat → α) (hu : used < n) (a : α) :
    ring n head (used + 1) (Function.update buf (wrap n (head + used)) a) = ring n head used buf ++ [a] := by
  have hrest : (List.range used).map (fun i => Function.update buf (wrap n (head + used)) a (wrap n (head + i))) =
      ring n head used buf := by
    refine List.map_congr_left fun i hi => ?_
    have hi := List.mem_range.1 hi
    exact Function.update_of_ne (fun h => by have := wrap_inj (by omega) hu h; omega) ..
  unfold ring at hrest ⊢
  rw [List.range_succ, List.map_append, hrest, List.map_singleton, Function.update_self]

/-- The head, and the entries behind it. -/
theorem ring_pop (hh : head < n) (hu : used < n) :
    ring n head (used + 1) buf = buf head :: ring n (wrap n (head + 1)) used buf := by
  unfold ring
  rw [List.range_succ_eq_map, List.map_cons, List.map_map, Nat.add_zero, wrap_of_lt hh]
  congr 1
  refine List.map_congr_left fun i hi => ?_
  have hi := List.mem_range.1 hi
  show buf (wrap n (head + (i + 1))) = _
  rw [wrap_succ hh (by omega)]

/-- In a full buffer, moving the head by one moves the first entry to the back. -/
theorem ring_full (hh : head < n) {a : α} {q : List α} (h : ring n head n buf = a :: q) :
    ring n (wrap n (head + 1)) n buf = q ++ [a] := by
  obtain ⟨m, rfl⟩ : ∃ m, n = m + 1 := ⟨n - 1, by omega⟩
  rw [ring_pop hh (by omega)] at h
  cases h
  have hlast : wrap (m + 1) (wrap (m + 1) (head + 1) + m) = head := by
    unfold wrap; split <;> split <;> omega
  unfold ring
  rw [List.range_succ, List.map_append, List.map_singleton, hlast]

end

end Bosched.Lib
