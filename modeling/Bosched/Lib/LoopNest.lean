/-
A perfect nest of counted loops, its iterations numbered in the order they run: the iteration
vector of a number (`vec`), and two ways to compare iterations without their numbers, by their
components from the outermost in, and by one number with a bit field for each component.
-/
import Mathlib.Tactic

namespace Bosched.Lib

/-- The iteration vector of iteration `r` of a nest with the given trip counts. -/
def vec : List Nat → Nat → List Nat
  | [], _ => []
  | _ :: ks, r => r / ks.prod :: vec ks (r % ks.prod)

theorem vec_length : ∀ (counts : List Nat) (r : Nat), (vec counts r).length = counts.length
  | [], _ => rfl
  | _ :: ks, r => by rw [vec, List.length_cons, List.length_cons, vec_length ks]

/-- The outermost `m` components of an iteration, as a number in their nest. -/
def outer (counts : List Nat) (m r : Nat) : Nat := r / (counts.drop m).prod

theorem outer_zero {counts : List Nat} {r : Nat} (hr : r < counts.prod) : outer counts 0 r = 0 :=
  Nat.div_eq_of_lt hr

theorem outer_length (counts : List Nat) (r : Nat) : outer counts counts.length r = r := by
  unfold outer
  rw [List.drop_length, List.prod_nil, Nat.div_one]

theorem outer_mono (counts : List Nat) (m : Nat) {r r' : Nat} (h : r ≤ r') : outer counts m r ≤ outer counts m r' :=
  Nat.div_le_div_right h

theorem lt_of_outer_lt {counts : List Nat} {m r r' : Nat} (h : outer counts m r < outer counts m r') : r < r' := by
  by_contra hle
  have := outer_mono counts m (Nat.not_lt.1 hle)
  omega

theorem outer_cons (k : Nat) {ks : List Nat} (hpos : 0 < ks.prod) (m r : Nat) :
    outer (k :: ks) (m + 1) r = r / ks.prod * (ks.take m).prod + outer ks m (r % ks.prod) := by
  have hdrop : 0 < (ks.drop m).prod := by
    rw [← List.prod_take_mul_prod_drop ks m] at hpos
    exact Nat.pos_of_mul_pos_left hpos
  unfold outer
  rw [List.drop_succ_cons]
  have hsplit : r = (ks.drop m).prod * (r / ks.prod * (ks.take m).prod) + r % ks.prod := by
    have h1 := Nat.div_add_mod r ks.prod
    have h2 := List.prod_take_mul_prod_drop ks m
    calc r = ks.prod * (r / ks.prod) + r % ks.prod := h1.symm
      _ = (ks.take m).prod * (ks.drop m).prod * (r / ks.prod) + r % ks.prod := by rw [h2]
      _ = _ := by ring
  conv_lhs => rw [hsplit]
  exact Nat.mul_add_div hdrop _ _

/-- The next component takes the comparison one loop further in. -/
theorem outer_succ : ∀ {counts : List Nat} {m r : Nat}, r < counts.prod → ∀ h : m < counts.length,
    outer counts (m + 1) r = outer counts m r * counts[m] + (vec counts r).getD m 0
  | [], m, r, _, h => by simp at h
  | k :: ks, 0, r, hr, h => by
    rw [outer_zero hr]
    simp [outer, vec]
  | k :: ks, m + 1, r, hr, h => by
    have hpos : 0 < ks.prod := by
      rw [List.prod_cons] at hr
      exact Nat.pos_of_ne_zero fun h0 => by rw [h0] at hr; omega
    have hm : m < ks.length := by simpa using h
    rw [outer_cons k hpos, outer_cons k hpos, outer_succ (Nat.mod_lt _ hpos) hm, List.prod_take_succ _ _ hm]
    simp only [vec, List.getElem_cons_succ, List.getD_cons_succ]
    ring

/-- A component is below its trip count. -/
theorem vec_getD_lt : ∀ {counts : List Nat} {m r : Nat}, r < counts.prod → ∀ h : m < counts.length,
    (vec counts r).getD m 0 < counts[m]
  | [], m, r, _, h => by simp at h
  | k :: ks, m, r, hr, h => by
    rw [List.prod_cons] at hr
    have hpos : 0 < ks.prod := Nat.pos_of_ne_zero fun h0 => by rw [h0] at hr; omega
    cases m with
    | zero =>
      simp only [vec, List.getD_cons_zero, List.getElem_cons_zero]
      exact Nat.div_lt_of_lt_mul (by rw [mul_comm]; exact hr)
    | succ m =>
      simp only [vec, List.getD_cons_succ, List.getElem_cons_succ]
      exact vec_getD_lt (Nat.mod_lt _ hpos) (by simpa using h)

/-! ## Bit fields -/

/-- A number for an iteration with a field of `bits k` bits for a component below `k`. -/
def packed (bits : Nat → Nat) : List Nat → Nat → Nat
  | [], _ => 0
  | _ :: ks, r => r / ks.prod * 2 ^ (ks.map bits).sum + packed bits ks (r % ks.prod)

variable {bits : Nat → Nat} (hbits : ∀ k, k ≤ 2 ^ bits k)

include hbits

theorem packed_lt : ∀ {counts : List Nat} {r : Nat}, r < counts.prod → packed bits counts r < 2 ^ (counts.map bits).sum
  | [], r, _ => by simp [packed]
  | k :: ks, r, hr => by
    rw [List.prod_cons] at hr
    have hpos : 0 < ks.prod := Nat.pos_of_ne_zero fun h0 => by rw [h0] at hr; omega
    have hq : r / ks.prod < k := Nat.div_lt_of_lt_mul (by rw [mul_comm]; exact hr)
    have ih := packed_lt (Nat.mod_lt r hpos)
    rw [packed, List.map_cons, List.sum_cons, pow_add]
    calc r / ks.prod * 2 ^ (ks.map bits).sum + packed bits ks (r % ks.prod)
        < (r / ks.prod + 1) * 2 ^ (ks.map bits).sum := by rw [Nat.succ_mul]; omega
      _ ≤ 2 ^ bits k * 2 ^ (ks.map bits).sum := Nat.mul_le_mul_right _ (le_trans hq (hbits k))

/-- The packed numbers are in the order of the iterations. -/
theorem packed_lt_packed : ∀ {counts : List Nat} {r r' : Nat}, r' < counts.prod → r < r' →
    packed bits counts r < packed bits counts r'
  | [], r, r', hr', h => by simp at hr'; omega
  | k :: ks, r, r', hr', h => by
    rw [List.prod_cons] at hr'
    have hpos : 0 < ks.prod := Nat.pos_of_ne_zero fun h0 => by rw [h0] at hr'; omega
    rw [packed, packed]
    rcases Nat.lt_or_ge (r / ks.prod) (r' / ks.prod) with hlt | hge
    · have h1 := packed_lt hbits (Nat.mod_lt r hpos)
      have h2 : (r / ks.prod + 1) * 2 ^ (ks.map bits).sum ≤ r' / ks.prod * 2 ^ (ks.map bits).sum :=
        Nat.mul_le_mul_right _ hlt
      rw [Nat.succ_mul] at h2
      omega
    · have heq : r / ks.prod = r' / ks.prod := le_antisymm (Nat.div_le_div_right (le_of_lt h)) hge
      have h1 := Nat.div_add_mod r ks.prod
      have h2 := Nat.div_add_mod r' ks.prod
      rw [heq] at h1 ⊢
      have := packed_lt_packed (Nat.mod_lt r' hpos) (by omega : r % ks.prod < r' % ks.prod)
      omega

end Bosched.Lib
