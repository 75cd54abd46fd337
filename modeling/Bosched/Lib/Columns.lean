/-
Matrices stored column by column, with the array operations of a language that counts from one: selecting rows or
columns, flattening, transposing, and setting vectors side by side. Every operation is described by the entries of its
result.
-/
import Mathlib.Data.Fin.Basic
import Mathlib.Data.List.OfFn

namespace Bosched.Lib

variable {α : Type}

/-- A `rows` by `cols` matrix, one column after the other. -/
structure Columns (α : Type) where
  rows : Nat
  cols : Nat
  data : List α
  length_data : data.length = cols * rows

namespace Columns

/-- Row `i` of column `j`, both counted from zero. -/
def get (M : Columns α) (i : Fin M.rows) (j : Fin M.cols) : α := M.data.get ((Fin.mkDivMod j i).cast M.length_data.symm)

/-- The entry in row `i` of column `j`, both counted from one; `none` is out of bounds. -/
def entry (M : Columns α) (i j : Nat) : Option α :=
  if h : (1 ≤ i ∧ i ≤ M.rows) ∧ 1 ≤ j ∧ j ≤ M.cols then some (M.get ⟨i - 1, by omega⟩ ⟨j - 1, by omega⟩) else none

def ofFn (rows cols : Nat) (f : Fin rows → Fin cols → α) : Columns α where
  rows := rows
  cols := cols
  data := List.ofFn fun k : Fin (cols * rows) => f k.modNat k.divNat
  length_data := List.length_ofFn

/-! ## Operations -/

/-- `M[idx, :]`; `none` is an index out of bounds. -/
def rowsAt (M : Columns α) (idx : List Nat) : Option (Columns α) :=
  if h : ∀ i ∈ idx, 1 ≤ i ∧ i ≤ M.rows then
    some (ofFn idx.length M.cols fun i j => M.get ⟨idx.get i - 1, by have := h _ (List.get_mem idx i); omega⟩ j)
  else none

/-- `M[:, idx]`; `none` is an index out of bounds. -/
def colsAt (M : Columns α) (idx : List Nat) : Option (Columns α) :=
  if h : ∀ j ∈ idx, 1 ≤ j ∧ j ≤ M.cols then
    some (ofFn M.rows idx.length fun i j => M.get i ⟨idx.get j - 1, by have := h _ (List.get_mem idx j); omega⟩)
  else none

/-- `vcat(M...)`. -/
def flatten (M : Columns α) : List α := M.data

/-- `v'` of a vector. -/
def rowVector (v : List α) : Columns α := ⟨1, v.length, v, (Nat.mul_one _).symm⟩

/-- `M'`. -/
def transpose (M : Columns α) : Columns α := ofFn M.cols M.rows fun i j => M.get j i

/-- `M[i, :]`. -/
def row (M : Columns α) (i : Nat) : Option (List α) :=
  if h : 1 ≤ i ∧ i ≤ M.rows then some (List.ofFn (M.get ⟨i - 1, by omega⟩)) else none

/-- `M[:, j]`. -/
def col (M : Columns α) (j : Nat) : Option (List α) :=
  if h : 1 ≤ j ∧ j ≤ M.cols then some (List.ofFn fun i => M.get i ⟨j - 1, by omega⟩) else none

/-- `M[:, j] = v`; `none` is out of bounds or of another length. -/
def setCol (M : Columns α) (j : Nat) (v : List α) : Option (Columns α) :=
  if h : (1 ≤ j ∧ j ≤ M.cols) ∧ v.length = M.rows then
    some (ofFn M.rows M.cols fun i k => if k + 1 = j then v.get (i.cast h.2.symm) else M.get i k)
  else none

/-- The columns `vs`; `none` is a mismatch of their lengths or no column. -/
def ofCols (vs : List (List α)) : Option (Columns α) :=
  match vs with
  | [] => none
  | v :: vs =>
    if h : ∀ w ∈ v :: vs, w.length = v.length then
      some (ofFn v.length (v :: vs).length fun i j => ((v :: vs).get j).get (i.cast (h _ (List.get_mem _ j)).symm))
    else none

/-- `hcat(v, w)` of two vectors; `none` is a mismatch of their lengths. -/
def hcat (v w : List α) : Option (Columns α) :=
  if h : w.length = v.length then some ⟨v.length, 2, v ++ w, by rw [List.length_append, h]; omega⟩ else none

/-- `v[idx]` of a vector; `none` is an index out of bounds. -/
def gather (v : List α) (idx : List Nat) : Option (List α) :=
  if h : ∀ i ∈ idx, 1 ≤ i ∧ i ≤ v.length then
    some (List.ofFn fun k : Fin idx.length => v.get ⟨idx.get k - 1, by have := h _ (List.get_mem idx k); omega⟩)
  else none

/-- `repeat(v, n)`. -/
def repeated (v : List α) (n : Nat) : List α := (List.replicate n v).flatten

/-! ## Entries -/

theorem entry_of_lt (M : Columns α) {i j : Nat} (hi : i < M.rows) (hj : j < M.cols) :
    M.entry (i + 1) (j + 1) = some (M.get ⟨i, hi⟩ ⟨j, hj⟩) := by
  unfold entry
  rw [dif_pos (by omega)]
  rfl

theorem entry_isSome {M : Columns α} {i j : Nat} :
    (M.entry i j).isSome ↔ (1 ≤ i ∧ i ≤ M.rows) ∧ 1 ≤ j ∧ j ≤ M.cols := by
  unfold entry
  split
  · exact iff_of_true rfl ‹_›
  · exact iff_of_false Bool.false_ne_true ‹_›

/-- Element `k` of the columns laid end to end. -/
theorem data_getElem? (M : Columns α) {k : Nat} (hk : k < M.cols * M.rows) :
    M.data[k]? = M.entry (k % M.rows + 1) (k / M.rows + 1) := by
  have hr : 0 < M.rows := Nat.pos_of_ne_zero fun h => by simp [h] at hk
  have hj : k / M.rows < M.cols := Nat.div_lt_of_lt_mul (by rwa [Nat.mul_comm])
  rw [M.entry_of_lt (Nat.mod_lt k hr) hj, List.getElem?_eq_getElem (by rw [M.length_data]; exact hk)]
  unfold get
  simp [Nat.div_add_mod]

theorem entry_data (M : Columns α) {i j : Nat} (hi : i < M.rows) (hj : j < M.cols) :
    M.entry (i + 1) (j + 1) = M.data[M.rows * j + i]? := by
  rw [M.entry_of_lt hi hj]
  unfold get
  rw [List.get_eq_getElem, ← List.getElem?_eq_getElem]
  rfl

@[simp] theorem ofFn_rows (r c : Nat) (f : Fin r → Fin c → α) : (ofFn r c f).rows = r := rfl

@[simp] theorem ofFn_cols (r c : Nat) (f : Fin r → Fin c → α) : (ofFn r c f).cols = c := rfl

theorem ofFn_entry {r c : Nat} (f : Fin r → Fin c → α) {i j : Nat} (hi : i < r) (hj : j < c) :
    (ofFn r c f).entry (i + 1) (j + 1) = some (f ⟨i, hi⟩ ⟨j, hj⟩) := by
  rw [entry_data (ofFn r c f) hi hj]
  have hk : r * j + i = (Fin.mkDivMod (⟨j, hj⟩ : Fin c) ⟨i, hi⟩ : Nat) := rfl
  show (List.ofFn fun k : Fin (c * r) => f k.modNat k.divNat)[r * j + i]? = _
  rw [hk, List.getElem?_ofFn, dif_pos (Fin.mkDivMod _ _).isLt, Fin.eta, Fin.modNat_mkDivMod, Fin.divNat_mkDivMod]

theorem entry_none_of_col (M : Columns α) {i j : Nat} (h : ¬(1 ≤ j ∧ j ≤ M.cols)) : M.entry i j = none :=
  dif_neg fun hc => h hc.2

theorem entry_none_of_row (M : Columns α) {i j : Nat} (h : ¬(1 ≤ i ∧ i ≤ M.rows)) : M.entry i j = none :=
  dif_neg fun hc => h hc.1

/-- An entry in bounds, counted from zero. -/
theorem entry_pred (M : Columns α) {i j : Nat} (hi : 1 ≤ i ∧ i ≤ M.rows) (hj : 1 ≤ j ∧ j ≤ M.cols) :
    M.entry i j = some (M.get ⟨i - 1, by omega⟩ ⟨j - 1, by omega⟩) := dif_pos ⟨hi, hj⟩

theorem rowsAt_entry {M N : Columns α} {idx : List Nat} (h : M.rowsAt idx = some N) :
    N.rows = idx.length ∧ N.cols = M.cols ∧ ∀ i t j, idx[i]? = some t → N.entry (i + 1) j = M.entry t j := by
  unfold rowsAt at h
  split at h
  · rename_i hidx
    obtain rfl := Option.some.inj h
    refine ⟨rfl, rfl, fun i t j ht => ?_⟩
    obtain ⟨hi, rfl⟩ := List.getElem?_eq_some_iff.mp ht
    by_cases hj : 1 ≤ j ∧ j ≤ M.cols
    · obtain ⟨j, rfl⟩ : ∃ k, j = k + 1 := ⟨j - 1, by omega⟩
      rw [ofFn_entry _ hi hj.2, M.entry_pred (hidx _ (List.getElem_mem hi)) hj]
      rfl
    · rw [M.entry_none_of_col hj, entry_none_of_col _ (by exact hj)]
  · cases h

theorem rowsAt_isSome {M : Columns α} {idx : List Nat} (h : ∀ i ∈ idx, 1 ≤ i ∧ i ≤ M.rows) :
    ∃ N, M.rowsAt idx = some N := ⟨_, dif_pos h⟩

theorem colsAt_entry {M N : Columns α} {idx : List Nat} (h : M.colsAt idx = some N) :
    N.rows = M.rows ∧ N.cols = idx.length ∧ ∀ i j d, idx[j]? = some d → N.entry i (j + 1) = M.entry i d := by
  unfold colsAt at h
  split at h
  · rename_i hidx
    obtain rfl := Option.some.inj h
    refine ⟨rfl, rfl, fun i j d hd => ?_⟩
    obtain ⟨hj, rfl⟩ := List.getElem?_eq_some_iff.mp hd
    by_cases hi : 1 ≤ i ∧ i ≤ M.rows
    · obtain ⟨i, rfl⟩ : ∃ k, i = k + 1 := ⟨i - 1, by omega⟩
      rw [ofFn_entry _ hi.2 hj, M.entry_pred hi (hidx _ (List.getElem_mem hj))]
      rfl
    · rw [M.entry_none_of_row hi, entry_none_of_row _ (by exact hi)]
  · cases h

theorem colsAt_isSome {M : Columns α} {idx : List Nat} (h : ∀ j ∈ idx, 1 ≤ j ∧ j ≤ M.cols) :
    ∃ N, M.colsAt idx = some N := ⟨_, dif_pos h⟩

theorem transpose_entry (M : Columns α) (i j : Nat) : M.transpose.entry i j = M.entry j i := by
  by_cases hi : 1 ≤ i ∧ i ≤ M.cols
  · by_cases hj : 1 ≤ j ∧ j ≤ M.rows
    · obtain ⟨i, rfl⟩ : ∃ k, i = k + 1 := ⟨i - 1, by omega⟩
      obtain ⟨j, rfl⟩ : ∃ k, j = k + 1 := ⟨j - 1, by omega⟩
      exact (ofFn_entry _ hi.2 hj.2).trans (M.entry_pred hj hi).symm
    · rw [M.entry_none_of_row hj, entry_none_of_col _ hj]
  · rw [M.entry_none_of_col hi, entry_none_of_row _ hi]

theorem row_getElem? {M : Columns α} {i : Nat} {v : List α} (h : M.row i = some v) (k : Nat) :
    v[k]? = M.entry i (k + 1) := by
  unfold row at h
  split at h
  · rename_i hi
    obtain rfl := Option.some.inj h
    rw [List.getElem?_ofFn]
    split
    · rename_i hk
      rw [M.entry_pred hi (by omega)]
      rfl
    · rename_i hk
      rw [M.entry_none_of_col (by omega)]
  · cases h

theorem col_getElem? {M : Columns α} {j : Nat} {v : List α} (h : M.col j = some v) (k : Nat) :
    v[k]? = M.entry (k + 1) j := by
  unfold col at h
  split at h
  · rename_i hj
    obtain rfl := Option.some.inj h
    rw [List.getElem?_ofFn]
    split
    · rename_i hk
      rw [M.entry_pred (by omega) hj]
      rfl
    · rename_i hk
      rw [M.entry_none_of_row (by omega)]
  · cases h

theorem col_length {M : Columns α} {j : Nat} {v : List α} (h : M.col j = some v) : v.length = M.rows := by
  unfold col at h
  split at h
  · obtain rfl := Option.some.inj h
    exact List.length_ofFn
  · cases h

theorem col_mem {M : Columns α} {j : Nat} {v : List α} (h : M.col j = some v) : 1 ≤ j ∧ j ≤ M.cols := by
  unfold col at h
  split at h
  · assumption
  · cases h

theorem col_isSome {M : Columns α} {j : Nat} (h : 1 ≤ j ∧ j ≤ M.cols) : ∃ v, M.col j = some v := ⟨_, dif_pos h⟩

/-- A column is known by its entries. -/
theorem col_eq_some {M : Columns α} {j : Nat} {v : List α} (hj : 1 ≤ j ∧ j ≤ M.cols)
    (h : ∀ k, v[k]? = M.entry (k + 1) j) : M.col j = some v := by
  obtain ⟨w, hw⟩ := col_isSome hj
  rw [hw]
  exact congrArg some (List.ext_getElem? fun k => (col_getElem? hw k).trans (h k).symm)

theorem col_congr {M N : Columns α} {j k : Nat} {v : List α} (hk : 1 ≤ k ∧ k ≤ N.cols)
    (h : ∀ i, N.entry i k = M.entry i j) (hv : M.col j = some v) : N.col k = some v :=
  col_eq_some hk fun i => (col_getElem? hv i).trans (h (i + 1)).symm

theorem setCol_isSome {M : Columns α} {j : Nat} {v : List α} (hj : 1 ≤ j ∧ j ≤ M.cols) (hv : v.length = M.rows) :
    ∃ N, M.setCol j v = some N := ⟨_, dif_pos ⟨hj, hv⟩⟩

theorem setCol_entry {M N : Columns α} {j : Nat} {v : List α} (h : M.setCol j v = some N) :
    (N.rows = M.rows ∧ N.cols = M.cols) ∧ ∀ i k, N.entry (i + 1) k = if k = j then v[i]? else M.entry (i + 1) k := by
  unfold setCol at h
  split at h
  · rename_i hb
    obtain rfl := Option.some.inj h
    refine ⟨⟨rfl, rfl⟩, fun i k => ?_⟩
    by_cases hin : i < M.rows ∧ 1 ≤ k ∧ k ≤ M.cols
    · obtain ⟨k, rfl⟩ : ∃ l, k = l + 1 := ⟨k - 1, by omega⟩
      have hi : i < v.length := by omega
      rw [ofFn_entry _ hin.1 (by omega), M.entry_of_lt hin.1 (by omega), List.getElem?_eq_getElem hi]
      split <;> rfl
    · have hN : entry (ofFn M.rows M.cols fun i k => if k + 1 = j then v.get (i.cast hb.2.symm) else M.get i k) (i + 1) k =
          none := dif_neg fun hc => hin ⟨hc.1.2, hc.2⟩
      have hM : M.entry (i + 1) k = none := dif_neg fun hc => hin ⟨hc.1.2, hc.2⟩
      rw [hN, hM]
      split
      · rename_i hk
        exact (List.getElem?_eq_none (by omega)).symm
      · rfl
  · cases h

theorem setCol_col {M N : Columns α} {j : Nat} {v : List α} (h : M.setCol j v = some N) (hj : 1 ≤ j ∧ j ≤ M.cols) :
    N.col j = some v := by
  obtain ⟨⟨-, hcols⟩, hentry⟩ := setCol_entry h
  exact col_eq_some (hcols ▸ hj) fun k => by rw [hentry, if_pos rfl]

theorem setCol_col_ne {M N : Columns α} {j k : Nat} {v : List α} (h : M.setCol j v = some N) (hk : k ≠ j) :
    N.col k = M.col k := by
  obtain ⟨⟨-, hcols⟩, hentry⟩ := setCol_entry h
  by_cases hb : 1 ≤ k ∧ k ≤ M.cols
  · obtain ⟨w, hw⟩ := col_isSome hb
    rw [hw]
    exact col_eq_some (hcols ▸ hb) fun i => by rw [hentry, if_neg hk, col_getElem? hw]
  · have hN : N.col k = none := dif_neg (hcols ▸ hb)
    have hM : M.col k = none := dif_neg hb
    rw [hN, hM]

theorem ofCols_col {vs : List (List α)} {M : Columns α} (h : ofCols vs = some M) :
    M.cols = vs.length ∧ (∀ v ∈ vs, v.length = M.rows) ∧ ∀ j, M.col (j + 1) = vs[j]? := by
  unfold ofCols at h
  split at h
  · cases h
  · rename_i v vs
    split at h
    · rename_i hb
      obtain rfl := Option.some.inj h
      refine ⟨rfl, hb, fun j => ?_⟩
      by_cases hj : j < (v :: vs).length
      · rw [List.getElem?_eq_getElem hj]
        refine col_eq_some ⟨by omega, hj⟩ fun k => ?_
        have hlen := hb _ (List.getElem_mem hj)
        by_cases hk : k < v.length
        · rw [ofFn_entry _ hk hj, List.getElem?_eq_getElem (by omega)]
          rfl
        · rw [List.getElem?_eq_none (by omega), entry_none_of_row _ fun hc => hk hc.2]
      · rw [List.getElem?_eq_none (by omega)]
        exact dif_neg fun hc => hj hc.2
    · cases h

theorem rowVector_row (v : List α) : (rowVector v).row 1 = some v := by
  have hrow : (rowVector v).row 1 = some (List.ofFn ((rowVector v).get ⟨0, Nat.one_pos⟩)) :=
    dif_pos ⟨le_refl 1, le_refl 1⟩
  rw [hrow]
  congr 1
  apply List.ext_getElem?
  intro k
  rw [row_getElem? hrow]
  by_cases hk : k < v.length
  · rw [show (1 : Nat) = 0 + 1 from rfl, entry_data (rowVector v) Nat.one_pos hk]
    show v[1 * k + 0]? = v[k]?
    rw [Nat.one_mul, Nat.add_zero]
  · rw [List.getElem?_eq_none (by omega), entry_none_of_col]
    show ¬(1 ≤ k + 1 ∧ k + 1 ≤ v.length)
    omega

theorem hcat_entry {v w : List α} {N : Columns α} (h : hcat v w = some N) :
    N.rows = v.length ∧ N.cols = 2 ∧ ∀ i, N.entry (i + 1) 1 = v[i]? ∧ N.entry (i + 1) 2 = w[i]? := by
  unfold hcat at h
  split at h
  · rename_i hlen
    obtain rfl := Option.some.inj h
    refine ⟨rfl, rfl, fun i => ?_⟩
    by_cases hi : i < v.length
    · refine ⟨(entry_data _ hi (j := 0) Nat.two_pos).trans ?_, (entry_data _ hi (j := 1) Nat.one_lt_two).trans ?_⟩
      · show (v ++ w)[v.length * 0 + i]? = _
        rw [Nat.mul_zero, Nat.zero_add, List.getElem?_append_left hi]
      · show (v ++ w)[v.length * 1 + i]? = _
        rw [Nat.mul_one, List.getElem?_append_right (Nat.le_add_right _ _), Nat.add_sub_cancel_left]
    · rw [List.getElem?_eq_none (by omega), List.getElem?_eq_none (by omega)]
      have hrow : ¬(1 ≤ i + 1 ∧ i + 1 ≤ v.length) := by omega
      exact ⟨entry_none_of_row _ hrow, entry_none_of_row _ hrow⟩
  · cases h

theorem hcat_isSome {v w : List α} (h : w.length = v.length) : ∃ N, hcat v w = some N := ⟨_, dif_pos h⟩

theorem repeated_length (v : List α) (n : Nat) : (repeated v n).length = n * v.length := by
  simp [repeated]

theorem repeated_getElem? (v : List α) {n : Nat} : ∀ {k : Nat}, k < n * v.length → (repeated v n)[k]? = v[k % v.length]? := by
  induction n with
  | zero => intro k hk; omega
  | succ n ih =>
    intro k hk
    show (v ++ repeated v n)[k]? = _
    by_cases hv : k < v.length
    · rw [List.getElem?_append_left hv, Nat.mod_eq_of_lt hv]
    · rw [List.getElem?_append_right (by omega), ih (by rw [Nat.succ_mul] at hk; omega),
        ← Nat.mod_eq_sub_mod (by omega)]

theorem gather_getElem? {v w : List α} {idx : List Nat} (h : gather v idx = some w) :
    w.length = idx.length ∧ ∀ k i : Nat, idx[k]? = some (i + 1) → w[k]? = v[i]? := by
  unfold gather at h
  split at h
  · obtain rfl := Option.some.inj h
    refine ⟨List.length_ofFn, fun k i hk => ?_⟩
    obtain ⟨hlt, hi⟩ := List.getElem?_eq_some_iff.mp hk
    rw [List.getElem?_ofFn, dif_pos hlt, List.get_eq_getElem, ← List.getElem?_eq_getElem]
    simp [hi]
  · cases h

theorem gather_isSome {v : List α} {idx : List Nat} (h : ∀ i ∈ idx, 1 ≤ i ∧ i ≤ v.length) :
    ∃ w, gather v idx = some w := ⟨_, dif_pos h⟩

end Columns

end Bosched.Lib
