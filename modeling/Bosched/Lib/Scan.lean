/-
Scanning a list of characters: the longest run of characters of a class is the only run that is followed by none, and
an unsigned decimal with its sign is such a run.
-/
import Mathlib.Data.List.TakeWhile

namespace Bosched.Lib

variable {α : Type}

/-- Nothing of the class `p` comes first in `rest`. -/
def Stops (p : α → Bool) (rest : List α) : Prop := ∀ c, rest.head? = some c → p c = false

theorem Stops.nil (p : α → Bool) : Stops p [] := nofun

theorem Stops.cons {p : α → Bool} {c : α} (h : p c = false) (rest : List α) : Stops p (c :: rest) := by
  rintro _ ⟨⟩
  exact h

theorem stops_dropWhile (p : α → Bool) (l : List α) : Stops p (l.dropWhile p) := by
  intro c hc
  have h := List.head?_dropWhile_not p l
  rw [hc] at h
  exact h

theorem dropWhile_run {p : α → Bool} {run rest : List α} (hrun : ∀ c ∈ run, p c = true) (hrest : Stops p rest) :
    (run ++ rest).dropWhile p = rest := by
  rw [List.dropWhile_append_of_pos hrun]
  cases rest with
  | nil => rfl
  | cons c rest => exact List.dropWhile_cons_of_neg (by rw [hrest c rfl]; exact Bool.false_ne_true)

theorem takeWhile_run {p : α → Bool} {run rest : List α} (hrun : ∀ c ∈ run, p c = true) (hrest : Stops p rest) :
    (run ++ rest).takeWhile p = run := by
  rw [List.takeWhile_append_of_pos hrun]
  cases rest with
  | nil => simp
  | cons c rest => rw [List.takeWhile_cons_of_neg (by rw [hrest c rfl]; exact Bool.false_ne_true), List.append_nil]

/-- Every list is a run and a rest that does not continue it. -/
theorem exists_run (p : α → Bool) (l : List α) :
    ∃ run rest, l = run ++ rest ∧ (∀ c ∈ run, p c = true) ∧ Stops p rest :=
  ⟨l.takeWhile p, l.dropWhile p, List.takeWhile_append_dropWhile.symm, fun _ h => List.mem_takeWhile_imp h,
    stops_dropWhile p l⟩

/-! ## Numerals -/

/-- The value of decimal digits, the most significant first. -/
def decimal (ds : List Char) : Nat := ds.foldl (fun n c => 10 * n + (c.toNat - '0'.toNat)) 0

/-- An optional sign and at least one digit: whether there is a minus sign, and the value of the digits. -/
inductive Numeral : List Char → Bool → Nat → Prop
  | plain {ds : List Char} : ds ≠ [] → (∀ c ∈ ds, c.isDigit = true) → Numeral ds false (decimal ds)
  | plus {ds : List Char} : ds ≠ [] → (∀ c ∈ ds, c.isDigit = true) → Numeral ('+' :: ds) false (decimal ds)
  | minus {ds : List Char} : ds ≠ [] → (∀ c ∈ ds, c.isDigit = true) → Numeral ('-' :: ds) true (decimal ds)

/-- A numeral begins with its sign or a digit. -/
theorem Numeral.stops {p : Char → Bool} (hplus : p '+' = false) (hminus : p '-' = false)
    (hdigit : ∀ c : Char, c.isDigit = true → p c = false) {num : List Char} {neg : Bool} {n : Nat}
    (h : Numeral num neg n) (rest : List Char) : num ≠ [] ∧ Stops p (num ++ rest) := by
  cases h with
  | plain hne hds =>
    obtain ⟨c, ds, rfl⟩ := List.exists_cons_of_ne_nil hne
    exact ⟨hne, .cons (hdigit c (hds c List.mem_cons_self)) _⟩
  | plus => exact ⟨List.cons_ne_nil _ _, .cons hplus _⟩
  | minus => exact ⟨List.cons_ne_nil _ _, .cons hminus _⟩

end Bosched.Lib
