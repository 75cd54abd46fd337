/-
`parse_schedule` of `env.c`, from the text of `OMP_SCHEDULE` to the two schedule variables. The kind is assigned before
the rest of the text is looked at, `taper` advances the cursor by one character too few, and the chunk size goes through
`strtoul`, which takes a minus sign.
-/
import Bosched.Lib.Scan
import Bosched.Runtime.Types

namespace Bosched

open Lib

/-! ## `env.c` -/

/-- The fields of `gomp_global_icv` that `parse_schedule` writes. -/
structure Icv where
  runSchedVar : GompScheduleType
  runSchedChunkSize : BitVec 32
  deriving DecidableEq

/-- `isspace`, in the locale of program start. -/
def isspace (c : Char) : Bool := [' ', '\t', '\n', '\x0b', '\x0c', '\r'].contains c

/-- `while (isspace (*env)) ++env;` -/
def skipSpace (env : List Char) : List Char := env.dropWhile isspace

/-- `strncasecmp (env, name, n) == 0`. -/
def strncasecmpEq (env name : List Char) (n : Nat) : Bool :=
  (env.take n).map Char.toLower == (name.take n).map Char.toLower

/-- One of the tests of `parse_schedule`: `strncasecmp (env, name, len) == 0` assigns `kind` and adds `advance`. -/
structure ScheduleTest where
  name : String
  len : Nat
  kind : GompScheduleType
  advance : Nat
  deriving DecidableEq

def scheduleTests : List ScheduleTest :=
  [ ⟨"static", 6, .gfsStatic, 6⟩,
    ⟨"dynamic", 7, .gfsDynamic, 7⟩,
    ⟨"guided", 6, .gfsGuided, 6⟩,
    ⟨"auto", 4, .gfsAuto, 4⟩,
    ⟨"afac", 4, .fsAfac, 4⟩,
    ⟨"binlpt", 6, .fsBinlpt, 6⟩,
    ⟨"hss", 3, .fsHss, 3⟩,
    ⟨"fac2", 4, .fsFac2, 4⟩,
    ⟨"fss", 3, .fsFss, 3⟩,
    ⟨"tss", 3, .fsTss, 3⟩,
    ⟨"trap1", 5, .fsTrap1, 5⟩,
    ⟨"css", 3, .fsCss, 3⟩,
    ⟨"taper", 5, .fsTape, 4⟩,
    ⟨"tape3", 5, .fsTape3, 5⟩,
    ⟨"bo_tape", 7, .boTape, 7⟩,
    ⟨"bo_css", 6, .boCss, 6⟩,
    ⟨"bo_fss", 6, .boFss, 6⟩,
    ⟨"bo_fac", 6, .boFac, 6⟩,
    ⟨"bo_tss", 6, .boTss, 6⟩ ]

/-- `strtoul (s, &end, 10)`: the value, the rest of the text, and whether `errno` was set. -/
def strtoul (s : List Char) : Word × List Char × Bool :=
  let t := skipSpace s
  let neg := t.head? = some '-'
  let t := if t.head? = some '-' ∨ t.head? = some '+' then t.tail else t
  let ds := t.takeWhile Char.isDigit
  if ds = [] then (0, s, false)
  else
    let rest := t.dropWhile Char.isDigit
    let n := decimal ds
    if n < 2 ^ 64 then (if neg then -BitVec.ofNat 64 n else BitVec.ofNat 64 n, rest, false)
    else (BitVec.allOnes 64, rest, true)

def unknownValue : String := "Unknown value for environment variable OMP_SCHEDULE"

def invalidValue : String := "Invalid value for chunk size in environment variable OMP_SCHEDULE"

/-- `value` as an `int`, converted back. -/
def throughInt (value : Word) : Word := (value.setWidth 32).signExtend 64

/-- `parse_schedule` from behind the name on: the chunk size, or the error that is reported. -/
def parseChunkSize (kind : GompScheduleType) (env : List Char) : Except String (BitVec 32) :=
  match skipSpace env with
  | [] => .ok (if kind ≠ .gfsStatic then 1 else 0)
  | c :: env =>
    if c ≠ ',' then .error unknownValue
    else
      let env := skipSpace env
      if env = [] then .error invalidValue
      else
        let (value, rest, errno) := strtoul env
        if errno then .error invalidValue
        else if skipSpace rest ≠ [] then .error invalidValue
        else if throughInt value ≠ value then .error invalidValue
        else .ok ((if value = 0 ∧ kind ≠ .gfsStatic then 1 else value).setWidth 32)

/-- `parse_schedule` on the value of `OMP_SCHEDULE`: the variables behind it, and the error it reports. -/
def parseSchedule (env : Option (List Char)) (icv : Icv) : Icv × Option String :=
  match env with
  | none => (icv, none)
  | some env =>
    let env := skipSpace env
    match scheduleTests.find? fun t => strncasecmpEq env t.name.toList t.len with
    | none => (icv, some unknownValue)
    | some t =>
      let icv := { icv with runSchedVar := t.kind }
      match parseChunkSize t.kind (env.drop t.advance) with
      | .ok size => ({ icv with runSchedChunkSize := size }, none)
      | .error e => (icv, some e)

/-! ## The values of `OMP_SCHEDULE` -/

def Blank (text : List Char) : Prop := ∀ c ∈ text, isspace c = true

/-- `text` is the name of the test, in any case. -/
def ScheduleTest.Names (t : ScheduleTest) (text : List Char) : Prop := text.map Char.toLower = t.name.toList

/-- `text` is a name, blanks around it, followed by `tail`. -/
def ScheduleTest.Starts (t : ScheduleTest) (text tail : List Char) : Prop :=
  ∃ blank name, Blank blank ∧ t.Names name ∧ text = blank ++ (name ++ tail)

/-- A comma and `num`, blanks around both. -/
def CommaThen (num tail : List Char) : Prop :=
  ∃ w₁ w₂ w₃, Blank w₁ ∧ Blank w₂ ∧ Blank w₃ ∧ tail = w₁ ++ ',' :: (w₂ ++ (num ++ w₃))

/-- What may follow the name: nothing, or a comma and a number without minus sign that fits an `int`. -/
inductive ChunkText : Option Nat → List Char → Prop
  | absent {tail : List Char} : Blank tail → ChunkText none tail
  | size {num tail : List Char} {n : Nat} : Numeral num false n → n < 2 ^ 31 → CommaThen num tail → ChunkText (some n) tail

/-- The values with a meaning: a kind and the number given as chunk size. -/
def Means (text : List Char) (kind : GompScheduleType) (n : Option Nat) : Prop :=
  ∃ t ∈ scheduleTests, t.kind = kind ∧ ∃ tail, t.Starts text tail ∧ ChunkText n tail

/-- The chunk size of a value: the default, or the number with one for zero except for `static`. -/
def chunkSizeOf (kind : GompScheduleType) : Option Nat → BitVec 32
  | none => if kind = .gfsStatic then 0 else 1
  | some n => BitVec.ofNat 32 (if n = 0 ∧ kind ≠ .gfsStatic then 1 else n)

/-- A value is accepted exactly if it has a meaning, which is then assigned, and an error changes nothing. -/
structure ParsesSchedule (text : List Char) (icv : Icv) : Prop where
  accepts : (parseSchedule (some text) icv).2 = none ↔ ∃ kind n, Means text kind n
  assigns : ∀ kind n, (parseSchedule (some text) icv).2 = none → Means text kind n →
    (parseSchedule (some text) icv).1 = ⟨kind, chunkSizeOf kind n⟩
  keeps : (parseSchedule (some text) icv).2 ≠ none → (parseSchedule (some text) icv).1 = icv

/-- A numeral that is not a number for `ChunkText`, but whose value modulo the range of `unsigned long` is an `int`. -/
def Wraps (neg : Bool) (n : Nat) : Prop :=
  n < 2 ^ 64 ∧ if neg then n ≤ 2 ^ 31 ∨ 2 ^ 64 - 2 ^ 31 < n else 2 ^ 64 - 2 ^ 31 ≤ n

/-- A comma and such a numeral. -/
def WrappedText (tail : List Char) : Prop := ∃ num neg n, Numeral num neg n ∧ Wraps neg n ∧ CommaThen num tail

example : parseSchedule (some " Guided , 16".toList) ⟨.gfsDynamic, 1⟩ = (⟨.gfsGuided, 16⟩, none) := by decide

/-! ## Characters -/

theorem isspace_iff {c : Char} : isspace c = true ↔ c ∈ [' ', '\t', '\n', '\x0b', '\x0c', '\r'] := by
  unfold isspace
  rw [List.contains_iff_mem]

theorem isspace_digit {c : Char} (h : c.isDigit = true) : isspace c = false := by
  cases hc : isspace c with
  | false => rfl
  | true =>
    have hnone : ∀ c ∈ [' ', '\t', '\n', '\x0b', '\x0c', '\r'], Char.isDigit c = false := by
      simp only [List.forall_mem_cons, List.not_mem_nil, false_imp_iff, implies_true, and_true]
      decide
    rw [hnone c (isspace_iff.mp hc)] at h
    cases h

theorem skipSpace_run {blank rest : List Char} (h : Blank blank) (hrest : Stops isspace rest) :
    skipSpace (blank ++ rest) = rest := dropWhile_run h hrest

theorem skipSpace_stops {rest : List Char} (h : Stops isspace rest) : skipSpace rest = rest :=
  skipSpace_run (show Blank [] from nofun) h

theorem skipSpace_stop (text : List Char) : Stops isspace (skipSpace text) := stops_dropWhile isspace text

theorem skipSpace_eq_nil {text : List Char} : skipSpace text = [] ↔ Blank text := List.dropWhile_eq_nil_iff

/-- Blanks and what `skipSpace` leaves. -/
theorem exists_blank (text : List Char) : ∃ blank, Blank blank ∧ text = blank ++ skipSpace text :=
  ⟨text.takeWhile isspace, fun _ h => List.mem_takeWhile_imp h, List.takeWhile_append_dropWhile.symm⟩

theorem numeral_stops {num : List Char} {neg : Bool} {n : Nat} (h : Numeral num neg n) (rest : List Char) :
    num ≠ [] ∧ Stops isspace (num ++ rest) := h.stops (by decide) (by decide) (fun _ hc => isspace_digit hc) rest

/-! ## `strtoul` -/

/-- The value of a numeral as an `unsigned long`. -/
def numeralValue (neg : Bool) (n : Nat) : Word := if neg then -BitVec.ofNat 64 n else BitVec.ofNat 64 n

theorem strtoul_numeral {num : List Char} {neg : Bool} {n : Nat} (h : Numeral num neg n) {rest : List Char}
    (hrest : Stops Char.isDigit rest) :
    strtoul (num ++ rest) =
      if n < 2 ^ 64 then (numeralValue neg n, rest, false) else (BitVec.allOnes 64, rest, true) := by
  have hskip := skipSpace_stops (numeral_stops h rest).2
  unfold strtoul
  simp only [hskip]
  cases h with
  | plain hne hds =>
    have hhead : ∀ c : Char, c.isDigit = false → (num ++ rest).head? ≠ some c := by
      intro c hc hc'
      obtain ⟨d, ds, rfl⟩ := List.exists_cons_of_ne_nil hne
      obtain rfl := Option.some.inj hc'
      rw [hds d List.mem_cons_self] at hc
      cases hc
    simp only [hhead '-' (by decide), hhead '+' (by decide), or_self, if_false, takeWhile_run hds hrest,
      dropWhile_run hds hrest, hne]
    rfl
  | @plus ds hne hds =>
    simp only [List.cons_append, List.head?_cons, List.tail_cons, or_true, if_true, takeWhile_run hds hrest,
      dropWhile_run hds hrest, hne, if_false]
    rfl
  | @minus ds hne hds =>
    simp only [List.cons_append, List.head?_cons, List.tail_cons, true_or, if_true, takeWhile_run hds hrest,
      dropWhile_run hds hrest, hne, if_false]
    rfl

/-- Either a numeral comes first, or nothing is converted. -/
theorem strtoul_cases {text : List Char} (h : Stops isspace text) :
    (∃ num neg n rest, text = num ++ rest ∧ Numeral num neg n ∧ Stops Char.isDigit rest) ∨
    strtoul text = (0, text, false) := by
  have hsplit : ∀ t : List Char, ∃ ds rest, t = ds ++ rest ∧ (∀ c ∈ ds, c.isDigit = true) ∧ Stops Char.isDigit rest :=
    exists_run Char.isDigit
  have hnone : ∀ t : List Char, (if text.head? = some '-' ∨ text.head? = some '+' then text.tail else text) = t →
      Stops Char.isDigit t → strtoul text = (0, text, false) := by
    intro t ht hstop
    have hds : t.takeWhile Char.isDigit = [] := takeWhile_run (show ∀ c ∈ [], _ from nofun) hstop
    unfold strtoul
    simp only [skipSpace_stops h, ht, hds, if_true]
  by_cases hsign : text.head? = some '-' ∨ text.head? = some '+'
  · obtain ⟨ds, rest, htail, hds, hstop⟩ := hsplit text.tail
    by_cases hne : ds = []
    · refine .inr (hnone text.tail (if_pos hsign) ?_)
      rw [htail, hne]
      exact hstop
    · rcases hsign with hsign | hsign
      · refine .inl ⟨'-' :: ds, true, _, rest, ?_, .minus hne hds, hstop⟩
        rw [List.cons_append, ← htail, List.cons_head?_tail hsign]
      · refine .inl ⟨'+' :: ds, false, _, rest, ?_, .plus hne hds, hstop⟩
        rw [List.cons_append, ← htail, List.cons_head?_tail hsign]
  · obtain ⟨ds, rest, htext, hds, hstop⟩ := hsplit text
    by_cases hne : ds = []
    · refine .inr (hnone text (if_neg hsign) ?_)
      rw [htext, hne]
      exact hstop
    · exact .inl ⟨ds, false, _, rest, htext, .plain hne hds, hstop⟩

/-! ## The chunk size -/

theorem parseChunkSize_blank (kind : GompScheduleType) {tail : List Char} (h : Blank tail) :
    parseChunkSize kind tail = .ok (chunkSizeOf kind none) := by
  unfold parseChunkSize chunkSizeOf
  rw [skipSpace_eq_nil.mpr h]
  by_cases hk : kind = .gfsStatic <;> simp [hk]

theorem parseChunkSize_comma (kind : GompScheduleType) {num tail : List Char} {neg : Bool} {n : Nat}
    (h : CommaThen num tail) (hnum : Numeral num neg n) :
    parseChunkSize kind tail =
      if n < 2 ^ 64 ∧ throughInt (numeralValue neg n) = numeralValue neg n then
        .ok ((if numeralValue neg n = 0 ∧ kind ≠ .gfsStatic then 1 else numeralValue neg n).setWidth 32)
      else .error invalidValue := by
  obtain ⟨w₁, w₂, w₃, h₁, h₂, h₃, rfl⟩ := h
  obtain ⟨hne, hstop⟩ := numeral_stops hnum w₃
  have hdigit : Stops Char.isDigit w₃ := by
    intro c hc
    cases hd : c.isDigit with
    | false => rfl
    | true =>
      have := isspace_digit hd
      rw [h₃ c (List.mem_of_mem_head? hc)] at this
      cases this
  unfold parseChunkSize
  simp only [skipSpace_run h₁ (.cons (show isspace ',' = false by decide) _), ne_eq, not_true, if_false,
    skipSpace_run h₂ hstop, List.append_eq_nil_iff, hne, false_and, strtoul_numeral hnum hdigit]
  by_cases hlt : n < 2 ^ 64
  · simp only [hlt, if_true, Bool.false_eq_true, if_false, skipSpace_eq_nil.mpr h₃, not_true, true_and, ite_not]
  · simp only [hlt, if_false, if_true, false_and]

/-- What is accepted behind the name is nothing, or a comma and a numeral. -/
theorem parseChunkSize_ok {kind : GompScheduleType} {tail : List Char} {size : BitVec 32}
    (h : parseChunkSize kind tail = .ok size) :
    Blank tail ∨ ∃ num neg n, Numeral num neg n ∧ CommaThen num tail := by
  obtain ⟨w₁, h₁, htail⟩ := exists_blank tail
  unfold parseChunkSize at h
  split at h
  · rename_i hnil
    exact .inl (skipSpace_eq_nil.mp hnil)
  · rename_i c env hcons
    rw [hcons] at htail
    by_cases hc : c = ','
    · subst hc
      obtain ⟨w₂, h₂, henv⟩ := exists_blank env
      simp only [ne_eq, not_true, if_false] at h
      rcases strtoul_cases (skipSpace_stop env) with ⟨num, neg, n, rest, htext, hnum, hstop⟩ | hnone
      · refine .inr ⟨num, neg, n, hnum, w₁, w₂, rest, h₁, h₂, ?_, by rw [htail, henv, htext]⟩
        rw [htext, strtoul_numeral hnum hstop, if_neg (by simp [(numeral_stops hnum rest).1])] at h
        rw [← skipSpace_eq_nil]
        by_contra hrest
        by_cases hlt : n < 2 ^ 64
        · rw [if_pos hlt] at h
          simp [hrest] at h
        · rw [if_neg hlt] at h
          simp at h
      · -- nothing was converted, so the rest is the text itself
        have hne : skipSpace env ≠ [] := fun h0 => by simp [h0] at h
        rw [hnone, if_neg hne] at h
        simp only [Bool.false_eq_true, if_false, skipSpace_stops (skipSpace_stop env), hne, not_false_iff, if_true] at h
        cases h
    · rw [if_pos hc] at h
      cases h

theorem throughInt_eq_iff {value : Word} :
    throughInt value = value ↔ value.toNat < 2 ^ 31 ∨ 2 ^ 64 - 2 ^ 31 ≤ value.toNat := by
  unfold throughInt
  rw [← BitVec.toInt_inj, BitVec.toInt_signExtend_of_le (by decide), BitVec.toInt_setWidth, BitVec.toInt_eq_toNat_bmod]
  have := value.isLt
  simp only [Int.bmod_def]
  omega

theorem numeralValue_toNat (neg : Bool) {n : Nat} (h : n < 2 ^ 64) :
    (numeralValue neg n).toNat = if neg = true ∧ n ≠ 0 then 2 ^ 64 - n else n := by
  unfold numeralValue
  cases neg with
  | false => simp only [Bool.false_eq_true, if_false, false_and, BitVec.toNat_ofNat, Nat.mod_eq_of_lt h]
  | true =>
    simp only [if_true, BitVec.toNat_neg, BitVec.toNat_ofNat, Nat.mod_eq_of_lt h, true_and]
    split <;> omega

/-- The numerals that go through are the numbers that fit and those that wrap. -/
theorem throughInt_numeralValue {neg : Bool} {n : Nat} :
    (n < 2 ^ 64 ∧ throughInt (numeralValue neg n) = numeralValue neg n) ↔ (neg = false ∧ n < 2 ^ 31) ∨ Wraps neg n := by
  have hfit : ∀ hlt : n < 2 ^ 64, throughInt (numeralValue neg n) = numeralValue neg n ↔
      (neg = false ∧ n < 2 ^ 31) ∨ if neg then n ≤ 2 ^ 31 ∨ 2 ^ 64 - 2 ^ 31 < n else 2 ^ 64 - 2 ^ 31 ≤ n := by
    intro hlt
    rw [throughInt_eq_iff, numeralValue_toNat neg hlt]
    cases neg with
    | false => simp
    | true =>
      simp only [true_and, if_true, Bool.true_eq_false, false_and, false_or]
      split <;> omega
  unfold Wraps
  constructor
  · rintro ⟨hlt, h⟩
    rcases (hfit hlt).mp h with h | h
    · exact .inl h
    · exact .inr ⟨hlt, h⟩
  · rintro (h | ⟨hlt, h⟩)
    · have hlt : n < 2 ^ 64 := by omega
      exact ⟨hlt, (hfit hlt).mpr (.inl h)⟩
    · exact ⟨hlt, (hfit hlt).mpr (.inr h)⟩

/-- A text that may follow the name gives its chunk size. -/
theorem parseChunkSize_text (kind : GompScheduleType) {tail : List Char} {n : Option Nat} (h : ChunkText n tail) :
    parseChunkSize kind tail = .ok (chunkSizeOf kind n) := by
  cases h with
  | absent h => exact parseChunkSize_blank kind h
  | @size num _ n hnum hlt hcomma =>
    have hvalue : numeralValue false n = 0 ↔ n = 0 := by
      rw [← BitVec.toNat_inj, numeralValue_toNat false (by omega)]
      simp
    rw [parseChunkSize_comma kind hcomma hnum, if_pos (throughInt_numeralValue.mpr (.inl ⟨rfl, hlt⟩))]
    unfold chunkSizeOf
    by_cases hone : n = 0 ∧ kind ≠ .gfsStatic
    · simp only [if_pos hone, if_pos (show numeralValue false n = 0 ∧ _ from ⟨hvalue.mpr hone.1, hone.2⟩)]
      rfl
    · simp only [if_neg hone, if_neg (show ¬(numeralValue false n = 0 ∧ _) from fun h => hone ⟨hvalue.mp h.1, h.2⟩)]
      congr 1
      apply BitVec.eq_of_toNat_eq
      rw [BitVec.toNat_setWidth, numeralValue_toNat false (by omega), BitVec.toNat_ofNat]
      rfl

theorem parseChunkSize_isOk (kind : GompScheduleType) (tail : List Char) :
    (∃ size, parseChunkSize kind tail = .ok size) ↔ (∃ n, ChunkText n tail) ∨ WrappedText tail := by
  constructor
  · rintro ⟨size, h⟩
    rcases parseChunkSize_ok h with hblank | ⟨num, neg, n, hnum, hcomma⟩
    · exact .inl ⟨none, .absent hblank⟩
    · rw [parseChunkSize_comma kind hcomma hnum] at h
      split at h
      · rename_i hfit
        rcases throughInt_numeralValue.mp hfit with ⟨rfl, hlt⟩ | hwraps
        · exact .inl ⟨some n, .size hnum hlt hcomma⟩
        · exact .inr ⟨num, neg, n, hnum, hwraps, hcomma⟩
      · cases h
  · rintro (⟨n, h⟩ | ⟨num, neg, n, hnum, hwraps, hcomma⟩)
    · exact ⟨_, parseChunkSize_text kind h⟩
    · exact ⟨_, (parseChunkSize_comma kind hcomma hnum).trans (if_pos (throughInt_numeralValue.mpr (.inr hwraps)))⟩

/-! ## The names -/

/-- The test succeeds on the rest of the text. -/
def ScheduleTest.Matches (t : ScheduleTest) (env : List Char) : Prop := strncasecmpEq env t.name.toList t.len = true

theorem scheduleTests_len : ∀ t ∈ scheduleTests, t.len = t.name.toList.length ∧ t.name.toList ≠ [] ∧
    t.name.toList.map Char.toLower = t.name.toList := by decide +kernel

theorem scheduleTests_head : ∀ t ∈ scheduleTests, ∀ c ∈ [' ', '\t', '\n', '\x0b', '\x0c', '\r'],
    t.name.toList.head? ≠ some c.toLower := by
  simp only [List.forall_mem_cons, List.not_mem_nil, false_imp_iff, implies_true, and_true]
  decide +kernel

/-- No name is the beginning of another. -/
theorem scheduleTests_apart : ∀ t ∈ scheduleTests, ∀ t' ∈ scheduleTests, t.name.toList <+: t'.name.toList → t = t' := by
  decide +kernel

/-- The length that is added is that of the name, except behind `taper`. -/
theorem scheduleTests_advance : ∀ t ∈ scheduleTests, t.kind ≠ .fsTape → t.advance = t.len := by decide +kernel

theorem scheduleTests_taper : ∀ t ∈ scheduleTests, t.kind = .fsTape →
    t.name.toList = ['t', 'a', 'p', 'e', 'r'] ∧ t.len = 5 ∧ t.advance = 4 := by decide +kernel

theorem matches_iff {t : ScheduleTest} (ht : t ∈ scheduleTests) {env : List Char} :
    t.Matches env ↔ (env.take t.len).map Char.toLower = t.name.toList := by
  obtain ⟨hlen, -, hlower⟩ := scheduleTests_len t ht
  unfold ScheduleTest.Matches strncasecmpEq
  rw [beq_iff_eq, List.take_of_length_le (le_of_eq hlen.symm), hlower]

theorem starts_iff {t : ScheduleTest} (ht : t ∈ scheduleTests) {text tail : List Char} :
    t.Starts text tail ↔ t.Matches (skipSpace text) ∧ tail = (skipSpace text).drop t.len := by
  obtain ⟨hlen, hne, -⟩ := scheduleTests_len t ht
  rw [matches_iff ht]
  constructor
  · rintro ⟨blank, name, hblank, hname, rfl⟩
    have hnameLen : name.length = t.len := by rw [hlen, ← hname, List.length_map]
    have hstop : Stops isspace (name ++ tail) := by
      cases name with
      | nil => exact absurd hname.symm hne
      | cons c name =>
        refine .cons ?_ _
        cases hc : isspace c with
        | false => rfl
        | true => exact absurd (by rw [← hname]; rfl) (scheduleTests_head t ht c (isspace_iff.mp hc))
    rw [skipSpace_run hblank hstop, ← hnameLen, List.take_left, List.drop_left]
    exact ⟨hname, rfl⟩
  · rintro ⟨hname, rfl⟩
    obtain ⟨blank, hblank, htext⟩ := exists_blank text
    exact ⟨blank, (skipSpace text).take t.len, hblank, hname, by rw [List.take_append_drop, ← htext]⟩

/-- At most one of the tests succeeds. -/
theorem matches_unique {t t' : ScheduleTest} (ht : t ∈ scheduleTests) (ht' : t' ∈ scheduleTests) {env : List Char}
    (h : t.Matches env) (h' : t'.Matches env) : t = t' := by
  rw [matches_iff ht] at h
  rw [matches_iff ht'] at h'
  have hp : t.name.toList <+: env.map Char.toLower := by
    rw [← h]
    exact (List.take_prefix _ _).map _
  have hp' : t'.name.toList <+: env.map Char.toLower := by
    rw [← h']
    exact (List.take_prefix _ _).map _
  rcases List.prefix_or_prefix_of_prefix hp hp' with hpre | hpre
  · exact scheduleTests_apart t ht t' ht' hpre
  · exact (scheduleTests_apart t' ht' t ht hpre).symm

/-- Behind `taper` the cursor is at its last letter. -/
theorem parseChunkSize_taper {t : ScheduleTest} (ht : t ∈ scheduleTests) (hk : t.kind = .fsTape) {env : List Char}
    (h : t.Matches env) : parseChunkSize t.kind (env.drop t.advance) = .error unknownValue := by
  obtain ⟨hname, hlen, hadv⟩ := scheduleTests_taper t ht hk
  rw [matches_iff ht, hname, hlen] at h
  obtain ⟨c, rest, hdrop, hc⟩ : ∃ c rest, env.drop 4 = c :: rest ∧ c.toLower = 'r' := by
    have hget := congrArg (fun l => l[4]?) h
    rw [List.getElem?_map, List.getElem?_take_of_lt (by decide),
      show ['t', 'a', 'p', 'e', 'r'][4]? = some 'r' from rfl, Option.map_eq_some_iff] at hget
    obtain ⟨c, hc, hlower⟩ := hget
    obtain ⟨hlt, rfl⟩ := List.getElem?_eq_some_iff.mp hc
    exact ⟨_, _, List.drop_eq_getElem_cons hlt, hlower⟩
  have hspace : isspace c = false := by
    cases hs : isspace c with
    | false => rfl
    | true =>
      have hnone : ∀ c ∈ [' ', '\t', '\n', '\x0b', '\x0c', '\r'], Char.toLower c ≠ 'r' := by
        simp only [List.forall_mem_cons, List.not_mem_nil, false_imp_iff, implies_true, and_true]
        decide
      exact absurd hc (hnone c (isspace_iff.mp hs))
  have hcomma : c ≠ ',' := by
    rintro rfl
    revert hc
    decide
  unfold parseChunkSize
  rw [hadv, hdrop, skipSpace_stops (.cons hspace rest)]
  exact if_pos hcomma

/-! ## The function -/

theorem parseSchedule_unknown {text : List Char} (h : ∀ t ∈ scheduleTests, ¬t.Matches (skipSpace text)) (icv : Icv) :
    parseSchedule (some text) icv = (icv, some unknownValue) := by
  unfold parseSchedule
  simp only [List.find?_eq_none.mpr h]

theorem parseSchedule_matches {text : List Char} {t : ScheduleTest} (ht : t ∈ scheduleTests)
    (h : t.Matches (skipSpace text)) (icv : Icv) :
    parseSchedule (some text) icv =
      match parseChunkSize t.kind ((skipSpace text).drop t.advance) with
      | .ok size => (⟨t.kind, size⟩, none)
      | .error e => (⟨t.kind, icv.runSchedChunkSize⟩, some e) := by
  have hfind : (scheduleTests.find? fun t => strncasecmpEq (skipSpace text) t.name.toList t.len) = some t := by
    cases hres : scheduleTests.find? fun t => strncasecmpEq (skipSpace text) t.name.toList t.len with
    | none => exact absurd h (List.find?_eq_none.mp hres t ht)
    | some t' =>
      have hmatch : t'.Matches (skipSpace text) :=
        List.find?_some (p := fun t : ScheduleTest => strncasecmpEq (skipSpace text) t.name.toList t.len) hres
      rw [matches_unique ht (List.mem_of_find?_eq_some hres) h hmatch]
  unfold parseSchedule
  simp only [hfind]

/-- With the test that succeeds, the meanings are those of the text behind the name. -/
theorem means_iff {text : List Char} {t : ScheduleTest} (ht : t ∈ scheduleTests) {tail : List Char}
    (h : t.Starts text tail) {kind : GompScheduleType} {n : Option Nat} :
    Means text kind n ↔ kind = t.kind ∧ ChunkText n tail := by
  constructor
  · rintro ⟨t', ht', rfl, tail', hstarts, hchunk⟩
    obtain ⟨hmatch, rfl⟩ := (starts_iff ht).mp h
    obtain ⟨hmatch', rfl⟩ := (starts_iff ht').mp hstarts
    obtain rfl := matches_unique ht ht' hmatch hmatch'
    exact ⟨rfl, hchunk⟩
  · rintro ⟨rfl, hchunk⟩
    exact ⟨t, ht, rfl, tail, h, hchunk⟩

theorem parsesSchedule_unknown {text : List Char} (h : ∀ t ∈ scheduleTests, ∀ tail, ¬t.Starts text tail) (icv : Icv) :
    ParsesSchedule text icv := by
  have hmatch : ∀ t ∈ scheduleTests, ¬t.Matches (skipSpace text) := by
    intro t ht hm
    exact h t ht _ ((starts_iff ht).mpr ⟨hm, rfl⟩)
  have hparse := parseSchedule_unknown hmatch icv
  constructor
  · rw [hparse]
    refine iff_of_false (Option.some_ne_none _) ?_
    rintro ⟨kind, n, t, ht, -, tail, hstarts, -⟩
    exact h t ht tail hstarts
  · intro kind n hnone
    rw [hparse] at hnone
    cases hnone
  · intro _
    rw [hparse]

/-- An error after the name was read: the chunk size is left alone, the kind is not. -/
theorem parsesSchedule_error_iff {text : List Char} {icv : Icv} {t : ScheduleTest} (ht : t ∈ scheduleTests)
    {tail : List Char} (hstarts : t.Starts text tail) {e : String}
    (h : parseSchedule (some text) icv = (⟨t.kind, icv.runSchedChunkSize⟩, some e)) :
    ParsesSchedule text icv ↔ (∀ n, ¬ChunkText n tail) ∧ icv.runSchedVar = t.kind := by
  constructor
  · intro hp
    refine ⟨fun n hchunk => ?_, ?_⟩
    · have hnone := hp.accepts.mpr ⟨t.kind, n, (means_iff ht hstarts).mpr ⟨rfl, hchunk⟩⟩
      rw [h] at hnone
      cases hnone
    · have hkeeps := hp.keeps (by rw [h]; exact Option.some_ne_none e)
      rw [h] at hkeeps
      exact (congrArg Icv.runSchedVar hkeeps).symm
  · rintro ⟨hno, hkind⟩
    constructor
    · rw [h]
      refine iff_of_false (Option.some_ne_none e) ?_
      rintro ⟨kind, n, hmeans⟩
      exact hno n ((means_iff ht hstarts).mp hmeans).2
    · intro kind n hnone
      rw [h] at hnone
      cases hnone
    · intro _
      rw [h, ← hkind]

/-- A value that is accepted should be exactly if it has a meaning, and then it is assigned. -/
theorem parsesSchedule_ok_iff {text : List Char} {icv : Icv} {t : ScheduleTest} (ht : t ∈ scheduleTests)
    {tail : List Char} (hstarts : t.Starts text tail) {size : BitVec 32} (hsize : parseChunkSize t.kind tail = .ok size)
    (h : parseSchedule (some text) icv = (⟨t.kind, size⟩, none)) :
    ParsesSchedule text icv ↔ ∃ n, ChunkText n tail := by
  constructor
  · intro hp
    obtain ⟨kind, n, hmeans⟩ := hp.accepts.mp (by rw [h])
    exact ⟨n, ((means_iff ht hstarts).mp hmeans).2⟩
  · rintro ⟨n, hchunk⟩
    constructor
    · rw [h]
      exact iff_of_true rfl ⟨t.kind, n, (means_iff ht hstarts).mpr ⟨rfl, hchunk⟩⟩
    · intro kind m _ hmeans
      obtain ⟨rfl, hchunk⟩ := (means_iff ht hstarts).mp hmeans
      rw [parseChunkSize_text t.kind hchunk] at hsize
      cases hsize
      rw [h]
    · intro hne
      rw [h] at hne
      exact absurd rfl hne

/-- The function does what it should exactly if no name comes first; or the kind is not `taper` and the value has a
meaning; or the value has none, its numeral does not wrap to an `int`, and its kind is the one in force. -/
theorem parseSchedule_parses_iff (text : List Char) (icv : Icv) :
    ParsesSchedule text icv ↔
      (∀ t ∈ scheduleTests, ∀ tail, ¬t.Starts text tail) ∨
      ∃ t ∈ scheduleTests, ∃ tail, t.Starts text tail ∧
        ((t.kind ≠ .fsTape ∧ ∃ n, ChunkText n tail) ∨
          ((∀ n, ¬ChunkText n tail) ∧ (t.kind = .fsTape ∨ ¬WrappedText tail) ∧ icv.runSchedVar = t.kind)) := by
  by_cases hno : ∀ t ∈ scheduleTests, ∀ tail, ¬t.Starts text tail
  · exact iff_of_true (parsesSchedule_unknown hno icv) (.inl hno)
  · push Not at hno
    obtain ⟨t, ht, tail, hstarts⟩ := hno
    obtain ⟨hmatch, htail⟩ := (starts_iff ht).mp hstarts
    have hparse := parseSchedule_matches ht hmatch icv
    -- the name that comes first is the only one
    have honly : ∀ P : ScheduleTest → List Char → Prop,
        ((∀ t ∈ scheduleTests, ∀ tail, ¬t.Starts text tail) ∨
          ∃ t ∈ scheduleTests, ∃ tail, t.Starts text tail ∧ P t tail) ↔ P t tail := by
      intro P
      constructor
      · rintro (h | ⟨t', ht', tail', hstarts', hP⟩)
        · exact absurd hstarts (h t ht tail)
        · obtain ⟨hmatch', rfl⟩ := (starts_iff ht').mp hstarts'
          obtain rfl := matches_unique ht ht' hmatch hmatch'
          exact htail ▸ hP
      · exact fun hP => .inr ⟨t, ht, tail, hstarts, hP⟩
    refine Iff.trans ?_ (honly _).symm
    by_cases hk : t.kind = .fsTape
    · rw [parseChunkSize_taper ht hk hmatch] at hparse
      rw [parsesSchedule_error_iff ht hstarts hparse]
      simp [hk]
    · have hadv : (skipSpace text).drop t.advance = tail := by rw [scheduleTests_advance t ht hk, htail]
      have hok := parseChunkSize_isOk t.kind tail
      rw [hadv] at hparse
      cases hres : parseChunkSize t.kind tail with
      | ok size =>
        rw [hres] at hparse
        rw [parsesSchedule_ok_iff ht hstarts hres hparse]
        constructor
        · exact fun h => .inl ⟨hk, h⟩
        · rintro (⟨-, h⟩ | ⟨hnone, htape | hwrap, -⟩)
          · exact h
          · exact absurd htape hk
          · rcases hok.mp ⟨size, hres⟩ with ⟨n, hn⟩ | hw
            · exact absurd hn (hnone n)
            · exact absurd hw hwrap
      | error e =>
        rw [hres] at hparse
        rw [parsesSchedule_error_iff ht hstarts hparse]
        have hfail : ¬((∃ n, ChunkText n tail) ∨ WrappedText tail) := by
          intro h
          obtain ⟨size, hsize⟩ := hok.mpr h
          rw [hres] at hsize
          cases hsize
        constructor
        · rintro ⟨hnone, hkind⟩
          exact .inr ⟨hnone, .inr fun h => hfail (.inr h), hkind⟩
        · rintro (⟨-, h⟩ | ⟨hnone, -, hkind⟩)
          · exact absurd (.inl h) hfail
          · exact ⟨hnone, hkind⟩

/-- An unfinished `guided` replaces the kind in force and is then reported. -/
theorem parseSchedule_not_parses : ¬ParsesSchedule "guided,".toList ⟨.gfsDynamic, 1⟩ := by
  intro h
  have hkeeps := h.keeps (by decide)
  revert hkeeps
  decide

end Bosched
