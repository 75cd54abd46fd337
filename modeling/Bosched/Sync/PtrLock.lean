/-
`gomp_ptrlock_t` of `config/linux`: a word that is 0 at first, 1 while one thread makes the pointer, 2 while others may
be asleep until it has, and the pointer after that. To the threads it is the link that the work shares take it for: one
of them is told to make the pointer, the others get what it has made, and nobody is left asleep.
-/
import Bosched.Lib.Futex
import Bosched.Lib.Halting
import Bosched.WorkShare.Model

namespace Bosched

open Lib

variable {ι : Type} [DecidableEq ι]

/-! ## The lock as a link -/

/-- `gomp_ptrlock_get` returned `NULL` or a pointer, or the pointer was set. -/
inductive PtrEvent
  | null | got (ptr : Nat) | set (ptr : Nat)
  deriving DecidableEq, Repr

/-- A thread was told to make the pointer, or not. -/
inductive LinkAt
  | idle | owner
  deriving DecidableEq, Repr

/-- A lock of one link: who finds it empty takes it and sets it, who finds it set gets it, and who finds it taken waits.
-/
def linkLock : Prog ι (Option Nat) Link LinkAt PtrEvent := fun _ a link loc =>
  match loc, link, a with
  | .idle, .null, none => some (.held, .owner, some .null)
  | .idle, .ptr ptr, none => some (.ptr ptr, .idle, some (.got ptr))
  | .owner, .held, some ptr => some (.ptr ptr, .idle, some (.set ptr))
  | _, _, _ => none

def linkLockInit : Cfg ι Link LinkAt PtrEvent := ⟨.null, fun _ => .idle, []⟩

omit [DecidableEq ι] in
/-- To the link of the work share it has, `gomp_work_share_start` is a call of `gomp_ptrlock_get`. -/
theorem gompWorkShareStart_link {G C A B E : Type} (W : Work G C A B E) (s : TeamShares G C) (m : ShareMember B)
    (i : ι) : (s.gompWorkShareStart W m).map (fun r => r.1.pool.link m.workShare) =
      (linkLock i none (s.pool.link m.workShare) .idle).map (·.1) := by
  unfold TeamShares.gompWorkShareStart
  cases hlink : s.pool.link m.workShare with
  | null => exact congrArg some (Function.update_self ..)
  | held => rfl
  | ptr ws => exact congrArg some hlink

omit [DecidableEq ι] in
/-- To the link of the last work share, `gomp_work_share_init_done` is a call of `gomp_ptrlock_set`. -/
theorem gompWorkShareInitDone_link {G C : Type} {s : TeamShares G C} {last : Nat} (h : s.pool.link last = .held)
    (ws : Nat) (i : ι) : (linkLock i (some ws) (s.pool.link last) .owner).map (·.1) =
      some ((s.gompWorkShareInitDone ws (some last)).pool.link last) := by
  rw [h]
  show some (Link.ptr ws) = some (Function.update s.pool.link last (.ptr ws) last)
  rw [Function.update_self]

/-- The log of a pointer that is made once: nothing yet; a thread has been told to make the pointer; it has set it, and
after that everybody gets it. -/
inductive MadeOnce : List (ι × PtrEvent) → Prop
  | init : MadeOnce []
  | null (i : ι) : MadeOnce [(i, .null)]
  | set (i : ι) (ptr : Nat) (rest : List (ι × PtrEvent)) (h : ∀ x ∈ rest, x.2 = .got ptr) :
      MadeOnce ((i, .null) :: (i, .set ptr) :: rest)

/-- The link, who makes the pointer, and the log belong together. -/
inductive LinkInv (c : Cfg ι Link LinkAt PtrEvent) : Prop
  | null (hlink : c.shared = .null) (hloc : ∀ i, c.loc i ≠ .owner) (hlog : c.log = [])
  | held (j : ι) (hlink : c.shared = .held) (hloc : ∀ i, c.loc i = .owner ↔ i = j) (hlog : c.log = [(j, .null)])
  | ptr (j : ι) (ptr : Nat) (rest : List (ι × PtrEvent)) (hlink : c.shared = .ptr ptr) (hloc : ∀ i, c.loc i ≠ .owner)
      (hlog : c.log = (j, .null) :: (j, .set ptr) :: rest) (hrest : ∀ x ∈ rest, x.2 = .got ptr)

omit [DecidableEq ι] in
theorem LinkInv.madeOnce {c : Cfg ι Link LinkAt PtrEvent} (h : LinkInv c) : MadeOnce c.log := by
  rcases h with ⟨-, -, hlog⟩ | ⟨j, -, -, hlog⟩ | ⟨j, ptr, rest, -, -, hlog, hrest⟩
  · exact hlog ▸ .init
  · exact hlog ▸ .null j
  · exact hlog ▸ .set j ptr rest hrest

omit [DecidableEq ι] in
/-- A thread that makes the pointer has the link, and is the only one. -/
theorem LinkInv.owner {c : Cfg ι Link LinkAt PtrEvent} (h : LinkInv c) {i : ι} (hi : c.loc i = .owner) :
    c.shared = .held ∧ (∀ j, c.loc j = .owner ↔ j = i) ∧ c.log = [(i, .null)] := by
  rcases h with ⟨-, hloc, -⟩ | ⟨j, hlink, hloc, hlog⟩ | ⟨j, ptr, rest, -, hloc, -, -⟩
  · exact absurd hi (hloc i)
  · obtain rfl := (hloc i).1 hi
    exact ⟨hlink, hloc, hlog⟩
  · exact absurd hi (hloc i)

theorem LinkInv.step {c c' : Cfg ι Link LinkAt PtrEvent} (h : LinkInv c) (hs : Step linkLock c c') : LinkInv c' := by
  cases hs with | @mk i a link loc e hp =>
  have hother : ∀ j, j ≠ i → Function.update c.loc i loc j = c.loc j := fun j hj => Function.update_of_ne hj ..
  have hself : Function.update c.loc i loc i = loc := Function.update_self ..
  -- nobody makes the pointer after it, if nobody else did before
  have hnone : loc ≠ .owner → (∀ j, j ≠ i → c.loc j ≠ .owner) → ∀ j, Function.update c.loc i loc j ≠ .owner := by
    intro hloc hall j
    by_cases hj : j = i
    · rwa [hj, hself]
    · rw [hother j hj]
      exact hall j hj
  unfold linkLock at hp
  split at hp
  · -- the link is taken
    rename_i hidle hnull
    cases hp
    rcases h with ⟨-, hloc, hlog⟩ | ⟨j, hlink, -, -⟩ | ⟨j, ptr, rest, hlink, -, -, -⟩
    · refine .held i rfl (fun j => ?_) ?_
      · show Function.update c.loc i .owner j = .owner ↔ j = i
        by_cases hj : j = i
        · rw [hj, hself]
          exact iff_of_true rfl rfl
        · rw [hother j hj]
          exact iff_of_false (hloc j) hj
      · show c.log ++ [(i, .null)] = _
        rw [hlog]
        rfl
    · rw [hlink] at hnull
      cases hnull
    · rw [hlink] at hnull
      cases hnull
  · -- a thread gets the pointer
    rename_i ptr hidle hptr
    cases hp
    rcases h with ⟨hlink, -, -⟩ | ⟨j, hlink, -, -⟩ | ⟨j, ptr', rest, hlink, hloc, hlog, hrest⟩
    · rw [hlink] at hptr
      cases hptr
    · rw [hlink] at hptr
      cases hptr
    · rw [hlink] at hptr
      cases hptr
      refine .ptr j ptr (rest ++ [(i, .got ptr)]) rfl (hnone nofun fun k _ => hloc k) ?_ fun x hx => ?_
      · show c.log ++ [(i, .got ptr)] = _
        rw [hlog]
        rfl
      · rcases List.mem_append.1 hx with hx | hx
        · exact hrest x hx
        · rw [List.mem_singleton.1 hx]
  · -- the pointer is set
    rename_i ptr howner hheld
    cases hp
    obtain ⟨-, honly, hlog⟩ := h.owner howner
    refine .ptr i ptr [] rfl (hnone nofun fun k hk => (honly k).not.2 hk) ?_ nofun
    show c.log ++ [(i, .set ptr)] = _
    rw [hlog]
    rfl
  · cases hp

theorem LinkInv.reach {c c' : Cfg ι Link LinkAt PtrEvent} (h : LinkInv c) (hr : Reach linkLock c c') : LinkInv c' := by
  induction hr with
  | refl => exact h
  | tail _ hs ih => exact ih.step hs

/-! ## The lock as a futex -/

/-- Where a thread is: outside; in `gomp_ptrlock_get`, about to compare and swap; in `gomp_ptrlock_get_slow`, about to
set the flag, spinning, about to call `futex_wait`, asleep, about to look at the low half of the word, or about to read
the pointer; told to make the pointer; in `gomp_ptrlock_set_slow`. -/
inductive PtrAt
  | out | swap | flag | spin | wait | asleep | check | read | owner | wake
  deriving DecidableEq, Repr

/-- What a thread does: `set` is the call of `gomp_ptrlock_set`. -/
inductive PtrAct (ι : Type)
  | set (ptr : Nat) | futex (a : FutexAct ι)
  deriving DecidableEq

/-- The low half of the word, which the futex is. -/
def intptr (word : Nat) : Nat := word % 2 ^ 32

/-- The steps of `gomp_ptrlock_get` and `gomp_ptrlock_set`. A pointer is at least 8 byte aligned. -/
def gompPtrlock : Prog ι (PtrAct ι) (Futex ι Nat) PtrAt PtrEvent := fun i a s loc =>
  match loc, a with
  | .out, .futex .go => if 2 < s.word then some (s, .out, some (.got s.word)) else some (s, .swap, none)
  | .swap, .futex .go =>
    if s.word = 0 then some ({ s with word := 1 }, .owner, some .null) else some (s, .flag, none)
  | .flag, .futex .go => some ({ s with word := if s.word = 1 then 2 else s.word }, .spin, none)
  | .spin, .futex .timeout => some (s, .wait, none)
  | .spin, .futex .changed => if intptr s.word ≠ 2 then some (s, .check, none) else none
  | .wait, .futex .go =>
    let r := s.wait i (intptr s.word = 2) PtrAt.asleep .check
    some (r.1, r.2, none)
  | .asleep, .futex a => (s.sleep i PtrAt.check a).map fun r => (r.1, r.2, none)
  | .check, .futex .go => some (s, if intptr s.word = 2 then .spin else .read, none)
  | .read, .futex .go => some (s, .out, some (.got s.word))
  | .owner, .set ptr =>
    if ptr % 8 = 0 ∧ ptr ≠ 0 then
      some ({ s with word := ptr }, if s.word ≠ 1 then .wake else .out, some (.set ptr))
    else none
  | .wake, .futex .go => some (s.wakeAll, .out, none)
  | _, _ => none

/-- `gomp_ptrlock_init` with `NULL`. -/
def gompPtrlockInit : Cfg ι (Futex ι Nat) PtrAt PtrEvent := ⟨⟨0, []⟩, fun _ => .out, []⟩

/-! ## Nobody is left asleep -/

/-- Who sleeps may sleep on while the flag is set, or until the thread that has set the pointer wakes all. -/
def PtrAttended (c : Cfg ι (Futex ι Nat) PtrAt PtrEvent) : Prop :=
  Attended Futex.asleep (· = PtrAt.asleep) (fun _ _ loc => loc = PtrAt.wake) (fun _ s _ => intptr s.word = 2) c

/-- Steps other than the futex calls: all may sleep on after them, or the thread is about to wake all, or it was not and
leaves a set flag alone. -/
theorem gompPtrlock_keeps {i : ι} {a : PtrAct ι} {s s' : Futex ι Nat} {loc loc' : PtrAt} {e : Option PtrEvent}
    (h : gompPtrlock i a s loc = some (s', loc', e)) (hwait : loc ≠ .wait) (hasleep : loc ≠ .asleep)
    (hwake : loc ≠ .wake) :
    s'.asleep = s.asleep ∧ (loc' = .wake ∨ intptr s'.word = 2 ∨ (intptr s.word = 2 → intptr s'.word = 2)) := by
  have htwo : intptr 2 = 2 := by decide
  have hone : intptr 1 ≠ 2 := by decide
  have hzero : intptr 0 ≠ 2 := by decide
  cases loc with
  | wait => exact absurd rfl hwait
  | asleep => exact absurd rfl hasleep
  | wake => exact absurd rfl hwake
  | _ => cases a <;> simp only [gompPtrlock] at h <;> grind

theorem gompPtrlock_attends {i : ι} {a : PtrAct ι} {s s' : Futex ι Nat} {loc loc' : PtrAt} {e : Option PtrEvent}
    (h : gompPtrlock i a s loc = some (s', loc', e)) :
    Attends Futex.asleep (· = PtrAt.asleep) (fun _ _ loc => loc = PtrAt.wake) (fun _ s _ => intptr s.word = 2) i s loc
      s' loc' := by
  by_cases hcall : loc = .wait ∨ loc = .asleep ∨ loc = .wake
  · rcases hcall with rfl | rfl | rfl
    · rcases a with _ | ⟨_ | _ | _ | _ | _⟩ <;> cases h
      unfold Futex.wait
      split
      · rename_i hword
        exact .sleep rfl nofun rfl (.inl fun _ _ => of_decide_eq_true hword)
      · exact .keep rfl nofun (.inr (.inr ⟨fun _ _ hq => hq, nofun⟩))
    · rcases a with _ | a
      · cases h
      · obtain ⟨⟨s'', loc''⟩, hr, h⟩ := Option.map_eq_some_iff.1 h
        cases h
        have hword := (Futex.sleep_word hr).1
        exact Futex.sleep_attends_of_mono hr rfl rfl (fun _ _ hquiet => (congrArg intptr hword).trans hquiet) nofun
    · rcases a with _ | ⟨_ | _ | _ | _ | _⟩ <;> cases h
      exact .none rfl
  · push Not at hcall
    obtain ⟨hwait, hasleep, hwake⟩ := hcall
    obtain ⟨hqueue, hcase⟩ := gompPtrlock_keeps h hwait hasleep hwake
    refine .keep hqueue (fun hl => absurd hl hasleep) ?_
    rcases hcase with hbusy | hword | hmono
    · exact .inl hbusy
    · exact .inr (.inl fun _ _ => hword)
    · exact .inr (.inr ⟨fun _ _ => hmono, hwake⟩)

/-! ## The futex as a link -/

/-- The link that a word stands for. -/
def linkOf (word : Nat) : Link := if word = 0 then .null else if word ≤ 2 then .held else .ptr word

def PtrAt.linkAt : PtrAt → LinkAt
  | .owner => .owner
  | _ => .idle

/-- The least the word can be where a thread is. -/
def PtrAt.least : PtrAt → Nat
  | .out | .swap | .owner => 0
  | .flag => 1
  | .spin | .wait | .asleep | .check => 2
  | .read | .wake => 3

/-- What a thread knows of the word. -/
def PtrAt.Knows (_ : ι) (_ : PtrAct ι) (s : Futex ι Nat) (loc : PtrAt) : Prop :=
  loc.least ≤ s.word ∧ (loc = .owner → linkOf s.word = .held)

instance PtrAt.decidableKnows (i : ι) (a : PtrAct ι) (s : Futex ι Nat) (loc : PtrAt) :
    Decidable (PtrAt.Knows i a s loc) :=
  inferInstanceAs (Decidable (_ ∧ _))

theorem linkOf_null {word : Nat} : linkOf word = .null ↔ word = 0 := by
  unfold linkOf
  grind

theorem linkOf_eq_ptr {word ptr : Nat} : linkOf word = .ptr ptr ↔ 2 < word ∧ word = ptr := by
  unfold linkOf
  grind

theorem linkOf_ptr {word : Nat} (h : 2 < word) : linkOf word = .ptr word := linkOf_eq_ptr.2 ⟨h, rfl⟩

/-- A pointer that is aligned is none of the states. -/
theorem aligned_ptr {ptr : Nat} (h : ptr % 8 = 0 ∧ ptr ≠ 0) : 2 < ptr ∧ intptr ptr ≠ 2 := by
  unfold intptr
  omega

/-- The word only goes on, and a step is one of the link or none at all. -/
structure PtrStep (i : ι) (s : Futex ι Nat) (loc : PtrAt) (s' : Futex ι Nat) (loc' : PtrAt) (e : Option PtrEvent) :
    Prop where
  least : loc'.least ≤ s'.word
  grows : min s.word 3 ≤ min s'.word 3
  low : (2 < s.word → intptr s.word ≠ 2) → 2 < s'.word → intptr s'.word ≠ 2
  view : (linkOf s'.word = linkOf s.word ∧ loc'.linkAt = loc.linkAt ∧ e = none) ∨
    ∃ a, linkLock i a (linkOf s.word) loc.linkAt = some (linkOf s'.word, loc'.linkAt, e)

omit [DecidableEq ι] in
/-- A step that leaves the word alone. -/
theorem PtrStep.inner {i : ι} {s s' : Futex ι Nat} {loc loc' : PtrAt} (hword : s'.word = s.word)
    (hleast : loc'.least ≤ s.word) (hloc : loc'.linkAt = loc.linkAt) : PtrStep i s loc s' loc' none := by
  refine ⟨hword ▸ hleast, hword ▸ le_rfl, fun h => hword ▸ h, .inl ⟨by rw [hword], hloc, rfl⟩⟩

theorem gompPtrlock_step {i : ι} {a : PtrAct ι} {s s' : Futex ι Nat} {loc loc' : PtrAt} {e : Option PtrEvent}
    (h : gompPtrlock i a s loc = some (s', loc', e)) (hknows : PtrAt.Knows i a s loc) : PtrStep i s loc s' loc' e := by
  obtain ⟨hleast, howner⟩ := hknows
  cases loc with
  | out =>
    rcases a with _ | ⟨_ | _ | _ | _ | _⟩
    case futex.go =>
      simp only [gompPtrlock] at h
      split at h
      · rename_i hword
        cases h
        exact ⟨hleast, le_rfl, fun h => h, .inr ⟨none, by rw [linkOf_ptr hword]; rfl⟩⟩
      · cases h
        exact .inner rfl hleast rfl
    all_goals cases h
  | swap =>
    rcases a with _ | ⟨_ | _ | _ | _ | _⟩
    case futex.go =>
      simp only [gompPtrlock] at h
      split at h
      · rename_i hword
        cases h
        exact ⟨Nat.zero_le 1, by dsimp only; omega, fun _ hlt => by dsimp only at hlt; omega,
          .inr ⟨none, by rw [hword]; rfl⟩⟩
      · rename_i hword
        cases h
        exact .inner rfl (Nat.pos_of_ne_zero hword) rfl
    all_goals cases h
  | flag =>
    rcases a with _ | ⟨_ | _ | _ | _ | _⟩ <;> cases h
    by_cases hword : s.word = 1
    · simp only [if_pos hword]
      exact ⟨le_rfl, by dsimp only; omega, fun _ hlt => by dsimp only at hlt; omega,
        .inl ⟨by rw [hword]; rfl, rfl, rfl⟩⟩
    · simp only [if_neg hword]
      have htwo : 2 ≤ s.word := by
        have : 1 ≤ s.word := hleast
        omega
      exact .inner rfl htwo rfl
  | spin =>
    rcases a with _ | ⟨_ | _ | _ | _ | _⟩
    case futex.timeout =>
      cases h
      exact .inner rfl hleast rfl
    case futex.changed =>
      obtain ⟨-, h⟩ := Option.ite_none_right_eq_some.1 h
      cases h
      exact .inner rfl hleast rfl
    all_goals cases h
  | wait =>
    rcases a with _ | ⟨_ | _ | _ | _ | _⟩ <;> cases h
    unfold Futex.wait
    split <;> exact .inner rfl hleast rfl
  | asleep =>
    rcases a with _ | a
    · cases h
    · obtain ⟨⟨s'', loc''⟩, hr, h⟩ := Option.map_eq_some_iff.1 h
      cases h
      obtain ⟨hword, rfl⟩ := Futex.sleep_word hr
      exact .inner hword hleast rfl
  | check =>
    rcases a with _ | ⟨_ | _ | _ | _ | _⟩ <;> cases h
    split
    · exact .inner rfl hleast rfl
    · rename_i hlow
      have htwo : s.word ≠ 2 := by
        intro hword
        rw [hword] at hlow
        exact hlow rfl
      refine .inner rfl ?_ rfl
      change 2 ≤ s.word at hleast
      show 3 ≤ s.word
      omega
  | read =>
    rcases a with _ | ⟨_ | _ | _ | _ | _⟩ <;> cases h
    exact ⟨Nat.zero_le _, le_rfl, fun h => h, .inr ⟨none, by rw [linkOf_ptr hleast]; rfl⟩⟩
  | owner =>
    rcases a with ptr | _
    · obtain ⟨hptr, h⟩ := Option.ite_none_right_eq_some.1 h
      cases h
      obtain ⟨hlt, hlow⟩ := aligned_ptr hptr
      have hleast : (if s.word ≠ 1 then PtrAt.wake else .out).least ≤ ptr := by
        split
        · exact hlt
        · exact Nat.zero_le ptr
      have hidle : (if s.word ≠ 1 then PtrAt.wake else .out).linkAt = .idle := by
        split <;> rfl
      refine ⟨hleast, by dsimp only; omega, fun _ _ => hlow, .inr ⟨some ptr, ?_⟩⟩
      rw [howner rfl, linkOf_ptr hlt, hidle]
      rfl
    · cases h
  | wake =>
    rcases a with _ | ⟨_ | _ | _ | _ | _⟩ <;> cases h
    exact .inner rfl (Nat.zero_le _) rfl

/-- Where threads know what they may, the futex takes the steps of the link. -/
theorem gompPtrlock_views :
    Views (gompPtrlock.only PtrAt.Knows : Prog ι _ _ _ _) linkLock (fun s => linkOf s.word) PtrAt.linkAt some where
  step := by
    intro i a s loc s' loc' e h
    obtain ⟨hknows, h⟩ := Prog.only_eq_some.1 h
    rcases (gompPtrlock_step h hknows).view with ⟨hlink, hloc, rfl⟩ | ⟨a', hstep⟩
    · exact .inl ⟨hlink, hloc, rfl⟩
    · exact .inr ⟨a', hstep.trans (by cases e <;> rfl)⟩

/-- The lock as the link that it stands for. -/
abbrev ptrView (c : Cfg ι (Futex ι Nat) PtrAt PtrEvent) : Cfg ι Link LinkAt PtrEvent :=
  c.view (fun s => linkOf s.word) PtrAt.linkAt some

structure PtrInv (c : Cfg ι (Futex ι Nat) PtrAt PtrEvent) : Prop where
  attended : PtrAttended c
  least : ∀ i, (c.loc i).least ≤ c.shared.word
  low : 2 < c.shared.word → intptr c.shared.word ≠ 2
  link : LinkInv (ptrView c)

omit [DecidableEq ι] in
theorem PtrInv.knows {c : Cfg ι (Futex ι Nat) PtrAt PtrEvent} (h : PtrInv c) (i : ι) (a : PtrAct ι) :
    PtrAt.Knows i a c.shared (c.loc i) :=
  ⟨h.least i, fun hi => (h.link.owner (i := i) (congrArg PtrAt.linkAt hi)).1⟩

theorem PtrInv.step {c c' : Cfg ι (Futex ι Nat) PtrAt PtrEvent} (h : PtrInv c) (hs : Step gompPtrlock c c') :
    PtrInv c' := by
  have hattended := h.attended.step (fun i a s' l' e hp => ⟨gompPtrlock_attends hp, fun _ _ _ hb => hb⟩) hs
  cases hs with | @mk i a s' loc' e hp =>
  have hstep := gompPtrlock_step hp (h.knows i a)
  have honly : Step (gompPtrlock.only PtrAt.Knows) c ⟨s', Function.update c.loc i loc', logged c.log i e⟩ :=
    .mk i a (Prog.only_eq_some.2 ⟨h.knows i a, hp⟩)
  refine ⟨hattended, fun j => ?_, hstep.low h.low, h.link.reach (gompPtrlock_views.reach (.single honly))⟩
  show (Function.update c.loc i loc' j).least ≤ s'.word
  by_cases hj : j = i
  · rw [hj, Function.update_self]
    exact hstep.least
  · rw [Function.update_of_ne hj]
    have hthree : (c.loc j).least ≤ 3 := by cases c.loc j <;> decide
    exact (le_min (h.least j) hthree).trans (hstep.grows.trans (min_le_left _ _))

omit [DecidableEq ι] in
theorem PtrInv.init : PtrInv (gompPtrlockInit (ι := ι)) :=
  ⟨⟨nofun, .inl nofun⟩, fun _ => le_rfl, nofun, .null rfl nofun rfl⟩

theorem PtrInv.reach {c : Cfg ι (Futex ι Nat) PtrAt PtrEvent} (hr : Reach gompPtrlock gompPtrlockInit c) :
    PtrInv c := by
  induction hr with
  | refl => exact PtrInv.init
  | tail _ hs ih => exact ih.step hs

/-! ## The threads inside get out -/

/-- How far a thread is from outside, when it meets with no one. -/
def PtrAt.rank : PtrAt → Nat
  | .out => 0
  | .wake | .read => 1
  | .owner | .check => 2
  | .spin | .wait | .asleep => 3
  | .flag => 4
  | .swap => 5

/-- Nobody comes in, and nobody wakes up for no reason. -/
def PtrAt.Inside (_ : ι) (a : PtrAct ι) (_ : Futex ι Nat) (loc : PtrAt) : Prop := loc ≠ .out ∧ a ≠ .futex .signal

instance PtrAt.decidableInside (i : ι) (a : PtrAct ι) (s : Futex ι Nat) (loc : PtrAt) :
    Decidable (PtrAt.Inside i a s loc) :=
  inferInstanceAs (Decidable (_ ∧ _))

/-- While somebody is inside, one of them can go on. -/
theorem PtrInv.moves {c : Cfg ι (Futex ι Nat) PtrAt PtrEvent} (h : PtrInv c) (hin : ∃ i, c.loc i ≠ .out) :
    ∃ i a s' loc' e, gompPtrlock.only PtrAt.Inside i a c.shared (c.loc i) = some (s', loc', e) ∧
      loc'.rank < (c.loc i).rank := by
  have hgo : ∀ i a s' loc' e, c.loc i ≠ .out → a ≠ .futex .signal →
      gompPtrlock i a c.shared (c.loc i) = some (s', loc', e) → loc'.rank < (c.loc i).rank →
      ∃ i a s' loc' e, gompPtrlock.only PtrAt.Inside i a c.shared (c.loc i) = some (s', loc', e) ∧
        loc'.rank < (c.loc i).rank := fun i a s' loc' e hi ha hp hlt =>
    ⟨i, a, s', loc', e, Prog.only_eq_some.2 ⟨⟨hi, ha⟩, hp⟩, hlt⟩
  have howner : ∀ i, c.loc i = .owner ↔ (ptrView c).loc i = .owner := by
    intro i
    show _ ↔ (c.loc i).linkAt = .owner
    cases c.loc i <;> simp [PtrAt.linkAt]
  rcases h.link with ⟨hlink, hloc, -⟩ | ⟨j, -, hloc, -⟩ | ⟨j, ptr, rest, hlink, hloc, -, -⟩
  · -- the word is free: who is inside has not yet looked at it
    have hword := linkOf_null.1 hlink
    obtain ⟨i, hi⟩ := hin
    have hleast := h.least i
    rw [hword] at hleast
    cases hat : c.loc i with
    | out => exact absurd hat hi
    | owner => exact absurd ((howner i).1 hat) (hloc i)
    | swap =>
      refine hgo i (.futex .go) { c.shared with word := 1 } .owner (some .null) hi nofun ?_ (by rw [hat]; decide)
      simp [gompPtrlock, hat, hword]
    | flag | spin | wait | asleep | check | read | wake =>
      rw [hat] at hleast
      cases hleast
  · -- the thread that was told to make the pointer sets it
    have hj := (howner j).2 ((hloc j).2 rfl)
    refine hgo j (.set 8) { c.shared with word := 8 } (if c.shared.word ≠ 1 then .wake else .out) (some (.set 8))
      (by rw [hj]; nofun) nofun ?_ ?_
    · rw [hj]
      rfl
    · rw [hj]
      split <;> decide
  · have hword := (linkOf_eq_ptr.1 hlink).1
    have hlow := h.low hword
    by_cases hwake : ∃ i, c.loc i = .wake
    · obtain ⟨i, hi⟩ := hwake
      exact hgo i (.futex .go) c.shared.wakeAll .out none (by rw [hi]; nofun) nofun (by rw [hi]; rfl)
        (by rw [hi]; decide)
    · push Not at hwake
      -- nobody is left asleep once the pointer is set and all are woken
      have hawake : ∀ i, i ∉ c.shared.asleep := by
        rcases h.attended.attended with hall | ⟨j, hj⟩
        · exact fun i hi => hlow (hall i hi)
        · exact absurd hj (hwake j)
      obtain ⟨i, hi⟩ := hin
      cases hat : c.loc i with
      | out => exact absurd hat hi
      | owner => exact absurd ((howner i).1 hat) (hloc i)
      | wake => exact absurd hat (hwake i)
      | swap =>
        refine hgo i (.futex .go) c.shared .flag none hi nofun ?_ (by rw [hat]; decide)
        have hne : c.shared.word ≠ 0 := by omega
        simp [gompPtrlock, hat, hne]
      | flag =>
        refine hgo i (.futex .go) c.shared .spin none hi nofun ?_ (by rw [hat]; decide)
        have hne : c.shared.word ≠ 1 := by omega
        simp [gompPtrlock, hat, hne]
      | spin =>
        refine hgo i (.futex .changed) c.shared .check none hi nofun ?_ (by rw [hat]; decide)
        simp [gompPtrlock, hat, hlow]
      | wait =>
        refine hgo i (.futex .go) c.shared .check none hi nofun ?_ (by rw [hat]; decide)
        simp [gompPtrlock, Futex.wait, hat, hlow]
      | asleep =>
        refine hgo i (.futex .go) c.shared .check none hi nofun ?_ (by rw [hat]; decide)
        simp [gompPtrlock, Futex.sleep, hat, hawake i]
      | check =>
        refine hgo i (.futex .go) c.shared .read none hi nofun ?_ (by rw [hat]; decide)
        simp [gompPtrlock, hat, hlow]
      | read =>
        refine hgo i (.futex .go) c.shared .out (some (.got c.shared.word)) hi nofun ?_ (by rw [hat]; decide)
        simp [gompPtrlock, hat]

/-- **`gomp_ptrlock_t` is a link that is set once, and loses no wakeup.** Every interleaving of any threads, with
spurious wakeups, is one of the lock of a link: one thread is told to make the pointer, it sets it, and what the others
get is this pointer; and the threads inside can all get out, with no help from threads outside or from spurious
wakeups. -/
theorem gompPtrlock_refines [Fintype ι] {c : Cfg ι (Futex ι Nat) PtrAt PtrEvent}
    (hr : Reach gompPtrlock gompPtrlockInit c) :
    Reach linkLock linkLockInit (ptrView c) ∧ MadeOnce c.log ∧
      ∃ c', Reach (gompPtrlock.only PtrAt.Inside) c c' ∧ ∀ i, c'.loc i = .out := by
  have honly : Reach (gompPtrlock.only PtrAt.Knows) gompPtrlockInit c :=
    (reach_congr PtrInv.step (fun h i a => (if_pos (h.knows i a)).symm) PtrInv.init).1 hr
  have hlink := gompPtrlock_views.reach honly
  have h := PtrInv.reach hr
  have hlog : (ptrView c).log = c.log := by
    show c.log.filterMap _ = c.log
    simp
  exact ⟨hlink, hlog ▸ h.link.madeOnce,
    exists_reach_only (Q := (· = PtrAt.out)) PtrAt.rank PtrInv.step PtrInv.moves h⟩

/-- Two threads are asleep until a third has made the pointer, and one of them is woken for no reason. -/
theorem gompPtrlock_refines_three :
    ∃ c : Cfg (Fin 3) (Futex (Fin 3) Nat) PtrAt PtrEvent, Reach gompPtrlock gompPtrlockInit c ∧
      (c.loc 0 = .wake ∧ c.loc 1 = .asleep ∧ c.loc 2 = .out) ∧
      c.log = [(0, .null), (0, .set 4294967304), (2, .got 4294967304)] ∧
      (Reach linkLock linkLockInit (ptrView c) ∧ MadeOnce c.log ∧
        ∃ c', Reach (gompPtrlock.only PtrAt.Inside) c c' ∧ ∀ i, c'.loc i = .out) := by
  let go (i : Fin 3) : Fin 3 × PtrAct (Fin 3) := (i, .futex .go)
  have h : ((exec gompPtrlock gompPtrlockInit [go 0, go 0, go 1, go 1, go 1, (1, .futex .timeout), go 1, go 2, go 2,
      go 2, (2, .futex .timeout), go 2, (0, .set 4294967304), (2, .futex .signal), go 2, go 2]).map fun c =>
        ((c.loc 0, c.loc 1, c.loc 2), c.log)) =
          some ((.wake, .asleep, .out), [(0, .null), (0, .set 4294967304), (2, .got 4294967304)]) := by
    decide +kernel
  obtain ⟨c, hc, heq⟩ := Option.map_eq_some_iff.1 h
  simp only [Prod.mk.injEq] at heq
  exact ⟨c, reach_of_exec hc, heq.1, heq.2, gompPtrlock_refines (reach_of_exec hc)⟩

end Bosched
