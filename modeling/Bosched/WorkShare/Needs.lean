/-
The invariant of the numbered work shares: which of them a thread may still need, who puts the next one back and when,
in every interleaving.
-/
import Bosched.Lib.Halting
import Bosched.WorkShare.Numbered

namespace Bosched

open Lib

variable {G C A B E : Type}

/-! ## Nowait constructs and barriers -/

namespace Work

def nowaitAt (body : List (Work G C A B E)) (k : Nat) : Bool := (body[k]?).any (·.nowait)

def barrierAt (body : List (Work G C A B E)) (k : Nat) : Bool := (body[k]?).any (!·.nowait)

/-- The barriers among the first `k` constructs. -/
def barriers (body : List (Work G C A B E)) (k : Nat) : Nat := Nat.count (fun j => barrierAt body j = true) k

variable {body : List (Work G C A B E)} {k k' : Nat} {W : Work G C A B E}

theorem nowaitAt_of (hW : body[k]? = some W) : nowaitAt body k = W.nowait := by
  unfold nowaitAt
  rw [hW, Option.any_some]

theorem barrierAt_of (hW : body[k]? = some W) : barrierAt body k = !W.nowait := by
  unfold barrierAt
  rw [hW, Option.any_some]

theorem not_nowaitAt_of_barrierAt (h : barrierAt body k = true) : nowaitAt body k = false := by
  unfold barrierAt at h
  unfold nowaitAt
  cases hW : body[k]? with
  | none =>
    rw [hW] at h
    cases h
  | some W =>
    rw [hW, Option.any_some] at h
    rw [Option.any_some]
    simpa using h

theorem barriers_succ (hW : body[k]? = some W) :
    barriers body (k + 1) = barriers body k + if W.nowait then 0 else 1 := by
  unfold barriers
  rw [Nat.count_succ, barrierAt_of hW]
  cases W.nowait <;> rfl

theorem barriers_injective (hk : barrierAt body k = true) (hk' : barrierAt body k' = true)
    (h : barriers body k = barriers body k') : k = k' :=
  Nat.count_injective (p := fun j => barrierAt body j = true) hk hk' h

theorem barriers_lt (hk : barrierAt body k = true) (h : k < k') : barriers body k < barriers body k' :=
  Nat.count_strict_mono (p := fun j => barrierAt body j = true) hk h

end Work

/-! ## What a thread needs -/

namespace NumberedMember

/-- How many work shares have been linked in before the thread is where it is. -/
def reached (m : NumberedMember B) : Nat :=
  match m.status with
  | .between | .building => m.pos
  | _ => m.pos + 1

/-- The number of the first work share that the thread may still read or write; `0` is the one the team starts with. -/
def needs (m : NumberedMember B) : Nat :=
  match m.status with
  | .waiting _ | .releasing => m.pos + 1
  | _ => m.pos

/-- The thread is the last in its construct: it puts a work share back or lets the others go. -/
def closes (m : NumberedMember B) : Bool :=
  match m.status with
  | .freeing | .releasing => true
  | _ => false

/-- The thread has added itself to `threads_completed` of construct `k`. -/
def counted (k : Nat) (m : NumberedMember B) : Bool :=
  match m.status with
  | .freeing => k ≤ m.pos
  | _ => k < m.pos

/-- The thread has arrived at the barrier of generation `g`, and nobody has left it. -/
def atBarrier (body : List (Work G C A B E)) (g : Nat) (m : NumberedMember B) : Bool :=
  match m.status with
  | .waiting g' => g' = g
  | .releasing => true
  | .freeing => Work.barrierAt body m.pos
  | _ => false

/-- The thread is neither waiting nor the last in its construct. -/
def calm (m : NumberedMember B) : Bool :=
  match m.status with
  | .between | .building | .inside _ => true
  | _ => false

/-- Where a thread is against the shared counters. -/
structure Ok (body : List (Work G C A B E)) (s : NumberedTeam G C) (m : NumberedMember B) : Prop where
  bound : m.pos ≤ body.length
  construct : m.status ≠ .between → m.pos < body.length
  reached : m.reached ≤ s.started
  freed : s.freed ≤ m.needs
  building : m.status = .building → s.building = true ∧ m.pos = s.started
  waiting : ∀ g, m.status = .waiting g → Work.barrierAt body m.pos = true ∧ Work.barriers body m.pos = g ∧
    (s.generation = g ∨ s.generation = g + 1)
  running : (∀ g, m.status ≠ .waiting g) → Work.barriers body m.pos = s.generation
  releasing : m.status = .releasing → Work.barrierAt body m.pos = true

/-- The thread is through with what the last thread `m` of a construct puts back. -/
def Past (body : List (Work G C A B E)) (s : NumberedTeam G C) (m m' : NumberedMember B) : Prop :=
  (Work.nowaitAt body m.pos = true ∧ m.pos < m'.pos) ∨
    (Work.barrierAt body m.pos = true ∧ m'.status = .waiting s.generation)

end NumberedMember

/-- What holds of the numbered work shares and the threads in every interleaving. -/
structure NumberedInv (n : Nat) (body : List (Work G C A B E)) (s : NumberedTeam G C) (loc : Nat → NumberedMember B) :
    Prop where
  member : ∀ i < n, (loc i).Ok body s
  built : s.building = true → ∃ i < n, (loc i).status = .building
  oneBuilds : ∀ i < n, ∀ j < n, (loc i).status = .building → (loc j).status = .building → i = j
  past : ∀ i < n, (loc i).closes = true → ∀ j < n, j ≠ i → (loc i).Past body s (loc j)
  least : ∃ i < n, (loc i).needs ≤ s.freed
  completed : ∀ k, Work.nowaitAt body k = true → s.completed k = Nat.count (fun i => (loc i).counted k = true) n
  arrived : s.arrived = Nat.count (fun i => (loc i).atBarrier body s.generation = true) n

namespace NumberedMember

variable {body : List (Work G C A B E)} {s s' : NumberedTeam G C} {m m' : NumberedMember B}

/-- A step of another thread. -/
theorem Ok.frame (h : m.Ok body s) (hstarted : s.started ≤ s'.started) (hfreed : s'.freed ≤ m.needs)
    (hgen : s'.generation = s.generation)
    (hbuild : m.status = .building → s'.building = true ∧ s'.started = s.started) : m.Ok body s' where
  bound := h.bound
  construct := h.construct
  reached := h.reached.trans hstarted
  freed := hfreed
  building hb := ⟨(hbuild hb).1, by rw [(hbuild hb).2]; exact (h.building hb).2⟩
  waiting g hg := by rw [hgen]; exact h.waiting g hg
  running hr := by rw [hgen]; exact h.running hr
  releasing := h.releasing

/-- The thread in construct `W`. -/
theorem Ok.inside {W : Work G C A B E} (h : m.Ok body s) (hW : body[m.pos]? = some W)
    (hwait : ∀ g, m.status ≠ .waiting g) (hfreed : s'.freed ≤ m.pos) (hstarted : m.pos < s'.started)
    (hgen : s'.generation = s.generation) (b : B) : Ok body s' ⟨m.pos, .inside b⟩ where
  bound := h.bound
  construct _ := (List.getElem?_eq_some_iff.1 hW).1
  reached := hstarted
  freed := hfreed
  building hb := nomatch hb
  waiting _ hg := nomatch hg
  running _ := by rw [hgen]; exact h.running hwait
  releasing hb := nomatch hb

/-- The thread past construct `W`. -/
theorem Ok.done {W : Work G C A B E} (hW : body[m.pos]? = some W) (hstarted : m.pos < s'.started)
    (hfreed : s'.freed ≤ m.pos + 1) (hgen : Work.barriers body (m.pos + 1) = s'.generation) : m.done.Ok body s' where
  bound := (List.getElem?_eq_some_iff.1 hW).1
  construct hb := absurd rfl hb
  reached := hstarted
  freed := hfreed
  building hb := nomatch hb
  waiting _ hg := nomatch hg
  running _ := hgen
  releasing hb := nomatch hb

theorem pos_le_needs (m : NumberedMember B) : m.pos ≤ m.needs := by
  unfold needs
  cases m.status <;> simp

/-- A thread that does not need the work share before a nowait construct any more has added itself there. -/
theorem counted_of_lt_needs (m : NumberedMember B) {k : Nat} (h : m.Ok body s) (hk : Work.nowaitAt body k = true)
    (hlt : k < m.needs) : m.counted k = true := by
  have hne : Work.barrierAt body m.pos = true → k ≠ m.pos := by
    rintro hbar rfl
    rw [Work.not_nowaitAt_of_barrierAt hbar] at hk
    cases hk
  unfold counted
  cases hst : m.status with
  | between | building | inside b =>
    simp only [needs, hst] at hlt
    exact decide_eq_true hlt
  | freeing =>
    simp only [needs, hst] at hlt
    exact decide_eq_true hlt.le
  | waiting g =>
    simp only [needs, hst] at hlt
    have hpos := hne (h.waiting g hst).1
    exact decide_eq_true (by omega)
  | releasing =>
    simp only [needs, hst] at hlt
    have hpos := hne (h.releasing hst)
    exact decide_eq_true (by omega)

/-- A thread that does not need the work share before the barrier of this generation any more is at the barrier. -/
theorem atBarrier_of_lt_needs (m : NumberedMember B) {k : Nat} (h : m.Ok body s)
    (hk : Work.barrierAt body k = true) (hgen : Work.barriers body k = s.generation) (hlt : k < m.needs) :
    m.atBarrier body s.generation = true := by
  -- nobody is past it
  have hle : Work.barriers body m.pos ≤ s.generation := by
    by_cases hw : ∃ g, m.status = .waiting g
    · obtain ⟨g, hw⟩ := hw
      obtain ⟨-, hbar, hg⟩ := h.waiting g hw
      omega
    · push Not at hw
      exact (h.running hw).le
  have hpos : m.pos ≤ k := by
    by_contra hlt'
    have hlt := Work.barriers_lt hk (Nat.lt_of_not_le hlt')
    omega
  unfold atBarrier
  cases hst : m.status with
  | between | building | inside b | freeing =>
    simp only [needs, hst] at hlt
    omega
  | waiting g =>
    simp only [needs, hst] at hlt
    obtain rfl : k = m.pos := by omega
    have hbar := (h.waiting g hst).2.1
    exact decide_eq_true (by omega)
  | releasing => rfl

end NumberedMember

namespace NumberedInv

variable {n i j : Nat} {body : List (Work G C A B E)} {s s' : NumberedTeam G C} {loc : Nat → NumberedMember B}
  {m' : NumberedMember B} {W : Work G C A B E}

theorem freed_le (h : NumberedInv n body s loc) (hi : i < n) : s.freed ≤ s.started := by
  have hm := h.member i hi
  have hle : (loc i).needs ≤ (loc i).reached := by
    unfold NumberedMember.needs NumberedMember.reached
    cases (loc i).status <;> simp
  exact hm.freed.trans (hle.trans hm.reached)

/-- One thread at a time is the last in a construct. -/
theorem closes_unique (h : NumberedInv n body s loc) (hi : i < n) (hj : j < n) (hci : (loc i).closes = true)
    (hcj : (loc j).closes = true) : i = j := by
  by_contra hne
  rcases h.past i hi hci j hj (Ne.symm hne) with ⟨-, hlt⟩ | ⟨-, hw⟩
  · rcases h.past j hj hcj i hi hne with ⟨-, hlt'⟩ | ⟨-, hw⟩
    · omega
    · simp [NumberedMember.closes, hw] at hci
  · simp [NumberedMember.closes, hw] at hcj

/-- What a step of a thread has to keep. -/
theorem of_step (h : NumberedInv n body s loc) (hm : m'.Ok body s')
    (hothers : ∀ j < n, j ≠ i → (loc j).Ok body s')
    (hbuilt : s'.building = true → ∃ j < n, (Function.update loc i m' j).status = .building)
    (hone : m'.status = .building → ∀ j < n, j ≠ i → (loc j).status ≠ .building)
    (hpast : m'.closes = true → ∀ j < n, j ≠ i → m'.Past body s' (loc j))
    (hpast' : ∀ j < n, j ≠ i → (loc j).closes = true → (loc j).Past body s' m' ∧ s'.generation = s.generation)
    (hleast : ∃ j < n, (Function.update loc i m' j).needs ≤ s'.freed)
    (hcompleted : ∀ k, Work.nowaitAt body k = true →
      s'.completed k = Nat.count (fun j => (Function.update loc i m' j).counted k = true) n)
    (harrived : s'.arrived =
      Nat.count (fun j => (Function.update loc i m' j).atBarrier body s'.generation = true) n) :
    NumberedInv n body s' (Function.update loc i m') where
  member j hj := by
    by_cases hji : j = i
    · subst hji
      rw [Function.update_self]
      exact hm
    · rw [Function.update_of_ne hji]
      exact hothers j hj hji
  built := hbuilt
  oneBuilds j hj k hk hbj hbk := by
    by_contra hjk
    by_cases hji : j = i
    · subst hji
      rw [Function.update_self] at hbj
      rw [Function.update_of_ne (Ne.symm hjk)] at hbk
      exact hone hbj k hk (Ne.symm hjk) hbk
    · rw [Function.update_of_ne hji] at hbj
      by_cases hki : k = i
      · subst hki
        rw [Function.update_self] at hbk
        exact hone hbk j hj hji hbj
      · rw [Function.update_of_ne hki] at hbk
        exact hjk (h.oneBuilds j hj k hk hbj hbk)
  past j hj hcj k hk hkj := by
    by_cases hji : j = i
    · subst hji
      rw [Function.update_self] at hcj ⊢
      rw [Function.update_of_ne hkj]
      exact hpast hcj k hk hkj
    · rw [Function.update_of_ne hji] at hcj ⊢
      by_cases hki : k = i
      · subst hki
        rw [Function.update_self]
        exact (hpast' j hj hji hcj).1
      · rw [Function.update_of_ne hki]
        unfold NumberedMember.Past
        rw [(hpast' j hj hji hcj).2]
        exact h.past j hj hcj k hk hkj
  least := hleast
  completed := hcompleted
  arrived := harrived

/-- A step in which no barrier is left keeps the thread past the others. -/
theorem past_step (h : NumberedInv n body s loc) (hi : i < n) (hwait : (loc i).status ≠ .waiting s.generation)
    (hpos : (loc i).pos ≤ m'.pos) (hgen : s'.generation = s.generation) (hj : j < n) (hji : j ≠ i)
    (hc : (loc j).closes = true) : (loc j).Past body s' m' ∧ s'.generation = s.generation := by
  rcases h.past j hj hc i hi (Ne.symm hji) with ⟨hform, hlt⟩ | ⟨-, hw⟩
  · exact ⟨.inl ⟨hform, by omega⟩, hgen⟩
  · exact absurd hw hwait

/-- Where a step changes neither `threads_completed` nor who has been counted. -/
theorem completed_step (h : NumberedInv n body s loc) (hs : s'.completed = s.completed)
    (hm : ∀ k, Work.nowaitAt body k = true → m'.counted k = (loc i).counted k) (k : Nat)
    (hk : Work.nowaitAt body k = true) :
    s'.completed k = Nat.count (fun j => (Function.update loc i m' j).counted k = true) n := by
  rw [hs, h.completed k hk]
  exact (count_update_same (fun m : NumberedMember B => m.counted k = true) (by rw [hm k hk]) n).symm

/-- Where a step changes neither the barrier nor who is there. -/
theorem arrived_step (h : NumberedInv n body s loc) (hs : s'.arrived = s.arrived) (hgen : s'.generation = s.generation)
    (hm : m'.atBarrier body s.generation = (loc i).atBarrier body s.generation) :
    s'.arrived = Nat.count (fun j => (Function.update loc i m' j).atBarrier body s'.generation = true) n := by
  rw [hs, hgen, h.arrived]
  exact (count_update_same (fun m : NumberedMember B => m.atBarrier body s.generation = true) (by rw [hm]) n).symm

/-- A step that needs what it needed before. -/
theorem least_step (h : NumberedInv n body s loc) (hs : s'.freed = s.freed) (hm : m'.needs = (loc i).needs) :
    ∃ j < n, (Function.update loc i m' j).needs ≤ s'.freed := by
  obtain ⟨j, hj, hle⟩ := h.least
  refine ⟨j, hj, ?_⟩
  by_cases hji : j = i
  · subst hji
    rw [Function.update_self, hm, hs]
    exact hle
  · rw [Function.update_of_ne hji, hs]
    exact hle

/-- A step that neither builds nor links in a work share. -/
theorem built_step (h : NumberedInv n body s loc) (hs : s'.building = s.building)
    (hm : (loc i).status ≠ .building) (hb : s'.building = true) :
    ∃ j < n, (Function.update loc i m' j).status = .building := by
  obtain ⟨j, hj, hst⟩ := h.built (hs ▸ hb)
  have hji : j ≠ i := by
    rintro rfl
    exact hm hst
  exact ⟨j, hj, by rw [Function.update_of_ne hji]; exact hst⟩

/-- A step of a thread that neither waits nor closes a construct, before as after. -/
theorem of_calm (h : NumberedInv n body s loc) (hi : i < n) (hcalm : (loc i).calm = true) (hcalm' : m'.calm = true)
    (hpos : m'.pos = (loc i).pos) (hfreed : s'.freed = s.freed) (hcompleted : s'.completed = s.completed)
    (harrived : s'.arrived = s.arrived) (hgen : s'.generation = s.generation) (hm : m'.Ok body s')
    (hothers : ∀ j < n, j ≠ i → (loc j).Ok body s')
    (hbuilt : s'.building = true → ∃ j < n, (Function.update loc i m' j).status = .building)
    (hone : m'.status = .building → ∀ j < n, j ≠ i → (loc j).status ≠ .building) :
    NumberedInv n body s' (Function.update loc i m') := by
  have hwait : (loc i).status ≠ .waiting s.generation := by
    intro hw
    simp [NumberedMember.calm, hw] at hcalm
  have hneeds : ∀ {m : NumberedMember B}, m.calm = true → m.needs = m.pos := by
    rintro ⟨p, st⟩ hc
    cases st <;> first | rfl | cases hc
  have hcounted : ∀ {m : NumberedMember B}, m.calm = true → ∀ k, m.counted k = decide (k < m.pos) := by
    rintro ⟨p, st⟩ hc k
    cases st <;> first | rfl | cases hc
  have hbarrier : ∀ {m : NumberedMember B}, m.calm = true → m.atBarrier body s.generation = false := by
    rintro ⟨p, st⟩ hc
    cases st <;> first | rfl | cases hc
  have hcloses : ∀ {m : NumberedMember B}, m.calm = true → m.closes = false := by
    rintro ⟨p, st⟩ hc
    cases st <;> first | rfl | cases hc
  refine h.of_step hm hothers hbuilt hone (fun hc => absurd hc (by rw [hcloses hcalm']; decide))
    (fun j hj hji hc => h.past_step hi hwait (le_of_eq hpos.symm) hgen hj hji hc)
    (h.least_step hfreed (by rw [hneeds hcalm, hneeds hcalm', hpos]))
    (h.completed_step hcompleted fun k _ => by rw [hcounted hcalm, hcounted hcalm', hpos])
    (h.arrived_step harrived hgen (by rw [hbarrier hcalm, hbarrier hcalm']))

theorem enter (h : NumberedInv n body s loc) (hi : i < n) (hW : body[(loc i).pos]? = some W)
    (hst : (loc i).status = .between) (hlt : (loc i).pos < s.started) :
    NumberedInv n body s (Function.update loc i ⟨(loc i).pos, .inside W.entry⟩) := by
  have hm := h.member i hi
  have hfreed : s.freed ≤ (loc i).pos := by simpa [NumberedMember.needs, hst] using hm.freed
  refine h.of_calm hi (by simp [NumberedMember.calm, hst]) rfl rfl rfl rfl rfl rfl
    (hm.inside hW (by simp [hst]) hfreed hlt rfl _) (fun j hj _ => h.member j hj) (h.built_step rfl (by simp [hst]))
    (fun hb => nomatch hb)

theorem build (h : NumberedInv n body s loc) (hi : i < n) (hW : body[(loc i).pos]? = some W)
    (hst : (loc i).status = .between) (hlt : ¬ (loc i).pos < s.started) (hfree : s.building = false) :
    NumberedInv n body { s with building := true } (Function.update loc i ⟨(loc i).pos, .building⟩) := by
  have hm := h.member i hi
  have hreached : (loc i).pos ≤ s.started := by simpa [NumberedMember.reached, hst] using hm.reached
  -- nobody else can be building, for the lock was free
  have hnone : ∀ j < n, (loc j).status ≠ .building := by
    intro j hj hb
    rw [((h.member j hj).building hb).1] at hfree
    cases hfree
  refine h.of_calm hi (by simp [NumberedMember.calm, hst]) rfl rfl rfl rfl rfl rfl ?_
    (fun j hj _ => (h.member j hj).frame le_rfl (h.member j hj).freed rfl fun hb => absurd hb (hnone j hj))
    (fun _ => ⟨i, hi, by rw [Function.update_self]⟩) (fun _ j hj _ => hnone j hj)
  exact
    { bound := hm.bound
      construct := fun _ => (List.getElem?_eq_some_iff.1 hW).1
      reached := hreached
      freed := by simpa [NumberedMember.needs, hst] using hm.freed
      building := fun _ => ⟨rfl, by show (loc i).pos = s.started; omega⟩
      waiting := fun _ hg => nomatch hg
      running := fun _ => hm.running (by simp [hst])
      releasing := fun hb => nomatch hb }

theorem link (h : NumberedInv n body s loc) (hi : i < n) (hW : body[(loc i).pos]? = some W)
    (hst : (loc i).status = .building) :
    NumberedInv n body { s with started := s.started + 1, building := false }
      (Function.update loc i ⟨(loc i).pos, .inside W.entry⟩) := by
  have hm := h.member i hi
  have hfreed : s.freed ≤ (loc i).pos := by simpa [NumberedMember.needs, hst] using hm.freed
  have hpos := (hm.building hst).2
  have hone : ∀ j < n, j ≠ i → (loc j).status ≠ .building := fun j hj hji hb => hji (h.oneBuilds j hj i hi hb hst)
  refine h.of_calm hi (by simp [NumberedMember.calm, hst]) rfl rfl rfl rfl rfl rfl ?_
    (fun j hj hji => (h.member j hj).frame (Nat.le_succ _) (h.member j hj).freed rfl fun hb =>
      absurd hb (hone j hj hji)) (fun hb => nomatch hb) (fun hb => nomatch hb)
  apply hm.inside hW (by simp [hst])
  · exact hfreed
  · show (loc i).pos < s.started + 1
    omega
  · rfl

theorem run (h : NumberedInv n body s loc) (hi : i < n) (hW : body[(loc i).pos]? = some W) {b : B}
    (hst : (loc i).status = .inside b) (g : G) (content : Nat → C) (b' : B) :
    NumberedInv n body { s with global := g, content := content }
      (Function.update loc i ⟨(loc i).pos, .inside b'⟩) := by
  have hm := h.member i hi
  have hfreed : s.freed ≤ (loc i).pos := by simpa [NumberedMember.needs, hst] using hm.freed
  have hreached : (loc i).pos + 1 ≤ s.started := by simpa [NumberedMember.reached, hst] using hm.reached
  refine h.of_calm hi (by simp [NumberedMember.calm, hst]) rfl rfl rfl rfl rfl rfl ?_
    (fun j hj _ => (h.member j hj).frame le_rfl (h.member j hj).freed rfl fun hb =>
      ⟨((h.member j hj).building hb).1, rfl⟩)
    (h.built_step rfl (by simp [hst])) (fun hb => nomatch hb)
  apply hm.inside hW (by simp [hst])
  · exact hfreed
  · exact hreached
  · rfl

/-- All others are through with what the last thread of a construct puts back, so that nothing else is due. -/
theorem freed_eq (h : NumberedInv n body s loc) (hi : i < n) (hst : (loc i).status = .freeing) :
    s.freed = (loc i).pos := by
  have hfreed : s.freed ≤ (loc i).pos := by simpa [NumberedMember.needs, hst] using (h.member i hi).freed
  obtain ⟨j, hj, hle⟩ := h.least
  by_cases hji : j = i
  · subst hji
    have hneeds : (loc j).needs = (loc j).pos := by simp [NumberedMember.needs, hst]
    omega
  · have hlt : (loc i).pos < (loc j).needs := by
      rcases h.past i hi (by simp [NumberedMember.closes, hst]) j hj hji with ⟨-, hlt⟩ | ⟨hbar, hw⟩
      · exact lt_of_lt_of_le hlt (loc j).pos_le_needs
      · obtain ⟨hbar', hgen, -⟩ := (h.member j hj).waiting _ hw
        have hpos := Work.barriers_injective hbar hbar' (((h.member i hi).running (by simp [hst])).trans hgen.symm)
        simp [NumberedMember.needs, hw, hpos]
    omega

/-- Others than the last thread of a construct do not need what it puts back. -/
theorem lt_needs (h : NumberedInv n body s loc) (hi : i < n) (hst : (loc i).status = .freeing) (hj : j < n)
    (hji : j ≠ i) : s.freed + 1 ≤ (loc j).needs := by
  have hfreed := h.freed_eq hi hst
  rcases h.past i hi (by simp [NumberedMember.closes, hst]) j hj hji with ⟨-, hlt⟩ | ⟨hbar, hw⟩
  · have hle := (loc j).pos_le_needs
    omega
  · obtain ⟨hbar', hgen, -⟩ := (h.member j hj).waiting _ hw
    have hpos := Work.barriers_injective hbar hbar' (((h.member i hi).running (by simp [hst])).trans hgen.symm)
    simp [NumberedMember.needs, hw]
    omega

/-- A thread that has counted itself, when the others all have. -/
theorem completed_succ (h : NumberedInv n body s loc) (hi : i < n) (hW : body[(loc i).pos]? = some W)
    (hform : W.nowait = true) {b : B} (hst : (loc i).status = .inside b) :
    s.completed (loc i).pos + 1 = n ↔ ∀ j < n, j ≠ i → (loc j).counted (loc i).pos = true := by
  rw [h.completed _ (by rw [Work.nowaitAt_of hW, hform])]
  exact count_add_one_iff hi (by simp [NumberedMember.counted, hst])

/-- A thread that has arrived, when the others all have. -/
theorem arrived_succ (h : NumberedInv n body s loc) (hi : i < n) {b : B} (hst : (loc i).status = .inside b) :
    s.arrived + 1 = n ↔ ∀ j < n, j ≠ i → (loc j).atBarrier body s.generation = true := by
  rw [h.arrived]
  exact count_add_one_iff hi (by simp [NumberedMember.atBarrier, hst])

/-- The counter after a thread has added itself to it. -/
theorem completed_update (h : NumberedInv n body s loc) (hi : i < n) {b : B} (hst : (loc i).status = .inside b)
    (hm : ∀ k, m'.counted k = decide (k ≤ (loc i).pos)) (k : Nat) (hk : Work.nowaitAt body k = true) :
    Function.update s.completed (loc i).pos (s.completed (loc i).pos + 1) k =
      Nat.count (fun j => (Function.update loc i m' j).counted k = true) n := by
  have hbefore : (loc i).counted k = decide (k < (loc i).pos) := by simp [NumberedMember.counted, hst]
  by_cases hpos : k = (loc i).pos
  · subst hpos
    rw [Function.update_self, h.completed _ hk]
    refine (count_update_succ (fun m : NumberedMember B => m.counted (loc i).pos = true) ?_ ?_ hi).symm
    · rw [hm]
      simp
    · rw [hbefore]
      simp
  · rw [Function.update_of_ne hpos, h.completed _ hk]
    refine (count_update_same (fun m : NumberedMember B => m.counted k = true) ?_ n).symm
    rw [hm, hbefore, decide_eq_true_eq, decide_eq_true_eq]
    omega

/-- The counter of the barrier after a thread has arrived. -/
theorem arrived_update (h : NumberedInv n body s loc) (hi : i < n) {b : B} (hst : (loc i).status = .inside b)
    (hm : m'.atBarrier body s.generation = true) :
    s.arrived + 1 = Nat.count (fun j => (Function.update loc i m' j).atBarrier body s.generation = true) n := by
  rw [h.arrived]
  refine (count_update_succ (fun m : NumberedMember B => m.atBarrier body s.generation = true) hm ?_ hi).symm
  simp [NumberedMember.atBarrier, hst]

/-- When a thread goes on that is not the only one to need what is put back next, another one still needs it. -/
theorem least_other (h : NumberedInv n body s loc) (hi : i < n) {b : B} (hst : (loc i).status = .inside b)
    (hother : ∃ j < n, j ≠ i ∧ (loc j).needs ≤ (loc i).pos) (hm : (loc i).pos ≤ m'.needs) :
    ∃ j < n, (Function.update loc i m' j).needs ≤ s.freed := by
  obtain ⟨j, hj, hle⟩ := h.least
  by_cases hji : j = i
  · subst hji
    obtain ⟨k, hk, hkj, hle'⟩ := hother
    have hneeds : (loc j).needs = (loc j).pos := by simp [NumberedMember.needs, hst]
    exact ⟨k, hk, by rw [Function.update_of_ne hkj]; omega⟩
  · exact ⟨j, hj, by rw [Function.update_of_ne hji]; exact hle⟩

theorem count (h : NumberedInv n body s loc) (hi : i < n) (hW : body[(loc i).pos]? = some W) {b : B}
    (hst : (loc i).status = .inside b) (hform : W.nowait = true) (hn : s.completed (loc i).pos + 1 ≠ n) :
    NumberedInv n body { s with completed := Function.update s.completed (loc i).pos (s.completed (loc i).pos + 1) }
      (Function.update loc i (loc i).done) := by
  have hm := h.member i hi
  have hfreed : s.freed ≤ (loc i).pos := by simpa [NumberedMember.needs, hst] using hm.freed
  have hreached : (loc i).pos + 1 ≤ s.started := by simpa [NumberedMember.reached, hst] using hm.reached
  have hgen : Work.barriers body ((loc i).pos + 1) = s.generation := by
    rw [Work.barriers_succ hW, if_pos hform, Nat.add_zero]
    exact hm.running (by simp [hst])
  -- some other thread has not counted itself yet
  have hother : ∃ j < n, j ≠ i ∧ (loc j).needs ≤ (loc i).pos := by
    rw [Ne, h.completed_succ hi hW hform hst] at hn
    push Not at hn
    obtain ⟨j, hj, hji, hcount⟩ := hn
    refine ⟨j, hj, hji, ?_⟩
    by_contra hlt
    apply hcount
    exact (loc j).counted_of_lt_needs (h.member j hj) (by rw [Work.nowaitAt_of hW, hform]) (by omega)
  refine h.of_step ?_ (fun j hj _ => ?_) (h.built_step rfl (by simp [hst])) (fun hb => nomatch hb)
    (fun hc => nomatch hc)
    (fun j hj hji hc => h.past_step hi (by simp [hst]) (Nat.le_succ _) rfl hj hji hc)
    (h.least_other hi hst hother (by simp [NumberedMember.needs])) (h.completed_update hi hst fun k => ?_)
    (h.arrived_step rfl rfl (by simp [NumberedMember.atBarrier, hst]))
  · exact NumberedMember.Ok.done hW hreached (hfreed.trans (Nat.le_succ _)) hgen
  · exact (h.member j hj).frame le_rfl (h.member j hj).freed rfl fun hb => ⟨((h.member j hj).building hb).1, rfl⟩
  · simp [NumberedMember.counted]

theorem countLast (h : NumberedInv n body s loc) (hi : i < n) (hW : body[(loc i).pos]? = some W) {b : B}
    (hst : (loc i).status = .inside b) (hform : W.nowait = true) (hn : s.completed (loc i).pos + 1 = n) :
    NumberedInv n body { s with completed := Function.update s.completed (loc i).pos (s.completed (loc i).pos + 1) }
      (Function.update loc i ⟨(loc i).pos, .freeing⟩) := by
  have hm := h.member i hi
  have hnowait : Work.nowaitAt body (loc i).pos = true := by rw [Work.nowaitAt_of hW, hform]
  have hbarrier : Work.barrierAt body (loc i).pos = false := by rw [Work.barrierAt_of hW, hform]; rfl
  have hall := (h.completed_succ hi hW hform hst).1 hn
  have hpast : ∀ j < n, j ≠ i → (loc i).pos < (loc j).pos := by
    intro j hj hji
    have hcount := hall j hj hji
    cases hstj : (loc j).status with
    | freeing =>
      -- the last thread of another construct would be past this one
      rcases h.past j hj (by simp [NumberedMember.closes, hstj]) i hi (Ne.symm hji) with ⟨-, hlt⟩ | ⟨-, hw⟩
      · simp [NumberedMember.counted, hstj] at hcount
        omega
      · rw [hst] at hw
        cases hw
    | between | building | inside b | waiting g | releasing => simpa [NumberedMember.counted, hstj] using hcount
  refine h.of_step ?_ (fun j hj _ => ?_) (h.built_step rfl (by simp [hst])) (fun hb => nomatch hb)
    (fun _ j hj hji => .inl ⟨hnowait, hpast j hj hji⟩)
    (fun j hj hji hc => h.past_step hi (by simp [hst]) le_rfl rfl hj hji hc)
    (h.least_step rfl (by simp [NumberedMember.needs, hst])) (h.completed_update hi hst fun k => rfl)
    (h.arrived_step rfl rfl (by simp [NumberedMember.atBarrier, hst, hbarrier]))
  · exact
      { bound := hm.bound
        construct := fun _ => (List.getElem?_eq_some_iff.1 hW).1
        reached := by simpa [NumberedMember.reached, hst] using hm.reached
        freed := by simpa [NumberedMember.needs, hst] using hm.freed
        building := fun hb => nomatch hb
        waiting := fun _ hg => nomatch hg
        running := fun _ => hm.running (by simp [hst])
        releasing := fun hb => nomatch hb }
  · exact (h.member j hj).frame le_rfl (h.member j hj).freed rfl fun hb => ⟨((h.member j hj).building hb).1, rfl⟩

theorem arrive (h : NumberedInv n body s loc) (hi : i < n) (hW : body[(loc i).pos]? = some W) {b : B}
    (hst : (loc i).status = .inside b) (hform : W.nowait = false) (hn : s.arrived + 1 ≠ n) :
    NumberedInv n body { s with arrived := s.arrived + 1 }
      (Function.update loc i ⟨(loc i).pos, .waiting s.generation⟩) := by
  have hm := h.member i hi
  have hbarrier : Work.barrierAt body (loc i).pos = true := by rw [Work.barrierAt_of hW, hform]; rfl
  have hfreed : s.freed ≤ (loc i).pos := by simpa [NumberedMember.needs, hst] using hm.freed
  have hgen : Work.barriers body (loc i).pos = s.generation := hm.running (by simp [hst])
  -- some other thread has not arrived yet
  have hother : ∃ j < n, j ≠ i ∧ (loc j).needs ≤ (loc i).pos := by
    rw [Ne, h.arrived_succ hi hst] at hn
    push Not at hn
    obtain ⟨j, hj, hji, hat⟩ := hn
    refine ⟨j, hj, hji, ?_⟩
    by_contra hlt
    apply hat
    exact (loc j).atBarrier_of_lt_needs (h.member j hj) hbarrier hgen (by omega)
  refine h.of_step ?_ (fun j hj _ => ?_) (h.built_step rfl (by simp [hst])) (fun hb => nomatch hb)
    (fun hc => nomatch hc)
    (fun j hj hji hc => h.past_step hi (by simp [hst]) le_rfl rfl hj hji hc)
    (h.least_other hi hst hother (Nat.le_succ _))
    (h.completed_step rfl fun k _ => by simp [NumberedMember.counted, hst])
    (h.arrived_update hi hst (by simp [NumberedMember.atBarrier]))
  · exact
      { bound := hm.bound
        construct := fun _ => (List.getElem?_eq_some_iff.1 hW).1
        reached := by simpa [NumberedMember.reached, hst] using hm.reached
        freed := hfreed.trans (Nat.le_succ _)
        building := fun hb => nomatch hb
        waiting := fun g hg => by
          cases hg
          exact ⟨hbarrier, hgen, .inl rfl⟩
        running := fun hw => absurd rfl (hw s.generation)
        releasing := fun hb => nomatch hb }
  · exact (h.member j hj).frame le_rfl (h.member j hj).freed rfl fun hb => ⟨((h.member j hj).building hb).1, rfl⟩

theorem arriveLast (h : NumberedInv n body s loc) (hi : i < n) (hW : body[(loc i).pos]? = some W) {b : B}
    (hst : (loc i).status = .inside b) (hform : W.nowait = false) (hn : s.arrived + 1 = n) :
    NumberedInv n body { s with arrived := s.arrived + 1 } (Function.update loc i ⟨(loc i).pos, .freeing⟩) := by
  have hm := h.member i hi
  have hbarrier : Work.barrierAt body (loc i).pos = true := by rw [Work.barrierAt_of hW, hform]; rfl
  have hall := (h.arrived_succ hi hst).1 hn
  have hwait : ∀ j < n, j ≠ i → (loc j).status = .waiting s.generation := by
    intro j hj hji
    have hat := hall j hj hji
    have hnot : (loc j).closes = true → Work.barrierAt body (loc j).pos = true → False := by
      intro hc hbar
      rcases h.past j hj hc i hi (Ne.symm hji) with ⟨hno, -⟩ | ⟨-, hw⟩
      · rw [Work.not_nowaitAt_of_barrierAt hbar] at hno
        cases hno
      · rw [hst] at hw
        cases hw
    cases hstj : (loc j).status with
    | waiting g =>
      simp [NumberedMember.atBarrier, hstj] at hat
      rw [hat]
    | freeing =>
      exact absurd (by simpa [NumberedMember.atBarrier, hstj] using hat)
        (hnot (by simp [NumberedMember.closes, hstj]))
    | releasing => exact absurd ((h.member j hj).releasing hstj) (hnot (by simp [NumberedMember.closes, hstj]))
    | between | building | inside b => simp [NumberedMember.atBarrier, hstj] at hat
  refine h.of_step ?_ (fun j hj _ => ?_) (h.built_step rfl (by simp [hst])) (fun hb => nomatch hb)
    (fun _ j hj hji => .inr ⟨hbarrier, hwait j hj hji⟩)
    (fun j hj hji hc => h.past_step hi (by simp [hst]) le_rfl rfl hj hji hc)
    (h.least_step rfl (by simp [NumberedMember.needs, hst])) (h.completed_step rfl fun k hk => ?_)
    (h.arrived_update hi hst (by simpa [NumberedMember.atBarrier] using hbarrier))
  · exact
      { bound := hm.bound
        construct := fun _ => (List.getElem?_eq_some_iff.1 hW).1
        reached := by simpa [NumberedMember.reached, hst] using hm.reached
        freed := by simpa [NumberedMember.needs, hst] using hm.freed
        building := fun hb => nomatch hb
        waiting := fun _ hg => nomatch hg
        running := fun _ => hm.running (by simp [hst])
        releasing := fun hb => nomatch hb }
  · exact (h.member j hj).frame le_rfl (h.member j hj).freed rfl fun hb => ⟨((h.member j hj).building hb).1, rfl⟩
  · have hne : k ≠ (loc i).pos := by
      rintro rfl
      rw [Work.not_nowaitAt_of_barrierAt hbarrier] at hk
      cases hk
    simp only [NumberedMember.counted, hst, decide_eq_decide]
    omega

theorem free (h : NumberedInv n body s loc) (hi : i < n) (hW : body[(loc i).pos]? = some W)
    (hst : (loc i).status = .freeing) (hform : W.nowait = true) :
    NumberedInv n body { s with freed := s.freed + 1 } (Function.update loc i (loc i).done) := by
  have hm := h.member i hi
  have hfreed := h.freed_eq hi hst
  have hreached : (loc i).pos + 1 ≤ s.started := by simpa [NumberedMember.reached, hst] using hm.reached
  have hgen : Work.barriers body ((loc i).pos + 1) = s.generation := by
    rw [Work.barriers_succ hW, if_pos hform, Nat.add_zero]
    exact hm.running (by simp [hst])
  refine h.of_step ?_ (fun j hj hji => ?_) (h.built_step rfl (by simp [hst])) (fun hb => nomatch hb)
    (fun hc => nomatch hc) (fun j hj hji hc => h.past_step hi (by simp [hst]) (Nat.le_succ _) rfl hj hji hc)
    ⟨i, hi, ?_⟩ (h.completed_step rfl fun k _ => ?_)
    (h.arrived_step rfl rfl (by simp [NumberedMember.atBarrier, hst, Work.barrierAt_of hW, hform]))
  · exact NumberedMember.Ok.done hW hreached (by show s.freed + 1 ≤ (loc i).pos + 1; omega) hgen
  · exact (h.member j hj).frame le_rfl (h.lt_needs hi hst hj hji) rfl fun hb => ⟨((h.member j hj).building hb).1, rfl⟩
  · rw [Function.update_self]
    show (loc i).pos + 1 ≤ s.freed + 1
    omega
  · simp [NumberedMember.counted, hst]

theorem freeLast (h : NumberedInv n body s loc) (hi : i < n) (hW : body[(loc i).pos]? = some W)
    (hst : (loc i).status = .freeing) (hform : W.nowait = false) :
    NumberedInv n body { s with freed := s.freed + 1 } (Function.update loc i ⟨(loc i).pos, .releasing⟩) := by
  have hm := h.member i hi
  have hfreed := h.freed_eq hi hst
  have hbarrier : Work.barrierAt body (loc i).pos = true := by rw [Work.barrierAt_of hW, hform]; rfl
  refine h.of_step ?_ (fun j hj hji => ?_) (h.built_step rfl (by simp [hst])) (fun hb => nomatch hb)
    (fun _ j hj hji => h.past i hi (by simp [NumberedMember.closes, hst]) j hj hji)
    (fun j hj hji hc => h.past_step hi (by simp [hst]) le_rfl rfl hj hji hc)
    ⟨i, hi, ?_⟩ (h.completed_step rfl fun k hk => ?_)
    (h.arrived_step rfl rfl (by simp [NumberedMember.atBarrier, hst, hbarrier]))
  · exact
      { bound := hm.bound
        construct := fun _ => (List.getElem?_eq_some_iff.1 hW).1
        reached := by simpa [NumberedMember.reached, hst] using hm.reached
        freed := by show s.freed + 1 ≤ (loc i).pos + 1; omega
        building := fun hb => nomatch hb
        waiting := fun _ hg => nomatch hg
        running := fun _ => hm.running (by simp [hst])
        releasing := fun _ => hbarrier }
  · exact (h.member j hj).frame le_rfl (h.lt_needs hi hst hj hji) rfl fun hb => ⟨((h.member j hj).building hb).1, rfl⟩
  · rw [Function.update_self]
    show (loc i).pos + 1 ≤ s.freed + 1
    omega
  · have hne : k ≠ (loc i).pos := by
      rintro rfl
      rw [Work.not_nowaitAt_of_barrierAt hbarrier] at hk
      cases hk
    simp only [NumberedMember.counted, hst, decide_eq_decide]
    omega

theorem wake (h : NumberedInv n body s loc) (hi : i < n) (hW : body[(loc i).pos]? = some W) {g : Nat}
    (hst : (loc i).status = .waiting g) (hg : s.generation = g + 1) :
    NumberedInv n body s (Function.update loc i (loc i).done) := by
  have hm := h.member i hi
  obtain ⟨hbarrier, hbar, -⟩ := hm.waiting g hst
  have hfreed : s.freed ≤ (loc i).pos + 1 := by simpa [NumberedMember.needs, hst] using hm.freed
  have hreached : (loc i).pos + 1 ≤ s.started := by simpa [NumberedMember.reached, hst] using hm.reached
  have hgen : Work.barriers body ((loc i).pos + 1) = s.generation := by
    rw [Work.barrierAt_of hW] at hbarrier
    rw [Work.barriers_succ hW, if_neg (by simpa using hbarrier), hbar, hg]
  have hwait : (loc i).status ≠ .waiting s.generation := by
    rw [hst]
    intro heq
    cases heq
    omega
  refine h.of_step (NumberedMember.Ok.done hW hreached hfreed hgen) (fun j hj _ => h.member j hj)
    (h.built_step rfl (by simp [hst])) (fun hb => nomatch hb) (fun hc => nomatch hc)
    (fun j hj hji hc => h.past_step hi hwait (Nat.le_succ _) rfl hj hji hc)
    (h.least_step rfl (by simp [NumberedMember.needs, hst])) (h.completed_step rfl fun k hk => ?_)
    (h.arrived_step rfl rfl ?_)
  · have hne : k ≠ (loc i).pos := by
      rintro rfl
      rw [Work.not_nowaitAt_of_barrierAt hbarrier] at hk
      cases hk
    have hbefore : (loc i).counted k = decide (k < (loc i).pos) := by simp [NumberedMember.counted, hst]
    rw [hbefore]
    show decide (k < (loc i).pos + 1) = decide (k < (loc i).pos)
    rw [decide_eq_decide]
    omega
  · simp only [NumberedMember.atBarrier, hst, NumberedMember.done_status]
    rw [eq_comm, decide_eq_false_iff_not]
    omega

theorem release (h : NumberedInv n body s loc) (hi : i < n) (hW : body[(loc i).pos]? = some W)
    (hst : (loc i).status = .releasing) :
    NumberedInv n body { s with arrived := 0, generation := s.generation + 1 }
      (Function.update loc i (loc i).done) := by
  have hm := h.member i hi
  have hbarrier := hm.releasing hst
  have hclose : (loc i).closes = true := by simp [NumberedMember.closes, hst]
  have hfreed : s.freed ≤ (loc i).pos + 1 := by simpa [NumberedMember.needs, hst] using hm.freed
  have hreached : (loc i).pos + 1 ≤ s.started := by simpa [NumberedMember.reached, hst] using hm.reached
  have hgen : Work.barriers body ((loc i).pos + 1) = s.generation + 1 := by
    rw [Work.barrierAt_of hW] at hbarrier
    rw [Work.barriers_succ hW, if_neg (by simpa using hbarrier), hm.running (by simp [hst])]
  have hwait : ∀ j < n, j ≠ i → (loc j).status = .waiting s.generation := by
    intro j hj hji
    rcases h.past i hi hclose j hj hji with ⟨hno, -⟩ | ⟨-, hw⟩
    · rw [Work.not_nowaitAt_of_barrierAt hbarrier] at hno
      cases hno
    · exact hw
  refine h.of_step (NumberedMember.Ok.done hW hreached hfreed hgen) (fun j hj hji => ?_)
    (h.built_step rfl (by simp [hst])) (fun hb => nomatch hb) (fun hc => nomatch hc)
    (fun j hj hji hc => absurd (h.closes_unique hj hi hc hclose) hji)
    (h.least_step rfl (by simp [NumberedMember.needs, hst])) (h.completed_step rfl fun k hk => ?_) ?_
  · have hmj := h.member j hj
    have hw := hwait j hj hji
    exact
      { bound := hmj.bound
        construct := hmj.construct
        reached := hmj.reached
        freed := hmj.freed
        building := fun hb => nomatch hw.symm.trans hb
        waiting := fun g hg => by
          cases hw.symm.trans hg
          exact ⟨(hmj.waiting _ hw).1, (hmj.waiting _ hw).2.1, .inr rfl⟩
        running := fun hne => absurd hw (hne _)
        releasing := fun hb => nomatch hw.symm.trans hb }
  · have hne : k ≠ (loc i).pos := by
      rintro rfl
      rw [Work.not_nowaitAt_of_barrierAt hbarrier] at hk
      cases hk
    have hbefore : (loc i).counted k = decide (k < (loc i).pos) := by simp [NumberedMember.counted, hst]
    rw [hbefore]
    show decide (k < (loc i).pos + 1) = decide (k < (loc i).pos)
    rw [decide_eq_decide]
    omega
  · refine (Nat.count_iff_forall_not.2 fun j hj => ?_).symm
    by_cases hji : j = i
    · subst hji
      rw [Function.update_self]
      exact Bool.false_ne_true
    · rw [Function.update_of_ne hji]
      simp [NumberedMember.atBarrier, hwait j hj hji]

/-- Every step keeps the invariant. -/
theorem rule {e : Option E} (h : NumberedInv n body s loc) (hi : i < n)
    (hr : NumberedRule n body i s (loc i) s' m' e) : NumberedInv n body s' (Function.update loc i m') := by
  cases hr with
  | enter W hW hst hlt => exact h.enter hi hW hst hlt
  | build W hW hst hlt hfree => exact h.build hi hW hst hlt hfree
  | link W hW hst => exact h.link hi hW hst
  | run W hW b hst a g c b' _ _ => exact h.run hi hW hst g _ b'
  | count W hW b hst _ hform hn => exact h.count hi hW hst hform hn
  | countLast W hW b hst _ hform hn => exact h.countLast hi hW hst hform hn
  | arrive W hW b hst _ hform hn => exact h.arrive hi hW hst hform hn
  | arriveLast W hW b hst _ hform hn => exact h.arriveLast hi hW hst hform hn
  | free W hW hst hform => exact h.free hi hW hst hform
  | freeLast W hW hst hform => exact h.freeLast hi hW hst hform
  | wake W hW g hst hg => exact h.wake hi hW hst hg
  | release W hW hst => exact h.release hi hW hst

theorem start (hn : 0 < n) (global : G) (content : Nat → C) :
    NumberedInv n body (numberedStart body global content) fun _ => ⟨0, .between⟩ where
  member _ _ :=
    { bound := Nat.zero_le _
      construct := fun hb => absurd rfl hb
      reached := le_rfl
      freed := le_rfl
      building := fun hb => nomatch hb
      waiting := fun _ hg => nomatch hg
      running := fun _ => Nat.count_zero _
      releasing := fun hb => nomatch hb }
  built hb := nomatch hb
  oneBuilds _ _ _ _ hb := nomatch hb
  past _ _ hc := nomatch hc
  least := ⟨0, hn, le_rfl⟩
  completed k _ := (Nat.count_iff_forall_not.2 fun j _ => by simp [NumberedMember.counted]).symm
  arrived := (Nat.count_iff_forall_not.2 fun j _ => by simp [NumberedMember.atBarrier]).symm

end NumberedInv

end Bosched
