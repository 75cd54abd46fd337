/-
The ordered blocks of a loop run one at a time and in the order of the loop, whatever the threads of the team do. Each
step of a thread is one of a line (`Lib.Line`), or none: who is in the queue with a chunk is a worker in the line with
the iterations of the chunk that it has still to run.
-/
import Bosched.Ordered.Turn

namespace Bosched

open Lib

/-! ## The log of a loop -/

/-- The beginnings and ends of the ordered blocks of loop `k`. -/
def blocksOf (k : Nat) (log : List (Nat × OrderedEvent)) : List (Nat × Handling Int) :=
  log.filterMap fun x => match x.2 with
    | .block j b => if j = k then some (x.1, b) else none
    | .skip _ _ => none

/-- The iterations of loop `k` that went without one. -/
def skippedOf (k : Nat) (log : List (Nat × OrderedEvent)) : List Int :=
  log.filterMap fun x => match x.2 with
    | .block _ _ => none
    | .skip j v => if j = k then some v else none

/-- The loop an event belongs to. -/
def OrderedEvent.loopIndex : OrderedEvent → Nat
  | .block k _ => k
  | .skip k _ => k

section

variable {k i : Nat} {log : List (Nat × OrderedEvent)}

theorem blocksOf_block (b : Handling Int) : blocksOf k (log ++ [(i, .block k b)]) = blocksOf k log ++ [(i, b)] := by
  simp [blocksOf]

theorem blocksOf_skip (v : Int) : blocksOf k (log ++ [(i, .skip k v)]) = blocksOf k log := by simp [blocksOf]

theorem skippedOf_block (b : Handling Int) : skippedOf k (log ++ [(i, .block k b)]) =
    skippedOf k log := by simp [skippedOf]

theorem skippedOf_skip (v : Int) : skippedOf k (log ++ [(i, .skip k v)]) = skippedOf k log ++ [v] := by simp [skippedOf]

/-- The events of another loop. -/
theorem logged_other (i : Nat) (log : List (Nat × OrderedEvent)) {e : Option OrderedEvent}
    (h : ∀ x, e = some x → x.loopIndex ≠ k) :
    blocksOf k (logged log i e) = blocksOf k log ∧ skippedOf k (logged log i e) = skippedOf k log := by
  cases e with
  | none => exact ⟨rfl, rfl⟩
  | some x =>
    have hne := h x rfl
    cases x with
    | block j b =>
      have hne : j ≠ k := hne
      constructor <;> simp [blocksOf, skippedOf, hne]
    | skip j v =>
      have hne : j ≠ k := hne
      constructor <;> simp [blocksOf, skippedOf, hne]

end

/-! ## The iterator -/

/-- The iterations from a position on. -/
def OrderedLoop.left (L : OrderedLoop) (next : Word) : List Int := (L.loop.chunk (next.toInt, L.loop.fin)).values

/-- The iterator deals the loop out from front to back; `on` are the positions it stops at. -/
structure OrderedLoop.Deals (L : OrderedLoop) (on : Word → Prop) : Prop where
  first : on L.first
  values : L.left L.first = L.loop.values
  deal : ∀ {next}, on next → (L.iter next = some none ∧ L.left next = []) ∨
    ∃ c, L.iter next = some (some c) ∧ on c.2 ∧ L.items c ≠ [] ∧ L.left next = L.items c ++ L.left c.2

theorem OrderedLoop.Deals.dealt {L : OrderedLoop} {on : Word → Prop} (h : L.Deals on) {next : Word} (hon : on next)
    {c : Chunk}
    (hc : L.iter next = some (some c)) : on c.2 ∧ L.items c ≠ [] ∧ L.left next = L.items c ++ L.left c.2 := by
  rcases h.deal hon with ⟨hnone, -⟩ | ⟨c', hc', hdeal⟩
  · rw [hc] at hnone
    cases hnone
  · rw [hc] at hc'
    cases hc'
    exact hdeal

/-! ## The line of a loop -/

/-- The state of loop `k`, with the line that it is an implementation of. -/
structure InLine (n k : Nat) (L : OrderedLoop) (on : Word → Prop) (c : Cfg Nat OrderedTeam OrderedMember OrderedEvent)
    (line : Line Nat Int) : Prop where
  turn : Turn n k (c.shared.shares k) c.shared.release c.loc (line.queue.map (·.1))
  items : ∀ x ∈ line.queue, (c.loc x.1).status.items = some x.2
  busy : ∀ i v, line.busy = some (i, v) ↔ i < n ∧ (c.loc i).pos = k ∧ ∃ items, (c.loc i).status = .inside v items
  log : line.log = blocksOf k c.log
  skipped : line.skipped = skippedOf k c.log
  on : on (c.shared.shares k).next
  rest : line.rest = L.left (c.shared.shares k).next

namespace InLine

variable {n k i : Nat} {L : OrderedLoop} {on : Word → Prop} {c : Cfg Nat OrderedTeam OrderedMember OrderedEvent}
  {line : Line Nat Int} {s' : OrderedTeam} {m' : OrderedMember} {e : Option OrderedEvent}

/-- When a thread comes through `gomp_ordered_sync`, nobody is in an ordered block. -/
theorem idle (h : InLine n k L on c line) {t : List Nat} (ht : line.queue.map (·.1) = i :: t)
    (hi : ∀ v items, (c.loc i).status ≠ .inside v items) : line.busy = none := by
  cases hb : line.busy with
  | none => rfl
  | some x =>
    obtain ⟨hj, hk, items, hst⟩ := (h.busy x.1 x.2).1 hb
    obtain ⟨t', ht'⟩ := h.turn.head_of_past hj hk (by rw [hst]; trivial)
    rw [ht] at ht'
    rw [← (List.cons.inj ht').1] at hst
    exact absurd hst (hi _ _)

/-- The head of the line, with the iterations it has still to run. -/
theorem head (h : InLine n k L on c line) {t : List Nat} (ht : line.queue.map (·.1) = i :: t) {items : List Int}
    (hitems : (c.loc i).status.items = some items) :
    ∃ behind, line.queue = (i, items) :: behind ∧ behind.map (·.1) = t := by
  cases hq : line.queue with
  | nil =>
    rw [hq] at ht
    cases ht
  | cons x behind =>
    rw [hq, List.map_cons] at ht
    obtain ⟨rfl, rfl⟩ := List.cons.inj ht
    have hx := h.items x (by rw [hq]; exact List.mem_cons_self)
    rw [hitems] at hx
    exact ⟨behind, by rw [Option.some.inj hx], rfl⟩

/-- A thread that steps is inside an ordered block after the step, or nobody that was not is. -/
theorem busy_of (h : InLine n k L on c line) {busy : Option (Nat × Int)} (hi : i < n)
    (hmine : ∀ v, busy = some (i, v) ↔ m'.pos = k ∧ ∃ items, m'.status = .inside v items)
    (hothers : ∀ j ≠ i, ∀ v, busy = some (j, v) ↔ line.busy = some (j, v)) (j : Nat) (v : Int) :
    busy = some (j, v) ↔ j < n ∧ (Function.update c.loc i m' j).pos = k ∧
      ∃ items, (Function.update c.loc i m' j).status = .inside v items := by
  by_cases hji : j = i
  · subst hji
    rw [Function.update_self, hmine]
    exact ⟨fun hm => ⟨hi, hm⟩, fun hm => hm.2⟩
  · rw [Function.update_of_ne hji, hothers j hji, h.busy]

/-- A step that the line does not see. -/
theorem quiet (h : InLine n k L on c line) (hi : i < n)
    (hturn : Turn n k (s'.shares k) s'.release (Function.update c.loc i m') (line.queue.map (·.1)))
    (hitems : m'.status.items = (c.loc i).status.items) (hin : ∀ v items, (c.loc i).status ≠ .inside v items)
    (hin' : ∀ v items, m'.status ≠ .inside v items) (hnext : (s'.shares k).next = (c.shared.shares k).next) :
    InLine n k L on ⟨s', Function.update c.loc i m', c.log⟩ line where
  turn := hturn
  items x hx := by
    have hold := h.items x hx
    by_cases hxi : x.1 = i
    · show (Function.update c.loc i m' x.1).status.items = _
      rw [hxi, Function.update_self, hitems, ← hxi, hold]
    · show (Function.update c.loc i m' x.1).status.items = _
      rw [Function.update_of_ne hxi, hold]
  busy := by
    refine h.busy_of hi (fun v => ?_) fun _ _ _ => Iff.rfl
    constructor
    · intro hb
      obtain ⟨-, -, items, hst⟩ := (h.busy i v).1 hb
      exact absurd hst (hin _ _)
    · rintro ⟨-, items, hst⟩
      exact absurd hst (hin' _ _)
  log := h.log
  skipped := h.skipped
  on := by rw [hnext]; exact h.on
  rest := by rw [hnext]; exact h.rest

/-- A thread with its first chunk joins the line. -/
theorem joins (h : InLine n k L on c line) (hi : i < n) (hout : (c.loc i).status.items = none) {ch : Chunk}
    {post : Option Nat} (hL : L.Deals on) (hch : L.iter (c.shared.shares k).next = some (some ch))
    (hturn : Turn n k (s'.shares k) s'.release (Function.update c.loc i ⟨k, .locked post (some (L.items ch))⟩)
      (line.queue.map (·.1) ++ [i])) (hnext : (s'.shares k).next = ch.2) :
    ∃ line', Relation.ReflTransGen Line.Step line line' ∧
      InLine n k L on ⟨s', Function.update c.loc i ⟨k, .locked post (some (L.items ch))⟩, c.log⟩ line' := by
  obtain ⟨hon, -, hleft⟩ := hL.dealt h.on hch
  have hnot : i ∉ line.queue.map (·.1) := fun hmem => ((h.turn.mem i).1 hmem).2.2 hout
  refine ⟨_, .single (.join i (L.items ch) (L.left ch.2) hnot (h.rest.trans hleft)), ?_⟩
  constructor
  · rw [List.map_append]
    exact hturn
  · intro x hx
    rcases List.mem_append.1 hx with hx | hx
    · have hne : x.1 ≠ i := fun he => hnot (he ▸ List.mem_map_of_mem hx)
      show (Function.update c.loc i _ x.1).status.items = _
      rw [Function.update_of_ne hne]
      exact h.items x hx
    · obtain rfl := List.mem_singleton.1 hx
      show (Function.update c.loc i _ i).status.items = _
      rw [Function.update_self]
      rfl
  · refine h.busy_of hi (fun v => ?_) fun _ _ _ => Iff.rfl
    constructor
    · intro hb
      obtain ⟨-, -, items, hst⟩ := (h.busy i v).1 hb
      rw [hst] at hout
      cases hout
    · rintro ⟨-, items, hst⟩
      cases hst
  · exact h.log
  · exact h.skipped
  · exact hnext ▸ hon
  · rw [hnext]

/-- The head of the line, through with its chunk, leaves the line; with another chunk it joins it again. -/
theorem hands_on (h : InLine n k L on c line) (hi : i < n) (hst : (c.loc i).status = .synced) {t q' : List Nat}
    (ht : line.queue.map (·.1) = i :: t) {post : Option Nat} {r : Option (List Int)} (hL : L.Deals on)
    (hturn : Turn n k (s'.shares k) s'.release (Function.update c.loc i ⟨k, .locked post r⟩) q')
    (hr : (q' = t ∧ r = none ∧ (s'.shares k).next = (c.shared.shares k).next) ∨
      ∃ ch, L.iter (c.shared.shares k).next = some (some ch) ∧ q' = t ++ [i] ∧ r = some (L.items ch) ∧
        (s'.shares k).next = ch.2) :
    ∃ line', Relation.ReflTransGen Line.Step line line' ∧
      InLine n k L on ⟨s', Function.update c.loc i ⟨k, .locked post r⟩, c.log⟩ line' := by
  obtain ⟨behind, hq, rfl⟩ := h.head ht (by rw [hst]; rfl)
  have hidle := h.idle ht (by rw [hst]; nofun)
  have hleave : Line.Step line { line with queue := behind } := .leave i behind hidle hq
  have hnot : i ∉ behind.map (·.1) := by
    have hnodup := h.turn.nodup
    rw [ht] at hnodup
    exact (List.nodup_cons.1 hnodup).1
  have hbehind : ∀ x ∈ behind, (Function.update c.loc i ⟨k, .locked post r⟩ x.1).status.items = some x.2 := by
    intro x hx
    have hne : x.1 ≠ i := fun he => hnot (he ▸ List.mem_map_of_mem hx)
    rw [Function.update_of_ne hne]
    exact h.items x (by rw [hq]; exact List.mem_cons_of_mem _ hx)
  have hbusy : ∀ j v, line.busy = some (j, v) ↔ j < n ∧ (Function.update c.loc i ⟨k, .locked post r⟩ j).pos = k ∧
      ∃ items, (Function.update c.loc i ⟨k, .locked post r⟩ j).status = .inside v items := by
    refine h.busy_of hi (fun v => ?_) fun _ _ _ => Iff.rfl
    rw [hidle]
    exact ⟨nofun, fun hx => nomatch hx.2.choose_spec⟩
  rcases hr with ⟨rfl, rfl, hnext⟩ | ⟨ch, hch, rfl, rfl, hnext⟩
  · refine ⟨_, .single hleave, ?_⟩
    constructor
    · exact hturn
    · exact hbehind
    · exact hbusy
    · exact h.log
    · exact h.skipped
    · exact hnext ▸ h.on
    · exact h.rest.trans (by rw [hnext])
  · obtain ⟨hon, -, hleft⟩ := hL.dealt h.on hch
    refine ⟨_, .tail (.single hleave) (.join i (L.items ch) (L.left ch.2) hnot (h.rest.trans hleft)), ?_⟩
    constructor
    · rw [List.map_append]
      exact hturn
    · intro x hx
      rcases List.mem_append.1 hx with hx | hx
      · exact hbehind x hx
      · obtain rfl := List.mem_singleton.1 hx
        show (Function.update c.loc i _ i).status.items = _
        rw [Function.update_self]
        rfl
    · exact hbusy
    · exact h.log
    · exact h.skipped
    · exact hnext ▸ hon
    · rw [hnext]

/-- A thread enters the ordered block of its next iteration. -/
theorem begins (h : InLine n k L on c line) (hi : i < n) {v : Int} {items : List Int}
    (hitems : (c.loc i).status.items = some (v :: items)) (hin : ∀ v items, (c.loc i).status ≠ .inside v items)
    (hturn : Turn n k (s'.shares k) s'.release (Function.update c.loc i ⟨k, .inside v items⟩) (line.queue.map (·.1)))
    (hnext : (s'.shares k).next = (c.shared.shares k).next) :
    ∃ line', Relation.ReflTransGen Line.Step line line' ∧
      InLine n k L on ⟨s', Function.update c.loc i ⟨k, .inside v items⟩, c.log ++ [(i, .block k (.begin v))]⟩
        line' := by
  obtain ⟨t, ht⟩ := hturn.head_of_past hi (by rw [Function.update_self]) (by rw [Function.update_self]; trivial)
  obtain ⟨behind, hq, rfl⟩ := h.head ht hitems
  have hidle := h.idle ht hin
  have hnot : i ∉ behind.map (·.1) := by
    have hnodup := h.turn.nodup
    rw [ht] at hnodup
    exact (List.nodup_cons.1 hnodup).1
  refine ⟨_, .single (.begin i v items behind hidle hq), ?_⟩
  constructor
  · rw [hq] at hturn
    exact hturn
  · intro x hx
    rcases List.mem_cons.1 hx with rfl | hx
    · show (Function.update c.loc i _ i).status.items = _
      rw [Function.update_self]
      rfl
    · have hne : x.1 ≠ i := fun he => hnot (he ▸ List.mem_map_of_mem hx)
      show (Function.update c.loc i _ x.1).status.items = _
      rw [Function.update_of_ne hne]
      exact h.items x (by rw [hq]; exact List.mem_cons_of_mem _ hx)
  · refine h.busy_of hi (fun w => ?_) fun j hj w => ?_
    · constructor
      · rintro ⟨⟩
        exact ⟨rfl, items, rfl⟩
      · rintro ⟨-, its, hst⟩
        cases hst
        rfl
    · rw [hidle]
      exact ⟨fun hb => absurd (congrArg (·.1) (Option.some.inj hb)).symm hj, nofun⟩
  · show line.log ++ _ = _
    rw [blocksOf_block, h.log]
  · show line.skipped = _
    rw [skippedOf_block, h.skipped]
  · exact hnext ▸ h.on
  · exact h.rest.trans (by rw [hnext])

/-- A thread leaves its ordered block. -/
theorem finishes (h : InLine n k L on c line) (hi : i < n) (hpos : (c.loc i).pos = k) {v : Int} {items : List Int}
    (hst : (c.loc i).status = .inside v items)
    (hturn : Turn n k (s'.shares k) s'.release (Function.update c.loc i ⟨k, .body items⟩) (line.queue.map (·.1)))
    (hnext : (s'.shares k).next = (c.shared.shares k).next) :
    ∃ line', Relation.ReflTransGen Line.Step line line' ∧
      InLine n k L on ⟨s', Function.update c.loc i ⟨k, .body items⟩, c.log ++ [(i, .block k (.finish v))]⟩ line' := by
  have hbusy := (h.busy i v).2 ⟨hi, hpos, items, hst⟩
  refine ⟨_, .single (.finish i v hbusy), ?_⟩
  constructor
  · exact hturn
  · intro x hx
    have hold := h.items x hx
    by_cases hxi : x.1 = i
    · show (Function.update c.loc i _ x.1).status.items = _
      rw [hxi, hst] at hold
      rw [hxi, Function.update_self]
      exact hold
    · show (Function.update c.loc i _ x.1).status.items = _
      rw [Function.update_of_ne hxi, hold]
  · refine h.busy_of hi (fun w => ⟨nofun, fun hx => nomatch hx.2.choose_spec⟩) fun j hj w => ⟨nofun, fun hb => ?_⟩
    rw [hbusy] at hb
    exact absurd (congrArg (·.1) (Option.some.inj hb)).symm hj
  · show line.log ++ _ = _
    rw [blocksOf_block, h.log]
  · show line.skipped = _
    rw [skippedOf_block, h.skipped]
  · exact hnext ▸ h.on
  · exact h.rest.trans (by rw [hnext])

/-- An iteration goes without its ordered block. -/
theorem skips (h : InLine n k L on c line) (hi : i < n) (hpos : (c.loc i).pos = k) {v : Int} {items : List Int}
    (hst : (c.loc i).status = .body (v :: items))
    (hturn : Turn n k (s'.shares k) s'.release (Function.update c.loc i ⟨k, .body items⟩) (line.queue.map (·.1)))
    (hnext : (s'.shares k).next = (c.shared.shares k).next) :
    ∃ line', Relation.ReflTransGen Line.Step line line' ∧
      InLine n k L on ⟨s', Function.update c.loc i ⟨k, .body items⟩, c.log ++ [(i, .skip k v)]⟩ line' := by
  have hmem : i ∈ line.queue.map (·.1) := (h.turn.mem i).2 ⟨hi, hpos, by rw [hst]; nofun⟩
  obtain ⟨x, hx, hxi⟩ := List.mem_map.1 hmem
  obtain ⟨ahead, behind, hq⟩ := List.append_of_mem hx
  have hold := h.items x hx
  rw [hxi, hst] at hold
  obtain rfl : x = (i, v :: items) := Prod.ext hxi (Option.some.inj hold).symm
  have hne : ∀ y, y ∈ ahead ∨ y ∈ behind → y.1 ≠ i := by
    have hnodup := h.turn.nodup
    rw [hq, List.map_append, List.map_cons, List.nodup_append] at hnodup
    obtain ⟨-, hb, hab⟩ := hnodup
    rintro y (hy | hy) rfl
    · exact hab y.1 (List.mem_map_of_mem hy) y.1 List.mem_cons_self rfl
    · exact (List.nodup_cons.1 hb).1 (show y.1 ∈ behind.map (·.1) from List.mem_map_of_mem hy)
  have hother : ∀ y, y ∈ ahead ∨ y ∈ behind → (Function.update c.loc i ⟨k, .body items⟩ y.1).status.items =
    some y.2 := by
    intro y hy
    rw [Function.update_of_ne (hne y hy)]
    refine h.items y ?_
    rw [hq]
    rcases hy with hy | hy
    · exact List.mem_append_left _ hy
    · exact List.mem_append_right _ (List.mem_cons_of_mem _ hy)
  refine ⟨_, .single (.skip i v items ahead behind hq), ?_⟩
  constructor
  · have hids : line.queue.map (·.1) = (ahead ++ (i, items) :: behind).map (·.1) := by rw [hq]; simp
    rw [hids] at hturn
    exact hturn
  · intro y hy
    rcases List.mem_append.1 hy with hy | hy
    · exact hother y (.inl hy)
    · rcases List.mem_cons.1 hy with rfl | hy
      · show (Function.update c.loc i _ i).status.items = _
        rw [Function.update_self]
        rfl
      · exact hother y (.inr hy)
  · refine h.busy_of hi (fun w => ?_) fun _ _ _ => Iff.rfl
    constructor
    · intro hb
      obtain ⟨-, -, its, hst'⟩ := (h.busy i w).1 hb
      rw [hst] at hst'
      cases hst'
    · rintro ⟨-, its, hst'⟩
      cases hst'
  · show line.log = _
    rw [blocksOf_skip, h.log]
  · show line.skipped ++ _ = _
    rw [skippedOf_skip, h.skipped]
  · exact hnext ▸ h.on
  · exact h.rest.trans (by rw [hnext])

/-- A step of a thread of the loop is one of the line, or none. -/
theorem step (hr : OrderedRule L n i c.shared (c.loc i) s' m' e) (hi : i < n) (hL : L.Deals on)
    (h : InLine n (c.loc i).pos L on c line) :
    ∃ line', Relation.ReflTransGen Line.Step line line' ∧
      InLine n (c.loc i).pos L on ⟨s', Function.update c.loc i m', logged c.log i e⟩ line' := by
  -- behind `gomp_ordered_sync`
  have hsynced : ∀ {pc block}, (c.loc i).status = .sync pc block →
      Turn n (c.loc i).pos (s'.shares (c.loc i).pos) s'.release
        (Function.update c.loc i ⟨(c.loc i).pos, (orderedSynced (c.loc i).pos block).1⟩) (line.queue.map (·.1)) →
      (s'.shares (c.loc i).pos).next = (c.shared.shares (c.loc i).pos).next →
      ∃ line', Relation.ReflTransGen Line.Step line line' ∧ InLine n (c.loc i).pos L on
        ⟨s', Function.update c.loc i ⟨(c.loc i).pos, (orderedSynced (c.loc i).pos block).1⟩,
          logged c.log i (orderedSynced (c.loc i).pos block).2⟩ line' := by
    intro pc block hst hturn hnext
    cases block with
    | none => exact ⟨line, .refl, h.quiet hi hturn (by rw [hst]; rfl) (by rw [hst]; nofun) nofun hnext⟩
    | some b => exact h.begins hi (by rw [hst]; rfl) (by rw [hst]; nofun) hturn hnext
  have hstays := fun hout hsy => hr.turn hi hout hsy h.turn
  cases hr with
  | @start ws post r hst hlock hrun =>
    rcases gompLoopOrderedStart_cases hrun with ⟨-, rfl, rfl, rfl⟩ | ⟨ch, hch, rfl, hfirst⟩
    · refine ⟨line, .refl, h.quiet hi ?_ (by rw [hst]; rfl) (by rw [hst]; nofun) nofun (by rw [OrderedTeam.put_self])⟩
      rw [OrderedTeam.put_self]
      exact h.turn.start_none hi rfl hst hlock
    · refine h.joins hi (by rw [hst]; rfl) hL hch ?_ ?_
      · rw [OrderedTeam.put_self]
        exact h.turn.start_some hi rfl hst hlock _ hfirst
      · rw [OrderedTeam.put_self]
        have hframe := gompOrderedFirst_frame n i { c.shared.shares (c.loc i).pos with next := ch.2 }
        rw [← hfirst] at hframe
        exact hframe.next
  | @next ws post r hst hlock hrun =>
    obtain ⟨t, ht⟩ := h.turn.head_of_past hi rfl (by rw [hst]; trivial)
    have hturn := h.turn
    rw [ht] at hturn
    rcases gompLoopOrderedNext_cases hrun with ⟨-, rfl, hlast⟩ | ⟨ch, hch, rfl, hnext⟩
    · refine h.hands_on hi hst ht hL ?_ (.inl ⟨rfl, rfl, ?_⟩)
      · rw [OrderedTeam.put_self]
        exact hturn.next_none hi rfl hst hlock hlast
      · rw [OrderedTeam.put_self]
        have hframe := gompOrderedLast_frame n (c.shared.shares (c.loc i).pos)
        rw [← hlast] at hframe
        exact hframe.next
    · refine h.hands_on hi hst ht hL ?_ (.inr ⟨ch, hch, rfl, rfl, ?_⟩)
      · rw [OrderedTeam.put_self]
        exact hturn.next_some hi rfl hst hlock _ hnext
      · rw [OrderedTeam.put_self]
        have hframe := gompOrderedNext_frame n i { c.shared.shares (c.loc i).pos with next := ch.2 }
        rw [← hnext] at hframe
        exact hframe.next
  | order v items hst | done hst | notMine block hst | wait block hst =>
    all_goals
      have hturn := hstays (by rw [hst]; nofun) (by rw [hst]; nofun)
      exact ⟨line, .refl, h.quiet hi hturn (by rw [hst]; rfl) (by rw [hst]; nofun) nofun rfl⟩
  | post j r hst =>
    have hturn := hstays (by rw [hst]; nofun) (by rw [hst]; nofun)
    exact ⟨line, .refl, h.quiet hi hturn (by rw [hst]; rfl) (by rw [hst]; nofun) nofun rfl⟩
  | unlock items hst | unlockLast hst =>
    all_goals
      have hturn := hstays (by rw [hst]; nofun) (by rw [hst]; nofun)
      refine ⟨line, .refl, h.quiet hi hturn (by rw [hst]; rfl) (by rw [hst]; nofun) nofun ?_⟩
      rw [OrderedTeam.put_self]
  | skip v items hst => exact h.skips hi rfl hst (hstays (by rw [hst]; nofun) (by rw [hst]; nofun)) rfl
  | leave v items hst => exact h.finishes hi rfl hst (hstays (by rw [hst]; nofun) (by rw [hst]; nofun)) rfl
  | mine block hst hown => exact hsynced hst (hstays (by rw [hst]; nofun) (by rw [hst]; nofun)) rfl
  | claim block hst =>
    refine hsynced hst (hstays (by rw [hst]; nofun) (by rw [hst]; nofun)) ?_
    rw [OrderedTeam.put_self]

end InLine

/-! ## Steps in other loops -/

section

variable {n i : Nat} {L : OrderedLoop} {s s' : OrderedTeam} {m m' : OrderedMember} {e : Option OrderedEvent}

/-- A step writes the work share of its own loop only. -/
theorem OrderedRule.shares (hr : OrderedRule L n i s m s' m' e) {k : Nat} (hk : k ≠ m.pos) :
    s'.shares k = s.shares k := by
  cases hr with
  | start | next | claim | unlock | unlockLast => exact s.put_of_ne hk _
  | _ => rfl

/-- A semaphore changes by the thread that waits for it, or by the holder of a lock that posts to it. -/
theorem OrderedRule.release (hr : OrderedRule L n i s m s' m' e) {j : Nat} (hj : j ≠ i)
    (hpost : m.status.post ≠ some j) : s'.release j = s.release j := by
  cases hr with
  | wait => exact Function.update_of_ne hj ..
  | post j' r hst =>
    rw [hst] at hpost
    exact Function.update_of_ne (fun he => hpost (congrArg some he.symm)) ..
  | _ => rfl

theorem OrderedRule.event (hr : OrderedRule L n i s m s' m' e) : ∀ x, e = some x → x.loopIndex = m.pos := by
  have hsynced : ∀ block x, (orderedSynced m.pos block).2 = some x → x.loopIndex = m.pos := by
    intro block x hx
    cases block with
    | none => cases hx
    | some b =>
      cases hx
      rfl
  cases hr with
  | skip | leave =>
    rintro _ ⟨⟩
    rfl
  | mine block | claim block => exact hsynced block
  | _ => exact nofun

/-- A thread stays in its loop, or comes to the next one. -/
theorem OrderedRule.pos (hr : OrderedRule L n i s m s' m' e) :
    m'.pos = m.pos ∨ (m.status = .locked none none ∧ m' = ⟨m.pos + 1, .outside⟩ ∧ s'.release = s.release) := by
  cases hr with
  | unlockLast hst => exact .inr ⟨hst, rfl, rfl⟩
  | _ => exact .inl rfl

end

section

variable {n k i : Nat} {L L' : OrderedLoop} {on : Word → Prop} {c : Cfg Nat OrderedTeam OrderedMember OrderedEvent}
  {line : Line Nat Int} {s' : OrderedTeam} {m' : OrderedMember} {e : Option OrderedEvent} {q : List Nat}

/-- A step of a thread of another loop. -/
theorem InLine.other (h : InLine n k L on c line) (hr : OrderedRule L' n i c.shared (c.loc i) s' m' e) (hi : i < n)
    (hk : k ≠ (c.loc i).pos) (hturn : Turn n (c.loc i).pos (c.shared.shares (c.loc i).pos) c.shared.release c.loc q) :
    InLine n k L on ⟨s', Function.update c.loc i m', logged c.log i e⟩ line := by
  have hshares := hr.shares hk
  obtain ⟨hblocks, hskipped⟩ := logged_other i c.log fun x hx => by rw [hr.event x hx]; exact hk.symm
  -- the thread is not in the line, neither before nor after
  have hnot : ∀ x ∈ line.queue, x.1 ≠ i := fun x hx he =>
    hk (he ▸ ((h.turn.mem x.1).1 (List.mem_map_of_mem hx)).2.1).symm
  have hin : ∀ v items, (c.loc i).pos = k → (c.loc i).status ≠ .inside v items := fun _ _ hpos => absurd hpos hk.symm
  have hin' : ∀ v items, m'.pos = k → m'.status ≠ .inside v items := by
    intro v items hpos
    rcases hr.pos with hp | ⟨-, rfl, -⟩
    · exact absurd (hpos.symm.trans hp) hk
    · exact nofun
  have hrel : ∀ j < n, j ≠ i → (c.loc j).pos = k → s'.release j = c.shared.release j := by
    intro j hj hji hpos
    refine hr.release hji fun hpost => hk ?_
    have hl := (hturn.lock i).2 ⟨hi, rfl, .of_post hpost⟩
    have hmem := (hturn.post j (by unfold pendingPost; rw [hl]; exact hpost)).2
    exact hpos.symm.trans ((hturn.mem j).1 hmem).2.1
  constructor
  · show Turn n k (s'.shares k) s'.release (Function.update c.loc i m') _
    rw [hshares]
    by_cases hpos : m'.pos = k
    · obtain ⟨hst, rfl, hsame⟩ := hr.pos.resolve_left fun hp => hk (hpos.symm.trans hp)
      rw [hsame]
      refine h.turn.arrive hk.symm (congrArg (OrderedMember.mk · .outside) hpos) fun hn => ?_
      exact hturn.release_eq_zero hn hi rfl fun hmem => ((hturn.mem i).1 hmem).2.2 (by rw [hst]; rfl)
    · refine h.turn.frame (fun j _ hj => ?_) fun j hj hpos' => ?_
      · have hji : j ≠ i := by
          rintro rfl
          rw [Function.update_self] at hj
          rcases hj with hj | hj
          · exact hk hj.symm
          · exact hpos hj
        exact Function.update_of_ne hji ..
      · exact hrel j hj (fun he => hk (he ▸ hpos').symm) hpos'
  · intro x hx
    show (Function.update c.loc i m' x.1).status.items = _
    rw [Function.update_of_ne (hnot x hx)]
    exact h.items x hx
  · refine h.busy_of hi (fun v => ?_) fun _ _ _ => Iff.rfl
    constructor
    · intro hb
      exact absurd ((h.busy i v).1 hb).2.1 hk.symm
    · rintro ⟨hpos, items, hst⟩
      exact absurd hst (hin' v items hpos)
  · exact h.log.trans hblocks.symm
  · exact h.skipped.trans hskipped.symm
  · show on (s'.shares k).next
    rw [hshares]
    exact h.on
  · show _ = L.left (s'.shares k).next
    rw [hshares]
    exact h.rest

end

/-! ## Runs -/

section

variable {loops : List OrderedLoop} {n : Nat} {on : Nat → Word → Prop}

/-- Every loop has its line, in which what is to be handled is handled in order. -/
def Lined (loops : List OrderedLoop) (n : Nat) (on : Nat → Word → Prop)
    (c : Cfg Nat OrderedTeam OrderedMember OrderedEvent) :
    Prop :=
  ∀ (k : Nat) (L : OrderedLoop), loops[k]? = some L → ∃ line, Line.Inv L.loop.values line ∧ InLine n k L (on k) c line

theorem Lib.Loop.values_nodup (l : Loop) : l.values.Nodup := by
  refine List.Nodup.map_on (fun a _ b _ hab => ?_) List.nodup_range
  by_contra hne
  rcases Nat.lt_or_gt_of_ne hne with hlt | hlt
  · have := (l.before_value_iff a b).2 hlt
    rw [hab] at this
    exact before_irrefl _ _ this
  · have := (l.before_value_iff b a).2 hlt
    rw [hab] at this
    exact before_irrefl _ _ this

theorem lined_start (hn : 0 < n) (hdeals : ∀ (k : Nat) (L : OrderedLoop), loops[k]? = some L → L.Deals (on k)) :
    Lined loops n on (orderedStart loops) := by
  intro k L hL
  have hshare : (orderedStart loops).shared.shares k = .init L.first := by
    show OrderedShare.init ((loops[k]?).elim 0 (·.first)) = _
    rw [hL]
    rfl
  refine ⟨_, .start L.loop.values, ?_⟩
  constructor
  · rw [hshare]
    exact .start (fun _ _ _ => rfl) hn fun _ _ _ => rfl
  · exact fun _ hx => absurd hx List.not_mem_nil
  · exact fun i v => ⟨nofun, fun h => nomatch h.2.2.choose_spec⟩
  · rfl
  · rfl
  · rw [hshare]
    exact (hdeals k L hL).first
  · rw [hshare]
    exact (hdeals k L hL).values.symm

theorem Lined.step {c c' : Cfg Nat OrderedTeam OrderedMember OrderedEvent}
    (hdeals : ∀ (k : Nat) (L : OrderedLoop), loops[k]? = some L → L.Deals (on k)) (h : Lined loops n on c)
    (hs : Step (orderedStep loops n) c c') : Lined loops n on c' := by
  cases hs with
  | @mk i a s' m' e hp =>
    obtain ⟨hi, L, hL, hr⟩ := orderedStep_rule hp
    obtain ⟨own, hinv, hown⟩ := h _ L hL
    intro k L' hL'
    by_cases hk : k = (c.loc i).pos
    · subst hk
      obtain rfl : L = L' := Option.some.inj (hL.symm.trans hL')
      obtain ⟨line', hrun, hline'⟩ := hown.step hr hi (hdeals _ L hL)
      exact ⟨line', hinv.run L.loop.values_nodup hrun, hline'⟩
    · obtain ⟨line, hinv', hline⟩ := h k L' hL'
      exact ⟨line, hinv', hline.other hr hi hk hown.turn⟩

theorem Lined.reach {c : Cfg Nat OrderedTeam OrderedMember OrderedEvent} (hn : 0 < n)
    (hdeals : ∀ (k : Nat) (L : OrderedLoop), loops[k]? = some L → L.Deals (on k))
    (hr : Reach (orderedStep loops n) (orderedStart loops) c) :
    Lined loops n on c := by
  induction hr with
  | refl => exact lined_start hn hdeals
  | tail _ hs ih => exact ih.step hdeals hs

/-- In every run, the ordered blocks of each loop run one at a time; those that have begun are, in the order of the
loop, the first of the iterations that do not go without one. -/
theorem ordered_serial {c : Cfg Nat OrderedTeam OrderedMember OrderedEvent} (hn : 0 < n)
    (hdeals : ∀ (k : Nat) (L : OrderedLoop), loops[k]? = some L → L.Deals (on k))
    (hr : Reach (orderedStep loops n) (orderedStart loops) c)
    {k : Nat} {L : OrderedLoop} (hL : loops[k]? = some L) :
    (∃ busy, Serial (blocksOf k c.log) busy) ∧
      begun (blocksOf k c.log) <+: L.loop.values.filter (· ∉ skippedOf k c.log) := by
  obtain ⟨line, hinv, hline⟩ := Lined.reach hn hdeals hr k L hL
  refine ⟨⟨line.busy, hline.log ▸ hinv.serial⟩, ?_⟩
  rw [← hline.log, ← hline.skipped, hinv.order]
  exact List.prefix_append _ _

end

end Bosched
