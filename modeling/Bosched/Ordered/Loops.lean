/-
The loops that `gomp_loop_ordered_dynamic_start` and `gomp_loop_ordered_guided_start` initialise. Their iterators deal
the loop out from front to back, so the ordered blocks of every team run in the order of the loop, and every team gets
through all of its loops.
-/
import Bosched.Iter.Css
import Bosched.Iter.Guided
import Bosched.Ordered.Finish
import Bosched.Runtime.Exact

namespace Bosched

open Lib

/-! ## The iterators under the lock -/

section

variable {D : Type} (ws : GompWorkShare D)

/-- `gomp_iter_dynamic_next_locked`, called with `ws->next`. -/
def dynamicLocked (next : Word) : Option Ret := (gompIterDynamicNextLocked ws () () next .idle).bind (·.2.2)

/-- `gomp_iter_guided_next_locked`, called with `ws->next`. -/
def gompIterGuidedNextLocked (nthreads next : Word) : Option Ret :=
  if next = ws.fin then some none
  else do
    let n ← (View.long ws).remaining next
    let q ← guidedShare nthreads ws.chunkSize n
    return some (next, if q ≤ n then next + q * ws.incr else ws.fin)

variable {ws}

theorem gompIterGuidedNextLocked_eq {nthreads next q nend : Word}
    (h : (View.long ws).shareTop nthreads ws.incr ws.chunkSize next = some (.casNext next q nend, none)) :
    gompIterGuidedNextLocked ws nthreads next = some (some (next, nend)) := by
  unfold View.shareTop at h
  unfold gompIterGuidedNextLocked
  split at h
  · cases h
  · rename_i hne
    obtain ⟨n, hn, h⟩ := Option.bind_eq_some_iff.1 h
    obtain ⟨q', hq, h⟩ := Option.bind_eq_some_iff.1 h
    cases h
    have hne : next ≠ ws.fin := hne
    rw [if_neg hne, hn, Option.bind_eq_bind, Option.bind_some, hq]
    rfl

end

/-! ## Dealing the loop out -/

/-- The iterations between two positions. -/
theorem Lib.Loop.chunk_values_le (l : Loop) {p q : Nat} (hpq : p ≤ q) (hq : q ≤ l.trip) :
    (l.chunk (l.pos p, l.pos q)).values = (List.range (q - p)).map fun k => l.value (p + k) := by
  rcases Nat.lt_or_eq_of_le hpq with hlt | rfl
  · exact l.chunk_values hlt hq
  · have h0 : (l.chunk (l.pos p, l.pos p)).trip = 0 := (Loop.trip_eq_zero_iff _).2 (before_irrefl _ _)
    unfold Loop.values
    rw [h0, Nat.sub_self]
    rfl

section

variable {L : OrderedLoop}

/-- An iterator that goes from every position of the loop to a later one. -/
theorem deals_of_positions (hfirst : L.first.toInt = L.loop.pos 0)
    (hstop : ∀ {next}, next.toInt = L.loop.fin → L.iter next = some none)
    (hgo : ∀ {next k}, k < L.loop.trip → next.toInt = L.loop.pos k →
      ∃ nend j, L.iter next = some (some (next, nend)) ∧ k < j ∧ j ≤ L.loop.trip ∧ nend.toInt = L.loop.pos j) :
    L.Deals fun next => ∃ k ≤ L.loop.trip, next.toInt = L.loop.pos k := by
  have hleft : ∀ {next : Word} {k}, k ≤ L.loop.trip → next.toInt = L.loop.pos k →
      L.left next = (List.range (L.loop.trip - k)).map fun j => L.loop.value (k + j) := by
    intro next k hk hnext
    unfold OrderedLoop.left
    rw [hnext, ← L.loop.pos_trip]
    exact L.loop.chunk_values_le hk le_rfl
  constructor
  · exact ⟨0, Nat.zero_le _, hfirst⟩
  · rw [hleft (Nat.zero_le _) hfirst]
    simp only [Nat.zero_add, Nat.sub_zero]
    rfl
  · rintro next ⟨k, hk, hnext⟩
    rcases Nat.lt_or_eq_of_le hk with hlt | rfl
    · obtain ⟨nend, j, hiter, hkj, hj, hnend⟩ := hgo hlt hnext
      have hitems : L.items (next, nend) = (List.range (j - k)).map fun i => L.loop.value (k + i) := by
        unfold OrderedLoop.items
        rw [hnext, hnend]
        exact L.loop.chunk_values hkj hj
      refine .inr ⟨_, hiter, ⟨j, hj, hnend⟩, ?_, ?_⟩
      · rw [hitems]
        exact List.ne_nil_of_length_pos (by simp; omega)
      · -- the chunk and what is left behind it
        have hsplit : L.loop.trip - k = (j - k) + (L.loop.trip - j) := by omega
        have hshift : (fun i => L.loop.value (j + i)) = fun i => L.loop.value (k + (j - k + i)) := by
          funext i
          congr 1
          omega
        rw [hleft hk hnext, hitems, hleft hj hnend, hsplit, List.range_add, List.map_append, List.map_map, hshift]
        rfl
    · refine .inl ⟨hstop (by rw [hnext, L.loop.pos_trip]), ?_⟩
      rw [hleft hk hnext, Nat.sub_self]
      rfl

/-- A loop whose end is moved to its start deals nothing, and no more does the loop of the program. -/
theorem OrderedLoop.Deals.of_trip {on : Word → Prop} (h : L.Deals on) {l : Loop}
    (hl : L.loop = l ∨ L.loop.trip = 0 ∧ l.trip = 0) (hfirst : L.first.toInt = l.start) :
    ∃ on, OrderedLoop.Deals { L with loop := l } on := by
  rcases hl with rfl | ⟨h0, h0'⟩
  · exact ⟨on, h⟩
  · have hnil : ∀ {l : Loop}, l.trip = 0 → l.values = [] := fun h0 => by
      unfold Loop.values
      rw [h0]
      rfl
    have hstop : L.iter L.first = some none := by
      rcases h.deal h.first with ⟨hstop, -⟩ | ⟨c, -, -, hne, hleft⟩
      · exact hstop
      · rw [h.values, hnil h0] at hleft
        exact absurd (List.append_eq_nil_iff.1 hleft.symm).1 hne
    have hleft : ({ L with loop := l } : OrderedLoop).left L.first = l.values := by
      show (l.chunk (L.first.toInt, l.fin)).values = l.values
      rw [hfirst]
      rfl
    exact ⟨(· = L.first), rfl, hleft, fun hnext => .inl ⟨hnext ▸ hstop, by rw [hnext, hleft, hnil h0']⟩⟩

end

section

variable {D : Type} {ws : GompWorkShare D} {l : Loop}

theorem dynamicLocked_deals {s P : Nat} (h : DynShare ws l s P) (hs : 0 < s ∨ l.trip = 0) :
    OrderedLoop.Deals ⟨l, ws.next, dynamicLocked ws⟩ fun next => ∃ k ≤ l.trip, next.toInt = l.pos k := by
  apply deals_of_positions
  · show ws.next.toInt = l.pos 0
    rw [l.pos_zero h.canonical, h.start]
  · intro next hend
    have hend : next = ws.fin := BitVec.toInt_inj.1 (hend.trans h.fin.symm)
    show dynamicLocked ws next = _
    unfold dynamicLocked gompIterDynamicNextLocked
    simp only [if_pos hend, Option.bind_some]
  · intro next k hk hnext
    change k < l.trip at hk
    change next.toInt = l.pos k at hnext
    have hpos := hs.resolve_right (Nat.ne_zero_of_lt hk)
    obtain ⟨hclamp, -⟩ := h.clamp hk hnext (.inl rfl)
    have hne : next ≠ ws.fin := by
      rintro rfl
      have hb := (l.before_fin_iff k).2 hk
      rw [← l.pos_of_lt hk, ← hnext, h.fin] at hb
      exact before_irrefl _ _ hb
    refine ⟨next + clampChunk ws.incr ws.chunkSize (ws.fin - next), min (k + s) l.trip, ?_, by omega,
      Nat.min_le_right _ _, ?_⟩
    · show dynamicLocked ws next = _
      unfold dynamicLocked gompIterDynamicNextLocked
      simp only [if_neg hne, Option.bind_some]
    · rw [hclamp]
      show l.pos (k + s) = l.pos (min (k + s) l.trip)
      rcases Nat.lt_or_ge (k + s) l.trip with hlt | hge
      · rw [Nat.min_eq_left (le_of_lt hlt)]
      · rw [Nat.min_eq_right hge, l.pos_trip]
        exact l.pos_of_le hge

theorem guidedLocked_deals {nthreads : Word} {cut : Nat → Nat} (hstart : ws.next.toInt = l.pos 0)
    (h : CutsAt ((View.long ws).shareTop nthreads ws.incr ws.chunkSize) ws.fin BitVec.toInt l cut) :
    OrderedLoop.Deals ⟨l, ws.next, gompIterGuidedNextLocked ws nthreads⟩ fun next =>
      ∃ k ≤ l.trip, next.toInt = l.pos k := by
  apply deals_of_positions hstart
  · intro next hend
    exact if_pos (h.inj (hend.trans h.fin.symm))
  · intro next k hk hnext
    change k < l.trip at hk
    change next.toInt = l.pos k at hnext
    rw [l.pos_of_lt hk] at hnext
    obtain ⟨q, nend, htop, hnend⟩ := h.go hk hnext
    exact ⟨nend, cut k, gompIterGuidedNextLocked_eq htop, h.places.lt hk, h.places.le hk, hnend⟩

end

/-! ## Ordered loops -/

section

variable {D : Type} [CDouble D]

/-- An ordered loop that a thread of `team` has initialised. A dynamic one is at least a stride long, unless it has no
iterations. -/
inductive OrderedLoop.Started (team : Option U32) : OrderedLoop → Prop
  | dynamic {g g' : Globals D} {now : Int} {ws ws' : GompWorkShare D} {start fin incr chunkSize : Word}
    (hincr : incr ≠ 0)
      (hstride : (signedLoop start fin incr hincr).trip = 0 ∨ numTasks start fin incr ≠ some 0)
      (hinit : gompLoopInit g team now ws start fin incr .gfsDynamic chunkSize 0 = some (g', ws')) :
      Started team ⟨signedLoop start fin incr hincr, ws'.next, dynamicLocked ws'⟩
  | guided {g g' : Globals D} {now : Int} {ws ws' : GompWorkShare D} {start fin incr chunkSize : Word}
    (hincr : incr ≠ 0)
      (hchunk : chunkSize ≠ 0)
      (hinit : gompLoopInit g team now ws start fin incr .gfsGuided chunkSize 0 = some (g', ws')) :
      Started team ⟨signedLoop start fin incr hincr, ws'.next, gompIterGuidedNextLocked ws' (teamNthreads team)⟩

theorem OrderedLoop.Started.deals {team : Option U32} (hteam : team ≠ some 0) {L : OrderedLoop}
    (h : L.Started (D := D) team) : ∃ on, L.Deals on := by
  cases h with
  | @dynamic g g' now ws ws' start fin incr chunkSize hincr hstride hinit =>
    obtain ⟨n, param, hn, -, hshare⟩ := dynShare_of_init hincr rfl hinit
    have hnext : ws'.next = start := (gompLoopInit_sameLoop hinit).next
    have hcan := Width.long.loop_canonicalEnd start fin hincr
    have hpos : 0 < (cssChunkSize param n (teamNthreads team)).toNat ∨ (shareLoop start fin incr hincr).trip = 0 := by
      rcases hstride with h0 | hne
      · rcases hcan with heq | ⟨h0, -⟩
        · exact .inr ((congrArg Loop.trip heq).trans h0)
        · exact .inr h0
      · have hn0 : 0 < n.toInt := by
          have := numTasks_nonneg hn
          have := toInt_ne_zero fun h0 : n = 0 => hne (by rw [hn, h0])
          omega
        have hone := (clip_bounds (CDouble.toLong (cssRaw param (CDouble.ofLong n) (teamNthreads team)))
          (numTasks_nonneg hn)).2.2 hn0
        change 1 ≤ (cssChunkSize param n (teamNthreads team)).toInt at hone
        have := toNat_of_toInt_nonneg (le_trans (by decide) hone)
        exact .inl (by omega)
    exact (dynamicLocked_deals hshare hpos).of_trip hcan (by rw [hnext]; rfl)
  | @guided g g' now ws ws' start fin incr chunkSize hincr hchunk hinit =>
    obtain ⟨hnext, hfin, rfl, rfl⟩ := guidedShare_of_init (w := .long) hinit
    have hN : teamNthreads team ≠ 0 := fun h0 => by
      have := teamNthreads_pos hteam
      rw [h0] at this
      exact absurd this (lt_irrefl 0)
    obtain ⟨hfits, htrap⟩ := long_divides hinit
    have hcuts := cuts_of_remaining (v := View.long ws') hN hchunk rfl BitVec.toInt_inj.1
      fun hk hs => long_left hincr hfits htrap hk hs
    have hcan := Width.long.loop_canonicalEnd start fin hincr
    rw [← hfin] at hcan
    refine (guidedLocked_deals ?_ hcuts).of_trip hcan (by rw [hnext]; rfl)
    have hpos := Width.long.pos_zero start fin hincr
    rw [← hfin] at hpos
    rw [hnext]
    exact hpos.symm

/-! ## Whole teams -/

variable {team : Option U32} {loops : List OrderedLoop}

theorem exists_deals (hteam : team ≠ some 0) (hloops : ∀ L ∈ loops, L.Started (D := D) team) :
    ∃ on : Nat → Word → Prop, ∀ (k : Nat) (L : OrderedLoop), loops[k]? = some L → L.Deals (on k) := by
  have hexists : ∀ k : Nat, ∃ on : Word → Prop, ∀ L : OrderedLoop, loops[k]? = some L → L.Deals on := by
    intro k
    cases hk : loops[k]? with
    | none => exact ⟨fun _ => True, fun L hL => by cases hL⟩
    | some L =>
      obtain ⟨on, hdeals⟩ := (hloops L (List.mem_of_getElem? hk)).deals hteam
      exact ⟨on, fun L' hL => by cases hL; exact hdeals⟩
  choose on hon using hexists
  exact ⟨on, fun k L hL => hon k L hL⟩

/-- The threads of a team run ordered loops, dynamic and guided ones, one after the other without a barrier. In every
run the ordered blocks of each loop run one at a time, and those that have begun are the first of the iterations that
do not go without one, in the order of the loop. -/
theorem gompLoopOrdered_serial (hteam : team ≠ some 0) (hloops : ∀ L ∈ loops, L.Started (D := D) team)
    {c : Cfg Nat OrderedTeam OrderedMember OrderedEvent}
    (hr : Reach (orderedStep loops (teamNthreads team).toNat) (orderedStart loops) c) {k : Nat} {L : OrderedLoop}
    (hL : loops[k]? = some L) :
    (∃ busy, Serial (blocksOf k c.log) busy) ∧
      begun (blocksOf k c.log) <+: L.loop.values.filter (· ∉ skippedOf k c.log) := by
  obtain ⟨on, hdeals⟩ := exists_deals hteam hloops
  exact ordered_serial (teamNthreads_pos hteam) hdeals hr hL

/-- The loops of the examples: `for (i = 0; i < 7; i += 2)`, guided, and `for (i = 3; i > 0; i--)`, dynamic. -/
def twoOrdered (ws₁ ws₂ : GompWorkShare ℚ) : List OrderedLoop :=
  [⟨signedLoop 0 7 2 (by decide), ws₁.next, gompIterGuidedNextLocked ws₁ (teamNthreads (some 2))⟩,
    ⟨signedLoop 3 0 (-1) (by decide), ws₂.next, dynamicLocked ws₂⟩]

theorem exists_twoOrdered : ∃ (g₁ g₂ : Globals ℚ) (ws₁ ws₂ : GompWorkShare ℚ),
    gompLoopInit (.fresh 2) (some 2) 0 .zero 0 7 2 .gfsGuided 2 0 = some (g₁, ws₁) ∧
    gompLoopInit (.fresh 2) (some 2) 0 .zero 3 0 (-1) .gfsDynamic 1 0 = some (g₂, ws₂) ∧
    ∀ L ∈ twoOrdered ws₁ ws₂, L.Started (D := ℚ) (some 2) := by
  have hrun : (gompLoopInit (D := ℚ) (.fresh 2) (some 2) 0 .zero 0 7 2 .gfsGuided 2 0).isSome ∧
      (gompLoopInit (D := ℚ) (.fresh 2) (some 2) 0 .zero 3 0 (-1) .gfsDynamic 1 0).isSome := by decide +kernel
  obtain ⟨⟨g₁, ws₁⟩, h₁⟩ := Option.isSome_iff_exists.1 hrun.1
  obtain ⟨⟨g₂, ws₂⟩, h₂⟩ := Option.isSome_iff_exists.1 hrun.2
  refine ⟨g₁, g₂, ws₁, ws₂, h₁, h₂, fun L hL => ?_⟩
  rcases List.mem_cons.1 hL with rfl | hL
  · exact .guided (by decide) (by decide) h₁
  · rw [List.mem_singleton.1 hL]
    exact .dynamic (by decide) (.inr (by decide)) h₂

/-- Two threads: the second has the iterations `4` and `6` before the first is through with `0` and `2`, and waits. -/
theorem gompLoopOrdered_serial_two :
    ∃ (g₁ : Globals ℚ) (ws₁ ws₂ : GompWorkShare ℚ) (c : Cfg Nat OrderedTeam OrderedMember OrderedEvent),
      gompLoopInit (.fresh 2) (some 2) 0 .zero 0 7 2 .gfsGuided 2 0 = some (g₁, ws₁) ∧
      Reach (orderedStep (twoOrdered ws₁ ws₂) 2) (orderedStart (twoOrdered ws₁ ws₂)) c ∧
      blocksOf 0 c.log = [(0, .begin 0), (0, .finish 0), (1, .begin 4)] ∧ skippedOf 0 c.log = [2] ∧
      (∃ busy, Serial (blocksOf 0 c.log) busy) ∧
      begun (blocksOf 0 c.log) <+: (signedLoop 0 7 2 (by decide)).values.filter (· ∉ skippedOf 0 c.log) := by
  let turns : List (Nat × OrderedAction) :=
    [(0, .go), (0, .go), (0, .go), (1, .go), (1, .go), (1, .order), (1, .go), (0, .order), (0, .go), (0, .go), (0, .go),
      (0, .go), (0, .skip), (0, .go), (0, .go), (0, .go), (0, .go), (0, .go), (1, .go), (1, .go)]
  obtain ⟨g₁, g₂, ws₁, ws₂, h₁, h₂, hstarted⟩ := exists_twoOrdered
  have hrun : (gompLoopInit (D := ℚ) (.fresh 2) (some 2) 0 .zero 0 7 2 .gfsGuided 2 0).any (fun r =>
      (gompLoopInit (D := ℚ) (.fresh 2) (some 2) 0 .zero 3 0 (-1) .gfsDynamic 1 0).any fun r' =>
        (exec (orderedStep (twoOrdered r.2 r'.2) 2) (orderedStart (twoOrdered r.2 r'.2)) turns).any fun c =>
          decide (blocksOf 0 c.log = [(0, .begin 0), (0, .finish 0), (1, .begin 4)] ∧ skippedOf 0 c.log = [2])) =
            true := by
    decide +kernel
  rw [h₁, h₂] at hrun
  obtain ⟨c, hr, hblocks, hskipped⟩ := exists_reach hrun
  exact ⟨g₁, ws₁, ws₂, c, h₁, hr, hblocks, hskipped,
    gompLoopOrdered_serial (D := ℚ) (by decide) hstarted hr (k := 0) rfl⟩

/-- Whatever the schedule, they get through all of them: no run goes on for ever, and when no thread can step every
thread has left every loop and the blocks of all iterations that do not go without one have run, in order. -/
theorem gompLoopOrdered_finishes (hteam : team ≠ some 0) (hloops : ∀ L ∈ loops, L.Started (D := D) team) :
    let n := (teamNthreads team).toNat
    (∃ most, ∀ {sched c}, exec (orderedStep loops n) (orderedStart loops) sched = some c → sched.length ≤ most) ∧
      ∀ {c}, Reach (orderedStep loops n) (orderedStart loops) c → (∀ c', ¬ Step (orderedStep loops n) c c') →
        (∀ i < n, loops.length ≤ (c.loc i).pos) ∧ ∀ (k : Nat) (L : OrderedLoop), loops[k]? = some L →
          Serial (blocksOf k c.log) none ∧ begun (blocksOf k c.log) = L.loop.values.filter (· ∉ skippedOf k c.log) := by
  intro n
  obtain ⟨on, hdeals⟩ := exists_deals hteam hloops
  have hn : 0 < n := teamNthreads_pos hteam
  constructor
  · refine ⟨orderedRank loops n (orderedStart loops), fun {sched c} hexec => ?_⟩
    have hlength := exec_length_le (orderedRank loops n) (fun h hs => Lined.step hdeals h hs)
      (fun h hs => h.rank hdeals hs)
      (lined_start hn hdeals) hexec
    omega
  · intro c hr hstuck
    have hlined := Lined.reach hn hdeals hr
    have hdone : ∀ i < n, loops.length ≤ (c.loc i).pos := by
      intro i hi
      by_contra hpos
      obtain ⟨c', hs⟩ := hlined.progress hdeals hi (not_le.1 hpos)
      exact hstuck c' hs
    exact ⟨hdone, fun k L hL => hlined.finished hn (.reach hn hdeals hr) hdone hL⟩

/-- Two threads and the two loops. -/
theorem gompLoopOrdered_finishes_two :
    ∃ (g₁ : Globals ℚ) (ws₁ ws₂ : GompWorkShare ℚ),
      gompLoopInit (.fresh 2) (some 2) 0 .zero 0 7 2 .gfsGuided 2 0 = some (g₁, ws₁) ∧
      let loops := twoOrdered ws₁ ws₂
      (∃ most, ∀ {sched c}, exec (orderedStep loops 2) (orderedStart loops) sched = some c → sched.length ≤ most) ∧
        ∀ {c}, Reach (orderedStep loops 2) (orderedStart loops) c → (∀ c', ¬ Step (orderedStep loops 2) c c') →
          (∀ i < 2, loops.length ≤ (c.loc i).pos) ∧ ∀ (k : Nat) (L : OrderedLoop), loops[k]? = some L →
            Serial (blocksOf k c.log) none ∧ begun (blocksOf k c.log) =
              L.loop.values.filter (· ∉ skippedOf k c.log) := by
  obtain ⟨g₁, g₂, ws₁, ws₂, h₁, h₂, hstarted⟩ := exists_twoOrdered
  exact ⟨g₁, ws₁, ws₂, h₁, gompLoopOrdered_finishes (D := ℚ) (by decide) hstarted⟩

end

end Bosched
