/-
The guided iterators of `iter.c` and `iter_ull.c`: a chunk is the share of a thread in what is left, but no less than
`chunk_size`. Whatever the interleaving, the chunks are those that one thread alone would get; they tile the loop,
upwards and downwards, for `long` and for `unsigned long long`; and every team gets to the end of it.
-/
import Bosched.Iter.Divisors
import Bosched.Iter.Sequence
import Bosched.Iter.Alone
import Bosched.Lib.Halting
import Bosched.Lib.Shares

namespace Bosched

open Lib

/-! ## Loops around a compare-and-swap -/

/-- A loop body that cuts the loop `l`, read by `rd`, at fixed places: from the position of an iteration it goes for the
end of its chunk, and at the end of the loop it returns false. -/
structure CutsAt (top : Word → Option (Local × Option Ret)) (stopAt : Word) (rd : Word → Int) (l : Loop)
    (cut : Nat → Nat) :
    Prop where
  fin : rd stopAt = l.fin
  inj : ∀ {a b}, rd a = rd b → a = b
  places : l.CutBy cut
  stop : top stopAt = some (.idle, some none)
  go : ∀ {start k}, k < l.trip → rd start = l.value k →
    ∃ q nend, top start = some (.casNext start q nend, none) ∧ rd nend = l.pos (cut k)

section

variable {ι : Type} {top : Word → Option (Local × Option Ret)} {stopAt : Word} {rd : Word → Int} {l : Loop}
  {cut : Nat → Nat}

/-- The first chunks are handed out and `next` is where the last of them ends; nobody was told false before the end. -/
structure CutUpTo (rd : Word → Int) (l : Loop) (cut : Nat → Nat) (m : Nat) (s : Cells) (log : List (ι × Ret)) :
    Prop where
  chunks : chunks rd log = l.cuts cut m
  before : ∀ j < m, cut^[j] 0 < l.trip
  next : rd s.next = l.pos (cut^[m] 0)
  told : ∀ i, (i, none) ∈ log → cut^[m] 0 = l.trip

/-- A thread goes from the position of an iteration for the end of its chunk. -/
def Local.Goes (rd : Word → Int) (l : Loop) (cut : Nat → Nat) : Local → Prop
  | .idle => True
  | .casNext start _ nend => ∃ k, k < l.trip ∧ rd start = l.value k ∧ rd nend = l.pos (cut k)
  | _ => False

theorem CutUpTo.claimed {m : Nat} {s : Cells} {log : List (ι × Ret)} (h : CutUpTo rd l cut m s log) (hc : l.CutBy cut) :
    Claimed l (Bosched.chunks rd log) (cut^[m] 0) := by
  rw [h.chunks]
  exact hc.claimed h.before

/-- The iterations that are left. -/
def Lib.Loop.left (l : Loop) (p : Int) : Nat :=
  ((Finset.range l.trip).filter fun k => ¬ Before l.incr (l.value k) p).card

theorem left_pos (k : Nat) : l.left (l.pos k) = l.trip - k := by
  have hset : ((Finset.range l.trip).filter fun j => ¬ Before l.incr (l.value j) (l.pos k)) = Finset.Ico k l.trip := by
    ext j
    rw [Finset.mem_filter, Finset.mem_range, Finset.mem_Ico]
    constructor
    · rintro ⟨hj, hb⟩
      rw [l.before_pos_iff hj] at hb
      exact ⟨not_lt.1 hb, hj⟩
    · rintro ⟨hkj, hj⟩
      refine ⟨hj, ?_⟩
      rw [l.before_pos_iff hj]
      exact not_lt.2 hkj
  unfold Loop.left
  rw [hset, Nat.card_Ico]

/-- How many steps a thread takes at most, alone, until it is told false. -/
def Local.retries (rd : Word → Int) (l : Loop) (s : Cells) : Local → Nat
  | .casNext start _ _ => 2 * l.left (rd s.next) + if s.next = start then 0 else 1
  | _ => 2 * l.left (rd s.next) + 1

namespace CutsAt

variable (h : CutsAt top stopAt rd l cut)

include h

/-- What the body does at the position that `next` has. -/
theorem top_eq {m : Nat} {s : Cells} {log : List (ι × Ret)} (hs : CutUpTo rd l cut m s log) :
    (cut^[m] 0 = l.trip ∧ top s.next = some (.idle, some none)) ∨
      ∃ q nend, cut^[m] 0 < l.trip ∧ rd s.next = l.value (cut^[m] 0) ∧
        top s.next = some (.casNext s.next q nend, none) ∧
        rd nend = l.pos (cut (cut^[m] 0)) := by
  have hnext := hs.next
  rcases Nat.lt_or_ge (cut^[m] 0) l.trip with hlt | hge
  · rw [l.pos_of_lt hlt] at hnext
    obtain ⟨q, nend, htop, hnend⟩ := h.go hlt hnext
    exact .inr ⟨q, nend, hlt, hnext, htop, hnend⟩
  · have heq : cut^[m] 0 = l.trip := le_antisymm (hs.claimed h.places).le_trip hge
    rw [heq, l.pos_trip, ← h.fin] at hnext
    rw [h.inj hnext]
    exact .inl ⟨heq, h.stop⟩

/-- Every step keeps what holds of the chunks and of the thread; no step traps, and the thread is told false or has less
to do. -/
theorem step {i : ι} {m : Nat} {s : Cells} {loc : Local} {log : List (ι × Ret)} (hs : CutUpTo rd l cut m s log)
    (hloc : loc.Goes rd l cut) : ∃ s' loc' e, (retryNext top : Prog ι Unit Cells Local Ret) i () s loc =
      some (s', loc', e) ∧
      (∃ m', CutUpTo rd l cut m' s' (logged log i e)) ∧ loc'.Goes rd l cut ∧
      (e = some none ∨ loc'.retries rd l s' < loc.retries rd l s) := by
  -- the body, from the current position
  have htop : 2 * l.left (rd s.next) < loc.retries rd l s →
    ∃ s' loc' e, (do return (s, ← top s.next)) = some (s', loc', e) ∧
      (∃ m', CutUpTo rd l cut m' s' (logged log i e)) ∧ loc'.Goes rd l cut ∧
      (e = some none ∨ loc'.retries rd l s' < loc.retries rd l s) := by
    intro hlt
    rcases h.top_eq hs with ⟨hend, ht⟩ | ⟨q, nend, hk, hnext, ht, hnend⟩
    · refine ⟨s, .idle, some none, by rw [ht]; rfl, ⟨m, ?_, hs.before, hs.next, fun _ _ => hend⟩, trivial, .inl rfl⟩
      rw [logged_some, chunks_none]
      exact hs.chunks
    · refine ⟨s, .casNext s.next q nend, none, by rw [ht]; rfl, ⟨m, hs⟩, ⟨_, hk, hnext, hnend⟩, .inr ?_⟩
      show 2 * l.left (rd s.next) + (if s.next = s.next then 0 else 1) < _
      rw [if_pos rfl]
      exact hlt
  cases loc with
  | idle =>
    exact htop (Nat.lt_succ_self _)
  | casNext start q nend =>
    obtain ⟨k, hk, hstart, hnend⟩ := hloc
    by_cases hsame : s.next = start
    · subst hsame
      have hmt := (hs.claimed h.places).le_trip
      have hpos := hs.next
      have hkm : cut^[m] 0 = k := by
        apply l.pos_inj hmt (le_of_lt hk)
        rw [← hs.next, hstart, l.pos_of_lt hk]
      have hcut := h.places.lt hk
      have hcutle := h.places.le hk
      refine ⟨{ s with next := nend }, .idle, some (some (s.next, nend)), if_pos rfl, ⟨m + 1, ?_, ?_, ?_, ?_⟩, trivial,
        .inr ?_⟩
      · rw [logged_some, chunks_some, hs.chunks, Loop.cuts_succ, ← hs.next, hkm, hnend]
      · intro j hj
        rcases Nat.lt_succ_iff_lt_or_eq.1 hj with hj | rfl
        · exact hs.before j hj
        · rw [hkm]
          exact hk
      · rw [Function.iterate_succ_apply', hkm]
        exact hnend
      · rintro j hj
        rcases List.mem_append.1 hj with hj | hj
        · have := hs.told j hj
          omega
        · rw [List.mem_singleton] at hj
          cases hj
      · show 2 * l.left (rd nend) + 1 < 2 * l.left (rd s.next) + if s.next = s.next then 0 else 1
        rw [if_pos rfl, hnend, left_pos, hpos, hkm, left_pos]
        omega
    · have hstep : (retryNext top : Prog ι Unit Cells Local Ret) i () s (.casNext start q nend) =
          (do return (s, ← top s.next)) := if_neg hsame
      rw [hstep]
      apply htop
      show _ < 2 * l.left (rd s.next) + if s.next = start then 0 else 1
      rw [if_neg hsame]
      exact Nat.lt_succ_self _
  | loadNext | loadBarrier | loadChunk | reloadNext | reloadBarrier | casChunk | casBarrier | reloadStart =>
    exact hloc.elim

end CutsAt

end

/-! ## Whole runs -/

/-- What the guided iterators promise at a state of a run of `p`: the chunks handed out so far are the first of the
chunks that one thread alone would get, whoever is told false is told at the end, where they tile the loop, no thread
traps, and the threads can all be told false. -/
structure SharesOut {ι : Type} [DecidableEq ι] (rd : Word → Int) (l : Loop) (share : Nat → Nat)
    (p : Prog ι Unit Cells Local Ret) (c : Cfg ι Cells Local Ret) : Prop where
  sequence : ∃ m, (∀ j < m, (l.shareCut share)^[j] 0 < l.trip) ∧ chunks rd c.log = l.cuts (l.shareCut share) m
  tiles : ∀ i, (i, none) ∈ c.log → Tiles l (chunks rd c.log)
  goes : ∀ i, (p i () c.shared (c.loc i)).isSome
  ends : ∀ is : List ι, ∃ c', Reach p c c' ∧ ∀ i ∈ is, (i, none) ∈ c'.log

section

variable {ι : Type} [DecidableEq ι] {top : Word → Option (Local × Option Ret)} {stopAt : Word} {rd : Word → Int}
  {l : Loop} {cut : Nat → Nat}

/-- What holds at every state of a run. -/
def CutFair (rd : Word → Int) (l : Loop) (cut : Nat → Nat) (c : Cfg ι Cells Local Ret) : Prop :=
  (∃ m, CutUpTo rd l cut m c.shared c.log) ∧ ∀ i, (c.loc i).Goes rd l cut

namespace CutsAt

variable (h : CutsAt top stopAt rd l cut)

include h

theorem step_fair {i : ι} {c : Cfg ι Cells Local Ret} (hc : CutFair rd l cut c) :
    ∃ s loc e, (retryNext top : Prog ι Unit Cells Local Ret) i () c.shared (c.loc i) = some (s, loc, e) ∧
      CutFair rd l cut ⟨s, Function.update c.loc i loc, logged c.log i e⟩ ∧
      (e = some none ∨ loc.retries rd l s < (c.loc i).retries rd l c.shared) := by
  obtain ⟨⟨m, hm⟩, hloc⟩ := hc
  obtain ⟨s, loc, e, hp, hm', hloc', hrank⟩ := h.step (i := i) hm (hloc i)
  refine ⟨s, loc, e, hp, ⟨hm', fun j => ?_⟩, hrank⟩
  show (Function.update c.loc i loc j).Goes rd l cut
  by_cases hj : j = i
  · subst hj
    rw [Function.update_self]
    exact hloc'
  · rw [Function.update_of_ne hj]
    exact hloc j

theorem reach {c c' : Cfg ι Cells Local Ret} (hc : CutFair rd l cut c) (hr : Reach (retryNext top) c c') :
    CutFair rd l cut c' := by
  induction hr with
  | refl => exact hc
  | tail _ hs ih =>
    cases hs with
    | mk i a hp =>
      obtain ⟨s, loc, e, hp', hfair, -⟩ := h.step_fair (i := i) ih
      cases hp'.symm.trans hp
      exact hfair

omit h in
/-- From a work share that stands at the start of its loop. -/
theorem sharesOut {share : Nat → Nat} (h : CutsAt top stopAt rd l (l.shareCut share)) {D : Type} {ws : GompWorkShare D}
    (hstart : rd ws.next = l.pos 0) {c : Cfg ι Cells Local Ret} (hr : Reach (retryNext top) (entry ws) c) :
    SharesOut rd l share (retryNext top) c := by
  let cut := l.shareCut share
  have hentry : CutFair rd l cut (entry ws : Cfg ι Cells Local Ret) :=
    ⟨⟨0, rfl, fun _ hj => absurd hj (Nat.not_lt_zero _), hstart, fun _ hi => absurd hi List.not_mem_nil⟩, fun _ =>
      trivial⟩
  have hfair := h.reach hentry hr
  constructor
  · obtain ⟨⟨m, hm⟩, -⟩ := hfair
    exact ⟨m, hm.before, hm.chunks⟩
  · intro i hi
    obtain ⟨⟨m, hm⟩, -⟩ := hfair
    have hclaimed := hm.claimed h.places
    rw [hm.told i hi] at hclaimed
    exact hclaimed.tiles
  · intro i
    obtain ⟨s, loc, e, hp, -⟩ := h.step_fair (i := i) hfair
    rw [hp]
    rfl
  · intro is
    have halone : ∀ c, CutFair rd l cut c → ∀ i, ∃ a s loc e,
        (retryNext top : Prog ι Unit Cells Local Ret) i a c.shared (c.loc i) = some (s, loc, e) ∧
          CutFair rd l cut ⟨s, Function.update c.loc i loc, logged c.log i e⟩ ∧
          (e = some none ∨ (Function.update c.loc i loc i).retries rd l s < (c.loc i).retries rd l c.shared) := by
      intro c hc i
      obtain ⟨s, loc, e, hp, hfair, hrank⟩ := h.step_fair (i := i) hc
      rw [← Function.update_self i loc c.loc] at hrank
      exact ⟨(), s, loc, e, hp, hfair, hrank⟩
    obtain ⟨c', hr', -, htold⟩ := exists_reach_told (fun i c => (c.loc i).retries rd l c.shared) none halone hfair is
    exact ⟨c', hr', htold⟩

end CutsAt

end

/-! ## The shares -/

/-- The iterations of a chunk of the guided schedules, where `n` strides are left. -/
def guidedCount (nthreads chunkSize : Word) (n : Nat) : Nat :=
  let q := (BitVec.ofNat 64 n + nthreads - 1) / nthreads
  (if q < chunkSize then chunkSize else q).toNat

variable {nthreads chunkSize : Word}

theorem guidedShare_eq (h : nthreads ≠ 0) (chunkSize n : Word) :
    ∃ q, guidedShare nthreads chunkSize n = some q ∧ q.toNat = guidedCount nthreads chunkSize n.toNat := by
  have hdiv : uldiv (n + nthreads - 1) nthreads = some ((n + nthreads - 1) / nthreads) := if_neg h
  unfold guidedShare guidedCount
  rw [hdiv, BitVec.ofNat_toNat, BitVec.setWidth_eq]
  exact ⟨_, rfl, rfl⟩

theorem le_guidedCount (n : Nat) : chunkSize.toNat ≤ guidedCount nthreads chunkSize n := by
  unfold guidedCount
  dsimp only
  split
  · exact le_refl _
  · rename_i hlt
    rw [BitVec.lt_def] at hlt
    exact not_lt.1 hlt

theorem one_le_guidedCount (h : chunkSize ≠ 0) (n : Nat) : 1 ≤ guidedCount nthreads chunkSize n :=
  le_trans (Nat.one_le_iff_ne_zero.2 (toNat_ne_zero h)) (le_guidedCount n)

variable {D : Type} {ws : GompWorkShare D}

/-- What the iterators need of the arithmetic: from every iteration the strides that are left, and where so many end. -/
theorem cuts_of_remaining {v : View} {rd : Word → Int} {l : Loop} (hn : nthreads ≠ 0) (hc : chunkSize ≠ 0)
    (hfin : rd v.fin = l.fin) (hinj : ∀ {a b}, rd a = rd b → a = b) {incr : Word}
    (hleft : ∀ {s k}, k < l.trip → rd s = l.value k → ∃ n, v.remaining s = some n ∧
    (n.toNat : Int) = (l.fin - l.value k).tdiv l.incr ∧
      ∀ q : Word, rd s + q.toNat * l.incr = l.pos (k + q.toNat) → rd (s + q * incr) = rd s + q.toNat * l.incr) :
    CutsAt (v.shareTop nthreads incr chunkSize) v.fin rd l (l.shareCut (guidedCount nthreads chunkSize)) where
  fin := hfin
  inj := hinj
  places := Loop.cutBy_share (one_le_guidedCount hc)
  stop := if_pos rfl
  go := by
    intro s k hk hs
    obtain ⟨n, hrem, hnat, hadd⟩ := hleft hk hs
    obtain ⟨q, hq, hqnat⟩ := guidedShare_eq hn chunkSize n
    have hne : s ≠ v.fin := by
      rintro rfl
      have hb := (l.before_fin_iff k).2 hk
      rw [← hs, hfin] at hb
      exact before_irrefl _ _ hb
    refine ⟨q, if q ≤ n then s + q * incr else v.fin, ?_, ?_⟩
    · unfold View.shareTop
      rw [if_neg hne, hrem, Option.bind_eq_bind, Option.bind_some, hq]
      rfl
    · have hcount : ((l.fin - l.value k).tdiv l.incr).toNat = n.toNat := by
        rw [← hnat, Int.toNat_natCast]
      unfold Loop.shareCut
      dsimp only
      rw [hcount, ← hqnat]
      by_cases hle : q ≤ n
      · have hle' : q.toNat ≤ n.toNat := BitVec.le_def.1 hle
        rw [if_pos hle, if_pos hle']
        have hpos : rd s + q.toNat * l.incr = l.pos (k + q.toNat) := by
          rw [hs, Loop.pos_add_left hk (by rw [hqnat]; exact one_le_guidedCount hc _) (by rw [hcount]; exact hle')]
        rw [hadd q hpos, hpos]
      · have hle' : ¬ q.toNat ≤ n.toNat := fun hle' => hle (BitVec.le_def.2 hle')
        rw [if_neg hle, if_neg hle', l.pos_trip, hfin]

/-! ## The two widths -/

/-- How the words of a loop are read. -/
def Width.rd : Width → Word → Int
  | .long, w => w.toInt
  | .ull _, w => w.toNat

/-- The loop of the program. -/
def Width.loop (w : Width) (start fin incr : Word) (h : incr ≠ 0) : Loop :=
  match w with
  | .long => signedLoop start fin incr h
  | .ull up => ullLoop up start fin incr h

/-- The end of a work share. -/
def Width.canonicalEnd (w : Width) (start fin incr : Word) : Word :=
  match w with
  | .long => Bosched.canonicalEnd start fin incr
  | .ull up => canonicalEndUll up start fin

theorem Width.rd_inj (w : Width) {a b : Word} (h : w.rd a = w.rd b) : a = b := by
  cases w with
  | long => exact BitVec.toInt_inj.1 h
  | ull up =>
    apply BitVec.eq_of_toNat_eq
    exact_mod_cast (show (a.toNat : Int) = b.toNat from h)

/-- From every iteration of a signed loop. -/
theorem long_left {start : Word} (h : ws.incr ≠ 0) (hfits : SubFits ws.fin start)
    (htrap : ldiv (ws.fin - start) ws.incr ≠ none)
    {s : Word} {k : Nat} (hk : k < (signedLoop start ws.fin ws.incr h).trip)
    (hs : s.toInt = (signedLoop start ws.fin ws.incr h).value k) :
    let l := signedLoop start ws.fin ws.incr h
    ∃ n, (View.long ws).remaining s = some n ∧ (n.toNat : Int) = (l.fin - l.value k).tdiv l.incr ∧
      ∀ q : Word, s.toInt + q.toNat * l.incr = l.pos (k + q.toNat) →
        (s + q * ws.incr).toInt = s.toInt + q.toNat * l.incr := by
  intro l
  obtain ⟨n, hn, hnat⟩ := long_remaining h hfits htrap hk hs
  refine ⟨n, hn, hnat, fun q hq => ?_⟩
  have hb1 := toInt_bounds ws.fin
  have hb2 := toInt_bounds start
  -- a position is a value or the end
  have hbounds : -2 ^ 63 ≤ l.pos (k + q.toNat) ∧ l.pos (k + q.toNat) < 2 ^ 63 := by
    unfold Loop.pos
    split
    · rename_i hlt
      have hstart : l.start = start.toInt := rfl
      have hfin : l.fin = ws.fin.toInt := rfl
      have := l.value_between hlt
      omega
    · exact hb1
  rw [← hq] at hbounds
  exact toInt_add_mul hbounds.1 hbounds.2

/-- The strides that are left of an unsigned loop are counted downwards as they are upwards. -/
theorem ull_remaining {up : Bool} {start : Word} (h : ws.incr ≠ 0) (hmode : ws.mode = if up then 0 else 2) {s : Word} :
    let l := ullLoop up start ws.fin ws.incr h
    Before l.incr s.toNat l.fin → ∃ n, (View.ull ws).remaining s = some n ∧
      (n.toNat : Int) = (l.fin - s.toNat).tdiv l.incr := by
  intro l hb
  have hfin : l.fin = ws.fin.toNat := rfl
  obtain ⟨n, hn⟩ := ull_remaining_some h s
  refine ⟨n, hn, ?_⟩
  cases up with
  | true =>
    have hincr : l.incr = ws.incr.toNat := rfl
    rw [before_pos (show 0 < l.incr from (ullStep_pos_iff true h).2 rfl)] at hb
    have hview : (View.ull ws).remaining s = uldiv (ws.fin - s) ws.incr := if_pos hmode
    obtain ⟨-, hq⟩ := uldiv_some (hview.symm.trans hn)
    have hle : s.toNat ≤ ws.fin.toNat := by omega
    rw [hq, toNat_sub_of_le hle, Int.tdiv_eq_ediv_of_nonneg (by omega), Int.natCast_ediv, Nat.cast_sub hle, hfin, hincr]
  | false =>
    have hincr : l.incr = -((-ws.incr).toNat : Int) := rfl
    rw [before_neg (by rw [hincr]; omega)] at hb
    have hne : ws.mode ≠ 0 := by rw [hmode]; decide
    have hview : (View.ull ws).remaining s = uldiv (s - ws.fin) (-ws.incr) := if_neg hne
    obtain ⟨-, hq⟩ := uldiv_some (hview.symm.trans hn)
    have hle : ws.fin.toNat ≤ s.toNat := by omega
    rw [hq, toNat_sub_of_le hle, ← Int.neg_tdiv_neg, Int.tdiv_eq_ediv_of_nonneg (by omega), Int.natCast_ediv,
      Nat.cast_sub hle,
      hfin, hincr, neg_neg, neg_sub]

/-- Adding the step so often, modulo `2^64`, is right in both directions. -/
theorem ull_add_mul {up : Bool} {start s q : Word} (h : ws.incr ≠ 0) :
    let l := ullLoop up start ws.fin ws.incr h
    0 ≤ (s.toNat : Int) + q.toNat * l.incr → (s.toNat : Int) + q.toNat * l.incr < 2 ^ 64 →
      ((s + q * ws.incr).toNat : Int) = s.toNat + q.toNat * l.incr := by
  intro l h0 h1
  cases up with
  | true =>
    have hincr : l.incr = ws.incr.toNat := rfl
    rw [hincr] at h1 ⊢
    rw [toNat_add_mul (by exact_mod_cast h1)]
    push_cast
    rfl
  | false =>
    have hincr : l.incr = -((-ws.incr).toNat : Int) := rfl
    rw [hincr, Int.mul_neg] at h0 ⊢
    have hs := s.isLt
    -- adding the negated step is subtracting the step
    have hsub : s + q * ws.incr = s - q * -ws.incr := by
      rw [BitVec.mul_neg, BitVec.sub_eq_add_neg, BitVec.neg_neg]
    have hle : q.toNat * (-ws.incr).toNat ≤ s.toNat := by
      zify
      omega
    have hmul : (q * -ws.incr).toNat = q.toNat * (-ws.incr).toNat := by
      rw [BitVec.toNat_mul, Nat.mod_eq_of_lt (by omega)]
    rw [hsub, toNat_sub_of_le (by rw [hmul]; exact hle), hmul, Nat.cast_sub hle, Nat.cast_mul]
    ring

/-- From every iteration of an unsigned loop. -/
theorem ull_left {up : Bool} {start : Word} (h : ws.incr ≠ 0) (hmode : ws.mode = if up then 0 else 2)
    {s : Word} {k : Nat} (hk : k < (ullLoop up start ws.fin ws.incr h).trip)
    (hs : (s.toNat : Int) = (ullLoop up start ws.fin ws.incr h).value k) :
    let l := ullLoop up start ws.fin ws.incr h
    ∃ n, (View.ull ws).remaining s = some n ∧ (n.toNat : Int) = (l.fin - l.value k).tdiv l.incr ∧
      ∀ q : Word, (s.toNat : Int) + q.toNat * l.incr = l.pos (k + q.toNat) →
        ((s + q * ws.incr).toNat : Int) = s.toNat + q.toNat * l.incr := by
  intro l
  have hb := (l.before_fin_iff k).2 hk
  rw [← hs] at hb
  obtain ⟨n, hn, hnat⟩ := ull_remaining h hmode hb
  refine ⟨n, hn, by rw [← hs]; exact hnat, fun q hq => ?_⟩
  have hpos : 0 ≤ l.pos (k + q.toNat) ∧ l.pos (k + q.toNat) < 2 ^ 64 := by
    have hstart : l.start = start.toNat := rfl
    have hfin : l.fin = ws.fin.toNat := rfl
    have h1 := start.isLt
    have h2 := ws.fin.isLt
    unfold Loop.pos
    split
    · rename_i hlt
      have := l.value_between hlt
      omega
    · omega
  rw [← hq] at hpos
  exact ull_add_mul h hpos.1 hpos.2

/-! ## Loops of the program -/

/-- What is promised of a loop whose end is moved to its start holds of the loop, which has no iterations either. -/
theorem SharesOut.of_trip {ι : Type} [DecidableEq ι] {rd : Word → Int} {l l' : Loop} {share : Nat → Nat}
    {p : Prog ι Unit Cells Local Ret} {c : Cfg ι Cells Local Ret} (h : SharesOut rd l share p c)
    (hl : l = l' ∨ l.trip = 0 ∧ l'.trip = 0) : SharesOut rd l' share p c := by
  rcases hl with rfl | ⟨h0, h0'⟩
  · exact h
  · obtain ⟨m, hm, hcs⟩ := h.sequence
    have hm0 : m = 0 := by
      by_contra hne
      have := hm 0 (Nat.pos_of_ne_zero hne)
      omega
    subst hm0
    refine ⟨⟨0, fun j hj => absurd hj (Nat.not_lt_zero j), hcs⟩, fun i _ => ?_, h.goes, h.ends⟩
    rw [hcs]
    exact tiles_nil h0'

section

variable [CDouble D] {P : Nat} {w : Width} {g g' : Globals D} {team team' : Option U32} {now : Int}
  {ws' : GompWorkShare D} {start fin incr : Word} {r : RegionId}

theorem guidedShare_of_init (hinit : w.init g team now ws start fin incr .gfsGuided chunkSize r = some (g', ws')) :
    ws'.next = start ∧ ws'.fin = w.canonicalEnd start fin incr ∧ ws'.incr = incr ∧ ws'.chunkSize = chunkSize := by
  cases w with
  | long =>
    have hinit : gompLoopInit g team now ws start fin incr .gfsGuided chunkSize r = some (g', ws') := hinit
    have hsame := gompLoopInit_sameLoop hinit
    refine ⟨hsame.next, hsame.fin, hsame.incr, ?_⟩
    obtain ⟨n, -, hs⟩ := gompLoopInit_some hinit
    cases hs
    rfl
  | ull up =>
    have hinit : gompLoopUllInit g team now ws up start fin incr .gfsGuided chunkSize r = some (g', ws') := hinit
    have hsame := gompLoopUllInit_sameLoop hinit
    refine ⟨hsame.next, hsame.fin, hsame.incr, ?_⟩
    obtain ⟨n, ws₁, hs, rfl⟩ := gompLoopUllInit_some hinit
    cases hs
    split <;> rfl

omit [CDouble D] in
/-- A work share starts at the position of the loop. -/
theorem Width.pos_zero (w : Width) (start fin : Word) (h : incr ≠ 0) :
    (w.loop start (w.canonicalEnd start fin incr) incr h).pos 0 = w.rd start := by
  cases w with
  | long => exact Loop.pos_zero _ (not_before_canonicalEnd start fin h)
  | ull up => exact pos_zero_ullLoop h

omit [CDouble D] in
/-- The end of a work share is the end of the loop, unless the loop has no iterations. -/
theorem Width.loop_canonicalEnd (w : Width) (start fin : Word) (h : incr ≠ 0) :
    let l := w.loop start (w.canonicalEnd start fin incr) incr h
    let l' := w.loop start fin incr h
    l = l' ∨ l.trip = 0 ∧ l'.trip = 0 := by
  cases w with
  | long =>
    show signedLoop start (Bosched.canonicalEnd start fin incr) incr h = signedLoop start fin incr h ∨
      (signedLoop start (Bosched.canonicalEnd start fin incr) incr h).trip = 0 ∧ (signedLoop start fin incr h).trip = 0
    rw [canonicalEnd_eq]
    split
    · rename_i hb
      exact .inr ⟨(Loop.trip_eq_zero_iff _).2 (before_irrefl _ _), (Loop.trip_eq_zero_iff _).2 hb.2.asymm⟩
    · exact .inl rfl
  | ull up =>
    show ullLoop up start (canonicalEndUll up start fin) incr h = ullLoop up start fin incr h ∨
      (ullLoop up start (canonicalEndUll up start fin) incr h).trip = 0 ∧ (ullLoop up start fin incr h).trip = 0
    rw [canonicalEndUll_eq h]
    split
    · rename_i hb
      exact .inr ⟨(Loop.trip_eq_zero_iff _).2 (before_irrefl _ _), (Loop.trip_eq_zero_iff _).2 hb.asymm⟩
    · exact .inl rfl

/-- The program and its arithmetic. -/
theorem guidedNext_cuts (hincr : ws'.incr ≠ 0) (hchunk : ws'.chunkSize ≠ 0) (hteam : teamNthreads team' ≠ 0)
    (hinit : w.init g team now ws start fin incr .gfsGuided chunkSize r = some (g', ws')) :
    ∃ top, (w.guidedNext ws' team' : Prog (Fin P) Unit Cells Local Ret) = retryNext top ∧
      CutsAt top ws'.fin w.rd (w.loop start ws'.fin ws'.incr hincr)
        ((w.loop start ws'.fin ws'.incr hincr).shareCut (guidedCount (teamNthreads team') ws'.chunkSize)) := by
  cases w with
  | long =>
    have hinit : gompLoopInit g team now ws start fin incr .gfsGuided chunkSize r = some (g', ws') := hinit
    obtain ⟨hfits, htrap⟩ := long_divides hinit
    exact ⟨_, View.shareNext_eq _ _ _ _, cuts_of_remaining hteam hchunk rfl BitVec.toInt_inj.1
      fun hk hs => long_left hincr hfits htrap hk hs⟩
  | ull up =>
    have hmode : ws'.mode = if up then 0 else 2 :=
      gompLoopUllInit_mode hinit (fun h => by cases h) (fun h => by cases h) (fun h => by cases h)
    exact ⟨_, View.shareNext_eq _ _ _ _, cuts_of_remaining hteam hchunk rfl (Width.rd_inj (.ull up))
      fun hk hs => ull_left hincr hmode hk hs⟩

/-- Whatever the interleaving, the threads of a guided loop are handed out the chunks that one thread alone would get,
and whoever is told false is told when they tile the loop. -/
theorem guidedNext_sharesOut (hincr : incr ≠ 0) (hchunk : chunkSize ≠ 0) (hteam : teamNthreads team' ≠ 0)
    (hinit : w.init g team now ws start fin incr .gfsGuided chunkSize r = some (g', ws'))
    {c : Cfg (Fin P) Cells Local Ret} (hr : Reach (w.guidedNext ws' team') (entry ws') c) :
    SharesOut w.rd (w.loop start fin incr hincr) (guidedCount (teamNthreads team') chunkSize)
      (w.guidedNext ws' team') c := by
  obtain ⟨hnext, hfin, rfl, rfl⟩ := guidedShare_of_init hinit
  obtain ⟨top, hp, hcuts⟩ := guidedNext_cuts (P := P) hincr hchunk hteam hinit
  rw [hp] at hr ⊢
  rw [hfin] at hcuts
  exact (hcuts.sharesOut (by rw [hnext, w.pos_zero]) hr).of_trip (w.loop_canonicalEnd start fin hincr)

/-- Two threads that take turns over the ten iterations of `for (i = 10; i > 0; i--)`. -/
theorem guidedNext_sharesOut_down :
    ∃ (g : Globals ℚ) (ws : GompWorkShare ℚ) (c : Cfg (Fin 2) Cells Local Ret),
      (Width.ull false).init (.fresh 2) (some 2) 0 .zero 10 0 (-1) .gfsGuided 2 0 = some (g, ws) ∧
      returned c.log = [(10, 5), (5, 2), (2, 0)] ∧
      SharesOut (Width.ull false).rd ((Width.ull false).loop 10 0 (-1) (by decide))
        (guidedCount (teamNthreads (some 2)) 2)
        ((Width.ull false).guidedNext ws (some 2)) c := by
  let turns : List (Fin 2 × Unit) := (List.replicate 8 [(0, ()), (1, ())]).flatten
  have hrun : ((Width.ull false).init (D := ℚ) (.fresh 2) (some 2) 0 .zero 10 0 (-1) .gfsGuided 2 0).any (fun r =>
      (exec ((Width.ull false).guidedNext r.2 (some 2)) (entry r.2) turns).any fun c =>
        decide (returned c.log = [(10, 5), (5, 2), (2, 0)])) = true := by decide +kernel
  obtain ⟨⟨g, ws⟩, hinit, hrun⟩ := (Option.any_eq_true _ _).1 hrun
  obtain ⟨c, hr, hret⟩ := exists_reach hrun
  exact ⟨g, ws, c, hinit, hret, guidedNext_sharesOut (by decide) (by decide) (by decide) hinit hr⟩

/-! ## The sizes -/

omit [CDouble D] in
/-- More is shared out where more is left, as long as the count does not wrap. -/
theorem guidedCount_mono {n : Nat} (h : nthreads ≠ 0) (hn : n + nthreads.toNat ≤ 2 ^ 64) :
    MonotoneOn (guidedCount nthreads chunkSize) (Set.Iic n) := by
  have hq : ∀ a ≤ n, ((BitVec.ofNat 64 a + nthreads - 1) / nthreads).toNat =
    (a + nthreads.toNat - 1) / nthreads.toNat := by
    intro a ha
    have h1 := toNat_ne_zero h
    have hone : (1#64).toNat = 1 := rfl
    have hsum : (BitVec.ofNat 64 a + nthreads - 1) = BitVec.ofNat 64 (a + nthreads.toNat - 1) := by
      have hsub : a + nthreads.toNat - 1 + 1 = a + nthreads.toNat := by omega
      rw [BitVec.sub_eq_iff_eq_add, show (1 : Word) = BitVec.ofNat 64 1 from rfl, ← BitVec.ofNat_add, hsub,
        BitVec.ofNat_add,
        BitVec.ofNat_toNat, BitVec.setWidth_eq]
    rw [BitVec.toNat_udiv, hsum, BitVec.toNat_ofNat, Nat.mod_eq_of_lt (by omega)]
  intro a ha b hb hab
  have hdiv : (a + nthreads.toNat - 1) / nthreads.toNat ≤ (b + nthreads.toNat - 1) / nthreads.toNat :=
    Nat.div_le_div_right (by omega)
  rw [← hq a ha, ← hq b hb] at hdiv
  unfold guidedCount
  simp only [BitVec.lt_def]
  split <;> split <;> omega

omit [CDouble D] in
theorem teamNthreads_lt (team : Option U32) : (teamNthreads team).toNat < 2 ^ 32 := by
  unfold teamNthreads
  rw [BitVec.toNat_setWidth]
  have := (team.getD 1).isLt
  omega

omit [CDouble D] in
/-- Of a `long` loop that `gomp_loop_init` can count there are never so many strides left that the count would wrap. -/
theorem strides_signedLoop_le (h : incr ≠ 0) (hfits : SubFits fin start) :
    (signedLoop start fin incr h).strides ≤ 2 ^ 63 := by
  have hle := Int.natAbs_tdiv_le_natAbs (fin.toInt - start.toInt) incr.toInt
  unfold SubFits at hfits
  show ((fin.toInt - start.toInt).tdiv incr.toInt).toNat ≤ 2 ^ 63
  omega

/-- In the order in which a guided schedule hands them out, the chunks never grow, and all but the last have at least
`chunk_size` iterations, unless the count of an `unsigned long long` loop wraps. -/
theorem guidedNext_sizes (hincr : incr ≠ 0) (hchunk : chunkSize ≠ 0) (hteam : teamNthreads team' ≠ 0)
    (hwrap : w = .long ∨ (w.loop start fin incr hincr).strides + (teamNthreads team').toNat ≤ 2 ^ 64)
    (hinit : w.init g team now ws start fin incr .gfsGuided chunkSize r = some (g', ws'))
    {c : Cfg (Fin P) Cells Local Ret} (hr : Reach (w.guidedNext ws' team') (entry ws') c) :
    let sizes := (chunks w.rd c.log).map fun ch => ((w.loop start fin incr hincr).chunk ch).trip
    sizes.Pairwise (· ≥ ·) ∧ ∀ z ∈ sizes.dropLast, chunkSize.toNat ≤ z := by
  intro sizes
  obtain ⟨hnext, hfin, rfl, rfl⟩ := guidedShare_of_init hinit
  obtain ⟨top, hp, hcuts⟩ := guidedNext_cuts (P := P) hincr hchunk hteam hinit
  rw [hp] at hr
  rw [hfin] at hcuts
  obtain ⟨m, hm, hcs⟩ := ((hcuts.sharesOut (by rw [hnext, w.pos_zero]) hr).of_trip
    (w.loop_canonicalEnd start fin hincr)).sequence
  have hone : ∀ n, 1 ≤ guidedCount (teamNthreads team') ws'.chunkSize n := one_le_guidedCount hchunk
  have hsizes : sizes = ((w.loop start fin ws'.incr hincr).cuts ((w.loop start fin ws'.incr hincr).shareCut
      (guidedCount (teamNthreads team') ws'.chunkSize)) m).map fun ch =>
        ((w.loop start fin ws'.incr hincr).chunk ch).trip := by
    rw [← hcs]
  rw [hsizes]
  refine ⟨?_, Loop.cuts_full hone hm le_guidedCount⟩
  rcases w.loop_canonicalEnd start fin hincr with heq | ⟨-, h0⟩
  · apply Loop.cuts_sorted hone (guidedCount_mono hteam _) hm
    rcases hwrap with rfl | hle
    · have hinit : gompLoopInit g team now ws start fin ws'.incr .gfsGuided ws'.chunkSize r = some (g', ws') := hinit
      have hstrides := strides_signedLoop_le hincr (long_divides hinit).1
      have hN := teamNthreads_lt team'
      have heq : signedLoop start (Bosched.canonicalEnd start fin ws'.incr) ws'.incr hincr =
        signedLoop start fin ws'.incr hincr := heq
      rw [(gompLoopInit_sameLoop hinit).fin] at hstrides
      change (signedLoop start (Bosched.canonicalEnd start fin ws'.incr) ws'.incr hincr).strides ≤ _ at hstrides
      rw [heq] at hstrides
      show (signedLoop start fin ws'.incr hincr).strides + _ ≤ _
      omega
    · exact hle
  · -- no chunks of a loop without iterations
    have hm0 : m = 0 := by
      by_contra hne
      have := hm 0 (Nat.pos_of_ne_zero hne)
      omega
    subst hm0
    exact List.Pairwise.nil

/-- Two threads that take turns over the ten iterations of `for (i = 0; i < 10; i++)`. -/
theorem guidedNext_sizes_up :
    ∃ (g : Globals ℚ) (ws : GompWorkShare ℚ) (c : Cfg (Fin 2) Cells Local Ret),
      Width.long.init (.fresh 2) (some 2) 0 .zero 0 10 1 .gfsGuided 1 0 = some (g, ws) ∧
      returned c.log = [(0, 5), (5, 8), (8, 9), (9, 10)] ∧
      let sizes := (chunks Width.long.rd c.log).map fun ch => ((Width.long.loop 0 10 1 (by decide)).chunk ch).trip
      sizes.Pairwise (· ≥ ·) ∧ ∀ z ∈ sizes.dropLast, (1 : Word).toNat ≤ z := by
  let turns : List (Fin 2 × Unit) := (List.replicate 8 [(0, ()), (1, ())]).flatten
  have hrun : (Width.long.init (D := ℚ) (.fresh 2) (some 2) 0 .zero 0 10 1 .gfsGuided 1 0).any (fun r =>
      (exec (Width.long.guidedNext r.2 (some 2)) (entry r.2) turns).any fun c =>
        decide (returned c.log = [(0, 5), (5, 8), (8, 9), (9, 10)])) = true := by decide +kernel
  obtain ⟨⟨g, ws⟩, hinit, hrun⟩ := (Option.any_eq_true _ _).1 hrun
  obtain ⟨c, hr, hret⟩ := exists_reach hrun
  exact ⟨g, ws, c, hinit, hret, guidedNext_sizes (by decide) (by decide) (by decide) (.inl rfl) hinit hr⟩

end

end Bosched
