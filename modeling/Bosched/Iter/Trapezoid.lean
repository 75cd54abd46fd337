/-
The trapezoid rule of `bo_iter_tss_next` and `bo_iter_ull_tss_next`: the call with ticket `k` offers
`f - k * delta` iterations, at least one. The code subtracts in an unsigned type, so a ticket that has used
up the first size offers almost `2^64`; and it takes the tail with a chunk that is one iteration short of
it, since its remaining count is rounded down.
-/
import Bosched.Iter.Factoring
import Bosched.Lib.Ghost

namespace Bosched

open Lib

/-! ## The rule -/

section

variable {D : Type} [CDouble D] {ι : Type}

/-- `delta`. -/
def tssDelta (param : D) : Word := CDouble.toULong (1.0 / param)

/-- What ticket `k` offers, in the integers. -/
def trapezoid (f delta k : Word) : Int := max 1 ((f.toNat : Int) - k.toNat * delta.toNat)

/-- The ticket a call draws with its first step. -/
def drawn (s : Cells) (loc : Local) (k : Word) : Word := if loc = .idle then s.count else k

/-- The iterations of the chunk from `a` to `b`. -/
def Lib.Loop.size (l : Loop) (a b : Int) : Nat := (l.chunk (a, b)).trip

/-- Every claim takes what its ticket offers, or the rest where that is less; so a claim is no larger than one
with an earlier ticket that was not cut short. -/
structure TrapezoidLaw (l : Loop) (rd : Word → Int) (f delta : Word) (log : List (ι × Ret × Word)) : Prop where
  rule : ∀ {i a b k}, (i, some (a, b), k) ∈ log → (l.size (rd a) (rd b) : Int) = min ↑(l.size (rd a) l.fin) (trapezoid f delta k)
  shrinks : ∀ {i a b k i' a' b' k'}, (i, some (a, b), k) ∈ log → (i', some (a', b'), k') ∈ log → k ≤ k' →
    l.size (rd a) (rd b) < l.size (rd a) l.fin → l.size (rd a') (rd b') ≤ l.size (rd a) (rd b)

omit [CDouble D] in
theorem trapezoid_anti (f delta : Word) {k k' : Word} (h : k ≤ k') : trapezoid f delta k' ≤ trapezoid f delta k := by
  rw [BitVec.le_def] at h
  have hmul : (k.toNat : Int) * delta.toNat ≤ k'.toNat * delta.toNat := by exact_mod_cast Nat.mul_le_mul_right _ h
  unfold trapezoid
  omega

theorem trapezoidLaw_of_rule {l : Loop} {rd : Word → Int} {f delta : Word} {log : List (ι × Ret × Word)}
    (rule : ∀ {i a b k}, (i, some (a, b), k) ∈ log →
      (l.size (rd a) (rd b) : Int) = min ↑(l.size (rd a) l.fin) (trapezoid f delta k)) : TrapezoidLaw l rd f delta log := by
  refine ⟨rule, fun h h' hk hcut => ?_⟩
  have h1 := rule h
  have h2 := rule h'
  have h3 := trapezoid_anti f delta hk
  omega

/-- A claim that keeps to the rule: its ticket has not used up the first size, or one iteration is left, and
where the code's remaining count is short of the iterations that are left, the offer is not that count. -/
def Local.OnRule (v : View) (l : Loop) (rd : Word → Int) (f delta : Word) (s : Cells) (k : Word) : Local → Prop
  | .casNext start _ _ => s.next = start →
      (k.toNat * delta.toNat ≤ f.toNat ∨ l.size (rd start) l.fin = 1) ∧
        ∀ R ∈ v.remaining start, R.toNat < l.size (rd start) l.fin → trapezoid f delta k ≠ R.toNat
  | _ => True

instance (v : View) (l : Loop) (rd : Word → Int) (f delta : Word) (s : Cells) (k : Word) (loc : Local) :
    Decidable (loc.OnRule v l rd f delta s k) :=
  match loc with
  | .casNext start _ _ =>
    -- the instance of `Option`, not the one that tries every word
    have : Decidable (∀ R ∈ v.remaining start, R.toNat < l.size (rd start) l.fin → trapezoid f delta k ≠ R.toNat) :=
      Option.decidableForallMem _
    inferInstanceAs (Decidable (s.next = start → (k.toNat * delta.toNat ≤ f.toNat ∨ l.size (rd start) l.fin = 1) ∧
      ∀ R ∈ v.remaining start, R.toNat < l.size (rd start) l.fin → trapezoid f delta k ≠ R.toNat))
  | .idle | .loadNext _ | .loadBarrier _ | .loadChunk .. | .casChunk .. | .reloadNext _ | .reloadBarrier .. |
    .casBarrier .. | .reloadStart .. => .isTrue trivial

/-- Where the subtraction does not wrap around, the code offers what the rule offers. -/
theorem toNat_tssChunk (param : D) {f k : Word} (h : k.toNat * (tssDelta param).toNat ≤ f.toNat) :
    ((tssChunk param f k).toNat : Int) = trapezoid f (tssDelta param) k := by
  have hf := f.isLt
  have hmul : (k * tssDelta param).toNat = k.toNat * (tssDelta param).toNat := by
    rw [BitVec.toNat_mul, Nat.mod_eq_of_lt (by omega)]
  have hsub : (f - k * tssDelta param).toNat = f.toNat - k.toNat * (tssDelta param).toNat := by
    rw [toNat_sub_of_le (by rw [hmul]; exact h), hmul]
  have hone : (1 : Word).toNat = 1 := rfl
  unfold tssChunk trapezoid
  simp only
  rw [← tssDelta]
  split
  · rename_i hlt
    rw [BitVec.lt_def, hsub, hone] at hlt
    omega
  · rename_i hlt
    rw [BitVec.lt_def, hsub, hone] at hlt
    rw [hsub]
    omega

end

/-! ## Counts and iterations -/

/-- The arithmetic of an iterator counts the iterations of the loop, rounded down, and a chunk below the
count that meets `ok` ends that many iterations further. -/
structure View.Counts (v : View) (rd : Word → Int) (l : Loop) (ok : Word → Word → Prop) : Prop where
  count : ∀ {start R : Word} {k : Nat}, rd start = l.value k → k < l.trip → v.remaining start = some R →
    (R.toNat : Int) = (l.fin - l.value k).tdiv l.incr
  advance : ∀ {start chunk R : Word} {k : Nat}, rd start = l.value k → k < l.trip → v.remaining start = some R → chunk < R →
    ok start chunk → rd (v.advance start chunk) = l.value (k + chunk.toNat)

/-- The count is the number of iterations left, or one less. -/
theorem Lib.Loop.tdiv_bounds (l : Loop) {k q : Nat} (hk : k < l.trip) (hq : (q : Int) = (l.fin - l.value k).tdiv l.incr) :
    q ≤ l.trip - k ∧ l.trip - k ≤ q + 1 := by
  constructor
  · by_contra hlt
    have := l.add_lt_trip (c := l.trip - k) hk (by omega)
    omega
  · by_contra hlt
    have hq' : k + (q + 1) < l.trip := by omega
    have hsub := l.tdiv_value_add hq'
    have := l.tdiv_nonneg hq'
    omega

theorem Lib.Loop.size_value (l : Loop) {p q : Nat} (hpq : p < q) (hq : q ≤ l.trip) : l.size (l.value p) (l.pos q) = q - p := by
  unfold Loop.size
  rw [← l.pos_of_lt (by omega : p < l.trip)]
  exact l.chunk_trip hpq hq

theorem Lib.Loop.size_rest (l : Loop) {p : Nat} (hp : p < l.trip) : l.size (l.value p) l.fin = l.trip - p := by
  rw [← l.pos_trip]
  exact l.size_value hp (le_refl _)

theorem ticket_claim {D : Type} [CDouble D] {v : View} {rd : Word → Int} {l : Loop} {ok : Word → Word → Prop}
    (hs : v.Sound rd l ok) (hc : v.Counts rd l ok) {param : D} {f k start R : Word} (hon : On rd l start)
    (hR : v.remaining start = some R) (hok : ok start (tssChunk param f k))
    (hrule : (k.toNat * (tssDelta param).toNat ≤ f.toNat ∨ l.size (rd start) l.fin = 1) ∧
      ∀ R ∈ v.remaining start, R.toNat < l.size (rd start) l.fin → trapezoid f (tssDelta param) k ≠ R.toNat) :
    (l.size (rd start) (rd (v.nend start (tssChunk param f k) R)) : Int) =
      min ↑(l.size (rd start) l.fin) (trapezoid f (tssDelta param) k) := by
  obtain ⟨j, hj, hpos⟩ := hon
  rw [l.pos_of_lt hj] at hpos
  obtain ⟨hwrap, hshort⟩ := hrule
  replace hshort := hshort R hR
  have hcount := hc.count hpos hj hR
  obtain ⟨hle, hge⟩ := l.tdiv_bounds hj hcount
  rw [hpos, l.size_rest hj] at hwrap hshort ⊢
  have hpos1 : 1 ≤ trapezoid f (tssDelta param) k := le_max_left _ _
  have hchunk0 : (tssChunk param f k).toNat ≠ 0 := toNat_ne_zero (tssChunk_ne_zero param f k)
  unfold View.nend
  split
  · -- the chunk ends inside the loop
    rename_i hlt
    have hadv := hc.advance hpos hj hR hlt hok
    rw [BitVec.lt_def] at hlt
    have hin : j + (tssChunk param f k).toNat < l.trip := l.add_lt_trip hj (by rw [← hcount]; exact_mod_cast hlt)
    rw [hadv, ← l.pos_of_lt hin, l.size_value (by omega) (le_of_lt hin)]
    rcases hwrap with hwrap | hone
    · have := toNat_tssChunk param hwrap
      omega
    · omega
  · rename_i hlt
    rw [BitVec.lt_def] at hlt
    rw [hs.fin, l.size_rest hj]
    rcases hwrap with hwrap | hone
    · have := toNat_tssChunk param hwrap
      omega
    · omega

/-! ## Whole runs -/

section

variable {D : Type} [CDouble D] {ι : Type} {v : View} {rd : Word → Int} {l : Loop} {ok : Word → Word → Prop}

/-- A thread that is past its draw goes for the chunk of its ticket. -/
def Local.Ticketed (param : D) (f k : Word) : Local → Prop
  | .loadNext chunk | .casNext _ chunk _ => chunk = tssChunk param f k
  | _ => True

/-- The steps of an iterator whose claims meet `ok` and keep to the rule, with the tickets. -/
def ruled (p : Prog ι Unit Cells Local Ret) (v : View) (rd : Word → Int) (l : Loop) (ok : Word → Word → Prop)
    [∀ a b, Decidable (ok a b)] (f delta : Word) : Prog ι Unit Cells (Local × Word) (Ret × Word) :=
  (p.noted drawn).only fun _ _ s loc => loc.1.Ok ok s ∧ loc.1.OnRule v l rd f delta s loc.2

theorem ticketed_top {param : D} {f k start : Word} {loc : Local} {e : Option Ret}
    (h : v.ticketTop start (tssChunk param f k) = some (loc, e)) : loc.Ticketed param f k ∧ (e = none ∨ e = some none) := by
  rcases v.ticketTop_cases h with ⟨-, rfl, rfl⟩ | ⟨hne, nend, rfl⟩
  · exact ⟨trivial, .inr rfl⟩
  · refine ⟨rfl, .inl ?_⟩
    unfold View.ticketTop at h
    rw [if_neg hne] at h
    obtain ⟨_, _, h⟩ := Option.bind_eq_some_iff.1 h
    cases h
    rfl

/-- What a step does to the ticket of its thread, and what it claims. -/
theorem ticketed_step {param : D} {f k : Word} {i : ι} {s s' : Cells} {loc loc' : Local} {e : Option Ret}
    (hloc : loc.Ticketed param f k)
    (h : (v.ticketNext (tssChunk param f) : Prog ι Unit Cells Local Ret) i () s loc = some (s', loc', e)) :
    loc'.Ticketed param f (drawn s loc k) ∧ (e = none ∨ e = some none ∨
      ∃ start nend, loc = .casNext start (tssChunk param f k) nend ∧ s.next = start ∧ e = some (some (start, nend)) ∧
        drawn s loc k = k) := by
  have htop : ∀ {chunk r}, chunk = tssChunk param f k → v.ticketTop s.next chunk = some r →
      r.1.Ticketed param f k ∧ (r.2 = none ∨ r.2 = some none) := by
    rintro chunk r rfl ht
    exact ticketed_top ht
  cases loc with
  | idle =>
    cases h
    exact ⟨rfl, .inl rfl⟩
  | loadNext chunk =>
    obtain ⟨⟨_, _⟩, ht, h⟩ := Option.bind_eq_some_iff.1 h
    cases h
    obtain ⟨h1, h2⟩ := htop hloc ht
    exact ⟨h1, h2.imp_right Or.inl⟩
  | casNext start chunk nend =>
    simp only [View.ticketNext] at h
    split at h
    · rename_i hn
      cases h
      obtain rfl : chunk = tssChunk param f k := hloc
      exact ⟨trivial, .inr (.inr ⟨_, _, rfl, hn, rfl, rfl⟩)⟩
    · obtain ⟨⟨_, _⟩, ht, h⟩ := Option.bind_eq_some_iff.1 h
      cases h
      obtain ⟨h1, h2⟩ := htop hloc ht
      exact ⟨h1, h2.imp_right Or.inl⟩
  | loadBarrier | loadChunk | casChunk | reloadNext | reloadBarrier | casBarrier | reloadStart => cases h

variable [DecidableEq ι] [∀ a b, Decidable (ok a b)]

/-- In every run whose claims keep to the rule, each claim takes what the rule says. -/
theorem ruled_reach (hs : v.Sound rd l ok) (hc : v.Counts rd l ok) {param : D} {f : Word} {ws : GompWorkShare D}
    (hstart : rd ws.next = l.pos 0) {d : Cfg ι Cells (Local × Word) (Ret × Word)}
    (hr : Reach (ruled (v.ticketNext (tssChunk param f)) v rd l ok f (tssDelta param)) ((entry ws).annotate 0) d) :
    (∀ i, (d.loc i).1.Ticketed param f (d.loc i).2) ∧
      ∀ {i a b k}, (i, some (a, b), k) ∈ d.log →
        (l.size (rd a) (rd b) : Int) = min ↑(l.size (rd a) l.fin) (trapezoid f (tssDelta param) k) := by
  induction hr with
  | refl => exact ⟨fun _ => trivial, nofun⟩
  | @tail d _ hr hstep ih =>
    obtain ⟨hticket, hlog⟩ := ih
    -- without the tickets this is a run as before
    have hrun := Reach.erase (q := (v.ticketNext (tssChunk param f)).only fun _ _ s loc => loc.Ok ok s)
      (fun hok hp => Prog.only_eq_some.2 ⟨hok.1, hp⟩) hr
    rw [Cfg.erase_annotate rfl] at hrun
    have hkeeps := hs.ticketNext (ι := ι) ws.next (tssChunk_ne_zero param f)
    have hinv := hkeeps.reach hstart (fun h => absurd trivial h) hrun
    cases hstep with
    | mk i a hp =>
      obtain ⟨⟨hok, hrule⟩, hp⟩ := Prog.only_eq_some.1 hp
      obtain ⟨s', loc', e, hcall, hr'⟩ := Prog.noted_eq_some hp
      cases hr'
      obtain ⟨hloc', he⟩ := ticketed_step (hticket i) hcall
      refine ⟨fun j => ?_, fun {i' a' b' k'} hmem => ?_⟩
      · show (Function.update d.loc i _ j).1.Ticketed param f (Function.update d.loc i _ j).2
        by_cases hj : j = i
        · subst hj
          rw [Function.update_self]
          exact hloc'
        · rw [Function.update_of_ne hj]
          exact hticket j
      · rcases he with rfl | rfl | ⟨start, nend, hcas, hn, rfl, hk⟩
        · exact hlog hmem
        · rcases List.mem_append.1 hmem with hmem | hmem
          · exact hlog hmem
          · cases List.mem_singleton.1 hmem
        · rcases List.mem_append.1 hmem with hmem | hmem
          · exact hlog hmem
          · cases List.mem_singleton.1 hmem
            have hI : (d.loc i).1.Inv v rd l ws.next (fun _ => True) d.shared := hinv.2 i
            rw [hcas] at hI hok hrule
            obtain ⟨hon, -, -, R, hR, rfl⟩ := hI
            rw [hk]
            exact ticket_claim hs hc hon hR (hok hn) (hrule hn)

end

/-! ## The two widths -/

theorem long_counts {D : Type} {ws : GompWorkShare D} {start : Word} (hc : Countable ws start) :
    (View.long ws).Counts BitVec.toInt (signedLoop start ws.fin ws.incr hc.incr) fun _ _ => True where
  count := by
    intro s R k hs hk hR
    obtain ⟨R', hR', hint⟩ := long_remaining hc.incr hc.fits hc.trap hk hs
    cases hR'.symm.trans hR
    exact hint
  advance := by
    intro s chunk R k hs hk hR hlt _
    obtain ⟨-, hadv⟩ := long_advance hc.incr hc.fits hk hs hR hlt
    rw [hadv, Loop.value_add, hs]
    rfl

theorem ull_counts {D : Type} {ws : GompWorkShare D} {up : Bool} (start : Word) (h : ws.incr ≠ 0)
    (hmode : ws.mode = if up then 0 else 2) :
    (View.ull ws).Counts (fun w => w.toNat) (ullLoop up start ws.fin ws.incr h) (WholeDown ws up) := by
  let l := ullLoop up start ws.fin ws.incr h
  have hfin : l.fin = ws.fin.toNat := rfl
  have hcount : ∀ {s R : Word} {k : Nat}, (s.toNat : Int) = l.value k → k < l.trip → (View.ull ws).remaining s = some R →
      (R.toNat : Int) = (l.fin - l.value k).tdiv l.incr := by
    intro s R k hs hk hR
    have hbefore := (l.before_fin_iff k).2 hk
    cases up with
    | true =>
      replace hmode : ws.mode = 0 := hmode
      have hincr : l.incr = ws.incr.toNat := rfl
      have hb := (before_pos ((ullStep_pos_iff true h).2 rfl : 0 < l.incr) _ _).1 hbefore
      simp only [View.ull, hmode, if_true] at hR
      obtain ⟨-, hR⟩ := uldiv_some hR
      have hle : s.toNat ≤ ws.fin.toNat := by omega
      rw [toNat_sub_of_le hle] at hR
      rw [hR, Int.tdiv_eq_ediv_of_nonneg (by omega), Int.natCast_ediv, Nat.cast_sub hle, hfin, hincr, ← hs]
    | false =>
      replace hmode : ws.mode = 2 := hmode
      have hincr : l.incr = -((-ws.incr).toNat : Int) := rfl
      have hb := (before_neg (mt (ullStep_pos_iff false h).1 (by decide) : ¬ 0 < l.incr) _ _).1 hbefore
      simp only [View.ull, hmode] at hR
      rw [if_neg (by decide)] at hR
      obtain ⟨-, hR⟩ := uldiv_some hR
      have hle : ws.fin.toNat ≤ s.toNat := by omega
      rw [toNat_sub_of_le hle] at hR
      rw [hR, ← Int.neg_tdiv_neg, hincr, neg_neg, Int.tdiv_eq_ediv_of_nonneg (by omega), Int.natCast_ediv, Nat.cast_sub hle,
        hfin, ← hs]
      congr 1
      omega
  refine ⟨hcount, fun {s chunk R k} hs hk hR hlt hok => ?_⟩
  rcases hok with rfl | hwhole
  · replace hmode : ws.mode = 0 := hmode
    have hincr : l.incr = ws.incr.toNat := rfl
    have hq : k + chunk.toNat < l.trip := l.add_lt_trip hk (by rw [← hcount hs hk hR]; exact_mod_cast hlt)
    have hb := (before_pos ((ullStep_pos_iff true h).2 rfl : 0 < l.incr) _ _).1 ((l.before_fin_iff _).2 hq)
    have hval : (s.toNat : Int) + chunk.toNat * ws.incr.toNat = l.value (k + chunk.toNat) := by
      rw [l.value_add, hincr, ← hs]
    have hfits : s.toNat + chunk.toNat * ws.incr.toNat < 2 ^ 64 := by
      have := ws.fin.isLt
      zify
      omega
    show ((if ws.mode = 0 then s + chunk * ws.incr else _ : Word).toNat : Int) = l.value (k + chunk.toNat)
    rw [if_pos hmode, toNat_add_mul hfits, ← hval]
    push_cast
    rfl
  · exact absurd hlt (hwhole R hR)

/-! ## The iterators -/

/-- `FS_TSS`, `BO_TSS` and `FS_TRAP1`. -/
def isTss (sched : GompScheduleType) : Prop := sched = .fsTss ∨ sched = .boTss ∨ sched = .fsTrap1

/-- In every run whose claims keep to the rule, `bo_iter_tss_next` obeys the trapezoid law; so does
`bo_iter_ull_tss_next`, if in a downward loop each claim takes all that remains. -/
theorem boIterTssNext_trapezoid {D : Type} [CDouble D] {ι : Type} [DecidableEq ι] {g g' : Globals D} {team : Option U32}
    {now : Int} {ws ws' : GompWorkShare D} {start fin incr chunkSize : Word} {sched : GompScheduleType} {r : RegionId}
    (hincr : incr ≠ 0) (hsched : isTss sched) {d : Cfg ι Cells (Local × Word) (Ret × Word)} :
    (gompLoopInit g team now ws start fin incr sched chunkSize r = some (g', ws') →
      let l := shareLoop start fin incr hincr
      Reach (ruled (boIterTssNext ws') (View.long ws') BitVec.toInt l (fun _ _ => True) ws'.chunkSize (tssDelta ws'.param))
          ((entry ws').annotate 0) d →
        TrapezoidLaw l BitVec.toInt ws'.chunkSize (tssDelta ws'.param) d.log) ∧
    ∀ up, gompLoopUllInit g team now ws up start fin incr sched chunkSize r = some (g', ws') →
      let l := ullLoop up start (canonicalEndUll up start fin) incr hincr
      Reach (ruled (boIterUllTssNext ws') (View.ull ws') (fun w => w.toNat) l (WholeDown ws' up) ws'.chunkSize (tssDelta ws'.param))
          ((entry ws').annotate 0) d →
        TrapezoidLaw l (fun w => w.toNat) ws'.chunkSize (tssDelta ws'.param) d.log := by
  refine ⟨fun hinit => ?_, fun up hinit => ?_⟩
  · obtain ⟨n, hn, -⟩ := gompLoopInit_some hinit
    have hsame := gompLoopInit_sameLoop hinit
    have hnext : ws'.next = start := hsame.next
    have hfin : ws'.fin = canonicalEnd start fin incr := hsame.fin
    have hinc : ws'.incr = incr := hsame.incr
    subst hinc
    have hc : Countable ws' start := countable_of_init hincr hfin hn
    intro l hr
    have hl : l = signedLoop start ws'.fin ws'.incr hincr := by
      show shareLoop start fin ws'.incr hincr = _
      unfold shareLoop
      rw [hfin]
    have hstart : ws'.next.toInt = l.pos 0 := by
      rw [hnext, Loop.pos_zero]
      · rfl
      · exact not_before_canonicalEnd start fin hincr
    have hsound := long_sound hincr hc.fits
    have hcounts := long_counts hc
    rw [← hl] at hsound hcounts
    exact trapezoidLaw_of_rule (ruled_reach hsound hcounts hstart hr).2
  · have hsame := gompLoopUllInit_sameLoop hinit
    have hnext : ws'.next = start := hsame.next
    have hfin : ws'.fin = canonicalEndUll up start fin := hsame.fin
    have hinc : ws'.incr = incr := hsame.incr
    have hmode : ws'.mode = if up then 0 else 2 :=
      gompLoopUllInit_mode hinit (by rintro rfl; rcases hsched with h | h | h <;> cases h)
        (by rintro rfl; rcases hsched with h | h | h <;> cases h) (by rintro rfl; rcases hsched with h | h | h <;> cases h)
    subst hinc
    intro l hr
    have hl : l = ullLoop up start ws'.fin ws'.incr hincr := by
      show ullLoop up start (canonicalEndUll up start fin) ws'.incr hincr = _
      rw [hfin]
    have hstart : (ws'.next.toNat : Int) = l.pos 0 := by rw [hnext, pos_zero_ullLoop]
    have hsound := ull_sound start hincr hmode
    have hcounts := ull_counts start hincr hmode
    rw [← hl] at hsound hcounts
    exact trapezoidLaw_of_rule (ruled_reach hsound hcounts hstart hr).2

/-- A region whose stored `tss` parameter is `p`. -/
def tssTable (p : ℚ) : Globals ℚ := (Globals.fresh 1).setParam 7 { WorkloadParams.zero with tss := p }

/-- `for (i = 0; i < 8; i++)` by one thread, with a first size of 3 and a decrement of 1. -/
theorem boIterTssNext_trapezoid_eight :
    ∃ (g : Globals ℚ) (ws : GompWorkShare ℚ) (d : Cfg Unit Cells (Local × Word) (Ret × Word)),
      gompLoopInit (tssTable (7 / 8)) (some 1) 0 .zero 0 8 1 .fsTss 0 7 = some (g, ws) ∧
      returned d.erase.log = [(0, 3), (3, 5), (5, 6), (6, 7), (7, 8)] ∧
      TrapezoidLaw (shareLoop 0 8 1 (by decide)) BitVec.toInt ws.chunkSize (tssDelta ws.param) d.log := by
  have hrun : (gompLoopInit (tssTable (7 / 8)) (some 1) 0 .zero 0 8 1 .fsTss 0 7).any (fun r =>
      (exec (ruled (boIterTssNext r.2) (View.long r.2) BitVec.toInt (shareLoop 0 8 1 (by decide)) (fun _ _ => True)
          r.2.chunkSize (tssDelta r.2.param)) ((entry r.2).annotate 0) (List.replicate 15 ((), ()))).any fun d =>
        decide (returned d.erase.log = [(0, 3), (3, 5), (5, 6), (6, 7), (7, 8)])) = true := by decide +kernel
  obtain ⟨⟨g, ws⟩, hinit, hrun⟩ := (Option.any_eq_true _ _).1 hrun
  obtain ⟨d, hr, hret⟩ := exists_reach hrun
  exact ⟨g, ws, d, hinit, hret, (boIterTssNext_trapezoid (by decide) (.inl rfl)).1 hinit hr⟩

/-- `for (i = 0; i < 32; i++)` by one thread, with a first size of 7 and a decrement of 1: ticket 8 takes the
three iterations that are left. -/
theorem boIterTssNext_wraps :
    ∃ (g : Globals ℚ) (ws : GompWorkShare ℚ) (d : Cfg Unit Cells (Local × Word) (Ret × Word)),
      gompLoopInit (tssTable (31 / 32)) (some 1) 0 .zero 0 32 1 .fsTss 0 7 = some (g, ws) ∧
      Reach ((boIterTssNext ws).noted drawn) ((entry ws).annotate 0) d ∧
      ws.chunkSize = 7 ∧ tssDelta ws.param = 1 ∧ ((), some (29, 32), 8) ∈ d.log ∧
      ¬ TrapezoidLaw (shareLoop 0 32 1 (by decide)) BitVec.toInt ws.chunkSize (tssDelta ws.param) d.log := by
  have hrun : (gompLoopInit (tssTable (31 / 32)) (some 1) 0 .zero 0 32 1 .fsTss 0 7).any (fun r =>
      decide (r.2.chunkSize = 7 ∧ tssDelta r.2.param = 1) &&
      (exec ((boIterTssNext r.2).noted drawn) ((entry r.2).annotate 0) (List.replicate 27 ((), ()))).any fun d =>
        decide (((), some (29, 32), 8) ∈ d.log)) = true := by decide +kernel
  obtain ⟨⟨g, ws⟩, hinit, hrun⟩ := (Option.any_eq_true _ _).1 hrun
  obtain ⟨hsize, hrun⟩ := Bool.and_eq_true_iff.1 hrun
  obtain ⟨hchunk, hdelta⟩ := of_decide_eq_true hsize
  obtain ⟨d, hr, hmem⟩ := exists_reach hrun
  refine ⟨g, ws, d, hinit, hr, hchunk, hdelta, hmem, fun h => ?_⟩
  have hrule := h.rule hmem
  rw [show ws.chunkSize = 7 from hchunk, show tssDelta ws.param = 1 from hdelta] at hrule
  revert hrule
  decide +kernel

end Bosched
