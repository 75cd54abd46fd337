/-
Runs of a doacross loop after `gomp_loop_doacross_dynamic_start`. The cells are laid out for the
chunk size of the program, and the chunks are handed out with the one `css_chunk_size` computes: a
wait is safe when the second is a multiple of the first, or the loop is one chunk, or there are no
cells, because the thread is alone or nothing runs.
-/
import Bosched.Iter.DoacrossSafe
import Bosched.Runtime.Exact

namespace Bosched

open Lib

/-! ## Loops without cells -/

/-- What a thread alone in a loop knows: all it has left behind was posted. -/
def DoaLocal.Solo {ι : Type} (counts : List Nat) (log : List (ι × DoaEvent)) : DoaLocal → Prop
  | .taking _ => ∀ x ∈ claims log, ∀ t < x.2.2 * innerTrip counts, Posted log t
  | .body r hi => (∀ t < r, Posted log t) ∧ r < hi * innerTrip counts ∧
      ∀ x ∈ claims log, x.2.2 = hi ∨ ∀ t < x.2.2 * innerTrip counts, Posted log t
  | _ => False

section

variable {ι D : Type} {counts : List Nat} {s : Nat} {ws : GompWorkShare D} {i : ι} {log : List (ι × DoaEvent)}
  {st st' : DoaState}

/-- The first iteration of a chunk: the chunk before it was posted to its end. -/
theorem solo_afterTake {dl : DynLocal} {e : Option Ret} (hs : 0 < s)
    (hI : ∀ x ∈ claims log, ∀ t < x.2.2 * innerTrip counts, Posted log t)
    (hc' : Cuts counts.headI s (claims (logged log i (e.map .returned)))) :
    (afterTake counts dl e).Solo counts (logged log i (e.map .returned)) := by
  have hold : ∀ {t} {r : Ret}, Posted log t → Posted (log ++ [(i, .returned r)]) t := fun ht => posted_append.2 (.inl ht)
  rcases e with - | - | ⟨lo, hi⟩
  · exact hI
  · intro x hx t ht
    rw [Option.map_some, logged_some, claims_append] at hx
    exact hold (hI x (by simpa [claims] using hx) t ht)
  · rw [Option.map_some, logged_some] at hc' ⊢
    have hcl : claims (log ++ [(i, .returned (some (lo, hi)))]) = claims log ++ [(i, lo.toNat, hi.toNat)] := claims_append _ _ _
    have hmem : (i, lo.toNat, hi.toNat) ∈ claims (log ++ [(i, .returned (some (lo, hi)))]) := by
      rw [hcl]; simp
    have hx : ∀ x ∈ claims (log ++ [(i, .returned (some (lo, hi)))]),
        x.2.2 = hi.toNat ∨ ∀ t < x.2.2 * innerTrip counts, Posted (log ++ [(i, .returned (some (lo, hi)))]) t := by
      intro x hx
      rw [hcl] at hx
      rcases List.mem_append.1 hx with hx | hx
      · exact .inr fun t ht => hold (hI x hx t ht)
      · rw [List.mem_singleton] at hx
        exact .inl (by rw [hx])
    unfold afterTake
    dsimp only
    split
    · rename_i h0
      intro x _ t ht
      rw [h0] at ht
      omega
    · rename_i hpos
      obtain ⟨j, hj, hlo, hhi⟩ := hc'.mem hmem
      refine ⟨fun t ht => ?_, Nat.mul_lt_mul_of_pos_right ?_ (Nat.pos_of_ne_zero hpos), hx⟩
      · cases j with
        | zero => rw [hlo, Nat.zero_mul, Nat.zero_mul] at ht; omega
        | succ j =>
          obtain ⟨i', hmem'⟩ := hc'.before hmem (j := j) (by rw [hlo, Nat.succ_mul]; omega)
          rw [Nat.min_eq_left (le_of_lt hj), ← hlo, hcl] at hmem'
          rcases List.mem_append.1 hmem' with hmem' | hmem'
          · exact hold (hI _ hmem' t ht)
          · rw [List.mem_singleton, Prod.mk.injEq, Prod.mk.injEq, hlo, Nat.succ_mul] at hmem'
            omega
      · rw [hlo, hhi, Nat.succ_mul]; omega

theorem solo_step {a : DoaAct} {loc loc' : DoaLocal} {e : Option DoaEvent} (hs : 0 < s) (hS : WaitsSafe log)
    (hI : loc.Solo counts log) (hc' : Cuts counts.headI s (claims (logged log i e)))
    (hp : doacrossThread ws counts none i a st loc = some (st', loc', e)) :
    WaitsSafe (logged log i e) ∧ loc'.Solo counts (logged log i e) := by
  cases loc with
  | taking dl =>
    cases a with
    | wait t => cases hp
    | run =>
      obtain ⟨⟨next, dl', r⟩, -, hp⟩ := Option.bind_eq_some_iff.1 hp
      cases hp
      refine ⟨?_, solo_afterTake hs hI hc'⟩
      cases r with
      | none => exact hS
      | some r => exact hS.append nofun
  | body r hi =>
    obtain ⟨hbelow, hlt, hx⟩ := hI
    cases a with
    | run =>
      cases hp
      have hold : ∀ {t}, Posted log t → Posted (log ++ [(i, .posted r)]) t := fun ht => posted_append.2 (.inl ht)
      have hbelow' : ∀ t < r + 1, Posted (log ++ [(i, .posted r)]) t := by
        intro t ht
        rcases Nat.lt_succ_iff_lt_or_eq.1 ht with ht | rfl
        · exact hold (hbelow t ht)
        · exact posted_append.2 (.inr rfl)
      refine ⟨hS.append nofun, ?_⟩
      unfold nextIteration
      split
      · rename_i hlt'
        refine ⟨hbelow', hlt', fun x hmem => ?_⟩
        rw [logged_some, claims_posted] at hmem
        exact (hx x hmem).imp_right fun hall t ht => hold (hall t ht)
      · rename_i hge
        intro x hmem t ht
        rw [logged_some, claims_posted] at hmem
        rcases hx x hmem with heq | hall
        · rw [heq] at ht
          exact hbelow' t (by omega)
        · exact hold (hall t ht)
    | wait t =>
      simp only [doacrossThread] at hp
      split at hp
      · rename_i ht
        cases hp
        have hold : ∀ {t'}, Posted log t' → Posted (log ++ [(i, .waited t)]) t' := fun ht => posted_append.2 (.inl ht)
        refine ⟨hS.append fun t' ht' => ?_, fun t' ht' => hold (hbelow t' ht'), hlt, fun x hmem => ?_⟩
        · cases ht'; exact hbelow t ht
        · rw [logged_some, claims_waited] at hmem
          exact (hx x hmem).imp_right fun hall t' ht' => hold (hall t' ht')
      · cases hp
  | _ => exact hI.elim

/-- A thread alone in a loop posts everything in order. -/
theorem waitsSafe_of_solo [DecidableEq ι] [Subsingleton ι] {c : Cfg ι DoaState DoaLocal DoaEvent} (hs : 0 < s)
    (hcuts : ∀ c, Reach (doacrossThread ws counts none) (doaEntry ws : Cfg ι DoaState DoaLocal DoaEvent) c →
      Cuts counts.headI s (claims c.log))
    (hr : Reach (doacrossThread ws counts none) (doaEntry ws) c) :
    WaitsSafe c.log ∧ ∀ j, (c.loc j).Solo counts c.log := by
  induction hr with
  | refl =>
    refine ⟨fun pre j t post heq => ?_, fun j => nofun⟩
    simp [doaEntry] at heq
  | @tail b b' hb hstep ih =>
    obtain ⟨hS, hI⟩ := ih
    have hc' := hcuts b' (hb.tail hstep)
    cases hstep with
    | @mk i a st loc e hp =>
      obtain ⟨hS', hI'⟩ := solo_step hs hS (hI i) hc' hp
      refine ⟨hS', fun j => ?_⟩
      obtain rfl := Subsingleton.elim j i
      simpa only [Function.update_self] using hI'

/-- In a loop with a zero count no iteration runs. -/
theorem waitsSafe_of_zero [DecidableEq ι] {c : Cfg ι DoaState DoaLocal DoaEvent} (h0 : 0 ∈ counts)
    (hcuts : ∀ c, Reach (doacrossThread ws counts none) (doaEntry ws : Cfg ι DoaState DoaLocal DoaEvent) c →
      Cuts counts.headI s (claims c.log))
    (hr : Reach (doacrossThread ws counts none) (doaEntry ws) c) :
    WaitsSafe c.log ∧ ∀ j, ∃ dl, c.loc j = .taking dl := by
  induction hr with
  | refl =>
    refine ⟨fun pre j t post heq => ?_, fun j => ⟨_, rfl⟩⟩
    simp [doaEntry] at heq
  | @tail b b' hb hstep ih =>
    obtain ⟨hS, hI⟩ := ih
    have hc' := hcuts b' (hb.tail hstep)
    cases hstep with
    | @mk i a st loc e hp =>
      obtain ⟨dl, hdl⟩ := hI i
      rw [hdl] at hp
      cases a with
      | wait t => cases hp
      | run =>
        obtain ⟨⟨next, dl', r⟩, -, hp⟩ := Option.bind_eq_some_iff.1 hp
        cases hp
        have htake : ∃ dl, afterTake counts dl' r = .taking dl := by
          rcases r with - | - | ⟨lo, hi⟩
          · exact ⟨_, rfl⟩
          · exact ⟨_, rfl⟩
          · -- a chunk means that the outermost count is not the zero one
            have hmem : (i, lo.toNat, hi.toNat) ∈ claims (b.log ++ [(i, .returned (some (lo, hi)))]) := by
              rw [claims_append]; simp [claims]
            obtain ⟨j, hj, -, -⟩ := hc'.mem hmem
            have hinner : innerTrip counts = 0 := by
              cases counts with
              | nil => cases h0
              | cons k ks =>
                rcases List.mem_cons.1 h0 with rfl | h0
                · exact absurd hj (Nat.not_lt_zero _)
                · exact List.prod_eq_zero h0
            refine ⟨dl', ?_⟩
            unfold afterTake
            dsimp only
            rw [if_pos hinner]
        refine ⟨?_, fun j => ?_⟩
        · cases r with
          | none => exact hS
          | some r => exact hS.append (by rintro t ⟨⟩)
        · by_cases hj : j = i
          · subst hj
            simpa only [Function.update_self] using htake
          · simpa only [Function.update_of_ne hj] using hI j

end

/-! ## After `gomp_loop_doacross_dynamic_start` -/

section

variable {D : Type} [CDouble D]

/-- The chunk size of a doacross loop over `counts` in a work share. -/
def doacrossChunkSize (ws : GompWorkShare D) (team : Option U32) (counts : List Nat) : Nat :=
  (cssChunkSize ws.param (BitVec.ofNat 64 counts.headI) (teamNthreads team)).toNat

/-- Cells of `c` outer iterations never straddle chunks, or nobody uses them. -/
def CellsMatchChunks (ws : GompWorkShare D) (team : Option U32) (counts : List Nat) (c : Nat) : Prop :=
  c ∣ doacrossChunkSize ws team counts ∨ counts.headI ≤ doacrossChunkSize ws team counts ∨
    team = none ∨ team = some 1 ∨ 0 ∈ counts

theorem headI_lt {counts : List Nat} (hlt : ∀ k ∈ counts, k < 2 ^ 63) : counts.headI < 2 ^ 63 := by
  cases counts with
  | nil => show (0 : Nat) < 2 ^ 63; decide
  | cons k ks => exact hlt k List.mem_cons_self

/-- The work share of the outermost loop. -/
theorem dynShare_of_doacross {g g' : Globals D} {team : Option U32} {now : Int} {ws ws' : GompWorkShare D}
    {counts : List Nat} {c : Nat} {doa : Option Doacross} (hlt : ∀ k ∈ counts, k < 2 ^ 63)
    (hinit : gompLoopDoacrossDynamicInit g team now ws counts c = some (g', ws', doa)) :
    doa = gompDoacrossInit team counts c ∧ (0 < counts.headI → 0 < doacrossChunkSize ws team counts) ∧
    ∃ l : Loop, l.start = 0 ∧ l.incr = 1 ∧ l.fin = counts.headI ∧
      DynShare ws' l (doacrossChunkSize ws team counts) (teamNthreads team).toNat := by
  obtain ⟨⟨g1, ws1⟩, hloop, heq⟩ := Option.bind_eq_some_iff.1 hinit
  cases heq
  have hhead := headI_lt hlt
  have hn : (BitVec.ofNat 64 counts.headI).toInt = counts.headI := by
    rw [BitVec.toInt_eq_toNat_cond, BitVec.toNat_ofNat, Nat.mod_eq_of_lt (by omega), if_pos (by omega)]
  have hone : (1 : Word) ≠ 0 := by decide
  obtain ⟨n, param, hnt, hparam, hshare⟩ := dynShare_of_init hone rfl hloop
  have hcan : canonicalEnd 0 (BitVec.ofNat 64 counts.headI) 1 = BitVec.ofNat 64 counts.headI := by
    rw [canonicalEnd_eq, if_neg]
    rintro ⟨-, hb⟩
    rw [toInt_one, before_pos one_pos, hn] at hb
    exact absurd hb (by show ¬ (counts.headI : Int) < 0; omega)
  -- the number of tasks is the outermost count
  obtain ⟨-, -, hnval⟩ := numTasks_some hnt
  rw [hcan, toInt_one, Int.tdiv_one, hn] at hnval
  obtain rfl : n = BitVec.ofNat 64 counts.headI :=
    BitVec.toInt_inj.1 (by rw [hnval, hn]; show (counts.headI : Int) - 0 = counts.headI; omega)
  rw [hparam rfl] at hshare
  refine ⟨rfl, fun hpos => ?_, _, rfl, rfl, ?_, hshare⟩
  · obtain ⟨h0, -, h1⟩ := clip_bounds (CDouble.toLong (cssRaw ws.param (CDouble.ofLong (BitVec.ofNat 64 counts.headI))
      (teamNthreads team))) (numTasks_nonneg hnt)
    have h1 := h1 (by rw [hn]; omega)
    have h2 := toNat_of_toInt_nonneg h0
    unfold doacrossChunkSize cssChunkSize
    omega
  · show (canonicalEnd 0 (BitVec.ofNat 64 counts.headI) 1).toInt = counts.headI
    rw [hcan, hn]

/-- The layout of the cells, where there are any. -/
theorem cellInChunk_of_init {team : Option U32} {counts : List Nat} {c s : Nat} {d : Doacross} (hne : counts ≠ [])
    (hlt : ∀ k ∈ counts, k < 2 ^ 63) (hd : gompDoacrossInit team counts c = some d) (hs : 0 < s)
    (hcs : c ∣ s ∨ counts.headI ≤ s) : CellInChunk counts d s := by
  unfold gompDoacrossInit at hd
  split at hd
  · cases hd
  · split at hd
    · cases hd
    · rename_i hzero
      cases hd
      have hpos : ∀ k ∈ counts, 0 < k := fun k hk => Nat.pos_of_ne_zero fun h0 => hzero (h0 ▸ hk)
      refine ⟨hs, hne, hpos, hlt, rfl, rfl, fun hflat => of_decide_eq_true hflat, fun t ht y hy hent => ?_⟩
      unfold entOf at hent
      unfold chunkOf
      dsimp only at hent
      rcases hcs with ⟨m, rfl⟩ | hhead
      · rw [← Nat.div_div_eq_div_mul, ← Nat.div_div_eq_div_mul, hent]
      · -- one chunk
        have hone : ∀ r < counts.prod, r / innerTrip counts / s = 0 := by
          intro r hr
          cases counts with
          | nil => exact absurd rfl hne
          | cons k ks =>
            rw [List.prod_cons] at hr
            refine Nat.div_eq_of_lt (lt_of_lt_of_le (Nat.div_lt_of_lt_mul ?_) hhead)
            rwa [mul_comm]
        rw [hone t ht, hone y hy]

/-- Where the cells match the chunks, no wait for an iteration returns before it was posted,
whatever the interleaving. -/
theorem gompDoacrossWait_after_post {g g' : Globals D} {team : Option U32} {now : Int} {ws ws' : GompWorkShare D}
    {counts : List Nat} {c : Nat} {doa : Option Doacross} (hne : counts ≠ []) (hlt : ∀ k ∈ counts, k < 2 ^ 63)
    (hinit : gompLoopDoacrossDynamicInit g team now ws counts c = some (g', ws', doa))
    (hmatch : CellsMatchChunks ws team counts c)
    {cfg : Cfg (Fin (teamNthreads team).toNat) DoaState DoaLocal DoaEvent}
    (hr : Reach (doacrossThread ws' counts doa) (doaEntry ws') cfg) : WaitsSafe cfg.log := by
  obtain ⟨rfl, hspos, l, h0, h1, hfin, hshare⟩ := dynShare_of_doacross hlt hinit
  have hshare' : DynShare ws' l (doacrossChunkSize ws team counts)
      (Fintype.card (Fin (teamNthreads team).toNat)) := by
    rw [Fintype.card_fin]
    exact hshare
  have hcuts : ∀ doa (cfg : Cfg (Fin (teamNthreads team).toNat) DoaState DoaLocal DoaEvent),
      Reach (doacrossThread ws' counts doa) (doaEntry ws') cfg →
        Cuts counts.headI (doacrossChunkSize ws team counts) (claims cfg.log) :=
    fun doa cfg hr => cuts_of_reach hshare' h0 h1 hfin hr
  by_cases hzero : 0 ∈ counts
  · have hd : gompDoacrossInit team counts c = none := by
      unfold gompDoacrossInit
      rw [if_pos hzero, ite_self]
    rw [hd] at hr
    exact (waitsSafe_of_zero hzero (hcuts none) hr).1
  · have hhead : 0 < counts.headI := by
      cases counts with
      | nil => exact absurd rfl hne
      | cons k ks => exact Nat.pos_of_ne_zero fun h0 => hzero (h0 ▸ List.mem_cons_self)
    have hs := hspos hhead
    by_cases hteam : team = none ∨ team = some 1
    · have hd : gompDoacrossInit team counts c = none := by
        unfold gompDoacrossInit
        rw [if_pos hteam]
      have : Subsingleton (Fin (teamNthreads team).toNat) := by
        rcases hteam with rfl | rfl <;> exact inferInstanceAs (Subsingleton (Fin 1))
      rw [hd] at hr
      exact (waitsSafe_of_solo hs (hcuts none) hr).1
    · have hd : ∃ d, gompDoacrossInit team counts c = some d := by
        unfold gompDoacrossInit
        rw [if_neg hteam, if_neg hzero]
        exact ⟨_, rfl⟩
      obtain ⟨d, hd⟩ := hd
      have hcell := cellInChunk_of_init hne hlt hd hs (by
        rcases hmatch with hm | hm | hm | hm | hm
        · exact .inl hm
        · exact .inr hm
        · exact absurd (.inl hm) hteam
        · exact absurd (.inr hm) hteam
        · exact absurd hm hzero)
      rw [hd] at hr
      obtain ⟨src, hG, -⟩ := posts_of_reach hcell (hcuts (some d)) hr
      exact hG.safe

end

/-- Two threads, three iterations and `schedule(dynamic, 1)` in a zeroed work share: there both
chunk sizes are one. -/
theorem gompDoacrossWait_after_post_one :
    ∃ (g : Globals ℚ) (ws : GompWorkShare ℚ) (doa : Option Doacross),
      gompLoopDoacrossDynamicInit (.fresh 2) (some 2) 0 .zero [3] 1 = some (g, ws, doa) ∧
      ∀ cfg : Cfg (Fin 2) DoaState DoaLocal DoaEvent, Reach (doacrossThread ws [3] doa) (doaEntry ws) cfg →
        WaitsSafe cfg.log := by
  have hinit : (gompLoopDoacrossDynamicInit (D := ℚ) (.fresh 2) (some 2) 0 .zero [3] 1).any (fun _ => true) = true := by
    decide +kernel
  obtain ⟨⟨g, ws, doa⟩, hinit, -⟩ := (Option.any_eq_true _ _).1 hinit
  exact ⟨g, ws, doa, hinit, fun cfg hr =>
    gompDoacrossWait_after_post (by decide) (by decide) hinit (.inl (one_dvd _)) hr⟩

/-- Two threads, three iterations and `schedule(dynamic, 2)` in a zeroed work share: the chunks are
single iterations, and the post of iteration 1 lets iteration 2 past its wait for iteration 0. -/
theorem gompDoacrossWait_before_post :
    ∃ (g : Globals ℚ) (ws : GompWorkShare ℚ) (doa : Option Doacross) (cfg : Cfg (Fin 2) DoaState DoaLocal DoaEvent),
      gompLoopDoacrossDynamicInit (.fresh 2) (some 2) 0 .zero [3] 2 = some (g, ws, doa) ∧
      Reach (doacrossThread ws [3] doa) (doaEntry ws) cfg ∧ ¬ WaitsSafe cfg.log := by
  have hrun : (gompLoopDoacrossDynamicInit (D := ℚ) (.fresh 2) (some 2) 0 .zero [3] 2).any (fun r =>
      (exec (doacrossThread r.2.1 [3] r.2.2) (doaEntry r.2.1) [((0 : Fin 2), DoaAct.run), (1, .run), (1, .run), (1, .run),
        (1, .run), (1, .wait 0), (1, .run)]).any fun c => decide (c.log = [(0, .returned (some (0, 1))),
          (1, .returned (some (1, 2))), (1, .posted 1), (1, .returned (some (2, 3))), (1, .waited 0)])) = true := by
    decide +kernel
  obtain ⟨⟨g, ws, doa⟩, hinit, hrun⟩ := (Option.any_eq_true _ _).1 hrun
  obtain ⟨cfg, hr, hlog⟩ := exists_reach hrun
  refine ⟨g, ws, doa, cfg, hinit, hr, fun hsafe => ?_⟩
  obtain ⟨i, hi⟩ := hsafe [(0, .returned (some (0, 1))), (1, .returned (some (1, 2))), (1, .posted 1),
    (1, .returned (some (2, 3)))] 1 0 [] hlog
  simp at hi

end Bosched
