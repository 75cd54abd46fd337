/-
The ranges one thread is given by `gomp_iter_binlpt_next`: the maximal runs of the task map that
belong to it, from left to right, whatever the other threads do in between. The search counts the
tasks in an `int`.
-/
import Bosched.Iter.Binlpt
import Bosched.Lib.Runs

namespace Bosched

open Lib

variable {D : Type}

/-- Task `k` belongs to thread `t`. -/
def Owned (ws : GompWorkShare D) (t k : Nat) : Prop := ws.taskmap[k]? = some (BitVec.ofNat 32 t)

instance (ws : GompWorkShare D) (t : Nat) : DecidablePred (Owned ws t) :=
  fun _ => inferInstanceAs (Decidable (_ = _))

/-- The ranges returned to thread `t`, oldest first. -/
def threadChunks {P : Nat} (t : Fin P) (log : List (Fin P × Ret)) : List (Int × Int) :=
  chunks BitVec.toInt (log.filter fun x => x.1 = t)

/-- The values of the loop variable for a run of tasks. -/
def span (ws : GompWorkShare D) (r : Nat × Nat) : Int × Int := (ws.loopStart.toInt + r.1, ws.loopStart.toInt + r.2)

theorem threadChunks_other {P : Nat} {t i : Fin P} (h : i ≠ t) (log : List (Fin P × Ret)) (e : Ret) :
    threadChunks t (log ++ [(i, e)]) = threadChunks t log := by
  unfold threadChunks
  rw [List.filter_append, List.filter_cons_of_neg (by simpa using h), List.filter_nil, List.append_nil]

theorem threadChunks_none {P : Nat} (t : Fin P) (log : List (Fin P × Ret)) :
    threadChunks t (log ++ [(t, none)]) = threadChunks t log := by
  unfold threadChunks
  rw [List.filter_append, List.filter_cons_of_pos (by simp), List.filter_nil, chunks_none]

theorem threadChunks_some {P : Nat} (t : Fin P) (log : List (Fin P × Ret)) (a b : Word) :
    threadChunks t (log ++ [(t, some (a, b))]) = threadChunks t log ++ [(a.toInt, b.toInt)] := by
  unfold threadChunks
  rw [List.filter_append, List.filter_cons_of_pos (by simp), List.filter_nil, chunks_some]

/-! ## The cursor of a thread -/

section

variable {g : Globals D} {ws : GompWorkShare D} {P : Nat}

/-- The runs of thread `t` before its cursor have been returned, the ones after it have not, and
there are none left once it was told false. -/
def CursorAt (g : Globals D) (ws : GompWorkShare D) (ts : List U32) (log : List (Fin P × Ret)) (t : Fin P) : Prop :=
  ∃ s past rest, ts[t.val]? = some s ∧ RunsFrom (Owned ws t) g.ntasks.toNat 0 (past ++ rest) ∧
    RunsFrom (Owned ws t) g.ntasks.toNat s.toNat rest ∧ threadChunks t log = past.map (span ws) ∧
    ((t, none) ∈ log → rest = [])

theorem CursorAt.handed {tid : Fin P} {start : U32} {ts ts' : List U32} {i j : Nat} {a b : Word}
    {log : List (Fin P × Ret)} (hc : CursorAt g ws ts log tid) (h : Handed g ws tid start ts ts' i j a b)
    (hstart : ts[tid.val]? = some start) : CursorAt g ws ts' (log ++ [(tid, some (a, b))]) tid := by
  obtain ⟨s, past, rest, hs, hall, hrest, hchunks, hdone⟩ := hc
  cases hstart.symm.trans hs
  obtain ⟨hb1, hb2, hb3, hb4⟩ := h.bounds
  have hend : j = g.ntasks.toNat ∨ ¬ Owned ws tid j := by
    rcases Nat.lt_or_eq_of_le hb3 with hlt | heq
    · obtain ⟨x, hx, hstop⟩ := h.run.at_end hlt
      right
      unfold Owned
      rw [hx]
      simpa using hstop
    · exact .inl heq
  -- the call returns the first of the runs that are left
  obtain ⟨rest', rfl, hrest'⟩ := hrest.unique hb1 hb2 hb3 (fun m h1 h2 => h.not_mine h1 h2) (fun m h1 h2 => h.mine h1 h2) hend
  have hlen : tid.val < ts.length := (List.getElem?_eq_some_iff.1 hs).1
  have hj : (BitVec.ofNat 32 j).toNat = j := by
    rw [BitVec.toNat_ofNat]
    exact Nat.mod_eq_of_lt (by omega)
  refine ⟨BitVec.ofNat 32 j, past ++ [(i, j)], rest', ?_, ?_, by rw [hj]; exact hrest', ?_, fun hmem => ?_⟩
  · rw [h.entry, List.getElem?_set_self hlen]
  · rwa [List.append_assoc]
  · rw [threadChunks_some, hchunks, List.map_append, h.first, h.last]
    rfl
  · have hmem' : (tid, none) ∈ log := by simpa using hmem
    exact absurd (hdone hmem') (List.cons_ne_nil _ _)

theorem CursorAt.told_false {tid : Fin P} {start : U32} {ts : List U32} {i : Nat} {log : List (Fin P × Ret)}
    (hc : CursorAt g ws ts log tid) (h : Found ws.taskmap g.ntasks.toNat (· = BitVec.ofNat 32 tid) start.toNat i)
    (hge : g.ntasks.toNat ≤ i) (hstart : ts[tid.val]? = some start) : CursorAt g ws ts (log ++ [(tid, none)]) tid := by
  obtain ⟨s, past, rest, hs, hall, hrest, hchunks, hdone⟩ := hc
  cases hstart.symm.trans hs
  have hnil : rest = [] := hrest.eq_nil fun m h1 h2 => by
    obtain ⟨x, hx, hstop⟩ := h.before m h1 (by omega)
    unfold Owned
    rw [hx]
    simpa using hstop
  exact ⟨start, past, rest, hs, hall, hrest, by rw [threadChunks_none]; exact hchunks, fun _ => hnil⟩

theorem CursorAt.other {tid t : Fin P} {ts ts' : List U32} {log : List (Fin P × Ret)} {e : Ret}
    (hc : CursorAt g ws ts log t) (ht : tid ≠ t) (hts : ts'[t.val]? = ts[t.val]?) :
    CursorAt g ws ts' (log ++ [(tid, e)]) t := by
  obtain ⟨s, past, rest, hs, hall, hrest, hchunks, hdone⟩ := hc
  refine ⟨s, past, rest, hts.trans hs, hall, hrest, by rw [threadChunks_other ht]; exact hchunks, fun hmem => hdone ?_⟩
  simpa [Ne.symm ht] using hmem

/-- In every run each thread's cursor parts its runs into those returned and those to come. -/
theorem CursorAt.reach {c : Cfg (Fin P) (List U32) Unit Ret} (hentry : ws.threadStart = List.replicate P 0)
    (hr : Reach (gompIterBinlptNext g ws) (binlptEntry ws) c) (t : Fin P) : CursorAt g ws c.shared c.log t := by
  induction hr with
  | refl =>
    obtain ⟨rs, hrs⟩ := exists_runsFrom (p := Owned ws t) g.ntasks.toNat g.ntasks.toNat (by omega : _ ≤ 0 + _)
    refine ⟨0, [], rs, ?_, hrs, hrs, rfl, nofun⟩
    show ws.threadStart[t.val]? = some 0
    rw [hentry, List.getElem?_replicate_of_lt t.isLt]
  | @tail d _ _ hs ih =>
    cases hs with
    | @mk tid _ ts' l e hp =>
      obtain ⟨start, hstart, ⟨i, hfound, hge, rfl, rfl⟩ | ⟨i, j, a, b, h, rfl⟩⟩ := gompIterBinlptNext_cases hp
      · by_cases ht : tid = t
        · subst ht
          exact ih.told_false hfound hge hstart
        · exact ih.other ht rfl
      · by_cases ht : tid = t
        · subst ht
          exact ih.handed h hstart
        · refine ih.other ht ?_
          rw [h.entry, List.getElem?_set_ne fun heq => ht (Fin.ext heq)]

/-! ## Coverage -/

/-- At a state of a run: the next call of every thread succeeds, each thread was given the first of
its maximal runs, in increasing order, and all of them if it was told false; and once every thread
was, each task has been handed out once, to the thread it belongs to. -/
structure BinlptCoverage (g : Globals D) (ws : GompWorkShare D) (c : Cfg (Fin P) (List U32) Unit Ret) : Prop where
  safe : ∀ t : Fin P, (gompIterBinlptNext g ws t () c.shared ()).isSome
  inOrder : ∀ t : Fin P, ∃ rs, RunsOf (Owned ws t) g.ntasks.toNat rs ∧
    (∃ m, threadChunks t c.log = (rs.take m).map (span ws)) ∧
    ((t, none) ∈ c.log → threadChunks t c.log = rs.map (span ws))
  once : (∀ t : Fin P, (t, none) ∈ c.log) → ∀ k < g.ntasks.toNat, ∀ t : Fin P,
    (threadChunks t c.log).countP (fun r => r.1 ≤ ws.loopStart.toInt + k ∧ ws.loopStart.toInt + k < r.2) =
      if Owned ws t k then 1 else 0

/-- Whatever calls succeed, they return the runs in order. -/
theorem binlptCoverage_of_safe {c : Cfg (Fin P) (List U32) Unit Ret} (hentry : ws.threadStart = List.replicate P 0)
    (hr : Reach (gompIterBinlptNext g ws) (binlptEntry ws) c)
    (hsafe : ∀ t : Fin P, (gompIterBinlptNext g ws t () c.shared ()).isSome) : BinlptCoverage g ws c := by
  refine ⟨hsafe, fun t => ?_, fun hdone k hk t => ?_⟩
  · obtain ⟨s, past, rest, -, hall, -, hchunks, hfalse⟩ := CursorAt.reach hentry hr t
    refine ⟨past ++ rest, hall.runsOf, ⟨past.length, ?_⟩, fun hmem => ?_⟩
    · rw [List.take_left, hchunks]
    · rw [hfalse hmem, List.append_nil, hchunks]
  · obtain ⟨s, past, rest, -, hall, -, hchunks, hfalse⟩ := CursorAt.reach hentry hr t
    rw [hfalse (hdone t), List.append_nil] at hall
    rw [hchunks, List.countP_map, ← hall.countP (Nat.zero_le k) hk]
    refine List.countP_congr fun r _ => ?_
    simp only [Function.comp, decide_eq_true_eq]
    show (ws.loopStart.toInt + r.1 ≤ ws.loopStart.toInt + k ∧ ws.loopStart.toInt + k < ws.loopStart.toInt + r.2) ↔ _
    omega

end

/-- In every run the calls cover the task map in this way, exactly if the tasks can be counted in
an `int` and the last position is a `long`. -/
theorem gompIterBinlptNext_coverage_iff {g : Globals D} {ws : GompWorkShare D} {nthreads : U32}
    (hlen : g.ntasks.toNat ≤ ws.taskmap.length) (hmap : ∀ k < g.ntasks.toNat, TeamTask ws nthreads.toNat k)
    (hentry : ws.threadStart = List.replicate nthreads.toNat 0) :
    (∀ c : Cfg (Fin nthreads.toNat) (List U32) Unit Ret, Reach (gompIterBinlptNext g ws) (binlptEntry ws) c →
        BinlptCoverage g ws c) ↔
      g.ntasks.toNat < 2 ^ 31 ∧ (g.ntasks.toNat = 0 ∨ ws.loopStart.toInt + g.ntasks.toNat < 2 ^ 63) := by
  have hP : nthreads.toNat < 2 ^ 32 := nthreads.isLt
  constructor
  · intro hall
    by_cases h0 : g.ntasks.toNat = 0
    · exact ⟨by omega, .inl h0⟩
    · obtain ⟨c, hr, hdone⟩ := exists_all_done hP hentry fun c hr => (hall c hr).safe
      have hrun := BinlptRun.reach hP hentry hr
      -- the last task was handed out
      obtain ⟨x, s, -, hs, hlt⟩ := (hrun.handedOut_iff hdone (g.ntasks.toNat - 1)).2 ⟨by omega, hmap _ (by omega)⟩
      rcases hrun.entry hs with rfl | ⟨hle, -, hint, hfit⟩
      · exact absurd hlt (Nat.not_lt_zero _)
      · have hsN : s.toNat = g.ntasks.toNat := by omega
        rw [hsN] at hint hfit
        exact ⟨hint, .inr hfit⟩
  · rintro ⟨hint, hfits⟩ c hr
    exact binlptCoverage_of_safe hentry hr ((BinlptRun.reach hP hentry hr).isSome hlen hint hfits)

/-- Two threads, the task map `[1, 0, 0]` from loop variable 3 on. -/
theorem gompIterBinlptNext_coverage_three :
    ∃ (g : Globals ℚ) (ws : GompWorkShare ℚ), g.ntasks = 3 ∧ ws.taskmap = [1, 0, 0] ∧
      ∀ c : Cfg (Fin (2 : U32).toNat) (List U32) Unit Ret, Reach (gompIterBinlptNext g ws) (binlptEntry ws) c →
        BinlptCoverage g ws c := by
  let g : Globals ℚ := { (Globals.fresh 2 : Globals ℚ) with ntasks := 3 }
  let ws : GompWorkShare ℚ :=
    { (GompWorkShare.zero : GompWorkShare ℚ) with taskmap := [1, 0, 0], threadStart := [0, 0], loopStart := 3 }
  have hlen : g.ntasks.toNat ≤ ws.taskmap.length := by decide
  have hmap : ∀ k < g.ntasks.toNat, TeamTask ws (2 : U32).toNat k := by
    intro k hk
    have hk3 : k < 3 := hk
    interval_cases k <;> exact ⟨_, rfl, by decide⟩
  have hentry : ws.threadStart = List.replicate (2 : U32).toNat 0 := rfl
  exact ⟨g, ws, rfl, rfl, (gompIterBinlptNext_coverage_iff hlen hmap hentry).2 ⟨by decide, .inr (by decide)⟩⟩

/-- One thread and `2^31` tasks: its first call counts beyond the range of an `int`. -/
theorem gompIterBinlptNext_overflows :
    ∃ (g : Globals ℚ) (ws : GompWorkShare ℚ), g.ntasks.toNat = 2 ^ 31 ∧ g.ntasks.toNat ≤ ws.taskmap.length ∧
      (∀ k < g.ntasks.toNat, TeamTask ws 1 k) ∧ ws.threadStart = List.replicate 1 0 ∧
      ¬ ∀ c : Cfg (Fin 1) (List U32) Unit Ret, Reach (gompIterBinlptNext g ws) (binlptEntry ws) c →
        BinlptCoverage g ws c := by
  obtain ⟨n, hn⟩ : ∃ n : Nat, n = 2 ^ 31 := ⟨_, rfl⟩
  let g : Globals ℚ := { (Globals.fresh 1 : Globals ℚ) with ntasks := BitVec.ofNat 32 n }
  let ws : GompWorkShare ℚ :=
    { (GompWorkShare.zero : GompWorkShare ℚ) with taskmap := List.replicate n 0, threadStart := [0] }
  have hN : g.ntasks.toNat = n := by
    show (BitVec.ofNat 32 n).toNat = n
    rw [BitVec.toNat_ofNat, Nat.mod_eq_of_lt (by omega)]
  have hmap : ∀ {k : Nat}, k < n → ws.taskmap[k]? = some 0 := fun hk => List.getElem?_replicate_of_lt hk
  refine ⟨g, ws, by rw [hN, hn], by rw [hN]; exact (List.length_replicate).ge, fun k hk => ⟨0, hmap (by omega), by decide⟩,
    rfl, fun hall => ?_⟩
  obtain ⟨⟨ts', u, e⟩, hcall⟩ := Option.isSome_iff_exists.1 ((hall _ .refl).safe 0)
  obtain ⟨start, hstart, ⟨i, hfound, hge, -, -⟩ | ⟨i, j, a, b, h, -⟩⟩ := gompIterBinlptNext_cases hcall
  · -- the first task is the thread's
    obtain rfl : start = 0 := (Option.some.inj hstart).symm
    obtain ⟨x, hx, hstop⟩ := hfound.before 0 (le_refl 0) (by omega)
    rw [hmap (by omega)] at hx
    cases hx
    exact absurd hstop (by decide)
  · -- and so are all others: the search for the end of the run does not stop before `2^31`
    obtain ⟨-, -, hb3, hb4⟩ := h.bounds
    obtain ⟨x, hx, hstop⟩ := h.run.at_end (by omega)
    rw [hmap (by omega)] at hx
    cases hx
    exact absurd hstop (by decide)

end Bosched
