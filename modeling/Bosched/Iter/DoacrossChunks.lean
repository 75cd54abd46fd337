/-
The chunks of a doacross loop. What its threads do with `gomp_iter_dynamic_next` is a run of that
iterator alone, so its chunks are the cuts of the outermost loop every `ws->chunk_size`
iterations, and each of them belongs to one thread.
-/
import Bosched.Iter.Doacross

namespace Bosched

open Lib

/-! ## Taking chunks, inside the larger system -/

section

variable {ι : Type}

/-- The part of a thread's state that belongs to `gomp_iter_dynamic_next`. -/
def dynLocal : DoaLocal → DynLocal
  | .taking d => d
  | _ => .idle

/-- The calls of `gomp_iter_dynamic_next` that returned. -/
def rets (log : List (ι × DoaEvent)) : List (ι × Ret) :=
  log.filterMap fun x => match x.2 with
    | .returned r => some (x.1, r)
    | _ => none

def dynCfg (c : Cfg ι DoaState DoaLocal DoaEvent) : Cfg ι Word DynLocal Ret :=
  ⟨c.shared.next, fun i => dynLocal (c.loc i), rets c.log⟩

theorem rets_append (log : List (ι × DoaEvent)) (i : ι) (e : DoaEvent) :
    rets (log ++ [(i, e)]) = rets log ++ rets [(i, e)] := by
  simp [rets]

variable {D : Type} {ws : GompWorkShare D} {counts : List Nat} {doa : Option Doacross}

/-- A thread that gets a chunk is between calls again. -/
theorem gompIterDynamicNext_idle {i : ι} {a : Unit} {next next' : Word} {d d' : DynLocal} {ch : Chunk}
    (h : gompIterDynamicNext ws i a next d = some (next', d', some (some ch))) : d' = .idle := by
  have htop : ∀ chunk, (dynamicTop ws next chunk).2 ≠ some (some ch) := by
    intro chunk
    unfold dynamicTop
    dsimp only
    split <;> simp
  cases d with
  | stopped => cases h
  | idle =>
    simp only [gompIterDynamicNext] at h
    split at h
    · simp only [Option.some.injEq, Prod.mk.injEq] at h
      obtain ⟨-, h1, h2⟩ := h
      rw [← h1]
      unfold dynamicFetched at h2 ⊢
      split at h2 <;> rename_i hc <;> simp only [hc] <;> split at h2 <;> rename_i hc' <;> simp_all
    · simp only [Option.some.injEq, Prod.mk.injEq] at h
      have := htop ws.chunkSize
      rw [h.2] at this
      exact absurd rfl this
  | casNext start chunk nend =>
    simp only [gompIterDynamicNext] at h
    split at h
    · cases h; rfl
    · simp only [Option.some.injEq, Prod.mk.injEq] at h
      have := htop chunk
      rw [h.2] at this
      exact absurd rfl this

theorem dynLocal_afterTake {d : DynLocal} {e : Option Ret} (h : ∀ ch, e = some (some ch) → d = .idle) :
    dynLocal (afterTake counts d e) = d := by
  unfold afterTake
  split
  · rename_i lo hi
    split
    · rfl
    · exact (h _ rfl).symm
  · rfl

theorem dynLocal_nextIteration (counts : List Nat) (r hi : Nat) : dynLocal (nextIteration counts r hi) = .idle := by
  unfold nextIteration
  split <;> rfl

theorem dynLocal_afterDim (counts : List Nat) (r hi k : Nat) : dynLocal (afterDim counts r hi k) = .idle := by
  cases k with
  | zero => exact dynLocal_nextIteration counts r hi
  | succ k => rfl

/-- A step that does not take chunks leaves the inner system alone. -/
theorem doacrossThread_inner {i : ι} {a : DoaAct} {s s' : DoaState} {loc loc' : DoaLocal} {e : Option DoaEvent}
    (h : doacrossThread ws counts doa i a s loc = some (s', loc', e)) (hloc : ∀ d, loc ≠ .taking d) :
    s'.next = s.next ∧ dynLocal loc = .idle ∧ dynLocal loc' = .idle ∧ ∀ r, e ≠ some (.returned r) := by
  have hnext := dynLocal_nextIteration counts
  have hdim := dynLocal_afterDim counts
  cases loc with
  | taking d => exact absurd rfl (hloc d)
  | body r hi =>
    cases a with
    | run =>
      simp only [doacrossThread] at h
      split at h
      · cases h
        exact ⟨rfl, rfl, hnext r hi, nofun⟩
      · split at h
        · split at h
          · cases h
            exact ⟨rfl, rfl, hnext r hi, nofun⟩
          · cases h
            exact ⟨rfl, rfl, rfl, nofun⟩
        · cases h
          exact ⟨rfl, rfl, hdim r hi _, nofun⟩
    | wait t =>
      simp only [doacrossThread] at h
      split at h
      · split at h
        · cases h
          exact ⟨rfl, rfl, rfl, nofun⟩
        · split at h <;> cases h <;> exact ⟨rfl, rfl, rfl, nofun⟩
      · cases h
  | postFlat r hi =>
    cases a with
    | wait t => cases h
    | run =>
      obtain ⟨d, -, h⟩ := Option.bind_eq_some_iff.1 h
      cases h
      exact ⟨rfl, rfl, hnext r hi, nofun⟩
  | postDims r hi k =>
    cases a with
    | wait t => cases h
    | run =>
      obtain ⟨d, -, h⟩ := Option.bind_eq_some_iff.1 h
      split at h <;> cases h
      · exact ⟨rfl, rfl, rfl, nofun⟩
      · exact ⟨rfl, rfl, hdim r hi k, nofun⟩
  | postStore r hi k =>
    cases a with
    | wait t => cases h
    | run =>
      obtain ⟨d, -, h⟩ := Option.bind_eq_some_iff.1 h
      cases h
      exact ⟨rfl, rfl, hdim r hi k, nofun⟩
  | waitFlat r hi t =>
    cases a with
    | wait t => cases h
    | run =>
      obtain ⟨d, -, h⟩ := Option.bind_eq_some_iff.1 h
      split at h <;> cases h <;> exact ⟨rfl, rfl, rfl, nofun⟩
  | waitDims r hi t k =>
    cases a with
    | wait t => cases h
    | run =>
      obtain ⟨d, -, h⟩ := Option.bind_eq_some_iff.1 h
      dsimp only at h
      split at h
      · cases h; exact ⟨rfl, rfl, rfl, nofun⟩
      · split at h
        · cases h; exact ⟨rfl, rfl, rfl, nofun⟩
        · split at h <;> cases h <;> exact ⟨rfl, rfl, rfl, nofun⟩

variable [DecidableEq ι]

/-- A run of a doacross loop is a run of its calls of `gomp_iter_dynamic_next`. -/
theorem reach_dynCfg {c : Cfg ι DoaState DoaLocal DoaEvent}
    (hr : Reach (doacrossThread ws counts doa) (doaEntry ws) c) :
    Reach (gompIterDynamicNext ws) (dynEntry ws) (dynCfg c) := by
  induction hr with
  | refl => exact .refl
  | @tail b _ _ hs ih =>
    cases hs with
    | @mk i a s l e hp =>
      have hupd : ∀ d, dynLocal l = d →
          (fun j => dynLocal (Function.update b.loc i l j)) = Function.update (dynCfg b).loc i d := by
        intro d hd
        funext j
        by_cases hj : j = i
        · subst hj
          rw [Function.update_self, Function.update_self, hd]
        · rw [Function.update_of_ne hj, Function.update_of_ne hj]
          rfl
      by_cases hloc : ∃ d, b.loc i = .taking d
      · obtain ⟨d, hd⟩ := hloc
        rw [hd] at hp
        cases a with
        | wait t => cases hp
        | run =>
          obtain ⟨⟨next, d', e'⟩, hdyn, hp⟩ := Option.bind_eq_some_iff.1 hp
          cases hp
          have hd' : dynLocal (afterTake counts d' e') = d' :=
            dynLocal_afterTake fun ch hch => gompIterDynamicNext_idle (by rw [← hch]; exact hdyn)
          have hold : (dynCfg b).loc i = d := by show dynLocal (b.loc i) = d; rw [hd]; rfl
          have hstep : Step (gompIterDynamicNext ws) (dynCfg b) ⟨next, Function.update (dynCfg b).loc i d',
              logged (dynCfg b).log i e'⟩ := .mk i () (by rw [hold]; exact hdyn)
          refine ih.tail ?_
          unfold dynCfg
          dsimp only
          rw [hupd d' hd']
          cases e' with
          | none => exact hstep
          | some r =>
            have hlog : rets (b.log ++ [(i, .returned r)]) = rets b.log ++ [(i, r)] := rets_append b.log i _
            simp only [Option.map_some, logged_some, hlog]
            exact hstep
      · rw [not_exists] at hloc
        obtain ⟨hnext, h1, h2, he⟩ := doacrossThread_inner hp hloc
        have hsame : dynCfg ⟨s, Function.update b.loc i l, logged b.log i e⟩ = dynCfg b := by
          unfold dynCfg
          dsimp only
          rw [hupd .idle h2, hnext]
          congr 1
          · funext j
            by_cases hj : j = i
            · subst hj
              rw [Function.update_self]; exact h1.symm
            · rw [Function.update_of_ne hj]; rfl
          · cases e with
            | none => rfl
            | some e =>
              rw [logged_some, rets_append]
              cases e with
              | returned r => exact absurd rfl (he r)
              | posted r | waited t => exact List.append_nil _
        rw [hsame]
        exact ih

end

/-! ## Who runs what -/

section

variable {ι : Type}

/-- The chunks of the outermost loop that were taken, by thread. -/
def claims (log : List (ι × DoaEvent)) : List (ι × Nat × Nat) :=
  log.filterMap fun x => match x.2 with
    | .returned (some (lo, hi)) => some (x.1, lo.toNat, hi.toNat)
    | _ => none

theorem claims_append (log : List (ι × DoaEvent)) (i : ι) (e : DoaEvent) :
    claims (log ++ [(i, e)]) = claims log ++ claims [(i, e)] := by
  simp [claims]

/-- The chunks are the first cuts of `n` iterations every `s`. -/
def Cuts (n s : Nat) (cl : List (ι × Nat × Nat)) : Prop :=
  ∃ q, cl.map (·.2) = (List.range q).map (fun j => (j * s, min ((j + 1) * s) n)) ∧ ∀ j < q, j * s < n

namespace Cuts

variable {n s : Nat} {cl : List (ι × Nat × Nat)} {i : ι} {lo hi : Nat}

theorem mem (h : Cuts n s cl) (hx : (i, lo, hi) ∈ cl) : ∃ j, j * s < n ∧ lo = j * s ∧ hi = min ((j + 1) * s) n := by
  obtain ⟨q, hcl, hlt⟩ := h
  have hmem : (lo, hi) ∈ cl.map (·.2) := List.mem_map_of_mem hx
  rw [hcl, List.mem_map] at hmem
  obtain ⟨j, hj, heq⟩ := hmem
  cases heq
  exact ⟨j, hlt j (List.mem_range.1 hj), rfl, rfl⟩

theorem starts_nodup (hs : 0 < s) (h : Cuts n s cl) : (cl.map fun x => x.2.1).Nodup := by
  obtain ⟨q, hcl, -⟩ := h
  have hmap : (cl.map fun x => x.2.1) = (List.range q).map (· * s) := by
    have := congrArg (List.map Prod.fst) hcl
    rw [List.map_map, List.map_map] at this
    exact this
  rw [hmap]
  exact List.nodup_range.map fun a b hab => Nat.eq_of_mul_eq_mul_right hs hab

/-- A chunk belongs to one thread. -/
theorem owner (hs : 0 < s) (h : Cuts n s cl) {i' : ι} {hi' : Nat} (hx : (i, lo, hi) ∈ cl) (hx' : (i', lo, hi') ∈ cl) :
    i = i' ∧ hi = hi' := by
  have := List.inj_on_of_nodup_map (h.starts_nodup hs) hx hx' rfl
  simpa using this

/-- A chunk that is taken was not taken before. -/
theorem fresh (hs : 0 < s) (h : Cuts n s (cl ++ [(i, lo, hi)])) {i' : ι} {hi' : Nat} : (i', lo, hi') ∉ cl := by
  intro hx
  have hnodup := h.starts_nodup hs
  rw [List.map_append, List.nodup_append] at hnodup
  exact hnodup.2.2 lo (List.mem_map_of_mem (f := fun x => x.2.1) hx) lo List.mem_cons_self rfl

/-- The chunks before a chunk were taken. -/
theorem before (h : Cuts n s cl) (hx : (i, lo, hi) ∈ cl) {j : Nat} (hj : j * s < lo) :
    ∃ i', (i', j * s, min ((j + 1) * s) n) ∈ cl := by
  obtain ⟨q, hcl, hlt⟩ := h
  have hmem : (lo, hi) ∈ cl.map (·.2) := List.mem_map_of_mem hx
  rw [hcl, List.mem_map] at hmem
  obtain ⟨k, hk, heq⟩ := hmem
  cases heq
  have hjk : j < k := Nat.lt_of_mul_lt_mul_right hj
  have hmem : (j * s, min ((j + 1) * s) n) ∈ cl.map (·.2) := by
    rw [hcl]
    exact List.mem_map_of_mem (f := fun j => (j * s, min ((j + 1) * s) n))
      (List.mem_range.2 (lt_trans hjk (List.mem_range.1 hk)))
  obtain ⟨⟨i', x⟩, hx, heq⟩ := List.mem_map.1 hmem
  exact ⟨i', by rw [← heq]; exact hx⟩

end Cuts

/-- Cursors of a loop that counts up from zero. -/
theorem pos_unit {l : Loop} {n : Nat} (h0 : l.start = 0) (h1 : l.incr = 1) (hn : l.fin = n) :
    l.trip = n ∧ ∀ k, l.pos k = (min k n : Nat) := by
  have hlt : ∀ k, k < l.trip ↔ k < n := by
    intro k
    rw [← l.before_fin_iff, h1, before_pos one_pos, Loop.value, h0, h1, hn]
    omega
  have htrip : l.trip = n := by
    have := hlt l.trip
    have := hlt n
    omega
  refine ⟨htrip, fun k => ?_⟩
  unfold Loop.pos
  rw [htrip]
  split
  · rw [Loop.value, h0, h1, Nat.min_eq_left (by omega)]; omega
  · rw [hn, Nat.min_eq_right (by omega)]

variable [DecidableEq ι] [Fintype ι] {D : Type} {ws : GompWorkShare D} {counts : List Nat} {doa : Option Doacross}

/-- In every run of a doacross loop, the chunks taken are cuts of its outermost loop. -/
theorem cuts_of_reach {l : Loop} {n s : Nat} (h : DynShare ws l s (Fintype.card ι)) (h0 : l.start = 0)
    (h1 : l.incr = 1) (hn : l.fin = n) {c : Cfg ι DoaState DoaLocal DoaEvent}
    (hr : Reach (doacrossThread ws counts doa) (doaEntry ws) c) : Cuts n s (claims c.log) := by
  obtain ⟨q, ⟨hcuts, hlt⟩, -⟩ := h.strided false (reach_dynCfg hr)
  obtain ⟨htrip, hpos⟩ := pos_unit h0 h1 hn
  rw [htrip] at hlt
  have hcut : ∀ j < q, l.cut s j = (((j * s : Nat) : Int), ((min ((j + 1) * s) n : Nat) : Int)) := by
    intro j hj
    rw [Loop.cut, hpos, hpos, Nat.min_eq_left (le_of_lt (hlt j hj))]
  refine ⟨q, ?_, hlt⟩
  have hnat : (claims c.log).map (·.2) = (returned (rets c.log)).map fun x => (x.1.toNat, x.2.toNat) := by
    unfold claims returned rets
    rw [List.map_filterMap, List.filterMap_filterMap, List.map_filterMap]
    congr 1
    funext x
    rcases x with ⟨i, r | r | t⟩
    · rcases r with - | ⟨lo, hi⟩ <;> rfl
    · rfl
    · rfl
  rw [hnat]
  -- the words are nonnegative, so either reading of them gives the same numbers
  have hmem : ∀ x ∈ returned (rets c.log), 0 ≤ x.1.toInt ∧ 0 ≤ x.2.toInt := by
    intro x hx
    have hx' : (x.1.toInt, x.2.toInt) ∈ chunks BitVec.toInt (rets c.log) :=
      List.mem_map_of_mem (f := fun c : Chunk => (c.1.toInt, c.2.toInt)) hx
    have hx'' : (x.1.toInt, x.2.toInt) ∈ (List.range q).map (l.cut s) := by rw [← hcuts]; exact hx'
    obtain ⟨j, hj, heq⟩ := List.mem_map.1 hx''
    rw [hcut j (List.mem_range.1 hj), Prod.mk.injEq] at heq
    omega
  have hmap : (returned (rets c.log)).map (fun x => (x.1.toNat, x.2.toNat)) =
      (chunks BitVec.toInt (rets c.log)).map (fun x => (x.1.toNat, x.2.toNat)) := by
    unfold chunks
    rw [List.map_map]
    refine List.map_congr_left fun x hx => ?_
    obtain ⟨hx1, hx2⟩ := hmem x hx
    have e1 := toNat_of_toInt_nonneg hx1
    have e2 := toNat_of_toInt_nonneg hx2
    show (x.1.toNat, x.2.toNat) = (x.1.toInt.toNat, x.2.toInt.toNat)
    rw [← e1, ← e2, Int.toNat_natCast, Int.toNat_natCast]
  rw [hmap]
  have hcuts' : chunks BitVec.toInt (rets c.log) = (List.range q).map (l.cut s) := hcuts
  rw [hcuts', List.map_map]
  refine List.map_congr_left fun j hj => ?_
  show ((l.cut s j).1.toNat, (l.cut s j).2.toNat) = _
  rw [hcut j (List.mem_range.1 hj), Int.toNat_natCast, Int.toNat_natCast]

end

end Bosched
