/-
A team in `gomp_iter_static_next`. A thread's calls depend on its own number and `static_trip` only, so a run is made up
of the threads' own blocks, whatever the interleaving: once each was told that there is no more work, the blocks of all
of them are the iterations, each once.
-/
import Bosched.Iter.Drains
import Bosched.Iter.Static

namespace Bosched

open Lib

section

variable {D : Type} {P : Nat}

/-- Calls of `gomp_iter_static_next`, by threads that keep their `static_trip` until they are told that there is no
more work. -/
def staticIter (ws : GompWorkShare D) (nthreads : Word) : Prog (Fin P) Unit Cells (Option Word) Ret
  | i, _, s, some trip => do
    let (trip, r) ← gompIterStaticNext ws s nthreads (BitVec.ofNat 64 i) trip
    return (s, if r = none then none else some trip, some r)
  | _, _, _, none => none

/-- Every thread of a team behind `gomp_loop_static_start`. -/
def staticEntry (ws : GompWorkShare D) : Cfg (Fin P) Cells (Option Word) Ret := ⟨ws.cells, fun _ => some 0, []⟩

end

/-! ## The calls of one thread -/

theorem workerBlock_lt {n P c i m : Nat} {b : Nat × Nat} (hi : i < P) (h : workerBlock n P c i m = some b) : m < n := by
  have hb := workerBlock_bounds hi h
  unfold workerBlock at h
  split at h
  · split at h
    · rename_i hm
      rw [hm.1]
      omega
    · cases h
  · rename_i hc
    split at h
    · rename_i hlt
      have hm : (m * 1 + 0) * 1 ≤ (m * P + i) * c :=
        Nat.mul_le_mul (Nat.add_le_add (Nat.mul_le_mul_left m (by omega)) (Nat.zero_le _)) (by omega)
      omega
    · cases h

/-- The chunks that thread `i` got. -/
def chunksOf {P : Nat} (i : Fin P) (log : List (Fin P × Ret)) : List (Int × Int) :=
  chunks BitVec.toInt (log.filter fun x => x.1 = i)

theorem chunksOf_other {P : Nat} {i j : Fin P} (h : j ≠ i) (log : List (Fin P × Ret)) (e : Option Ret) :
    chunksOf j (logged log i e) = chunksOf j log := by
  cases e with
  | none => rfl
  | some e =>
    unfold chunksOf
    have hji : decide (i = j) = false := decide_eq_false h.symm
    rw [logged_some, List.filter_append, List.filter_singleton, hji, cond_false, List.append_nil]

theorem chunksOf_self {P : Nat} (i : Fin P) (log : List (Fin P × Ret)) (r : Ret) :
    chunksOf i (log ++ [(i, r)]) = chunksOf i log ++ (r.map fun ch => (ch.1.toInt, ch.2.toInt)).toList := by
  unfold chunksOf
  rw [List.filter_append, List.filter_singleton, decide_eq_true rfl, cond_true]
  cases r with
  | none => rw [chunks_none, Option.map_none, Option.toList_none, List.append_nil]
  | some ch => rw [show (some ch : Ret) = some (ch.1, ch.2) from rfl, chunks_some]; rfl

theorem length_chunksOf {P : Nat} (i : Fin P) (log : List (Fin P × Ret)) : (chunksOf i log).length = taken log i := by
  unfold chunksOf chunks returned taken
  rw [List.length_map, List.length_filterMap_eq_countP, List.countP_filter]
  refine List.countP_congr fun x _ => ?_
  rcases x with ⟨j, _ | ch⟩ <;> simp

/-- The threads' chunks are the chunks. -/
theorem chunks_perm {P : Nat} (log : List (Fin P × Ret)) :
    ((List.finRange P).flatMap fun i => chunksOf i log).Perm (chunks BitVec.toInt log) := by
  have hparts := perm_flatMap_filter (fun x : Fin P × Ret => x.1) (List.nodup_finRange P)
    fun x (_ : x ∈ log) => List.mem_finRange x.1
  have hmap := (hparts.filterMap Prod.snd).map fun ch : Chunk => (ch.1.toInt, ch.2.toInt)
  rwa [List.filterMap_flatMap, List.map_flatMap] at hmap

/-- Thread `i` has taken the blocks `bs`, and stands where that leaves it. -/
structure StaticTook (l : Loop) (P c i : Nat) (loc : Option Word) (cs : List (Int × Int)) (bs : List (Nat × Nat)) : Prop where
  block : ∀ m < bs.length, workerBlock l.trip P c i m = bs[m]?
  hands : List.Forall₂ (HandsOut l P) bs cs
  stands : ∀ trip ∈ loc, StaticAt l.trip P c i trip bs.length
  last : loc = none → workerBlock l.trip P c i bs.length = none

theorem StaticTook.told {l : Loop} {P c i : Nat} {loc : Option Word} {cs : List (Int × Int)} {bs : List (Nat × Nat)}
    (h : StaticTook l P c i loc cs bs) (hnone : workerBlock l.trip P c i bs.length = none) :
    StaticTook l P c i none cs bs :=
  ⟨h.block, h.hands, nofun, fun _ => hnone⟩

theorem StaticTook.got {l : Loop} {P c i : Nat} {loc : Option Word} {cs : List (Int × Int)} {bs : List (Nat × Nat)}
    {trip : Word} {b : Nat × Nat} {ch : Int × Int} (h : StaticTook l P c i loc cs bs)
    (hb : workerBlock l.trip P c i bs.length = some b) (hch : HandsOut l P b ch)
    (hat : StaticAt l.trip P c i trip (bs.length + 1)) : StaticTook l P c i (some trip) (cs ++ [ch]) (bs ++ [b]) where
  block m hm := by
    rw [List.length_append, List.length_singleton] at hm
    rcases Nat.lt_or_ge m bs.length with hlt | hge
    · rw [h.block m hlt, List.getElem?_append_left hlt]
    · obtain rfl : m = bs.length := by omega
      rw [hb]
      simp
  hands := List.rel_append h.hands (.cons hch .nil)
  stands trip' htrip' := by
    cases htrip'
    rw [List.length_append, List.length_singleton]
    exact hat
  last := nofun

/-- What blocks hand out together. -/
theorem HandsOut.values {l : Loop} {P : Nat} {bs : List (Nat × Nat)} {cs : List (Int × Int)}
    (h : List.Forall₂ (HandsOut l P) bs cs) :
    cs.flatMap (fun c => (l.chunk c).values) = (bs.flatMap blockIndices).map l.value := by
  induction h with
  | nil => rfl
  | cons hb _ ih => rw [List.flatMap_cons, List.flatMap_cons, List.map_append, ih, hb.1]

/-! ## Whole runs -/

section

variable {D : Type} {P : Nat} {ws : GompWorkShare D} {l : Loop} {nthreads : Word}

/-- No call writes what the calls read. -/
theorem staticIter_shared {c : Cfg (Fin P) Cells (Option Word) Ret} (hr : Reach (staticIter ws nthreads) (staticEntry ws) c) :
    c.shared = ws.cells := by
  induction hr with
  | refl => rfl
  | @tail d _ _ hs ih =>
    cases hs with
    | @mk i a s loc e hp =>
      cases hloc : d.loc i with
      | none => rw [hloc] at hp; cases hp
      | some trip =>
        rw [hloc] at hp
        obtain ⟨⟨_, _⟩, -, hp⟩ := Option.bind_eq_some_iff.1 hp
        cases hp
        exact ih

/-- Whoever was told that there is no more work has stopped. -/
theorem staticIter_told {c : Cfg (Fin P) Cells (Option Word) Ret} (hr : Reach (staticIter ws nthreads) (staticEntry ws) c)
    {i : Fin P} (hi : (i, none) ∈ c.log) : c.loc i = none := by
  have hretires : Retires (staticIter ws nthreads : Prog (Fin P) Unit Cells (Option Word) Ret) none none := by
    constructor
    · intro i a s loc s' loc' hp
      cases loc with
      | none => cases hp
      | some trip =>
        obtain ⟨⟨_, _⟩, -, hp⟩ := Option.bind_eq_some_iff.1 hp
        cases hp
        rfl
    · intro i a s
      rfl
  exact (hretires.reach rfl hr).2 i hi

variable (h : StaticShare ws l) (hP : nthreads.toNat = P) (hP32 : P < 2 ^ 32) (hint : IntChunk ws.chunkSize)

include h hP hP32 hint

/-- In every run, every thread has taken the first of its blocks. -/
theorem StaticShare.took {c : Cfg (Fin P) Cells (Option Word) Ret} (hr : Reach (staticIter ws nthreads) (staticEntry ws) c)
    (i : Fin P) : ∃ bs, StaticTook l P (staticChunk ws P) i (c.loc i) (chunksOf i c.log) bs := by
  induction hr with
  | refl =>
    refine ⟨[], nofun, .nil, ?_, nofun⟩
    intro trip htrip
    cases htrip
    exact .fresh
  | @tail d _ hd hs ih =>
    obtain ⟨bs, hbs⟩ := ih
    cases hs with
    | @mk j a s loc e hp =>
      by_cases hj : i = j
      · subst hj
        show ∃ bs, StaticTook l P (staticChunk ws P) i (Function.update d.loc i loc i) _ bs
        rw [Function.update_self]
        cases hloc : d.loc i with
        | none => rw [hloc] at hp; cases hp
        | some trip =>
          rw [hloc, staticIter_shared hd] at hp
          obtain ⟨⟨trip', r⟩, hnext, hp⟩ := Option.bind_eq_some_iff.1 hp
          cases hp
          have hi : (BitVec.ofNat 64 i.val).toNat = i.val := by
            rw [BitVec.toNat_ofNat]
            exact Nat.mod_eq_of_lt (by have := i.isLt; omega)
          have hat := hbs.stands trip (by rw [hloc]; rfl)
          subst hP
          have hstep := h.step hP32 (by rw [hi]; exact i.isLt) hint (by rw [hi]; exact hat) hnext
          rw [hi] at hstep
          show ∃ bs, StaticTook l _ _ i _ (chunksOf i (logged d.log i (some r))) bs
          rw [logged_some, chunksOf_self]
          cases r with
          | none =>
            rw [if_pos rfl, Option.map_none, Option.toList_none, List.append_nil]
            exact ⟨bs, hbs.told hstep⟩
          | some ch =>
            obtain ⟨b, hb, hch, hat'⟩ := hstep
            rw [if_neg (Option.some_ne_none _)]
            exact ⟨bs ++ [b], hbs.got hb hch hat'⟩
      · refine ⟨bs, ?_⟩
        show StaticTook l P (staticChunk ws P) i (Function.update d.loc j loc i) (chunksOf i (logged d.log j e)) bs
        rw [Function.update_of_ne hj, chunksOf_other hj]
        exact hbs

/-- When all were told, each took all of its blocks. -/
theorem StaticShare.all {c : Cfg (Fin P) Cells (Option Word) Ret} (hr : Reach (staticIter ws nthreads) (staticEntry ws) c)
    (htold : ∀ i, (i, none) ∈ c.log) : ∃ bs : Fin P → List (Nat × Nat),
      (∀ i : Fin P, AllBlocks l.trip P (staticChunk ws P) i (bs i)) ∧ ∀ i, List.Forall₂ (HandsOut l P) (bs i) (chunksOf i c.log) := by
  choose bs hbs using fun i => h.took hP hP32 hint hr i
  exact ⟨bs, fun i => ⟨(hbs i).block, (hbs i).last (staticIter_told hr (htold i))⟩, fun i => (hbs i).hands⟩

/-- When all were told, every iteration was handed out once. -/
theorem StaticShare.eachOnce (hpos : 0 < P) {c : Cfg (Fin P) Cells (Option Word) Ret}
    (hr : Reach (staticIter ws nthreads) (staticEntry ws) c) (htold : ∀ i, (i, none) ∈ c.log) :
    EachOnce l (chunks BitVec.toInt c.log) := by
  obtain ⟨bs, hall, hhands⟩ := h.all hP hP32 hint hr htold
  unfold EachOnce
  refine ((chunks_perm c.log).flatMap_right _).symm.trans ?_
  rw [List.flatMap_assoc, List.flatMap_congr fun i _ => HandsOut.values (hhands i), ← List.map_flatMap, ← List.flatMap_assoc]
  exact (AllBlocks.perm hpos hall).map l.value

theorem StaticShare.drains (hpos : 0 < P) (hfits : P ≠ 1 → StaticFits l) :
    Drains (staticIter ws nthreads : Prog (Fin P) Unit Cells (Option Word) Ret) (staticEntry ws) l (· ≠ none)
      (fun _ _ => 0) 0 := by
  constructor
  · intro c hr i
    obtain ⟨bs, hbs⟩ := h.took hP hP32 hint hr i
    rw [← length_chunksOf, ← hbs.hands.length_eq]
    cases hlen : bs.length with
    | zero => exact Nat.zero_le _
    | succ m =>
      have hb := hbs.block m (by omega)
      rw [List.getElem?_eq_getElem (by omega)] at hb
      exact workerBlock_lt i.isLt hb
  · intro c hr i hlive
    obtain ⟨trip, htrip⟩ := Option.ne_none_iff_exists'.1 hlive
    have hi : (BitVec.ofNat 64 i.val).toNat < nthreads.toNat := by
      rw [hP, BitVec.toNat_ofNat]
      exact lt_of_le_of_lt (Nat.mod_le _ _) i.isLt
    obtain ⟨⟨trip', r⟩, hnext⟩ := h.exists_step (fun hne => hfits fun h1 => hne (hP.trans h1)) hi trip
    refine ⟨c.shared, if r = none then none else some trip', some r, ?_, nofun⟩
    rw [htrip, staticIter_shared hr]
    simp only [staticIter, hnext]
    rfl
  · exact fun _ _ => le_refl 0
  · intro c hr htold
    exact h.eachOnce hP hP32 hint hpos hr htold

/-- A team of two threads or more that gets through its loop overflows nowhere. -/
theorem StaticShare.fits_of_told (hpos : 0 < P) (hne : P ≠ 1) {c : Cfg (Fin P) Cells (Option Word) Ret}
    (hr : Reach (staticIter ws nthreads) (staticEntry ws) c) (htold : ∀ i, (i, none) ∈ c.log) : StaticFits l := by
  have hne' : nthreads.toNat ≠ 1 := fun h1 => hne (hP.symm.trans h1)
  -- a thread that got through made a first call
  have hfirst : ∃ n, staticCount ws ws.cells = some n := by
    let i : Fin P := ⟨0, hpos⟩
    cases hnext : gompIterStaticNext ws ws.cells nthreads (BitVec.ofNat 64 i) 0 with
    | some r => exact StaticShare.count_of_first hne' hnext
    | none =>
      exfalso
      have hstuck := hr.stuck (i := i) fun d hd a => by
        show staticIter ws nthreads i a d.shared (some 0) = none
        rw [staticIter_shared hd]
        simp only [staticIter, hnext]
        rfl
      rw [staticIter_told hr (htold i)] at hstuck
      cases hstuck
  obtain ⟨n, hn⟩ := hfirst
  obtain ⟨hsum, hcount⟩ := h.count_fits hn
  refine ⟨hsum, hcount, ?_⟩
  -- some chunk ends on the value behind the last iteration
  have hend : ∃ w : Word, w.toInt = l.value l.trip := by
    rcases Nat.eq_zero_or_pos l.trip with h0 | hlast
    · exact ⟨ws.next, by rw [h0, l.value_zero, h.start]⟩
    · obtain ⟨bs, hall, hhands⟩ := h.all hP hP32 hint hr htold
      have hmem := (AllBlocks.perm hpos hall).mem_iff.2 (List.mem_range.2 (Nat.sub_lt hlast one_pos))
      obtain ⟨b, hb, hidx⟩ := List.mem_flatMap.1 hmem
      obtain ⟨i, -, hb⟩ := List.mem_flatMap.1 hb
      obtain ⟨m, hm, hbm⟩ := List.getElem_of_mem hb
      have hblock := (hall i).block m hm
      rw [List.getElem?_eq_getElem hm, hbm] at hblock
      have hbound := workerBlock_bounds i.isLt hblock
      have hb2 : b.2 = l.trip := by
        unfold blockIndices at hidx
        rw [List.mem_range'_1] at hidx
        omega
      have hlen := (hhands i).length_eq
      have hrel := (List.forall₂_iff_get.1 (hhands i)).2 m hm (by omega)
      have hch := hrel.2 hne
      rw [show (bs i).get ⟨m, hm⟩ = b from hbm, hb2] at hch
      have hmem : (chunksOf i c.log).get ⟨m, by omega⟩ ∈ chunksOf i c.log := List.get_mem _ _
      obtain ⟨ch, -, hch'⟩ := List.mem_map.1 hmem
      exact ⟨ch.2, by rw [← hch, ← hch']⟩
  obtain ⟨w, hw⟩ := hend
  rw [← hw]
  exact toInt_bounds w

end

end Bosched
