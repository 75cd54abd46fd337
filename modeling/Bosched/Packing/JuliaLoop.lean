/-
The packing loop of the tuner's `binlpt_balance`: the chunks with weight go to the threads in some order, the
first `P` of them to one slot each, and the function returns exactly if every task was assigned and the thread
numbers are `UInt16`.
-/
import Bosched.Packing.JuliaStages
import Bosched.Runtime.Exact

namespace Bosched.Julia

open Lib

variable {D : Type} [JuliaFloat D]

/-- What the arithmetic guarantees on the numbers from zero on; `nonneg` excludes a NaN. -/
structure NonNegative (nonneg : D → Prop) : Prop where
  zero : nonneg 0.0
  add : ∀ {x y}, nonneg x → nonneg y → nonneg (x + y)
  zero_eq : JuliaFloat.eq (0.0 : D) 0.0 = true
  zero_lt : CDouble.lt (0.0 : D) 0.0 = false
  pos : ∀ {x}, nonneg x → JuliaFloat.eq x 0.0 = false → CDouble.lt 0.0 (0.0 + x) = true

/-- The chunk of a part has weight, so the packing loop does not pass it over. -/
def live (tasks : List D) (off size : Nat) : Bool := !JuliaFloat.eq (chunkWeight tasks off size) 0.0

theorem NonNegative.sum {nonneg : D → Prop} (hn : NonNegative nonneg) {l : List D} :
    ∀ {x : D}, nonneg x → (∀ w ∈ l, nonneg w) → nonneg (l.foldl (· + ·) x) := by
  induction l with
  | nil => exact fun hx _ => hx
  | cons w l ih =>
    intro x hx hl
    exact ih (hn.add hx (hl w List.mem_cons_self)) fun v hv => hl v (List.mem_cons_of_mem w hv)

theorem NonNegative.weight {nonneg : D → Prop} (hn : NonNegative nonneg) {tasks : List D} (ht : ∀ w ∈ tasks, nonneg w)
    (off size : Nat) : nonneg (chunkWeight tasks off size) :=
  hn.sum hn.zero fun w hw => ht w (List.mem_of_mem_drop (List.mem_of_mem_take hw))

/-- An empty chunk has no weight. -/
theorem NonNegative.not_live_empty {nonneg : D → Prop} (hn : NonNegative nonneg) (tasks : List D) (off : Nat) :
    live tasks off 0 = false := by
  unfold live
  rw [show chunkWeight tasks off 0 = 0.0 from rfl, hn.zero_eq]
  rfl

/-! ## One chunk -/

/-- The first `k` slots of `load` are in use, and the others are empty. -/
def Slots (load : List D) (P k : Nat) : Prop :=
  (∀ t < k, ∃ x, load[t]? = some x ∧ CDouble.lt 0.0 x = true) ∧ ∀ t, k ≤ t → t < P → load[t]? = some 0.0

/-- The search for the least load finds a thread; as long as there are empty slots it is the first of them. -/
theorem leastLoaded_spec (hzero : CDouble.lt (0.0 : D) 0.0 = false) {load : List D} {P : Nat} (hlen : load.length = P)
    (hP : 0 < P) : ∃ tid, leastLoaded load P = some tid ∧ 1 ≤ tid ∧ tid ≤ P ∧
      ∀ k < P, Slots load P k → tid = k + 1 := by
  have hloop := foldlM_range' (f := fun tid j => do
      if CDouble.lt (← get load j) (← get load tid) then return j else return tid)
    (fun j tid => 1 ≤ tid ∧ tid < j ∧ ∀ k, k + 1 < j → Slots load P k → tid = k + 1) (b := 1) (n := P - 1) (s := 2)
    ⟨le_refl 1, by omega, fun k hk _ => by omega⟩ fun j tid h2 hj hI => ?_
  · obtain ⟨tid, hfold, h1, hlt, hslot⟩ := hloop
    exact ⟨tid, hfold, h1, by omega, fun k hk => hslot k (by omega)⟩
  · obtain ⟨h1, hlt, hslot⟩ := hI
    obtain ⟨q, rfl⟩ : ∃ q, j = q + 1 := ⟨j - 1, by omega⟩
    obtain ⟨t, rfl⟩ : ∃ t, tid = t + 1 := ⟨tid - 1, by omega⟩
    obtain ⟨x, hx⟩ : ∃ x, load[q]? = some x := ⟨_, List.getElem?_eq_getElem (by omega)⟩
    obtain ⟨y, hy⟩ : ∃ y, load[t]? = some y := ⟨_, List.getElem?_eq_getElem (by omega)⟩
    refine ⟨if CDouble.lt x y then q + 1 else t + 1, ?_, by split <;> omega, by split <;> omega, fun k hk hs => ?_⟩
    · simp only [get_succ, hx, hy, Option.bind_eq_bind, Option.bind_some, Option.pure_def]
      split <;> rfl
    · rcases Nat.lt_or_eq_of_le (show k + 1 ≤ q + 1 by omega) with hlt' | heq
      · -- the slot was found before, and an empty one does not replace it
        obtain rfl : t = k := by have := hslot k (by omega) hs; omega
        have hx0 : x = 0.0 := Option.some.inj (hx.symm.trans (hs.2 q (by omega) (by omega)))
        have hy0 : y = 0.0 := Option.some.inj (hy.symm.trans (hs.2 t (le_refl t) (by omega)))
        rw [hx0, hy0, hzero, if_neg (by decide)]
      · -- the first empty slot replaces one in use
        obtain rfl : k = q := by omega
        obtain ⟨y', hy', hpos⟩ := hs.1 t (by omega)
        obtain rfl : y' = y := Option.some.inj (hy'.symm.trans hy)
        have hx0 : x = 0.0 := Option.some.inj (hx.symm.trans (hs.2 k (le_refl k) (by omega)))
        rw [hx0, hpos, if_pos rfl]

/-- A used slot more. -/
theorem Slots.assign {nonneg : D → Prop} (hn : NonNegative nonneg) {load : List D} {P k : Nat} {w : D} (h : Slots load P k)
    (hk : k < P) (hlen : load.length = P) (hw : nonneg w) (hlive : JuliaFloat.eq w 0.0 = false) :
    Slots (load.set k (0.0 + w)) P (k + 1) := by
  refine ⟨fun t ht => ?_, fun t hkt htP => ?_⟩
  · by_cases htk : t = k
    · subst htk
      exact ⟨_, List.getElem?_set_self (by omega), hn.pos hw hlive⟩
    · rw [List.getElem?_set_ne (Ne.symm htk)]
      exact h.1 t (by omega)
  · rw [List.getElem?_set_ne (by omega)]
    exact h.2 t (by omega) htP

/-- The inner loop of the packing stores the thread number for the tasks of one chunk. -/
theorem storeChunk_spec {map : List Nat} {off size tid : Nat} (htid : tid < 2 ^ 16) (hfit : off + size ≤ map.length) :
    ∃ map', storeChunk map off size tid = some map' ∧ map'.length = map.length ∧
      ∀ j, map'[j]? = if off ≤ j ∧ j < off + size then some tid else map[j]? := by
  have hloop := foldlM_range' (f := fun map j => do set map (off + j) (← toUInt16 tid))
    (fun j map' => map'.length = map.length ∧ ∀ i, map'[i]? = if off ≤ i ∧ i + 1 < off + j then some tid else map[i]?)
    (b := map) (n := size) (s := 1) ⟨rfl, fun i => (if_neg (by omega)).symm⟩ fun j map' h1 hj hI => ?_
  · obtain ⟨map', hfold, hlen, hget⟩ := hloop
    refine ⟨map', hfold, hlen, fun j => ?_⟩
    rw [hget]
    exact if_congr (by omega) rfl rfl
  · obtain ⟨hlen, hget⟩ := hI
    obtain ⟨q, rfl⟩ : ∃ q, j = q + 1 := ⟨j - 1, by omega⟩
    have hlt : off + q < map'.length := by omega
    refine ⟨map'.set (off + q) tid, ?_, by rw [List.length_set]; exact hlen, fun i => ?_⟩
    · have h16 : toUInt16 tid = some tid := if_pos htid
      simp only [h16, Option.bind_eq_bind, Option.bind_some]
      exact set_succ tid hlt
    · by_cases hi : i = off + q
      · subst hi
        rw [List.getElem?_set_self hlt, if_pos (by omega)]
      · rw [List.getElem?_set_ne (Ne.symm hi), hget]
        exact if_congr (by omega) rfl rfl

/-- A thread number that is no `UInt16` cannot be stored. -/
theorem storeChunk_eq_none {map : List Nat} {off size tid : Nat} (htid : ¬ tid < 2 ^ 16) (hsize : 0 < size) :
    storeChunk map off size tid = none := by
  obtain ⟨size, rfl⟩ : ∃ s, size = s + 1 := ⟨size - 1, by omega⟩
  have h16 : toUInt16 tid = none := if_neg htid
  unfold storeChunk
  rw [List.range'_succ, List.foldlM_cons, h16]
  rfl

/-! ## The packing loop -/

/-- A chunk of the cut, numbered from 0, as the packing loop finds it in `chunkoff` and `chunksizes`. -/
def chunkAt (sizes : List Nat) (c : Nat) : Nat × Nat := (startOf sizes c, sizes.getD c 0)

/-- The chunks are in place. -/
structure Stages (tasks : List D) (sizes : List Nat) (K : Nat) (chunks : List D) (chunkoff : List Nat) : Prop where
  len : sizes.length = K
  sum : sizes.sum = tasks.length
  weight : ∀ c < K, chunks[c]? = some (chunkWeight tasks (startOf sizes c) (sizes.getD c 0))
  offset : ∀ c < K, chunkoff[c]? = some (startOf sizes c)

theorem startOf_succ_getD (sizes : List Nat) (c : Nat) : startOf sizes (c + 1) = startOf sizes c + sizes.getD c 0 := by
  rw [List.getD_eq_getElem?_getD]
  by_cases hc : c < sizes.length
  · rw [startOf_succ (List.getElem?_eq_getElem hc), List.getElem?_eq_getElem hc]
    rfl
  · rw [List.getElem?_eq_none (by omega)]
    unfold startOf
    rw [List.take_of_length_le (by omega), List.take_of_length_le (by omega)]
    rfl

/-- The state of the packing loop once the chunks `done` were passed over or assigned, in this order. -/
structure Packed (tasks : List D) (sizes : List Nat) (P : Nat) (done : List Nat) (st : Packing D) : Prop where
  len : st.taskmap.length = tasks.length
  loads : st.load.length = P
  chunks : st.assigned.map (fun a => (a.off, a.size)) =
    (done.map (chunkAt sizes)).filter fun r => live tasks r.1 r.2
  tids : ∀ a ∈ st.assigned, 1 ≤ a.tid ∧ a.tid ≤ P ∧ a.tid < 2 ^ 16
  fill : ∀ q a, st.assigned[q]? = some a → q < P → a.tid = q + 1
  slots : st.assigned.length ≤ P → Slots st.load P st.assigned.length
  entry : ∀ j < tasks.length, (st.taskmap[j]? = some 0 ∧ ∀ a ∈ st.assigned, ¬ a.Holds j) ∨
    ∃ a ∈ st.assigned, a.Holds j ∧ st.taskmap[j]? = some a.tid ∧ ∀ a' ∈ st.assigned, a'.Holds j → a'.tid = a.tid

variable {nonneg : D → Prop} {tasks : List D} {sizes : List Nat} {P K : Nat} {chunks : List D} {chunkoff : List Nat}

/-- A chunk that was assigned is one of those done. -/
theorem Packed.mem_done {done : List Nat} {st : Packing D} (h : Packed tasks sizes P done st) {a : Assignment}
    (ha : a ∈ st.assigned) : ∃ c ∈ done, a.off = startOf sizes c ∧ a.off + a.size = startOf sizes (c + 1) := by
  have hmem : (a.off, a.size) ∈ (done.map (chunkAt sizes)).filter fun r => live tasks r.1 r.2 := by
    rw [← h.chunks]
    exact List.mem_map.2 ⟨a, ha, rfl⟩
  obtain ⟨c, hc, heq⟩ := List.mem_map.1 (List.mem_filter.1 hmem).1
  unfold chunkAt at heq
  rw [Prod.mk.injEq] at heq
  refine ⟨c, hc, heq.1.symm, ?_⟩
  rw [startOf_succ_getD, ← heq.1, ← heq.2]

/-- The assignment of chunk `c` to thread `tid`. -/
theorem Packed.assign (hn : NonNegative nonneg) (ht : ∀ w ∈ tasks, nonneg w)
    {done : List Nat} {st : Packing D} (h : Packed tasks sizes P done st) {c : Nat} (hnew : c ∉ done)
    (hlive : live tasks (startOf sizes c) (sizes.getD c 0) = true) {tid : Nat} {map : List Nat} {x : D} (htid1 : 1 ≤ tid)
    (htidP : tid ≤ P) (htid16 : tid < 2 ^ 16) (hleast : ∀ k < P, Slots st.load P k → tid = k + 1)
    (hx : st.load[tid - 1]? = some x) (hmaplen : map.length = st.taskmap.length)
    (hmap : ∀ j, map[j]? = if startOf sizes c ≤ j ∧ j < startOf sizes c + sizes.getD c 0 then some tid else st.taskmap[j]?) :
    Packed tasks sizes P (done ++ [c]) ⟨map, st.load.set (tid - 1) (x + chunkWeight tasks (startOf sizes c) (sizes.getD c 0)),
      st.assigned ++ [⟨startOf sizes c, sizes.getD c 0, tid⟩]⟩ := by
  have hmem : ∀ {a : Assignment}, a ∈ st.assigned ++ [⟨startOf sizes c, sizes.getD c 0, tid⟩] →
      a ∈ st.assigned ∨ a = ⟨startOf sizes c, sizes.getD c 0, tid⟩ := fun ha => by
    rcases List.mem_append.1 ha with ha | ha
    · exact .inl ha
    · exact .inr (List.mem_singleton.1 ha)
  refine ⟨hmaplen.trans h.len, by rw [List.length_set]; exact h.loads, ?_, fun a ha => ?_, fun q a hq hqP => ?_,
    fun hle => ?_, fun j hj => ?_⟩
  · rw [List.map_append, h.chunks, List.map_append, List.filter_append]
    congr 1
    exact (List.filter_eq_self.2 fun r hr => by rw [List.mem_singleton.1 hr]; exact hlive).symm
  · rcases hmem ha with ha | rfl
    · exact h.tids a ha
    · exact ⟨htid1, htidP, htid16⟩
  · rcases Nat.lt_trichotomy q st.assigned.length with hlt | rfl | hgt
    · rw [List.getElem?_append_left hlt] at hq
      exact h.fill q a hq hqP
    · rw [List.getElem?_append_right (le_refl _), Nat.sub_self] at hq
      cases hq
      exact hleast _ hqP (h.slots (by omega))
    · rw [List.getElem?_eq_none (by simp; omega)] at hq
      cases hq
  · rw [List.length_append, List.length_singleton] at hle ⊢
    have hslots := h.slots (by omega)
    have htid := hleast _ (by omega) hslots
    rw [htid, Nat.add_sub_cancel] at hx ⊢
    obtain rfl : x = 0.0 := Option.some.inj (hx.symm.trans (hslots.2 _ (le_refl _) (by omega)))
    exact hslots.assign hn (by omega) h.loads (hn.weight ht _ _) (by simpa [live] using hlive)
  · by_cases hin : startOf sizes c ≤ j ∧ j < startOf sizes c + sizes.getD c 0
    · -- no chunk done before holds the position
      refine .inr ⟨⟨startOf sizes c, sizes.getD c 0, tid⟩, List.mem_append_right _ (List.mem_singleton_self _), hin,
        by rw [hmap, if_pos hin], fun a ha hj' => ?_⟩
      rcases hmem ha with ha | rfl
      · obtain ⟨c', hc', h1, h2⟩ := h.mem_done ha
        have hcc := startOf_unique (h1 ▸ hj'.1) (h2 ▸ hj'.2) hin.1 (by rw [startOf_succ_getD]; exact hin.2)
        exact absurd (hcc ▸ hc') hnew
      · rfl
    · rcases h.entry j hj with ⟨h0, hnone⟩ | ⟨a, ha, hholds, hget, huniq⟩
      · refine .inl ⟨by rw [hmap, if_neg hin]; exact h0, fun a ha => ?_⟩
        rcases hmem ha with ha | rfl
        · exact hnone a ha
        · exact hin
      · refine .inr ⟨a, List.mem_append_left _ ha, hholds, by rw [hmap, if_neg hin]; exact hget, fun a' ha' hj' => ?_⟩
        rcases hmem ha' with ha' | rfl
        · exact huniq a' ha' hj'
        · exact absurd hj' hin

/-- A chunk without weight is passed over. -/
theorem Packed.skip {done : List Nat} {st : Packing D} (h : Packed tasks sizes P done st) {c : Nat}
    (hdead : live tasks (startOf sizes c) (sizes.getD c 0) = false) : Packed tasks sizes P (done ++ [c]) st := by
  refine ⟨h.len, h.loads, ?_, h.tids, h.fill, h.slots, h.entry⟩
  rw [h.chunks, List.map_append, List.filter_append]
  have hnil : ([c].map (chunkAt sizes)).filter (fun r => live tasks r.1 r.2) = [] :=
    List.filter_eq_nil_iff.2 fun r hr => by
      rw [List.mem_singleton.1 hr]
      show ¬ live tasks (startOf sizes c) (sizes.getD c 0) = true
      rw [hdead]
      decide
  rw [hnil, List.append_nil]

/-- The numbers of the threads that `n` chunks go to are `UInt16`. -/
def Room (P n : Nat) : Prop := P < 2 ^ 16 ∨ n < 2 ^ 16

theorem Room.mono {P m n : Nat} (h : Room P n) (hle : m ≤ n) : Room P m := h.imp_right fun hn => lt_of_le_of_lt hle hn

/-- The body of the packing loop fails only if the thread number is no `UInt16`. -/
theorem Packed.step (hn : NonNegative nonneg) (ht : ∀ w ∈ tasks, nonneg w) (hs : Stages tasks sizes K chunks chunkoff)
    (hP : 0 < P) {done : List Nat} {st : Packing D} (h : Packed tasks sizes P done st) {c : Nat} (hc : c < K)
    (hnew : c ∉ done) :
    (∀ st', packChunk chunks sizes chunkoff P st (c + 1) = some st' → Packed tasks sizes P (done ++ [c]) st') ∧
      ((live tasks (startOf sizes c) (sizes.getD c 0) = true → Room P (st.assigned.length + 1)) →
        ∃ st', packChunk chunks sizes chunkoff P st (c + 1) = some st') := by
  have hsize : sizes[c]? = some (sizes.getD c 0) := by
    rw [List.getD_eq_getElem?_getD, List.getElem?_eq_getElem (by rw [hs.len]; exact hc)]
    rfl
  by_cases hlive : live tasks (startOf sizes c) (sizes.getD c 0) = true
  · have heq : JuliaFloat.eq (chunkWeight tasks (startOf sizes c) (sizes.getD c 0)) 0.0 = false := by
      simpa [live] using hlive
    obtain ⟨tid, htid, htid1, htidP, hleast⟩ := leastLoaded_spec hn.zero_lt h.loads hP
    obtain ⟨x, hx⟩ : ∃ x, st.load[tid - 1]? = some x := ⟨_, List.getElem?_eq_getElem (by rw [h.loads]; omega)⟩
    have hfit : startOf sizes c + sizes.getD c 0 ≤ st.taskmap.length := by
      rw [h.len, ← hs.sum, ← startOf_succ_getD]
      exact startOf_le_sum _ _
    have hstep : packChunk chunks sizes chunkoff P st (c + 1) =
        (storeChunk st.taskmap (startOf sizes c) (sizes.getD c 0) tid).bind fun map =>
          some ⟨map, st.load.set (tid - 1) (x + chunkWeight tasks (startOf sizes c) (sizes.getD c 0)),
            st.assigned ++ [⟨startOf sizes c, sizes.getD c 0, tid⟩]⟩ := by
      obtain ⟨t, rfl⟩ : ∃ t, tid = t + 1 := ⟨tid - 1, by omega⟩
      rw [Nat.add_sub_cancel] at hx
      unfold packChunk
      simp only [get_succ, hs.weight c hc, hs.offset c hc, hsize, heq, htid, hx, Option.bind_eq_bind, Option.bind_some,
        Option.pure_def, Bool.false_eq_true, if_false, Nat.add_sub_cancel,
        set_succ _ (show t < st.load.length by rw [h.loads]; omega)]
    by_cases htid16 : tid < 2 ^ 16
    · obtain ⟨map, hmap, hmaplen, hget⟩ := storeChunk_spec htid16 hfit
      rw [hmap, Option.bind_some] at hstep
      rw [hstep]
      refine ⟨fun st' hst' => ?_, fun _ => ⟨_, rfl⟩⟩
      cases hst'
      exact h.assign hn ht hnew hlive htid1 htidP htid16 hleast hx hmaplen hget
    · have hpos : 0 < sizes.getD c 0 := by
        by_contra hz
        have h0 : sizes.getD c 0 = 0 := by omega
        rw [h0, hn.not_live_empty] at hlive
        cases hlive
      rw [storeChunk_eq_none htid16 hpos, Option.bind_none] at hstep
      rw [hstep]
      refine ⟨nofun, fun hroom => ?_⟩
      rcases hroom hlive with hP16 | h16
      · omega
      · have hlt : st.assigned.length < P := by omega
        have := hleast _ hlt (h.slots (le_of_lt hlt))
        omega
  · have heq : JuliaFloat.eq (chunkWeight tasks (startOf sizes c) (sizes.getD c 0)) 0.0 = true := by
      simpa [live] using hlive
    have hstep : packChunk chunks sizes chunkoff P st (c + 1) = some st := by
      unfold packChunk
      simp only [get_succ, hs.weight c hc, heq, Option.bind_eq_bind, Option.bind_some, Option.pure_def, if_true]
    rw [hstep]
    refine ⟨fun st' hst' => ?_, fun _ => ⟨st, rfl⟩⟩
    cases hst'
    exact h.skip (by simpa using hlive)

theorem Packed.length {done : List Nat} {st : Packing D} (h : Packed tasks sizes P done st) :
    st.assigned.length = ((done.map (chunkAt sizes)).filter fun r => live tasks r.1 r.2).length := by
  rw [← h.chunks, List.length_map]

/-- The packing loop over any order of the chunks. -/
theorem Packed.run (hn : NonNegative nonneg) (ht : ∀ w ∈ tasks, nonneg w) (hs : Stages tasks sizes K chunks chunkoff)
    (hP : 0 < P) : ∀ {order done : List Nat} {st : Packing D}, Packed tasks sizes P done st → (done ++ order).Nodup →
      (∀ c ∈ order, c < K) →
      (∀ st', (order.map (· + 1)).foldlM (packChunk chunks sizes chunkoff P) st = some st' →
          Packed tasks sizes P (done ++ order) st') ∧
        (Room P (((done ++ order).map (chunkAt sizes)).filter fun r => live tasks r.1 r.2).length →
          ∃ st', (order.map (· + 1)).foldlM (packChunk chunks sizes chunkoff P) st = some st')
  | [], done, st, h, _, _ => by
    rw [List.append_nil]
    refine ⟨fun st' hst' => ?_, fun _ => ⟨st, rfl⟩⟩
    cases hst'
    exact h
  | c :: order, done, st, h, hnd, hK => by
    have hnew : c ∉ done := fun hc => (List.disjoint_of_nodup_append hnd) hc List.mem_cons_self
    obtain ⟨hkeep, hsome⟩ := h.step hn ht hs hP (hK c List.mem_cons_self) hnew
    have hassoc : done ++ c :: order = done ++ [c] ++ order := by simp
    rw [hassoc] at hnd ⊢
    refine ⟨fun st' hst' => ?_, fun hfit => ?_⟩
    · obtain ⟨st₁, h₁, hrest⟩ := Option.bind_eq_some_iff.1 hst'
      exact (Packed.run hn ht hs hP (hkeep st₁ h₁) hnd fun m hm => hK m (List.mem_cons_of_mem c hm)).1 st' hrest
    · -- an assignment is only made where there is weight left to assign
      have hroom : live tasks (startOf sizes c) (sizes.getD c 0) = true → st.assigned.length + 1 ≤
          (((done ++ [c] ++ order).map (chunkAt sizes)).filter fun r => live tasks r.1 r.2).length := by
        intro hlive
        have hone : ([c].map (chunkAt sizes)).filter (fun r => live tasks r.1 r.2) = [c].map (chunkAt sizes) :=
          List.filter_eq_self.2 fun r hr => by rw [List.mem_singleton.1 hr]; exact hlive
        rw [h.length, List.map_append, List.map_append, List.filter_append, List.filter_append, hone, List.length_append,
          List.length_append, List.length_map, List.length_singleton]
        omega
      obtain ⟨st₁, h₁⟩ := hsome fun hlive => hfit.mono (hroom hlive)
      obtain ⟨st', hst'⟩ := (Packed.run hn ht hs hP (hkeep st₁ h₁) hnd
        fun m hm => hK m (List.mem_cons_of_mem c hm)).2 hfit
      exact ⟨st', by rw [List.map_cons, List.foldlM_cons, h₁]; exact hst'⟩

/-- Before the first chunk. -/
theorem packed_nil (tasks : List D) (sizes : List Nat) (P : Nat) :
    Packed tasks sizes P [] ⟨List.replicate tasks.length 0, List.replicate P 0.0, []⟩ := by
  refine ⟨List.length_replicate, List.length_replicate, rfl, nofun, nofun, fun _ => ⟨nofun, fun t _ ht => ?_⟩,
    fun j hj => .inl ⟨List.getElem?_replicate_of_lt hj, nofun⟩⟩
  exact List.getElem?_replicate_of_lt ht

/-- The loads of the tasks are added up without an error if every task is on one of the threads `1, …, P`. -/
theorem taskLoads_isSome_iff {map : List Nat} (hlen : map.length = tasks.length) :
    (∃ loads, taskLoads tasks map P = some loads) ↔ ∀ j < tasks.length, ∃ t, map[j]? = some t ∧ 1 ≤ t ∧ t ≤ P := by
  have hbody : ∀ {loads : List D} {j t : Nat} {w : D}, loads.length = P → map[j]? = some t → tasks[j]? = some w →
      (1 ≤ t ∧ t ≤ P → ∃ loads', (do let t ← get map (j + 1); set loads t ((← get loads t) + (← get tasks (j + 1)))) =
        some loads' ∧ loads'.length = P) ∧
      (¬ (1 ≤ t ∧ t ≤ P) → (do let t ← get map (j + 1); set loads t ((← get loads t) + (← get tasks (j + 1)))) = none) := by
    intro loads j t w hl ht hw
    rw [get_succ, ht, get_succ, hw]
    simp only [Option.bind_eq_bind, Option.bind_some]
    refine ⟨fun hin => ?_, fun hout => ?_⟩
    · obtain ⟨q, rfl⟩ : ∃ q, t = q + 1 := ⟨t - 1, by omega⟩
      obtain ⟨x, hx⟩ : ∃ x, loads[q]? = some x := ⟨_, List.getElem?_eq_getElem (by omega)⟩
      rw [get_succ, hx, Option.bind_some, set_succ _ (by omega)]
      exact ⟨_, rfl, by rw [List.length_set]; exact hl⟩
    · cases get loads t with
      | none => rfl
      | some x => exact set_eq_none _ (by omega)
  have htask : ∀ {j}, j < tasks.length → ∃ t w, map[j]? = some t ∧ tasks[j]? = some w := fun hj =>
    ⟨_, _, List.getElem?_eq_getElem (by omega), List.getElem?_eq_getElem hj⟩
  constructor
  · rintro ⟨loads, h⟩ j hj
    obtain ⟨t, w, ht, hw⟩ := htask hj
    refine ⟨t, ht, ?_⟩
    by_contra hout
    have hkeep : ∀ (i : Nat) (b b' : List D), b.length = P →
        (do let t ← get map i; set b t ((← get b t) + (← get tasks i))) = some b' → b'.length = P := by
      intro i b b' hb hstep
      obtain ⟨t, -, hstep⟩ := Option.bind_eq_some_iff.1 hstep
      obtain ⟨x, -, hstep⟩ := Option.bind_eq_some_iff.1 hstep
      obtain ⟨y, -, hstep⟩ := Option.bind_eq_some_iff.1 hstep
      unfold set store at hstep
      split at hstep
      · cases hstep
      · split at hstep
        · cases hstep
          rw [List.length_set]
          exact hb
        · cases hstep
    obtain ⟨b₁, b₂, hb₁, hstep⟩ := foldlM_mem (fun b : List D => b.length = P) hkeep List.length_replicate h (j + 1)
      (List.mem_range'_1.2 ⟨by omega, by omega⟩)
    rw [(hbody hb₁ ht hw).2 hout] at hstep
    cases hstep
  · intro hall
    obtain ⟨loads, hfold, -⟩ := foldlM_range' (f := fun (loads : List D) i => do
        let t ← get map i
        set loads t ((← get loads t) + (← get tasks i)))
      (fun _ loads => loads.length = P) (b := List.replicate P 0.0) (n := tasks.length) (s := 1) List.length_replicate
      fun i loads h1 hi hI => by
        obtain ⟨j, rfl⟩ : ∃ j, i = j + 1 := ⟨i - 1, by omega⟩
        obtain ⟨t, w, ht, hw⟩ := htask (show j < tasks.length by omega)
        obtain ⟨t', ht', hin⟩ := hall j (by omega)
        obtain rfl : t = t' := Option.some.inj (ht.symm.trans ht')
        exact (hbody hI ht hw).1 hin
    exact ⟨loads, hfold⟩

/-- The chunks, numbered from 0, in the order of the packing loop. -/
def chunkOrder (chunks : List D) : List Nat := (sortperm chunks).reverse.map (· - 1)

theorem sortperm_perm (chunks : List D) : (sortperm chunks).reverse.Perm (List.range' 1 chunks.length) :=
  (List.reverse_perm _).trans (List.perm_insertionSort _ _)

theorem chunkOrder_succ (chunks : List D) : (sortperm chunks).reverse = (chunkOrder chunks).map (· + 1) := by
  unfold chunkOrder
  rw [List.map_map]
  refine (List.map_id _).symm.trans (List.map_congr_left fun i hi => ?_)
  have := (List.mem_range'_1.1 ((sortperm_perm chunks).mem_iff.1 hi)).1
  show i = i - 1 + 1
  omega

/-- The packing loop goes through all chunks. -/
theorem chunkOrder_perm (chunks : List D) : (chunkOrder chunks).Perm (List.range chunks.length) := by
  refine ((sortperm_perm chunks).map _).trans (List.Perm.of_eq ?_)
  rw [List.range'_eq_map_range, List.map_map]
  exact (List.map_congr_left fun i _ => by show 1 + i - 1 = i; omega).trans (List.map_id _)

/-! ## The whole function -/

/-- The sizes of the chunks of a cut, with the unused ones. -/
def sizesOf (parts : List (Nat × Nat)) (K : Nat) : List Nat := parts.map width ++ List.replicate (K - parts.length) 0

theorem chunkAt_sizesOf {heavy : Nat → Nat → Bool} {n c : Nat} {parts : List (Nat × Nat)} {r : Nat × Nat}
    (h : Greedy heavy n 0 parts) (hr : parts[c]? = some r) : chunkAt (sizesOf parts K) c = (r.1, width r) := by
  obtain ⟨hlt, -⟩ := List.getElem?_eq_some_iff.1 hr
  obtain ⟨hstart, -, -⟩ := h.getElem? hr
  have hsize : (sizesOf parts K)[c]? = some (width r) := by
    unfold sizesOf
    rw [List.getElem?_append_left (by rw [List.length_map]; exact hlt), List.getElem?_map, hr]
    rfl
  unfold chunkAt
  rw [List.getD_eq_getElem?_getD, hsize, hstart, Nat.zero_add]
  unfold sizesOf startOf
  rw [List.take_append_of_le_length (by rw [List.length_map]; omega)]
  rfl

theorem chunkAt_unused {parts : List (Nat × Nat)} {c : Nat} (hc : parts.length ≤ c) :
    (chunkAt (sizesOf parts K) c).2 = 0 := by
  unfold chunkAt sizesOf
  rw [List.getD_eq_getElem?_getD, List.getElem?_append_right (by rw [List.length_map]; exact hc), List.getElem?_replicate]
  split <;> rfl

/-- The chunks with weight are the parts with weight, in whatever order the chunks are taken. -/
theorem live_length (hn : NonNegative nonneg) {heavy : Nat → Nat → Bool} {n : Nat} {parts : List (Nat × Nat)}
    (h : Greedy heavy n 0 parts) (hK : parts.length ≤ K) {order : List Nat} (horder : order.Perm (List.range K)) :
    ((order.map (chunkAt (sizesOf parts K))).filter fun r => live tasks r.1 r.2).length =
      (parts.filter fun r => live tasks r.1 (width r)).length := by
  have hall : (List.range K).map (chunkAt (sizesOf parts K)) = parts.map (fun r => (r.1, width r)) ++
      (List.range' parts.length (K - parts.length)).map (chunkAt (sizesOf parts K)) := by
    have hsplit : List.range K = List.range parts.length ++ List.range' parts.length (K - parts.length) := by
      have happend := List.range'_append_1 (s := 0) (m := parts.length) (n := K - parts.length)
      rw [Nat.zero_add, Nat.add_sub_cancel' hK] at happend
      rw [List.range_eq_range', List.range_eq_range', happend]
    rw [hsplit, List.map_append]
    congr 1
    refine List.ext_getElem? fun c => ?_
    rw [List.getElem?_map, List.getElem?_map]
    by_cases hc : c < parts.length
    · rw [List.getElem?_range hc, List.getElem?_eq_getElem hc]
      exact congrArg some (chunkAt_sizesOf h (List.getElem?_eq_getElem hc))
    · rw [List.getElem?_eq_none (by rw [List.length_range]; omega), List.getElem?_eq_none (by omega)]
      rfl
  have hunused : ((List.range' parts.length (K - parts.length)).map (chunkAt (sizesOf parts K))).filter
      (fun r => live tasks r.1 r.2) = [] := by
    refine List.filter_eq_nil_iff.2 fun r hr => ?_
    obtain ⟨c, hc, rfl⟩ := List.mem_map.1 hr
    rw [chunkAt_unused (List.mem_range'_1.1 hc).1, hn.not_live_empty]
    decide
  rw [((horder.map _).filter _).length_eq, hall, List.filter_append, hunused, List.append_nil, List.filter_map,
    List.length_map]
  rfl

/-- What `binlpt_balance` returns for the cut into `parts`: each part has weight and is assigned to a thread as a
whole, the first `P` of them to one slot each. -/
structure Packs (tasks : List D) (parts : List (Nat × Nat)) (P : Nat) (st : Packing D) : Prop where
  len : st.taskmap.length = tasks.length
  weights : ∀ r ∈ parts, live tasks r.1 (width r) = true
  count : st.assigned.length = parts.length
  tids : ∀ a ∈ st.assigned, 1 ≤ a.tid ∧ a.tid ≤ P ∧ a.tid < 2 ^ 16
  fill : ∀ q a, st.assigned[q]? = some a → q < P → a.tid = q + 1
  nonempty : ∀ a ∈ st.assigned, ∃ j < tasks.length, a.Holds j
  entry : ∀ j < tasks.length, ∃ a ∈ st.assigned, a.Holds j ∧ st.taskmap[j]? = some a.tid ∧
    ∀ a' ∈ st.assigned, a'.Holds j → a'.tid = a.tid

variable {parts : List (Nat × Nat)}

theorem stages_of_greedy (hK : parts.length ≤ K) (h : Greedy (heavy tasks K) tasks.length 0 parts) (htasks : tasks ≠ []) :
    ∃ chunks chunkoff, computeChunksizes tasks tasks.length K = some (sizesOf parts K) ∧
      computeChunkweights tasks (sizesOf parts K) K = some chunks ∧ chunks.length = K ∧
      offsetCumsum 0 (sizesOf parts K) = some chunkoff ∧ Stages tasks (sizesOf parts K) K chunks chunkoff := by
  have hlen : (sizesOf parts K).length = K := by
    unfold sizesOf
    rw [List.length_append, List.length_map, List.length_replicate]
    omega
  have hsum : (sizesOf parts K).sum = tasks.length := by
    have := h.sum
    unfold sizesOf
    rw [List.sum_append, List.sum_replicate]
    simpa using this
  obtain ⟨chunks, hchunks, hclen, hweight⟩ := computeChunkweights_spec hlen (le_of_eq hsum)
  obtain ⟨chunkoff, hoff, -, hoffset⟩ := offsetCumsum_spec 0 (sizesOf parts K)
  refine ⟨chunks, chunkoff, ?_, hchunks, hclen, hoff, hlen, hsum, hweight, fun c hc => ?_⟩
  · rw [computeChunksizes_spec htasks h, if_pos hK]
    rfl
  · rw [hoffset c (by omega), partialSum_nat]

/-- Where there is room for the parts, the function is the packing loop over the chunks in their order and the check
that every task was assigned. -/
theorem binlptBalance_eq (hK : parts.length ≤ K) (h : Greedy (heavy tasks K) tasks.length 0 parts) (htasks : tasks ≠ []) :
    ∃ chunks chunkoff, chunks.length = K ∧ Stages tasks (sizesOf parts K) K chunks chunkoff ∧
      (chunkOrder chunks).Perm (List.range K) ∧
      binlptBalance tasks P K = (((chunkOrder chunks).map (· + 1)).foldlM (packChunk chunks (sizesOf parts K) chunkoff P)
        ⟨List.replicate tasks.length 0, List.replicate P 0.0, []⟩).bind fun packing =>
          (taskLoads tasks packing.taskmap P).bind fun _ => some packing := by
  obtain ⟨chunks, chunkoff, hsizes, hchunks, hclen, hoff, hs⟩ := stages_of_greedy hK h htasks
  have hperm := chunkOrder_perm chunks
  rw [hclen] at hperm
  refine ⟨chunks, chunkoff, hclen, hs, hperm, ?_⟩
  unfold binlptBalance
  rw [hsizes, Option.bind_eq_bind, Option.bind_some, hchunks, Option.bind_eq_bind, Option.bind_some, hoff,
    Option.bind_eq_bind, Option.bind_some, chunkOrder_succ]
  rfl

/-- The packing loop over an order of all chunks. -/
theorem Packed.all (hn : NonNegative nonneg) (ht : ∀ w ∈ tasks, nonneg w) (hs : Stages tasks sizes K chunks chunkoff)
    (hP : 0 < P) {order : List Nat} (hperm : order.Perm (List.range K)) :
    (∀ st, (order.map (· + 1)).foldlM (packChunk chunks sizes chunkoff P)
        ⟨List.replicate tasks.length 0, List.replicate P 0.0, []⟩ = some st → Packed tasks sizes P order st) ∧
      (Room P ((order.map (chunkAt sizes)).filter fun r => live tasks r.1 r.2).length →
        ∃ st, (order.map (· + 1)).foldlM (packChunk chunks sizes chunkoff P)
          ⟨List.replicate tasks.length 0, List.replicate P 0.0, []⟩ = some st) := by
  have hrun := Packed.run hn ht hs hP (packed_nil tasks sizes P)
    (by rw [List.nil_append]; exact hperm.nodup_iff.2 List.nodup_range) fun c hc => List.mem_range.1 (hperm.mem_iff.1 hc)
  rwa [List.nil_append] at hrun

/-- Each part is one of the chunks. -/
theorem startOf_sizesOf {heavy : Nat → Nat → Bool} {n c : Nat} {r : Nat × Nat} (h : Greedy heavy n 0 parts)
    (hr : parts[c]? = some r) :
    startOf (sizesOf parts K) c = r.1 ∧ r.1 < r.2 ∧ startOf (sizesOf parts K) (c + 1) = r.2 := by
  have hchunk := chunkAt_sizesOf (K := K) h hr
  unfold chunkAt at hchunk
  rw [Prod.mk.injEq] at hchunk
  have hlt := (h.getElem? hr).2.1
  refine ⟨hchunk.1, hlt, ?_⟩
  rw [startOf_succ_getD, hchunk.1, hchunk.2]
  unfold width
  omega

theorem Packed.live_of_mem {done : List Nat} {st : Packing D} (h : Packed tasks sizes P done st) {a : Assignment}
    (ha : a ∈ st.assigned) : live tasks a.off a.size = true := by
  have hmem : (a.off, a.size) ∈ st.assigned.map fun a => (a.off, a.size) := List.mem_map.2 ⟨a, ha, rfl⟩
  rw [h.chunks] at hmem
  exact (List.mem_filter.1 hmem).2

/-- What `binlpt_balance` returns. -/
theorem binlptBalance_packs (hn : NonNegative nonneg) (ht : ∀ w ∈ tasks, nonneg w) (htasks : tasks ≠ []) (hP : 0 < P)
    (h : Greedy (heavy tasks K) tasks.length 0 parts) {st : Packing D} (hst : binlptBalance tasks P K = some st) :
    Packs tasks parts P st := by
  have hK : parts.length ≤ K := by
    by_contra hK
    unfold binlptBalance at hst
    rw [computeChunksizes_spec htasks h, if_neg hK] at hst
    cases hst
  obtain ⟨chunks, chunkoff, -, hs, hperm, heq⟩ := binlptBalance_eq (P := P) hK h htasks
  rw [heq] at hst
  obtain ⟨packing, hfold, hst⟩ := Option.bind_eq_some_iff.1 hst
  obtain ⟨loads, hloads, hst⟩ := Option.bind_eq_some_iff.1 hst
  cases hst
  have hpacked := (Packed.all hn ht hs hP hperm).1 st hfold
  have hentry : ∀ j < tasks.length, ∃ a ∈ st.assigned, a.Holds j ∧ st.taskmap[j]? = some a.tid ∧
      ∀ a' ∈ st.assigned, a'.Holds j → a'.tid = a.tid := fun j hj => by
    rcases hpacked.entry j hj with ⟨h0, -⟩ | ha
    · obtain ⟨t, ht', h1, -⟩ := (taskLoads_isSome_iff hpacked.len).1 ⟨loads, hloads⟩ j hj
      rw [h0] at ht'
      cases ht'
      omega
    · exact ha
  have hbound : ∀ c, startOf (sizesOf parts K) c ≤ tasks.length := fun c => by
    rw [← hs.sum]
    exact startOf_le_sum _ _
  have hweights : ∀ r ∈ parts, live tasks r.1 (width r) = true := fun r hr => by
    obtain ⟨c, hc⟩ := List.mem_iff_getElem?.1 hr
    obtain ⟨h1, h2, h3⟩ := startOf_sizesOf (K := K) h hc
    have hle := hbound (c + 1)
    -- its first task is on a thread, so the chunk with that task was assigned
    obtain ⟨a, ha, hj, -⟩ := hentry r.1 (by omega)
    obtain ⟨c', -, ha1, ha2⟩ := hpacked.mem_done ha
    obtain rfl : c = c' := startOf_unique (by omega) (by omega) (ha1 ▸ hj.1) (ha2 ▸ hj.2)
    have hlive := hpacked.live_of_mem ha
    have hsize : a.size = width r := by
      unfold width
      omega
    rwa [ha1, h1, hsize] at hlive
  refine ⟨hpacked.len, hweights, ?_, hpacked.tids, hpacked.fill, fun a ha => ?_, hentry⟩
  · rw [hpacked.length, live_length hn h hK hperm, List.filter_eq_self.2 hweights]
  · have hpos : a.size ≠ 0 := fun h0 => by
      have hlive := hpacked.live_of_mem ha
      rw [h0, hn.not_live_empty] at hlive
      cases hlive
    obtain ⟨c, -, h1, h2⟩ := hpacked.mem_done ha
    have := hbound (c + 1)
    exact ⟨a.off, by omega, le_refl _, by omega⟩

/-- If all parts have weight and there is room for their threads, `binlpt_balance` returns. -/
theorem exists_binlptBalance (hn : NonNegative nonneg) (ht : ∀ w ∈ tasks, nonneg w) (htasks : tasks ≠ []) (hP : 0 < P)
    (h : Greedy (heavy tasks K) tasks.length 0 parts) (hK : parts.length ≤ K)
    (hroom : Room P parts.length) (hlive : ∀ r ∈ parts, live tasks r.1 (width r) = true) :
    ∃ st, binlptBalance tasks P K = some st := by
  obtain ⟨chunks, chunkoff, -, hs, hperm, heq⟩ := binlptBalance_eq (P := P) hK h htasks
  obtain ⟨hkeep, hsome⟩ := Packed.all hn ht hs hP hperm
  rw [live_length hn h hK hperm, List.filter_eq_self.2 hlive] at hsome
  obtain ⟨st, hfold⟩ := hsome hroom
  have hpacked := hkeep st hfold
  obtain ⟨loads, hloads⟩ := (taskLoads_isSome_iff (P := P) hpacked.len).2 fun j hj => by
    rcases hpacked.entry j hj with ⟨-, hnone⟩ | ⟨a, ha, -, hget, -⟩
    · -- the position lies in a part, whose chunk has weight
      exfalso
      have hlast : startOf (sizesOf parts K) K = tasks.length := by
        unfold startOf
        rw [List.take_of_length_le (le_of_eq hs.len), hs.sum]
      obtain ⟨c, hc, h1, h2⟩ := exists_startOf (by rw [hlast]; exact hj : j < startOf (sizesOf parts K) K)
      have hcm : c < parts.length := by
        by_contra hge
        have hzero : (chunkAt (sizesOf parts K) c).2 = 0 := chunkAt_unused (by omega)
        have := startOf_succ_getD (sizesOf parts K) c
        unfold chunkAt at hzero
        omega
      have hin : chunkAt (sizesOf parts K) c ∈
          ((chunkOrder chunks).map (chunkAt (sizesOf parts K))).filter fun r => live tasks r.1 r.2 := by
        refine List.mem_filter.2 ⟨List.mem_map.2 ⟨c, hperm.mem_iff.2 (List.mem_range.2 hc), rfl⟩, ?_⟩
        rw [chunkAt_sizesOf h (List.getElem?_eq_getElem hcm)]
        exact hlive _ (List.getElem_mem hcm)
      rw [← hpacked.chunks] at hin
      obtain ⟨a, ha, hchunk⟩ := List.mem_map.1 hin
      unfold chunkAt at hchunk
      rw [Prod.mk.injEq] at hchunk
      refine hnone a ha ⟨by omega, ?_⟩
      rw [hchunk.1, hchunk.2, ← startOf_succ_getD]
      exact h2
    · exact ⟨_, hget, (hpacked.tids a ha).1, (hpacked.tids a ha).2.1⟩
  exact ⟨st, by rw [heq, hfold, Option.bind_some, hloads]; rfl⟩

end Bosched.Julia

namespace Bosched

/-! ## Exact weights -/

instance : JuliaFloat ℚ where
  le a b := decide (a ≤ b)
  eq a b := decide (a = b)
  isless a b := decide (a < b)

theorem nonNegative_exact : Julia.NonNegative (D := ℚ) (fun w => 0 ≤ w) where
  zero := by decide +kernel
  add := fun hx hy => add_nonneg hx hy
  zero_eq := by decide +kernel
  zero_lt := by decide +kernel
  pos := by
    intro x hx hne
    have hzero : (0.0 : ℚ) = 0 := by decide +kernel
    have hne' : x ≠ 0 := by
      rw [hzero] at hne
      exact of_decide_eq_false hne
    show decide ((0.0 : ℚ) < 0.0 + x) = true
    rw [hzero, zero_add]
    exact decide_eq_true (lt_of_le_of_ne hx (Ne.symm hne'))

end Bosched
