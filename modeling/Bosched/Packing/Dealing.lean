/-
What `binlpt_balance` of the runtime computes, in the terms it shares with the tuner's: the greedy cut at more than an
even share, the chunks with weight in the order of the exchange sort from the last one on, and the threads they are
dealt to.
-/
import Bosched.Packing.JuliaLoop
import Bosched.Packing.Quality

namespace Bosched

open Lib

/-! ## The cut -/

/-- The tasks `[i, j)` weigh more than an even share. -/
def overShare (tasks : List U32) (n K i j : Nat) : Bool :=
  decide (prefixWeight tasks 0 n < K * (prefixWeight tasks 0 j - prefixWeight tasks 0 i))

/-- The sizes of `K` chunks, as the arrays of the runtime hold them. -/
def sizesOf (parts : List (Nat × Nat)) (K : Nat) : List U32 := (Julia.sizesOf parts K).map (BitVec.ofNat 32)

section

variable {tasks workload : List U32} {n K : Nat} {cw : U32}

/-- With the chunk weight rounded down the comparison is the one with the exact share. -/
theorem overShare_iff (hK : 0 < K) (hcw : cw.toNat = prefixWeight tasks 0 n / K) (i j : Nat) :
    overShare tasks n K i j = true ↔ cw.toNat < prefixWeight tasks 0 j - prefixWeight tasks 0 i := by
  unfold overShare
  rw [decide_eq_true_iff, hcw, Nat.div_lt_iff_lt_mul hK, mul_comm]

theorem overShare_eq_false (hK : 0 < K) (hcw : cw.toNat = prefixWeight tasks 0 n / K) {i j : Nat}
    (h : prefixWeight tasks 0 j - prefixWeight tasks 0 i ≤ cw.toNat) : overShare tasks n K i j = false := by
  rw [← Bool.not_eq_true, overShare_iff hK hcw]
  exact not_lt.2 h

/-- Behind `K - 1` heavy chunks nothing is heavy, so the rule for the last chunk does not matter. -/
theorem overShare_last {i : Nat} (hK : 0 < K) (hcw : cw.toNat = prefixWeight tasks 0 n / K)
    (hheavy : (K - 1) * (cw.toNat + 1) ≤ prefixWeight tasks 0 i) {j : Nat} (hj : j ≤ n) : overShare tasks n K i j = false := by
  refine overShare_eq_false hK hcw ?_
  have hover : prefixWeight tasks 0 n < K * (cw.toNat + 1) := by
    rw [hcw]
    exact Nat.lt_mul_div_succ _ hK
  obtain ⟨k, rfl⟩ : ∃ k, K = k + 1 := ⟨K - 1, by omega⟩
  rw [Nat.add_sub_cancel] at hheavy
  rw [Nat.add_mul, Nat.one_mul] at hover
  have := prefixWeight_mono tasks 0 hj
  omega

/-- The outer loop stores the greedy cut. -/
theorem chunkLoop_greedy (hw : Cumulates tasks workload n) (hK : 0 < K) (hcw : cw.toNat = prefixWeight tasks 0 n / K) {i : Nat}
    {parts : List (Nat × Nat)} (h : Greedy (overShare tasks n K) n i parts) : ∀ {f z : Nat} {p : List U32}, n ≤ i + f →
      p.length + z = K → (i < n → 0 < z) → p.length * (cw.toNat + 1) ≤ prefixWeight tasks 0 i →
      parts.length ≤ z ∧ chunkLoop workload cw n K f p.length i (p ++ List.replicate z 0) =
        some (p ++ parts.map (fun r => BitVec.ofNat 32 (width r)) ++ List.replicate (z - parts.length) 0) := by
  induction h with
  | nil =>
    intro f z p _ _ _ _
    refine ⟨Nat.zero_le z, ?_⟩
    rw [List.map_nil, List.append_nil, List.length_nil, Nat.sub_zero]
    cases f with
    | zero => rfl
    | succ f => simp [chunkLoop]
  | @cons i j parts hij hjn hlight hend hparts ih =>
    intro f z p hf hz hroom hheavy
    have hin : i < n := by omega
    obtain ⟨z, rfl⟩ : ∃ z', z = z' + 1 := ⟨z - 1, by have := hroom hin; omega⟩
    obtain ⟨f, rfl⟩ : ∃ f', f = f' + 1 := ⟨f - 1, by omega⟩
    -- the chunk that is found is the part
    have hfind : (if p.length < K - 1 then chunkEnd workload cw i n (n - i) (i + 1) else some n) = some j := by
      split
      · rename_i hk
        have hnone : ∀ m, i < m → m < i + 1 → prefixWeight tasks 0 m - prefixWeight tasks 0 i ≤ cw.toNat :=
          fun m h1 h2 => by omega
        obtain ⟨j', hj', hij', hjn', hle', hgt'⟩ := chunkEnd_spec hw hin (by omega : n - (i + 1) ≤ n - i)
          (Nat.lt_succ_self i) hin hnone
        rw [hj']
        refine congrArg some ?_
        rcases Nat.lt_trichotomy j' j with hlt | heq | hgt
        · have := (overShare_iff hK hcw i j').2 (hgt' (by omega))
          rw [hlight j' hij' hlt] at this
          cases this
        · exact heq
        · have := overShare_eq_false hK hcw (hle' j hij hgt)
          rw [hend.resolve_left (by omega)] at this
          cases this
      · rename_i hk
        have hlast : p.length = K - 1 := by omega
        rcases hend with rfl | hend
        · rfl
        · rw [overShare_last hK hcw (hlast ▸ hheavy) hjn] at hend
          cases hend
    have hroom' : j < n → 0 < z := fun hj => by
      have hend := hend.resolve_left (by omega)
      by_contra hzero
      rw [overShare_last hK hcw (by rw [show K - 1 = p.length by omega]; exact hheavy) hjn] at hend
      cases hend
    have hheavy' : j < n → (p ++ [BitVec.ofNat 32 (j - i)]).length * (cw.toNat + 1) ≤ prefixWeight tasks 0 j := fun hj => by
      have := (overShare_iff hK hcw i j).1 (hend.resolve_left (by omega))
      have := prefixWeight_mono tasks 0 hij.le
      rw [List.length_append, List.length_singleton, Nat.add_mul, Nat.one_mul]
      omega
    rw [chunkLoop_succ hin, hfind, Option.bind_some, store_some _ (by simp), Option.bind_some,
      List.set_append_right _ _ (le_refl _), Nat.sub_self, List.replicate_succ, List.set_cons_zero]
    have hassoc : p ++ BitVec.ofNat 32 (j - i) :: List.replicate z 0 =
        p ++ [BitVec.ofNat 32 (j - i)] ++ List.replicate z 0 := by simp
    rcases Nat.lt_or_eq_of_le hjn with hlt | rfl
    · obtain ⟨hle, hrest⟩ := ih (f := f) (z := z) (p := p ++ [BitVec.ofNat 32 (j - i)]) (by omega)
        (by rw [List.length_append, List.length_singleton]; omega) hroom' (hheavy' hlt)
      refine ⟨by rw [List.length_cons]; omega, ?_⟩
      rw [List.length_append, List.length_singleton] at hrest
      rw [hassoc, hrest, List.length_cons, Nat.add_sub_add_right]
      simp [width]
    · obtain rfl : parts = [] := hparts.unique .nil
      refine ⟨by simp, ?_⟩
      rw [hassoc]
      cases f <;> simp [chunkLoop, width]

/-- `compute_chunksizes` finds the greedy cut. -/
theorem computeChunksizes_greedy (hn0 : 0 < n) (hlen : n ≤ tasks.length) (hK : 0 < K) (hK32 : K < 2 ^ 32)
    (hsum : prefixWeight tasks 0 n < 2 ^ 32) {parts : List (Nat × Nat)} (h : Greedy (overShare tasks n K) n 0 parts) :
    parts.length ≤ K ∧ computeChunksizes tasks n K = some (sizesOf parts K) := by
  obtain ⟨workload, hworkload, hw⟩ := computeCummulativesum_spec hn0 hlen hsum
  obtain ⟨s, hs, hsv⟩ := hw (n - 1) (by omega)
  obtain ⟨w, hwn⟩ : ∃ w, tasks[n - 1]? = some w := ⟨_, List.getElem?_eq_getElem (by omega)⟩
  have htotal : (s + w).toNat = prefixWeight tasks 0 n := by
    have hw0 : tasks[0 + (n - 1)]? = some w := by rwa [zero_add]
    rw [toNat_add_weight hsv hw0 (by omega : n - 1 < n) hsum, Nat.sub_add_cancel hn0]
  have hcw : ((s + w) / BitVec.ofNat 32 K).toNat = prefixWeight tasks 0 n / K := by
    rw [BitVec.toNat_udiv, htotal, BitVec.toNat_ofNat, Nat.mod_eq_of_lt hK32]
  obtain ⟨hle, hloop⟩ := chunkLoop_greedy (f := n) (z := K) (p := []) hw hK hcw h (by omega) (by simp) (fun _ => hK)
    (by simp)
  refine ⟨hle, ?_⟩
  unfold computeChunksizes
  rw [hworkload]
  show (if K = 0 then none else _) = _
  rw [if_neg (by omega), hs, hwn]
  refine hloop.trans (congrArg some ?_)
  unfold sizesOf Julia.sizesOf
  rw [List.map_append, List.map_replicate, List.map_map]
  rfl

/-- The chunks of the array are those of the cut. -/
theorem prefixWeight_sizesOf {heavy : Nat → Nat → Bool} {parts : List (Nat × Nat)} (h : Greedy heavy n 0 parts)
    (hn : n < 2 ^ 32) (c : Nat) : prefixWeight (sizesOf parts K) 0 c = startOf (Julia.sizesOf parts K) c := by
  have hback : (sizesOf parts K).map (·.toNat) = Julia.sizesOf parts K := by
    unfold sizesOf
    rw [List.map_map]
    refine (List.map_congr_left fun size hsize => ?_).trans (List.map_id _)
    have hle : size ≤ (Julia.sizesOf parts K).sum := List.le_sum_of_mem hsize
    have hsum : (Julia.sizesOf parts K).sum = n := by
      have := h.sum
      unfold Julia.sizesOf
      rw [List.sum_append, List.sum_replicate]
      simpa using this
    show (BitVec.ofNat 32 size).toNat = size
    rw [BitVec.toNat_ofNat, Nat.mod_eq_of_lt (by omega)]
  unfold prefixWeight prefixSum startOf
  rw [hback, List.drop_zero]

end

/-! ## The packing loop -/

section

variable {tasks sizes sortmap : List U32} {n K P : Nat}

/-- The chunk at position `m` of the sorted order. -/
def chunkNumber (sortmap : List U32) (m : Nat) : Nat := (sortmap.getD m 0).toNat

/-- The chunks with weight at the positions `i, …, K - 1`, from the last one on. -/
def dealOrder (tasks sizes sortmap : List U32) (K i : Nat) : List Nat :=
  ((List.range' i (K - i)).reverse.map (chunkNumber sortmap)).filter fun c => chunkWeight tasks sizes c ≠ 0

theorem dealOrder_step {i : Nat} (hi : i < K) : dealOrder tasks sizes sortmap K i =
    dealOrder tasks sizes sortmap K (i + 1) ++
      if chunkWeight tasks sizes (chunkNumber sortmap i) ≠ 0 then [chunkNumber sortmap i] else [] := by
  unfold dealOrder
  obtain ⟨k, hk⟩ : ∃ k, K - i = k + 1 := ⟨K - i - 1, by omega⟩
  rw [hk, show K - (i + 1) = k by omega, List.range'_succ, List.reverse_cons, List.map_append, List.filter_append,
    List.map_singleton, List.filter_singleton]
  simp

/-- The state of the packing loop once the positions `i, …, K - 1` are done: the chunks with weight are dealt to the
threads `ts`, which the map holds for their tasks. -/
structure Dealing (tasks sizes sortmap : List U32) (n K P i : Nat) (ts : List Nat) (st : List U32 × List Word) : Prop where
  len : st.1.length = n
  loads : st.2.length = P
  dealt : Dealt P (fun _ => 0) ((dealOrder tasks sizes sortmap K i).map (chunkWeight tasks sizes)) ts (loadAt st.2)
  entry : ∀ (q c t : Nat), (dealOrder tasks sizes sortmap K i)[q]? = some c → ts[q]? = some t →
    ∀ j, InChunk sizes c j → taskThread st.1 j = t
  small : ∀ t, loadAt st.2 t ≤ (K - i) * 2 ^ 32

theorem loadAt_set {load : List Word} {tid : Nat} (h : tid < load.length) (x : Word) :
    loadAt (load.set tid x) = Function.update (loadAt load) tid x.toNat := by
  funext t
  unfold loadAt
  by_cases ht : t = tid
  · rw [ht, Function.update_self, List.getD_eq_getElem?_getD, List.getElem?_set_self h, Option.getD_some]
  · rw [Function.update_of_ne ht, List.getD_eq_getElem?_getD, List.getElem?_set_ne (Ne.symm ht), ← List.getD_eq_getElem?_getD]

theorem mem_dealOrder {i c : Nat} (h : c ∈ dealOrder tasks sizes sortmap K i) :
    ∃ m, i ≤ m ∧ m < K ∧ chunkNumber sortmap m = c := by
  obtain ⟨hmem, -⟩ := List.mem_filter.1 h
  obtain ⟨m, hm, rfl⟩ := List.mem_map.1 hmem
  have := List.mem_range'_1.1 (List.mem_reverse.1 hm)
  exact ⟨m, this.1, by omega, rfl⟩

theorem Dealing.skip {i : Nat} {ts : List Nat} {st : List U32 × List Word} (h : Dealing tasks sizes sortmap n K P (i + 1) ts st)
    (hi : i < K) (hzero : chunkWeight tasks sizes (chunkNumber sortmap i) = 0) : Dealing tasks sizes sortmap n K P i ts st := by
  have horder : dealOrder tasks sizes sortmap K i = dealOrder tasks sizes sortmap K (i + 1) := by
    rw [dealOrder_step hi, if_neg (not_not.2 hzero), List.append_nil]
  refine ⟨h.len, h.loads, by rw [horder]; exact h.dealt, by rw [horder]; exact h.entry, fun t => (h.small t).trans ?_⟩
  exact Nat.mul_le_mul_right _ (by omega)

theorem Dealing.deal {i tid : Nat} {ts : List Nat} {map map' : List U32} {load : List Word} {weight : U32} (hmap : SortMap sortmap K)
    (hK : K < 2 ^ 32) (h : Dealing tasks sizes sortmap n K P (i + 1) ts (map, load)) (hi : i < K)
    (hweight : weight.toNat = chunkWeight tasks sizes (chunkNumber sortmap i)) (hne : weight ≠ 0)
    (hleast : FirstLeast (loadAt load) P tid) (hlen : map'.length = map.length)
    (hin : ∀ j, InChunk sizes (chunkNumber sortmap i) j → taskThread map' j = tid)
    (hout : ∀ j, ¬ InChunk sizes (chunkNumber sortmap i) j → taskThread map' j = taskThread map j) :
    Dealing tasks sizes sortmap n K P i (ts ++ [tid]) (map', load.set tid (load.getD tid 0 + weight.setWidth 64)) := by
  have hpos : chunkWeight tasks sizes (chunkNumber sortmap i) ≠ 0 := by
    rw [← hweight]
    exact fun hzero => hne (BitVec.eq_of_toNat_eq hzero)
  have horder : dealOrder tasks sizes sortmap K i = dealOrder tasks sizes sortmap K (i + 1) ++ [chunkNumber sortmap i] := by
    rw [dealOrder_step hi, if_pos hpos]
  have hloads : load.length = P := h.loads
  have hsmall : loadAt load tid ≤ (K - (i + 1)) * 2 ^ 32 := h.small tid
  have hwlt : weight.toNat < 2 ^ 32 := weight.isLt
  have hbound : (K - (i + 1)) * 2 ^ 32 + 2 ^ 32 = (K - i) * 2 ^ 32 := by
    rw [show K - i = K - (i + 1) + 1 by omega, Nat.add_mul, Nat.one_mul]
  have hnew : (load.getD tid 0 + weight.setWidth 64).toNat = loadAt load tid + weight.toNat := by
    unfold loadAt at hsmall ⊢
    rw [BitVec.toNat_add, BitVec.toNat_setWidth, Nat.mod_eq_of_lt (by omega : weight.toNat < 2 ^ 64),
      Nat.mod_eq_of_lt (by omega)]
  have hset := loadAt_set (by rw [hloads]; exact hleast.lt : tid < load.length) (load.getD tid 0 + weight.setWidth 64)
  rw [hnew] at hset
  have hlens : ts.length = (dealOrder tasks sizes sortmap K (i + 1)).length := by
    rw [h.dealt.length, List.length_map]
  refine ⟨hlen.trans h.len, by rw [List.length_set]; exact hloads, ?_, fun q c t hq ht j hj => ?_, fun t => ?_⟩
  · rw [horder, List.map_append, hset, hweight]
    exact h.dealt.snoc hleast _
  · rw [horder] at hq
    by_cases hlt : q < ts.length
    · rw [List.getElem?_append_left (by omega)] at hq
      rw [List.getElem?_append_left hlt] at ht
      obtain ⟨m, him, hmK, rfl⟩ := mem_dealOrder (List.mem_of_getElem? hq)
      rw [hout j fun hj' => ?_]
      · exact h.entry q _ t hq ht j hj
      · have := hmap.inj i hi m hmK (hj'.unique hj)
        omega
    · rw [List.getElem?_append_right (by omega), List.getElem?_singleton] at hq ht
      split at hq
      · split at ht
        · cases hq
          cases ht
          exact hin j hj
        · cases ht
      · cases hq
  · rw [hset]
    by_cases htt : t = tid
    · rw [htt, Function.update_self]
      omega
    · rw [Function.update_of_ne htt]
      exact (h.small t).trans (Nat.mul_le_mul_right _ (by omega))

/-- What `binlpt_balance` computes for a cut. -/
structure Deals (tasks sizes chunks sorted sortmap : List U32) (n K P : Nat) (ts : List Nat) (load : Nat → Nat)
    (map : List U32) : Prop where
  sorts : sort chunks K (List.replicate n 0) = some (sorted, sortmap)
  sortMap : SortMap sortmap K
  least : LeastTo sorted K K
  weight : ∀ m < K, sorted.getD m 0 = BitVec.ofNat 32 (chunkWeight tasks sizes (chunkNumber sortmap m))
  len : map.length = n
  dealt : Dealt P (fun _ => 0) ((dealOrder tasks sizes sortmap K 0).map (chunkWeight tasks sizes)) ts load
  entry : ∀ (q c t : Nat), (dealOrder tasks sizes sortmap K 0)[q]? = some c → ts[q]? = some t →
    ∀ j, InChunk sizes c j → taskThread map j = t

theorem binlptBalance_deals {taskmap : List U32} (hlen : tasks.length = n) (hn : n < 2 ^ 32) (hmaplen : taskmap.length = n)
    (hP : 0 < P) (hP32 : P < 2 ^ 32) (hK : 0 < K) (hKn : K ≤ n) (hsum : prefixWeight tasks 0 n < 2 ^ 32)
    (hsizes : computeChunksizes tasks n K = some sizes) (hcuts : CutsInto sizes n K) {chunks : List U32}
    (hchunks : computeChunks tasks sizes K = some chunks) (hclen : chunks.length = K)
    (hweighs : ∀ m < K, chunks[m]? = some (BitVec.ofNat 32 (chunkWeight tasks sizes m))) :
    ∃ sorted sortmap ts load map, binlptBalance tasks n P K taskmap = some map ∧
      Deals tasks sizes chunks sorted sortmap n K P ts load map := by
  obtain ⟨chunkoff, hoff, hcum⟩ := computeCummulativesum_spec hK (le_of_eq hcuts.len.symm) (by rw [hcuts.total]; exact hn)
  obtain ⟨sorted, sortmap, hsort, htracks, hleast⟩ := sort_spec (by omega) hclen (by rw [List.length_replicate]; exact hKn :
    K ≤ (List.replicate n (0 : U32)).length)
  have hmap : SortMap sortmap K := sortMap_of_perm (by omega) htracks.perm
  have hsorted : ∀ i < K, sorted[i]? = some (BitVec.ofNat 32 (chunkWeight tasks sizes (chunkNumber sortmap i))) := fun i hi => by
    obtain ⟨c, hget, hentry⟩ := htracks.entry i hi
    obtain rfl : sortmap.getD i 0 = c := Option.some.inj ((hmap.get i hi).symm.trans hget)
    rw [hentry]
    exact hweighs _ (hmap.lt i hi)
  have hwlt : ∀ c < K, chunkWeight tasks sizes c < 2 ^ 32 := fun c hc =>
    lt_of_le_of_lt ((Nat.sub_le _ _).trans (prefixWeight_mono tasks 0 (hcuts.offset_le (show c + 1 ≤ K from hc)))) hsum
  have hidle : loadAt (List.replicate P (0 : Word)) = fun _ => 0 := by
    funext t
    unfold loadAt
    rw [List.getD_eq_getElem?_getD, List.getElem?_getD_replicate_default_eq]
    rfl
  have hnone : dealOrder tasks sizes sortmap K K = [] := by
    unfold dealOrder
    rw [Nat.sub_self]
    rfl
  have hloop := foldlM_range_reverse (f := packBody sorted sortmap chunkoff sizes P)
    (fun i st => ∃ ts, Dealing tasks sizes sortmap n K P i ts st) (n := K) (b := (taskmap, List.replicate P 0))
    ⟨[], hmaplen, List.length_replicate, ?_, fun q c t hq => ?_, fun t => ?_⟩ fun i st hi hI => ?_
  · obtain ⟨⟨map, load⟩, hfold, ts, h⟩ := hloop
    refine ⟨sorted, sortmap, ts, loadAt load, map, ?_, hsort, hmap, hleast, fun m hm => ?_, h.len, h.dealt, h.entry⟩
    · unfold binlptBalance
      rw [hsizes, Option.bind_eq_bind, Option.bind_some, hchunks, Option.bind_eq_bind, Option.bind_some, hoff,
        Option.bind_eq_bind, Option.bind_some, hsort]
      exact congrArg (fun r => r.bind fun st : List U32 × List Word => some st.1) hfold
    · rw [List.getD_eq_getElem?_getD, hsorted m hm]
      rfl
  · rw [hnone, List.map_nil, hidle]
    exact .nil
  · rw [hnone] at hq
    cases hq
  · rw [hidle]
    exact Nat.zero_le _
  · obtain ⟨map, load⟩ := st
    obtain ⟨ts, hI⟩ := hI
    have hc := hmap.lt i hi
    have hwv : (BitVec.ofNat 32 (chunkWeight tasks sizes (chunkNumber sortmap i))).toNat =
        chunkWeight tasks sizes (chunkNumber sortmap i) := by
      rw [BitVec.toNat_ofNat, Nat.mod_eq_of_lt (hwlt (chunkNumber sortmap i) hc)]
    obtain ⟨off, hoffc, hoffv⟩ := hcum _ hc
    obtain ⟨size, hsize⟩ : ∃ size, sizes[(sortmap.getD i 0).toNat]? = some size :=
      ⟨_, List.getElem?_eq_getElem (by rw [hcuts.len]; exact hc)⟩
    have hend : offset sizes ((sortmap.getD i 0).toNat + 1) = off.toNat + size.toNat := by
      rw [hoffv]
      exact prefixWeight_succ (by rwa [zero_add])
    have hfit : off.toNat + size.toNat ≤ map.length := by
      rw [← hend, show map.length = n from hI.len]
      exact hcuts.offset_le hc
    have hchunk : ∀ j, InChunk sizes (chunkNumber sortmap i) j ↔ off.toNat ≤ j ∧ j < off.toNat + size.toNat := fun j => by
      unfold InChunk chunkNumber
      rw [hend, hoffv]
      rfl
    rcases packBody_some (hsorted i hi) (hmap.get i hi) hoffc hsize hfit hI.loads hP hP32 with
      ⟨hzero, hbody⟩ | ⟨hne, tid, map', hleast, hlen', hin, hout, hbody⟩
    · exact ⟨(map, load), hbody, ts, hI.skip hi (by rw [← hwv, hzero]; rfl)⟩
    · refine ⟨_, hbody, ts ++ [tid], hI.deal hmap (by omega) hi hwv hne hleast hlen' (fun j hj => ?_) fun j hj => ?_⟩
      · obtain ⟨h1, h2⟩ := (hchunk j).1 hj
        exact hin j h1 h2
      · exact hout j fun h => hj ((hchunk j).2 h)

end

end Bosched
