/-
When the cell of an iteration tells the truth. A cell stands for `doacross->chunk_size` outer
iterations; as long as these always belong to one chunk, a single thread posts them in order, and
the words of the cell never get ahead of what that thread has posted. For each word of a cell the
proof keeps the iteration whose post left it there (`src`).
-/
import Bosched.Iter.DoacrossChunks

namespace Bosched

open Lib

/-! ## The log -/

section

variable {ι : Type}

theorem posted_append {log : List (ι × DoaEvent)} {i : ι} {e : DoaEvent} {t : Nat} :
    Posted (log ++ [(i, e)]) t ↔ Posted log t ∨ e = .posted t := by
  unfold Posted
  constructor
  · rintro ⟨j, hj⟩
    rcases List.mem_append.1 hj with hj | hj
    · exact .inl ⟨j, hj⟩
    · rw [List.mem_singleton, Prod.mk.injEq] at hj
      exact .inr hj.2.symm
  · rintro (⟨j, hj⟩ | rfl)
    · exact ⟨j, List.mem_append_left _ hj⟩
    · exact ⟨i, by simp⟩

theorem WaitsSafe.append {log : List (ι × DoaEvent)} {i : ι} {e : DoaEvent} (h : WaitsSafe log)
    (he : ∀ t, e = .waited t → Posted log t) : WaitsSafe (log ++ [(i, e)]) := by
  intro pre j t post heq
  rcases List.eq_nil_or_concat post with rfl | ⟨post', x, rfl⟩
  · obtain ⟨rfl, hx⟩ := List.append_inj' heq rfl
    rw [List.cons.injEq, Prod.mk.injEq] at hx
    exact he t hx.1.2
  · have heq' : log ++ [(i, e)] = (pre ++ (j, .waited t) :: post') ++ [x] := by
      rw [heq]; simp
    exact h pre j t post' (List.append_inj' heq' rfl).1

theorem claims_posted (log : List (ι × DoaEvent)) (i : ι) (t : Nat) : claims (log ++ [(i, .posted t)]) = claims log := by
  rw [claims_append]; exact List.append_nil _

theorem claims_waited (log : List (ι × DoaEvent)) (i : ι) (t : Nat) : claims (log ++ [(i, .waited t)]) = claims log := by
  rw [claims_append]; exact List.append_nil _

end

/-! ## The setting -/

/-- The chunk of an iteration, where a chunk is `s` iterations of the outermost loop. -/
def chunkOf (counts : List Nat) (s r : Nat) : Nat := r / innerTrip counts / s

/-- A doacross loop whose cells belong to one chunk each. -/
structure CellInChunk (counts : List Nat) (d : Doacross) (s : Nat) : Prop where
  pos : 0 < s
  counts_ne : counts ≠ []
  counts_pos : ∀ k ∈ counts, 0 < k
  counts_lt : ∀ k ∈ counts, k < 2 ^ 63
  ncounts : d.ncounts = counts.length
  shifts : d.shiftCounts = shiftCounts counts
  bits : d.flattened = true → counts.foldl addBits 0 ≤ 64
  cell : ∀ t < counts.prod, ∀ y < counts.prod, entOf counts d t = entOf counts d y →
    chunkOf counts s t = chunkOf counts s y

namespace CellInChunk

variable {counts : List Nat} {d : Doacross} {s : Nat} (h : CellInChunk counts d s)

include h

theorem innerTrip_pos : 0 < innerTrip counts :=
  List.prod_pos fun k hk => h.counts_pos k (List.mem_of_mem_tail hk)

theorem prod_eq : counts.prod = counts.headI * innerTrip counts := by
  have hne := h.counts_ne
  cases counts with
  | nil => exact absurd rfl hne
  | cons k ks => rw [List.prod_cons]; rfl

omit h in
theorem mem_chunk (hpos : 0 < innerTrip counts) (hs : 0 < s) {r j : Nat} :
    chunkOf counts s r = j ↔ j * s * innerTrip counts ≤ r ∧ r < (j + 1) * s * innerTrip counts := by
  have hs' : r / innerTrip counts / s = r / (innerTrip counts * s) := Nat.div_div_eq_div_mul _ _ _
  have hp : 0 < innerTrip counts * s := Nat.mul_pos hpos hs
  have e1 : j * s * innerTrip counts = j * (innerTrip counts * s) := by ring
  have e2 : (j + 1) * s * innerTrip counts = (j + 1) * (innerTrip counts * s) := by ring
  unfold chunkOf
  rw [hs', e1, e2, Nat.div_eq_iff hp]
  have : (j + 1) * (innerTrip counts * s) = j * (innerTrip counts * s) + innerTrip counts * s := by ring
  omega

/-- The word of a component does not wrap. -/
theorem toNat_word {r k : Nat} (hr : r < counts.prod) (hk : k < counts.length) :
    (BitVec.ofNat 64 ((vec counts r).getD k 0) + 1 : Word).toNat = (vec counts r).getD k 0 + 1 := by
  have h1 := vec_getD_lt hr hk
  have h2 := h.counts_lt _ (List.getElem_mem hk)
  have h3 : (vec counts r).getD k 0 < 2 ^ 64 := by omega
  rw [BitVec.toNat_add, BitVec.toNat_ofNat, Nat.mod_eq_of_lt h3]
  exact Nat.mod_eq_of_lt (by show (vec counts r).getD k 0 + 1 < 2 ^ 64; omega)

end CellInChunk

/-- The words of a cell in use. -/
def Doacross.dims (d : Doacross) : Nat := if d.flattened then 1 else d.ncounts

/-! ## The invariant -/

section

variable {ι : Type} (counts : List Nat) (d : Doacross) (s : Nat)

/-- Posts of a chunk are made in order, once the chunk was taken. -/
structure InOrder (log : List (ι × DoaEvent)) : Prop where
  lt : ∀ {y}, Posted log y → y < counts.prod
  taken : ∀ {y}, Posted log y → ∃ i hi, (i, chunkOf counts s y * s, hi) ∈ claims log
  closed : ∀ {t y}, Posted log y → t < y → chunkOf counts s t = chunkOf counts s y → Posted log t

/-- The words of the cells are what posted iterations left, and a word further in is from the same
iteration or a later one. -/
structure Written (src : Nat → Nat → Option Nat) (st : DoaState) (log : List (ι × DoaEvent)) : Prop where
  word : ∀ e k, st.cells e k = (src e k).elim 0 fun y => postWord counts d y k
  posted : ∀ {e k y}, src e k = some y → entOf counts d y = e ∧ Posted log y
  mono : ∀ {e k k' y}, src e k = some y → k ≤ k' → k' < d.dims → ∃ y', src e k' = some y' ∧ y ≤ y'

/-- The shared part. -/
structure Posts (src : Nat → Nat → Option Nat) (st : DoaState) (log : List (ι × DoaEvent)) : Prop where
  order : InOrder counts s log
  written : Written counts d src st log
  safe : WaitsSafe log

/-- A thread runs iteration `r` of a chunk it has taken. -/
structure Running (i : ι) (log : List (ι × DoaEvent)) (r hi : Nat) : Prop where
  mine : (i, chunkOf counts s r * s, hi) ∈ claims log
  lt : r < hi * innerTrip counts
  below : ∀ t < r, chunkOf counts s t = chunkOf counts s r → Posted log t

/-- No iteration of its chunk from `r` on was posted. -/
def Pending (log : List (ι × DoaEvent)) (r : Nat) : Prop :=
  ∀ y, Posted log y → chunkOf counts s y = chunkOf counts s r → y < r

/-- Iteration `r` is the newest of its chunk that was posted. -/
structure Newest (log : List (ι × DoaEvent)) (r : Nat) : Prop where
  posted : Posted log r
  le : ∀ y, Posted log y → chunkOf counts s y = chunkOf counts s r → y ≤ r

/-- A thread in `GOMP_doacross_post` has left `r` in the words further in; one in
`GOMP_doacross_wait` has seen a word of an iteration no earlier than `t`, as far as it has compared. -/
def DoaLocal.Inv (i : ι) (log : List (ι × DoaEvent)) (src : Nat → Nat → Option Nat) : DoaLocal → Prop
  | .taking _ => True
  | .body r hi => Running counts s i log r hi ∧ Pending counts s log r
  | .postFlat r hi => Running counts s i log r hi ∧ Pending counts s log r ∧ d.flattened = true
  | .postDims r hi k | .postStore r hi k => Running counts s i log r hi ∧ Newest counts s log r ∧
      d.flattened = false ∧ k < d.ncounts ∧ ∀ k', k < k' → k' < d.ncounts → src (entOf counts d r) k' = some r
  | .waitFlat r hi t => Running counts s i log r hi ∧ Pending counts s log r ∧ t < r ∧ d.flattened = true
  | .waitDims r hi t k => Running counts s i log r hi ∧ Pending counts s log r ∧ t < r ∧
      d.flattened = false ∧ k < d.ncounts ∧
      (k = 0 ∨ ∃ y, src (entOf counts d t) (k - 1) = some y ∧ outer counts k t ≤ outer counts k y)

/-- What a step of thread `i` may do to the others: post and write in chunks of its own. -/
structure Frame (i : ι) (log : List (ι × DoaEvent)) (src : Nat → Nat → Option Nat) (log' : List (ι × DoaEvent))
    (src' : Nat → Nat → Option Nat) : Prop where
  took : ∀ x ∈ claims log, x ∈ claims log'
  posted : ∀ {t}, Posted log t → Posted log' t
  mine : ∀ {t}, Posted log' t → Posted log t ∨ ∃ hi, (i, chunkOf counts s t * s, hi) ∈ claims log'
  grows : ∀ {e k y}, src e k = some y → ∃ y', src' e k = some y' ∧ y ≤ y'
  writes : ∀ {e k}, src' e k ≠ src e k → ∃ r hi, r < counts.prod ∧ entOf counts d r = e ∧
    (i, chunkOf counts s r * s, hi) ∈ claims log'

end

section

variable {ι : Type} {counts : List Nat} {d : Doacross} {s : Nat} (h : CellInChunk counts d s)
  {i j : ι} {log log' : List (ι × DoaEvent)} {src src' : Nat → Nat → Option Nat} {r hi t : Nat}

theorem Frame.refl : Frame counts d s i log src log src where
  took _ hx := hx
  posted ht := ht
  mine ht := .inl ht
  grows hy := ⟨_, hy, le_refl _⟩
  writes hne := absurd rfl hne

include h

theorem Running.lt_prod (hR : Running counts s i log r hi) (hc : Cuts counts.headI s (claims log)) : r < counts.prod := by
  obtain ⟨j, -, -, hhi⟩ := hc.mem hR.mine
  have hle : hi * innerTrip counts ≤ counts.headI * innerTrip counts := Nat.mul_le_mul_right _ (by omega)
  rw [h.prod_eq]
  exact lt_of_lt_of_le hR.lt hle

omit h in
theorem Running.frame (hR : Running counts s j log r hi) (hf : Frame counts d s i log src log' src') :
    Running counts s j log' r hi :=
  ⟨hf.took _ hR.mine, hR.lt, fun t ht hch => hf.posted (hR.below t ht hch)⟩

/-- Nobody else posts in a chunk that a thread runs. -/
theorem Running.posted_iff (hR : Running counts s j log r hi) (hf : Frame counts d s i log src log' src')
    (hc : Cuts counts.headI s (claims log')) (hji : j ≠ i) (ht : chunkOf counts s t = chunkOf counts s r) :
    Posted log' t ↔ Posted log t := by
  refine ⟨fun hp => ?_, hf.posted⟩
  rcases hf.mine hp with hp | ⟨hi', hmem⟩
  · exact hp
  · rw [ht] at hmem
    exact absurd (hc.owner h.pos (hf.took _ hR.mine) hmem).1 hji

/-- A step of another thread keeps a thread's part of the invariant. -/
theorem DoaLocal.Inv.frame {m : DoaLocal} (hI : m.Inv counts d s j log src) (hc0 : Cuts counts.headI s (claims log))
    (hc : Cuts counts.headI s (claims log')) (hf : Frame counts d s i log src log' src') (hji : j ≠ i) :
    m.Inv counts d s j log' src' := by
  have hpending : ∀ {r hi}, Running counts s j log r hi → Pending counts s log r → Pending counts s log' r :=
    fun hR hP y hy hch => hP y ((hR.posted_iff h hf hc hji hch).1 hy) hch
  have hcells : ∀ {r hi k}, Running counts s j log r hi → src (entOf counts d r) k = some r →
      src' (entOf counts d r) k = some r := by
    intro r hi k hR hk
    by_contra hne
    obtain ⟨r', hi', hr', hent, hmem⟩ := hf.writes (e := entOf counts d r) (k := k) (by rw [hk]; exact hne)
    rw [h.cell r' hr' r (hR.lt_prod h hc0) hent] at hmem
    exact hji (hc.owner h.pos (hf.took _ hR.mine) hmem).1
  cases m with
  | taking d => trivial
  | body r hi => exact ⟨hI.1.frame hf, hpending hI.1 hI.2⟩
  | postFlat r hi => exact ⟨hI.1.frame hf, hpending hI.1 hI.2.1, hI.2.2⟩
  | postDims r hi k | postStore r hi k =>
    obtain ⟨hR, hN, hflat, hk, hsrc⟩ := hI
    refine ⟨hR.frame hf, ⟨hf.posted hN.posted, fun y hy hch => ?_⟩, hflat, hk, fun k' hk' hlt => hcells hR (hsrc k' hk' hlt)⟩
    exact hN.le y ((hR.posted_iff h hf hc hji hch).1 hy) hch
  | waitFlat r hi t => exact ⟨hI.1.frame hf, hpending hI.1 hI.2.1, hI.2.2⟩
  | waitDims r hi t k =>
    obtain ⟨hR, hP, ht, hflat, hk, hsrc⟩ := hI
    refine ⟨hR.frame hf, hpending hR hP, ht, hflat, hk, hsrc.imp_right ?_⟩
    rintro ⟨y, hy, hle⟩
    obtain ⟨y', hy', hyy⟩ := hf.grows hy
    exact ⟨y', hy', le_trans hle (outer_mono counts k hyy)⟩

end

/-! ## Posting -/

section

variable {ι : Type} {counts : List Nat} {d : Doacross} {s : Nat} (h : CellInChunk counts d s)
  {i : ι} {log log' log'' : List (ι × DoaEvent)} {src src' src'' : Nat → Nat → Option Nat} {st st' : DoaState} {r hi t k : Nat}

theorem Frame.trans (h1 : Frame counts d s i log src log' src') (h2 : Frame counts d s i log' src' log'' src'') :
    Frame counts d s i log src log'' src'' where
  took x hx := h2.took x (h1.took x hx)
  posted ht := h2.posted (h1.posted ht)
  mine ht := by
    rcases h2.mine ht with ht | ht
    · exact (h1.mine ht).imp_right fun ⟨hi, hmem⟩ => ⟨hi, h2.took _ hmem⟩
    · exact .inr ht
  grows hy := by
    obtain ⟨y1, hy1, hle1⟩ := h1.grows hy
    obtain ⟨y2, hy2, hle2⟩ := h2.grows hy1
    exact ⟨y2, hy2, le_trans hle1 hle2⟩
  writes {e k} hne := by
    by_cases heq : src'' e k = src' e k
    · obtain ⟨r, hi, hr, hent, hmem⟩ := h1.writes (e := e) (k := k) (by rwa [← heq])
      exact ⟨r, hi, hr, hent, h2.took _ hmem⟩
    · exact h2.writes heq

theorem mem_claims_append {e : DoaEvent} (x : ι × Nat × Nat) (hx : x ∈ claims log) : x ∈ claims (log ++ [(i, e)]) := by
  rw [claims_append]
  exact List.mem_append_left _ hx

/-- An event that is not a post. -/
theorem InOrder.append (hO : InOrder counts s log) {e : DoaEvent} (he : ∀ t, e ≠ .posted t) :
    InOrder counts s (log ++ [(i, e)]) := by
  have hiff : ∀ t, Posted (log ++ [(i, e)]) t ↔ Posted log t := fun t => by
    rw [posted_append, or_iff_left (he t)]
  refine ⟨fun hy => hO.lt ((hiff _).1 hy), fun hy => ?_, fun hy hlt hch => ?_⟩
  · obtain ⟨j, hi, hmem⟩ := hO.taken ((hiff _).1 hy)
    exact ⟨j, hi, mem_claims_append _ hmem⟩
  · exact (hiff _).2 (hO.closed ((hiff _).1 hy) hlt hch)

theorem Frame.append {e : DoaEvent} (he : ∀ t, e ≠ .posted t) : Frame counts d s i log src (log ++ [(i, e)]) src where
  took := mem_claims_append
  posted ht := posted_append.2 (.inl ht)
  mine ht := .inl ((posted_append.1 ht).resolve_right (he _))
  grows hy := ⟨_, hy, le_refl _⟩
  writes hne := absurd rfl hne

/-- The post of the iteration a thread runs. -/
theorem InOrder.post (hO : InOrder counts s log) (hR : Running counts s i log r hi) (hr : r < counts.prod) :
    InOrder counts s (log ++ [(i, .posted r)]) := by
  refine ⟨fun hy => ?_, fun hy => ?_, fun hy hlt hch => ?_⟩
  · rcases posted_append.1 hy with hy | hy
    · exact hO.lt hy
    · cases hy; exact hr
  · rcases posted_append.1 hy with hy | hy
    · obtain ⟨j, hi, hmem⟩ := hO.taken hy
      exact ⟨j, hi, mem_claims_append _ hmem⟩
    · cases hy
      exact ⟨i, hi, mem_claims_append _ hR.mine⟩
  · rcases posted_append.1 hy with hy | hy
    · exact posted_append.2 (.inl (hO.closed hy hlt hch))
    · cases hy
      exact posted_append.2 (.inl (hR.below _ hlt hch))

theorem Frame.post (hR : Running counts s i log r hi) : Frame counts d s i log src (log ++ [(i, .posted r)]) src where
  took := mem_claims_append
  posted ht := posted_append.2 (.inl ht)
  mine ht := by
    rcases posted_append.1 ht with ht | ht
    · exact .inl ht
    · cases ht
      exact .inr ⟨hi, mem_claims_append _ hR.mine⟩
  grows hy := ⟨_, hy, le_refl _⟩
  writes hne := absurd rfl hne

theorem Pending.post (hP : Pending counts s log r) : Newest counts s (log ++ [(i, .posted r)]) r := by
  refine ⟨posted_append.2 (.inr rfl), fun y hy hch => ?_⟩
  rcases posted_append.1 hy with hy | hy
  · exact le_of_lt (hP y hy hch)
  · cases hy; exact le_refl r

theorem Written.of_cells (hW : Written counts d src st log) (hst : st'.cells = st.cells)
    (hp : ∀ {t}, Posted log t → Posted log' t) : Written counts d src st' log' where
  word e k := by rw [hst]; exact hW.word e k
  posted hy := ⟨(hW.posted hy).1, hp (hW.posted hy).2⟩
  mono := hW.mono

/-! ## Writing a word -/

/-- `src` after word `k` of entry `ent` was written for iteration `r`. -/
def setSrc (src : Nat → Nat → Option Nat) (ent k r : Nat) : Nat → Nat → Option Nat :=
  fun e j => if e = ent ∧ j = k then some r else src e j

include h

/-- What a word of the cell of the newest iteration holds is not newer. -/
theorem Written.le_newest (hW : Written counts d src st log) (hO : InOrder counts s log) (hN : Newest counts s log r)
    {y : Nat} (hy : src (entOf counts d r) k = some y) : y ≤ r := by
  obtain ⟨hent, hp⟩ := hW.posted hy
  exact hN.le y hp (h.cell y (hO.lt hp) r (hO.lt hN.posted) hent)

/-- The words are written from the innermost dimension out. -/
theorem Written.set (hW : Written counts d src st log) (hO : InOrder counts s log) (hN : Newest counts s log r)
    (hup : ∀ k', k < k' → k' < d.dims → src (entOf counts d r) k' = some r)
    (hst : ∀ e j, st'.cells e j = if e = entOf counts d r ∧ j = k then postWord counts d r k else st.cells e j) :
    Written counts d (setSrc src (entOf counts d r) k r) st' log := by
  refine ⟨fun e j => ?_, fun {e j y} hy => ?_, fun {e a a' y} hy ha ha' => ?_⟩
  · rw [hst]
    unfold setSrc
    split
    · rename_i heq
      rw [heq.2]; rfl
    · exact hW.word e j
  · unfold setSrc at hy
    split at hy
    · rename_i heq
      cases hy
      exact ⟨heq.1.symm, hN.posted⟩
    · exact hW.posted hy
  · unfold setSrc at hy ⊢
    by_cases hset : e = entOf counts d r ∧ a' = k
    · rw [if_pos hset]
      refine ⟨r, rfl, ?_⟩
      split at hy
      · cases hy; exact le_refl r
      · rw [hset.1] at hy
        exact hW.le_newest h hO hN hy
    · rw [if_neg hset]
      split at hy
      · rename_i heq
        obtain ⟨rfl, rfl⟩ := heq
        cases hy
        have hlt : a < a' := lt_of_le_of_ne ha fun h' => hset ⟨rfl, h'.symm⟩
        exact ⟨r, hup a' hlt ha', le_refl r⟩
      · exact hW.mono hy ha ha'

theorem Frame.set (hW : Written counts d src st log) (hO : InOrder counts s log) (hN : Newest counts s log r)
    (hR : Running counts s i log r hi) : Frame counts d s i log src log (setSrc src (entOf counts d r) k r) where
  took _ hx := hx
  posted ht := ht
  mine ht := .inl ht
  grows {e j y} hy := by
    unfold setSrc
    split
    · rename_i heq
      rw [heq.1] at hy
      exact ⟨r, rfl, hW.le_newest h hO hN hy⟩
    · exact ⟨y, hy, le_refl y⟩
  writes {e j} hne := by
    unfold setSrc at hne
    split at hne
    · rename_i heq
      exact ⟨r, hi, hO.lt hN.posted, heq.1.symm, hR.mine⟩
    · exact absurd rfl hne

/-! ## The next iteration -/

theorem nextIteration_inv (hc : Cuts counts.headI s (claims log)) (hR : Running counts s i log r hi)
    (hN : Newest counts s log r) : (nextIteration counts r hi).Inv counts d s i log src := by
  unfold nextIteration
  split
  · rename_i hlt
    -- still in the chunk
    have hch : chunkOf counts s (r + 1) = chunkOf counts s r := by
      obtain ⟨j, -, hj, hhi⟩ := hc.mem hR.mine
      have hj' : chunkOf counts s r = j := Nat.eq_of_mul_eq_mul_right h.pos hj
      have hle : hi * innerTrip counts ≤ (j + 1) * s * innerTrip counts := Nat.mul_le_mul_right _ (by omega)
      have hlo := ((CellInChunk.mem_chunk h.innerTrip_pos h.pos).1 hj').1
      rw [hj', CellInChunk.mem_chunk h.innerTrip_pos h.pos]
      omega
    refine ⟨⟨by rw [hch]; exact hR.mine, hlt, fun t ht hcht => ?_⟩, fun y hy hchy => ?_⟩
    · rw [hch] at hcht
      rcases Nat.lt_succ_iff_lt_or_eq.1 ht with ht | rfl
      · exact hR.below t ht hcht
      · exact hN.posted
    · rw [hch] at hchy
      exact Nat.lt_succ_of_le (hN.le y hy hchy)
  · trivial

theorem afterDim_inv (hc : Cuts counts.headI s (claims log)) (hR : Running counts s i log r hi)
    (hN : Newest counts s log r) (hflat : d.flattened = false) (hk : k ≤ d.ncounts)
    (hsrc : ∀ k', k ≤ k' → k' < d.ncounts → src (entOf counts d r) k' = some r) :
    (afterDim counts r hi k).Inv counts d s i log src := by
  cases k with
  | zero => exact nextIteration_inv h hc hR hN
  | succ k => exact ⟨hR, hN, hflat, hk, hsrc⟩

/-- A thread that takes a chunk starts on its first iteration, and nobody has posted there. -/
theorem afterTake_inv (src : Nat → Nat → Option Nat) (dl : DynLocal) {e : Option Ret} (hO : InOrder counts s log)
    (hc : Cuts counts.headI s (claims (logged log i (e.map .returned)))) :
    (afterTake counts dl e).Inv counts d s i (logged log i (e.map .returned)) src := by
  unfold afterTake
  split
  · rename_i lo hi
    rw [if_neg (by have := h.innerTrip_pos; omega)]
    have hcl : claims (log ++ [(i, .returned (some (lo, hi)))]) = claims log ++ [(i, lo.toNat, hi.toNat)] := claims_append _ _ _
    simp only [Option.map_some, logged_some] at hc ⊢
    have hmem : (i, lo.toNat, hi.toNat) ∈ claims (log ++ [(i, .returned (some (lo, hi)))]) := by
      rw [hcl]; simp
    obtain ⟨j, hj, hlo, hhi⟩ := hc.mem hmem
    have hs := h.pos
    have hpos := h.innerTrip_pos
    have hch : chunkOf counts s (lo.toNat * innerTrip counts) = j := by
      rw [CellInChunk.mem_chunk hpos hs, hlo]
      refine ⟨le_refl _, Nat.mul_lt_mul_of_pos_right ?_ hpos⟩
      rw [Nat.succ_mul]; omega
    refine ⟨⟨by rw [hch, ← hlo]; exact hmem, Nat.mul_lt_mul_of_pos_right ?_ hpos, fun t ht hcht => ?_⟩, fun y hy hchy => ?_⟩
    · rw [hlo, hhi, Nat.succ_mul]; omega
    · rw [hch, CellInChunk.mem_chunk hpos hs, ← hlo] at hcht
      omega
    · -- a post there would mean that the chunk was taken before
      exfalso
      have hp : Posted log y := (posted_append.1 hy).resolve_right nofun
      obtain ⟨i', hi', hmem'⟩ := hO.taken hp
      rw [hchy, hch, ← hlo] at hmem'
      rw [hcl] at hc
      exact hc.fresh hs hmem'
  · trivial

/-! ## Waiting -/

/-- An iteration no later than one that left a word of its cell was posted. -/
theorem Posts.posted_of_le (hG : Posts counts d s src st log) {y : Nat} (ht : t < counts.prod)
    (hy : src (entOf counts d t) k = some y) (hle : t ≤ y) : Posted log t := by
  obtain ⟨hent, hp⟩ := hG.written.posted hy
  rcases Nat.lt_or_eq_of_le hle with hlt | rfl
  · exact hG.order.closed hp hlt (h.cell t ht y (hG.order.lt hp) hent.symm)
  · exact hp

theorem Posts.wait_flat (hG : Posts counts d s src st log) (hflat : d.flattened = true) (ht : t < counts.prod)
    (hlt : flatten d.shiftCounts (vec counts t) < st.cells (entOf counts d t) 0) : Posted log t := by
  rw [hG.written.word] at hlt
  cases hy : src (entOf counts d t) 0 with
  | none =>
    rw [hy] at hlt
    exact absurd hlt (by simp)
  | some y =>
    have hyp := hG.order.lt (hG.written.posted hy).2
    refine hG.posted_of_le h ht hy ?_
    by_contra hty
    have hpack := packed_lt_packed le_two_pow_thisBits ht (Nat.not_le.1 hty)
    rw [hy] at hlt
    simp only [Option.elim_some, postWord, hflat, if_true, h.shifts] at hlt
    rw [BitVec.lt_def, BitVec.toNat_add, toNat_flatten ht (h.bits hflat), toNat_flatten hyp (h.bits hflat)] at hlt
    -- the word of an iteration is one more than its packed number, or has wrapped to zero
    have hmod : (packed thisBits counts y + (1 : Word).toNat) % 2 ^ 64 ≤ packed thisBits counts y + 1 := Nat.mod_le _ _
    omega

/-- A word that is not below that of `t` is from an iteration no earlier, as far as compared. -/
theorem Posts.wait_word (hG : Posts counts d s src st log) (hflat : d.flattened = false) (hk : k < counts.length)
    (ht : t < counts.prod)
    (hprev : k = 0 ∨ ∃ y, src (entOf counts d t) (k - 1) = some y ∧ outer counts k t ≤ outer counts k y)
    (hle : ¬ BitVec.ofNat 64 ((vec counts t).getD k 0) + 1 > st.cells (entOf counts d t) k) :
    ∃ y, src (entOf counts d t) k = some y ∧ y < counts.prod ∧ outer counts k t ≤ outer counts k y ∧
      st.cells (entOf counts d t) k = BitVec.ofNat 64 ((vec counts y).getD k 0) + 1 := by
  have hword := hG.written.word (entOf counts d t) k
  cases hy : src (entOf counts d t) k with
  | none =>
    rw [hy] at hword
    rw [hword, gt_iff_lt, BitVec.lt_def, h.toNat_word ht hk] at hle
    exact absurd (Nat.succ_pos _) hle
  | some y =>
    have hyp := hG.order.lt (hG.written.posted hy).2
    rw [hy] at hword
    simp only [Option.elim_some, postWord, hflat, Bool.false_eq_true, if_false] at hword
    refine ⟨y, rfl, hyp, ?_, hword⟩
    rcases hprev with rfl | ⟨y0, hy0, hle0⟩
    · rw [outer_zero ht]; exact Nat.zero_le _
    · have hdims : d.dims = counts.length := by unfold Doacross.dims; rw [hflat, h.ncounts]; rfl
      obtain ⟨y1, hy1, hle1⟩ := hG.written.mono hy0 (Nat.sub_le k 1) (by rw [hdims]; exact hk)
      rw [hy] at hy1
      cases hy1
      exact le_trans hle0 (outer_mono counts k hle1)

end

/-! ## One step -/

/-- After a step of thread `i` the invariant holds again, and the others keep what they rely on. -/
def Continues {ι : Type} (counts : List Nat) (d : Doacross) (s : Nat) (i : ι) (log : List (ι × DoaEvent))
    (src : Nat → Nat → Option Nat) (st : DoaState) (loc : DoaLocal) (e : Option DoaEvent) : Prop :=
  ∃ src', Posts counts d s src' st (logged log i e) ∧ loc.Inv counts d s i (logged log i e) src' ∧
    Frame counts d s i log src (logged log i e) src'

section

variable {ι D : Type} {counts : List Nat} {d : Doacross} {s : Nat} {i : ι} {log : List (ι × DoaEvent)}
  {src : Nat → Nat → Option Nat} {st st' : DoaState} {r hi t k : Nat}

theorem Posts.silent (hG : Posts counts d s src st log) {m : DoaLocal} (hm : m.Inv counts d s i log src) :
    Continues counts d s i log src st m none :=
  ⟨src, hG, hm, .refl⟩

/-- A wait that returns. -/
theorem Posts.waited (hG : Posts counts d s src st log) (hR : Running counts s i log r hi) (hP : Pending counts s log r)
    (ht : Posted log t) : Continues counts d s i log src st (.body r hi) (some (.waited t)) := by
  have hf : Frame counts d s i log src (log ++ [(i, .waited t)]) src := .append nofun
  refine ⟨src, ⟨hG.order.append nofun, hG.written.of_cells rfl hf.posted, hG.safe.append fun t' ht' => ?_⟩,
    ⟨hR.frame hf, fun y hy hch => ?_⟩, hf⟩
  · cases ht'; exact ht
  · exact hP y ((posted_append.1 hy).resolve_right nofun) hch

/-- A call of `GOMP_doacross_post` begins, where the cell has a word per dimension. -/
theorem Posts.post (hG : Posts counts d s src st log) (hO : InOrder counts s (log ++ [(i, .posted r)]))
    (hR : Running counts s i log r hi) : Posts counts d s src st (log ++ [(i, .posted r)]) ∧
      Frame counts d s i log src (log ++ [(i, .posted r)]) src := by
  have hf : Frame counts d s i log src (log ++ [(i, .posted r)]) src := .post hR
  exact ⟨⟨hO, hG.written.of_cells rfl hf.posted, hG.safe.append nofun⟩, hf⟩

variable (h : CellInChunk counts d s)

include h

/-- A post in a flattened cell. -/
theorem Posts.post_flat (hG : Posts counts d s src st log) (hc : Cuts counts.headI s (claims log))
    (hR : Running counts s i log r hi) (hP : Pending counts s log r) (hflat : d.flattened = true)
    (hst : ∀ e j, st'.cells e j = if e = entOf counts d r ∧ j = 0 then postWord counts d r 0 else st.cells e j) :
    Continues counts d s i log src st' (nextIteration counts r hi) (some (.posted r)) := by
  obtain ⟨hG', hf⟩ := hG.post (hG.order.post hR (hR.lt_prod h hc)) hR
  have hN : Newest counts s (log ++ [(i, .posted r)]) r := hP.post
  have hset := hG'.written.set h hG'.order hN (k := 0) (fun k' hk' hlt => by
    unfold Doacross.dims at hlt
    rw [if_pos hflat] at hlt
    omega) hst
  refine ⟨_, ⟨hG'.order, hset, hG'.safe⟩, nextIteration_inv h ?_ (hR.frame hf) hN,
    hf.trans (.set h hG'.written hG'.order hN (hR.frame hf))⟩
  rw [logged_some, claims_posted]
  exact hc

/-- A post is done with dimension `k`. -/
theorem Posts.post_dim (hG : Posts counts d s src st log) (hc : Cuts counts.headI s (claims log))
    (hR : Running counts s i log r hi) (hN : Newest counts s log r) (hflat : d.flattened = false) (hk : k < d.ncounts)
    (hsrc : ∀ k', k < k' → k' < d.ncounts → src (entOf counts d r) k' = some r)
    (hst : ∀ e j, st'.cells e j = if e = entOf counts d r ∧ j = k then postWord counts d r k else st.cells e j) :
    Continues counts d s i log src st' (afterDim counts r hi k) none := by
  have hdims : d.dims = d.ncounts := by unfold Doacross.dims; rw [hflat]; rfl
  have hset := hG.written.set h hG.order hN (by rw [hdims]; exact hsrc) hst
  refine ⟨_, ⟨hG.order, hset, hG.safe⟩, afterDim_inv h hc hR hN hflat (le_of_lt hk) fun k' hk' hlt => ?_,
    .set h hG.written hG.order hN hR⟩
  unfold setSrc
  split
  · rfl
  · rename_i hne
    exact hsrc k' (lt_of_le_of_ne hk' fun heq => hne ⟨rfl, heq.symm⟩) hlt

/-- A word of the cell is compared. -/
theorem Posts.wait_dim (hG : Posts counts d s src st log) (hc : Cuts counts.headI s (claims log))
    (hI : (DoaLocal.waitDims r hi t k).Inv counts d s i log src)
    (hle : ¬ BitVec.ofNat 64 ((vec counts t).getD k 0) + 1 > st.cells (entOf counts d t) k) :
    (BitVec.ofNat 64 ((vec counts t).getD k 0) + 1 < st.cells (entOf counts d t) k → Posted log t) ∧
    (¬ BitVec.ofNat 64 ((vec counts t).getD k 0) + 1 < st.cells (entOf counts d t) k →
      ∃ y, src (entOf counts d t) k = some y ∧ outer counts (k + 1) t ≤ outer counts (k + 1) y) := by
  obtain ⟨hR, -, ht, hflat, hk, hprev⟩ := hI
  rw [h.ncounts] at hk
  have htp := lt_trans ht (hR.lt_prod h hc)
  obtain ⟨y, hy, hyp, hout, hcur⟩ := hG.wait_word h hflat hk htp hprev hle
  rw [hcur] at hle ⊢
  simp only [gt_iff_lt, BitVec.lt_def, h.toNat_word htp hk, h.toNat_word hyp hk] at hle ⊢
  have hmul : outer counts k t * counts[k] ≤ outer counts k y * counts[k] := Nat.mul_le_mul_right _ hout
  have et := outer_succ htp hk
  have ey := outer_succ hyp hk
  refine ⟨fun hlt => ?_, fun hnlt => ⟨y, hy, ?_⟩⟩
  · have hlt' : outer counts (k + 1) t < outer counts (k + 1) y := by rw [et, ey]; omega
    exact hG.posted_of_le h htp hy (le_of_lt (lt_of_outer_lt hlt'))
  · rw [et, ey]; omega

/-- One step of a thread keeps the invariant, and what the other threads rely on. -/
theorem doacross_step {ws : GompWorkShare D} {a : DoaAct} {loc loc' : DoaLocal} {e : Option DoaEvent}
    (hG : Posts counts d s src st log) (hI : loc.Inv counts d s i log src) (hc : Cuts counts.headI s (claims log))
    (hc' : Cuts counts.headI s (claims (logged log i e)))
    (hp : doacrossThread ws counts (some d) i a st loc = some (st', loc', e)) :
    Continues counts d s i log src st' loc' e := by
  cases loc with
  | taking dl =>
    cases a with
    | wait t => cases hp
    | run =>
      obtain ⟨⟨next, dl', r⟩, -, hp⟩ := Option.bind_eq_some_iff.1 hp
      cases hp
      have hinv := afterTake_inv h src dl' hG.order hc'
      cases r with
      | none => exact ⟨src, ⟨hG.order, hG.written.of_cells rfl id, hG.safe⟩, hinv, .refl⟩
      | some r =>
        have hf : Frame counts d s i log src (log ++ [(i, .returned r)]) src := .append nofun
        exact ⟨src, ⟨hG.order.append nofun, hG.written.of_cells rfl hf.posted, hG.safe.append nofun⟩, hinv, hf⟩
  | body r hi =>
    obtain ⟨hR, hP⟩ := hI
    cases a with
    | run =>
      simp only [doacrossThread] at hp
      split at hp
      · rename_i hflat
        split at hp <;> rename_i hw <;> cases hp
        · -- the cell shows the iteration already
          refine hG.post_flat h hc hR hP hflat fun e j => ?_
          split
          · rename_i heq
            rw [heq.1, heq.2]; exact hw
          · rfl
        · exact hG.silent ⟨hR, hP, hflat⟩
      · rename_i hflat
        cases hp
        rw [Bool.not_eq_true] at hflat
        obtain ⟨hG', hf⟩ := hG.post (hG.order.post hR (hR.lt_prod h hc)) hR
        exact ⟨src, hG', afterDim_inv h hc' (hR.frame hf) hP.post hflat (le_refl _) (by omega), hf⟩
    | wait t =>
      simp only [doacrossThread] at hp
      split at hp
      · rename_i ht
        split at hp <;> rename_i hflat <;> cases hp
        · exact hG.silent ⟨hR, hP, ht, hflat⟩
        · rw [Bool.not_eq_true] at hflat
          have hlen : 0 < d.ncounts := by rw [h.ncounts]; exact List.length_pos_iff.2 h.counts_ne
          exact hG.silent ⟨hR, hP, ht, hflat, hlen, .inl rfl⟩
      · cases hp
  | postFlat r hi =>
    obtain ⟨hR, hP, hflat⟩ := hI
    cases a with
    | wait t => cases hp
    | run =>
      cases hp
      exact hG.post_flat h hc hR hP hflat fun e j => rfl
  | postDims r hi k =>
    obtain ⟨hR, hN, hflat, hk, hsrc⟩ := hI
    cases a with
    | wait t => cases hp
    | run =>
      simp only [doacrossThread, Option.bind_eq_bind, Option.bind_some] at hp
      split at hp <;> rename_i hw <;> cases hp
      · exact hG.silent ⟨hR, hN, hflat, hk, hsrc⟩
      · -- the word shows the iteration already
        refine hG.post_dim h hc hR hN hflat hk hsrc fun e j => ?_
        split
        · rename_i heq
          rw [heq.1, heq.2]
          exact not_not.1 hw
        · rfl
  | postStore r hi k =>
    obtain ⟨hR, hN, hflat, hk, hsrc⟩ := hI
    cases a with
    | wait t => cases hp
    | run =>
      cases hp
      exact hG.post_dim h hc hR hN hflat hk hsrc fun e j => rfl
  | waitFlat r hi t =>
    obtain ⟨hR, hP, ht, hflat⟩ := hI
    cases a with
    | wait t => cases hp
    | run =>
      simp only [doacrossThread, Option.bind_eq_bind, Option.bind_some] at hp
      split at hp <;> cases hp
      · rename_i hlt
        exact hG.waited hR hP (hG.wait_flat h hflat (lt_trans ht (hR.lt_prod h hc)) hlt)
      · exact hG.silent ⟨hR, hP, ht, hflat⟩
  | waitDims r hi t k =>
    have hdim := hG.wait_dim h hc hI
    obtain ⟨hR, hP, ht, hflat, hk, hprev⟩ := hI
    have hlen : 0 < d.ncounts := by omega
    cases a with
    | wait t => cases hp
    | run =>
      simp only [doacrossThread, Option.bind_eq_bind, Option.bind_some] at hp
      split at hp
      · rename_i hlt
        cases hp
        exact hG.waited hR hP ((hdim fun hgt => BitVec.lt_asymm hlt hgt).1 hlt)
      · rename_i hnlt
        split at hp
        · cases hp
          exact hG.silent ⟨hR, hP, ht, hflat, hlen, .inl rfl⟩
        · rename_i hngt
          obtain ⟨y, hy, hout⟩ := (hdim hngt).2 hnlt
          split at hp <;> rename_i hlast <;> cases hp
          · -- equal in every dimension
            rw [hlast, h.ncounts, outer_length, outer_length] at hout
            exact hG.waited hR hP (hG.posted_of_le h (lt_trans ht (hR.lt_prod h hc)) hy hout)
          · exact hG.silent ⟨hR, hP, ht, hflat, by omega, .inr ⟨y, hy, hout⟩⟩

/-! ## Whole runs -/

/-- In every run, the words of the cells are what the iterations posted so far left there. -/
theorem posts_of_reach [DecidableEq ι] {ws : GompWorkShare D} {c : Cfg ι DoaState DoaLocal DoaEvent}
    (hcuts : ∀ c, Reach (doacrossThread ws counts (some d)) (doaEntry ws : Cfg ι DoaState DoaLocal DoaEvent) c →
      Cuts counts.headI s (claims c.log))
    (hr : Reach (doacrossThread ws counts (some d)) (doaEntry ws) c) :
    ∃ src, Posts counts d s src c.shared c.log ∧ ∀ j, (c.loc j).Inv counts d s j c.log src := by
  induction hr with
  | refl =>
    refine ⟨fun _ _ => none, ⟨⟨?_, ?_, ?_⟩, ⟨fun _ _ => rfl, nofun, nofun⟩, ?_⟩, fun _ => trivial⟩
    · rintro y ⟨j, hj⟩; cases hj
    · rintro y ⟨j, hj⟩; cases hj
    · rintro t y ⟨j, hj⟩; cases hj
    · intro pre j t post heq
      simp [doaEntry] at heq
  | @tail b b' hb hs ih =>
    obtain ⟨src, hG, hI⟩ := ih
    have hc := hcuts b hb
    have hc' := hcuts b' (hb.tail hs)
    cases hs with
    | @mk i a st loc e hp =>
      obtain ⟨src', hG', hI', hf⟩ := doacross_step h hG (hI i) hc hc' hp
      refine ⟨src', hG', fun j => ?_⟩
      by_cases hj : j = i
      · subst hj
        simpa only [Function.update_self] using hI'
      · simpa only [Function.update_of_ne hj] using (hI j).frame h hc hc' hf hj

end

end Bosched
