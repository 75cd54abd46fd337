/-
The cache of work shares under one thread that takes work shares from it and one that puts them back: every work share
that has been allocated is in one place, no step follows an invalid pointer, the compare and swap of `free_work_share`
succeeds, and `gomp_malloc` is called only when nearly all work shares are in use.
-/
import Bosched.Lib.Chains
import Bosched.WorkShare.Model

namespace Bosched

open Lib

theorem Link.ptr_ne_null (a : Nat) : Link.ptr a ≠ .null := nofun

/-- How links represent pointers. -/
def Link.pointers : Pointers Nat Link where
  null := .null
  ptr := .ptr
  ptr_inj _ _ h := Link.ptr.inj h
  ptr_ne_null := Link.ptr_ne_null

theorem linkBlock_of_ne {link : Nat → Link} {first last a : Nat} (h : a < first ∨ last < a) :
    first ≤ last → linkBlock link first last a = link a := by
  intro hle
  unfold linkBlock
  rw [if_neg (by omega), if_neg (by omega)]

/-- The work shares of a block hang off a pointer to the first. -/
theorem chain_linkBlock (link : Nat → Link) {first last : Nat} : ∀ {m a : Nat}, first ≤ a → a + m = last →
    Chain Link.pointers (linkBlock link first last) (.ptr a) (List.range' a (m + 1))
  | 0, a, hfirst, hlast => by
    refine .cons ?_
    have hnull : linkBlock link first last a = .null := by
      unfold linkBlock
      rw [if_neg (by omega), if_pos (by omega)]
    rw [hnull]
    exact .nil
  | m + 1, a, hfirst, hlast => by
    refine .cons ?_
    have hnext : linkBlock link first last a = .ptr (a + 1) := if_pos ⟨hfirst, by omega⟩
    rw [hnext]
    exact chain_linkBlock link (by omega) (by omega)

/-! ## Where the work shares are -/

/-- The work shares are those in use, those the thread in `alloc_work_share` has taken, and those of the two lists. -/
structure SharePool.Holds (p : SharePool) (live own alloc free : List Nat) : Prop where
  allocList : Chain Link.pointers p.link p.workShareListAlloc alloc
  freeList : Chain Link.pointers p.link p.workShareListFree free
  all : (live ++ own ++ alloc ++ free).Perm (List.range p.brk)
  chunk : p.brk + 8 = p.workShareChunk * 2
  first : 8 ≤ p.brk

/-- Where the thread in `alloc_work_share` is, when at most `peak` work shares have been in use at once. -/
def AllocAt.Ok (p : SharePool) (own alloc free : List Nat) (peak : Nat) : AllocAt → Prop
  | .start => own = []
  | .pop ws => own = [] ∧ ∃ rest, alloc = ws :: rest
  | .look => own = [] ∧ alloc = []
  | .peek ws => own = [] ∧ alloc = [] ∧ ws ∈ free ∧ (p.link ws = .null → p.brk ≤ peak + 1)
  | .cut ws next => own = [] ∧ alloc = [] ∧ ws ∈ free ∧ p.link ws = .ptr next
  | .take next => alloc = [] ∧ ∃ rest, own = next :: rest ∧ Chain Link.pointers p.link (p.link next) rest
  | .grow => own = [] ∧ alloc = [] ∧ p.brk ≤ peak + 1
  | .got ws => own = [ws]

/-- Where the thread in `free_work_share` is. -/
def FreeAt.Ok (p : SharePool) (ws : Nat) : FreeAt → Prop
  | .read => True
  | .link head => p.workShareListFree = head
  | .cas head => p.workShareListFree = head ∧ p.link ws = head

theorem FreeAt.Ok.congr {p p' : SharePool} {ws : Nat} {pc : FreeAt} (h : pc.Ok p ws)
    (hlist : p'.workShareListFree = p.workShareListFree) (hlink : p'.link ws = p.link ws) : pc.Ok p' ws := by
  cases pc with
  | read => trivial
  | link head => exact hlist.trans h
  | cas head => exact ⟨hlist.trans h.1, hlink.trans h.2⟩

namespace SharePool

variable {p p' : SharePool} {live own alloc free : List Nat} {peak ws : Nat}

theorem Holds.nodup (h : p.Holds live own alloc free) : (live ++ own ++ alloc ++ free).Nodup :=
  h.all.nodup_iff.2 List.nodup_range

theorem Holds.lt (h : p.Holds live own alloc free) {a : Nat} (ha : a ∈ live ++ own ++ alloc ++ free) : a < p.brk :=
  List.mem_range.1 (h.all.mem_iff.1 ha)

theorem Holds.length (h : p.Holds live own alloc free) :
    live.length + own.length + alloc.length + free.length = p.brk := by
  have hlen := h.all.length_eq
  simp only [List.length_append, List.length_range] at hlen
  exact hlen

theorem Holds.not_mem_lists (h : p.Holds live own alloc free) {a : Nat} (ha : a ∈ live ++ own) :
    a ∉ alloc ∧ a ∉ free := by
  have hnodup := h.nodup
  rw [List.append_assoc, List.nodup_append] at hnodup
  obtain ⟨-, -, hdis⟩ := hnodup
  exact ⟨fun hm => hdis a ha a (List.mem_append_left _ hm) rfl, fun hm => hdis a ha a (List.mem_append_right _ hm) rfl⟩

theorem Holds.not_mem_own (h : p.Holds live own alloc free) {a : Nat} (ha : a ∈ live) : a ∉ own := by
  have hnodup := h.nodup
  rw [List.append_assoc, List.nodup_append, List.nodup_append] at hnodup
  exact fun hm => hnodup.1.2.2 a ha a hm rfl

/-- A write to the links of work shares that are on no list. -/
theorem Holds.congr (h : p.Holds live own alloc free) {link : Nat → Link}
    (hlink : ∀ a ∈ alloc ++ free, link a = p.link a) : Holds { p with link := link } live own alloc free where
  allocList := h.allocList.congr fun a ha => hlink a (List.mem_append_left _ ha)
  freeList := h.freeList.congr fun a ha => hlink a (List.mem_append_right _ ha)
  all := h.all
  chunk := h.chunk
  first := h.first

theorem Holds.update (h : p.Holds live own alloc free) (hws : ws ∈ live ++ own) (l : Link) :
    Holds { p with link := Function.update p.link ws l } live own alloc free := by
  refine h.congr fun a ha => Function.update_of_ne ?_ ..
  rintro rfl
  rcases List.mem_append.1 ha with ha | ha
  · exact (h.not_mem_lists hws).1 ha
  · exact (h.not_mem_lists hws).2 ha

/-- A write to the link of a work share in use leaves the thread in `alloc_work_share` where it is. -/
theorem Holds.alloc_update (h : p.Holds live own alloc free) (hws : ws ∈ live) (l : Link) {pc : AllocAt}
    (hpc : pc.Ok p own alloc free peak) : pc.Ok { p with link := Function.update p.link ws l } own alloc free peak := by
  have hfree : ∀ a ∈ free, Function.update p.link ws l a = p.link a := fun a ha =>
    Function.update_of_ne (ne_of_mem_of_not_mem ha (h.not_mem_lists (List.mem_append_left _ hws)).2) ..
  have hown : ∀ a ∈ own, Function.update p.link ws l a = p.link a := fun a ha =>
    Function.update_of_ne (ne_of_mem_of_not_mem ha (h.not_mem_own hws)) ..
  cases pc with
  | start | pop ws' | look | grow | got ws' => exact hpc
  | peek ws' =>
    obtain ⟨ho, ha, hmem, hle⟩ := hpc
    exact ⟨ho, ha, hmem, fun hnull => hle ((hfree ws' hmem).symm.trans hnull)⟩
  | cut ws' next =>
    obtain ⟨ho, ha, hmem, hlink⟩ := hpc
    exact ⟨ho, ha, hmem, (hfree ws' hmem).trans hlink⟩
  | take next =>
    obtain ⟨ha, rest, rfl, hchain⟩ := hpc
    refine ⟨ha, rest, rfl, ?_⟩
    show Chain Link.pointers (Function.update p.link ws l) (Function.update p.link ws l next) rest
    rw [hown next List.mem_cons_self]
    exact hchain.congr fun a ha => hown a (List.mem_cons_of_mem _ ha)

/-! ## The steps -/

/-- What a step of `alloc_work_share` leaves behind. -/
structure AllocStep (p : SharePool) (live free : List Nat) (peak : Nat) (p' : SharePool) (pc' : AllocAt) : Prop where
  holds : ∃ own' alloc' free', p'.Holds live own' alloc' free' ∧ pc'.Ok p' own' alloc' free' peak
  live : ∀ a ∈ live, p'.link a = p.link a
  listFree : p'.workShareListFree = p.workShareListFree
  brk : p'.brk = p.brk ∨ p'.brk ≤ 2 * peak + 10 ∧ 7 ≤ peak

theorem Holds.allocWorkShare (h : p.Holds live own alloc free) {pc pc' : AllocAt} (hpc : pc.Ok p own alloc free peak)
    (hpeak : live.length ≤ peak) (hstep : p.allocWorkShare pc = some (p', pc')) :
    p.AllocStep live free peak p' pc' := by
  cases pc with
  | start =>
    obtain rfl : own = [] := hpc
    unfold SharePool.allocWorkShare at hstep
    dsimp only at hstep
    have hchain := h.allocList
    split at hstep
    · rename_i ws hws
      cases hstep
      rw [hws] at hchain
      obtain ⟨rest, rfl, -⟩ := hchain.ptr_inv
      exact ⟨⟨[], _, free, h, rfl, rest, rfl⟩, fun _ _ => rfl, rfl, .inl rfl⟩
    · rename_i hnull
      cases hstep
      rw [hnull] at hchain
      exact ⟨⟨[], alloc, free, h, rfl, hchain.null_inv⟩, fun _ _ => rfl, rfl, .inl rfl⟩
    · cases hstep
  | pop ws =>
    obtain ⟨rfl, rest, rfl⟩ := hpc
    cases hstep
    have hchain : Chain Link.pointers p.link p.workShareListAlloc ([] ++ ws :: rest) := h.allocList
    refine ⟨⟨[ws], rest, free, ⟨hchain.after, h.freeList, ?_, h.chunk, h.first⟩, rfl⟩, fun _ _ => rfl, rfl, .inl rfl⟩
    refine List.Perm.trans ?_ h.all
    simp
  | look =>
    obtain ⟨rfl, rfl⟩ := hpc
    have hlen := h.length
    unfold SharePool.allocWorkShare at hstep
    dsimp only at hstep
    have hchain := h.freeList
    split at hstep
    · rename_i ws hws
      cases hstep
      rw [hws] at hchain
      obtain ⟨rest, rfl, hrest⟩ := hchain.ptr_inv
      refine ⟨⟨[], [], _, h, rfl, rfl, List.mem_cons_self, fun hnull => ?_⟩, fun _ _ => rfl, rfl, .inl rfl⟩
      -- it is the only one on the list
      rw [hnull] at hrest
      obtain rfl := hrest.null_inv
      simp at hlen
      omega
    · rename_i hnull
      cases hstep
      rw [hnull] at hchain
      obtain rfl := hchain.null_inv
      refine ⟨⟨[], [], [], h, rfl, rfl, ?_⟩, fun _ _ => rfl, rfl, .inl rfl⟩
      simp at hlen
      omega
    · cases hstep
  | peek ws =>
    obtain ⟨rfl, rfl, hmem, hle⟩ := hpc
    unfold SharePool.allocWorkShare at hstep
    dsimp only at hstep
    split at hstep
    · rename_i next hnext
      cases hstep
      exact ⟨⟨[], [], free, h, rfl, rfl, hmem, hnext⟩, fun _ _ => rfl, rfl, .inl rfl⟩
    · rename_i hnull
      cases hstep
      exact ⟨⟨[], [], free, h, rfl, rfl, hle hnull⟩, fun _ _ => rfl, rfl, .inl rfl⟩
    · cases hstep
  | cut ws next =>
    obtain ⟨rfl, rfl, hmem, hnext⟩ := hpc
    cases hstep
    obtain ⟨pre, post, rfl⟩ := List.append_of_mem hmem
    -- what follows the work share on the list
    have hpost := h.freeList.after
    rw [hnext] at hpost
    obtain ⟨rest, rfl, hrest⟩ := hpost.ptr_inv
    have hnodup := h.nodup
    simp only [List.append_nil, List.nodup_append, List.nodup_cons, List.mem_cons, List.mem_append] at hnodup
    obtain ⟨-, ⟨-, ⟨hws, hnext', -⟩, hpre⟩, hlive⟩ := hnodup
    push Not at hws
    have hlink : ∀ a, a = next ∨ a ∈ rest → Function.update p.link ws .null a = p.link a := by
      intro a ha
      refine Function.update_of_ne ?_ ..
      rintro rfl
      rcases ha with ha | ha
      · exact hws.1 ha
      · exact hws.2 ha
    have hfree := h.freeList.cut fun hm => hpre ws hm ws (.inl rfl) rfl
    refine ⟨⟨next :: rest, [], pre ++ [ws], ⟨?_, hfree, ?_, h.chunk, h.first⟩, rfl, rest, rfl, ?_⟩, fun a ha => ?_,
      rfl, .inl rfl⟩
    · exact h.allocList.congr nofun
    · refine List.Perm.trans (List.perm_iff_count.2 fun a => ?_) h.all
      simp only [List.append_nil, List.count_append, List.count_cons, List.count_nil]
      omega
    · show Chain Link.pointers (Function.update p.link ws .null) (Function.update p.link ws .null next) rest
      rw [hlink next (.inl rfl)]
      exact hrest.congr fun a ha => hlink a (.inr ha)
    · exact Function.update_of_ne (fun heq => hlive a ha ws (.inr (.inl rfl)) heq) ..
  | take next =>
    obtain ⟨rfl, rest, rfl, hchain⟩ := hpc
    cases hstep
    refine ⟨⟨[next], rest, free, ⟨hchain, h.freeList, ?_, h.chunk, h.first⟩, rfl⟩, fun _ _ => rfl, rfl, .inl rfl⟩
    refine List.Perm.trans ?_ h.all
    simp
  | grow =>
    obtain ⟨rfl, rfl, hle⟩ := hpc
    cases hstep
    have hchunk := h.chunk
    have hout : ∀ a < p.brk, linkBlock p.link (p.brk + 1) (p.brk + (p.workShareChunk * 2 - 1)) a = p.link a := by
      intro a ha
      exact linkBlock_of_ne (.inl (by omega)) (by omega)
    refine ⟨⟨[p.brk], List.range' (p.brk + 1) (p.workShareChunk * 2 - 2 + 1), free, ⟨?_, ?_, ?_, ?_, ?_⟩, rfl⟩,
      fun a ha => hout a (h.lt (by simp [ha])), rfl, .inr ?_⟩
    · exact chain_linkBlock p.link le_rfl (by omega)
    · exact h.freeList.congr fun a ha => hout a (h.lt (by simp [ha]))
    · have hrange : List.range (p.brk + p.workShareChunk * 2) =
          List.range p.brk ++ p.brk :: List.range' (p.brk + 1) (p.workShareChunk * 2 - 2 + 1) := by
        have hsplit := List.range'_append_1 (s := 0) (m := p.brk) (n := p.workShareChunk * 2)
        rw [Nat.zero_add] at hsplit
        rw [← List.range'_succ, List.range_eq_range', List.range_eq_range', ← hsplit]
        congr 2
        omega
      show List.Perm _ (List.range (p.brk + p.workShareChunk * 2))
      rw [hrange]
      refine List.Perm.trans (List.perm_iff_count.2 fun a => ?_) (h.all.append_right _)
      simp only [List.append_nil, List.count_append, List.count_cons, List.count_nil]
      omega
    · show p.brk + p.workShareChunk * 2 + 8 = p.workShareChunk * 2 * 2
      omega
    · exact h.first.trans (Nat.le_add_right ..)
    · have hfirst := h.first
      show p.brk + p.workShareChunk * 2 ≤ 2 * peak + 10 ∧ 7 ≤ peak
      omega
  | got ws => cases hstep

/-- The thread in `alloc_work_share` can go on. -/
theorem Holds.exists_allocWorkShare (h : p.Holds live own alloc free) {pc : AllocAt}
    (hpc : pc.Ok p own alloc free peak) (hgot : ∀ ws, pc ≠ .got ws) : ∃ r, p.allocWorkShare pc = some r := by
  have hvalid : ∀ {l : Link} {as : List Nat}, Chain Link.pointers p.link l as → l = .null ∨ ∃ ws, l = .ptr ws :=
    fun hl => hl.null_or_ptr
  cases pc with
  | start =>
    unfold SharePool.allocWorkShare
    rcases hvalid h.allocList with hl | ⟨ws, hl⟩ <;> exact ⟨_, by rw [hl]⟩
  | look =>
    unfold SharePool.allocWorkShare
    rcases hvalid h.freeList with hl | ⟨ws, hl⟩ <;> exact ⟨_, by rw [hl]⟩
  | peek ws =>
    obtain ⟨-, -, hmem, -⟩ := hpc
    obtain ⟨pre, post, rfl⟩ := List.append_of_mem hmem
    unfold SharePool.allocWorkShare
    dsimp only
    rcases hvalid h.freeList.after with hl | ⟨ws, hl⟩ <;> exact ⟨_, by rw [hl]⟩
  | pop ws | cut ws next | take next | grow => exact ⟨_, rfl⟩
  | got ws => exact absurd rfl (hgot ws)

/-- What a step of `free_work_share` before its last leaves behind. -/
structure FreeStep (p : SharePool) (ws : Nat) (live own alloc free : List Nat) (p' : SharePool) (pc' : FreeAt) :
    Prop where
  holds : p'.Holds (ws :: live) own alloc free
  pc : pc'.Ok p' ws
  link : ∀ a, a ≠ ws → p'.link a = p.link a
  listFree : p'.workShareListFree = p.workShareListFree
  brk : p'.brk = p.brk
  alloc : ∀ (pc : AllocAt) (peak : Nat), pc.Ok p own alloc free peak → pc.Ok p' own alloc free peak

/-- A work share is put back: nobody else has written `work_share_list_free` since it was read. -/
theorem Holds.put_back (h : p.Holds (ws :: live) own alloc free) {head : Link} (hpc : (FreeAt.cas head).Ok p ws) :
    p.freeWorkShare ws (.cas head) = ({ p with workShareListFree := .ptr ws }, none) ∧
      Holds { p with workShareListFree := .ptr ws } live own alloc (ws :: free) := by
  obtain ⟨hhead, hlink⟩ := hpc
  refine ⟨if_pos hhead, h.allocList, ?_, ?_, h.chunk, h.first⟩
  · refine .cons ?_
    show Chain Link.pointers p.link (p.link ws) free
    rw [hlink, ← hhead]
    exact h.freeList
  · refine List.Perm.trans (List.perm_iff_count.2 fun a => ?_) h.all
    simp only [List.count_append, List.count_cons]
    omega

theorem Holds.freeWorkShare (h : p.Holds (ws :: live) own alloc free) {pc pc' : FreeAt} (hpc : pc.Ok p ws)
    (hstep : p.freeWorkShare ws pc = (p', some pc')) : p.FreeStep ws live own alloc free p' pc' := by
  cases pc with
  | read =>
    cases hstep
    exact ⟨h, rfl, fun _ _ => rfl, rfl, rfl, fun _ _ ha => ha⟩
  | link head =>
    cases hstep
    refine ⟨h.update (List.mem_append_left _ List.mem_cons_self) head, ⟨hpc, Function.update_self ..⟩,
      fun a ha => Function.update_of_ne ha .., rfl, rfl, fun pc peak ha => ?_⟩
    exact h.alloc_update List.mem_cons_self head ha
  | cas head =>
    rw [(h.put_back hpc).1] at hstep
    cases hstep

/-- The thread in `alloc_work_share` does not mind. -/
theorem alloc_put_back {pc : AllocAt} (hpc : pc.Ok p own alloc free peak) (l : Link) :
    pc.Ok { p with workShareListFree := l } own alloc (ws :: free) peak := by
  cases pc with
  | start | pop ws' | look | take next | grow | got ws' => exact hpc
  | peek ws' =>
    obtain ⟨ho, ha, hmem, hle⟩ := hpc
    exact ⟨ho, ha, List.mem_cons_of_mem _ hmem, hle⟩
  | cut ws' next =>
    obtain ⟨ho, ha, hmem, hlink⟩ := hpc
    exact ⟨ho, ha, List.mem_cons_of_mem _ hmem, hlink⟩

/-- More work shares may have been in use at once. -/
theorem alloc_mono {pc : AllocAt} (hpc : pc.Ok p own alloc free peak) {peak' : Nat} (hle : peak ≤ peak') :
    pc.Ok p own alloc free peak' := by
  cases pc with
  | start | pop ws' | look | cut ws' next | take next | got ws' => exact hpc
  | peek ws' =>
    obtain ⟨ho, ha, hmem, hbrk⟩ := hpc
    exact ⟨ho, ha, hmem, fun hnull => (hbrk hnull).trans (by omega)⟩
  | grow =>
    obtain ⟨ho, ha, hbrk⟩ := hpc
    exact ⟨ho, ha, hbrk.trans (by omega)⟩

/-- The work share that has been taken comes into use. -/
theorem Holds.link (h : p.Holds live [ws] alloc free) : p.Holds (live ++ [ws]) [] alloc free where
  allocList := h.allocList
  freeList := h.freeList
  all := by
    rw [List.append_nil]
    exact h.all
  chunk := h.chunk
  first := h.first

theorem holds_gompNewTeam : gompNewTeam.Holds [0] [] (List.range' 1 7) [] where
  allocList := chain_linkBlock _ le_rfl rfl
  freeList := .nil
  all := by decide
  chunk := rfl
  first := le_rfl

end SharePool

end Bosched
