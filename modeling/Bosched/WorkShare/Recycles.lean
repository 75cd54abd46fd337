/-
The program refines the numbered work shares. A work share that has been linked in and not been put back has an address
of its own (`Recycles`); the lists of the cache hold the other addresses.
-/
import Bosched.WorkShare.Needs
import Bosched.WorkShare.Pool

namespace Bosched

open Lib

variable {G C A B E : Type}

/-! ## What a step can do -/

/-- The steps of thread `i`, one constructor for each branch of the source. -/
inductive RecycledRule (n : Nat) (body : List (Work G C A B E)) (i : Nat) (s : TeamShares G C) (m : ShareMember B) :
    TeamShares G C → ShareMember B → Option E → Prop
  | first (W : Work G C A B E) (hW : body[m.pos]? = some W) (hst : m.status = .between)
      (h : s.pool.link m.workShare = .null) :
      RecycledRule n body i s m (s.setLink m.workShare .held)
        ⟨m.pos, m.workShare, some m.workShare, .alloc .start⟩ none
  | enter (W : Work G C A B E) (hW : body[m.pos]? = some W) (hst : m.status = .between) (ws : Nat)
      (h : s.pool.link m.workShare = .ptr ws) :
      RecycledRule n body i s m s ⟨m.pos, ws, some m.workShare, .inside W.entry⟩ none
  | alloc (W : Work G C A B E) (hW : body[m.pos]? = some W) (pc : AllocAt) (hst : m.status = .alloc pc)
      (pool : SharePool) (pc' : AllocAt) (h : s.pool.allocWorkShare pc = some (pool, pc')) :
      RecycledRule n body i s m { s with pool := pool } ⟨m.pos, m.workShare, m.lastWorkShare, .alloc pc'⟩ none
  | init (W : Work G C A B E) (hW : body[m.pos]? = some W) (ws : Nat) (hst : m.status = .alloc (.got ws)) :
      RecycledRule n body i s m (s.gompInitWorkShare ws W.init) ⟨m.pos, m.workShare, m.lastWorkShare, .inited ws⟩ none
  | link (W : Work G C A B E) (hW : body[m.pos]? = some W) (ws : Nat) (hst : m.status = .inited ws) :
      RecycledRule n body i s m (s.gompWorkShareInitDone ws m.lastWorkShare)
        ⟨m.pos, ws, m.lastWorkShare, .inside W.entry⟩ none
  | run (W : Work G C A B E) (hW : body[m.pos]? = some W) (b : B) (hst : m.status = .inside b) (a : A) (g : G) (c : C)
      (b' : B) (e : Option E) (h : W.step i a s.global (s.content m.workShare) b = some (g, c, b', e)) :
      RecycledRule n body i s m { s with global := g, content := Function.update s.content m.workShare c }
        ⟨m.pos, m.workShare, m.lastWorkShare, .inside b'⟩ e
  | endNowait (W : Work G C A B E) (hW : body[m.pos]? = some W) (b : B) (hst : m.status = .inside b)
      (hend : W.ends b = true) (hform : W.nowait = true) :
      RecycledRule n body i s m (s.gompWorkShareEndNowait n m).1 (s.gompWorkShareEndNowait n m).2 none
  | endBarrier (W : Work G C A B E) (hW : body[m.pos]? = some W) (b : B) (hst : m.status = .inside b)
      (hend : W.ends b = true) (hform : W.nowait = false) :
      RecycledRule n body i s m (s.gompWorkShareEnd n m).1 (s.gompWorkShareEnd n m).2 none
  | freeing (W : Work G C A B E) (hW : body[m.pos]? = some W) (pc : FreeAt) (hst : m.status = .freeing pc) (last : Nat)
      (hlast : m.lastWorkShare = some last) (pool : SharePool) (pc' : FreeAt)
      (h : s.pool.freeWorkShare last pc = (pool, some pc')) :
      RecycledRule n body i s m { s with pool := pool } ⟨m.pos, m.workShare, m.lastWorkShare, .freeing pc'⟩ none
  | free (W : Work G C A B E) (hW : body[m.pos]? = some W) (pc : FreeAt) (hst : m.status = .freeing pc) (last : Nat)
      (hlast : m.lastWorkShare = some last) (pool : SharePool) (h : s.pool.freeWorkShare last pc = (pool, none)) :
      RecycledRule n body i s m { s with pool := pool }
        (if W.nowait then m.done else ⟨m.pos, m.workShare, m.lastWorkShare, .releasing⟩) none
  | wake (W : Work G C A B E) (hW : body[m.pos]? = some W) (g : Nat) (hst : m.status = .waiting g)
      (h : s.generation = g + 1) : RecycledRule n body i s m s m.done none
  | release (W : Work G C A B E) (hW : body[m.pos]? = some W) (hst : m.status = .releasing) :
      RecycledRule n body i s m { s with arrived := 0, generation := s.generation + 1 } m.done none

theorem gompWorkShareStart_rule {n i : Nat} {body : List (Work G C A B E)} {W : Work G C A B E}
    {s s' : TeamShares G C} {m m' : ShareMember B} (hW : body[m.pos]? = some W) (hst : m.status = .between)
    (h : s.gompWorkShareStart W m = some (s', m')) : RecycledRule n body i s m s' m' none := by
  unfold TeamShares.gompWorkShareStart at h
  split at h
  · rename_i hnull
    cases h
    exact .first W hW hst hnull
  · cases h
  · rename_i ws hws
    cases h
    exact .enter W hW hst ws hws

theorem recycledRun_rule {n i : Nat} {body : List (Work G C A B E)} {a : ShareAction A} {s s' : TeamShares G C}
    {m m' : ShareMember B} {e : Option E} (h : recycledRun n body i a s m = some (s', m', e)) :
    i < n ∧ RecycledRule n body i s m s' m' e := by
  unfold recycledRun at h
  split at h
  swap
  · cases h
  rename_i hi
  refine ⟨hi, ?_⟩
  obtain ⟨W, hW, hrun⟩ := Option.bind_eq_some_iff.1 h
  clear h
  unfold recycledStep at hrun
  split at hrun
  · rename_i hst
    obtain ⟨⟨s₁, m₁⟩, hstart, heq⟩ := Option.map_eq_some_iff.1 hrun
    cases heq
    exact gompWorkShareStart_rule hW hst hstart
  · rename_i ws hst
    cases hrun
    exact .init W hW ws hst
  · rename_i pc _ hst
    obtain ⟨⟨pool, pc'⟩, halloc, heq⟩ := Option.map_eq_some_iff.1 hrun
    cases heq
    exact .alloc W hW pc hst pool pc' halloc
  · rename_i ws hst
    cases hrun
    exact .link W hW ws hst
  · rename_i a b hst
    obtain ⟨⟨g, c, b', e⟩, hstep, heq⟩ := Option.map_eq_some_iff.1 hrun
    cases heq
    exact .run W hW b hst a g c b' e hstep
  · rename_i b hst
    split at hrun
    swap
    · cases hrun
    rename_i hend
    cases hrun
    split
    · rename_i hform
      exact .endNowait W hW b hst hend hform
    · rename_i hform
      exact .endBarrier W hW b hst hend (by simpa using hform)
  · rename_i pc hst
    obtain ⟨last, hlast, heq⟩ := Option.map_eq_some_iff.1 hrun
    obtain ⟨pool, pc', hfree⟩ : ∃ pool pc', s.pool.freeWorkShare last pc = (pool, pc') := ⟨_, _, rfl⟩
    rw [hfree] at heq
    cases pc' with
    | some pc' =>
      cases heq
      exact .freeing W hW pc hst last hlast pool pc' hfree
    | none =>
      cases heq
      exact .free W hW pc hst last hlast pool hfree
  · rename_i g hst
    split at hrun <;> cases hrun
    rename_i hg
    exact .wake W hW g hst hg
  · rename_i hst
    cases hrun
    exact .release W hW hst
  · cases hrun

/-! ## The relation -/

/-- The addresses of the work shares `lo, …, hi`. -/
def liveShares (addr : Nat → Nat) (lo hi : Nat) : List Nat := (List.range' lo (hi + 1 - lo)).map addr

theorem mem_liveShares {addr : Nat → Nat} {lo hi a : Nat} :
    a ∈ liveShares addr lo hi ↔ ∃ j, lo ≤ j ∧ j ≤ hi ∧ addr j = a := by
  unfold liveShares
  rw [List.mem_map]
  constructor
  · rintro ⟨j, hj, rfl⟩
    rw [List.mem_range'_1] at hj
    exact ⟨j, hj.1, by omega, rfl⟩
  · rintro ⟨j, hlo, hhi, rfl⟩
    exact ⟨j, List.mem_range'_1.2 ⟨hlo, by omega⟩, rfl⟩

theorem liveShares_cons {addr : Nat → Nat} {lo hi : Nat} (h : lo ≤ hi) :
    liveShares addr lo hi = addr lo :: liveShares addr (lo + 1) hi := by
  unfold liveShares
  rw [show hi + 1 - lo = hi + 1 - (lo + 1) + 1 by omega, List.range'_succ, List.map_cons]

theorem liveShares_snoc {addr : Nat → Nat} {lo hi : Nat} (h : lo ≤ hi) (ws : Nat) :
    liveShares (Function.update addr (hi + 1) ws) lo (hi + 1) = liveShares addr lo hi ++ [ws] := by
  unfold liveShares
  rw [show hi + 1 + 1 - lo = hi + 1 - lo + 1 by omega, List.range'_1_concat, List.map_append]
  congr 1
  · refine List.map_congr_left fun j hj => Function.update_of_ne ?_ ..
    rw [List.mem_range'_1] at hj
    omega
  · rw [show lo + (hi + 1 - lo) = hi + 1 by omega, List.map_singleton, Function.update_self]

/-- A thread with the work shares that it has by its place. -/
inductive Placed (addr : Nat → Nat) : ShareMember B → NumberedMember B → Prop
  | between (p : Nat) (last : Option Nat) : Placed addr ⟨p, addr p, last, .between⟩ ⟨p, .between⟩
  | alloc (p : Nat) (pc : AllocAt) : Placed addr ⟨p, addr p, some (addr p), .alloc pc⟩ ⟨p, .building⟩
  | inited (p ws : Nat) : Placed addr ⟨p, addr p, some (addr p), .inited ws⟩ ⟨p, .building⟩
  | inside (p : Nat) (b : B) : Placed addr ⟨p, addr (p + 1), some (addr p), .inside b⟩ ⟨p, .inside b⟩
  | freeing (p : Nat) (pc : FreeAt) : Placed addr ⟨p, addr (p + 1), some (addr p), .freeing pc⟩ ⟨p, .freeing⟩
  | waiting (p g : Nat) (last : Option Nat) : Placed addr ⟨p, addr (p + 1), last, .waiting g⟩ ⟨p, .waiting g⟩
  | releasing (p : Nat) (last : Option Nat) : Placed addr ⟨p, addr (p + 1), last, .releasing⟩ ⟨p, .releasing⟩

/-- The thread is neither in `alloc_work_share`, nor about to link in what it returned, nor in `free_work_share`. -/
def ShareMember.plain (m : ShareMember B) : Bool :=
  match m.status with
  | .alloc _ | .inited _ | .freeing _ => false
  | _ => true

theorem Placed.pos {addr : Nat → Nat} {m : ShareMember B} {m' : NumberedMember B} (h : Placed addr m m') :
    m'.pos = m.pos := by
  cases h <;> rfl

namespace Placed

variable {addr : Nat → Nat} {m : ShareMember B} {m' : NumberedMember B}

theorem workShare (h : Placed addr m m') : m.workShare = addr m'.reached := by
  cases h <;> rfl

theorem between_inv (h : Placed addr m m') (hst : m.status = .between) :
    m'.status = .between ∧ m.workShare = addr m.pos := by
  cases h <;> simp_all

theorem alloc_inv (h : Placed addr m m') {pc : AllocAt} (hst : m.status = .alloc pc) :
    m'.status = .building ∧ m.workShare = addr m.pos ∧ m.lastWorkShare = some (addr m.pos) := by
  cases h <;> simp_all

theorem inited_inv (h : Placed addr m m') {ws : Nat} (hst : m.status = .inited ws) :
    m'.status = .building ∧ m.workShare = addr m.pos ∧ m.lastWorkShare = some (addr m.pos) := by
  cases h <;> simp_all

theorem building_inv (h : Placed addr m m') (hst : m'.status = .building) :
    (∃ pc, m.status = .alloc pc) ∨ ∃ ws, m.status = .inited ws := by
  cases h <;> simp_all

theorem inside_inv (h : Placed addr m m') {b : B} (hst : m.status = .inside b) :
    m'.status = .inside b ∧ m.workShare = addr (m.pos + 1) ∧ m.lastWorkShare = some (addr m.pos) := by
  cases h <;> simp_all

theorem freeing_inv (h : Placed addr m m') {pc : FreeAt} (hst : m.status = .freeing pc) :
    m'.status = .freeing ∧ m.workShare = addr (m.pos + 1) ∧ m.lastWorkShare = some (addr m.pos) := by
  cases h <;> simp_all

theorem waiting_inv (h : Placed addr m m') {g : Nat} (hst : m.status = .waiting g) :
    m'.status = .waiting g ∧ m.workShare = addr (m.pos + 1) := by
  cases h <;> simp_all

theorem releasing_inv (h : Placed addr m m') (hst : m.status = .releasing) :
    m'.status = .releasing ∧ m.workShare = addr (m.pos + 1) := by
  cases h <;> simp_all

theorem alloc_of (hst : m'.status = .building) (pc : AllocAt) :
    Placed addr ⟨m'.pos, addr m'.pos, some (addr m'.pos), .alloc pc⟩ m' := by
  obtain ⟨p, st⟩ := m'
  cases hst
  exact .alloc p pc

theorem inited_of (hst : m'.status = .building) (ws : Nat) :
    Placed addr ⟨m'.pos, addr m'.pos, some (addr m'.pos), .inited ws⟩ m' := by
  obtain ⟨p, st⟩ := m'
  cases hst
  exact .inited p ws

theorem freeing_of (hst : m'.status = .freeing) (pc : FreeAt) :
    Placed addr ⟨m'.pos, addr (m'.pos + 1), some (addr m'.pos), .freeing pc⟩ m' := by
  obtain ⟨p, st⟩ := m'
  cases hst
  exact .freeing p pc

theorem done (hshare : m.workShare = addr (m.pos + 1)) (hpos : m'.pos = m.pos) : Placed addr m.done m'.done := by
  unfold ShareMember.done NumberedMember.done
  rw [hshare, hpos]
  exact .between _ _

/-- Only the addresses of work shares that have been linked in matter. -/
theorem congr {addr' : Nat → Nat} (h : Placed addr m m') (heq : ∀ j ≤ m'.reached, addr' j = addr j) :
    Placed addr' m m' := by
  cases h with
  | between p last => rw [← heq p le_rfl]; exact .between p last
  | alloc p pc => rw [← heq p le_rfl]; exact .alloc p pc
  | inited p ws => rw [← heq p le_rfl]; exact .inited p ws
  | inside p b => rw [← heq p (Nat.le_succ p), ← heq (p + 1) le_rfl]; exact .inside p b
  | freeing p pc => rw [← heq p (Nat.le_succ p), ← heq (p + 1) le_rfl]; exact .freeing p pc
  | waiting p g last => rw [← heq (p + 1) le_rfl]; exact .waiting p g last
  | releasing p last => rw [← heq (p + 1) le_rfl]; exact .releasing p last

end Placed

theorem Placed.ne_freeing {addr : Nat → Nat} {m : ShareMember B} {m' : NumberedMember B} (h : Placed addr m m')
    (hplain : m.plain = true) : m'.status ≠ .freeing := by
  cases h <;> simp_all [ShareMember.plain]

/-- The cache, when `peak` work shares at most have been in use at once. -/
structure Cached (n : Nat) (body : List (Work G C A B E)) (addr : Nat → Nat) (peak : Nat) (s : TeamShares G C)
    (loc : Nat → ShareMember B) (t : NumberedTeam G C) (own alloc free : List Nat) : Prop where
  holds : s.pool.Holds (liveShares addr t.freed t.started) own alloc free
  alloc : ∀ i < n, ∀ pc, (loc i).status = .alloc pc → pc.Ok s.pool own alloc free peak
  inited : ∀ i < n, ∀ ws, (loc i).status = .inited ws → own = [ws] ∧ s.pool.link ws = .null ∧
    s.threadsCompleted ws = 0 ∧ ∀ W, body[(loc i).pos]? = some W → s.content ws = W.init
  idle : t.building = false → own = []
  freeing : ∀ i < n, ∀ pc, (loc i).status = .freeing pc → pc.Ok s.pool (addr (loc i).pos)
  brk : s.pool.brk = 8 ∨ s.pool.brk ≤ 2 * peak + 10 ∧ 7 ≤ peak

/-- The program beside the numbered work shares: work share `j` is at `addr j`. -/
structure Recycles (n : Nat) (body : List (Work G C A B E)) (addr : Nat → Nat) (peak : Nat) (s : TeamShares G C)
    (loc : Nat → ShareMember B) (t : NumberedTeam G C) (loc' : Nat → NumberedMember B) : Prop where
  placed : ∀ i < n, Placed addr (loc i) (loc' i)
  global : s.global = t.global
  arrived : s.arrived = t.arrived
  generation : s.generation = t.generation
  content : ∀ k, t.freed ≤ k + 1 → k < t.started →
    s.content (addr (k + 1)) = t.content k ∧ s.threadsCompleted (addr (k + 1)) = t.completed k
  fresh : ∀ k, t.started ≤ k → t.completed k = 0 ∧ ∀ W, body[k]? = some W → t.content k = W.init
  links : ∀ j, t.freed ≤ j → j < t.started →
    (∃ i < n, (loc' i).status = .freeing ∧ (loc' i).pos = j) ∨ s.pool.link (addr j) = .ptr (addr (j + 1))
  front : s.pool.link (addr t.started) = if t.building then .held else .null
  cached : ∃ own alloc free, Cached n body addr peak s loc t own alloc free

namespace Recycles

variable {n i peak : Nat} {body : List (Work G C A B E)} {addr : Nat → Nat} {s s' : TeamShares G C}
  {loc : Nat → ShareMember B} {t t' : NumberedTeam G C} {loc' : Nat → NumberedMember B} {m' : ShareMember B}
  {W : Work G C A B E}

theorem addr_inj (h : Recycles n body addr peak s loc t loc') {j k : Nat} (hj : t.freed ≤ j) (hj' : j ≤ t.started)
    (hk : t.freed ≤ k) (hk' : k ≤ t.started) (heq : addr j = addr k) : j = k := by
  obtain ⟨own, alloc, free, hc⟩ := h.cached
  have hnodup := hc.holds.nodup
  rw [List.append_assoc, List.append_assoc, List.nodup_append] at hnodup
  exact List.inj_on_of_nodup_map hnodup.1 (List.mem_range'_1.2 ⟨hj, by omega⟩) (List.mem_range'_1.2 ⟨hk, by omega⟩) heq

/-- The link behind a thread's work share leads to the next one, once that has been linked in. -/
theorem link_between (h : Recycles n body addr peak s loc t loc') (hinv : NumberedInv n body t loc') (hi : i < n)
    (hst : (loc' i).status = .between) (hlt : (loc' i).pos < t.started) :
    s.pool.link (addr (loc' i).pos) = .ptr (addr ((loc' i).pos + 1)) := by
  have hfreed : t.freed ≤ (loc' i).pos := by simpa [NumberedMember.needs, hst] using (hinv.member i hi).freed
  rcases h.links _ hfreed hlt with ⟨k, hk, hstk, hpos⟩ | hlink
  · -- nobody puts a work share back that another thread has to leave
    have hki : i ≠ k := by
      rintro rfl
      rw [hst] at hstk
      cases hstk
    rcases hinv.past k hk (by simp [NumberedMember.closes, hstk]) i hi hki with ⟨-, hlt'⟩ | ⟨-, hw⟩
    · omega
    · rw [hst] at hw
      cases hw
  · exact hlink

/-- The last work share that has been linked in is where a thread takes the lock. -/
theorem link_front (h : Recycles n body addr peak s loc t loc') (hinv : NumberedInv n body t loc') (hi : i < n)
    (hst : (loc' i).status = .between) (hlt : ¬ (loc' i).pos < t.started) :
    s.pool.link (addr (loc' i).pos) = if t.building then .held else .null := by
  have hreached : (loc' i).pos ≤ t.started := by simpa [NumberedMember.reached, hst] using (hinv.member i hi).reached
  rw [show (loc' i).pos = t.started by omega]
  exact h.front

/-- A step of a thread that leaves the cache alone. -/
theorem of_plain (h : Recycles n body addr peak s loc t loc') (hplain : (loc i).plain = true) (hi : i < n)
    (hplain' : m'.plain = true ∨ m'.status = .freeing .read) {m'' : NumberedMember B} (hplaced : Placed addr m' m'')
    (hpool : s'.pool = s.pool) (hstarted : t'.started = t.started) (hfreed : t'.freed = t.freed)
    (hbuilding : t'.building = t.building) (hglobal : s'.global = t'.global) (harrived : s'.arrived = t'.arrived)
    (hgeneration : s'.generation = t'.generation)
    (hcontent : ∀ k, t.freed ≤ k + 1 → k < t.started →
      s'.content (addr (k + 1)) = t'.content k ∧ s'.threadsCompleted (addr (k + 1)) = t'.completed k)
    (hfresh : ∀ k, t.started ≤ k → t'.content k = t.content k ∧ t'.completed k = t.completed k)
    (hother : ∀ ws, ws ∉ liveShares addr t.freed t.started →
      s'.content ws = s.content ws ∧ s'.threadsCompleted ws = s.threadsCompleted ws) :
    Recycles n body addr peak s' (Function.update loc i m') t' (Function.update loc' i m'') where
  placed j hj := by
    by_cases hji : j = i
    · subst hji
      rw [Function.update_self, Function.update_self]
      exact hplaced
    · rw [Function.update_of_ne hji, Function.update_of_ne hji]
      exact h.placed j hj
  global := hglobal
  arrived := harrived
  generation := hgeneration
  content k hk hk' := hcontent k (hfreed ▸ hk) (hstarted ▸ hk')
  fresh k hk := by
    obtain ⟨hc, hd⟩ := hfresh k (hstarted ▸ hk)
    rw [hc, hd]
    exact h.fresh k (hstarted ▸ hk)
  links j hj hj' := by
    rw [hpool]
    rcases h.links j (hfreed ▸ hj) (hstarted ▸ hj') with ⟨k, hk, hst, hpos⟩ | hlink
    · refine .inl ⟨k, hk, ?_⟩
      have hki : k ≠ i := by
        rintro rfl
        exact (h.placed k hk).ne_freeing hplain hst
      rw [Function.update_of_ne hki]
      exact ⟨hst, hpos⟩
    · exact .inr hlink
  front := by
    rw [hpool, hstarted, hbuilding]
    exact h.front
  cached := by
    obtain ⟨own, alloc, free, hc⟩ := h.cached
    have hnot : ∀ {st : ShareStatus B}, m'.status = st → (∃ pc, st = .alloc pc) ∨ (∃ ws, st = .inited ws) → False := by
      rintro _ rfl (⟨pc, hst⟩ | ⟨ws, hst⟩) <;> rcases hplain' with hp | hp <;> simp [ShareMember.plain, hst] at hp
    refine ⟨own, alloc, free, ?_, fun j hj pc hst => ?_, fun j hj ws hst => ?_, ?_, fun j hj pc hst => ?_, ?_⟩
    · rw [hpool, hstarted, hfreed]
      exact hc.holds
    · rw [hpool]
      by_cases hji : j = i
      · subst hji
        rw [Function.update_self] at hst
        exact absurd (.inl ⟨pc, rfl⟩) (hnot hst)
      · rw [Function.update_of_ne hji] at hst
        exact hc.alloc j hj pc hst
    · by_cases hji : j = i
      · subst hji
        rw [Function.update_self] at hst
        exact absurd (.inr ⟨ws, rfl⟩) (hnot hst)
      · rw [Function.update_of_ne hji] at hst ⊢
        obtain ⟨rfl, hnull, hcompleted, hinit⟩ := hc.inited j hj ws hst
        have hws : ws ∉ liveShares addr t.freed t.started := fun hm =>
          hc.holds.not_mem_own hm List.mem_cons_self
        rw [hpool, (hother ws hws).1, (hother ws hws).2]
        exact ⟨rfl, hnull, hcompleted, hinit⟩
    · rw [hbuilding]
      exact hc.idle
    · rw [hpool]
      by_cases hji : j = i
      · subst hji
        rw [Function.update_self] at hst
        rcases hplain' with hp | hp
        · simp [ShareMember.plain, hst] at hp
        · rw [hst] at hp
          cases hp
          trivial
      · rw [Function.update_of_ne hji] at hst ⊢
        exact hc.freeing j hj pc hst
    · rw [hpool]
      exact hc.brk

theorem placed_update (h : Recycles n body addr peak s loc t loc') {m'' : NumberedMember B}
    (hplaced : Placed addr m' m'') (j : Nat) (hj : j < n) :
    Placed addr (Function.update loc i m' j) (Function.update loc' i m'' j) := by
  by_cases hji : j = i
  · subst hji
    rw [Function.update_self, Function.update_self]
    exact hplaced
  · rw [Function.update_of_ne hji, Function.update_of_ne hji]
    exact h.placed j hj

/-- Nobody else is taking a work share from the cache. -/
theorem alone (h : Recycles n body addr peak s loc t loc') (hinv : NumberedInv n body t loc')
    (hbuild : t.building = true → (loc' i).status = .building) (hi : i < n) {j : Nat} (hj : j < n) (hji : j ≠ i) :
    (∀ pc, (loc j).status ≠ .alloc pc) ∧ ∀ ws, (loc j).status ≠ .inited ws := by
  have hnot : (loc' j).status ≠ .building := by
    intro hb
    exact hji (hinv.oneBuilds j hj i hi hb (hbuild ((hinv.member j hj).building hb).1))
  exact ⟨fun pc hst => hnot ((h.placed j hj).alloc_inv hst).1, fun ws hst => hnot ((h.placed j hj).inited_inv hst).1⟩

/-- The work share that is put back is neither the last one nor one that has been put back before. -/
theorem freeing_lt (h : Recycles n body addr peak s loc t loc') (hinv : NumberedInv n body t loc') {j : Nat}
    (hj : j < n) {pc : FreeAt} (hst : (loc j).status = .freeing pc) :
    t.freed = (loc j).pos ∧ (loc j).pos < t.started := by
  have hp := h.placed j hj
  obtain ⟨hst', -, -⟩ := hp.freeing_inv hst
  have hreached : (loc' j).pos + 1 ≤ t.started := by
    simpa [NumberedMember.reached, hst'] using (hinv.member j hj).reached
  have hfreed := hinv.freed_eq hj hst'
  rw [hp.pos] at hreached hfreed
  exact ⟨hfreed, hreached⟩

/-- The first thread to leave the last work share takes the lock behind it. -/
theorem first (h : Recycles n body addr peak s loc t loc') (hinv : NumberedInv n body t loc') (hi : i < n)
    (hst : (loc i).status = .between) (hnull : s.pool.link (loc i).workShare = .null) :
    (¬ (loc' i).pos < t.started ∧ t.building = false) ∧
      Recycles n body addr peak (s.setLink (loc i).workShare .held)
        (Function.update loc i ⟨(loc i).pos, (loc i).workShare, some (loc i).workShare, .alloc .start⟩)
        { t with building := true } (Function.update loc' i ⟨(loc' i).pos, .building⟩) := by
  have hp := h.placed i hi
  obtain ⟨hst', hws⟩ := hp.between_inv hst
  rw [hws, ← hp.pos] at hnull ⊢
  have hlt : ¬ (loc' i).pos < t.started := by
    intro hlt
    rw [h.link_between hinv hi hst' hlt] at hnull
    cases hnull
  have hfree : t.building = false := by
    rw [h.link_front hinv hi hst' hlt] at hnull
    by_contra hb
    rw [Bool.not_eq_false] at hb
    rw [hb] at hnull
    cases hnull
  have hpos : (loc' i).pos = t.started := by
    have hreached : (loc' i).pos ≤ t.started := by
      simpa [NumberedMember.reached, hst'] using (hinv.member i hi).reached
    omega
  have hle := hinv.freed_le hi
  have hne : ∀ j, t.freed ≤ j → j < t.started → addr j ≠ addr (loc' i).pos := by
    intro j hj hj' heq
    rw [hpos] at heq
    have := h.addr_inj hj hj'.le hle le_rfl heq
    omega
  have hothers : ∀ j < n, j ≠ i → (∀ pc, (loc j).status ≠ .alloc pc) ∧ ∀ ws, (loc j).status ≠ .inited ws :=
    fun j hj hji => h.alone hinv (fun hb => by rw [hfree] at hb; cases hb) hi hj hji
  refine ⟨⟨hlt, hfree⟩, ⟨h.placed_update (.alloc _ _), h.global, h.arrived, h.generation, h.content, h.fresh,
    fun j hj hj' => ?_, ?_, ?_⟩⟩
  · rcases h.links j hj hj' with ⟨k, hk, hstk, hposk⟩ | hlink
    · refine .inl ⟨k, hk, ?_⟩
      rw [Function.update_of_ne (by rintro rfl; rw [hst'] at hstk; cases hstk)]
      exact ⟨hstk, hposk⟩
    · exact .inr ((Function.update_of_ne (hne j hj hj') ..).trans hlink)
  · show Function.update s.pool.link (addr (loc' i).pos) .held (addr t.started) = .held
    rw [hpos, Function.update_self]
  · obtain ⟨own, alloc, free, hc⟩ := h.cached
    have hlive : addr (loc' i).pos ∈ liveShares addr t.freed t.started :=
      mem_liveShares.2 ⟨_, by rw [hpos]; exact hle, hpos.le, rfl⟩
    refine ⟨own, alloc, free, hc.holds.update (List.mem_append_left _ hlive) _, fun j hj pc hstj => ?_,
      fun j hj ws hstj => ?_, (fun hb => by cases hb), fun j hj pc hstj => ?_, hc.brk⟩
    · by_cases hji : j = i
      · subst hji
        rw [Function.update_self] at hstj
        cases hstj
        exact hc.idle hfree
      · rw [Function.update_of_ne hji] at hstj
        exact absurd hstj ((hothers j hj hji).1 pc)
    · by_cases hji : j = i
      · subst hji
        rw [Function.update_self] at hstj
        cases hstj
      · rw [Function.update_of_ne hji] at hstj
        exact absurd hstj ((hothers j hj hji).2 ws)
    · by_cases hji : j = i
      · subst hji
        rw [Function.update_self] at hstj
        cases hstj
      · rw [Function.update_of_ne hji] at hstj ⊢
        obtain ⟨hfreed, hlt'⟩ := h.freeing_lt hinv hj hstj
        exact (hc.freeing j hj pc hstj).congr rfl (Function.update_of_ne (hne _ hfreed.le hlt') ..)

/-- A step in `alloc_work_share`. -/
theorem alloc (h : Recycles n body addr peak s loc t loc') (hinv : NumberedInv n body t loc') (hi : i < n)
    (hpeak : t.started + 1 ≤ t.freed + peak) {pc pc' : AllocAt} (hst : (loc i).status = .alloc pc) {pool : SharePool}
    (hstep : s.pool.allocWorkShare pc = some (pool, pc')) :
    Recycles n body addr peak { s with pool := pool }
      (Function.update loc i ⟨(loc i).pos, (loc i).workShare, (loc i).lastWorkShare, .alloc pc'⟩) t loc' := by
  have hp := h.placed i hi
  obtain ⟨hst', hws, hlast⟩ := hp.alloc_inv hst
  obtain ⟨own, alloc, free, hc⟩ := h.cached
  have hle := hinv.freed_le hi
  have hlen : (liveShares addr t.freed t.started).length ≤ peak := by
    unfold liveShares
    rw [List.length_map, List.length_range']
    omega
  have hs := hc.holds.allocWorkShare (hc.alloc i hi pc hst) hlen hstep
  have hothers : ∀ j < n, j ≠ i → (∀ pc, (loc j).status ≠ .alloc pc) ∧ ∀ ws, (loc j).status ≠ .inited ws :=
    fun j hj hji => h.alone hinv (fun _ => hst') hi hj hji
  have hlive : ∀ j, t.freed ≤ j → j ≤ t.started → pool.link (addr j) = s.pool.link (addr j) :=
    fun j hj hj' => hs.live _ (mem_liveShares.2 ⟨j, hj, hj', rfl⟩)
  refine ⟨fun j hj => ?_, h.global, h.arrived, h.generation, h.content, h.fresh, fun j hj hj' => ?_, ?_, ?_⟩
  · by_cases hji : j = i
    · subst hji
      rw [Function.update_self, hws, hlast, ← hp.pos]
      exact .alloc_of hst' pc'
    · rw [Function.update_of_ne hji]
      exact h.placed j hj
  · rcases h.links j hj hj' with hk | hlink
    · exact .inl hk
    · exact .inr ((hlive j hj hj'.le).trans hlink)
  · exact (hlive _ hle le_rfl).trans h.front
  · obtain ⟨own', alloc', free', hholds, hpc'⟩ := hs.holds
    refine ⟨own', alloc', free', hholds, fun j hj pc₁ hstj => ?_, fun j hj ws hstj => ?_, fun hb => ?_,
      fun j hj pc₁ hstj => ?_, ?_⟩
    · by_cases hji : j = i
      · subst hji
        rw [Function.update_self] at hstj
        cases hstj
        exact hpc'
      · rw [Function.update_of_ne hji] at hstj
        exact absurd hstj ((hothers j hj hji).1 pc₁)
    · by_cases hji : j = i
      · subst hji
        rw [Function.update_self] at hstj
        cases hstj
      · rw [Function.update_of_ne hji] at hstj
        exact absurd hstj ((hothers j hj hji).2 ws)
    · rw [((hinv.member i hi).building hst').1] at hb
      cases hb
    · by_cases hji : j = i
      · subst hji
        rw [Function.update_self] at hstj
        cases hstj
      · rw [Function.update_of_ne hji] at hstj ⊢
        obtain ⟨hfreed, hlt'⟩ := h.freeing_lt hinv hj hstj
        exact (hc.freeing j hj pc₁ hstj).congr hs.listFree (hlive _ hfreed.le hlt'.le)
    · show pool.brk = 8 ∨ pool.brk ≤ 2 * peak + 10 ∧ 7 ≤ peak
      rcases hs.brk with hbrk | hbrk
      · rw [hbrk]
        exact hc.brk
      · exact .inr hbrk

/-- The work share that has been taken is initialised. -/
theorem init (h : Recycles n body addr peak s loc t loc') (hinv : NumberedInv n body t loc') (hi : i < n)
    (hW : body[(loc i).pos]? = some W) {ws : Nat} (hst : (loc i).status = .alloc (.got ws)) :
    Recycles n body addr peak (s.gompInitWorkShare ws W.init)
      (Function.update loc i ⟨(loc i).pos, (loc i).workShare, (loc i).lastWorkShare, .inited ws⟩) t loc' := by
  have hp := h.placed i hi
  obtain ⟨hst', hws, hlast⟩ := hp.alloc_inv hst
  obtain ⟨own, alloc, free, hc⟩ := h.cached
  obtain rfl : own = [ws] := hc.alloc i hi _ hst
  have hle := hinv.freed_le hi
  have hothers : ∀ j < n, j ≠ i → (∀ pc, (loc j).status ≠ .alloc pc) ∧ ∀ ws, (loc j).status ≠ .inited ws :=
    fun j hj hji => h.alone hinv (fun _ => hst') hi hj hji
  have hne : ∀ j, t.freed ≤ j → j ≤ t.started → addr j ≠ ws := fun j hj hj' heq =>
    hc.holds.not_mem_own (mem_liveShares.2 ⟨j, hj, hj', rfl⟩) (by rw [heq]; exact List.mem_cons_self)
  have hlink : ∀ j, t.freed ≤ j → j ≤ t.started →
      Function.update s.pool.link ws .null (addr j) = s.pool.link (addr j) := fun j hj hj' =>
    Function.update_of_ne (hne j hj hj') ..
  refine ⟨fun j hj => ?_, h.global, h.arrived, h.generation, fun k hk hk' => ?_, h.fresh, fun j hj hj' => ?_, ?_, ?_⟩
  · by_cases hji : j = i
    · subst hji
      rw [Function.update_self, hws, hlast, ← hp.pos]
      exact .inited_of hst' ws
    · rw [Function.update_of_ne hji]
      exact h.placed j hj
  · obtain ⟨hcontent, hcompleted⟩ := h.content k hk hk'
    have hkne := hne (k + 1) hk hk'
    exact ⟨(Function.update_of_ne hkne ..).trans hcontent, (Function.update_of_ne hkne ..).trans hcompleted⟩
  · rcases h.links j hj hj' with hk | hl
    · exact .inl hk
    · exact .inr ((hlink j hj hj'.le).trans hl)
  · exact (hlink _ hle le_rfl).trans h.front
  · refine ⟨[ws], alloc, free, hc.holds.update (List.mem_append_right _ List.mem_cons_self) _, fun j hj pc hstj => ?_,
      fun j hj ws' hstj => ?_, fun hb => ?_, fun j hj pc hstj => ?_, hc.brk⟩
    · by_cases hji : j = i
      · subst hji
        rw [Function.update_self] at hstj
        cases hstj
      · rw [Function.update_of_ne hji] at hstj
        exact absurd hstj ((hothers j hj hji).1 pc)
    · by_cases hji : j = i
      · subst hji
        rw [Function.update_self] at hstj ⊢
        cases hstj
        refine ⟨rfl, Function.update_self .., Function.update_self .., fun W' hW' => ?_⟩
        rw [hW] at hW'
        cases hW'
        exact Function.update_self ..
      · rw [Function.update_of_ne hji] at hstj
        exact absurd hstj ((hothers j hj hji).2 ws')
    · rw [((hinv.member i hi).building hst').1] at hb
      cases hb
    · by_cases hji : j = i
      · subst hji
        rw [Function.update_self] at hstj
        cases hstj
      · rw [Function.update_of_ne hji] at hstj ⊢
        obtain ⟨hfreed, hlt'⟩ := h.freeing_lt hinv hj hstj
        exact (hc.freeing j hj pc hstj).congr rfl (hlink _ hfreed.le hlt'.le)

/-- The work share is linked in. -/
theorem link (h : Recycles n body addr peak s loc t loc') (hinv : NumberedInv n body t loc') (hi : i < n)
    (hW : body[(loc i).pos]? = some W) {ws : Nat} (hst : (loc i).status = .inited ws) :
    Recycles n body (Function.update addr (t.started + 1) ws) peak (s.gompWorkShareInitDone ws (loc i).lastWorkShare)
      (Function.update loc i ⟨(loc i).pos, ws, (loc i).lastWorkShare, .inside W.entry⟩)
      { t with started := t.started + 1, building := false }
      (Function.update loc' i ⟨(loc' i).pos, .inside W.entry⟩) := by
  have hp := h.placed i hi
  obtain ⟨hst', hws, hlast⟩ := hp.inited_inv hst
  have hpos : (loc i).pos = t.started := by rw [← hp.pos]; exact ((hinv.member i hi).building hst').2
  obtain ⟨own, alloc, free, hc⟩ := h.cached
  obtain ⟨rfl, hnull, hcompleted, hinit⟩ := hc.inited i hi ws hst
  have hle := hinv.freed_le hi
  have hothers : ∀ j < n, j ≠ i → (∀ pc, (loc j).status ≠ .alloc pc) ∧ ∀ ws, (loc j).status ≠ .inited ws :=
    fun j hj hji => h.alone hinv (fun _ => hst') hi hj hji
  have haddr : ∀ j ≤ t.started, Function.update addr (t.started + 1) ws j = addr j := fun j hj =>
    Function.update_of_ne (by omega) ..
  have hne : ∀ j, t.freed ≤ j → j < t.started → addr j ≠ addr t.started := by
    intro j hj hj' heq
    have := h.addr_inj hj hj'.le hle le_rfl heq
    omega
  have hfront : addr t.started ∈ liveShares addr t.freed t.started := mem_liveShares.2 ⟨_, hle, le_rfl, rfl⟩
  rw [hlast, hpos]
  refine ⟨fun j hj => ?_, h.global, h.arrived, h.generation, fun k hk hk' => ?_,
    fun k hk => h.fresh k (Nat.le_of_succ_le hk), fun j hj hj' => ?_, ?_, ?_⟩
  · by_cases hji : j = i
    · subst hji
      rw [Function.update_self, Function.update_self, hp.pos, hpos]
      have hin : Placed (Function.update addr (t.started + 1) ws) _ _ := .inside t.started W.entry
      rwa [Function.update_self, haddr _ le_rfl] at hin
    · rw [Function.update_of_ne hji, Function.update_of_ne hji]
      exact (h.placed j hj).congr fun k hk => haddr k (hk.trans (hinv.member j hj).reached)
  · change k < t.started + 1 at hk'
    by_cases hlt : k < t.started
    · rw [haddr (k + 1) hlt]
      exact h.content k hk hlt
    · obtain rfl : k = t.started := by omega
      rw [Function.update_self]
      obtain ⟨hzero, hfresh⟩ := h.fresh _ le_rfl
      rw [hpos] at hW hinit
      exact ⟨(hinit W hW).trans (hfresh W hW).symm, hcompleted.trans hzero.symm⟩
  · change j < t.started + 1 at hj'
    by_cases hlt : j < t.started
    · rw [haddr j hlt.le, haddr (j + 1) hlt]
      rcases h.links j hj hlt with ⟨k, hk, hstk, hposk⟩ | hl
      · refine .inl ⟨k, hk, ?_⟩
        rw [Function.update_of_ne (by rintro rfl; rw [hst'] at hstk; cases hstk)]
        exact ⟨hstk, hposk⟩
      · exact .inr ((Function.update_of_ne (hne j hj hlt) ..).trans hl)
    · obtain rfl : j = t.started := by omega
      rw [haddr _ le_rfl, Function.update_self]
      exact .inr (Function.update_self ..)
  · show Function.update s.pool.link (addr t.started) (.ptr ws)
      (Function.update addr (t.started + 1) ws (t.started + 1)) = .null
    rw [Function.update_self]
    refine (Function.update_of_ne ?_ ..).trans hnull
    rintro rfl
    exact hc.holds.not_mem_own hfront List.mem_cons_self
  · refine ⟨[], alloc, free, ?_, fun j hj pc hstj => ?_, fun j hj ws' hstj => ?_, fun _ => rfl,
      fun j hj pc hstj => ?_, hc.brk⟩
    · show SharePool.Holds _ (liveShares (Function.update addr (t.started + 1) ws) t.freed (t.started + 1)) []
        alloc free
      rw [liveShares_snoc hle]
      exact (hc.holds.update (List.mem_append_left _ hfront) _).link
    · by_cases hji : j = i
      · subst hji
        rw [Function.update_self] at hstj
        cases hstj
      · rw [Function.update_of_ne hji] at hstj
        exact absurd hstj ((hothers j hj hji).1 pc)
    · by_cases hji : j = i
      · subst hji
        rw [Function.update_self] at hstj
        cases hstj
      · rw [Function.update_of_ne hji] at hstj
        exact absurd hstj ((hothers j hj hji).2 ws')
    · by_cases hji : j = i
      · subst hji
        rw [Function.update_self] at hstj
        cases hstj
      · rw [Function.update_of_ne hji] at hstj ⊢
        obtain ⟨hfreed, hlt'⟩ := h.freeing_lt hinv hj hstj
        rw [haddr _ hlt'.le]
        exact (hc.freeing j hj pc hstj).congr rfl (Function.update_of_ne (hne _ hfreed.le hlt') ..)

/-- The compare and swap in `free_work_share` succeeds. -/
theorem cas (h : Recycles n body addr peak s loc t loc') (hinv : NumberedInv n body t loc') (hi : i < n)
    {head : Link} (hst : (loc i).status = .freeing (.cas head)) {last : Nat}
    (hlast : (loc i).lastWorkShare = some last) :
    s.pool.freeWorkShare last (.cas head) = ({ s.pool with workShareListFree := .ptr last }, none) := by
  obtain ⟨-, -, hlast'⟩ := (h.placed i hi).freeing_inv hst
  obtain rfl : last = addr (loc i).pos := by
    rw [hlast] at hlast'
    exact Option.some.inj hlast'
  obtain ⟨hfreed, -⟩ := h.freeing_lt hinv hi hst
  obtain ⟨own, alloc, free, hc⟩ := h.cached
  have hholds := hc.holds
  rw [liveShares_cons (hinv.freed_le hi)] at hholds
  have hpc := hc.freeing i hi _ hst
  rw [← hfreed] at hpc ⊢
  exact (hholds.put_back hpc).1

/-- A step in `free_work_share` before its last. -/
theorem freeing (h : Recycles n body addr peak s loc t loc') (hinv : NumberedInv n body t loc') (hi : i < n)
    {pc pc' : FreeAt} (hst : (loc i).status = .freeing pc) {last : Nat} (hlast : (loc i).lastWorkShare = some last)
    {pool : SharePool} (hstep : s.pool.freeWorkShare last pc = (pool, some pc')) :
    Recycles n body addr peak { s with pool := pool }
      (Function.update loc i ⟨(loc i).pos, (loc i).workShare, (loc i).lastWorkShare, .freeing pc'⟩) t loc' := by
  have hp := h.placed i hi
  obtain ⟨hst', hws, hlast'⟩ := hp.freeing_inv hst
  obtain rfl : last = addr (loc i).pos := by
    rw [hlast] at hlast'
    exact Option.some.inj hlast'
  obtain ⟨hfreed, hlt⟩ := h.freeing_lt hinv hi hst
  have hle := hinv.freed_le hi
  obtain ⟨own, alloc, free, hc⟩ := h.cached
  have hholds := hc.holds
  rw [liveShares_cons hle] at hholds
  rw [← hfreed] at hstep
  have hs := hholds.freeWorkShare (by rw [hfreed]; exact hc.freeing i hi pc hst) hstep
  have hlink : ∀ j, t.freed ≤ j → j ≤ t.started → j ≠ t.freed → pool.link (addr j) = s.pool.link (addr j) :=
    fun j hj hj' hne => hs.link _ fun heq => hne (h.addr_inj hj hj' le_rfl hle heq)
  refine ⟨fun j hj => ?_, h.global, h.arrived, h.generation, h.content, h.fresh, fun j hj hj' => ?_, ?_, ?_⟩
  · by_cases hji : j = i
    · subst hji
      rw [Function.update_self, hws, hlast, ← hp.pos]
      exact .freeing_of hst' pc'
    · rw [Function.update_of_ne hji]
      exact h.placed j hj
  · by_cases hjf : j = t.freed
    · exact .inl ⟨i, hi, hst', by rw [hp.pos, ← hfreed, hjf]⟩
    · rcases h.links j hj hj' with hk | hl
      · exact .inl hk
      · exact .inr ((hlink j hj hj'.le hjf).trans hl)
  · exact (hlink _ hle le_rfl (by omega)).trans h.front
  · refine ⟨own, alloc, free, ?_, fun j hj pc₁ hstj => ?_, fun j hj ws hstj => ?_, hc.idle, fun j hj pc₁ hstj => ?_, ?_⟩
    · rw [liveShares_cons hle]
      exact hs.holds
    · by_cases hji : j = i
      · subst hji
        rw [Function.update_self] at hstj
        cases hstj
      · rw [Function.update_of_ne hji] at hstj
        exact hs.alloc _ _ (hc.alloc j hj pc₁ hstj)
    · by_cases hji : j = i
      · subst hji
        rw [Function.update_self] at hstj
        cases hstj
      · rw [Function.update_of_ne hji] at hstj ⊢
        obtain ⟨rfl, hnull, hrest⟩ := hc.inited j hj ws hstj
        refine ⟨rfl, (hs.link ws ?_).trans hnull, hrest⟩
        rintro rfl
        exact hholds.not_mem_own List.mem_cons_self List.mem_cons_self
    · by_cases hji : j = i
      · subst hji
        rw [Function.update_self] at hstj ⊢
        cases hstj
        rw [← hfreed]
        exact hs.pc
      · rw [Function.update_of_ne hji] at hstj
        -- one thread at a time puts a work share back
        exact absurd (hinv.closes_unique hj hi
          (by simp [NumberedMember.closes, ((h.placed j hj).freeing_inv hstj).1])
          (by simp [NumberedMember.closes, hst'])) hji
    · show pool.brk = 8 ∨ pool.brk ≤ 2 * peak + 10 ∧ 7 ≤ peak
      rw [hs.brk]
      exact hc.brk

/-- The work share is back in the cache. -/
theorem free (h : Recycles n body addr peak s loc t loc') (hinv : NumberedInv n body t loc') (hi : i < n)
    {pc : FreeAt} (hst : (loc i).status = .freeing pc) {last : Nat} (hlast : (loc i).lastWorkShare = some last)
    {pool : SharePool} (hstep : s.pool.freeWorkShare last pc = (pool, none)) {m'' : NumberedMember B}
    (hplaced : Placed addr m' m'') (hplain : m'.plain = true) :
    Recycles n body addr peak { s with pool := pool } (Function.update loc i m') { t with freed := t.freed + 1 }
      (Function.update loc' i m'') := by
  have hp := h.placed i hi
  obtain ⟨hst', hws, hlast'⟩ := hp.freeing_inv hst
  obtain rfl : last = addr (loc i).pos := by
    rw [hlast] at hlast'
    exact Option.some.inj hlast'
  obtain ⟨hfreed, hlt⟩ := h.freeing_lt hinv hi hst
  have hle := hinv.freed_le hi
  obtain ⟨own, alloc, free, hc⟩ := h.cached
  have hholds := hc.holds
  rw [liveShares_cons hle] at hholds
  have hpc := hc.freeing i hi pc hst
  rw [← hfreed] at hstep hpc
  obtain ⟨head, rfl⟩ : ∃ head, pc = .cas head := by
    cases pc with
    | read | link head => cases hstep
    | cas head => exact ⟨head, rfl⟩
  obtain ⟨hput, hholds'⟩ := hholds.put_back hpc
  rw [hput] at hstep
  cases hstep
  have hnot : ∀ {st : ShareStatus B}, m'.status = st →
      (∃ pc, st = .alloc pc) ∨ (∃ ws, st = .inited ws) ∨ (∃ pc, st = .freeing pc) → False := by
    rintro _ rfl (⟨pc, hst⟩ | ⟨ws, hst⟩ | ⟨pc, hst⟩) <;> simp [ShareMember.plain, hst] at hplain
  refine ⟨h.placed_update hplaced, h.global, h.arrived, h.generation, fun k hk hk' => ?_, h.fresh,
    fun j hj hj' => ?_, h.front, own, alloc, _, hholds', fun j hj pc₁ hstj => ?_, fun j hj ws hstj => ?_, hc.idle,
    fun j hj pc₁ hstj => ?_, hc.brk⟩
  · exact h.content k (Nat.le_of_succ_le hk) hk'
  · change t.freed + 1 ≤ j at hj
    rcases h.links j (by omega) hj' with ⟨k, hk, hstk, hposk⟩ | hl
    · refine .inl ⟨k, hk, ?_⟩
      have hki : k ≠ i := by
        rintro rfl
        rw [hp.pos] at hposk
        omega
      rw [Function.update_of_ne hki]
      exact ⟨hstk, hposk⟩
    · exact .inr hl
  · by_cases hji : j = i
    · subst hji
      rw [Function.update_self] at hstj
      exact absurd (.inl ⟨pc₁, rfl⟩) (hnot hstj)
    · rw [Function.update_of_ne hji] at hstj
      exact SharePool.alloc_put_back (hc.alloc j hj pc₁ hstj) _
  · by_cases hji : j = i
    · subst hji
      rw [Function.update_self] at hstj
      exact absurd (.inr (.inl ⟨ws, rfl⟩)) (hnot hstj)
    · rw [Function.update_of_ne hji] at hstj ⊢
      exact hc.inited j hj ws hstj
  · by_cases hji : j = i
    · subst hji
      rw [Function.update_self] at hstj
      exact absurd (.inr (.inr ⟨pc₁, rfl⟩)) (hnot hstj)
    · rw [Function.update_of_ne hji] at hstj
      exact absurd (hinv.closes_unique hj hi
        (by simp [NumberedMember.closes, ((h.placed j hj).freeing_inv hstj).1])
        (by simp [NumberedMember.closes, hst'])) hji

end Recycles

end Bosched
