/-
Forests in a heap, where a cell links its first child and its next sibling: which cells a traversal
reaches, what a change of other cells leaves alone, and the insertion of a first child.
-/
import Mathlib.Tactic

namespace Bosched.Lib

/-- A list of trees: the first of them, what is below it, and its siblings. -/
inductive Siblings (α : Type)
  | nil
  | node (a : α) (inner next : Siblings α)

namespace Siblings

variable {α : Type}

/-- The cells, each before what is below it. -/
def addrs : Siblings α → List α
  | nil => []
  | node a inner next => a :: (inner.addrs ++ next.addrs)

/-- `x` becomes the first child of `p`. -/
def insert [DecidableEq α] (p x : α) : Siblings α → Siblings α
  | nil => nil
  | node a inner next =>
    if a = p then node a (node x nil inner) next else node a (inner.insert p x) (next.insert p x)

section

variable [DecidableEq α] {p x : α}

theorem insert_of_notMem : ∀ {t : Siblings α}, p ∉ t.addrs → t.insert p x = t
  | nil, _ => rfl
  | node a inner next, h => by
    obtain ⟨ha, h⟩ := not_or.1 (mt List.mem_cons.2 h)
    obtain ⟨hi, hn⟩ := not_or.1 (mt List.mem_append.2 h)
    rw [insert, if_neg (Ne.symm ha), insert_of_notMem hi, insert_of_notMem hn]

/-- The cells of the forest and the new one. -/
theorem addrs_insert : ∀ {t : Siblings α}, t.addrs.Nodup → p ∈ t.addrs → (t.insert p x).addrs.Perm (x :: t.addrs)
  | node a inner next, hnd, hp => by
    obtain ⟨ha, hnd⟩ := List.nodup_cons.1 hnd
    obtain ⟨hi, hn, hdisj⟩ := List.nodup_append'.1 hnd
    by_cases hap : a = p
    · subst hap
      rw [insert, if_pos rfl]
      simp only [addrs, List.nil_append, List.cons_append]
      exact List.Perm.swap x a _
    · have hswap : ∀ l : List α, (a :: x :: l).Perm (x :: a :: l) := fun l => List.Perm.swap x a l
      rw [insert, if_neg hap]
      rcases List.mem_append.1 ((List.mem_cons.1 hp).resolve_left (Ne.symm hap)) with hpi | hpn
      · rw [insert_of_notMem fun h => hdisj hpi h]
        exact (((addrs_insert hi hpi).append_right _).cons a).trans (hswap _)
      · rw [insert_of_notMem fun h => hdisj h hpn]
        exact (((addrs_insert hn hpn).append_left _).cons a).trans
          ((List.perm_middle.cons a).trans (hswap _))

end

/-- The heap `h` holds the list of trees `t` at `a`. -/
def Linked {β : Type} (inner next : β → α) (null : α) (h : α → Option β) : α → Siblings α → Prop
  | a, nil => a = null
  | a, node b i n => a = b ∧ b ≠ null ∧ ∃ r, h b = some r ∧ Linked inner next null h (inner r) i ∧ Linked inner next null h (next r) n

variable {β : Type} {inner next : β → α} {null : α} {h h' : α → Option β}

/-- Every cell of the forest is in the heap. -/
theorem Linked.mem {a b : α} {t : Siblings α} (hl : Linked inner next null h a t) (hb : b ∈ t.addrs) :
    b ≠ null ∧ ∃ r, h b = some r := by
  induction t generalizing a with
  | nil => cases hb
  | node c i n ihi ihn =>
    obtain ⟨-, hc, r, hr, hi, hn⟩ := hl
    rcases List.mem_cons.1 hb with rfl | hb
    · exact ⟨hc, r, hr⟩
    · rcases List.mem_append.1 hb with hb | hb
      · exact ihi hi hb
      · exact ihn hn hb

/-- A list of trees depends on the links of its cells only. -/
theorem Linked.congr {a : α} {t : Siblings α} (hl : Linked inner next null h a t)
    (hsame : ∀ b ∈ t.addrs, ∀ r, h b = some r → ∃ r', h' b = some r' ∧ inner r' = inner r ∧ next r' = next r) :
    Linked inner next null h' a t := by
  induction t generalizing a with
  | nil => exact hl
  | node c i n ihi ihn =>
    obtain ⟨ha, hc, r, hr, hi, hn⟩ := hl
    obtain ⟨r', hr', h1, h2⟩ := hsame c List.mem_cons_self r hr
    refine ⟨ha, hc, r', hr', ?_, ?_⟩
    · rw [h1]
      exact ihi hi fun b hb => hsame b (List.mem_cons_of_mem c (List.mem_append_left _ hb))
    · rw [h2]
      exact ihn hn fun b hb => hsame b (List.mem_cons_of_mem c (List.mem_append_right _ hb))

variable [DecidableEq α]

/-- A new cell that links the former first child of `p`, and that `p` links as its first child. -/
theorem Linked.insert {a p x : α} {t : Siblings α} (hl : Linked inner next null h a t) (hnd : t.addrs.Nodup) (hx : x ≠ null)
    {r r' s : β} (hp : h p = some r) (hp' : h' p = some r') (hx' : h' x = some s) (hsi : inner s = null)
    (hsn : next s = inner r) (hri : inner r' = x) (hrn : next r' = next r)
    (hother : ∀ b ∈ t.addrs, b ≠ p → h' b = h b) (hmem : p ∈ t.addrs) :
    Linked inner next null h' a (t.insert p x) := by
  induction t generalizing a with
  | nil => cases hmem
  | node c i n ihi ihn =>
    obtain ⟨ha, hc, q, hq, hi, hn⟩ := hl
    obtain ⟨hcn, hnd⟩ := List.nodup_cons.1 hnd
    obtain ⟨hndi, hndn, hdisj⟩ := List.nodup_append'.1 hnd
    have hkeep : ∀ {a : α} {t : Siblings α}, Linked inner next null h a t → (∀ b ∈ t.addrs, h' b = h b) →
        Linked inner next null h' a t := fun hl hsame =>
      hl.congr fun b hb r hr => ⟨r, by rw [hsame b hb]; exact hr, rfl, rfl⟩
    have hleft : ∀ b ∈ i.addrs, b ∈ (node c i n).addrs := fun b hb => List.mem_cons_of_mem c (List.mem_append_left _ hb)
    have hright : ∀ b ∈ n.addrs, b ∈ (node c i n).addrs := fun b hb => List.mem_cons_of_mem c (List.mem_append_right _ hb)
    by_cases hcp : c = p
    · subst hcp
      obtain rfl : q = r := Option.some.inj (hq.symm.trans hp)
      rw [Siblings.insert, if_pos rfl]
      refine ⟨ha, hc, r', hp', ?_, ?_⟩
      · refine ⟨hri, hx, s, hx', hsi, ?_⟩
        rw [hsn]
        exact hkeep hi fun b hb => hother b (hleft b hb) fun hbc => hcn (hbc ▸ List.mem_append_left _ hb)
      · rw [hrn]
        exact hkeep hn fun b hb => hother b (hright b hb) fun hbc => hcn (hbc ▸ List.mem_append_right _ hb)
    · rw [Siblings.insert, if_neg hcp]
      have hq' : h' c = some q := by rw [hother c List.mem_cons_self hcp, hq]
      rcases List.mem_append.1 ((List.mem_cons.1 hmem).resolve_left (Ne.symm hcp)) with hpi | hpn
      · rw [insert_of_notMem fun hb => hdisj hpi hb]
        exact ⟨ha, hc, q, hq', ihi hi hndi (fun b hb => hother b (hleft b hb)) hpi,
          hkeep hn fun b hb => hother b (hright b hb) fun hbp => hdisj hpi (hbp ▸ hb)⟩
      · rw [insert_of_notMem fun hb => hdisj hb hpn]
        exact ⟨ha, hc, q, hq', hkeep hi fun b hb => hother b (hleft b hb) fun hbp => hdisj (hbp ▸ hb) hpn,
          ihn hn hndn (fun b hb => hother b (hright b hb)) hpn⟩

end Siblings

end Bosched.Lib
