/-
Workers in a line over a list of items. A worker joins at the end of the line with the next items of the list;
only the worker at the head handles items, one at a time, and it leaves when it has none left. A worker may pass over
an item wherever it stands. So the items are handled in the order of the list, and no two at once.
-/
import Mathlib.Logic.Relation
import Mathlib.Tactic

namespace Bosched.Lib

variable {ι α : Type}

/-! ## Handling one item at a time -/

/-- The handling of an item by a worker begins, or ends. -/
inductive Handling (α : Type)
  | begin (v : α)
  | finish (v : α)
  deriving DecidableEq

/-- Items are handled one after the other, each by one worker; the item being handled at the end. -/
inductive Serial : List (ι × Handling α) → Option (ι × α) → Prop
  | nil : Serial [] none
  | begin {log : List (ι × Handling α)} (i : ι) (v : α) (h : Serial log none) :
      Serial (log ++ [(i, .begin v)]) (some (i, v))
  | finish {log : List (ι × Handling α)} {i : ι} {v : α} (h : Serial log (some (i, v))) :
      Serial (log ++ [(i, .finish v)]) none

/-- The items whose handling has begun, in the order in which it did. -/
def begun (log : List (ι × Handling α)) : List α :=
  log.filterMap fun x => match x.2 with
    | .begin v => some v
    | .finish _ => none

@[simp] theorem begun_nil : begun ([] : List (ι × Handling α)) = [] := rfl

@[simp] theorem begun_begin (log : List (ι × Handling α)) (i : ι) (v : α) :
    begun (log ++ [(i, .begin v)]) = begun log ++ [v] := by simp [begun]

@[simp] theorem begun_finish (log : List (ι × Handling α)) (i : ι) (v : α) :
    begun (log ++ [(i, .finish v)]) = begun log := by simp [begun]

/-! ## The line -/

/-- A line: the workers in it with their items, the item being handled, what has been handled and passed over so
far, and the items nobody has yet. -/
structure Line (ι α : Type) where
  queue : List (ι × List α)
  busy : Option (ι × α)
  log : List (ι × Handling α)
  skipped : List α
  rest : List α

namespace Line

/-- What can happen in a line. -/
inductive Step (q : Line ι α) : Line ι α → Prop
  | join (i : ι) (items rest : List α) (hi : i ∉ q.queue.map (·.1)) (hrest : q.rest = items ++ rest) :
      Step q { q with queue := q.queue ++ [(i, items)], rest := rest }
  | begin (i : ι) (v : α) (items : List α) (behind : List (ι × List α)) (hbusy : q.busy = none)
      (hq : q.queue = (i, v :: items) :: behind) :
      Step q { q with queue := (i, items) :: behind, busy := some (i, v), log := q.log ++ [(i, .begin v)] }
  | finish (i : ι) (v : α) (hbusy : q.busy = some (i, v)) :
      Step q { q with busy := none, log := q.log ++ [(i, .finish v)] }
  | skip (i : ι) (v : α) (items : List α) (ahead behind : List (ι × List α))
      (hq : q.queue = ahead ++ (i, v :: items) :: behind) :
      Step q { q with queue := ahead ++ (i, items) :: behind, skipped := q.skipped ++ [v] }
  | leave (i : ι) (behind : List (ι × List α)) (hbusy : q.busy = none) (hq : q.queue = (i, []) :: behind) :
      Step q { q with queue := behind }

variable [DecidableEq α]

/-- The items that are still to be handled, after those that were: all that is not passed over, in order. -/
structure Inv (items : List α) (q : Line ι α) : Prop where
  serial : Serial q.log q.busy
  order : items.filter (· ∉ q.skipped) = begun q.log ++ (q.queue.flatMap (·.2) ++ q.rest)

theorem Inv.start (items : List α) : Inv items (⟨[], none, [], [], items⟩ : Line ι α) where
  serial := .nil
  order := by simp

/-- Taking one item out of a list without duplicates. -/
theorem filter_ne_of_nodup {v : α} {xs ys : List α} (h : (xs ++ v :: ys).Nodup) :
    (xs ++ v :: ys).filter (· ≠ v) = xs ++ ys := by
  obtain ⟨-, hv, hx⟩ := List.nodup_append.1 h
  have hys : v ∉ ys := (List.nodup_cons.1 hv).1
  have hxs : ∀ a ∈ xs, a ≠ v := fun a ha => hx a ha v List.mem_cons_self
  rw [List.filter_append, List.filter_cons_of_neg (by simp), List.filter_eq_self.2 (by simpa using hxs),
    List.filter_eq_self.2]
  intro a ha
  have hne : a ≠ v := by rintro rfl; exact hys ha
  simpa using hne

theorem Step.inv {items : List α} {q q' : Line ι α} (hnodup : items.Nodup) (hs : Step q q') (h : Inv items q) :
    Inv items q' := by
  cases hs with
  | join i its rest hi hrest =>
    refine ⟨h.serial, ?_⟩
    rw [h.order, hrest]
    simp
  | begin i v its behind hbusy hq =>
    refine ⟨.begin i v (hbusy ▸ h.serial), ?_⟩
    rw [h.order, hq]
    simp
  | finish i v hbusy =>
    refine ⟨.finish (hbusy ▸ h.serial), ?_⟩
    rw [h.order, begun_finish]
  | skip i v its ahead behind hq =>
    refine ⟨h.serial, ?_⟩
    have hold := h.order
    rw [hq] at hold
    -- around the item that is passed over
    have hsplit : begun q.log ++ ((ahead ++ (i, v :: its) :: behind).flatMap (·.2) ++ q.rest) =
        (begun q.log ++ ahead.flatMap (·.2)) ++ v :: (its ++ behind.flatMap (·.2) ++ q.rest) := by simp
    have hfilter : items.filter (· ∉ q.skipped ++ [v]) = (items.filter (· ∉ q.skipped)).filter (· ≠ v) := by
      rw [List.filter_filter]
      refine List.filter_congr fun a _ => ?_
      simp [and_comm]
    have hnd : (items.filter (· ∉ q.skipped)).Nodup := hnodup.filter _
    show items.filter (· ∉ q.skipped ++ [v]) = _
    rw [hfilter]
    rw [hold, hsplit] at hnd ⊢
    rw [filter_ne_of_nodup hnd]
    simp
  | leave i behind hbusy hq =>
    refine ⟨h.serial, ?_⟩
    rw [h.order, hq]
    simp

/-- Whatever happens in a line, the items are handled one at a time and in order. -/
theorem Inv.run {items : List α} {q q' : Line ι α} (hnodup : items.Nodup) (h : Inv items q)
    (hr : Relation.ReflTransGen Step q q') : Inv items q' := by
  induction hr with
  | refl => exact h
  | tail _ hs ih => exact hs.inv hnodup ih

end Line

end Bosched.Lib
