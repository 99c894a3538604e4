import Mathlib.Data.List.Basic
import Mathlib.Data.List.Forall2
import Mathlib.Algebra.Order.Ring.Int
set_option autoImplicit false

/-!
# Batches and how long their items wait

A batch collects items, each with the time at which it came, and goes as a whole.  Only the time
of its first item is kept.

* `Batch.Fresh.push`, `Batch.Fresh.later`, `Batch.Fresh.poll` — what happens to the age of a batch;
* `Batch.Fresh.waited` — no item has waited longer than the batch is old;
* `onTime_append` — items that left in time.
-/

namespace CodingGateway.Library.Batching

variable {α : Type*}

/-- The time of the first item, and the items with their times. -/
structure Batch (α : Type*) where
  since : ℤ
  items : List (ℤ × α)

/-- One more item at a time; the first one sets the time of the batch. -/
def Batch.push (b : Batch α) (time : ℤ) (x : α) : Batch α :=
  ⟨if b.items.length = 0 then time else b.since, b.items ++ [(time, x)]⟩

/-- At a time, a batch is no older than the limit, and its items came after its start. -/
structure Batch.Fresh (b : Batch α) (limit now : ℤ) : Prop where
  since_le : ∀ a ∈ b.items, b.since ≤ a.1
  le_now : ∀ a ∈ b.items, a.1 ≤ now
  age : b.items ≠ [] → now ≤ b.since + limit

namespace Batch.Fresh

variable {b : Batch α} {limit now : ℤ}

theorem empty (since limit now : ℤ) : (⟨since, []⟩ : Batch α).Fresh limit now where
  since_le _ ha := by cases ha
  le_now _ ha := by cases ha
  age h := absurd rfl h

theorem later (h : b.Fresh limit now) {limit' now' : ℤ} (hnow : now ≤ now')
    (hlimit : limit + (now' - now) ≤ limit') : b.Fresh limit' now' where
  since_le := h.since_le
  le_now a ha := (h.le_now a ha).trans hnow
  age hne := by
    have hage := h.age hne
    omega

theorem push (h : b.Fresh limit now) {time : ℤ} (hnow : now ≤ time) (hlimit : 0 ≤ limit) (x : α) :
    (b.push time x).Fresh (limit + (time - now)) time := by
  rcases b with ⟨since, items⟩
  cases items with
  | nil =>
      refine ⟨fun a ha => ?_, fun a ha => ?_, fun _ => ?_⟩
      · rw [List.mem_singleton.mp ha]
        exact le_rfl
      · rw [List.mem_singleton.mp ha]
      · change time ≤ time + (limit + (time - now))
        omega
  | cons first rest =>
      have hsince := h.since_le first List.mem_cons_self
      have hfirst := h.le_now first List.mem_cons_self
      have hage := h.age (List.cons_ne_nil first rest)
      refine ⟨fun a ha => ?_, fun a ha => ?_, fun _ => ?_⟩
      · rcases List.mem_append.mp ha with hold | hnew
        · exact h.since_le a hold
        · rw [List.mem_singleton.mp hnew]
          change since ≤ time
          dsimp only at hsince
          omega
      · rcases List.mem_append.mp ha with hold | hnew
        · exact (h.le_now a hold).trans hnow
        · rw [List.mem_singleton.mp hnew]
      · change time ≤ since + (limit + (time - now))
        dsimp only at hage
        omega

theorem poll (h : b.Fresh limit now) {limit' : ℤ}
    (hquiet : b.items ≠ [] → now ≤ b.since + limit') : b.Fresh limit' now where
  since_le := h.since_le
  le_now := h.le_now
  age := hquiet

theorem waited (h : b.Fresh limit now) {a : ℤ × α} (ha : a ∈ b.items) : now ≤ a.1 + limit := by
  have hsince := h.since_le a ha
  have hage := h.age (List.ne_nil_of_mem ha)
  omega

end Batch.Fresh

/-! ## Departures -/

/-- The items that came have left, in order and after at most `delay`. -/
def OnTime (delay : ℤ) : List (ℤ × α) → List (ℤ × α) → Prop :=
  List.Forall₂ fun came left => left.2 = came.2 ∧ came.1 ≤ left.1 ∧ left.1 ≤ came.1 + delay

theorem onTime_append {delay : ℤ} {came left came' left' : List (ℤ × α)}
    (h : OnTime delay came left) (h' : OnTime delay came' left') :
    OnTime delay (came ++ came') (left ++ left') :=
  List.rel_append h h'

theorem onTime_batch {delay time : ℤ} {items : List (ℤ × α)}
    (h : ∀ a ∈ items, a.1 ≤ time ∧ time ≤ a.1 + delay) :
    OnTime delay items (items.map fun a => (time, a.2)) := by
  induction items with
  | nil => exact .nil
  | cons a items ih =>
      exact .cons ⟨rfl, h a List.mem_cons_self⟩ (ih fun b hb => h b (List.mem_cons_of_mem a hb))

end CodingGateway.Library.Batching
