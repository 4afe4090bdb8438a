import Mathlib.Data.List.Basic

/-!
What a channel can make of a sequence of messages without changing their order.
-/
namespace Hairgap.Base

variable {α : Type}

/-- Each message is dropped, or delivered any number of times in a row. -/
inductive OrderKept : List α → List α → Prop
  | done : OrderKept [] []
  | drop (x : α) {xs ys : List α} (rest : OrderKept xs ys) : OrderKept (x :: xs) ys
  | copy (x : α) {xs ys : List α} (rest : OrderKept (x :: xs) ys) : OrderKept (x :: xs) (x :: ys)

namespace OrderKept
variable {sent received : List α}

theorem subset (kept : OrderKept sent received) : received ⊆ sent := by
  induction kept with
  | done => exact List.Subset.refl _
  | drop x _ ih => exact List.subset_cons_of_subset x ih
  | copy x _ ih => exact List.cons_subset.mpr ⟨List.mem_cons_self, ih⟩

/-- Dropping alone keeps the order. -/
theorem of_sublist (sublist : received.Sublist sent) : OrderKept sent received := by
  induction sublist with
  | slnil => exact .done
  | cons x _ ih => exact .drop x ih
  | cons_cons x _ ih => exact .copy x (.drop x ih)

/-- What holds between a message and itself and all later ones survives delivery. -/
theorem pairwise {R : α → α → Prop} (refl : ∀ x, R x x) (kept : OrderKept sent received)
    (sorted : sent.Pairwise R) : received.Pairwise R := by
  induction kept with
  | done => exact .nil
  | drop x _ ih => exact ih (List.pairwise_cons.mp sorted).2
  | @copy x xs ys rest ih =>
    refine List.pairwise_cons.mpr ⟨?_, ih sorted⟩
    intro y member
    rcases List.mem_cons.mp (rest.subset member) with rfl | later
    · exact refl y
    · exact (List.pairwise_cons.mp sorted).1 y later

end OrderKept

end Hairgap.Base
