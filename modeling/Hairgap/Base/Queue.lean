import Hairgap.Base.Transition
import Mathlib.Data.Nat.ModEq

/-!
A bounded queue that remembers all that went through it, and the positions its elements
take in a ring with one slot more than the bound.
-/
namespace Hairgap.Base

/-- Everything sent so far, and how much of it was taken out again. -/
structure Queue (α : Type) where
  sent : List α
  taken : Nat
  deriving DecidableEq, Repr

inductive QueueOp (α : Type) where
  | send (value : α)
  | take (value : α)
  deriving DecidableEq, Repr

namespace Queue
variable {α : Type}

def empty : Queue α := ⟨[], 0⟩

def received (ops : List (QueueOp α)) : List α :=
  ops.filterMap fun
    | .take value => some value
    | .send _ => none

@[simp] theorem received_append (xs ys : List (QueueOp α)) :
    received (xs ++ ys) = received xs ++ received ys := by
  simp [received]

@[simp] theorem received_send (value : α) : received [.send value] = [] := rfl
@[simp] theorem received_take (value : α) : received [.take value] = [value] := rfl

def HasRoom (capacity : Nat) (q : Queue α) : Prop := q.sent.length < q.taken + capacity

instance (capacity : Nat) (q : Queue α) : Decidable (q.HasRoom capacity) :=
  inferInstanceAs (Decidable (_ < _))

/-- First in, first out, and never more than the capacity inside. -/
inductive Step (capacity : Nat) : Queue α → QueueOp α → Queue α → Prop
  | send (q : Queue α) (value : α) (room : q.HasRoom capacity) :
      Step capacity q (.send value) { q with sent := q.sent ++ [value] }
  | take (q : Queue α) (value : α) (front : q.sent[q.taken]? = some value) :
      Step capacity q (.take value) { q with taken := q.taken + 1 }

variable {capacity : Nat}

/-- What was taken out of a queue is what was sent first. -/
theorem received_eq {ops : List (QueueOp α)} {q : Queue α}
    (run : Steps (Step capacity) empty ops q) : received ops = q.sent.take q.taken := by
  refine run.invariant
    (fun ops q => q.taken ≤ q.sent.length ∧ received ops = q.sent.take q.taken) ?_ ?_ |>.2
  · exact ⟨Nat.le_refl _, rfl⟩
  · rintro ops q op q' ⟨le, ih⟩ step
    cases step with
    | send value =>
      refine ⟨by simp only [List.length_append]; omega, ?_⟩
      rw [received_append, ih, received_send, List.append_nil, List.take_append_of_le_length le]
    | take value front =>
      obtain ⟨inside, rfl⟩ := List.getElem?_eq_some_iff.mp front
      refine ⟨inside, ?_⟩
      rw [received_append, ih, received_take, List.take_succ_eq_append_getElem inside]

theorem bounds {ops : List (QueueOp α)} {q : Queue α}
    (run : Steps (Step capacity) empty ops q) :
    q.taken ≤ q.sent.length ∧ q.sent.length ≤ q.taken + capacity := by
  refine run.invariant
    (fun _ q => q.taken ≤ q.sent.length ∧ q.sent.length ≤ q.taken + capacity) ?_ ?_
  · exact ⟨Nat.le_refl _, Nat.zero_le _⟩
  · rintro ops q op q' ⟨le, bound⟩ step
    cases step with
    | send value room =>
      simp only [HasRoom, List.length_append, List.length_singleton] at *
      omega
    | take value front =>
      obtain ⟨inside, -⟩ := List.getElem?_eq_some_iff.mp front
      dsimp only
      omega

end Queue

/-- Elements, and a marker behind the last of them. -/
def Marked {α : Type} (xs : List (Option α)) : Prop := ∃ l : List α, xs = l.map some ++ [none]

namespace Marked
variable {α : Type} {a : α} {xs : List (Option α)}

theorem mk (l : List α) : Marked (l.map some ++ [none]) := ⟨l, rfl⟩

theorem ne_nil (marked : Marked xs) : xs ≠ [] := by
  obtain ⟨l, rfl⟩ := marked
  simp

theorem tail (marked : Marked (some a :: xs)) : Marked xs := by
  obtain ⟨l, h⟩ := marked
  cases l with
  | nil => cases h
  | cons b l => exact ⟨l, (List.cons.inj h).2⟩

/-- Nothing stands behind the marker. -/
theorem last (marked : Marked (none :: xs)) : xs = [] := by
  obtain ⟨l, h⟩ := marked
  cases l with
  | nil => exact (List.cons.inj h).2
  | cons b l => cases h

/-- What stands before the marker. -/
theorem unmark {β : Type} {l : List α} {f : α → β} {m : List β}
    (same : l.map (fun a => some (f a)) ++ [none] = m.map some ++ [none]) : l.map f = m := by
  have same := List.append_cancel_right same
  refine (List.map_inj_right fun _ _ => Option.some.inj).mp ?_
  rw [List.map_map]
  exact same

end Marked

/-- The elements in front of the first marker. -/
def unmarked {α : Type} : List (Option α) → List α
  | some a :: rest => a :: unmarked rest
  | _ => []

@[simp] theorem unmarked_nil {α : Type} : unmarked ([] : List (Option α)) = [] := rfl

@[simp] theorem unmarked_none {α : Type} (rest : List (Option α)) : unmarked (none :: rest) = [] := rfl

@[simp] theorem unmarked_some {α : Type} (a : α) (rest : List (Option α)) :
    unmarked (some a :: rest) = a :: unmarked rest := rfl

theorem unmarked_append {α : Type} (l : List α) (rest : List (Option α)) :
    unmarked (l.map some ++ rest) = l ++ unmarked rest := by
  induction l with
  | nil => rfl
  | cons a l ih => exact congrArg (a :: ·) ih

theorem unmarked_length {α : Type} {xs : List (Option α)} (unmarked_ : none ∉ xs) :
    (unmarked xs).length = xs.length := by
  induction xs with
  | nil => rfl
  | cons x xs ih =>
    cases x with
    | none => exact absurd List.mem_cons_self unmarked_
    | some a => exact congrArg (· + 1) (ih fun later => unmarked_ (List.mem_cons_of_mem _ later))

/-- With a marker, not all elements stand in front of it. -/
theorem unmarked_length_lt {α : Type} {xs : List (Option α)} (marker : none ∈ xs) :
    (unmarked xs).length < xs.length := by
  induction xs with
  | nil => cases marker
  | cons x xs ih =>
    cases x with
    | none => exact Nat.zero_lt_succ _
    | some a =>
      have later : none ∈ xs := by simpa using marker
      exact Nat.succ_lt_succ (ih later)

/-- More elements do not change those in front of the first marker. -/
theorem unmarked_mono {α : Type} {xs ys : List (Option α)} (more : xs <+: ys) :
    unmarked xs <+: unmarked ys := by
  obtain ⟨rest, rfl⟩ := more
  induction xs with
  | nil => exact List.nil_prefix
  | cons x xs ih =>
    cases x with
    | none => exact List.nil_prefix
    | some a => exact (List.prefix_cons_inj a).mpr ih

/-! Element `k` of a queue stands in slot `k % n` of a ring of `n` slots. -/
namespace Ring
variable {n a b : Nat}

/-- Elements less than a turn apart stand in different slots. -/
theorem slot_ne (less : a < b) (near : b < a + n) : a % n ≠ b % n := by
  intro same
  have turns : n ∣ b - a := (Nat.modEq_iff_dvd' (Nat.le_of_lt less)).mp same
  have := Nat.le_of_dvd (by omega) turns
  omega

theorem slot_inj (le : a ≤ b) (near : b < a + n) : a % n = b % n ↔ a = b := by
  constructor
  · intro same
    by_contra different
    exact slot_ne (by omega) near same
  · rintro rfl
    rfl

/-- The slot behind the last element is that of the first one when only one slot is free. -/
theorem next_slot_inj (le : a ≤ b) (near : b < a + n) :
    a % n = (b % n + 1) % n ↔ b + 1 = a + n := by
  rw [Nat.mod_add_mod]
  constructor
  · intro same
    by_contra different
    exact slot_ne (by omega) (by omega) same
  · intro turn
    rw [turn, Nat.add_mod_right]

end Ring

end Hairgap.Base
