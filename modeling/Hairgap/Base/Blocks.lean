import Mathlib.Data.List.Flatten
import Mathlib.Tactic.Ring

/-!
A sequence cut into blocks of one size, the last one possibly shorter, and put
together again. Nothing is said about what the blocks are used for.
-/
namespace Hairgap.Base.Blocks

variable {α : Type}

/-- Block number `i`. -/
def block (size : Nat) (message : List α) (i : Nat) : List α :=
  (message.drop (i * size)).take size

theorem block_length_le (size : Nat) (message : List α) (i : Nat) :
    (block size message i).length ≤ size := by
  simp only [block, List.length_take]
  exact Nat.min_le_left _ _

theorem block_drop (size : Nat) (message : List α) (i : Nat) :
    block size (message.drop size) i = block size message (i + 1) := by
  simp only [block, List.drop_drop]
  congr 2
  ring

/-- Enough blocks in order are the message. -/
theorem flatMap_block (size count : Nat) (message : List α)
    (enough : message.length ≤ count * size) :
    (List.range count).flatMap (block size message) = message := by
  induction count generalizing message with
  | zero =>
    have hnil : message = [] := List.eq_nil_of_length_eq_zero (by omega)
    simp [hnil]
  | succ count ih =>
    have hrest : (message.drop size).length ≤ count * size := by
      rw [List.length_drop]
      rw [Nat.add_mul] at enough
      omega
    have hblocks := ih (message.drop size) hrest
    rw [funext (block_drop size message)] at hblocks
    rw [List.range_succ_eq_map, List.flatMap_cons, List.flatMap_map, hblocks]
    simp [block]

/-- Pieces with something in them put a sequence together only when none is missing. -/
theorem flatMap_sublist_eq {β : Type} {f : β → List α} {xs ys : List β} (sublist : xs.Sublist ys)
    (filled : ∀ y ∈ ys, f y ≠ []) (same : xs.flatMap f = ys.flatMap f) : xs = ys := by
  induction sublist with
  | slnil => rfl
  | @cons xs ys y rest _ =>
    have shorter := (rest.flatMap f).length_le
    have longer := congrArg List.length same
    rw [List.flatMap_cons, List.length_append] at longer
    have nonempty := List.length_pos_iff.mpr (filled y List.mem_cons_self)
    omega
  | @cons_cons xs ys y _ ih =>
    rw [List.flatMap_cons, List.flatMap_cons] at same
    rw [ih (fun z member => filled z (List.mem_cons_of_mem y member)) (List.append_cancel_left same)]

/-- A block is empty from the end of the message on. -/
theorem block_eq_nil_iff (size : Nat) (pos : 0 < size) (message : List α) (i : Nat) :
    block size message i = [] ↔ message.length ≤ i * size := by
  rw [block, List.take_eq_nil_iff, List.drop_eq_nil_iff]
  exact or_iff_right (Nat.ne_of_gt pos)

/-- A block filled up to the full size. -/
def padded (size : Nat) (fill : α) (message : List α) (i : Nat) : List α :=
  block size message i ++ List.replicate (size - (block size message i).length) fill

@[simp] theorem padded_length (size : Nat) (fill : α) (message : List α) (i : Nat) :
    (padded size fill message i).length = size := by
  have := block_length_le size message i
  simp only [padded, List.length_append, List.length_replicate]
  omega

/-- A block before the last needs no filling. -/
theorem padded_full (size : Nat) (fill : α) (message : List α) (i : Nat)
    (full : (i + 1) * size ≤ message.length) :
    padded size fill message i = block size message i := by
  have hlen : (block size message i).length = size := by
    rw [Nat.add_mul] at full
    simp only [block, List.length_take, List.length_drop]
    omega
  simp [padded, hlen]

theorem padded_drop (size : Nat) (fill : α) (message : List α) (i : Nat) :
    padded size fill (message.drop size) i = padded size fill message (i + 1) := by
  simp only [padded, block_drop]

/-- Filling only adds behind the end of the message. -/
theorem prefix_flatMap_padded (size count : Nat) (fill : α) (message : List α)
    (enough : message.length ≤ count * size) :
    message <+: (List.range count).flatMap (padded size fill message) := by
  induction count generalizing message with
  | zero =>
    have hnil : message = [] := List.eq_nil_of_length_eq_zero (by omega)
    simp [hnil]
  | succ count ih =>
    have hrest := ih (message.drop size) (by
      rw [List.length_drop]
      rw [Nat.add_mul] at enough
      omega)
    rw [funext (padded_drop size fill message)] at hrest
    rw [List.range_succ_eq_map, List.flatMap_cons, List.flatMap_map]
    by_cases long : size ≤ message.length
    · obtain ⟨after, happ⟩ := hrest
      rw [padded_full size fill message 0 (by omega)]
      refine ⟨after, ?_⟩
      rw [← happ, ← List.append_assoc]
      simp [block]
    · have hall : block size message 0 = message := by
        simp only [block, Nat.zero_mul, List.drop_zero]
        exact List.take_of_length_le (by omega)
      simp only [padded, hall, List.append_assoc]
      exact List.prefix_append _ _

end Hairgap.Base.Blocks
