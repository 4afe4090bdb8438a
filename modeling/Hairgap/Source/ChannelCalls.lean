import Hairgap.Base.Queue
import Hairgap.Source.Channel

/-!
# The calls of the channel, each as one step

channel.c:133-235. What the threads of a transfer see of a channel: a call either blocks or takes
effect at once. The places inside the calls, where the sides meet, are those of the channel's own
model. `channel_send_reserved` tests the poison flag without the mutex; where another thread may
poison the channel in between, its tests and its index update are taken apart.
-/
namespace Hairgap.Source
open Hairgap.Base

section
variable {α : Type}

/-- `none` while the call blocks, then the slot or NULL. -/
def channelReserve (chan : Channel α) : Option (Option Nat) :=
  if channelIsFull chan then none
  else some (if chan.poisoned then none else some (channelGet chan chan.wrIdx))

/-- The two tests of `channel_send_reserved`, made without the mutex. -/
def channelSendChecks (chan : Channel α) (slot : Nat) : Bool :=
  !chan.poisoned && decide (slot = channelGet chan chan.wrIdx)

/-- `none` when the call returns 0. -/
def channelSendReserved (chan : Channel α) (slot : Nat) : Option (Channel α) :=
  if channelSendChecks chan slot then some (chan.moved .producer) else none

/-- Blocks like `channel_reserve`, and fails like either of its two calls. -/
def channelSend (chan : Channel α) (value : α) : Option (Option (Channel α)) :=
  (channelReserve chan).map fun slot => slot.bind fun slot =>
    channelSendReserved (chan.filled slot value) slot

/-- `none` while the call blocks, then the slot or NULL. -/
def channelPeek (chan : Channel α) : Option (Option Nat) :=
  if channelIsEmpty chan then none
  else some (if chan.poisoned then none else some (channelGet chan chan.rdIdx))

/-- `none` when the call returns 0. -/
def channelAck (chan : Channel α) (slot : Nat) : Option (Channel α) :=
  if chan.poisoned then none
  else if slot ≠ channelGet chan chan.rdIdx then none
  else some (chan.moved .consumer)

/-- Blocks like `channel_peek`, and fails like either of its two calls. -/
def channelRecv (chan : Channel α) : Option (Option (α × Channel α)) :=
  (channelPeek chan).map fun slot => slot.bind fun slot =>
    (channelAck chan slot).map fun chan' => (chan.elts slot, chan')

def channelPoison (chan : Channel α) : Channel α := { chan with poisoned := true }

/-- A poisoned channel gives out no slot, and publishes none. -/
theorem channelReserve_poisoned {chan : Channel α} (poisoned : chan.poisoned = true) :
    channelReserve chan = some none := by
  simp [channelReserve, channelIsFull, poisoned]

theorem channelSendChecks_poisoned {chan : Channel α} (poisoned : chan.poisoned = true)
    (slot : Nat) : channelSendChecks chan slot = false := by
  rw [channelSendChecks, poisoned]
  rfl

/-- The elements between the indices of a ring are those of a queue. -/
structure Channel.Holds (chan : Channel α) (capacity : Nat) (q : Queue α) : Prop where
  size : chan.capacity = capacity + 1
  wrIdx : chan.wrIdx = q.sent.length % (capacity + 1)
  rdIdx : chan.rdIdx = q.taken % (capacity + 1)
  order : q.taken ≤ q.sent.length
  bound : q.sent.length ≤ q.taken + capacity
  elts : ∀ k (h : k < q.sent.length), q.taken ≤ k → chan.elts (k % (capacity + 1)) = q.sent[k]

theorem holds_new (capacity : Nat) (elts : Nat → α) :
    (channelNew capacity elts).Holds capacity .empty :=
  ⟨rfl, rfl, rfl, Nat.le_refl _, Nat.zero_le _, fun _ h => absurd h (Nat.not_lt_zero _)⟩

namespace Channel.Holds
variable {chan : Channel α} {capacity : Nat} {q : Queue α} (holds : chan.Holds capacity q)
include holds

theorem poison : (channelPoison chan).Holds capacity q :=
  ⟨holds.size, holds.wrIdx, holds.rdIdx, holds.order, holds.bound, holds.elts⟩

theorem full_iff : channelIsFull chan = true ↔ ¬ q.HasRoom capacity ∧ chan.poisoned = false := by
  have order := holds.order
  have bound := holds.bound
  have turn := Ring.next_slot_inj order (show _ < _ + (capacity + 1) by omega)
  rw [channelIsFull, channelNext, holds.size, holds.wrIdx, holds.rdIdx, Bool.and_eq_true,
    decide_eq_true_eq, Bool.not_eq_true', turn]
  refine and_congr_left' ?_
  unfold Queue.HasRoom
  omega

theorem empty_iff :
    channelIsEmpty chan = true ↔ q.taken = q.sent.length ∧ chan.poisoned = false := by
  have order := holds.order
  have bound := holds.bound
  have same := Ring.slot_inj order (show _ < _ + (capacity + 1) by omega)
  simp only [channelIsEmpty, holds.wrIdx, holds.rdIdx, same, Bool.and_eq_true,
    decide_eq_true_eq, Bool.not_eq_true']

theorem get_wrIdx : channelGet chan chan.wrIdx = q.sent.length % (capacity + 1) := by
  rw [channelGet, holds.size, holds.wrIdx, Nat.mod_mod]

theorem get_rdIdx : channelGet chan chan.rdIdx = q.taken % (capacity + 1) := by
  rw [channelGet, holds.size, holds.rdIdx, Nat.mod_mod]

/-- The oldest element stands in the slot `channel_peek` gives out. -/
theorem front (waiting : q.taken < q.sent.length) :
    q.sent[q.taken]? = some (chan.elts (q.taken % (capacity + 1))) := by
  rw [holds.elts _ waiting (Nat.le_refl _), List.getElem?_eq_getElem]

/-- The slot `channel_reserve` gives out is none of those in the queue. -/
theorem filled (room : q.HasRoom capacity) (value : α) :
    (chan.filled (q.sent.length % (capacity + 1)) value).Holds capacity q := by
  refine ⟨holds.size, holds.wrIdx, holds.rdIdx, holds.order, holds.bound, ?_⟩
  intro k inside queued
  have near : q.sent.length < k + (capacity + 1) := by
    have : q.sent.length < q.taken + capacity := room
    omega
  have apart := Ring.slot_ne inside near
  dsimp only [Channel.filled]
  rw [Function.update_of_ne apart]
  exact holds.elts k inside queued

/-- A send publishes what stands in the reserved slot. -/
theorem sent (room : q.HasRoom capacity) :
    (chan.moved .producer).Holds capacity
      { q with sent := q.sent ++ [chan.elts (q.sent.length % (capacity + 1))] } := by
  have less : q.sent.length < q.taken + capacity := room
  have order := holds.order
  refine ⟨holds.size, ?_, holds.rdIdx, ?_, ?_, ?_⟩
  · simp only [Channel.moved, channelNext, holds.size, holds.wrIdx, Nat.mod_add_mod,
      List.length_append, List.length_singleton]
  · simp only [List.length_append]
    omega
  · simp only [List.length_append, List.length_singleton]
    omega
  · intro k inside queued
    simp only [List.length_append, List.length_singleton] at inside
    rcases Nat.lt_succ_iff_lt_or_eq.mp inside with earlier | rfl
    · rw [List.getElem_append_left earlier]
      exact holds.elts k earlier queued
    · simp [Channel.moved]

/-- An acknowledgement gives the oldest slot back. -/
theorem acked (waiting : q.taken < q.sent.length) :
    (chan.moved .consumer).Holds capacity { q with taken := q.taken + 1 } := by
  have bound := holds.bound
  refine ⟨holds.size, holds.wrIdx, ?_, waiting, ?_, ?_⟩
  · simp only [Channel.moved, channelNext, holds.size, holds.rdIdx, Nat.mod_add_mod]
  · dsimp only
    omega
  · intro k inside queued
    exact holds.elts k inside (Nat.le_of_succ_le queued)

variable (open_ : chan.poisoned = false)
include open_

theorem reserve_eq : channelReserve chan =
    if q.HasRoom capacity then some (some (q.sent.length % (capacity + 1))) else none := by
  have full := holds.full_iff
  by_cases room : q.HasRoom capacity
  · have notFull : channelIsFull chan = false := by
      rw [← Bool.not_eq_true, full]
      exact fun h => h.1 room
    rw [if_pos room, channelReserve, notFull, open_, holds.get_wrIdx]
    rfl
  · rw [if_neg room, channelReserve, if_pos (full.mpr ⟨room, open_⟩)]

theorem peek_eq : channelPeek chan =
    if q.taken < q.sent.length then some (some (q.taken % (capacity + 1))) else none := by
  have empty := holds.empty_iff
  have order := holds.order
  by_cases waiting : q.taken < q.sent.length
  · have notEmpty : channelIsEmpty chan = false := by
      rw [← Bool.not_eq_true, empty]
      omega
    rw [if_pos waiting, channelPeek, notEmpty, open_, holds.get_rdIdx]
    rfl
  · rw [if_neg waiting, channelPeek, if_pos (empty.mpr ⟨by omega, open_⟩)]

theorem sendChecks_eq : channelSendChecks chan (q.sent.length % (capacity + 1)) = true := by
  rw [channelSendChecks, open_, holds.get_wrIdx, decide_eq_true rfl]
  rfl

theorem sendReserved_eq : channelSendReserved chan (q.sent.length % (capacity + 1)) =
    some (chan.moved .producer) := by
  rw [channelSendReserved, holds.sendChecks_eq open_, if_pos rfl]

theorem ack_eq : channelAck chan (q.taken % (capacity + 1)) = some (chan.moved .consumer) := by
  rw [channelAck, open_, if_neg Bool.false_ne_true, holds.get_rdIdx, if_neg (not_not.mpr rfl)]

/-- `channel_send` blocks on a full queue and appends to another one. -/
theorem send_eq (value : α) :
    (¬ q.HasRoom capacity ∧ channelSend chan value = none) ∨
      ∃ chan', channelSend chan value = some (some chan') ∧ chan'.poisoned = false ∧
        q.HasRoom capacity ∧ chan'.Holds capacity { q with sent := q.sent ++ [value] } := by
  unfold channelSend
  rw [holds.reserve_eq open_]
  by_cases room : q.HasRoom capacity
  · have filled := holds.filled room value
    have content : (chan.filled (q.sent.length % (capacity + 1)) value).elts
        (q.sent.length % (capacity + 1)) = value := Function.update_self ..
    have sent := filled.sent room
    rw [content] at sent
    refine .inr ⟨(chan.filled (q.sent.length % (capacity + 1)) value).moved .producer, ?_, open_,
      room, sent⟩
    rw [if_pos room, Option.map_some, Option.bind_some, filled.sendReserved_eq open_]
  · exact .inl ⟨room, by rw [if_neg room, Option.map_none]⟩

/-- `channel_recv` blocks on an empty queue and takes the oldest element of another one. -/
theorem recv_eq :
    (q.taken = q.sent.length ∧ channelRecv chan = none) ∨
      ∃ value chan', channelRecv chan = some (some (value, chan')) ∧ chan'.poisoned = false ∧
        q.sent[q.taken]? = some value ∧ chan'.Holds capacity { q with taken := q.taken + 1 } := by
  have order := holds.order
  unfold channelRecv
  rw [holds.peek_eq open_]
  by_cases waiting : q.taken < q.sent.length
  · refine .inr ⟨_, chan.moved .consumer, ?_, open_, holds.front waiting, holds.acked waiting⟩
    rw [if_pos waiting, Option.map_some, Option.bind_some, holds.ack_eq open_, Option.map_some]
  · exact .inl ⟨by omega, by rw [if_neg waiting, Option.map_none]⟩

end Channel.Holds

end

end Hairgap.Source
