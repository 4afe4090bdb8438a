import Hairgap.Source.ChannelCalls

/-!
# The pointers given to `channel_send_reserved` and `channel_ack`

Both calls only compare the pointer with the slot of an index. That tells the buffer that was
given out from others while one is given out, and a free slot from none at all.
-/
namespace Hairgap.Guarantees
open Hairgap.Base Hairgap.Source

/-- A call on a channel, or the producer's access to the buffer it reserved. A pointer is the
index of its slot, NULL is `none`, and no slot has an index behind the ring. -/
inductive ChanCall (α : Type) where
  | reserve
  | fill (value : α)
  | sendReserved (data : Option Nat)
  | peek
  | ack (data : Option Nat)
  deriving DecidableEq, Repr

/-- A channel between two calls: the buffers given out since the last call that gave one back,
and the queue of all elements the accepted calls have sent and taken. -/
structure ChanUse (α : Type) where
  chan : Channel α
  reserved : Option Nat
  peeked : Option Nat
  queue : Queue α

section
variable {α : Type}

def ChanUse.new (capacity : Nat) (elts : Nat → α) : ChanUse α :=
  ⟨channelNew capacity elts, none, none, .empty⟩

/-- What `channel_send_reserved` makes of the channel when it returns 1. -/
def ChanUse.send (s : ChanUse α) (data : Option Nat) : Option (Channel α) :=
  data.bind (channelSendReserved s.chan)

/-- What `channel_ack` makes of it. -/
def ChanUse.ack (s : ChanUse α) (data : Option Nat) : Option (Channel α) :=
  data.bind (channelAck s.chan)

/-- `none` for a call that blocks, and for an access without a buffer. -/
def chanCall (s : ChanUse α) : ChanCall α → Option (ChanUse α)
  | .reserve => (channelReserve s.chan).map fun buf => { s with reserved := buf }
  | .fill value => s.reserved.map fun slot => { s with chan := s.chan.filled slot value }
  | .sendReserved data => some <|
    match s.send data with
    | none => s
    | some chan =>
      { s with
        chan, reserved := none
        queue.sent := s.queue.sent ++ [s.chan.elts (channelGet s.chan s.chan.wrIdx)] }
  | .peek => (channelPeek s.chan).map fun data => { s with peeked := data }
  | .ack data => some <|
    match s.ack data with
    | none => s
    | some chan => { s with chan, peeked := none, queue.taken := s.queue.taken + 1 }

def UseStep (s : ChanUse α) (call : ChanCall α) (s' : ChanUse α) : Prop :=
  chanCall s call = some s'

/-- The call returns 1. -/
def Accepted (s : ChanUse α) : ChanCall α → Prop
  | .sendReserved data => (s.send data).isSome = true
  | .ack data => (s.ack data).isSome = true
  | _ => False

/-- The pointer is the buffer that was given out and not given back. -/
def GivenOut (s : ChanUse α) : ChanCall α → Prop
  | .sendReserved data => s.reserved = data
  | .ack data => s.peeked = data
  | _ => True

/-- The channel refuses every buffer it has not given out, leaves its indices alone when it
does, and holds the elements sent and not taken, at most as many as its capacity. -/
def Refuses (capacity : Nat) (s : ChanUse α) (call : ChanCall α) : Prop :=
  (Accepted s call → GivenOut s call) ∧ ∀ s', UseStep s call s' →
    s'.chan.Holds capacity s'.queue ∧
      (¬ Accepted s call → s'.chan.wrIdx = s.chan.wrIdx ∧ s'.chan.rdIdx = s.chan.rdIdx)

/-- The slot of an index is passed only while a buffer is given out. -/
def InTurn (s : ChanUse α) : ChanCall α → Prop
  | .sendReserved data => data = some (channelGet s.chan s.chan.wrIdx) → s.reserved.isSome = true
  | .ack data => data = some (channelGet s.chan s.chan.rdIdx) → s.peeked.isSome = true
  | _ => True

/-- A buffer that is given out stands at the index of its side, and the queue has an element for
it or room for one. -/
structure ChanUse.Ok (capacity : Nat) (s : ChanUse α) : Prop where
  open_ : s.chan.poisoned = false
  holds : s.chan.Holds capacity s.queue
  reserved : ∀ slot, s.reserved = some slot →
    slot = s.queue.sent.length % (capacity + 1) ∧ s.queue.HasRoom capacity
  peeked : ∀ slot, s.peeked = some slot →
    slot = s.queue.taken % (capacity + 1) ∧ s.queue.taken < s.queue.sent.length

namespace ChanUse.Ok
variable {capacity : Nat} {s s' : ChanUse α} (ok : s.Ok capacity)
include ok

/-- A pointer is accepted when it is the slot of the index, whether that was given out or not. -/
theorem send_eq (data : Option Nat) : s.send data =
    if data = some (channelGet s.chan s.chan.wrIdx) then some (s.chan.moved .producer) else none := by
  cases data with
  | none => rfl
  | some slot =>
    rw [ChanUse.send, Option.bind_some, channelSendReserved, channelSendChecks, ok.open_]
    by_cases same : slot = channelGet s.chan s.chan.wrIdx
    · rw [decide_eq_true same, if_pos (congrArg some same)]
      rfl
    · rw [decide_eq_false same, if_neg (mt Option.some.inj same)]
      rfl

theorem ack_eq (data : Option Nat) : s.ack data =
    if data = some (channelGet s.chan s.chan.rdIdx) then some (s.chan.moved .consumer) else none := by
  cases data with
  | none => rfl
  | some slot =>
    rw [ChanUse.ack, Option.bind_some, channelAck, ok.open_, if_neg Bool.false_ne_true]
    by_cases same : slot = channelGet s.chan s.chan.rdIdx
    · rw [if_neg (not_not.mpr same), if_pos (congrArg some same)]
    · rw [if_pos same, if_neg (mt Option.some.inj same)]

/-- What is accepted in its turn is what was given out. -/
theorem acceptsGiven {call : ChanCall α} (inTurn : InTurn s call) (accepted : Accepted s call) :
    GivenOut s call := by
  cases call with
  | reserve => exact trivial
  | fill => exact trivial
  | peek => exact trivial
  | sendReserved data =>
    rw [Accepted, ok.send_eq] at accepted
    split at accepted
    next current =>
      obtain ⟨slot, given⟩ := Option.isSome_iff_exists.mp (inTurn current)
      rw [GivenOut, given, current, (ok.reserved slot given).1, ok.holds.get_wrIdx]
    · cases accepted
  | ack data =>
    rw [Accepted, ok.ack_eq] at accepted
    split at accepted
    next current =>
      obtain ⟨slot, given⟩ := Option.isSome_iff_exists.mp (inTurn current)
      rw [GivenOut, given, current, (ok.peeked slot given).1, ok.holds.get_rdIdx]
    · cases accepted

theorem step {call : ChanCall α} (inTurn : InTurn s call) (step : UseStep s call s') :
    s'.Ok capacity := by
  unfold UseStep at step
  cases call with
  | reserve =>
    obtain ⟨buf, reserve, rfl⟩ := Option.map_eq_some_iff.mp step
    rw [ok.holds.reserve_eq ok.open_] at reserve
    split at reserve
    next room =>
      cases reserve
      exact ⟨ok.open_, ok.holds, fun slot given => ⟨(Option.some.inj given).symm, room⟩, ok.peeked⟩
    · cases reserve
  | fill value =>
    obtain ⟨slot, given, rfl⟩ := Option.map_eq_some_iff.mp step
    obtain ⟨rfl, room⟩ := ok.reserved slot given
    exact ⟨ok.open_, ok.holds.filled room value, ok.reserved, ok.peeked⟩
  | sendReserved data =>
    by_cases current : data = some (channelGet s.chan s.chan.wrIdx)
    · rw [chanCall, ok.send_eq, if_pos current, Option.some.injEq] at step
      obtain ⟨slot, given⟩ := Option.isSome_iff_exists.mp (inTurn current)
      have sent := ok.holds.sent (ok.reserved slot given).2
      rw [← ok.holds.get_wrIdx] at sent
      subst step
      refine ⟨ok.open_, sent, nofun, fun slot given => ?_⟩
      obtain ⟨same, waiting⟩ := ok.peeked slot given
      exact ⟨same, by simp only [List.length_append]; omega⟩
    · rw [chanCall, ok.send_eq, if_neg current, Option.some.injEq] at step
      exact step ▸ ok
  | peek =>
    obtain ⟨buf, peek, rfl⟩ := Option.map_eq_some_iff.mp step
    rw [ok.holds.peek_eq ok.open_] at peek
    split at peek
    next waiting =>
      cases peek
      exact ⟨ok.open_, ok.holds, ok.reserved, fun slot given => ⟨(Option.some.inj given).symm, waiting⟩⟩
    · cases peek
  | ack data =>
    by_cases current : data = some (channelGet s.chan s.chan.rdIdx)
    · rw [chanCall, ok.ack_eq, if_pos current, Option.some.injEq] at step
      obtain ⟨slot, given⟩ := Option.isSome_iff_exists.mp (inTurn current)
      have acked := ok.holds.acked (ok.peeked slot given).2
      subst step
      refine ⟨ok.open_, acked, fun slot given => ?_, nofun⟩
      obtain ⟨same, room⟩ := ok.reserved slot given
      exact ⟨same, by unfold Queue.HasRoom at room ⊢; dsimp only; omega⟩
    · rw [chanCall, ok.ack_eq, if_neg current, Option.some.injEq] at step
      exact step ▸ ok

/-- A call that accepts nothing but what was given out is in its turn. -/
theorem inTurn {call : ChanCall α} (given : Accepted s call → GivenOut s call) : InTurn s call := by
  cases call with
  | reserve => exact trivial
  | fill => exact trivial
  | peek => exact trivial
  | sendReserved data =>
    intro current
    have reserved : s.reserved = data := given (by rw [Accepted, ok.send_eq, if_pos current]; rfl)
    rw [reserved, current]
    rfl
  | ack data =>
    intro current
    have peeked : s.peeked = data := given (by rw [Accepted, ok.ack_eq, if_pos current]; rfl)
    rw [peeked, current]
    rfl

end ChanUse.Ok

/-- A call that is not accepted leaves the indices where they are. -/
theorem chanCall_refused {s s' : ChanUse α} {call : ChanCall α} (step : UseStep s call s')
    (refused : ¬ Accepted s call) : s'.chan.wrIdx = s.chan.wrIdx ∧ s'.chan.rdIdx = s.chan.rdIdx := by
  unfold UseStep at step
  cases call with
  | reserve =>
    obtain ⟨buf, -, rfl⟩ := Option.map_eq_some_iff.mp step
    exact ⟨rfl, rfl⟩
  | fill value =>
    obtain ⟨slot, -, rfl⟩ := Option.map_eq_some_iff.mp step
    exact ⟨rfl, rfl⟩
  | sendReserved data =>
    rw [Accepted, Bool.not_eq_true, Option.isSome_eq_false_iff, Option.isNone_iff_eq_none] at refused
    rw [chanCall, refused, Option.some.injEq] at step
    exact step ▸ ⟨rfl, rfl⟩
  | peek =>
    obtain ⟨buf, -, rfl⟩ := Option.map_eq_some_iff.mp step
    exact ⟨rfl, rfl⟩
  | ack data =>
    rw [Accepted, Bool.not_eq_true, Option.isSome_eq_false_iff, Option.isNone_iff_eq_none] at refused
    rw [chanCall, refused, Option.some.injEq] at step
    exact step ▸ ⟨rfl, rfl⟩

theorem ok_new (capacity : Nat) (elts : Nat → α) : (ChanUse.new capacity elts).Ok capacity :=
  ⟨rfl, holds_new capacity elts, nofun, nofun⟩

/-- Calls are refused as they should be along a run just when the slot of an index is passed
only while a buffer is given out. -/
theorem bufferChecks_iff (capacity : Nat) (elts : Nat → α) (calls : List (ChanCall α)) :
    Along UseStep (.new capacity elts) calls (Refuses capacity) ↔
      Along UseStep (.new capacity elts) calls InTurn := by
  refine along_iff (fun _ => True) ?_ calls fun _ _ => trivial
  intro before s call run _ _
  have ok := run.invariant (fun _ s => s.Ok capacity) (ok_new capacity elts)
    fun _ _ _ _ ok step => ok.step step.2 step.1
  constructor
  · exact fun refuses => ok.inTurn refuses.1
  · intro inTurn
    exact ⟨ok.acceptsGiven inTurn,
      fun s' step => ⟨(ok.step inTurn step).holds, chanCall_refused step⟩⟩

end

section Stale

/-- One element is handed over through each of the two slots, then the ring is filled. -/
def staleCalls : List (ChanCall Nat) :=
  [.reserve, .fill 7, .sendReserved (some 0), .peek, .ack (some 0),
    .reserve, .fill 8, .sendReserved (some 1), .peek, .ack (some 1),
    .reserve, .fill 9, .sendReserved (some 0)]

theorem calls_run {α : Type} (s : ChanUse α) (calls : List (ChanCall α)) {s' : ChanUse α}
    {labels : List (ChanCall α)}
    (run : scheduled (fun s call => (chanCall s call).map (call, ·)) s calls = some (labels, s')) :
    Steps UseStep s labels s' := by
  refine (scheduled_steps run).mono ?_
  rintro u label v ⟨call, acts⟩
  obtain ⟨after, step, same⟩ := Option.map_eq_some_iff.mp acts
  cases same
  exact step

/-- The second buffer, long sent, is then accepted once more by a full ring with nothing
reserved. The ring is empty behind it, with an element sent and never taken. -/
theorem staleBuffer_accepted :
    ∃ s s' : ChanUse Nat, Steps UseStep (.new 1 fun _ => 0) staleCalls s ∧ s.reserved = none ∧
      s.queue = ⟨[7, 8, 9], 2⟩ ∧ channelIsFull s.chan = true ∧
      UseStep s (.sendReserved (some 1)) s' ∧ s'.queue = ⟨[7, 8, 9, 8], 2⟩ ∧
      channelIsEmpty s'.chan = true ∧
      ¬ Along UseStep (.new 1 fun _ => 0) (staleCalls ++ [.sendReserved (some 1)]) (Refuses 1) := by
  have run := calls_run (.new 1 fun _ => 0) staleCalls rfl
  refine ⟨_, _, run, rfl, rfl, rfl, rfl, rfl, rfl, fun refuses => ?_⟩
  have given := (refuses staleCalls (.sendReserved (some 1)) [] _ rfl run).1 rfl
  cases given

end Stale

end Hairgap.Guarantees
