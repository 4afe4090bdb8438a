import Hairgap.Base.Transition
import Mathlib.Logic.Function.Basic

/-!
# The channel between two threads

channel.c:41-121,133-235. One producer, one consumer, and any number of threads that poison the
channel. A step is one test of the indices, one access to a slot, one taking or leaving of the
mutex, one update of an index, one signal, or the store of the poison flag. The accesses outside
the mutex are taken to be sequentially consistent, and an allocation that fails, which ends the
process, is not modelled.
-/
namespace Hairgap.Source
open Hairgap.Base

/-- `struct channel` without its mutex and conditions. `capacity` counts the slot that stays
unused; a pointer to an element is the index of its slot. The size of the slots in octets is
a `size_t`, so no sum of indices wraps. -/
structure Channel (α : Type) where
  capacity : Nat
  poisoned : Bool
  elts : Nat → α
  wrIdx : Nat
  rdIdx : Nat

inductive Side where
  | producer | consumer
  deriving DecidableEq, Repr

def Side.other : Side → Side
  | .producer => .consumer
  | .consumer => .producer

@[simp] theorem Side.other_other (side : Side) : side.other.other = side := by
  cases side <;> rfl

theorem Side.other_ne (side : Side) : side.other ≠ side := by
  cases side <;> simp [Side.other]

theorem Side.eq_other {side side' : Side} (different : side' ≠ side) : side' = side.other := by
  cases side <;> cases side' <;> simp_all [Side.other]

section
variable {α : Type}

/-- `channel_new`; the slots are not initialised. -/
def channelNew (capacity : Nat) (elts : Nat → α) : Channel α := ⟨capacity + 1, false, elts, 0, 0⟩

def channelNext (chan : Channel α) (idx : Nat) : Nat := (idx + 1) % chan.capacity

def channelGet (chan : Channel α) (idx : Nat) : Nat := idx % chan.capacity

def channelIsFull (chan : Channel α) : Bool :=
  decide (chan.rdIdx = channelNext chan chan.wrIdx) && !chan.poisoned

def channelIsEmpty (chan : Channel α) : Bool :=
  decide (chan.rdIdx = chan.wrIdx) && !chan.poisoned

/-- The test each side passes to `_channel_wait_lock`. The test each side makes under the
mutex before it moves its index is that of the other side. -/
def channelBlocks (chan : Channel α) : Side → Bool
  | .producer => channelIsFull chan
  | .consumer => channelIsEmpty chan

/-- The index each side moves. -/
def Channel.idx (chan : Channel α) : Side → Nat
  | .producer => chan.wrIdx
  | .consumer => chan.rdIdx

def Channel.moved (chan : Channel α) : Side → Channel α
  | .producer => { chan with wrIdx := channelNext chan chan.wrIdx }
  | .consumer => { chan with rdIdx := channelNext chan chan.rdIdx }

def Channel.filled (chan : Channel α) (slot : Nat) (value : α) : Channel α :=
  { chan with elts := Function.update chan.elts slot value }

end

/-- Places in `_channel_wait_lock`. The mutex is held in `testing`, `falling` and `leaving`. -/
inductive WaitAt where
  | entering | locking | testing | falling | asleep | waking | leaving
  deriving DecidableEq, Repr

/-- Places in `channel_send_reserved` and `channel_ack` behind their checks. The mutex is
held from `testing` on. -/
inductive PublishAt where
  | locking | testing
  | moving (was : Bool)
  | signalling (was : Bool)
  | unlocking
  deriving DecidableEq, Repr

/-- Places of one side. `channel_reserve` and `channel_peek` wait, check the poison flag
again and give a slot out; the producer fills it and the consumer reads it; then
`channel_send_reserved` and `channel_ack` publish it. `channel_send` and `channel_recv` go
through the same places in one call. -/
inductive CallAt (α : Type) where
  | outside
  | waiting (w : WaitAt)
  | checking
  | holding (slot : Nat)
  | ready (slot : Nat) (value : α)
  | publishing (slot : Nat) (value : α) (p : PublishAt)
  deriving DecidableEq, Repr

/-- A channel in use. `stored`, `signalled` and `returned` count the calls of
`channel_poison` behind their first, second and last step; `log` is the history of the index
updates of each side, with the slot that was published and the value in it. -/
structure ChanState (α : Type) where
  chan : Channel α
  mutex : Option Side
  pc : Side → CallAt α
  stored : Nat
  signalled : Nat
  returned : Nat
  log : Side → List (Nat × α)

namespace ChanState
variable {α : Type}

def start (capacity : Nat) (elts : Nat → α) : ChanState α :=
  ⟨channelNew capacity elts, none, fun _ => .outside, 0, 0, 0, fun _ => []⟩

/-- One side goes on to another place. -/
def goto (s : ChanState α) (side : Side) (at_ : CallAt α) : ChanState α :=
  { s with pc := Function.update s.pc side at_ }

@[simp] theorem goto_pc (s : ChanState α) (side : Side) (at_ : CallAt α) :
    (s.goto side at_).pc side = at_ := Function.update_self ..

@[simp] theorem goto_pc_other (s : ChanState α) (side : Side) (at_ : CallAt α) :
    (s.goto side at_).pc side.other = s.pc side.other :=
  Function.update_of_ne side.other_ne ..

/-- `pthread_cond_signal` on the condition only this side sleeps on. -/
def wake (s : ChanState α) (side : Side) : ChanState α :=
  match s.pc side with
  | .waiting .asleep => s.goto side (.waiting .waking)
  | _ => s

/-- The locked index update. -/
def publish (s : ChanState α) (side : Side) (slot : Nat) (value : α) : ChanState α :=
  { s with
    chan := s.chan.moved side
    log := Function.update s.log side (s.log side ++ [(slot, value)]) }

end ChanState

/-- Who takes a step: a side, or a call of `channel_poison`, whose three steps are the store
and the signals to the two sides. -/
inductive ChanActor where
  | side (side : Side)
  | store
  | signal (side : Side)
  deriving DecidableEq, Repr

/-- The steps of one side and of the threads that poison the channel. -/
inductive ChanStep {α : Type} : ChanState α → ChanActor → ChanState α → Prop
  -- channel_reserve, channel_peek: the first poison check
  | refuse (s : ChanState α) (side : Side) (at_ : s.pc side = .outside)
      (poisoned : s.chan.poisoned = true) : ChanStep s (.side side) s
  | enter (s : ChanState α) (side : Side) (at_ : s.pc side = .outside)
      (open_ : s.chan.poisoned = false) :
      ChanStep s (.side side) (s.goto side (.waiting .entering))
  -- _channel_wait_lock
  | pass (s : ChanState α) (side : Side) (at_ : s.pc side = .waiting .entering)
      (free : channelBlocks s.chan side = false) : ChanStep s (.side side) (s.goto side .checking)
  | block (s : ChanState α) (side : Side) (at_ : s.pc side = .waiting .entering)
      (blocked : channelBlocks s.chan side = true) :
      ChanStep s (.side side) (s.goto side (.waiting .locking))
  | lock (s : ChanState α) (side : Side)
      (at_ : s.pc side = .waiting .locking ∨ s.pc side = .waiting .waking)
      (unlocked : s.mutex = none) :
      ChanStep s (.side side) ({ s with mutex := some side }.goto side (.waiting .testing))
  | retestFree (s : ChanState α) (side : Side) (at_ : s.pc side = .waiting .testing)
      (free : channelBlocks s.chan side = false) :
      ChanStep s (.side side) (s.goto side (.waiting .leaving))
  | retestBlocked (s : ChanState α) (side : Side) (at_ : s.pc side = .waiting .testing)
      (blocked : channelBlocks s.chan side = true) :
      ChanStep s (.side side) (s.goto side (.waiting .falling))
  | sleep (s : ChanState α) (side : Side) (at_ : s.pc side = .waiting .falling) :
      ChanStep s (.side side) ({ s with mutex := none }.goto side (.waiting .asleep))
  | spurious (s : ChanState α) (side : Side) (at_ : s.pc side = .waiting .asleep) :
      ChanStep s (.side side) (s.goto side (.waiting .waking))
  | leave (s : ChanState α) (side : Side) (at_ : s.pc side = .waiting .leaving) :
      ChanStep s (.side side) ({ s with mutex := none }.goto side .checking)
  -- the second poison check, and the slot
  | drop (s : ChanState α) (side : Side) (at_ : s.pc side = .checking)
      (poisoned : s.chan.poisoned = true) : ChanStep s (.side side) (s.goto side .outside)
  | give (s : ChanState α) (side : Side) (at_ : s.pc side = .checking)
      (open_ : s.chan.poisoned = false) :
      ChanStep s (.side side) (s.goto side (.holding (channelGet s.chan (s.chan.idx side))))
  -- the use of the slot
  | fill (s : ChanState α) (slot : Nat) (value : α)
      (at_ : s.pc .producer = .holding slot ∨ ∃ old, s.pc .producer = .ready slot old) :
      ChanStep s (.side .producer)
        ({ s with chan := s.chan.filled slot value }.goto .producer (.ready slot value))
  | read (s : ChanState α) (slot : Nat)
      (at_ : s.pc .consumer = .holding slot ∨ ∃ old, s.pc .consumer = .ready slot old) :
      ChanStep s (.side .consumer) (s.goto .consumer (.ready slot (s.chan.elts slot)))
  | abandon (s : ChanState α) (side : Side) (slot : Nat)
      (at_ : s.pc side = .holding slot ∨ ∃ value, s.pc side = .ready slot value) :
      ChanStep s (.side side) (s.goto side .outside)
  -- channel_send_reserved, channel_ack
  | reject (s : ChanState α) (side : Side) (slot : Nat) (value : α)
      (at_ : s.pc side = .ready slot value)
      (bad : s.chan.poisoned = true ∨ slot ≠ channelGet s.chan (s.chan.idx side)) :
      ChanStep s (.side side) (s.goto side .outside)
  | accept (s : ChanState α) (side : Side) (slot : Nat) (value : α)
      (at_ : s.pc side = .ready slot value) (open_ : s.chan.poisoned = false)
      (valid : slot = channelGet s.chan (s.chan.idx side)) :
      ChanStep s (.side side) (s.goto side (.publishing slot value .locking))
  | lockMove (s : ChanState α) (side : Side) (slot : Nat) (value : α)
      (at_ : s.pc side = .publishing slot value .locking) (unlocked : s.mutex = none) :
      ChanStep s (.side side)
        ({ s with mutex := some side }.goto side (.publishing slot value .testing))
  | test (s : ChanState α) (side : Side) (slot : Nat) (value : α)
      (at_ : s.pc side = .publishing slot value .testing) :
      ChanStep s (.side side)
        (s.goto side (.publishing slot value (.moving (channelBlocks s.chan side.other))))
  | move (s : ChanState α) (side : Side) (slot : Nat) (value : α) (was : Bool)
      (at_ : s.pc side = .publishing slot value (.moving was)) :
      ChanStep s (.side side)
        ((s.publish side slot value).goto side (.publishing slot value (.signalling was)))
  | signal (s : ChanState α) (side : Side) (slot : Nat) (value : α) (was : Bool)
      (at_ : s.pc side = .publishing slot value (.signalling was)) :
      ChanStep s (.side side)
        ((if was then s.wake side.other else s).goto side (.publishing slot value .unlocking))
  | unlock (s : ChanState α) (side : Side) (slot : Nat) (value : α)
      (at_ : s.pc side = .publishing slot value .unlocking) :
      ChanStep s (.side side) ({ s with mutex := none }.goto side .outside)
  -- channel_poison
  | store (s : ChanState α) :
      ChanStep s .store
        { s with chan := { s.chan with poisoned := true }, stored := s.stored + 1 }
  | signalSend (s : ChanState α) (calls : Nat) (pending : s.stored = calls + 1) :
      ChanStep s (.signal .producer)
        ({ s with stored := calls, signalled := s.signalled + 1 }.wake .producer)
  | signalRecv (s : ChanState α) (calls : Nat) (pending : s.signalled = calls + 1) :
      ChanStep s (.signal .consumer)
        ({ s with signalled := calls, returned := s.returned + 1 }.wake .consumer)

end Hairgap.Source
