import Hairgap.Base.Queue
import Hairgap.Source.Channel

/-!
# The channel is a bounded queue

The tests run outside the mutex while the other side moves its index. What they find stays
true, because only the side that tests could make it false.
-/
namespace Hairgap.Guarantees
open Hairgap.Base Hairgap.Source

section
variable {α : Type}

/-- The slot a side was given and has not yet published, and the value in it when the side
has accessed it. -/
def CallAt.given : CallAt α → Option (Nat × Option α)
  | .holding slot => some (slot, none)
  | .ready slot value | .publishing slot value .locking | .publishing slot value .testing
  | .publishing slot value (.moving _) => some (slot, some value)
  | _ => none

/-- Behind a test that let the side pass, and before the second poison check. -/
def CallAt.passed : CallAt α → Bool
  | .waiting .leaving | .checking => true
  | _ => false

/-- A side may go on: the producer finds room, the consumer an element. -/
def Free (capacity : Nat) (log : Side → List (Nat × α)) : Side → Prop
  | .producer => (log .producer).length < (log .consumer).length + capacity
  | .consumer => (log .consumer).length < (log .producer).length

/-- Indices and slots against the two histories. -/
structure RingOk (capacity : Nat) (chan : Channel α) (log : Side → List (Nat × α)) : Prop where
  size : chan.capacity = capacity + 1
  idx : ∀ side, chan.idx side = (log side).length % (capacity + 1)
  order : (log .consumer).length ≤ (log .producer).length
  bound : (log .producer).length ≤ (log .consumer).length + capacity
  slots : ∀ k (h : k < (log .producer).length), ((log .producer)[k]).1 = k % (capacity + 1)
  intact : ∀ k (h : k < (log .producer).length), (log .consumer).length ≤ k →
    chan.elts ((log .producer)[k]).1 = ((log .producer)[k]).2

/-- What a side may rely on at its place. -/
structure SideOk (capacity : Nat) (chan : Channel α) (log : Side → List (Nat × α)) (side : Side)
    (pc : CallAt α) : Prop where
  passed : CallAt.passed pc = true → chan.poisoned = true ∨ Free capacity log side
  given : ∀ slot value, CallAt.given pc = some (slot, value) →
    Free capacity log side ∧ slot = (log side).length % (capacity + 1) ∧
      ∀ v ∈ value, chan.elts slot = v

/-- The invariant of a channel in use. -/
structure ChanOk (capacity : Nat) (s : ChanState α) : Prop where
  ring : RingOk capacity s.chan s.log
  side : ∀ side, SideOk capacity s.chan s.log side (s.pc side)

variable {capacity : Nat} {s s' : ChanState α}

namespace RingOk
variable {chan : Channel α} {log : Side → List (Nat × α)} (ring : RingOk capacity chan log)
include ring

/-- The test of a side on the two indices decides whether it may go on. -/
theorem blocks_eq (side : Side) :
    channelBlocks chan side = false ↔ chan.poisoned = true ∨ Free capacity log side := by
  have order := ring.order
  have bound := ring.bound
  have rd : chan.rdIdx = (log .consumer).length % (capacity + 1) := ring.idx .consumer
  have wr : chan.wrIdx = (log .producer).length % (capacity + 1) := ring.idx .producer
  cases hp : chan.poisoned with
  | true => cases side <;> simp [channelBlocks, channelIsFull, channelIsEmpty, hp]
  | false =>
    cases side with
    | producer =>
      have full := Ring.next_slot_inj order (show _ < _ + (capacity + 1) by omega)
      simp only [channelBlocks, channelIsFull, channelNext, hp, ring.size, rd, wr, full, Free,
        Bool.not_false, Bool.and_true, decide_eq_false_iff_not, Bool.false_eq_true, false_or]
      omega
    | consumer =>
      have empty := Ring.slot_inj order (show _ < _ + (capacity + 1) by omega)
      simp only [channelBlocks, channelIsEmpty, hp, rd, wr, empty, Free,
        Bool.not_false, Bool.and_true, decide_eq_false_iff_not, Bool.false_eq_true, false_or]
      omega

theorem get_idx (side : Side) :
    channelGet chan (chan.idx side) = (log side).length % (capacity + 1) := by
  rw [channelGet, ring.size, ring.idx, Nat.mod_mod]

/-- The producer's next slot is none of those in the queue. -/
theorem slot_free (free : Free capacity log .producer) {k : Nat} (inside : k < (log .producer).length)
    (queued : (log .consumer).length ≤ k) :
    (log .producer).length % (capacity + 1) ≠ ((log .producer)[k]).1 := by
  have room : (log .producer).length < (log .consumer).length + capacity := free
  rw [ring.slots k inside]
  exact (Ring.slot_ne inside (by omega)).symm

/-- The consumer's next slot holds the oldest element of the queue. -/
theorem front (free : Free capacity log .consumer) :
    (log .producer)[(log .consumer).length]? = some
      ((log .consumer).length % (capacity + 1),
        chan.elts ((log .consumer).length % (capacity + 1))) := by
  have inside : (log .consumer).length < (log .producer).length := free
  rw [List.getElem?_eq_getElem inside, Option.some.injEq, Prod.ext_iff]
  refine ⟨ring.slots _ inside, ?_⟩
  rw [← ring.intact _ inside (Nat.le_refl _), ring.slots _ inside]

/-- Writing to the slot of the next element leaves the queue alone. -/
theorem fill (free : Free capacity log .producer) (value : α) :
    RingOk capacity (chan.filled ((log .producer).length % (capacity + 1)) value) log := by
  refine ⟨ring.size, fun side => ?_, ring.order, ring.bound, ring.slots, ?_⟩
  · cases side with
    | producer => exact ring.idx .producer
    | consumer => exact ring.idx .consumer
  intro k inside queued
  have apart := ring.slot_free free inside queued
  dsimp only [Channel.filled]
  rw [Function.update_of_ne apart.symm]
  exact ring.intact k inside queued

/-- A side that may go on moves its index past the element it has published. -/
theorem publish (side : Side) (free : Free capacity log side) (value : α)
    (holds : chan.elts ((log side).length % (capacity + 1)) = value) :
    RingOk capacity (chan.moved side) (Function.update log side
      (log side ++ [((log side).length % (capacity + 1), value)])) := by
  have order := ring.order
  have bound := ring.bound
  have next : channelNext chan ((log side).length % (capacity + 1)) =
      ((log side).length + 1) % (capacity + 1) := by
    rw [channelNext, ring.size, Nat.mod_add_mod]
  cases side with
  | producer =>
    have room : (log .producer).length < (log .consumer).length + capacity := free
    refine ⟨ring.size, ?_, ?_, ?_, ?_, ?_⟩
    · intro side
      cases side with
      | producer =>
        have wr : chan.wrIdx = _ := ring.idx .producer
        simpa [Channel.moved, Channel.idx, wr] using next
      | consumer => simpa [Channel.moved, Channel.idx] using ring.idx .consumer
    · simp only [Function.update_self, ne_eq, reduceCtorEq, not_false_eq_true,
        Function.update_of_ne, List.length_append]
      omega
    · simp only [Function.update_self, ne_eq, reduceCtorEq, not_false_eq_true,
        Function.update_of_ne, List.length_append, List.length_singleton]
      omega
    · intro k inside
      simp only [Function.update_self, List.length_append, List.length_singleton] at inside ⊢
      rcases Nat.lt_succ_iff_lt_or_eq.mp inside with earlier | rfl
      · rw [List.getElem_append_left earlier]
        exact ring.slots k earlier
      · simp
    · intro k inside queued
      simp only [Function.update_self, List.length_append, List.length_singleton, ne_eq,
        reduceCtorEq, not_false_eq_true, Function.update_of_ne] at inside queued ⊢
      rcases Nat.lt_succ_iff_lt_or_eq.mp inside with earlier | rfl
      · rw [List.getElem_append_left earlier]
        exact ring.intact k earlier queued
      · simpa [Channel.moved] using holds
  | consumer =>
    have element : (log .consumer).length < (log .producer).length := free
    refine ⟨ring.size, ?_, ?_, ?_, ?_, ?_⟩
    · intro side
      cases side with
      | producer => simpa [Channel.moved, Channel.idx] using ring.idx .producer
      | consumer =>
        have rd : chan.rdIdx = _ := ring.idx .consumer
        simpa [Channel.moved, Channel.idx, rd] using next
    · simpa using Nat.succ_le_of_lt element
    · simp only [Function.update_self, ne_eq, reduceCtorEq, not_false_eq_true,
        Function.update_of_ne, List.length_append, List.length_singleton]
      omega
    · simpa using ring.slots
    · intro k inside queued
      simp only [Function.update_self, List.length_append, List.length_singleton, ne_eq,
        reduceCtorEq, not_false_eq_true, Function.update_of_ne] at inside queued ⊢
      exact ring.intact k inside (by omega)

end RingOk

namespace SideOk
variable {chan chan' : Channel α} {log log' : Side → List (Nat × α)} {side : Side}
  {pc pc' : CallAt α}

/-- Away from the slot nothing is relied on. -/
theorem plain (passed : CallAt.passed pc = false) (given : CallAt.given pc = none) :
    SideOk capacity chan log side pc := by
  refine ⟨fun h => ?_, fun slot value h => ?_⟩
  · rw [passed] at h
    cases h
  · rw [given] at h
    cases h

/-- What is relied on survives whatever leaves the history of the side, its claim and its
slot alone. -/
theorem keep (ok : SideOk capacity chan log side pc)
    (poisoned : chan.poisoned = true → chan'.poisoned = true)
    (free : Free capacity log side → Free capacity log' side)
    (own : (log' side).length = (log side).length)
    (slot : Free capacity log side → chan'.elts ((log side).length % (capacity + 1)) =
      chan.elts ((log side).length % (capacity + 1))) :
    SideOk capacity chan' log' side pc := by
  refine ⟨fun h => ?_, fun slot' value h => ?_⟩
  · rcases ok.passed h with p | f
    · exact .inl (poisoned p)
    · exact .inr (free f)
  · obtain ⟨f, rfl, holds⟩ := ok.given slot' value h
    refine ⟨free f, by rw [own], fun v hv => ?_⟩
    rw [slot f]
    exact holds v hv

end SideOk

namespace ChanOk
variable (ok : ChanOk capacity s)
include ok

theorem goto (side : Side) (at_ : CallAt α) (now : SideOk capacity s.chan s.log side at_) :
    ChanOk capacity (s.goto side at_) := by
  refine ⟨ok.ring, fun side' => ?_⟩
  by_cases same : side' = side
  · subst same
    simpa [ChanState.goto] using now
  · simpa [ChanState.goto, Function.update_of_ne same] using ok.side side'

theorem wake (side : Side) : ChanOk capacity (s.wake side) := by
  unfold ChanState.wake
  split
  · exact ok.goto side _ (.plain rfl rfl)
  · exact ok

/-- The mutex and the counts of poison calls play no part. -/
theorem restate (mutex : Option Side) (stored signalled returned : Nat) :
    ChanOk capacity { s with
      mutex := mutex, stored := stored, signalled := signalled, returned := returned } :=
  ⟨ok.ring, ok.side⟩

theorem poison : ChanOk capacity { s with chan := { s.chan with poisoned := true } } := by
  refine ⟨⟨ok.ring.size, ?_, ok.ring.order, ok.ring.bound, ok.ring.slots, ok.ring.intact⟩, ?_⟩
  · intro side
    cases side with
    | producer => exact ok.ring.idx .producer
    | consumer => exact ok.ring.idx .consumer
  · exact fun side => (ok.side side).keep (fun _ => rfl) id rfl fun _ => rfl

theorem fill {slot : Nat} {v : Option α} (given : CallAt.given (s.pc .producer) = some (slot, v))
    (value : α) :
    ChanOk capacity
      ({ s with chan := s.chan.filled slot value }.goto .producer (.ready slot value)) := by
  obtain ⟨free, rfl, -⟩ := (ok.side .producer).given slot v given
  have ring := ok.ring.fill free value
  refine ⟨ring, fun side => ?_⟩
  cases side with
  | producer =>
    refine ⟨nofun, fun slot value' h => ?_⟩
    simp only [ChanState.goto, Function.update_self, CallAt.given, Option.some.injEq,
      Prod.mk.injEq] at h
    obtain ⟨rfl, rfl⟩ := h
    refine ⟨free, rfl, fun v hv => ?_⟩
    obtain rfl := Option.mem_some_iff.mp hv
    simp [ChanState.goto, Channel.filled]
  | consumer =>
    refine (ok.side .consumer).keep id id rfl fun element => ?_
    -- the slot of the consumer is in the queue, that of the producer is not
    have inside : (s.log .consumer).length < (s.log .producer).length := element
    have apart := ok.ring.slot_free free inside (Nat.le_refl _)
    rw [ok.ring.slots _ inside] at apart
    simp only [ChanState.goto, Channel.filled]
    exact Function.update_of_ne apart.symm _ _

theorem publish {side : Side} {slot : Nat} {value : α}
    (given : CallAt.given (s.pc side) = some (slot, some value)) (at_ : CallAt α)
    (passed : CallAt.passed at_ = false) (later : CallAt.given at_ = none) :
    ChanOk capacity ((s.publish side slot value).goto side at_) := by
  obtain ⟨free, rfl, holds⟩ := (ok.side side).given slot _ given
  have ring := ok.ring.publish side free value (holds value rfl)
  refine ⟨ring, fun side' => ?_⟩
  by_cases same : side' = side
  · subst same
    simp only [ChanState.goto, Function.update_self]
    exact .plain passed later
  · have still : (s.publish side ((s.log side).length % (capacity + 1)) value).pc side' =
        s.pc side' := rfl
    simp only [ChanState.goto, Function.update_of_ne same, still]
    refine (ok.side side').keep ?_ ?_ ?_ ?_
    · cases side <;> exact id
    · cases side <;> cases side' <;>
        simp_all [Free, ChanState.publish] <;> omega
    · simp [ChanState.publish, Function.update_of_ne same]
    · intro _
      cases side <;> rfl

end ChanOk

/-- Every step keeps the invariant. -/
theorem ChanOk.step {actor : ChanActor} (ok : ChanOk capacity s) (step : ChanStep s actor s') :
    ChanOk capacity s' := by
  have free_of (side : Side) (pc : CallAt α) (given : CallAt.given pc = none)
      (passes : channelBlocks s.chan side = false) : SideOk capacity s.chan s.log side pc :=
    ⟨fun _ => (ok.ring.blocks_eq side).mp passes, by simp [given]⟩
  have same_slot (side : Side) (pc : CallAt α) (passed : CallAt.passed pc = false)
      (given : CallAt.given pc = CallAt.given (s.pc side)) :
      SideOk capacity s.chan s.log side pc :=
    ⟨by simp [passed], fun slot value h => (ok.side side).given slot value (given ▸ h)⟩
  cases step with
  | refuse => exact ok
  | enter side => exact ok.goto side _ (.plain rfl rfl)
  | pass side _ free => exact ok.goto side _ (free_of side _ rfl free)
  | block side => exact ok.goto side _ (.plain rfl rfl)
  | lock side => exact (ok.restate _ _ _ _).goto side _ (.plain rfl rfl)
  | retestFree side _ free => exact ok.goto side _ (free_of side _ rfl free)
  | retestBlocked side => exact ok.goto side _ (.plain rfl rfl)
  | sleep side => exact (ok.restate _ _ _ _).goto side _ (.plain rfl rfl)
  | spurious side => exact ok.goto side _ (.plain rfl rfl)
  | leave side at_ =>
    refine (ok.restate _ _ _ _).goto side _ ⟨fun _ => (ok.side side).passed ?_, nofun⟩
    rw [at_]
    rfl
  | drop side => exact ok.goto side _ (.plain rfl rfl)
  | give side at_ open_ =>
    have free : Free capacity s.log side := by
      rcases (ok.side side).passed (by rw [at_]; rfl) with poisoned | free
      · rw [open_] at poisoned
        cases poisoned
      · exact free
    refine ok.goto side _ ⟨nofun, fun slot value h => ?_⟩
    obtain ⟨rfl, rfl⟩ := Prod.mk.inj (Option.some.inj h)
    exact ⟨free, ok.ring.get_idx side, nofun⟩
  | fill slot value at_ =>
    rcases at_ with at_ | ⟨old, at_⟩
    · exact ok.fill (v := none) (by rw [at_]; rfl) value
    · exact ok.fill (v := some old) (by rw [at_]; rfl) value
  | read slot at_ =>
    have given : ∃ v, CallAt.given (s.pc .consumer) = some (slot, v) := by
      rcases at_ with at_ | ⟨old, at_⟩
      · exact ⟨none, by rw [at_]; rfl⟩
      · exact ⟨some old, by rw [at_]; rfl⟩
    obtain ⟨v, given⟩ := given
    obtain ⟨free, hslot, -⟩ := (ok.side .consumer).given slot v given
    refine ok.goto .consumer _ ⟨nofun, fun slot' value h => ?_⟩
    obtain ⟨rfl, rfl⟩ := Prod.mk.inj (Option.some.inj h)
    exact ⟨free, hslot, fun v hv => Option.mem_some_iff.mp hv⟩
  | abandon side => exact ok.goto side _ (.plain rfl rfl)
  | reject side => exact ok.goto side _ (.plain rfl rfl)
  | accept side slot value at_ =>
    exact ok.goto side _ (same_slot side _ rfl (by rw [at_]; rfl))
  | lockMove side slot value at_ =>
    exact (ok.restate _ _ _ _).goto side _ (same_slot side _ rfl (by rw [at_]; rfl))
  | test side slot value at_ =>
    exact ok.goto side _ (same_slot side _ rfl (by rw [at_]; rfl))
  | move side slot value was at_ => exact ok.publish (by rw [at_]; rfl) _ rfl rfl
  | signal side slot value was =>
    cases was with
    | true => exact (ok.wake side.other).goto side _ (.plain rfl rfl)
    | false => exact ok.goto side _ (.plain rfl rfl)
  | unlock side => exact (ok.restate _ _ _ _).goto side _ (.plain rfl rfl)
  | store => exact ok.poison.restate _ _ _ _
  | signalSend => exact (ok.restate _ _ _ _).wake .producer
  | signalRecv => exact (ok.restate _ _ _ _).wake .consumer

theorem chanOk_start (capacity : Nat) (elts : Nat → α) :
    ChanOk capacity (ChanState.start capacity elts) := by
  refine ⟨⟨rfl, ?_, Nat.le_refl _, Nat.zero_le _, nofun, nofun⟩, fun _ => .plain rfl rfl⟩
  intro side
  cases side <;> exact (Nat.zero_mod _).symm

/-- The invariant holds in every reachable state. -/
theorem chanOk_run {elts : Nat → α} {actors : List ChanActor}
    (run : Steps ChanStep (ChanState.start capacity elts) actors s) : ChanOk capacity s :=
  run.invariant (fun _ s => ChanOk capacity s) (chanOk_start capacity elts)
    fun _ _ _ _ ok step => ok.step step

/-- Only an index update adds to a history, and what it adds is the slot the side was given. -/
theorem step_log {actor : ChanActor} (step : ChanStep s actor s') :
    s'.log = s.log ∨ ∃ side slot value, CallAt.given (s.pc side) = some (slot, some value) ∧
      s'.log = Function.update s.log side (s.log side ++ [(slot, value)]) := by
  have wake (s : ChanState α) (side : Side) : (s.wake side).log = s.log := by
    unfold ChanState.wake
    split <;> rfl
  cases step with
  | move side slot value was at_ => exact .inr ⟨side, slot, value, by rw [at_]; rfl, rfl⟩
  | signal side slot value was =>
    cases was with
    | true => exact .inl (wake s side.other)
    | false => exact .inl rfl
  | signalSend => exact .inl (wake _ _)
  | signalRecv => exact .inl (wake _ _)
  | _ => exact .inl rfl

/-- The queue a channel stands for. -/
def ChanState.queue (s : ChanState α) : Queue α :=
  ⟨(s.log .producer).map Prod.snd, (s.log .consumer).length⟩

/-- An index update of the producer sends, one of the consumer takes the oldest element, and
no other step is visible in the queue. -/
theorem step_queue {actor : ChanActor} (ok : ChanOk capacity s) (step : ChanStep s actor s') :
    (ChanState.queue s' = ChanState.queue s ∧ s'.log .consumer = s.log .consumer) ∨
      (∃ value, Queue.Step capacity (ChanState.queue s) (.send value) (ChanState.queue s') ∧
        s'.log .consumer = s.log .consumer) ∨
      ∃ slot value, Queue.Step capacity (ChanState.queue s) (.take value) (ChanState.queue s') ∧
        s'.log .consumer = s.log .consumer ++ [(slot, value)] := by
  rcases step_log step with same | ⟨side, slot, value, given, log⟩
  · exact .inl ⟨by simp only [ChanState.queue, same], by rw [same]⟩
  · obtain ⟨free, hslot, holds⟩ := (ok.side side).given slot _ given
    have holds := holds value rfl
    cases side with
    | producer =>
      refine .inr (.inl ⟨value, ?_, by simp [log]⟩)
      have room : (ChanState.queue s).HasRoom capacity := by
        simpa [Queue.HasRoom, ChanState.queue, Free] using free
      have sent := Queue.Step.send (ChanState.queue s) value room
      simpa [ChanState.queue, log] using sent
    | consumer =>
      refine .inr (.inr ⟨slot, value, ?_, by simp [log]⟩)
      have front : (ChanState.queue s).sent[(ChanState.queue s).taken]? = some value := by
        simp only [ChanState.queue, List.getElem?_map, ok.ring.front free, Option.map_some,
          ← hslot, holds]
      have taken : Queue.Step capacity (ChanState.queue s) (.take value) _ := .take _ value front
      simpa [ChanState.queue, log] using taken

/-- The channel refines a bounded queue: a run of the channel is one of the queue, which
takes out what the consumer received. -/
theorem channel_refines {elts : Nat → α} {actors : List ChanActor}
    (run : Steps ChanStep (ChanState.start capacity elts) actors s) :
    ∃ ops, Steps (Queue.Step capacity) Queue.empty ops (ChanState.queue s) ∧
      Queue.received ops = (s.log .consumer).map Prod.snd := by
  have both := run.invariant (fun _ s => ChanOk capacity s ∧
    ∃ ops, Steps (Queue.Step capacity) Queue.empty ops (ChanState.queue s) ∧
      Queue.received ops = (s.log .consumer).map Prod.snd)
    ⟨chanOk_start capacity elts, [], .nil _, rfl⟩ ?_
  · exact both.2
  rintro actors s actor s' ⟨ok, ops, queue, received⟩ step
  refine ⟨ok.step step, ?_⟩
  rcases step_queue ok step with ⟨same, log⟩ | ⟨value, sent, log⟩ | ⟨slot, value, taken, log⟩
  · exact ⟨ops, by rw [same]; exact queue, by rw [log]; exact received⟩
  · exact ⟨ops ++ [.send value], .snoc queue sent, by simp [log, received]⟩
  · exact ⟨ops ++ [.take value], .snoc queue taken, by simp [log, received]⟩

/-- Elements sent and not yet acked, with the slots they stand in. -/
def ChanState.queued (s : ChanState α) : List (Nat × α) :=
  (s.log .producer).drop (s.log .consumer).length

/-- What a channel of some capacity promises in every state. -/
structure BoundedFifo (capacity : Nat) (s : ChanState α) : Prop where
  /-- The values received are a prefix of those sent. -/
  inOrder : (s.log .consumer).map Prod.snd <+: (s.log .producer).map Prod.snd
  /-- Received is at most sent. -/
  nonneg : (s.log .consumer).length ≤ (s.log .producer).length
  bounded : (s.log .producer).length ≤ (s.log .consumer).length + capacity
  /-- The slot the producer was given holds nothing that is sent and not yet acked. -/
  reserved : ∀ slot value, CallAt.given (s.pc .producer) = some (slot, value) →
    ∀ element ∈ ChanState.queued s, element.1 ≠ slot
  /-- So it is not the slot the consumer is reading. -/
  apart : ∀ slot value slot' value', CallAt.given (s.pc .producer) = some (slot, value) →
    CallAt.given (s.pc .consumer) = some (slot', value') → slot ≠ slot'
  /-- The slots of the queue hold what was sent. -/
  intact : ∀ element ∈ ChanState.queued s, s.chan.elts element.1 = element.2
  /-- A value the consumer has read and not yet acked is the next of those sent. -/
  next : ∀ slot value, CallAt.given (s.pc .consumer) = some (slot, some value) →
    (s.log .consumer).map Prod.snd ++ [value] <+: (s.log .producer).map Prod.snd

/-- Every channel is a bounded queue for one producer and one consumer, whoever poisons it
and whenever. -/
theorem channel_fifo (capacity : Nat) (elts : Nat → α) (actors : List ChanActor)
    (s : ChanState α) (run : Steps ChanStep (ChanState.start capacity elts) actors s) :
    BoundedFifo capacity s := by
  have ok := chanOk_run run
  obtain ⟨ops, queue, received⟩ := channel_refines run
  have inOrder : (s.log .consumer).map Prod.snd =
      ((s.log .producer).map Prod.snd).take (s.log .consumer).length := by
    rw [← received]
    exact Queue.received_eq queue
  have element {element : Nat × α} (member : element ∈ ChanState.queued s) :
      ∃ k, ∃ h : k < (s.log .producer).length, (s.log .consumer).length ≤ k ∧
        (s.log .producer)[k] = element := by
    obtain ⟨i, h, rfl⟩ := List.mem_iff_getElem.mp member
    simp only [ChanState.queued, List.length_drop] at h
    exact ⟨(s.log .consumer).length + i, by omega, by omega, by simp [ChanState.queued]⟩
  have apart (slot : Nat) (value : Option α)
      (given : CallAt.given (s.pc .producer) = some (slot, value)) :
      ∀ element ∈ ChanState.queued s, element.1 ≠ slot := by
    intro e member
    obtain ⟨free, rfl, -⟩ := (ok.side .producer).given slot value given
    obtain ⟨k, h, le, rfl⟩ := element member
    exact (ok.ring.slot_free free h le).symm
  have reading (slot : Nat) (value : Option α)
      (given : CallAt.given (s.pc .consumer) = some (slot, value)) :
      (s.log .producer)[(s.log .consumer).length]? = some (slot, s.chan.elts slot) ∧
        ∀ v ∈ value, s.chan.elts slot = v := by
    obtain ⟨free, rfl, holds⟩ := (ok.side .consumer).given slot value given
    exact ⟨ok.ring.front free, holds⟩
  refine ⟨?_, ok.ring.order, ok.ring.bound, apart, ?_, ?_, ?_⟩
  · rw [inOrder]
    exact List.take_prefix _ _
  · intro slot value slot' value' given given'
    obtain ⟨inside, front⟩ := List.getElem?_eq_some_iff.mp (reading slot' value' given').1
    have member : (slot', s.chan.elts slot') ∈ ChanState.queued s := by
      rw [← front, ChanState.queued, List.drop_eq_getElem_cons inside]
      exact List.mem_cons_self
    exact (apart slot value given _ member).symm
  · intro e member
    obtain ⟨k, h, le, rfl⟩ := element member
    exact ok.ring.intact k h le
  · intro slot value given
    obtain ⟨front, holds⟩ := reading slot _ given
    obtain ⟨inside, front⟩ := List.getElem?_eq_some_iff.mp front
    have inside' : (s.log .consumer).length < ((s.log .producer).map Prod.snd).length := by
      simpa using inside
    have last : ((s.log .producer).map Prod.snd)[(s.log .consumer).length] = value := by
      rw [List.getElem_map, front, ← holds value rfl]
    rw [inOrder, ← last, ← List.take_succ_eq_append_getElem inside']
    exact List.take_prefix _ _

end

section Unhindered
variable {α : Type} {s : ChanState α} {side : Side}

theorem goto_goto (s : ChanState α) (side : Side) (at_ next : CallAt α) :
    (s.goto side at_).goto side next = s.goto side next := by
  simp [ChanState.goto, Function.update_idem]

/-- A signal to a side outside the channel is lost. -/
theorem wake_outside (outside : s.pc side = .outside) : s.wake side = s := by
  unfold ChanState.wake
  rw [outside]

/-- A side that may go on is given the slot of its index. -/
theorem call_given (outside : s.pc side = .outside) (open_ : s.chan.poisoned = false)
    (free : channelBlocks s.chan side = false) :
    Steps ChanStep s (List.replicate 3 (.side side))
      (s.goto side (.holding (channelGet s.chan (s.chan.idx side)))) := by
  have entered := Steps.one (ChanStep.enter s side outside open_)
  have passed := entered.snoc (.pass _ side (ChanState.goto_pc ..) free)
  have given := passed.snoc (.give _ side (ChanState.goto_pc ..) open_)
  rw [goto_goto, goto_goto] at given
  exact given

/-- Both sides are outside the channel, and nobody has poisoned it. -/
structure Idle (s : ChanState α) : Prop where
  outside : ∀ side, s.pc side = .outside
  unlocked : s.mutex = none
  open_ : s.chan.poisoned = false

/-- A side that has used its slot publishes it, when the other side is not at the channel. -/
theorem call_published (idle : Idle s) (side : Side) {slot : Nat} (value : α)
    (valid : slot = channelGet s.chan (s.chan.idx side)) :
    Steps ChanStep (s.goto side (.ready slot value)) (List.replicate 6 (.side side))
        ((s.publish side slot value).goto side .outside) ∧
      Idle ((s.publish side slot value).goto side .outside) := by
  constructor
  · have run := Steps.one (ChanStep.accept (s.goto side (.ready slot value)) side slot value
      (ChanState.goto_pc ..) idle.open_ valid)
    have run := run.snoc (.lockMove _ side slot value (ChanState.goto_pc ..) idle.unlocked)
    have run := run.snoc (.test _ side slot value (ChanState.goto_pc ..))
    have run := run.snoc (.move _ side slot value _ (ChanState.goto_pc ..))
    have run := run.snoc (.signal _ side slot value _ (ChanState.goto_pc ..))
    have run := run.snoc (.unlock _ side slot value (ChanState.goto_pc ..))
    have away := idle.outside side.other
    obtain ⟨chan, mutex, pc, stored, signalled, returned, log⟩ := s
    obtain rfl : mutex = none := idle.unlocked
    rw [wake_outside, ite_self] at run
    · simpa [ChanState.goto, ChanState.publish, Function.update_idem, List.replicate] using run
    · simpa [ChanState.goto, ChanState.publish, Function.update_of_ne side.other_ne] using away
  · refine ⟨fun side' => ?_, idle.unlocked, by cases side <;> exact idle.open_⟩
    by_cases own : side' = side
    · rw [own, ChanState.goto_pc]
    · rw [Side.eq_other own, ChanState.goto_pc_other]
      exact idle.outside _

/-- Between two calls, a side has taken its slot, used it and published it. -/
structure Called (s : ChanState α) (side : Side) (used : Channel α) (value : α)
    (s' : ChanState α) : Prop where
  run : Steps ChanStep s (List.replicate 10 (.side side)) s'
  idle : Idle s'
  chan : s'.chan = used.moved side
  log : s'.log = Function.update s.log side
    (s.log side ++ [(channelGet s.chan (s.chan.idx side), value)])

theorem call_sends (idle : Idle s) (room : channelIsFull s.chan = false) (value : α) :
    ∃ s', Called s .producer (s.chan.filled (channelGet s.chan s.chan.wrIdx) value) value s' := by
  have given := call_given (idle.outside .producer) idle.open_ room
  have used := given.snoc (.fill _ _ value (.inl (ChanState.goto_pc ..)))
  have filled : Idle { s with chan := s.chan.filled (channelGet s.chan s.chan.wrIdx) value } :=
    ⟨idle.outside, idle.unlocked, idle.open_⟩
  obtain ⟨published, after⟩ := call_published filled .producer value rfl
  rw [← goto_goto _ .producer (.holding (channelGet s.chan s.chan.wrIdx))] at published
  exact ⟨_, used.trans published, after, rfl, rfl⟩

theorem call_receives (idle : Idle s) (some_ : channelIsEmpty s.chan = false) :
    ∃ s', Called s .consumer s.chan (s.chan.elts (channelGet s.chan s.chan.rdIdx)) s' := by
  have given := call_given (idle.outside .consumer) idle.open_ some_
  have used := given.snoc (.read _ _ (.inl (ChanState.goto_pc ..)))
  obtain ⟨published, after⟩ := call_published idle .consumer
    (s.chan.elts (channelGet s.chan s.chan.rdIdx)) rfl
  rw [← goto_goto _ .consumer (.holding (channelGet s.chan s.chan.rdIdx))] at published
  exact ⟨_, used.trans published, after, rfl, rfl⟩

end Unhindered

/-- Three values are sent and two received; the ring of three slots has come round, and the
producer holds its first slot again beside the value still queued. -/
theorem channel_fifo_round : ∃ actors s,
    Steps ChanStep (ChanState.start 2 fun _ => (0 : Nat)) actors s ∧
      s.log .producer = [(0, 7), (1, 8), (2, 9)] ∧ s.log .consumer = [(0, 7), (1, 8)] ∧
      s.pc .producer = .holding 0 ∧ BoundedFifo 2 s := by
  have start : Idle (ChanState.start 2 fun _ => (0 : Nat)) := ⟨fun _ => rfl, rfl, rfl⟩
  obtain ⟨s₁, first⟩ := call_sends start rfl 7
  obtain ⟨s₂, second⟩ := call_sends first.idle (by rw [first.chan]; rfl) 8
  obtain ⟨s₃, taken⟩ := call_receives second.idle (by rw [second.chan, first.chan]; rfl)
  obtain ⟨s₄, third⟩ := call_sends taken.idle (by rw [taken.chan, second.chan, first.chan]; rfl) 9
  obtain ⟨s₅, next⟩ := call_receives third.idle
    (by rw [third.chan, taken.chan, second.chan, first.chan]; rfl)
  have chan := next.chan
  rw [third.chan, taken.chan, second.chan, first.chan] at chan
  have again := call_given (next.idle.outside .producer) next.idle.open_ (by rw [chan]; rfl)
  have run := ((((first.run.trans second.run).trans taken.run).trans third.run).trans
    next.run).trans again
  refine ⟨_, _, run, ?_, ?_, ?_, channel_fifo 2 (fun _ => 0) _ _ run⟩
  · change s₅.log .producer = _
    rw [next.log, third.log, taken.log, second.log, first.log, taken.chan, second.chan, first.chan]
    rfl
  · change s₅.log .consumer = _
    rw [next.log, third.log, taken.log, second.log, first.log, third.chan, taken.chan, second.chan,
      first.chan]
    rfl
  · rw [ChanState.goto_pc, chan]
    rfl

end Hairgap.Guarantees
