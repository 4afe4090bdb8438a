import Hairgap.Source.Channel

/-!
# Nobody sleeps for nothing

A side goes to sleep holding the mutex, and the other side moves its index under the same
mutex. The calls that poison a channel take no mutex: their signals can fall between the
last test of a side and its sleep, and are lost then.
-/
namespace Hairgap.Guarantees
open Hairgap.Base Hairgap.Source

section
variable {α : Type}

/-- Places inside the mutex. -/
def CallAt.locked : CallAt α → Bool
  | .waiting .testing | .waiting .falling | .waiting .leaving => true
  | .publishing _ _ .locking => false
  | .publishing _ _ _ => true
  | _ => false

/-- Behind a test that found the side blocked, until something wakes it. -/
def CallAt.drowsy : CallAt α → Bool
  | .waiting .falling | .waiting .asleep => true
  | _ => false

/-- About to move an index, with no signal to follow. -/
def CallAt.silent : CallAt α → Bool
  | .publishing _ _ (.moving false) => true
  | _ => false

/-- Behind the move of an index, with a signal to follow. -/
def CallAt.announcing : CallAt α → Bool
  | .publishing _ _ (.signalling true) => true
  | _ => false

/-- Signals that calls of `channel_poison` have sent to a side. -/
def ChanState.poisonSignals (s : ChanState α) : Side → Nat
  | .producer => s.signalled + s.returned
  | .consumer => s.returned

/-- A side that found the channel blocked has reason to sleep, or will be woken. -/
structure Awake (s : ChanState α) : Prop where
  exclusive : ∀ side, CallAt.locked (s.pc side) = true → s.mutex = some side
  flag : s.chan.poisoned = true ↔ 0 < s.stored + s.signalled + s.returned
  heard : ∀ side, 0 < ChanState.poisonSignals s side → CallAt.drowsy (s.pc side) = false
  blocked : ∀ side, CallAt.drowsy (s.pc side) = true → s.chan.poisoned = true ∨
    channelBlocks s.chan side = true ∨ CallAt.announcing (s.pc side.other) = true
  tested : ∀ side, CallAt.drowsy (s.pc side) = true →
    CallAt.silent (s.pc side.other) = true → s.chan.poisoned = true

/-- No signal of a `channel_poison` is sent to a side between its last test and its sleep. -/
def SignalHeard (s : ChanState α) : ChanActor → Prop
  | .signal side => s.pc side ≠ .waiting .falling
  | _ => True

variable {s s' : ChanState α}

/-- A blocked side is not poisoned. -/
theorem blocks_open {chan : Channel α} {side : Side} (blocks : channelBlocks chan side = true) :
    chan.poisoned = false := by
  cases side <;> simp_all [channelBlocks, channelIsFull, channelIsEmpty]

theorem CallAt.locked_of_silent {pc : CallAt α} (silent : CallAt.silent pc = true) :
    CallAt.locked pc = true := by
  cases pc with
  | publishing slot value p => cases p <;> simp_all [CallAt.silent, CallAt.locked]
  | _ => cases silent

/-- A signal leaves a side awake, unless it is on the way to its sleep. -/
theorem wake_rested (side : Side) (heard : s.pc side ≠ .waiting .falling) :
    CallAt.drowsy ((s.wake side).pc side) = false := by
  unfold ChanState.wake
  split
  · rw [ChanState.goto_pc]
    rfl
  next awake =>
    cases h : s.pc side with
    | waiting w => cases w <;> simp_all [CallAt.drowsy]
    | _ => rfl

theorem wake_pc_other (s : ChanState α) (side : Side) :
    (s.wake side).pc side.other = s.pc side.other := by
  unfold ChanState.wake
  split
  · exact ChanState.goto_pc_other s side _
  · rfl

/-- A signal leaves the counts of poison calls alone. -/
theorem wake_calls (s : ChanState α) (side : Side) :
    (s.wake side).stored = s.stored ∧ (s.wake side).signalled = s.signalled ∧
      (s.wake side).returned = s.returned := by
  unfold ChanState.wake
  split <;> exact ⟨rfl, rfl, rfl⟩

theorem wake_recount (s : ChanState α) (side : Side) (stored signalled returned : Nat) :
    { s with stored := stored, signalled := signalled, returned := returned }.wake side =
      { s.wake side with stored := stored, signalled := signalled, returned := returned } := by
  unfold ChanState.wake
  dsimp only
  split <;> rfl

namespace Awake
variable (awake : Awake s)
include awake

theorem poisoned_of_heard {side : Side} (heard : 0 < ChanState.poisonSignals s side) :
    s.chan.poisoned = true := by
  rw [awake.flag]
  cases side <;> simp only [ChanState.poisonSignals] at heard <;> omega

/-- The mutex as the other side needs it, behind a step that leaves it alone, takes it free,
or gives it back. -/
theorem keeps {side : Side} {mutex : Option Side}
    (moves : mutex = s.mutex ∨ s.mutex = none ∨ CallAt.locked (s.pc side) = true)
    (locked : CallAt.locked (s.pc side.other) = true) : mutex = some side.other := by
  have held := awake.exclusive side.other locked
  rcases moves with rfl | free | own
  · exact held
  · rw [free] at held
    cases held
  · rw [awake.exclusive side own] at held
    exact absurd (Option.some.inj held).symm side.other_ne

/-- A step of one side to another place. What it needs of its old and new place concerns
sleeping, and the signal it owes the other side. -/
theorem goto {side : Side} {at_ : CallAt α} (mutex : Option Side)
    (moves : mutex = s.mutex ∨ s.mutex = none ∨ CallAt.locked (s.pc side) = true)
    (locked : CallAt.locked at_ = true → mutex = some side)
    (asleep : CallAt.drowsy at_ = true → ¬ 0 < ChanState.poisonSignals s side ∧
      (s.chan.poisoned = true ∨ channelBlocks s.chan side = true ∨
        CallAt.announcing (s.pc side.other) = true) ∧
      (CallAt.silent (s.pc side.other) = true → s.chan.poisoned = true))
    (silent : CallAt.silent at_ = true → CallAt.drowsy (s.pc side.other) = true →
      s.chan.poisoned = true)
    (announced : CallAt.announcing (s.pc side) = true →
      CallAt.drowsy (s.pc side.other) = false) :
    Awake ({ s with mutex := mutex }.goto side at_) := by
  have split (side' : Side) : side' = side ∨ side' = side.other := by
    by_cases same : side' = side
    · exact .inl same
    · exact .inr (Side.eq_other same)
  refine ⟨?_, awake.flag, ?_, ?_, ?_⟩
  · intro side' h
    rcases split side' with rfl | rfl
    · rw [ChanState.goto_pc] at h
      exact locked h
    · rw [ChanState.goto_pc_other] at h
      exact awake.keeps moves h
  · intro side' h
    rcases split side' with rfl | rfl
    · rw [ChanState.goto_pc]
      exact Bool.eq_false_iff.mpr fun drowsy => (asleep drowsy).1 h
    · rw [ChanState.goto_pc_other]
      exact awake.heard _ h
  · intro side' h
    rcases split side' with rfl | rfl
    · rw [ChanState.goto_pc] at h
      rw [ChanState.goto_pc_other]
      exact (asleep h).2.1
    · rw [ChanState.goto_pc_other] at h
      rcases awake.blocked _ h with poisoned | blocks | announcing
      · exact .inl poisoned
      · exact .inr (.inl blocks)
      · rw [Side.other_other] at announcing
        rw [show CallAt.drowsy (s.pc side.other) = false from announced announcing] at h
        cases h
  · intro side' h still
    rcases split side' with rfl | rfl
    · rw [ChanState.goto_pc] at h
      rw [ChanState.goto_pc_other] at still
      exact (asleep h).2.2 still
    · rw [ChanState.goto_pc_other] at h
      rw [Side.other_other, ChanState.goto_pc] at still
      exact silent still h

/-- A step between places that have nothing to do with sleeping or signalling. -/
theorem calm {side : Side} {at_ : CallAt α} (mutex : Option Side)
    (moves : mutex = s.mutex ∨ s.mutex = none ∨ CallAt.locked (s.pc side) = true)
    (locked : CallAt.locked at_ = true → mutex = some side)
    (rested : CallAt.drowsy at_ = false) (silent : CallAt.silent at_ = false)
    (announced : CallAt.announcing (s.pc side) = false) :
    Awake ({ s with mutex := mutex }.goto side at_) :=
  awake.goto mutex moves locked (by simp [rested]) (by simp [silent]) (by simp [announced])

/-- The same for a step that leaves the mutex alone. -/
theorem stay {side : Side} {at_ : CallAt α}
    (locked : CallAt.locked at_ = true → CallAt.locked (s.pc side) = true)
    (rested : CallAt.drowsy at_ = false) (silent : CallAt.silent at_ = false)
    (announced : CallAt.announcing (s.pc side) = false) : Awake (s.goto side at_) :=
  awake.calm s.mutex (.inl rfl) (fun h => awake.exclusive side (locked h)) rested silent announced

theorem wake (side : Side) : Awake (s.wake side) := by
  unfold ChanState.wake
  split
  next asleep => exact awake.stay nofun rfl rfl (by rw [asleep]; rfl)
  next => exact awake

/-- What the signals of a call of `channel_poison` do to the counts. -/
theorem recount (stored signalled returned : Nat)
    (calls : stored + signalled + returned = s.stored + s.signalled + s.returned)
    (heard : ∀ side, 0 < ChanState.poisonSignals { s with
      stored := stored, signalled := signalled, returned := returned } side →
        CallAt.drowsy (s.pc side) = false) :
    Awake { s with stored := stored, signalled := signalled, returned := returned } :=
  ⟨awake.exclusive, by rw [calls]; exact awake.flag, heard, awake.blocked, awake.tested⟩

/-- The other side is not inside the mutex. -/
theorem apart {side : Side} (own : CallAt.locked (s.pc side) = true)
    (other : CallAt.locked (s.pc side.other) = true) : False := by
  have held := awake.exclusive side.other other
  rw [awake.exclusive side own] at held
  exact side.other_ne (Option.some.inj held).symm

theorem filled (slot : Nat) (value : α) :
    Awake { s with chan := s.chan.filled slot value } := by
  refine ⟨awake.exclusive, awake.flag, awake.heard, ?_, awake.tested⟩
  intro side drowsy
  cases side <;> exact awake.blocked _ drowsy

/-- The locked index update is announced whenever it can end a wait. -/
theorem move {side : Side} {slot : Nat} {value : α} {was : Bool}
    (at_ : s.pc side = .publishing slot value (.moving was)) :
    Awake ((s.publish side slot value).goto side (.publishing slot value (.signalling was))) := by
  have own : CallAt.locked (s.pc side) = true := by rw [at_]; rfl
  have split (side' : Side) : side' = side ∨ side' = side.other := by
    by_cases same : side' = side
    · exact .inl same
    · exact .inr (Side.eq_other same)
  have poisoned : (s.publish side slot value).chan.poisoned = s.chan.poisoned := by
    cases side <;> rfl
  have other : (s.publish side slot value).pc side.other = s.pc side.other := rfl
  refine ⟨?_, ?_, ?_, ?_, ?_⟩
  · intro side' h
    rcases split side' with rfl | rfl
    · exact awake.exclusive _ own
    · rw [ChanState.goto_pc_other, other] at h
      exact (awake.apart own h).elim
  · exact Iff.trans (by rw [← poisoned]; rfl) awake.flag
  · intro side' h
    rcases split side' with rfl | rfl
    · rw [ChanState.goto_pc]
      rfl
    · rw [ChanState.goto_pc_other, other]
      exact awake.heard side.other h
  · intro side' h
    rcases split side' with rfl | rfl
    · rw [ChanState.goto_pc] at h
      cases h
    · rw [ChanState.goto_pc_other, other] at h
      cases was with
      | true => exact .inr (.inr (by rw [Side.other_other, ChanState.goto_pc]; rfl))
      | false =>
        refine .inl (poisoned.trans (awake.tested side.other h ?_))
        rw [Side.other_other, at_]
        rfl
  · intro side' h still
    rcases split side' with rfl | rfl
    · rw [ChanState.goto_pc] at h
      cases h
    · rw [Side.other_other, ChanState.goto_pc] at still
      cases still

/-- Every step keeps the invariant, as long as the signals of poison calls are heard. -/
theorem step {actor : ChanActor} (step : ChanStep s actor s') (signal : SignalHeard s actor) :
    Awake s' := by
  cases step with
  | refuse => exact awake
  | enter side at_ => exact awake.stay nofun rfl rfl (by rw [at_]; rfl)
  | pass side at_ => exact awake.stay nofun rfl rfl (by rw [at_]; rfl)
  | block side at_ => exact awake.stay nofun rfl rfl (by rw [at_]; rfl)
  | lock side at_ unlocked =>
    refine awake.calm _ (.inr (.inl unlocked)) (fun _ => rfl) rfl rfl ?_
    rcases at_ with at_ | at_ <;> rw [at_] <;> rfl
  | retestFree side at_ =>
    exact awake.stay (fun _ => by rw [at_]; rfl) rfl rfl (by rw [at_]; rfl)
  | retestBlocked side at_ blocks =>
    have own : CallAt.locked (s.pc side) = true := by rw [at_]; rfl
    have open_ := blocks_open blocks
    refine awake.goto s.mutex (.inl rfl) (fun _ => awake.exclusive side own) (fun _ => ⟨?_, ?_, ?_⟩)
      nofun (by rw [at_]; nofun)
    · intro heard
      rw [awake.poisoned_of_heard heard] at open_
      cases open_
    · exact .inr (.inl blocks)
    · exact fun silent => (awake.apart own (CallAt.locked_of_silent silent)).elim
  | sleep side at_ =>
    have drowsy : CallAt.drowsy (s.pc side) = true := by rw [at_]; rfl
    refine awake.goto none (.inr (.inr (by rw [at_]; rfl))) nofun (fun _ => ⟨?_, ?_, ?_⟩)
      nofun (by rw [at_]; nofun)
    · intro heard
      rw [awake.heard side heard] at drowsy
      cases drowsy
    · exact awake.blocked side drowsy
    · exact awake.tested side drowsy
  | spurious side at_ => exact awake.stay nofun rfl rfl (by rw [at_]; rfl)
  | leave side at_ =>
    exact awake.calm _ (.inr (.inr (by rw [at_]; rfl))) nofun rfl rfl (by rw [at_]; rfl)
  | drop side at_ => exact awake.stay nofun rfl rfl (by rw [at_]; rfl)
  | give side at_ => exact awake.stay nofun rfl rfl (by rw [at_]; rfl)
  | fill slot value at_ =>
    refine (awake.filled slot value).stay nofun rfl rfl ?_
    rcases at_ with at_ | ⟨old, at_⟩ <;> rw [at_] <;> rfl
  | read slot at_ =>
    refine awake.stay nofun rfl rfl ?_
    rcases at_ with at_ | ⟨old, at_⟩ <;> rw [at_] <;> rfl
  | abandon side slot at_ =>
    refine awake.stay nofun rfl rfl ?_
    rcases at_ with at_ | ⟨value, at_⟩ <;> rw [at_] <;> rfl
  | reject side slot value at_ => exact awake.stay nofun rfl rfl (by rw [at_]; rfl)
  | accept side slot value at_ => exact awake.stay nofun rfl rfl (by rw [at_]; rfl)
  | lockMove side slot value at_ unlocked =>
    exact awake.calm _ (.inr (.inl unlocked)) (fun _ => rfl) rfl rfl (by rw [at_]; rfl)
  | test side slot value at_ =>
    have own : CallAt.locked (s.pc side) = true := by rw [at_]; rfl
    refine awake.goto s.mutex (.inl rfl) (fun _ => awake.exclusive side own) nofun ?_
      (by rw [at_]; nofun)
    intro silent drowsy
    rcases awake.blocked side.other drowsy with poisoned | blocks | announcing
    · exact poisoned
    · rw [blocks] at silent
      cases silent
    · rw [Side.other_other, at_] at announcing
      cases announcing
  | move side slot value was at_ => exact awake.move at_
  | signal side slot value was at_ =>
    have own : CallAt.locked (s.pc side) = true := by rw [at_]; rfl
    cases was with
    | false => exact awake.stay (fun _ => own) rfl rfl (by rw [at_]; rfl)
    | true =>
      -- whom the signal finds on the way to its sleep would be inside the mutex
      have rested : CallAt.drowsy ((s.wake side.other).pc side.other) = false := by
        refine wake_rested side.other fun falling => ?_
        exact awake.apart own (by rw [falling]; rfl)
      have still : (s.wake side.other).pc side = s.pc side := by
        simpa using wake_pc_other s side.other
      have held := (awake.wake side.other).exclusive side (by rw [still]; exact own)
      exact (awake.wake side.other).goto _ (.inl rfl) (fun _ => held) nofun nofun fun _ => rested
  | unlock side slot value at_ =>
    exact awake.calm _ (.inr (.inr (by rw [at_]; rfl))) nofun rfl rfl (by rw [at_]; rfl)
  | store =>
    refine ⟨awake.exclusive, ?_, awake.heard, fun _ _ => .inl rfl, fun _ _ _ => rfl⟩
    simp only [true_iff]
    omega
  | signalSend calls pending =>
    rw [wake_recount s]
    refine (awake.wake .producer).recount _ _ _ (by simp only [wake_calls]; omega) ?_
    intro side heard
    cases side with
    | producer => exact wake_rested .producer signal
    | consumer =>
      refine (awake.wake .producer).heard .consumer ?_
      simpa [ChanState.poisonSignals, wake_calls] using heard
  | signalRecv calls pending =>
    rw [wake_recount s]
    refine (awake.wake .consumer).recount _ _ _ (by simp only [wake_calls]; omega) ?_
    intro side heard
    cases side with
    | producer =>
      refine (awake.wake .consumer).heard .producer ?_
      simp only [ChanState.poisonSignals, wake_calls] at heard ⊢
      omega
    | consumer => exact wake_rested .consumer signal

end Awake

theorem awake_start (capacity : Nat) (elts : Nat → α) : Awake (ChanState.start capacity elts) := by
  refine ⟨nofun, ?_, fun _ _ => rfl, nofun, nofun⟩
  simp [ChanState.start, channelNew]

/-- The invariant in every state reached by steps whose poison signals are heard. -/
theorem awake_run {capacity : Nat} {elts : Nat → α} {actors : List ChanActor}
    (run : Steps (Guarded SignalHeard ChanStep) (ChanState.start capacity elts) actors s) :
    Awake s :=
  run.invariant (fun _ s => Awake s) (awake_start capacity elts)
    fun _ _ _ _ awake step => awake.step step.1 step.2

/-- No send, ack or poison call is in progress. -/
structure Settled (s : ChanState α) : Prop where
  published : ∀ side slot value p, s.pc side ≠ .publishing slot value p
  stored : s.stored = 0
  signalled : s.signalled = 0

/-- Who sleeps while no call is in progress has reason to, and behind a call of
`channel_poison` that has returned nobody sleeps, in every run in which no signal of such a
call falls between the last test of a side and its sleep. -/
theorem wakeups_kept (capacity : Nat) (elts : Nat → α) (actors : List ChanActor)
    (s : ChanState α)
    (run : Steps (Guarded SignalHeard ChanStep) (ChanState.start capacity elts) actors s) :
    (Settled s →
      (s.pc .producer = .waiting .asleep →
        channelIsFull s.chan = true ∧ s.chan.poisoned = false) ∧
      (s.pc .consumer = .waiting .asleep →
        channelIsEmpty s.chan = true ∧ s.chan.poisoned = false)) ∧
    (0 < s.returned → ∀ side, s.pc side ≠ .waiting .asleep) := by
  have awake := awake_run run
  have returned (h : 0 < s.returned) (side : Side) : s.pc side ≠ .waiting .asleep := by
    intro asleep
    have rested : CallAt.drowsy (s.pc side) = false := by
      refine awake.heard side ?_
      cases side <;> simp only [ChanState.poisonSignals] <;> omega
    rw [asleep] at rested
    cases rested
  have reason (settled : Settled s) (side : Side) (asleep : s.pc side = .waiting .asleep) :
      channelBlocks s.chan side = true ∧ s.chan.poisoned = false := by
    have open_ : ¬ s.chan.poisoned = true := by
      rw [awake.flag, settled.stored, settled.signalled]
      intro h
      exact returned (by omega) side asleep
    rcases awake.blocked side (by rw [asleep]; rfl) with poisoned | blocks | announcing
    · exact absurd poisoned open_
    · exact ⟨blocks, blocks_open blocks⟩
    · cases h : s.pc side.other with
      | publishing slot value p => exact absurd h (settled.published _ _ _ _)
      | _ => simp [h, CallAt.announcing] at announcing
  exact ⟨fun settled => ⟨reason settled .producer, reason settled .consumer⟩, returned⟩

end

/-- The consumer goes to sleep on a new channel, is woken by an element, takes it and goes to sleep
again. A call of `channel_poison` then wakes it for good. -/
theorem wakeups_kept_woken :
    ∃ actors s s', Steps (Guarded SignalHeard ChanStep) (ChanState.start 1 fun _ => (0 : Nat))
        actors s ∧
      Settled s ∧ s.log .consumer = [(0, 7)] ∧ s.pc .consumer = .waiting .asleep ∧
      (channelIsEmpty s.chan = true ∧ s.chan.poisoned = false) ∧
      Steps (Guarded SignalHeard ChanStep) (ChanState.start 1 fun _ => (0 : Nat))
        (actors ++ [.store] ++ [.signal .producer] ++ [.signal .consumer]) s' ∧
      s'.returned = 1 ∧ ∀ side, s'.pc side ≠ .waiting .asleep := by
  have run : Steps (Guarded SignalHeard ChanStep) (ChanState.start 1 fun _ => (0 : Nat)) [] _ :=
    .nil _
  have run := run.snoc ⟨.enter _ .consumer rfl rfl, trivial⟩
  have run := run.snoc ⟨.block _ .consumer rfl rfl, trivial⟩
  have run := run.snoc ⟨.lock _ .consumer (.inl rfl) rfl, trivial⟩
  have run := run.snoc ⟨.retestBlocked _ .consumer rfl rfl, trivial⟩
  have run := run.snoc ⟨.sleep _ .consumer rfl, trivial⟩
  -- the producer publishes 7 and signals
  have run := run.snoc ⟨.enter _ .producer rfl rfl, trivial⟩
  have run := run.snoc ⟨.pass _ .producer rfl rfl, trivial⟩
  have run := run.snoc ⟨.give _ .producer rfl rfl, trivial⟩
  have run := run.snoc ⟨.fill _ 0 7 (.inl rfl), trivial⟩
  have run := run.snoc ⟨.accept _ .producer 0 7 rfl rfl rfl, trivial⟩
  have run := run.snoc ⟨.lockMove _ .producer 0 7 rfl rfl, trivial⟩
  have run := run.snoc ⟨.test _ .producer 0 7 rfl, trivial⟩
  have run := run.snoc ⟨.move _ .producer 0 7 true rfl, trivial⟩
  have run := run.snoc ⟨.signal _ .producer 0 7 true rfl, trivial⟩
  have run := run.snoc ⟨.unlock _ .producer 0 7 rfl, trivial⟩
  -- the consumer wakes up, takes it and signals
  have run := run.snoc ⟨.lock _ .consumer (.inr rfl) rfl, trivial⟩
  have run := run.snoc ⟨.retestFree _ .consumer rfl rfl, trivial⟩
  have run := run.snoc ⟨.leave _ .consumer rfl, trivial⟩
  have run := run.snoc ⟨.give _ .consumer rfl rfl, trivial⟩
  have run := run.snoc ⟨.read _ 0 (.inl rfl), trivial⟩
  have run := run.snoc ⟨.accept _ .consumer 0 7 rfl rfl rfl, trivial⟩
  have run := run.snoc ⟨.lockMove _ .consumer 0 7 rfl rfl, trivial⟩
  have run := run.snoc ⟨.test _ .consumer 0 7 rfl, trivial⟩
  have run := run.snoc ⟨.move _ .consumer 0 7 true rfl, trivial⟩
  have run := run.snoc ⟨.signal _ .consumer 0 7 true rfl, trivial⟩
  have run := run.snoc ⟨.unlock _ .consumer 0 7 rfl, trivial⟩
  have run := run.snoc ⟨.enter _ .consumer rfl rfl, trivial⟩
  have run := run.snoc ⟨.block _ .consumer rfl rfl, trivial⟩
  have run := run.snoc ⟨.lock _ .consumer (.inl rfl) rfl, trivial⟩
  have run := run.snoc ⟨.retestBlocked _ .consumer rfl rfl, trivial⟩
  have run := run.snoc ⟨.sleep _ .consumer rfl, trivial⟩
  have kept := (wakeups_kept 1 (fun _ => 0) _ _ run).1
    ⟨fun side => by cases side <;> nofun, rfl, rfl⟩
  have poisoned := run.snoc ⟨.store _, trivial⟩
  have poisoned := poisoned.snoc ⟨.signalSend _ 0 rfl, nofun⟩
  have poisoned := poisoned.snoc ⟨.signalRecv _ 0 rfl, nofun⟩
  have woken := (wakeups_kept 1 (fun _ => 0) _ _ poisoned).2 Nat.one_pos
  exact ⟨_, _, _, run, ⟨fun side => by cases side <;> nofun, rfl, rfl⟩, rfl, rfl, kept.2 rfl,
    poisoned, rfl, woken⟩

/-- A whole call of `channel_poison` between the last test of the consumer and its sleep:
the consumer sleeps on a poisoned channel, and nobody is left to wake it. -/
theorem poison_unheard :
    ∃ actors s, Steps ChanStep (ChanState.start 1 fun _ => (0 : Nat)) actors s ∧
      Settled s ∧ s.returned = 1 ∧ s.pc .consumer = .waiting .asleep ∧
      s.chan.poisoned = true := by
  have run := (Steps.nil (ChanState.start 1 fun _ => (0 : Nat))).snoc
    (ChanStep.enter _ .consumer rfl rfl)
  have run := run.snoc (.block _ .consumer rfl rfl)
  have run := run.snoc (.lock _ .consumer (.inl rfl) rfl)
  have run := run.snoc (.retestBlocked _ .consumer rfl rfl)
  have run := run.snoc (.store _)
  have run := run.snoc (.signalSend _ 0 rfl)
  have run := run.snoc (.signalRecv _ 0 rfl)
  have run := run.snoc (.sleep _ .consumer rfl)
  exact ⟨_, _, run, ⟨fun side => by cases side <;> nofun, rfl, rfl⟩, rfl, rfl, rfl⟩

end Hairgap.Guarantees
