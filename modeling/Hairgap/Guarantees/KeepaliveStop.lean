import Hairgap.Guarantees.SendPipeline
import Hairgap.Source.RepetitionCode

/-!
# The keepalive thread and the end of its sender

`hgap_sender_free` clears a flag that the keepalive thread looks at between two packets, and waits
for the thread before it frees what both share.
-/
namespace Hairgap.Guarantees
open Hairgap.Base Hairgap.Source

section
variable {S : Type}

/-- The flag is cleared, or there is no sender any more. -/
def Stopping (s : SenderState S) : Prop :=
  match s.sender with
  | some hs => hs.cont = false
  | none => s.main ≠ .creating

/-- Packets the thread still sends before it looks at the cleared flag. -/
def stray (s : SenderState S) : Nat :=
  match s.sender with
  | some ⟨false, .sleeping⟩ | some ⟨false, .sending⟩ => 1
  | _ => 0

def keepalivesOf (events : List SendEvent) : Nat :=
  events.count (.keepalive (hgapWriteHeader hgapHeaderKeepalive))

/-- Who has what of the sender: the thread runs while its flag is set or it is waited for. -/
structure KeepOk (s : SenderState S) : Prop where
  opening : s.main = .creating → s.sender = none
  ended : ∀ hs, s.sender = some hs → hs.cont = false →
    hs.thread = .ended ∨ ∃ retval, s.main = .joinKeepalive retval

variable {wh : Wirehair S} {config : HgapConfig} {file : Input} {keepalive : UInt32}
  {events : List SendEvent} {event : SendEvent} {s s' : SenderState S}
  {read : Queue (Option Bytes)} {passed passed' : Queue (Option (HgapEncChunk S))}

/-- What the keepalive thread can do in one step. -/
theorem keepaliveLoop_cases {answer : Bool} (step : keepaliveLoopStep answer s = some (event, s')) :
    ∃ hs, s.sender = some hs ∧ s'.main = s.main ∧
      (hs.thread = .testing ∧ event = .quiet ∧
          s'.sender = some { hs with thread := if hs.cont then .sleeping else .ended } ∨
        hs.thread = .sleeping ∧ event = .quiet ∧ s'.sender = some { hs with thread := .sending } ∨
        hs.thread = .sending ∧ event = .keepalive (hgapWriteHeader hgapHeaderKeepalive) ∧
          s'.sender = some { hs with thread := .testing } ∨
        hs.thread = .sending ∧ event = .keepaliveError ∧ s'.sender = some hs) := by
  unfold keepaliveLoopStep at step
  split at step
  next => cases step
  next hs made =>
    refine ⟨hs, made, ?_⟩
    cases at_ : hs.thread with
    | testing =>
      simp only [at_, Option.some.injEq, Prod.mk.injEq] at step
      obtain ⟨rfl, rfl⟩ := step
      exact ⟨rfl, .inl ⟨rfl, rfl, rfl⟩⟩
    | sleeping =>
      simp only [at_, Option.some.injEq, Prod.mk.injEq] at step
      obtain ⟨rfl, rfl⟩ := step
      exact ⟨rfl, .inr (.inl ⟨rfl, rfl, rfl⟩)⟩
    | sending =>
      simp only [at_] at step
      split at step
      · obtain ⟨rfl, rfl⟩ := Prod.mk.inj (Option.some.inj step)
        exact ⟨rfl, .inr (.inr (.inl ⟨rfl, rfl, rfl⟩))⟩
      · obtain ⟨rfl, rfl⟩ := Prod.mk.inj (Option.some.inj step)
        exact ⟨rfl, .inr (.inr (.inr ⟨rfl, rfl, made⟩))⟩
    | ended => simp only [at_, reduceCtorEq] at step

/-- What a step can do to the sender: nothing, or one of four things that concern the thread. -/
inductive KeepCase (keepalive : UInt32) (s : SenderState S) (event : SendEvent)
    (s' : SenderState S) : Prop
  | aside (quiet : keepalivesOf [event] = 0) (sender : s'.sender = s.sender)
      (main : s'.main = s.main ∨ s'.main ≠ .creating ∧ ∀ retval, s.main ≠ .joinKeepalive retval)
  | created (quiet : keepalivesOf [event] = 0) (at_ : s.main = .creating)
      (main : s'.main ≠ .creating) (sender : s'.sender = some (hgapSenderNew keepalive))
  | stops (quiet : keepalivesOf [event] = 0) (hs : HgapSender) (made : s.sender = some hs)
      (runs : hs.cont = true) (retval : Hgap) (main : s'.main = .joinKeepalive retval)
      (sender : s'.sender = some { hs with cont := false })
  | freed (quiet : keepalivesOf [event] = 0) (hs : HgapSender) (made : s.sender = some hs)
      (cleared : hs.thread = .ended ∨ hs.cont = false ∧ ∀ retval, s.main ≠ .joinKeepalive retval)
      (main : s'.main ≠ .creating) (sender : s'.sender = none)
  | thread (answer : Bool) (step : keepaliveLoopStep answer s = some (event, s'))

theorem Upstream.keepCase (move : Upstream s event s') : KeepCase keepalive s event s' := by
  refine .aside ?_ move.sender (.inl move.main)
  cases event with
  | quiet | read | readError | encoded | encodeError => rfl
  | _ => cases move.event

theorem SendOk.keepCase (pos : 0 < config.bufSize)
    (ok : SendOk wh config file events s read passed)
    (step : SenderStep wh config keepalive s event s') : KeepCase keepalive s event s' := by
  obtain ⟨actor, step⟩ := step
  unfold senderStep at step
  split at step
  · cases step
  cases actor with
  | read =>
    obtain ⟨_, -, move⟩ := ok.readLoop pos step
    exact move.keepCase
  | encode =>
    obtain ⟨_, _, -, -, move⟩ := ok.encodeLoop step
    exact move.keepCase
  | send answer =>
    obtain ⟨_, -, move⟩ := ok.sendLoop answer step
    cases move with
    | created at_ => exact .created rfl at_ (by rintro ⟨⟩) rfl
    | uncreated at_ | handwaved at_ | cramped at_ | waved _ at_ | unwaved _ _ at_ | poison _ at_
    | chunk _ at_ | tearsDown _ at_ | uncontrolled _ at_ | torn _ _ at_ | untorn _ _ _ at_
    | joinsRead _ _ at_ | joinsEncode _ _ at_ =>
      refine .aside rfl rfl (.inr ⟨by rintro ⟨⟩, fun retval join => ?_⟩)
      cases at_.symm.trans join
    | waves pkt left at_ | tears pkt left _ at_ =>
      have quiet : keepalivesOf [.control pkt] = 0 := List.count_eq_zero.mpr (by simp)
      refine .aside quiet rfl (.inr ⟨by rintro ⟨⟩, fun retval join => ?_⟩)
      cases at_.symm.trans join
    | emits chunk failed at_ e =>
      have quiet : keepalivesOf
          [if e.failed then .emitError else .emitted chunk.num chunk.len e.redund e.datagrams] = 0 := by
        refine List.count_eq_zero.mpr ?_
        split <;> simp
      refine .aside quiet rfl (.inr ⟨?_, fun retval join => by cases at_.symm.trans join⟩)
      dsimp only
      split
      · rintro ⟨⟩
      · split
        all_goals rintro ⟨⟩
    | stuck | unmade => exact .aside rfl rfl (.inl rfl)
    | stops retval at_ hs made runs => exact .stops rfl hs made runs retval rfl rfl
    | frees retval at_ hs made cleared =>
      refine .freed rfl hs made (.inr ⟨cleared, fun retval join => ?_⟩) (by rintro ⟨⟩) rfl
      cases at_.symm.trans join
    | joinsKeepalive retval at_ =>
      have step : sendLoopStep wh config keepalive answer s = _ := step
      simp only [sendLoopStep, at_] at step
      split at step
      next made => exact .freed rfl _ made (.inl rfl) (by rintro ⟨⟩) rfl
      next => cases step
  | keepalive answer => exact .thread answer step

theorem KeepCase.ok (keep : KeepOk s) (case : KeepCase keepalive s event s') : KeepOk s' := by
  cases case with
  | aside _ sender main =>
    constructor
    · intro opening
      rcases main with same | ⟨made, -⟩
      · exact sender.trans (keep.opening (same ▸ opening))
      · exact absurd opening made
    · intro hs made cleared
      rw [sender] at made
      rcases keep.ended hs made cleared with ended | ⟨retval, joins⟩
      · exact .inl ended
      · rcases main with same | ⟨-, other⟩
        · exact .inr ⟨retval, same.trans joins⟩
        · exact absurd joins (other retval)
  | created _ _ main sender =>
    constructor
    · exact fun opening => absurd opening main
    · intro hs made cleared
      obtain rfl := Option.some.inj (sender.symm.trans made)
      unfold hgapSenderNew at cleared ⊢
      split at cleared
      next none_ =>
        rw [if_pos none_]
        exact .inl rfl
      next => cases cleared
  | stops _ hs _ _ retval main =>
    constructor
    · intro opening
      cases main.symm.trans opening
    · exact fun _ _ _ => .inr ⟨retval, main⟩
  | freed _ _ _ _ main sender =>
    constructor
    · exact fun opening => absurd opening main
    · intro hs made
      cases sender.symm.trans made
  | thread answer step =>
    obtain ⟨hs, made, main, move⟩ := keepaliveLoop_cases step
    constructor
    · intro opening
      cases made.symm.trans (keep.opening (main ▸ opening))
    · -- the thread takes no step behind its end
      intro hs' made' cleared
      have joins (cleared : hs.cont = false) (runs : hs.thread ≠ .ended) :
          ∃ retval, s'.main = .joinKeepalive retval := by
        rw [main]
        exact (keep.ended hs made cleared).resolve_left runs
      rcases move with ⟨at_, -, sender⟩ | ⟨at_, -, sender⟩ | ⟨at_, -, sender⟩ | ⟨at_, -, sender⟩
      all_goals
        obtain rfl := Option.some.inj (sender.symm.trans made')
        exact .inr (joins cleared (by rw [at_]; exact KeepaliveAt.noConfusion))

/-- Behind the cleared flag the packets of the thread are counted. -/
theorem KeepCase.counted (keep : KeepOk s) (stopping : Stopping s)
    (case : KeepCase keepalive s event s') :
    Stopping s' ∧ keepalivesOf [event] + stray s' ≤ stray s := by
  cases case with
  | aside quiet sender main =>
    rw [quiet, Nat.zero_add, stray, sender, ← stray]
    refine ⟨?_, Nat.le_refl _⟩
    unfold Stopping at stopping ⊢
    rw [sender]
    cases made : s.sender with
    | some hs =>
      rw [made] at stopping
      exact stopping
    | none =>
      rw [made] at stopping
      rcases main with same | ⟨other, -⟩
      · rw [same]
        exact stopping
      · exact other
  | created _ at_ =>
    rw [Stopping, keep.opening at_] at stopping
    exact absurd at_ stopping
  | stops _ hs made runs =>
    rw [Stopping, made] at stopping
    cases runs.symm.trans stopping
  | freed quiet hs made cleared main sender =>
    rw [quiet, Stopping, stray, sender]
    exact ⟨main, Nat.zero_le _⟩
  | thread answer step =>
    obtain ⟨⟨cont, thread⟩, made, main, move⟩ := keepaliveLoop_cases step
    rw [Stopping, made] at stopping
    obtain rfl : cont = false := stopping
    rcases move with ⟨at_, rfl, sender⟩ | ⟨at_, rfl, sender⟩ | ⟨at_, rfl, sender⟩ |
      ⟨at_, rfl, sender⟩
    all_goals
      obtain rfl : thread = _ := at_
      rw [Stopping, stray, stray, sender, made]
      exact ⟨rfl, by decide⟩

/-- The sender is not freed under its keepalive thread, and behind the cleared flag the thread
sends no more than the packet it was already waiting to send. -/
theorem keepalive_stops (host : Host) (accepted : hgapCheckConfigSender host config = .success)
    (slots : Nat → Option Bytes) (pointers : Nat → Option (HgapEncChunk S))
    (run : Steps (SenderStep wh config keepalive) (.start config file slots pointers) events s) :
    (∀ hs event s', s.sender = some hs → SenderStep wh config keepalive s event s' →
      s'.sender = none → hs.thread = .ended) ∧
    (Stopping s → ∀ later s', Steps (SenderStep wh config keepalive) s later s' →
      keepalivesOf later ≤ stray s) := by
  have pos := (config.sound host accepted).bufSize_pos
  have given := checkConfigSender_inFile host accepted
  -- the accounts of the other threads say which steps there are
  have reached {events : List SendEvent} {s : SenderState S}
      (run : Steps (SenderStep wh config keepalive) (.start config file slots pointers) events s) :
      ∃ read passed, SendOk wh config file events s read passed ∧ KeepOk s :=
    send_run pos given (fun _ _ => True) (fun _ s _ => KeepOk s)
      ⟨fun _ => rfl, fun _ made => by cases made⟩
      (fun _ _ _ _ _ _ _ ok keep _ step _ => (ok.keepCase pos step).ok keep)
      (run.guard_labels fun _ _ _ => trivial)
  constructor
  · intro hs event s' made step freed
    obtain ⟨_, _, ok, keep⟩ := reached run
    cases ok.keepCase pos step with
    | aside _ sender => cases (made.symm.trans sender.symm).trans freed
    | created _ _ _ sender => cases sender.symm.trans freed
    | stops _ _ _ _ _ _ sender => cases sender.symm.trans freed
    | freed _ hs' made' cleared =>
      obtain rfl := Option.some.inj (made.symm.trans made')
      rcases cleared with ended | ⟨cleared, joins⟩
      · exact ended
      · exact (keep.ended hs made cleared).resolve_right fun ⟨retval, at_⟩ => joins retval at_
    | thread _ step =>
      obtain ⟨_, _, _, move⟩ := keepaliveLoop_cases step
      rcases move with ⟨-, -, sender⟩ | ⟨-, -, sender⟩ | ⟨-, -, sender⟩ | ⟨-, -, sender⟩
      all_goals cases sender.symm.trans freed
  · intro stopping later s' after
    have counted : Steps (SenderStep wh config keepalive) (.start config file slots pointers)
        (events ++ later) s' ∧ Stopping s' ∧ keepalivesOf later + stray s' ≤ stray s := by
      refine after.invariant (fun later s' =>
        Steps (SenderStep wh config keepalive) (.start config file slots pointers)
          (events ++ later) s' ∧ Stopping s' ∧ keepalivesOf later + stray s' ≤ stray s) ?_ ?_
      · rw [List.append_nil]
        exact ⟨run, stopping, Nat.le_of_eq (Nat.zero_add _)⟩
      · rintro later t event u ⟨run, stopping, count⟩ step
        obtain ⟨_, _, ok, keep⟩ := reached run
        obtain ⟨stopping, next⟩ := (ok.keepCase pos step).counted keep stopping
        rw [← List.append_assoc]
        refine ⟨.snoc run step, stopping, ?_⟩
        rw [keepalivesOf, List.count_append, ← keepalivesOf, ← keepalivesOf]
        omega
    exact Nat.le_trans (Nat.le_add_right _ _) counted.2.2

end

section Late

/-- The handwave fails while the thread sleeps. -/
private def failedHandwave : List SendActor :=
  [.send true, .send true, .keepalive true, .send false, .send true]

/-- A keepalive behind the cleared flag. -/
theorem keepalive_stops_late : ∃ events s later s',
    Steps (SenderStep RepetitionCode.code .smallest 500)
      (.start .smallest ⟨[], false⟩ (fun _ => none) (fun _ => none)) events s ∧
    Stopping s ∧ Steps (SenderStep RepetitionCode.code .smallest 500) s later s' ∧
    keepalivesOf later = 1 := by
  have accepted : hgapCheckConfigSender ⟨fun _ => 0, fun _ => false⟩ .smallest = .success := by
    decide
  have run : ((scheduled (senderStep RepetitionCode.code .smallest 500)
      (.start .smallest ⟨[], false⟩ (fun _ => none) (fun _ => none)) failedHandwave).bind
      fun (_, s) => (scheduled (senderStep RepetitionCode.code .smallest 500) s
        [.keepalive true, .keepalive true]).map fun (later, _) =>
          decide (s.sender = some ⟨false, .sleeping⟩ ∧ 1 ≤ keepalivesOf later)) = some true := by
    decide +kernel
  obtain ⟨⟨events, s⟩, first, rest⟩ := Option.bind_eq_some_iff.mp run
  obtain ⟨⟨later, s'⟩, second, told⟩ := Option.map_eq_some_iff.mp rest
  obtain ⟨sender, sent⟩ := of_decide_eq_true told
  have stopping : Stopping s := by
    rw [Stopping, sender]
  have steps := scheduled_steps second
  have count := (keepalive_stops _ accepted _ _ (scheduled_steps first)).2 stopping later s' steps
  rw [stray, sender] at count
  exact ⟨events, s, later, s', scheduled_steps first, stopping, steps, Nat.le_antisymm count sent⟩

end Late

end Hairgap.Guarantees
