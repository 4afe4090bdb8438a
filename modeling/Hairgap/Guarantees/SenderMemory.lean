import Hairgap.Guarantees.ProperTeardown
import Mathlib.Algebra.Order.BigOperators.Group.List

/-!
# How much of the input the sender holds

Both channels are short, and a chunk is given up behind its last packet. However slow the network
is, the sender reads no further ahead of it than the channels reach.
-/
namespace Hairgap.Guarantees
open Hairgap.Base Hairgap.Source

section
variable {S : Type} {wh : Wirehair S} {config : HgapConfig} {file : Input}
  {events : List SendEvent} {event : SendEvent} {s s' : SenderState S}
  {read : Queue (Option Bytes)} {passed passed' : Queue (Option (HgapEncChunk S))}
  {keepalive : UInt32}

/-- `read_loop` fills slots of its channel only. -/
theorem SendOk.reads_ahead (ok : SendOk wh config file events s read passed) :
    (readsOf events).length ≤ read.taken + sendChanSize := by
  have reads := congrArg List.length ok.reads
  have sent := congrArg List.length ok.sent
  have bound := ok.in2enc.bound
  rw [List.length_append, List.length_map] at reads
  rw [List.length_append] at sent
  cases at_ : s.reader with
  | reserving | reading | poisoning | resetting | closing | done =>
    simp only [unread, unsent, at_, List.length_cons, List.length_nil] at reads sent
    omega
  | sending slot eof =>
    obtain ⟨-, room⟩ := ok.readSlot slot (by rw [slotToFill, at_])
    unfold Queue.HasRoom at room
    cases eof with
    | true =>
      simp only [unread, unsent, at_, if_true, List.length_cons, List.length_nil] at reads sent
      omega
    | false =>
      simp only [unread, unsent, at_, Bool.false_eq_true, if_false, List.length_cons] at reads sent
      omega

/-- `encode_loop` gives a buffer back behind its chunk. -/
theorem SendOk.acked_passed (ok : SendOk wh config file events s read passed) :
    read.taken ≤ passed.sent.length := by
  have numbers := congrArg List.length ok.numbers
  have encoded := congrArg List.length ok.encoded
  have sent := congrArg List.length ok.sent
  have order := ok.in2enc.order
  rw [List.length_append] at sent
  rw [List.length_append, List.length_append, List.length_map, List.length_map] at numbers
  rw [List.length_append, List.length_map] at encoded
  cases at_ : s.encoder with
  | peeking | encoding | poisoning | done =>
    simp only [unencoded, inHand, closed, at_, List.length_cons, List.length_nil,
      List.length_drop] at numbers encoded
    omega
  | sending slot chunk | acking slot =>
    obtain ⟨-, waiting⟩ := ok.encodeSlot slot (by rw [slotToEncode, at_])
    simp only [unencoded, inHand, closed, at_, List.length_cons, List.length_nil,
      List.length_tail, List.length_drop] at numbers encoded
    omega

variable (config) in
/-- Pointers taken from the second channel, against the chunks that were finished. The one behind
them is the poison, or a chunk with a failed emission. -/
def TakenPlace (events : List SendEvent) (s : SenderState S) (taken : Nat) : Prop :=
  match s.main with
  | .creating | .handwaving | .waving _ _ | .receiving =>
    taken = (finishedOf config.redund events).length
  | .emitting _ failed => taken ≤ (finishedOf config.redund events).length + 1 ∧
      (failed = false → taken = (finishedOf config.redund events).length + 1)
  | .tearingDown _ | .teardown _ _ _ | .freeing _ | .joinKeepalive _ | .joinRead _ | .joinEncode _
  | .returned _ => taken ≤ (finishedOf config.redund events).length + 1

theorem TakenPlace.le {taken : Nat} (place : TakenPlace config events s taken) :
    taken ≤ (finishedOf config.redund events).length + 1 := by
  unfold TakenPlace at place
  split at place
  · omega
  · omega
  · omega
  · omega
  · exact place.1
  all_goals exact place

/-- An event that finishes no chunk. -/
theorem TakenPlace.silent {taken : Nat} (unfinished : finishedOf config.redund [event] = [])
    (main : s'.main = s.main) (place : TakenPlace config events s taken) :
    TakenPlace config (events ++ [event]) s' taken := by
  rw [TakenPlace, main, finishedOf_append, unfinished, List.append_nil]
  exact place

theorem TakenPlace.step (place : TakenPlace config events s passed.taken)
    (move : SenderMove wh config keepalive s passed event s' passed') :
    TakenPlace config (events ++ [event]) s' passed'.taken := by
  cases move with
  | upstream taken move =>
    rw [taken]
    refine place.silent ?_ move.main
    cases event with
    | quiet | read | readError | encoded | encodeError => rfl
    | _ => cases move.event
  | beside taken move =>
    rw [taken]
    refine place.silent ?_ move.main
    rcases move.event with rfl | rfl | rfl
    all_goals rfl
  | send move =>
    have after (event : SendEvent) (unfinished : finishedOf config.redund [event] = []) :
        TakenPlace config (events ++ [event]) s passed.taken := place.silent unfinished rfl
    have quiet := after .quiet rfl
    have bound := (after .quiet rfl).le
    unfold TakenPlace at quiet
    cases move with
    | created at_ | handwaved at_ | waved _ at_ | tearsDown _ at_ | torn _ _ at_ | uncontrolled _ at_
    | stops _ at_ | frees _ at_ | joinsKeepalive _ at_ | joinsRead _ _ at_ | joinsEncode _ _ at_ =>
      rw [at_] at quiet
      exact quiet
    | uncreated => exact (after .senderError rfl).le
    | cramped | unwaved | untorn => exact (after .controlError rfl).le
    | waves pkt left at_ | tears pkt left retval at_ =>
      have sent := after (.control pkt) rfl
      rw [TakenPlace, at_] at sent
      exact sent
    | poison chan at_ front =>
      rw [at_] at quiet
      exact Nat.le_of_eq (congrArg (· + 1) quiet)
    | chunk chan at_ chunk front =>
      rw [at_] at quiet
      have next := congrArg (· + 1) quiet
      exact ⟨Nat.le_of_eq next, fun _ => next⟩
    | stuck | unmade => exact place.silent rfl rfl
    | emits chunk failed at_ e emit =>
      rw [TakenPlace, at_] at place
      obtain ⟨le, same⟩ := place
      cases lost : e.failed with
      | true =>
        have unfinished : finishedOf config.redund [.emitError] = [] := rfl
        rw [if_pos rfl, Bool.or_true, if_pos rfl, TakenPlace]
        rw [finishedOf_append, unfinished, List.append_nil]
        cases e.redund.lt config.redund with
        | true => exact ⟨le, Bool.noConfusion⟩
        | false => exact le
      | false =>
        rw [if_neg Bool.false_ne_true, Bool.or_false]
        rw [TakenPlace, finishedOf_append, finishedOf_emitted, List.length_append]
        cases e.redund.lt config.redund with
        | true => exact ⟨le, same⟩
        | false =>
          cases failed with
          | true => exact Nat.le_succ_of_le le
          | false => exact same rfl

/-- No buffer is longer than the sender's configuration says. -/
theorem SendOk.read_length (ok : SendOk wh config file events s read passed) {buf : Bytes}
    (member : buf ∈ readsOf events) : buf.length ≤ config.bufSize := by
  have inside : some buf ∈ elements config.bufSize file := by
    rw [← ok.reads]
    exact List.mem_append_left _ (List.mem_map_of_mem member)
  rw [elements, List.mem_append, List.mem_singleton] at inside
  obtain ⟨b, filled, same⟩ := List.mem_map.mp (inside.resolve_right (Option.some_ne_none buf))
  obtain rfl := Option.some.inj same
  obtain ⟨i, -, rfl⟩ := List.mem_map.mp filled
  exact Blocks.block_length_le _ _ _

/-- The sender never holds more of the input than the slots of both channels and one chunk on its
way out, whatever its threads and the network do. -/
theorem sender_memory (host : Host) (accepted : hgapCheckConfigSender host config = .success)
    (slots : Nat → Option Bytes) (pointers : Nat → Option (HgapEncChunk S))
    (run : Steps (SenderStep wh config keepalive) (.start config file slots pointers) events s) :
    ((readsOf events).drop (finishedOf config.redund events).length).flatten.length ≤
      (2 * sendChanSize + 1) * config.bufSize := by
  have sound := config.sound host accepted
  have given := checkConfigSender_inFile host accepted
  obtain ⟨read, passed, ok, place⟩ := send_run sound.bufSize_pos given (fun _ _ => True)
    (fun events s taken => TakenPlace config events s taken) rfl
    (fun _ _ _ _ _ _ _ _ place _ _ move => place.step move) (run.guard_labels fun _ _ _ => trivial)
  have ahead := ok.reads_ahead
  have acked := ok.acked_passed
  have queued := ok.enc2net.bound
  have taken := place.le
  have count : ((readsOf events).drop (finishedOf config.redund events).length).length ≤
      2 * sendChanSize + 1 := by
    rw [List.length_drop]
    omega
  have sizes : ∀ n ∈ ((readsOf events).drop (finishedOf config.redund events).length).map
      List.length, n ≤ config.bufSize := by
    intro n member
    obtain ⟨buf, held, rfl⟩ := List.mem_map.mp member
    exact ok.read_length (List.mem_of_mem_drop held)
  have total := List.sum_le_card_nsmul _ _ sizes
  rw [List.length_map, Nat.nsmul_eq_mul] at total
  rw [List.length_flatten]
  exact Nat.le_trans total (Nat.mul_le_mul_right _ count)

end

section Full

/-- The threads in front of a chunk that is not sent. -/
private def readFarAhead : List SendActor :=
  turns [(hgapSalveLen + 3, .send true), (3, .read), (4, .encode), (1, .send true)] ++
    ((List.replicate sendChanSize (turns [(3, .read), (4, .encode)])).flatten) ++
    turns [(3 * sendChanSize, .read)]

/-- And the channels can be full. -/
theorem sender_memory_full : ∃ events s,
    Steps (SenderStep RepetitionCode.code .smallest 0)
      (.start .smallest ⟨List.replicate 40 7, false⟩ (fun _ => none) (fun _ => none)) events s ∧
    ((readsOf events).drop (finishedOf HgapConfig.smallest.redund events).length).flatten.length =
      (2 * sendChanSize + 1) * HgapConfig.smallest.bufSize := by
  have accepted : hgapCheckConfigSender ⟨fun _ => 0, fun _ => false⟩ .smallest = .success := by
    decide
  have run : (scheduled (senderStep RepetitionCode.code .smallest 0)
      (.start .smallest ⟨List.replicate 40 7, false⟩ (fun _ => none) (fun _ => none))
      readFarAhead).map (fun (events, _) => decide ((2 * sendChanSize + 1) *
        HgapConfig.smallest.bufSize ≤ ((readsOf events).drop
          (finishedOf HgapConfig.smallest.redund events).length).flatten.length)) = some true := by
    decide +kernel
  obtain ⟨⟨events, s⟩, run, told⟩ := Option.map_eq_some_iff.mp run
  have steps := scheduled_steps run
  exact ⟨events, s, steps, Nat.le_antisymm (sender_memory _ accepted _ _ steps)
    (of_decide_eq_true told)⟩

end Full

end Hairgap.Guarantees
