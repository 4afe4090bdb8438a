import Hairgap.Guarantees.SendPipeline
import Hairgap.Source.Emission
import Hairgap.Source.RepetitionCode

/-!
# The END salve

The sender decides on its teardown by a flag that is cleared on every way out of its loop, so
the salve follows a failed transfer as well. After one without failures it means what it says.
-/
namespace Hairgap.Guarantees
open Hairgap.Base Hairgap.Source

section Told

/-- The chunks whose emission loop was left. -/
def finishedOf (redund : Double) (events : List SendEvent) : List UInt64 :=
  events.filterMap fun
    | .emitted num _ reached _ => if reached.lt redund then none else some num
    | _ => none

theorem finishedOf_append (redund : Double) (xs ys : List SendEvent) :
    finishedOf redund (xs ++ ys) = finishedOf redund xs ++ finishedOf redund ys :=
  List.filterMap_append ..

/-- The loop of a chunk is left behind the first packet that does not ask for another. -/
theorem finishedOf_emitted (redund : Double) (num : UInt64) (len : Nat) (reached : Double)
    (pkts : List Bytes) :
    finishedOf redund [.emitted num len reached pkts] =
      if reached.lt redund then [] else [num] := by
  cases more : reached.lt redund with
  | true => simp [finishedOf, more]
  | false => simp [finishedOf, more]

/-- Two numbers, the first not below the second. Nothing else reaches anything. -/
def Double.reaches : Double → Double → Bool
  | .fin reached, .fin redund => decide (redund ≤ reached)
  | _, _ => false

/-- The chunks that were emitted up to the wanted redundancy. One without octets has no
redundancy to reach. -/
def reachedOf (redund : Double) (events : List SendEvent) : List UInt64 :=
  events.filterMap fun
    | .emitted num len reached _ =>
      if len = 0 ∨ Double.reaches reached redund then some num else none
    | _ => none

/-- Every redundancy told is a quotient by the length of its chunk. -/
def Quotients (events : List SendEvent) : Prop :=
  ∀ num len reached pkts, .emitted num len reached pkts ∈ events →
    ∃ total, reached = Arithmetic.quotient total len

/-- What a loop is left for, when the redundancy asked for is a number. -/
theorem quotient_reaches {redund : Double} (number : redund ≠ .nan) (total len : Nat) :
    (Arithmetic.quotient total len).lt redund = false ↔
      len = 0 ∨ Double.reaches (Arithmetic.quotient total len) redund = true := by
  rcases Nat.eq_zero_or_pos len with rfl | nonempty
  · refine iff_of_true ?_ (.inl rfl)
    cases total <;> rfl
  · obtain ⟨q, value, -⟩ := Arithmetic.quotient_close total nonempty
    rw [or_iff_right (Nat.ne_of_gt nonempty), value]
    cases redund with
    | nan => exact absurd rfl number
    | posInf => simp [Double.lt, Double.reaches]
    | fin r => simp [Double.lt, Double.reaches]

/-- Each loop that was left has reached the redundancy. -/
theorem Quotients.reached {events : List SendEvent} (quotients : Quotients events)
    {redund : Double} (number : redund ≠ .nan) : reachedOf redund events = finishedOf redund events := by
  refine List.filterMap_congr fun event member => ?_
  cases event with
  | emitted num len reached pkts =>
    obtain ⟨total, rfl⟩ := quotients num len reached pkts member
    have left := quotient_reaches number total len
    cases more : (Arithmetic.quotient total len).lt redund with
    | true =>
      rw [more] at left
      simp only [more, if_neg (mt left.mpr Bool.noConfusion), if_true]
    | false => simp [more, if_pos (left.mp more)]
  | _ => rfl

/-- A packet of the teardown salve was sent. -/
def TornDown (events : List SendEvent) : Prop :=
  .control (hgapWriteHeader hgapHeaderEnd) ∈ events

/-- A transfer that deserves its teardown. -/
structure Proper (redund : Double) (content : Bytes) (events : List SendEvent) : Prop where
  whole : (readsOf events).flatten = content
  eof : (∃ buf, .read buf true ∈ events) ∧ .readError ∉ events
  encoded : (encodedOf events).map Prod.snd = readsOf events
  reached : reachedOf redund events = (encodedOf events).map Prod.fst
  emitted : .emitError ∉ events

/-- The failures a teardown must not follow. -/
def Spoils (event : SendEvent) : Prop :=
  event = .readError ∨ event = .encodeError ∨ event = .emitError

instance : DecidablePred Spoils := fun _ => inferInstanceAs (Decidable (_ ∨ _ ∨ _))

instance (events : List SendEvent) : Decidable (TornDown events) :=
  inferInstanceAs (Decidable (_ ∈ _))

end Told

section
variable {S : Type} (wh : Wirehair S) (config : HgapConfig) (file : Input)

/-- The numbers of the chunks among pointers. -/
def numbersOf (chunks : List (Option (HgapEncChunk S))) : List (Option UInt64) :=
  chunks.map (Option.map (·.num))

/-- What `send_loop` has told at each place of a run whose failures come too late for it. -/
def ToldPlace (events : List SendEvent) (s : SenderState S)
    (before after : List (Option (HgapEncChunk S))) : Prop :=
  match s.main with
  | .creating | .handwaving | .receiving => ¬ TornDown events ∧ Marked after ∧
      (finishedOf config.redund events).map some = numbersOf before
  | .waving pkt _ => pkt = hgapWriteHeader hgapHeaderBegin ∧ ¬ TornDown events ∧ Marked after ∧
      (finishedOf config.redund events).map some = numbersOf before
  | .emitting chunk failed => failed = false ∧ ¬ TornDown events ∧ Marked after ∧
      (finishedOf config.redund events).map some ++ [some chunk.num] = numbersOf before
  | .tearingDown _ | .teardown _ _ _ => after = [] ∧
      (finishedOf config.redund events).map some ++ [none] = numbersOf before
  | .freeing _ | .joinKeepalive _ | .joinRead _ | .joinEncode _ | .returned _ =>
    TornDown events → after = [] ∧
      (finishedOf config.redund events).map some ++ [none] = numbersOf before

/-- `send_loop` has not given up its sender yet. -/
def Sends (s : SenderState S) : Prop :=
  match s.main with
  | .freeing _ | .joinKeepalive _ | .joinRead _ | .joinEncode _ | .returned _ => False
  | _ => True

/-- `send_loop` between two steps of a run whose failures come too late for it. -/
structure ToldOk (events : List SendEvent) (s : SenderState S) (taken : Nat) : Prop where
  unspoilt : Sends s ∨ TornDown events → ∀ event ∈ events, ¬ Spoils event
  place : ToldPlace config events s
    ((pointers wh (hgapEncoderNew config.pktSize) (elements config.bufSize file)).take taken)
    ((pointers wh (hgapEncoderNew config.pktSize) (elements config.bufSize file)).drop taken)

variable {wh config file} {events : List SendEvent} {event : SendEvent} {s s' : SenderState S}
  {read : Queue (Option Bytes)} {passed passed' : Queue (Option (HgapEncChunk S))}
  {keepalive : UInt32}

/-- Events that neither finish a chunk nor end the transfer change nothing. -/
theorem ToldPlace.silent {before after : List (Option (HgapEncChunk S))} (event : SendEvent)
    (unfinished : finishedOf config.redund [event] = [])
    (goes : event ≠ .control (hgapWriteHeader hgapHeaderEnd)) (main : s'.main = s.main)
    (place : ToldPlace config events s before after) :
    ToldPlace config (events ++ [event]) s' before after := by
  have ended : TornDown (events ++ [event]) ↔ TornDown events := by
    unfold TornDown
    rw [List.mem_append, List.mem_singleton]
    exact or_iff_left goes.symm
  have finished : finishedOf config.redund (events ++ [event]) = finishedOf config.redund events := by
    rw [finishedOf_append, unfinished, List.append_nil]
  simp only [ToldPlace, main, ended, finished]
  exact place

/-- Once the teardown has begun, everything before it was done. -/
theorem ToldOk.done (ok : SendOk wh config file events s read passed)
    (told : ToldOk wh config file events s passed.taken) (ended : TornDown events) :
    (finishedOf config.redund events).map some ++ [none] = numbersOf passed.sent ∧
      (∃ retval, s.encoder = .done retval) ∧ (∃ retval, s.reader = .done retval) ∧
      (elements config.bufSize file).drop read.taken = [none] := by
  obtain ⟨rest, numbers⟩ : (pointers wh (hgapEncoderNew config.pktSize)
      (elements config.bufSize file)).drop passed.taken = [] ∧
      (finishedOf config.redund events).map some ++ [none] = numbersOf
        ((pointers wh (hgapEncoderNew config.pktSize)
          (elements config.bufSize file)).take passed.taken) := by
    have place := told.place
    unfold ToldPlace at place
    cases at_ : s.main with
    | creating | handwaving | receiving =>
      rw [at_] at place
      exact absurd ended place.1
    | waving | emitting =>
      rw [at_] at place
      exact absurd ended place.2.1
    | tearingDown | teardown =>
      rw [at_] at place
      exact place
    | freeing | joinKeepalive | joinRead | joinEncode | returned =>
      rw [at_] at place
      exact place ended
  have taken := List.drop_eq_nil_iff.mp rest
  obtain ⟨encodeRet, encodeDone⟩ := ok.encode_done (Nat.le_trans taken ok.enc2net.order)
  have sent := ok.chunks
  simp only [unpassed, encodeDone, List.append_nil] at sent
  rw [List.take_of_length_le taken, ← sent] at numbers
  obtain ⟨last, waiting⟩ := (ok.stops (by simp [encodeGoes, encodeDone])).resolve_left
    fun error => told.unspoilt (.inr ended) _ error (.inr (.inl rfl))
  have count := congrArg List.length last
  rw [List.length_drop, List.length_singleton] at count
  exact ⟨numbers, ⟨encodeRet, encodeDone⟩, ok.read_done (by omega), last⟩

/-- With both other threads done and `send_loop` past its emissions no failure of theirs comes. -/
theorem SendOk.unspoiling (ok : SendOk wh config file events s read passed) {readRet encodeRet : Hgap}
    (readDone : s.reader = .done readRet) (encodeDone : s.encoder = .done encodeRet)
    (gone : ¬ Sends s) (step : SenderStep wh config keepalive s event s') : ¬ Spoils event := by
  obtain ⟨actor, step⟩ := step
  unfold senderStep at step
  split at step
  · cases step
  cases actor with
  | read => simp only [readLoopStep, readDone, reduceCtorEq] at step
  | encode => simp only [encodeLoopStep, encodeDone, reduceCtorEq] at step
  | send answer =>
    obtain ⟨_, -, move⟩ := ok.sendLoop answer step
    cases move with
    | emits _ _ at_ =>
      rw [Sends, at_] at gone
      exact absurd trivial gone
    | _ => simp [Spoils]
  | keepalive answer =>
    obtain ⟨-, move⟩ := ok.keepaliveLoop answer step
    rcases move.event with rfl | rfl | rfl
    all_goals simp [Spoils]

/-- `send_loop` does not come back to a sender it has given up. -/
theorem SenderMove.gone (gone : ¬ Sends s)
    (move : SenderMove wh config keepalive s passed event s' passed') :
    ¬ Sends s' ∧ event ≠ .control (hgapWriteHeader hgapHeaderEnd) := by
  cases move with
  | upstream _ move =>
    refine ⟨by rwa [Sends, move.main], ?_⟩
    rintro rfl
    cases move.event
  | beside _ move =>
    refine ⟨by rwa [Sends, move.main], ?_⟩
    rcases move.event with rfl | rfl | rfl
    all_goals exact SendEvent.noConfusion
  | send move =>
    cases move with
    | unmade => exact ⟨gone, SendEvent.noConfusion⟩
    | stops | frees | joinsKeepalive | joinsRead | joinsEncode =>
      exact ⟨id, SendEvent.noConfusion⟩
    | created at_ | uncreated at_ | handwaved at_ | cramped at_ | waved _ at_ | waves _ _ at_
    | unwaved _ _ at_ | poison _ at_ | chunk _ at_ | stuck _ _ at_ | emits _ _ at_
    | tearsDown _ at_ | uncontrolled _ at_ | torn _ _ at_ | tears _ _ _ at_ | untorn _ _ _ at_ =>
      rw [Sends, at_] at gone
      exact absurd trivial gone

/-- The failures so far are still too late. -/
theorem ToldOk.unspoilt_step (ok : SendOk wh config file events s read passed)
    (told : ToldOk wh config file events s passed.taken) (late : Spoils event → ¬ Sends s)
    (step : SenderStep wh config keepalive s event s')
    (move : SenderMove wh config keepalive s passed event s' passed')
    (goes : Sends s' ∨ TornDown (events ++ [event])) :
    ∀ e ∈ events ++ [event], ¬ Spoils e := by
  have before : (∀ e ∈ events, ¬ Spoils e) ∧ ¬ Spoils event := by
    by_cases sends : Sends s
    · exact ⟨told.unspoilt (.inl sends), fun spoils => late spoils sends⟩
    · obtain ⟨gone, noEnd⟩ := move.gone sends
      have ended : TornDown events := by
        refine (List.mem_append.mp (goes.resolve_left gone)).resolve_right fun now => ?_
        exact noEnd (List.mem_singleton.mp now).symm
      obtain ⟨-, ⟨_, encodeDone⟩, ⟨_, readDone⟩, -⟩ := told.done ok ended
      exact ⟨told.unspoilt (.inr ended), ok.unspoiling readDone encodeDone sends step⟩
  intro e member
  rcases List.mem_append.mp member with past | now
  · exact before.1 e past
  · rw [List.mem_singleton.mp now]
    exact before.2

theorem ToldOk.step (ok : SendOk wh config file events s read passed)
    (told : ToldOk wh config file events s passed.taken) (late : Spoils event → ¬ Sends s)
    (step : SenderStep wh config keepalive s event s')
    (move : SenderMove wh config keepalive s passed event s' passed') :
    ToldOk wh config file (events ++ [event]) s' passed'.taken := by
  refine ⟨told.unspoilt_step ok late step move, ?_⟩
  have place := told.place
  cases move with
  | upstream taken move =>
    rw [taken]
    cases event with
    | quiet | read | readError | encoded | encodeError =>
      exact place.silent _ rfl SendEvent.noConfusion move.main
    | _ => cases move.event
  | beside taken move =>
    rw [taken]
    rcases move.event with rfl | rfl | rfl
    all_goals exact place.silent _ rfl SendEvent.noConfusion move.main
  | send move =>
    -- the same places behind an event that tells nothing
    have after (event : SendEvent) (unfinished : finishedOf config.redund [event] = [])
        (goes : event ≠ .control (hgapWriteHeader hgapHeaderEnd)) :
        ToldPlace config (events ++ [event]) s _ _ := place.silent event unfinished goes rfl
    have quiet := after .quiet rfl SendEvent.noConfusion
    have error := after .controlError rfl SendEvent.noConfusion
    unfold ToldPlace at quiet error
    cases move with
    | created at_ =>
      rw [at_] at quiet
      exact quiet
    | uncreated at_ =>
      have error := after .senderError rfl SendEvent.noConfusion
      rw [ToldPlace, at_] at error
      exact fun ended => absurd ended error.1
    | handwaved at_ pkt room =>
      rw [at_] at quiet
      exact ⟨handwave_ok room, quiet⟩
    | cramped at_ =>
      rw [at_] at error
      exact fun ended => absurd ended error.1
    | waved _ at_ =>
      rw [at_] at quiet
      exact quiet.2
    | waves pkt left at_ =>
      have opening := place
      rw [ToldPlace, at_] at opening
      obtain ⟨rfl, -⟩ := opening
      have begins : SendEvent.control (hgapWriteHeader hgapHeaderBegin) ≠
          .control (hgapWriteHeader hgapHeaderEnd) := by decide
      have sent := after (.control (hgapWriteHeader hgapHeaderBegin)) rfl begins
      rw [ToldPlace, at_] at sent
      exact sent
    | unwaved _ _ at_ =>
      rw [at_] at error
      exact fun ended => absurd ended error.2.1
    | poison chan at_ front =>
      rw [at_, ok.next front] at quiet
      refine ⟨quiet.2.1.last, ?_⟩
      rw [ok.next_take front, quiet.2.2, numbersOf, numbersOf, List.map_append]
      rfl
    | chunk chan at_ chunk front =>
      rw [at_, ok.next front] at quiet
      refine ⟨rfl, quiet.1, quiet.2.1.tail, ?_⟩
      rw [ok.next_take front, quiet.2.2, numbersOf, numbersOf, List.map_append]
      rfl
    | stuck => exact place.silent _ rfl SendEvent.noConfusion rfl
    | emits chunk failed at_ e emit =>
      have done : e.failed = false := by
        by_contra failed
        refine late (.inr (.inr (if_pos (Bool.eq_true_of_not_eq_false failed)))) ?_
        rw [Sends, at_]
        trivial
      rw [done, if_neg Bool.false_ne_true]
      have emitted := place
      rw [ToldPlace, at_] at emitted
      obtain ⟨rfl, open_, rest, numbers⟩ := emitted
      have open_ : ¬ TornDown (events ++ [.emitted chunk.num chunk.len e.redund e.datagrams]) := by
        intro ended
        rcases List.mem_append.mp ended with before | now
        · exact open_ before
        · cases List.mem_singleton.mp now
      cases more : e.redund.lt config.redund with
      | true =>
        have unfinished : finishedOf config.redund
            [.emitted chunk.num chunk.len e.redund e.datagrams] = [] := by simp [finishedOf, more]
        refine ⟨rfl, open_, rest, ?_⟩
        rw [finishedOf_append, unfinished, List.append_nil, emit_num wh emit]
        exact numbers
      | false =>
        have finished : finishedOf config.redund
            [.emitted chunk.num chunk.len e.redund e.datagrams] = [chunk.num] := by simp [finishedOf, more]
        refine ⟨open_, rest, ?_⟩
        rw [finishedOf_append, finished, List.map_append]
        exact numbers
    | tearsDown _ at_ =>
      rw [at_] at quiet
      exact quiet
    | uncontrolled _ at_ | torn _ _ at_ =>
      rw [at_] at quiet
      exact fun _ => quiet
    | untorn _ _ _ at_ =>
      rw [at_] at error
      exact fun _ => error
    | tears pkt left retval at_ =>
      rw [ToldPlace, at_] at place
      refine ⟨place.1, ?_⟩
      have unfinished : finishedOf config.redund [.control pkt] = [] := rfl
      rw [finishedOf_append, unfinished, List.append_nil]
      exact place.2
    | unmade => exact place.silent _ rfl SendEvent.noConfusion rfl
    | stops _ at_ | frees _ at_ | joinsKeepalive _ at_ | joinsRead _ _ at_ | joinsEncode _ _ at_ =>
      rw [at_] at quiet
      exact quiet

/-- What a step tells of a packet is the quotient the emission returned. -/
theorem Quotients.step (quotients : Quotients events)
    (move : SenderMove wh config keepalive s passed event s' passed') :
    Quotients (events ++ [event]) := by
  intro num len reached pkts member
  refine (List.mem_append.mp member).elim (quotients num len reached pkts) fun now => ?_
  obtain rfl := List.mem_singleton.mp now
  generalize told : SendEvent.emitted num len reached pkts = event at move
  cases move with
  | upstream _ move => cases told ▸ move.event
  | beside _ move => rcases move.event with h | h | h <;> cases told.trans h
  | send move =>
    cases move with
    | emits chunk failed at_ e emit =>
      split at told
      · cases told
      next ok =>
        cases told
        rcases (emit_redund wh emit).2 with lost | quotient
        · rw [Emitted.failed, lost] at ok
          exact absurd rfl ok
        · exact quotient
    | _ => cases told

/-- Every run tells quotients only. -/
theorem run_quotients (pos : 0 < config.bufSize) (given : config.inFile.isSome = true)
    {slots : Nat → Option Bytes} {pointers : Nat → Option (HgapEncChunk S)}
    (run : Steps (SenderStep wh config keepalive) (.start config file slots pointers) events s) :
    Quotients events := by
  obtain ⟨read, passed, -, quotients⟩ := send_run pos given (fun _ _ => True)
    (fun events _ _ => Quotients events) (fun _ _ _ _ h => (List.not_mem_nil h).elim)
    (fun _ _ _ _ _ _ _ _ quotients _ _ move => quotients.step move)
    (run.guard_labels fun _ _ _ => trivial)
  exact quotients

/-- A transfer whose teardown has begun deserves it. -/
theorem ToldOk.proper (ok : SendOk wh config file events s read passed)
    (told : ToldOk wh config file events s passed.taken) (pos : 0 < config.bufSize)
    (number : config.redund ≠ .nan) (quotients : Quotients events)
    (ended : TornDown events) : Proper config.redund file.unread events := by
  have clean (event : SendEvent) (spoils : Spoils event) : event ∉ events :=
    fun member => told.unspoilt (.inr ended) event member spoils
  obtain ⟨finished, ⟨encodeRet, encodeDone⟩, ⟨readRet, readDone⟩, last⟩ := told.done ok ended
  have numbers := ok.numbers
  have encoded := ok.encoded
  have reads := ok.reads
  simp only [inHand, closed, unencoded, encodeDone, List.append_nil] at numbers encoded
  simp only [unread, readDone] at reads
  rw [numbersOf, numbers] at finished
  rw [last] at encoded
  have reached : reachedOf config.redund events = (encodedOf events).map Prod.fst :=
    (quotients.reached number).trans (Marked.unmark finished.symm).symm
  have contents : (encodedOf events).map Prod.snd = buffers config.bufSize file :=
    Marked.unmark encoded
  have reads : readsOf events = buffers config.bufSize file :=
    List.map_injective_iff.mpr (Option.some_injective _) (List.append_cancel_right reads)
  obtain ⟨eof, whole⟩ := (ok.ended (by simp [readEnded, readDone])).resolve_left
    (clean _ (.inl rfl))
  refine ⟨?_, ⟨eof, clean _ (.inl rfl)⟩, contents.trans reads.symm, reached,
    clean _ (.inr (.inr rfl))⟩
  rw [reads, buffers_flatten file pos whole]

/-- An END packet follows a proper transfer only, at every redundancy that is a number and in every
run in which nothing fails before `send_loop` gives up its sender. -/
theorem teardown_proper (host : Host) (accepted : hgapCheckConfigSender host config = .success)
    (number : config.redund ≠ .nan) (slots : Nat → Option Bytes) (pointers : Nat → Option (HgapEncChunk S))
    (run : Steps (Guarded (fun s event => Spoils event → ¬ Sends s)
      (SenderStep wh config keepalive)) (.start config file slots pointers) events s)
    (ended : TornDown events) : Proper config.redund file.unread events := by
  have sound := config.sound host accepted
  have given := checkConfigSender_inFile host accepted
  have start : ToldOk wh config file [] (.start config file slots pointers) 0 :=
    ⟨fun _ _ h => (List.not_mem_nil h).elim, List.not_mem_nil, marked_pointers .., rfl⟩
  obtain ⟨read, passed, ok, told⟩ := send_run sound.bufSize_pos given _
    (fun events s taken => ToldOk wh config file events s taken) start
    (fun _ _ _ _ _ _ _ ok told late step move => told.step ok late step move) run
  have quotients := run_quotients sound.bufSize_pos given run.unguard
  exact told.proper ok sound.bufSize_pos number quotients ended

end

section Smallest

/-- Two blocks of one octet a chunk, and each octet twice. -/
def doubled : HgapConfig := { HgapConfig.smallest with nPkt := 2, redund := .fin 2 }

theorem doubled_accepted :
    hgapCheckConfigSender ⟨fun _ => 0, fun _ => false⟩ doubled = .success := by
  decide

/-- Two chunks, the first in four coded packets and the second in two, up to the first END
packet. -/
theorem teardown_proper_doubled : ∃ events, TornDown events ∧ finishedOf doubled.redund events =
    [0, 1] ∧ Proper doubled.redund [7, 8, 9] events := by
  have run : (scheduled (senderStep RepetitionCode.code doubled 0)
      (.start doubled ⟨[7, 8, 9], false⟩ (fun _ => none) (fun _ => none))
      (turns [(hgapSalveLen + 3, .send true), (5, .read), (4, .encode), (3, .send true), (4, .read),
        (7, .encode), (8, .send true)])).map
      (fun (events, _) => decide (TornDown events ∧ finishedOf doubled.redund events = [0, 1] ∧
        ∀ event ∈ events, ¬ Spoils event)) = some true := by
    decide +kernel
  obtain ⟨⟨events, s⟩, run, told⟩ := Option.map_eq_some_iff.mp run
  obtain ⟨ended, finished, clean⟩ := of_decide_eq_true told
  refine ⟨events, ended, finished, teardown_proper _ doubled_accepted Double.noConfusion _ _
    ((scheduled_steps run).guard_labels fun event member _ spoils => ?_) ended⟩
  exact absurd spoils (clean event member)

private def unreadable : SenderState RepetitionCode.State :=
  .start .smallest ⟨[], true⟩ (fun _ => none) (fun _ => none)

/-- An input that cannot be read is torn down like any other. -/
theorem teardown_after_readError : ∃ events s,
    Steps (SenderStep RepetitionCode.code .smallest 0) unreadable events s ∧
      TornDown events ∧ ¬ Proper HgapConfig.smallest.redund [] events := by
  have run : (scheduled (senderStep RepetitionCode.code .smallest 0) unreadable
      (turns [(hgapSalveLen + 3, .send true), (5, .read), (3, .encode), (3, .send true)])).map
      (fun (events, _) => decide (TornDown events ∧ .readError ∈ events)) = some true := by
    decide +kernel
  obtain ⟨⟨events, s⟩, run, told⟩ := Option.map_eq_some_iff.mp run
  obtain ⟨ended, failed⟩ := of_decide_eq_true told
  exact ⟨events, s, scheduled_steps run, ended, fun proper => proper.eof.2 failed⟩

end Smallest

end Hairgap.Guarantees
