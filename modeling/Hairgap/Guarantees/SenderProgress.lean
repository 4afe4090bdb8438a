import Hairgap.Guarantees.SendPipeline
import Hairgap.Source.Emission
import Hairgap.Source.RepetitionCode

/-!
# A failing sender comes to its end

A thread that leaves its loop early stops draining its channel. The thread before it is
blocked for good as soon as it has more to send than the channel still holds.
-/
namespace Hairgap.Guarantees
open Hairgap.Base Hairgap.Source

section
variable {S : Type} (wh : Wirehair S) (config : HgapConfig) (file : Input)

/-- All that `read_loop` sends if it is let, and all that `encode_loop` does. -/
abbrev elementCount : Nat := (elements config.bufSize file).length
abbrev pointerCount : Nat :=
  (pointers wh (hgapEncoderNew config.pktSize) (elements config.bufSize file)).length

/-- Failures the other threads get over: one of the handwave while all pointers fit the second
channel, one of the encoder while the elements behind fit the first one. -/
def Survivable (s : SenderState S) : SendEvent → Prop
  | .senderError => False
  | .controlError => (∃ pkt left retval, s.main = .teardown pkt left retval) ∨
      pointerCount wh config file ≤ sendChanSize
  | .encodeError => elementCount config file < pointerCount wh config file + sendChanSize
  | _ => True

/-- A packet that could not be generated, or a keepalive that could not be sent. -/
def Unlisted (event : SendEvent) : Prop := event = .emitError ∨ event = .keepaliveError

/-- What is left to take from the second channel, and whether there is a sender, at each place
of `send_loop` and behind. -/
def FlowPlace (s : SenderState S) (rest : List (Option (HgapEncChunk S))) (fits : Prop) : Prop :=
  match s.main with
  | .creating => Marked rest
  | .handwaving | .waving _ _ | .receiving => Marked rest ∧ s.sender.isSome = true
  | .emitting chunk failed => Marked rest ∧ s.sender.isSome = true ∧ failed = false ∧
      ∃ num content, Emitting wh config num content chunk
  | .tearingDown _ | .teardown _ _ _ => rest = [] ∧ s.sender.isSome = true
  | .freeing _ | .joinKeepalive _ => (rest = [] ∨ fits) ∧ s.sender.isSome = true
  | .joinRead _ | .joinEncode _ | .returned _ => rest = [] ∨ fits

/-- `send_loop` between two steps of a run with survivable failures only. -/
structure FlowOk (events : List SendEvent) (s : SenderState S) (taken : Nat) : Prop where
  running : s.exited = none
  slack : .encodeError ∈ events → elementCount config file < pointerCount wh config file + sendChanSize
  place : FlowPlace wh config s
    ((pointers wh (hgapEncoderNew config.pktSize) (elements config.bufSize file)).drop taken)
    (pointerCount wh config file ≤ sendChanSize)

variable {wh config file} {events : List SendEvent} {event : SendEvent} {s s' : SenderState S}
  {read : Queue (Option Bytes)} {passed passed' : Queue (Option (HgapEncChunk S))}
  {keepalive : UInt32}

/-- The chunk `encode_loop` makes of an element has that one's number and content. -/
theorem pointers_numbered (sound : config.Sound) (xs : List (Option Bytes)) (enc : HgapEncoder)
    (pktSize : enc.pktSize = config.pktSize) (i : Nat) (chunk : HgapEncChunk S)
    (at_ : (pointers wh enc xs)[i]? = some (some chunk)) :
    ∃ content, xs[i]? = some (some content) ∧
      Emitting wh config (enc.nextChunkNum + UInt64.ofNat i) content chunk := by
  have poison : ([none] : List (Option (HgapEncChunk S)))[i]? ≠ some (some chunk) := by
    cases i with
    | zero => simp
    | succ i => simp
  induction xs generalizing enc i with
  | nil => exact absurd at_ poison
  | cons x rest ih =>
    cases x with
    | none => exact absurd at_ poison
    | some toEnc =>
      rw [pointers_some] at at_
      split at at_
      next enc' chunk' init =>
        obtain ⟨emitting, rfl⟩ := encChunkInit_emitting sound enc enc' pktSize toEnc chunk' init
        cases i with
        | zero =>
          obtain rfl := Option.some.inj (Option.some.inj at_)
          have num : enc.nextChunkNum + UInt64.ofNat 0 = enc.nextChunkNum := UInt64.add_zero _
          exact ⟨toEnc, rfl, num.symm ▸ emitting⟩
        | succ i =>
          obtain ⟨content, there, emitting⟩ :=
            ih { enc with nextChunkNum := enc.nextChunkNum + 1 } pktSize i at_ (by cases i <;> simp)
          have num : enc.nextChunkNum + UInt64.ofNat (i + 1) =
              enc.nextChunkNum + 1 + UInt64.ofNat i := by
            rw [UInt64.ofNat_add, UInt64.add_assoc, UInt64.add_comm (UInt64.ofNat i)]
            rfl
          exact ⟨content, there, num ▸ emitting⟩
      next => exact absurd at_ poison

/-- Every chunk `encode_loop` sends is ready to emit. -/
theorem pointers_emitting (sound : config.Sound) (xs : List (Option Bytes)) (enc : HgapEncoder)
    (pktSize : enc.pktSize = config.pktSize) (chunk : HgapEncChunk S)
    (member : some chunk ∈ pointers wh enc xs) :
    ∃ num content, Emitting wh config num content chunk := by
  obtain ⟨i, at_⟩ := List.mem_iff_getElem?.mp member
  obtain ⟨content, -, emitting⟩ := pointers_numbered sound xs enc pktSize i chunk at_
  exact ⟨_, content, emitting⟩

theorem FlowOk.step (sound : config.Sound) (ok : SendOk wh config file events s read passed)
    (flow : FlowOk wh config file events s passed.taken) (listed : ¬ Unlisted event)
    (survivable : Survivable wh config file s event)
    (move : SenderMove wh config keepalive s passed event s' passed') :
    FlowOk wh config file (events ++ [event]) s' passed'.taken := by
  have slack : .encodeError ∈ events ++ [event] →
      elementCount config file < pointerCount wh config file + sendChanSize := by
    intro told
    rcases List.mem_append.mp told with before | now
    · exact flow.slack before
    · rw [← List.mem_singleton.mp now] at survivable
      exact survivable
  have place := flow.place
  unfold FlowPlace at place
  cases move with
  | upstream taken move =>
    refine ⟨move.exited.trans flow.running, slack, ?_⟩
    rw [FlowPlace, taken, move.main, move.sender]
    exact place
  | beside taken move =>
    refine ⟨(move.exited fun h => listed (.inr h)).trans flow.running, slack, ?_⟩
    rw [FlowPlace, taken, move.main, move.sender]
    exact place
  | send move =>
    cases move with
    | created at_ =>
      rw [at_] at place
      exact ⟨flow.running, slack, place, rfl⟩
    | uncreated => exact survivable.elim
    | handwaved at_ | waved _ at_ | waves _ _ at_ | tearsDown _ at_ | tears _ _ _ at_ =>
      rw [at_] at place
      exact ⟨flow.running, slack, place⟩
    | cramped at_ | unwaved _ _ at_ =>
      rw [at_] at place
      refine ⟨flow.running, slack, .inr ?_, place.2⟩
      rcases survivable with ⟨_, _, _, torn⟩ | fits
      · cases at_.symm.trans torn
      · exact fits
    | poison chan at_ front =>
      rw [at_, ok.next front] at place
      exact ⟨flow.running, slack, place.1.last, place.2⟩
    | chunk chan at_ chunk front =>
      rw [at_, ok.next front] at place
      refine ⟨flow.running, slack, place.1.tail, place.2, rfl, ?_⟩
      refine pointers_emitting sound (elements config.bufSize file) (hgapEncoderNew config.pktSize)
        rfl chunk (List.mem_of_mem_drop (i := passed.taken) ?_)
      rw [ok.next front]
      exact List.mem_cons_self
    | stuck chunk failed at_ ended =>
      rw [at_] at place
      obtain ⟨-, -, -, num, content, emitting⟩ := place
      obtain ⟨e, emit, -⟩ := emitting.emit sound
      cases ended.symm.trans emit
    | emits chunk failed at_ e emit =>
      rw [at_] at place
      obtain ⟨rest, made, rfl, num, content, emitting⟩ := place
      obtain ⟨e', emit', emitting'⟩ := emitting.emit sound
      obtain rfl : e = e' := Option.some.inj (emit.symm.trans emit')
      have done : e.failed = false := by
        by_contra failed
        exact listed (.inl (if_pos (Bool.eq_true_of_not_eq_false failed)))
      refine ⟨flow.running, slack, ?_⟩
      rw [done]
      cases more : e.redund.lt config.redund with
      | true => exact ⟨rest, made, rfl, num, content, emitting'⟩
      | false => exact ⟨rest, made⟩
    | uncontrolled _ at_ | torn _ _ at_ | untorn _ _ _ at_ =>
      rw [at_] at place
      exact ⟨flow.running, slack, .inl place.1, place.2⟩
    | unmade retval at_ null =>
      rw [at_, null] at place
      cases place.2
    | stops retval at_ =>
      rw [at_] at place
      exact ⟨flow.running, slack, place.1, rfl⟩
    | frees _ at_ | joinsKeepalive _ at_ =>
      rw [at_] at place
      exact ⟨flow.running, slack, place.1⟩
    | joinsRead _ _ at_ | joinsEncode _ _ at_ =>
      rw [at_] at place
      exact ⟨flow.running, slack, place⟩

/-- `read_loop` waits only for room for what it has yet to send. -/
theorem SendOk.read_stuck (ok : SendOk wh config file events s read passed)
    (stuck : readLoopStep config s = none) :
    (∃ retval, s.reader = .done retval) ∨
      ¬ read.HasRoom sendChanSize ∧ read.sent.length < elementCount config file := by
  have sent := ok.sent
  have behind (rest : unsent config s ≠ []) : read.sent.length < elementCount config file := by
    have := List.length_pos_of_ne_nil rest
    rw [elementCount, ← ok.sent, List.length_append]
    omega
  unfold readLoopStep at stuck
  cases at_ : s.reader with
  | reserving | poisoning =>
    simp only [at_, ok.in2enc.reserve_eq ok.openIn] at stuck
    refine .inr ⟨fun room => ?_, behind ?_⟩
    · rw [if_pos room] at stuck
      cases stuck
    · simp [unsent, at_, elements]
  | reading slot =>
    simp only [at_] at stuck
    split at stuck <;> cases stuck
  | sending slot eof | closing slot retval =>
    simp only [at_] at stuck
    split at stuck <;> cases stuck
  | resetting slot retval =>
    simp only [at_, reduceCtorEq] at stuck
  | done retval => exact .inl ⟨retval, rfl⟩

/-- `encode_loop` waits only for an element, or for room for what it has yet to send. -/
theorem SendOk.encode_stuck (ok : SendOk wh config file events s read passed)
    (stuck : encodeLoopStep wh s = none) :
    (∃ retval, s.encoder = .done retval) ∨ (s.encoder = .peeking ∧ read.taken = read.sent.length) ∨
      ¬ passed.HasRoom sendChanSize ∧ passed.sent.length < pointerCount wh config file := by
  have behind (rest : unpassed wh s ((elements config.bufSize file).drop read.taken) ≠ []) :
      passed.sent.length < pointerCount wh config file := by
    have := List.length_pos_of_ne_nil rest
    rw [pointerCount, ← ok.chunks, List.length_append]
    omega
  unfold encodeLoopStep at stuck
  cases at_ : s.encoder with
  | peeking =>
    simp only [at_, ok.in2enc.peek_eq ok.openIn] at stuck
    have order := ok.in2enc.order
    refine .inr (.inl ⟨rfl, ?_⟩)
    by_contra waiting
    rw [if_pos (by omega)] at stuck
    cases stuck
  | encoding slot =>
    simp only [at_] at stuck
    split at stuck
    · cases stuck
    · split at stuck <;> cases stuck
  | sending slot chunk =>
    rcases ok.enc2net.send_eq ok.openNet (some chunk) with ⟨full, -⟩ | ⟨chan, answer, -⟩
    · exact .inr (.inr ⟨full, behind (by simp [unpassed, at_])⟩)
    · simp only [at_, answer, Option.map_some, reduceCtorEq] at stuck
  | acking slot => simp only [at_, reduceCtorEq] at stuck
  | poisoning retval =>
    rcases ok.enc2net.send_eq ok.openNet none with ⟨full, -⟩ | ⟨chan, answer, -⟩
    · exact .inr (.inr ⟨full, behind (by simp [unpassed, at_])⟩)
    · simp only [at_, answer, Option.map_some, reduceCtorEq] at stuck
  | done retval => exact .inl ⟨retval, rfl⟩

/-- `send_loop` and what follows it wait for an element or for another thread. -/
theorem SendOk.send_stuck (ok : SendOk wh config file events s read passed)
    (stuck : sendLoopStep wh config keepalive true s = none) :
    (∃ retval, s.main = .returned retval) ∨
      (s.main = .receiving ∧ passed.taken = passed.sent.length) ∨
      (∃ retval, s.main = .joinKeepalive retval ∧ ∀ cont, s.sender ≠ some ⟨cont, .ended⟩) ∨
      (∃ retval, s.main = .joinRead retval ∧ ∀ ret, s.reader ≠ .done ret) ∨
      ∃ retval, s.main = .joinEncode retval ∧ ∀ ret, s.encoder ≠ .done ret := by
  unfold sendLoopStep at stuck
  cases at_ : s.main with
  | creating => simp only [at_, if_true, reduceCtorEq] at stuck
  | handwaving | emitting | tearingDown =>
    simp only [at_] at stuck
    split at stuck <;> cases stuck
  | waving pkt left | teardown pkt left retval =>
    cases left with
    | zero => simp only [at_, reduceCtorEq] at stuck
    | succ left => simp only [at_, if_true, reduceCtorEq] at stuck
  | receiving =>
    rcases ok.enc2net.recv_eq ok.openNet with ⟨empty, -⟩ | ⟨value, chan, answer, -⟩
    · exact .inr (.inl ⟨rfl, empty⟩)
    · simp only [at_, answer, Option.map_some, reduceCtorEq] at stuck
  | freeing retval =>
    simp only [at_] at stuck
    split at stuck
    · cases stuck
    · split at stuck <;> cases stuck
  | joinKeepalive retval =>
    refine .inr (.inr (.inl ⟨retval, rfl, fun cont made => ?_⟩))
    simp only [at_, made, reduceCtorEq] at stuck
  | joinRead retval =>
    refine .inr (.inr (.inr (.inl ⟨retval, rfl, fun ret done => ?_⟩)))
    simp only [at_, done, reduceCtorEq] at stuck
  | joinEncode retval =>
    refine .inr (.inr (.inr (.inr ⟨retval, rfl, fun ret done => ?_⟩)))
    simp only [at_, done, reduceCtorEq] at stuck
  | returned retval => exact .inl ⟨retval, rfl⟩

/-- Behind its loop `encode_loop` has sent one element for each it has acknowledged, and the
poison. -/
theorem SendOk.counted (ok : SendOk wh config file events s read passed) (retval : Hgap)
    (done : s.encoder = .done retval) :
    pointerCount wh config file = read.taken + 1 ∧ passed.sent.length = pointerCount wh config file := by
  have chunks := congrArg List.length ok.chunks
  have numbers := congrArg List.length ok.numbers
  have encoded := congrArg List.length ok.encoded
  have sent := congrArg List.length ok.sent
  have order := ok.in2enc.order
  simp only [unpassed, inHand, closed, unencoded, done, List.length_append, List.length_map,
    List.length_drop, List.length_nil, List.length_singleton] at chunks numbers encoded sent
  unfold pointerCount
  omega

/-- With nobody left to drain it, the second channel never fills up. -/
theorem FlowOk.room (flow : FlowOk wh config file events s passed.taken)
    (ok : SendOk wh config file events s read passed)
    (stuck : sendLoopStep wh config keepalive true s = none) :
    passed.HasRoom sendChanSize ∨ pointerCount wh config file ≤ passed.sent.length := by
  have place := flow.place
  have order := ok.enc2net.order
  unfold FlowPlace at place
  unfold Queue.HasRoom
  have left (h : (pointers wh (hgapEncoderNew config.pktSize)
      (elements config.bufSize file)).drop passed.taken = [] ∨
        pointerCount wh config file ≤ sendChanSize) :
      passed.sent.length < passed.taken + sendChanSize ∨
        pointerCount wh config file ≤ passed.sent.length := by
    rcases h with all | fits
    · have := List.drop_eq_nil_iff.mp all
      unfold pointerCount
      omega
    · omega
  rcases ok.send_stuck stuck with
    ⟨_, at_⟩ | ⟨at_, empty⟩ | ⟨_, at_, -⟩ | ⟨_, at_, -⟩ | ⟨_, at_, -⟩
  · rw [at_] at place
    exact left place
  · rw [empty]
    exact .inl (Nat.lt_add_of_pos_right (by decide))
  · rw [at_] at place
    exact left place.1
  · rw [at_] at place
    exact left place
  · rw [at_] at place
    exact left place

/-- Who has to go on: the keepalive thread, which never stops by itself, only when `send_loop`
waits for it. -/
def Needed (s : SenderState S) : SendActor → Prop
  | .keepalive _ => ∃ retval, s.main = .joinKeepalive retval
  | _ => True

variable (keepalive) in
/-- Some thread goes on until `hgap_send` has returned. -/
theorem FlowOk.progress (flow : FlowOk wh config file events s passed.taken)
    (ok : SendOk wh config file events s read passed)
    (stuck : ∀ actor, Needed s actor → senderStep wh config keepalive s actor = none) :
    ∃ retval, s.main = .returned retval := by
  have running : s.exited.isSome = false := by rw [flow.running, Option.isSome_none]
  have reads := stuck .read trivial
  have encodes := stuck .encode trivial
  have sends := stuck (.send true) trivial
  simp only [senderStep, running, if_neg Bool.false_ne_true] at reads encodes sends
  have place := flow.place
  have order := ok.enc2net.order
  have drained := flow.room ok sends
  -- the encoder has no use for an element only when it has returned
  have encoder : (∃ retval, s.encoder = .done retval) ∨
      s.encoder = .peeking ∧ read.taken = read.sent.length := by
    rcases ok.encode_stuck encodes with done | waiting | ⟨full, more⟩
    · exact .inl done
    · exact .inr waiting
    · rcases drained with room | all
      · exact absurd room full
      · omega
  have reader : ∃ retval, s.reader = .done retval := by
    rcases ok.read_stuck reads with done | ⟨full, more⟩
    · exact done
    · exfalso
      have size : sendChanSize = 16 := rfl
      unfold Queue.HasRoom at full
      rcases encoder with ⟨retval, done⟩ | ⟨-, empty⟩
      · have goes : ¬ encodeGoes s := by simp [encodeGoes, done]
        obtain ⟨counted, -⟩ := ok.counted retval done
        rcases ok.stops goes with error | ⟨rest, -⟩
        · have := flow.slack error
          omega
        · have last := congrArg List.length rest
          simp only [List.length_drop, List.length_singleton] at last
          have : (elements config.bufSize file).length = elementCount config file := rfl
          omega
      · omega
  obtain ⟨readRet, readDone⟩ := reader
  have encoder : ∃ retval, s.encoder = .done retval := by
    rcases encoder with done | ⟨at_, empty⟩
    · exact done
    · exfalso
      have sent := ok.sent
      simp only [unsent, readDone, List.append_nil] at sent
      have rest := ok.goes (by simp [encodeGoes, at_])
      simp only [unencoded, at_, empty, ← sent, List.drop_length] at rest
      exact rest.ne_nil rfl
  obtain ⟨encodeRet, encodeDone⟩ := encoder
  rcases ok.send_stuck sends with
    returned | ⟨at_, empty⟩ | ⟨_, at_, alive⟩ | ⟨_, at_, alive⟩ | ⟨_, at_, alive⟩
  · exact returned
  · rw [FlowPlace, at_] at place
    obtain ⟨-, all⟩ := ok.counted encodeRet encodeDone
    unfold pointerCount at all
    exact absurd (List.drop_eq_nil_of_le (by omega)) place.1.ne_nil
  · -- the keepalive thread goes on until it has seen the flag
    rw [FlowPlace, at_] at place
    obtain ⟨hs, made⟩ := Option.isSome_iff_exists.mp place.2
    obtain ⟨cont, thread⟩ := hs
    have keeps := stuck (.keepalive true) ⟨_, at_⟩
    simp only [senderStep, running, if_neg Bool.false_ne_true] at keeps
    cases thread with
    | ended => exact absurd made (alive cont)
    | testing | sleeping | sending =>
      simp only [keepaliveLoopStep, made, if_true, reduceCtorEq] at keeps
  · exact absurd readDone (alive readRet)
  · exact absurd encodeDone (alive encodeRet)

/-- A sender whose failures are survivable ones neither crashes nor hangs, whatever the order of
the threads' steps: one of its own three can go on, or the keepalive thread they wait for. -/
theorem sender_progresses (host : Host) (accepted : hgapCheckConfigSender host config = .success)
    (slots : Nat → Option Bytes) (pointers : Nat → Option (HgapEncChunk S))
    (run : Steps (Guarded (fun s event => ¬ Unlisted event ∧ Survivable wh config file s event)
      (SenderStep wh config keepalive)) (.start config file slots pointers) events s) :
    s.exited = none ∧ ((∃ retval, s.main = .returned retval) ∨
      ∃ actor, Needed s actor ∧ (senderStep wh config keepalive s actor).isSome = true) := by
  have sound := config.sound host accepted
  have given := checkConfigSender_inFile host accepted
  have start : FlowOk wh config file [] (.start config file slots pointers) 0 :=
    ⟨rfl, fun h => (List.not_mem_nil h).elim, marked_pointers ..⟩
  obtain ⟨read, passed, ok, flow⟩ := send_run sound.bufSize_pos given _
    (fun events s taken => FlowOk wh config file events s taken) start
    (fun _ _ _ _ _ _ _ ok flow allowed _ move => flow.step sound ok allowed.1 allowed.2 move) run
  refine ⟨flow.running, ?_⟩
  by_contra hang
  obtain ⟨waits, stuck⟩ := not_or.mp hang
  refine waits (flow.progress keepalive ok fun actor needed => ?_)
  by_contra moves
  exact stuck ⟨actor, needed, Option.isSome_iff_ne_none.mpr moves⟩

end

section Smallest

/-- A sender of the smallest packets, without keepalive, on the given octets. -/
private def smallestStart (content : Bytes) : SenderState RepetitionCode.State :=
  .start .smallest ⟨content, false⟩ (fun _ => none) (fun _ => none)

/-- The failures of a run that meets the condition on all inputs whose pointers fit. -/
private def Mild (event : SendEvent) : Prop :=
  event = .controlError ∨ event ≠ .senderError ∧ event ≠ .encodeError ∧ ¬ Unlisted event

private instance : DecidablePred Mild := fun _ =>
  inferInstanceAs (Decidable (_ ∨ _ ∧ _ ∧ ¬ (_ ∨ _)))

/-- Fourteen octets make as many pointers as the channel holds. The handwave fails in the middle
of the reading; behind it all of them are read, encoded and sent to nobody, and the cleanup waits
for the keepalive thread. -/
theorem sender_progresses_sixteen : ∃ (events : List SendEvent) (s : SenderState RepetitionCode.State),
    pointerCount RepetitionCode.code .smallest ⟨List.replicate 14 7, false⟩ = sendChanSize ∧
    .controlError ∈ events ∧ (encodedOf events).length = 15 ∧ s.exited = none ∧
    ((∃ retval, s.main = .returned retval) ∨ ∃ actor, Needed s actor ∧
      (senderStep RepetitionCode.code .smallest 3 s actor).isSome = true) := by
  have accepted : hgapCheckConfigSender ⟨fun _ => 0, fun _ => false⟩ .smallest = .success := by
    decide
  have fits : pointerCount RepetitionCode.code .smallest ⟨List.replicate 14 7, false⟩ =
      sendChanSize := by
    decide +kernel
  have run : (scheduled (senderStep RepetitionCode.code .smallest 3)
      (smallestStart (List.replicate 14 7))
      (turns [(4, .send true), (20, .read), (10, .encode), (1, .send false), (28, .read),
        (53, .encode), (1, .send true)])).map (fun (events, _) =>
          decide (.controlError ∈ events ∧ (encodedOf events).length = 15 ∧
            ∀ event ∈ events, Mild event)) = some true := by
    decide +kernel
  obtain ⟨⟨events, s⟩, run, told⟩ := Option.map_eq_some_iff.mp run
  obtain ⟨failed, encoded, mild⟩ := of_decide_eq_true told
  refine ⟨events, s, fits, failed, encoded, sender_progresses _ accepted _ _
    ((scheduled_steps run).guard_labels fun event member _ => ?_)⟩
  rcases mild event member with rfl | ⟨made, whole, listed⟩
  · exact ⟨by simp [Unlisted], .inr (Nat.le_of_eq fits)⟩
  · refine ⟨listed, ?_⟩
    cases event with
    | senderError => exact absurd rfl made
    | encodeError => exact absurd rfl whole
    | controlError => exact .inr (Nat.le_of_eq fits)
    | _ => trivial

/-- Two runs of a failing sender: without a sender the cleanup uses one all the same, and after
a handwave that cannot be sent seventeen chunks hang the encoder, and with it `hgap_send`. -/
theorem failing_sender_hangs :
    (∃ events s, Steps (SenderStep RepetitionCode.code .smallest 0) (smallestStart []) events s ∧
      s.exited = some .nullSender) ∧
    ∃ events s, Steps (SenderStep RepetitionCode.code .smallest 0)
      (smallestStart (List.replicate 16 7)) events s ∧ (∀ retval, s.main ≠ .returned retval) ∧
      ∀ actor, senderStep RepetitionCode.code .smallest 0 s actor = none := by
  constructor
  · have run : (scheduled (senderStep RepetitionCode.code .smallest 0) (smallestStart [])
        [.send false, .send true]).map (·.2.exited) = some (some .nullSender) := rfl
    obtain ⟨⟨events, s⟩, run, exited⟩ := Option.map_eq_some_iff.mp run
    exact ⟨events, s, scheduled_steps run, exited⟩
  · let turn : List SendActor := [.read, .read, .read, .encode, .encode, .encode, .encode]
    let schedule : List SendActor := [.send true, .send true, .send false, .send true] ++
      (List.replicate 16 turn).flatten ++ List.replicate 6 .read ++ [.encode, .encode, .send true]
    let stuck (s : SenderState RepetitionCode.State) : Bool :=
      (returnedWith s).isNone &&
      [SendActor.read, .encode, .send true, .send false, .keepalive true, .keepalive false].all
        fun actor => (senderStep RepetitionCode.code .smallest 0 s actor).isNone
    have run : (scheduled (senderStep RepetitionCode.code .smallest 0) (smallestStart (List.replicate 16 7))
        schedule).map (fun (_, s) => stuck s) = some true := by decide +kernel
    obtain ⟨⟨events, s⟩, run, hangs⟩ := Option.map_eq_some_iff.mp run
    obtain ⟨waits, stuck⟩ := Bool.and_eq_true_iff.mp hangs
    have none_ (actor : SendActor) (member : actor ∈ [SendActor.read, .encode, .send true,
        .send false, .keepalive true, .keepalive false]) :
        senderStep RepetitionCode.code .smallest 0 s actor = none :=
      Option.isNone_iff_eq_none.mp (List.all_eq_true.mp stuck actor member)
    refine ⟨events, s, scheduled_steps run, fun retval at_ => ?_, fun actor => ?_⟩
    · rw [returnedWith_eq_some.mpr at_] at waits
      cases waits
    · cases actor with
      | read | encode => exact none_ _ (by simp)
      | send answer | keepalive answer => cases answer <;> exact none_ _ (by simp)

end Smallest

end Hairgap.Guarantees
