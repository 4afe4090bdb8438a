import Hairgap.Guarantees.DecodingError

/-!
# The verdict of the receiving threads

Whatever the order of the threads' steps and the sizes of the channels, `hgap_receive` returns what
its three stages would, run one after the other. An error of the decoder poisons the packet channel,
and the network reader takes that for an error of its own; it is never the one that is reported.
-/
namespace Hairgap.Guarantees
open Hairgap.Base Hairgap.Source

/-- The return value of a sequential network reader, once it stops. -/
def stopsWith (recvs : List Recv) : Option Int := (hgaprNetReader recvs).map Prod.fst

theorem stopsWith_datagram (d : Datagram) (rest : List Recv) : stopsWith (.datagram d :: rest) =
    if hgapPktType d = .end_ then some Hgap.success.code else stopsWith rest := by
  rw [stopsWith, hgaprNetReader]
  split
  · rfl
  · rw [Option.map_map]
    rfl

/-- Outside its errors of the channel the network reader reports one of the network. -/
theorem stopsWith_network {recvs : List Recv} {reader : Int}
    (stops : stopsWith recvs = some reader) :
    reader = Hgap.success.code ∨ Hgap.errTimeout.code ≤ reader := by
  induction recvs with
  | nil => cases stops
  | cons recv rest ih =>
    cases recv with
    | timedOut | failed =>
      cases stops
      exact .inr (by decide)
    | datagram d =>
      rw [stopsWith_datagram] at stops
      split at stops
      · cases stops
        exact .inl rfl
      · exact ih stops

/-- The smaller error is the one that is reported. -/
theorem selectError_first {e1 e2 : Int} (failed : e1 ≠ Hgap.success.code)
    (first : e2 = Hgap.success.code ∨ e1 < e2) : hgapSelectError e1 e2 = e1 := by
  unfold hgapSelectError
  rw [if_neg failed]
  rcases first with rfl | less
  · rw [if_pos rfl]
  · rw [if_pos less, ite_self]

section Errors
variable {S : Type} {wh : Wirehair S}

/-- The errors of `hgap_decoder_read` end with `HGAP_ERR_BAD_CHUNK`. -/
theorem read_bound (dec : HgapDecoder S) (d : Datagram) :
    -Hgap.errBadChunk.code ≤ (hgapDecoderRead wh dec d).ret := by
  have case := readCase wh dec d
  generalize hgapDecoderRead wh dec d = r at case
  have size (n : Nat) : -Hgap.errBadChunk.code ≤ (n : Int) := by
    simp only [Hgap.code]
    omega
  cases case with
  | idle =>
    dsimp only
    split <;> decide
  | handled handles r case =>
    cases case with
    | foreign | oversized =>
      dsimp only
      decide
    | settled =>
      dsimp only
      split
      · decide
      · exact size _
    | absorbed w working =>
      have absorb := absorbCase wh w d.pkt working.incomplete
      generalize hgapDecoderIncorporate wh w d.pkt = r at absorb
      cases absorb with
      | held | small => exact size _
      | lost =>
        dsimp only
        decide
      | fed =>
        dsimp only
        split
        · exact size _
        · decide

theorem emit_bound (dec : HgapDecoder S) (len : Nat) (e : EmitResult S)
    (returns : hgapDecoderEmit wh dec len = some e) : e.ret.code ≤ Hgap.errBadChunk.code := by
  have case := emitCase wh dec len
  rw [returns] at case
  cases case <;> simp [Hgap.code]

theorem leaves_bound {dec : HgapDecoder S} {d : Datagram} {turn : Turn S} {retval : Int}
    (turns : readEmit wh dec d = some turn) (leaves : turn.leaves = some retval) :
    retval ≤ Hgap.errBadChunk.code := by
  have case := turnCase wh dec d turn turns
  have ret := case.ret
  have bound := @read_bound S wh dec d
  unfold Turn.leaves at leaves
  split at leaves
  · cases leaves
  · split at leaves
    · cases leaves
      decide
    · split at leaves
      · cases leaves
        rw [ret]
        exact Int.neg_le_of_neg_le bound
      · cases case with
        | quiet => cases leaves
        | emits positive e returns =>
          dsimp only at leaves
          split at leaves
          · cases leaves
          next verdict failed same =>
            cases same
            cases leaves
            exact emit_bound _ _ e returns
          next none => cases none

/-- The errors of `decloop` are smaller than those of the network reader. -/
theorem decloop_bound (dec : HgapDecoder S) (ds : List Datagram) (retval : Int)
    (outs : List OutChunk) (returns : decloop wh dec ds = some (retval, outs)) :
    retval ≤ Hgap.errBadChunk.code := by
  obtain ⟨labels, dec', -, ⟨-, rfl, -⟩ | ⟨d, rest, turn, -, turns, leaves, -⟩⟩ :=
    decloop_run dec ds retval outs returns
  · decide
  · exact leaves_bound turns leaves

end Errors

section Reported
variable {S : Type} {wh : Wirehair S} {pktCapacity chunkCapacity : Nat}

/-- What the network reader has left its loop with: the value of a sequential one, or the error
of a poisoned channel. -/
def Told (recvs : List Recv) (s : ReceiverState S) (retval : Hgap) : Prop :=
  stopsWith recvs = some retval.code ∨ s.net2dec.poisoned = true ∧ retval = .errIpc

/-- What a sequential network reader will stop with from here, while in its loop. -/
def toTell (s : ReceiverState S) : Option (Option Int) :=
  match s.reader with
  | .reserving | .receiving _ | .sending _ false | .publishing _ false =>
    some (stopsWith s.arriving)
  | .sending _ true | .publishing _ true => some (some Hgap.success.code)
  | .poisoning _ | .resetting _ _ | .closing _ _ | .publishingPill _ _ | .joinDecoder _
  | .joinWriter _ | .returned _ | .asleep => none

/-- Where the return values of the threads come from. -/
structure Reported (recvs : List Recv) (events : List RecvEvent) (s : ReceiverState S) : Prop where
  failing : ∀ retval, s.decoder = .poisoning retval → retval ≠ Hgap.success.code
  poisoned : ∀ retval, leftWith s = some retval → s.net2dec.poisoned = true →
    retval ≠ Hgap.success.code
  reads : ∀ told, toTell s = some told → stopsWith recvs = told
  left : ∀ retval, readerLeftWith s = some retval → Told recvs s retval
  joined : ∀ verdict, s.reader = .joinWriter verdict → ∃ retval reader,
    s.decoder = .done retval ∧ Told recvs s reader ∧ verdict = hgapSelectError retval reader.code
  returned : ∀ verdict, s.reader = .returned verdict → ∃ retval reader writer,
    s.decoder = .done retval ∧ s.writer = .done writer ∧ Told recvs s reader ∧
      verdict = hgapSelectError writer.code (hgapSelectError retval reader.code)
  wrote : .writeError ∈ events ↔ ¬ writesOn s

variable {recvs : List Recv} {events : List RecvEvent} {event : RecvEvent} {s s' : ReceiverState S}
  {net : Queue (Option Datagram)} {out : Queue (Option OutChunk)}

/-- As long as no write fails, the writer goes on. -/
theorem Reported.writing (reported : Reported recvs events s) (noError : .writeError ∉ events) :
    writesOn s := by
  by_contra fails
  exact noError (reported.wrote.mpr fails)

theorem reported_start (recvs : List Recv) (slots : Nat → Option Datagram)
    (pointers : Nat → Option OutChunk) : Reported (S := S) recvs []
      (.start pktCapacity chunkCapacity (some recvs) slots pointers) where
  failing := by rintro retval ⟨⟩
  poisoned := by rintro retval ⟨⟩
  reads := by
    rintro told ⟨⟩
    rfl
  left := by rintro retval ⟨⟩
  joined := by rintro verdict ⟨⟩
  returned := by rintro verdict ⟨⟩
  wrote := by
    refine iff_of_false List.not_mem_nil (not_not.mpr ?_)
    rintro retval ⟨⟩

/-- An event other than a failed write. -/
theorem Reported.silent (reported : Reported recvs events s) (event : RecvEvent)
    (writes : event ≠ .writeError) : Reported recvs (events ++ [event]) s := by
  refine { reported with wrote := ?_ }
  rw [← reported.wrote, List.mem_append, List.mem_singleton]
  exact or_iff_left fun same => writes same.symm

section Reader
variable (reported : Reported recvs events s) {reader : NetAt} {arriving : List Recv}
  {chan : Channel (Option Datagram)} (same : chan.poisoned = s.net2dec.poisoned)
include reported same

/-- The network reader is still in its loop. -/
theorem Reported.goesOn {told : Option Int}
    (goes : toTell { s with reader := reader, arriving := arriving } = some told)
    (reads : stopsWith recvs = told) :
    Reported recvs events { s with reader := reader, arriving := arriving, net2dec := chan } := by
  refine ⟨reported.failing, fun retval gone poisoned => ?_, fun told' at_ => ?_,
    fun retval at_ => ?_, fun verdict at_ => ?_, fun verdict at_ => ?_, reported.wrote⟩
  · exact reported.poisoned retval gone (same.symm.trans poisoned)
  · cases goes.symm.trans at_
    exact reads
  · cases reader <;> first | (cases at_; done) | cases goes
  · cases at_
    cases goes
  · cases at_
    cases goes

/-- It has left its loop and not been asked for its value. -/
theorem Reported.leftLoop {retval : Hgap}
    (left : readerLeftWith { s with reader := reader } = some retval)
    (tells : Told recvs s retval) :
    Reported recvs events { s with reader := reader, arriving := arriving, net2dec := chan } := by
  refine ⟨reported.failing, fun retval gone poisoned => ?_, fun told at_ => ?_,
    fun retval at_ => ?_, fun verdict at_ => ?_, fun verdict at_ => ?_, reported.wrote⟩
  · exact reported.poisoned retval gone (same.symm.trans poisoned)
  · cases reader <;> first | (cases at_; done) | cases left
  · cases left.symm.trans at_
    exact tells.imp_right fun shut => ⟨same.trans shut.1, shut.2⟩
  · cases at_
    cases left
  · cases at_
    cases left

end Reader

/-- The slot given out is only refused by a poisoned channel. -/
theorem sendChecks_refused {α : Type} {chan : Channel α} {capacity : Nat} {q : Queue α}
    (holds : chan.Holds capacity q)
    (refused : channelSendChecks chan (q.sent.length % (capacity + 1)) = false) :
    chan.poisoned = true := by
  by_contra open_
  rw [holds.sendChecks_eq (Bool.eq_false_of_not_eq_true open_)] at refused
  cases refused

theorem Reported.netReader {recvs' : Option (List Recv)}
    (ok : RecvOk wh pktCapacity chunkCapacity recvs' events s net out)
    (reported : Reported recvs events s) (step : netReaderStep s = some (event, s')) :
    Reported recvs (events ++ [event]) s' := by
  have quiet := reported.silent .quiet RecvEvent.noConfusion
  cases at_ : s.reader with
  | reserving =>
    have reads := quiet.reads (stopsWith s.arriving) (by rw [toTell, at_])
    simp only [netReaderStep, at_] at step
    obtain ⟨answer, -, given⟩ := Option.map_eq_some_iff.mp step
    cases answer with
    | none =>
      obtain ⟨rfl, rfl⟩ := Prod.mk.inj given
      exact { quiet with }
    | some slot =>
      obtain ⟨rfl, rfl⟩ := Prod.mk.inj given
      exact quiet.goesOn rfl rfl reads
  | receiving slot =>
    cases arriving : s.arriving with
    | nil => simp only [netReaderStep, at_, arriving, reduceCtorEq] at step
    | cons recv rest =>
      have reads := quiet.reads (stopsWith s.arriving) (by rw [toTell, at_])
      rw [arriving] at reads
      cases recv with
      | timedOut | failed =>
        simp only [netReaderStep, at_, arriving, Option.some.injEq, Prod.mk.injEq] at step
        obtain ⟨rfl, rfl⟩ := step
        exact quiet.leftLoop rfl rfl (.inl reads)
      | datagram d =>
        simp only [netReaderStep, at_, arriving, Option.some.injEq, Prod.mk.injEq] at step
        obtain ⟨rfl, rfl⟩ := step
        rw [stopsWith_datagram] at reads
        have silent := reported.silent (.received d) RecvEvent.noConfusion
        have same : (s.net2dec.filled slot (some d)).poisoned = s.net2dec.poisoned := rfl
        by_cases last : hgapPktType d = .end_
        · rw [if_pos last] at reads
          rw [decide_eq_true last]
          exact silent.goesOn same rfl reads
        · rw [if_neg last] at reads
          rw [decide_eq_false last]
          exact silent.goesOn same rfl reads
  | sending slot last =>
    obtain ⟨rfl, -⟩ := ok.slot slot (by rw [slotToReceive, at_])
    simp only [netReaderStep, at_, Option.some.injEq, Prod.mk.injEq] at step
    obtain ⟨rfl, rfl⟩ := step
    cases sends : channelSendChecks s.net2dec (net.sent.length % (pktCapacity + 1)) with
    | false => exact quiet.leftLoop rfl rfl (.inr ⟨sendChecks_refused ok.net2dec sends, rfl⟩)
    | true =>
      have reads := quiet.reads
      rw [toTell, at_] at reads
      cases last with
      | true | false => exact quiet.goesOn rfl rfl (reads _ rfl)
  | publishing slot last =>
    simp only [netReaderStep, at_, Option.some.injEq, Prod.mk.injEq] at step
    obtain ⟨rfl, rfl⟩ := step
    have same : (s.net2dec.moved .producer).poisoned = s.net2dec.poisoned := rfl
    have reads := quiet.reads
    rw [toTell, at_] at reads
    cases last with
    | true => exact quiet.leftLoop same rfl (.inl (reads _ rfl))
    | false => exact quiet.goesOn same rfl (reads _ rfl)
  | poisoning retval =>
    have left := quiet.left retval (by rw [readerLeftWith, at_])
    simp only [netReaderStep, at_] at step
    obtain ⟨answer, -, given⟩ := Option.map_eq_some_iff.mp step
    cases answer with
    | none =>
      obtain ⟨rfl, rfl⟩ := Prod.mk.inj given
      exact quiet.leftLoop rfl rfl left
    | some slot =>
      obtain ⟨rfl, rfl⟩ := Prod.mk.inj given
      exact quiet.leftLoop rfl rfl left
  | resetting slot retval =>
    have left := quiet.left retval (by rw [readerLeftWith, at_])
    simp only [netReaderStep, at_, Option.some.injEq, Prod.mk.injEq] at step
    obtain ⟨rfl, rfl⟩ := step
    have same : (s.net2dec.filled slot none).poisoned = s.net2dec.poisoned := rfl
    exact quiet.leftLoop same rfl left
  | closing slot retval =>
    have left := quiet.left retval (by rw [readerLeftWith, at_])
    obtain ⟨rfl, -⟩ := ok.slot slot (by rw [slotToReceive, at_])
    simp only [netReaderStep, at_, Option.some.injEq, Prod.mk.injEq] at step
    obtain ⟨rfl, rfl⟩ := step
    cases sends : channelSendChecks s.net2dec (net.sent.length % (pktCapacity + 1)) with
    | false => exact quiet.leftLoop rfl rfl (.inr ⟨sendChecks_refused ok.net2dec sends, rfl⟩)
    | true => exact quiet.leftLoop rfl rfl left
  | publishingPill slot retval =>
    have left := quiet.left retval (by rw [readerLeftWith, at_])
    simp only [netReaderStep, at_, Option.some.injEq, Prod.mk.injEq] at step
    obtain ⟨rfl, rfl⟩ := step
    have same : (s.net2dec.moved .producer).poisoned = s.net2dec.poisoned := rfl
    exact quiet.leftLoop same rfl left
  | joinDecoder retval =>
    have left := quiet.left retval (by rw [readerLeftWith, at_])
    simp only [netReaderStep, at_] at step
    split at step
    next ret done =>
      obtain ⟨rfl, rfl⟩ := Prod.mk.inj (Option.some.inj step)
      exact { quiet with
        reads := by rintro told ⟨⟩
        left := by rintro retval ⟨⟩
        joined := by
          rintro _ ⟨⟩
          exact ⟨ret, retval, done, left, rfl⟩
        returned := by rintro verdict ⟨⟩ }
    next => cases step
  | joinWriter verdict =>
    obtain ⟨retval, reader, decoder, tells, same⟩ := quiet.joined verdict at_
    simp only [netReaderStep, at_] at step
    split at step
    next ret done =>
      obtain ⟨rfl, rfl⟩ := Prod.mk.inj (Option.some.inj step)
      exact { quiet with
        reads := by rintro told ⟨⟩
        left := by rintro retval ⟨⟩
        joined := by rintro verdict ⟨⟩
        returned := by
          rintro _ ⟨⟩
          exact ⟨retval, reader, ret, decoder, done, tells, by rw [same]⟩ }
    next => cases step
  | returned verdict => simp only [netReaderStep, at_, reduceCtorEq] at step
  | asleep => simp only [netReaderStep, at_, reduceCtorEq] at step

section Decoder
variable (reported : Reported recvs events s) (busy : ∀ retval, s.decoder ≠ .done retval)
  {chan : Channel (Option Datagram)} {dec : HgapDecoder S} {chunks : Channel (Option OutChunk)}
  (grows : s.net2dec.poisoned = true → chan.poisoned = true) {decoder : DecodeAt}
include reported busy grows

/-- `decloop` goes on behind its step, with the other threads left alone. -/
theorem Reported.decoderAt
    (failing : ∀ retval, decoder = .poisoning retval → retval ≠ Hgap.success.code)
    (poisoned : ∀ retval, leftWith { s with decoder := decoder } = some retval →
      chan.poisoned = true → retval ≠ Hgap.success.code) :
    Reported recvs events
      { s with decoder := decoder, net2dec := chan, dec := dec, dec2out := chunks } := by
  refine ⟨failing, poisoned, reported.reads, fun retval left => ?_,
    fun verdict at_ => ?_, fun verdict at_ => ?_, reported.wrote⟩
  · exact (reported.left retval left).imp_right fun tells => ⟨grows tells.1, tells.2⟩
  · obtain ⟨retval, _, done, _⟩ := reported.joined verdict at_
    exact absurd done (busy retval)
  · obtain ⟨retval, _, _, done, _⟩ := reported.returned verdict at_
    exact absurd done (busy retval)

/-- It is still in its loop, and content. -/
theorem Reported.decodesOn (goes : leftWith { s with decoder := decoder } = none)
    (content : ∀ retval, decoder ≠ .poisoning retval) :
    Reported recvs events
      { s with decoder := decoder, net2dec := chan, dec := dec, dec2out := chunks } := by
  refine reported.decoderAt busy grows (fun retval at_ => absurd at_ (content retval)) ?_
  intro retval left
  cases goes.symm.trans left

/-- It is about to poison the channel. -/
theorem Reported.fails {retval : Int} (failed : retval ≠ Hgap.success.code) :
    Reported recvs events
      { s with decoder := .poisoning retval, net2dec := chan, dec := dec, dec2out := chunks } := by
  refine reported.decoderAt busy grows ?_ ?_
  · rintro _ ⟨⟩
    exact failed
  · rintro _ ⟨⟩

/-- It has left its loop. -/
theorem Reported.closes {retval : Int} (left : leftWith { s with decoder := decoder } = some retval)
    (failed : chan.poisoned = true → retval ≠ Hgap.success.code) :
    Reported recvs events
      { s with decoder := decoder, net2dec := chan, dec := dec, dec2out := chunks } := by
  refine reported.decoderAt busy grows ?_ fun ret same => ?_
  · rintro ret rfl
    cases left
  · cases left.symm.trans same
    exact failed

end Decoder

theorem ack_open {α : Type} {chan chan' : Channel α} {slot : Nat}
    (acked : channelAck chan slot = some chan') : chan'.poisoned = chan.poisoned := by
  unfold channelAck at acked
  split at acked
  · cases acked
  · split at acked
    · cases acked
    · cases acked
      rfl

theorem failed_code {verdict : Hgap} (failed : verdict ≠ .success) :
    verdict.code ≠ Hgap.success.code :=
  fun same => failed (Hgap.code_injective same)

theorem Reported.decloop {recvs' : Option (List Recv)}
    (ok : RecvOk wh pktCapacity chunkCapacity recvs' events s net out)
    (reported : Reported recvs events s) (wakes : Bool)
    (step : decloopStep wh wakes s = some (event, s')) :
    Reported recvs (events ++ [event]) s' := by
  have quiet := reported.silent .quiet RecvEvent.noConfusion
  have ipc : Hgap.errIpc.code ≠ Hgap.success.code := by decide
  cases at_ : s.decoder with
  | peeking =>
    have busy (retval : Int) : s.decoder ≠ .done retval := by simp [at_]
    simp only [decloopStep, at_] at step
    obtain ⟨answer, -, given⟩ := Option.map_eq_some_iff.mp step
    cases answer with
    | none =>
      obtain ⟨rfl, rfl⟩ := Prod.mk.inj given
      exact quiet.closes busy id rfl fun _ => ipc
    | some slot =>
      obtain ⟨rfl, rfl⟩ := Prod.mk.inj given
      exact quiet.decodesOn busy id rfl fun _ => DecodeAt.noConfusion
  | decoding slot =>
    have busy (retval : Int) : s.decoder ≠ .done retval := by simp [at_]
    have open_ := ok.openNet (by rw [decodes, at_]; trivial)
    cases element : s.net2dec.elts slot with
    | none =>
      simp only [decloopStep, at_, element, Option.some.injEq, Prod.mk.injEq] at step
      obtain ⟨rfl, rfl⟩ := step
      refine quiet.closes busy id rfl fun poisoned => ?_
      exact absurd (open_.symm.trans poisoned) Bool.false_ne_true
    | some d =>
      simp only [decloopStep, at_, element, Option.some.injEq, Prod.mk.injEq] at step
      obtain ⟨rfl, rfl⟩ := step
      have silent := reported.silent (.decoded d) RecvEvent.noConfusion
      exact silent.decodesOn busy id rfl fun _ => DecodeAt.noConfusion
  | acking slot ret =>
    have busy (retval : Int) : s.decoder ≠ .done retval := by simp [at_]
    have open_ := ok.openNet (by rw [decodes, at_]; trivial)
    cases acks : channelAck s.net2dec slot with
    | none =>
      simp only [decloopStep, at_, acks, Option.some.injEq, Prod.mk.injEq] at step
      obtain ⟨rfl, rfl⟩ := step
      exact quiet.closes busy id rfl fun _ => ipc
    | some chan =>
      simp only [decloopStep, at_, acks, Option.some.injEq, Prod.mk.injEq] at step
      obtain ⟨rfl, rfl⟩ := step
      have same := ack_open acks
      have grows (poisoned : s.net2dec.poisoned = true) : chan.poisoned = true :=
        same.trans poisoned
      split
      · exact quiet.decodesOn busy grows rfl fun _ => DecodeAt.noConfusion
      · split
        · refine quiet.closes busy grows rfl fun poisoned => ?_
          exact absurd ((same.trans open_).symm.trans poisoned) Bool.false_ne_true
        · split
          next negative =>
            refine quiet.fails busy grows ?_
            simp only [Hgap.code]
            omega
          next => exact quiet.decodesOn busy grows rfl fun _ => DecodeAt.noConfusion
  | emitting ret =>
    have busy (retval : Int) : s.decoder ≠ .done retval := by simp [at_]
    cases emit : hgapDecoderEmit wh s.dec ret.toNat with
    | none =>
      simp only [decloopStep, at_, emit, Option.some.injEq, Prod.mk.injEq] at step
      obtain ⟨rfl, rfl⟩ := step
      exact { quiet with }
    | some e =>
      by_cases good : e.ret = .success
      · simp only [decloopStep, at_, emit, if_pos good, Option.some.injEq, Prod.mk.injEq] at step
        obtain ⟨rfl, rfl⟩ := step
        have silent := reported.silent (.emitted ⟨s.dec.chunk.num, e.out⟩) RecvEvent.noConfusion
        exact silent.decodesOn busy id rfl fun _ => DecodeAt.noConfusion
      · simp only [decloopStep, at_, emit, if_neg good, Option.some.injEq, Prod.mk.injEq] at step
        obtain ⟨rfl, rfl⟩ := step
        exact quiet.fails busy id (failed_code good)
  | sending chunk =>
    have busy (retval : Int) : s.decoder ≠ .done retval := by simp [at_]
    simp only [decloopStep, at_] at step
    obtain ⟨answer, -, given⟩ := Option.map_eq_some_iff.mp step
    cases answer with
    | none =>
      obtain ⟨rfl, rfl⟩ := Prod.mk.inj given
      exact quiet.closes busy id rfl fun _ => ipc
    | some chan =>
      obtain ⟨rfl, rfl⟩ := Prod.mk.inj given
      exact quiet.decodesOn busy id rfl fun _ => DecodeAt.noConfusion
  | poisoning retval =>
    have busy (ret : Int) : s.decoder ≠ .done ret := by simp [at_]
    have failed := reported.failing retval at_
    simp only [decloopStep, at_, poisonNet] at step
    split at step
    next lost =>
      obtain ⟨rfl, rfl⟩ := Prod.mk.inj (Option.some.inj step)
      have silent := reported.silent .signalLost RecvEvent.noConfusion
      have closed : Reported recvs (events ++ [.signalLost])
          { s with decoder := .closing retval, net2dec := channelPoison s.net2dec } :=
        silent.closes busy (fun _ => rfl) rfl fun _ => failed
      exact { closed with
        reads := by rintro told ⟨⟩
        left := by rintro retval ⟨⟩
        joined := by rintro verdict ⟨⟩
        returned := by rintro verdict ⟨⟩ }
    next found =>
      obtain ⟨rfl, rfl⟩ := Prod.mk.inj (Option.some.inj step)
      have silent := reported.silent .poisoned RecvEvent.noConfusion
      exact silent.closes busy (fun _ => rfl) rfl fun _ => failed
  | closing retval =>
    have busy (ret : Int) : s.decoder ≠ .done ret := by simp [at_]
    have poisoned := reported.poisoned retval (by rw [leftWith, at_])
    simp only [decloopStep, at_] at step
    obtain ⟨answer, -, given⟩ := Option.map_eq_some_iff.mp step
    cases answer with
    | none =>
      obtain ⟨rfl, rfl⟩ := Prod.mk.inj given
      refine quiet.closes busy id rfl fun _ => ?_
      split
      · exact ipc
      next failed => exact failed
    | some chan =>
      obtain ⟨rfl, rfl⟩ := Prod.mk.inj given
      exact quiet.closes busy id rfl poisoned
  | done retval => simp only [decloopStep, at_, reduceCtorEq] at step

theorem Reported.writer (reported : Reported recvs events s) (answer : Option Nat)
    (step : writerStep answer s = some (event, s')) :
    Reported recvs (events ++ [event]) s' := by
  have quiet := reported.silent .quiet RecvEvent.noConfusion
  have unreturned (busy : ∀ retval, s.writer ≠ .done retval) (verdict : Int) :
      s.reader ≠ .returned verdict := by
    intro at_
    obtain ⟨_, _, retval, -, done, -⟩ := reported.returned verdict at_
    exact busy retval done
  cases at_ : s.writer with
  | receiving =>
    have noReturn := unreturned fun retval h => by rw [at_] at h; cases h
    have going : writesOn s := fun retval h => by rw [at_] at h; cases h
    have clean : .writeError ∉ events ++ [.quiet] := fun member => quiet.wrote.mp member going
    have on {s' : ReceiverState S} (goes : writesOn s') :
        .writeError ∈ events ++ [.quiet] ↔ ¬ writesOn s' := iff_of_false clean (not_not.mpr goes)
    simp only [writerStep, at_] at step
    obtain ⟨taken, -, given⟩ := Option.map_eq_some_iff.mp step
    split at given
    · obtain ⟨rfl, rfl⟩ := Prod.mk.inj given
      exact { quiet with
        returned := fun verdict h => absurd h (noReturn verdict)
        wrote := on (by rintro retval ⟨⟩; rfl) }
    · obtain ⟨rfl, rfl⟩ := Prod.mk.inj given
      exact { quiet with
        returned := fun verdict h => absurd h (noReturn verdict)
        wrote := on (by rintro retval ⟨⟩; rfl) }
    · obtain ⟨rfl, rfl⟩ := Prod.mk.inj given
      exact { quiet with
        returned := fun verdict h => absurd h (noReturn verdict)
        wrote := on (by rintro retval ⟨⟩) }
  | writing chunk =>
    have noReturn := unreturned fun retval h => by rw [at_] at h; cases h
    have going : writesOn s := fun retval h => by rw [at_] at h; cases h
    have clean : .writeError ∉ events := fun member => reported.wrote.mp member going
    simp only [writerStep, at_] at step
    split at step
    next complete =>
      obtain ⟨rfl, rfl⟩ := Prod.mk.inj (Option.some.inj step)
      exact { reported.silent (.wrote chunk) RecvEvent.noConfusion with
        returned := fun verdict h => absurd h (noReturn verdict)
        wrote := iff_of_false (by simpa using clean) (not_not.mpr (by rintro retval ⟨⟩)) }
    next incomplete =>
      obtain ⟨rfl, rfl⟩ := Prod.mk.inj (Option.some.inj step)
      exact { reported with
        returned := fun verdict h => absurd h (noReturn verdict)
        wrote := iff_of_true (by simp) fun on => Hgap.noConfusion (on _ rfl) }
  | done retval => simp only [writerStep, at_, reduceCtorEq] at step

theorem Reported.step {recvs' : Option (List Recv)}
    (ok : RecvOk wh pktCapacity chunkCapacity recvs' events s net out)
    (reported : Reported recvs events s) (step : ReceiverStep wh s event s') :
    Reported recvs (events ++ [event]) s' := by
  obtain ⟨actor, step⟩ := step
  unfold receiverStep at step
  split at step
  · cases step
  cases actor with
  | net => exact reported.netReader ok step
  | decode wakes => exact reported.decloop ok wakes step
  | write answer => exact reported.writer answer step

theorem reported_run {slots : Nat → Option Datagram} {pointers : Nat → Option OutChunk}
    (run : Steps (ReceiverStep wh)
      (.start pktCapacity chunkCapacity (some recvs) slots pointers) events s) :
    ∃ net out, RecvOk wh pktCapacity chunkCapacity (some recvs) events s net out ∧
      Reported recvs events s := by
  refine run.invariant (fun events s => ∃ net out,
    RecvOk wh pktCapacity chunkCapacity (some recvs) events s net out ∧ Reported recvs events s) ?_ ?_
  · exact ⟨.empty, .empty, recvOk_start slots pointers, reported_start recvs slots pointers⟩
  · rintro events s event s' ⟨net, out, ok, reported⟩ step
    obtain ⟨net', out', ok', -⟩ := ok.step step
    exact ⟨net', out', ok', reported.step ok step⟩

section Sequential
variable {reader retval : Int} {passed : List Datagram} {outs : List OutChunk}
  (stops : hgaprNetReader recvs = some (reader, passed))
  (sequential : Hairgap.Source.decloop wh hgapDecoderNew passed = some (retval, outs))
include stops sequential

/-- The count of the datagrams read goes along with the sequential loop. -/
theorem sequential_reads : ∃ reads,
    decloopReads wh hgapDecoderNew (datagrams (some recvs)) = some (reads, retval, outs) := by
  obtain ⟨⟨reads, last⟩, counted, same⟩ := Option.map_eq_some_iff.mp
    ((decloopReads_decloop wh hgapDecoderNew passed).trans sequential)
  rw [← netReader_datagrams recvs reader passed stops] at counted
  exact ⟨reads, counted.trans (congrArg some (congrArg (Prod.mk reads) same))⟩

/-- The value returned is that of the stages run one after the other. -/
theorem Reported.verdict (ok : RecvOk wh pktCapacity chunkCapacity (some recvs) events s net out)
    (reported : Reported recvs events s) {verdict : Int} (returned : s.reader = .returned verdict) :
    ∃ writer : Hgap, s.writer = .done writer ∧ (writer = .success ↔ .writeError ∉ events) ∧
      hgapReceive wh recvs writer.code = some (verdict, outs) := by
  obtain ⟨ret, told, writer, decoder, wrote, tells, rfl⟩ := reported.returned verdict returned
  obtain ⟨reads, counted⟩ := sequential_reads stops sequential
  obtain ⟨given, -, -, ends⟩ := ok.given counted
  obtain ⟨-, rfl, -⟩ := ends ret decoder
  refine ⟨writer, wrote, ?_, ?_⟩
  · rw [reported.wrote, not_not]
    constructor
    · rintro rfl ret done
      rw [wrote] at done
      cases done
      rfl
    · exact fun on => on writer wrote
  · have known : stopsWith recvs = some reader := by rw [stopsWith, stops, Option.map_some]
    have merged : hgapSelectError retval reader = hgapSelectError retval told.code := by
      rcases tells with tells | ⟨poisoned, rfl⟩
      · rw [Option.some.inj (known.symm.trans tells)]
      · -- the decoder has failed, and its errors come first
        have failed := reported.poisoned retval (by rw [leftWith, decoder]) poisoned
        have small := decloop_bound _ _ _ _ sequential
        have before : reader = Hgap.success.code ∨ retval < reader :=
          (stopsWith_network known).imp_right
            (Int.lt_of_lt_of_le (Int.lt_of_le_of_lt small (by decide)))
        rw [selectError_first failed before]
        exact (selectError_first failed (.inr (Int.lt_of_le_of_lt small (by decide)))).symm
    simp only [hgapReceive, stops, Option.bind_some, sequential, Option.map_some, merged]

end Sequential

/-- The return value of `hgap_receive` is that of its stages run one after the other, in every
order of the threads' steps; a failed write is all the writer reports. -/
theorem receiver_verdict {reader : Int} {passed : List Datagram}
    (stops : hgaprNetReader recvs = some (reader, passed))
    (slots : Nat → Option Datagram) (pointers : Nat → Option OutChunk)
    (run : Steps (ReceiverStep wh)
      (.start pktCapacity chunkCapacity (some recvs) slots pointers) events s) (verdict : Int)
    (returned : s.reader = .returned verdict) :
    ∃ (writer : Hgap) (outs : List OutChunk), s.writer = .done writer ∧
      (writer = .success ↔ .writeError ∉ events) ∧
      hgapReceive wh recvs writer.code = some (verdict, outs) := by
  obtain ⟨net, out, ok, reported⟩ := reported_run run
  obtain ⟨retval, outs, sequential⟩ := decloop_returns wh coherent_new passed
  obtain ⟨writer, wrote, success, received⟩ := reported.verdict stops sequential ok returned
  exact ⟨writer, outs, wrote, success, received⟩

end Reported

section Poisoned

/-- The second chunk begins when one block of two of the first one has come. -/
private def incomplete : List Datagram :=
  [hgapWriteHeader hgapHeaderBegin, hgapWriteHeader ⟨0, 2, 0, 1⟩ ++ [7],
    hgapWriteHeader ⟨1, 1, 0, 1⟩ ++ [9]].map .zeroed

/-- The network reader is in `recvfrom` when the channel is poisoned, and fails on the END packet
it receives then. -/
private def poisonsReader : List RecvActor :=
  turns [(13, .net), (11, .decode true), (1, .write none), (5, .net)]

private def poisonsChannel : RecvEvent → Bool
  | .poisoned => true
  | _ => false

theorem receiver_verdict_incomplete :
    ∃ (events : List RecvEvent) (s : ReceiverState RepetitionCode.State),
      events.any poisonsChannel = true ∧ s.reader = .returned Hgap.errIncompleteChunk.code ∧
      hgapReceive RepetitionCode.code
        (incomplete.map .datagram ++ .datagram (.zeroed (hgapWriteHeader hgapHeaderEnd)) :: [])
        Hgap.success.code = some (Hgap.errIncompleteChunk.code, []) := by
  have run : (scheduled (receiverStep RepetitionCode.code)
      (.start 4 1 (some (incomplete.map .datagram ++
        .datagram (.zeroed (hgapWriteHeader hgapHeaderEnd)) :: [])) (fun _ => none) (fun _ => none))
      poisonsReader).map (fun (events, s) => !events.any isWriteError && events.any poisonsChannel &&
          decide (s.reader = .returned Hgap.errIncompleteChunk.code)) = some true := by
    decide +kernel
  obtain ⟨⟨events, s⟩, run, told⟩ := Option.map_eq_some_iff.mp run
  simp only [Bool.and_eq_true] at told
  obtain ⟨⟨clean, poisons⟩, returned⟩ := told
  have returned := of_decide_eq_true returned
  have stops := netReader_stops incomplete (.zeroed (hgapWriteHeader hgapHeaderEnd)) []
    (by decide) (by decide +kernel)
  have emitted : (hgapReceive RepetitionCode.code
      (incomplete.map .datagram ++ .datagram (.zeroed (hgapWriteHeader hgapHeaderEnd)) :: [])
      Hgap.success.code).map Prod.snd = some [] := by decide +kernel
  obtain ⟨writer, outs, -, success, received⟩ :=
    receiver_verdict stops _ _ (scheduled_steps run) _ returned
  rw [success.mpr (not_any_isWriteError.mp clean)] at received
  rw [received, Option.map_some, Option.some.injEq] at emitted
  exact ⟨events, s, poisons, returned, emitted ▸ received⟩

end Poisoned

end Hairgap.Guarantees
