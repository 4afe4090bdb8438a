import Hairgap.Source.ChannelCalls
import Hairgap.Source.Receiver

/-!
# The threads of the receiver

hgap_receive.c:87-389. `hgapr_net_reader` inside `hgap_receive`, `decloop`, and `writer`, over their
two channels. As for the sender, a thread takes one step from one of its places to the next, and
the answer of the operating system is part of the step. The configuration check, the creation of
the threads, the socket options and the synchronisation of the output are not modelled.
-/
namespace Hairgap.Source
open Hairgap.Base

/-- Places in `hgapr_net_reader` and, behind it, in `hgap_receive`. A slot of the packet
channel holds the datagram, none when the data pointer is NULL. Asleep is a wait that nobody
ends any more. -/
inductive NetAt where
  | reserving
  | receiving (slot : Nat)
  | sending (slot : Nat) (last : Bool)
  | publishing (slot : Nat) (last : Bool)
  | poisoning (retval : Hgap)
  | resetting (slot : Nat) (retval : Hgap)
  | closing (slot : Nat) (retval : Hgap)
  | publishingPill (slot : Nat) (retval : Hgap)
  | joinDecoder (retval : Hgap)
  | joinWriter (retval : Int)
  | returned (retval : Int)
  | asleep
  deriving DecidableEq, Repr

/-- Places in `decloop`. -/
inductive DecodeAt where
  | peeking
  | decoding (slot : Nat)
  | acking (slot : Nat) (ret : Int)
  | emitting (ret : Int)
  | sending (chunk : OutChunk)
  | poisoning (retval : Int)
  | closing (retval : Int)
  | done (retval : Int)

/-- Places in `writer`. -/
inductive WriteAt where
  | receiving
  | writing (chunk : OutChunk)
  | done (retval : Hgap)

/-- `arriving` is what `recvfrom` has yet to answer, `writes` what each call of `write` left in
the output. -/
structure ReceiverState (S : Type) where
  arriving : List Recv
  net2dec : Channel (Option Datagram)
  dec2out : Channel (Option OutChunk)
  dec : HgapDecoder S
  reader : NetAt
  decoder : DecodeAt
  writer : WriteAt
  writes : List Bytes
  exited : Bool

/-- What a step shows. -/
inductive RecvEvent where
  | quiet
  | received (d : Datagram)
  | decoded (d : Datagram)
  | emitted (chunk : OutChunk)
  | poisoned
  | signalLost
  | wrote (chunk : OutChunk)
  | writeError

/-- Who takes a step. The decoder's flag tells whether the signal of `channel_poison` finds the
thread it is for asleep; a write is answered with the number of octets written. -/
inductive RecvActor where
  | net
  | decode (wakes : Bool)
  | write (answer : Option Nat)
  deriving DecidableEq, Repr

section
variable {S : Type} (wh : Wirehair S)

/-- The state `hgap_receive` starts its threads in; without a socket only the poison is sent. -/
def ReceiverState.start (pktCapacity chunkCapacity : Nat) (socket : Option (List Recv))
    (slots : Nat → Option Datagram) (chunks : Nat → Option OutChunk) : ReceiverState S where
  arriving := socket.getD []
  net2dec := channelNew pktCapacity slots
  dec2out := channelNew chunkCapacity chunks
  dec := hgapDecoderNew
  reader := if socket.isSome then .reserving else .poisoning .errNetwork
  decoder := .peeking
  writer := .receiving
  writes := []
  exited := false

def ReceiverState.exit (s : ReceiverState S) : ReceiverState S := { s with exited := true }

/-- A step of `hgapr_net_reader` or of the end of `hgap_receive`; `none` when the thread is
blocked, waits in `recvfrom` or has returned. -/
def netReaderStep (s : ReceiverState S) : Option (RecvEvent × ReceiverState S) :=
  match s.reader with
  | .reserving => (channelReserve s.net2dec).map fun
    | none => (.quiet, s.exit)
    | some slot => (.quiet, { s with reader := .receiving slot })
  | .receiving slot =>
    match s.arriving with
    | [] => none
    | .timedOut :: rest => some (.quiet, { s with
      arriving := rest, reader := .poisoning .errTimeout })
    | .failed :: rest => some (.quiet, { s with
      arriving := rest, reader := .poisoning .errNetwork })
    | .datagram d :: rest => some (.received d, { s with
      arriving := rest
      net2dec := s.net2dec.filled slot (some d)
      reader := .sending slot (decide (hgapPktType d = .end_)) })
  | .sending slot last => some (.quiet, { s with
    reader :=
      if channelSendChecks s.net2dec slot then .publishing slot last else .poisoning .errIpc })
  | .publishing _ last => some (.quiet, { s with
    net2dec := s.net2dec.moved .producer
    reader := if last then .poisoning .success else .reserving })
  | .poisoning retval => (channelReserve s.net2dec).map fun
    | none => (.quiet, { s with reader := .joinDecoder retval })
    | some slot => (.quiet, { s with reader := .resetting slot retval })
  | .resetting slot retval => some (.quiet, { s with
    net2dec := s.net2dec.filled slot none, reader := .closing slot retval })
  | .closing slot retval => some (.quiet, { s with
    reader :=
      if channelSendChecks s.net2dec slot then .publishingPill slot retval
      else .joinDecoder .errIpc })
  | .publishingPill _ retval => some (.quiet, { s with
    net2dec := s.net2dec.moved .producer, reader := .joinDecoder retval })
  | .joinDecoder retval =>
    match s.decoder with
    | .done ret => some (.quiet, { s with
      reader := .joinWriter (hgapSelectError ret retval.code) })
    | _ => none
  | .joinWriter retval =>
    match s.writer with
    | .done ret => some (.quiet, { s with
      reader := .returned (hgapSelectError ret.code retval) })
    | _ => none
  | .returned _ | .asleep => none

/-- The reader waits for a slot of the packet channel. -/
def NetAt.waits : NetAt → Bool
  | .reserving | .poisoning _ => true
  | _ => false

/-- `channel_poison` leaves the mutex alone: a reader that has found the channel full and does
not sleep yet misses the signal. -/
def poisonNet (wakes : Bool) (s : ReceiverState S) : RecvEvent × ReceiverState S :=
  if channelIsFull s.net2dec && s.reader.waits && !wakes then
    (.signalLost, { s with net2dec := channelPoison s.net2dec, reader := .asleep })
  else (.poisoned, { s with net2dec := channelPoison s.net2dec })

/-- A step of `decloop`. The datagram is decoded in its slot, and acknowledged before the
result is looked at. -/
def decloopStep (wakes : Bool) (s : ReceiverState S) : Option (RecvEvent × ReceiverState S) :=
  match s.decoder with
  | .peeking => (channelPeek s.net2dec).map fun
    | none => (.quiet, { s with decoder := .closing Hgap.errIpc.code })
    | some slot => (.quiet, { s with decoder := .decoding slot })
  | .decoding slot =>
    match s.net2dec.elts slot with
    | none => some (.quiet, { s with decoder := .closing Hgap.success.code })
    | some d =>
      let r := hgapDecoderRead wh s.dec d
      some (.decoded d, { s with dec := r.dec, decoder := .acking slot r.ret })
  | .acking slot ret =>
    match channelAck s.net2dec slot with
    | none => some (.quiet, { s with decoder := .closing Hgap.errIpc.code })
    | some chan => some (.quiet, { s with
      net2dec := chan
      decoder :=
        if ret = 0 then .peeking
        else if ret = -Hgap.eot.code then .closing Hgap.success.code
        else if ret < 0 then .poisoning (-ret)
        else .emitting ret })
  | .emitting ret =>
    match hgapDecoderEmit wh s.dec ret.toNat with
    | none => some (.quiet, s.exit)
    | some e =>
      if e.ret = .success then
        let chunk : OutChunk := ⟨s.dec.chunk.num, e.out⟩
        some (.emitted chunk, { s with dec := e.dec, decoder := .sending chunk })
      else some (.quiet, { s with dec := e.dec, decoder := .poisoning e.ret.code })
  | .sending chunk => (channelSend s.dec2out (some chunk)).map fun
    | none => (.quiet, { s with decoder := .closing Hgap.errIpc.code })
    | some chan => (.quiet, { s with dec2out := chan, decoder := .peeking })
  | .poisoning retval =>
    let (event, s) := poisonNet wakes s
    some (event, { s with decoder := .closing retval })
  | .closing retval => (channelSend s.dec2out none).map fun
    | none => (.quiet, { s with
      decoder := .done (if retval = Hgap.success.code then Hgap.errIpc.code else retval) })
    | some chan => (.quiet, { s with dec2out := chan, decoder := .done retval })
  | .done _ => none

/-- A step of `writer`. A write of fewer octets than the chunk has ends it, like one that
fails. -/
def writerStep (answer : Option Nat) (s : ReceiverState S) :
    Option (RecvEvent × ReceiverState S) :=
  match s.writer with
  | .receiving => (channelRecv s.dec2out).map fun
    | none => (.quiet, { s with writer := .done .success })
    | some (none, chan) => (.quiet, { s with dec2out := chan, writer := .done .success })
    | some (some chunk, chan) => (.quiet, { s with dec2out := chan, writer := .writing chunk })
  | .writing chunk =>
    let s' := { s with writes := s.writes ++ [chunk.data.take (answer.getD 0)] }
    if answer.any (chunk.data.length ≤ ·) then some (.wrote chunk, { s' with writer := .receiving })
    else some (.writeError, { s' with writer := .done .errBadOutFd })
  | .done _ => none

/-- One step of the process. -/
def receiverStep (s : ReceiverState S) (actor : RecvActor) :
    Option (RecvEvent × ReceiverState S) :=
  if s.exited then none
  else match actor with
    | .net => netReaderStep s
    | .decode wakes => decloopStep wh wakes s
    | .write answer => writerStep answer s

/-- Some thread takes a step. -/
def ReceiverStep (s : ReceiverState S) (event : RecvEvent) (s' : ReceiverState S) : Prop :=
  ∃ actor, receiverStep wh s actor = some (event, s')

end

end Hairgap.Source
