import Hairgap.Source.ChannelCalls
import Hairgap.Source.Sender

/-!
# The threads of the sender

hgap_send.c:51-336, sender.c:45-163. `read_loop`, `encode_loop`, and `send_loop` inside `hgap_send`,
over their two channels, with the keepalive thread of `hgap_sender_new`. A thread takes one step
from one of its places to the next; what the operating system answers is part of the step. Nobody
poisons these channels before they are freed, so a call on one is a single step. The limiter, the
answers of `sendto` for the packets of a chunk, which nobody looks at, and the creation of the
threads are not modelled.
-/
namespace Hairgap.Source
open Hairgap.Base

/-- What the input stream still gives, and whether it ends in a read error. -/
structure Input where
  unread : Bytes
  fails : Bool

/-- Capacity of both channels. -/
abbrev sendChanSize : Nat := 16

/-- Places in `read_loop`. A slot of its channel holds the buffer, none when the data pointer
is NULL. -/
inductive ReadAt where
  | reserving
  | reading (slot : Nat)
  | sending (slot : Nat) (eof : Bool)
  | poisoning (retval : Hgap)
  | resetting (slot : Nat) (retval : Hgap)
  | closing (slot : Nat) (retval : Hgap)
  | done (retval : Hgap)

/-- Places in `encode_loop`. -/
inductive EncodeAt (S : Type) where
  | peeking
  | encoding (slot : Nat)
  | sending (slot : Nat) (chunk : HgapEncChunk S)
  | acking (slot : Nat)
  | poisoning (retval : Hgap)
  | done (retval : Hgap)

/-- Places in `send_loop` and, behind it, in `hgap_send`. A salve is left with the packets
still to send; `failed` is `more_data` cleared by a failed emission. -/
inductive SendAt (S : Type) where
  | creating
  | handwaving
  | waving (pkt : Bytes) (left : Nat)
  | receiving
  | emitting (chunk : HgapEncChunk S) (failed : Bool)
  | tearingDown (retval : Hgap)
  | teardown (pkt : Bytes) (left : Nat) (retval : Hgap)
  | freeing (retval : Hgap)
  | joinKeepalive (retval : Hgap)
  | joinRead (retval : Hgap)
  | joinEncode (retval : Int)
  | returned (retval : Int)

/-- Places in `keepalive_loop_thread`. -/
inductive KeepaliveAt where
  | testing | sleeping | sending | ended
  deriving DecidableEq, Repr

/-- `struct hgap_sender`: the shared flag, and the thread behind it. -/
structure HgapSender where
  cont : Bool
  thread : KeepaliveAt
  deriving DecidableEq, Repr

/-- Ways for the process to end inside a thread. -/
inductive Exit where
  | check | nullSender
  deriving DecidableEq, Repr

structure SenderState (S : Type) where
  input : Input
  in2enc : Channel (Option Bytes)
  enc2net : Channel (Option (HgapEncChunk S))
  enc : HgapEncoder
  reader : ReadAt
  encoder : EncodeAt S
  main : SendAt S
  sender : Option HgapSender
  exited : Option Exit

/-- What a step shows. -/
inductive SendEvent where
  | quiet
  | read (buf : Bytes) (eof : Bool)
  | readError
  | encoded (num : UInt64) (buf : Bytes)
  | encodeError
  | senderError
  | control (pkt : Bytes)
  | controlError
  | emitted (num : UInt64) (len : Nat) (redund : Double) (pkts : List Bytes)
  | emitError
  | keepalive (pkt : Bytes)
  | keepaliveError
  deriving DecidableEq, Repr

/-- Who takes a step. The flag is the answer of the call of the operating system the step
makes, if it makes one. -/
inductive SendActor where
  | read
  | encode
  | send (answer : Bool)
  | keepalive (answer : Bool)
  deriving DecidableEq, Repr

section
variable {S : Type} (wh : Wirehair S) (config : HgapConfig) (keepalive : UInt32)

/-- The state `hgap_send` starts its threads in; a NULL input leaves only the poison to send. -/
def SenderState.start (input : Input) (slots : Nat → Option Bytes)
    (pointers : Nat → Option (HgapEncChunk S)) : SenderState S where
  input := input
  in2enc := channelNew sendChanSize slots
  enc2net := channelNew sendChanSize pointers
  enc := hgapEncoderNew config.pktSize
  reader := if config.inFile.isSome then .reserving else .poisoning .errBadInFd
  encoder := .peeking
  main := .creating
  sender := none
  exited := none

def SenderState.exit (s : SenderState S) (how : Exit) : SenderState S :=
  { s with exited := some how }

/-- `read_chunk` reads up to the size of the buffer. -/
def readChunk (bufSize : Nat) (input : Input) : Bytes × Input :=
  (input.unread.take bufSize, { input with unread := input.unread.drop bufSize })

/-- The stream was at its end before the buffer was full. -/
def Input.short (bufSize : Nat) (input : Input) : Bool := decide (input.unread.length < bufSize)

/-- A step of `read_loop`; `none` when the thread is blocked or has returned. -/
def readLoopStep (s : SenderState S) : Option (SendEvent × SenderState S) :=
  match s.reader with
  | .reserving => (channelReserve s.in2enc).map fun
    | none => (.quiet, s.exit .check)
    | some slot => (.quiet, { s with reader := .reading slot })
  | .reading slot =>
    let (buf, input) := readChunk config.bufSize s.input
    let s' := { s with in2enc := s.in2enc.filled slot (some buf), input := input }
    match s.input.short config.bufSize, s.input.fails with
    | true, true => some (.readError, { s' with reader := .poisoning .errFileRead })
    | eof, _ => some (.read buf eof, { s' with reader := .sending slot eof })
  | .sending slot eof =>
    match channelSendReserved s.in2enc slot with
    | none => some (.quiet, { s with reader := .poisoning .errIpc })
    | some chan => some (.quiet, { s with
      in2enc := chan, reader := if eof then .poisoning .success else .reserving })
  | .poisoning retval => (channelReserve s.in2enc).map fun
    | none => (.quiet, { s with reader := .done retval })
    | some slot => (.quiet, { s with reader := .resetting slot retval })
  | .resetting slot retval => some (.quiet, { s with
    in2enc := s.in2enc.filled slot none, reader := .closing slot retval })
  | .closing slot retval =>
    match channelSendReserved s.in2enc slot with
    | none => some (.quiet, { s with reader := .done .errIpc })
    | some chan => some (.quiet, { s with in2enc := chan, reader := .done retval })
  | .done _ => none

/-- A step of `encode_loop`. The chunk is new in every turn, and the poison is not
acknowledged. -/
def encodeLoopStep (s : SenderState S) : Option (SendEvent × SenderState S) :=
  match s.encoder with
  | .peeking => (channelPeek s.in2enc).map fun
    | none => (.quiet, { s with encoder := .poisoning .success })
    | some slot => (.quiet, { s with encoder := .encoding slot })
  | .encoding slot =>
    match s.in2enc.elts slot with
    | none => some (.quiet, { s with encoder := .poisoning .success })
    | some toEnc =>
      match hgapEncChunkInit wh s.enc hgapEncChunkNew toEnc with
      | (.success, enc, chunk) => some (.encoded s.enc.nextChunkNum toEnc,
        { s with enc := enc, encoder := .sending slot chunk })
      | (ret, enc, _) => some (.encodeError, { s with enc := enc, encoder := .poisoning ret })
  | .sending slot chunk => (channelSend s.enc2net (some chunk)).map fun
    | none => (.quiet, { s with encoder := .poisoning .errIpc })
    | some chan => (.quiet, { s with enc2net := chan, encoder := .acking slot })
  | .acking slot => some (.quiet, { s with
    in2enc := (channelAck s.in2enc slot).getD s.in2enc, encoder := .peeking })
  | .poisoning retval => (channelSend s.enc2net none).map fun
    | none => (.quiet, { s with encoder := .done .errIpc })
    | some chan => (.quiet, { s with enc2net := chan, encoder := .done retval })
  | .done _ => none

/-- `hgap_sender_new` when its system calls succeed. -/
def hgapSenderNew : HgapSender :=
  if keepalive = 0 then ⟨false, .ended⟩ else ⟨true, .testing⟩

/-- A step of `send_loop` or of the end of `hgap_send`. `answer` tells whether the sender could
be created, or a packet of a salve be sent; what becomes of a chunk's packets is not looked at. -/
def sendLoopStep (answer : Bool) (s : SenderState S) : Option (SendEvent × SenderState S) :=
  match s.main with
  | .creating =>
    if answer then some (.quiet, { s with
      sender := some (hgapSenderNew keepalive), main := .handwaving })
    else some (.senderError, { s with main := .freeing .errInternal })
  | .handwaving =>
    match hgapEncoderHandwave config.pktSize with
    | .error _ => some (.controlError, { s with main := .freeing .errBufferTooSmall })
    | .ok pkt => some (.quiet, { s with main := .waving pkt hgapSalveLen })
  | .waving _ 0 => some (.quiet, { s with main := .receiving })
  | .waving pkt (left + 1) =>
    if answer then some (.control pkt, { s with main := .waving pkt left })
    else some (.controlError, { s with main := .freeing .errNetwork })
  | .receiving => (channelRecv s.enc2net).map fun
    | none => (.quiet, { s with main := .freeing .errIpc })
    | some (none, chan) => (.quiet, { s with enc2net := chan, main := .tearingDown .success })
    | some (some chunk, chan) => (.quiet, { s with
      enc2net := chan, main := .emitting chunk false })
  | .emitting chunk failed =>
    match hgapEncChunkEmit wh chunk with
    | none => some (.quiet, s.exit .check)
    | some e =>
      let failed := failed || e.failed
      let event := if e.failed then .emitError
        else .emitted chunk.num chunk.len e.redund e.datagrams
      let main := if e.redund.lt config.redund then .emitting e.chunk failed
        else if failed then .tearingDown .errWirehairError else .receiving
      some (event, { s with main := main })
  | .tearingDown retval =>
    match hgapEncoderTeardown config.pktSize with
    -- the handwave had the same room
    | .error _ => some (.quiet, { s with main := .freeing retval })
    | .ok pkt => some (.quiet, { s with main := .teardown pkt hgapSalveLen retval })
  | .teardown _ 0 retval => some (.quiet, { s with main := .freeing retval })
  | .teardown pkt (left + 1) retval =>
    if answer then some (.control pkt, { s with main := .teardown pkt left retval })
    else some (.controlError, { s with main := .freeing retval })
  | .freeing retval =>
    match s.sender with
    | none => some (.quiet, s.exit .nullSender)
    | some hs =>
      if hs.cont then some (.quiet, { s with
        sender := some { hs with cont := false }, main := .joinKeepalive retval })
      else some (.quiet, { s with sender := none, main := .joinRead retval })
  | .joinKeepalive retval =>
    match s.sender with
    | some ⟨_, .ended⟩ => some (.quiet, { s with sender := none, main := .joinRead retval })
    | _ => none
  | .joinRead retval =>
    match s.reader with
    | .done ret => some (.quiet, { s with
      main := .joinEncode (hgapSelectError ret.code retval.code) })
    | _ => none
  | .joinEncode retval =>
    match s.encoder with
    | .done ret => some (.quiet, { s with
      main := .returned (hgapSelectError ret.code retval) })
    | _ => none
  | .returned _ => none

/-- A step of `keepalive_loop_thread`. A packet that cannot be sent ends the process. -/
def keepaliveLoopStep (answer : Bool) (s : SenderState S) : Option (SendEvent × SenderState S) :=
  match s.sender with
  | none => none
  | some hs =>
    match hs.thread with
    | .testing => some (.quiet, { s with
      sender := some { hs with thread := if hs.cont then .sleeping else .ended } })
    | .sleeping => some (.quiet, { s with sender := some { hs with thread := .sending } })
    | .sending =>
      if answer then some (.keepalive (hgapWriteHeader hgapHeaderKeepalive),
        { s with sender := some { hs with thread := .testing } })
      else some (.keepaliveError, s.exit .check)
    | .ended => none

/-- One step of the process. -/
def senderStep (s : SenderState S) (actor : SendActor) : Option (SendEvent × SenderState S) :=
  if s.exited.isSome then none
  else match actor with
    | .read => readLoopStep config s
    | .encode => encodeLoopStep wh s
    | .send answer => sendLoopStep wh config keepalive answer s
    | .keepalive answer => keepaliveLoopStep answer s

/-- Some thread takes a step. -/
def SenderStep (s : SenderState S) (event : SendEvent) (s' : SenderState S) : Prop :=
  ∃ actor, senderStep wh config keepalive s actor = some (event, s')

end

end Hairgap.Source
