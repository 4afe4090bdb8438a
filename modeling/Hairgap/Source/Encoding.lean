import Hairgap.Base.Rounding
import Hairgap.Source.Wirehair

/-!
# Chunks, encoder and decoder

encoding.h:201-206, encoding.c:29-451. The encoder and the decoder share `struct hgap_enc_chunk`.
Sizes are natural numbers; the subtraction of `hgap_enc_chunk_pkt_payload_size` and the sum in
`total_gen`, which can wrap, keep their 64 bits. A `double` is the number it stands for, or one of
the two values a division by zero can give; a conversion and a division round to the nearest, ties
to even, and neither overflow nor a subnormal result can occur in `total_gen / len`. What `-Ofast`
permits a compiler beyond that, allocations that fail and the freeing of memory are not modelled.
-/
namespace Hairgap.Source
open Hairgap.Base

inductive Double where
  | nan | posInf
  | fin (q : Rat)
  deriving DecidableEq, Repr

/-- The C comparison: false as soon as one side is not a number. -/
def Double.lt : Double → Double → Bool
  | .fin a, .fin b => decide (a < b)
  | .fin _, .posInf => true
  | _, _ => false

/-- The number a `double` stands for when it is the result of a conversion or an operation. -/
def Double.nearest (q : Rat) : Rat := Rounding.roundTo 53 q

/-- How `total_gen` is counted, and its quotient by a length. -/
class Arithmetic where
  counter : Nat → Nat
  quotient : Nat → Nat → Double
  counter_zero : counter 0 = 0
  counter_add (total size : Nat) : counter (counter total + size) = counter (total + size)
  quotient_nonneg (total len : Nat) : (quotient total len).lt (.fin 0) = false

namespace Arithmetic

/-- A division by zero, and by anything else the given number. -/
def dividing (total len : Nat) (number : Rat) : Double :=
  if len = 0 then (if total = 0 then .nan else .posInf) else .fin number

theorem dividing_nonneg (total len : Nat) {number : Rat} (nonneg : 0 ≤ number) :
    (dividing total len number).lt (.fin 0) = false := by
  unfold dividing
  split_ifs
  · rfl
  · rfl
  · exact decide_eq_false (not_lt.mpr nonneg)

/-- A `size_t`, and `(double) total / (double) len`. -/
instance machine : Arithmetic where
  counter total := total % 2 ^ 64
  quotient total len :=
    dividing total len (Double.nearest (Double.nearest total / Double.nearest len))
  counter_zero := rfl
  counter_add total size := Nat.mod_add_mod total _ size
  quotient_nonneg total len := dividing_nonneg total len
    (Rounding.roundTo_nonneg 53 (div_nonneg (Rounding.roundTo_nonneg 53 (Nat.cast_nonneg _))
      (Rounding.roundTo_nonneg 53 (Nat.cast_nonneg _))))

/-- Counting without a bound, and quotients without rounding. -/
@[reducible] def exact : Arithmetic where
  counter total := total
  quotient total len := dividing total len (total / len)
  counter_zero := rfl
  counter_add _ _ := rfl
  quotient_nonneg total len := dividing_nonneg total len
    (div_nonneg (Nat.cast_nonneg _) (Nat.cast_nonneg _))

/-- How far a quotient of the machine is from the exact one. -/
theorem quotient_close (total : Nat) {len : Nat} (nonempty : 0 < len) :
    ∃ q, quotient total len = .fin q ∧ |q - total / len| ≤ (total / len : Rat) / 2 ^ 51 := by
  refine ⟨_, if_neg (Nat.ne_of_gt nonempty), ?_⟩
  have close := Rounding.quotient_close (show 4 ≤ 53 by decide)
    (Nat.cast_nonneg (α := Rat) total) (Nat.cast_pos.mpr nonempty : (0 : Rat) < len)
  refine le_of_le_of_eq close ?_
  ring

end Arithmetic

structure HgapEncChunk (S : Type) where
  num : UInt64
  len : Nat
  pktSize : Nat
  nextPktId : UInt64
  whState : Option S
  data : Option Bytes
  totalGen : Nat
  deriving DecidableEq, Repr

structure HgapEncoder where
  pktSize : Nat
  nextChunkNum : UInt64
  deriving DecidableEq, Repr

inductive HgapDecoderState where
  | tNew | tStarted | tData | tStopped
  deriving DecidableEq, Repr

def HgapDecoderState.code : HgapDecoderState → Nat
  | .tNew => 0 | .tStarted => 1 | .tData => 2 | .tStopped => 3

structure HgapDecoder (S : Type) where
  chunk : HgapEncChunk S
  chunkComplete : Bool
  chunkEmitted : Bool
  state : HgapDecoderState
  deriving DecidableEq, Repr

section Chunk
variable {S : Type} (wh : Wirehair S)

/-- A `size_t` subtraction, which wraps below the header length. -/
def hgapEncChunkPktPayloadSize (chunk : HgapEncChunk S) : Nat :=
  if hgapHeaderLen ≤ chunk.pktSize then chunk.pktSize - hgapHeaderLen
  else 2 ^ 64 - hgapHeaderLen + chunk.pktSize

def hgapEncChunkIsSmall (chunk : HgapEncChunk S) : Bool :=
  decide (chunk.len ≤ hgapEncChunkPktPayloadSize chunk)

def hgapEncChunkPurge (chunk : HgapEncChunk S) : HgapEncChunk S :=
  { chunk with data := none }

/-- `xmalloc` and `memset` to zero. -/
def hgapEncChunkNew : HgapEncChunk S :=
  ⟨0, 0, 0, 0, none, none, 0⟩

/-- `total_gen` is not among the fields set here. -/
def hgapEncChunkInit (enc : HgapEncoder) (chunk : HgapEncChunk S) (toEnc : Bytes) :
    Hgap × HgapEncoder × HgapEncChunk S :=
  let chunk :=
    { chunk with
      num := enc.nextChunkNum
      len := toEnc.length
      pktSize := min enc.pktSize (toEnc.length + hgapHeaderLen)
      nextPktId := 0
      data := some toEnc }
  let enc := { enc with nextChunkNum := enc.nextChunkNum + 1 }
  if hgapEncChunkIsSmall chunk then (.success, enc, chunk)
  else
    let chunk := { chunk with
      whState := wh.encode chunk.whState toEnc (hgapEncChunkPktPayloadSize chunk) }
    match chunk.whState with
    | none => (.errWirehairError, enc, chunk)
    | some _ => (.success, enc, chunk)

/-- What one call of `hgap_enc_chunk_emit` leaves behind: the returned redundancy, the
packet and its reported size when one was written, and the chunk. -/
structure Emitted (S : Type) where
  redund : Double
  pkt : Option (Bytes × Nat)
  chunk : HgapEncChunk S

/-- Header and size bookkeeping behind a payload that was written. -/
def hgapEncChunkSeal [Arithmetic] (chunk : HgapEncChunk S) (ident : UInt64) (payloadSize : Nat)
    (payload : Bytes) : Emitted S :=
  let hdr : HgapHeader :=
    ⟨chunk.num, UInt64.ofNat chunk.len, ident.toUInt32, UInt32.ofNat payloadSize⟩
  let chunk := { chunk with totalGen := Arithmetic.counter (chunk.totalGen + payloadSize) }
  ⟨Arithmetic.quotient chunk.totalGen chunk.len, some (hgapWriteHeader hdr ++ payload, chunk.pktSize),
    chunk⟩

/-- `none` when a `CHK` or the copy from a NULL buffer ends the process. -/
def hgapEncChunkEmit [Arithmetic] (chunk : HgapEncChunk S) : Option (Emitted S) :=
  let ident := chunk.nextPktId
  let chunk := { chunk with nextPktId := ident + 1 }
  if hgapEncChunkIsSmall chunk then
    if chunk.len + hgapHeaderLen = chunk.pktSize then
      chunk.data.map fun data => hgapEncChunkSeal chunk ident chunk.len (data.take chunk.len)
    else none
  else
    match chunk.whState.bind fun state => wh.write state ident.toUInt32 with
    | none => some ⟨.fin (-1), none, chunk⟩
    | some block =>
      some (hgapEncChunkSeal chunk ident (hgapEncChunkPktPayloadSize chunk) block)

def hgapDecChunkInit (chunk : HgapEncChunk S) (pkt : HgapPkt) : Hgap × HgapEncChunk S :=
  let chunk :=
    { chunk with
      data := none
      num := pkt.hdr.chunkNum
      len := pkt.hdr.chunkSize.toNat
      pktSize := pkt.hdr.dataSize.toNat + hgapHeaderLen
      nextPktId := pkt.hdr.dataId.toUInt64 }
  if hgapEncChunkIsSmall chunk then (.success, chunk)
  else
    let chunk := { chunk with
      whState := wh.decode chunk.whState chunk.len (hgapEncChunkPktPayloadSize chunk) }
    match chunk.whState with
    | none => (.errWirehairError, chunk)
    | some _ => (.success, chunk)

/-- Result of taking a packet into a chunk; `taken` counts the payload octets read
through the packet's pointer. -/
structure ChunkRead (S : Type) where
  ret : Int
  chunk : HgapEncChunk S
  taken : Nat

def hgapDecChunkRead (chunk : HgapEncChunk S) (pkt : HgapPkt) : ChunkRead S :=
  match chunk.data with
  | some _ => ⟨chunk.len, chunk, 0⟩
  | none =>
    let ident := pkt.hdr.dataId.toUInt64
    let chunk := { chunk with nextPktId := ident + 1 }
    if hgapEncChunkIsSmall chunk then
      ⟨chunk.len, { chunk with data := some (load pkt.data 0 chunk.len) }, chunk.len⟩
    else
      match chunk.whState with
      -- "Error :(" in the source
      | none => ⟨-1, chunk, 0⟩
      | some state =>
        let size := hgapEncChunkPktPayloadSize chunk
        let answer := wh.read state ident.toUInt32 (load pkt.data 0 size)
        let chunk := { chunk with whState := some answer.1 }
        if answer.2 then ⟨chunk.len, chunk, size⟩ else ⟨0, chunk, size⟩

end Chunk

def hgapEncoderNew (pktSize : Nat) : HgapEncoder := ⟨pktSize, 0⟩

/-- The packet that announces a transfer, given the room in the caller's buffer. -/
def hgapEncoderHandwave (size : Nat) : Except Hgap Bytes :=
  if size < hgapMinBuf then .error .errBufferTooSmall
  else .ok (hgapWriteHeader hgapHeaderBegin)

def hgapEncoderTeardown (size : Nat) : Except Hgap Bytes :=
  if size < hgapMinBuf then .error .errBufferTooSmall
  else .ok (hgapWriteHeader hgapHeaderEnd)

theorem handwave_ok {size : Nat} {pkt : Bytes} (room : hgapEncoderHandwave size = .ok pkt) :
    pkt = hgapWriteHeader hgapHeaderBegin := by
  unfold hgapEncoderHandwave at room
  split at room
  · cases room
  · exact (Except.ok.inj room).symm

theorem teardown_ok {size : Nat} {pkt : Bytes} (room : hgapEncoderTeardown size = .ok pkt) :
    pkt = hgapWriteHeader hgapHeaderEnd := by
  unfold hgapEncoderTeardown at room
  split at room
  · cases room
  · exact (Except.ok.inj room).symm

section Decoder
variable {S : Type} (wh : Wirehair S)

/-- The number starts at `(uint64_t) -1`, and both flags are set with nothing behind them. -/
def hgapDecoderNew : HgapDecoder S :=
  ⟨{ hgapEncChunkNew with num := 0xffffffffffffffff }, true, true, .tNew⟩

/-- The flag tells whether the packet has to be handled. -/
def hgapDecoderUpdateState (dec : HgapDecoder S) (d : Datagram) : Bool × HgapDecoder S :=
  match hgapPktType d with
  | .begin_ => (false, if dec.state = .tNew then { dec with state := .tStarted } else dec)
  | .data => (true, if dec.state = .tStarted then { dec with state := .tData } else dec)
  | .end_ =>
    (false, if dec.state.code ≥ HgapDecoderState.tStarted.code then
      { dec with state := .tStopped } else dec)
  | .unknown => (false, dec)
  | .keepalive => (false, dec)

structure ReadResult (S : Type) where
  ret : Int
  dec : HgapDecoder S
  taken : Nat

/-- Tail of `hgap_decoder_read`: incorporate the packet in the current chunk. -/
def hgapDecoderIncorporate (dec : HgapDecoder S) (pkt : HgapPkt) : ReadResult S :=
  let ready := hgapDecChunkRead wh dec.chunk pkt
  ⟨ready.ret, { dec with
    chunk := ready.chunk
    chunkComplete := if ready.ret > 0 then true else dec.chunkComplete }, ready.taken⟩

/-- Part of `hgap_decoder_read` behind the tests on the protocol state: a data packet
meets the current chunk. The verdict of the chunk initialisation is not looked at. -/
def hgapDecoderHandle (dec : HgapDecoder S) (pkt : HgapPkt) : ReadResult S :=
  if pkt.hdr.chunkNum ≠ dec.chunk.num then
    if !dec.chunkComplete then ⟨-Hgap.errIncompleteChunk.code, dec, 0⟩
    else if pkt.hdr.chunkSize.toNat > hgapMaxChunkSize then ⟨-Hgap.errBadChunk.code, dec, 0⟩
    else
      let chunk := (hgapDecChunkInit wh (hgapEncChunkPurge dec.chunk) pkt).2
      hgapDecoderIncorporate wh
        { dec with chunk := chunk, chunkComplete := false, chunkEmitted := false } pkt
  else if dec.chunkComplete then
    if dec.chunkEmitted then ⟨0, dec, 0⟩ else ⟨dec.chunk.len, dec, 0⟩
  else hgapDecoderIncorporate wh dec pkt

/-- The verdict of the parser is not looked at. A packet it leaves unfilled is never of
type data, so it is never used. -/
def hgapDecoderRead (dec : HgapDecoder S) (d : Datagram) : ReadResult S :=
  let unfilled : HgapPkt := ⟨⟨0, 0, 0, 0⟩, d.ptr⟩
  let pkt := (hgapPktParse unfilled d).2
  let (handlePkt, dec) := hgapDecoderUpdateState dec d
  if dec.state.code < HgapDecoderState.tData.code then ⟨0, dec, 0⟩
  else if dec.state = .tStopped then ⟨-Hgap.eot.code, dec, 0⟩
  else if !handlePkt then ⟨0, dec, 0⟩
  else hgapDecoderHandle wh dec pkt

structure EmitResult (S : Type) where
  ret : Hgap
  dec : HgapDecoder S
  out : Bytes

/-- `none` when `CHK(dec->chunk->data)` ends the process. -/
def hgapDecoderEmit (dec : HgapDecoder S) (len : Nat) : Option (EmitResult S) :=
  if !dec.chunkComplete then some ⟨.errIncompleteChunk, dec, []⟩
  else if len < dec.chunk.len then some ⟨.errBufferTooSmall, dec, []⟩
  else if hgapEncChunkIsSmall dec.chunk then
    dec.chunk.data.map fun data =>
      ⟨.success, { dec with chunkEmitted := true }, data.take dec.chunk.len⟩
  else
    match dec.chunk.whState.bind wh.reconstruct with
    | none => some ⟨.errWirehairError, dec, []⟩
    | some message => some ⟨.success, { dec with chunkEmitted := true }, message⟩

end Decoder

end Hairgap.Source
