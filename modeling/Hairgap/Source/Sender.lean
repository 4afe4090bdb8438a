import Hairgap.Base.Blocks
import Hairgap.Source.Config

/-!
# The sequential sender

hgap_send.c:51-267. The packets of one transfer in the order `send_loop` passes them to
`hgap_sender_send`, with the reading and encoding threads run to completion first.
-/
namespace Hairgap.Source
open Hairgap.Base

/-- A negative redundancy reports a packet that could not be generated. -/
def Emitted.failed {S : Type} (e : Emitted S) : Bool := e.redund.lt (.fin 0)

/-- The datagram `send_loop` sends after one emission: as many octets of the buffer as
the emission reported. -/
def Emitted.datagrams {S : Type} (e : Emitted S) : List Bytes :=
  if e.failed then [] else e.pkt.toList.map fun (pkt, size) => pkt.take size

section
variable {S : Type} (wh : Wirehair S)

/-- The do/while loop of `send_loop`: its packets, and whether an emission failed. A
failure does not end the loop, which asks for more as long as the last returned value is
below the wanted redundancy. `none` without fuel, or when a `CHK` ends the process. -/
def emitLoop [Arithmetic] (redund : Double) : Nat → HgapEncChunk S → Option (List Bytes × Bool)
  | 0, _ => none
  | fuel + 1, chunk =>
    match hgapEncChunkEmit wh chunk with
    | none => none
    | some e =>
      if e.redund.lt redund then
        (emitLoop redund fuel e.chunk).map fun (pkts, failed) =>
          (e.datagrams ++ pkts, e.failed || failed)
      else some (e.datagrams, e.failed)

/-- Buffers of `read_loop` on an input without errors: full ones, then one that is not
full and may be empty. -/
def inputChunks (bufSize : Nat) (input : Bytes) : List Bytes :=
  (List.range (input.length / bufSize + 1)).map (Blocks.block bufSize input)

/-- `encode_loop` and the body of `send_loop`, one buffer after the other. A failed
initialisation sends the NULL chunk; a failed emission clears `more_data`. -/
def sendChunks (redund : Double) (fuel : Nat) : HgapEncoder → List Bytes → Option (List Bytes)
  | _, [] => some []
  | enc, toEnc :: rest =>
    match hgapEncChunkInit wh enc hgapEncChunkNew toEnc with
    | (.success, enc, chunk) =>
      match emitLoop wh redund fuel chunk with
      | none => none
      | some (pkts, true) => some pkts
      | some (pkts, false) => (sendChunks redund fuel enc rest).map (pkts ++ ·)
    | _ => some []

/-- `hgap_sender_control`. -/
def hgapSenderControl : Except Hgap Bytes → List Bytes
  | .ok pkt => List.replicate hgapSalveLen pkt
  | .error _ => []

/-- All datagrams of a transfer of an accepted configuration, the handwave first and
the teardown last. -/
def hgapSendDatagrams (config : HgapConfig) (fuel : Nat) (input : Bytes) :
    Option (List Bytes) :=
  (sendChunks wh config.redund fuel (hgapEncoderNew config.pktSize)
    (inputChunks config.bufSize input)).map fun pkts =>
      hgapSenderControl (hgapEncoderHandwave config.pktSize) ++ pkts ++
        hgapSenderControl (hgapEncoderTeardown config.pktSize)

end

/-- Octets of chunk number `i`. -/
def chunkAt (config : HgapConfig) (input : Bytes) (i : Nat) : Bytes :=
  Blocks.block config.bufSize input i

theorem inputChunks_eq (config : HgapConfig) (input : Bytes) :
    inputChunks config.bufSize input =
      (List.range (input.length / config.bufSize + 1)).map (chunkAt config input) := rfl

theorem chunkAt_mem {config : HgapConfig} {input : Bytes} {i : Nat}
    (within : i ≤ input.length / config.bufSize) :
    chunkAt config input i ∈ inputChunks config.bufSize input := by
  rw [inputChunks_eq]
  exact List.mem_map_of_mem (List.mem_range.mpr (Nat.lt_succ_of_le within))

theorem chunkAt_length_le (config : HgapConfig) (input : Bytes) (i : Nat) :
    (chunkAt config input i).length ≤ config.bufSize :=
  Blocks.block_length_le _ _ _

section
variable {S : Type} (wh : Wirehair S) (config : HgapConfig)

/-- Header and payload of a packet of a chunk. -/
def chunkPacket (num : UInt64) (content : Bytes) (ident : UInt32) (payload : Bytes) : Bytes :=
  hgapWriteHeader ⟨num, UInt64.ofNat content.length, ident, UInt32.ofNat payload.length⟩ ++ payload

/-- A packet of a chunk carries the whole chunk when that fits one payload, else one
full block the encoder of the chunk wrote. -/
inductive PacketOf (num : UInt64) (content : Bytes) : Bytes → Prop
  | whole (fits : content.length ≤ config.payload) (ident : UInt32) :
      PacketOf num content (chunkPacket num content ident content)
  | coded (long : config.payload < content.length) (enc : S)
      (encoded : wh.encode none content config.payload = some enc)
      (ident : UInt32) (block : Bytes) (written : wh.write enc ident = some block)
      (filled : block.length = config.payload) :
      PacketOf num content (chunkPacket num content ident block)

/-- The payload the packet of a chunk with a given id carries, when the code gives one. -/
def chunkPayload (content : Bytes) (ident : UInt32) : Bytes :=
  if content.length ≤ config.payload then content
  else ((wh.encode none content config.payload).bind (wh.write · ident)).getD []

/-- A chunk between its initialisation and the end of its emission loop. -/
structure Emitting (num : UInt64) (content : Bytes) (chunk : HgapEncChunk S) : Prop where
  num_eq : chunk.num = num
  len : chunk.len = content.length
  pktSize : chunk.pktSize = min config.pktSize (content.length + hgapHeaderLen)
  data : chunk.data = some content
  coded : config.payload < content.length →
    ∃ enc, chunk.whState = some enc ∧ wh.encode none content config.payload = some enc

variable {wh config} {num : UInt64} {content : Bytes} {chunk : HgapEncChunk S}

theorem PacketOf.octets {b : Bytes} (packet : PacketOf wh config num content b) :
    ∃ ident payload, b = chunkPacket num content ident payload := by
  cases packet with
  | whole _ ident => exact ⟨ident, content, rfl⟩
  | coded _ _ _ ident block => exact ⟨ident, block, rfl⟩

namespace Emitting

theorem payloadSize (sound : config.Sound) (emitting : Emitting wh config num content chunk) :
    hgapEncChunkPktPayloadSize chunk = min config.payload content.length := by
  have hpkt := sound.pktSize_eq
  have hsize : chunk.pktSize = min config.payload content.length + hgapHeaderLen := by
    rw [emitting.pktSize, hpkt]
    omega
  rw [hgapEncChunkPktPayloadSize, hsize, if_pos (Nat.le_add_left _ _), Nat.add_sub_cancel]

theorem isSmall (sound : config.Sound) (emitting : Emitting wh config num content chunk) :
    hgapEncChunkIsSmall chunk = decide (content.length ≤ config.payload) := by
  rw [hgapEncChunkIsSmall, emitting.payloadSize sound, emitting.len]
  congr 1
  simp

end Emitting

/-- A chunk that could be initialised is ready to emit. -/
theorem encChunkInit_emitting (sound : config.Sound) (enc enc' : HgapEncoder)
    (pktSize : enc.pktSize = config.pktSize) (content : Bytes)
    (chunk : HgapEncChunk S)
    (init : hgapEncChunkInit wh enc hgapEncChunkNew content = (.success, enc', chunk)) :
    Emitting wh config enc.nextChunkNum content chunk ∧
      enc' = { enc with nextChunkNum := enc.nextChunkNum + 1 } := by
  have hpay : min config.pktSize (content.length + hgapHeaderLen) =
      min config.payload content.length + hgapHeaderLen := by
    have := sound.pktSize_eq
    omega
  have hsize (whState : Option S) : hgapEncChunkPktPayloadSize (S := S)
      ⟨enc.nextChunkNum, content.length, min config.pktSize (content.length + hgapHeaderLen), 0,
        whState, some content, 0⟩ = min config.payload content.length := by
    rw [hgapEncChunkPktPayloadSize, hpay]
    simp
  unfold hgapEncChunkInit hgapEncChunkNew at init
  simp only [hgapEncChunkIsSmall, pktSize, hsize, decide_eq_true_eq] at init
  split at init
  next small =>
    obtain ⟨-, rfl, rfl⟩ := init
    refine ⟨⟨rfl, rfl, rfl, rfl, ?_⟩, ?_⟩
    · intro long
      omega
    · rw [pktSize]
  next big =>
    have hmin : min config.payload content.length = config.payload := by omega
    rw [hmin] at init
    split at init
    · cases init
    next state hstate =>
      obtain ⟨-, rfl, rfl⟩ := init
      refine ⟨⟨rfl, rfl, rfl, rfl, fun _ => ⟨state, hstate, hstate⟩⟩, ?_⟩
      rw [pktSize]

/-- A packet that was sealed is sent as a whole. -/
private theorem seal_datagrams [Arithmetic] (chunk : HgapEncChunk S) (ident : UInt64) (payload : Bytes)
    (size : chunk.pktSize = payload.length + hgapHeaderLen) :
    (hgapEncChunkSeal chunk ident payload.length payload).failed = false ∧
      (hgapEncChunkSeal chunk ident payload.length payload).datagrams =
        [hgapWriteHeader ⟨chunk.num, UInt64.ofNat chunk.len, ident.toUInt32,
          UInt32.ofNat payload.length⟩ ++ payload] := by
  have failed : (hgapEncChunkSeal chunk ident payload.length payload).failed = false :=
    Arithmetic.quotient_nonneg _ _
  refine ⟨failed, ?_⟩
  rw [Emitted.datagrams, failed]
  simp [hgapEncChunkSeal, size, List.take_of_length_le, Nat.add_comm]

/-- What an emission leaves of the chunk. -/
def HgapEncChunk.emitted [Arithmetic] (chunk : HgapEncChunk S) (size : Nat) : HgapEncChunk S :=
  { chunk with
    nextPktId := chunk.nextPktId + 1
    totalGen := Arithmetic.counter (chunk.totalGen + size) }

theorem Emitting.counted (emitting : Emitting wh config num content chunk) (ident : UInt64)
    (total : Nat) :
    Emitting wh config num content { chunk with nextPktId := ident, totalGen := total } :=
  ⟨emitting.num_eq, emitting.len, emitting.pktSize, emitting.data, emitting.coded⟩

/-- The two things an emission of an initialised chunk can do. -/
inductive EmissionCase [Arithmetic] (wh : Wirehair S) (config : HgapConfig) (num : UInt64)
    (content : Bytes) (chunk : HgapEncChunk S) : Emitted S → Prop
  | sent (e : Emitted S) (payload : Bytes) (ok : e.failed = false)
      (written : payload = chunkPayload wh config content chunk.nextPktId.toUInt32)
      (packet : PacketOf wh config num content
        (chunkPacket num content chunk.nextPktId.toUInt32 payload))
      (datagrams : e.datagrams = [chunkPacket num content chunk.nextPktId.toUInt32 payload])
      (size : payload.length = min config.payload content.length)
      (redund : e.redund = Arithmetic.quotient
        (Arithmetic.counter (chunk.totalGen + payload.length)) content.length)
      (after : e.chunk = chunk.emitted payload.length) : EmissionCase wh config num content chunk e
  | lost (e : Emitted S) (long : config.payload < content.length) (enc : S)
      (encoded : wh.encode none content config.payload = some enc)
      (unwritten : wh.write enc chunk.nextPktId.toUInt32 = none)
      (failed : e.failed = true) (datagrams : e.datagrams = [])
      (redund : e.redund = .fin (-1))
      (after : e.chunk = { chunk with nextPktId := chunk.nextPktId + 1 }) :
      EmissionCase wh config num content chunk e

theorem EmissionCase.emitting [Arithmetic] (emitting : Emitting wh config num content chunk)
    {e : Emitted S} (emission : EmissionCase wh config num content chunk e) :
    Emitting wh config num content e.chunk := by
  cases emission with
  | sent payload _ _ _ _ _ _ after => exact after ▸ emitting.counted _ _
  | lost _ _ _ _ _ _ _ after => exact after ▸ emitting.counted _ chunk.totalGen

/-- An initialised chunk never ends the process. -/
theorem emissionCase [Arithmetic] (sound : config.Sound) (fills : wh.WriteFills)
    (emitting : Emitting wh config num content chunk) :
    ∃ e, hgapEncChunkEmit wh chunk = some e ∧ EmissionCase wh config num content chunk e := by
  have hpkt := sound.pktSize_eq
  unfold hgapEncChunkEmit
  extract_lets ident next
  have emitting : Emitting wh config num content next :=
    ⟨emitting.num_eq, emitting.len, emitting.pktSize, emitting.data, emitting.coded⟩
  have after (size : Nat) :
      { next with totalGen := Arithmetic.counter (next.totalGen + size) } = chunk.emitted size := rfl
  have total : next.totalGen = chunk.totalGen := rfl
  have hsize := emitting.pktSize
  rw [emitting.isSmall sound]
  by_cases small : content.length ≤ config.payload
  · have whole : content.length + hgapHeaderLen = next.pktSize := by omega
    obtain ⟨ok, datagrams⟩ := seal_datagrams next ident content whole.symm
    refine ⟨hgapEncChunkSeal next ident content.length content, ?_, ?_⟩
    · rw [decide_eq_true small, if_pos rfl, emitting.len, if_pos whole, emitting.data,
        Option.map_some, List.take_of_length_le (Nat.le_refl _)]
    · refine .sent _ content ok ?_ (.whole small _) ?_ (by omega) ?_ (after _)
      · rw [chunkPayload, if_pos small]
      · simpa only [chunkPacket, emitting.num_eq, emitting.len] using datagrams
      · simp only [hgapEncChunkSeal, emitting.len, total]
  · have long : config.payload < content.length := Nat.lt_of_not_le small
    have block : min config.payload content.length = config.payload := by omega
    obtain ⟨enc, hstate, encoded⟩ := emitting.coded long
    rw [decide_eq_false small, if_neg Bool.false_ne_true, hstate, emitting.payloadSize sound,
      block, Option.bind_some]
    cases written : wh.write enc ident.toUInt32 with
    | none => exact ⟨_, rfl, .lost _ long enc encoded written rfl rfl rfl rfl⟩
    | some payload =>
      have filled := fills content config.payload enc _ payload encoded written
      obtain ⟨ok, datagrams⟩ := seal_datagrams next ident payload (by omega)
      rw [← filled]
      refine ⟨_, rfl, .sent _ payload ok ?_ ?_ ?_ (by omega) ?_ (after _)⟩
      · have written : wh.write enc chunk.nextPktId.toUInt32 = some payload := written
        rw [chunkPayload, if_neg small, encoded, Option.bind_some, written, Option.getD_some]
      · exact .coded long enc encoded _ payload written filled
      · simpa only [chunkPacket, emitting.num_eq, emitting.len] using datagrams
      · simp only [hgapEncChunkSeal, emitting.len, total]

/-- Every packet of an emission loop is one of the chunk it runs on. -/
theorem emitLoop_packets (sound : config.Sound) (fills : wh.WriteFills) (redund : Double)
    (fuel : Nat) (emitting : Emitting wh config num content chunk) (pkts : List Bytes)
    (failed : Bool) (loop : emitLoop wh redund fuel chunk = some (pkts, failed)) :
    ∀ pkt ∈ pkts, PacketOf wh config num content pkt := by
  induction fuel generalizing chunk pkts failed with
  | zero => cases loop
  | succ fuel ih =>
    obtain ⟨e, hemit, emission⟩ := emissionCase sound fills emitting
    have own : ∀ pkt ∈ e.datagrams, PacketOf wh config num content pkt := by
      cases emission with
      | sent payload _ _ packet datagrams => simp [datagrams, packet]
      | lost _ _ _ _ _ datagrams => simp [datagrams]
    have next := emission.emitting emitting
    simp only [emitLoop, hemit] at loop
    split at loop
    next =>
      obtain ⟨⟨more, later⟩, hmore, heq⟩ := Option.map_eq_some_iff.mp loop
      cases heq
      intro pkt member
      rcases List.mem_append.mp member with h | h
      · exact own pkt h
      · exact ih next more later hmore pkt h
    next =>
      cases loop
      exact own

/-- The packets of a transfer fall into one group a chunk, in order; the groups end early
when the sender does. -/
theorem sendChunks_groups (sound : config.Sound) (fills : wh.WriteFills) (redund : Double)
    (fuel : Nat) (enc : HgapEncoder) (pktSize : enc.pktSize = config.pktSize)
    (contents pkts : List Bytes) (sent : sendChunks wh redund fuel enc contents = some pkts) :
    ∃ groups : List (List Bytes), pkts = groups.flatten ∧ groups.length ≤ contents.length ∧
      ∀ i (h : i < groups.length), ∀ pkt ∈ groups[i],
        PacketOf wh config (enc.nextChunkNum + UInt64.ofNat i) (contents[i]?.getD []) pkt := by
  induction contents generalizing enc pkts with
  | nil =>
    cases sent
    exact ⟨[], rfl, Nat.le_refl _, nofun⟩
  | cons content rest ih =>
    unfold sendChunks at sent
    split at sent
    next enc' chunk init =>
      obtain ⟨emitting, rfl⟩ := encChunkInit_emitting sound enc enc' pktSize content chunk init
      have first (pkts : List Bytes) (failed : Bool)
          (loop : emitLoop wh redund fuel chunk = some (pkts, failed)) :
          ∀ pkt ∈ pkts, PacketOf wh config (enc.nextChunkNum + UInt64.ofNat 0) content pkt := by
        have packets := emitLoop_packets sound fills redund fuel emitting pkts failed loop
        simpa using packets
      split at sent
      · cases sent
      next group loop =>
        cases sent
        refine ⟨[pkts], by simp, by simp, ?_⟩
        intro i h
        obtain rfl : i = 0 := by simpa using h
        exact first pkts true loop
      next group loop =>
        obtain ⟨more, hmore, rfl⟩ := Option.map_eq_some_iff.mp sent
        obtain ⟨groups, rfl, hlen, packets⟩ := ih
          { enc with nextChunkNum := enc.nextChunkNum + 1 } pktSize more hmore
        refine ⟨group :: groups, by simp, by simpa using hlen, ?_⟩
        intro i h
        cases i with
        | zero => exact first group false loop
        | succ i =>
          have hnum : enc.nextChunkNum + UInt64.ofNat (i + 1) =
              enc.nextChunkNum + 1 + UInt64.ofNat i := by
            rw [UInt64.ofNat_add, UInt64.add_assoc]
            congr 1
            exact UInt64.add_comm _ _
          rw [hnum]
          exact packets i (Nat.lt_of_succ_lt_succ h)
    next =>
      cases sent
      exact ⟨[], rfl, Nat.zero_le _, nofun⟩

/-- The datagrams of a transfer: the salves, and between them the groups of its chunks. -/
theorem sendDatagrams_groups (sound : config.Sound) (fills : wh.WriteFills) (fuel : Nat)
    (input : Bytes) (sent : List Bytes)
    (done : hgapSendDatagrams wh config fuel input = some sent) :
    ∃ groups : List (List Bytes),
      sent = List.replicate hgapSalveLen (hgapWriteHeader hgapHeaderBegin) ++ groups.flatten ++
        List.replicate hgapSalveLen (hgapWriteHeader hgapHeaderEnd) ∧
      groups.length ≤ input.length / config.bufSize + 1 ∧
      ∀ i (h : i < groups.length), ∀ pkt ∈ groups[i],
        PacketOf wh config (UInt64.ofNat i) (chunkAt config input i) pkt := by
  have room : ¬ config.pktSize < hgapMinBuf := by
    rw [sound.pktSize_eq]
    exact Nat.not_lt.mpr (Nat.le_add_left _ _)
  obtain ⟨pkts, hpkts, rfl⟩ := Option.map_eq_some_iff.mp done
  obtain ⟨groups, rfl, hlen, packets⟩ := sendChunks_groups sound fills config.redund fuel
    (hgapEncoderNew config.pktSize) rfl _ pkts hpkts
  rw [inputChunks_eq, List.length_map, List.length_range] at hlen
  refine ⟨groups, ?_, hlen, ?_⟩
  · simp only [hgapEncoderHandwave, hgapEncoderTeardown, if_neg room, hgapSenderControl]
  · intro i h pkt member
    have packet := packets i h pkt member
    rw [inputChunks_eq, List.getElem?_map,
      List.getElem?_eq_getElem (by simpa using Nat.lt_of_lt_of_le h hlen)] at packet
    simpa [hgapEncoderNew] using packet

end

end Hairgap.Source
