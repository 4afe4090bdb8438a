import Hairgap.Guarantees.Integrity
import Hairgap.Source.Emission
import Hairgap.Source.RepetitionCode

/-!
# What the sender emits, the receiver reads

The two sides never exchange a configuration. Each packet carries in its header all that
the decoder needs to make the same choices as the encoder.
-/
namespace Hairgap.Guarantees
open Hairgap.Base Hairgap.Source

section
variable {S : Type} (wh : Wirehair S) (config : HgapConfig)

/-- A packet of a chunk, of the size reported with it, as the receiver sees it. -/
structure ReadAlike (num : UInt64) (content : Bytes) (chunk : HgapEncChunk S) (size : Nat)
    (d : Datagram) : Prop where
  length : d.bytes.length = size
  size : size = hgapHeaderLen + d.pkt.hdr.dataSize.toNat
  parsed : ∀ unfilled, hgapPktParse unfilled d = (.success, d.pkt)
  type : num < hgapFirstReserved → hgapPktType d = .data
  num : d.pkt.hdr.chunkNum = num
  chunkSize : d.pkt.hdr.chunkSize.toNat = content.length
  limit : d.pkt.hdr.chunkSize.toNat ≤ hgapMaxChunkSize
  dataSize : d.pkt.hdr.dataSize.toNat = min config.payload content.length
  /-- The decoder chooses the same representation as the encoder. -/
  small : ∀ old, hgapEncChunkIsSmall (hgapDecChunkInit wh old d.pkt).2 = hgapEncChunkIsSmall chunk
  /-- Coded chunks have the same blocks on both sides, within the limits of the code. -/
  coded : hgapEncChunkIsSmall chunk = false →
    (∀ old, hgapEncChunkPktPayloadSize (hgapDecChunkInit wh old d.pkt).2 =
      hgapEncChunkPktPayloadSize chunk) ∧
    2 ≤ blockCount content.length (hgapEncChunkPktPayloadSize chunk) ∧
    blockCount content.length (hgapEncChunkPktPayloadSize chunk) ≤ hgapMaxNPkt

variable {wh config} {num : UInt64} {content : Bytes} {chunk : HgapEncChunk S}

/-- A packet the parser accepts is filled in from the datagram. -/
theorem pktParse_eq (unfilled : HgapPkt) (d : Datagram)
    (whole : d.pkt.hdr.dataSize.toNat + hgapHeaderLen ≤ d.bytes.length) :
    hgapPktParse unfilled d = (.success, d.pkt) := by
  unfold hgapPktParse
  generalize d.pkt = filled at whole ⊢
  obtain ⟨⟨num, size, ident, dataSize⟩, data⟩ := filled
  have long : ¬ d.bytes.length < hgapHeaderLen := by omega
  have full : ¬ d.bytes.length < dataSize.toNat + hgapHeaderLen := Nat.not_lt.mpr whole
  simp only [if_neg long, if_neg full]

/-- A chunk too long for one payload has at least two blocks. -/
theorem two_le_blockCount (sound : config.Sound) {len : Nat} (long : config.payload < len) :
    2 ≤ blockCount len config.payload := by
  unfold blockCount
  rw [Nat.le_div_iff_mul_le sound.payload_pos]
  omega

/-- The decoder starts any chunk structure over like its own. -/
theorem decChunkInit_started (wh : Wirehair S) (old : HgapEncChunk S) (pkt : HgapPkt) :
    (hgapDecChunkInit wh old pkt).2 = startedChunk wh ⟨old, false, false, .tData⟩ pkt := rfl

theorem readAlike (sound : config.Sound) (fits : content.length ≤ config.bufSize)
    (emitting : Emitting wh config num content chunk) (d : Datagram)
    (packet : PacketOf wh config num content d.bytes)
    (length : d.bytes.length = hgapHeaderLen + min config.payload content.length) :
    ReadAlike wh config num content chunk (hgapHeaderLen + min config.payload content.length) d := by
  obtain ⟨hnum, carries⟩ := PacketOf.carries sound fits d packet
  have started (old : HgapEncChunk S) := decChunkInit_started wh old d.pkt
  have isSmall := emitting.isSmall sound
  have payload := emitting.payloadSize sound
  have limit := sound.bufSize_le
  refine ⟨length, by rw [carries.dataSize], fun unfilled => pktParse_eq unfilled d ?_, ?_, hnum,
    carries.size, ?_, carries.dataSize, ?_, ?_⟩
  · rw [carries.dataSize]
    omega
  · intro low
    refine (pktType_data_iff d).mpr ⟨by omega, ?_⟩
    rw [← hnum] at low
    exact low
  · rw [carries.size]
    exact Nat.le_trans fits (Nat.le_trans limit (by decide))
  · intro old
    rw [started, startedChunk_isSmall, carries.size, carries.dataSize, isSmall]
    congr 1
    simp
  · intro isBig
    rw [isSmall] at isBig
    have long : config.payload < content.length := Nat.lt_of_not_le (of_decide_eq_false isBig)
    have block : min config.payload content.length = config.payload := by omega
    rw [payload, block]
    refine ⟨fun old => ?_, two_le_blockCount sound long, sound.blockCount_le fits⟩
    rw [started, startedChunk_payloadSize, carries.dataSize, block]

/-- A call of `hgap_enc_chunk_emit` that succeeds writes one packet of the chunk and reports
its size. -/
theorem emit_packet (sound : config.Sound) (fills : wh.WriteFills)
    (emitting : Emitting wh config num content chunk) (e : Emitted S)
    (emit : hgapEncChunkEmit wh chunk = some e) (ok : e.failed = false) :
    ∃ pkt, e.pkt = some (pkt, hgapHeaderLen + min config.payload content.length) ∧
      PacketOf wh config num content
        (pkt.take (hgapHeaderLen + min config.payload content.length)) ∧
      (pkt.take (hgapHeaderLen + min config.payload content.length)).length =
        hgapHeaderLen + min config.payload content.length := by
  obtain ⟨e', hemit', emission⟩ := emissionCase sound fills emitting
  obtain rfl : e = e' := Option.some.inj (emit.symm.trans hemit')
  cases emission with
  | lost _ _ _ _ failed =>
    rw [ok] at failed
    cases failed
  | sent payload _ _ packet datagrams length =>
    have written : e.pkt.toList.map (fun p => p.1.take p.2) =
        [chunkPacket num content chunk.nextPktId.toUInt32 payload] := by
      rw [← datagrams, Emitted.datagrams, ok]
      rfl
    cases hpkt : e.pkt with
    | none => simp [hpkt] at written
    | some p =>
      obtain ⟨pkt, size⟩ := p
      have hsize : size = hgapHeaderLen + min config.payload content.length := by
        have := emit_size wh emit hpkt
        have := emitting.pktSize
        have := sound.pktSize_eq
        omega
      subst hsize
      simp only [hpkt, Option.toList_some, List.map_cons, List.map_nil, List.cons.injEq,
        and_true] at written
      refine ⟨pkt, rfl, by rw [written]; exact packet, ?_⟩
      rw [written, chunkPacket, List.length_append, writeHeader_length, length]

/-- Every packet any emission of a chunk writes is one the decoder accepts and reads the same
way. -/
theorem emitted_readAlike (host : Host) (accepted : hgapCheckConfigSender host config = .success)
    (fills : wh.WriteFills) (enc enc' : HgapEncoder) (pktSize : enc.pktSize = config.pktSize)
    (content : Bytes) (fits : content.length ≤ config.bufSize) (chunk chunk' : HgapEncChunk S)
    (init : hgapEncChunkInit wh enc hgapEncChunkNew content = (.success, enc', chunk))
    (es : List (Emitted S)) (run : Steps (EmitStep wh) chunk es chunk') (e : Emitted S)
    (emit : hgapEncChunkEmit wh chunk' = some e) (ok : e.failed = false) :
    ∃ pkt size, e.pkt = some (pkt, size) ∧ size ≤ config.pktSize ∧
      ∀ d : Datagram, d.bytes = pkt.take size →
        ReadAlike wh config enc.nextChunkNum content chunk' size d := by
  have sound := config.sound host accepted
  have hpkt := sound.pktSize_eq
  have emitting := (encChunkInit_emitting sound enc enc' pktSize content chunk init).1.run
    sound fills run
  obtain ⟨pkt, written, packet, length⟩ := emit_packet sound fills emitting e emit ok
  refine ⟨pkt, _, written, by omega, fun d octets => ?_⟩
  rw [← octets] at packet length
  exact readAlike sound fits emitting d packet length

end

/-- The first packet of a chunk of two blocks. -/
theorem emitted_readAlike_twoBlocks :
    ∃ chunk e pkt size,
      hgapEncChunkInit RepetitionCode.code ⟨25, 0⟩ hgapEncChunkNew [7, 8] =
        (.success, ⟨25, 1⟩, chunk) ∧
      hgapEncChunkEmit RepetitionCode.code chunk = some e ∧ e.pkt = some (pkt, size) ∧
      ∀ d : Datagram, d.bytes = pkt.take size → ReadAlike RepetitionCode.code
        { HgapConfig.smallest with nPkt := 2 } 0 [7, 8] chunk size d := by
  have init : hgapEncChunkInit RepetitionCode.code ⟨25, 0⟩ hgapEncChunkNew [7, 8] =
      (.success, ⟨25, 1⟩, ⟨0, 2, 25, 0, some (.encoder [7, 8] 1), some [7, 8], 0⟩) := by
    decide +kernel
  have accepted : hgapCheckConfigSender ⟨fun _ => 0, fun _ => false⟩
      { HgapConfig.smallest with nPkt := 2 } = .success := by decide
  have answer : (hgapEncChunkEmit RepetitionCode.code
      ⟨0, 2, 25, 0, some (.encoder [7, 8] 1), some [7, 8], 0⟩).map Emitted.failed =
        some false := by decide +kernel
  obtain ⟨e, emit, ok⟩ := Option.map_eq_some_iff.mp answer
  obtain ⟨pkt, size, written, -, alike⟩ :=
    emitted_readAlike ⟨fun _ => 0, fun _ => false⟩ accepted RepetitionCode.writeFills
      ⟨25, 0⟩ _ rfl [7, 8] (by decide) _ _ init [] (.nil _) e emit ok
  exact ⟨_, e, pkt, size, init, emit, written, alike⟩

end Hairgap.Guarantees
