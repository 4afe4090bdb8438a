import Hairgap.Source.Proto

/-!
# The packet format

Written headers are read back, and headers that were read are those that were written. Nothing
else is accepted.
-/
namespace Hairgap.Guarantees
open Hairgap.Base Hairgap.Source

/-- The octets of the `data_size` field. -/
def dataSizeField (d : Datagram) : Bytes := (d.bytes.drop 20).take 4

private theorem store_u64 (octets : Bytes) (wide : octets.length = 8) :
    BigEndian.digits 8 (UInt64.ofNat (BigEndian.value octets)).toNat = octets := by
  have bound : BigEndian.value octets < 2 ^ 64 := by simpa [wide] using BigEndian.value_lt octets
  rw [UInt64.toNat_ofNat', Nat.mod_eq_of_lt bound, ← wide, BigEndian.digits_value]

private theorem store_u32 (octets : Bytes) (wide : octets.length = 4) :
    BigEndian.digits 4 (UInt32.ofNat (BigEndian.value octets)).toNat = octets := by
  have bound : BigEndian.value octets < 2 ^ 32 := by simpa [wide] using BigEndian.value_lt octets
  rw [UInt32.toNat_ofNat', Nat.mod_eq_of_lt bound, ← wide, BigEndian.digits_value]

/-- The octets in front of an offset, and the next ones. -/
private theorem take_field (octets : Bytes) (off n : Nat) :
    octets.take off ++ (octets.drop off).take n = octets.take (off + n) := by
  rw [List.take_add]

/-- Writing the header of a datagram gives its first octets. -/
theorem writeHeader_read (d : Datagram) (whole : hgapHeaderLen ≤ d.bytes.length) :
    hgapWriteHeader (readHeader d.ptr) = d.bytes.take hgapHeaderLen := by
  have long : 24 ≤ d.bytes.length := whole
  have num := load_inside d 0 8 (by omega)
  have size := load_inside d 8 8 (by omega)
  have ident := load_inside d 16 4 (by omega)
  have data := load_inside d 20 4 (by omega)
  have fields : hgapWriteHeader (readHeader d.ptr) =
      load d.ptr 0 8 ++ load d.ptr 8 8 ++ load d.ptr 16 4 ++ load d.ptr 20 4 := by
    rw [hgapWriteHeader, readHeader, store_u64 _ (load_length ..), store_u64 _ (load_length ..),
      store_u32 _ (load_length ..), store_u32 _ (load_length ..)]
  rw [fields, num, size, ident, data, List.drop_zero, take_field, take_field, take_field]

/-- What the parser compares with the length of the datagram. -/
theorem readHeader_dataSize (d : Datagram) (whole : hgapHeaderLen ≤ d.bytes.length) :
    (readHeader d.ptr).dataSize.toNat = BigEndian.value (dataSizeField d) := by
  have long : 24 ≤ d.bytes.length := whole
  have data := load_inside d 20 4 (by omega)
  have bound : BigEndian.value (load d.ptr 20 4) < 2 ^ 32 := by
    simpa using BigEndian.value_lt (load d.ptr 20 4)
  rw [readHeader, UInt32.toNat_ofNat', Nat.mod_eq_of_lt bound, data, dataSizeField]

/-- The parser fills in the packet of every datagram it accepts. -/
theorem pktParse_fills (unfilled : HgapPkt) (d : Datagram)
    (accepted : (hgapPktParse unfilled d).1 = .success) : (hgapPktParse unfilled d).2 = d.pkt := by
  have whole := ((pktParse_success_iff unfilled d).mp accepted).1
  rw [hgapPktParse, if_neg (Nat.not_lt.mpr whole)]

/-- A written packet is accepted, and gives its header and its payload back. -/
theorem pktParse_write (unfilled : HgapPkt) (d : Datagram) (hdr : HgapHeader) (payload : Bytes)
    (layout : d.bytes = hgapWriteHeader hdr ++ payload)
    (carried : hdr.dataSize.toNat ≤ payload.length) :
    hgapPktParse unfilled d = (.success, ⟨hdr, fun i => d.ptr (hgapHeaderLen + i)⟩) := by
  have header := readHeader_write d hdr payload layout
  have length : d.bytes.length = hgapHeaderLen + payload.length := by
    rw [layout, List.length_append, writeHeader_length]
  have filled : d.pkt = ⟨hdr, fun i => d.ptr (hgapHeaderLen + i)⟩ := by rw [Datagram.pkt, header]
  have accepted : (hgapPktParse unfilled d).1 = .success := by
    rw [pktParse_success_iff, filled]
    dsimp only
    omega
  rw [← filled, ← pktParse_fills unfilled d accepted, ← accepted]

/-- The control packets and the data packets are told apart by the number field. -/
theorem pktType_distinguishes (d : Datagram) (hdr : HgapHeader) (payload : Bytes)
    (layout : d.bytes = hgapWriteHeader hdr ++ payload) :
    (hgapPktType d = .begin_ ↔ hdr.chunkNum = hgapBeginBeacon) ∧
    (hgapPktType d = .end_ ↔ hdr.chunkNum = hgapNoMoreChunk) ∧
    (hgapPktType d = .keepalive ↔ hdr.chunkNum = hgapKeepAlive) ∧
    (hgapPktType d = .data ↔ hdr.chunkNum < hgapFirstReserved) := by
  rw [pktType_write d hdr payload layout]
  generalize hdr.chunkNum = num
  by_cases begins : num = hgapBeginBeacon
  · rw [begins]
    decide
  · by_cases ends : num = hgapNoMoreChunk
    · rw [ends]
      decide
    · by_cases keeps : num = hgapKeepAlive
      · rw [keeps]
        decide
      · rw [if_neg begins, if_neg ends, if_neg keeps]
        by_cases reserved : num ≥ hgapFirstReserved
        · simp [begins, ends, keeps, reserved]
        · simp [begins, ends, keeps, reserved, UInt64.not_le.mp reserved]

/-- The header codec is a bijection, the parser accepts the well-formed packets and no others,
and the type of a packet is told by its number. -/
theorem packetCodec_bijective :
    (∀ (unfilled : HgapPkt) (d : Datagram) (hdr : HgapHeader) (payload : Bytes),
      d.bytes = hgapWriteHeader hdr ++ payload → hdr.dataSize.toNat ≤ payload.length →
      hgapPktParse unfilled d = (.success, ⟨hdr, fun i => d.ptr (hgapHeaderLen + i)⟩) ∧
        load (hgapPktParse unfilled d).2.data 0 payload.length = payload) ∧
    (∀ (unfilled : HgapPkt) (d : Datagram),
      ((hgapPktParse unfilled d).1 = .success ↔ hgapHeaderLen ≤ d.bytes.length ∧
        BigEndian.value (dataSizeField d) ≤ d.bytes.length - hgapHeaderLen) ∧
      ((hgapPktParse unfilled d).1 = .success →
        hgapWriteHeader (hgapPktParse unfilled d).2.hdr = d.bytes.take hgapHeaderLen)) ∧
    (∀ (d d' : Datagram) (hdr hdr' : HgapHeader) (payload payload' : Bytes),
      d.bytes = hgapWriteHeader hdr ++ payload → d'.bytes = hgapWriteHeader hdr' ++ payload' →
      hdr.chunkNum = hdr'.chunkNum → hgapPktType d = hgapPktType d') ∧
    (∀ (d : Datagram) (hdr : HgapHeader) (payload : Bytes),
      d.bytes = hgapWriteHeader hdr ++ payload →
      (hgapPktType d = .begin_ ↔ hdr.chunkNum = hgapHeaderBegin.chunkNum) ∧
      (hgapPktType d = .end_ ↔ hdr.chunkNum = hgapHeaderEnd.chunkNum) ∧
      (hgapPktType d = .keepalive ↔ hdr.chunkNum = hgapHeaderKeepalive.chunkNum) ∧
      (hgapPktType d = .data ↔ hdr.chunkNum < hgapFirstReserved)) := by
  refine ⟨fun unfilled d hdr payload layout carried => ?_, fun unfilled d => ⟨?_, fun accepted => ?_⟩,
    fun d d' hdr hdr' payload payload' layout layout' same => ?_, pktType_distinguishes⟩
  · have parsed := pktParse_write unfilled d hdr payload layout carried
    have inside := load_payload d hdr payload payload.length layout (Nat.le_refl _)
    refine ⟨parsed, ?_⟩
    rw [List.take_length] at inside
    rw [parsed]
    simpa [load] using inside
  · rw [pktParse_success_iff]
    refine and_congr_right fun whole => ?_
    have field : d.pkt.hdr.dataSize.toNat = _ := readHeader_dataSize d whole
    rw [field]
    omega
  · have whole := ((pktParse_success_iff unfilled d).mp accepted).1
    rw [pktParse_fills unfilled d accepted]
    exact writeHeader_read d whole
  · rw [pktType_write d hdr payload layout, pktType_write d' hdr' payload' layout', same]

end Hairgap.Guarantees
