import Hairgap.Base.BigEndian
import Hairgap.Source.Status

/-!
# Packet format

proto.h:29-78, proto.c:32-112. A datagram reaches the decoder as a pointer and a length. The pointer
is a total function from offsets to octets, because the source dereferences it without a bound; only
`len` octets of it belong to the datagram. What lies behind them is arbitrary but stays the same
over one call. The dump of a packet is not modelled.
-/
namespace Hairgap.Source
open Hairgap.Base

abbrev Bytes := List UInt8

/-- `HGAP_HEADER_LEN`, i.e. `sizeof(struct hgap_header)`. -/
abbrev hgapHeaderLen : Nat := 24
abbrev hgapSalveLen : Nat := 32
/-- `HGAP_MIN_BUF`: control packets have no body. -/
abbrev hgapMinBuf : Nat := hgapHeaderLen
abbrev hgapMaxPktSize : Nat := 1500
abbrev hgapMaxNPkt : Nat := 64000
abbrev hgapMaxChunkSize : Nat := hgapMaxPktSize * hgapMaxNPkt

def hgapNoMoreChunk : UInt64 := 0xffffffffffffffff
def hgapBeginBeacon : UInt64 := 0xfffffffffffffffe
def hgapKeepAlive : UInt64 := 0xfffffffffffffffd
def hgapFirstReserved : UInt64 := 0xfffffffffffffff0

inductive HgapPktT where
  | unknown | begin_ | end_ | keepalive | data
  deriving DecidableEq, Repr

structure HgapHeader where
  chunkNum : UInt64
  chunkSize : UInt64
  dataId : UInt32
  dataSize : UInt32
  deriving DecidableEq, Repr

/-- `data` points behind the header of the raw packet, which it does not copy. -/
structure HgapPkt where
  hdr : HgapHeader
  data : Nat → UInt8

/-- The octets of a received datagram, and the memory that follows them. -/
structure Datagram where
  bytes : Bytes
  beyond : Nat → UInt8

def Datagram.ptr (d : Datagram) : Nat → UInt8 :=
  fun i => d.bytes[i]?.getD (d.beyond i)

/-- A datagram in zeroed memory. -/
def Datagram.zeroed (bytes : Bytes) : Datagram := ⟨bytes, fun _ => 0⟩

/-- `n` octets read through a pointer from an offset on. -/
def load (p : Nat → UInt8) (off n : Nat) : Bytes :=
  (List.range n).map fun i => p (off + i)

@[simp] theorem load_length (p : Nat → UInt8) (off n : Nat) : (load p off n).length = n := by
  simp [load]

theorem load_inside (d : Datagram) (off n : Nat) (inside : off + n ≤ d.bytes.length) :
    load d.ptr off n = (d.bytes.drop off).take n := by
  apply List.ext_getElem
  · simp only [load_length, List.length_take, List.length_drop]
    omega
  · intro i hi hj
    have hin : off + i < d.bytes.length := by
      simp only [load_length] at hi
      omega
    simp [load, Datagram.ptr, List.getElem?_eq_getElem hin]

def readHeader (p : Nat → UInt8) : HgapHeader where
  chunkNum := UInt64.ofNat (BigEndian.value (load p 0 8))
  chunkSize := UInt64.ofNat (BigEndian.value (load p 8 8))
  dataId := UInt32.ofNat (BigEndian.value (load p 16 4))
  dataSize := UInt32.ofNat (BigEndian.value (load p 20 4))

/-- The packet structure as it is filled in from a whole header. -/
def Datagram.pkt (d : Datagram) : HgapPkt :=
  ⟨readHeader d.ptr, fun i => d.ptr (hgapHeaderLen + i)⟩

/-- Result code, and the packet as far as it was filled in: a datagram shorter than
the header leaves `pkt` alone, one shorter than it announces fills it all the same. -/
def hgapPktParse (pkt : HgapPkt) (d : Datagram) : Hgap × HgapPkt :=
  if d.bytes.length < hgapHeaderLen then (.errBadPkt, pkt)
  else (if d.bytes.length < d.pkt.hdr.dataSize.toNat + hgapHeaderLen then .errBadPkt else .success,
    d.pkt)

/-- A datagram is accepted when it holds the header and the payload that announces. -/
theorem pktParse_success_iff (pkt : HgapPkt) (d : Datagram) :
    (hgapPktParse pkt d).1 = .success ↔ hgapHeaderLen ≤ d.bytes.length ∧
      d.pkt.hdr.dataSize.toNat + hgapHeaderLen ≤ d.bytes.length := by
  unfold hgapPktParse
  generalize d.pkt = filled
  obtain ⟨⟨num, size, ident, dataSize⟩, data⟩ := filled
  by_cases short : d.bytes.length < hgapHeaderLen
  · rw [if_pos short]
    simp only [reduceCtorEq, false_iff]
    omega
  · rw [if_neg short]
    by_cases truncated : d.bytes.length < dataSize.toNat + hgapHeaderLen
    · simp only [if_pos truncated, reduceCtorEq, false_iff]
      omega
    · simp only [if_neg truncated, true_iff]
      omega

/-- Classification by the number field alone, under a length test of its own. -/
def hgapPktType (d : Datagram) : HgapPktT :=
  if d.bytes.length < hgapHeaderLen then .unknown
  else
    let type := (readHeader d.ptr).chunkNum
    if type = hgapBeginBeacon then .begin_
    else if type = hgapNoMoreChunk then .end_
    else if type = hgapKeepAlive then .keepalive
    else if type ≥ hgapFirstReserved then .unknown
    else .data

/-- `hgap_write_header`: four network-order stores. -/
def hgapWriteHeader (hdr : HgapHeader) : Bytes :=
  BigEndian.digits 8 hdr.chunkNum.toNat ++ BigEndian.digits 8 hdr.chunkSize.toNat ++
    BigEndian.digits 4 hdr.dataId.toNat ++ BigEndian.digits 4 hdr.dataSize.toNat

def hgapHeaderBegin : HgapHeader := ⟨hgapBeginBeacon, 0, 0, 0⟩
def hgapHeaderEnd : HgapHeader := ⟨hgapNoMoreChunk, 0, 0, 0⟩
def hgapHeaderKeepalive : HgapHeader := ⟨hgapKeepAlive, 0, 0, 0⟩

def Datagram.begin_ : Datagram := .zeroed (hgapWriteHeader hgapHeaderBegin)
def Datagram.end_ : Datagram := .zeroed (hgapWriteHeader hgapHeaderEnd)

@[simp] theorem writeHeader_length (hdr : HgapHeader) :
    (hgapWriteHeader hdr).length = hgapHeaderLen := by
  simp [hgapWriteHeader]

private theorem stored_u64 (n : UInt64) :
    UInt64.ofNat (BigEndian.value (BigEndian.digits 8 n.toNat)) = n := by
  have bound : n.toNat < 256 ^ 8 := n.toNat_lt
  rw [BigEndian.value_digits, Nat.mod_eq_of_lt bound, UInt64.ofNat_toNat]

private theorem stored_u32 (n : UInt32) :
    UInt32.ofNat (BigEndian.value (BigEndian.digits 4 n.toNat)) = n := by
  have bound : n.toNat < 256 ^ 4 := n.toNat_lt
  rw [BigEndian.value_digits, Nat.mod_eq_of_lt bound, UInt32.ofNat_toNat]

/-- Reading a stored field back, wherever it stands in the datagram. -/
private theorem load_field (d : Datagram) (before field : Bytes)
    (layout : before ++ field <+: d.bytes) :
    load d.ptr before.length field.length = field := by
  obtain ⟨after, layout⟩ := layout
  rw [load_inside d _ _ (by rw [← layout]; simp only [List.length_append]; omega), ← layout]
  simp

/-- A written header is read back field by field, whatever follows it. -/
theorem readHeader_write (d : Datagram) (hdr : HgapHeader) (payload : Bytes)
    (layout : d.bytes = hgapWriteHeader hdr ++ payload) : readHeader d.ptr = hdr := by
  unfold hgapWriteHeader at layout
  set num := BigEndian.digits 8 hdr.chunkNum.toNat with hnum
  set size := BigEndian.digits 8 hdr.chunkSize.toNat with hsize
  set ident := BigEndian.digits 4 hdr.dataId.toNat with hident
  set data := BigEndian.digits 4 hdr.dataSize.toNat with hdata
  have atNum := load_field d [] num ⟨size ++ ident ++ data ++ payload, by simp [layout]⟩
  have atSize := load_field d num size ⟨ident ++ data ++ payload, by simp [layout]⟩
  have atIdent := load_field d (num ++ size) ident ⟨data ++ payload, by simp [layout]⟩
  have atData := load_field d (num ++ size ++ ident) data ⟨payload, by simp [layout]⟩
  simp only [List.length_append, List.length_nil, hnum, hsize, hident, hdata,
    BigEndian.digits_length] at atNum atSize atIdent atData
  simp only [readHeader, atNum, atSize, atIdent, atData, stored_u64, stored_u32]

/-- The payload of a written packet is what follows its header. -/
theorem load_payload (d : Datagram) (hdr : HgapHeader) (payload : Bytes) (n : Nat)
    (layout : d.bytes = hgapWriteHeader hdr ++ payload) (inside : n ≤ payload.length) :
    load d.ptr hgapHeaderLen n = payload.take n := by
  have hlen : d.bytes.length = hgapHeaderLen + payload.length := by
    rw [layout, List.length_append, writeHeader_length]
  rw [load_inside d _ _ (by omega), layout, List.drop_left' (writeHeader_length hdr)]

/-- The type of a written packet follows from its number field alone. -/
theorem pktType_write (d : Datagram) (hdr : HgapHeader) (payload : Bytes)
    (layout : d.bytes = hgapWriteHeader hdr ++ payload) :
    hgapPktType d =
      if hdr.chunkNum = hgapBeginBeacon then .begin_
      else if hdr.chunkNum = hgapNoMoreChunk then .end_
      else if hdr.chunkNum = hgapKeepAlive then .keepalive
      else if hdr.chunkNum ≥ hgapFirstReserved then .unknown
      else .data := by
  have hlen : ¬ d.bytes.length < hgapHeaderLen := by
    rw [layout, List.length_append, writeHeader_length]
    omega
  simp only [hgapPktType, if_neg hlen, readHeader_write d hdr payload layout]

/-- The header of a whole datagram does not depend on the memory behind it. -/
theorem readHeader_bytes (d d' : Datagram) (same : d.bytes = d'.bytes)
    (whole : hgapHeaderLen ≤ d.bytes.length) : readHeader d.ptr = readHeader d'.ptr := by
  have fields (off n : Nat) (inside : off + n ≤ hgapHeaderLen) :
      load d.ptr off n = load d'.ptr off n := by
    rw [load_inside d off n (by omega), load_inside d' off n (by rw [← same]; omega), same]
  simp only [readHeader, fields 0 8 (by decide), fields 8 8 (by decide),
    fields 16 4 (by decide), fields 20 4 (by decide)]

/-- Nor does its type, whole or not. -/
theorem pktType_bytes (d d' : Datagram) (same : d.bytes = d'.bytes) :
    hgapPktType d = hgapPktType d' := by
  unfold hgapPktType
  rw [← same]
  split
  · rfl
  next long => rw [readHeader_bytes d d' same (Nat.le_of_not_lt long)]

/-- Only a datagram with a whole header and an unreserved number is data. -/
theorem pktType_data_iff (d : Datagram) :
    hgapPktType d = .data ↔ hgapHeaderLen ≤ d.bytes.length ∧
      (readHeader d.ptr).chunkNum < hgapFirstReserved := by
  unfold hgapPktType
  split
  next short => simp only [reduceCtorEq, false_iff]; omega
  next long =>
    generalize (readHeader d.ptr).chunkNum = type
    have hb : ¬ hgapBeginBeacon < hgapFirstReserved := by decide
    have he : ¬ hgapNoMoreChunk < hgapFirstReserved := by decide
    have hk : ¬ hgapKeepAlive < hgapFirstReserved := by decide
    have hl : hgapHeaderLen ≤ d.bytes.length := by omega
    dsimp only
    split
    next h => simp [h, hb]
    next =>
      split
      next h => simp [h, he]
      next =>
        split
        next h => simp [h, hk]
        next =>
          split
          next h => simp [UInt64.not_lt.mpr h]
          next h => simp [hl, UInt64.not_le.mp h]

end Hairgap.Source
