import Hairgap.Guarantees.EmittedPackets
import Hairgap.Source.Receiver

/-!
# Room for a packet

The sender's packet size is checked on one host. The slot it has to fit on the other comes
from that host's own configuration, whose check looks at neither of the sizes it is made of.
-/
namespace Hairgap.Guarantees
open Hairgap.Base Hairgap.Source

section
variable {S : Type} (wh : Wirehair S)

/-- A packet of an accepted chunk of the sender, with its reported size. -/
def Emits (sender : HgapConfig) (pkt : Bytes) (size : Nat) : Prop :=
  ∃ enc enc' content chunk es chunk' e, enc.pktSize = sender.pktSize ∧
    content.length ≤ sender.bufSize ∧
    hgapEncChunkInit wh enc hgapEncChunkNew content = (.success, enc', chunk) ∧
    Steps (EmitStep wh) chunk es chunk' ∧ hgapEncChunkEmit wh chunk' = some e ∧
    e.failed = false ∧ e.pkt = some (pkt, size)

/-- A receiver that can take in the packets of a sender. -/
structure Receivable (sender receiver : HgapConfig) : Prop where
  /-- A packet fits the slot and what `recvfrom` may write to it, and the parser accepts what
  arrives. -/
  fits : ∀ pkt size, Emits wh sender pkt size →
    size ≤ netReaderMtu receiver ∧ sizedBufLen + size ≤ pktSlotSize receiver ∧
      ∀ d : Datagram, d.bytes = recvfrom (netReaderMtu receiver) (pkt.take size) →
        d.bytes = pkt.take size ∧ ∀ unfilled, hgapPktParse unfilled d = (.success, d.pkt)
  /-- Reserving on the empty channel does not block. -/
  room : 1 ≤ pktChanSize receiver

/-- A slot of the packet channel does not wrap around, and one fits in half the memory. -/
theorem pktChanSize_pos_iff {receiver : HgapConfig} (range : receiver.pktSize < 2 ^ 64)
    (memory : receiver.memLimit < 2 ^ 64) :
    sizedBufLen + receiver.pktSize ≤ receiver.memLimit / 2 ↔
      1 ≤ pktChanSize receiver ∧ pktSlotSize receiver = sizedBufLen + receiver.pktSize := by
  unfold pktChanSize pktSlotSize sizedBufLen
  constructor
  · intro fits
    have plain : (16 + receiver.pktSize) % 2 ^ 64 = 16 + receiver.pktSize :=
      Nat.mod_eq_of_lt (by omega)
    rw [plain]
    exact ⟨(Nat.one_le_div_iff (by omega)).mpr fits, rfl⟩
  · rintro ⟨room, plain⟩
    rw [plain] at room
    exact (Nat.one_le_div_iff (by omega)).mp room

/-- What the next packets of a sender need: the largest of them decides. -/
theorem netReaderMtu_eq {receiver : HgapConfig} (range : receiver.pktSize < 2 ^ 64)
    (plain : pktSlotSize receiver = sizedBufLen + receiver.pktSize) :
    netReaderMtu receiver = receiver.pktSize := by
  unfold netReaderMtu sizedBufLen at *
  rw [plain]
  have wraps : 16 + receiver.pktSize + (2 ^ 64 - 16) = receiver.pktSize + 2 ^ 64 := by omega
  rw [wraps, Nat.add_mod_right, Nat.mod_eq_of_lt range]

variable {wh} {sender receiver : HgapConfig}

/-- A chunk that fills one payload emits a packet of the full size. -/
theorem emits_full (sound : sender.Sound) (fills : wh.WriteFills) :
    ∃ pkt, Emits wh sender pkt sender.pktSize := by
  have size := sound.pktSize_eq
  have content : (List.replicate sender.payload (0 : UInt8)).length = sender.payload :=
    List.length_replicate
  obtain ⟨enc', chunk, init, -⟩ : ∃ enc' chunk, hgapEncChunkInit wh
      (hgapEncoderNew sender.pktSize) hgapEncChunkNew (List.replicate sender.payload 0) =
        (.success, enc', chunk) ∧ chunk.nextPktId = 0 ∧ chunk.totalGen = 0 :=
    encChunkInit_small sound _ rfl _ (by rw [content])
  obtain ⟨emitting, -⟩ := encChunkInit_emitting sound (hgapEncoderNew sender.pktSize) enc' rfl _
    chunk init
  obtain ⟨e, emit, emission⟩ := emissionCase sound fills emitting
  cases emission with
  | lost long =>
    rw [content] at long
    omega
  | sent payload ok =>
    obtain ⟨pkt, written, -⟩ := emit_packet sound fills emitting e emit ok
    rw [content, Nat.min_self, Nat.add_comm, ← size] at written
    refine ⟨pkt, _, enc', _, chunk, [], chunk, e, rfl, ?_, init, .nil _, emit, ok, written⟩
    rw [content]
    exact Nat.le_mul_of_pos_left _ sound.nPkt_pos

theorem Receivable.sizes (sound : sender.Sound) (fills : wh.WriteFills)
    (range : receiver.pktSize < 2 ^ 64) (memory : receiver.memLimit < 2 ^ 64)
    (receivable : Receivable wh sender receiver) :
    sender.pktSize ≤ receiver.pktSize ∧
      sizedBufLen + receiver.pktSize ≤ receiver.memLimit / 2 := by
  obtain ⟨pkt, emits⟩ := emits_full sound fills
  obtain ⟨offered, slot, -⟩ := receivable.fits pkt _ emits
  have plain : pktSlotSize receiver = sizedBufLen + receiver.pktSize := by
    unfold pktSlotSize sizedBufLen at *
    by_contra wraps
    have wrapped : (16 + receiver.pktSize) % 2 ^ 64 = 16 + receiver.pktSize - 2 ^ 64 := by omega
    omega
  rw [netReaderMtu_eq range plain] at offered
  exact ⟨offered, (pktChanSize_pos_iff range memory).mpr ⟨receivable.room, plain⟩⟩

/-- A receiver, accepted or not, can take in the packets of a sender exactly when its own
packet size is no smaller than the sender's, and half of its memory limit holds a slot of
that size. -/
theorem receivable_iff (host : Host) (accepted : hgapCheckConfigSender host sender = .success)
    (fills : wh.WriteFills) (range : receiver.pktSize < 2 ^ 64)
    (memory : receiver.memLimit < 2 ^ 64) :
    Receivable wh sender receiver ↔ sender.pktSize ≤ receiver.pktSize ∧
      sizedBufLen + receiver.pktSize ≤ receiver.memLimit / 2 := by
  have sound := sender.sound host accepted
  refine ⟨fun receivable => receivable.sizes sound fills range memory, ?_⟩
  rintro ⟨smaller, fits⟩
  obtain ⟨room, plain⟩ := (pktChanSize_pos_iff range memory).mp fits
  refine ⟨?_, room⟩
  rintro pkt size ⟨enc, enc', content, chunk, es, chunk', e, pktSize, short, init, run, emit, ok,
    written⟩
  have emitting := (encChunkInit_emitting sound enc enc' pktSize content chunk init).1.run
    sound fills run
  obtain ⟨pkt', written', packet, length⟩ := emit_packet sound fills emitting e emit ok
  obtain ⟨rfl, rfl⟩ := Prod.mk.inj (Option.some.inj (written.symm.trans written'))
  have hpkt := sound.pktSize_eq
  rw [netReaderMtu_eq range plain, plain]
  have small : hgapHeaderLen + min sender.payload content.length ≤ receiver.pktSize := by omega
  refine ⟨small, by omega, fun d arrived => ?_⟩
  have whole : d.bytes = pkt.take (hgapHeaderLen + min sender.payload content.length) := by
    rw [arrived, recvfrom, List.take_of_length_le (by rw [length]; exact small)]
  refine ⟨whole, ?_⟩
  rw [← whole] at packet length
  exact (readAlike sound short emitting d packet length).parsed

end

/-- The smallest sender and a receiver with the default sizes. -/
theorem receivable_iff_defaults :
    Receivable RepetitionCode.code .smallest
        { hgapDefaults with addr := some "127.0.0.1" } ↔ 25 ≤ 1400 ∧
      sizedBufLen + 1400 ≤ 100 * 1024 * 1024 / 2 :=
  receivable_iff ⟨fun _ => 0, fun _ => false⟩ (by decide) RepetitionCode.writeFills (by decide)
    (by decide)

/-- A sender with packets of the largest accepted size, and the default receiver: both
configurations are accepted, and the packets do not fit. -/
theorem largePackets_truncated :
    hgapCheckConfigSender ⟨fun _ => 0, fun _ => false⟩
        { HgapConfig.smallest with pktSize := 1500 } = .success ∧
      hgapCheckConfigReceiver ⟨fun _ => 0, fun _ => false⟩
        { hgapDefaults with addr := some "127.0.0.1" } = .success ∧
      ¬ Receivable RepetitionCode.code { HgapConfig.smallest with pktSize := 1500 }
        { hgapDefaults with addr := some "127.0.0.1" } := by
  refine ⟨by decide, by decide, fun receivable => ?_⟩
  have sound := HgapConfig.sound ⟨fun _ => 0, fun _ => false⟩
    { HgapConfig.smallest with pktSize := 1500 } (by decide)
  have sizes := (receivable.sizes sound RepetitionCode.writeFills (by decide) (by decide)).1
  exact absurd sizes (by decide)

end Hairgap.Guarantees
