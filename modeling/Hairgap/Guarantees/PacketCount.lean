import Hairgap.Guarantees.EmittedPackets

/-!
# How many packets a chunk makes

The emission loop stops on a quotient it accumulates packet by packet.
-/
namespace Hairgap.Guarantees
open Hairgap.Base Hairgap.Source

section
variable {S : Type} {wh : Wirehair S} {config : HgapConfig}

/-- A structure from `hgap_enc_chunk_new` starts its counters at zero. -/
theorem encChunkInit_counters {enc enc' : HgapEncoder} {content : Bytes} {verdict : Hgap}
    {chunk : HgapEncChunk S}
    (init : hgapEncChunkInit wh enc hgapEncChunkNew content = (verdict, enc', chunk)) :
    chunk.nextPktId = 0 ∧ chunk.totalGen = 0 := by
  unfold hgapEncChunkInit hgapEncChunkNew at init
  extract_lets started enc'' coded at init
  split at init
  · simp only [Prod.mk.injEq] at init
    obtain ⟨-, -, rfl⟩ := init
    exact ⟨rfl, rfl⟩
  · have counters : coded.nextPktId = 0 ∧ coded.totalGen = 0 := ⟨rfl, rfl⟩
    split at init
    all_goals
      simp only [Prod.mk.injEq] at init
      obtain ⟨-, -, rfl⟩ := init
      exact counters

/-- The id in the header of packet number `k`. -/
theorem packetAt_dataId (num : UInt64) (content : Bytes) (k : Nat) (d : Datagram)
    (octets : d.bytes = packetAt wh config num content k) :
    d.pkt.hdr.dataId = UInt32.ofNat k := by
  have header : d.pkt.hdr = _ := readHeader_write d _ _ octets
  rw [header]

-- from here on nothing wraps and nothing is rounded
attribute [local instance] Arithmetic.exact

/-- How a quotient of packets compares with a redundancy. -/
theorem redundOf_lt_iff (redund : Rat) (m : Nat) {size len : Nat} (hsize : 0 < size)
    (hlen : 0 < len) :
    (redundOf size len m).lt (.fin redund) = true ↔ m < ⌈redund * len / size⌉₊ := by
  have hlen' : (0 : Rat) < len := Nat.cast_pos.mpr hlen
  have hsize' : (0 : Rat) < size := Nat.cast_pos.mpr hsize
  have value : redundOf size len m = .fin ((m * size : Nat) / len) := if_neg (Nat.ne_of_gt hlen)
  rw [value, Double.lt, decide_eq_true_iff, Nat.lt_ceil, Nat.cast_mul, div_lt_iff₀ hlen',
    lt_div_iff₀ hsize']

/-- As many packets as the redundancy asks for, rounded up. -/
theorem firstReached_ceil {redund : Rat} (ge : 1 ≤ redund) {size len : Nat} (hsize : 0 < size)
    (hlen : 0 < len) : FirstReached (.fin redund) size len ⌈redund * len / size⌉₊ := by
  have hlen' : (0 : Rat) < len := Nat.cast_pos.mpr hlen
  refine ⟨Nat.ceil_pos.mpr ?_, fun m few _ => (redundOf_lt_iff redund m hsize hlen).mpr few, ?_⟩
  · exact div_pos (mul_pos (lt_of_lt_of_le one_pos ge) hlen') (Nat.cast_pos.mpr hsize)
  · rw [← Bool.not_eq_true, redundOf_lt_iff redund _ hsize hlen]
    exact Nat.lt_irrefl _

/-- The loop of a chunk that is not empty ends after as many packets as the redundancy asks
for, rounded up. They are numbered in order, modulo 2^32, and never fewer than the blocks of
the chunk. -/
theorem chunk_packetCount (host : Host) (accepted : hgapCheckConfigSender host config = .success)
    (fills : wh.WriteFills) (writes : wh.WritesAll) (enc enc' : HgapEncoder)
    (pktSize : enc.pktSize = config.pktSize) (content : Bytes) (nonempty : 0 < content.length)
    (chunk : HgapEncChunk S)
    (init : hgapEncChunkInit wh enc hgapEncChunkNew content = (.success, enc', chunk))
    (redund : Rat) (ge : 1 ≤ redund) :
    ∃ packets : List Bytes,
      packets.length = ⌈redund * content.length / (min config.payload content.length : Nat)⌉₊ ∧
      (∀ fuel, packets.length ≤ fuel →
        emitLoop wh (.fin redund) fuel chunk = some (packets, false)) ∧
      (∀ k (h : k < packets.length) (d : Datagram), d.bytes = packets[k] →
        d.pkt.hdr.dataId.toNat = k % 2 ^ 32) ∧
      ⌈(content.length : Rat) / (min config.payload content.length : Nat)⌉₊ ≤ packets.length ∧
      blockCount content.length config.payload ≤ packets.length := by
  have sound := config.sound host accepted
  obtain ⟨emitting, -⟩ := encChunkInit_emitting sound enc enc' pktSize content chunk init
  obtain ⟨ident, total⟩ := encChunkInit_counters init
  have hsize : 0 < min config.payload content.length := Nat.lt_min.mpr ⟨sound.payload_pos, nonempty⟩
  set count := ⌈redund * content.length / (min config.payload content.length : Nat)⌉₊ with hcount
  have length : (chunkPackets wh config count enc.nextChunkNum content).length = count := by
    simp [chunkPackets]
  have least : ⌈(content.length : Rat) / (min config.payload content.length : Nat)⌉₊ ≤ count := by
    refine Nat.ceil_mono (div_le_div_of_nonneg_right ?_ (Nat.cast_nonneg _))
    exact le_mul_of_one_le_left (Nat.cast_nonneg _) ge
  refine ⟨chunkPackets wh config count enc.nextChunkNum content, length,
    fun fuel enough => ?_, fun k h d octets => ?_, by rw [length]; exact least, ?_⟩
  · rw [length] at enough
    exact emitLoop_fresh sound fills writes fuel emitting ident total
      (firstReached_ceil ge hsize nonempty) enough
  · simp only [chunkPackets, List.getElem_map, List.getElem_range] at octets
    rw [packetAt_dataId _ _ _ d octets, UInt32.toNat_ofNat']
  · have whole := Nat.ceil_le.mp least
    rw [div_le_iff₀ (Nat.cast_pos.mpr hsize)] at whole
    rw [length]
    exact blockCount_le_of_covers sound (by exact_mod_cast whole)

end

section Smallest

attribute [local instance] Arithmetic.exact

/-- A chunk of one octet in packets of one octet. -/
private theorem octet_init (octet : UInt8) :
    hgapEncChunkInit RepetitionCode.code ⟨25, 0⟩ hgapEncChunkNew [octet] =
      (.success, ⟨25, 1⟩, ⟨0, 1, 25, 0, none, some [octet], 0⟩) := rfl

/-- Twice the redundancy makes two packets of it. -/
theorem chunk_packetCount_two :
    ∃ packets : List Bytes, packets.length = ⌈(2 : Rat) * (1 : Nat) / (1 : Nat)⌉₊ ∧
      ∀ fuel, packets.length ≤ fuel → emitLoop RepetitionCode.code (.fin 2) fuel
        ⟨0, 1, 25, 0, none, some [7], 0⟩ = some (packets, false) := by
  have accepted : hgapCheckConfigSender ⟨fun _ => 0, fun _ => false⟩ .smallest = .success := by
    decide
  obtain ⟨packets, length, loop, -⟩ := chunk_packetCount _ accepted RepetitionCode.writeFills
    RepetitionCode.writesAll ⟨25, 0⟩ _ rfl [7] (by decide) _ (octet_init 7) 2 (by norm_num)
  exact ⟨packets, length, loop⟩

/-- At a redundancy above 2^32, packet number 2^32 of the same chunk has the id of the
first one. -/
theorem dataId_wraps :
    ∃ fuel packets, emitLoop RepetitionCode.code (.fin ((2 ^ 32 + 1 : Nat) : Rat)) fuel
        ⟨0, 1, 25, 0, none, some [7], 0⟩ = some (packets, false) ∧
      ∃ h : 2 ^ 32 < packets.length, ∀ d : Datagram, d.bytes = packets[2 ^ 32] →
        d.pkt.hdr.dataId.toNat = 0 := by
  have accepted : hgapCheckConfigSender ⟨fun _ => 0, fun _ => false⟩ .smallest = .success := by
    decide
  have sound := HgapConfig.sound _ _ accepted
  obtain ⟨emitting, -⟩ := encChunkInit_emitting sound ⟨25, 0⟩ _ rfl [7] _ (octet_init 7)
  have ge : (1 : Rat) ≤ ((2 ^ 32 + 1 : Nat) : Rat) := by norm_num
  have reaches : Reaches .smallest (.fin ((2 ^ 32 + 1 : Nat) : Rat)) [7] (2 ^ 32 + 1) := by
    have first := firstReached_ceil ge Nat.one_pos Nat.one_pos
    rwa [Nat.cast_one, mul_one, div_one, Nat.ceil_natCast] at first
  have loop := emitLoop_fresh sound RepetitionCode.writeFills RepetitionCode.writesAll _
    emitting rfl rfl reaches (Nat.le_refl _)
  have length : (chunkPackets RepetitionCode.code .smallest (2 ^ 32 + 1) 0 [7]).length =
      2 ^ 32 + 1 := by
    rw [chunkPackets, List.length_map, List.length_range]
  refine ⟨_, _, loop, ?_, ?_⟩
  · show 2 ^ 32 < (chunkPackets _ _ _ _ _).length
    rw [length]
    exact Nat.lt_succ_self _
  · intro d octets
    simp only [chunkPackets, List.getElem_map, List.getElem_range] at octets
    rw [packetAt_dataId _ _ _ d octets]
    rfl

end Smallest

end Hairgap.Guarantees
