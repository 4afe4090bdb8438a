import Hairgap.Guarantees.Outcome
import Hairgap.Source.RepetitionCode

/-!
# Decoding undoes encoding

Of a transfer some packets arrive, the keepalives of the sender between them. The input comes out
of the loop of the receiver exactly when the packets suffice for every chunk with something in it.
-/
namespace Hairgap.Guarantees
open Hairgap.Base Hairgap.Source

section
variable {S : Type} {wh : Wirehair S} {config : HgapConfig} {input : Bytes}

theorem SentCase.whole {b : Bytes} (case : SentCase wh config input b) :
    hgapHeaderLen ≤ b.length := by
  cases case with
  | begin_ octets => rw [octets, writeHeader_length]
  | end_ octets => rw [octets, writeHeader_length]
  | chunk i _ packet =>
    obtain ⟨ident, payload, rfl⟩ := packet.octets
    rw [chunkPacket, List.length_append, writeHeader_length]
    exact Nat.le_add_right _ _

section
variable (sound : config.Sound) (fills : wh.WriteFills) {fuel : Nat} {sent : List Bytes}
  (done : hgapSendDatagrams wh config fuel input = some sent)
include sound

theorem chunkNumbered_fits (num : UInt64) :
    (chunkNumbered config input num).length ≤ hgapMaxChunkSize := by
  have within := chunkAt_length_le config input num.toNat
  have limit := sound.bufSize_le
  simp only [hgapMaxNPkt, hgapMaxPktSize, hgapHeaderLen] at limit
  rw [chunkNumbered]
  simp only [hgapMaxChunkSize, hgapMaxNPkt, hgapMaxPktSize]
  omega

include fills done

theorem Relayed.whole {d : Datagram} (relayed : Relayed sent d) :
    hgapHeaderLen ≤ d.bytes.length := by
  rcases relayed with member | octets
  · exact (sentCase sound fills done member).whole
  · rw [octets, writeHeader_length]

/-- Whatever arrives is as the sender made it. -/
theorem relayed_sent (bound : input.length < 2 ^ 64 * config.bufSize) {d : Datagram}
    (relayed : Relayed sent d) : Sent wh config (chunkNumbered config input) d :=
  ⟨relayed.whole sound fills done, relayed.ofTransfer sound fills done bound⟩

/-- A data packet has the number of a chunk of the input. -/
theorem Relayed.num_le (bound : input.length < 2 ^ 64 * config.bufSize) {d : Datagram}
    (relayed : Relayed sent d) (data : hgapPktType d = .data) :
    d.pkt.hdr.chunkNum.toNat ≤ input.length / config.bufSize := by
  rcases relayed with member | octets
  · cases sentCase sound fills done member with
    | begin_ octets =>
      rw [type_begin d octets] at data
      cases data
    | end_ octets =>
      rw [type_end d octets] at data
      cases data
    | chunk i within packet =>
      rw [(PacketOf.carries sound (chunkAt_length_le config input i) d packet).1,
        num_toNat sound bound within]
      exact within
  · rw [type_keepalive d octets] at data
    cases data

end

/-- What the receiver makes of a transfer, whatever the channel does to its packets: it goes along
their stretches. -/
theorem reception_regrouped (host : Host) (accepted : hgapCheckConfigSender host config = .success)
    (fills : wh.WriteFills) (restarts : wh.DecodeRestarts) (decodes : wh.DecodesEncoded)
    (reconstructs : wh.Reconstructs) (bound : input.length < 2 ^ 64 * config.bufSize) (fuel : Nat)
    (sent : List Bytes) (done : hgapSendDatagrams wh config fuel input = some sent)
    (early body after : List Datagram) (b e : Datagram)
    (unannounced : ∀ d ∈ early, hgapPktType d ≠ .begin_) (begins : hgapPktType b = .begin_)
    (ends : hgapPktType e = .end_) (relayed : ∀ d ∈ body, Relayed sent d)
    (running : ∀ d ∈ body, hgapPktType d ≠ .end_) :
    readEmitLoop wh hgapDecoderNew (early ++ b :: (body ++ e :: after)) =
      some (regrouped wh config (chunkNumbered config input) (dataPkts body)) := by
  have sound := config.sound host accepted
  exact readEmitLoop_regrouped restarts decodes reconstructs (chunkNumbered_fits sound) unannounced
    begins (fun d h => relayed_sent sound fills done bound (relayed d h)) running ends after

/-- What the receiver makes of a transfer, whatever the channel does to the packets inside a
chunk. -/
theorem reception_outcome (host : Host) (accepted : hgapCheckConfigSender host config = .success)
    (fills : wh.WriteFills) (restarts : wh.DecodeRestarts) (decodes : wh.DecodesEncoded)
    (reconstructs : wh.Reconstructs) (bound : input.length < 2 ^ 64 * config.bufSize) (fuel : Nat)
    (sent : List Bytes) (done : hgapSendDatagrams wh config fuel input = some sent)
    (early body after : List Datagram) (b e : Datagram)
    (unannounced : ∀ d ∈ early, hgapPktType d ≠ .begin_) (begins : hgapPktType b = .begin_)
    (ends : hgapPktType e = .end_) (relayed : ∀ d ∈ body, Relayed sent d)
    (running : ∀ d ∈ body, hgapPktType d ≠ .end_) (ordered : Ordered body) :
    readEmitLoop wh hgapDecoderNew (early ++ b :: (body ++ e :: after)) =
      some (outcome wh config (chunkNumbered config input) body) := by
  have sound := config.sound host accepted
  exact readEmitLoop_outcome restarts decodes reconstructs (chunkNumbered_fits sound) unannounced
    begins (fun d h => relayed_sent sound fills done bound (relayed d h)) running ordered ends after

section Restored
variable (config input) in
/-- Numbers of the chunks with something in them, in order. -/
def filledNums : List UInt64 :=
  (List.range (blockCount input.length config.bufSize)).map UInt64.ofNat

theorem lt_blockCount_iff {len size i : Nat} (pos : 0 < size) :
    i < blockCount len size ↔ i * size < len := by
  rw [blockCount, ← Nat.succ_le_iff, Nat.le_div_iff_mul_le pos, Nat.succ_mul]
  omega

variable (sound : config.Sound) (limit : input.length ≤ hgapFirstReserved.toNat * config.bufSize)
  {ds : List Datagram}
include sound

theorem chunkAt_nonempty (i : Nat) :
    chunkAt config input i ≠ [] ↔ i * config.bufSize < input.length := by
  rw [chunkAt, ne_eq, Blocks.block_eq_nil_iff _ sound.bufSize_pos, Nat.not_le]

theorem chunkNumbered_nonempty (num : UInt64) :
    chunkNumbered config input num ≠ [] ↔ num.toNat * config.bufSize < input.length :=
  chunkAt_nonempty sound num.toNat

include limit

omit sound in
/-- There are unreserved numbers for all of them. -/
theorem low_toNat {i : Nat} (filled : i * config.bufSize < input.length) :
    i < hgapFirstReserved.toNat ∧ (UInt64.ofNat i).toNat = i := by
  have low : i < hgapFirstReserved.toNat := by
    have := Nat.lt_of_lt_of_le filled limit
    exact Nat.lt_of_mul_lt_mul_right this
  exact ⟨low, UInt64.toNat_ofNat_of_lt' (Nat.lt_trans low hgapFirstReserved.toNat_lt)⟩

theorem mem_filledNums {num : UInt64} :
    num ∈ filledNums config input ↔ num.toNat * config.bufSize < input.length := by
  constructor
  · intro member
    obtain ⟨i, inside, rfl⟩ := List.mem_map.mp member
    have filled := (lt_blockCount_iff sound.bufSize_pos).mp (List.mem_range.mp inside)
    rwa [(low_toNat limit filled).2]
  · intro filled
    refine List.mem_map.mpr ⟨num.toNat, List.mem_range.mpr ?_, UInt64.ofNat_toNat⟩
    exact (lt_blockCount_iff sound.bufSize_pos).mpr filled

theorem filledNums_sorted : (filledNums config input).Pairwise (· < ·) := by
  refine List.pairwise_map.mpr ((List.pairwise_lt_range).imp_of_mem fun hi hj less => ?_)
  have small {i : Nat} (inside : i ∈ List.range (blockCount input.length config.bufSize)) :
      (UInt64.ofNat i).toNat = i :=
    (low_toNat limit ((lt_blockCount_iff sound.bufSize_pos).mp (List.mem_range.mp inside))).2
  rw [UInt64.lt_iff_toNat_lt, small hi, small hj]
  exact less

theorem filledNums_input : (filledNums config input).flatMap (chunkNumbered config input) = input := by
  rw [filledNums, List.flatMap_map]
  have same : ∀ i ∈ List.range (blockCount input.length config.bufSize),
      chunkNumbered config input (UInt64.ofNat i) = Blocks.block config.bufSize input i := by
    intro i inside
    have filled := (lt_blockCount_iff sound.bufSize_pos).mp (List.mem_range.mp inside)
    rw [chunkNumbered, (low_toNat limit filled).2, chunkAt]
  rw [List.flatMap_congr same]
  exact Blocks.flatMap_block _ _ _ (RepetitionCode.blocks_enough _ _ sound.bufSize_pos)

theorem recoveredNums_eq (ordered : Ordered ds) :
    recoveredNums wh config (chunkNumbered config input) ds = (filledNums config input).filter
      fun num => decide (Recovered wh config (chunkNumbered config input) num ds) := by
  refine (recoveredNums_sorted ordered).eq_of_mem_iff
    ((filledNums_sorted sound limit).filter _) fun num => ?_
  rw [mem_recoveredNums, List.mem_filter, decide_eq_true_eq, mem_filledNums sound limit]
  exact (and_iff_right_of_imp fun recovered =>
    (chunkNumbered_nonempty sound num).mp recovered.2.1).symm

/-- The chunks that can be rebuilt are the input when all with something in them can. -/
theorem restored_iff (ordered : Ordered ds) :
    (recoveredChunks wh config (chunkNumbered config input) ds).flatMap OutChunk.data = input ↔
      ∀ num ∈ filledNums config input,
        Recovered wh config (chunkNumbered config input) num ds := by
  have whole := filledNums_input sound limit
  rw [recoveredChunks, List.flatMap_map, recoveredNums_eq sound limit ordered]
  constructor
  · intro restored
    have all := Blocks.flatMap_sublist_eq List.filter_sublist (fun num member =>
      (chunkNumbered_nonempty sound num).mpr ((mem_filledNums sound limit).mp member))
      (restored.trans whole.symm)
    exact fun num member => of_decide_eq_true (List.filter_eq_self.mp all num member)
  · intro all
    rw [List.filter_eq_self.mpr fun num member => decide_eq_true (all num member)]
    exact whole

/-- In terms of the packets that arrived. -/
theorem recovered_iff_suffices (whole : ∀ d ∈ ds, hgapHeaderLen ≤ d.bytes.length) :
    (∀ num ∈ filledNums config input, Recovered wh config (chunkNumbered config input) num ds) ↔
      ∀ i, i * config.bufSize < input.length →
        Suffices wh config (chunkAt config input i) (packetsOf (UInt64.ofNat i) ds) := by
  constructor
  · intro all i filled
    have small := (low_toNat limit filled).2
    have recovered := all (UInt64.ofNat i) ((mem_filledNums sound limit).mpr (by rwa [small]))
    have enough := recovered.2.2
    rwa [chunkNumbered, small] at enough
  · intro all num member
    have filled := (mem_filledNums sound limit).mp member
    have low := (low_toNat limit filled).1
    have enough := all num.toNat filled
    rw [UInt64.ofNat_toNat] at enough
    refine ⟨?_, (chunkNumbered_nonempty sound num).mpr filled, enough⟩
    by_contra unseen
    rw [packetsOf_unseen whole (UInt64.lt_iff_toNat_lt.mpr low) unseen] at enough
    exact suffices_nil enough

/-- No packet of a later chunk follows the last one with something in it but that of the empty
one, so nothing is missed in a transfer that can be restored. -/
theorem restored_noGap
    (all : ∀ num ∈ filledNums config input,
      Recovered wh config (chunkNumbered config input) num ds)
    (within : ∀ num ∈ dataNums ds, num.toNat ≤ input.length / config.bufSize) :
    firstGap wh config (chunkNumbered config input) ds = none := by
  apply List.find?_eq_none.mpr
  intro num _ gap
  obtain ⟨missing, later, behind, less⟩ := of_decide_eq_true gap
  refine missing (all num ((mem_filledNums sound limit).mpr ?_))
  have next : num.toNat + 1 ≤ input.length / config.bufSize :=
    Nat.le_trans (UInt64.lt_iff_toNat_lt.mp less) (within later behind)
  have full := (Nat.le_div_iff_mul_le sound.bufSize_pos).mp next
  rw [Nat.succ_mul] at full
  have := sound.bufSize_pos
  omega

/-- A gap leaves out a chunk with something in it. -/
theorem outcome_restored_iff (ordered : Ordered ds)
    (within : ∀ num ∈ dataNums ds, num.toNat ≤ input.length / config.bufSize) :
    (outcome wh config (chunkNumbered config input) ds).2.flatMap OutChunk.data = input ↔
      ∀ num ∈ filledNums config input,
        Recovered wh config (chunkNumbered config input) num ds := by
  constructor
  · intro restored
    cases gap : firstGap wh config (chunkNumbered config input) ds with
    | none =>
      rw [outcome, gap] at restored
      exact (restored_iff sound limit ordered).mp restored
    | some num =>
      rw [outcome, gap] at restored
      have whole := filledNums_input sound limit
      dsimp only at restored
      rw [recoveredChunks, List.filter_map, List.flatMap_map,
        recoveredNums_eq sound limit ordered, List.filter_filter] at restored
      have all := Blocks.flatMap_sublist_eq List.filter_sublist (fun num member =>
        (chunkNumbered_nonempty sound num).mpr ((mem_filledNums sound limit).mp member))
        (restored.trans whole.symm)
      intro other member
      have picked := List.filter_eq_self.mp all other member
      exact of_decide_eq_true (Bool.and_eq_true_iff.mp picked).2
  · intro all
    rw [outcome, restored_noGap sound limit all within]
    exact (restored_iff sound limit ordered).mpr all

end Restored

theorem limit_bound (sound : config.Sound)
    (limit : input.length ≤ hgapFirstReserved.toNat * config.bufSize) :
    input.length < 2 ^ 64 * config.bufSize :=
  Nat.lt_of_le_of_lt limit (Nat.mul_lt_mul_of_pos_right hgapFirstReserved.toNat_lt sound.bufSize_pos)

/-- The loop over a transfer that is announced and ended, and the input. -/
theorem loop_restores_iff (sound : config.Sound) (fills : wh.WriteFills)
    (restarts : wh.DecodeRestarts) (decodes : wh.DecodesEncoded) (reconstructs : wh.Reconstructs)
    (limit : input.length ≤ hgapFirstReserved.toNat * config.bufSize) {fuel : Nat}
    {sent : List Bytes} (done : hgapSendDatagrams wh config fuel input = some sent)
    {early body : List Datagram} (after : List Datagram) {b e : Datagram}
    (unannounced : ∀ d ∈ early, hgapPktType d ≠ .begin_) (begins : hgapPktType b = .begin_)
    (ends : hgapPktType e = .end_) (relayed : ∀ d ∈ body, Relayed sent d)
    (running : ∀ d ∈ body, hgapPktType d ≠ .end_) (ordered : Ordered body) :
    (∃ outs, readEmitLoop wh hgapDecoderNew (early ++ b :: (body ++ e :: after)) =
        some (.left (-Hgap.eot.code) Hgap.success.code, outs) ∧
      outs.flatMap OutChunk.data = input) ↔
    ∀ i, i * config.bufSize < input.length →
      Suffices wh config (chunkAt config input i) (packetsOf (UInt64.ofNat i) body) := by
  have bound := limit_bound sound limit
  have loop := readEmitLoop_outcome restarts decodes reconstructs (chunkNumbered_fits sound)
    unannounced begins (fun d h => relayed_sent sound fills done bound (relayed d h)) running
    ordered ends after
  have within : ∀ num ∈ dataNums body, num.toNat ≤ input.length / config.bufSize := by
    intro num member
    obtain ⟨d, inside, data, rfl⟩ := mem_dataNums.mp member
    exact (relayed d inside).num_le sound fills done bound data
  rw [← recovered_iff_suffices sound limit fun d h => (relayed d h).whole sound fills done,
    ← outcome_restored_iff sound limit ordered within, loop]
  constructor
  · rintro ⟨outs, ended, restored⟩
    rw [Option.some.inj ended]
    exact restored
  · intro restored
    have all := (outcome_restored_iff sound limit ordered within).mp restored
    refine ⟨_, congrArg some (Prod.ext ?_ rfl), restored⟩
    rw [outcome, restored_noGap sound limit all within]

/-- The loop ends at the END packet with the input written, exactly when for each chunk with
something in it enough packets arrived between a BEGIN and an END. -/
theorem roundTrip_iff (host : Host) (accepted : hgapCheckConfigSender host config = .success)
    (fills : wh.WriteFills) (restarts : wh.DecodeRestarts) (decodes : wh.DecodesEncoded)
    (reconstructs : wh.Reconstructs)
    (limit : input.length ≤ hgapFirstReserved.toNat * config.bufSize) (fuel : Nat)
    (sent : List Bytes) (done : hgapSendDatagrams wh config fuel input = some sent)
    (early body after : List Datagram) (b e : Datagram)
    (unannounced : ∀ d ∈ early, hgapPktType d ≠ .begin_) (begins : hgapPktType b = .begin_)
    (ends : hgapPktType e = .end_) (relayed : ∀ d ∈ body, Relayed sent d)
    (running : ∀ d ∈ body, hgapPktType d ≠ .end_) (ordered : Ordered body) :
    (∃ outs, readEmitLoop wh hgapDecoderNew (early ++ b :: (body ++ e :: after)) =
        some (.left (-Hgap.eot.code) Hgap.success.code, outs) ∧
      outs.flatMap OutChunk.data = input) ↔
    ∀ i, i * config.bufSize < input.length →
      Suffices wh config (chunkAt config input i) (packetsOf (UInt64.ofNat i) body) :=
  loop_restores_iff (config.sound host accepted) fills restarts decodes reconstructs limit done after
    unannounced begins ends relayed running ordered

end

section Lossy

/-- Three octets a chunk, one octet a packet, two packets an octet. -/
def threeOctets : HgapConfig := ⟨some 0, some 1, 3, 25, .fin 2, some "127.0.0.1", 0⟩

/-- The packet of a chunk with an id, as it arrives. -/
def arriving (num : UInt64) (content : Bytes) (ident : UInt32) : Datagram :=
  .zeroed (chunkPacket num content ident (chunkPayload RepetitionCode.code threeOctets content ident))

theorem threeOctets_accepted :
    hgapCheckConfigSender ⟨fun _ => 0, fun _ => false⟩ threeOctets = .success := by decide

theorem fourOctets_sent : hgapSendDatagrams RepetitionCode.code threeOctets 6 [7, 8, 9, 5] =
    some ((hgapSendDatagrams RepetitionCode.code threeOctets 6 [7, 8, 9, 5]).getD []) := by
  decide +kernel

theorem fourOctets_filled {i : Nat} (filled : i * threeOctets.bufSize < [7, 8, 9, 5].length) :
    i = 0 ∨ i = 1 := by
  have size : threeOctets.bufSize = 3 := rfl
  rw [size, List.length_cons, List.length_cons, List.length_cons, List.length_singleton] at filled
  omega

/-- The short chunk arrives before the long one, and once more behind it. -/
theorem reception_regrouped_twice :
    readEmitLoop RepetitionCode.code hgapDecoderNew
      ([] ++ .begin_ :: ([arriving 1 [5] 0, arriving 0 [7, 8, 9] 4, arriving 0 [7, 8, 9] 2,
        arriving 0 [7, 8, 9] 0, arriving 1 [5] 1] ++ .zeroed (hgapWriteHeader hgapHeaderEnd) :: [])) =
      some (.left (-Hgap.eot.code) Hgap.success.code, [⟨1, [5]⟩, ⟨0, [7, 8, 9]⟩, ⟨1, [5]⟩]) := by
  have loop := reception_regrouped _ threeOctets_accepted RepetitionCode.writeFills
    RepetitionCode.decodeRestarts RepetitionCode.decodesEncoded RepetitionCode.reconstructs
    (by decide) 6 _ fourOctets_sent []
    [arriving 1 [5] 0, arriving 0 [7, 8, 9] 4, arriving 0 [7, 8, 9] 2, arriving 0 [7, 8, 9] 0,
      arriving 1 [5] 1] [] .begin_ (.zeroed (hgapWriteHeader hgapHeaderEnd)) nofun (by decide)
    (by decide) (by decide +kernel) (by decide +kernel)
  rw [loop]
  decide +kernel

/-- Two blocks of the first chunk are not enough when the second one begins. -/
theorem reception_outcome_gap :
    readEmitLoop RepetitionCode.code hgapDecoderNew
      ([] ++ .begin_ :: ([arriving 0 [7, 8, 9] 4, arriving 0 [7, 8, 9] 0, arriving 1 [5] 1] ++
        .zeroed (hgapWriteHeader hgapHeaderEnd) :: [])) =
      some (.left (-Hgap.errIncompleteChunk.code) Hgap.errIncompleteChunk.code, []) := by
  have loop := reception_outcome _ threeOctets_accepted RepetitionCode.writeFills
    RepetitionCode.decodeRestarts RepetitionCode.decodesEncoded RepetitionCode.reconstructs
    (by decide) 6 _ fourOctets_sent []
    [arriving 0 [7, 8, 9] 4, arriving 0 [7, 8, 9] 0, arriving 1 [5] 1] [] .begin_
    (.zeroed (hgapWriteHeader hgapHeaderEnd)) nofun (by decide) (by decide) (by decide +kernel)
    (by decide +kernel) (by decide +kernel)
  rw [loop]
  decide +kernel

/-- The blocks of a chunk out of order, one of them twice and one as a repair packet, behind a
keepalive. -/
theorem roundTrip_threeOctets :
    ∃ outs, readEmitLoop RepetitionCode.code hgapDecoderNew
        ([] ++ .begin_ :: ([.zeroed (hgapWriteHeader hgapHeaderKeepalive), arriving 0 [7, 8, 9] 4,
          arriving 0 [7, 8, 9] 0, arriving 0 [7, 8, 9] 4, arriving 0 [7, 8, 9] 5,
          arriving 1 [5] 1] ++ .zeroed (hgapWriteHeader hgapHeaderEnd) :: [])) =
        some (.left (-Hgap.eot.code) Hgap.success.code, outs) ∧
      outs.flatMap OutChunk.data = [7, 8, 9, 5] := by
  refine (roundTrip_iff _ threeOctets_accepted RepetitionCode.writeFills
    RepetitionCode.decodeRestarts RepetitionCode.decodesEncoded RepetitionCode.reconstructs
    (by decide) 6 _ fourOctets_sent [] _ _ _ _ nofun (by decide) (by decide) (by decide +kernel)
    (by decide +kernel) (by decide +kernel)).mpr fun i filled => ?_
  rcases fourOctets_filled filled with rfl | rfl
  · decide +kernel
  · decide +kernel

end Lossy

end Hairgap.Guarantees
