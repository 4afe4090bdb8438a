import Hairgap.Guarantees.Originals

/-!
# The decoder undoes the encoder

The two of them without the threads and the channel between them. Part of a transfer, in order, is
decoded to the input when a BEGIN packet, an END packet and enough packets of each chunk with
something in it are left of it.
-/
namespace Hairgap.Guarantees
open Hairgap.Base Hairgap.Source

section
variable {S : Type} {wh : Wirehair S} {config : HgapConfig} {input : Bytes} {sent : List Bytes}

/-- The loop over what arrives of a transfer, announced and ended. -/
theorem Arrived.loop_restores (sound : config.Sound) (fills : wh.WriteFills)
    (restarts : wh.DecodeRestarts) (decodes : wh.DecodesEncoded) (reconstructs : wh.Reconstructs)
    {fuel : Nat} (done : hgapSendDatagrams wh config fuel input = some sent)
    (limit : input.length ≤ hgapFirstReserved.toNat * config.bufSize) {ds : List Datagram}
    (arrived : Arrived sent ds) (begun : ∃ d ∈ ds, hgapPktType d = .begin_)
    (ended : ∃ d ∈ ds, hgapPktType d = .end_)
    (enough : ∀ i, i * config.bufSize < input.length →
      Suffices wh config (chunkAt config input i) (packetsOf (UInt64.ofNat i) ds)) :
    ∃ outs, readEmitLoop wh hgapDecoderNew ds =
        some (.left (-Hgap.eot.code) Hgap.success.code, outs) ∧
      outs.flatMap OutChunk.data = input := by
  have whole : ∀ d ∈ ds, hgapHeaderLen ≤ d.bytes.length :=
    fun d h => (arrived.relayed d h).whole sound fills done
  obtain ⟨before, e, after, rfl, ends, running⟩ := first_of_type ended
  have announced : ∃ d ∈ before, hgapPktType d = .begin_ := by
    obtain ⟨first, member, begins⟩ := begun
    rcases List.mem_append.mp (arrived.before_end ends member (.inl begins)) with inside | last
    · exact ⟨first, inside, begins⟩
    · rw [List.mem_singleton.mp last, ends] at begins
      cases begins
  obtain ⟨early, b, body, rfl, begins, unannounced, quietFront⟩ := arrived.announced announced
  have quietBack : ∀ d ∈ e :: after, hgapPktType d ≠ .data := by
    intro d member
    rcases List.mem_cons.mp member with rfl | late
    · rw [ends]
      exact nofun
    · exact (arrived.after_end ends d late).2
  have shape : (early ++ b :: body) ++ e :: after = (early ++ [b]) ++ (body ++ e :: after) := by simp
  have sublist : body.Sublist ((early ++ b :: body) ++ e :: after) := by
    rw [shape]
    exact (List.sublist_append_left _ _).trans (List.sublist_append_right _ _)
  rw [List.append_assoc, List.cons_append]
  refine (loop_restores_iff sound fills restarts decodes reconstructs limit done after unannounced
    begins ends (fun d h => arrived.relayed d (sublist.subset h))
    (fun d h => running d (by simp [h])) (arrived.ordered.sublist (sublist.filterMap _))).mpr ?_
  intro i filled
  have kept := enough i filled
  rw [shape] at kept whole
  rwa [packetsOf_frame quietFront quietBack whole] at kept
  rw [UInt64.lt_iff_toNat_lt, (low_toNat limit filled).2]
  exact (low_toNat limit filled).1

/-- What comes of the datagrams of a transfer. -/
structure Undone (wh : Wirehair S) (config : HgapConfig) (input : Bytes) (sent : List Bytes) :
    Prop where
  /-- What is left, in order, is decoded without an error up to the END packet, to the input. -/
  restored : ∀ ds : List Datagram, (ds.map Datagram.bytes).Sublist sent →
    (∃ d ∈ ds, hgapPktType d = .begin_) → (∃ d ∈ ds, hgapPktType d = .end_) →
    (∀ i, i * config.bufSize < input.length →
      Suffices wh config (chunkAt config input i) (packetsOf (UInt64.ofNat i) ds)) →
    ∃ outs, readEmitLoop wh hgapDecoderNew ds =
        some (.left (-Hgap.eot.code) Hgap.success.code, outs) ∧
      outs.flatMap OutChunk.data = input
  /-- The packets with the original blocks are enough of a chunk. -/
  originals : ∀ ds : List Datagram, (ds.map Datagram.bytes).Sublist sent →
    Originals config input ds → ∀ i, i * config.bufSize < input.length →
      Suffices wh config (chunkAt config input i) (packetsOf (UInt64.ofNat i) ds)
  /-- Where nothing is lost they are all there. -/
  full : config.redund ≠ .nan → ∀ ds : List Datagram, ds.map Datagram.bytes = sent →
    (∃ d ∈ ds, hgapPktType d = .begin_) ∧ (∃ d ∈ ds, hgapPktType d = .end_) ∧
      Originals config input ds

/-- Decoding undoes encoding, as long as there is an unreserved number for every chunk with
something in it. -/
theorem decoding_undoes (host : Host) (accepted : hgapCheckConfigSender host config = .success)
    (fills : wh.WriteFills) (writes : wh.WritesAll) (encodes : wh.EncodesInRange)
    (restarts : wh.DecodeRestarts) (decodes : wh.DecodesEncoded) (reconstructs : wh.Reconstructs)
    (systematic : wh.Systematic)
    (limit : input.length ≤ hgapFirstReserved.toNat * config.bufSize) (fuel : Nat)
    (done : hgapSendDatagrams wh config fuel input = some sent) : Undone wh config input sent := by
  have sound := config.sound host accepted
  have arrived {ds : List Datagram} (sublist : (ds.map Datagram.bytes).Sublist sent) :
      Arrived sent ds :=
    arrived_of_kept sound fills done limit (sent_plain sound fills done limit) (.of_sublist sublist)
  refine ⟨?_, ?_, ?_⟩
  · intro ds sublist begun ended enough
    exact (arrived sublist).loop_restores sound fills restarts decodes reconstructs done limit begun
      ended enough
  · intro ds sublist originals i filled
    exact originals_suffice sound fills done limit decodes systematic (arrived sublist) originals i
      filled
  · intro number ds whole
    obtain ⟨counts, reaches, rfl⟩ := sendDatagrams_counts sound fills writes encodes done
    have delivered {b : Bytes} (member : b ∈ fullTransfer wh config counts input) :
        ∃ d ∈ ds, d.bytes = b := by
      rw [← whole] at member
      exact List.mem_map.mp member
    refine ⟨?_, ?_, fun i filled k block => ?_⟩
    · obtain ⟨first, member, octets⟩ := delivered (begin_sent wh config counts input)
      exact ⟨first, member, type_begin first octets⟩
    · obtain ⟨last, member, octets⟩ := delivered (end_sent wh config counts input)
      exact ⟨last, member, type_end last octets⟩
    · have within : i ≤ input.length / config.bufSize :=
        (Nat.le_div_iff_mul_le sound.bufSize_pos).mpr (Nat.le_of_lt filled)
      obtain ⟨redund, finite⟩ := (reaches _ (chunkAt_mem within)).finite
        ((chunkAt_nonempty sound i).mpr filled) number
      obtain ⟨d, member, octets⟩ := delivered (original_sent sound finite reaches within block)
      exact ⟨d, member, packetAt_hdr octets⟩

/-- No more comes out than there are unreserved numbers for. -/
theorem outcome_length {ds : List Datagram} (ordered : Ordered ds) :
    ((outcome wh config (chunkNumbered config input) ds).2.flatMap OutChunk.data).length ≤
      hgapFirstReserved.toNat * config.bufSize := by
  obtain ⟨nums, sorted, recovered, chunks⟩ := @outcome_chunks S wh config _ ds ordered
  have distinct : (nums.map UInt64.toNat).Nodup :=
    List.pairwise_map.mpr (sorted.imp fun less => Nat.ne_of_lt (UInt64.lt_iff_toNat_lt.mp less))
  have low : nums.map UInt64.toNat ⊆ List.range hgapFirstReserved.toNat := by
    intro n member
    obtain ⟨num, inside, rfl⟩ := List.mem_map.mp member
    exact List.mem_range.mpr (UInt64.lt_iff_toNat_lt.mp (dataNums_low (recovered num inside).1))
  have few : nums.length ≤ hgapFirstReserved.toNat := by
    have := (List.subperm_of_subset distinct low).length_le
    rwa [List.length_map, List.length_range] at this
  rw [chunks, List.flatMap_map, List.length_flatMap]
  refine Nat.le_trans (List.sum_le_card_nsmul _ config.bufSize ?_) ?_
  · intro len member
    obtain ⟨num, -, rfl⟩ := List.mem_map.mp member
    exact chunkAt_length_le config input num.toNat
  · rw [List.length_map, Nat.nsmul_eq_mul]
    exact Nat.mul_le_mul_right _ few

end

section Lossy

/-- Half of the packets of each of two chunks. -/
theorem decoding_undoes_halfLost : ∃ outs,
    readEmitLoop RepetitionCode.code hgapDecoderNew [.begin_, arriving 0 [7, 8, 9] 0,
        arriving 0 [7, 8, 9] 4, arriving 0 [7, 8, 9] 5, arriving 1 [5] 1, .end_] =
      some (.left (-Hgap.eot.code) Hgap.success.code, outs) ∧
    outs.flatMap OutChunk.data = [7, 8, 9, 5] := by
  refine (decoding_undoes _ threeOctets_accepted RepetitionCode.writeFills RepetitionCode.writesAll
    RepetitionCode.encodesInRange RepetitionCode.decodeRestarts RepetitionCode.decodesEncoded
    RepetitionCode.reconstructs RepetitionCode.systematic (by decide) 6 fourOctets_sent).restored _
    (by decide +kernel) ⟨.begin_, by simp, by decide⟩ ⟨.end_, by simp, by decide⟩ fun i filled => ?_
  rcases fourOctets_filled filled with rfl | rfl
  · decide +kernel
  · decide +kernel

end Lossy

section Overlong
variable {input : Bytes}

/-- The packets of the chunks of one octet, and of the empty one behind them. -/
def smallestPackets (input : Bytes) : List Bytes :=
  ((List.range (input.length / HgapConfig.smallest.bufSize + 1)).map fun i =>
    chunkPackets RepetitionCode.code .smallest 1 (UInt64.ofNat i)
      (chunkAt .smallest input i)).flatten

def smallestBody (input : Bytes) : List Datagram :=
  List.replicate 31 .begin_ ++ (smallestPackets input).map .zeroed

/-- The whole transfer, as it arrives. -/
def smallestArrivals (input : Bytes) : List Datagram :=
  [] ++ .begin_ :: (smallestBody input ++ .end_ :: List.replicate 31 .end_)

theorem smallest_arrivals (input : Bytes) : (smallestArrivals input).map Datagram.bytes =
    fullTransfer RepetitionCode.code .smallest (fun _ => 1) input := by
  have octets : Datagram.bytes ∘ Datagram.zeroed = id := rfl
  have salve (b : Bytes) : b :: List.replicate 31 b = List.replicate hgapSalveLen b := rfl
  simp only [smallestArrivals, smallestBody, List.nil_append, List.map_cons, List.map_append,
    List.map_replicate, List.map_map, octets, List.map_id, fullTransfer, ← salve]
  rw [← List.cons_append, ← List.cons_append]
  rfl

/-- No number of a chunk is that of an END packet. -/
theorem smallest_running (size : input.length = hgapFirstReserved.toNat + 1) :
    ∀ d ∈ smallestBody input, hgapPktType d ≠ .end_ := by
  intro d member
  rcases List.mem_append.mp member with first | packet
  · rw [List.eq_of_mem_replicate first]
    decide
  · obtain ⟨b, inside, rfl⟩ := List.mem_map.mp packet
    obtain ⟨group, hgroup, inside⟩ := List.mem_flatten.mp inside
    obtain ⟨i, within, rfl⟩ := List.mem_map.mp hgroup
    obtain ⟨k, -, rfl⟩ := List.mem_map.mp inside
    have below : i ≤ hgapFirstReserved.toNat + 1 := by
      have := List.mem_range.mp within
      rw [size, show HgapConfig.smallest.bufSize = 1 from rfl, Nat.div_one] at this
      exact Nat.le_of_lt_succ this
    have other : UInt64.ofNat i ≠ hgapNoMoreChunk := by
      intro same
      have same := congrArg UInt64.toNat same
      rw [UInt64.toNat_ofNat_of_lt' (Nat.lt_of_le_of_lt below (by decide))] at same
      rw [same] at below
      exact absurd below (by decide)
    rw [packetAt, chunkPacket, pktType_write (.zeroed _) _ _ rfl]
    dsimp only
    rw [if_neg other]
    split_ifs <;> decide

/-- All of a transfer arrives, and the octet without a number is missing. -/
theorem overlongInput_missing : ∃ fuel sent ds,
    hgapCheckConfigSender ⟨fun _ => 0, fun _ => false⟩ .smallest = .success ∧
    hgapSendDatagrams RepetitionCode.code .smallest fuel
      (List.replicate (hgapFirstReserved.toNat + 1) 0) = some sent ∧
    (ds.map Datagram.bytes).Sublist sent ∧ (∃ d ∈ ds, hgapPktType d = .begin_) ∧
    (∃ d ∈ ds, hgapPktType d = .end_) ∧
    (∀ i, i * HgapConfig.smallest.bufSize < hgapFirstReserved.toNat + 1 →
      Suffices RepetitionCode.code .smallest
        (chunkAt .smallest (List.replicate (hgapFirstReserved.toNat + 1) 0) i)
        (packetsOf (UInt64.ofNat i) ds)) ∧
    ∀ last outs, readEmitLoop RepetitionCode.code hgapDecoderNew ds = some (last, outs) →
      outs.flatMap OutChunk.data ≠ List.replicate (hgapFirstReserved.toNat + 1) 0 := by
  have size : (List.replicate (hgapFirstReserved.toNat + 1) (0 : UInt8)).length =
      hgapFirstReserved.toNat + 1 := List.length_replicate
  generalize List.replicate (hgapFirstReserved.toNat + 1) (0 : UInt8) = input at size ⊢
  have accepted : hgapCheckConfigSender ⟨fun _ => 0, fun _ => false⟩ .smallest = .success := by
    decide
  have sound := HgapConfig.sound _ _ accepted
  have bufSize : HgapConfig.smallest.bufSize = 1 := rfl
  have bound : input.length < 2 ^ 64 * HgapConfig.smallest.bufSize := by
    rw [size, bufSize]
    decide
  obtain ⟨fuel, total⟩ := sendDatagrams_total sound RepetitionCode.writeFills
    RepetitionCode.writesAll RepetitionCode.encodesInRange (smallest_counts input)
  have done := total fuel (Nat.le_refl _)
  have arrivals := smallest_arrivals input
  have relayed : ∀ d ∈ smallestArrivals input, d.bytes ∈
      fullTransfer RepetitionCode.code .smallest (fun _ => 1) input :=
    fun d member => arrivals ▸ List.mem_map_of_mem member
  have inside : ∀ d ∈ smallestBody input, d ∈ smallestArrivals input := by
    simp +contextual [smallestArrivals]
  refine ⟨fuel, _, smallestArrivals input, accepted, done, arrivals ▸ List.Sublist.refl _,
    ⟨.begin_, by simp [smallestArrivals], by decide⟩, ⟨.end_, by simp [smallestArrivals], by decide⟩,
    ?_, ?_⟩
  · intro i filled
    rw [← size] at filled
    have within : i ≤ input.length / HgapConfig.smallest.bufSize :=
      (Nat.le_div_iff_mul_le sound.bufSize_pos).mpr (Nat.le_of_lt filled)
    have nonempty := (chunkAt_nonempty sound i).mpr filled
    have packet : packetAt RepetitionCode.code .smallest (UInt64.ofNat i) (chunkAt .smallest input i) 0
        ∈ fullTransfer RepetitionCode.code .smallest (fun _ => 1) input :=
      original_sent sound rfl (smallest_counts input) within
        (blockCount_pos sound (List.length_pos_iff.mpr nonempty))
    rw [← arrivals] at packet
    obtain ⟨d, member, octets⟩ := List.mem_map.mp packet
    have fits : (chunkAt .smallest input i).length ≤ HgapConfig.smallest.payload :=
      chunkAt_length_le .smallest input i
    rw [Suffices, if_pos fits]
    exact List.ne_nil_of_mem (List.mem_filter.mpr
      ⟨List.mem_map_of_mem member, decide_eq_true (packetAt_hdr octets).1⟩)
  · intro last outs loop restored
    have ordered : Ordered (smallestArrivals input) := ordered_of_kept
      ((sent_ordered sound RepetitionCode.writeFills done bound).filter _)
      (.of_sublist (arrivals ▸ List.Sublist.refl _))
    have sublist : (smallestBody input).Sublist (smallestArrivals input) :=
      (List.sublist_append_left _ _).trans (List.sublist_cons_self _ _)
    have ordered : Ordered (smallestBody input) := ordered.sublist (sublist.filterMap _)
    have unannounced : ∀ d ∈ ([] : List Datagram), hgapPktType d ≠ .begin_ :=
      fun _ member => absurd member List.not_mem_nil
    have begins : hgapPktType .begin_ = .begin_ := by decide
    have ends : hgapPktType .end_ = .end_ := by decide
    have looped := readEmitLoop_outcome RepetitionCode.decodeRestarts RepetitionCode.decodesEncoded
      RepetitionCode.reconstructs (chunkNumbered_fits sound) unannounced begins
      (fun d h => relayed_sent sound RepetitionCode.writeFills done bound
        (.inl (relayed d (inside d h)))) (smallest_running size) ordered ends (List.replicate 31 .end_)
    have short := @outcome_length _ RepetitionCode.code .smallest input _ ordered
    rw [smallestArrivals, looped] at loop
    rw [Option.some.inj loop, restored, size, bufSize] at short
    omega

end Overlong

end Hairgap.Guarantees
