import Hairgap.Guarantees.Originals

/-!
# What the redundancy buys

Behind a code that needs `extra` blocks more than a chunk has, the input survives the loss of all
packets of each chunk but as many as the code needs. A chunk of one payload needs one packet.
-/
namespace Hairgap.Guarantees
open Hairgap.Base Hairgap.Source

section
variable {S : Type} (wh : Wirehair S) (config : HgapConfig)

/-- Packets a chunk is rebuilt from, whichever they are. -/
def needed (extra : Nat) (content : Bytes) : Nat :=
  if content.length ≤ config.payload then 1 else blockCount content.length config.payload + extra

/-- Packets of a chunk, of so many, no copy of which arrived. -/
def lostPackets (count : Nat) (num : UInt64) (content : Bytes) (ds : List Datagram) : List Bytes :=
  (chunkPackets wh config count num content).filter fun b => !(ds.map Datagram.bytes).contains b

/-- Indices of those of which one did. -/
def arrivedPackets (count : Nat) (num : UInt64) (content : Bytes) (ds : List Datagram) : List Nat :=
  (List.range count).filter fun k =>
    (ds.map Datagram.bytes).contains (packetAt wh config num content k)

variable {wh config}

theorem arrived_lost (count : Nat) (num : UInt64) (content : Bytes) (ds : List Datagram) :
    (arrivedPackets wh config count num content ds).length +
        (lostPackets wh config count num content ds).length = count := by
  have parts := List.length_eq_length_filter_add (l := List.range count)
    fun k => (ds.map Datagram.bytes).contains (packetAt wh config num content k)
  rw [List.length_range] at parts
  rw [arrivedPackets, lostPackets, chunkPackets, List.filter_map, List.length_map]
  simp only [Function.comp_def]
  exact parts.symm

/-- What arrives with the number of a chunk is one of its packets. -/
theorem packet_sent (sound : config.Sound) (counts : Nat → Nat) {input : Bytes} {d : Datagram}
    (limit : input.length ≤ hgapFirstReserved.toNat * config.bufSize)
    (relayed : Relayed (fullTransfer wh config counts input) d) {i : Nat}
    (filled : i * config.bufSize < input.length) (num : d.pkt.hdr.chunkNum = UInt64.ofNat i) :
    ∃ k < counts (chunkAt config input i).length,
      d.bytes = packetAt wh config (UInt64.ofNat i) (chunkAt config input i) k := by
  obtain ⟨low, small⟩ := low_toNat limit filled
  have control (hdr : HgapHeader) (octets : d.bytes = hgapWriteHeader hdr)
      (reserved : hgapFirstReserved ≤ hdr.chunkNum) : False := by
    have header : readHeader d.ptr = hdr := readHeader_write d hdr [] (by rw [octets, List.append_nil])
    have same : hdr.chunkNum = UInt64.ofNat i := by
      rw [← num, ← header]
      rfl
    rw [same, UInt64.le_iff_toNat_le, small] at reserved
    omega
  rcases relayed with member | octets
  · rw [fullTransfer, List.mem_append, List.mem_append] at member
    rcases member with (first | middle) | last
    · exact (control _ (List.eq_of_mem_replicate first) (by decide)).elim
    · obtain ⟨group, hgroup, inside⟩ := List.mem_flatten.mp middle
      obtain ⟨j, within, rfl⟩ := List.mem_map.mp hgroup
      obtain ⟨k, few, octets⟩ := List.mem_map.mp inside
      have header : readHeader d.ptr = _ := readHeader_write d _ _ octets.symm
      have same : UInt64.ofNat j = UInt64.ofNat i := by
        rw [← num]
        exact (congrArg HgapHeader.chunkNum header).symm
      have within := List.mem_range.mp within
      have equal := congrArg UInt64.toNat same
      rw [small, num_toNat sound (limit_bound sound limit) (Nat.le_of_lt_succ within)] at equal
      subst equal
      exact ⟨k, List.mem_range.mp few, octets.symm⟩
    · exact (control _ (List.eq_of_mem_replicate last) (by decide)).elim
  · exact (control _ octets (by decide)).elim

/-- A packet that arrived is among those with the number of the chunk, under its id. -/
theorem arrived_inside {count : Nat} {num : UInt64} {content : Bytes} {ds : List Datagram} {k : Nat}
    (arrived : k ∈ arrivedPackets wh config count num content ds) :
    k < count ∧ ∃ pkt ∈ packetsOf num ds, pkt.hdr.dataId = UInt32.ofNat k := by
  obtain ⟨within, found⟩ := List.mem_filter.mp arrived
  obtain ⟨d, member, octets⟩ := List.mem_map.mp (List.contains_iff_mem.mp found)
  obtain ⟨same, ident⟩ := packetAt_hdr octets
  exact ⟨List.mem_range.mp within, d.pkt,
    List.mem_filter.mpr ⟨List.mem_map_of_mem member, decide_eq_true same⟩, ident⟩

section Chunk
variable (sound : config.Sound) (fills : wh.WriteFills) (decodes : wh.DecodesEncoded)
  {counts : Nat → Nat} {fuel : Nat} {input : Bytes}
  (done : hgapSendDatagrams wh config fuel input = some (fullTransfer wh config counts input))
  (limit : input.length ≤ hgapFirstReserved.toNat * config.bufSize)
include sound fills decodes done limit

/-- A chunk as many packets of which arrived as the code needs. -/
theorem suffices_arrived {ds : List Datagram}
    (relayed : ∀ d ∈ ds, Relayed (fullTransfer wh config counts input) d) {i : Nat}
    (filled : i * config.bufSize < input.length)
    (few : counts (chunkAt config input i).length ≤ 2 ^ 32) {extra : Nat}
    (overhead : wh.Overhead (chunkAt config input i) config.payload
      (counts (chunkAt config input i).length) extra)
    (enough : needed config extra (chunkAt config input i) ≤
      (arrivedPackets wh config (counts (chunkAt config input i).length) (UInt64.ofNat i)
        (chunkAt config input i) ds).length) :
    Suffices wh config (chunkAt config input i) (packetsOf (UInt64.ofNat i) ds) := by
  obtain ⟨low, small⟩ := low_toNat limit filled
  have unreserved : UInt64.ofNat i < hgapFirstReserved := by rwa [UInt64.lt_iff_toNat_lt, small]
  have carries := packetsOf_carries (fun d h => relayed_sent sound fills done
    (limit_bound sound limit) (relayed d h)) unreserved
  rw [chunkNumbered, small] at carries
  rw [needed] at enough
  unfold Suffices
  split
  next fits =>
    rw [if_pos fits] at enough
    obtain ⟨k, arrived⟩ := List.exists_mem_of_length_pos enough
    obtain ⟨-, pkt, member, -⟩ := arrived_inside arrived
    exact List.ne_nil_of_mem member
  next long =>
    rw [if_neg long] at enough
    have long := Nat.lt_of_not_le long
    have some_ := blockCount_pos sound (Nat.lt_of_le_of_lt (Nat.zero_le _) long)
    obtain ⟨k, arrived⟩ := List.exists_mem_of_length_pos
      (Nat.lt_of_lt_of_le (Nat.add_pos_left some_ extra) enough)
    obtain ⟨-, first, member, -⟩ := arrived_inside arrived
    obtain ⟨enc, encoded, -⟩ := (carries first member).coded long
    obtain ⟨state, decoded⟩ := Option.isSome_iff_exists.mp (decodes _ _ enc encoded)
    refine ⟨state, decoded, overhead enc state _ ((arrivedPackets wh config
      (counts (chunkAt config input i).length) (UInt64.ofNat i) (chunkAt config input i) ds).map
        UInt32.ofNat) encoded decoded ?_ ?_ ?_ ?_ ?_⟩
    · intro r read
      obtain ⟨pkt, hpkt, rfl⟩ := List.mem_map.mp read
      obtain ⟨enc', encoded', written⟩ := (carries pkt hpkt).coded long
      obtain rfl := Option.some.inj (encoded'.symm.trans encoded)
      exact written
    · intro r read
      obtain ⟨pkt, hpkt, rfl⟩ := List.mem_map.mp read
      obtain ⟨member, same⟩ := List.mem_filter.mp hpkt
      obtain ⟨d, hd, rfl⟩ := List.mem_map.mp member
      obtain ⟨k, within, octets⟩ := packet_sent sound counts limit (relayed d hd) filled
        (of_decide_eq_true same)
      dsimp only
      rw [(packetAt_hdr octets).2, UInt32.toNat_ofNat']
      exact Nat.lt_of_le_of_lt (Nat.mod_le _ _) within
    · refine List.Nodup.map_on ?_ (List.nodup_range.filter _)
      intro k hk l hl same
      have below := Nat.lt_of_lt_of_le (arrived_inside hk).1 few
      have below' := Nat.lt_of_lt_of_le (arrived_inside hl).1 few
      have same := congrArg UInt32.toNat same
      rwa [UInt32.toNat_ofNat', UInt32.toNat_ofNat', Nat.mod_eq_of_lt below,
        Nat.mod_eq_of_lt below'] at same
    · intro ident member
      obtain ⟨k, arrived, rfl⟩ := List.mem_map.mp member
      obtain ⟨-, pkt, hpkt, ident⟩ := arrived_inside arrived
      exact List.mem_map.mpr ⟨_, List.mem_map_of_mem hpkt, ident⟩
    · rw [List.length_map]
      exact enough

end Chunk

/-- With a code that needs `extra` blocks more than a chunk has, `hgap_receive` writes the input
behind every channel that keeps the order, lets a BEGIN and an END packet through and loses of
each chunk no more packets than its redundancy makes up for. -/
theorem losses_tolerated (host : Host) (accepted : hgapCheckConfigSender host config = .success)
    (fills : wh.WriteFills) (writes : wh.WritesAll) (encodes : wh.EncodesInRange)
    (restarts : wh.DecodeRestarts) (decodes : wh.DecodesEncoded) (reconstructs : wh.Reconstructs)
    {input : Bytes} (limit : input.length ≤ hgapFirstReserved.toNat * config.bufSize)
    {counts : Nat → Nat} (reaches : Counts config counts input)
    (few : ∀ i, i * config.bufSize < input.length →
      counts (chunkAt config input i).length ≤ 2 ^ 32)
    (extra : Nat)
    (overhead : ∀ i, i * config.bufSize < input.length →
      wh.Overhead (chunkAt config input i) config.payload
        (counts (chunkAt config input i).length) extra)
    (wire : List Bytes) (plain : withoutKeepalives wire = fullTransfer wh config counts input)
    (recvs : List Recv) (reader : Int) (passed : List Datagram)
    (stops : hgaprNetReader recvs = some (reader, passed))
    (kept : OrderKept wire (passed.map Datagram.bytes))
    (begun : ∃ d ∈ passed, hgapPktType d = .begin_) (ended : ∃ d ∈ passed, hgapPktType d = .end_)
    (losses : ∀ i, i * config.bufSize < input.length →
      (lostPackets wh config (counts (chunkAt config input i).length) (UInt64.ofNat i)
          (chunkAt config input i) passed).length +
        needed config extra (chunkAt config input i) ≤ counts (chunkAt config input i).length) :
    (∃ bound, ∀ fuel, bound ≤ fuel →
      hgapSendDatagrams wh config fuel input = some (fullTransfer wh config counts input)) ∧
    ∃ outs, hgapReceive wh recvs Hgap.success.code = some (Hgap.success.code, outs) ∧
      outs.flatMap OutChunk.data = input := by
  have sound := config.sound host accepted
  obtain ⟨bound, total⟩ := sendDatagrams_total sound fills writes encodes reaches
  refine ⟨⟨bound, total⟩, ?_⟩
  have done := total bound (Nat.le_refl _)
  have arrived := arrived_of_kept sound fills done limit plain kept
  refine arrived.restores sound fills done limit restarts decodes reconstructs stops begun ended
    fun i filled => ?_
  refine suffices_arrived sound fills decodes done limit arrived.relayed filled (few i filled)
    (overhead i filled) ?_
  have parts := @arrived_lost S wh config (counts (chunkAt config input i).length)
    (UInt64.ofNat i) (chunkAt config input i) passed
  have := losses i filled
  omega

end

section ThreeOctets

/-- Each chunk has lost its first packet, the longer one does not have to spare another. -/
private def firstLost : List Datagram :=
  [.begin_, arriving 0 [7, 8, 9] 1, arriving 0 [7, 8, 9] 2, arriving 0 [7, 8, 9] 3,
    arriving 0 [7, 8, 9] 4, arriving 0 [7, 8, 9] 5, arriving 1 [5] 1]

theorem losses_tolerated_threeOctets : ∃ outs,
    hgapReceive RepetitionCode.code ((firstLost.map .datagram) ++
      .datagram (.zeroed (hgapWriteHeader hgapHeaderEnd)) :: []) Hgap.success.code =
        some (Hgap.success.code, outs) ∧ outs.flatMap OutChunk.data = [7, 8, 9, 5] := by
  have sound := HgapConfig.sound _ _ threeOctets_accepted
  -- twice as many packets as octets
  have reaches : Counts threeOctets (2 * ·) [7, 8, 9, 5] := by
    unfold Counts
    decide +kernel
  obtain ⟨bound, total⟩ := sendDatagrams_total sound RepetitionCode.writeFills
    RepetitionCode.writesAll RepetitionCode.encodesInRange reaches
  have plain := sent_plain sound RepetitionCode.writeFills (total bound (Nat.le_refl _)) (by decide)
  have stops := netReader_stops firstLost (.zeroed (hgapWriteHeader hgapHeaderEnd)) []
    (by decide) (by decide +kernel)
  refine (losses_tolerated _ threeOctets_accepted RepetitionCode.writeFills
    RepetitionCode.writesAll RepetitionCode.encodesInRange RepetitionCode.decodeRestarts
    RepetitionCode.decodesEncoded RepetitionCode.reconstructs (by decide) reaches ?_ 2 ?_ _ plain
    _ _ _ stops (.of_sublist (by decide +kernel)) ⟨.begin_, by simp [firstLost], rfl⟩
    ⟨.zeroed (hgapWriteHeader hgapHeaderEnd), by simp, by decide⟩ ?_).2
  · intro i filled
    rcases fourOctets_filled filled with rfl | rfl
    · decide +kernel
    · decide +kernel
  · intro i filled
    rcases fourOctets_filled filled with rfl | rfl
    · exact RepetitionCode.overhead _ _ _ _ (by decide +kernel)
    · exact RepetitionCode.overhead _ _ _ _ (by decide +kernel)
  · intro i filled
    rcases fourOctets_filled filled with rfl | rfl
    · decide +kernel
    · decide +kernel

end ThreeOctets

end Hairgap.Guarantees
