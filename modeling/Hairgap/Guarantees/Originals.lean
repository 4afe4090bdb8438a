import Hairgap.Guarantees.PacketCount
import Hairgap.Guarantees.Verdict

/-!
# The original blocks are enough

Behind the systematic code a chunk comes back from the packets of its own blocks, and these are
always sent. What a channel that loses nothing delivers is the input.
-/
namespace Hairgap.Guarantees
open Hairgap.Base Hairgap.Source

section Blocks
variable {S : Type} {wh : Wirehair S} {config : HgapConfig}

theorem redund_ge_one (sound : config.Sound) {redund : Rat} (finite : config.redund = .fin redund) :
    1 ≤ redund := by
  have notBelow := sound.redund_ge
  rw [finite, Double.lt] at notBelow
  exact not_lt.mp (of_decide_eq_false notBelow)

theorem blockCount_pos (sound : config.Sound) {len : Nat} (filled : 0 < len) :
    0 < blockCount len config.payload := by
  rw [lt_blockCount_iff sound.payload_pos, Nat.zero_mul]
  exact filled

/-- All blocks of a chunk arrived in packets of it. -/
theorem suffices_originals (sound : config.Sound) (decodes : wh.DecodesEncoded)
    (systematic : wh.Systematic) {content : Bytes} (nonempty : content ≠ []) {ps : List HgapPkt}
    (carries : ∀ pkt ∈ ps, Carries wh config content pkt)
    (originals : ∀ k < blockCount content.length config.payload,
      ∃ pkt ∈ ps, pkt.hdr.dataId = UInt32.ofNat k) : Suffices wh config content ps := by
  have some_ := blockCount_pos sound (List.length_pos_iff.mpr nonempty)
  obtain ⟨first, member, -⟩ := originals 0 some_
  unfold Suffices
  split
  next fits => exact List.ne_nil_of_mem member
  next long =>
    have long := Nat.lt_of_not_le long
    obtain ⟨enc, encoded, -⟩ := (carries first member).coded long
    obtain ⟨state, decoded⟩ := Option.isSome_iff_exists.mp (decodes _ _ enc encoded)
    refine ⟨state, decoded, systematic _ _ enc state _ encoded decoded ?_ ?_⟩
    · intro r inside
      obtain ⟨pkt, hpkt, rfl⟩ := List.mem_map.mp inside
      obtain ⟨enc', encoded', written⟩ := (carries pkt hpkt).coded long
      obtain rfl := Option.some.inj (encoded'.symm.trans encoded)
      exact written
    · intro k within
      obtain ⟨pkt, hpkt, ident⟩ := originals k within
      exact List.mem_map.mpr ⟨_, List.mem_map_of_mem hpkt, ident⟩

/-- The packets with an unreserved number are those of the chunk it stands for. -/
theorem packetsOf_carries {chunkOf : UInt64 → Bytes} {ds : List Datagram}
    (sent : ∀ d ∈ ds, Sent wh config chunkOf d) {num : UInt64} (low : num < hgapFirstReserved) :
    ∀ pkt ∈ packetsOf num ds, Carries wh config (chunkOf num) pkt := by
  intro pkt member
  obtain ⟨inside, same⟩ := List.mem_filter.mp member
  obtain ⟨d, hd, rfl⟩ := List.mem_map.mp inside
  have same := of_decide_eq_true same
  subst same
  by_cases data : hgapPktType d = .data
  · exact (sent d hd).carries data
  · exact absurd rfl (control_num (sent d hd).whole data low)

end Blocks

section Restores
variable {S : Type} {wh : Wirehair S} {config : HgapConfig} {input : Bytes} {sent : List Bytes}

/-- A packet with each block of each chunk with something in it is among these. -/
def Originals (config : HgapConfig) (input : Bytes) (ds : List Datagram) : Prop :=
  ∀ i, i * config.bufSize < input.length →
    ∀ k < blockCount (chunkAt config input i).length config.payload,
      ∃ d ∈ ds, d.pkt.hdr.chunkNum = UInt64.ofNat i ∧ d.pkt.hdr.dataId = UInt32.ofNat k

section
variable (sound : config.Sound) (fills : wh.WriteFills) {fuel : Nat}
  (done : hgapSendDatagrams wh config fuel input = some sent)
  (limit : input.length ≤ hgapFirstReserved.toNat * config.bufSize)
include sound fills done limit

/-- They are enough for every chunk. -/
theorem originals_suffice (decodes : wh.DecodesEncoded) (systematic : wh.Systematic)
    {ds : List Datagram} (arrived : Arrived sent ds) (originals : Originals config input ds) (i : Nat)
    (filled : i * config.bufSize < input.length) :
    Suffices wh config (chunkAt config input i) (packetsOf (UInt64.ofNat i) ds) := by
  obtain ⟨low, small⟩ := low_toNat limit filled
  have bound := limit_bound sound limit
  have unreserved : UInt64.ofNat i < hgapFirstReserved := by rwa [UInt64.lt_iff_toNat_lt, small]
  have carries := packetsOf_carries (fun d h => relayed_sent sound fills done bound
    (arrived.relayed d h)) unreserved
  rw [chunkNumbered, small] at carries
  refine suffices_originals sound decodes systematic ((chunkAt_nonempty sound i).mpr filled) carries
    fun k within => ?_
  obtain ⟨d, member, num, ident⟩ := originals i filled k within
  exact ⟨d.pkt, List.mem_filter.mpr ⟨List.mem_map_of_mem member, decide_eq_true num⟩, ident⟩

/-- Where enough packets of each chunk arrive, none is left incomplete. -/
theorem Arrived.unbroken {ds : List Datagram} (arrived : Arrived sent ds)
    (enough : ∀ i, i * config.bufSize < input.length →
      Suffices wh config (chunkAt config input i) (packetsOf (UInt64.ofNat i) ds)) :
    ¬ Broken wh config (chunkNumbered config input) ds := by
  have all := (recovered_iff_suffices sound limit fun d h =>
    (arrived.relayed d h).whole sound fills done).mpr enough
  have none := restored_noGap sound limit all (arrived.within sound fills done limit)
  rintro ⟨num, seen, missing, later⟩
  exact List.find?_eq_none.mp none num seen (decide_eq_true ⟨missing, later⟩)

/-- With a BEGIN and an END packet `hgap_receive` succeeds with the input. -/
theorem Arrived.restores (restarts : wh.DecodeRestarts) (decodes : wh.DecodesEncoded)
    (reconstructs : wh.Reconstructs) {recvs : List Recv} {reader : Int} {passed : List Datagram}
    (arrived : Arrived sent passed) (stops : hgaprNetReader recvs = some (reader, passed))
    (begun : ∃ d ∈ passed, hgapPktType d = .begin_) (ended : ∃ d ∈ passed, hgapPktType d = .end_)
    (enough : ∀ i, i * config.bufSize < input.length →
      Suffices wh config (chunkAt config input i) (packetsOf (UInt64.ofNat i) passed)) :
    ∃ outs, hgapReceive wh recvs Hgap.success.code = some (Hgap.success.code, outs) ∧
      outs.flatMap OutChunk.data = input := by
  obtain ⟨verdict, outs, received, success, restored⟩ := arrived.received sound fills done limit
    restarts decodes reconstructs stops Hgap.success.code
  obtain rfl := success.mpr ⟨rfl, ended, .inr (arrived.unbroken sound fills done limit enough)⟩
  exact ⟨outs, received, restored.mpr (.inr ⟨begun, enough⟩)⟩

end

/-- A BEGIN packet, an END packet and the packets with the original blocks are enough: whatever
else a channel that keeps the order loses or repeats, `hgap_receive` succeeds with the input. -/
theorem originals_restore (host : Host) (accepted : hgapCheckConfigSender host config = .success)
    (fills : wh.WriteFills) (restarts : wh.DecodeRestarts) (decodes : wh.DecodesEncoded)
    (reconstructs : wh.Reconstructs) (systematic : wh.Systematic)
    (limit : input.length ≤ hgapFirstReserved.toNat * config.bufSize) (fuel : Nat)
    (done : hgapSendDatagrams wh config fuel input = some sent) (wire : List Bytes)
    (plain : withoutKeepalives wire = sent) (recvs : List Recv) (reader : Int)
    (passed : List Datagram) (stops : hgaprNetReader recvs = some (reader, passed))
    (kept : OrderKept wire (passed.map Datagram.bytes))
    (begun : ∃ d ∈ passed, hgapPktType d = .begin_) (ended : ∃ d ∈ passed, hgapPktType d = .end_)
    (originals : Originals config input passed) :
    ∃ outs, hgapReceive wh recvs Hgap.success.code = some (Hgap.success.code, outs) ∧
      outs.flatMap OutChunk.data = input := by
  have sound := config.sound host accepted
  have arrived := arrived_of_kept sound fills done limit plain kept
  exact arrived.restores sound fills done limit restarts decodes reconstructs stops begun ended
    (originals_suffice sound fills done limit decodes systematic arrived originals)

/-- Behind an END packet come no announcement and no data. -/
theorem Arrived.after_end {before after : List Datagram} {e : Datagram}
    (arrived : Arrived sent (before ++ e :: after)) (ends : hgapPktType e = .end_) :
    ∀ d ∈ after, hgapPktType d ≠ .begin_ ∧ hgapPktType d ≠ .data := by
  intro d late
  have phased := (List.pairwise_cons.mp (List.pairwise_append.mp arrived.phased).2.1).1 d late 2
    (by rw [ends]; rfl)
  constructor
  · intro type
    exact absurd (phased 0 (by rw [type]; rfl)) (by decide)
  · intro type
    exact absurd (phased 1 (by rw [type]; rfl)) (by decide)

theorem Arrived.before_end {before after : List Datagram} {e d : Datagram}
    (arrived : Arrived sent (before ++ e :: after)) (ends : hgapPktType e = .end_)
    (member : d ∈ before ++ e :: after)
    (type : hgapPktType d = .begin_ ∨ hgapPktType d = .data) : d ∈ before ++ [e] := by
  have split : before ++ e :: after = (before ++ [e]) ++ after := by simp
  rw [split] at member
  refine (List.mem_append.mp member).resolve_right fun late => ?_
  obtain ⟨notBegin, notData⟩ := arrived.after_end ends d late
  exact type.elim notBegin notData

/-- Number and id of packet `k` of a chunk. -/
theorem packetAt_hdr {num : UInt64} {content : Bytes} {d : Datagram} {k : Nat}
    (octets : d.bytes = packetAt wh config num content k) :
    d.pkt.hdr.chunkNum = num ∧ d.pkt.hdr.dataId = UInt32.ofNat k := by
  have header : d.pkt.hdr = _ := readHeader_write d _ _ octets
  rw [header]
  exact ⟨rfl, rfl⟩

theorem packetAt_type {num : UInt64} {content : Bytes} {d : Datagram} {k : Nat}
    (octets : d.bytes = packetAt wh config num content k) (low : num < hgapFirstReserved) :
    hgapPktType d = .data := by
  have number : (readHeader d.ptr).chunkNum = num := (packetAt_hdr octets).1
  refine (pktType_data_iff d).mpr ⟨?_, number ▸ low⟩
  rw [octets, packetAt, chunkPacket, List.length_append, writeHeader_length]
  exact Nat.le_add_right _ _

/-- The packet with a block of a chunk is one of a whole transfer. -/
theorem original_sent (sound : config.Sound) {redund : Rat} (finite : config.redund = .fin redund)
    {counts : Nat → Nat} (reaches : Counts config counts input) {i k : Nat}
    (within : i ≤ input.length / config.bufSize)
    (block : k < blockCount (chunkAt config input i).length config.payload) :
    packetAt wh config (UInt64.ofNat i) (chunkAt config input i) k ∈
      fullTransfer wh config counts input := by
  have count := blockCount_le_of_reaches sound (redund_ge_one sound finite)
    (chunkAt_length_le config input i) (finite ▸ reaches _ (chunkAt_mem within))
  have packet : packetAt wh config (UInt64.ofNat i) (chunkAt config input i) k ∈
      chunkPackets wh config (counts (chunkAt config input i).length) (UInt64.ofNat i)
        (chunkAt config input i) :=
    List.mem_map_of_mem (List.mem_range.mpr (Nat.lt_of_lt_of_le block count))
  have group : chunkPackets wh config (counts (chunkAt config input i).length) (UInt64.ofNat i)
      (chunkAt config input i) ∈ (List.range (input.length / config.bufSize + 1)).map fun i =>
        chunkPackets wh config (counts (chunkAt config input i).length) (UInt64.ofNat i)
          (chunkAt config input i) :=
    List.mem_map.mpr ⟨i, List.mem_range.mpr (Nat.lt_succ_of_le within), rfl⟩
  exact List.mem_append_left _ (List.mem_append_right _ (List.mem_flatten.mpr ⟨_, group, packet⟩))

/-- With a code that answers the sender gets through every input at every redundancy the count of
octets has room for, and from a channel that loses nothing `hgap_receive` writes that input. -/
theorem fullDelivery_restores (host : Host)
    (accepted : hgapCheckConfigSender host config = .success) (fills : wh.WriteFills)
    (writes : wh.WritesAll) (encodes : wh.EncodesInRange) (restarts : wh.DecodeRestarts)
    (decodes : wh.DecodesEncoded) (reconstructs : wh.Reconstructs) (systematic : wh.Systematic)
    (limit : input.length ≤ hgapFirstReserved.toNat * config.bufSize) (redund : Rat)
    (finite : config.redund = .fin redund) (room : redund * config.bufSize ≤ 2 ^ 62) :
    ∃ sent, (∃ bound, ∀ fuel, bound ≤ fuel →
      hgapSendDatagrams wh config fuel input = some sent) ∧
    ∀ ds : List Datagram, withoutKeepalives (ds.map Datagram.bytes) = sent → ∃ outs,
      hgapReceive wh (ds.map .datagram) Hgap.success.code = some (Hgap.success.code, outs) ∧
        outs.flatMap OutChunk.data = input := by
  have sound := config.sound host accepted
  obtain ⟨counts, reaches⟩ :=
    counts_exist sound finite (redund_ge_one sound finite) room input
  obtain ⟨bound, total⟩ := sendDatagrams_total sound fills writes encodes reaches
  refine ⟨_, ⟨bound, total⟩, fun ds plain => ?_⟩
  have done := total bound (Nat.le_refl _)
  have delivered {b : Bytes} (member : b ∈ fullTransfer wh config counts input) :
      ∃ d ∈ ds, d.bytes = b := by
    rw [← plain] at member
    exact List.mem_map.mp (List.mem_of_mem_filter member)
  have arrived := arrived_of_kept sound fills done limit plain (.of_sublist (List.Sublist.refl _))
  obtain ⟨last, hlast, octets⟩ := delivered (end_sent wh config counts input)
  obtain ⟨before, e, after, rfl, ends, running⟩ := first_of_type ⟨last, hlast, type_end last octets⟩
  have stops := netReader_stops before e (after.map .datagram) ends (by simpa using running)
  rw [← List.map_cons (f := Recv.datagram), ← List.map_append] at stops
  have kept : OrderKept ((before ++ e :: after).map Datagram.bytes)
      ((before ++ [e]).map Datagram.bytes) := by
    refine .of_sublist (List.Sublist.map _ ?_)
    exact List.sublist_append_left (before ++ [e]) after |>.trans (by simp)
  have passes := arrived_of_kept sound fills done limit plain kept
  refine passes.restores sound fills done limit restarts decodes reconstructs stops ?_
    ⟨e, by simp, ends⟩ (originals_suffice sound fills done limit decodes systematic passes
      fun i filled k block => ?_)
  · obtain ⟨first, hfirst, octets⟩ := delivered (begin_sent wh config counts input)
    have begins := type_begin first octets
    exact ⟨first, arrived.before_end ends hfirst (.inl begins), begins⟩
  · have within : i ≤ input.length / config.bufSize :=
      (Nat.le_div_iff_mul_le sound.bufSize_pos).mpr (Nat.le_of_lt filled)
    obtain ⟨d, member, octets⟩ := delivered (original_sent sound finite reaches within block)
    obtain ⟨low, small⟩ := low_toNat limit filled
    have data := packetAt_type octets (UInt64.lt_iff_toNat_lt.mpr (by rwa [small]))
    exact ⟨d, arrived.before_end ends member (.inr data), packetAt_hdr octets⟩

end Restores

section Examples

/-- What is left of a transfer of four octets without its repair packets. -/
private def withoutRepair : List Datagram :=
  [.begin_, arriving 0 [7, 8, 9] 0, arriving 0 [7, 8, 9] 1, arriving 0 [7, 8, 9] 2, arriving 1 [5] 0]

theorem originals_restore_threeOctets : ∃ outs,
    hgapReceive RepetitionCode.code ((withoutRepair.map .datagram) ++
      .datagram (.zeroed (hgapWriteHeader hgapHeaderEnd)) :: []) Hgap.success.code =
        some (Hgap.success.code, outs) ∧ outs.flatMap OutChunk.data = [7, 8, 9, 5] := by
  have sound := HgapConfig.sound _ _ threeOctets_accepted
  have plain := sent_plain sound RepetitionCode.writeFills fourOctets_sent (by decide)
  have stops := netReader_stops withoutRepair (.zeroed (hgapWriteHeader hgapHeaderEnd)) []
    (by decide) (by decide +kernel)
  refine originals_restore _ threeOctets_accepted RepetitionCode.writeFills
    RepetitionCode.decodeRestarts RepetitionCode.decodesEncoded RepetitionCode.reconstructs
    RepetitionCode.systematic (by decide) 6 fourOctets_sent _ plain _ _ _ stops
    (.of_sublist (by decide +kernel)) ⟨.begin_, by simp [withoutRepair], rfl⟩
    ⟨.zeroed (hgapWriteHeader hgapHeaderEnd), by simp, by decide⟩ fun i filled => ?_
  rcases fourOctets_filled filled with rfl | rfl
  · decide +kernel
  · decide +kernel

/-- Two octets in chunks of their own. -/
theorem fullDelivery_restores_twoOctets : ∃ (ds : List Datagram) (outs : List OutChunk),
    hgapReceive RepetitionCode.code (ds.map .datagram) Hgap.success.code =
      some (Hgap.success.code, outs) ∧ outs.flatMap OutChunk.data = [7, 8] := by
  have accepted : hgapCheckConfigSender ⟨fun _ => 0, fun _ => false⟩ .smallest = .success := by
    decide
  obtain ⟨sent, ⟨bound, total⟩, delivers⟩ := @fullDelivery_restores _ RepetitionCode.code .smallest
    [7, 8] _ accepted RepetitionCode.writeFills RepetitionCode.writesAll
    RepetitionCode.encodesInRange RepetitionCode.decodeRestarts RepetitionCode.decodesEncoded
    RepetitionCode.reconstructs RepetitionCode.systematic (by decide) 1 rfl (by decide +kernel)
  have plain := sent_plain (HgapConfig.sound _ _ accepted) RepetitionCode.writeFills
    (total bound (Nat.le_refl _)) (by decide)
  refine ⟨sent.map .zeroed, delivers _ ?_⟩
  rw [List.map_map]
  have octets : Datagram.bytes ∘ Datagram.zeroed = id := rfl
  rw [octets, List.map_id, plain]

end Examples

end Hairgap.Guarantees
