import Hairgap.Base.Delivery
import Hairgap.Guarantees.EmissionOrder

/-!
# Transfers over a lossy channel

Whatever a channel drops, repeats and reorders, a chunk comes out of the decoder as it went
into the sender. A channel that keeps the order lets each number out once.
-/
namespace Hairgap.Guarantees
open Hairgap.Base Hairgap.Source

/-- The chunk a number stands for. -/
def chunkNumbered (config : HgapConfig) (input : Bytes) (num : UInt64) : Bytes :=
  chunkAt config input num.toNat

section Sent
variable {S : Type} {wh : Wirehair S} {config : HgapConfig} {input : Bytes}

/-- Number of a data packet, read from its octets. -/
def bytesNum (b : Bytes) : Option UInt64 :=
  if hgapPktType (.zeroed b) = .data then some (Datagram.zeroed b).pkt.hdr.chunkNum else none

theorem dataNums_eq (ds : List Datagram) :
    dataNums ds = (ds.map Datagram.bytes).filterMap bytesNum := by
  rw [dataNums, List.filterMap_map]
  refine List.filterMap_congr fun d _ => ?_
  have type := pktType_bytes d (.zeroed d.bytes) rfl
  simp only [Function.comp, bytesNum, ← type]
  split
  next data =>
    have whole := ((pktType_data_iff d).mp data).1
    have header : d.pkt.hdr = (Datagram.zeroed d.bytes).pkt.hdr :=
      readHeader_bytes d (.zeroed d.bytes) rfl whole
    rw [header]
  next => rfl

theorem type_begin (d : Datagram) (octets : d.bytes = hgapWriteHeader hgapHeaderBegin) :
    hgapPktType d = .begin_ := by
  rw [pktType_write d hgapHeaderBegin [] (by rw [octets, List.append_nil])]
  rfl

theorem type_end (d : Datagram) (octets : d.bytes = hgapWriteHeader hgapHeaderEnd) :
    hgapPktType d = .end_ := by
  rw [pktType_write d hgapHeaderEnd [] (by rw [octets, List.append_nil])]
  rfl

theorem type_keepalive (d : Datagram) (octets : d.bytes = hgapWriteHeader hgapHeaderKeepalive) :
    hgapPktType d = .keepalive := by
  rw [pktType_write d hgapHeaderKeepalive [] (by rw [octets, List.append_nil])]
  rfl

/-- A packet keeps the number of its chunk as long as it is a data packet. -/
theorem PacketOf.num {num n : UInt64} {content b : Bytes}
    (packet : PacketOf wh config num content b) (read : bytesNum b = some n) : n = num := by
  obtain ⟨ident, payload, rfl⟩ := packet.octets
  have header : (Datagram.zeroed (chunkPacket num content ident payload)).pkt.hdr = _ :=
    readHeader_write _ _ payload rfl
  unfold bytesNum at read
  rw [header] at read
  split at read
  · exact (Option.some.inj read).symm
  · cases read

/-- The datagrams on the wire that are not from the keepalive thread. -/
def withoutKeepalives (wire : List Bytes) : List Bytes :=
  wire.filter fun b => decide (b ≠ hgapWriteHeader hgapHeaderKeepalive)

/-- A datagram of the transfer, or one of the keepalive thread. -/
def Relayed (sent : List Bytes) (d : Datagram) : Prop :=
  d.bytes ∈ sent ∨ d.bytes = hgapWriteHeader hgapHeaderKeepalive

instance (sent : List Bytes) (d : Datagram) : Decidable (Relayed sent d) := by
  unfold Relayed
  infer_instance

/-- What is on the wire is of the transfer, or a keepalive. -/
theorem relayed_of_wire {wire sent : List Bytes}
    (plain : withoutKeepalives wire = withoutKeepalives sent) {d : Datagram}
    (member : d.bytes ∈ wire) : Relayed sent d := by
  by_cases keepalive : d.bytes = hgapWriteHeader hgapHeaderKeepalive
  · exact .inr keepalive
  · have kept : d.bytes ∈ withoutKeepalives wire :=
      List.mem_filter.mpr ⟨member, decide_eq_true keepalive⟩
    rw [plain] at kept
    exact .inl (List.mem_filter.mp kept).1

/-- What ascends along the packets of a transfer does so along what arrives. -/
theorem kept_along {α : Type} [LE α] (refl : ∀ a : α, a ≤ a) {f : Bytes → Option α}
    (silent : f (hgapWriteHeader hgapHeaderKeepalive) = none) {wire received : List Bytes}
    (kept : OrderKept wire received)
    (along : (withoutKeepalives wire).Pairwise fun b c => ∀ p ∈ f b, ∀ q ∈ f c, p ≤ q) :
    received.Pairwise fun b c => ∀ p ∈ f b, ∀ q ∈ f c, p ≤ q := by
  refine kept.pairwise (fun b p hp q hq => ?_) ?_
  · rw [Option.mem_unique hp hq]
    exact refl q
  · refine (List.pairwise_filter.mp along).imp fun imp p hp q hq => ?_
    have loud {b : Bytes} {r : α} (spoken : r ∈ f b) : b ≠ hgapWriteHeader hgapHeaderKeepalive := by
      rintro rfl
      rw [silent] at spoken
      cases spoken
    exact imp (decide_eq_true (loud hp)) (decide_eq_true (loud hq)) p hp q hq

/-- Data packets that were sent in order arrive so when the channel keeps the order, whatever
the keepalive thread puts between them. -/
theorem ordered_of_kept {wire : List Bytes}
    (sorted : (withoutKeepalives wire).Pairwise
      fun b c => ∀ n ∈ bytesNum b, ∀ m ∈ bytesNum c, n ≤ m)
    {ds : List Datagram} (kept : OrderKept wire (ds.map Datagram.bytes)) : Ordered ds := by
  have silent : bytesNum (hgapWriteHeader hgapHeaderKeepalive) = none := by
    rw [bytesNum, type_keepalive _ rfl]
    rfl
  rw [Ordered, dataNums_eq, List.pairwise_filterMap]
  exact kept_along UInt64.le_refl silent kept sorted

/-- A datagram of the transfer is a control packet or one of a chunk. -/
inductive SentCase (wh : Wirehair S) (config : HgapConfig) (input : Bytes) (b : Bytes) : Prop
  | begin_ (octets : b = hgapWriteHeader hgapHeaderBegin)
  | end_ (octets : b = hgapWriteHeader hgapHeaderEnd)
  | chunk (i : Nat) (within : i ≤ input.length / config.bufSize)
      (packet : PacketOf wh config (UInt64.ofNat i) (chunkAt config input i) b)

section
variable (sound : config.Sound)
include sound

/-- The chunks are numbered without a wrap. -/
theorem num_toNat (bound : input.length < 2 ^ 64 * config.bufSize) {i : Nat}
    (within : i ≤ input.length / config.bufSize) : (UInt64.ofNat i).toNat = i := by
  have chunks := (Nat.div_lt_iff_lt_mul sound.bufSize_pos).mpr bound
  exact UInt64.toNat_ofNat_of_lt' (Nat.lt_of_le_of_lt within chunks)

/-- A datagram of the transfer belongs to the chunk its number stands for. -/
theorem SentCase.ofTransfer (bound : input.length < 2 ^ 64 * config.bufSize) {d : Datagram}
    (sent : SentCase wh config input d.bytes) :
    OfTransfer wh config (chunkNumbered config input) d := by
  intro data
  cases sent with
  | begin_ octets =>
    rw [type_begin d octets] at data
    cases data
  | end_ octets =>
    rw [type_end d octets] at data
    cases data
  | chunk i within packet =>
    obtain ⟨num, carries⟩ := PacketOf.carries sound (chunkAt_length_le config input i) d packet
    rw [num, chunkNumbered, num_toNat sound bound within]
    exact carries

variable (fills : wh.WriteFills) {fuel : Nat} {sent : List Bytes}
  (done : hgapSendDatagrams wh config fuel input = some sent)
include fills done

theorem sentCase {b : Bytes} (member : b ∈ sent) : SentCase wh config input b := by
  obtain ⟨groups, rfl, count, packets⟩ :=
    sendDatagrams_groups sound fills fuel input sent done
  rw [List.mem_append, List.mem_append] at member
  rcases member with (first | middle) | last
  · exact .begin_ (List.eq_of_mem_replicate first)
  · obtain ⟨group, hgroup, inside⟩ := List.mem_flatten.mp middle
    obtain ⟨i, h, rfl⟩ := List.mem_iff_getElem.mp hgroup
    exact .chunk i (by omega) (packets i h b inside)
  · exact .end_ (List.eq_of_mem_replicate last)

/-- So does every datagram that was sent; a keepalive belongs to none. -/
theorem Relayed.ofTransfer (bound : input.length < 2 ^ 64 * config.bufSize) {d : Datagram}
    (relayed : Relayed sent d) : OfTransfer wh config (chunkNumbered config input) d := by
  rcases relayed with member | keepalive
  · exact (sentCase sound fills done member).ofTransfer sound bound
  · intro data
    rw [type_keepalive d keepalive] at data
    cases data

/-- The sender numbers its data packets in order. -/
theorem sent_ordered (bound : input.length < 2 ^ 64 * config.bufSize) :
    sent.Pairwise fun b c => ∀ n ∈ bytesNum b, ∀ m ∈ bytesNum c, n ≤ m := by
  obtain ⟨groups, rfl, count, packets⟩ :=
    sendDatagrams_groups sound fills fuel input sent done
  have begin_ : bytesNum (hgapWriteHeader hgapHeaderBegin) = none := by
    rw [bytesNum, type_begin _ rfl]
    rfl
  have end_ : bytesNum (hgapWriteHeader hgapHeaderEnd) = none := by
    rw [bytesNum, type_end _ rfl]
    rfl
  have num {i : Nat} (h : i < groups.length) {b : Bytes} (member : b ∈ groups[i]) {n : UInt64}
      (read : n ∈ bytesNum b) : n.toNat = i := by
    rw [PacketOf.num (packets i h b member) read]
    exact num_toNat sound bound (by omega)
  have middle : groups.flatten.Pairwise fun b c => ∀ n ∈ bytesNum b, ∀ m ∈ bytesNum c, n ≤ m := by
    refine List.pairwise_flatten.mpr ⟨?_, List.pairwise_iff_getElem.mpr ?_⟩
    · intro group hgroup
      obtain ⟨i, h, rfl⟩ := List.mem_iff_getElem.mp hgroup
      refine List.pairwise_of_forall_mem_list fun b hb c hc n hn m hm => ?_
      rw [UInt64.le_iff_toNat_le, num h hb hn, num h hc hm]
    · intro i j hi hj less b hb c hc n hn m hm
      rw [UInt64.le_iff_toNat_le, num hi hb hn, num hj hc hm]
      exact Nat.le_of_lt less
  have salve (b : Bytes) (none : bytesNum b = none) : (List.replicate hgapSalveLen b).Pairwise
      fun b c => ∀ n ∈ bytesNum b, ∀ m ∈ bytesNum c, n ≤ m := by
    refine List.pairwise_of_forall_mem_list fun c hc _ _ n hn => ?_
    rw [List.eq_of_mem_replicate hc, none] at hn
    cases hn
  refine List.pairwise_append.mpr ⟨List.pairwise_append.mpr ⟨salve _ begin_, middle, ?_⟩,
    salve _ end_, ?_⟩
  · intro b hb c hc n hn
    rw [List.eq_of_mem_replicate hb, begin_] at hn
    cases hn
  · intro b hb c hc n hn m hm
    rw [List.eq_of_mem_replicate hc, end_] at hm
    cases hm

end

end Sent

section Received
variable {S : Type} (wh : Wirehair S) (config : HgapConfig) (input : Bytes)

/-- The chunk is one of the input, and not the empty one that may close it. -/
def IsChunk (out : OutChunk) : Prop :=
  out.num.toNat * config.bufSize < input.length ∧ out.data = chunkNumbered config input out.num

theorem chunkAt_pos {config : HgapConfig} {input : Bytes} {i : Nat}
    (nonempty : 0 < (chunkAt config input i).length) : i * config.bufSize < input.length := by
  simp only [chunkAt, Blocks.block, List.length_take, List.length_drop] at nonempty
  omega

variable {wh config input}

/-- A turn of the loop hands out a chunk of the input, or nothing. -/
theorem Genuine.turn (restarts : wh.DecodeRestarts) (reconstructs : wh.Reconstructs)
    {dec dec' : HgapDecoder S} {label : Datagram × Option OutChunk}
    (genuine : Genuine wh config (chunkNumbered config input) dec)
    (ofTransfer : OfTransfer wh config (chunkNumbered config input) label.1)
    (turn : ReadEmit wh dec label dec') :
    Genuine wh config (chunkNumbered config input) dec' ∧
      ∀ out ∈ label.2, IsChunk config input out := by
  obtain ⟨t, ht, hout, rfl⟩ := turn
  have read := genuine.read restarts reconstructs label.1 ofTransfer
  cases turnCase wh dec label.1 t ht with
  | quiet =>
    have none : label.2 = none := hout.symm
    exact ⟨read, by simp [none]⟩
  | emits _ e returns =>
    refine ⟨read.emit _ e returns, ?_⟩
    generalize hgapDecoderRead wh dec label.1 = r at read returns hout
    intro out member
    by_cases success : e.ret = .success
    · obtain ⟨nonempty, content⟩ := read.out _ e returns success
      have some : label.2 = some ⟨r.dec.chunk.num, e.out⟩ := by
        rw [← hout]
        simp [success]
      rw [some] at member
      obtain rfl := Option.mem_some_iff.mp member
      exact ⟨chunkAt_pos nonempty, content⟩
    · have none : label.2 = none := by
        rw [← hout]
        simp [success]
      rw [none] at member
      cases member

theorem genuine_turns (restarts : wh.DecodeRestarts) (reconstructs : wh.Reconstructs)
    {labels : List (Datagram × Option OutChunk)} {dec : HgapDecoder S}
    (run : Steps (ReadEmit wh) hgapDecoderNew labels dec)
    (ofTransfer : ∀ label ∈ labels,
      OfTransfer wh config (chunkNumbered config input) label.1) :
    ∀ out ∈ outChunks labels, IsChunk config input out := by
  have both := run.invariant (fun labels dec =>
    (∀ label ∈ labels, OfTransfer wh config (chunkNumbered config input) label.1) →
      Genuine wh config (chunkNumbered config input) dec ∧
        ∀ out ∈ outChunks labels, IsChunk config input out) ?_ ?_ ofTransfer
  · exact both.2
  · exact fun _ => ⟨⟨coherent_new, .inl ⟨rfl, rfl, rfl⟩⟩, by simp⟩
  · intro labels dec label dec' ih turn all
    obtain ⟨genuine, before⟩ := ih fun l h => all l (List.mem_append_left _ h)
    obtain ⟨after, last⟩ := genuine.turn restarts reconstructs (all label (by simp)) turn
    refine ⟨after, fun out member => ?_⟩
    rw [outChunks_append, List.mem_append] at member
    rcases member with earlier | now
    · exact before out earlier
    · refine last out ?_
      cases h : label.2 with
      | none => simp [outChunks, h] at now
      | some handed => simpa [outChunks, h, eq_comm] using now

/-- All that `decloop` hands out of such datagrams are chunks of the input. -/
theorem decloop_chunks (restarts : wh.DecodeRestarts)
    (reconstructs : wh.Reconstructs) {ds : List Datagram} {retval : Int} {outs : List OutChunk}
    (result : decloop wh hgapDecoderNew ds = some (retval, outs))
    (ofTransfer : ∀ d ∈ ds, OfTransfer wh config (chunkNumbered config input) d) :
    ∀ out ∈ outs, IsChunk config input out := by
  obtain ⟨labels, dec, rest, run, rfl, rfl⟩ := decloop_turns wh result
  refine genuine_turns restarts reconstructs (run.mono fun _ _ _ turn => turn.readEmit)
    fun label member => ofTransfer _ ?_
  exact List.mem_append_left _ (List.mem_map_of_mem member)

/-- What a receiver can rely on, whatever reaches it of what was on the wire. -/
structure ContentKept (wh : Wirehair S) (config : HgapConfig) (input : Bytes)
    (wire : List Bytes) : Prop where
  /-- Any calls: what an emit that succeeds writes is the chunk whose number the decoder holds. -/
  emit : ∀ ops dec, Steps (DecStep wh) hgapDecoderNew ops dec →
    (∀ d ∈ reads ops, d.bytes ∈ wire) → ∀ len e, hgapDecoderEmit wh dec len = some e →
      e.ret = .success → IsChunk config input ⟨dec.chunk.num, e.out⟩
  /-- The documented loop, also when it goes on after an error. -/
  loop : ∀ labels dec, Steps (ReadEmit wh) hgapDecoderNew labels dec →
    (∀ label ∈ labels, label.1.bytes ∈ wire) → ∀ out ∈ outChunks labels, IsChunk config input out
  /-- The same loop behind a channel that keeps the order. -/
  order : ∀ labels dec, Steps (ReadEmit wh) hgapDecoderNew labels dec →
    OrderKept wire (labels.map fun label => label.1.bytes) → (nums labels).Pairwise (· < ·)

/-- Every chunk comes out as it went in, and over a channel that keeps the order no chunk
comes out twice, as long as the sender does not run out of numbers. The keepalive thread may put
its packets anywhere between those of the transfer. -/
theorem content_kept (host : Host) (accepted : hgapCheckConfigSender host config = .success)
    (fills : wh.WriteFills) (restarts : wh.DecodeRestarts) (reconstructs : wh.Reconstructs)
    (bound : input.length < 2 ^ 64 * config.bufSize) (fuel : Nat) (sent : List Bytes)
    (done : hgapSendDatagrams wh config fuel input = some sent) (wire : List Bytes)
    (plain : withoutKeepalives wire = withoutKeepalives sent) :
    ContentKept wh config input wire := by
  have sound := config.sound host accepted
  have ofTransfer {d : Datagram} (member : d.bytes ∈ wire) :
      OfTransfer wh config (chunkNumbered config input) d :=
    (relayed_of_wire plain member).ofTransfer sound fills done bound
  refine ⟨?_, ?_, ?_⟩
  · intro ops dec run received len e returns success
    have genuine := genuine_run restarts reconstructs run fun d h => ofTransfer (received d h)
    obtain ⟨nonempty, content⟩ := genuine.out len e returns success
    exact ⟨chunkAt_pos nonempty, content⟩
  · intro labels dec run received
    exact genuine_turns restarts reconstructs run fun label h => ofTransfer (received label h)
  · intro labels dec run kept
    have ordered : Ordered (labels.map Prod.fst) := by
      refine ordered_of_kept ?_ ((List.map_map (f := Prod.fst)).symm ▸ kept)
      rw [plain]
      exact (sent_ordered sound fills done bound).filter _
    refine ascending_run wh (run.guard ?_)
    intro before label after t split earlier
    refine (seen_run wh earlier).advances label.1 ?_
    have split' : labels.map Prod.fst =
        (before.map Prod.fst ++ [label.1]) ++ after.map Prod.fst := by simp [split]
    rw [split'] at ordered
    exact ordered.shorter

end Received

/-- A transfer of two chunks, with a keepalive in front of each packet. -/
theorem content_kept_twoChunks :
    ∃ sent wire, hgapSendDatagrams RepetitionCode.code .smallest 2 [7, 8] = some sent ∧
      wire = sent.flatMap (fun b => [hgapWriteHeader hgapHeaderKeepalive, b]) ∧
      ContentKept RepetitionCode.code .smallest [7, 8] wire := by
  have done : hgapSendDatagrams RepetitionCode.code .smallest 2 [7, 8] =
      some ((hgapSendDatagrams RepetitionCode.code .smallest 2 [7, 8]).getD []) := by
    decide +kernel
  have plain (sent : List Bytes) : withoutKeepalives
      (sent.flatMap fun b => [hgapWriteHeader hgapHeaderKeepalive, b]) = withoutKeepalives sent := by
    induction sent with
    | nil => rfl
    | cons b sent ih =>
      have silent (rest : List Bytes) :
          withoutKeepalives (hgapWriteHeader hgapHeaderKeepalive :: rest) = withoutKeepalives rest :=
        List.filter_cons_of_neg (by simp)
      rw [List.flatMap_cons, List.cons_append, silent, List.singleton_append]
      simp only [withoutKeepalives, List.filter_cons] at ih ⊢
      rw [ih]
  exact ⟨_, _, done, rfl, content_kept ⟨fun _ => 0, fun _ => false⟩ (by decide)
    RepetitionCode.writeFills RepetitionCode.decodeRestarts RepetitionCode.reconstructs (by decide)
    2 _ done _ (plain _)⟩

section Zeros

/-- A chunk of one octet makes one packet. -/
theorem smallest_chunkPackets (num : UInt64) (octet : UInt8) :
    chunkPackets RepetitionCode.code .smallest 1 num [octet] = [(octetPacket num octet).bytes] :=
  rfl

/-- An empty one does so too. -/
theorem smallest_counts (input : Bytes) : Counts .smallest (fun _ => 1) input := by
  intro content member
  have fits : content.length ≤ 1 := by
    rw [inputChunks_eq] at member
    obtain ⟨i, -, rfl⟩ := List.mem_map.mp member
    exact chunkAt_length_le .smallest input i
  unfold Reaches
  generalize content.length = len at fits ⊢
  obtain rfl | rfl := Nat.le_one_iff_eq_zero_or_eq_one.mp fits
  · decide +kernel
  · decide +kernel

theorem smallest_chunkAt (n i : Nat) (within : i < n) :
    chunkAt .smallest (List.replicate n 0) i = [0] := by
  have size : HgapConfig.smallest.bufSize = 1 := rfl
  have count : min 1 (n - i * 1) = 1 := by omega
  rw [chunkAt, Blocks.block, size, List.drop_replicate, List.take_replicate, count]
  rfl

/-- The sender goes on numbering from zero behind the last number. -/
theorem wrapped_sublist (last : Nat) (more : 1 < last) (wraps : UInt64.ofNat last = 0) :
    ([.begin_, octetPacket 0 0, octetPacket 1 0, octetPacket 0 0].map Datagram.bytes).Sublist
      (fullTransfer RepetitionCode.code .smallest (fun _ => 1) (List.replicate (last + 1) 0)) := by
  have picked : [0, 1, last].Sublist (List.range
      ((List.replicate (last + 1) (0 : UInt8)).length / HgapConfig.smallest.bufSize + 1)) := by
    have size : HgapConfig.smallest.bufSize = 1 := rfl
    obtain ⟨k, rfl⟩ : ∃ k, last = 2 + k := ⟨last - 2, by omega⟩
    rw [List.length_replicate, size, Nat.div_one, Nat.add_assoc 2 k 1, Nat.add_assoc 2 (k + 1) 1,
      List.range_add]
    refine (List.Sublist.refl [0, 1]).append (List.singleton_sublist.mpr ?_)
    exact List.mem_map.mpr ⟨k, List.mem_range.mpr (by omega), rfl⟩
  have sublist := sublist_fullTransfer RepetitionCode.code .smallest (fun _ => 1) _ _ picked
  simp only [List.map_cons, List.map_nil, smallest_chunkAt (last + 1) 0 (by omega),
    smallest_chunkAt (last + 1) 1 (by omega), smallest_chunkAt (last + 1) last (by omega),
    smallest_chunkPackets, wraps] at sublist
  exact sublist

/-- The number of chunk 2^64 is that of chunk 0, which comes out twice. -/
theorem wrappedNumber_repeats :
    ∃ fuel sent,
      hgapSendDatagrams RepetitionCode.code .smallest fuel (List.replicate (2 ^ 64 + 1) 0) =
        some sent ∧
      OrderKept sent
        ([.begin_, octetPacket 0 0, octetPacket 1 0, octetPacket 0 0].map Datagram.bytes) ∧
      ∃ outs, decloop RepetitionCode.code hgapDecoderNew
          [.begin_, octetPacket 0 0, octetPacket 1 0, octetPacket 0 0] =
            some (Hgap.success.code, outs) ∧
        outs = [⟨0, [0]⟩, ⟨1, [0]⟩, ⟨0, [0]⟩] ∧ ¬ (outs.map OutChunk.num).Pairwise (· < ·) := by
  have sound := HgapConfig.sound ⟨fun _ => 0, fun _ => false⟩ .smallest (by decide)
  obtain ⟨fuel, total⟩ := sendDatagrams_total sound RepetitionCode.writeFills
    RepetitionCode.writesAll RepetitionCode.encodesInRange
    (smallest_counts (List.replicate (2 ^ 64 + 1) 0))
  refine ⟨fuel, _, total fuel (Nat.le_refl _), .of_sublist ?_, _, ?_, rfl, by decide⟩
  · exact wrapped_sublist (2 ^ 64) (by decide) (by decide)
  · decide +kernel

end Zeros

end Hairgap.Guarantees
