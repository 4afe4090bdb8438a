import Hairgap.Guarantees.RoundTrip

/-!
# What the verdict of a reception is worth

Behind a channel that loses and repeats packets but keeps their order, `hgap_receive` succeeds when
an END packet came in and no chunk was left incomplete before a packet of a later one. Whether the
input was written is decided by the packets of each chunk, and the two are not the same.
-/
namespace Hairgap.Guarantees
open Hairgap.Base Hairgap.Source

/-- A transfer is announced, then come the chunks, then its end. -/
def phase : HgapPktT → Option Nat
  | .begin_ => some 0
  | .data => some 1
  | .end_ => some 2
  | .unknown | .keepalive => none

def bytesPhase (b : Bytes) : Option Nat := phase (hgapPktType (.zeroed b))

/-- What a channel that keeps the order delivers of a transfer. -/
structure Arrived (sent : List Bytes) (ds : List Datagram) : Prop where
  relayed : ∀ d ∈ ds, Relayed sent d
  ordered : Ordered ds
  phased : ds.Pairwise fun d e =>
    ∀ p ∈ phase (hgapPktType d), ∀ q ∈ phase (hgapPktType e), p ≤ q

section Delivery

variable {S : Type} {wh : Wirehair S} {config : HgapConfig} {input : Bytes}
  (sound : config.Sound) (fills : wh.WriteFills) {fuel : Nat} {sent : List Bytes}
  (done : hgapSendDatagrams wh config fuel input = some sent)
  (limit : input.length ≤ hgapFirstReserved.toNat * config.bufSize)
include sound limit

/-- A packet of a chunk is no control packet. -/
theorem packet_type {i : Nat} (within : i ≤ input.length / config.bufSize) {content b : Bytes}
    (packet : PacketOf wh config (UInt64.ofNat i) content b) :
    hgapPktType (.zeroed b) = .data ∨ hgapPktType (.zeroed b) = .unknown := by
  obtain ⟨ident, payload, rfl⟩ := packet.octets
  have small := num_toNat sound (limit_bound sound limit) within
  have low : UInt64.ofNat i ≤ hgapFirstReserved := by
    rw [UInt64.le_iff_toNat_le, small]
    exact Nat.le_trans within (Nat.div_le_of_le_mul (Nat.mul_comm _ _ ▸ limit))
  have other {num : UInt64} (above : hgapFirstReserved < num) : UInt64.ofNat i ≠ num :=
    fun same => absurd low (UInt64.not_le.mpr (same ▸ above))
  have notBegin : UInt64.ofNat i ≠ hgapBeginBeacon := other (by decide)
  have notEnd : UInt64.ofNat i ≠ hgapNoMoreChunk := other (by decide)
  have notKeepalive : UInt64.ofNat i ≠ hgapKeepAlive := other (by decide)
  rw [pktType_write _ _ payload rfl]
  dsimp only
  rw [if_neg notBegin, if_neg notEnd, if_neg notKeepalive]
  split
  · exact .inr rfl
  · exact .inl rfl

include fills done

theorem sent_phased :
    sent.Pairwise fun b c => ∀ p ∈ bytesPhase b, ∀ q ∈ bytesPhase c, p ≤ q := by
  obtain ⟨groups, rfl, count, packets⟩ := sendDatagrams_groups sound fills fuel input sent done
  have begins {b : Bytes} (member : b ∈ List.replicate hgapSalveLen (hgapWriteHeader hgapHeaderBegin)) :
      ∀ p ∈ bytesPhase b, p = 0 := by
    rw [List.eq_of_mem_replicate member, bytesPhase, type_begin _ rfl]
    exact fun p h => (Option.mem_some_iff.mp h).symm
  have ends {b : Bytes} (member : b ∈ List.replicate hgapSalveLen (hgapWriteHeader hgapHeaderEnd)) :
      ∀ p ∈ bytesPhase b, p = 2 := by
    rw [List.eq_of_mem_replicate member, bytesPhase, type_end _ rfl]
    exact fun p h => (Option.mem_some_iff.mp h).symm
  have middle {b : Bytes} (member : b ∈ groups.flatten) : ∀ p ∈ bytesPhase b, p = 1 := by
    obtain ⟨group, hgroup, inside⟩ := List.mem_flatten.mp member
    obtain ⟨i, h, rfl⟩ := List.mem_iff_getElem.mp hgroup
    rcases packet_type sound limit (by omega) (packets i h b inside) with type | type
    · rw [bytesPhase, type]
      exact fun p h => (Option.mem_some_iff.mp h).symm
    · rw [bytesPhase, type]
      exact nofun
  have along {xs ys : List Bytes} {m n : Nat} (le : m ≤ n)
      (left : ∀ {b : Bytes}, b ∈ xs → ∀ p ∈ bytesPhase b, p = m)
      (right : ∀ {b : Bytes}, b ∈ ys → ∀ p ∈ bytesPhase b, p = n) :
      ∀ b ∈ xs, ∀ c ∈ ys, ∀ p ∈ bytesPhase b, ∀ q ∈ bytesPhase c, p ≤ q := by
    intro b hb c hc p hp q hq
    rw [left hb p hp, right hc q hq]
    exact le
  refine List.pairwise_append.mpr ⟨List.pairwise_append.mpr ⟨?_, ?_, ?_⟩, ?_, ?_⟩
  · exact List.pairwise_of_forall_mem_list (along (Nat.le_refl 0) begins begins)
  · exact List.pairwise_of_forall_mem_list (along (Nat.le_refl 1) middle middle)
  · exact along (Nat.zero_le 1) begins middle
  · exact List.pairwise_of_forall_mem_list (along (Nat.le_refl 2) ends ends)
  · intro b hb c hc p hp q hq
    rw [ends hc q hq]
    rcases List.mem_append.mp hb with first | second
    · rw [begins first p hp]
      exact Nat.zero_le 2
    · rw [middle second p hp]
      exact Nat.le_succ 1

/-- The datagrams of a transfer are none of the keepalive thread. -/
theorem sent_plain : withoutKeepalives sent = sent := by
  refine List.filter_eq_self.mpr fun b member => decide_eq_true fun octets => ?_
  have type := type_keepalive (.zeroed b) octets
  cases sentCase sound fills done member with
  | begin_ first =>
    rw [type_begin (.zeroed b) first] at type
    cases type
  | end_ last =>
    rw [type_end (.zeroed b) last] at type
    cases type
  | chunk i within packet =>
    rcases packet_type sound limit within packet with h | h
    · rw [h] at type
      cases type
    · rw [h] at type
      cases type

/-- A channel that keeps the order delivers a transfer in order, whatever it loses. -/
theorem arrived_of_kept {wire : List Bytes} (plain : withoutKeepalives wire = sent)
    {ds : List Datagram} (kept : OrderKept wire (ds.map Datagram.bytes)) : Arrived sent ds := by
  have bound := limit_bound sound limit
  refine ⟨fun d member => ?_, ?_, ?_⟩
  · have plain' := plain.trans (sent_plain sound fills done limit).symm
    exact relayed_of_wire plain' (kept.subset (List.mem_map_of_mem member))
  · exact ordered_of_kept (plain ▸ sent_ordered sound fills done bound) kept
  · have silent : bytesPhase (hgapWriteHeader hgapHeaderKeepalive) = none := by
      rw [bytesPhase, type_keepalive _ rfl]
      rfl
    have sorted := kept_along Nat.le_refl silent kept (plain ▸ sent_phased sound fills done limit)
    refine (List.pairwise_map.mp sorted).imp fun {d e} imp => ?_
    rwa [bytesPhase, bytesPhase, ← pktType_bytes d (.zeroed d.bytes) rfl,
      ← pktType_bytes e (.zeroed e.bytes) rfl] at imp

end Delivery

section Frame

theorem first_of_type {type : HgapPktT} {ds : List Datagram} (there : ∃ d ∈ ds, hgapPktType d = type) :
    ∃ before d after, ds = before ++ d :: after ∧ hgapPktType d = type ∧
      ∀ e ∈ before, hgapPktType e ≠ type := by
  induction ds with
  | nil =>
    obtain ⟨d, member, -⟩ := there
    cases member
  | cons d ds ih =>
    by_cases here : hgapPktType d = type
    · exact ⟨[], d, ds, rfl, here, nofun⟩
    · obtain ⟨e, member, same⟩ := there
      have later : e ∈ ds := by
        refine (List.mem_cons.mp member).resolve_left ?_
        rintro rfl
        exact here same
      obtain ⟨before, e, after, rfl, same, none⟩ := ih ⟨e, later, same⟩
      refine ⟨d :: before, e, after, rfl, same, fun f h => ?_⟩
      rcases List.mem_cons.mp h with rfl | h
      · exact here
      · exact none f h

/-- The network reader passes on END packets only at the end, and none unless it succeeds. -/
theorem netReader_closes {recvs : List Recv} {reader : Int} {passed : List Datagram}
    (stops : hgaprNetReader recvs = some (reader, passed)) :
    (reader = Hgap.success.code ↔ ∃ d ∈ passed, hgapPktType d = .end_) ∧
      ∃ before closing, passed = before ++ closing ∧ (∀ d ∈ before, hgapPktType d ≠ .end_) ∧
        ∀ d ∈ closing, hgapPktType d = .end_ := by
  induction recvs generalizing passed with
  | nil => cases stops
  | cons recv rest ih =>
    cases recv with
    | timedOut | failed =>
      cases stops
      exact ⟨iff_of_false (by decide) (by simp), [], [], rfl, nofun, nofun⟩
    | datagram d =>
      by_cases last : hgapPktType d = .end_
      · simp only [hgaprNetReader, if_pos last, Option.some.injEq, Prod.mk.injEq] at stops
        obtain ⟨rfl, rfl⟩ := stops
        exact ⟨iff_of_true rfl ⟨d, List.mem_cons_self, last⟩, [], [d], rfl, nofun, by simpa using last⟩
      · simp only [hgaprNetReader, if_neg last] at stops
        obtain ⟨⟨verdict, later⟩, more, same⟩ := Option.map_eq_some_iff.mp stops
        cases same
        obtain ⟨success, before, closing, rfl, none, ends⟩ := ih more
        refine ⟨success.trans ?_, d :: before, closing, rfl, ?_, ends⟩
        · simp [last]
        · intro e h
          rcases List.mem_cons.mp h with rfl | h
          · exact last
          · exact none e h

theorem dataNums_none {ds : List Datagram} (quiet : ∀ d ∈ ds, hgapPktType d ≠ .data) :
    dataNums ds = [] := by
  refine List.eq_nil_iff_forall_not_mem.mpr fun num member => ?_
  obtain ⟨d, inside, data, -⟩ := mem_dataNums.mp member
  exact quiet d inside data

variable {S : Type} {wh : Wirehair S} {config : HgapConfig} {chunkOf : UInt64 → Bytes}
  {front body back : List Datagram} (quietFront : ∀ d ∈ front, hgapPktType d ≠ .data)
  (quietBack : ∀ d ∈ back, hgapPktType d ≠ .data)
include quietFront quietBack

theorem dataNums_frame : dataNums (front ++ (body ++ back)) = dataNums body := by
  rw [dataNums_append, dataNums_append, dataNums_none quietFront, dataNums_none quietBack,
    List.nil_append, List.append_nil]

variable (whole : ∀ d ∈ front ++ (body ++ back), hgapHeaderLen ≤ d.bytes.length)
include whole

theorem packetsOf_frame {num : UInt64} (low : num < hgapFirstReserved) :
    packetsOf num (front ++ (body ++ back)) = packetsOf num body := by
  have unseen {ds : List Datagram} (inside : ∀ d ∈ ds, d ∈ front ++ (body ++ back))
      (quiet : ∀ d ∈ ds, hgapPktType d ≠ .data) : packetsOf num ds = [] := by
    refine packetsOf_unseen (fun d h => whole d (inside d h)) low ?_
    rw [dataNums_none quiet]
    exact List.not_mem_nil
  rw [packetsOf_append, packetsOf_append, unseen (by simp +contextual) quietFront,
    unseen (by simp +contextual) quietBack, List.nil_append, List.append_nil]

/-- Control packets around the data change nothing about what can be rebuilt. -/
theorem recovered_frame {num : UInt64} :
    Recovered wh config chunkOf num (front ++ (body ++ back)) ↔
      Recovered wh config chunkOf num body := by
  rw [Recovered, Recovered, dataNums_frame quietFront quietBack]
  refine and_congr_right fun member => ?_
  rw [packetsOf_frame quietFront quietBack whole (dataNums_low member)]

theorem broken_frame :
    Broken wh config chunkOf (front ++ (body ++ back)) ↔ Broken wh config chunkOf body := by
  simp only [Broken, dataNums_frame quietFront quietBack,
    recovered_frame quietFront quietBack whole]

end Frame

section Verdict
variable {S : Type} {wh : Wirehair S} {config : HgapConfig} {input : Bytes}

/-- The loop stops on an error exactly behind a chunk that was left incomplete. -/
theorem outcome_success_iff {chunkOf : UInt64 → Bytes} {ds : List Datagram} :
    (outcome wh config chunkOf ds).1.retval = Hgap.success.code ↔ ¬ Broken wh config chunkOf ds := by
  have broken : Broken wh config chunkOf ds ↔ (firstGap wh config chunkOf ds).isSome := by
    rw [firstGap, List.find?_isSome]
    simp only [Broken, decide_eq_true_eq]
  rw [broken, outcome]
  cases firstGap wh config chunkOf ds with
  | none => exact iff_of_true rfl (by simp)
  | some num => exact iff_of_false (by simp [LoopEnd.retval, Hgap.code]) (by simp)

variable {sent : List Bytes} {ds : List Datagram}

/-- Where an announced transfer begins, and that no data comes before. -/
theorem Arrived.announced {closing : List Datagram} (arrived : Arrived sent (ds ++ closing))
    (begun : ∃ d ∈ ds, hgapPktType d = .begin_) :
    ∃ early b body, ds = early ++ b :: body ∧ hgapPktType b = .begin_ ∧
      (∀ d ∈ early, hgapPktType d ≠ .begin_) ∧ ∀ d ∈ early ++ [b], hgapPktType d ≠ .data := by
  obtain ⟨early, b, body, rfl, begins, unannounced⟩ := first_of_type begun
  refine ⟨early, b, body, rfl, begins, unannounced, fun d member data => ?_⟩
  rcases List.mem_append.mp member with before | here
  · have phased := arrived.phased
    rw [List.append_assoc] at phased
    have le := (List.pairwise_append.mp phased).2.2 d before b List.mem_cons_self 1
      (by rw [data]; rfl) 0 (by rw [begins]; rfl)
    exact absurd le (by decide)
  · rw [List.mem_singleton.mp here, begins] at data
    cases data

section Arrives
variable (sound : config.Sound) (fills : wh.WriteFills) {fuel : Nat}
  (done : hgapSendDatagrams wh config fuel input = some sent)
  (limit : input.length ≤ hgapFirstReserved.toNat * config.bufSize)
include sound fills done limit

theorem Arrived.within (arrived : Arrived sent ds) :
    ∀ num ∈ dataNums ds, num.toNat ≤ input.length / config.bufSize := by
  intro num member
  obtain ⟨d, inside, data, rfl⟩ := mem_dataNums.mp member
  exact (arrived.relayed d inside).num_le sound fills done (limit_bound sound limit) data

/-- The decoder loop over what arrives of a transfer: what comes out, the return value, and
whether the input came out. -/
theorem decloop_arrived (restarts : wh.DecodeRestarts) (decodes : wh.DecodesEncoded)
    (reconstructs : wh.Reconstructs) {before closing : List Datagram}
    (arrived : Arrived sent (before ++ closing)) (running : ∀ d ∈ before, hgapPktType d ≠ .end_)
    (ends : ∀ d ∈ closing, hgapPktType d = .end_) :
    ∃ retval outs, decloop wh hgapDecoderNew (before ++ closing) = some (retval, outs) ∧
      (∃ nums : List UInt64, nums.Pairwise (· < ·) ∧
        outs = nums.map fun num => ⟨num, chunkNumbered config input num⟩) ∧
      (retval = Hgap.success.code ↔ (∀ d ∈ before ++ closing, hgapPktType d ≠ .begin_) ∨
        ¬ Broken wh config (chunkNumbered config input) (before ++ closing)) ∧
      (outs.flatMap OutChunk.data = input ↔ input = [] ∨
        (∃ d ∈ before ++ closing, hgapPktType d = .begin_) ∧
          ∀ i, i * config.bufSize < input.length → Suffices wh config (chunkAt config input i)
            (packetsOf (UInt64.ofNat i) (before ++ closing))) := by
  have whole : ∀ d ∈ before ++ closing, hgapHeaderLen ≤ d.bytes.length :=
    fun d h => (arrived.relayed d h).whole sound fills done
  by_cases begun : ∃ d ∈ before, hgapPktType d = .begin_
  · obtain ⟨early, b, body, rfl, begins, unannounced, quietFront⟩ := arrived.announced begun
    have shape : (early ++ b :: body) ++ closing = (early ++ [b]) ++ (body ++ closing) := by simp
    have there : ∃ d ∈ (early ++ b :: body) ++ closing, hgapPktType d = .begin_ :=
      ⟨b, by simp, begins⟩
    have inside : ∀ d ∈ body, d ∈ (early ++ b :: body) ++ closing := by simp +contextual
    have sublist : body.Sublist ((early ++ b :: body) ++ closing) := by
      rw [shape]
      exact (List.sublist_append_left _ _).trans (List.sublist_append_right _ _)
    have ordered : Ordered body := arrived.ordered.sublist (sublist.filterMap _)
    have closed : ∀ e after, closing = e :: after → hgapPktType e = .end_ :=
      fun e after same => ends e (same ▸ List.mem_cons_self)
    have looped := decloop_outcome restarts decodes reconstructs (chunkNumbered_fits sound)
      unannounced begins (fun d h => relayed_sent sound fills done (limit_bound sound limit)
        (arrived.relayed d (inside d h)))
      (fun d h => running d (by simp [h])) ordered closed
    have quietBack : ∀ d ∈ closing, hgapPktType d ≠ .data := by
      intro d h
      rw [ends d h]
      exact nofun
    have within : ∀ num ∈ dataNums body, num.toNat ≤ input.length / config.bufSize :=
      fun num member => arrived.within sound fills done limit num
        ((sublist.filterMap _).subset member)
    rw [shape] at whole
    refine ⟨_, _, by rw [List.append_assoc]; exact looped, ?_, ?_, ?_⟩
    · obtain ⟨nums, sorted, -, chunks⟩ := outcome_chunks ordered
      exact ⟨nums, sorted, chunks⟩
    · rw [outcome_success_iff, shape, broken_frame quietFront quietBack whole]
      refine (or_iff_right fun unbegun => ?_).symm
      exact unbegun b (by simp) begins
    · rw [outcome_restored_iff sound limit ordered within, recovered_iff_suffices sound limit
        fun d h => whole d (by simp [h]), shape]
      have same {i : Nat} (filled : i * config.bufSize < input.length) :
          packetsOf (UInt64.ofNat i) ((early ++ [b]) ++ (body ++ closing)) =
            packetsOf (UInt64.ofNat i) body := by
        refine packetsOf_frame quietFront quietBack whole ?_
        rw [UInt64.lt_iff_toNat_lt, (low_toNat limit filled).2]
        exact (low_toNat limit filled).1
      rw [shape] at there
      constructor
      · exact fun all => .inr ⟨there, fun i filled => same filled ▸ all i filled⟩
      · rintro (rfl | ⟨-, all⟩) i filled
        · exact absurd filled (Nat.not_lt_zero _)
        · exact same filled ▸ all i filled
  · have unbegun : ∀ d ∈ before ++ closing, hgapPktType d ≠ .begin_ := by
      intro d h type
      rcases List.mem_append.mp h with h | h
      · exact begun ⟨d, h, type⟩
      · rw [ends d h] at type
        cases type
    have looped := @readEmitLoop_early S wh (before ++ closing) [] unbegun
    rw [List.append_nil] at looped
    refine ⟨Hgap.success.code, [], ?_, ⟨[], .nil, rfl⟩, iff_of_true rfl (.inl unbegun), ?_⟩
    · rw [decloop_readEmitLoop, looped]
      rfl
    · rw [List.flatMap_nil]
      refine ⟨fun empty => .inl empty.symm, ?_⟩
      rintro (empty | ⟨⟨d, member, begins⟩, -⟩)
      · exact empty.symm
      · exact absurd begins (unbegun d member)

/-- `hgap_receive` on what arrives: its verdict, and whether the input came out. -/
theorem Arrived.received (restarts : wh.DecodeRestarts) (decodes : wh.DecodesEncoded)
    (reconstructs : wh.Reconstructs) {recvs : List Recv} {reader : Int} {passed : List Datagram}
    (arrived : Arrived sent passed) (stops : hgaprNetReader recvs = some (reader, passed))
    (writer : Int) :
    ∃ verdict outs, hgapReceive wh recvs writer = some (verdict, outs) ∧
      (verdict = Hgap.success.code ↔ writer = Hgap.success.code ∧
        (∃ d ∈ passed, hgapPktType d = .end_) ∧
        ((∀ d ∈ passed, hgapPktType d ≠ .begin_) ∨
          ¬ Broken wh config (chunkNumbered config input) passed)) ∧
      (outs.flatMap OutChunk.data = input ↔ input = [] ∨
        (∃ d ∈ passed, hgapPktType d = .begin_) ∧ ∀ i, i * config.bufSize < input.length →
          Suffices wh config (chunkAt config input i) (packetsOf (UInt64.ofNat i) passed)) := by
  obtain ⟨success, before, closing, rfl, running, ends⟩ := netReader_closes stops
  obtain ⟨retval, outs, loop, -, verdict, restored⟩ := decloop_arrived sound fills done limit restarts
    decodes reconstructs arrived running ends
  refine ⟨hgapSelectError writer (hgapSelectError retval reader), outs, ?_, ?_, restored⟩
  · simp only [hgapReceive, stops, Option.bind_some, loop, Option.map_some]
  · rw [selectError_success, selectError_success, verdict, success]
    exact and_congr_right fun _ => and_comm

end Arrives

/-- The verdict of `hgap_receive` on what arrives of a transfer in order, and whether it wrote the
input: it succeeds behind an END packet unless a chunk was left incomplete before a packet of a
later one, and the input is out when enough packets of each chunk with something in it came. -/
theorem receive_verdict (host : Host) (accepted : hgapCheckConfigSender host config = .success)
    (fills : wh.WriteFills) (restarts : wh.DecodeRestarts) (decodes : wh.DecodesEncoded)
    (reconstructs : wh.Reconstructs)
    (limit : input.length ≤ hgapFirstReserved.toNat * config.bufSize) (fuel : Nat)
    (done : hgapSendDatagrams wh config fuel input = some sent) (wire : List Bytes)
    (plain : withoutKeepalives wire = sent) (recvs : List Recv) (reader : Int)
    (passed : List Datagram) (stops : hgaprNetReader recvs = some (reader, passed))
    (kept : OrderKept wire (passed.map Datagram.bytes)) (writer : Int) :
    ∃ verdict outs, hgapReceive wh recvs writer = some (verdict, outs) ∧
      (verdict = Hgap.success.code ↔ writer = Hgap.success.code ∧
        (∃ d ∈ passed, hgapPktType d = .end_) ∧
        ((∀ d ∈ passed, hgapPktType d ≠ .begin_) ∨
          ¬ Broken wh config (chunkNumbered config input) passed)) ∧
      (outs.flatMap OutChunk.data = input ↔ input = [] ∨
        (∃ d ∈ passed, hgapPktType d = .begin_) ∧ ∀ i, i * config.bufSize < input.length →
          Suffices wh config (chunkAt config input i) (packetsOf (UInt64.ofNat i) passed)) := by
  have sound := config.sound host accepted
  have arrived := arrived_of_kept sound fills done limit plain kept
  exact arrived.received sound fills done limit restarts decodes reconstructs stops writer

/-- When a reception that succeeds is a complete one: a chunk of which nothing came, the last one
left incomplete at the END and a transfer that nothing announced go unnoticed. -/
theorem success_complete_iff (host : Host) (accepted : hgapCheckConfigSender host config = .success)
    (fills : wh.WriteFills) (restarts : wh.DecodeRestarts) (decodes : wh.DecodesEncoded)
    (reconstructs : wh.Reconstructs)
    (limit : input.length ≤ hgapFirstReserved.toNat * config.bufSize) (fuel : Nat)
    (done : hgapSendDatagrams wh config fuel input = some sent) (wire : List Bytes)
    (plain : withoutKeepalives wire = sent) (recvs : List Recv) (reader : Int)
    (passed : List Datagram) (stops : hgaprNetReader recvs = some (reader, passed))
    (kept : OrderKept wire (passed.map Datagram.bytes)) (writer : Int) :
    (∀ outs, hgapReceive wh recvs writer = some (Hgap.success.code, outs) →
      outs.flatMap OutChunk.data = input) ↔
    writer ≠ Hgap.success.code ∨ (∀ d ∈ passed, hgapPktType d ≠ .end_) ∨ input = [] ∨
      (∃ d ∈ passed, hgapPktType d = .begin_) ∧
        (Broken wh config (chunkNumbered config input) passed ∨
          ∀ i, i * config.bufSize < input.length →
            Suffices wh config (chunkAt config input i) (packetsOf (UInt64.ofNat i) passed)) := by
  have sound := config.sound host accepted
  have arrived := arrived_of_kept sound fills done limit plain kept
  obtain ⟨verdict, outs, received, success, restored⟩ :=
    arrived.received sound fills done limit restarts decodes reconstructs stops writer
  constructor
  · intro complete
    by_cases succeeds : verdict = Hgap.success.code
    · subst succeeds
      rcases restored.mp (complete outs received) with empty | ⟨begun, all⟩
      · exact .inr (.inr (.inl empty))
      · exact .inr (.inr (.inr ⟨begun, .inr all⟩))
    · by_contra unmet
      simp only [not_or, not_and, not_not] at unmet
      obtain ⟨written, ended, -, unnoticed⟩ := unmet
      refine succeeds (success.mpr ⟨written, by simpa using ended, ?_⟩)
      by_cases begun : ∃ d ∈ passed, hgapPktType d = .begin_
      · exact .inr (unnoticed begun).1
      · exact .inl fun d member begins => begun ⟨d, member, begins⟩
  · intro condition outs' received'
    rw [received] at received'
    cases received'
    obtain ⟨written, ⟨last, member, ends⟩, unnoticed⟩ := success.mp rfl
    rcases condition with failed | unended | empty | ⟨⟨first, hfirst, begins⟩, broken | all⟩
    · exact absurd written failed
    · exact absurd ends (unended last member)
    · exact restored.mpr (.inl empty)
    · rcases unnoticed with unbegun | unbroken
      · exact absurd begins (unbegun first hfirst)
      · exact absurd broken unbroken
    · exact restored.mpr (.inr ⟨⟨first, hfirst, begins⟩, all⟩)

end Verdict

section Unnoticed

private theorem twoOctets_sent : hgapSendDatagrams RepetitionCode.code .smallest 1 [7, 8] =
    some ((hgapSendDatagrams RepetitionCode.code .smallest 1 [7, 8]).getD []) := by decide +kernel

/-- All that arrives when the only packet of the first of two chunks is lost. -/
private def withoutFirst : List Datagram :=
  [.begin_, octetPacket 1 8, .zeroed (hgapWriteHeader hgapHeaderEnd)]

/-- It succeeds, and the first octet is missing. -/
theorem receive_verdict_unnoticed : ∃ outs,
    hgapReceive RepetitionCode.code (withoutFirst.map .datagram) Hgap.success.code =
      some (Hgap.success.code, outs) ∧ outs.flatMap OutChunk.data ≠ [7, 8] := by
  have kept : OrderKept ((hgapSendDatagrams RepetitionCode.code .smallest 1 [7, 8]).getD [])
      (withoutFirst.map Datagram.bytes) := .of_sublist (by decide +kernel)
  have stops : hgaprNetReader (withoutFirst.map .datagram) =
      some (Hgap.success.code, withoutFirst) :=
    netReader_stops [.begin_, octetPacket 1 8] (.zeroed (hgapWriteHeader hgapHeaderEnd)) []
      (by decide) (by decide +kernel)
  have accepted : hgapCheckConfigSender ⟨fun _ => 0, fun _ => false⟩ .smallest = .success := by
    decide
  obtain ⟨verdict, outs, received, success, restored⟩ := receive_verdict _ accepted
    RepetitionCode.writeFills RepetitionCode.decodeRestarts RepetitionCode.decodesEncoded
    RepetitionCode.reconstructs (by decide) 1 twoOctets_sent _ (by decide +kernel)
    (withoutFirst.map .datagram) Hgap.success.code withoutFirst stops kept Hgap.success.code
  have unbroken : ¬ Broken RepetitionCode.code .smallest (chunkNumbered .smallest [7, 8])
      withoutFirst := by
    rintro ⟨num, seen, -, later, behind, less⟩
    have only : dataNums withoutFirst = [1] := by decide +kernel
    rw [only, List.mem_singleton] at seen behind
    rw [seen, behind] at less
    exact absurd less (by decide)
  obtain rfl := success.mpr ⟨rfl, by decide +kernel, .inr unbroken⟩
  refine ⟨outs, received, fun whole => ?_⟩
  rcases restored.mp whole with empty | ⟨-, all⟩
  · cases empty
  · exact absurd (all 0 (by decide)) (by decide +kernel)

/-- Part of the transfer arrives, the receiver succeeds, and the input is not what came out. -/
theorem lostChunk_succeeds : ∃ sent outs,
    hgapCheckConfigSender ⟨fun _ => 0, fun _ => false⟩ .smallest = .success ∧
      hgapSendDatagrams RepetitionCode.code .smallest 1 [7, 8] = some sent ∧
      (withoutFirst.map Datagram.bytes).Sublist sent ∧
      hgapReceive RepetitionCode.code (withoutFirst.map .datagram) Hgap.success.code =
        some (Hgap.success.code, outs) ∧ outs.flatMap OutChunk.data ≠ [7, 8] :=
  ⟨_, [⟨1, [8]⟩], by decide, twoOctets_sent, by decide +kernel, by decide +kernel, by decide⟩

/-- What is left of four octets when each chunk has lost half of its packets. -/
private def halfLost : List Datagram :=
  [.begin_, arriving 0 [7, 8, 9] 0, arriving 0 [7, 8, 9] 4, arriving 0 [7, 8, 9] 5, arriving 1 [5] 1]

/-- It succeeds, and all octets are there. -/
theorem success_complete_iff_halfLost : ∃ recvs,
    recvs = (halfLost.map .datagram) ++ .datagram (.zeroed (hgapWriteHeader hgapHeaderEnd)) :: [] ∧
      (hgapReceive RepetitionCode.code recvs Hgap.success.code).map Prod.fst =
        some Hgap.success.code ∧
      ∀ outs, hgapReceive RepetitionCode.code recvs Hgap.success.code =
        some (Hgap.success.code, outs) → outs.flatMap OutChunk.data = [7, 8, 9, 5] := by
  have sound := HgapConfig.sound _ _ threeOctets_accepted
  have plain := sent_plain sound RepetitionCode.writeFills fourOctets_sent (by decide)
  have stops := netReader_stops halfLost (.zeroed (hgapWriteHeader hgapHeaderEnd)) []
    (by decide) (by decide +kernel)
  refine ⟨_, rfl, by decide +kernel, (success_complete_iff _ threeOctets_accepted
    RepetitionCode.writeFills RepetitionCode.decodeRestarts RepetitionCode.decodesEncoded
    RepetitionCode.reconstructs (by decide) 6 fourOctets_sent _ plain _ _ _ stops
    (.of_sublist (by decide +kernel)) _).mpr ?_⟩
  refine .inr (.inr (.inr ⟨⟨.begin_, by simp [halfLost], by decide⟩, .inr fun i filled => ?_⟩))
  rcases fourOctets_filled filled with rfl | rfl
  · decide +kernel
  · decide +kernel

end Unnoticed

end Hairgap.Guarantees
