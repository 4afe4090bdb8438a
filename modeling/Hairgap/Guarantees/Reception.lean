import Hairgap.Base.Regroup
import Hairgap.Guarantees.ContentIntegrity
import Hairgap.Guarantees.Handshake

/-!
# Receptions with losses

Behind a BEGIN packet the decoder is a receiver that puts packets together, one stretch of packets
with the same number after the other. A chunk that too few packets arrived of is noticed when a
packet of another number follows, and only then.
-/
namespace Hairgap.Guarantees
open Hairgap.Base Hairgap.Source

section Packets
variable {S : Type} (wh : Wirehair S) (config : HgapConfig)

/-- Id and block of each packet, as the decoder passes them to the code. -/
def blocks (ps : List HgapPkt) : List (UInt32 × Bytes) :=
  ps.map fun pkt => (pkt.hdr.dataId, load pkt.data 0 config.payload)

/-- Packets a chunk can be rebuilt from: any one if it fits a payload, else as many as the code
asks for. -/
def Suffices (content : Bytes) (ps : List HgapPkt) : Prop :=
  if content.length ≤ config.payload then ps ≠ []
  else ∃ first ∈ wh.decode none content.length config.payload,
    wh.completes first (blocks config ps) = true

instance (content : Bytes) (ps : List HgapPkt) : Decidable (Suffices wh config content ps) := by
  unfold Suffices
  infer_instance

/-- The packets with a number. -/
def packetsOf (num : UInt64) (ds : List Datagram) : List HgapPkt :=
  (ds.map Datagram.pkt).filter fun pkt => decide (pkt.hdr.chunkNum = num)

theorem packetsOf_append (num : UInt64) (xs ys : List Datagram) :
    packetsOf num (xs ++ ys) = packetsOf num xs ++ packetsOf num ys := by
  rw [packetsOf, List.map_append, List.filter_append, packetsOf, packetsOf]

theorem packetsOf_other {num : UInt64} {d : Datagram} (other : d.pkt.hdr.chunkNum ≠ num) :
    packetsOf num [d] = [] := by
  simp [packetsOf, other]

theorem dataNums_other {d : Datagram} (control : hgapPktType d ≠ .data) : dataNums [d] = [] := by
  simp [dataNums, control]

theorem mem_dataNums {num : UInt64} {ds : List Datagram} :
    num ∈ dataNums ds ↔ ∃ d ∈ ds, hgapPktType d = .data ∧ d.pkt.hdr.chunkNum = num := by
  simp [dataNums]

/-- A data packet has an unreserved number. -/
theorem dataNums_low {num : UInt64} {ds : List Datagram} (member : num ∈ dataNums ds) :
    num < hgapFirstReserved := by
  obtain ⟨d, -, data, rfl⟩ := mem_dataNums.mp member
  exact ((pktType_data_iff d).mp data).2

/-- A packet that is whole has an unreserved number only if it is a data packet. -/
theorem control_num {d : Datagram} (whole : hgapHeaderLen ≤ d.bytes.length)
    (control : hgapPktType d ≠ .data) {num : UInt64} (low : num < hgapFirstReserved) :
    d.pkt.hdr.chunkNum ≠ num := by
  rintro rfl
  exact control ((pktType_data_iff d).mpr ⟨whole, low⟩)

theorem packetsOf_unseen {num : UInt64} {ds : List Datagram}
    (whole : ∀ d ∈ ds, hgapHeaderLen ≤ d.bytes.length) (low : num < hgapFirstReserved)
    (unseen : num ∉ dataNums ds) : packetsOf num ds = [] := by
  apply List.filter_eq_nil_iff.mpr
  intro pkt member same
  obtain ⟨d, inside, rfl⟩ := List.mem_map.mp member
  have same := of_decide_eq_true same
  by_cases data : hgapPktType d = .data
  · exact unseen (mem_dataNums.mpr ⟨d, inside, data, same⟩)
  · exact control_num (whole d inside) data low same

variable {wh config} {content : Bytes} {ps : List HgapPkt}

theorem suffices_nil : ¬ Suffices wh config content [] := by
  unfold Suffices
  split
  · exact fun nonempty => nonempty rfl
  · rintro ⟨first, -, completes⟩
    cases completes

/-- Packets that suffice still do with more behind them. -/
theorem Suffices.append (enough : Suffices wh config content ps) (qs : List HgapPkt) :
    Suffices wh config content (ps ++ qs) := by
  unfold Suffices at enough ⊢
  split
  next fits =>
    rw [if_pos fits] at enough
    exact List.append_ne_nil_of_left_ne_nil enough qs
  next long =>
    rw [if_neg long] at enough
    obtain ⟨first, decoded, completes⟩ := enough
    refine ⟨first, decoded, ?_⟩
    rw [blocks, List.map_append, wh.completes_append]
    exact Bool.or_eq_true_iff.mpr (.inl completes)

end Packets

section Chunks
variable {S : Type} (wh : Wirehair S) (config : HgapConfig) (chunkOf : UInt64 → Bytes)

/-- Enough packets of a chunk, and not of the empty one. -/
def Recoverable (num : UInt64) (ps : List HgapPkt) : Prop :=
  chunkOf num ≠ [] ∧ Suffices wh config (chunkOf num) ps

instance (num : UInt64) (ps : List HgapPkt) : Decidable (Recoverable wh config chunkOf num ps) := by
  unfold Recoverable
  infer_instance

/-- A decoder whose chunk has taken in packets that are not enough. -/
structure Gathering (ps : List HgapPkt) (w : HgapDecoder S) : Prop where
  short : ¬ Recoverable wh config chunkOf w.chunk.num ps
  codec : config.payload < (chunkOf w.chunk.num).length →
    ∃ first, wh.decode none (chunkOf w.chunk.num).length config.payload = some first ∧
      w.chunk.whState = some (wh.feed first (blocks config ps))

variable {wh config chunkOf}

/-- The loop goes on behind a chunk it hands over. -/
theorem Ready.loopTurn {dec : HgapDecoder S} {d : Datagram}
    (ready : Ready wh (hgapDecoderRead wh dec d)) :
    ∃ e, hgapDecoderEmit wh (hgapDecoderRead wh dec d).dec (hgapDecoderRead wh dec d).ret.toNat =
        some e ∧ e.ret = .success ∧
      e.dec = { (hgapDecoderRead wh dec d).dec with chunkEmitted := true } ∧
      LoopTurn wh dec (d, some ⟨(hgapDecoderRead wh dec d).dec.chunk.num, e.out⟩) e.dec := by
  obtain ⟨e, returns, success, -, after⟩ := ready.emit
  have positive := ready.positive
  have turn : readEmit wh dec d = some ⟨(hgapDecoderRead wh dec d).ret, some e.ret,
      some ⟨(hgapDecoderRead wh dec d).dec.chunk.num, e.out⟩, e.dec⟩ := by
    rw [readEmit, if_pos positive, returns, Option.map_some, if_pos success]
  refine ⟨e, returns, success, after, _, turn, ?_, rfl, rfl⟩
  have notZero : (hgapDecoderRead wh dec d).ret ≠ 0 := by omega
  have notEot : (hgapDecoderRead wh dec d).ret ≠ -Hgap.eot.code := by
    simp only [Hgap.code]
    omega
  have notNeg : ¬ (hgapDecoderRead wh dec d).ret < 0 := by omega
  simp only [Turn.leaves, if_neg notZero, if_neg notEot, if_neg notNeg, success]

/-- A read that gives nothing keeps the loop going. -/
theorem quiet_turn {dec : HgapDecoder S} {d : Datagram} (nothing : (hgapDecoderRead wh dec d).ret = 0) :
    LoopTurn wh dec (d, none) (hgapDecoderRead wh dec d).dec := by
  refine ⟨⟨(hgapDecoderRead wh dec d).ret, none, none, (hgapDecoderRead wh dec d).dec⟩, ?_, ?_, rfl,
    rfl⟩
  · rw [readEmit, nothing]
    rfl
  · rw [Turn.leaves, if_pos nothing]

/-- The packet that makes enough of them completes the chunk. -/
theorem Gathering.incorporate (reconstructs : wh.Reconstructs) {w : HgapDecoder S}
    {ps : List HgapPkt} (gathering : Gathering wh config chunkOf ps w)
    (intact : Intact wh config chunkOf w) (prepared : Prepared w) (pkt : HgapPkt)
    (carries : Carries wh config (chunkOf w.chunk.num) pkt) :
    (Recoverable wh config chunkOf w.chunk.num (ps ++ [pkt]) ∧
      Ready wh (hgapDecoderIncorporate wh w pkt)) ∨
    ((hgapDecoderIncorporate wh w pkt).ret = 0 ∧
      (hgapDecoderIncorporate wh w pkt).dec.chunkComplete = false ∧
      Gathering wh config chunkOf (ps ++ [pkt]) (hgapDecoderIncorporate wh w pkt).dec) := by
  have snoc : blocks config (ps ++ [pkt]) = blocks config ps ++
      [(pkt.hdr.dataId, load pkt.data 0 config.payload)] := by simp [blocks]
  have after := intact.incorporate reconstructs prepared pkt carries
  have num := (incorporate_frame wh w pkt prepared.incomplete).2
  have absorb := absorbCase wh w pkt prepared.incomplete
  generalize hgapDecoderIncorporate wh w pkt = r at absorb after num
  have len := intact.len
  have isSmall := intact.isSmall
  have empty (nothing : w.chunk.len = 0) : chunkOf w.chunk.num = [] :=
    List.eq_nil_of_length_eq_zero (len.symm.trans nothing)
  have hollow (nothing : w.chunk.len = 0) (u : HgapDecoder S) (same : u.chunk.num = w.chunk.num) :
      Gathering wh config chunkOf (ps ++ [pkt]) u := by
    refine ⟨?_, ?_⟩
    · rw [same]
      exact fun recoverable => recoverable.1 (empty nothing)
    · rw [same, empty nothing]
      exact fun long => absurd long (Nat.not_lt_zero _)
  cases absorb with
  | held data present =>
    obtain ⟨-, -, nothing⟩ := prepared.present data present
    exact .inr ⟨by simp [nothing], by simp [nothing], hollow nothing _ num⟩
  | small absent small =>
    by_cases pos : 0 < w.chunk.len
    · have fits : (chunkOf w.chunk.num).length ≤ config.payload := by
        rw [isSmall] at small
        exact of_decide_eq_true small
      have nonempty : chunkOf w.chunk.num ≠ [] := by
        intro nothing
        rw [len, nothing] at pos
        exact absurd pos (Nat.lt_irrefl _)
      refine .inl ⟨⟨nonempty, ?_⟩, Int.natCast_pos.mpr pos, rfl, prepared.len, decide_eq_true pos,
        prepared.unemitted, _, load_length _ _ _, .inl ⟨small, rfl⟩⟩
      rw [Suffices, if_pos fits]
      exact List.append_ne_nil_of_right_ne_nil ps (List.cons_ne_nil _ _)
    · have nothing : w.chunk.len = 0 := Nat.eq_zero_of_not_pos pos
      exact .inr ⟨by simp [nothing], by simp [nothing], hollow nothing _ num⟩
  | lost absent isBig noState =>
    rw [isSmall] at isBig
    obtain ⟨first, -, hasState⟩ := gathering.codec (Nat.lt_of_not_le (of_decide_eq_false isBig))
    rw [noState] at hasState
    cases hasState
  | fed absent isBig state hasState next ready answer =>
    have long : config.payload < (chunkOf w.chunk.num).length := by
      rw [isSmall] at isBig
      exact Nat.lt_of_not_le (of_decide_eq_false isBig)
    have block : hgapEncChunkPktPayloadSize w.chunk = config.payload := by
      rw [intact.payloadSize]
      omega
    have nonempty : chunkOf w.chunk.num ≠ [] := by
      intro nothing
      rw [nothing] at long
      exact absurd long (Nat.not_lt_zero _)
    obtain ⟨first, decoded, fed⟩ := gathering.codec long
    obtain rfl : state = wh.feed first (blocks config ps) := Option.some.inj (hasState.symm.trans fed)
    rw [block] at answer
    have before : wh.completes first (blocks config ps) = false := by
      by_contra completes
      refine gathering.short ⟨nonempty, ?_⟩
      rw [Suffices, if_neg (Nat.not_le.mpr long)]
      exact ⟨first, decoded, by simpa using completes⟩
    have now : wh.completes first (blocks config (ps ++ [pkt])) = ready := by
      rw [snoc, wh.completes_append, before]
      simp [Wirehair.completes, answer]
    cases ready with
    | true =>
      have pos : 0 < w.chunk.len := by omega
      have complete : (true && decide (0 < w.chunk.len)) = true := decide_eq_true pos
      refine .inl ⟨⟨nonempty, ?_⟩, Int.natCast_pos.mpr pos, rfl, prepared.len, complete,
        prepared.unemitted, _, len.symm, .inr ⟨isBig, after.whole isBig complete⟩⟩
      rw [Suffices, if_neg (Nat.not_le.mpr long)]
      exact ⟨first, decoded, now⟩
    | false =>
      refine .inr ⟨rfl, rfl, ?_, fun _ => ⟨first, decoded, ?_⟩⟩
      · rintro ⟨-, enough⟩
        have enough : Suffices wh config (chunkOf w.chunk.num) (ps ++ [pkt]) := enough
        rw [Suffices, if_neg (Nat.not_le.mpr long)] at enough
        obtain ⟨first', decoded', completes⟩ := enough
        obtain rfl := Option.mem_unique decoded' decoded
        rw [now] at completes
        cases completes
      · rw [snoc, wh.feed_snoc, answer]

variable (wh config chunkOf) in
/-- The chunk came in and can be rebuilt from what did. -/
def Recovered (num : UInt64) (ds : List Datagram) : Prop :=
  num ∈ dataNums ds ∧ Recoverable wh config chunkOf num (packetsOf num ds)

/-- A datagram of the transfer, as the decoder sees it. -/
structure Sent (wh : Wirehair S) (config : HgapConfig) (chunkOf : UInt64 → Bytes) (d : Datagram) :
    Prop where
  whole : hgapHeaderLen ≤ d.bytes.length
  carries : OfTransfer wh config chunkOf d

theorem Recoverable.append {num : UInt64} {ps : List HgapPkt}
    (recoverable : Recoverable wh config chunkOf num ps) (qs : List HgapPkt) :
    Recoverable wh config chunkOf num (ps ++ qs) :=
  ⟨recoverable.1, recoverable.2.append qs⟩

/-- A chunk that cannot be rebuilt and has a packet of a later one behind it. -/
def Broken (wh : Wirehair S) (config : HgapConfig) (chunkOf : UInt64 → Bytes)
    (ds : List Datagram) : Prop :=
  ∃ num ∈ dataNums ds, ¬ Recovered wh config chunkOf num ds ∧ ∃ later ∈ dataNums ds, num < later

/-- A chunk started from a packet of its own number has taken in nothing yet. -/
theorem started_gathering (restarts : wh.DecodeRestarts) (decodes : wh.DecodesEncoded)
    (dec : HgapDecoder S) (pkt : HgapPkt)
    (carries : Carries wh config (chunkOf pkt.hdr.chunkNum) pkt) :
    Gathering wh config chunkOf [] ⟨startedChunk wh dec pkt, false, false, .tData⟩ := by
  have num := startedChunk_num wh dec pkt
  refine ⟨fun recoverable => suffices_nil recoverable.2, ?_⟩
  dsimp only
  rw [num]
  intro long
  have block : pkt.hdr.dataSize.toNat = config.payload := by
    have := carries.dataSize
    omega
  have big : pkt.hdr.dataSize.toNat < pkt.hdr.chunkSize.toNat := by
    have := carries.size
    omega
  obtain ⟨enc, encoded, -⟩ := carries.coded long
  obtain ⟨first, decoded⟩ := Option.isSome_iff_exists.mp (decodes _ _ enc encoded)
  refine ⟨first, decoded, ?_⟩
  rw [startedChunk_whState wh dec pkt big, carries.size, block]
  cases dec.chunk.whState with
  | none => exact decoded
  | some old => rw [restarts, decoded]; rfl

/-- A decoder between two turns of the loop, inside a transfer, and what a receiver that only puts
packets together holds there. -/
structure Holds (wh : Wirehair S) (config : HgapConfig) (chunkOf : UInt64 → Bytes)
    (held : Option (UInt64 × List HgapPkt)) (dec : HgapDecoder S) : Prop where
  genuine : Genuine wh config chunkOf dec
  inside : dec.state = .tStarted ∨ dec.state = .tData
  settled : dec.chunkComplete = true → dec.chunkEmitted = true
  blank : held = none → Blank dec
  num : ∀ got ∈ held, dec.chunk.num = got.1
  complete : ∀ got ∈ held,
    (dec.chunkComplete = true ↔ Recoverable wh config chunkOf got.1 got.2)
  gathering : ∀ got ∈ held, dec.chunkComplete = false → Gathering wh config chunkOf got.2 dec

/-- The decoder behind the BEGIN packet it was waiting for. -/
def startedDecoder (S : Type) : HgapDecoder S := { hgapDecoderNew with state := .tStarted }

theorem holds_started : Holds wh config chunkOf none (startedDecoder S) := by
  have blank : Blank (startedDecoder S) := ⟨rfl, rfl, rfl⟩
  refine ⟨⟨.inl blank, .inl blank⟩, .inl rfl, fun _ => rfl, fun _ => blank, ?_, ?_, ?_⟩
  all_goals
    rintro got ⟨⟩

/-- The number of a packet. -/
def chunkLabel (pkt : HgapPkt) : UInt64 := pkt.hdr.chunkNum

/-- The packets of the chunks, in the order they came in. -/
def dataPkts (ds : List Datagram) : List HgapPkt :=
  (ds.filter fun d => decide (hgapPktType d = .data)).map Datagram.pkt

section Turn
variable (restarts : wh.DecodeRestarts) (decodes : wh.DecodesEncoded)
include restarts decodes

/-- The chunk a packet of the transfer is taken into holds the packets of its stretch. -/
theorem Holds.working {held : Option (UInt64 × List HgapPkt)} {dec w : HgapDecoder S}
    (holds : Holds wh config chunkOf held dec) {d : Datagram} (sent : Sent wh config chunkOf d)
    (data : hgapPktType d = .data) (working : Working wh dec d.pkt w) :
    Intact wh config chunkOf w ∧ Prepared w ∧ w.chunk.num = chunkLabel d.pkt ∧
      ∃ got, Gathering wh config chunkOf got w ∧
        Regroup.step chunkLabel (Recoverable wh config chunkOf) held d.pkt =
          some (Regroup.join (Recoverable wh config chunkOf) (chunkLabel d.pkt) got d.pkt) := by
  have carries := sent.carries data
  have num := working.num
  have prepared := Working.prepared wh holds.genuine.1 data working
  cases working with
  | fresh other complete =>
    refine ⟨started_intact restarts dec d.pkt carries, prepared, num, [],
      started_gathering restarts decodes dec d.pkt carries, ?_⟩
    cases held with
    | none => rfl
    | some got =>
      have foreign : chunkLabel d.pkt ≠ got.1 := holds.num got rfl ▸ other
      rw [Regroup.step, if_neg foreign, if_pos ((holds.complete got rfl).mp complete)]
  | more same incomplete =>
    have intact : Intact wh config chunkOf dec := by
      refine holds.genuine.2.resolve_left fun blank => ?_
      rw [blank.complete] at incomplete
      cases incomplete
    cases held with
    | none =>
      rw [(holds.blank rfl).complete] at incomplete
      cases incomplete
    | some got =>
      have gathering := holds.gathering got rfl incomplete
      have own : chunkLabel d.pkt = got.1 := same.trans (holds.num got rfl)
      refine ⟨intact.restate _ _, prepared, same.symm, got.2, ⟨gathering.short, gathering.codec⟩, ?_⟩
      rw [Regroup.step, if_pos own, own]

variable (reconstructs : wh.Reconstructs)
  (fits : ∀ num, (chunkOf num).length ≤ hgapMaxChunkSize)
include reconstructs fits

/-- A packet of a chunk: the loop goes on as the receiver does, or stops with it. -/
theorem Holds.data {held : Option (UInt64 × List HgapPkt)} {dec : HgapDecoder S}
    (holds : Holds wh config chunkOf held dec) (d : Datagram) (sent : Sent wh config chunkOf d)
    (data : hgapPktType d = .data) :
    (∃ held' out dec', Regroup.step chunkLabel (Recoverable wh config chunkOf) held d.pkt =
        some (held', out) ∧
      LoopTurn wh dec (d, out.map fun num => ⟨num, chunkOf num⟩) dec' ∧
      Holds wh config chunkOf held' dec') ∨
    (Regroup.step chunkLabel (Recoverable wh config chunkOf) held d.pkt = none ∧
      (hgapDecoderRead wh dec d).ret = -Hgap.errIncompleteChunk.code) := by
  have genuine := holds.genuine.read restarts reconstructs d sent.carries
  have quiet := @quiet_turn S wh dec d
  have handOver := @Ready.loopTurn S wh dec d
  have case := readCase wh dec d
  have carries := sent.carries data
  generalize hgapDecoderRead wh dec d = r at case genuine quiet handOver
  cases case with
  | idle idle => exact absurd ⟨data, holds.inside⟩ idle
  | handled handles r case =>
    cases case with
    | foreign other incomplete =>
      refine .inr ⟨?_, rfl⟩
      cases held with
      | none =>
        rw [(holds.blank rfl).complete] at incomplete
        cases incomplete
      | some got =>
        have foreign : chunkLabel d.pkt ≠ got.1 := holds.num got rfl ▸ other
        have short : ¬ Recoverable wh config chunkOf got.1 got.2 := by
          rw [← holds.complete got rfl, incomplete]
          exact Bool.false_ne_true
        rw [Regroup.step, if_neg foreign, if_neg short]
    | oversized _ _ size =>
      rw [carries.size] at size
      exact absurd (fits _) (Nat.not_le.mpr size)
    | settled same complete =>
      cases held with
      | none => exact absurd same ((holds.blank rfl).other d data)
      | some got =>
        have own : chunkLabel d.pkt = got.1 := same.trans (holds.num got rfl)
        have enough := (holds.complete got rfl).mp complete
        refine .inl ⟨some (got.1, got.2 ++ [d.pkt]), none, _, ?_,
          quiet (by rw [if_pos (holds.settled complete)]), genuine, .inr rfl, holds.settled, ?_, ?_, ?_,
          ?_⟩
        · rw [Regroup.step, if_pos own, Regroup.join, if_neg fun both => both.2 enough]
        · rintro ⟨⟩
        · rintro _ ⟨⟩
          exact holds.num got rfl
        · rintro _ ⟨⟩
          exact iff_of_true complete (enough.append [d.pkt])
        · rintro _ ⟨⟩ incomplete
          rw [complete] at incomplete
          cases incomplete
    | absorbed w working =>
      obtain ⟨intact, prepared, num, got, gathering, step⟩ :=
        holds.working restarts decodes sent data working
      have frame := incorporate_frame wh w d.pkt prepared.incomplete
      have state : (hgapDecoderIncorporate wh w d.pkt).dec.state = w.state := rfl
      have inside : (hgapDecoderIncorporate wh w d.pkt).dec.state = .tStarted ∨
          (hgapDecoderIncorporate wh w d.pkt).dec.state = .tData := .inr (state.trans prepared.state)
      have carries : Carries wh config (chunkOf w.chunk.num) d.pkt := num ▸ carries
      have short := gathering.short
      rw [num] at short
      rcases gathering.incorporate reconstructs intact prepared d.pkt carries with
        ⟨enough, ready⟩ | ⟨nothing, incomplete, gathering⟩
      · obtain ⟨e, returns, success, after, turn⟩ := handOver ready
        have genuine' := genuine.emit _ e returns
        obtain ⟨-, content⟩ := genuine.out _ e returns success
        rw [num] at enough
        rw [frame.2, num] at content turn
        rw [content] at turn
        refine .inl ⟨some (chunkLabel d.pkt, got ++ [d.pkt]), some (chunkLabel d.pkt), e.dec, ?_, turn,
          genuine', ?_, ?_, ?_, ?_, ?_, ?_⟩
        · rw [step, Regroup.join, if_pos ⟨enough, short⟩]
        · rw [after]
          exact inside
        · rw [after]
          exact fun _ => rfl
        · rintro ⟨⟩
        · rintro _ ⟨⟩
          rw [after]
          exact frame.2.trans num
        · rintro _ ⟨⟩
          rw [after]
          exact iff_of_true ready.complete enough
        · rintro _ ⟨⟩ incomplete
          rw [after] at incomplete
          have complete := ready.complete
          rw [incomplete] at complete
          cases complete
      · have still := gathering.short
        rw [frame.2, num] at still
        refine .inl ⟨some (chunkLabel d.pkt, got ++ [d.pkt]), none, _, ?_, quiet nothing, genuine,
          inside, ?_, ?_, ?_, ?_, ?_⟩
        · rw [step, Regroup.join, if_neg fun both => still both.1]
        · intro complete
          rw [incomplete] at complete
          cases complete
        · rintro ⟨⟩
        · rintro _ ⟨⟩
          exact frame.2.trans num
        · rintro _ ⟨⟩
          refine iff_of_false ?_ still
          rw [incomplete]
          exact Bool.false_ne_true
        · rintro _ ⟨⟩ _
          exact gathering

omit decodes fits in
/-- Any other datagram but END is passed by. -/
theorem Holds.control {held : Option (UInt64 × List HgapPkt)} {dec : HgapDecoder S}
    (holds : Holds wh config chunkOf held dec) (d : Datagram) (sent : Sent wh config chunkOf d)
    (control : hgapPktType d ≠ .data) (running : hgapPktType d ≠ .end_) :
    ∃ dec', LoopTurn wh dec (d, none) dec' ∧ Holds wh config chunkOf held dec' := by
  have idle : ¬ Handles dec d := fun handles => control handles.1
  have next : dec.state.next (hgapPktType d) = .tStarted ∨
      dec.state.next (hgapPktType d) = .tData := by
    rcases holds.inside with inside | inside <;> rw [inside] <;>
      cases type : hgapPktType d <;> simp [HgapDecoderState.next, type] at control running ⊢
  have goes : dec.state.next (hgapPktType d) ≠ .tStopped := by
    rcases next with h | h <;> rw [h] <;> decide
  have turn := @quiet_turn S wh dec d
  have genuine := holds.genuine.read restarts reconstructs d sent.carries
  rw [read_idle wh dec d idle] at turn genuine
  refine ⟨_, turn (if_neg goes), genuine, next, holds.settled, fun nothing => ?_, holds.num,
    holds.complete, fun got same incomplete => ?_⟩
  · have blank := holds.blank nothing
    exact ⟨blank.chunk, blank.complete, blank.emitted⟩
  · have gathering := holds.gathering got same incomplete
    exact ⟨gathering.short, gathering.codec⟩

end Turn

end Chunks

end Hairgap.Guarantees
