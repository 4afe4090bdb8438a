import Hairgap.Guarantees.DecoderInvariant
import Hairgap.Source.Transfer

/-!
# What an emitted chunk contains

One chunk structure and one codec state serve all chunks of a transfer. Everything stored
in them since the last initialisation belongs to the number the chunk carries, in whatever
order the packets of the transfer arrive.
-/
namespace Hairgap.Guarantees
open Hairgap.Base Hairgap.Source

section Packets
variable {S : Type} (wh : Wirehair S) (config : HgapConfig)

/-- A parsed packet of a chunk, as the decoder reads it. -/
structure Carries (content : Bytes) (pkt : HgapPkt) : Prop where
  size : pkt.hdr.chunkSize.toNat = content.length
  dataSize : pkt.hdr.dataSize.toNat = min config.payload content.length
  whole : content.length ≤ config.payload → load pkt.data 0 content.length = content
  coded : config.payload < content.length → ∃ enc,
    wh.encode none content config.payload = some enc ∧
      wh.write enc pkt.hdr.dataId = some (load pkt.data 0 config.payload)

theorem load_pkt (d : Datagram) (n : Nat) : load d.pkt.data 0 n = load d.ptr hgapHeaderLen n := by
  simp only [load, Datagram.pkt, Nat.zero_add]

variable {wh config}

/-- Reading a packet of a chunk gives back what the sender put into it. -/
theorem PacketOf.carries (sound : config.Sound) {num : UInt64} {content : Bytes}
    (fits : content.length ≤ config.bufSize) (d : Datagram)
    (packet : PacketOf wh config num content d.bytes) :
    d.pkt.hdr.chunkNum = num ∧ Carries wh config content d.pkt := by
  have limit := sound.bufSize_le
  have hpay := sound.payload_le
  have hlen : content.length < 2 ^ 64 := by
    simp only [hgapMaxNPkt, hgapMaxPktSize, hgapHeaderLen] at limit
    omega
  have parsed (ident : UInt32) (payload : Bytes) (short : payload.length ≤ config.payload)
      (layout : d.bytes = chunkPacket num content ident payload) :
      d.pkt.hdr.chunkNum = num ∧ d.pkt.hdr.chunkSize.toNat = content.length ∧
        d.pkt.hdr.dataSize.toNat = payload.length ∧ d.pkt.hdr.dataId = ident ∧
        load d.pkt.data 0 payload.length = payload := by
    have header : d.pkt.hdr = _ := readHeader_write d _ payload layout
    have body := load_payload d _ payload payload.length layout (Nat.le_refl _)
    rw [load_pkt, body, List.take_of_length_le (Nat.le_refl _), header]
    refine ⟨rfl, ?_, ?_, rfl, rfl⟩
    · exact UInt64.toNat_ofNat_of_lt' hlen
    · refine UInt32.toNat_ofNat_of_lt' ?_
      simp only [hgapMaxPktSize, hgapHeaderLen] at hpay
      simp only [UInt32.size]
      omega
  generalize hbytes : d.bytes = bytes at packet
  cases packet with
  | whole small ident =>
    obtain ⟨hnum, hsize, hdata, hident, body⟩ := parsed ident content small hbytes
    refine ⟨hnum, hsize, by rw [hdata]; omega, fun _ => body, fun long => ?_⟩
    omega
  | coded long enc encoded ident block written filled =>
    obtain ⟨hnum, hsize, hdata, hident, body⟩ := parsed ident block (by omega) hbytes
    refine ⟨hnum, hsize, by rw [hdata]; omega, fun small => ?_, fun _ => ⟨enc, encoded, ?_⟩⟩
    · omega
    · rw [hident, ← filled, body]
      exact written

end Packets

section Invariant
variable {S : Type} (wh : Wirehair S) (config : HgapConfig) (chunkOf : UInt64 → Bytes)

/-- Everything stored in the chunk belongs to the number it carries. -/
structure Intact (dec : HgapDecoder S) : Prop where
  len : dec.chunk.len = (chunkOf dec.chunk.num).length
  payloadSize : hgapEncChunkPktPayloadSize dec.chunk =
    min config.payload (chunkOf dec.chunk.num).length
  small : ∀ data, dec.chunk.data = some data → data = chunkOf dec.chunk.num
  coded : hgapEncChunkIsSmall dec.chunk = false → dec.chunkComplete = false →
    ∀ state, dec.chunk.whState = some state → ∃ first reads,
      wh.decode none (chunkOf dec.chunk.num).length config.payload = some first ∧
        (∀ enc, wh.encode none (chunkOf dec.chunk.num) config.payload = some enc →
          wh.Genuine enc reads) ∧
        state = wh.feed first reads
  whole : hgapEncChunkIsSmall dec.chunk = false → dec.chunkComplete = true →
    dec.chunk.whState.bind wh.reconstruct = some (chunkOf dec.chunk.num)

variable {wh config chunkOf}

theorem Intact.isSmall {dec : HgapDecoder S} (intact : Intact wh config chunkOf dec) :
    hgapEncChunkIsSmall dec.chunk =
      decide ((chunkOf dec.chunk.num).length ≤ config.payload) := by
  rw [hgapEncChunkIsSmall, intact.payloadSize, intact.len]
  congr 1
  simp

/-- A chunk started from a packet of its own number is intact: nothing of an earlier chunk
is left in it. -/
theorem started_intact (restarts : wh.DecodeRestarts) (dec : HgapDecoder S) (pkt : HgapPkt)
    (carries : Carries wh config (chunkOf pkt.hdr.chunkNum) pkt) :
    Intact wh config chunkOf ⟨startedChunk wh dec pkt, false, false, .tData⟩ := by
  have num := startedChunk_num wh dec pkt
  refine ⟨?_, ?_, ?_, ?_, nofun⟩
  · rw [startedChunk_len, num, carries.size]
  · rw [startedChunk_payloadSize, num, carries.dataSize]
  · intro data present
    rw [startedChunk_data] at present
    cases present
  · intro isBig _ state hasState
    rw [startedChunk_isSmall] at isBig
    have big : pkt.hdr.dataSize.toNat < pkt.hdr.chunkSize.toNat :=
      Nat.lt_of_not_le (of_decide_eq_false isBig)
    have block : pkt.hdr.dataSize.toNat = config.payload := by
      have := carries.size
      have := carries.dataSize
      omega
    rw [startedChunk_whState wh dec pkt big, carries.size, block] at hasState
    have fresh : wh.decode none (chunkOf pkt.hdr.chunkNum).length config.payload = some state := by
      cases hold : dec.chunk.whState with
      | none => rwa [hold] at hasState
      | some old => rwa [hold, restarts] at hasState
    dsimp only
    rw [num]
    exact ⟨state, [], fresh, fun _ _ => by simp [Wirehair.Genuine], rfl⟩

/-- A packet of the number the chunk carries keeps it intact. -/
theorem Intact.incorporate (reconstructs : wh.Reconstructs) {w : HgapDecoder S}
    (intact : Intact wh config chunkOf w) (prepared : Prepared w) (pkt : HgapPkt)
    (carries : Carries wh config (chunkOf w.chunk.num) pkt) :
    Intact wh config chunkOf (hgapDecoderIncorporate wh w pkt).dec := by
  have incomplete := prepared.incomplete
  have absorb := absorbCase wh w pkt incomplete
  generalize hgapDecoderIncorporate wh w pkt = r at absorb
  cases absorb with
  | held data present =>
    have isSmall := (prepared.present data present).1
    refine ⟨intact.len, intact.payloadSize, intact.small, ?_, ?_⟩
    · exact fun isBig _ => intact.coded isBig incomplete
    · intro isBig
      have isBig : hgapEncChunkIsSmall w.chunk = false := isBig
      rw [isSmall] at isBig
      cases isBig
  | small absent isSmall =>
    have fits : (chunkOf w.chunk.num).length ≤ config.payload := by
      rw [intact.isSmall] at isSmall
      exact of_decide_eq_true isSmall
    have notBig (isBig : hgapEncChunkIsSmall w.chunk = false) : False := by
      rw [isSmall] at isBig
      cases isBig
    refine ⟨intact.len, intact.payloadSize, ?_, fun isBig => (notBig isBig).elim,
      fun isBig => (notBig isBig).elim⟩
    intro data present
    have body : load pkt.data 0 w.chunk.len = data := Option.some.inj present
    rw [← body, intact.len]
    exact carries.whole fits
  | lost => exact ⟨intact.len, intact.payloadSize, intact.small, intact.coded, intact.whole⟩
  | fed absent isBig state hasState after ready answer =>
    have long : config.payload < (chunkOf w.chunk.num).length := by
      rw [intact.isSmall] at isBig
      exact Nat.lt_of_not_le (of_decide_eq_false isBig)
    have block : hgapEncChunkPktPayloadSize w.chunk = config.payload := by
      rw [intact.payloadSize]
      omega
    obtain ⟨first, before, decoded, genuine, hstate⟩ := intact.coded isBig incomplete state hasState
    obtain ⟨enc, encoded, written⟩ := carries.coded long
    rw [block, hstate] at answer
    have hafter : after = (wh.read (wh.feed first before) pkt.hdr.dataId
        (load pkt.data 0 config.payload)).1 := by rw [answer]
    have hready : ready = (wh.read (wh.feed first before) pkt.hdr.dataId
        (load pkt.data 0 config.payload)).2 := by rw [answer]
    refine ⟨intact.len, intact.payloadSize, intact.small, ?_, ?_⟩
    · rintro _ - state' hstate'
      obtain rfl : after = state' := Option.some.inj hstate'
      refine ⟨first, before ++ [(pkt.hdr.dataId, load pkt.data 0 config.payload)], decoded, ?_, ?_⟩
      · intro enc' encoded' r member
        rcases List.mem_append.mp member with earlier | last
        · exact genuine enc' encoded' r earlier
        · obtain rfl := List.mem_singleton.mp last
          obtain rfl : enc = enc' := Option.some.inj (encoded.symm.trans encoded')
          exact written
      · rw [hafter, wh.feed_snoc]
    · intro _ complete
      have complete : (ready && decide (0 < w.chunk.len)) = true := complete
      have ready : ready = true := (Bool.and_eq_true _ _ ▸ complete).1
      have whole := reconstructs (chunkOf w.chunk.num) config.payload enc first before
        pkt.hdr.dataId _ encoded decoded (genuine enc encoded) written (hready ▸ ready)
      rw [← hafter] at whole
      exact whole

/-- Datagrams of the transfer: control packets, and packets that carry the chunk their
number stands for. -/
def OfTransfer (wh : Wirehair S) (config : HgapConfig) (chunkOf : UInt64 → Bytes)
    (d : Datagram) : Prop :=
  hgapPktType d = .data → Carries wh config (chunkOf d.pkt.hdr.chunkNum) d.pkt

/-- Outside its creation a decoder is intact. -/
def Genuine (wh : Wirehair S) (config : HgapConfig) (chunkOf : UInt64 → Bytes)
    (dec : HgapDecoder S) : Prop :=
  Coherent dec ∧ (Blank dec ∨ Intact wh config chunkOf dec)

theorem Intact.restate {dec : HgapDecoder S} (intact : Intact wh config chunkOf dec)
    (emitted : Bool) (state : HgapDecoderState) :
    Intact wh config chunkOf { dec with chunkEmitted := emitted, state := state } :=
  ⟨intact.len, intact.payloadSize, intact.small, intact.coded, intact.whole⟩

theorem Genuine.read (restarts : wh.DecodeRestarts) (reconstructs : wh.Reconstructs)
    {dec : HgapDecoder S} (genuine : Genuine wh config chunkOf dec) (d : Datagram)
    (ofTransfer : OfTransfer wh config chunkOf d) :
    Genuine wh config chunkOf (hgapDecoderRead wh dec d).dec := by
  obtain ⟨coherent, content⟩ := genuine
  refine ⟨coherent.read wh d, ?_⟩
  have restated (state : HgapDecoderState) :
      Blank { dec with state := state } ∨ Intact wh config chunkOf { dec with state := state } := by
    rcases content with blank | intact
    · exact .inl ⟨blank.chunk, blank.complete, blank.emitted⟩
    · exact .inr (intact.restate _ state)
  have case := readCase wh dec d
  generalize hgapDecoderRead wh dec d = r at case
  cases case with
  | idle => exact restated _
  | handled handles r handled =>
    have carries := ofTransfer handles.1
    cases handled with
    | foreign | oversized | settled => exact restated _
    | absorbed w working =>
      right
      have prepared := Working.prepared wh coherent handles.1 working
      have num := working.num
      rw [← num] at carries
      refine Intact.incorporate reconstructs ?_ prepared _ carries
      cases working with
      | fresh =>
        dsimp only at num carries
        rw [num] at carries
        exact started_intact restarts dec _ carries
      | more same incomplete =>
        rcases content with blank | intact
        · rw [blank.complete] at incomplete
          cases incomplete
        · exact intact.restate _ _

theorem Genuine.emit {dec : HgapDecoder S} (genuine : Genuine wh config chunkOf dec) (len : Nat)
    (e : EmitResult S) (returns : hgapDecoderEmit wh dec len = some e) :
    Genuine wh config chunkOf e.dec := by
  refine ⟨genuine.1.emit wh len e returns, ?_⟩
  have case := emitCase wh dec len
  rw [returns] at case
  have marked : Blank { dec with chunkEmitted := true } ∨
      Intact wh config chunkOf { dec with chunkEmitted := true } := by
    rcases genuine.2 with blank | intact
    · exact .inl ⟨blank.chunk, blank.complete, rfl⟩
    · exact .inr (intact.restate true _)
  cases case with
  | incomplete | narrow | refused => exact genuine.2
  | held | rebuilt => exact marked

/-- What a successful emit writes is the chunk whose number the decoder holds, and no empty
chunk. -/
theorem Genuine.out {dec : HgapDecoder S} (genuine : Genuine wh config chunkOf dec) (len : Nat)
    (e : EmitResult S) (returns : hgapDecoderEmit wh dec len = some e)
    (success : e.ret = .success) :
    0 < (chunkOf dec.chunk.num).length ∧ e.out = chunkOf dec.chunk.num := by
  obtain ⟨coherent, content⟩ := genuine
  have case := emitCase wh dec len
  rw [returns] at case
  have intact : ¬ Blank dec → Loaded dec ∧ Intact wh config chunkOf dec :=
    fun notBlank => ⟨coherent.resolve_left notBlank, content.resolve_left notBlank⟩
  cases case with
  | incomplete | narrow | refused => cases success
  | held complete fits isSmall data present =>
    have notBlank : ¬ Blank dec := by
      intro blank
      rw [blank.chunk] at present
      cases present
    obtain ⟨loaded, intact⟩ := intact notBlank
    refine ⟨?_, ?_⟩
    · rw [← intact.len]
      exact loaded.pos complete
    · rw [intact.small data present, intact.len]
      exact List.take_of_length_le (Nat.le_refl _)
  | rebuilt complete fits isBig message whole =>
    have notBlank : ¬ Blank dec := by
      intro blank
      have len : dec.chunk.len = 0 := by rw [blank.chunk]; rfl
      have := of_decide_eq_false isBig
      omega
    obtain ⟨loaded, intact⟩ := intact notBlank
    refine ⟨?_, ?_⟩
    · rw [← intact.len]
      exact loaded.pos complete
    · rw [intact.whole isBig complete] at whole
      exact (Option.some.inj whole).symm

/-- The invariant along any calls on datagrams of one transfer. -/
theorem genuine_run (restarts : wh.DecodeRestarts) (reconstructs : wh.Reconstructs)
    {ops : List DecOp} {dec : HgapDecoder S} (run : Steps (DecStep wh) hgapDecoderNew ops dec)
    (ofTransfer : ∀ d ∈ reads ops, OfTransfer wh config chunkOf d) :
    Genuine wh config chunkOf dec := by
  refine run.invariant (fun ops dec => (∀ d ∈ reads ops, OfTransfer wh config chunkOf d) →
    Genuine wh config chunkOf dec) ?_ ?_ ofTransfer
  · exact fun _ => ⟨coherent_new, .inl ⟨rfl, rfl, rfl⟩⟩
  · intro ops dec op dec' ih step all
    rw [reads_append] at all
    have before := ih fun d h => all d (List.mem_append_left _ h)
    cases step with
    | read d => exact before.read restarts reconstructs d (all d (by simp))
    | emit len e returns => exact before.emit len e returns

end Invariant

end Hairgap.Guarantees
