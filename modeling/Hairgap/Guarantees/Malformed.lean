import Hairgap.Guarantees.DecoderInvariant
import Hairgap.Source.RepetitionCode

/-!
# Datagrams that do not hold what they announce

The decoder takes from every packet of a chunk as many octets as the first one announced,
and it does not look at the verdict of the parser. Both are harmless for packets of one
size, and exactly when they are is stated here.
-/
namespace Hairgap.Guarantees
open Hairgap.Base Hairgap.Source

/-- `hgap_pkt_parse` accepts the datagram, whatever the packet structure held. -/
def WellFormed (d : Datagram) : Prop :=
  (hgapPktParse ⟨⟨0, 0, 0, 0⟩, d.ptr⟩ d).1 = .success

instance (d : Datagram) : Decidable (WellFormed d) := by
  unfold WellFormed
  infer_instance

theorem WellFormed.length {d : Datagram} (wellFormed : WellFormed d) :
    hgapHeaderLen ≤ d.bytes.length ∧
      d.pkt.hdr.dataSize.toNat + hgapHeaderLen ≤ d.bytes.length :=
  (pktParse_success_iff _ d).mp wellFormed

section Overread
variable {S : Type} (wh : Wirehair S)

/-- The payload octets a read takes lie inside the datagram. -/
def Inside (dec : HgapDecoder S) : DecOp → Prop
  | .read d => hgapHeaderLen + (hgapDecoderRead wh dec d).taken ≤ d.bytes.length
  | .emit _ => True

/-- A packet added to a chunk under reconstruction has at least the payload of its first. -/
def FillsBlock (dec : HgapDecoder S) : DecOp → Prop
  | .read d => Handles dec d → d.pkt.hdr.chunkNum = dec.chunk.num → dec.chunkComplete = false →
      dec.chunk.data = none → dec.chunk.whState.isSome →
      hgapHeaderLen + hgapEncChunkPktPayloadSize dec.chunk ≤ d.bytes.length
  | .emit _ => True

/-- The first packet of a chunk gives no more than it announces. -/
theorem started_taken {w : HgapDecoder S} (dec : HgapDecoder S) (pkt : HgapPkt)
    (hw : w = ⟨startedChunk wh dec pkt, false, false, .tData⟩) :
    (hgapDecoderIncorporate wh w pkt).taken ≤ pkt.hdr.dataSize.toNat := by
  have chunk : w.chunk = startedChunk wh dec pkt := by rw [hw]
  have absorb := absorbCase wh w pkt (by rw [hw])
  generalize hgapDecoderIncorporate wh w pkt = r at absorb
  cases absorb with
  | held => exact Nat.zero_le _
  | small _ isSmall =>
    rw [chunk, startedChunk_isSmall] at isSmall
    dsimp only
    rw [chunk, startedChunk_len]
    exact of_decide_eq_true isSmall
  | lost => exact Nat.zero_le _
  | fed =>
    dsimp only
    rw [chunk, startedChunk_payloadSize]

theorem read_inside_iff {dec : HgapDecoder S} (coherent : Coherent dec) (d : Datagram)
    (wellFormed : WellFormed d) : Inside wh dec (.read d) ↔ FillsBlock dec (.read d) := by
  obtain ⟨header, payload⟩ := wellFormed.length
  simp only [Inside, FillsBlock]
  have case := readCase wh dec d
  generalize hgapDecoderRead wh dec d = r at case
  cases case with
  | idle outside => simp [header, outside]
  | handled handles r case =>
    cases case with
    | foreign other => simp [header, other]
    | oversized other => simp [header, other]
    | settled _ complete => simp [header, complete]
    | absorbed w working =>
      cases working with
      | fresh other =>
        have taken := started_taken wh dec d.pkt rfl
        refine iff_of_true ?_ fun _ same => absurd same other
        omega
      | more same incomplete =>
        have shape := (coherent.incomplete incomplete).2.2
        have absorb := absorbCase wh { dec with state := .tData } d.pkt incomplete
        generalize hgapDecoderIncorporate wh _ d.pkt = r at absorb
        cases absorb with
        | held data present =>
          have present : dec.chunk.data = some data := present
          simp [header, present]
        | small absent isSmall =>
          have absent : dec.chunk.data = none := absent
          have isSmall : hgapEncChunkIsSmall dec.chunk = true := isSmall
          simp [absent, isSmall] at shape
        | lost _ _ missing =>
          have missing : dec.chunk.whState = none := missing
          simp [header, missing]
        | fed absent isBig state hasState =>
          have absent : dec.chunk.data = none := absent
          have hasState : dec.chunk.whState = some state := hasState
          constructor
          · intro inside _ _ _ _ _
            exact inside
          · intro fills
            exact fills handles same incomplete absent (by rw [hasState]; rfl)

/-- Along any calls on well-formed datagrams, no read leaves its datagram exactly as long as
no packet of a chunk under reconstruction is shorter than its first. -/
theorem wellFormed_inside (ops : List DecOp) (wellFormed : ∀ d ∈ reads ops, WellFormed d) :
    Along (DecStep wh) hgapDecoderNew ops (Inside wh) ↔
      Along (DecStep wh) hgapDecoderNew ops FillsBlock := by
  refine along_iff (fun op => ∀ d, op = .read d → WellFormed d) ?_ ops ?_
  · intro before dec op run _ allowed
    cases op with
    | read d => exact read_inside_iff wh (coherent_run wh run.unguard) d (allowed d rfl)
    | emit => exact Iff.rfl
  · rintro op hop d rfl
    exact wellFormed d (List.mem_filterMap.mpr ⟨.read d, hop, rfl⟩)

/-- Two packets of one chunk, the second without a payload: fifty octets are taken from a
datagram that has none. -/
def firstBlock : Datagram := .zeroed (hgapWriteHeader ⟨0, 100, 0, 50⟩ ++ List.replicate 50 0)
def emptyBlock : Datagram := .zeroed (hgapWriteHeader ⟨0, 100, 1, 0⟩)

theorem wellFormed_inside_firstBlock :
    Along (DecStep RepetitionCode.code) hgapDecoderNew [.read .begin_, .read firstBlock]
        (Inside RepetitionCode.code) ↔
      Along (DecStep RepetitionCode.code) hgapDecoderNew [.read .begin_, .read firstBlock]
        FillsBlock :=
  wellFormed_inside RepetitionCode.code [.read .begin_, .read firstBlock] (by decide +kernel)

theorem emptyBlock_overread :
    (∀ d ∈ reads [.read .begin_, .read firstBlock, .read emptyBlock], WellFormed d) ∧
      ¬ Along (DecStep RepetitionCode.code) hgapDecoderNew
        [.read .begin_, .read firstBlock, .read emptyBlock] (Inside RepetitionCode.code) := by
  refine ⟨by decide +kernel, ?_⟩
  intro inside
  have first : Steps (DecStep RepetitionCode.code) hgapDecoderNew [.read .begin_] _ :=
    .one (.read hgapDecoderNew .begin_)
  have run := first.snoc (.read _ firstBlock)
  have last : hgapHeaderLen + (hgapDecoderRead RepetitionCode.code _ emptyBlock).taken ≤
      emptyBlock.bytes.length := inside _ (.read emptyBlock) [] _ rfl run
  exact absurd last (by decide +kernel)

end Overread

section Rejected
variable {S : Type} (wh : Wirehair S)

/-- `hgap_pkt_parse` rejects the datagram. -/
def Rejected (d : Datagram) : Prop :=
  (hgapPktParse ⟨⟨0, 0, 0, 0⟩, d.ptr⟩ d).1 = .errBadPkt

instance (d : Datagram) : Decidable (Rejected d) := by
  unfold Rejected
  infer_instance

/-- The parser has two verdicts. -/
theorem rejected_iff (d : Datagram) : Rejected d ↔ ¬ WellFormed d := by
  unfold Rejected WellFormed hgapPktParse
  generalize d.pkt.hdr.dataSize.toNat = size
  by_cases short : d.bytes.length < hgapHeaderLen
  · simp [short]
  · by_cases truncated : d.bytes.length < size + hgapHeaderLen <;> simp [short, truncated]

/-- The chunk being assembled, as far as a later call depends on it. -/
structure SameChunk (a b : HgapDecoder S) : Prop where
  num : a.chunk.num = b.chunk.num
  len : a.chunk.len = b.chunk.len
  pktSize : a.chunk.pktSize = b.chunk.pktSize
  data : a.chunk.data = b.chunk.data
  whState : a.chunk.whState = b.chunk.whState
  complete : a.chunkComplete = b.chunkComplete
  emitted : a.chunkEmitted = b.chunkEmitted

/-- A rejected datagram gives nothing and leaves the chunk as it was. -/
def Harmless (dec : HgapDecoder S) : DecOp → Prop
  | .read d => Rejected d →
      (hgapDecoderRead wh dec d).ret ≤ 0 ∧ SameChunk (hgapDecoderRead wh dec d).dec dec
  | .emit _ => True

/-- A rejected data packet inside a transfer starts no chunk, finds no chunk waiting to be
emitted, and leaves the codec where it is when it is added to a chunk. -/
structure Spared (dec : HgapDecoder S) (pkt : HgapPkt) : Prop where
  other : pkt.hdr.chunkNum ≠ dec.chunk.num → dec.chunkComplete = true →
    hgapMaxChunkSize < pkt.hdr.chunkSize.toNat
  settled : pkt.hdr.chunkNum = dec.chunk.num → dec.chunkComplete = true →
    dec.chunkEmitted = true
  fed : pkt.hdr.chunkNum = dec.chunk.num → dec.chunkComplete = false →
    dec.chunk.data = none → ∀ state, dec.chunk.whState = some state →
      wh.read state pkt.hdr.dataId
        (load pkt.data 0 (hgapEncChunkPktPayloadSize dec.chunk)) = (state, false)

def SparesRejected (dec : HgapDecoder S) : DecOp → Prop
  | .read d => Rejected d → Handles dec d → Spared wh dec d.pkt
  | .emit _ => True

/-- A complete chunk that waits to be emitted has a length. -/
theorem Coherent.waiting {dec : HgapDecoder S} (coherent : Coherent dec)
    (complete : dec.chunkComplete = true) (unemitted : dec.chunkEmitted = false) :
    0 < dec.chunk.len := by
  rcases coherent with blank | loaded
  · rw [blank.emitted] at unemitted
    cases unemitted
  · cases loaded.content with
    | hollow incomplete | collecting incomplete =>
      rw [complete] at incomplete
      cases incomplete
    | small _ _ _ _ _ pos => exact pos
    | coded _ _ _ pos => exact pos

/-- A packet added to the chunk leaves no trace exactly when the codec takes none. -/
theorem added_harmless_iff {dec : HgapDecoder S} (coherent : Coherent dec) (pkt : HgapPkt)
    (incomplete : dec.chunkComplete = false) :
    ((hgapDecoderIncorporate wh { dec with state := .tData } pkt).ret ≤ 0 ∧
        SameChunk (hgapDecoderIncorporate wh { dec with state := .tData } pkt).dec dec) ↔
      (dec.chunk.data = none → ∀ state, dec.chunk.whState = some state →
        wh.read state pkt.hdr.dataId
          (load pkt.data 0 (hgapEncChunkPktPayloadSize dec.chunk)) = (state, false)) := by
  have shape := (coherent.incomplete incomplete).2.2
  have absorb := absorbCase wh { dec with state := .tData } pkt incomplete
  generalize hgapDecoderIncorporate wh _ pkt = r at absorb
  cases absorb with
  | held data present =>
    have present : dec.chunk.data = some data := present
    have empty : dec.chunk.len = 0 := by
      rcases shape with ⟨-, -, empty⟩ | ⟨-, absent⟩
      · exact empty
      · rw [present] at absent
        cases absent
    refine iff_of_true ⟨by simp [empty], ?_⟩ (by simp [present])
    exact ⟨rfl, rfl, rfl, rfl, rfl, by simp [empty, incomplete], rfl⟩
  | small absent isSmall =>
    have absent : dec.chunk.data = none := absent
    have isSmall : hgapEncChunkIsSmall dec.chunk = true := isSmall
    simp [absent, isSmall] at shape
  | lost _ _ missing =>
    have missing : dec.chunk.whState = none := missing
    exact iff_of_true ⟨by simp, ⟨rfl, rfl, rfl, rfl, rfl, rfl, rfl⟩⟩ (by simp [missing])
  | fed absent isBig state hasState after ready answer =>
    have hasState : dec.chunk.whState = some state := hasState
    have answer : wh.read state pkt.hdr.dataId
      (load pkt.data 0 (hgapEncChunkPktPayloadSize dec.chunk)) = (after, ready) := answer
    have pos : 0 < dec.chunk.len := by
      have := of_decide_eq_false isBig
      dsimp only at this
      omega
    constructor
    · rintro ⟨hret, sameChunk⟩ _ state' hstate'
      have kept : after = state := by
        have := sameChunk.whState
        rw [hasState] at this
        exact Option.some.inj this
      have unready : ready = false := by
        cases ready with
        | false => rfl
        | true =>
          simp at hret
          omega
      rw [hasState] at hstate'
      obtain rfl := Option.some.inj hstate'
      rw [answer, kept, unready]
    · intro quiet
      have quiet := quiet absent state hasState
      rw [answer] at quiet
      obtain ⟨rfl, rfl⟩ := Prod.mk.inj quiet
      exact ⟨by simp, ⟨rfl, rfl, rfl, rfl, hasState.symm, incomplete.symm, rfl⟩⟩

theorem handled_harmless_iff {dec : HgapDecoder S} (coherent : Coherent dec) (pkt : HgapPkt)
    {r : ReadResult S} (case : HandleCase wh dec pkt r) :
    (r.ret ≤ 0 ∧ SameChunk r.dec dec) ↔ Spared wh dec pkt := by
  have unchanged (state : HgapDecoderState) : SameChunk { dec with state := state } dec :=
    ⟨rfl, rfl, rfl, rfl, rfl, rfl, rfl⟩
  cases case with
  | foreign other incomplete =>
    refine iff_of_true ⟨by simp [Hgap.code], unchanged _⟩ ⟨?_, ?_, ?_⟩
    · simp [incomplete]
    · exact fun same => absurd same other
    · exact fun same => absurd same other
  | oversized other complete size =>
    refine iff_of_true ⟨by simp [Hgap.code], unchanged _⟩ ⟨?_, ?_, ?_⟩
    · exact fun _ _ => size
    · exact fun same => absurd same other
    · exact fun same => absurd same other
  | settled same complete =>
    by_cases emitted : dec.chunkEmitted = true
    · refine iff_of_true ⟨by simp [emitted], unchanged _⟩ ⟨?_, fun _ _ => emitted, ?_⟩
      · exact fun other => absurd same other
      · simp [complete]
    · refine iff_of_false ?_ fun spared => emitted (spared.settled same complete)
      have pos := coherent.waiting complete (by simpa using emitted)
      simp only [if_neg emitted]
      omega
  | absorbed w working =>
    cases working with
    | fresh other complete size =>
      refine iff_of_false ?_ ?_
      · rintro ⟨-, sameChunk⟩
        have num := sameChunk.num
        rw [(incorporate_frame wh _ _ rfl).2, startedChunk_num] at num
        exact other num
      · intro spared
        exact absurd (spared.other other complete) (Nat.not_lt.mpr size)
    | more same incomplete =>
      rw [added_harmless_iff wh coherent pkt incomplete]
      constructor
      · intro quiet
        refine ⟨fun other => absurd same other, ?_, fun _ _ => quiet⟩
        simp [incomplete]
      · exact fun spared => spared.fed same incomplete

theorem read_harmless_iff {dec : HgapDecoder S} (coherent : Coherent dec) (d : Datagram) :
    Harmless wh dec (.read d) ↔ SparesRejected wh dec (.read d) := by
  simp only [Harmless, SparesRejected]
  refine imp_congr_right fun _ => ?_
  have case := readCase wh dec d
  generalize hgapDecoderRead wh dec d = r at case
  cases case with
  | idle outside =>
    simp only [outside, false_imp_iff, iff_true]
    refine ⟨?_, ⟨rfl, rfl, rfl, rfl, rfl, rfl, rfl⟩⟩
    split <;> simp [Hgap.code]
  | handled handles r case =>
    simp only [handles, true_imp_iff]
    exact handled_harmless_iff wh coherent d.pkt case

/-- Along any calls, rejected datagrams are harmless exactly when each of them is spared. -/
theorem harmless_iff (ops : List DecOp) :
    Along (DecStep wh) hgapDecoderNew ops (Harmless wh) ↔
      Along (DecStep wh) hgapDecoderNew ops (SparesRejected wh) := by
  refine along_iff (fun _ => True) ?_ ops fun _ _ => trivial
  intro before dec op run _ _
  cases op with
  | read d => exact read_harmless_iff wh (coherent_run wh run.unguard) d
  | emit => exact Iff.rfl

end Rejected

end Hairgap.Guarantees
