import Hairgap.Base.Transition
import Hairgap.Source.Encoding

/-!
What one call of the decoder (encoding.c:188-237,323-451) can do. `handleCase` and `readCase` are
the only places that walk through the branches of `hgap_decoder_read`; every invariant of the
decoder is derived from them.
-/
namespace Hairgap.Source
open Hairgap.Base

/-- Protocol state after a datagram of a given type. -/
def HgapDecoderState.next : HgapDecoderState → HgapPktT → HgapDecoderState
  | .tNew, .begin_ => .tStarted
  | .tStarted, .data => .tData
  | .tStarted, .end_ | .tData, .end_ => .tStopped
  | state, _ => state

section
variable {S : Type} (wh : Wirehair S) (dec : HgapDecoder S)

/-- A data packet inside a transfer: the only kind that can touch the chunk. -/
def Handles (d : Datagram) : Prop :=
  hgapPktType d = .data ∧ (dec.state = .tStarted ∨ dec.state = .tData)

instance (d : Datagram) : Decidable (Handles dec d) := by
  unfold Handles
  infer_instance

/-- The chunk started over from the first packet of a new number. -/
def startedChunk (pkt : HgapPkt) : HgapEncChunk S :=
  (hgapDecChunkInit wh (hgapEncChunkPurge dec.chunk) pkt).2

private theorem payloadSize_announced (pkt : HgapPkt) (chunk : HgapEncChunk S)
    (announced : chunk.pktSize = pkt.hdr.dataSize.toNat + hgapHeaderLen) :
    hgapEncChunkPktPayloadSize chunk = pkt.hdr.dataSize.toNat := by
  rw [hgapEncChunkPktPayloadSize, announced, if_pos (Nat.le_add_left _ _), Nat.add_sub_cancel]

/-- The header of the first packet fixes every size of the chunk. An old codec state
stays where it is when the new chunk is small. -/
theorem startedChunk_eq (pkt : HgapPkt) :
    startedChunk wh dec pkt =
      { num := pkt.hdr.chunkNum
        len := pkt.hdr.chunkSize.toNat
        pktSize := pkt.hdr.dataSize.toNat + hgapHeaderLen
        nextPktId := pkt.hdr.dataId.toUInt64
        whState :=
          if pkt.hdr.chunkSize.toNat ≤ pkt.hdr.dataSize.toNat then dec.chunk.whState
          else wh.decode dec.chunk.whState pkt.hdr.chunkSize.toNat pkt.hdr.dataSize.toNat
        data := none
        totalGen := dec.chunk.totalGen } := by
  have size (whState : Option S) := payloadSize_announced pkt
    ⟨pkt.hdr.chunkNum, pkt.hdr.chunkSize.toNat, pkt.hdr.dataSize.toNat + hgapHeaderLen,
      pkt.hdr.dataId.toUInt64, whState, none, dec.chunk.totalGen⟩ rfl
  simp only [startedChunk, hgapDecChunkInit, hgapEncChunkPurge, hgapEncChunkIsSmall, size,
    decide_eq_true_eq]
  split
  · rfl
  · split
    next h => rw [h]
    next state h => rw [h]

section Started
variable (pkt : HgapPkt)

@[simp] theorem startedChunk_num : (startedChunk wh dec pkt).num = pkt.hdr.chunkNum := by
  rw [startedChunk_eq]

@[simp] theorem startedChunk_len : (startedChunk wh dec pkt).len = pkt.hdr.chunkSize.toNat := by
  rw [startedChunk_eq]

@[simp] theorem startedChunk_data : (startedChunk wh dec pkt).data = none := by
  rw [startedChunk_eq]

theorem startedChunk_payloadSize :
    hgapEncChunkPktPayloadSize (startedChunk wh dec pkt) = pkt.hdr.dataSize.toNat := by
  rw [startedChunk_eq]
  exact payloadSize_announced pkt _ rfl

theorem startedChunk_isSmall :
    hgapEncChunkIsSmall (startedChunk wh dec pkt) =
      decide (pkt.hdr.chunkSize.toNat ≤ pkt.hdr.dataSize.toNat) := by
  rw [hgapEncChunkIsSmall, startedChunk_payloadSize, startedChunk_len]

theorem startedChunk_whState (big : pkt.hdr.dataSize.toNat < pkt.hdr.chunkSize.toNat) :
    (startedChunk wh dec pkt).whState =
      wh.decode dec.chunk.whState pkt.hdr.chunkSize.toNat pkt.hdr.dataSize.toNat := by
  rw [startedChunk_eq, if_neg (Nat.not_le.mpr big)]

end Started

/-- The decoder as it stands just before a data packet is incorporated. -/
inductive Working (pkt : HgapPkt) : HgapDecoder S → Prop
  | fresh (other : pkt.hdr.chunkNum ≠ dec.chunk.num) (complete : dec.chunkComplete = true)
      (size : pkt.hdr.chunkSize.toNat ≤ hgapMaxChunkSize) :
      Working pkt ⟨startedChunk wh dec pkt, false, false, .tData⟩
  | more (same : pkt.hdr.chunkNum = dec.chunk.num) (incomplete : dec.chunkComplete = false) :
      Working pkt { dec with state := .tData }

/-- The four things a data packet can meet inside a transfer, each with its guard. -/
inductive HandleCase (pkt : HgapPkt) : ReadResult S → Prop
  | foreign (other : pkt.hdr.chunkNum ≠ dec.chunk.num) (incomplete : dec.chunkComplete = false) :
      HandleCase pkt ⟨-Hgap.errIncompleteChunk.code, { dec with state := .tData }, 0⟩
  | oversized (other : pkt.hdr.chunkNum ≠ dec.chunk.num) (complete : dec.chunkComplete = true)
      (size : hgapMaxChunkSize < pkt.hdr.chunkSize.toNat) :
      HandleCase pkt ⟨-Hgap.errBadChunk.code, { dec with state := .tData }, 0⟩
  | settled (same : pkt.hdr.chunkNum = dec.chunk.num) (complete : dec.chunkComplete = true) :
      HandleCase pkt ⟨if dec.chunkEmitted then 0 else dec.chunk.len,
        { dec with state := .tData }, 0⟩
  | absorbed (w : HgapDecoder S) (working : Working wh dec pkt w) :
      HandleCase pkt (hgapDecoderIncorporate wh w pkt)

/-- A call of `hgap_decoder_read` passes a datagram by, or handles its packet. -/
inductive ReadCase (d : Datagram) : ReadResult S → Prop
  | idle (other : ¬ Handles dec d) :
      ReadCase d ⟨if dec.state.next (hgapPktType d) = .tStopped then -Hgap.eot.code else 0,
        { dec with state := dec.state.next (hgapPktType d) }, 0⟩
  | handled (handles : Handles dec d) (r : ReadResult S) (case : HandleCase wh dec d.pkt r) :
      ReadCase d r

/-- A data packet is parsed in full, whatever the parser's verdict on its length. -/
theorem parse_data (d : Datagram) (unfilled : HgapPkt) (data : hgapPktType d = .data) :
    (hgapPktParse unfilled d).2 = d.pkt := by
  have long := ((pktType_data_iff d).mp data).1
  have short : ¬ d.bytes.length < hgapHeaderLen := by omega
  rw [hgapPktParse, if_neg short]

theorem updateState_eq (d : Datagram) :
    hgapDecoderUpdateState dec d = (decide (hgapPktType d = .data),
      { dec with state := dec.state.next (hgapPktType d) }) := by
  obtain ⟨chunk, complete, emitted, state⟩ := dec
  unfold hgapDecoderUpdateState
  cases hgapPktType d <;> cases state <;> rfl

/-- Outside a transfer, and for control packets, only the protocol state can move. -/
theorem read_idle (d : Datagram) (other : ¬ Handles dec d) :
    hgapDecoderRead wh dec d =
      ⟨if dec.state.next (hgapPktType d) = .tStopped then -Hgap.eot.code else 0,
        { dec with state := dec.state.next (hgapPktType d) }, 0⟩ := by
  have running : dec.state.next (hgapPktType d) = .tData → hgapPktType d ≠ .data := by
    intro hnext data
    refine other ⟨data, ?_⟩
    rw [data] at hnext
    cases hs : dec.state <;> simp [hs, HgapDecoderState.next] at hnext ⊢
  simp only [hgapDecoderRead, updateState_eq]
  cases hnext : dec.state.next (hgapPktType d) with
  | tNew | tStarted | tStopped => simp [HgapDecoderState.code]
  | tData => simp [HgapDecoderState.code, running hnext]

/-- Inside a transfer a data packet reaches the chunk logic. -/
theorem read_handles (d : Datagram) (handles : Handles dec d) :
    hgapDecoderRead wh dec d = hgapDecoderHandle wh { dec with state := .tData } d.pkt := by
  obtain ⟨data, running⟩ := handles
  have hnext : dec.state.next .data = .tData := by
    rcases running with h | h <;> rw [h] <;> rfl
  have hlow : ¬ HgapDecoderState.tData.code < HgapDecoderState.tData.code := Nat.lt_irrefl _
  simp only [hgapDecoderRead, updateState_eq, data, hnext, parse_data d _ data, if_neg hlow,
    reduceCtorEq, ↓reduceIte, decide_true, Bool.not_true, Bool.false_eq_true]

/-- The branches of the chunk logic, for any packet. -/
theorem handle_eq (pkt : HgapPkt) :
    hgapDecoderHandle wh { dec with state := .tData } pkt =
      if pkt.hdr.chunkNum ≠ dec.chunk.num then
        if dec.chunkComplete = false then
          ⟨-Hgap.errIncompleteChunk.code, { dec with state := .tData }, 0⟩
        else if hgapMaxChunkSize < pkt.hdr.chunkSize.toNat then
          ⟨-Hgap.errBadChunk.code, { dec with state := .tData }, 0⟩
        else hgapDecoderIncorporate wh ⟨startedChunk wh dec pkt, false, false, .tData⟩ pkt
      else if dec.chunkComplete then
        ⟨if dec.chunkEmitted then 0 else dec.chunk.len, { dec with state := .tData }, 0⟩
      else hgapDecoderIncorporate wh { dec with state := .tData } pkt := by
  obtain ⟨chunk, complete, emitted, state⟩ := dec
  unfold hgapDecoderHandle startedChunk
  cases complete <;> cases emitted <;> rfl

theorem handleCase (pkt : HgapPkt) :
    HandleCase wh dec pkt (hgapDecoderHandle wh { dec with state := .tData } pkt) := by
  rw [handle_eq]
  split
  next other =>
    split
    next incomplete => exact .foreign other incomplete
    next complete =>
      have complete : dec.chunkComplete = true := by simpa using complete
      split
      next size => exact .oversized other complete size
      next size => exact .absorbed _ (.fresh other complete (Nat.le_of_not_lt size))
  next same =>
    have same := not_not.mp same
    split
    next complete => exact .settled same complete
    next incomplete => exact .absorbed _ (.more same (by simpa using incomplete))

theorem readCase (d : Datagram) : ReadCase wh dec d (hgapDecoderRead wh dec d) := by
  by_cases handles : Handles dec d
  · rw [read_handles wh dec d handles]
    exact .handled handles _ (handleCase wh dec d.pkt)
  · rw [read_idle wh dec d handles]
    exact .idle handles

/-- Every packet that reaches the chunk leaves its id behind. -/
def HgapEncChunk.touched (chunk : HgapEncChunk S) (pkt : HgapPkt) : HgapEncChunk S :=
  { chunk with nextPktId := pkt.hdr.dataId.toUInt64 + 1 }

section Touched
variable (chunk : HgapEncChunk S) (pkt : HgapPkt)

@[simp] theorem touched_num : (chunk.touched pkt).num = chunk.num := rfl
@[simp] theorem touched_len : (chunk.touched pkt).len = chunk.len := rfl
@[simp] theorem touched_data : (chunk.touched pkt).data = chunk.data := rfl
@[simp] theorem touched_whState : (chunk.touched pkt).whState = chunk.whState := rfl
@[simp] theorem touched_isSmall :
    hgapEncChunkIsSmall (chunk.touched pkt) = hgapEncChunkIsSmall chunk := rfl
@[simp] theorem touched_payloadSize :
    hgapEncChunkPktPayloadSize (chunk.touched pkt) = hgapEncChunkPktPayloadSize chunk := rfl

end Touched

/-- The four things incorporating a packet into an incomplete chunk can do. -/
inductive AbsorbCase (w : HgapDecoder S) (pkt : HgapPkt) : ReadResult S → Prop
  | held (data : Bytes) (present : w.chunk.data = some data) :
      AbsorbCase w pkt ⟨w.chunk.len, { w with chunkComplete := decide (0 < w.chunk.len) }, 0⟩
  | small (absent : w.chunk.data = none) (isSmall : hgapEncChunkIsSmall w.chunk = true) :
      AbsorbCase w pkt ⟨w.chunk.len,
        { w with
          chunk := { w.chunk.touched pkt with data := some (load pkt.data 0 w.chunk.len) }
          chunkComplete := decide (0 < w.chunk.len) }, w.chunk.len⟩
  | lost (absent : w.chunk.data = none) (isBig : hgapEncChunkIsSmall w.chunk = false)
      (noState : w.chunk.whState = none) :
      AbsorbCase w pkt ⟨-1, { w with chunk := w.chunk.touched pkt }, 0⟩
  | fed (absent : w.chunk.data = none) (isBig : hgapEncChunkIsSmall w.chunk = false)
      (state : S) (hasState : w.chunk.whState = some state) (after : S) (ready : Bool)
      (answer : wh.read state pkt.hdr.dataId
        (load pkt.data 0 (hgapEncChunkPktPayloadSize w.chunk)) = (after, ready)) :
      AbsorbCase w pkt ⟨if ready then w.chunk.len else 0,
        { w with
          chunk := { w.chunk.touched pkt with whState := some after }
          chunkComplete := ready && decide (0 < w.chunk.len) },
        hgapEncChunkPktPayloadSize w.chunk⟩

section ChunkRead
variable (chunk : HgapEncChunk S) (pkt : HgapPkt)

theorem decChunkRead_held (data : Bytes) (present : chunk.data = some data) :
    hgapDecChunkRead wh chunk pkt = ⟨chunk.len, chunk, 0⟩ := by
  simp only [hgapDecChunkRead, present]

theorem decChunkRead_small (absent : chunk.data = none)
    (isSmall : hgapEncChunkIsSmall chunk = true) :
    hgapDecChunkRead wh chunk pkt =
      ⟨chunk.len, { chunk.touched pkt with data := some (load pkt.data 0 chunk.len) },
        chunk.len⟩ := by
  obtain ⟨num, len, pktSize, nextPktId, whState, data, totalGen⟩ := chunk
  subst absent
  have touched : hgapEncChunkIsSmall (S := S)
      ⟨num, len, pktSize, pkt.hdr.dataId.toUInt64 + 1, whState, none, totalGen⟩ = true := isSmall
  simp only [hgapDecChunkRead, HgapEncChunk.touched, touched, ↓reduceIte]

theorem decChunkRead_lost (absent : chunk.data = none)
    (isBig : hgapEncChunkIsSmall chunk = false) (noState : chunk.whState = none) :
    hgapDecChunkRead wh chunk pkt = ⟨-1, chunk.touched pkt, 0⟩ := by
  obtain ⟨num, len, pktSize, nextPktId, whState, data, totalGen⟩ := chunk
  subst absent noState
  have touched : hgapEncChunkIsSmall (S := S)
      ⟨num, len, pktSize, pkt.hdr.dataId.toUInt64 + 1, none, none, totalGen⟩ = false := isBig
  simp only [hgapDecChunkRead, HgapEncChunk.touched, touched, Bool.false_eq_true, ↓reduceIte]

theorem decChunkRead_fed (absent : chunk.data = none)
    (isBig : hgapEncChunkIsSmall chunk = false) (state : S)
    (hasState : chunk.whState = some state) (after : S) (ready : Bool)
    (answer : wh.read state pkt.hdr.dataId
      (load pkt.data 0 (hgapEncChunkPktPayloadSize chunk)) = (after, ready)) :
    hgapDecChunkRead wh chunk pkt =
      ⟨if ready then chunk.len else 0, { chunk.touched pkt with whState := some after },
        hgapEncChunkPktPayloadSize chunk⟩ := by
  obtain ⟨num, len, pktSize, nextPktId, whState, data, totalGen⟩ := chunk
  subst absent hasState
  have touched : hgapEncChunkIsSmall (S := S)
      ⟨num, len, pktSize, pkt.hdr.dataId.toUInt64 + 1, some state, none, totalGen⟩ = false := isBig
  have size : hgapEncChunkPktPayloadSize (S := S)
      ⟨num, len, pktSize, pkt.hdr.dataId.toUInt64 + 1, some state, none, totalGen⟩ =
      hgapEncChunkPktPayloadSize (S := S)
        ⟨num, len, pktSize, nextPktId, some state, none, totalGen⟩ := rfl
  simp only [hgapDecChunkRead, HgapEncChunk.touched, touched, Bool.false_eq_true, ↓reduceIte,
    UInt32.toUInt32_toUInt64, size, answer]
  cases ready with
  | true => rfl
  | false => rfl

end ChunkRead

theorem absorbCase (w : HgapDecoder S) (pkt : HgapPkt) (incomplete : w.chunkComplete = false) :
    AbsorbCase wh w pkt (hgapDecoderIncorporate wh w pkt) := by
  have positive : (if (w.chunk.len : Int) > 0 then true else false) = decide (0 < w.chunk.len) := by
    simp
  unfold hgapDecoderIncorporate
  cases absent : w.chunk.data with
  | some data =>
    have held : AbsorbCase wh w pkt _ := .held data absent
    rw [decChunkRead_held wh w.chunk pkt data absent]
    simpa only [incomplete, positive] using held
  | none =>
    cases isSmall : hgapEncChunkIsSmall w.chunk with
    | true =>
      have small : AbsorbCase wh w pkt _ := .small absent isSmall
      rw [decChunkRead_small wh w.chunk pkt absent isSmall]
      simpa only [incomplete, positive] using small
    | false =>
      cases hasState : w.chunk.whState with
      | none =>
        have lost : AbsorbCase wh w pkt _ := .lost absent isSmall hasState
        rw [decChunkRead_lost wh w.chunk pkt absent isSmall hasState]
        simpa [incomplete] using lost
      | some state =>
        cases answer : wh.read state pkt.hdr.dataId
            (load pkt.data 0 (hgapEncChunkPktPayloadSize w.chunk)) with
        | mk after ready =>
          rw [decChunkRead_fed wh w.chunk pkt absent isSmall state hasState after ready answer]
          have fed := AbsorbCase.fed absent isSmall state hasState after ready answer
          cases ready with
          | true => simpa only [incomplete, ↓reduceIte, positive, Bool.true_and] using fed
          | false => simpa [incomplete] using fed

/-- The working decoder is incomplete, in state data, and holds the packet's number. -/
theorem Working.incomplete {pkt : HgapPkt} {w : HgapDecoder S} (working : Working wh dec pkt w) :
    w.chunkComplete = false := by
  cases working with
  | fresh => rfl
  | more _ incomplete => exact incomplete

theorem Working.num {pkt : HgapPkt} {w : HgapDecoder S} (working : Working wh dec pkt w) :
    w.chunk.num = pkt.hdr.chunkNum := by
  cases working with
  | fresh => exact startedChunk_num wh dec pkt
  | more same => exact same.symm

/-- The six things a call of `hgap_decoder_emit` can do. -/
inductive EmitCase (len : Nat) : Option (EmitResult S) → Prop
  | incomplete (incomplete : dec.chunkComplete = false) :
      EmitCase len (some ⟨.errIncompleteChunk, dec, []⟩)
  | narrow (complete : dec.chunkComplete = true) (short : len < dec.chunk.len) :
      EmitCase len (some ⟨.errBufferTooSmall, dec, []⟩)
  | held (complete : dec.chunkComplete = true) (fits : dec.chunk.len ≤ len)
      (isSmall : hgapEncChunkIsSmall dec.chunk = true) (data : Bytes)
      (present : dec.chunk.data = some data) :
      EmitCase len (some ⟨.success, { dec with chunkEmitted := true }, data.take dec.chunk.len⟩)
  | aborted (complete : dec.chunkComplete = true) (fits : dec.chunk.len ≤ len)
      (isSmall : hgapEncChunkIsSmall dec.chunk = true) (absent : dec.chunk.data = none) :
      EmitCase len none
  | refused (complete : dec.chunkComplete = true) (fits : dec.chunk.len ≤ len)
      (isBig : hgapEncChunkIsSmall dec.chunk = false)
      (nothing : dec.chunk.whState.bind wh.reconstruct = none) :
      EmitCase len (some ⟨.errWirehairError, dec, []⟩)
  | rebuilt (complete : dec.chunkComplete = true) (fits : dec.chunk.len ≤ len)
      (isBig : hgapEncChunkIsSmall dec.chunk = false) (message : Bytes)
      (whole : dec.chunk.whState.bind wh.reconstruct = some message) :
      EmitCase len (some ⟨.success, { dec with chunkEmitted := true }, message⟩)

theorem emitCase (len : Nat) : EmitCase wh dec len (hgapDecoderEmit wh dec len) := by
  unfold hgapDecoderEmit
  split
  next incomplete => exact .incomplete (by simpa using incomplete)
  next complete =>
    have complete : dec.chunkComplete = true := by simpa using complete
    split
    next short => exact .narrow complete short
    next fits =>
      have fits := Nat.le_of_not_lt fits
      split
      next isSmall =>
        cases present : dec.chunk.data with
        | none => exact .aborted complete fits isSmall present
        | some data => exact .held complete fits isSmall data present
      next isBig =>
        have isBig : hgapEncChunkIsSmall dec.chunk = false := by simpa using isBig
        split
        next nothing => exact .refused complete fits isBig nothing
        next message whole => exact .rebuilt complete fits isBig message whole

/-- The two calls a user of a decoder can make. -/
inductive DecOp where
  | read (d : Datagram)
  | emit (len : Nat)

/-- A call that returns, whatever it returns. -/
inductive DecStep : HgapDecoder S → DecOp → HgapDecoder S → Prop
  | read (dec : HgapDecoder S) (d : Datagram) :
      DecStep dec (.read d) (hgapDecoderRead wh dec d).dec
  | emit (dec : HgapDecoder S) (len : Nat) (e : EmitResult S)
      (returns : hgapDecoderEmit wh dec len = some e) : DecStep dec (.emit len) e.dec

end

end Hairgap.Source
