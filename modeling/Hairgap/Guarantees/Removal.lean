import Hairgap.Guarantees.EndOfTransfer
import Hairgap.Guarantees.Malformed

/-!
# Runs with the rejected datagrams taken out

Two decoders with the same chunk answer alike whatever ids and totals are left over in it.
A rejected datagram that is spared and does not move the protocol state can therefore be
left out of a run.
-/
namespace Hairgap.Guarantees
open Hairgap.Base Hairgap.Source

variable {S : Type} (wh : Wirehair S)

/-- Same protocol state, but for the step from started to data that a datagram left out of
the second run may have made. -/
def SameState (a b : HgapDecoderState) : Prop := a = b ∨ (a = .tData ∧ b = .tStarted)

structure Alike (a b : HgapDecoder S) : Prop where
  chunk : SameChunk a b
  state : SameState a.state b.state

theorem SameState.next {a b : HgapDecoderState} (same : SameState a b) (type : HgapPktT) :
    SameState (a.next type) (b.next type) := by
  rcases same with rfl | ⟨rfl, rfl⟩
  · exact .inl rfl
  · cases type <;> simp [SameState, HgapDecoderState.next]

section SameChunk
variable {a b : HgapDecoder S} (same : SameChunk a b)
include same

theorem SameChunk.payloadSize :
    hgapEncChunkPktPayloadSize a.chunk = hgapEncChunkPktPayloadSize b.chunk := by
  rw [hgapEncChunkPktPayloadSize, hgapEncChunkPktPayloadSize, same.pktSize]

theorem SameChunk.isSmall : hgapEncChunkIsSmall a.chunk = hgapEncChunkIsSmall b.chunk := by
  rw [hgapEncChunkIsSmall, hgapEncChunkIsSmall, same.payloadSize, same.len]

theorem SameChunk.incorporate (pkt : HgapPkt) :
    (hgapDecoderIncorporate wh a pkt).ret = (hgapDecoderIncorporate wh b pkt).ret ∧
      SameChunk (hgapDecoderIncorporate wh a pkt).dec (hgapDecoderIncorporate wh b pkt).dec := by
  unfold hgapDecoderIncorporate
  cases hdata : b.chunk.data with
  | some data =>
    rw [decChunkRead_held wh a.chunk pkt data (same.data.trans hdata),
      decChunkRead_held wh b.chunk pkt data hdata]
    refine ⟨by simp [same.len], ⟨same.num, same.len, same.pktSize, same.data, same.whState, ?_,
      same.emitted⟩⟩
    simp [same.len, same.complete]
  | none =>
    have absent := same.data.trans hdata
    cases hsmall : hgapEncChunkIsSmall b.chunk with
    | true =>
      rw [decChunkRead_small wh a.chunk pkt absent (same.isSmall.trans hsmall),
        decChunkRead_small wh b.chunk pkt hdata hsmall]
      refine ⟨by simp [same.len], ⟨same.num, same.len, same.pktSize, ?_, same.whState, ?_,
        same.emitted⟩⟩
      · simp [same.len]
      · simp [same.len, same.complete]
    | false =>
      cases hstate : b.chunk.whState with
      | none =>
        rw [decChunkRead_lost wh a.chunk pkt absent (same.isSmall.trans hsmall)
            (same.whState.trans hstate), decChunkRead_lost wh b.chunk pkt hdata hsmall hstate]
        exact ⟨rfl, ⟨same.num, same.len, same.pktSize, same.data, same.whState,
          by simp [same.complete], same.emitted⟩⟩
      | some state =>
        cases answer : wh.read state pkt.hdr.dataId
            (load pkt.data 0 (hgapEncChunkPktPayloadSize b.chunk)) with
        | mk after ready =>
          rw [decChunkRead_fed wh a.chunk pkt absent (same.isSmall.trans hsmall) state
              (same.whState.trans hstate) after ready (same.payloadSize ▸ answer),
            decChunkRead_fed wh b.chunk pkt hdata hsmall state hstate after ready answer]
          refine ⟨by simp [same.len], ⟨same.num, same.len, same.pktSize, same.data, rfl, ?_,
            same.emitted⟩⟩
          simp [same.len, same.complete]

theorem SameChunk.started (pkt : HgapPkt) :
    SameChunk ⟨startedChunk wh a pkt, false, false, .tData⟩
      ⟨startedChunk wh b pkt, false, false, .tData⟩ := by
  rw [startedChunk_eq, startedChunk_eq, same.whState]
  exact ⟨rfl, rfl, rfl, rfl, rfl, rfl, rfl⟩

theorem SameChunk.handle (pkt : HgapPkt) :
    (hgapDecoderHandle wh { a with state := .tData } pkt).ret =
        (hgapDecoderHandle wh { b with state := .tData } pkt).ret ∧
      SameChunk (hgapDecoderHandle wh { a with state := .tData } pkt).dec
        (hgapDecoderHandle wh { b with state := .tData } pkt).dec := by
  have running : SameChunk { a with state := .tData } { b with state := .tData } :=
    ⟨same.num, same.len, same.pktSize, same.data, same.whState, same.complete, same.emitted⟩
  rw [handle_eq, handle_eq, same.num]
  by_cases other : pkt.hdr.chunkNum ≠ b.chunk.num
  · rw [if_pos other, if_pos other]
    by_cases incomplete : b.chunkComplete = false
    · rw [if_pos incomplete, if_pos (same.complete.trans incomplete)]
      exact ⟨rfl, running⟩
    · rw [if_neg incomplete, if_neg (same.complete ▸ incomplete)]
      by_cases size : hgapMaxChunkSize < pkt.hdr.chunkSize.toNat
      · rw [if_pos size, if_pos size]
        exact ⟨rfl, running⟩
      · rw [if_neg size, if_neg size]
        exact (same.started wh pkt).incorporate wh pkt
  · rw [if_neg other, if_neg other]
    by_cases complete : b.chunkComplete = true
    · rw [if_pos complete, if_pos (same.complete.trans complete)]
      exact ⟨by simp only [same.emitted, same.len], running⟩
    · rw [if_neg complete, if_neg (same.complete ▸ complete)]
      exact running.incorporate wh pkt

theorem SameChunk.emit (len : Nat) (e : EmitResult S)
    (returns : hgapDecoderEmit wh a len = some e) :
    ∃ e', hgapDecoderEmit wh b len = some e' ∧ e'.ret = e.ret ∧ e'.out = e.out ∧
      SameChunk e.dec e'.dec ∧ e.dec.state = a.state ∧ e'.dec.state = b.state := by
  have marked : SameChunk { a with chunkEmitted := true } { b with chunkEmitted := true } :=
    ⟨same.num, same.len, same.pktSize, same.data, same.whState, same.complete, rfl⟩
  have case := emitCase wh a len
  rw [returns] at case
  unfold hgapDecoderEmit
  rw [← same.complete, ← same.len, ← same.isSmall, ← same.data, ← same.whState]
  cases case with
  | incomplete incomplete =>
    exact ⟨⟨.errIncompleteChunk, b, []⟩, by simp [incomplete], rfl, rfl, same, rfl, rfl⟩
  | narrow complete short =>
    exact ⟨⟨.errBufferTooSmall, b, []⟩, by simp [complete, short], rfl, rfl, same, rfl, rfl⟩
  | held complete fits isSmall data present =>
    have wide : ¬ len < a.chunk.len := Nat.not_lt.mpr fits
    exact ⟨⟨.success, { b with chunkEmitted := true }, data.take a.chunk.len⟩,
      by simp [complete, wide, isSmall, present, same.complete.symm], rfl, rfl, marked, rfl, rfl⟩
  | refused complete fits isBig nothing =>
    have wide : ¬ len < a.chunk.len := Nat.not_lt.mpr fits
    exact ⟨⟨.errWirehairError, b, []⟩, by simp [complete, wide, isBig, nothing], rfl, rfl, same,
      rfl, rfl⟩
  | rebuilt complete fits isBig message whole =>
    have wide : ¬ len < a.chunk.len := Nat.not_lt.mpr fits
    exact ⟨⟨.success, { b with chunkEmitted := true }, message⟩,
      by simp [complete, wide, isBig, whole, same.complete.symm], rfl, rfl, marked, rfl, rfl⟩

end SameChunk

section Alike
variable {a b : HgapDecoder S} (alike : Alike a b)
include alike

theorem Alike.handles_iff (d : Datagram) : Handles a d ↔ Handles b d := by
  unfold Handles
  rcases alike.state with h | ⟨ha, hb⟩
  · rw [h]
  · simp [ha, hb]

theorem Alike.read (d : Datagram) :
    (hgapDecoderRead wh a d).ret = (hgapDecoderRead wh b d).ret ∧
      Alike (hgapDecoderRead wh a d).dec (hgapDecoderRead wh b d).dec := by
  have state : SameState (hgapDecoderRead wh a d).dec.state (hgapDecoderRead wh b d).dec.state := by
    rw [read_state, read_state]
    exact alike.state.next (hgapPktType d)
  by_cases handles : Handles a d
  · have handles' := (alike.handles_iff d).mp handles
    have handled := alike.chunk.handle wh d.pkt
    rw [← read_handles wh a d handles, ← read_handles wh b d handles'] at handled
    exact ⟨handled.1, handled.2, state⟩
  · have outside := fun h => handles ((alike.handles_iff d).mpr h)
    have ended : a.state.next (hgapPktType d) = .tStopped ↔
        b.state.next (hgapPktType d) = .tStopped := by
      rcases alike.state.next (hgapPktType d) with h | ⟨ha, hb⟩
      · rw [h]
      · simp [ha, hb]
    have chunk := alike.chunk
    refine ⟨?_, ?_, state⟩
    · simp only [read_idle wh a d handles, read_idle wh b d outside, ended]
    · rw [read_idle wh a d handles, read_idle wh b d outside]
      exact ⟨chunk.num, chunk.len, chunk.pktSize, chunk.data, chunk.whState, chunk.complete,
        chunk.emitted⟩

/-- Alike decoders take the same turn. -/
theorem Alike.turn (d : Datagram) (turn : Turn S) (result : readEmit wh a d = some turn) :
    ∃ turn', readEmit wh b d = some turn' ∧ turn'.ret = turn.ret ∧
      turn'.emitted = turn.emitted ∧ turn'.out = turn.out ∧ Alike turn.dec turn'.dec := by
  obtain ⟨ret, read⟩ := alike.read wh d
  cases turnCase wh a d turn result with
  | quiet nothing =>
    rw [ret] at nothing
    refine ⟨⟨(hgapDecoderRead wh b d).ret, none, none, (hgapDecoderRead wh b d).dec⟩, ?_,
      ret.symm, rfl, rfl, read⟩
    simp only [readEmit, if_neg nothing]
  | emits positive e returns =>
    obtain ⟨e', returns', hret, hout, chunk, state, state'⟩ := read.chunk.emit wh _ e returns
    rw [ret] at positive returns'
    refine ⟨⟨(hgapDecoderRead wh b d).ret, some e'.ret, if e'.ret = .success then
      some ⟨(hgapDecoderRead wh b d).dec.chunk.num, e'.out⟩ else none, e'.dec⟩, ?_,
      ret.symm, by rw [hret], by rw [hret, hout, read.chunk.num], chunk, ?_⟩
    · simp only [readEmit, if_pos positive, returns', Option.map_some]
    · rw [state, state']
      exact read.state

end Alike

/-- Turning points of the protocol: the first BEGIN, and an END behind it. -/
def Turning (dec : HgapDecoder S) (d : Datagram) : Prop :=
  (dec.state = .tNew ∧ hgapPktType d = .begin_) ∨
    ((dec.state = .tStarted ∨ dec.state = .tData) ∧ hgapPktType d = .end_)

theorem SameState.skip {a b : HgapDecoder S} {d : Datagram} (same : SameState a.state b.state)
    (still : ¬ Turning a d) : SameState (a.state.next (hgapPktType d)) b.state := by
  unfold Turning at still
  rcases same with h | ⟨ha, hb⟩
  · rw [← h]
    cases hs : a.state <;> cases ht : hgapPktType d <;>
      simp_all [SameState, HgapDecoderState.next]
  · rw [ha] at still ⊢
    rw [hb]
    cases ht : hgapPktType d <;> simp_all [SameState, HgapDecoderState.next]

/-- A datagram without effect on the chunk or on the protocol can be left out. -/
theorem Alike.skip {a b : HgapDecoder S} (alike : Alike a b) (d : Datagram)
    (quiet : (hgapDecoderRead wh a d).ret ≤ 0)
    (chunk : SameChunk (hgapDecoderRead wh a d).dec a) (still : ¬ Turning a d) :
    readEmit wh a d = some ⟨(hgapDecoderRead wh a d).ret, none, none, (hgapDecoderRead wh a d).dec⟩ ∧
      Alike (hgapDecoderRead wh a d).dec b := by
  refine ⟨?_, ?_, ?_⟩
  · simp only [readEmit, if_neg (Int.not_lt.mpr quiet), gt_iff_lt]
  · have same := alike.chunk
    exact ⟨chunk.num.trans same.num, chunk.len.trans same.len, chunk.pktSize.trans same.pktSize,
      chunk.data.trans same.data, chunk.whState.trans same.whState,
      chunk.complete.trans same.complete, chunk.emitted.trans same.emitted⟩
  · rw [read_state]
    exact alike.state.skip still

/-- Datagrams the parser accepts. -/
def accepted (ds : List Datagram) : List Datagram := ds.filter fun d => !decide (Rejected d)

/-- Every rejected datagram of a run of the documented loop is spared, and none of them is a
turning point of the protocol. -/
def RejectedSpared (labels : List (Datagram × Option OutChunk)) : Prop :=
  Along (ReadEmit wh) hgapDecoderNew labels fun dec label =>
    Rejected label.1 → SparesRejected wh dec (.read label.1) ∧ ¬ Turning dec label.1

/-- Then the run without them hands the same chunks to the output. -/
theorem removal {labels : List (Datagram × Option OutChunk)} {dec : HgapDecoder S}
    (run : Steps (ReadEmit wh) hgapDecoderNew labels dec) (spared : RejectedSpared wh labels) :
    ∃ labels' dec', Steps (ReadEmit wh) hgapDecoderNew labels' dec' ∧
      labels'.map Prod.fst = accepted (labels.map Prod.fst) ∧
      outChunks labels' = outChunks labels ∧ Alike dec dec' := by
  induction run with
  | nil =>
    exact ⟨[], _, .nil _, rfl, rfl, ⟨rfl, rfl, rfl, rfl, rfl, rfl, rfl⟩, .inl rfl⟩
  | @snoc t u labels label before last ih =>
    obtain ⟨labels', dec', run', hlabels, houts, alike⟩ := ih (spared.shorter rfl)
    obtain ⟨turn, hturn, hout, rfl⟩ := last
    obtain ⟨d, out⟩ := label
    dsimp only at hturn hout
    by_cases rejected : Rejected d
    · obtain ⟨sparing, still⟩ := spared labels (d, out) [] t rfl before rejected
      obtain ⟨ops, -, calls⟩ := readEmit_calls wh before
      have coherent := coherent_run wh calls
      have harmless : (hgapDecoderRead wh t d).ret ≤ 0 ∧ SameChunk (hgapDecoderRead wh t d).dec t :=
        (read_harmless_iff wh coherent d).mpr sparing rejected
      obtain ⟨hskip, after⟩ := alike.skip wh d harmless.1 harmless.2 still
      rw [hskip] at hturn
      cases hturn
      cases hout
      refine ⟨labels', dec', run', ?_, ?_, after⟩
      · simp [accepted, hlabels, rejected]
      · rw [outChunks_append, houts]
        exact (List.append_nil _).symm
    · obtain ⟨turn', hturn', -, -, hout', after⟩ := alike.turn wh d turn hturn
      refine ⟨labels' ++ [(d, out)], turn'.dec, run'.snoc ⟨turn', hturn', hout'.trans hout, rfl⟩,
        ?_, ?_, after⟩
      · simp [accepted, hlabels, rejected]
      · simp [houts]

/-- A rejected data packet inside a transfer is of the current chunk, and not of one that
lost its codec state: `decloop` is not told of an error. -/
def Overlooked (dec : HgapDecoder S) (d : Datagram) : Prop :=
  Handles dec d → d.pkt.hdr.chunkNum = dec.chunk.num ∧
    (dec.chunkComplete = false → dec.chunk.data = none → dec.chunk.whState.isSome)

private theorem handled_overlooked {dec : HgapDecoder S} (coherent : Coherent dec) (pkt : HgapPkt)
    (same : pkt.hdr.chunkNum = dec.chunk.num)
    (backed : dec.chunkComplete = false → dec.chunk.data = none → dec.chunk.whState.isSome)
    (spared : Spared wh dec pkt) {r : ReadResult S} (case : HandleCase wh dec pkt r) :
    r.ret = 0 := by
  cases case with
  | foreign other => exact absurd same other
  | oversized other => exact absurd same other
  | settled _ complete => simp [spared.settled same complete]
  | absorbed w working =>
    cases working with
    | fresh other => exact absurd same other
    | more _ incomplete =>
      have harmless := (added_harmless_iff wh coherent pkt incomplete).mpr
        (spared.fed same incomplete)
      refine Int.le_antisymm harmless.1 ?_
      have absorb := absorbCase wh { dec with state := .tData } pkt incomplete
      generalize hgapDecoderIncorporate wh _ pkt = r at absorb
      cases absorb with
      | held => exact Int.natCast_nonneg _
      | small => exact Int.natCast_nonneg _
      | lost absent _ missing =>
        have hasState := backed incomplete absent
        have missing : dec.chunk.whState = none := missing
        simp [missing] at hasState
      | fed _ _ _ _ _ ready => cases ready <;> simp

theorem read_overlooked {dec : HgapDecoder S} (coherent : Coherent dec) (d : Datagram)
    (running : dec.state ≠ .tStopped) (still : ¬ Turning dec d)
    (spared : Handles dec d → Spared wh dec d.pkt) (overlooked : Overlooked dec d) :
    (hgapDecoderRead wh dec d).ret = 0 := by
  by_cases handles : Handles dec d
  · rw [read_handles wh dec d handles]
    obtain ⟨same, backed⟩ := overlooked handles
    exact handled_overlooked wh coherent d.pkt same backed (spared handles)
      (handleCase wh dec d.pkt)
  · have next : dec.state.next (hgapPktType d) ≠ .tStopped := by
      unfold Turning at still
      cases hs : dec.state <;> cases ht : hgapPktType d <;>
        simp_all [HgapDecoderState.next]
    rw [read_idle wh dec d handles, if_neg next]

/-- Every rejected datagram `decloop` comes to is spared and overlooked. -/
def RejectedOverlooked (dec : HgapDecoder S) (ds : List Datagram) : Prop :=
  ∀ labels u d rest, ds = labels.map Prod.fst ++ d :: rest → Steps (LoopTurn wh) dec labels u →
    Rejected d → SparesRejected wh u (.read d) ∧ ¬ Turning u d ∧ Overlooked u d

private theorem RejectedOverlooked.rest {dec dec' : HgapDecoder S} {d : Datagram}
    {rest : List Datagram} (overlooked : RejectedOverlooked wh dec (d :: rest))
    {out : Option OutChunk} (turn : LoopTurn wh dec (d, out) dec') :
    RejectedOverlooked wh dec' rest := by
  intro labels u x tail split run
  refine overlooked ([(d, out)] ++ labels) u x tail ?_ ((Steps.one turn).trans run)
  simp [split]

private theorem decloop_alike {a b : HgapDecoder S} (ds : List Datagram)
    (coherent : Coherent a) (running : a.state ≠ .tStopped) (alike : Alike a b)
    (overlooked : RejectedOverlooked wh a ds) (retval : Int) (outs : List OutChunk)
    (result : decloop wh a ds = some (retval, outs)) :
    decloop wh b (accepted ds) = some (retval, outs) := by
  induction ds generalizing a b outs with
  | nil => exact result
  | cons d rest ih =>
    by_cases rejected : Rejected d
    · obtain ⟨sparing, still, seen⟩ := overlooked [] a d rest rfl (.nil a) rejected
      have quiet := read_overlooked wh coherent d running still (sparing rejected) seen
      have harmless : (hgapDecoderRead wh a d).ret ≤ 0 ∧ SameChunk (hgapDecoderRead wh a d).dec a :=
        (read_harmless_iff wh coherent d).mpr sparing rejected
      obtain ⟨hskip, after⟩ := alike.skip wh d harmless.1 harmless.2 still
      have leaves : Turn.leaves (S := S) ⟨(hgapDecoderRead wh a d).ret, none, none,
          (hgapDecoderRead wh a d).dec⟩ = none := by simp [Turn.leaves, quiet]
      have turn : LoopTurn wh a (d, none) (hgapDecoderRead wh a d).dec :=
        ⟨_, hskip, leaves, rfl, rfl⟩
      simp only [decloop, hskip, leaves] at result
      obtain ⟨⟨later, more⟩, hrest, heq⟩ := Option.map_eq_some_iff.mp result
      cases heq
      have := ih (coherent.turn wh turn.readEmit) (turn_running wh turn) after
        (RejectedOverlooked.rest wh overlooked turn) more hrest
      simpa [accepted, rejected] using this
    · have hds : accepted (d :: rest) = d :: accepted rest := by simp [accepted, rejected]
      rw [hds]
      simp only [decloop] at result ⊢
      cases hturn : readEmit wh a d with
      | none => simp [hturn] at result
      | some turn =>
        obtain ⟨turn', hturn', hret, hemitted, hout, after⟩ := alike.turn wh d turn hturn
        have hleaves : turn'.leaves = turn.leaves := by simp only [Turn.leaves, hret, hemitted]
        simp only [hturn] at result
        simp only [hturn', hleaves, hout]
        cases leaves : turn.leaves with
        | some retval => simpa [leaves] using result
        | none =>
          simp only [leaves] at result
          obtain ⟨⟨later, more⟩, hrest, heq⟩ := Option.map_eq_some_iff.mp result
          cases heq
          have turn' : LoopTurn wh a (d, turn.out) turn.dec := ⟨turn, hturn, leaves, rfl, rfl⟩
          simp only [ih (coherent.turn wh turn'.readEmit) (turn_running wh turn') after
            (RejectedOverlooked.rest wh overlooked turn') more hrest, Option.map_some]

/-- `decloop` gives the same chunks and the same result without the rejected datagrams. -/
theorem decloop_accepted (ds : List Datagram) (overlooked : RejectedOverlooked wh hgapDecoderNew ds)
    (retval : Int) (outs : List OutChunk)
    (result : decloop wh hgapDecoderNew ds = some (retval, outs)) :
    decloop wh hgapDecoderNew (accepted ds) = some (retval, outs) :=
  decloop_alike wh ds coherent_new nofun ⟨⟨rfl, rfl, rfl, rfl, rfl, rfl, rfl⟩, .inl rfl⟩
    overlooked retval outs result

/-- Rejected datagrams are without effect at every call exactly when each is spared; a run of
the documented loop hands over the same chunks without them when none of them turns the
protocol, and so does `decloop` when none of them is answered with an error. -/
theorem malformed_harmless :
    (∀ ops, Along (DecStep wh) hgapDecoderNew ops (Harmless wh) ↔
      Along (DecStep wh) hgapDecoderNew ops (SparesRejected wh)) ∧
    (∀ labels dec, Steps (ReadEmit wh) hgapDecoderNew labels dec → RejectedSpared wh labels →
      ∃ labels' dec', Steps (ReadEmit wh) hgapDecoderNew labels' dec' ∧
        labels'.map Prod.fst = accepted (labels.map Prod.fst) ∧
        outChunks labels' = outChunks labels) ∧
    ∀ ds retval outs, RejectedOverlooked wh hgapDecoderNew ds →
      decloop wh hgapDecoderNew ds = some (retval, outs) →
      decloop wh hgapDecoderNew (accepted ds) = some (retval, outs) := by
  refine ⟨harmless_iff wh, ?_, fun ds retval outs h => decloop_accepted wh ds h retval outs⟩
  intro labels dec run spared
  obtain ⟨labels', dec', run', hlabels, houts, -⟩ := removal wh run spared
  exact ⟨labels', dec', run', hlabels, houts⟩

/-- The first packet of a five-octet chunk, cut off behind the header. -/
def truncatedPacket : Datagram := .zeroed (hgapWriteHeader ⟨0, 5, 0, 5⟩)

/-- The parser rejects it, and the decoder starts and emits a chunk of whatever follows the
datagram in memory. -/
theorem truncatedPacket_emits :
    Rejected truncatedPacket ∧
      decloop RepetitionCode.code hgapDecoderNew [.begin_, truncatedPacket] =
        some (Hgap.success.code, [⟨0, [0, 0, 0, 0, 0]⟩]) ∧
      decloop RepetitionCode.code hgapDecoderNew (accepted [.begin_, truncatedPacket]) =
        some (Hgap.success.code, []) ∧
      ¬ Along (DecStep RepetitionCode.code) hgapDecoderNew [.read .begin_, .read truncatedPacket]
        (Harmless RepetitionCode.code) := by
  have rejected : Rejected truncatedPacket := by decide +kernel
  refine ⟨rejected, by decide +kernel, by decide +kernel, ?_⟩
  intro harmless
  have run : Steps (DecStep RepetitionCode.code) hgapDecoderNew [.read .begin_] _ :=
    .one (.read hgapDecoderNew .begin_)
  have last : (hgapDecoderRead RepetitionCode.code _ truncatedPacket).ret ≤ 0 :=
    (harmless [.read .begin_] (.read truncatedPacket) [] _ rfl run rejected).1
  exact absurd last (by decide +kernel)

end Hairgap.Guarantees
