import Hairgap.Guarantees.EndOfTransfer

/-!
# The read/emit handshake

A positive result of `hgap_decoder_read` promises a chunk of that size to the call of
`hgap_decoder_emit` behind it. In the loop of `decloop` the promise is kept, whatever the
datagrams say.
-/
namespace Hairgap.Guarantees
open Hairgap.Base Hairgap.Source

section
variable {S : Type} (wh : Wirehair S)

/-- A data packet of another number that starts a chunk. -/
def StartsChunk (dec : HgapDecoder S) (d : Datagram) : Prop :=
  Handles dec d ∧ d.pkt.hdr.chunkNum ≠ dec.chunk.num ∧ dec.chunkComplete = true ∧
    d.pkt.hdr.chunkSize.toNat ≤ hgapMaxChunkSize

/-- The codec of a chunk under reconstruction was made for it and has read whole blocks. -/
def Fed (dec : HgapDecoder S) : Prop :=
  dec.chunkComplete = false → hgapEncChunkIsSmall dec.chunk = false →
    ∀ state, dec.chunk.whState = some state → ∃ old first reads,
      wh.decode old dec.chunk.len (hgapEncChunkPktPayloadSize dec.chunk) = some first ∧
        (∀ r ∈ reads, r.2.length = hgapEncChunkPktPayloadSize dec.chunk) ∧
        state = wh.feed first reads

/-- A decoder between two turns of the loop: no complete chunk waits. -/
structure Resting (dec : HgapDecoder S) : Prop where
  coherent : Coherent dec
  settled : dec.chunkComplete = true → dec.chunkEmitted = true
  fed : Fed wh dec

/-- What a positive result promises: a complete chunk of its size, not handed over yet, whose
octets are there. -/
structure Ready (r : ReadResult S) : Prop where
  positive : 0 < r.ret
  ret : r.ret = r.dec.chunk.len
  len : r.dec.chunk.len ≤ hgapMaxChunkSize
  complete : r.dec.chunkComplete = true
  unemitted : r.dec.chunkEmitted = false
  content : ∃ content : Bytes, content.length = r.dec.chunk.len ∧
    (hgapEncChunkIsSmall r.dec.chunk = true ∧ r.dec.chunk.data = some content ∨
      hgapEncChunkIsSmall r.dec.chunk = false ∧
        r.dec.chunk.whState.bind wh.reconstruct = some content)

variable {wh}

theorem resting_new : Resting wh hgapDecoderNew := ⟨coherent_new, fun _ => rfl, nofun⟩

theorem Fed.working {dec w : HgapDecoder S} {pkt : HgapPkt} (fed : Fed wh dec)
    (working : Working wh dec pkt w) : Fed wh w := by
  cases working with
  | fresh _ _ size =>
    intro _ isBig state hasState
    have big : pkt.hdr.dataSize.toNat < pkt.hdr.chunkSize.toNat := by
      rw [startedChunk_isSmall] at isBig
      exact Nat.lt_of_not_le (of_decide_eq_false isBig)
    dsimp only at hasState ⊢
    rw [startedChunk_whState wh dec pkt big] at hasState
    rw [startedChunk_len, startedChunk_payloadSize]
    exact ⟨_, state, [], hasState, nofun, rfl⟩
  | more => exact fed

/-- Taking in a packet gives the codec one more whole block. -/
theorem Fed.incorporate {w : HgapDecoder S} (fed : Fed wh w) (incomplete : w.chunkComplete = false)
    (pkt : HgapPkt) : Fed wh (hgapDecoderIncorporate wh w pkt).dec := by
  have absorb := absorbCase wh w pkt incomplete
  generalize hgapDecoderIncorporate wh w pkt = r at absorb
  cases absorb with
  | held => exact fun _ isBig => fed incomplete isBig
  | small absent isSmall =>
    intro _ isBig
    have isBig : hgapEncChunkIsSmall w.chunk = false := isBig
    rw [isSmall] at isBig
    cases isBig
  | lost => exact fun _ isBig => fed incomplete isBig
  | fed absent isBig state hasState after ready answer =>
    intro _ _ state' hasState'
    obtain rfl := Option.some.inj hasState'
    obtain ⟨old, first, reads, decoded, whole, rfl⟩ := fed incomplete isBig state hasState
    refine ⟨old, first, reads ++ [(pkt.hdr.dataId, _)], decoded, ?_,
      (congrArg Prod.fst answer).symm.trans (wh.feed_snoc first reads _ _).symm⟩
    intro r member
    rcases List.mem_append.mp member with earlier | now
    · exact whole r earlier
    · rw [List.mem_singleton.mp now]
      exact load_length _ _ _

/-- Taking in a packet either leaves the chunk incomplete and gives no size, or completes it. -/
theorem incorporate_ready (recovers : wh.RecoversRead) {w : HgapDecoder S} (prepared : Prepared w)
    (fed : Fed wh w) (pkt : HgapPkt) :
    ((hgapDecoderIncorporate wh w pkt).ret ≤ 0 ∧
      (hgapDecoderIncorporate wh w pkt).dec.chunkComplete = false) ∨
    Ready wh (hgapDecoderIncorporate wh w pkt) := by
  have absorb := absorbCase wh w pkt prepared.incomplete
  generalize hgapDecoderIncorporate wh w pkt = r at absorb
  cases absorb with
  | held data present =>
    obtain ⟨-, -, empty⟩ := prepared.present data present
    exact .inl ⟨by simp [empty], by simp [empty]⟩
  | small absent isSmall =>
    by_cases pos : 0 < w.chunk.len
    · exact .inr ⟨Int.natCast_pos.mpr pos, rfl, prepared.len, decide_eq_true pos,
        prepared.unemitted, _, load_length _ _ _, .inl ⟨isSmall, rfl⟩⟩
    · exact .inl ⟨by simpa using pos, decide_eq_false pos⟩
  | lost => exact .inl ⟨by simp, prepared.incomplete⟩
  | fed absent isBig state hasState after ready answer =>
    cases ready with
    | false => exact .inl ⟨Int.le_refl _, rfl⟩
    | true =>
      have pos : 0 < w.chunk.len := by
        have := of_decide_eq_false isBig
        omega
      obtain ⟨old, first, reads, decoded, whole, rfl⟩ := fed prepared.incomplete isBig state hasState
      obtain ⟨message, rebuilt, length⟩ := recovers old _ _ first reads _ _ decoded whole
        (load_length _ _ _) (congrArg Prod.snd answer)
      rw [answer] at rebuilt
      exact .inr ⟨Int.natCast_pos.mpr pos, rfl, prepared.len, decide_eq_true pos,
        prepared.unemitted, message, length, .inr ⟨isBig, rebuilt⟩⟩

/-- A read between two turns completes a chunk, or leaves the decoder at rest. -/
theorem Resting.read (recovers : wh.RecoversRead) {dec : HgapDecoder S} (resting : Resting wh dec)
    (d : Datagram) :
    ((hgapDecoderRead wh dec d).ret ≤ 0 ∧ Resting wh (hgapDecoderRead wh dec d).dec) ∨
      Ready wh (hgapDecoderRead wh dec d) := by
  obtain ⟨coherent, settled, fed⟩ := resting
  have after := coherent.read wh d
  have case := readCase wh dec d
  generalize hgapDecoderRead wh dec d = r at case after
  cases case with
  | idle =>
    refine .inl ⟨?_, after, settled, fed⟩
    dsimp only
    split <;> simp [Hgap.code]
  | handled handles r case =>
    cases case with
    | foreign => exact .inl ⟨by simp [Hgap.code], after, settled, fed⟩
    | oversized => exact .inl ⟨by simp [Hgap.code], after, settled, fed⟩
    | settled same complete =>
      refine .inl ⟨?_, after, settled, fed⟩
      rw [if_pos (settled complete)]
    | absorbed w working =>
      have prepared := Working.prepared wh coherent handles.1 working
      have fed := fed.working working
      refine (incorporate_ready recovers prepared fed d.pkt).imp_left ?_
      rintro ⟨quiet, incomplete⟩
      refine ⟨quiet, after, fun complete => ?_, fed.incorporate prepared.incomplete d.pkt⟩
      rw [incomplete] at complete
      cases complete

/-- The promise is kept by an emit with a buffer of the promised size. -/
theorem Ready.emit {r : ReadResult S} (ready : Ready wh r) :
    ∃ e, hgapDecoderEmit wh r.dec r.ret.toNat = some e ∧ e.ret = .success ∧
      (e.out.length : Int) = r.ret ∧ e.dec = { r.dec with chunkEmitted := true } := by
  obtain ⟨content, length, stored⟩ := ready.content
  have room : ¬ r.ret.toNat < r.dec.chunk.len := by
    rw [ready.ret]
    simp
  have whole : ¬ (!r.dec.chunkComplete) = true := by
    rw [ready.complete]
    exact Bool.false_ne_true
  unfold hgapDecoderEmit
  rw [if_neg whole, if_neg room]
  have written : (⟨.success, { r.dec with chunkEmitted := true }, content⟩ :
      EmitResult S).out.length = r.ret := by
    rw [length, ready.ret]
  refine ⟨_, ?_, rfl, written, rfl⟩
  rcases stored with ⟨isSmall, present⟩ | ⟨isBig, rebuilt⟩
  · rw [isSmall, if_pos rfl, present, Option.map_some, List.take_of_length_le (Nat.le_of_eq length)]
  · rw [isBig, if_neg Bool.false_ne_true, rebuilt]

/-- The loop comes back to rest. -/
theorem Resting.turn (recovers : wh.RecoversRead) {dec dec' : HgapDecoder S}
    {label : Datagram × Option OutChunk} (resting : Resting wh dec)
    (turn : ReadEmit wh dec label dec') : Resting wh dec' := by
  have coherent := resting.coherent.turn wh turn
  obtain ⟨t, read, -, rfl⟩ := turn
  cases turnCase wh dec label.1 t read with
  | quiet nothing =>
    rcases resting.read recovers label.1 with ⟨-, after⟩ | ready
    · exact after
    · exact absurd ready.positive nothing
  | emits positive e returns =>
    rcases resting.read recovers label.1 with ⟨quiet, -⟩ | ready
    · exact absurd positive (Int.not_lt.mpr quiet)
    · obtain ⟨e', returns', -, -, emitted⟩ := ready.emit
      rw [returns'] at returns
      cases returns
      refine ⟨coherent, fun _ => ?_, fun incomplete => ?_⟩
      · rw [emitted]
      · rw [emitted] at incomplete
        have complete := ready.complete
        rw [incomplete] at complete
        cases complete

/-- Behind a chunk that was handed over, and in a blank decoder, a read that starts no chunk
moves nothing but the protocol state. -/
theorem read_emitted {dec : HgapDecoder S} (coherent : Coherent dec)
    (emitted : dec.chunkEmitted = true) (d : Datagram) (same : ¬ StartsChunk dec d) :
    (hgapDecoderRead wh dec d).ret ≤ 0 ∧
      ∃ state, (hgapDecoderRead wh dec d).dec = { dec with state := state } := by
  have complete := coherent.complete emitted
  have case := readCase wh dec d
  generalize hgapDecoderRead wh dec d = r at case
  cases case with
  | idle =>
    refine ⟨?_, _, rfl⟩
    dsimp only
    split <;> simp [Hgap.code]
  | handled handles r case =>
    cases case with
    | foreign => exact ⟨by simp [Hgap.code], _, rfl⟩
    | oversized => exact ⟨by simp [Hgap.code], _, rfl⟩
    | settled =>
      refine ⟨?_, _, rfl⟩
      rw [if_pos emitted]
    | absorbed w working =>
      cases working with
      | fresh other _ size => exact absurd ⟨handles, other, complete, size⟩ same
      | more _ incomplete =>
        rw [complete] at incomplete
        cases incomplete

variable (wh) in
/-- Turns of the loop in which no chunk is started. -/
abbrev SameChunkTurn : HgapDecoder S → Datagram × Option OutChunk → HgapDecoder S → Prop :=
  Guarded (fun dec label => ¬ StartsChunk dec label.1) (LoopTurn wh)

theorem emitted_run {dec dec' : HgapDecoder S} {labels : List (Datagram × Option OutChunk)}
    (coherent : Coherent dec) (emitted : dec.chunkEmitted = true)
    (run : Steps (SameChunkTurn wh) dec labels dec') :
    Coherent dec' ∧ ∃ state, dec' = { dec with state := state } := by
  refine run.invariant (fun _ u => Coherent u ∧ ∃ state, u = { dec with state := state })
    ⟨coherent, dec.state, rfl⟩ ?_
  rintro _ _ label v ⟨coherent, state, rfl⟩ ⟨turn, same⟩
  refine ⟨coherent.turn wh turn.readEmit, ?_⟩
  obtain ⟨quiet, state', after⟩ := @read_emitted S wh _ coherent emitted label.1 same
  obtain ⟨t, read, -, -, rfl⟩ := turn
  cases turnCase wh _ label.1 t read with
  | quiet => exact ⟨state', after⟩
  | emits positive => exact absurd positive (Int.not_lt.mpr quiet)

/-- No datagram moves the protocol state backwards. -/
theorem next_forward (state : HgapDecoderState) (type : HgapPktT) :
    state.code ≤ (state.next type).code := by
  cases state <;> cases type <;> decide

theorem forward_run {dec dec' : HgapDecoder S} {labels : List (Datagram × Option OutChunk)}
    (run : Steps (LoopTurn wh) dec labels dec') : dec.state.code ≤ dec'.state.code := by
  refine run.invariant (fun _ u => dec.state.code ≤ u.state.code) (Nat.le_refl _) ?_
  intro _ u label v before turn
  rw [turn_state wh turn.readEmit]
  exact before.trans (next_forward u.state _)

variable (wh) in
/-- A read of `r` promises no more than the emit behind it keeps, and the next promise is about
a chunk that another data packet has started. -/
structure HandsOver (r : ReadResult S) : Prop where
  ret : r.ret = r.dec.chunk.len
  len : r.dec.chunk.len ≤ hgapMaxChunkSize
  complete : r.dec.chunkComplete = true
  unemitted : r.dec.chunkEmitted = false
  emits : ∃ e, hgapDecoderEmit wh r.dec r.ret.toNat = some e ∧ e.ret = .success ∧
    (e.out.length : Int) = r.ret ∧ e.dec = { r.dec with chunkEmitted := true } ∧
    ∀ labels dec d, Steps (SameChunkTurn wh) e.dec labels dec →
      0 < (hgapDecoderRead wh dec d).ret → StartsChunk dec d

variable (wh) in
/-- What holds when datagram `d` follows the turns of a run of the loop. -/
structure Handshake (labels : List (Datagram × Option OutChunk)) (dec : HgapDecoder S)
    (d : Datagram) : Prop where
  handsOver : 0 < (hgapDecoderRead wh dec d).ret → HandsOver wh (hgapDecoderRead wh dec d)
  flags : dec.chunkEmitted = true → dec.chunkComplete = true
  flagsRead : (hgapDecoderRead wh dec d).dec.chunkEmitted = true →
    (hgapDecoderRead wh dec d).dec.chunkComplete = true
  forward : ∀ before after u, labels = before ++ after →
    Steps (LoopTurn wh) hgapDecoderNew before u → Steps (LoopTurn wh) u after dec →
      u.state.code ≤ dec.state.code
  forwardRead : dec.state.code ≤ (hgapDecoderRead wh dec d).dec.state.code
  unmatched : Steps (SameChunkTurn wh) hgapDecoderNew labels dec →
    hgapPktType d = .data → d.pkt.hdr.chunkNum ≠ dec.chunk.num

theorem Ready.handsOver {r : ReadResult S} (ready : Ready wh r) (coherent : Coherent r.dec) :
    HandsOver wh r := by
  obtain ⟨e, returns, success, written, after⟩ := ready.emit
  have emitted : e.dec.chunkEmitted = true := by rw [after]
  have coherent := coherent.emit wh _ e returns
  refine ⟨ready.ret, ready.len, ready.complete, ready.unemitted, e, returns, success, written,
    after, ?_⟩
  intro labels dec d run positive
  by_contra same
  obtain ⟨coherent, state, rfl⟩ := emitted_run coherent emitted run
  exact absurd positive (Int.not_lt.mpr (read_emitted coherent emitted d same).1)

/-- Along every run of the loop of `decloop`, over any datagrams and with anything behind their
ends, the handshake holds. -/
theorem handshake_run (recovers : wh.RecoversRead) {labels : List (Datagram × Option OutChunk)}
    {dec : HgapDecoder S} (run : Steps (LoopTurn wh) hgapDecoderNew labels dec) (d : Datagram) :
    Handshake wh labels dec d := by
  have resting := run.invariant (fun _ dec => Resting wh dec) resting_new
    fun _ _ _ _ resting turn => resting.turn recovers turn.readEmit
  have after := resting.coherent.read wh d
  refine ⟨fun positive => ?_, resting.coherent.complete, after.complete,
    fun _ _ _ _ _ later => forward_run later, ?_, fun unstarted data => ?_⟩
  · rcases resting.read recovers d with ⟨quiet, -⟩ | ready
    · exact absurd positive (Int.not_lt.mpr quiet)
    · exact ready.handsOver after
  · rw [read_state]
    exact next_forward dec.state _
  · obtain ⟨-, state, rfl⟩ := emitted_run coherent_new rfl unstarted
    exact Blank.other ⟨rfl, rfl, rfl⟩ d data

end

/-- A chunk of one octet is announced and handed over. -/
theorem handshake_octet : HandsOver RepetitionCode.code
    (hgapDecoderRead RepetitionCode.code { hgapDecoderNew with state := .tStarted }
      (.zeroed (hgapWriteHeader ⟨0, 1, 0, 1⟩ ++ [7]))) := by
  have turn : LoopTurn RepetitionCode.code hgapDecoderNew (.begin_, none)
      { hgapDecoderNew with state := .tStarted } :=
    ⟨⟨0, none, none, { hgapDecoderNew with state := .tStarted }⟩, rfl, rfl, rfl, rfl⟩
  exact (handshake_run RepetitionCode.recoversRead (.one turn) _).handsOver (by decide)

end Hairgap.Guarantees
