import Hairgap.Base.Transition
import Hairgap.Source.Transfer

/-!
Any number of calls of `hgap_enc_chunk_emit` (encoding.c:130-183), and the loop of `send_loop`
around them (hgap_send.c:235-245).
-/
namespace Hairgap.Source
open Hairgap.Base

section
variable {S : Type} (wh : Wirehair S)

/-- A call of `hgap_enc_chunk_emit` that returns, whatever it returns. -/
def EmitStep (chunk : HgapEncChunk S) (e : Emitted S) (chunk' : HgapEncChunk S) : Prop :=
  hgapEncChunkEmit wh chunk = some e ∧ e.chunk = chunk'

/-- What the caller sees of `n` calls: each redundancy, with the packet and its size when
one was written. -/
def emissions : Nat → HgapEncChunk S → Option (List (Double × Option (Bytes × Nat)))
  | 0, _ => some []
  | n + 1, chunk =>
    match hgapEncChunkEmit wh chunk with
    | none => none
    | some e => (emissions n e.chunk).map ((e.redund, e.pkt) :: ·)

/-- An emission of a chunk that fits one packet. -/
theorem emit_small {chunk : HgapEncChunk S} (small : hgapEncChunkIsSmall chunk = true) :
    hgapEncChunkEmit wh chunk =
      if chunk.len + hgapHeaderLen = chunk.pktSize then
        chunk.data.map fun data => hgapEncChunkSeal { chunk with nextPktId := chunk.nextPktId + 1 }
          chunk.nextPktId chunk.len (data.take chunk.len)
      else none := by
  unfold hgapEncChunkEmit
  extract_lets ident next
  have hnext : hgapEncChunkIsSmall next = true := small
  rw [if_pos hnext]

/-- An emission of a chunk that does not. -/
theorem emit_coded {chunk : HgapEncChunk S} (coded : hgapEncChunkIsSmall chunk = false) :
    hgapEncChunkEmit wh chunk =
      match chunk.whState.bind fun state => wh.write state chunk.nextPktId.toUInt32 with
      | none => some ⟨.fin (-1), none, { chunk with nextPktId := chunk.nextPktId + 1 }⟩
      | some block => some (hgapEncChunkSeal { chunk with nextPktId := chunk.nextPktId + 1 }
          chunk.nextPktId (hgapEncChunkPktPayloadSize chunk) block) := by
  unfold hgapEncChunkEmit
  extract_lets ident next
  have hnext : hgapEncChunkIsSmall next = false := coded
  rw [hnext, if_neg Bool.false_ne_true]
  rfl

/-- What emits like a chunk sends like it: `send_loop` asks for no more than the calls give. -/
theorem emitLoop_congr {chunk chunk' : HgapEncChunk S}
    (same : ∀ n, emissions wh n chunk = emissions wh n chunk') (redund : Double) (fuel : Nat) :
    emitLoop wh redund fuel chunk = emitLoop wh redund fuel chunk' := by
  induction fuel generalizing chunk chunk' with
  | zero => rfl
  | succ fuel ih =>
    have first := same 1
    simp only [emissions] at first
    cases hemit : hgapEncChunkEmit wh chunk with
    | none =>
      cases hemit' : hgapEncChunkEmit wh chunk' with
      | none => simp only [emitLoop, hemit, hemit']
      | some e' => simp [hemit, hemit'] at first
    | some e =>
      cases hemit' : hgapEncChunkEmit wh chunk' with
      | none => simp [hemit, hemit'] at first
      | some e' =>
        simp only [hemit, hemit', Option.map_some, Option.some.injEq, List.cons.injEq,
          Prod.mk.injEq, and_true] at first
        obtain ⟨hredund, hpkt⟩ := first
        have rest : ∀ n, emissions wh n e.chunk = emissions wh n e'.chunk := by
          intro n
          have next := same (n + 1)
          simp only [emissions, hemit, hemit', hredund, hpkt] at next
          exact Option.map_injective (List.cons_injective) next
        have hfailed : e.failed = e'.failed := by rw [Emitted.failed, Emitted.failed, hredund]
        have hdatagrams : e.datagrams = e'.datagrams := by
          rw [Emitted.datagrams, Emitted.datagrams, hfailed, hpkt]
        simp only [emitLoop, hemit, hemit', hredund, hdatagrams, hfailed, ih rest]

/-- The size reported with a packet. -/
theorem emit_size {chunk : HgapEncChunk S} {e : Emitted S} {pkt : Bytes} {size : Nat}
    (emit : hgapEncChunkEmit wh chunk = some e) (written : e.pkt = some (pkt, size)) :
    size = chunk.pktSize := by
  unfold hgapEncChunkEmit at emit
  extract_lets ident next at emit
  have same : next.pktSize = chunk.pktSize := rfl
  split at emit
  · split at emit
    · obtain ⟨data, -, rfl⟩ := Option.map_eq_some_iff.mp emit
      exact (Prod.mk.inj (Option.some.inj written)).2.symm
    · cases emit
  · split at emit
    · obtain rfl := Option.some.inj emit
      cases written
    · obtain rfl := Option.some.inj emit
      exact (Prod.mk.inj (Option.some.inj written)).2.symm

/-- An emission keeps the number of its chunk. -/
theorem emit_num {chunk : HgapEncChunk S} {e : Emitted S}
    (emit : hgapEncChunkEmit wh chunk = some e) : e.chunk.num = chunk.num := by
  cases small : hgapEncChunkIsSmall chunk with
  | true =>
    rw [emit_small wh small] at emit
    split at emit
    · obtain ⟨data, -, rfl⟩ := Option.map_eq_some_iff.mp emit
      rfl
    · cases emit
  | false =>
    rw [emit_coded wh small] at emit
    split at emit
    · cases emit
      rfl
    · cases emit
      rfl

/-- The two values an emission returns. -/
theorem emit_redund {chunk : HgapEncChunk S} {e : Emitted S}
    (emit : hgapEncChunkEmit wh chunk = some e) : e.chunk.len = chunk.len ∧
      (e.redund = .fin (-1) ∨ ∃ total, e.redund = Arithmetic.quotient total chunk.len) := by
  cases small : hgapEncChunkIsSmall chunk with
  | true =>
    rw [emit_small wh small] at emit
    split at emit
    · obtain ⟨data, -, rfl⟩ := Option.map_eq_some_iff.mp emit
      exact ⟨rfl, .inr ⟨_, rfl⟩⟩
    · cases emit
  | false =>
    rw [emit_coded wh small] at emit
    split at emit
    · cases emit
      exact ⟨rfl, .inl rfl⟩
    · cases emit
      exact ⟨rfl, .inr ⟨_, rfl⟩⟩

variable {wh} {config : HgapConfig} {num : UInt64} {content : Bytes}

/-- A chunk stays ready to emit whatever its emissions return. -/
theorem Emitting.run (sound : config.Sound) (fills : wh.WriteFills)
    {chunk chunk' : HgapEncChunk S} {es : List (Emitted S)}
    (emitting : Emitting wh config num content chunk)
    (run : Steps (EmitStep wh) chunk es chunk') : Emitting wh config num content chunk' := by
  refine run.invariant (fun _ chunk => Emitting wh config num content chunk) emitting ?_
  rintro es chunk e chunk' emitting ⟨hemit, rfl⟩
  obtain ⟨e', hemit', emission⟩ := emissionCase sound fills emitting
  obtain rfl : e = e' := Option.some.inj (hemit.symm.trans hemit')
  exact emission.emitting emitting

/-- An emission of an initialised chunk returns, whatever the code answers. -/
theorem Emitting.emit (sound : config.Sound) {chunk : HgapEncChunk S}
    (emitting : Emitting wh config num content chunk) :
    ∃ e, hgapEncChunkEmit wh chunk = some e ∧ Emitting wh config num content e.chunk := by
  have size := emitting.pktSize
  have hpkt := sound.pktSize_eq
  cases small : hgapEncChunkIsSmall chunk with
  | true =>
    rw [emitting.isSmall sound] at small
    have fits := of_decide_eq_true small
    have whole : chunk.len + hgapHeaderLen = chunk.pktSize := by
      rw [size, emitting.len]
      omega
    rw [← emitting.isSmall sound] at small
    rw [emit_small wh small, if_pos whole, emitting.data]
    exact ⟨_, rfl, emitting.num_eq, emitting.len, emitting.pktSize, rfl, emitting.coded⟩
  | false =>
    rw [emit_coded wh small]
    cases chunk.whState.bind fun state => wh.write state chunk.nextPktId.toUInt32 with
    | none => exact ⟨_, rfl, emitting.num_eq, emitting.len, emitting.pktSize, emitting.data,
        emitting.coded⟩
    | some block => exact ⟨_, rfl, emitting.num_eq, emitting.len, emitting.pktSize, emitting.data,
        emitting.coded⟩

end

end Hairgap.Source
