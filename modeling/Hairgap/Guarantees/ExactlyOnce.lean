import Hairgap.Guarantees.Handshake

/-!
# Handing a chunk over once

Reads and emits may come in any order. A decoder holds one chunk, so the order decides whether a
chunk that was completed is handed over once, twice or never.
-/
namespace Hairgap.Guarantees
open Hairgap.Base Hairgap.Source

section
variable {S : Type} (wh : Wirehair S)

/-- What an emit writes of a chunk, if the code can rebuild it. -/
def heldContent (chunk : HgapEncChunk S) : Option Bytes :=
  if hgapEncChunkIsSmall chunk then chunk.data.map (·.take chunk.len)
  else chunk.whState.bind wh.reconstruct

/-- The chunk that waits in a decoder, by its number and content. -/
def held (dec : HgapDecoder S) : List (UInt64 × Option Bytes) :=
  if dec.chunkComplete = true ∧ dec.chunkEmitted = false then
    [(dec.chunk.num, heldContent wh dec.chunk)]
  else []

/-- The chunk a read completes: it gives a size, and not one it had given before. -/
def completion (dec : HgapDecoder S) (d : Datagram) : List (UInt64 × Option Bytes) :=
  if 0 < (hgapDecoderRead wh dec d).ret ∧
      ¬ (dec.chunkComplete = true ∧ d.pkt.hdr.chunkNum = dec.chunk.num) then
    [((hgapDecoderRead wh dec d).dec.chunk.num, heldContent wh (hgapDecoderRead wh dec d).dec.chunk)]
  else []

/-- A decoder with all chunks its reads have completed and its emits have written. -/
structure Ledger (S : Type) where
  dec : HgapDecoder S
  completed : List (UInt64 × Option Bytes)
  written : List (UInt64 × Option Bytes)

def Ledger.new : Ledger S := ⟨hgapDecoderNew, [], []⟩

/-- A call that returns. -/
inductive CallStep : Ledger S → DecOp → Ledger S → Prop
  | read (s : Ledger S) (d : Datagram) :
      CallStep s (.read d)
        ⟨(hgapDecoderRead wh s.dec d).dec, s.completed ++ completion wh s.dec d, s.written⟩
  | emit (s : Ledger S) (len : Nat) (e : EmitResult S)
      (returns : hgapDecoderEmit wh s.dec len = some e) :
      CallStep s (.emit len)
        ⟨e.dec, s.completed,
          s.written ++ if e.ret = .success then [(s.dec.chunk.num, some e.out)] else []⟩

/-- All completed chunks were written, once and in order, but for one that waits. -/
def ExactlyOnce (s : Ledger S) : Prop := s.completed = s.written ++ held wh s.dec

/-- The call passes the check of `hgap_decoder_emit` and loses or repeats no chunk. -/
def HandedOver (s : Ledger S) (op : DecOp) : Prop :=
  (∀ len, op = .emit len → ∃ e, hgapDecoderEmit wh s.dec len = some e) ∧
    ∀ s', CallStep wh s op s' → ExactlyOnce wh s'

/-- No chunk is started while another one waits, and no emit with room for the chunk comes
behind the one that wrote it, or before there is one. -/
def InOrder (dec : HgapDecoder S) : DecOp → Prop
  | .read d => StartsChunk dec d → dec.chunkEmitted = true
  | .emit len => dec.chunkEmitted = true → len < dec.chunk.len

variable {wh}

theorem held_emitted {dec : HgapDecoder S} (emitted : dec.chunkEmitted = true) :
    held wh dec = [] := by
  rw [held, if_neg]
  rw [emitted]
  exact fun waits => Bool.noConfusion waits.2

theorem held_waiting {dec : HgapDecoder S} (complete : dec.chunkComplete = true)
    (unemitted : dec.chunkEmitted = false) :
    held wh dec = [(dec.chunk.num, heldContent wh dec.chunk)] := if_pos ⟨complete, unemitted⟩

theorem held_incomplete {dec : HgapDecoder S} (incomplete : dec.chunkComplete = false) :
    held wh dec = [] := by
  rw [held, if_neg]
  rw [incomplete]
  exact fun waits => Bool.noConfusion waits.1

/-- Taking in a packet gives a size just when it completes the chunk. -/
theorem incorporate_complete {w : HgapDecoder S} (incomplete : w.chunkComplete = false)
    (pkt : HgapPkt) : 0 < (hgapDecoderIncorporate wh w pkt).ret ↔
      (hgapDecoderIncorporate wh w pkt).dec.chunkComplete = true := by
  have absorb := absorbCase wh w pkt incomplete
  generalize hgapDecoderIncorporate wh w pkt = r at absorb
  cases absorb with
  | held => simp
  | small => simp
  | lost => simp [incomplete]
  | fed _ _ _ _ _ ready => cases ready <;> simp

/-- A read leaves the chunk alone, or works on one that no complete chunk stands in front of. -/
theorem read_history {dec : HgapDecoder S} (coherent : Coherent dec) (d : Datagram) :
    (¬ StartsChunk dec d ∧ completion wh dec d = [] ∧
      ∃ state, (hgapDecoderRead wh dec d).dec = { dec with state := state }) ∨
    ((StartsChunk dec d ∨ dec.chunkComplete = false) ∧
      completion wh dec d = held wh (hgapDecoderRead wh dec d).dec ∧
      (hgapDecoderRead wh dec d).dec.chunkEmitted = false) := by
  unfold completion
  have case := readCase wh dec d
  generalize hgapDecoderRead wh dec d = r at case
  cases case with
  | idle idle =>
    refine .inl ⟨fun starts => idle starts.1, if_neg fun given => ?_, _, rfl⟩
    have positive := given.1
    dsimp only at positive
    split at positive <;> simp [Hgap.code] at positive
  | handled handles r case =>
    cases case with
    | foreign _ incomplete =>
      refine .inl ⟨fun starts => ?_, if_neg fun given => ?_, _, rfl⟩
      · have complete := starts.2.2.1
        rw [incomplete] at complete
        cases complete
      · simp [Hgap.code] at given
    | oversized _ _ size =>
      refine .inl ⟨fun starts => Nat.not_lt.mpr starts.2.2.2 size, if_neg fun given => ?_, _, rfl⟩
      simp [Hgap.code] at given
    | settled same complete =>
      exact .inl ⟨fun starts => starts.2.1 same, if_neg fun given => given.2 ⟨complete, same⟩, _, rfl⟩
    | absorbed w working =>
      have prepared := Working.prepared wh coherent handles.1 working
      have unemitted := (incorporate_frame wh w d.pkt prepared.incomplete).1.trans prepared.unemitted
      have new : ¬ (dec.chunkComplete = true ∧ d.pkt.hdr.chunkNum = dec.chunk.num) := by
        cases working with
        | fresh other => exact fun old => other old.2
        | more _ incomplete =>
          rw [incomplete]
          exact fun old => Bool.noConfusion old.1
      refine .inr ⟨?_, ?_, unemitted⟩
      · cases working with
        | fresh other complete size => exact .inl ⟨handles, other, complete, size⟩
        | more _ incomplete => exact .inr incomplete
      · rw [held]
        refine if_congr ?_ rfl rfl
        rw [and_iff_left new, and_iff_left unemitted, incorporate_complete prepared.incomplete]

/-- An emit changes nothing, or writes the chunk it holds, or meets the check with no chunk
behind the flags. -/
theorem emit_history {dec : HgapDecoder S} (coherent : Coherent dec) (len : Nat) :
    (∃ e, hgapDecoderEmit wh dec len = some e ∧ e.ret ≠ .success ∧ e.dec = dec ∧
      (dec.chunkComplete = true → dec.chunk.len ≤ len → hgapEncChunkIsSmall dec.chunk = false ∧
        dec.chunk.whState.bind wh.reconstruct = none)) ∨
    (∃ e, hgapDecoderEmit wh dec len = some e ∧ e.ret = .success ∧ dec.chunk.len ≤ len ∧
      dec.chunkComplete = true ∧ heldContent wh dec.chunk = some e.out ∧
      e.dec = { dec with chunkEmitted := true }) ∨
    (hgapDecoderEmit wh dec len = none ∧ dec.chunk.len ≤ len ∧ dec.chunkEmitted = true) := by
  have case := emitCase wh dec len
  generalize hgapDecoderEmit wh dec len = result at case
  cases case with
  | incomplete incomplete =>
    refine .inl ⟨_, rfl, nofun, rfl, fun complete => ?_⟩
    rw [incomplete] at complete
    cases complete
  | narrow _ short => exact .inl ⟨_, rfl, nofun, rfl, fun _ fits => absurd short (Nat.not_lt.mpr fits)⟩
  | refused complete fits isBig nothing =>
    exact .inl ⟨_, rfl, nofun, rfl, fun _ _ => ⟨isBig, nothing⟩⟩
  | held complete fits isSmall data present =>
    refine .inr (.inl ⟨_, rfl, rfl, fits, complete, ?_, rfl⟩)
    rw [heldContent, if_pos isSmall, present]
    rfl
  | rebuilt complete fits isBig message whole =>
    refine .inr (.inl ⟨_, rfl, rfl, fits, complete, ?_, rfl⟩)
    rw [heldContent, isBig, if_neg Bool.false_ne_true, whole]
  | aborted complete fits isSmall absent =>
    refine .inr (.inr ⟨rfl, fits, ?_⟩)
    by_contra waiting
    have loaded := coherent.loaded (by simpa using waiting)
    cases loaded.content with
    | hollow _ _ _ present | small _ _ _ present =>
      rw [absent] at present
      cases present
    | collecting _ _ isBig | coded _ isBig =>
      rw [isSmall] at isBig
      cases isBig

variable (wh) in
/-- A decoder whose calls came in order. What was written once could be written again. -/
structure Ledger.Ok (s : Ledger S) : Prop where
  coherent : Coherent s.dec
  once : ExactlyOnce wh s
  again : s.dec.chunkEmitted = true → hgapEncChunkIsSmall s.dec.chunk = false →
    s.dec.chunk.whState.bind wh.reconstruct ≠ none

theorem ledger_new : (Ledger.new (S := S)).Ok wh := ⟨coherent_new, rfl, fun _ isBig => nomatch isBig⟩

theorem Ledger.Ok.step {s s' : Ledger S} {op : DecOp} (ok : s.Ok wh) (inOrder : InOrder s.dec op)
    (step : CallStep wh s op s') : s'.Ok wh := by
  obtain ⟨coherent, once, again⟩ := ok
  unfold ExactlyOnce at once
  cases step with
  | read d =>
    have after := coherent.read wh d
    rcases @read_history S wh _ coherent d with
      ⟨-, nothing, state, same⟩ | ⟨free, completed, unemitted⟩
    · refine ⟨after, ?_, ?_⟩
      · rw [ExactlyOnce, nothing, List.append_nil, same]
        exact once
      · rw [same]
        exact again
    · have before : held wh s.dec = [] := by
        rcases free with starts | incomplete
        · exact held_emitted (inOrder starts)
        · exact held_incomplete incomplete
      refine ⟨after, ?_, fun emitted => ?_⟩
      · rw [ExactlyOnce, completed, once, before, List.append_nil]
      · rw [unemitted] at emitted
        cases emitted
  | emit len e returns =>
    have after := coherent.emit wh len e returns
    rcases @emit_history S wh _ coherent len with
      ⟨e', returns', refused, same, -⟩ | ⟨e', returns', success, fits, complete, content, same⟩ |
      ⟨aborted, -⟩
    · rw [returns] at returns'
      cases returns'
      refine ⟨after, ?_, same ▸ again⟩
      rw [ExactlyOnce, if_neg refused, List.append_nil, same]
      exact once
    · rw [returns] at returns'
      cases returns'
      have unemitted : s.dec.chunkEmitted = false := by
        by_contra emitted
        exact absurd (inOrder (by simpa using emitted)) (Nat.not_lt.mpr fits)
      refine ⟨after, ?_, fun _ isBig nothing => ?_⟩
      · rw [ExactlyOnce, if_pos success, once, held_waiting complete unemitted, content,
          held_emitted (by rw [same]), List.append_nil]
      · rw [same] at isBig nothing
        rw [heldContent, isBig, if_neg Bool.false_ne_true, nothing] at content
        cases content
    · rw [returns] at aborted
      cases aborted

/-- In such a state the next call hands over as it should just when it is in order too. -/
theorem Ledger.Ok.handedOver {s : Ledger S} (ok : s.Ok wh) (op : DecOp) :
    HandedOver wh s op ↔ InOrder s.dec op := by
  constructor
  · rintro ⟨returns, steps⟩
    have once := ok.once
    unfold ExactlyOnce at once steps
    cases op with
    | read d =>
      intro starts
      by_contra waiting
      have waits := @held_waiting S wh _ starts.2.2.1 (by simpa using waiting)
      rcases @read_history S wh _ ok.coherent d with ⟨same, -⟩ | ⟨-, completed, -⟩
      · exact same starts
      · -- the waiting chunk is gone, and the one started in its place counts on both sides
        have balance := congrArg List.length (steps _ (.read s d))
        rw [once, waits, completed] at balance
        simp only [List.length_append, List.length_singleton] at balance
        omega
    | emit len =>
      intro emitted
      by_contra wide
      have fits := Nat.le_of_not_lt wide
      have complete := ok.coherent.complete emitted
      obtain ⟨e, returned⟩ := returns len rfl
      rcases @emit_history S wh _ ok.coherent len with
        ⟨_, -, -, -, nothing⟩ | ⟨e', returns', success, -, -, -, same⟩ | ⟨aborted, -⟩
      · obtain ⟨isBig, nothing⟩ := nothing complete fits
        exact ok.again emitted isBig nothing
      · have balance := congrArg List.length (steps _ (.emit s len e' returns'))
        rw [once, if_pos success, held_emitted emitted, held_emitted (by rw [same])] at balance
        simp only [List.length_append, List.length_singleton, List.length_nil] at balance
        omega
      · rw [returned] at aborted
        cases aborted
  · intro inOrder
    refine ⟨?_, fun s' step => (ok.step inOrder step).once⟩
    rintro len rfl
    rcases @emit_history S wh _ ok.coherent len with
      ⟨e, returns, -⟩ | ⟨e, returns, -⟩ | ⟨-, fits, emitted⟩
    · exact ⟨e, returns⟩
    · exact ⟨e, returns⟩
    · exact absurd (inOrder emitted) (Nat.not_lt.mpr fits)

variable (wh) in
/-- Along any calls in any order, every completed chunk is handed over once, but for the last one
while it waits, and no check fails, just when the calls are in order. -/
theorem handedOver_iff (ops : List DecOp) :
    Along (CallStep wh) Ledger.new ops (HandedOver wh) ↔
      Along (CallStep wh) Ledger.new ops fun s op => InOrder s.dec op := by
  refine along_iff (fun _ => True) (fun before s op run _ _ => ?_) ops fun _ _ => trivial
  have ok := run.invariant (fun _ s => s.Ok wh) ledger_new
    fun _ _ _ _ ok step => ok.step step.2 step.1
  exact ok.handedOver op

end

section OutOfOrder

/-- A chunk of one octet in one packet. -/
def singlePacket (num : UInt64) (octet : UInt8) : Datagram :=
  .zeroed (hgapWriteHeader ⟨num, 1, 0, 1⟩ ++ [octet])

/-- A decoder that holds the first such chunk, and has emitted it or not. -/
def octetHeld (emitted : Bool) : HgapDecoder RepetitionCode.State :=
  ⟨⟨0, 1, 25, 1, none, some [7], 0⟩, true, emitted, .tData⟩

private theorem octet_completed :
    Steps (CallStep RepetitionCode.code) .new [.read .begin_, .read (singlePacket 0 7)]
      ⟨octetHeld false, [(0, some [7])], []⟩ := by
  have begun : CallStep RepetitionCode.code .new (.read .begin_) _ := .read _ _
  have run := (Steps.one begun).snoc (.read _ (singlePacket 0 7))
  have dec : (hgapDecoderRead RepetitionCode.code
      (hgapDecoderRead RepetitionCode.code hgapDecoderNew .begin_).dec (singlePacket 0 7)).dec =
      octetHeld false := by
    decide +kernel
  have first : completion RepetitionCode.code hgapDecoderNew .begin_ = [] := by decide +kernel
  have second : completion RepetitionCode.code
      (hgapDecoderRead RepetitionCode.code hgapDecoderNew .begin_).dec (singlePacket 0 7) =
      [(0, some [7])] := by
    decide +kernel
  simp only [Ledger.new, dec, first, second] at run
  exact run

/-- An emit before any read ends the process, a second emit writes the chunk again, and the packet
of another chunk overwrites one that waits. -/
theorem outOfOrder_fails :
    hgapDecoderEmit RepetitionCode.code hgapDecoderNew 0 = none ∧
    Steps (CallStep RepetitionCode.code) .new
      [.read .begin_, .read (singlePacket 0 7), .emit 1, .emit 1]
      ⟨octetHeld true, [(0, some [7])], [(0, some [7]), (0, some [7])]⟩ ∧
    (∃ dec, Steps (CallStep RepetitionCode.code) .new
        [.read .begin_, .read (singlePacket 0 7), .read (singlePacket 1 8)]
        ⟨dec, [(0, some [7]), (1, some [8])], []⟩ ∧ dec.chunk.num = 1 ∧ dec.chunk.data = some [8]) ∧
    ¬ Along (CallStep RepetitionCode.code) .new [.emit 0] (HandedOver RepetitionCode.code) := by
  refine ⟨by decide, ?_, ?_, fun handedOver => ?_⟩
  · exact (octet_completed.snoc (.emit _ 1 ⟨.success, octetHeld true, [7]⟩ rfl)).snoc
      (.emit _ 1 ⟨.success, octetHeld true, [7]⟩ rfl)
  · have second : CallStep RepetitionCode.code ⟨octetHeld false, [(0, some [7])], []⟩
        (.read (singlePacket 1 8)) _ := .read _ _
    have completed : completion RepetitionCode.code (octetHeld false) (singlePacket 1 8) =
        [(1, some [8])] := by
      decide +kernel
    simp only [completed] at second
    exact ⟨_, octet_completed.snoc second, by decide +kernel, by decide +kernel⟩
  · obtain ⟨e, returns⟩ := (handedOver [] (.emit 0) [] _ rfl (.nil _)).1 0 rfl
    cases returns

end OutOfOrder

end Hairgap.Guarantees
