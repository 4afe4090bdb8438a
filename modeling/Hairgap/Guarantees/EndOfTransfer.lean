import Hairgap.Guarantees.DecoderInvariant
import Hairgap.Source.RepetitionCode
import Mathlib.Data.List.Induction

/-!
# Where a transfer ends

The protocol state of a decoder depends on the types of the datagrams it has read, and on
nothing else. The value that reports the end shares the result of `hgap_decoder_read` with
the errors of its helpers, and one of these has the same value.
-/
namespace Hairgap.Guarantees
open Hairgap.Base Hairgap.Source

/-- A BEGIN packet and, after it, an END packet. -/
def Ended (ds : List Datagram) : Prop :=
  List.Sublist [.begin_, .end_] (ds.map hgapPktType)

instance (ds : List Datagram) : Decidable (Ended ds) := by
  unfold Ended
  infer_instance

/-- Protocol state behind a sequence of types. -/
def stateAfter (types : List HgapPktT) : HgapDecoderState :=
  types.foldl HgapDecoderState.next .tNew

theorem stateAfter_snoc (types : List HgapPktT) (type : HgapPktT) :
    stateAfter (types ++ [type]) = (stateAfter types).next type := by
  simp [stateAfter]

private theorem pair_sublist_snoc {α : Type} (a b x : α) (l : List α) :
    List.Sublist [a, b] (l ++ [x]) ↔ List.Sublist [a, b] l ∨ (a ∈ l ∧ x = b) := by
  constructor
  · intro h
    obtain ⟨l₁, l₂, hl, h₁, h₂⟩ := List.sublist_append_iff.mp h
    rcases List.sublist_cons_iff.mp h₂ with none | ⟨r, rfl, rest⟩
    · left
      rw [hl, List.sublist_nil.mp none, List.append_nil]
      exact h₁
    · right
      obtain rfl := List.sublist_nil.mp rest
      have split : [a] ++ [b] = l₁ ++ [x] := hl
      obtain ⟨rfl, hx⟩ := List.append_inj' split rfl
      exact ⟨List.singleton_sublist.mp h₁, (List.singleton_inj.mp hx).symm⟩
  · rintro (h | ⟨h, rfl⟩)
    · exact h.trans (List.sublist_append_left l [x])
    · exact (List.singleton_sublist.mpr h).append (List.Sublist.refl [x])

theorem stateAfter_spec (types : List HgapPktT) :
    (stateAfter types = .tNew ↔ .begin_ ∉ types) ∧
      (stateAfter types = .tStopped ↔ List.Sublist [.begin_, .end_] types) := by
  induction types using List.reverseRecOn with
  | nil => simp [stateAfter]
  | append_singleton types type ih =>
    obtain ⟨new, stopped⟩ := ih
    rw [stateAfter_snoc, pair_sublist_snoc, ← stopped, List.mem_append, List.mem_singleton]
    have begun : .begin_ ∈ types ↔ stateAfter types ≠ .tNew := by
      rw [Ne, new, not_not]
    rw [begun]
    cases stateAfter types <;> cases type <;> simp [HgapDecoderState.next]

section
variable {S : Type} (wh : Wirehair S)

theorem read_state (dec : HgapDecoder S) (d : Datagram) :
    (hgapDecoderRead wh dec d).dec.state = dec.state.next (hgapPktType d) := by
  have case := readCase wh dec d
  have running (handles : Handles dec d) : dec.state.next (hgapPktType d) = .tData := by
    obtain ⟨data, h⟩ := handles
    rcases h with h | h <;> rw [data, h] <;> rfl
  generalize hgapDecoderRead wh dec d = r at case
  cases case with
  | idle => rfl
  | handled handles r case =>
    rw [running handles]
    cases case with
    | foreign | oversized | settled => rfl
    | absorbed w working =>
      cases working with
      | fresh => rfl
      | more => rfl

theorem emit_state (dec : HgapDecoder S) (len : Nat) (e : EmitResult S)
    (returns : hgapDecoderEmit wh dec len = some e) : e.dec.state = dec.state := by
  have case := emitCase wh dec len
  rw [returns] at case
  cases case <;> rfl

/-- The protocol state after any calls is a function of the types read. -/
theorem state_run {ops : List DecOp} {dec : HgapDecoder S}
    (run : Steps (DecStep wh) hgapDecoderNew ops dec) :
    dec.state = stateAfter ((reads ops).map hgapPktType) := by
  refine run.invariant (fun ops dec => dec.state = stateAfter ((reads ops).map hgapPktType)) rfl ?_
  intro ops dec op dec' state step
  cases step with
  | read d => rw [read_state, state, reads_append, reads_read, List.map_append,
      List.map_singleton, stateAfter_snoc]
  | emit len e returns => rw [emit_state wh dec len e returns, state, reads_append, reads_emit,
      List.append_nil]

theorem stopped_iff {ops : List DecOp} {dec : HgapDecoder S}
    (run : Steps (DecStep wh) hgapDecoderNew ops dec) :
    dec.state = .tStopped ↔ Ended (reads ops) := by
  rw [state_run wh run]
  exact (stateAfter_spec _).2

end

section
variable {S : Type} (wh : Wirehair S)

/-- The failures of `hgap_decoder_read`, in source order. -/
inductive Fails (dec : HgapDecoder S) (d : Datagram) : Prop
  | incompleteChunk (handles : Handles dec d) (other : d.pkt.hdr.chunkNum ≠ dec.chunk.num)
      (incomplete : dec.chunkComplete = false)
  | badChunk (handles : Handles dec d) (other : d.pkt.hdr.chunkNum ≠ dec.chunk.num)
      (complete : dec.chunkComplete = true)
      (size : hgapMaxChunkSize < d.pkt.hdr.chunkSize.toNat)
  | decodeFailed (handles : Handles dec d) (other : d.pkt.hdr.chunkNum ≠ dec.chunk.num)
      (complete : dec.chunkComplete = true)
      (size : d.pkt.hdr.chunkSize.toNat ≤ hgapMaxChunkSize)
      (big : d.pkt.hdr.dataSize.toNat < d.pkt.hdr.chunkSize.toNat)
      (refused : wh.decode dec.chunk.whState d.pkt.hdr.chunkSize.toNat
        d.pkt.hdr.dataSize.toNat = none)
  | noState (handles : Handles dec d) (same : d.pkt.hdr.chunkNum = dec.chunk.num)
      (incomplete : dec.chunkComplete = false) (absent : dec.chunk.data = none)
      (isBig : hgapEncChunkIsSmall dec.chunk = false) (missing : dec.chunk.whState = none)

/-- The datagram does not start a chunk whose dimensions `wirehair_decode` refuses. -/
def Startable (dec : HgapDecoder S) : DecOp → Prop
  | .read d => Handles dec d → d.pkt.hdr.chunkNum ≠ dec.chunk.num → dec.chunkComplete = true →
      d.pkt.hdr.chunkSize.toNat ≤ hgapMaxChunkSize →
      d.pkt.hdr.dataSize.toNat < d.pkt.hdr.chunkSize.toNat →
      (wh.decode dec.chunk.whState d.pkt.hdr.chunkSize.toNat d.pkt.hdr.dataSize.toNat).isSome
  | .emit _ => True

/-- A chunk under reconstruction has a codec state. -/
def Backed (dec : HgapDecoder S) : Prop :=
  dec.chunkComplete = false → hgapEncChunkIsSmall dec.chunk = false →
    dec.chunk.whState.isSome

theorem Backed.incorporate {w : HgapDecoder S} (backed : Backed w)
    (incomplete : w.chunkComplete = false) (pkt : HgapPkt) :
    Backed (hgapDecoderIncorporate wh w pkt).dec := by
  have absorb := absorbCase wh w pkt incomplete
  generalize hgapDecoderIncorporate wh w pkt = r at absorb
  cases absorb with
  | held => exact fun _ isBig => backed incomplete isBig
  | small absent isSmall =>
    intro _ isBig
    have isBig : hgapEncChunkIsSmall w.chunk = false := isBig
    rw [isSmall] at isBig
    cases isBig
  | lost => exact fun _ isBig => backed incomplete isBig
  | fed => exact fun _ _ => rfl

/-- The decoder about to take in a packet has a codec state if it needs one. -/
theorem Backed.working {dec w : HgapDecoder S} {d : Datagram} (backed : Backed dec)
    (startable : Startable wh dec (.read d)) (handles : Handles dec d)
    (working : Working wh dec d.pkt w) : Backed w := by
  cases working with
  | fresh other complete size =>
    intro _ isBig
    have big : d.pkt.hdr.dataSize.toNat < d.pkt.hdr.chunkSize.toNat := by
      rw [startedChunk_isSmall] at isBig
      exact Nat.lt_of_not_le (of_decide_eq_false isBig)
    dsimp only
    rw [startedChunk_whState wh dec d.pkt big]
    exact startable handles other complete size big
  | more => exact backed

theorem Backed.step {dec dec' : HgapDecoder S} {op : DecOp} (backed : Backed dec)
    (startable : Startable wh dec op) (step : DecStep wh dec op dec') : Backed dec' := by
  cases step with
  | read d =>
    have case := readCase wh dec d
    generalize hgapDecoderRead wh dec d = r at case
    cases case with
    | idle => exact backed
    | handled handles r case =>
      cases case with
      | foreign | oversized | settled => exact backed
      | absorbed w working =>
        exact (backed.working wh startable handles working).incorporate wh working.incomplete _
  | emit len e returns =>
    have case := emitCase wh dec len
    rw [returns] at case
    cases case <;> exact backed

theorem backed_run {ops : List DecOp} {dec : HgapDecoder S}
    (run : Steps (Guarded (Startable wh) (DecStep wh)) hgapDecoderNew ops dec) : Backed dec := by
  refine run.invariant (fun _ dec => Backed dec) ?_ ?_
  · intro incomplete
    cases incomplete
  · exact fun _ _ _ _ backed step => backed.step wh step.2 step.1

/-- Result of taking a packet into a chunk that has the codec state it needs. -/
theorem incorporate_ret {w : HgapDecoder S} (backed : Backed w)
    (incomplete : w.chunkComplete = false) (pkt : HgapPkt) :
    0 ≤ (hgapDecoderIncorporate wh w pkt).ret := by
  have absorb := absorbCase wh w pkt incomplete
  generalize hgapDecoderIncorporate wh w pkt = r at absorb
  cases absorb with
  | held => exact Int.natCast_nonneg _
  | small => exact Int.natCast_nonneg _
  | lost _ isBig missing =>
    have hasState := backed incomplete isBig
    rw [missing] at hasState
    cases hasState
  | fed _ _ _ _ _ ready => cases ready <;> simp

private theorem refused_lost (dec : HgapDecoder S) (pkt : HgapPkt)
    (big : pkt.hdr.dataSize.toNat < pkt.hdr.chunkSize.toNat)
    (refused : wh.decode dec.chunk.whState pkt.hdr.chunkSize.toNat
      pkt.hdr.dataSize.toNat = none) :
    (hgapDecoderIncorporate wh ⟨startedChunk wh dec pkt, false, false, .tData⟩ pkt).ret =
        -Hgap.eot.code ∧
      (hgapDecoderIncorporate wh ⟨startedChunk wh dec pkt, false, false, .tData⟩ pkt).dec.state =
        .tData := by
  have isBig : hgapEncChunkIsSmall (startedChunk wh dec pkt) = false := by
    rw [startedChunk_isSmall]
    exact decide_eq_false (Nat.not_le.mpr big)
  have noState : (startedChunk wh dec pkt).whState = none := by
    rw [startedChunk_whState wh dec pkt big, refused]
  have absorb := absorbCase wh ⟨startedChunk wh dec pkt, false, false, .tData⟩ pkt rfl
  generalize hgapDecoderIncorporate wh _ pkt = r at absorb
  cases absorb with
  | held data present =>
    have absent := startedChunk_data wh dec pkt
    rw [present] at absent
    cases absent
  | small _ isSmall =>
    rw [isBig] at isSmall
    cases isSmall
  | lost => exact ⟨rfl, rfl⟩
  | fed _ _ state hasState =>
    rw [noState] at hasState
    cases hasState

/-- A chunk that `wirehair_decode` refuses is reported with the code of the end. -/
theorem read_refused (dec : HgapDecoder S) (d : Datagram)
    (refused : ¬ Startable wh dec (.read d)) :
    (hgapDecoderRead wh dec d).ret = -Hgap.eot.code ∧
      (hgapDecoderRead wh dec d).dec.state = .tData := by
  simp only [Startable, not_forall, Option.not_isSome_iff_eq_none] at refused
  obtain ⟨handles, other, complete, size, big, refused⟩ := refused
  have case := readCase wh dec d
  generalize hgapDecoderRead wh dec d = r at case
  cases case with
  | idle idle => exact absurd handles idle
  | handled _ r case =>
    cases case with
    | foreign _ incomplete => simp [complete] at incomplete
    | oversized _ _ oversized => omega
    | settled same => exact absurd same other
    | absorbed w working =>
      cases working with
      | more same => exact absurd same other
      | fresh => exact refused_lost wh dec d.pkt big refused

private theorem handled_honest {dec : HgapDecoder S} {d : Datagram} (backed : Backed dec)
    (handles : Handles dec d) (startable : Startable wh dec (.read d)) {r : ReadResult S}
    (case : HandleCase wh dec d.pkt r) :
    (r.ret = -Hgap.eot.code ↔ r.dec.state = .tStopped) ∧
      (Fails wh dec d → r.ret ≠ -Hgap.eot.code ∧ r.ret ≠ 0) := by
  cases case with
  | foreign => simp [Hgap.code]
  | oversized => simp [Hgap.code]
  | settled same complete =>
    refine ⟨?_, ?_⟩
    · cases dec.chunkEmitted <;> simp [Hgap.code]
    · intro fails
      cases fails with
      | incompleteChunk _ other => exact absurd same other
      | badChunk _ other => exact absurd same other
      | decodeFailed _ other => exact absurd same other
      | noState _ _ incomplete => simp [complete] at incomplete
  | absorbed w working =>
    have hret := incorporate_ret wh (backed.working wh startable handles working)
      working.incomplete d.pkt
    have hstate : (hgapDecoderIncorporate wh w d.pkt).dec.state = .tData := by
      cases working <;> rfl
    refine ⟨?_, ?_⟩
    · rw [hstate]
      simp [Hgap.code]
      omega
    · intro fails
      cases working with
      | fresh other complete size =>
        cases fails with
        | incompleteChunk _ _ incomplete => simp [complete] at incomplete
        | badChunk _ _ _ oversized => omega
        | decodeFailed _ _ _ _ big refused =>
          have started := startable handles other complete size big
          simp [refused] at started
        | noState _ same => exact absurd same other
      | more same incomplete =>
        cases fails with
        | incompleteChunk _ other => exact absurd same other
        | badChunk _ other => exact absurd same other
        | decodeFailed _ other => exact absurd same other
        | noState _ _ _ _ isBig missing =>
          have hasState := backed incomplete isBig
          simp [missing] at hasState

/-- In a reachable state with its codec behind it, a read tells the end of the transfer
from its failures exactly when it does not start a chunk that is refused. -/
theorem read_honest_iff {dec : HgapDecoder S} (backed : Backed dec) (d : Datagram) :
    (((hgapDecoderRead wh dec d).ret = -Hgap.eot.code ↔
        (hgapDecoderRead wh dec d).dec.state = .tStopped) ∧
      (Fails wh dec d → (hgapDecoderRead wh dec d).ret ≠ -Hgap.eot.code ∧
        (hgapDecoderRead wh dec d).ret ≠ 0)) ↔ Startable wh dec (.read d) := by
  constructor
  · intro honest
    by_contra refused
    obtain ⟨hret, hstate⟩ := read_refused wh dec d refused
    rw [honest.1.mp hret] at hstate
    cases hstate
  · intro startable
    have case := readCase wh dec d
    generalize hgapDecoderRead wh dec d = r at case
    cases case with
    | idle idle =>
      refine ⟨?_, ?_⟩
      · by_cases stopped : dec.state.next (hgapPktType d) = .tStopped
        · simp [stopped]
        · simp [stopped, Hgap.code]
      · intro fails
        cases fails <;> exact absurd ‹Handles dec d› idle
    | handled handles r case =>
      exact handled_honest wh backed handles startable case

/-- At every call of `hgap_decoder_read`: the end is reported exactly when it was read,
and no failure is reported as the end or as a request for more. -/
def EotHonest (ops : List DecOp) : Prop :=
  ∀ before d after dec, ops = before ++ .read d :: after →
    Steps (DecStep wh) hgapDecoderNew before dec →
      ((hgapDecoderRead wh dec d).ret = -Hgap.eot.code ↔ Ended (reads before ++ [d])) ∧
        (Fails wh dec d → (hgapDecoderRead wh dec d).ret ≠ -Hgap.eot.code ∧
          (hgapDecoderRead wh dec d).ret ≠ 0)

private theorem ended_snoc {ops : List DecOp} {dec : HgapDecoder S} (d : Datagram)
    (run : Steps (DecStep wh) hgapDecoderNew ops dec) :
    (hgapDecoderRead wh dec d).dec.state = .tStopped ↔ Ended (reads ops ++ [d]) := by
  have run := stopped_iff wh (run.snoc (.read dec d))
  rwa [reads_append, reads_read] at run

/-- Along any calls, the end is reported honestly exactly when every chunk that is started
can be. -/
theorem eotHonest_iff (ops : List DecOp) :
    EotHonest wh ops ↔ Along (DecStep wh) hgapDecoderNew ops (Startable wh) := by
  -- the history in the claim is the protocol state of the decoder
  let honest (dec : HgapDecoder S) : DecOp → Prop
    | .read d => ((hgapDecoderRead wh dec d).ret = -Hgap.eot.code ↔
          (hgapDecoderRead wh dec d).dec.state = .tStopped) ∧
        (Fails wh dec d → (hgapDecoderRead wh dec d).ret ≠ -Hgap.eot.code ∧
          (hgapDecoderRead wh dec d).ret ≠ 0)
    | .emit _ => True
  have history : EotHonest wh ops ↔ Along (DecStep wh) hgapDecoderNew ops honest := by
    constructor
    · intro h before op after dec split run
      cases op with
      | read d =>
        have := h before d after dec split run
        rwa [← ended_snoc wh d run] at this
      | emit => trivial
    · intro h before d after dec split run
      rw [← ended_snoc wh d run]
      exact h before (.read d) after dec split run
  rw [history]
  refine along_iff (fun _ => True) ?_ ops fun _ _ => trivial
  intro before dec op run _ _
  cases op with
  | read d => exact read_honest_iff wh (backed_run wh run) d
  | emit => exact Iff.rfl

/-- From the end on, every call reports the end. -/
theorem read_after_end {ops : List DecOp} {dec : HgapDecoder S}
    (run : Steps (DecStep wh) hgapDecoderNew ops dec) (ended : Ended (reads ops)) (d : Datagram) :
    (hgapDecoderRead wh dec d).ret = -Hgap.eot.code := by
  have stopped := (stopped_iff wh run).mpr ended
  have outside : ¬ Handles dec d := by
    rintro ⟨-, h | h⟩ <;> rw [stopped] at h <;> cases h
  rw [read_idle wh dec d outside, stopped]
  cases hgapPktType d <;> rfl

/-- A turn moves the protocol state by the type it reads. -/
theorem turn_state {dec dec' : HgapDecoder S} {label : Datagram × Option OutChunk}
    (turn : ReadEmit wh dec label dec') : dec'.state = dec.state.next (hgapPktType label.1) := by
  obtain ⟨t, read, -, rfl⟩ := turn
  cases turnCase wh dec label.1 t read with
  | quiet => exact read_state wh dec label.1
  | emits _ e returns => exact (emit_state wh _ _ e returns).trans (read_state wh dec label.1)

/-- A turn that does not leave the loop does not end the transfer. -/
theorem turn_running {dec dec' : HgapDecoder S} {label : Datagram × Option OutChunk}
    (turn : LoopTurn wh dec label dec') : dec'.state ≠ .tStopped := by
  have state := turn_state wh turn.readEmit
  obtain ⟨t, read, goes, -, rfl⟩ := turn
  intro stopped
  rw [state] at stopped
  have outside : ¬ Handles dec label.1 := by
    rintro ⟨data, inside | inside⟩ <;> rw [data, inside] at stopped <;> cases stopped
  have ended : t.ret = -Hgap.eot.code := by
    rw [(turnCase wh dec label.1 t read).ret, read_idle wh dec label.1 outside, if_pos stopped]
  rw [(leaves_success_iff t).mpr ended] at goes
  cases goes

/-- Every turn of `decloop` on these datagrams starts only chunks that can be started. -/
def TurnsStartable (ds : List Datagram) : Prop :=
  ∀ labels dec d rest, ds = labels.map Prod.fst ++ d :: rest →
    Steps (LoopTurn wh) hgapDecoderNew labels dec → Startable wh dec (.read d)

private theorem Backed.turn {dec dec' : HgapDecoder S} {label : Datagram × Option OutChunk}
    (backed : Backed dec) (startable : Startable wh dec (.read label.1))
    (turn : ReadEmit wh dec label dec') : Backed dec' := by
  obtain ⟨t, ht, -, rfl⟩ := turn
  have read := backed.step wh startable (.read dec label.1)
  cases turnCase wh dec label.1 t ht with
  | quiet => exact read
  | emits _ e returns =>
    have emit : Startable wh (hgapDecoderRead wh dec label.1).dec
      (.emit (hgapDecoderRead wh dec label.1).ret.toNat) := trivial
    exact read.step wh emit (.emit _ _ e returns)

/-- Then `decloop` succeeds only behind a real end of transfer, or at the poison pill of
the network reader. -/
theorem decloop_success {ds : List Datagram} {outs : List OutChunk}
    (startable : TurnsStartable wh ds)
    (success : decloop wh hgapDecoderNew ds = some (Hgap.success.code, outs)) :
    Ended ds ∨ ∃ labels dec, ds = labels.map Prod.fst ∧
      Steps (LoopTurn wh) hgapDecoderNew labels dec := by
  obtain ⟨labels, dec, run, ending⟩ := decloop_run hgapDecoderNew ds _ outs success
  rcases ending with ⟨hds, -, -⟩ | ⟨d, rest, turn, hds, hturn, leaves, -⟩
  · exact .inr ⟨labels, dec, hds, run⟩
  · left
    have guarded : Steps (Guarded (fun dec label => Startable wh dec (.read label.1))
        (LoopTurn wh)) hgapDecoderNew labels dec := by
      refine run.guard ?_
      intro before label after t split run
      exact startable before t label.1 (after.map Prod.fst ++ d :: rest) (by simp [hds, split]) run
    have backed : Backed dec := by
      refine guarded.invariant (fun _ dec => Backed dec) ?_ ?_
      · intro incomplete
        cases incomplete
      · exact fun _ _ _ _ backed step => backed.turn wh step.2 step.1.readEmit
    have honest := (read_honest_iff wh backed d).mpr (startable labels dec d rest hds run)
    obtain ⟨ops, hops, calls⟩ := readEmit_calls wh (run.mono fun _ _ _ turn => turn.readEmit)
    have hret : (hgapDecoderRead wh dec d).ret = -Hgap.eot.code := by
      rw [← (turnCase wh dec d turn hturn).ret]
      exact (leaves_success_iff turn).mp leaves
    have ended := (ended_snoc wh d calls).mp (honest.1.mp hret)
    have split : ds = (labels.map Prod.fst ++ [d]) ++ rest := by simp [hds]
    rw [hops] at ended
    rw [split, Ended, List.map_append]
    exact ended.trans (List.sublist_append_left _ _)

/-- The end is reported for an end of transfer only, from then on always, and `decloop`
succeeds on nothing else, exactly as long as no datagram starts a chunk whose dimensions
`wirehair_decode` refuses. -/
theorem endOfTransfer_reported :
    (∀ ops, EotHonest wh ops ↔ Along (DecStep wh) hgapDecoderNew ops (Startable wh)) ∧
    (∀ ops dec, Steps (DecStep wh) hgapDecoderNew ops dec → Ended (reads ops) →
      ∀ d, (hgapDecoderRead wh dec d).ret = -Hgap.eot.code) ∧
    ∀ ds outs, TurnsStartable wh ds →
      decloop wh hgapDecoderNew ds = some (Hgap.success.code, outs) →
      Ended ds ∨ ∃ labels dec, ds = labels.map Prod.fst ∧
        Steps (LoopTurn wh) hgapDecoderNew labels dec :=
  ⟨eotHonest_iff wh, fun _ _ => read_after_end wh, fun _ _ => decloop_success wh⟩

/-- A first data packet that announces 64001 blocks of one octet: one block too many. -/
def tooManyBlocks : Datagram := .zeroed (hgapWriteHeader ⟨0, 64001, 0, 1⟩ ++ [0])

/-- It makes `decloop` succeed without an END, by the value of the read. -/
theorem tooManyBlocks_endsTransfer :
    decloop RepetitionCode.code hgapDecoderNew [.begin_, tooManyBlocks] =
        some (Hgap.success.code, []) ∧
      ¬ Ended [.begin_, tooManyBlocks] ∧
      ¬ EotHonest RepetitionCode.code [.read .begin_, .read tooManyBlocks] := by
  have unended : ¬ Ended [.begin_, tooManyBlocks] := by decide +kernel
  refine ⟨by decide +kernel, unended, ?_⟩
  intro honest
  have run : Steps (DecStep RepetitionCode.code) hgapDecoderNew [.read .begin_] _ :=
    .one (.read hgapDecoderNew .begin_)
  have hret : (hgapDecoderRead RepetitionCode.code
      (hgapDecoderRead RepetitionCode.code hgapDecoderNew .begin_).dec tooManyBlocks).ret =
      -Hgap.eot.code := by decide +kernel
  exact unended ((honest [.read .begin_] tooManyBlocks [] _ rfl run).1.mp hret)

/-- The network reader, given these datagrams, leaves its loop on `e`. -/
def ReaderLeavesOn (before : List Datagram) (e : Datagram) (after : List Datagram) : Prop :=
  hgaprNetReader ((before ++ e :: after).map .datagram) =
    some (Hgap.success.code, before ++ [e])

/-- The decoder, fed the same datagrams with any emits in between, first enters its last
state on `e`. -/
def DecoderStopsOn (before : List Datagram) (e : Datagram) : Prop :=
  ∀ ops dec, Steps (DecStep wh) hgapDecoderNew ops dec →
    (reads ops = before → dec.state ≠ .tStopped) ∧
      (reads ops = before ++ [e] → dec.state = .tStopped)

/-- Every END comes after a BEGIN. -/
def Announced (ds : List Datagram) : Prop :=
  ∀ before e after, ds = before ++ e :: after → hgapPktType e = .end_ →
    .begin_ ∈ before.map hgapPktType

theorem readerLeavesOn_iff (before after : List Datagram) (e : Datagram) :
    ReaderLeavesOn before e after ↔
      hgapPktType e = .end_ ∧ .end_ ∉ before.map hgapPktType := by
  have split : (before ++ e :: after).map Recv.datagram =
      before.map .datagram ++ .datagram e :: after.map .datagram := by simp
  rw [ReaderLeavesOn, split]
  constructor
  · intro success
    obtain ⟨before', e', -, -, same, last, first⟩ := netReader_success _ _ success
    obtain ⟨rfl, he⟩ := List.append_inj' same rfl
    obtain rfl := List.singleton_inj.mp he
    exact ⟨last, first⟩
  · rintro ⟨last, first⟩
    exact netReader_stops before e _ last first

theorem reads_run (ds : List Datagram) :
    ∃ ops dec, Steps (DecStep wh) hgapDecoderNew ops dec ∧ reads ops = ds := by
  induction ds using List.reverseRecOn with
  | nil => exact ⟨[], _, .nil _, rfl⟩
  | append_singleton ds d ih =>
    obtain ⟨ops, dec, run, rfl⟩ := ih
    exact ⟨ops ++ [.read d], _, run.snoc (.read dec d), by simp⟩

theorem decoderStopsOn_iff (before : List Datagram) (e : Datagram) :
    DecoderStopsOn wh before e ↔ ¬ Ended before ∧
      (.begin_ ∈ before.map hgapPktType ∧ hgapPktType e = .end_) := by
  have ended : Ended (before ++ [e]) ↔
      Ended before ∨ (.begin_ ∈ before.map hgapPktType ∧ hgapPktType e = .end_) := by
    rw [Ended, List.map_append, List.map_singleton, pair_sublist_snoc]
    rfl
  constructor
  · intro stops
    obtain ⟨ops, dec, run, hops⟩ := reads_run wh before
    obtain ⟨ops', dec', run', hops'⟩ := reads_run wh (before ++ [e])
    have running : ¬ Ended before := by
      rw [← hops, ← stopped_iff wh run]
      exact (stops ops dec run).1 hops
    have stopped : Ended (before ++ [e]) := by
      rw [← hops', ← stopped_iff wh run']
      exact (stops ops' dec' run').2 hops'
    exact ⟨running, (ended.mp stopped).resolve_left running⟩
  · rintro ⟨running, last⟩ ops dec run
    rw [Ne, stopped_iff wh run]
    exact ⟨fun h => h ▸ running, fun h => h ▸ ended.mpr (.inr last)⟩

/-- The network reader and the decoder agree on where the transfer ends, and nothing that
arrives before any BEGIN ends it for either. -/
def AgreeOnEnd (ds : List Datagram) : Prop :=
  ∀ before e after, ds = before ++ e :: after →
    (ReaderLeavesOn before e after ↔ DecoderStopsOn wh before e) ∧
      (.begin_ ∉ (before ++ [e]).map hgapPktType →
        ¬ ReaderLeavesOn before e after ∧ ¬ DecoderStopsOn wh before e)

private theorem first_end (before : List Datagram) (e : Datagram) (last : hgapPktType e = .end_) :
    ∃ first x rest, before ++ [e] = first ++ x :: rest ∧ first <+: before ∧
      hgapPktType x = .end_ ∧ .end_ ∉ first.map hgapPktType := by
  induction before with
  | nil => exact ⟨[], e, [], rfl, List.prefix_refl _, last, by simp⟩
  | cons d before ih =>
    by_cases hd : hgapPktType d = .end_
    · exact ⟨[], d, before ++ [e], rfl, List.nil_prefix, hd, by simp⟩
    · obtain ⟨first, x, rest, split, inside, hx, none⟩ := ih
      refine ⟨d :: first, x, rest, by simp [split], List.cons_prefix_cons.mpr ⟨rfl, inside⟩, hx, ?_⟩
      rw [List.map_cons, List.mem_cons, not_or]
      exact ⟨fun h => hd h.symm, none⟩

private theorem not_ended (ds : List Datagram) (none : .end_ ∉ ds.map hgapPktType) : ¬ Ended ds :=
  fun ended => none (ended.subset (by simp))

/-- They agree exactly when every END comes after a BEGIN. -/
theorem agreeOnEnd_iff (ds : List Datagram) : AgreeOnEnd wh ds ↔ Announced ds := by
  constructor
  · intro agree before e after split last
    -- the first END is the one the reader leaves on
    obtain ⟨first, x, rest, hsplit, inside, hx, none⟩ := first_end before e last
    have split' : ds = first ++ x :: (rest ++ after) := by
      have : ds = (before ++ [e]) ++ after := by simp [split]
      rw [this, hsplit]
      simp
    have leaves := (readerLeavesOn_iff first (rest ++ after) x).mpr ⟨hx, none⟩
    have stops := ((agree first x (rest ++ after) split').1).mp leaves
    have begun := ((decoderStopsOn_iff wh first x).mp stops).2.1
    obtain ⟨tail, rfl⟩ := inside
    rw [List.map_append]
    exact List.mem_append_left _ begun
  · intro announced before e after split
    rw [readerLeavesOn_iff, decoderStopsOn_iff]
    refine ⟨⟨?_, ?_⟩, ?_⟩
    · rintro ⟨last, none⟩
      exact ⟨not_ended before none, announced before e after split last, last⟩
    · rintro ⟨running, begun, last⟩
      refine ⟨last, fun earlier => running ?_⟩
      obtain ⟨x, hx, htype⟩ := List.mem_map.mp earlier
      obtain ⟨pre, post, rfl⟩ := List.append_of_mem hx
      have begun := announced pre x (post ++ e :: after) (by simp [split]) htype
      rw [Ended, List.map_append, List.map_cons, htype]
      exact (List.singleton_sublist.mpr begun).append
        (List.singleton_sublist.mpr List.mem_cons_self)
    · intro none
      rw [List.map_append, List.mem_append, not_or] at none
      exact ⟨fun leaves => none.1 (announced before e after split leaves.1),
        fun stops => none.1 stops.2.1⟩

/-- The END of an earlier transfer, received before the BEGIN of the next, stops the
network reader and not the decoder. -/
theorem staleEnd_disagrees : ¬ AgreeOnEnd RepetitionCode.code [.end_, .begin_] := by
  intro agree
  have type : hgapPktType .end_ = .end_ := by decide +kernel
  have leaves := (readerLeavesOn_iff [] [.begin_] .end_).mpr ⟨type, by simp⟩
  have stops := ((agree [] .end_ [.begin_] rfl).1).mp leaves
  simpa using ((decoderStopsOn_iff _ [] .end_).mp stops).2.1

end

end Hairgap.Guarantees
