import Hairgap.Guarantees.EndOfTransfer
import Mathlib.Logic.Relation

/-!
# Datagrams that leave the decoder alone

A control packet only moves the protocol state, and most of them not even that. What does not
move it can be put in or left out.
-/
namespace Hairgap.Guarantees
open Hairgap.Base Hairgap.Source

/-- How the read/emit loop ends: behind the last datagram, or on a result of the read that it
does not continue on, with the value `decloop` returns for it. -/
inductive LoopEnd where
  | moreData
  | left (ret retval : Int)
  deriving DecidableEq, Repr

/-- A datagram that changes nothing where it stands. -/
inductive IsNoise (before : List Datagram) (d : Datagram) : Prop
  | short (length : d.bytes.length < hgapHeaderLen)
  | silent (type : hgapPktType d = .keepalive ∨ hgapPktType d = .unknown)
  | again (type : hgapPktType d = .begin_) (begun : .begin_ ∈ before.map hgapPktType)
  | early (type : hgapPktType d ≠ .begin_) (new : .begin_ ∉ before.map hgapPktType)

/-- One datagram of noise more. -/
def Inserted (ds ds' : List Datagram) : Prop :=
  ∃ before d after, ds = before ++ after ∧ ds' = before ++ d :: after ∧ IsNoise before d

section
variable {S : Type} (wh : Wirehair S)

/-- The documented loop: its end, and the chunks it wrote. -/
def readEmitLoop (dec : HgapDecoder S) : List Datagram → Option (LoopEnd × List OutChunk)
  | [] => some (.moreData, [])
  | d :: rest =>
    match readEmit wh dec d with
    | none => none
    | some turn =>
      match turn.leaves with
      | some retval => some (.left turn.ret retval, turn.out.toList)
      | none => (readEmitLoop turn.dec rest).map fun (last, outs) => (last, turn.out.toList ++ outs)

/-- What `decloop` returns at an end. -/
def LoopEnd.retval : LoopEnd → Int
  | .moreData => Hgap.success.code
  | .left _ retval => retval

theorem decloop_readEmitLoop (dec : HgapDecoder S) (ds : List Datagram) :
    decloop wh dec ds =
      (readEmitLoop wh dec ds).map fun (last, outs) => (last.retval, outs) := by
  induction ds generalizing dec with
  | nil => rfl
  | cons d rest ih =>
    rw [decloop, readEmitLoop]
    cases readEmit wh dec d with
    | none => rfl
    | some turn =>
      cases leaves : turn.leaves with
      | some retval => simp only [leaves]; rfl
      | none =>
        simp only [leaves, ih, Option.map_map]
        rfl

theorem readEmitLoop_returns (ds : List Datagram) :
    ∃ result, readEmitLoop wh hgapDecoderNew ds = some result := by
  obtain ⟨retval, outs, returns⟩ := decloop_returns wh coherent_new ds
  rw [decloop_readEmitLoop] at returns
  obtain ⟨result, loop, -⟩ := Option.map_eq_some_iff.mp returns
  exact ⟨result, loop⟩

variable {wh}

/-- Noise does not move the protocol state, and is not data inside a transfer. -/
theorem IsNoise.idle {before : List Datagram} {d : Datagram} (noise : IsNoise before d)
    {dec : HgapDecoder S} (state : dec.state = stateAfter (before.map hgapPktType)) :
    dec.state.next (hgapPktType d) = dec.state ∧ ¬ Handles dec d := by
  have new := (stateAfter_spec (before.map hgapPktType)).1
  rw [← state] at new
  have silent (type : hgapPktType d = .keepalive ∨ hgapPktType d = .unknown) :
      dec.state.next (hgapPktType d) = dec.state ∧ ¬ Handles dec d := by
    refine ⟨?_, fun handles => ?_⟩
    · rcases type with type | type <;> rw [type] <;> cases dec.state <;> rfl
    · rcases type with type | type <;> rw [handles.1] at type <;> cases type
  cases noise with
  | short length => exact silent (.inr (by rw [hgapPktType, if_pos length]))
  | silent type => exact silent type
  | again type begun =>
    have begun : dec.state ≠ .tNew := fun still => new.mp still begun
    refine ⟨?_, fun handles => ?_⟩
    · rw [type]
      cases started : dec.state with
      | tNew => exact absurd started begun
      | tStarted | tData | tStopped => rfl
    · rw [handles.1] at type
      cases type
  | early type before =>
    have still := new.mpr before
    refine ⟨?_, fun handles => ?_⟩
    · rw [still]
      cases kind : hgapPktType d with
      | begin_ => exact absurd kind type
      | data | end_ | keepalive | unknown => rfl
    · rcases handles.2 with inside | inside <;> rw [still] at inside <;> cases inside

/-- A turn on noise. -/
theorem IsNoise.readEmit {before : List Datagram} {d : Datagram} (noise : IsNoise before d)
    {dec : HgapDecoder S} (state : dec.state = stateAfter (before.map hgapPktType))
    (running : dec.state ≠ .tStopped) : readEmit wh dec d = some ⟨0, none, none, dec⟩ := by
  obtain ⟨same, outside⟩ := noise.idle state
  have read : hgapDecoderRead wh dec d = ⟨0, dec, 0⟩ := by
    rw [read_idle wh dec d outside, same, if_neg running]
  rw [Source.readEmit, read]
  rfl

/-- The loop on either side of an insertion, from any point before it. -/
theorem readEmitLoop_insert {d : Datagram} {after : List Datagram} (passed before : List Datagram)
    (noise : IsNoise (passed ++ before) d) {dec : HgapDecoder S}
    (state : dec.state = stateAfter (passed.map hgapPktType)) (running : dec.state ≠ .tStopped) :
    readEmitLoop wh dec (before ++ d :: after) = readEmitLoop wh dec (before ++ after) := by
  induction before generalizing passed dec with
  | nil =>
    rw [List.append_nil] at noise
    have turn : readEmit wh dec d = _ := noise.readEmit state running
    have goes : Turn.leaves (S := S) ⟨0, none, none, dec⟩ = none := rfl
    simp only [List.nil_append, readEmitLoop, turn, goes, Option.toList_none]
    cases readEmitLoop wh dec after with
    | none => rfl
    | some result => rfl
  | cons b before ih =>
    rw [List.cons_append, List.cons_append, readEmitLoop, readEmitLoop]
    cases read : readEmit wh dec b with
    | none => rfl
    | some turn =>
      cases goes : turn.leaves with
      | some retval => simp only [goes]
      | none =>
        have turns : LoopTurn wh dec (b, turn.out) turn.dec := ⟨turn, read, goes, rfl, rfl⟩
        have state' : turn.dec.state = stateAfter ((passed ++ [b]).map hgapPktType) := by
          rw [turn_state wh turns.readEmit, state, List.map_append, List.map_singleton,
            stateAfter_snoc]
        have rest := ih (passed ++ [b]) (by simpa using noise) state' (turn_running wh turns)
        simp only [goes, rest]

/-- Sequences of datagrams that differ in noise only have the same chunks written and end the
loop in the same way. -/
theorem controlNoise_ignored {ds ds' : List Datagram} (noise : Relation.EqvGen Inserted ds ds') :
    ∃ result, readEmitLoop wh hgapDecoderNew ds = some result ∧
      readEmitLoop wh hgapDecoderNew ds' = some result := by
  have same : readEmitLoop wh hgapDecoderNew ds = readEmitLoop wh hgapDecoderNew ds' := by
    induction noise with
    | rel ds ds' inserted =>
      obtain ⟨before, d, after, rfl, rfl, noise⟩ := inserted
      have running : (hgapDecoderNew (S := S)).state ≠ .tStopped := nofun
      exact (readEmitLoop_insert [] before noise rfl running).symm
    | refl ds => rfl
    | symm ds ds' _ ih => exact ih.symm
    | trans ds mid ds' _ _ first second => exact first.trans second
  obtain ⟨result, loop⟩ := readEmitLoop_returns wh ds
  exact ⟨result, loop, same ▸ loop⟩

end

section HalfAssembled

/-- A block of one octet of chunk 0, which has two. -/
private def half (ident : UInt32) (octet : UInt8) : Datagram :=
  .zeroed (hgapWriteHeader ⟨0, 2, ident, 1⟩ ++ [octet])

private def stillThere : Datagram := .zeroed (hgapWriteHeader hgapHeaderKeepalive)

/-- A reserved number without a meaning. -/
private def reserved : Datagram := .zeroed (hgapWriteHeader ⟨hgapFirstReserved, 2, 1, 1⟩ ++ [9])

/-- An END packet and data before the first BEGIN, and noise of every other kind between the two
blocks of a chunk, which comes out all the same. -/
theorem controlNoise_ignored_half :
    readEmitLoop RepetitionCode.code hgapDecoderNew [.begin_, half 0 7, half 1 8, .end_] =
        some (.left (-Hgap.eot.code) Hgap.success.code, [⟨0, [7, 8]⟩]) ∧
      readEmitLoop RepetitionCode.code hgapDecoderNew
        [.end_, half 0 9, .begin_, half 0 7, .zeroed [1, 2, 3], stillThere, reserved, .begin_,
          half 1 8, .end_] = some (.left (-Hgap.eot.code) Hgap.success.code, [⟨0, [7, 8]⟩]) := by
  have ended : Inserted [.begin_, half 0 7, half 1 8, .end_]
      [.end_, .begin_, half 0 7, half 1 8, .end_] :=
    ⟨[], _, _, rfl, rfl, .early (by decide) (by decide)⟩
  have data : Inserted [.end_, .begin_, half 0 7, half 1 8, .end_]
      [.end_, half 0 9, .begin_, half 0 7, half 1 8, .end_] :=
    ⟨[.end_], _, _, rfl, rfl, .early (by decide) (by decide)⟩
  have short : Inserted [.end_, half 0 9, .begin_, half 0 7, half 1 8, .end_]
      [.end_, half 0 9, .begin_, half 0 7, .zeroed [1, 2, 3], half 1 8, .end_] :=
    ⟨[.end_, half 0 9, .begin_, half 0 7], _, _, rfl, rfl, .short (by decide)⟩
  have alive : Inserted [.end_, half 0 9, .begin_, half 0 7, .zeroed [1, 2, 3], half 1 8, .end_]
      [.end_, half 0 9, .begin_, half 0 7, .zeroed [1, 2, 3], stillThere, half 1 8, .end_] :=
    ⟨[.end_, half 0 9, .begin_, half 0 7, .zeroed [1, 2, 3]], _, _, rfl, rfl,
      .silent (.inl (by decide))⟩
  have unknown : Inserted
      [.end_, half 0 9, .begin_, half 0 7, .zeroed [1, 2, 3], stillThere, half 1 8, .end_]
      [.end_, half 0 9, .begin_, half 0 7, .zeroed [1, 2, 3], stillThere, reserved, half 1 8, .end_] :=
    ⟨[.end_, half 0 9, .begin_, half 0 7, .zeroed [1, 2, 3], stillThere], _, _, rfl, rfl,
      .silent (.inr (by decide))⟩
  have again : Inserted
      [.end_, half 0 9, .begin_, half 0 7, .zeroed [1, 2, 3], stillThere, reserved, half 1 8, .end_]
      [.end_, half 0 9, .begin_, half 0 7, .zeroed [1, 2, 3], stillThere, reserved, .begin_,
        half 1 8, .end_] :=
    ⟨[.end_, half 0 9, .begin_, half 0 7, .zeroed [1, 2, 3], stillThere, reserved], _, _, rfl, rfl,
      .again (by decide) (by decide)⟩
  obtain ⟨result, plain, noisy⟩ := @controlNoise_ignored _ RepetitionCode.code _ _
    (.trans _ _ _ (.trans _ _ _ (.trans _ _ _ (.rel _ _ ended) (.rel _ _ data)) (.rel _ _ short))
      (.trans _ _ _ (.trans _ _ _ (.rel _ _ alive) (.rel _ _ unknown)) (.rel _ _ again)))
  have out : readEmitLoop RepetitionCode.code hgapDecoderNew
      [.begin_, half 0 7, half 1 8, .end_] =
        some (.left (-Hgap.eot.code) Hgap.success.code, [⟨0, [7, 8]⟩]) := by
    decide +kernel
  obtain rfl := Option.some.inj (plain.symm.trans out)
  exact ⟨plain, noisy⟩

end HalfAssembled

end Hairgap.Guarantees
