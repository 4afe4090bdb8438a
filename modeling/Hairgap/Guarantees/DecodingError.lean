import Hairgap.Guarantees.ReceiverProgress

/-!
# An error of the decoder

`decloop` poisons the packet channel when it gives up. The network reader learns of it from the
next call on the channel, and its loop takes only one of the two for an error.
-/
namespace Hairgap.Guarantees
open Hairgap.Base Hairgap.Source

/-- One of the `HGAP_ERR_*` codes. -/
def IsError (verdict : Int) : Prop :=
  ∃ error : Hgap, error ≠ .success ∧ error ≠ .eot ∧ verdict = error.code

theorem Hgap.code_injective : Function.Injective Hgap.code := by
  intro a b same
  cases a <;> cases b <;> first | rfl | simp [Hgap.code] at same

theorem isError_or_success {verdict : Hgap} (noEot : verdict ≠ .eot) :
    IsError verdict.code ∨ verdict.code = Hgap.success.code := by
  by_cases success : verdict = .success
  · exact .inr (congrArg _ success)
  · exact .inl ⟨verdict, success, noEot, rfl⟩

/-- An error is not lost among the verdicts of the threads. -/
theorem selectError_isError {e1 e2 : Int} (first : IsError e1 ∨ e1 = Hgap.success.code)
    (second : IsError e2 ∨ e2 = Hgap.success.code) (bad : IsError e1 ∨ IsError e2) :
    IsError (hgapSelectError e1 e2) := by
  unfold hgapSelectError
  split
  next success =>
    refine bad.resolve_left ?_
    rintro ⟨error, real, -, same⟩
    exact real (Hgap.code_injective (same.symm.trans success))
  next error =>
    have first := first.resolve_right error
    split
    · exact first
    next error =>
      split
      · exact first
      · exact second.resolve_right error

section
variable {S : Type} {wh : Wirehair S}

/-- The errors of `hgap_decoder_read`. -/
theorem read_error (dec : HgapDecoder S) (d : Datagram)
    (negative : (hgapDecoderRead wh dec d).ret < 0)
    (noEot : (hgapDecoderRead wh dec d).ret ≠ -Hgap.eot.code) :
    IsError (-(hgapDecoderRead wh dec d).ret) := by
  have case := readCase wh dec d
  generalize hgapDecoderRead wh dec d = r at case negative noEot
  cases case with
  | idle =>
    dsimp only at negative noEot
    split at negative
    next stopped => exact absurd (if_pos stopped) noEot
    next => exact absurd negative (Int.lt_irrefl 0)
  | handled handles r case =>
    cases case with
    | foreign | oversized => exact ⟨_, Hgap.noConfusion, Hgap.noConfusion, Int.neg_neg _⟩
    | settled =>
      dsimp only at negative
      split at negative <;> omega
    | absorbed w working =>
      have absorb := absorbCase wh w d.pkt working.incomplete
      generalize hgapDecoderIncorporate wh w d.pkt = r at absorb negative noEot
      cases absorb with
      | held | small =>
        dsimp only at negative
        omega
      | lost => exact absurd rfl noEot
      | fed =>
        dsimp only at negative
        split at negative <;> omega

/-- The verdicts of `hgap_decoder_emit`. -/
theorem emit_noEot (dec : HgapDecoder S) (len : Nat) (e : EmitResult S)
    (returns : hgapDecoderEmit wh dec len = some e) : e.ret ≠ .eot := by
  have case := emitCase wh dec len
  rw [returns] at case
  cases case <;> exact Hgap.noConfusion

theorem leaves_isError {dec : HgapDecoder S} {d : Datagram} {turn : Turn S} {retval : Int}
    (turns : readEmit wh dec d = some turn) (leaves : turn.leaves = some retval) :
    IsError retval ∨ retval = Hgap.success.code := by
  have case := turnCase wh dec d turn turns
  have ret := case.ret
  unfold Turn.leaves at leaves
  split at leaves
  · cases leaves
  · split at leaves
    · exact .inr (Option.some.inj leaves).symm
    next noEot =>
      split at leaves
      next negative =>
        rw [ret] at negative noEot leaves
        exact .inl (Option.some.inj leaves ▸ read_error dec d negative noEot)
      next =>
        cases case with
        | quiet => cases leaves
        | emits positive e returns =>
          have noEot := emit_noEot _ _ e returns
          dsimp only at leaves
          split at leaves
          · cases leaves
          next verdict failed same =>
            obtain rfl := Option.some.inj same
            obtain rfl := Option.some.inj leaves
            exact .inl ⟨e.ret, fun success => failed success, noEot, rfl⟩
          next none => cases none

/-- A decoder thread that does not succeed reports an error. -/
theorem decloop_isError (dec : HgapDecoder S) (ds : List Datagram) (retval : Int)
    (outs : List OutChunk) (returns : decloop wh dec ds = some (retval, outs)) :
    IsError retval ∨ retval = Hgap.success.code := by
  obtain ⟨labels, dec', -, ⟨-, success, -⟩ | ⟨d, rest, turn, -, turns, leaves, -⟩⟩ :=
    decloop_run dec ds retval outs returns
  · exact .inr success
  · exact leaves_isError turns leaves

end

section
variable {S : Type} {wh : Wirehair S} {pktCapacity chunkCapacity : Nat}
  {socket : Option (List Recv)} {events : List RecvEvent} {s : ReceiverState S}
  {net : Queue (Option Datagram)} {out : Queue (Option OutChunk)} {outs : List OutChunk}
  {reads : Nat} {retval : Int}

/-- `channel_poison` finds the network reader outside the reservation of its receive loop and the
index update in front of it, and wakes it up where it waits for room. -/
def Spares (s : ReceiverState S) : RecvEvent → Prop
  | .poisoned => boundToReserve s = false
  | .signalLost => False
  | _ => True

instance (s : ReceiverState S) : (event : RecvEvent) → Decidable (Spares s event)
  | .poisoned => inferInstanceAs (Decidable (boundToReserve s = false))
  | .signalLost => isFalse id
  | .quiet | .received _ | .decoded _ | .emitted _ | .wrote _ | .writeError => isTrue trivial

/-- The process runs, and the check of the network reader will not end it. -/
def Safe (s : ReceiverState S) : Prop :=
  s.exited = false ∧ ¬ (boundToReserve s = true ∧ s.net2dec.poisoned = true)

theorem Safe.move {event : RecvEvent} {s' : ReceiverState S} (safe : Safe s)
    (spares : Spares s event) (move : RecvMove s event s') : Safe s' := by
  obtain ⟨running, open_⟩ := safe
  refine ⟨Bool.eq_false_of_not_eq_true fun exits => ?_, fun ⟨reserving, poisoned⟩ => ?_⟩
  · rcases move.exits exits with exited | ⟨reserving, poisoned⟩
    · rw [running] at exited
      cases exited
    · exact open_ ⟨by rw [boundToReserve, reserving], poisoned⟩
  · obtain ⟨reserved, already | rfl⟩ := move.reserves reserving poisoned
    · exact open_ ⟨reserved, already⟩
    · exact Bool.false_ne_true (spares.symm.trans reserved)

/-- When `hgap_receive` returns, an error of its decoder thread is in the verdict. -/
theorem RecvOk.verdict (ok : RecvOk wh pktCapacity chunkCapacity socket events s net out)
    (whole : decloopReads wh hgapDecoderNew (datagrams socket) = some (reads, retval, outs))
    (error : IsError retval) (verdict : Int) (returned : s.reader = .returned verdict) :
    IsError verdict := by
  obtain ⟨ret, reader, writer, done, wrote, noEot, rfl⟩ := ok.returned verdict returned
  obtain ⟨given, -, -, ends⟩ := ok.given whole
  obtain ⟨-, rfl, -⟩ := ends ret done
  have decoder : IsError (hgapSelectError retval reader.code) :=
    selectError_isError (.inl error) (isError_or_success noEot) (.inl error)
  exact selectError_isError (isError_or_success (ok.closed writer wrote)) (.inl decoder) (.inr decoder)

/-- A decoding error does not end the process, does not stop the chunks before it, and comes out
of `hgap_receive` as an error, in every run in which the poison does not come between the poison
test of a datagram's `channel_send_reserved` and that of the reservation behind it. -/
theorem decodingError_returned (pktPos : 0 < pktCapacity) (chunkPos : 0 < chunkCapacity)
    (slots : Nat → Option Datagram) (pointers : Nat → Option OutChunk)
    (fails : decloop wh hgapDecoderNew (datagrams socket) = some (retval, outs))
    (error : retval ≠ Hgap.success.code)
    (run : Steps (Guarded Spares (ReceiverStep wh))
      (.start pktCapacity chunkCapacity socket slots pointers) events s) :
    s.exited = false ∧
    (∀ verdict, s.reader = .returned verdict → IsError verdict ∧
      (.writeError ∉ events → s.writes = outs.map OutChunk.data)) ∧
    (.writeError ∉ events → s.writes <+: outs.map OutChunk.data ∧
      ((∃ verdict, s.reader = .returned verdict) ∨ (∃ slot, s.reader = .receiving slot) ∨
        ∃ event s', ReceiverStep wh s event s')) := by
  obtain ⟨⟨reads, ret, outs'⟩, whole, same⟩ := Option.map_eq_some_iff.mp
    ((decloopReads_decloop wh hgapDecoderNew (datagrams socket)).trans fails)
  obtain ⟨rfl, rfl⟩ := Prod.mk.inj same
  have isError := (decloop_isError _ _ _ _ fails).resolve_right error
  obtain ⟨net, out, ok, safe⟩ := receive_run _ Safe ⟨rfl, fun poisoned => nomatch poisoned.2⟩
    (fun _ _ _ safe spares move => safe.move spares move) run
  have awake : .signalLost ∉ events := run.not_mem_of_guard fun _ => id
  refine ⟨safe.1, fun verdict returned => ⟨ok.verdict whole isError verdict returned, fun clean => ?_⟩,
    fun clean => ?_⟩
  · have writes := ok.failed.resolve_right clean
    obtain ⟨decoder, _, writer, done, wrote, -, -⟩ := ok.returned verdict returned
    obtain rfl := writes writer wrote
    exact (ok.written writes whole).2 decoder done wrote
  · have writes := ok.failed.resolve_right clean
    exact ⟨(ok.written writes whole).1, ok.progress pktPos chunkPos whole (.inl writes)
      (fun success => absurd success error) awake safe.1⟩

end

section Refused

/-- A chunk of one octet, a packet of a chunk that is too large, and silence. -/
private def tooLarge : List Recv :=
  ([hgapWriteHeader hgapHeaderBegin, hgapWriteHeader ⟨0, 1, 0, 1⟩ ++ [7],
    hgapWriteHeader ⟨1, 0xffffffff, 0, 1⟩ ++ [8]].map fun octets => .datagram (.zeroed octets)) ++
      [.timedOut]

/-- The datagrams pass from the network reader to `decloop` one at a time, and the chunk on to
the writer; `decloop` is about to poison the channel. -/
private def refused : List RecvActor :=
  turns [(4, .net), (3, .decode true), (4, .net), (5, .decode true), (2, .write (some 1)), (4, .net),
    (3, .decode true)]

private def refusing : ReceiverState RepetitionCode.State :=
  .start 1 1 (some tooLarge) (fun _ => none) (fun _ => none)

private theorem refused_fails : decloop RepetitionCode.code hgapDecoderNew (datagrams (some tooLarge)) =
    some (Hgap.errBadChunk.code, [⟨0, [7]⟩]) := by
  decide +kernel

/-- The network reader waits in `recvfrom` when the channel is poisoned. -/
theorem decodingError_returned_tooLarge : ∃ (s : ReceiverState RepetitionCode.State) (verdict : Int),
    s.reader = .returned verdict ∧ IsError verdict ∧ s.writes = [[7]] := by
  have run : (scheduled (fun s actor => (receiverStep RepetitionCode.code s actor).filter
      fun next => decide (Spares s next.1)) refusing (refused ++ turns [(1, .net), (1, .decode true),
        (2, .net), (1, .decode true), (1, .write none), (2, .net)])).map (fun (events, s) =>
          !events.any isWriteError && decide (s.reader = .returned Hgap.errBadChunk.code)) =
        some true := by
    decide +kernel
  obtain ⟨⟨events, s⟩, run, told⟩ := Option.map_eq_some_iff.mp run
  obtain ⟨found, returned⟩ := Bool.and_eq_true_iff.mp told
  have returned := of_decide_eq_true returned
  obtain ⟨-, verdict, -⟩ := decodingError_returned Nat.one_pos Nat.one_pos _ _ refused_fails
    (by decide) (scheduled_guarded run)
  obtain ⟨error, written⟩ := verdict _ returned
  exact ⟨s, _, returned, error, written (not_any_isWriteError.mp found)⟩

/-- The network reader is about to reserve its next slot when the channel is poisoned. -/
theorem decodingError_exits : ∃ retval outs events s,
    decloop RepetitionCode.code hgapDecoderNew (datagrams (some tooLarge)) = some (retval, outs) ∧
      retval ≠ Hgap.success.code ∧ Steps (ReceiverStep RepetitionCode.code) refusing events s ∧
      .writeError ∉ events ∧ s.exited = true := by
  have run : (scheduled (receiverStep RepetitionCode.code) refusing
      (refused ++ [.decode true, .net])).map (fun (events, s) =>
        !events.any isWriteError && s.exited) = some true := by
    decide +kernel
  obtain ⟨⟨events, s⟩, run, told⟩ := Option.map_eq_some_iff.mp run
  obtain ⟨found, exited⟩ := Bool.and_eq_true_iff.mp told
  exact ⟨_, _, events, s, refused_fails, by decide, scheduled_steps run,
    not_any_isWriteError.mp found, exited⟩

end Refused

end Hairgap.Guarantees
