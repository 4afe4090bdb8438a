import Hairgap.Guarantees.ReceivePipeline
import Hairgap.Source.RepetitionCode

/-!
# Three threads receive what one would

The writer's chunks are those of a sequential `decloop` over the same datagrams, whatever the
order of the steps and the sizes of the channels.
-/
namespace Hairgap.Guarantees
open Hairgap.Base Hairgap.Source

/-- The sequential network reader passes the same datagrams on. -/
theorem netReader_datagrams (recvs : List Recv) (retval : Int) (passed : List Datagram)
    (stops : hgaprNetReader recvs = some (retval, passed)) : datagrams (some recvs) = passed := by
  induction recvs generalizing passed with
  | nil => cases stops
  | cons recv rest ih =>
    cases recv with
    | timedOut | failed =>
      cases stops
      rfl
    | datagram d =>
      by_cases last : hgapPktType d = .end_
      · simp only [hgaprNetReader, if_pos last, Option.some.injEq, Prod.mk.injEq] at stops
        simp only [datagrams, arrivals, packets, if_pos last, unmarked_some, unmarked_none, stops]
      · simp only [hgaprNetReader, if_neg last] at stops
        obtain ⟨⟨verdict, later⟩, before, same⟩ := Option.map_eq_some_iff.mp stops
        cases same
        have rest := ih later before
        simp only [datagrams, arrivals] at rest
        simp only [datagrams, arrivals, packets, if_neg last, unmarked_some, rest]

section
variable {S : Type} {wh : Wirehair S} {pktCapacity chunkCapacity : Nat}
  {socket : Option (List Recv)} {events : List RecvEvent} {s : ReceiverState S}
  {net : Queue (Option Datagram)} {out : Queue (Option OutChunk)} {outs : List OutChunk}
  {reads : Nat} {retval : Int}

/-- What the writer was given is the beginning of the chunks of a sequential loop. -/
theorem RecvOk.given (ok : RecvOk wh pktCapacity chunkCapacity socket events s net out)
    (whole : decloopReads wh hgapDecoderNew (datagrams socket) = some (reads, retval, outs)) :
    ∃ given, out.sent = given.map some ++ closedChunks s ∧ given <+: outs ∧
      ∀ ret, s.decoder = .done ret →
        reads = (decodedOf events).length ∧ retval = ret ∧ outs = given := by
  obtain ⟨given, sent, chunks⟩ := ok.chunks
  rw [whole] at chunks
  obtain ⟨⟨n, left, more⟩, rest, same⟩ := Option.map_eq_some_iff.mp chunks.symm
  obtain ⟨rfl, rfl, rfl⟩ := Prod.mk.inj same |>.imp id Prod.mk.inj
  refine ⟨given, sent, List.prefix_append _ _, fun ret done => ?_⟩
  have count := ok.count
  rw [remaining, done] at rest
  rw [inDecoder, done] at count
  cases rest
  exact ⟨count.symm, rfl, List.append_nil _⟩

/-- And what it has written, as long as no write fails. -/
theorem RecvOk.written (ok : RecvOk wh pktCapacity chunkCapacity socket events s net out)
    (writes : writesOn s)
    (whole : decloopReads wh hgapDecoderNew (datagrams socket) = some (reads, retval, outs)) :
    s.writes <+: outs.map OutChunk.data ∧
      ∀ ret, s.decoder = .done ret → s.writer = .done .success →
        s.writes = outs.map OutChunk.data := by
  obtain ⟨given, sent, before, ends⟩ := ok.given whole
  obtain ⟨wrote, taken, -, same⟩ := ok.writes
  have taken' := List.take_prefix out.taken out.sent
  rw [taken, sent] at taken'
  have part := unmarked_mono taken'
  rw [unmarked_append, unmarked_append] at part
  have closed : unmarked (closedChunks s) = [] := by
    unfold closedChunks
    cases s.decoder <;> rfl
  rw [closed, List.append_nil] at part
  rw [same writes]
  refine ⟨(((List.prefix_append _ _).trans part).trans before).map _, fun ret done ended => ?_⟩
  rw [inWriter, ended] at taken'
  rw [closedChunks, done] at taken'
  obtain ⟨rest, whole⟩ := taken'
  have all := congrArg unmarked whole
  rw [List.append_assoc, unmarked_append, unmarked_append] at all
  have all : wrote = given := by simpa using all
  rw [all, (ends ret done).2.2]

/-- The output is the beginning of what a sequential loop over the same datagrams emits, and
all of it when `hgap_receive` returns. The datagrams are decoded as they were received, each
once and in order, up to the one the sequential loop ends on. -/
theorem receiver_refines (slots : Nat → Option Datagram) (pointers : Nat → Option OutChunk)
    (clean : decloop wh hgapDecoderNew (datagrams socket) = some (Hgap.success.code, outs))
    (run : Steps (Guarded (fun _ event => event ≠ .writeError) (ReceiverStep wh))
      (.start pktCapacity chunkCapacity socket slots pointers) events s) :
    s.writes <+: outs.map OutChunk.data ∧ decodedOf events <+: datagrams socket ∧
    ∀ verdict, s.reader = .returned verdict → s.writes = outs.map OutChunk.data ∧
      (decloopReads wh hgapDecoderNew (datagrams socket)).map Prod.fst =
        some (decodedOf events).length := by
  obtain ⟨⟨reads, retval, outs'⟩, whole, same⟩ := Option.map_eq_some_iff.mp
    ((decloopReads_decloop wh hgapDecoderNew (datagrams socket)).trans clean)
  obtain ⟨-, rfl⟩ := Prod.mk.inj same
  have preserved (s : ReceiverState S) (event : RecvEvent) (s' : ReceiverState S)
      (on : writesOn s) (allowed : event ≠ .writeError) (move : RecvMove s event s') :
      writesOn s' := by
    rcases move.fails with goes | ⟨failed, -⟩ | ⟨failing, -⟩
    · exact goes
    · exact absurd on failed
    · exact absurd failing allowed
  obtain ⟨net, out, ok, on⟩ := receive_run _ writesOn nofun preserved run
  obtain ⟨begins, ends⟩ := ok.written on whole
  refine ⟨begins, ⟨_, ok.decoded⟩, fun verdict returned => ?_⟩
  obtain ⟨retval, _, writer, decoder, writer_, -, -⟩ := ok.returned verdict returned
  obtain rfl := on writer writer_
  obtain ⟨_, -, -, counts⟩ := ok.given whole
  refine ⟨ends retval decoder writer_, ?_⟩
  rw [whole, Option.map_some, (counts retval decoder).1]

end

section Delivered

/-- The datagrams of a transfer of one octet. -/
private def oneOctet : List Recv :=
  [hgapWriteHeader hgapHeaderBegin, hgapWriteHeader ⟨0, 1, 0, 1⟩ ++ [7],
    hgapWriteHeader hgapHeaderEnd].map fun octets => .datagram (.zeroed octets)

/-- Every thread in turn. -/
private def inTurn : List RecvActor :=
  turns [(4, .net), (3, .decode true), (4, .net), (5, .decode true), (2, .write (some 1)), (4, .net),
    (3, .decode true), (4, .net), (1, .decode true), (1, .write none), (2, .net)]

theorem receiver_refines_oneOctet :
    ∃ (events : List RecvEvent) (s : ReceiverState RepetitionCode.State),
      s.writes = [[7]] ∧ (decodedOf events).length = 3 := by
  have clean : decloop RepetitionCode.code hgapDecoderNew (datagrams (some oneOctet)) =
      some (Hgap.success.code, [⟨0, [7]⟩]) := by decide +kernel
  have reads : (decloopReads RepetitionCode.code hgapDecoderNew (datagrams (some oneOctet))).map
      Prod.fst = some 3 := by decide +kernel
  have run : (scheduled (receiverStep RepetitionCode.code)
      (.start 1 1 (some oneOctet) (fun _ => none) (fun _ => none)) inTurn).map (fun (events, s) =>
        !events.any isWriteError &&
          decide (s.reader = .returned Hgap.success.code)) = some true := by
    decide +kernel
  obtain ⟨⟨events, s⟩, run, told⟩ := Option.map_eq_some_iff.mp run
  obtain ⟨clean_, returned⟩ := Bool.and_eq_true_iff.mp told
  have writes : ∀ event ∈ events, ∀ _ : ReceiverState RepetitionCode.State,
      event ≠ .writeError := by
    rintro event member - rfl
    exact not_any_isWriteError.mp clean_ member
  obtain ⟨-, -, whole⟩ :=
    receiver_refines _ _ clean ((scheduled_steps run).guard_labels writes)
  obtain ⟨written, count⟩ := whole _ (of_decide_eq_true returned)
  rw [reads] at count
  exact ⟨events, s, written, (Option.some.inj count).symm⟩

end Delivered

end Hairgap.Guarantees
