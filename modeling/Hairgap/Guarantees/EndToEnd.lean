import Hairgap.Guarantees.Originals
import Hairgap.Guarantees.ReceiverVerdict
import Hairgap.Guarantees.SenderRefinement

/-!
# Both ends of a transfer

The threads of `hgap_send` on one side, those of `hgap_receive` on the other, and between them a
channel that loses and repeats packets but keeps their order. What comes out, and what the
receiver says about it, is decided by the packets that arrive.
-/
namespace Hairgap.Guarantees
open Hairgap.Base Hairgap.Source

section Wire

/-- The datagrams one step of the sender puts on the wire. -/
def onWire : SendEvent → List Bytes
  | .control pkt | .keepalive pkt => [pkt]
  | .emitted _ _ _ pkts => pkts
  | _ => []

/-- All datagrams of the sender, those of the keepalive thread among them. -/
def wireOf (events : List SendEvent) : List Bytes := events.flatMap onWire

/-- Without the keepalives, the wire carries what `send_loop` has passed on. -/
theorem wireOf_plain {events : List SendEvent}
    (keepalives : ∀ pkt, .keepalive pkt ∈ events → pkt = hgapWriteHeader hgapHeaderKeepalive) :
    withoutKeepalives (wireOf events) = withoutKeepalives (sentOf events) := by
  induction events with
  | nil => rfl
  | cons event events ih =>
    have later := ih fun pkt told => keepalives pkt (List.mem_cons_of_mem event told)
    have now : withoutKeepalives (onWire event) = withoutKeepalives (sentOf [event]) := by
      cases event with
      | keepalive pkt =>
        obtain rfl := keepalives pkt List.mem_cons_self
        simp [withoutKeepalives, onWire, sentOf]
      | _ => simp [onWire, sentOf]
    have wire : wireOf (event :: events) = onWire event ++ wireOf events := List.flatMap_cons
    have sent : sentOf (event :: events) = sentOf [event] ++ sentOf events :=
      sentOf_append [event] events
    rw [wire, sent, withoutKeepalives, List.filter_append, withoutKeepalives, List.filter_append]
    exact congrArg₂ (· ++ ·) now later

variable {S : Type} {wh : Wirehair S} {config : HgapConfig} {input : Bytes} {keepalive : UInt32}
  {events : List SendEvent} {s : SenderState S}

/-- A sender that has returned has sent a whole transfer, and keepalives. -/
theorem sender_wire (sound : config.Sound) (given : config.inFile.isSome = true)
    {slots : Nat → Option Bytes} {pointers : Nat → Option (HgapEncChunk S)}
    (run : Steps (Guarded (fun _ event => ¬ Unsent event) (SenderStep wh config keepalive))
      (.start config ⟨input, false⟩ slots pointers) events s)
    (retval : Int) (returned : s.main = .returned retval) :
    ∃ fuel, hgapSendDatagrams wh config fuel input = some (sentOf events) ∧
      withoutKeepalives (wireOf events) = withoutKeepalives (sentOf events) := by
  obtain ⟨read, passed, -, follows, keepalives⟩ := send_run sound.bufSize_pos given _
    (fun events s taken => Follows wh config input events s taken ∧
      ∀ pkt, .keepalive pkt ∈ events → pkt = hgapWriteHeader hgapHeaderKeepalive)
    ⟨⟨0, 0, Nat.le_refl _, fun fuel _ => sendUpTo_pointers wh config fuel input⟩,
      fun _ h => (List.not_mem_nil h).elim⟩
    (by
      intro events s event s' read passed passed' ok inv sent _ move
      refine ⟨inv.1.step ok sent move, fun pkt told => ?_⟩
      rcases List.mem_append.mp told with before | now
      · exact inv.2 pkt before
      · exact keepalive_move move pkt (List.mem_singleton.mp now).symm) run
  obtain ⟨bound, spent, -, same⟩ := follows
  refine ⟨bound, ?_, wireOf_plain keepalives⟩
  rw [← sendUpTo_whole, same bound (Nat.le_refl _), returned]
  exact congrArg some (List.append_nil _)

end Wire

section Transfer
variable {S : Type} {wh : Wirehair S} {config : HgapConfig} {input : Bytes} {keepalive : UInt32}
  {pktCapacity chunkCapacity : Nat} {events : List SendEvent} {s : SenderState S}
  {told : List RecvEvent} {r : ReceiverState S}

/-- What is written and returned, in every order of the steps of the threads on both sides: never
anything but whole chunks of the input, in order and each at most once, and nothing out of place
when enough packets of each chunk come; that is when the input is out in the end. The receiver
succeeds behind an END packet unless it has left a chunk incomplete before a packet of a later
one. -/
theorem transfer_outcome (host : Host) (accepted : hgapCheckConfigSender host config = .success)
    (fills : wh.WriteFills) (restarts : wh.DecodeRestarts) (decodes : wh.DecodesEncoded)
    (reconstructs : wh.Reconstructs)
    (limit : input.length ≤ hgapFirstReserved.toNat * config.bufSize)
    (slots : Nat → Option Bytes) (pointers : Nat → Option (HgapEncChunk S))
    (sends : Steps (Guarded (fun _ event => ¬ Unsent event) (SenderStep wh config keepalive))
      (.start config ⟨input, false⟩ slots pointers) events s)
    (retval : Int) (sent : s.main = .returned retval)
    (recvs : List Recv) (reader : Int) (passed : List Datagram)
    (stops : hgaprNetReader recvs = some (reader, passed))
    (kept : OrderKept (wireOf events) (passed.map Datagram.bytes))
    (slots' : Nat → Option Datagram) (pointers' : Nat → Option OutChunk)
    (receives : Steps (Guarded (fun _ event => event ≠ .writeError) (ReceiverStep wh))
      (.start pktCapacity chunkCapacity (some recvs) slots' pointers') told r) :
    (∃ nums : List UInt64, nums.Pairwise (· < ·) ∧
      (∀ num ∈ nums, num.toNat * config.bufSize < input.length) ∧
      r.writes = nums.map (chunkNumbered config input)) ∧
    (((∃ d ∈ passed, hgapPktType d = .begin_) ∧ ∀ i, i * config.bufSize < input.length →
        Suffices wh config (chunkAt config input i) (packetsOf (UInt64.ofNat i) passed)) →
      r.writes.flatten <+: input) ∧
    ∀ verdict, r.reader = .returned verdict →
      (verdict = Hgap.success.code ↔ (∃ d ∈ passed, hgapPktType d = .end_) ∧
        ((∀ d ∈ passed, hgapPktType d ≠ .begin_) ∨
          ¬ Broken wh config (chunkNumbered config input) passed)) ∧
      (r.writes.flatten = input ↔ input = [] ∨
        (∃ d ∈ passed, hgapPktType d = .begin_) ∧ ∀ i, i * config.bufSize < input.length →
          Suffices wh config (chunkAt config input i) (packetsOf (UInt64.ofNat i) passed)) := by
  have sound := config.sound host accepted
  obtain ⟨fuel, done, wire⟩ :=
    sender_wire sound (checkConfigSender_inFile host accepted) sends retval sent
  have plain := wire.trans (sent_plain sound fills done limit)
  have arrived := arrived_of_kept sound fills done limit plain kept
  obtain ⟨success, before, closing, rfl, running, ends⟩ := netReader_closes stops
  obtain ⟨ret, outs, loop, ⟨nums, sorted, chunks⟩, verdict, restored⟩ := decloop_arrived sound fills
    done limit restarts decodes reconstructs arrived running ends
  obtain ⟨net, out, ok, reported⟩ := reported_run receives.unguard
  obtain ⟨reads, counted⟩ := sequential_reads stops loop
  have noError : .writeError ∉ told := receives.not_mem_of_guard fun _ allowed => allowed rfl
  obtain ⟨begins, all⟩ := ok.written (reported.writing noError) counted
  have flat : (outs.map OutChunk.data).flatten = outs.flatMap OutChunk.data := rfl
  refine ⟨?_, ?_, ?_⟩
  · have data : outs.map OutChunk.data = nums.map (chunkNumbered config input) := by
      rw [chunks, List.map_map]
      rfl
    rw [data] at begins
    have inside : ∀ out ∈ outs, IsChunk config input out := decloop_chunks restarts reconstructs
      loop fun d h => (arrived.relayed d h).ofTransfer sound fills done (limit_bound sound limit)
    refine ⟨nums.take r.writes.length, sorted.take, fun num member => ?_, ?_⟩
    · have handed : (⟨num, chunkNumbered config input num⟩ : OutChunk) ∈ outs :=
        chunks ▸ List.mem_map_of_mem (List.mem_of_mem_take member)
      exact (inside _ handed).1
    · rw [List.map_take]
      exact List.prefix_iff_eq_take.mp begins
  · intro enough
    obtain ⟨rest, joined⟩ := begins
    rw [← restored.mpr (.inr enough), ← flat, ← joined, List.flatten_append]
    exact List.prefix_append _ _
  · intro verdict' returned
    obtain ⟨writer, wrote, succeeds, received⟩ := reported.verdict stops loop ok returned
    obtain rfl := succeeds.mpr noError
    have whole : r.writes = outs.map OutChunk.data := by
      obtain ⟨retval, -, -, decoder, -⟩ := ok.returned verdict' returned
      exact all retval decoder wrote
    simp only [hgapReceive, stops, Option.bind_some, loop, Option.map_some, Option.some.injEq,
      Prod.mk.injEq, and_true] at received
    constructor
    · rw [← received, selectError_success, selectError_success, verdict, success]
      rw [and_iff_right rfl, and_comm]
    · rw [whole, flat]
      exact restored

end Transfer

section OneOctet

/-- The keepalive thread has its turn between the packet of the octet and that of the empty
chunk behind it. -/
private def sendingTurns : List SendActor :=
  turns [(hgapSalveLen + 3, .send true), (9, .read), (11, .encode), (2, .send true),
    (3, .keepalive true), (hgapSalveLen + 6, .send true), (1, .keepalive true), (3, .send true)]

private def receivingTurns : List RecvActor :=
  turns [(4, .net), (3, .decode true), (4, .net), (5, .decode true), (2, .write (some 1)),
    (4, .net), (3, .decode true), (4, .net), (3, .decode true), (4, .net), (1, .decode true),
    (1, .write none), (2, .net)]

/-- One packet of each kind arrives. -/
private def oneOfEach : List Datagram :=
  [.begin_, octetPacket 0 7, .zeroed (hgapWriteHeader hgapHeaderKeepalive)]

theorem transfer_outcome_oneOctet : ∃ (events : List SendEvent)
    (r : ReceiverState RepetitionCode.State),
    .keepalive (hgapWriteHeader hgapHeaderKeepalive) ∈ events ∧
    r.reader = .returned Hgap.success.code ∧ r.writes.flatten = [7] := by
  have accepted : hgapCheckConfigSender ⟨fun _ => 0, fun _ => false⟩ .smallest = .success := by
    decide
  have sender : (scheduled (senderStep RepetitionCode.code .smallest 1)
      (.start .smallest ⟨[7], false⟩ (fun _ => none) (fun _ => none)) sendingTurns).map
      (fun (events, s) => decide (∀ event ∈ events, ¬ Unsent event) &&
        decide (.keepalive (hgapWriteHeader hgapHeaderKeepalive) ∈ events) &&
        ((oneOfEach ++ [Datagram.zeroed (hgapWriteHeader hgapHeaderEnd)]).map Datagram.bytes).isSublist
          (wireOf events) &&
        (returnedWith s).isSome) = some true := by
    decide +kernel
  have receiver : (scheduled (receiverStep RepetitionCode.code)
      (.start 1 1 (some (oneOfEach.map .datagram ++
        .datagram (.zeroed (hgapWriteHeader hgapHeaderEnd)) :: [])) (fun _ => none) (fun _ => none))
      receivingTurns).map (fun (events, s) => !events.any isWriteError &&
        decide (s.reader = .returned Hgap.success.code)) = some true := by
    decide +kernel
  obtain ⟨⟨events, s⟩, sends, told⟩ := Option.map_eq_some_iff.mp sender
  simp only [Bool.and_eq_true] at told
  obtain ⟨⟨⟨clean, alive⟩, kept⟩, ended⟩ := told
  obtain ⟨retval, sent⟩ := Option.isSome_iff_exists.mp ended
  obtain ⟨⟨recvEvents, r⟩, receives, told⟩ := Option.map_eq_some_iff.mp receiver
  obtain ⟨written, returned⟩ := Bool.and_eq_true_iff.mp told
  have writes : ∀ event ∈ recvEvents, ∀ _ : ReceiverState RepetitionCode.State,
      event ≠ .writeError := by
    rintro event member - rfl
    exact not_any_isWriteError.mp written member
  have stops := netReader_stops oneOfEach (.zeroed (hgapWriteHeader hgapHeaderEnd)) []
    (by decide) (by decide +kernel)
  obtain ⟨-, -, whole⟩ := transfer_outcome _ accepted RepetitionCode.writeFills
    RepetitionCode.decodeRestarts RepetitionCode.decodesEncoded RepetitionCode.reconstructs
    (by decide) _ _ ((scheduled_steps sends).guard_labels fun event member _ =>
      of_decide_eq_true clean event member) retval (returnedWith_eq_some.mp sent) _ _ _ stops
    (.of_sublist (List.isSublist_iff_sublist.mp kept)) _ _
    ((scheduled_steps receives).guard_labels writes)
  have returned := of_decide_eq_true returned
  refine ⟨events, r, of_decide_eq_true alive, returned, (whole _ returned).2.mpr (.inr ⟨?_, ?_⟩)⟩
  · exact ⟨.begin_, by simp [oneOfEach], rfl⟩
  · intro i filled
    have size : HgapConfig.smallest.bufSize = 1 := rfl
    rw [size, List.length_singleton] at filled
    obtain rfl : i = 0 := by omega
    decide +kernel

end OneOctet

end Hairgap.Guarantees
