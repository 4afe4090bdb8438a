import Hairgap.Guarantees.EndToEnd
import Hairgap.Guarantees.SenderProgress

/-!
# Nothing foreign comes out

A sender may fail anywhere, and the network may lose, repeat and reorder what it has sent. What
the receiver hands over is still made of chunks of the input: every datagram on the wire is a
control packet or one of the chunk its number stands for.
-/
namespace Hairgap.Guarantees
open Hairgap.Base Hairgap.Source

section Wire
variable {S : Type} (wh : Wirehair S) (config : HgapConfig) (file : Input)

/-- A datagram on the wire: one of the transfer, or a keepalive. -/
def WireCase (b : Bytes) : Prop :=
  SentCase wh config file.unread b ∨ b = hgapWriteHeader hgapHeaderKeepalive

/-- One that is sent now: it carries the chunk received last, if any. -/
structure WireNow (taken : Nat) (b : Bytes) : Prop where
  carried : WireCase wh config file b
  last : ∀ n ∈ bytesNum b, n.toNat + 1 = taken

/-- The wire: each datagram in its place, the chunks in order. -/
structure WireOk (taken : Nat) (bs : List Bytes) : Prop where
  carried : ∀ b ∈ bs, WireCase wh config file b
  received : ∀ b ∈ bs, ∀ n ∈ bytesNum b, n.toNat < taken
  ordered : bs.Pairwise fun b c => ∀ n ∈ bytesNum b, ∀ m ∈ bytesNum c, n ≤ m

/-- The packet or the chunk `send_loop` holds at each of its places, behind the elements it has
received. -/
def SendingPlace (taken : Nat) (main : SendAt S) : Prop :=
  match main with
  | .waving pkt _ => pkt = hgapWriteHeader hgapHeaderBegin
  | .emitting chunk _ => ∃ i ≤ file.unread.length / config.bufSize, i + 1 = taken ∧
      Emitting wh config (UInt64.ofNat i) (chunkAt config file.unread i) chunk
  | .teardown pkt _ _ => pkt = hgapWriteHeader hgapHeaderEnd
  | .creating | .handwaving | .receiving | .tearingDown _ | .freeing _ | .joinKeepalive _
  | .joinRead _ | .joinEncode _ | .returned _ => True

variable {wh config file} {keepalive : UInt32} {events : List SendEvent} {event : SendEvent}
  {s s' : SenderState S} {read : Queue (Option Bytes)} {passed passed' : Queue (Option (HgapEncChunk S))}

/-- The buffers in front of the poison are the chunks of the input. -/
theorem elements_chunkAt {i : Nat} {content : Bytes}
    (at_ : (elements config.bufSize file)[i]? = some (some content)) :
    i ≤ file.unread.length / config.bufSize ∧ content = chunkAt config file.unread i := by
  have before : i < (buffers config.bufSize file).length := by
    by_contra behind
    rw [elements, List.getElem?_append_right (by simpa using behind)] at at_
    generalize i - ((buffers config.bufSize file).map some).length = n at at_
    cases n with
    | zero => cases at_
    | succ n => cases at_
  rw [elements, List.getElem?_append_left (by simpa using before)] at at_
  simp only [buffers, List.length_map, List.length_range] at before
  simp only [buffers, List.map_map, List.getElem?_map, List.getElem?_range before, Option.map_some,
    Function.comp_apply, Option.some.injEq] at at_
  refine ⟨?_, at_.symm⟩
  split at before
  all_goals omega

/-- The chunk `send_loop` receives is the next of the input. -/
theorem SendOk.emitting (sound : config.Sound)
    (ok : SendOk wh config file events s read passed) {chunk : HgapEncChunk S}
    (front : passed.sent[passed.taken]? = some (some chunk)) (failed : Bool) :
    SendingPlace wh config file (passed.taken + 1) (.emitting chunk failed) := by
  have next := congrArg (·[0]?) (ok.next front)
  simp only [List.getElem?_drop, Nat.add_zero, List.getElem?_cons_zero] at next
  obtain ⟨content, at_, emitting⟩ :=
    pointers_numbered sound _ (hgapEncoderNew config.pktSize) rfl _ chunk next
  obtain ⟨within, rfl⟩ := elements_chunkAt at_
  have num : (hgapEncoderNew config.pktSize).nextChunkNum + UInt64.ofNat passed.taken =
      UInt64.ofNat passed.taken := UInt64.zero_add _
  rw [num] at emitting
  exact ⟨passed.taken, within, rfl, emitting⟩

theorem WireNow.control {taken : Nat} {b : Bytes} (carried : WireCase wh config file b)
    (control : hgapPktType (.zeroed b) ≠ .data) : WireNow wh config file taken b := by
  refine ⟨carried, fun n read => ?_⟩
  rw [bytesNum, if_neg control] at read
  cases read

theorem WireNow.begin_ (taken : Nat) : WireNow wh config file taken (hgapWriteHeader hgapHeaderBegin) :=
  .control (.inl (.begin_ rfl)) (by rw [type_begin _ rfl]; decide)

theorem WireNow.end_ (taken : Nat) : WireNow wh config file taken (hgapWriteHeader hgapHeaderEnd) :=
  .control (.inl (.end_ rfl)) (by rw [type_end _ rfl]; decide)

theorem WireNow.alive (taken : Nat) :
    WireNow wh config file taken (hgapWriteHeader hgapHeaderKeepalive) :=
  .control (.inr rfl) (by rw [type_keepalive _ rfl]; decide)

/-- What is sent now goes behind all that was sent. -/
theorem WireOk.append {taken taken' : Nat} {bs now : List Bytes}
    (wire : WireOk wh config file taken bs) (later : taken ≤ taken')
    (fresh : ∀ b ∈ now, WireNow wh config file taken' b) :
    WireOk wh config file taken' (bs ++ now) := by
  refine ⟨?_, ?_, List.pairwise_append.mpr ⟨wire.ordered, ?_, ?_⟩⟩
  · intro b member
    exact (List.mem_append.mp member).elim (wire.carried b) fun h => (fresh b h).carried
  · intro b member n read
    rcases List.mem_append.mp member with before | last
    · have := wire.received b before n read
      omega
    · have := (fresh b last).last n read
      omega
  · refine List.pairwise_of_forall_mem_list fun b hb c hc n hn m hm => ?_
    have num := (fresh b hb).last n hn
    have next := (fresh c hc).last m hm
    rw [UInt64.le_iff_toNat_le]
    omega
  · intro b hb c hc n hn m hm
    have num := wire.received b hb n hn
    have next := (fresh c hc).last m hm
    rw [UInt64.le_iff_toNat_le]
    omega

/-- One step of any thread puts only datagrams of the transfer and keepalives on the wire. -/
theorem SendingPlace.step (sound : config.Sound) (fills : wh.WriteFills)
    (bound : file.unread.length < 2 ^ 64 * config.bufSize)
    (ok : SendOk wh config file events s read passed)
    (place : SendingPlace wh config file passed.taken s.main)
    (move : SenderMove wh config keepalive s passed event s' passed') :
    SendingPlace wh config file passed'.taken s'.main ∧
      (∀ b ∈ onWire event, WireNow wh config file passed'.taken b) ∧
      passed.taken ≤ passed'.taken := by
  have silent : ∀ b ∈ onWire SendEvent.quiet, WireNow wh config file passed'.taken b := by
    simp [onWire]
  cases move with
  | upstream taken move =>
    refine ⟨taken ▸ move.main ▸ place, ?_, Nat.le_of_eq taken.symm⟩
    have quiet := move.event
    cases event with
    | quiet | read | readError | encoded | encodeError => simp [onWire]
    | _ => cases quiet
  | beside taken move =>
    refine ⟨taken ▸ move.main ▸ place, ?_, Nat.le_of_eq taken.symm⟩
    rcases move.event with rfl | rfl | rfl
    · exact silent
    · simp [onWire]
    · intro b member
      exact List.mem_singleton.mp member ▸ .alive _
  | send move =>
    cases move with
    | created | waved | uncontrolled | torn | stops | frees | joinsKeepalive | joinsRead
    | joinsEncode | uncreated | cramped | unwaved | untorn =>
      exact ⟨trivial, by simp [onWire], Nat.le_refl _⟩
    | poison => exact ⟨trivial, silent, Nat.le_succ _⟩
    | stuck | unmade => exact ⟨place, silent, Nat.le_refl _⟩
    | handwaved _ pkt room => exact ⟨handwave_ok room, silent, Nat.le_refl _⟩
    | tearsDown _ _ pkt room => exact ⟨teardown_ok room, silent, Nat.le_refl _⟩
    | waves pkt left at_ =>
      rw [at_] at place
      refine ⟨place, fun b member => ?_, Nat.le_refl _⟩
      exact (List.mem_singleton.mp member).trans place ▸ .begin_ _
    | tears pkt left retval at_ =>
      rw [at_] at place
      refine ⟨place, fun b member => ?_, Nat.le_refl _⟩
      exact (List.mem_singleton.mp member).trans place ▸ .end_ _
    | chunk chan _ chunk front => exact ⟨ok.emitting sound front false, silent, Nat.le_succ _⟩
    | emits chunk failed at_ e emit =>
      rw [at_] at place
      obtain ⟨i, within, last, emitting⟩ := place
      obtain ⟨e', again, emission⟩ := emissionCase sound fills emitting
      obtain rfl := Option.some.inj (emit.symm.trans again)
      have next := emission.emitting emitting
      refine ⟨?_, ?_, Nat.le_refl _⟩
      · dsimp only
        split
        · exact ⟨i, within, last, next⟩
        · split
          all_goals trivial
      · intro b member
        cases emission with
        | sent _ ok _ packet datagrams =>
          rw [ok, if_neg Bool.false_ne_true, onWire, datagrams] at member
          have packet := List.mem_singleton.mp member ▸ packet
          refine ⟨.inl (.chunk i within packet), fun n read => ?_⟩
          rw [PacketOf.num packet read, num_toNat sound bound within]
          exact last
        | lost _ _ _ _ failed =>
          rw [failed, if_pos rfl] at member
          cases member

/-- Whatever fails, the wire carries nothing else, and the chunks in order. -/
theorem wire_ok (sound : config.Sound) (given : config.inFile.isSome = true)
    (fills : wh.WriteFills) (bound : file.unread.length < 2 ^ 64 * config.bufSize)
    {slots : Nat → Option Bytes} {pointers : Nat → Option (HgapEncChunk S)}
    (run : Steps (SenderStep wh config keepalive) (.start config file slots pointers) events s) :
    ∃ taken, WireOk wh config file taken (wireOf events) := by
  have free : Steps (Guarded (fun _ _ => True) (SenderStep wh config keepalive))
      (.start config file slots pointers) events s := run.mono fun _ _ _ step => ⟨step, trivial⟩
  obtain ⟨read, passed, -, -, wire⟩ := send_run sound.bufSize_pos given _
    (fun events s taken => SendingPlace wh config file taken s.main ∧
      WireOk wh config file taken (wireOf events))
    ⟨trivial, by simp [wireOf], by simp [wireOf], .nil⟩
    (by
      intro events s event s' read passed passed' ok inv _ _ move
      obtain ⟨place, now, later⟩ := SendingPlace.step sound fills bound ok inv.1 move
      refine ⟨place, ?_⟩
      have wire : wireOf (events ++ [event]) = wireOf events ++ onWire event := by
        rw [wireOf, List.flatMap_append, List.flatMap_singleton]
        rfl
      exact wire ▸ inv.2.append later now) free
  exact ⟨_, wire⟩

/-- A datagram that was on the wire carries what its number stands for. -/
theorem WireCase.ofTransfer (sound : config.Sound)
    (bound : file.unread.length < 2 ^ 64 * config.bufSize) {d : Datagram}
    (wire : WireCase wh config file d.bytes) :
    OfTransfer wh config (chunkNumbered config file.unread) d := by
  rcases wire with sent | keepalive
  · exact sent.ofTransfer sound bound
  · intro data
    rw [type_keepalive d keepalive] at data
    cases data

end Wire

section Received
variable {S : Type} {wh : Wirehair S} {config : HgapConfig} {file : Input} {keepalive : UInt32}
  {pktCapacity chunkCapacity : Nat} {events : List SendEvent} {s : SenderState S}
  {told : List RecvEvent} {r : ReceiverState S}

/-- The network reader passes on what it has received. -/
theorem datagrams_received {recvs : List Recv} {d : Datagram}
    (member : d ∈ datagrams (some recvs)) : .datagram d ∈ recvs := by
  induction recvs with
  | nil => cases member
  | cons recv rest ih =>
    cases recv with
    | timedOut | failed => cases member
    | datagram first =>
      simp only [datagrams, arrivals, packets, unmarked_some, List.mem_cons] at member
      rcases member with rfl | later
      · exact List.mem_cons_self
      · split at later
        · cases later
        · exact List.mem_cons_of_mem _ (ih later)

/-- Whatever fails on the sending side, and whatever the network drops, repeats or reorders, the
receiver writes whole chunks of the input and nothing else. A network that keeps the order makes
it write them in order and each at most once. -/
theorem transfer_integrity (host : Host) (accepted : hgapCheckConfigSender host config = .success)
    (fills : wh.WriteFills) (restarts : wh.DecodeRestarts) (reconstructs : wh.Reconstructs)
    (bound : file.unread.length < 2 ^ 64 * config.bufSize)
    (slots : Nat → Option Bytes) (pointers : Nat → Option (HgapEncChunk S))
    (sends : Steps (SenderStep wh config keepalive) (.start config file slots pointers) events s)
    (recvs : List Recv) (relayed : ∀ d, .datagram d ∈ recvs → d.bytes ∈ wireOf events)
    (slots' : Nat → Option Datagram) (pointers' : Nat → Option OutChunk)
    (receives : Steps (Guarded (fun _ event => event ≠ .writeError) (ReceiverStep wh))
      (.start pktCapacity chunkCapacity (some recvs) slots' pointers') told r) :
    ∃ nums : List UInt64, (∀ num ∈ nums, num.toNat * config.bufSize < file.unread.length) ∧
      r.writes = nums.map (chunkNumbered config file.unread) ∧
      (OrderKept (wireOf events) ((datagrams (some recvs)).map Datagram.bytes) →
        nums.Pairwise (· < ·)) := by
  have sound := config.sound host accepted
  have given := checkConfigSender_inFile host accepted
  obtain ⟨sent, wire⟩ := wire_ok sound given fills bound sends
  have ofTransfer : ∀ d ∈ datagrams (some recvs),
      OfTransfer wh config (chunkNumbered config file.unread) d := fun d member =>
    (wire.carried _ (relayed d (datagrams_received member))).ofTransfer sound bound
  obtain ⟨retval, outs, loop⟩ := decloop_returns wh coherent_new (datagrams (some recvs))
  have chunks := decloop_chunks restarts reconstructs loop ofTransfer
  obtain ⟨⟨reads, last⟩, counted, same⟩ := Option.map_eq_some_iff.mp
    ((decloopReads_decloop wh hgapDecoderNew (datagrams (some recvs))).trans loop)
  cases same
  obtain ⟨net, out, ok, reported⟩ := reported_run receives.unguard
  have noError : .writeError ∉ told := receives.not_mem_of_guard fun _ allowed => allowed rfl
  obtain ⟨begins, -⟩ := ok.written (reported.writing noError) counted
  have written : r.writes = (outs.take r.writes.length).map OutChunk.data := by
    rw [List.map_take]
    exact List.prefix_iff_eq_take.mp begins
  have taken : ∀ out ∈ outs.take r.writes.length, IsChunk config file.unread out :=
    fun out member => chunks out (List.mem_of_mem_take member)
  refine ⟨(outs.take r.writes.length).map OutChunk.num, ?_, ?_, fun kept => ?_⟩
  · intro num member
    obtain ⟨out, inside, rfl⟩ := List.mem_map.mp member
    exact (taken out inside).1
  · rw [List.map_map]
    exact written.trans (List.map_congr_left fun out member => (taken out member).2)
  · rw [List.map_take]
    have ordered := ordered_of_kept (wire.ordered.filter _) kept
    exact (loop_ascending wh (ordered_advance wh _ ordered) loop).take

end Received

section Reordered

/-- The input cannot be read to its end, but both octets have been sent by then. -/
private def brokenTurns : List SendActor :=
  turns [(hgapSalveLen + 3, .send true), (8, .read), (8, .encode), (4, .send true)]

private def threeTurns : List RecvActor :=
  turns [(4, .net), (3, .decode true), (4, .net), (5, .decode true), (2, .write (some 1)),
    (4, .net), (5, .decode true), (2, .write (some 1)), (4, .net), (5, .decode true),
    (2, .write (some 1))]

/-- The packet of the first octet comes once more behind that of the second. -/
private def firstAgain : List Datagram :=
  [.begin_, octetPacket 0 7, octetPacket 1 8, octetPacket 0 7]

theorem transfer_integrity_firstAgain : ∃ (events : List SendEvent)
    (r : ReceiverState RepetitionCode.State),
    .readError ∈ events ∧ r.writes = [[7], [8], [7]] ∧
    ∃ nums : List UInt64, (∀ num ∈ nums, num.toNat < 2) ∧
      r.writes = nums.map (chunkNumbered .smallest [7, 8]) := by
  have accepted : hgapCheckConfigSender ⟨fun _ => 0, fun _ => false⟩ .smallest = .success := by
    decide
  have sender : (scheduled (senderStep RepetitionCode.code .smallest 1)
      (.start .smallest ⟨[7, 8], true⟩ (fun _ => none) (fun _ => none)) brokenTurns).map
      (fun (events, _) => events.contains .readError &&
        firstAgain.all fun d => (wireOf events).contains d.bytes) = some true := by
    decide +kernel
  have receiver : (scheduled (receiverStep RepetitionCode.code)
      (.start 1 1 (some (firstAgain.map .datagram)) (fun _ => none) (fun _ => none))
      threeTurns).map (fun (events, r) => !events.any isWriteError &&
        decide (r.writes = [[7], [8], [7]])) = some true := by
    decide +kernel
  obtain ⟨⟨events, s⟩, sends, told⟩ := Option.map_eq_some_iff.mp sender
  obtain ⟨broken, relayed⟩ := Bool.and_eq_true_iff.mp told
  obtain ⟨⟨recvEvents, r⟩, receives, told⟩ := Option.map_eq_some_iff.mp receiver
  obtain ⟨clean, written⟩ := Bool.and_eq_true_iff.mp told
  have writes : ∀ event ∈ recvEvents, ∀ _ : ReceiverState RepetitionCode.State,
      event ≠ .writeError := by
    rintro event member - rfl
    exact not_any_isWriteError.mp clean member
  obtain ⟨nums, inside, same, -⟩ := transfer_integrity _ accepted RepetitionCode.writeFills
    RepetitionCode.decodeRestarts RepetitionCode.reconstructs (by decide) _ _
    (scheduled_steps sends) (firstAgain.map .datagram)
    (fun d received => by
      obtain ⟨d', member, same⟩ := List.mem_map.mp received
      obtain rfl := Recv.datagram.inj same
      exact List.contains_iff_mem.mp (List.all_eq_true.mp relayed d' member))
    _ _ ((scheduled_steps receives).guard_labels writes)
  refine ⟨events, r, List.contains_iff_mem.mp broken, of_decide_eq_true written, nums, ?_, same⟩
  intro num member
  exact Nat.mul_one num.toNat ▸ inside num member

end Reordered

end Hairgap.Guarantees
