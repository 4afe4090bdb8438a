import Hairgap.Guarantees.DecoderInvariant
import Hairgap.Source.ReceiveThreads

/-!
# What the threads of the receiver pass on

As in the sender, the elements in a channel and those its producer has yet to send are always
one sequence: the datagrams up to the poison pill, and the chunks a sequential loop makes of
them. Only a poisoned packet channel loses elements, and then nobody asks for them.
-/
namespace Hairgap.Guarantees
open Hairgap.Base Hairgap.Source

section Sequences
variable {S : Type} (wh : Wirehair S)

/-- What `hgapr_net_reader` sends, with the pill once it stops. -/
def packets : List Recv → List (Option Datagram)
  | [] => []
  | .datagram d :: rest => some d :: if hgapPktType d = .end_ then [none] else packets rest
  | .timedOut :: _ | .failed :: _ => [none]

def arrivals : Option (List Recv) → List (Option Datagram)
  | none => [none]
  | some recvs => packets recvs

/-- The datagrams the network reader receives until it stops. -/
def datagrams (socket : Option (List Recv)) : List Datagram := unmarked (arrivals socket)

/-- `decloop` with the number of datagrams it reads. -/
def decloopReads (dec : HgapDecoder S) : List Datagram → Option (Nat × Int × List OutChunk)
  | [] => some (0, Hgap.success.code, [])
  | d :: rest =>
    match readEmit wh dec d with
    | none => none
    | some turn =>
      match turn.leaves with
      | some retval => some (1, retval, turn.out.toList)
      | none => (decloopReads turn.dec rest).map fun (n, retval, outs) =>
          (n + 1, retval, turn.out.toList ++ outs)

/-- The rest of `decloop` from a positive result on. -/
def afterPositive (dec : HgapDecoder S) (ret : Int) (ds : List Datagram) :
    Option (Nat × Int × List OutChunk) :=
  match hgapDecoderEmit wh dec ret.toNat with
  | none => none
  | some e =>
    if e.ret = .success then (decloopReads wh e.dec ds).map fun (n, retval, outs) =>
      (n, retval, ⟨dec.chunk.num, e.out⟩ :: outs)
    else some (0, e.ret.code, [])

/-- The rest of `decloop` from a result of `hgap_decoder_read` on. -/
def afterRead (dec : HgapDecoder S) (ret : Int) (ds : List Datagram) :
    Option (Nat × Int × List OutChunk) :=
  if ret = 0 then decloopReads wh dec ds
  else if ret = -Hgap.eot.code then some (0, Hgap.success.code, [])
  else if ret < 0 then some (0, -ret, [])
  else afterPositive wh dec ret ds

/-- One more datagram read. -/
def readOne (x : Nat × Int × List OutChunk) : Nat × Int × List OutChunk := (x.1 + 1, x.2)

theorem decloopReads_decloop (dec : HgapDecoder S) (ds : List Datagram) :
    (decloopReads wh dec ds).map Prod.snd = decloop wh dec ds := by
  induction ds generalizing dec with
  | nil => rfl
  | cons d rest ih =>
    unfold decloopReads decloop
    cases readEmit wh dec d with
    | none => rfl
    | some turn =>
      dsimp only
      cases turn.leaves with
      | some retval => rfl
      | none => rw [← ih, Option.map_map, Option.map_map]; rfl

theorem decloopReads_cons (dec : HgapDecoder S) (d : Datagram) (rest : List Datagram) :
    decloopReads wh dec (d :: rest) =
      (afterRead wh (hgapDecoderRead wh dec d).dec (hgapDecoderRead wh dec d).ret rest).map
        readOne := by
  unfold decloopReads readEmit
  generalize hgapDecoderRead wh dec d = r
  unfold afterRead
  dsimp only
  by_cases positive : r.ret > 0
  · have nonzero : r.ret ≠ 0 := by omega
    have noEot : r.ret ≠ -Hgap.eot.code := by simp only [Hgap.code]; omega
    have noError : ¬ r.ret < 0 := by omega
    rw [if_pos positive, if_neg nonzero, if_neg noEot, if_neg noError, afterPositive]
    cases hgapDecoderEmit wh r.dec r.ret.toNat with
    | none => rfl
    | some e =>
      simp only [Option.map_some, Turn.leaves, if_neg nonzero, if_neg noEot, if_neg noError]
      by_cases good : e.ret = .success
      · simp only [good, ↓reduceIte, Option.map_map, Option.toList_some, List.singleton_append]
        rfl
      · cases verdict : e.ret with
        | success => exact absurd verdict good
        | _ => rfl
  · simp only [if_neg positive, Turn.leaves]
    by_cases zero : r.ret = 0
    · simp only [if_pos zero, Option.toList_none, List.nil_append]
      rfl
    · by_cases eot : r.ret = -Hgap.eot.code
      · simp only [if_neg zero, if_pos eot]
        rfl
      · have error : r.ret < 0 := by omega
        simp only [if_neg zero, if_neg eot, if_pos error]
        rfl

end Sequences

section Places
variable {S : Type} (wh : Wirehair S)

/-- The slot of the packet channel the network reader has reserved. -/
def slotToReceive (s : ReceiverState S) : Option Nat :=
  match s.reader with
  | .receiving slot | .sending slot _ | .publishing slot _ | .resetting slot _ | .closing slot _
  | .publishingPill slot _ => some slot
  | .reserving | .poisoning _ | .joinDecoder _ | .joinWriter _ | .returned _ | .asleep => none

/-- What the network reader has yet to send into an open channel. -/
def unsentPackets (s : ReceiverState S) : List (Option Datagram) :=
  match s.reader with
  | .reserving | .receiving _ => packets s.arriving
  | .sending slot last | .publishing slot last =>
    s.net2dec.elts slot :: if last then [none] else packets s.arriving
  | .poisoning _ | .resetting _ _ => [none]
  | .closing slot _ | .publishingPill slot _ => [s.net2dec.elts slot]
  | .joinDecoder _ | .joinWriter _ | .returned _ | .asleep => []

/-- The datagram the network reader has received and not yet sent. -/
def inReader (s : ReceiverState S) : List (Option Datagram) :=
  match s.reader with
  | .sending slot _ | .publishing slot _ => [s.net2dec.elts slot]
  | .reserving | .receiving _ | .poisoning _ | .resetting _ _ | .closing _ _ | .publishingPill _ _
  | .joinDecoder _ | .joinWriter _ | .returned _ | .asleep => []

/-- The network reader has not sent its pill. -/
def unclosed (s : ReceiverState S) : Prop :=
  match s.reader with
  | .reserving | .receiving _ | .sending _ _ | .publishing _ _ | .poisoning _ | .resetting _ _
  | .closing _ _ | .publishingPill _ _ => True
  | .joinDecoder _ | .joinWriter _ | .returned _ | .asleep => False

/-- The return value the network reader has left its loop with. -/
def readerLeftWith (s : ReceiverState S) : Option Hgap :=
  match s.reader with
  | .poisoning retval | .resetting _ retval | .closing _ retval | .publishingPill _ retval
  | .joinDecoder retval => some retval
  | .reserving | .receiving _ | .sending _ _ | .publishing _ _ | .joinWriter _ | .returned _
  | .asleep => none

/-- The network reader is at the reservation of its receive loop, or at the index update that
leads there whatever the poison flag says by then. -/
def boundToReserve (s : ReceiverState S) : Bool :=
  match s.reader with
  | .reserving | .publishing _ false => true
  | .receiving _ | .sending _ _ | .publishing _ true | .poisoning _ | .resetting _ _ | .closing _ _
  | .publishingPill _ _ | .joinDecoder _ | .joinWriter _ | .returned _ | .asleep => false

/-- The slot of the packet channel `decloop` has peeked at. -/
def slotToDecode (s : ReceiverState S) : Option Nat :=
  match s.decoder with
  | .decoding slot | .acking slot _ => some slot
  | .peeking | .emitting _ | .sending _ | .poisoning _ | .closing _ | .done _ => none

/-- `decloop` has not left its loop, or is about to poison the packet channel. -/
def decodes (s : ReceiverState S) : Prop :=
  match s.decoder with
  | .peeking | .decoding _ | .acking _ _ | .emitting _ | .sending _ | .poisoning _ => True
  | .closing _ | .done _ => False

/-- What `decloop` has yet to decode of the elements it has not acknowledged. -/
def undecoded (s : ReceiverState S) (rest : List (Option Datagram)) : List (Option Datagram) :=
  match s.decoder with
  | .acking _ _ => rest.tail
  | .peeking | .decoding _ | .emitting _ | .sending _ | .poisoning _ | .closing _ | .done _ => rest

/-- Datagrams decoded and not yet acknowledged. -/
def inDecoder (s : ReceiverState S) : Nat :=
  match s.decoder with
  | .acking _ _ => 1
  | .peeking | .decoding _ | .emitting _ | .sending _ | .poisoning _ | .closing _ | .done _ => 0

/-- The return value `decloop` has left its loop with. -/
def leftWith (s : ReceiverState S) : Option Int :=
  match s.decoder with
  | .closing retval | .done retval => some retval
  | .peeking | .decoding _ | .acking _ _ | .emitting _ | .sending _ | .poisoning _ => none

/-- What is left of a sequential `decloop`. -/
def remaining (s : ReceiverState S) (rest : List (Option Datagram)) :
    Option (Nat × Int × List OutChunk) :=
  match s.decoder with
  | .peeking | .decoding _ => decloopReads wh s.dec (unmarked rest)
  | .acking _ ret => (afterRead wh s.dec ret (unmarked rest.tail)).map readOne
  | .emitting ret => afterPositive wh s.dec ret (unmarked rest)
  | .sending chunk => (decloopReads wh s.dec (unmarked rest)).map fun (n, retval, outs) =>
      (n, retval, chunk :: outs)
  | .poisoning retval | .closing retval | .done retval => some (0, retval, [])

/-- What was read and given to the writer already, in front of what is left. -/
def carried (taken : Nat) (given : List OutChunk) (x : Nat × Int × List OutChunk) :
    Nat × Int × List OutChunk :=
  (taken + x.1, x.2.1, given ++ x.2.2)

/-- The NULL chunk `decloop` has sent. -/
def closedChunks (s : ReceiverState S) : List (Option OutChunk) :=
  match s.decoder with
  | .done _ => [none]
  | .peeking | .decoding _ | .acking _ _ | .emitting _ | .sending _ | .poisoning _ | .closing _ => []

/-- The element the writer has taken and not yet written. -/
def inWriter (s : ReceiverState S) : List (Option OutChunk) :=
  match s.writer with
  | .writing chunk => [some chunk]
  | .done .success => [none]
  | .receiving | .done _ => []

/-- The writer has met no failure. -/
def writesOn (s : ReceiverState S) : Prop := ∀ ret, s.writer = .done ret → ret = .success

/-- The datagrams passed to `hgap_decoder_read`. -/
def decodedOf (events : List RecvEvent) : List Datagram :=
  events.filterMap fun
    | .decoded d => some d
    | _ => none

@[simp] theorem decodedOf_append (xs ys : List RecvEvent) :
    decodedOf (xs ++ ys) = decodedOf xs ++ decodedOf ys := List.filterMap_append ..

def isWriteError : RecvEvent → Bool
  | .writeError => true
  | _ => false

theorem any_isWriteError {events : List RecvEvent} :
    events.any isWriteError = true ↔ .writeError ∈ events := by
  refine ⟨fun found => ?_, fun member => List.any_eq_true.mpr ⟨_, member, rfl⟩⟩
  obtain ⟨event, member, failed⟩ := List.any_eq_true.mp found
  cases event with
  | writeError => exact member
  | _ => cases failed

theorem not_any_isWriteError {events : List RecvEvent} :
    (!events.any isWriteError) = true ↔ .writeError ∉ events := by
  rw [Bool.not_eq_true', ← any_isWriteError, Bool.not_eq_true]

end Places

section
variable {S : Type} (wh : Wirehair S) (pktCapacity chunkCapacity : Nat) (socket : Option (List Recv))

/-- The threads of the receiver between two steps, with what each channel has carried. -/
structure RecvOk (events : List RecvEvent) (s : ReceiverState S) (net : Queue (Option Datagram))
    (out : Queue (Option OutChunk)) : Prop where
  openOut : s.dec2out.poisoned = false
  net2dec : s.net2dec.Holds pktCapacity net
  dec2out : s.dec2out.Holds chunkCapacity out
  sent : s.net2dec.poisoned = false → net.sent ++ unsentPackets s = arrivals socket
  slot : ∀ slot, slotToReceive s = some slot →
    slot = net.sent.length % (pktCapacity + 1) ∧ net.HasRoom pktCapacity
  plain : unclosed s → none ∉ net.sent ++ inReader s
  left : ∀ retval, readerLeftWith s = some retval →
    retval ≠ .eot ∧ (s.net2dec.poisoned = false → none ∈ arrivals socket)
  decodeSlot : ∀ slot, slotToDecode s = some slot →
    slot = net.taken % (pktCapacity + 1) ∧ net.taken < net.sent.length
  openNet : decodes s → s.net2dec.poisoned = false
  decoded : decodedOf events ++ unmarked (undecoded s ((arrivals socket).drop net.taken)) =
    datagrams socket
  count : (decodedOf events).length = net.taken + inDecoder s
  ends : ∀ retval, leftWith s = some retval →
    s.net2dec.poisoned = true ∨ retval = Hgap.success.code
  chunks : ∃ given : List OutChunk, out.sent = given.map some ++ closedChunks s ∧
    decloopReads wh hgapDecoderNew (datagrams socket) =
      (remaining wh s ((arrivals socket).drop net.taken)).map (carried net.taken given)
  writes : ∃ wrote : List OutChunk, out.sent.take out.taken = wrote.map some ++ inWriter s ∧
    s.writes.length = wrote.length ∧ (writesOn s → s.writes = wrote.map OutChunk.data)
  failed : writesOn s ∨ .writeError ∈ events
  closed : ∀ retval, s.writer = .done retval → retval ≠ .eot
  awake : s.reader = .asleep → .signalLost ∈ events
  joined : ∀ verdict, s.reader = .joinWriter verdict → ∃ retval reader,
    s.decoder = .done retval ∧ reader ≠ .eot ∧ verdict = hgapSelectError retval (Hgap.code reader)
  returned : ∀ verdict, s.reader = .returned verdict → ∃ retval reader writer,
    s.decoder = .done retval ∧ s.writer = .done writer ∧ reader ≠ .eot ∧
      verdict = hgapSelectError writer.code (hgapSelectError retval (Hgap.code reader))

/-- What the steps of the threads can do to what the others wait for. -/
structure RecvMove (s : ReceiverState S) (event : RecvEvent) (s' : ReceiverState S) : Prop where
  exits : s'.exited = true → s.exited = true ∨
    s.reader = .reserving ∧ s.net2dec.poisoned = true
  reserves : boundToReserve s' = true → s'.net2dec.poisoned = true →
    boundToReserve s = true ∧ (s.net2dec.poisoned = true ∨ event = .poisoned)
  fails : writesOn s' ∨ (¬ writesOn s ∧ s'.writes = s.writes) ∨
    event = .writeError ∧ s'.writes.length = s.writes.length + 1

variable {wh pktCapacity chunkCapacity socket} {events : List RecvEvent} {event : RecvEvent}
  {s s' : ReceiverState S} {net : Queue (Option Datagram)} {out : Queue (Option OutChunk)}

theorem RecvOk.silent (ok : RecvOk wh pktCapacity chunkCapacity socket events s net out)
    (event : RecvEvent) (noDecode : decodedOf [event] = []) :
    RecvOk wh pktCapacity chunkCapacity socket (events ++ [event]) s net out := by
  have same : decodedOf (events ++ [event]) = decodedOf events := by
    rw [decodedOf_append, noDecode, List.append_nil]
  exact { ok with
    decoded := same ▸ ok.decoded, count := same ▸ ok.count
    failed := ok.failed.imp_right (List.mem_append_left _)
    awake := fun h => List.mem_append_left _ (ok.awake h) }

/-- A step that leaves the writer alone. -/
theorem RecvMove.aside (writer : s'.writer = s.writer) (writes : s'.writes = s.writes)
    (exits : s'.exited = true → s.exited = true ∨
      s.reader = .reserving ∧ s.net2dec.poisoned = true)
    (reserves : boundToReserve s' = true → s'.net2dec.poisoned = true →
      boundToReserve s = true ∧ (s.net2dec.poisoned = true ∨ event = .poisoned)) :
    RecvMove s event s' := by
  refine ⟨exits, reserves, ?_⟩
  have same : writesOn s' ↔ writesOn s := by rw [writesOn, writesOn, writer]
  rw [same]
  exact (em (writesOn s)).imp_right fun h => .inl ⟨h, writes⟩

/-- The reader has sent one more element. -/
theorem RecvOk.published (ok : RecvOk wh pktCapacity chunkCapacity socket events s net out)
    (room : net.HasRoom pktCapacity) (reader : NetAt)
    (idle : slotToReceive { s with reader := reader } = none)
    (left : ∀ retval, readerLeftWith { s with reader := reader } = some retval →
      retval ≠ .eot ∧ (s.net2dec.poisoned = false → none ∈ arrivals socket))
    (plain : unclosed { s with reader := reader } →
      none ∉ net.sent ++ [s.net2dec.elts (net.sent.length % (pktCapacity + 1))])
    (handed : inReader { s with reader := reader } = [])
    (awake : reader ≠ .asleep) (joins : ∀ verdict, reader ≠ .joinWriter verdict)
    (returns : ∀ verdict, reader ≠ .returned verdict)
    (sent : s.net2dec.poisoned = false →
      net.sent ++ [s.net2dec.elts (net.sent.length % (pktCapacity + 1))] ++
        unsentPackets { s with net2dec := s.net2dec.moved .producer, reader := reader } =
          arrivals socket) :
    RecvOk wh pktCapacity chunkCapacity socket events
      { s with net2dec := s.net2dec.moved .producer, reader := reader }
      { net with sent := net.sent ++ [s.net2dec.elts (net.sent.length % (pktCapacity + 1))] } out :=
  { ok with
    net2dec := ok.net2dec.sent room
    sent := sent
    slot := fun slot h => by
      have none_ : slotToReceive { s with net2dec := s.net2dec.moved .producer, reader := reader } =
        none := idle
      rw [none_] at h
      cases h
    plain := fun closed => by
      have none_ : inReader { s with net2dec := s.net2dec.moved .producer, reader := reader } =
        [] := handed
      rw [none_, List.append_nil]
      exact plain closed
    left := left
    decodeSlot := fun slot h => (ok.decodeSlot slot h).imp_right fun waiting => by
      dsimp only
      rw [List.length_append]
      omega
    awake := fun h => absurd h awake
    joined := fun verdict h => absurd h (joins verdict)
    returned := fun verdict h => absurd h (returns verdict) }

theorem RecvOk.netReader (ok : RecvOk wh pktCapacity chunkCapacity socket events s net out)
    (step : netReaderStep s = some (event, s')) :
    ∃ net', RecvOk wh pktCapacity chunkCapacity socket (events ++ [event]) s' net' out ∧
      RecvMove s event s' := by
  have quiet := ok.silent .quiet rfl
  have sent := quiet.sent
  cases at_ : s.reader with
  | reserving =>
    have plain := quiet.plain (by rw [unclosed, at_]; trivial)
    simp only [inReader, at_] at plain
    cases poisoned : s.net2dec.poisoned with
    | true =>
      simp only [netReaderStep, at_, channelReserve_poisoned poisoned, Option.map_some,
        Option.some.injEq, Prod.mk.injEq] at step
      obtain ⟨rfl, rfl⟩ := step
      exact ⟨net, { quiet with }, .aside rfl rfl (fun _ => .inr ⟨at_, poisoned⟩)
        fun _ _ => ⟨by rw [boundToReserve, at_], .inl poisoned⟩⟩
    | false =>
      simp only [netReaderStep, at_, ok.net2dec.reserve_eq poisoned] at step
      simp only [unsentPackets, at_] at sent
      split at step
      next room =>
        obtain ⟨rfl, rfl⟩ := Prod.mk.inj (Option.some.inj step)
        refine ⟨net, { quiet with
          sent := sent, left := nofun, awake := nofun, joined := nofun, returned := nofun
          plain := fun _ => plain
          slot := by rintro slot ⟨⟩; exact ⟨rfl, room⟩ }, .aside rfl rfl .inl nofun⟩
      next => cases step
  | receiving slot =>
    have plain := quiet.plain (by rw [unclosed, at_]; trivial)
    simp only [inReader, at_] at plain
    obtain ⟨rfl, room⟩ := ok.slot slot (by rw [slotToReceive, at_])
    cases arriving : s.arriving with
    | nil => simp only [netReaderStep, at_, arriving, reduceCtorEq] at step
    | cons recv rest =>
      simp only [unsentPackets, at_, arriving] at sent
      cases recv with
      | timedOut | failed =>
        simp only [netReaderStep, at_, arriving, Option.some.injEq, Prod.mk.injEq] at step
        obtain ⟨rfl, rfl⟩ := step
        exact ⟨net, { quiet with
          sent := sent, awake := nofun, joined := nofun, returned := nofun, slot := nofun
          plain := fun _ => plain
          left := by
            rintro retval ⟨⟩
            exact ⟨Hgap.noConfusion, fun open_ => sent open_ ▸ by simp [packets]⟩ },
          .aside rfl rfl .inl nofun⟩
      | datagram d =>
        simp only [netReaderStep, at_, arriving, Option.some.injEq, Prod.mk.injEq] at step
        obtain ⟨rfl, rfl⟩ := step
        have silent := ok.silent (.received d) rfl
        have holds : (s.net2dec.filled (net.sent.length % (pktCapacity + 1)) (some d)).elts
            (net.sent.length % (pktCapacity + 1)) = some d := Function.update_self ..
        refine ⟨net, { silent with
          net2dec := ok.net2dec.filled room _
          left := nofun, awake := nofun, joined := nofun, returned := nofun
          slot := by rintro slot ⟨⟩; exact ⟨rfl, room⟩
          sent := fun open_ => ?_, plain := fun _ => ?_ }, .aside rfl rfl .inl nofun⟩
        · simp only [unsentPackets, holds, decide_eq_true_eq]
          exact sent open_
        · simp only [inReader, holds]
          simpa using plain
  | sending slot last =>
    have plain := quiet.plain (by rw [unclosed, at_]; trivial)
    simp only [inReader, at_] at plain
    obtain ⟨rfl, room⟩ := ok.slot slot (by rw [slotToReceive, at_])
    simp only [unsentPackets, at_] at sent
    simp only [netReaderStep, at_, Option.some.injEq, Prod.mk.injEq] at step
    obtain ⟨rfl, rfl⟩ := step
    cases poisoned : s.net2dec.poisoned with
    | true =>
      rw [channelSendChecks_poisoned poisoned, if_neg Bool.false_ne_true]
      have shut : s.net2dec.poisoned ≠ false := by simp [poisoned]
      exact ⟨net, { quiet with
        sent := fun open_ => absurd open_ shut
        plain := fun _ => by
          rw [inReader, List.append_nil]
          exact fun h => plain (List.mem_append_left _ h)
        left := by rintro retval ⟨⟩; exact ⟨Hgap.noConfusion, fun open_ => absurd open_ shut⟩
        awake := nofun, joined := nofun, returned := nofun, slot := nofun },
        .aside rfl rfl .inl nofun⟩
    | false =>
      rw [ok.net2dec.sendChecks_eq poisoned, if_pos rfl]
      refine ⟨net, { quiet with
        sent := sent
        plain := fun _ => plain
        left := nofun, awake := nofun, joined := nofun, returned := nofun
        slot := by rintro slot ⟨⟩; exact ⟨rfl, room⟩ }, .aside rfl rfl .inl fun _ poison => ?_⟩
      exact absurd (poisoned.symm.trans poison) Bool.false_ne_true
  | publishing slot last =>
    -- the channel may be poisoned by now
    have plain := quiet.plain (by rw [unclosed, at_]; trivial)
    simp only [inReader, at_] at plain
    obtain ⟨rfl, room⟩ := ok.slot slot (by rw [slotToReceive, at_])
    simp only [unsentPackets, at_] at sent
    simp only [netReaderStep, at_, Option.some.injEq, Prod.mk.injEq] at step
    obtain ⟨rfl, rfl⟩ := step
    cases last with
    | true =>
      have stops (open_ : s.net2dec.poisoned = false) : none ∈ arrivals socket := by
        rw [← sent open_]
        simp
      exact ⟨_, quiet.published room (.poisoning .success) rfl
        (by rintro retval ⟨⟩; exact ⟨Hgap.noConfusion, stops⟩) (fun _ => plain) rfl NetAt.noConfusion
        (fun _ => NetAt.noConfusion) (fun _ => NetAt.noConfusion)
        (fun open_ => by rw [← sent open_, List.append_assoc]; rfl), .aside rfl rfl .inl nofun⟩
    | false =>
      exact ⟨_, quiet.published room .reserving rfl nofun (fun _ => plain) rfl NetAt.noConfusion
        (fun _ => NetAt.noConfusion) (fun _ => NetAt.noConfusion)
        (fun open_ => by rw [← sent open_, List.append_assoc]; rfl),
        .aside rfl rfl .inl fun _ poison => ⟨by rw [boundToReserve, at_], .inl poison⟩⟩
  | poisoning retval =>
    have plain := quiet.plain (by rw [unclosed, at_]; trivial)
    simp only [inReader, at_] at plain
    have left := quiet.left retval (by rw [readerLeftWith, at_])
    cases poisoned : s.net2dec.poisoned with
    | true =>
      simp only [netReaderStep, at_, channelReserve_poisoned poisoned, Option.map_some,
        Option.some.injEq, Prod.mk.injEq] at step
      obtain ⟨rfl, rfl⟩ := step
      have shut : s.net2dec.poisoned ≠ false := by simp [poisoned]
      exact ⟨net, { quiet with
        sent := fun open_ => absurd open_ shut, plain := False.elim
        left := by rintro _ ⟨⟩; exact left
        awake := nofun, joined := nofun, returned := nofun, slot := nofun },
        .aside rfl rfl .inl nofun⟩
    | false =>
      simp only [netReaderStep, at_, ok.net2dec.reserve_eq poisoned] at step
      simp only [unsentPackets, at_] at sent
      split at step
      next room =>
        obtain ⟨rfl, rfl⟩ := Prod.mk.inj (Option.some.inj step)
        exact ⟨net, { quiet with
          sent := sent, awake := nofun, joined := nofun, returned := nofun
          plain := fun _ => plain
          left := by rintro _ ⟨⟩; exact left
          slot := by rintro slot ⟨⟩; exact ⟨rfl, room⟩ }, .aside rfl rfl .inl nofun⟩
      next => cases step
  | resetting slot retval =>
    have plain := quiet.plain (by rw [unclosed, at_]; trivial)
    simp only [inReader, at_] at plain
    have left := quiet.left retval (by rw [readerLeftWith, at_])
    obtain ⟨rfl, room⟩ := ok.slot slot (by rw [slotToReceive, at_])
    simp only [unsentPackets, at_] at sent
    simp only [netReaderStep, at_, Option.some.injEq, Prod.mk.injEq] at step
    obtain ⟨rfl, rfl⟩ := step
    refine ⟨net, { quiet with
      net2dec := ok.net2dec.filled room _, awake := nofun, joined := nofun, returned := nofun
      plain := fun _ => plain
      left := by rintro _ ⟨⟩; exact left
      slot := by rintro slot ⟨⟩; exact ⟨rfl, room⟩
      sent := fun open_ => ?_ }, .aside rfl rfl .inl nofun⟩
    have holds : (s.net2dec.filled (net.sent.length % (pktCapacity + 1)) none).elts
        (net.sent.length % (pktCapacity + 1)) = none := Function.update_self ..
    simp only [unsentPackets, holds]
    exact sent open_
  | closing slot retval =>
    have plain := quiet.plain (by rw [unclosed, at_]; trivial)
    simp only [inReader, at_] at plain
    have left := quiet.left retval (by rw [readerLeftWith, at_])
    obtain ⟨rfl, room⟩ := ok.slot slot (by rw [slotToReceive, at_])
    simp only [unsentPackets, at_] at sent
    simp only [netReaderStep, at_, Option.some.injEq, Prod.mk.injEq] at step
    obtain ⟨rfl, rfl⟩ := step
    cases poisoned : s.net2dec.poisoned with
    | true =>
      rw [channelSendChecks_poisoned poisoned, if_neg Bool.false_ne_true]
      have shut : s.net2dec.poisoned ≠ false := by simp [poisoned]
      exact ⟨net, { quiet with
        sent := fun open_ => absurd open_ shut, plain := False.elim
        left := by rintro retval ⟨⟩; exact ⟨Hgap.noConfusion, fun open_ => absurd open_ shut⟩
        awake := nofun, joined := nofun, returned := nofun, slot := nofun },
        .aside rfl rfl .inl nofun⟩
    | false =>
      rw [ok.net2dec.sendChecks_eq poisoned, if_pos rfl]
      exact ⟨net, { quiet with
        sent := sent, plain := fun _ => plain
        left := by rintro _ ⟨⟩; exact left
        awake := nofun, joined := nofun, returned := nofun
        slot := by rintro slot ⟨⟩; exact ⟨rfl, room⟩ }, .aside rfl rfl .inl nofun⟩
  | publishingPill slot retval =>
    have left := quiet.left retval (by rw [readerLeftWith, at_])
    obtain ⟨rfl, room⟩ := ok.slot slot (by rw [slotToReceive, at_])
    simp only [unsentPackets, at_] at sent
    simp only [netReaderStep, at_, Option.some.injEq, Prod.mk.injEq] at step
    obtain ⟨rfl, rfl⟩ := step
    exact ⟨_, quiet.published room (.joinDecoder retval) rfl (by rintro _ ⟨⟩; exact left)
      False.elim rfl NetAt.noConfusion (fun _ => NetAt.noConfusion) (fun _ => NetAt.noConfusion)
      (fun open_ => by rw [← sent open_]; exact List.append_nil _), .aside rfl rfl .inl nofun⟩
  | joinDecoder retval =>
    obtain ⟨notEot, -⟩ := ok.left retval (by rw [readerLeftWith, at_])
    simp only [unsentPackets, at_] at sent
    simp only [netReaderStep, at_] at step
    split at step
    next ret done =>
      obtain ⟨rfl, rfl⟩ := Prod.mk.inj (Option.some.inj step)
      exact ⟨net, { quiet with
        sent := sent, plain := False.elim, left := nofun, awake := nofun, returned := nofun, slot := nofun
        joined := by rintro verdict ⟨⟩; exact ⟨ret, retval, done, notEot, rfl⟩ },
        .aside rfl rfl .inl nofun⟩
    next => cases step
  | joinWriter verdict =>
    obtain ⟨retval, reader, decoder, notEot, verdict_eq⟩ := ok.joined verdict at_
    simp only [unsentPackets, at_] at sent
    simp only [netReaderStep, at_] at step
    split at step
    next ret done =>
      obtain ⟨rfl, rfl⟩ := Prod.mk.inj (Option.some.inj step)
      exact ⟨net, { quiet with
        sent := sent, plain := False.elim, left := nofun, awake := nofun, joined := nofun, slot := nofun
        returned := by
          rintro verdict ⟨⟩
          exact ⟨retval, reader, ret, decoder, done, notEot, by rw [verdict_eq]⟩ },
        .aside rfl rfl .inl nofun⟩
    next => cases step
  | returned verdict => simp only [netReaderStep, at_, reduceCtorEq] at step
  | asleep => simp only [netReaderStep, at_, reduceCtorEq] at step

/-- The oldest element of an open packet channel is the next of its sequence. -/
theorem RecvOk.next (ok : RecvOk wh pktCapacity chunkCapacity socket events s net out)
    (open_ : s.net2dec.poisoned = false) (waiting : net.taken < net.sent.length) :
    (arrivals socket).drop net.taken =
      s.net2dec.elts (net.taken % (pktCapacity + 1)) :: (arrivals socket).drop (net.taken + 1) := by
  have front := ok.net2dec.front waiting
  have inside : net.taken < (arrivals socket).length := by
    rw [← ok.sent open_, List.length_append]
    omega
  rw [List.drop_eq_getElem_cons inside, List.cons.injEq, ← Option.some.injEq,
    ← List.getElem?_eq_getElem inside, ← ok.sent open_, List.getElem?_append_left waiting]
  exact ⟨front, rfl⟩

/-- Nobody joins `decloop` before it has returned. -/
theorem RecvOk.unjoined (ok : RecvOk wh pktCapacity chunkCapacity socket events s net out)
    (busy : ∀ retval, s.decoder ≠ .done retval) :
    (∀ verdict, s.reader ≠ .joinWriter verdict) ∧ ∀ verdict, s.reader ≠ .returned verdict := by
  constructor
  · intro verdict at_
    obtain ⟨retval, _, done, _⟩ := ok.joined verdict at_
    exact busy retval done
  · intro verdict at_
    obtain ⟨retval, _, _, done, _⟩ := ok.returned verdict at_
    exact busy retval done

@[simp] theorem carried_readOne (taken : Nat) (given : List OutChunk) (x : Nat × Int × List OutChunk) :
    carried taken given (readOne x) = carried (taken + 1) given x := by
  simp only [carried, readOne, Prod.mk.injEq, and_true]
  omega

theorem RecvOk.decloop (ok : RecvOk wh pktCapacity chunkCapacity socket events s net out)
    (wakes : Bool) (step : decloopStep wh wakes s = some (event, s')) :
    ∃ net' out', RecvOk wh pktCapacity chunkCapacity socket (events ++ [event]) s' net' out' ∧
      RecvMove s event s' := by
  have quiet := ok.silent .quiet rfl
  have reserves : boundToReserve s = true → s.net2dec.poisoned = true →
      boundToReserve s = true ∧ (s.net2dec.poisoned = true ∨ event = .poisoned) :=
    fun at_ poisoned => ⟨at_, .inl poisoned⟩
  obtain ⟨given, sentChunks, chunks⟩ := ok.chunks
  cases at_ : s.decoder with
  | peeking =>
    obtain ⟨noJoin, noReturn⟩ := ok.unjoined fun retval h => by rw [at_] at h; cases h
    have open_ := ok.openNet (by rw [decodes, at_]; trivial)
    have decoded := quiet.decoded
    have count := quiet.count
    simp only [undecoded, inDecoder, closedChunks, remaining, at_] at decoded count sentChunks chunks
    simp only [decloopStep, at_, ok.net2dec.peek_eq open_] at step
    split at step
    next waiting =>
      obtain ⟨rfl, rfl⟩ := Prod.mk.inj (Option.some.inj step)
      exact ⟨net, out, { quiet with
        decodeSlot := by rintro slot ⟨⟩; exact ⟨rfl, waiting⟩
        openNet := fun _ => open_, decoded := decoded, count := count
        ends := nofun
        chunks := ⟨given, sentChunks, chunks⟩
        joined := fun verdict h => absurd h (noJoin verdict)
        returned := fun verdict h => absurd h (noReturn verdict) }, .aside rfl rfl .inl reserves⟩
    next => cases step
  | decoding slot =>
    obtain ⟨noJoin, noReturn⟩ := ok.unjoined fun retval h => by rw [at_] at h; cases h
    have open_ := ok.openNet (by rw [decodes, at_]; trivial)
    obtain ⟨rfl, waiting⟩ := ok.decodeSlot slot (by rw [slotToDecode, at_])
    have next := ok.next open_ waiting
    have count := ok.count
    simp only [inDecoder, at_] at count
    cases element : s.net2dec.elts (net.taken % (pktCapacity + 1)) with
    | none =>
      have decoded := quiet.decoded
      have count := quiet.count
      simp only [undecoded, inDecoder, closedChunks, remaining, at_, next, element, unmarked_none]
        at decoded count sentChunks chunks
      simp only [decloopStep, at_, element, Option.some.injEq, Prod.mk.injEq] at step
      obtain ⟨rfl, rfl⟩ := step
      exact ⟨net, out, { quiet with
        decodeSlot := nofun, openNet := False.elim, count := count
        decoded := by simpa only [undecoded, next, element, unmarked_none] using decoded
        ends := by rintro retval ⟨⟩; exact .inr rfl
        chunks := ⟨given, sentChunks, chunks⟩
        joined := fun verdict h => absurd h (noJoin verdict)
        returned := fun verdict h => absurd h (noReturn verdict) }, .aside rfl rfl .inl reserves⟩
    | some d =>
      have decoded := ok.decoded
      simp only [undecoded, closedChunks, remaining, at_, next, element, unmarked_some,
        decloopReads_cons] at decoded sentChunks chunks
      simp only [decloopStep, at_, element, Option.some.injEq, Prod.mk.injEq] at step
      obtain ⟨rfl, rfl⟩ := step
      exact ⟨net, out, { ok with
        decodeSlot := by rintro slot ⟨⟩; exact ⟨rfl, waiting⟩
        openNet := fun _ => open_
        decoded := by
          simp only [undecoded, next, List.tail_cons, decodedOf_append]
          rw [← decoded, List.append_assoc]
          rfl
        count := by
          simp only [decodedOf_append, List.length_append, count]
          rfl
        ends := nofun
        chunks := ⟨given, sentChunks, by simpa only [remaining, next, List.tail_cons] using chunks⟩
        failed := ok.failed.imp_right (List.mem_append_left _)
        awake := fun h => List.mem_append_left _ (ok.awake h)
        joined := fun verdict h => absurd h (noJoin verdict)
        returned := fun verdict h => absurd h (noReturn verdict) }, .aside rfl rfl .inl reserves⟩
  | acking slot ret =>
    obtain ⟨noJoin, noReturn⟩ := ok.unjoined fun retval h => by rw [at_] at h; cases h
    have open_ := ok.openNet (by rw [decodes, at_]; trivial)
    obtain ⟨rfl, waiting⟩ := ok.decodeSlot slot (by rw [slotToDecode, at_])
    have decoded := quiet.decoded
    have count := quiet.count
    simp only [undecoded, inDecoder, closedChunks, remaining, at_, List.tail_drop,
      Option.map_map, Function.comp_def, carried_readOne] at decoded count sentChunks chunks
    simp only [decloopStep, at_, ok.net2dec.ack_eq open_, Option.some.injEq, Prod.mk.injEq] at step
    obtain ⟨rfl, rfl⟩ := step
    have acked (decoder : DecodeAt) (peeks : slotToDecode { s with decoder := decoder } = none)
        (same : ∀ rest, undecoded { s with decoder := decoder } rest = rest)
        (none_ : inDecoder { s with decoder := decoder } = 0)
        (unclosed : closedChunks { s with decoder := decoder } = [])
        (ends : ∀ retval, leftWith { s with decoder := decoder } = some retval →
          retval = Hgap.success.code)
        (left : ∀ ds, remaining wh { s with decoder := decoder } ds =
          afterRead wh s.dec ret (unmarked ds)) :
        RecvOk wh pktCapacity chunkCapacity socket (events ++ [.quiet])
          { s with net2dec := s.net2dec.moved .consumer, decoder := decoder }
          { net with taken := net.taken + 1 } out := { quiet with
      net2dec := ok.net2dec.acked waiting
      slot := fun slot h => (quiet.slot slot h).imp_right fun room => by
        unfold Queue.HasRoom at *
        dsimp only
        omega
      decodeSlot := fun slot h => absurd (peeks.symm.trans h) (Option.some_ne_none slot).symm
      openNet := fun _ => open_
      decoded := (congrArg (_ ++ unmarked ·) (same _)).trans decoded
      count := count.trans (congrArg (net.taken + 1 + ·) none_.symm)
      ends := fun retval h => .inr (ends retval h)
      chunks := ⟨given, by rw [sentChunks, ← unclosed]; rfl,
        chunks.trans (congrArg (Option.map _) (left _).symm)⟩
      joined := fun verdict h => absurd h (noJoin verdict)
      returned := fun verdict h => absurd h (noReturn verdict) }
    by_cases zero : ret = 0
    · rw [if_pos zero]
      refine ⟨_, out, acked .peeking rfl (fun _ => rfl) rfl rfl nofun fun ds => ?_,
        .aside rfl rfl .inl reserves⟩
      rw [afterRead, if_pos zero]
      rfl
    · by_cases eot : ret = -Hgap.eot.code
      · rw [if_neg zero, if_pos eot]
        refine ⟨_, out, acked (.closing Hgap.success.code) rfl (fun _ => rfl) rfl rfl
          (by rintro retval ⟨⟩; rfl) fun ds => ?_, .aside rfl rfl .inl reserves⟩
        rw [afterRead, if_neg zero, if_pos eot]
        rfl
      · by_cases error : ret < 0
        · rw [if_neg zero, if_neg eot, if_pos error]
          refine ⟨_, out, acked (.poisoning (-ret)) rfl (fun _ => rfl) rfl rfl nofun fun ds => ?_,
            .aside rfl rfl .inl reserves⟩
          rw [afterRead, if_neg zero, if_neg eot, if_pos error]
          rfl
        · rw [if_neg zero, if_neg eot, if_neg error]
          refine ⟨_, out, acked (.emitting ret) rfl (fun _ => rfl) rfl rfl nofun fun ds => ?_,
            .aside rfl rfl .inl reserves⟩
          rw [afterRead, if_neg zero, if_neg eot, if_neg error]
          rfl
  | emitting ret =>
    obtain ⟨noJoin, noReturn⟩ := ok.unjoined fun retval h => by rw [at_] at h; cases h
    have open_ := ok.openNet (by rw [decodes, at_]; trivial)
    have decoded := ok.decoded
    have count := ok.count
    simp only [undecoded, inDecoder, closedChunks, remaining, at_]
      at decoded count sentChunks chunks
    cases emit : hgapDecoderEmit wh s.dec ret.toNat with
    | none =>
      -- the sequential loop returns on any datagrams
      obtain ⟨retval, outs, returns⟩ := decloop_returns wh coherent_new (datagrams socket)
      rw [← decloopReads_decloop, chunks, afterPositive, emit] at returns
      cases returns
    | some e =>
      by_cases good : e.ret = .success
      · simp only [decloopStep, at_, emit, if_pos good, Option.some.injEq, Prod.mk.injEq] at step
        obtain ⟨rfl, rfl⟩ := step
        have silent := ok.silent (.emitted ⟨s.dec.chunk.num, e.out⟩) rfl
        have decoded := silent.decoded
        have count := silent.count
        simp only [undecoded, inDecoder, at_] at decoded count
        rw [afterPositive, emit] at chunks
        simp only [if_pos good] at chunks
        exact ⟨net, out, { silent with
          decodeSlot := nofun, openNet := fun _ => open_, decoded := decoded, count := count
          ends := nofun, chunks := ⟨given, sentChunks, chunks⟩
          joined := fun verdict h => absurd h (noJoin verdict)
          returned := fun verdict h => absurd h (noReturn verdict) }, .aside rfl rfl .inl reserves⟩
      · simp only [decloopStep, at_, emit, if_neg good, Option.some.injEq, Prod.mk.injEq] at step
        obtain ⟨rfl, rfl⟩ := step
        have decoded := quiet.decoded
        have count := quiet.count
        simp only [undecoded, inDecoder, at_] at decoded count
        rw [afterPositive, emit] at chunks
        simp only [if_neg good] at chunks
        exact ⟨net, out, { quiet with
          decodeSlot := nofun, openNet := fun _ => open_, decoded := decoded, count := count
          ends := nofun, chunks := ⟨given, sentChunks, chunks⟩
          joined := fun verdict h => absurd h (noJoin verdict)
          returned := fun verdict h => absurd h (noReturn verdict) }, .aside rfl rfl .inl reserves⟩
  | sending chunk =>
    obtain ⟨noJoin, noReturn⟩ := ok.unjoined fun retval h => by rw [at_] at h; cases h
    have open_ := ok.openNet (by rw [decodes, at_]; trivial)
    have decoded := quiet.decoded
    have count := quiet.count
    simp only [undecoded, inDecoder, closedChunks, remaining, at_, List.append_nil,
      Option.map_map] at decoded count sentChunks chunks
    rcases ok.dec2out.send_eq ok.openOut (some chunk) with
      ⟨-, blocked⟩ | ⟨chan, answer, opened, -, holds⟩
    · simp only [decloopStep, at_, blocked, Option.map_none, reduceCtorEq] at step
    · simp only [decloopStep, at_, answer, Option.map_some, Option.some.injEq, Prod.mk.injEq] at step
      obtain ⟨rfl, rfl⟩ := step
      have given' (x : Nat × Int × List OutChunk) : carried net.taken given (x.1, x.2.1, chunk :: x.2.2) =
          carried net.taken (given ++ [chunk]) x := by simp [carried]
      have sentChunks' : out.sent ++ [some chunk] = (given ++ [chunk]).map some ++ [] := by
        rw [sentChunks, List.map_append, List.append_nil]
        rfl
      exact ⟨net, _, { quiet with
        openOut := opened, dec2out := holds
        decodeSlot := nofun, openNet := fun _ => open_, decoded := decoded, count := count
        ends := nofun
        chunks := ⟨given ++ [chunk], sentChunks', chunks.trans (congrArg (Option.map · _)
          (funext given'))⟩
        writes := by
          obtain ⟨wrote, taken, rest⟩ := ok.writes
          exact ⟨wrote, (List.take_append_of_le_length ok.dec2out.order).trans taken, rest⟩
        joined := fun verdict h => absurd h (noJoin verdict)
        returned := fun verdict h => absurd h (noReturn verdict) }, .aside rfl rfl .inl reserves⟩
  | poisoning retval =>
    obtain ⟨noJoin, noReturn⟩ := ok.unjoined fun retval h => by rw [at_] at h; cases h
    simp only [decloopStep, at_, poisonNet] at step
    split at step
    next lost =>
      obtain ⟨rfl, rfl⟩ := Prod.mk.inj (Option.some.inj step)
      have silent := ok.silent .signalLost rfl
      have decoded := silent.decoded
      have count := silent.count
      simp only [undecoded, inDecoder, closedChunks, remaining, at_] at decoded count sentChunks chunks
      exact ⟨net, out, { silent with
        net2dec := ok.net2dec.poison, sent := nofun, slot := nofun, left := nofun, plain := False.elim
        decodeSlot := nofun, openNet := False.elim, decoded := decoded, count := count
        ends := fun _ _ => .inl rfl, chunks := ⟨given, sentChunks, chunks⟩
        awake := fun _ => by simp
        joined := nofun, returned := nofun }, .aside rfl rfl .inl nofun⟩
    next found =>
      obtain ⟨rfl, rfl⟩ := Prod.mk.inj (Option.some.inj step)
      have silent := ok.silent .poisoned rfl
      have decoded := silent.decoded
      have count := silent.count
      simp only [undecoded, inDecoder, closedChunks, remaining, at_] at decoded count sentChunks chunks
      exact ⟨net, out, { silent with
        net2dec := ok.net2dec.poison, sent := nofun
        left := fun retval h => (ok.left retval h).imp_right fun _ => nofun
        decodeSlot := nofun, openNet := False.elim, decoded := decoded, count := count
        ends := fun _ _ => .inl rfl, chunks := ⟨given, sentChunks, chunks⟩
        joined := fun verdict h => absurd h (noJoin verdict)
        returned := fun verdict h => absurd h (noReturn verdict) },
        .aside rfl rfl .inl fun at_ _ => ⟨at_, .inr rfl⟩⟩
  | closing retval =>
    obtain ⟨noJoin, noReturn⟩ := ok.unjoined fun retval h => by rw [at_] at h; cases h
    have ends := ok.ends retval (by rw [leftWith, at_])
    have decoded := quiet.decoded
    have count := quiet.count
    simp only [undecoded, inDecoder, closedChunks, remaining, at_, List.append_nil]
      at decoded count sentChunks chunks
    rcases ok.dec2out.send_eq ok.openOut none with
      ⟨-, blocked⟩ | ⟨chan, answer, opened, -, holds⟩
    · simp only [decloopStep, at_, blocked, Option.map_none, reduceCtorEq] at step
    · simp only [decloopStep, at_, answer, Option.map_some, Option.some.injEq, Prod.mk.injEq] at step
      obtain ⟨rfl, rfl⟩ := step
      exact ⟨net, _, { quiet with
        openOut := opened, dec2out := holds
        decodeSlot := nofun, openNet := False.elim, decoded := decoded, count := count
        ends := by rintro _ ⟨⟩; exact ends
        chunks := ⟨given, congrArg (· ++ [none]) sentChunks, chunks⟩
        writes := by
          obtain ⟨wrote, taken, rest⟩ := ok.writes
          exact ⟨wrote, (List.take_append_of_le_length ok.dec2out.order).trans taken, rest⟩
        joined := fun verdict h => absurd h (noJoin verdict)
        returned := fun verdict h => absurd h (noReturn verdict) }, .aside rfl rfl .inl reserves⟩
  | done retval => simp only [decloopStep, at_, reduceCtorEq] at step

theorem RecvOk.writer (ok : RecvOk wh pktCapacity chunkCapacity socket events s net out)
    (answer : Option Nat) (step : writerStep answer s = some (event, s')) :
    ∃ out', RecvOk wh pktCapacity chunkCapacity socket (events ++ [event]) s' net out' ∧
      RecvMove s event s' := by
  have reserves : boundToReserve s = true → s.net2dec.poisoned = true →
      boundToReserve s = true ∧ (s.net2dec.poisoned = true ∨ event = .poisoned) :=
    fun at_ poisoned => ⟨at_, .inl poisoned⟩
  have unreturned (busy : ∀ retval, s.writer ≠ .done retval) (verdict : Int) :
      s.reader ≠ .returned verdict := by
    intro at_
    obtain ⟨_, _, retval, -, done, -⟩ := ok.returned verdict at_
    exact busy retval done
  obtain ⟨wrote, taken, length, same⟩ := ok.writes
  cases at_ : s.writer with
  | receiving =>
    have noReturn := unreturned fun retval h => by rw [at_] at h; cases h
    have quiet := ok.silent .quiet rfl
    have going : writesOn s := fun retval h => by rw [at_] at h; cases h
    simp only [inWriter, at_, List.append_nil] at taken
    rcases ok.dec2out.recv_eq ok.openOut with
      ⟨-, blocked⟩ | ⟨value, chan, recv, opened, front, holds⟩
    · simp only [writerStep, at_, blocked, Option.map_none, reduceCtorEq] at step
    · obtain ⟨inside, rfl⟩ := List.getElem?_eq_some_iff.mp front
      have more : out.sent.take (out.taken + 1) = wrote.map some ++ [out.sent[out.taken]] := by
        rw [List.take_succ_eq_append_getElem inside, taken]
      simp only [writerStep, at_, recv, Option.map_some, Option.some.injEq] at step
      cases value : out.sent[out.taken] with
      | none =>
        rw [value] at step more
        obtain ⟨rfl, rfl⟩ := Prod.mk.inj step
        exact ⟨_, { quiet with
          openOut := opened, dec2out := holds, writes := ⟨wrote, more, length, fun _ => same going⟩
          failed := .inl (by rintro retval ⟨⟩; rfl)
          closed := by rintro retval ⟨⟩; exact Hgap.noConfusion
          returned := fun verdict h => absurd h (noReturn verdict) },
          .inl, reserves, .inl (by rintro retval ⟨⟩; rfl)⟩
      | some chunk =>
        rw [value] at step more
        obtain ⟨rfl, rfl⟩ := Prod.mk.inj step
        exact ⟨_, { quiet with
          openOut := opened, dec2out := holds, writes := ⟨wrote, more, length, fun _ => same going⟩
          failed := .inl nofun, closed := nofun
          returned := fun verdict h => absurd h (noReturn verdict) }, .inl, reserves, .inl nofun⟩
  | writing chunk =>
    have noReturn := unreturned fun retval h => by rw [at_] at h; cases h
    have going : writesOn s := fun retval h => by rw [at_] at h; cases h
    simp only [inWriter, at_] at taken
    have wrote' : out.sent.take out.taken = (wrote ++ [chunk]).map some ++ [] := by
      rw [taken, List.map_append, List.append_nil]
      rfl
    have length' (last : Bytes) : (s.writes ++ [last]).length = (wrote ++ [chunk]).length := by
      rw [List.length_append, List.length_append, length]
      rfl
    simp only [writerStep, at_] at step
    split at step
    next complete =>
      obtain ⟨rfl, rfl⟩ := Prod.mk.inj (Option.some.inj step)
      have whole : chunk.data.take (answer.getD 0) = chunk.data := by
        cases answer with
        | none => cases complete
        | some n => exact List.take_of_length_le (of_decide_eq_true complete)
      have data : s.writes ++ [chunk.data.take (answer.getD 0)] =
          (wrote ++ [chunk]).map OutChunk.data := by
        rw [whole, same going, List.map_append]
        rfl
      exact ⟨out, { ok.silent (.wrote chunk) rfl with
        writes := ⟨wrote ++ [chunk], wrote', length' _, fun _ => data⟩
        failed := .inl nofun, closed := nofun
        returned := fun verdict h => absurd h (noReturn verdict) }, .inl, reserves, .inl nofun⟩
    next incomplete =>
      obtain ⟨rfl, rfl⟩ := Prod.mk.inj (Option.some.inj step)
      exact ⟨out, { ok.silent .writeError rfl with
        writes := ⟨wrote ++ [chunk], wrote', length' _, fun on => nomatch on _ rfl⟩
        failed := .inr (by simp)
        closed := by rintro retval ⟨⟩; exact Hgap.noConfusion
        returned := fun verdict h => absurd h (noReturn verdict) }, .inl, reserves,
        .inr (.inr ⟨rfl, List.length_append⟩)⟩
  | done retval => simp only [writerStep, at_, reduceCtorEq] at step

theorem RecvOk.step (ok : RecvOk wh pktCapacity chunkCapacity socket events s net out)
    (step : ReceiverStep wh s event s') :
    ∃ net' out', RecvOk wh pktCapacity chunkCapacity socket (events ++ [event]) s' net' out' ∧
      RecvMove s event s' := by
  obtain ⟨actor, step⟩ := step
  unfold receiverStep at step
  split at step
  · cases step
  cases actor with
  | net =>
    obtain ⟨net', ok', move⟩ := ok.netReader step
    exact ⟨net', out, ok', move⟩
  | decode wakes => exact ok.decloop wakes step
  | write answer =>
    obtain ⟨out', ok', move⟩ := ok.writer answer step
    exact ⟨net, out', ok', move⟩

theorem recvOk_start (slots : Nat → Option Datagram) (pointers : Nat → Option OutChunk) :
    RecvOk wh pktCapacity chunkCapacity socket []
      (.start pktCapacity chunkCapacity socket slots pointers) .empty .empty := by
  have start (reader : NetAt) (idle : slotToReceive
      { (.start pktCapacity chunkCapacity socket slots pointers : ReceiverState S) with
        reader := reader } = none)
      (left : ∀ retval, readerLeftWith
        { (.start pktCapacity chunkCapacity socket slots pointers : ReceiverState S) with
          reader := reader } = some retval → retval ≠ .eot ∧ none ∈ arrivals socket)
      (handed : inReader { (.start pktCapacity chunkCapacity socket slots pointers :
        ReceiverState S) with reader := reader } = [])
      (awake : reader ≠ .asleep) (joins : ∀ verdict, reader ≠ .joinWriter verdict)
      (returns : ∀ verdict, reader ≠ .returned verdict)
      (sent : unsentPackets
        { (.start pktCapacity chunkCapacity socket slots pointers : ReceiverState S) with
          reader := reader } = arrivals socket) :
      RecvOk wh pktCapacity chunkCapacity socket []
        { (.start pktCapacity chunkCapacity socket slots pointers : ReceiverState S) with
          reader := reader } .empty .empty :=
    { openOut := rfl
      net2dec := holds_new _ _
      dec2out := holds_new _ _
      sent := fun _ => sent
      slot := fun slot h => absurd (idle.symm.trans h) (Option.some_ne_none slot).symm
      plain := fun _ => by
        have none_ : inReader { (.start pktCapacity chunkCapacity socket slots pointers :
          ReceiverState S) with reader := reader } = [] := handed
        rw [none_]
        exact List.not_mem_nil
      left := fun retval h => (left retval h).imp_right fun stops _ => stops
      decodeSlot := nofun
      openNet := fun _ => rfl
      decoded := rfl
      count := rfl
      ends := nofun
      chunks := ⟨[], rfl, by
        have same : carried 0 [] = id := by
          funext x
          simp [carried]
        rw [Queue.empty, same, Option.map_id]
        rfl⟩
      writes := ⟨[], rfl, rfl, fun _ => rfl⟩
      failed := .inl nofun
      closed := nofun
      awake := fun h => absurd h awake
      joined := fun verdict h => absurd h (joins verdict)
      returned := fun verdict h => absurd h (returns verdict) }
  cases socket with
  | none =>
    exact start (.poisoning .errNetwork) rfl
      (by rintro retval ⟨⟩; exact ⟨Hgap.noConfusion, List.mem_singleton.mpr rfl⟩) rfl NetAt.noConfusion
      (fun _ => NetAt.noConfusion) (fun _ => NetAt.noConfusion) rfl
  | some recvs =>
    exact start .reserving rfl nofun rfl NetAt.noConfusion (fun _ => NetAt.noConfusion)
      (fun _ => NetAt.noConfusion) rfl

/-- What holds in every run: the accounts of the threads, and all that their steps preserve. -/
theorem receive_run {slots : Nat → Option Datagram} {pointers : Nat → Option OutChunk}
    (allowed : ReceiverState S → RecvEvent → Prop) (inv : ReceiverState S → Prop)
    (start : inv (.start pktCapacity chunkCapacity socket slots pointers))
    (preserved : ∀ s event s', inv s → allowed s event → RecvMove s event s' → inv s')
    (run : Steps (Guarded allowed (ReceiverStep wh))
      (.start pktCapacity chunkCapacity socket slots pointers) events s) :
    ∃ net out, RecvOk wh pktCapacity chunkCapacity socket events s net out ∧ inv s := by
  refine run.invariant (fun events s => ∃ net out,
    RecvOk wh pktCapacity chunkCapacity socket events s net out ∧ inv s) ?_ ?_
  · exact ⟨.empty, .empty, recvOk_start slots pointers, start⟩
  · rintro events s event s' ⟨net, out, ok, holds⟩ ⟨step, allowed⟩
    obtain ⟨net', out', ok', move⟩ := ok.step step
    exact ⟨net', out', ok', preserved _ _ _ holds allowed move⟩

end

end Hairgap.Guarantees
