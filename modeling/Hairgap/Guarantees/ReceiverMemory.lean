import Hairgap.Guarantees.Handshake
import Hairgap.Guarantees.ReceivePipeline
import Mathlib.Algebra.Order.BigOperators.Group.List

/-!
# How much the receiver holds

The network reader receives into the slots of its channel, and those are a share of the memory
limit. The chunks behind the decoder are counted, and bounded in size by what the decoder accepts.
-/
namespace Hairgap.Guarantees
open Hairgap.Base Hairgap.Source

/-- Elements between the two indices of a ring. -/
def queued {α : Type} (chan : Channel α) : Nat :=
  (chan.wrIdx + chan.capacity - chan.rdIdx) % chan.capacity

section Ring
variable {α : Type} {chan chan' : Channel α} {capacity : Nat} {q : Queue α}

theorem queued_holds (holds : chan.Holds capacity q) : q.sent.length = q.taken + queued chan := by
  have order := holds.order
  have bound := holds.bound
  obtain ⟨k, more⟩ := Nat.exists_eq_add_of_le order
  have less : q.taken % (capacity + 1) < capacity + 1 := Nat.mod_lt _ (Nat.succ_pos capacity)
  have wrap : (q.taken + k) % (capacity + 1) =
      (q.taken % (capacity + 1) + k) % (capacity + 1) := by rw [Nat.mod_add_mod]
  have sum : queued chan = k := by
    rw [queued, holds.size, holds.wrIdx, holds.rdIdx, more, wrap]
    by_cases short : q.taken % (capacity + 1) + k < capacity + 1
    · have total : q.taken % (capacity + 1) + k + (capacity + 1) - q.taken % (capacity + 1) =
          k + (capacity + 1) := by omega
      rw [Nat.mod_eq_of_lt short, total, Nat.add_mod_right, Nat.mod_eq_of_lt (by omega)]
    · have wrapped : (q.taken % (capacity + 1) + k) % (capacity + 1) =
          q.taken % (capacity + 1) + k - (capacity + 1) := by
        rw [Nat.mod_eq_sub_mod (by omega), Nat.mod_eq_of_lt (by omega)]
      have total : q.taken % (capacity + 1) + k - (capacity + 1) + (capacity + 1) -
          q.taken % (capacity + 1) = k := by omega
      rw [wrapped, total, Nat.mod_eq_of_lt (by omega)]
  omega

theorem queued_le (holds : chan.Holds capacity q) : queued chan ≤ capacity := by
  have := queued_holds holds
  have := holds.bound
  omega

/-- A ring with one more element. -/
theorem queued_more (holds : chan.Holds capacity q) {value : α}
    (next : chan'.Holds capacity { q with sent := q.sent ++ [value] }) :
    queued chan' = queued chan + 1 := by
  have before := queued_holds holds
  have behind := queued_holds next
  rw [List.length_append, List.length_singleton] at behind
  dsimp only at behind
  omega

theorem queued_less (holds : chan.Holds capacity q)
    (next : chan'.Holds capacity { q with taken := q.taken + 1 }) :
    queued chan' + 1 = queued chan := by
  have before := queued_holds holds
  have behind := queued_holds next
  dsimp only at behind
  omega

end Ring

section
variable {S : Type}

def receivedOf (events : List RecvEvent) : List Datagram :=
  events.filterMap fun
    | .received d => some d
    | _ => none

def emittedOf (events : List RecvEvent) : List OutChunk :=
  events.filterMap fun
    | .emitted chunk => some chunk
    | _ => none

@[simp] theorem receivedOf_append (xs ys : List RecvEvent) :
    receivedOf (xs ++ ys) = receivedOf xs ++ receivedOf ys := List.filterMap_append ..

@[simp] theorem emittedOf_append (xs ys : List RecvEvent) :
    emittedOf (xs ++ ys) = emittedOf xs ++ emittedOf ys := List.filterMap_append ..

/-- The network reader has not left its loop. -/
def receives (s : ReceiverState S) : Prop :=
  match s.reader with
  | .reserving | .receiving _ | .sending _ _ | .publishing _ _ => True
  | .poisoning _ | .resetting _ _ | .closing _ _ | .publishingPill _ _ | .joinDecoder _
  | .joinWriter _ | .returned _ | .asleep => False

/-- A chunk `decloop` has emitted and not yet sent. -/
def inHandOver (s : ReceiverState S) : Nat :=
  match s.decoder with
  | .sending _ => 1
  | .peeking | .decoding _ | .acking _ _ | .emitting _ | .poisoning _ | .closing _ | .done _ => 0

/-- Where the datagrams and the chunks are that the receiver holds. -/
structure HeldOk (pktCapacity : Nat) (events : List RecvEvent) (s : ReceiverState S) : Prop where
  packets : receives s → (receivedOf events).length + inDecoder s ≤
    (decodedOf events).length + queued s.net2dec + (inReader s).length
  bound : (receivedOf events).length ≤ (decodedOf events).length + pktCapacity
  chunks : (emittedOf events).length + (closedChunks s).length =
    s.writes.length + (inWriter s).length + queued s.dec2out + inHandOver s

variable {wh : Wirehair S} {pktCapacity chunkCapacity : Nat} {socket : Option (List Recv)}
  {events : List RecvEvent} {event : RecvEvent} {s s' : ReceiverState S}
  {net : Queue (Option Datagram)} {out : Queue (Option OutChunk)}

/-- An event nobody counts. -/
theorem HeldOk.quiet (held : HeldOk pktCapacity events s) (received : receivedOf [event] = [])
    (decoded : decodedOf [event] = []) (emitted : emittedOf [event] = []) :
    HeldOk pktCapacity (events ++ [event]) s := by
  have same : receivedOf (events ++ [event]) = receivedOf events ∧
      decodedOf (events ++ [event]) = decodedOf events ∧
      emittedOf (events ++ [event]) = emittedOf events := by
    rw [receivedOf_append, decodedOf_append, emittedOf_append, received, decoded, emitted]
    simp only [List.append_nil, and_self]
  constructor
  · rw [same.1, same.2.1]
    exact held.packets
  · rw [same.1, same.2.1]
    exact held.bound
  · rw [same.2.2]
    exact held.chunks

/-- A step of the network reader leaves the chunks alone. -/
theorem HeldOk.netReader (ok : RecvOk wh pktCapacity chunkCapacity socket events s net out)
    (held : HeldOk pktCapacity events s) (step : netReaderStep s = some (event, s')) :
    HeldOk pktCapacity (events ++ [event]) s' := by
  have quiet : HeldOk pktCapacity (events ++ [.quiet]) s := held.quiet rfl rfl rfl
  obtain ⟨packets, bound, chunks⟩ := quiet
  cases at_ : s.reader with
  | reserving =>
    have inside := packets (by rw [receives, at_]; trivial)
    rw [inReader, at_] at inside
    simp only [netReaderStep, at_] at step
    obtain ⟨reserved, -, same⟩ := Option.map_eq_some_iff.mp step
    cases reserved with
    | none =>
      cases same
      exact ⟨packets, bound, chunks⟩
    | some slot =>
      cases same
      exact ⟨fun _ => inside, bound, chunks⟩
  | receiving slot =>
    simp only [netReaderStep, at_] at step
    split at step
    · cases step
    · cases step
      exact ⟨False.elim, bound, chunks⟩
    · cases step
      exact ⟨False.elim, bound, chunks⟩
    next d rest _ =>
      cases step
      have inside := held.packets (by rw [receives, at_]; trivial)
      have taken := ok.count
      have queue := queued_holds ok.net2dec
      obtain ⟨-, room⟩ := ok.slot slot (by rw [slotToReceive, at_])
      unfold Queue.HasRoom at room
      rw [inReader, at_, List.length_nil] at inside
      have one : receivedOf [.received d] = [d] := rfl
      have none_ : decodedOf [.received d] = [] := rfl
      constructor
      · intro _
        rw [receivedOf_append, decodedOf_append, one, none_, List.append_nil, List.length_append]
        exact Nat.le_trans (Nat.le_of_eq (Nat.add_right_comm _ _ _)) (Nat.succ_le_succ inside)
      · rw [receivedOf_append, decodedOf_append, one, none_, List.append_nil, List.length_append,
          List.length_singleton]
        omega
      · have none_ : emittedOf [.received d] = [] := rfl
        rw [emittedOf_append, none_, List.append_nil]
        exact held.chunks
  | sending slot last =>
    have inside := packets (by rw [receives, at_]; trivial)
    rw [inReader, at_] at inside
    simp only [netReaderStep, at_, Option.some.injEq, Prod.mk.injEq] at step
    obtain ⟨rfl, rfl⟩ := step
    cases channelSendChecks s.net2dec slot with
    | true => exact ⟨fun _ => inside, bound, chunks⟩
    | false => exact ⟨False.elim, bound, chunks⟩
  | publishing slot last =>
    have inside := packets (by rw [receives, at_]; trivial)
    rw [inReader, at_, List.length_singleton] at inside
    obtain ⟨rfl, room⟩ := ok.slot slot (by rw [slotToReceive, at_])
    simp only [netReaderStep, at_, Option.some.injEq, Prod.mk.injEq] at step
    obtain ⟨rfl, rfl⟩ := step
    refine ⟨fun _ => ?_, bound, chunks⟩
    have more := queued_more ok.net2dec (ok.net2dec.sent room)
    have empty : (inReader { s with
        net2dec := s.net2dec.moved .producer
        reader := if last then .poisoning .success else .reserving }).length = 0 := by
      cases last <;> rfl
    rw [empty]
    change _ ≤ _ + queued (s.net2dec.moved .producer) + 0
    rw [more]
    exact inside
  | poisoning retval =>
    simp only [netReaderStep, at_] at step
    obtain ⟨reserved, -, same⟩ := Option.map_eq_some_iff.mp step
    cases reserved
    all_goals
      cases same
      exact ⟨False.elim, bound, chunks⟩
  | resetting slot retval | publishingPill slot retval =>
    simp only [netReaderStep, at_, Option.some.injEq, Prod.mk.injEq] at step
    obtain ⟨rfl, rfl⟩ := step
    exact ⟨False.elim, bound, chunks⟩
  | closing slot retval =>
    simp only [netReaderStep, at_, Option.some.injEq, Prod.mk.injEq] at step
    obtain ⟨rfl, rfl⟩ := step
    cases channelSendChecks s.net2dec slot with
    | true | false => exact ⟨False.elim, bound, chunks⟩
  | joinDecoder retval | joinWriter retval =>
    simp only [netReaderStep, at_] at step
    split at step
    next =>
      cases step
      exact ⟨False.elim, bound, chunks⟩
    next => cases step
  | returned | asleep => simp only [netReaderStep, at_, reduceCtorEq] at step

theorem HeldOk.decloop (ok : RecvOk wh pktCapacity chunkCapacity socket events s net out)
    (held : HeldOk pktCapacity events s) (wakes : Bool)
    (step : decloopStep wh wakes s = some (event, s')) :
    HeldOk pktCapacity (events ++ [event]) s' := by
  have quiet : HeldOk pktCapacity (events ++ [.quiet]) s := held.quiet rfl rfl rfl
  obtain ⟨packets, bound, chunks⟩ := quiet
  cases at_ : s.decoder with
  | peeking =>
    simp only [inDecoder, closedChunks, inHandOver, at_] at packets chunks
    simp only [decloopStep, at_] at step
    obtain ⟨peeked, -, same⟩ := Option.map_eq_some_iff.mp step
    cases peeked
    all_goals
      cases same
      exact ⟨packets, bound, chunks⟩
  | decoding slot =>
    simp only [decloopStep, at_] at step
    split at step
    next =>
      simp only [inDecoder, closedChunks, inHandOver, at_] at packets chunks
      cases step
      exact ⟨packets, bound, chunks⟩
    next d _ =>
      cases step
      have inside := held.packets
      have before := held.bound
      have whole := held.chunks
      simp only [inDecoder, closedChunks, inHandOver, at_] at inside whole
      have none_ : receivedOf [.decoded d] = [] := rfl
      have one : decodedOf [.decoded d] = [d] := rfl
      have none' : emittedOf [.decoded d] = [] := rfl
      constructor
      · intro goes
        rw [receivedOf_append, decodedOf_append, none_, one, List.append_nil, List.length_append,
          List.length_singleton]
        have inside := inside goes
        change _ + 1 ≤ _ + 1 + queued s.net2dec + (inReader s).length
        omega
      · rw [receivedOf_append, decodedOf_append, none_, List.append_nil, List.length_append]
        omega
      · rw [emittedOf_append, none', List.append_nil]
        exact whole
  | acking slot ret =>
    obtain ⟨rfl, waiting⟩ := ok.decodeSlot slot (by rw [slotToDecode, at_])
    have open_ := ok.openNet (by rw [decodes, at_]; trivial)
    have less := queued_less ok.net2dec (ok.net2dec.acked waiting)
    simp only [inDecoder, closedChunks, inHandOver, at_] at packets chunks
    simp only [decloopStep, at_, ok.net2dec.ack_eq open_, Option.some.injEq, Prod.mk.injEq] at step
    obtain ⟨rfl, rfl⟩ := step
    have back (goes : receives s) : (receivedOf (events ++ [.quiet])).length + 0 ≤
        (decodedOf (events ++ [.quiet])).length + queued (s.net2dec.moved .consumer) +
          (inReader s).length := by
      have := packets goes
      omega
    -- four places the result can lead to, with nothing in hand
    by_cases zero : ret = 0
    · simp only [if_pos zero]
      exact ⟨back, bound, chunks⟩
    by_cases eot : ret = -Hgap.eot.code
    · simp only [if_neg zero, if_pos eot]
      exact ⟨back, bound, chunks⟩
    by_cases error : ret < 0
    · simp only [if_neg zero, if_neg eot, if_pos error]
      exact ⟨back, bound, chunks⟩
    · simp only [if_neg zero, if_neg eot, if_neg error]
      exact ⟨back, bound, chunks⟩
  | emitting ret =>
    simp only [decloopStep, at_] at step
    split at step
    next =>
      cases step
      exact ⟨packets, bound, chunks⟩
    next e _ =>
      split at step
      next =>
        cases step
        have inside := held.packets
        have whole := held.chunks
        simp only [inDecoder, closedChunks, inHandOver, at_] at inside whole
        have none_ : receivedOf [.emitted ⟨s.dec.chunk.num, e.out⟩] = [] := rfl
        have none' : decodedOf [.emitted ⟨s.dec.chunk.num, e.out⟩] = [] := rfl
        have one : emittedOf [.emitted ⟨s.dec.chunk.num, e.out⟩] = [⟨s.dec.chunk.num, e.out⟩] := rfl
        constructor
        · rw [receivedOf_append, decodedOf_append, none_, none', List.append_nil, List.append_nil]
          exact inside
        · rw [receivedOf_append, decodedOf_append, none_, none', List.append_nil, List.append_nil]
          exact held.bound
        · rw [emittedOf_append, one, List.length_append]
          exact congrArg (· + 1) whole
      next =>
        simp only [inDecoder, closedChunks, inHandOver, at_] at packets chunks
        cases step
        exact ⟨packets, bound, chunks⟩
  | sending chunk =>
    simp only [inDecoder, closedChunks, inHandOver, at_] at packets chunks
    rcases ok.dec2out.send_eq ok.openOut (some chunk) with
      ⟨-, blocked⟩ | ⟨chan, answer, -, -, holds⟩
    · simp only [decloopStep, at_, blocked, Option.map_none, reduceCtorEq] at step
    · simp only [decloopStep, at_, answer, Option.map_some, Option.some.injEq, Prod.mk.injEq] at step
      obtain ⟨rfl, rfl⟩ := step
      have more := queued_more ok.dec2out holds
      refine ⟨packets, bound, chunks.trans ?_⟩
      change _ + queued s.dec2out + 1 = _ + queued chan + 0
      rw [more]
      rfl
  | poisoning retval =>
    obtain ⟨-, bound, chunks⟩ : HeldOk pktCapacity (events ++ [.signalLost]) s :=
      held.quiet rfl rfl rfl
    obtain ⟨packets, bound', chunks'⟩ : HeldOk pktCapacity (events ++ [.poisoned]) s :=
      held.quiet rfl rfl rfl
    simp only [inDecoder, closedChunks, inHandOver, at_] at packets chunks chunks'
    simp only [decloopStep, at_, poisonNet] at step
    split at step
    · cases step
      exact ⟨False.elim, bound, chunks⟩
    · cases step
      exact ⟨packets, bound', chunks'⟩
  | closing retval =>
    simp only [inDecoder, closedChunks, inHandOver, at_] at packets chunks
    rcases ok.dec2out.send_eq ok.openOut none with ⟨-, blocked⟩ | ⟨chan, answer, -, -, holds⟩
    · simp only [decloopStep, at_, blocked, Option.map_none, reduceCtorEq] at step
    · simp only [decloopStep, at_, answer, Option.map_some, Option.some.injEq, Prod.mk.injEq] at step
      obtain ⟨rfl, rfl⟩ := step
      have more := queued_more ok.dec2out holds
      refine ⟨packets, bound, ?_⟩
      change _ + 1 = _ + queued chan + 0
      rw [more]
      exact congrArg (· + 1) chunks
  | done retval => simp only [decloopStep, at_, reduceCtorEq] at step

theorem HeldOk.writer (ok : RecvOk wh pktCapacity chunkCapacity socket events s net out)
    (held : HeldOk pktCapacity events s) (answer : Option Nat)
    (step : writerStep answer s = some (event, s')) :
    HeldOk pktCapacity (events ++ [event]) s' := by
  cases at_ : s.writer with
  | receiving =>
    obtain ⟨packets, bound, chunks⟩ : HeldOk pktCapacity (events ++ [.quiet]) s :=
      held.quiet rfl rfl rfl
    simp only [inWriter, at_] at chunks
    rcases ok.dec2out.recv_eq ok.openOut with ⟨-, blocked⟩ | ⟨value, chan, answer, -, -, holds⟩
    · simp only [writerStep, at_, blocked, Option.map_none, reduceCtorEq] at step
    · simp only [writerStep, at_, answer, Option.map_some, Option.some.injEq] at step
      have less := queued_less ok.dec2out holds
      -- the element taken is in hand
      have moved : s.writes.length + 1 + queued chan + inHandOver s =
          s.writes.length + 0 + queued s.dec2out + inHandOver s := by omega
      cases value with
      | none =>
        cases step
        exact ⟨packets, bound, chunks.trans moved.symm⟩
      | some chunk =>
        cases step
        exact ⟨packets, bound, chunks.trans moved.symm⟩
  | writing chunk =>
    simp only [writerStep, at_] at step
    have written : (s.writes ++ [chunk.data.take (answer.getD 0)]).length + 0 =
        s.writes.length + 1 := by
      rw [List.length_append, List.length_singleton]
    split at step
    · cases step
      obtain ⟨packets, bound, chunks⟩ : HeldOk pktCapacity (events ++ [.wrote chunk]) s :=
        held.quiet rfl rfl rfl
      simp only [inWriter, at_, List.length_singleton] at chunks
      rw [← written] at chunks
      exact ⟨packets, bound, chunks⟩
    · cases step
      obtain ⟨packets, bound, chunks⟩ : HeldOk pktCapacity (events ++ [.writeError]) s :=
        held.quiet rfl rfl rfl
      simp only [inWriter, at_, List.length_singleton] at chunks
      rw [← written] at chunks
      exact ⟨packets, bound, chunks⟩
  | done ret => simp only [writerStep, at_, reduceCtorEq] at step

theorem HeldOk.step (ok : RecvOk wh pktCapacity chunkCapacity socket events s net out)
    (held : HeldOk pktCapacity events s) (step : ReceiverStep wh s event s') :
    HeldOk pktCapacity (events ++ [event]) s' := by
  obtain ⟨actor, step⟩ := step
  unfold receiverStep at step
  split at step
  · cases step
  cases actor with
  | net => exact held.netReader ok step
  | decode wakes => exact held.decloop ok wakes step
  | write answer => exact held.writer ok answer step

/-- The bounds of every run, in elements of the channels. -/
theorem held_run (config : HgapConfig) (slots : Nat → Option Datagram)
    (pointers : Nat → Option OutChunk)
    (run : Steps (ReceiverStep wh)
      (.start (pktChanSize config) (chunkChanSize config) socket slots pointers) events s) :
    (receivedOf events).length ≤ (decodedOf events).length + pktChanSize config ∧
      (emittedOf events).length ≤ s.writes.length + chunkChanSize config + 2 := by
  obtain ⟨net, out, ok, held⟩ : ∃ net out, RecvOk wh (pktChanSize config) (chunkChanSize config)
      socket events s net out ∧ HeldOk (pktChanSize config) events s := by
    refine run.invariant (fun events s => ∃ net out, RecvOk wh (pktChanSize config)
      (chunkChanSize config) socket events s net out ∧ HeldOk (pktChanSize config) events s) ?_ ?_
    · refine ⟨.empty, .empty, recvOk_start slots pointers, ?_, Nat.zero_le _, ?_⟩
      · exact fun _ => Nat.zero_le _
      · have empty : 0 = 0 + queued (channelNew (chunkChanSize config) pointers) :=
          queued_holds (holds_new _ _)
        exact empty
    · rintro events s event s' ⟨net, out, ok, held⟩ step
      obtain ⟨net', out', ok', -⟩ := ok.step step
      exact ⟨net', out', ok', held.step ok step⟩
  refine ⟨held.bound, ?_⟩
  have queue := queued_le ok.dec2out
  have chunks := held.chunks
  have hand : inHandOver s ≤ 1 := by
    unfold inHandOver
    split <;> omega
  have writing : (inWriter s).length ≤ 1 := by
    unfold inWriter
    split <;> simp
  omega

/-- The receiver never holds more datagrams than fit half its memory limit, nor more chunks than
their channel takes and one at each end of it, whatever its threads, the network and the output
do. -/
theorem receiver_memory (config : HgapConfig) (slots : Nat → Option Datagram)
    (pointers : Nat → Option OutChunk)
    (run : Steps (ReceiverStep wh)
      (.start (pktChanSize config) (chunkChanSize config) socket slots pointers) events s) :
    ((receivedOf events).length - (decodedOf events).length) * pktSlotSize config ≤
        config.memLimit / 2 ∧
      (emittedOf events).length ≤ s.writes.length + chunkChanSize config + 2 := by
  obtain ⟨packets, chunks⟩ := held_run config slots pointers run
  refine ⟨?_, chunks⟩
  exact Nat.le_trans (Nat.mul_le_mul_right _ (Nat.sub_le_iff_le_add'.mpr packets))
    (Nat.div_mul_le_self _ (pktSlotSize config))

end

section Allocation
variable {S : Type} {wh : Wirehair S} {pktCapacity chunkCapacity : Nat}
  {socket : Option (List Recv)} {events : List RecvEvent} {event : RecvEvent}
  {s s' : ReceiverState S}

variable (wh) in
/-- What `decloop` knows of its decoder at each of its places. -/
def DecoderPlace (s : ReceiverState S) : Prop :=
  match s.decoder with
  | .peeking | .decoding _ | .sending _ => Resting wh s.dec
  | .acking _ ret => ret ≤ 0 ∧ Resting wh s.dec ∨ ∃ taken, Ready wh ⟨ret, s.dec, taken⟩
  | .emitting ret => ∃ taken, Ready wh ⟨ret, s.dec, taken⟩
  | .poisoning _ | .closing _ | .done _ => True

variable (wh) in
/-- Every chunk handed over was allowed by the decoder. -/
structure Allowed (events : List RecvEvent) (s : ReceiverState S) : Prop where
  coherent : Coherent s.dec
  place : DecoderPlace wh s
  sizes : ∀ chunk ∈ emittedOf events, chunk.data.length ≤ hgapMaxChunkSize

/-- The other threads do not touch the decoder. -/
theorem netReader_beside (step : netReaderStep s = some (event, s')) :
    s'.decoder = s.decoder ∧ s'.dec = s.dec ∧ emittedOf [event] = [] := by
  unfold netReaderStep at step
  split at step
  · obtain ⟨reserved, -, same⟩ := Option.map_eq_some_iff.mp step
    cases reserved
    all_goals
      cases same
      exact ⟨rfl, rfl, rfl⟩
  · split at step
    · cases step
    all_goals
      cases step
      exact ⟨rfl, rfl, rfl⟩
  · cases step
    exact ⟨rfl, rfl, rfl⟩
  · cases step
    exact ⟨rfl, rfl, rfl⟩
  · obtain ⟨reserved, -, same⟩ := Option.map_eq_some_iff.mp step
    cases reserved
    all_goals
      cases same
      exact ⟨rfl, rfl, rfl⟩
  · cases step
    exact ⟨rfl, rfl, rfl⟩
  · cases step
    exact ⟨rfl, rfl, rfl⟩
  · cases step
    exact ⟨rfl, rfl, rfl⟩
  · split at step
    · cases step
      exact ⟨rfl, rfl, rfl⟩
    · cases step
  · split at step
    · cases step
      exact ⟨rfl, rfl, rfl⟩
    · cases step
  · cases step
  · cases step

theorem writer_beside {answer : Option Nat} (step : writerStep answer s = some (event, s')) :
    s'.decoder = s.decoder ∧ s'.dec = s.dec ∧ emittedOf [event] = [] := by
  unfold writerStep at step
  split at step
  · obtain ⟨taken, -, same⟩ := Option.map_eq_some_iff.mp step
    rcases taken with _ | ⟨_ | chunk, chan⟩
    all_goals
      cases same
      exact ⟨rfl, rfl, rfl⟩
  · dsimp only at step
    split at step
    all_goals
      cases step
      exact ⟨rfl, rfl, rfl⟩
  · cases step

theorem Allowed.beside (allowed : Allowed wh events s)
    (beside : s'.decoder = s.decoder ∧ s'.dec = s.dec ∧ emittedOf [event] = []) :
    Allowed wh (events ++ [event]) s' := by
  obtain ⟨decoder, dec, nothing⟩ := beside
  constructor
  · rw [dec]
    exact allowed.coherent
  · rw [DecoderPlace, decoder, dec]
    exact allowed.place
  · rw [emittedOf_append, nothing, List.append_nil]
    exact allowed.sizes

theorem Allowed.decloop (recovers : wh.RecoversRead) (allowed : Allowed wh events s) (wakes : Bool)
    (step : decloopStep wh wakes s = some (event, s')) : Allowed wh (events ++ [event]) s' := by
  obtain ⟨coherent, place, sizes⟩ := allowed
  have same (event : RecvEvent) (nothing : emittedOf [event] = []) :
      ∀ chunk ∈ emittedOf (events ++ [event]), chunk.data.length ≤ hgapMaxChunkSize := by
    rw [emittedOf_append, nothing, List.append_nil]
    exact sizes
  cases at_ : s.decoder with
  | peeking =>
    rw [DecoderPlace, at_] at place
    simp only [decloopStep, at_] at step
    obtain ⟨peeked, -, eq⟩ := Option.map_eq_some_iff.mp step
    cases peeked with
    | none =>
      cases eq
      exact ⟨coherent, trivial, same .quiet rfl⟩
    | some slot =>
      cases eq
      exact ⟨coherent, place, same .quiet rfl⟩
  | decoding slot =>
    rw [DecoderPlace, at_] at place
    simp only [decloopStep, at_] at step
    split at step
    next =>
      cases step
      exact ⟨coherent, trivial, same .quiet rfl⟩
    next d _ =>
      cases step
      refine ⟨coherent.read wh d, ?_, same (.decoded d) rfl⟩
      rcases place.read recovers d with ⟨quiet, resting⟩ | ready
      · exact .inl ⟨quiet, resting⟩
      · exact .inr ⟨_, ready⟩
  | acking slot ret =>
    rw [DecoderPlace, at_] at place
    simp only [decloopStep, at_] at step
    split at step
    next =>
      cases step
      exact ⟨coherent, trivial, same .quiet rfl⟩
    next chan _ =>
      cases step
      refine ⟨coherent, ?_, same .quiet rfl⟩
      by_cases zero : ret = 0
      · simp only [if_pos zero]
        rcases place with ⟨-, resting⟩ | ⟨taken, ready⟩
        · exact resting
        · exact absurd zero (Int.ne_of_gt ready.positive)
      by_cases eot : ret = -Hgap.eot.code
      · simp only [if_neg zero, if_pos eot]
        trivial
      by_cases error : ret < 0
      · simp only [if_neg zero, if_neg eot, if_pos error]
        trivial
      · simp only [if_neg zero, if_neg eot, if_neg error]
        rcases place with ⟨quiet, -⟩ | ready
        · omega
        · exact ready
  | emitting ret =>
    rw [DecoderPlace, at_] at place
    obtain ⟨taken, ready⟩ := place
    obtain ⟨e, returns, success, length, emitted⟩ := ready.emit
    dsimp only at returns length emitted
    simp only [decloopStep, at_, returns, success, if_true, Option.some.injEq, Prod.mk.injEq] at step
    obtain ⟨rfl, rfl⟩ := step
    have coherent := coherent.emit wh ret.toNat e returns
    refine ⟨coherent, ⟨coherent, fun _ => by rw [emitted], fun incomplete => ?_⟩, ?_⟩
    · rw [emitted] at incomplete
      cases incomplete.symm.trans ready.complete
    · have one : emittedOf [.emitted ⟨s.dec.chunk.num, e.out⟩] = [⟨s.dec.chunk.num, e.out⟩] := rfl
      intro chunk member
      rw [emittedOf_append, one] at member
      rcases List.mem_append.mp member with before | now
      · exact sizes chunk before
      · obtain rfl := List.mem_singleton.mp now
        have ret := ready.ret
        have len := ready.len
        dsimp only at ret len ⊢
        omega
  | sending chunk =>
    rw [DecoderPlace, at_] at place
    simp only [decloopStep, at_] at step
    obtain ⟨sent, -, eq⟩ := Option.map_eq_some_iff.mp step
    cases sent with
    | none =>
      cases eq
      exact ⟨coherent, trivial, same .quiet rfl⟩
    | some chan =>
      cases eq
      exact ⟨coherent, place, same .quiet rfl⟩
  | poisoning retval =>
    simp only [decloopStep, at_, poisonNet] at step
    split at step
    · cases step
      exact ⟨coherent, trivial, same .signalLost rfl⟩
    · cases step
      exact ⟨coherent, trivial, same .poisoned rfl⟩
  | closing retval =>
    simp only [decloopStep, at_] at step
    obtain ⟨sent, -, eq⟩ := Option.map_eq_some_iff.mp step
    cases sent
    all_goals
      cases eq
      exact ⟨coherent, trivial, same .quiet rfl⟩
  | done retval => simp only [decloopStep, at_, reduceCtorEq] at step

theorem Allowed.step (recovers : wh.RecoversRead) (allowed : Allowed wh events s)
    (step : ReceiverStep wh s event s') : Allowed wh (events ++ [event]) s' := by
  obtain ⟨actor, step⟩ := step
  unfold receiverStep at step
  split at step
  · cases step
  cases actor with
  | net => exact allowed.beside (netReader_beside step)
  | decode wakes => exact allowed.decloop recovers wakes step
  | write answer => exact allowed.beside (writer_beside step)

/-- Whatever datagrams arrive, no buffer for a chunk is larger than HGAP_MAX_CHUNK_SIZE, and the
octets emitted and not yet written are bounded by that. -/
theorem receiver_allocation (recovers : wh.RecoversRead) (config : HgapConfig)
    (slots : Nat → Option Datagram) (pointers : Nat → Option OutChunk)
    (run : Steps (ReceiverStep wh)
      (.start (pktChanSize config) (chunkChanSize config) socket slots pointers) events s) :
    (∀ ret, s.decoder = .emitting ret → 0 < ret ∧ ret ≤ hgapMaxChunkSize) ∧
      (((emittedOf events).drop s.writes.length).map (·.data.length)).sum ≤
        (chunkChanSize config + 2) * hgapMaxChunkSize := by
  have start : Allowed wh [] (.start (pktChanSize config) (chunkChanSize config) socket slots
      pointers) := ⟨coherent_new, resting_new, fun _ h => (List.not_mem_nil h).elim⟩
  obtain ⟨-, place, sizes⟩ := run.invariant (Allowed wh) start
    fun _ _ _ _ allowed step => allowed.step recovers step
  constructor
  · intro ret emitting
    rw [DecoderPlace, emitting] at place
    obtain ⟨taken, ready⟩ := place
    have len := ready.len
    have ret := ready.ret
    exact ⟨ready.positive, by dsimp only at ret len; omega⟩
  · have count : ((emittedOf events).drop s.writes.length).length ≤ chunkChanSize config + 2 := by
      have := (held_run config slots pointers run).2
      rw [List.length_drop]
      omega
    have total := List.sum_le_card_nsmul
      (((emittedOf events).drop s.writes.length).map (·.data.length)) hgapMaxChunkSize (by
        intro n member
        obtain ⟨chunk, held, rfl⟩ := List.mem_map.mp member
        exact sizes chunk (List.mem_of_mem_drop held))
    rw [List.length_map, Nat.nsmul_eq_mul] at total
    exact Nat.le_trans total (Nat.mul_le_mul_right _ count)

end Allocation

section Full

/-- Half the memory is one slot. -/
private def oneSlot : HgapConfig := { HgapConfig.smallest with memLimit := 82 }

/-- And the slots can be full. -/
theorem receiver_memory_full : ∃ events s,
    Steps (ReceiverStep RepetitionCode.code)
      (.start (pktChanSize oneSlot) (chunkChanSize oneSlot) (some [.datagram .begin_])
        (fun _ => none) (fun _ => none)) events s ∧
    ((receivedOf events).length - (decodedOf events).length) * pktSlotSize oneSlot =
      oneSlot.memLimit / 2 := by
  have run : (scheduled (receiverStep RepetitionCode.code)
      (.start (pktChanSize oneSlot) (chunkChanSize oneSlot) (some [.datagram .begin_])
        (fun _ => none) (fun _ => none)) [.net, .net, .net]).map (fun (events, _) =>
          decide (oneSlot.memLimit / 2 ≤
            ((receivedOf events).length - (decodedOf events).length) * pktSlotSize oneSlot)) =
        some true := by
    decide +kernel
  obtain ⟨⟨events, s⟩, run, told⟩ := Option.map_eq_some_iff.mp run
  have steps := scheduled_steps run
  exact ⟨events, s, steps, Nat.le_antisymm (receiver_memory oneSlot _ _ steps).1
    (of_decide_eq_true told)⟩

private def emittingAt : DecodeAt → Option Int
  | .emitting ret => some ret
  | _ => none

/-- The chunk of one octet is about to be emitted. -/
theorem receiver_allocation_octet : ∃ events s,
    Steps (ReceiverStep RepetitionCode.code)
      (.start (pktChanSize oneSlot) (chunkChanSize oneSlot)
        (some [.datagram .begin_, .datagram (.zeroed (hgapWriteHeader ⟨0, 1, 0, 1⟩ ++ [7]))])
        (fun _ => none) (fun _ => none)) events s ∧
    s.decoder = .emitting 1 ∧ (1 : Int) ≤ hgapMaxChunkSize := by
  have run : (scheduled (receiverStep RepetitionCode.code)
      (.start (pktChanSize oneSlot) (chunkChanSize oneSlot)
        (some [.datagram .begin_, .datagram (.zeroed (hgapWriteHeader ⟨0, 1, 0, 1⟩ ++ [7]))])
        (fun _ => none) (fun _ => none))
      (turns [(4, .net), (3, .decode true), (4, .net), (3, .decode true)])).map
        (fun (_, s) => decide (emittingAt s.decoder = some 1)) = some true := by
    decide +kernel
  obtain ⟨⟨events, s⟩, run, told⟩ := Option.map_eq_some_iff.mp run
  have emitting : s.decoder = .emitting 1 := by
    have ret := of_decide_eq_true told
    unfold emittingAt at ret
    split at ret
    next at_ =>
      rw [at_, Option.some.inj ret]
    next => cases ret
  have steps := scheduled_steps run
  exact ⟨events, s, steps, emitting,
    ((receiver_allocation RepetitionCode.recoversRead oneSlot _ _ steps).1 1 emitting).2⟩

end Full

end Hairgap.Guarantees
