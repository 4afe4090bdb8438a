import Hairgap.Guarantees.ReceiverRefinement

/-!
# A failing output and the threads behind it

The writer drains its channel no more once a write has failed, and nobody tells `decloop`. The
threads go on only as far as the chunks still to come fit the channel.
-/
namespace Hairgap.Guarantees
open Hairgap.Base Hairgap.Source

section
variable {S : Type} {wh : Wirehair S} {pktCapacity chunkCapacity : Nat}
  {socket : Option (List Recv)} {events : List RecvEvent} {event : RecvEvent}
  {s s' : ReceiverState S} {net : Queue (Option Datagram)} {out : Queue (Option OutChunk)}
  {reads : Nat} {retval : Int} {outs : List OutChunk}

/-- Where the network reader takes no step. -/
theorem RecvOk.net_stuck (ok : RecvOk wh pktCapacity chunkCapacity socket events s net out)
    (stuck : netReaderStep s = none) :
    (∃ verdict, s.reader = .returned verdict) ∨ (∃ slot, s.reader = .receiving slot) ∨
    s.reader = .asleep ∨
    (s.reader.waits = true ∧ s.net2dec.poisoned = false ∧ ¬ net.HasRoom pktCapacity) ∨
    (∃ retval, s.reader = .joinDecoder retval ∧ ∀ ret, s.decoder ≠ .done ret) ∨
    ∃ verdict, s.reader = .joinWriter verdict ∧ ∀ ret, s.writer ≠ .done ret := by
  have full (waits : s.reader.waits = true) (blocked : channelReserve s.net2dec = none) :
      s.reader.waits = true ∧ s.net2dec.poisoned = false ∧ ¬ net.HasRoom pktCapacity := by
    refine ⟨waits, ?_⟩
    cases poisoned : s.net2dec.poisoned with
    | true =>
      rw [channelReserve_poisoned poisoned] at blocked
      cases blocked
    | false =>
      refine ⟨rfl, fun room => ?_⟩
      rw [ok.net2dec.reserve_eq poisoned, if_pos room] at blocked
      cases blocked
  cases at_ : s.reader with
  | reserving =>
    simp only [netReaderStep, at_, Option.map_eq_none_iff] at stuck
    rw [at_] at full
    exact .inr (.inr (.inr (.inl (full rfl stuck))))
  | receiving slot => exact .inr (.inl ⟨slot, rfl⟩)
  | sending slot last | publishing slot last =>
    simp only [netReaderStep, at_, reduceCtorEq] at stuck
  | poisoning retval =>
    simp only [netReaderStep, at_, Option.map_eq_none_iff] at stuck
    rw [at_] at full
    exact .inr (.inr (.inr (.inl (full rfl stuck))))
  | resetting slot retval | closing slot retval | publishingPill slot retval =>
    simp only [netReaderStep, at_, reduceCtorEq] at stuck
  | joinDecoder retval =>
    refine .inr (.inr (.inr (.inr (.inl ⟨retval, rfl, fun ret done => ?_⟩))))
    simp only [netReaderStep, at_, done, reduceCtorEq] at stuck
  | joinWriter verdict =>
    refine .inr (.inr (.inr (.inr (.inr ⟨verdict, rfl, fun ret done => ?_⟩))))
    simp only [netReaderStep, at_, done, reduceCtorEq] at stuck
  | returned verdict => exact .inl ⟨verdict, rfl⟩
  | asleep => exact .inr (.inr (.inl rfl))

/-- Where `decloop` takes no step. -/
theorem RecvOk.decode_stuck (ok : RecvOk wh pktCapacity chunkCapacity socket events s net out)
    (stuck : decloopStep wh true s = none) :
    (∃ ret, s.decoder = .done ret) ∨ (s.decoder = .peeking ∧ net.taken = net.sent.length) ∨
      (∀ ret, s.decoder ≠ .done ret) ∧ ¬ out.HasRoom chunkCapacity := by
  have full (value : Option OutChunk) (blocked : channelSend s.dec2out value = none) :
      ¬ out.HasRoom chunkCapacity := by
    rcases ok.dec2out.send_eq ok.openOut value with ⟨full, -⟩ | ⟨chan, answer, -⟩
    · exact full
    · rw [answer] at blocked
      cases blocked
  cases at_ : s.decoder with
  | peeking =>
    have open_ := ok.openNet (by rw [decodes, at_]; trivial)
    have order := ok.net2dec.order
    simp only [decloopStep, at_, ok.net2dec.peek_eq open_, Option.map_eq_none_iff] at stuck
    split at stuck
    · cases stuck
    · exact .inr (.inl ⟨rfl, by omega⟩)
  | decoding slot =>
    simp only [decloopStep, at_] at stuck
    split at stuck <;> cases stuck
  | acking slot ret =>
    simp only [decloopStep, at_] at stuck
    split at stuck <;> cases stuck
  | emitting ret =>
    simp only [decloopStep, at_] at stuck
    split at stuck
    · cases stuck
    · split at stuck <;> cases stuck
  | sending chunk =>
    simp only [decloopStep, at_, Option.map_eq_none_iff] at stuck
    exact .inr (.inr ⟨fun _ => DecodeAt.noConfusion, full _ stuck⟩)
  | poisoning retval => simp only [decloopStep, at_, reduceCtorEq] at stuck
  | closing retval =>
    simp only [decloopStep, at_, Option.map_eq_none_iff] at stuck
    exact .inr (.inr ⟨fun _ => DecodeAt.noConfusion, full _ stuck⟩)
  | done retval => exact .inl ⟨retval, rfl⟩

/-- Where the writer takes no step. -/
theorem RecvOk.write_stuck (ok : RecvOk wh pktCapacity chunkCapacity socket events s net out)
    (stuck : writerStep none s = none) :
    (∃ ret, s.writer = .done ret) ∨ s.writer = .receiving ∧ out.taken = out.sent.length := by
  cases at_ : s.writer with
  | receiving =>
    refine .inr ⟨rfl, ?_⟩
    rcases ok.dec2out.recv_eq ok.openOut with ⟨empty, -⟩ | ⟨value, chan, answer, -⟩
    · exact empty
    · simp only [writerStep, at_, answer, Option.map_some] at stuck
      cases value <;> cases stuck
  | writing chunk =>
    simp only [writerStep, at_] at stuck
    split at stuck <;> cases stuck
  | done retval => exact .inl ⟨retval, rfl⟩

/-- Before the network reader waits for a slot it has sent datagrams only. -/
theorem RecvOk.plain_waits (ok : RecvOk wh pktCapacity chunkCapacity socket events s net out)
    (waits : s.reader.waits = true) : none ∉ net.sent := by
  have plain := ok.plain
  intro marker
  cases at_ : s.reader with
  | reserving | poisoning =>
    rw [unclosed, at_] at plain
    exact plain trivial (List.mem_append_left _ marker)
  | _ =>
    rw [at_] at waits
    cases waits

theorem RecvOk.sent_prefix (ok : RecvOk wh pktCapacity chunkCapacity socket events s net out)
    (open_ : s.net2dec.poisoned = false) : net.sent <+: arrivals socket :=
  ⟨_, ok.sent open_⟩

/-- `decloop` has room for all it sends, as long as the chunks left behind by a failed writer
fit their channel. -/
theorem RecvOk.outRoom (ok : RecvOk wh pktCapacity chunkCapacity socket events s net out)
    (pos : 0 < chunkCapacity)
    (whole : decloopReads wh hgapDecoderNew (datagrams socket) = some (reads, retval, outs))
    (fits : writesOn s ∨ outs.length < s.writes.length + chunkCapacity)
    (stuck : writerStep none s = none) (busy : ∀ ret, s.decoder ≠ .done ret) :
    out.HasRoom chunkCapacity := by
  obtain ⟨given, sent, before, -⟩ := ok.given whole
  obtain ⟨wrote, taken, length, -⟩ := ok.writes
  have order := ok.dec2out.order
  have unclosed : closedChunks s = [] := by
    unfold closedChunks
    cases at_ : s.decoder with
    | done ret => exact absurd at_ (busy ret)
    | _ => rfl
  rw [unclosed, List.append_nil] at sent
  have bound := before.length_le
  have count := congrArg List.length sent
  rw [List.length_map] at count
  unfold Queue.HasRoom
  rcases ok.write_stuck stuck with ⟨ret, done⟩ | ⟨-, empty⟩
  · by_cases on : writesOn s
    · -- the writer ends on the NULL chunk only, which is not sent yet
      obtain rfl := on ret done
      have marker : none ∈ out.sent.take out.taken := by
        rw [taken, inWriter, done]
        simp
      have marker := List.mem_of_mem_take marker
      rw [sent] at marker
      simp at marker
    · have fits := fits.resolve_left on
      have failed : inWriter s = [] := by
        rw [inWriter, done]
        cases ret with
        | success => exact absurd (fun r h => by rw [done] at h; cases h; rfl) on
        | _ => rfl
      have drained := congrArg List.length taken
      rw [failed, List.append_nil, List.length_take, List.length_map, Nat.min_eq_left order] at drained
      omega
  · omega

/-- When no thread takes a step, `hgap_receive` has returned or waits in `recvfrom`. -/
theorem RecvOk.idle (ok : RecvOk wh pktCapacity chunkCapacity socket events s net out)
    (pktPos : 0 < pktCapacity) (chunkPos : 0 < chunkCapacity)
    (whole : decloopReads wh hgapDecoderNew (datagrams socket) = some (reads, retval, outs))
    (fits : writesOn s ∨ outs.length < s.writes.length + chunkCapacity)
    (early : retval = Hgap.success.code → (datagrams socket).length < reads + pktCapacity)
    (awake : s.reader ≠ .asleep) (running : s.exited = false)
    (stuck : ∀ actor, receiverStep wh s actor = none) :
    (∃ verdict, s.reader = .returned verdict) ∨ ∃ slot, s.reader = .receiving slot := by
  have reads_ := stuck .net
  have decodes_ := stuck (.decode true)
  have writes_ := stuck (.write none)
  simp only [receiverStep, running, if_neg Bool.false_ne_true] at reads_ decodes_ writes_
  have order := ok.net2dec.order
  have counted := congrArg List.length ok.decoded
  rw [List.length_append, ok.count] at counted
  have decoder : (∃ ret, s.decoder = .done ret) ∨
      s.decoder = .peeking ∧ net.taken = net.sent.length := by
    rcases ok.decode_stuck decodes_ with done | empty | ⟨busy, full⟩
    · exact .inl done
    · exact .inr empty
    · exact absurd (ok.outRoom chunkPos whole fits writes_ busy) full
  rcases ok.net_stuck reads_ with
    returned | waiting | asleep | ⟨waits, open_, full⟩ | ⟨reader, at_, alive⟩ | ⟨verdict, at_, alive⟩
  · exact .inl returned
  · exact .inr waiting
  · exact absurd asleep awake
  · exfalso
    unfold Queue.HasRoom at full
    rcases decoder with ⟨ret, done⟩ | ⟨-, empty⟩
    · -- `decloop` has left its loop without poisoning the channel
      have success : ret = Hgap.success.code :=
        (ok.ends ret (by rw [leftWith, done])).resolve_left (by simp [open_])
      obtain ⟨given, -, -, ends⟩ := ok.given whole
      obtain ⟨read, verdict, -⟩ := ends ret done
      have early := early (verdict.trans success)
      have plain := unmarked_length (ok.plain_waits waits)
      have within := (unmarked_mono (ok.sent_prefix open_)).length_le
      simp only [ok.count, inDecoder, done] at read
      rw [plain] at within
      have same : (unmarked (arrivals socket)).length = (datagrams socket).length := rfl
      omega
    · omega
  · exfalso
    rcases decoder with ⟨ret, done⟩ | ⟨peeks, empty⟩
    · exact alive ret done
    · -- the pill is sent, and `decloop` would have seen it
      have open_ := ok.openNet (by rw [decodes, peeks]; trivial)
      have marker := (ok.left reader (by rw [readerLeftWith, at_])).2 open_
      have all := ok.sent open_
      rw [unsentPackets, at_, List.append_nil] at all
      simp only [undecoded, inDecoder, peeks, empty, all, List.drop_length] at counted
      have fewer := unmarked_length_lt marker
      have same : (unmarked (arrivals socket)).length = (datagrams socket).length := rfl
      rw [unmarked_nil, List.length_nil] at counted
      omega
  · exfalso
    obtain ⟨ret, _, done, -⟩ := ok.joined verdict at_
    rcases ok.write_stuck writes_ with ⟨ret, done⟩ | ⟨receives, empty⟩
    · exact alive ret done
    · obtain ⟨given, sent, -⟩ := ok.given whole
      obtain ⟨wrote, taken, -⟩ := ok.writes
      rw [inWriter, receives, List.append_nil, empty, List.take_length, sent, closedChunks, done]
        at taken
      have marker : none ∈ wrote.map some := taken ▸ by simp
      simp at marker

/-- Until `hgap_receive` has returned, some thread goes on or waits in `recvfrom`. -/
theorem RecvOk.progress (ok : RecvOk wh pktCapacity chunkCapacity socket events s net out)
    (pktPos : 0 < pktCapacity) (chunkPos : 0 < chunkCapacity)
    (whole : decloopReads wh hgapDecoderNew (datagrams socket) = some (reads, retval, outs))
    (fits : writesOn s ∨ outs.length < s.writes.length + chunkCapacity)
    (early : retval = Hgap.success.code → (datagrams socket).length < reads + pktCapacity)
    (awake : .signalLost ∉ events) (running : s.exited = false) :
    (∃ verdict, s.reader = .returned verdict) ∨ (∃ slot, s.reader = .receiving slot) ∨
      ∃ event s', ReceiverStep wh s event s' := by
  by_cases moves : ∃ event s', ReceiverStep wh s event s'
  · exact .inr (.inr moves)
  · have stuck (actor : RecvActor) : receiverStep wh s actor = none := by
      by_contra goes
      obtain ⟨⟨event, s'⟩, step⟩ := Option.ne_none_iff_exists'.mp goes
      exact moves ⟨event, s', actor, step⟩
    have asleep : s.reader ≠ .asleep := fun h => awake (ok.awake h)
    exact (ok.idle pktPos chunkPos whole fits early asleep running stuck).imp_right .inl

variable (wh chunkCapacity socket) in
/-- The failures the receiver gets over: a write of chunk `k`, counted from 0, when no more than
`k` chunks and the capacity of their channel are to come in all; and no lost signal. -/
def Endures (s : ReceiverState S) : RecvEvent → Prop
  | .writeError => ∀ retval outs, decloop wh hgapDecoderNew (datagrams socket) = some (retval, outs) →
      outs.length ≤ s.writes.length + chunkCapacity
  | .signalLost => False
  | _ => True

/-- A receiver whose chunks fit behind a failed write does not hang, whatever the order of the
threads' steps, unless `decloop` takes an error of the erasure code for the end of the transfer
with more datagrams to come than fit their channel. -/
theorem receiver_progresses (pktPos : 0 < pktCapacity) (chunkPos : 0 < chunkCapacity)
    (slots : Nat → Option Datagram) (pointers : Nat → Option OutChunk)
    (early : ∀ reads outs, decloopReads wh hgapDecoderNew (datagrams socket) =
      some (reads, Hgap.success.code, outs) → (datagrams socket).length < reads + pktCapacity)
    (run : Steps (Guarded (Endures wh chunkCapacity socket) (ReceiverStep wh))
      (.start pktCapacity chunkCapacity socket slots pointers) events s) :
    s.exited = true ∨ (∃ verdict, s.reader = .returned verdict) ∨
      (∃ slot, s.reader = .receiving slot) ∨ ∃ event s', ReceiverStep wh s event s' := by
  obtain ⟨verdict, outs, loop⟩ := decloop_returns wh coherent_new (datagrams socket)
  obtain ⟨⟨reads, retval, outs'⟩, whole, same⟩ := Option.map_eq_some_iff.mp
    ((decloopReads_decloop wh hgapDecoderNew (datagrams socket)).trans loop)
  obtain ⟨rfl, rfl⟩ := Prod.mk.inj same
  have preserved (s : ReceiverState S) (event : RecvEvent) (s' : ReceiverState S)
      (fits : writesOn s ∨ outs'.length < s.writes.length + chunkCapacity)
      (allowed : Endures wh chunkCapacity socket s event) (move : RecvMove s event s') :
      writesOn s' ∨ outs'.length < s'.writes.length + chunkCapacity := by
    rcases move.fails with goes | ⟨failed, writes⟩ | ⟨rfl, writes⟩
    · exact .inl goes
    · rw [writes]
      exact .inr (fits.resolve_left failed)
    · have within := allowed retval outs' loop
      exact .inr (by omega)
  obtain ⟨net, out, ok, fits⟩ := receive_run _
    (fun s => writesOn s ∨ outs'.length < s.writes.length + chunkCapacity) (.inl nofun) preserved run
  have awake : .signalLost ∉ events := run.not_mem_of_guard fun _ => id
  refine or_iff_not_imp_left.mpr fun running => ?_
  exact ok.progress pktPos chunkPos whole fits (fun success => early reads outs' (success ▸ whole))
    awake (Bool.eq_false_of_not_eq_true running)

end

section Hangs

/-- The datagrams of a transfer of single octets. -/
private def octets (contents : List UInt8) : List Recv :=
  ([hgapWriteHeader hgapHeaderBegin] ++
    contents.mapIdx (fun i octet => hgapWriteHeader ⟨UInt64.ofNat i, 1, 0, 1⟩ ++ [octet]) ++
    [hgapWriteHeader hgapHeaderEnd]).map fun octets => .datagram (.zeroed octets)

private def isSignalLost : RecvEvent → Bool
  | .signalLost => true
  | _ => false

/-- The network reader and `decloop` hand the first datagrams on, and the writer fails. -/
private def failedWrite : List RecvActor :=
  turns [(4, .net), (3, .decode true), (4, .net), (5, .decode true), (2, .write none)]

/-- A write that fails on the only chunk is survived. -/
theorem receiver_progresses_oneChunk :
    ∃ (events : List RecvEvent) (s : ReceiverState RepetitionCode.State), .writeError ∈ events ∧
      (s.exited = true ∨ (∃ verdict, s.reader = .returned verdict) ∨
        (∃ slot, s.reader = .receiving slot) ∨ ∃ event s', ReceiverStep RepetitionCode.code s event s') := by
  have whole : decloopReads RepetitionCode.code hgapDecoderNew (datagrams (some (octets [7]))) =
      some (3, Hgap.success.code, [⟨0, [7]⟩]) := by decide +kernel
  have loop : decloop RepetitionCode.code hgapDecoderNew (datagrams (some (octets [7]))) =
      some (Hgap.success.code, [⟨0, [7]⟩]) := by rw [← decloopReads_decloop, whole]; rfl
  have count : (datagrams (some (octets [7]))).length = 3 := by decide +kernel
  have run : (scheduled (receiverStep RepetitionCode.code)
      (.start 1 1 (some (octets [7])) (fun _ => none) (fun _ => none)) failedWrite).map
        (fun (events, _) => events.any isWriteError && !events.any isSignalLost) = some true := by
    decide +kernel
  obtain ⟨⟨events, s⟩, run, told⟩ := Option.map_eq_some_iff.mp run
  obtain ⟨failed, found⟩ := Bool.and_eq_true_iff.mp told
  have endures : ∀ event ∈ events, ∀ s, Endures RepetitionCode.code 1 (some (octets [7])) s event := by
    intro event member s
    cases event with
    | writeError =>
      intro retval outs sequential
      rw [loop] at sequential
      cases sequential
      exact Nat.le_add_left _ _
    | signalLost =>
      rw [List.any_eq_true.mpr ⟨_, member, rfl⟩] at found
      cases found
    | _ => trivial
  have early (reads : Nat) (outs : List OutChunk) (sequential : decloopReads RepetitionCode.code
      hgapDecoderNew (datagrams (some (octets [7]))) = some (reads, Hgap.success.code, outs)) :
      (datagrams (some (octets [7]))).length < reads + 1 := by
    rw [whole] at sequential
    cases sequential
    rw [count]
    exact Nat.lt_succ_self _
  exact ⟨events, s, any_isWriteError.mp failed, receiver_progresses Nat.one_pos Nat.one_pos _ _ early
    ((scheduled_steps run).guard_labels endures)⟩

/-- The writer has ended, the network reader holds its pill, and nobody takes a step. -/
private def hangs (s : ReceiverState RepetitionCode.State) : Bool :=
  (match s.reader, s.writer with | .poisoning _, .done _ => true | _, _ => false) &&
    [RecvActor.net, .decode true, .decode false].all fun actor =>
      (receiverStep RepetitionCode.code s actor).isNone

private theorem hangs_spec {s : ReceiverState RepetitionCode.State} (running : s.exited = false)
    (told : hangs s = true) : (∃ retval, s.reader = .poisoning retval) ∧
      ∀ actor, receiverStep RepetitionCode.code s actor = none := by
  obtain ⟨places, stuck⟩ := Bool.and_eq_true_iff.mp told
  have stuck (actor : RecvActor) (member : actor ∈ [RecvActor.net, .decode true, .decode false]) :
      receiverStep RepetitionCode.code s actor = none :=
    Option.isNone_iff_eq_none.mp (List.all_eq_true.mp stuck actor member)
  split at places
  next retval ret reader writer =>
    refine ⟨⟨retval, reader⟩, fun actor => ?_⟩
    cases actor with
    | net => exact stuck _ (by simp)
    | decode wakes => cases wakes <;> exact stuck _ (by simp)
    | write answer => simp only [receiverStep, running, writerStep, writer, Bool.false_eq_true, ↓reduceIte]
  next => cases places

/-- With room for one datagram and one chunk, a write that fails on the first of three chunks
leaves `decloop` waiting for room, the network reader behind it, and `hgap_receive` for both. -/
theorem failing_output_hangs :
    ∃ (events : List RecvEvent) (s : ReceiverState RepetitionCode.State),
      Steps (ReceiverStep RepetitionCode.code)
        (.start 1 1 (some (octets [7, 8, 9])) (fun _ => none) (fun _ => none)) events s ∧
      .writeError ∈ events ∧ s.exited = false ∧ (∀ verdict, s.reader ≠ .returned verdict) ∧
      (∀ slot, s.reader ≠ .receiving slot) ∧ ∀ actor, receiverStep RepetitionCode.code s actor = none := by
  have run : (scheduled (receiverStep RepetitionCode.code)
      (.start 1 1 (some (octets [7, 8, 9])) (fun _ => none) (fun _ => none))
      (failedWrite ++
        turns [(4, .net), (5, .decode true), (4, .net), (4, .decode true), (4, .net)])).map
        (fun (events, s) => (events.any isWriteError && !s.exited) && hangs s) = some true := by
    decide +kernel
  obtain ⟨⟨events, s⟩, run, told⟩ := Option.map_eq_some_iff.mp run
  obtain ⟨told, hangs⟩ := Bool.and_eq_true_iff.mp told
  obtain ⟨failed, running⟩ := Bool.and_eq_true_iff.mp told
  have running : s.exited = false := by simpa using running
  obtain ⟨⟨retval, reader⟩, stuck⟩ := hangs_spec running hangs
  refine ⟨events, s, scheduled_steps run, any_isWriteError.mp failed, running, ?_, ?_, stuck⟩
  · simp [reader]
  · simp [reader]

end Hangs

end Hairgap.Guarantees
