import Hairgap.Base.Output
import Hairgap.Guarantees.SendPipeline
import Hairgap.Source.RepetitionCode

/-!
# Three threads send what one would

The datagrams of one input are a fixed sequence, perhaps without an end when an emission loop
has none. Whatever the order of the threads' steps, `send_loop` goes along that sequence.
-/
namespace Hairgap.Guarantees
open Hairgap.Base Hairgap.Source

section Sequential
variable {S : Type} (wh : Wirehair S) (config : HgapConfig)

/-- The emission loop of a chunk, cut off after some emissions. -/
def emitLoopUpTo : Nat → HgapEncChunk S → Output Bytes Bool
  | 0, _ => .stopped
  | fuel + 1, chunk =>
    match hgapEncChunkEmit wh chunk with
    | none => .stopped
    | some e =>
      if e.redund.lt config.redund then
        ((emitLoopUpTo fuel e.chunk).bind fun failed => .done [] (e.failed || failed)).after
          e.datagrams
      else .done e.datagrams e.failed

/-- The teardown salve. -/
def tornDown : Output Bytes Unit := .done (hgapSenderControl (hgapEncoderTeardown config.pktSize)) ()

/-- The chunk an initialisation leaves, unless it failed. -/
def onSuccess : Hgap × HgapEncoder × HgapEncChunk S → Option (HgapEncChunk S)
  | (.success, _, chunk) => some chunk
  | _ => none

/-- Chunk number `i` of an input. -/
def chunkOf (input : Bytes) (i : Nat) : Option (HgapEncChunk S) :=
  onSuccess (hgapEncChunkInit wh ⟨config.pktSize, UInt64.ofNat i⟩ hgapEncChunkNew
    (chunkAt config input i))

/-- The packets of chunks one after the other, and the teardown. -/
def sendChunksUpTo (fuel : Nat) : List (Option (HgapEncChunk S)) → Output Bytes Unit
  | some chunk :: rest => (emitLoopUpTo wh config fuel chunk).bind fun failed =>
      if failed then tornDown config else sendChunksUpTo fuel rest
  | _ => tornDown config

@[simp] theorem sendChunksUpTo_nil (fuel : Nat) : sendChunksUpTo wh config fuel [] = tornDown config :=
  rfl

@[simp] theorem sendChunksUpTo_none (fuel : Nat) (rest : List (Option (HgapEncChunk S))) :
    sendChunksUpTo wh config fuel (none :: rest) = tornDown config :=
  rfl

@[simp] theorem sendChunksUpTo_some (fuel : Nat) (chunk : HgapEncChunk S)
    (rest : List (Option (HgapEncChunk S))) :
    sendChunksUpTo wh config fuel (some chunk :: rest) = (emitLoopUpTo wh config fuel chunk).bind
      fun failed => if failed then tornDown config else sendChunksUpTo wh config fuel rest :=
  rfl

/-- All a sequential sender puts out, with each emission loop cut off after some emissions. -/
def sendUpTo (fuel : Nat) (input : Bytes) : Output Bytes Unit :=
  (sendChunksUpTo wh config fuel ((List.range (input.length / config.bufSize + 1)).map
    (chunkOf wh config input))).after (hgapSenderControl (hgapEncoderHandwave config.pktSize))

theorem emitLoopUpTo_leads {fuel fuel' : Nat} (le : fuel ≤ fuel') (chunk : HgapEncChunk S) :
    (emitLoopUpTo wh config fuel chunk).Leads (emitLoopUpTo wh config fuel' chunk) := by
  induction fuel generalizing fuel' chunk with
  | zero => exact .stopped
  | succ fuel ih =>
    obtain ⟨fuel', rfl⟩ : ∃ more, fuel' = more + 1 := ⟨fuel' - 1, by omega⟩
    unfold emitLoopUpTo
    split
    · exact .stopped
    · split
      · exact ((ih (Nat.le_of_succ_le_succ le) _).bind fun _ => .refl _).after _
      · exact .refl _

theorem sendChunksUpTo_leads {fuel fuel' : Nat} (le : fuel ≤ fuel')
    (chunks : List (Option (HgapEncChunk S))) :
    (sendChunksUpTo wh config fuel chunks).Leads (sendChunksUpTo wh config fuel' chunks) := by
  induction chunks with
  | nil => exact .refl _
  | cons chunk rest ih =>
    cases chunk with
    | none => exact .refl _
    | some chunk =>
      refine (emitLoopUpTo_leads wh config le chunk).bind fun failed => ?_
      split
      · exact .refl _
      · exact ih

/-- Cut off later, the sequential sender goes on from where it was. -/
theorem sendUpTo_leads {fuel fuel' : Nat} (le : fuel ≤ fuel') (input : Bytes) :
    (sendUpTo wh config fuel input).Leads (sendUpTo wh config fuel' input) :=
  (sendChunksUpTo_leads wh config le _).after _

theorem emitLoopUpTo_whole (fuel : Nat) (chunk : HgapEncChunk S) :
    (emitLoopUpTo wh config fuel chunk).whole = emitLoop wh config.redund fuel chunk := by
  induction fuel generalizing chunk with
  | zero => rfl
  | succ fuel ih =>
    cases emit : hgapEncChunkEmit wh chunk with
    | none => simp only [emitLoopUpTo, emitLoop, emit, Output.whole_stopped]
    | some e =>
      simp only [emitLoopUpTo, emitLoop, emit]
      split
      · rw [← ih, Output.whole_after, Output.whole_bind]
        cases (emitLoopUpTo wh config fuel e.chunk).whole with
        | none => rfl
        | some sent => simp
      · rfl

/-- From chunk number `i` on, the pointers of `encode_loop` are the chunks of the input. -/
theorem sendChunksUpTo_pointers (input : Bytes) (fuel n i : Nat) :
    sendChunksUpTo wh config fuel ((List.range' i n).map (chunkOf wh config input)) =
      sendChunksUpTo wh config fuel (pointers wh ⟨config.pktSize, UInt64.ofNat i⟩
        ((List.range' i n).map (fun i => some (chunkAt config input i)) ++ [none])) := by
  induction n generalizing i with
  | zero =>
    rw [List.range'_zero, List.map_nil, List.map_nil, List.nil_append, sendChunksUpTo_nil]
    exact (sendChunksUpTo_none wh config fuel []).symm
  | succ n ih =>
    rw [List.range'_succ, List.map_cons, List.map_cons, List.cons_append]
    cases init : hgapEncChunkInit wh ⟨config.pktSize, UInt64.ofNat i⟩ hgapEncChunkNew
        (chunkAt config input i) with
    | mk ret made =>
      obtain ⟨enc, chunk⟩ := made
      by_cases good : ret = .success
      · subst good
        have next : enc = ⟨config.pktSize, UInt64.ofNat (i + 1)⟩ := by
          rw [encChunkInit_enc init, UInt64.ofNat_add]
          rfl
        rw [chunkOf, pointers_some, init, next]
        simp only [onSuccess, sendChunksUpTo_some, ih]
      · have none_ : chunkOf wh config input i = none := by
          rw [chunkOf, init, onSuccess]
          exact fun _ _ h => good (Prod.mk.inj h).1
        rw [none_, pointers_failed wh init good, sendChunksUpTo_none, sendChunksUpTo_none]

theorem sendChunksUpTo_whole (fuel : Nat) (enc : HgapEncoder) (contents : List Bytes) :
    (sendChunksUpTo wh config fuel (pointers wh enc (contents.map some ++ [none]))).whole.map
        Prod.fst =
      (sendChunks wh config.redund fuel enc contents).map
        (· ++ hgapSenderControl (hgapEncoderTeardown config.pktSize)) := by
  induction contents generalizing enc with
  | nil => rfl
  | cons toEnc rest ih =>
    rw [List.map_cons, List.cons_append]
    cases init : hgapEncChunkInit wh enc hgapEncChunkNew toEnc with
    | mk ret made =>
      obtain ⟨enc', chunk⟩ := made
      by_cases good : ret = .success
      · subst good
        rw [pointers_some, sendChunks, init]
        simp only [sendChunksUpTo_some, Output.whole_bind, emitLoopUpTo_whole]
        cases emitLoop wh config.redund fuel chunk with
        | none => rfl
        | some sent =>
          obtain ⟨pkts, failed⟩ := sent
          cases failed with
          | true => rfl
          | false =>
            have rest := congrArg (Option.map (pkts ++ ·)) (ih enc')
            simpa [Option.map_map, Function.comp_def] using rest
      · rw [pointers_failed wh init good, sendChunks, init]
        split
        next h => exact absurd (Prod.mk.inj h).1 good
        next => rfl

/-- The sequential sender works off what `encode_loop` makes of the whole input. -/
theorem sendUpTo_pointers (fuel : Nat) (input : Bytes) :
    sendUpTo wh config fuel input =
      (sendChunksUpTo wh config fuel (pointers wh (hgapEncoderNew config.pktSize)
        (elements config.bufSize ⟨input, false⟩))).after
          (hgapSenderControl (hgapEncoderHandwave config.pktSize)) := by
  have chunks := sendChunksUpTo_pointers wh config input fuel (input.length / config.bufSize + 1) 0
  have contents : elements config.bufSize ⟨input, false⟩ =
      (List.range (input.length / config.bufSize + 1)).map (fun i => some (chunkAt config input i)) ++
        [none] := congrArg (· ++ [none]) List.map_map
  rw [← List.range_eq_range'] at chunks
  rw [sendUpTo, chunks, contents]
  rfl

/-- Not cut off, it sends all datagrams of the transfer. -/
theorem sendUpTo_whole (fuel : Nat) (input : Bytes) :
    (sendUpTo wh config fuel input).whole.map Prod.fst = hgapSendDatagrams wh config fuel input := by
  have chunks := sendChunksUpTo_whole wh config fuel (hgapEncoderNew config.pktSize)
    (inputChunks config.bufSize input)
  have whole := congrArg
    (Option.map (hgapSenderControl (hgapEncoderHandwave config.pktSize) ++ ·)) chunks
  have contents : elements config.bufSize ⟨input, false⟩ =
      (inputChunks config.bufSize input).map some ++ [none] := rfl
  rw [sendUpTo_pointers, hgapSendDatagrams, contents]
  simpa [Option.map_map, Function.comp_def, List.append_assoc] using whole

end Sequential

section
variable {S : Type} (wh : Wirehair S) (config : HgapConfig) (input : Bytes)

/-- The datagrams `send_loop` has passed on. -/
def sentOf (events : List SendEvent) : List Bytes :=
  events.flatMap fun
    | .control pkt => [pkt]
    | .emitted _ _ _ pkts => pkts
    | _ => []

theorem sentOf_append (xs ys : List SendEvent) : sentOf (xs ++ ys) = sentOf xs ++ sentOf ys :=
  List.flatMap_append

/-- What `send_loop` is still to put out at each of its places, when its emission loop is cut
off after `cur` more emissions and later ones after `fuel`. -/
def pending (fuel cur : Nat) (rest : List (Option (HgapEncChunk S))) : SendAt S → Output Bytes Unit
  | .creating | .handwaving =>
    (sendChunksUpTo wh config fuel rest).after (hgapSenderControl (hgapEncoderHandwave config.pktSize))
  | .waving pkt left => (sendChunksUpTo wh config fuel rest).after (List.replicate left pkt)
  | .receiving => sendChunksUpTo wh config fuel rest
  | .emitting chunk failed => (emitLoopUpTo wh config cur chunk).bind fun more =>
      if failed || more then tornDown config else sendChunksUpTo wh config fuel rest
  | .tearingDown _ => tornDown config
  | .teardown pkt left _ => .done (List.replicate left pkt) ()
  | .freeing _ | .joinKeepalive _ | .joinRead _ | .joinEncode _ | .returned _ => .done [] ()

/-- With enough fuel, the sequential sender puts out what was sent and then what is pending. -/
def Follows (events : List SendEvent) (s : SenderState S) (taken : Nat) : Prop :=
  ∃ bound spent, spent ≤ bound ∧ ∀ fuel, bound ≤ fuel → sendUpTo wh config fuel input =
    (pending wh config fuel (fuel - spent) ((pointers wh (hgapEncoderNew config.pktSize)
      (elements config.bufSize ⟨input, false⟩)).drop taken) s.main).after (sentOf events)

/-- A salve that could not be sent, or a sender that could not be created. -/
def Unsent (event : SendEvent) : Prop := event = .senderError ∨ event = .controlError

instance : DecidablePred Unsent := fun _ => inferInstanceAs (Decidable (_ ∨ _))

variable {wh config input} {events : List SendEvent} {event : SendEvent} {s s' : SenderState S}
  {read : Queue (Option Bytes)} {passed passed' : Queue (Option (HgapEncChunk S))}
  {keepalive : UInt32}

/-- A step that sends what it takes off the pending datagrams. -/
theorem Follows.advance {taken taken' : Nat} (follows : Follows wh config input events s taken)
    (sends : ∀ fuel cur, pending wh config fuel cur ((pointers wh (hgapEncoderNew config.pktSize)
        (elements config.bufSize ⟨input, false⟩)).drop taken) s.main =
      (pending wh config fuel cur ((pointers wh (hgapEncoderNew config.pktSize)
        (elements config.bufSize ⟨input, false⟩)).drop taken') s'.main).after (sentOf [event])) :
    Follows wh config input (events ++ [event]) s' taken' := by
  obtain ⟨bound, spent, le, same⟩ := follows
  refine ⟨bound, spent, le, fun fuel enough => ?_⟩
  rw [same fuel enough, sends, sentOf_append, Output.after_after]

/-- An emission puts out its datagrams first. -/
theorem pending_emits {chunk : HgapEncChunk S} {e : Emitted S}
    (emit : hgapEncChunkEmit wh chunk = some e) (fuel cur : Nat) (failed : Bool)
    (rest : List (Option (HgapEncChunk S))) :
    pending wh config fuel (cur + 1) rest (.emitting chunk failed) =
      (pending wh config fuel cur rest
        (if e.redund.lt config.redund then .emitting e.chunk (failed || e.failed)
          else if failed || e.failed then .tearingDown .errWirehairError else .receiving)).after
        (sentOf [if e.failed then .emitError else .emitted chunk.num chunk.len e.redund e.datagrams]) := by
  have datagrams : sentOf [if e.failed then .emitError else
      .emitted chunk.num chunk.len e.redund e.datagrams] = e.datagrams := by
    rw [Emitted.datagrams]
    cases e.failed with
    | true => rfl
    | false => simp [sentOf]
  rw [datagrams, pending, emitLoopUpTo, emit]
  dsimp only
  cases e.redund.lt config.redund with
  | true =>
    rw [if_pos rfl, if_pos rfl, Output.after_bind, Output.bind_assoc]
    simp only [Output.done_bind, Output.after_nil, pending, Bool.or_assoc]
  | false =>
    rw [if_neg Bool.false_ne_true, if_neg Bool.false_ne_true, Output.done_bind]
    cases failed || e.failed <;> rfl

theorem Follows.step (ok : SendOk wh config ⟨input, false⟩ events s read passed)
    (follows : Follows wh config input events s passed.taken) (sent : ¬ Unsent event)
    (move : SenderMove wh config keepalive s passed event s' passed') :
    Follows wh config input (events ++ [event]) s' passed'.taken := by
  cases move with
  | upstream taken move =>
    have silent : sentOf [event] = [] := by
      cases event with
      | quiet | read | readError | encoded | encodeError => rfl
      | _ => cases move.event
    refine follows.advance fun fuel cur => ?_
    rw [taken, move.main, silent, Output.after_nil]
  | beside taken move =>
    have silent : sentOf [event] = [] := by
      rcases move.event with rfl | rfl | rfl
      all_goals rfl
    refine follows.advance fun fuel cur => ?_
    rw [taken, move.main, silent, Output.after_nil]
  | send move =>
    cases move with
    | created at_ =>
      refine follows.advance fun fuel cur => ?_
      rw [at_]
      rfl
    | handwaved at_ pkt room =>
      refine follows.advance fun fuel cur => ?_
      rw [at_, pending, room]
      rfl
    | waved pkt at_ =>
      refine follows.advance fun fuel cur => ?_
      rw [at_]
      rfl
    | waves pkt left at_ =>
      refine follows.advance fun fuel cur => ?_
      rw [at_]
      rfl
    | poison chan at_ front =>
      refine follows.advance fun fuel cur => ?_
      rw [at_, ok.next front]
      rfl
    | chunk chan at_ chunk front =>
      -- no emission of this chunk is spent yet
      obtain ⟨bound, spent, le, same⟩ := follows
      refine ⟨bound, 0, Nat.zero_le _, fun fuel enough => ?_⟩
      rw [same fuel enough, at_, ok.next front, sentOf_append, ← Output.after_after]
      rfl
    | emits chunk failed at_ e emit =>
      obtain ⟨bound, spent, le, same⟩ := follows
      refine ⟨bound + 1, spent + 1, by omega, fun fuel enough => ?_⟩
      obtain ⟨cur, more⟩ : ∃ cur, fuel - spent = cur + 1 := ⟨fuel - (spent + 1), by omega⟩
      have left : fuel - (spent + 1) = cur := by omega
      rw [same fuel (by omega), at_, sentOf_append, ← Output.after_after, left, more]
      exact congrArg _ (pending_emits emit fuel cur failed _)
    | stuck chunk failed at_ =>
      refine follows.advance fun fuel cur => ?_
      rfl
    | tearsDown retval at_ pkt room =>
      refine follows.advance fun fuel cur => ?_
      rw [at_, pending, tornDown, room]
      rfl
    | uncontrolled retval at_ error small =>
      refine follows.advance fun fuel cur => ?_
      rw [at_, pending, tornDown, small]
      rfl
    | tears pkt left retval at_ =>
      refine follows.advance fun fuel cur => ?_
      rw [at_]
      rfl
    | torn pkt retval at_ =>
      refine follows.advance fun fuel cur => ?_
      rw [at_]
      rfl
    | unmade => exact follows.advance fun _ _ => rfl
    | stops _ at_ | frees _ at_ | joinsKeepalive _ at_ | joinsRead _ _ at_ | joinsEncode _ _ at_ =>
      refine follows.advance fun fuel cur => ?_
      rw [at_]
      rfl
    | uncreated => exact absurd (.inl rfl) sent
    | cramped | unwaved | untorn => exact absurd (.inr rfl) sent

/-- The keepalive thread is the only one to send keepalives, and sends nothing else. -/
theorem keepalive_move (move : SenderMove wh config keepalive s passed event s' passed')
    (pkt : Bytes) (told : event = .keepalive pkt) : pkt = hgapWriteHeader hgapHeaderKeepalive := by
  subst told
  cases move with
  | upstream _ move => cases move.event
  | beside _ move =>
    rcases move.event with h | h | h
    · cases h
    · cases h
    · exact SendEvent.keepalive.inj h
  | send move =>
    generalize told : SendEvent.keepalive pkt = event at move
    cases move with
    | emits _ _ _ e => cases failed : e.failed <;> simp [failed] at told
    | _ => cases told

/-- The datagrams of `send_loop` go along the sequence of a sequential sender, and are all of
it when `hgap_send` returns. -/
theorem sender_refines (host : Host) (accepted : hgapCheckConfigSender host config = .success)
    (slots : Nat → Option Bytes) (pointers : Nat → Option (HgapEncChunk S))
    (run : Steps (Guarded (fun _ event => ¬ Unsent event) (SenderStep wh config keepalive))
      (.start config ⟨input, false⟩ slots pointers) events s) :
    (∀ fuel fuel', fuel ≤ fuel' →
      (sendUpTo wh config fuel input).Leads (sendUpTo wh config fuel' input)) ∧
    (∀ fuel, (sendUpTo wh config fuel input).whole.map Prod.fst =
      hgapSendDatagrams wh config fuel input) ∧
    (∃ fuel, sentOf events <+: (sendUpTo wh config fuel input).emitted) ∧
    (∀ retval, s.main = .returned retval →
      ∃ fuel, hgapSendDatagrams wh config fuel input = some (sentOf events)) ∧
    ∀ pkt, .keepalive pkt ∈ events → pkt = hgapWriteHeader hgapHeaderKeepalive := by
  have sound := config.sound host accepted
  have given := checkConfigSender_inFile host accepted
  have start : Follows wh config input [] (.start config ⟨input, false⟩ slots pointers) 0 :=
    ⟨0, 0, Nat.le_refl _, fun fuel _ => sendUpTo_pointers wh config fuel input⟩
  have keeps (events : List SendEvent) (s : SenderState S) (event : SendEvent) (s' : SenderState S)
      (passed passed' : Queue (Option (HgapEncChunk S)))
      (ih : ∀ pkt, .keepalive pkt ∈ events → pkt = hgapWriteHeader hgapHeaderKeepalive)
      (move : SenderMove wh config keepalive s passed event s' passed') :
      ∀ pkt, .keepalive pkt ∈ events ++ [event] → pkt = hgapWriteHeader hgapHeaderKeepalive := by
    intro pkt told
    rcases List.mem_append.mp told with before | now
    · exact ih pkt before
    · exact keepalive_move move pkt (List.mem_singleton.mp now).symm
  obtain ⟨read, passed, -, ⟨bound, spent, -, same⟩, keepalives⟩ := send_run sound.bufSize_pos given _
    (fun events s taken => Follows wh config input events s taken ∧
      ∀ pkt, .keepalive pkt ∈ events → pkt = hgapWriteHeader hgapHeaderKeepalive)
    ⟨start, fun _ h => (List.not_mem_nil h).elim⟩
    (fun _ _ _ _ _ _ _ ok inv sent _ move =>
      ⟨inv.1.step ok sent move, keeps _ _ _ _ _ _ inv.2 move⟩) run
  have all := same bound (Nat.le_refl _)
  refine ⟨fun _ _ le => sendUpTo_leads wh config le input,
    fun fuel => sendUpTo_whole wh config fuel input, ⟨bound, ?_⟩, fun retval returned => ⟨bound, ?_⟩,
    keepalives⟩
  · rw [all]
    exact List.prefix_append _ _
  · rw [← sendUpTo_whole, all, returned]
    exact congrArg some (List.append_nil _)

end

section Smallest

/-- The threads take turns chunk by chunk, and the keepalive thread has one behind the first. -/
private def byTurns : List SendActor :=
  turns [(hgapSalveLen + 3, .send true), (3, .read), (4, .encode), (3, .read), (2, .send true),
    (3, .keepalive true), (4, .encode), (3, .read), (2, .send true), (4, .encode), (3, .read),
    (3, .encode), (hgapSalveLen + 6, .send true), (1, .keepalive true), (3, .send true)]

/-- Two chunks with an octet each, and the empty one behind them. -/
theorem sender_refines_twoChunks : ∃ (events : List SendEvent) (fuel : Nat),
    .keepalive (hgapWriteHeader hgapHeaderKeepalive) ∈ events ∧
    [chunkPacket 0 [7] 0 [7], chunkPacket 1 [8] 0 [8]].Sublist (sentOf events) ∧
    hgapSendDatagrams RepetitionCode.code .smallest fuel [7, 8] = some (sentOf events) := by
  have accepted : hgapCheckConfigSender ⟨fun _ => 0, fun _ => false⟩ .smallest = .success := by
    decide
  have run : (scheduled (senderStep RepetitionCode.code .smallest 1)
      (.start .smallest ⟨[7, 8], false⟩ (fun _ => none) (fun _ => none)) byTurns).map
      (fun (events, s) => decide (∀ event ∈ events, ¬ Unsent event) &&
        decide (.keepalive (hgapWriteHeader hgapHeaderKeepalive) ∈ events) &&
        [chunkPacket 0 [7] 0 [7], chunkPacket 1 [8] 0 [8]].isSublist (sentOf events) &&
        (returnedWith s).isSome) = some true := by
    decide +kernel
  obtain ⟨⟨events, s⟩, run, told⟩ := Option.map_eq_some_iff.mp run
  simp only [Bool.and_eq_true] at told
  obtain ⟨⟨⟨clean, alive⟩, chunks⟩, returned⟩ := told
  obtain ⟨retval, at_⟩ := Option.isSome_iff_exists.mp returned
  obtain ⟨-, -, -, whole, -⟩ := sender_refines _ accepted _ _
    ((scheduled_steps run).guard_labels fun event member _ => of_decide_eq_true clean event member)
  obtain ⟨fuel, all⟩ := whole retval (returnedWith_eq_some.mp at_)
  exact ⟨events, fuel, of_decide_eq_true alive, List.isSublist_iff_sublist.mp chunks, all⟩

end Smallest

end Hairgap.Guarantees
