import Hairgap.Guarantees.DecodingError
import Hairgap.Guarantees.ProperTeardown

/-!
# What the sender's return value says

`hgap_send` merges the value of `send_loop` with those it joins. What comes out can be told from
the run: HGAP_SUCCESS stands for a whole handwave and a proper transfer, however the threads took
their turns. The teardown has no part in it.
-/
namespace Hairgap.Guarantees
open Hairgap.Base Hairgap.Source

section Verdicts
variable {events : List SendEvent} {event : SendEvent}

/-- What `read_loop` returns behind these events. -/
def readVerdict (events : List SendEvent) : Hgap :=
  if .readError ∈ events then .errFileRead else .success

def encodeVerdict (events : List SendEvent) : Hgap :=
  if .encodeError ∈ events then .errWirehairError else .success

/-- Packets of the handwave that were sent. -/
def waved (events : List SendEvent) : Nat :=
  events.count (.control (hgapWriteHeader hgapHeaderBegin))

def sendLoopVerdict (events : List SendEvent) : Hgap :=
  if .emitError ∈ events then .errWirehairError
  else if waved events = hgapSalveLen then .success
  else .errNetwork

/-- The errors in the order in which `hgap_send` joins its threads. -/
def sendVerdict (events : List SendEvent) : Int :=
  hgapSelectError (encodeVerdict events).code
    (hgapSelectError (readVerdict events).code (sendLoopVerdict events).code)

/-- Nothing failed that a teardown must not follow. -/
def Clean (events : List SendEvent) : Prop := ∀ event ∈ events, ¬ Spoils event

theorem Clean.before (clean : Clean (events ++ [event])) : Clean events :=
  fun e member => clean e (List.mem_append_left _ member)

theorem mem_snoc_of_ne {e : SendEvent} (other : event ≠ e) : e ∈ events ++ [event] ↔ e ∈ events := by
  rw [List.mem_append, List.mem_singleton]
  exact or_iff_left other.symm

theorem readVerdict_snoc (other : event ≠ .readError) :
    readVerdict (events ++ [event]) = readVerdict events := by
  simp only [readVerdict, mem_snoc_of_ne other]

theorem encodeVerdict_snoc (other : event ≠ .encodeError) :
    encodeVerdict (events ++ [event]) = encodeVerdict events := by
  simp only [encodeVerdict, mem_snoc_of_ne other]

theorem waved_snoc (other : event ≠ .control (hgapWriteHeader hgapHeaderBegin)) :
    waved (events ++ [event]) = waved events := by
  have none_ : [event].count (.control (hgapWriteHeader hgapHeaderBegin)) = 0 :=
    List.count_eq_zero.mpr fun member => other (List.mem_singleton.mp member).symm
  rw [waved, List.count_append, none_, Nat.add_zero, waved]

theorem waved_more : waved (events ++ [.control (hgapWriteHeader hgapHeaderBegin)]) =
    waved events + 1 := by
  rw [waved, List.count_append, List.count_singleton_self, waved]

/-- Events that are no part of the handwave and no failed emission. -/
theorem sendLoopVerdict_snoc (noWave : event ≠ .control (hgapWriteHeader hgapHeaderBegin))
    (noError : event ≠ .emitError) :
    sendLoopVerdict (events ++ [event]) = sendLoopVerdict events := by
  simp only [sendLoopVerdict, mem_snoc_of_ne noError, waved_snoc noWave]

theorem sendLoopVerdict_error : sendLoopVerdict (events ++ [.emitError]) = .errWirehairError :=
  if_pos (List.mem_append_right _ List.mem_cons_self)

theorem sendLoopVerdict_success : sendLoopVerdict events = .success ↔
    waved events = hgapSalveLen ∧ .emitError ∉ events := by
  unfold sendLoopVerdict
  split
  next failed => simp [failed]
  next whole =>
    split
    next all => simp [all, whole]
    next short => simp [short]

/-- No error to merge: nothing failed behind a whole handwave. -/
theorem sendVerdict_success : sendVerdict events = Hgap.success.code ↔
    waved events = hgapSalveLen ∧ Clean events := by
  have read : readVerdict events = .success ↔ .readError ∉ events := by simp [readVerdict]
  have encode : encodeVerdict events = .success ↔ .encodeError ∉ events := by simp [encodeVerdict]
  rw [sendVerdict, selectError_success, selectError_success, Hgap.code_injective.eq_iff,
    Hgap.code_injective.eq_iff, Hgap.code_injective.eq_iff, read, encode, sendLoopVerdict_success]
  constructor
  · rintro ⟨encoded, read, waved, emitted⟩
    refine ⟨waved, fun event member spoils => ?_⟩
    rcases spoils with rfl | rfl | rfl
    · exact read member
    · exact encoded member
    · exact emitted member
  · rintro ⟨waved, clean⟩
    exact ⟨fun member => clean _ member (.inr (.inl rfl)), fun member => clean _ member (.inl rfl),
      waved, fun member => clean _ member (.inr (.inr rfl))⟩

end Verdicts

section Retval
variable {S : Type} {wh : Wirehair S} {config : HgapConfig} {file : Input}
  {events : List SendEvent} {event : SendEvent} {s s' : SenderState S}
  {read : Queue (Option Bytes)} {passed passed' : Queue (Option (HgapEncChunk S))}
  {keepalive : UInt32}

/-- The variable `retval` of `read_loop`. -/
def readRetval : ReadAt → Hgap
  | .poisoning retval | .resetting _ retval | .closing _ retval | .done retval => retval
  | .reserving | .reading _ | .sending _ _ => .success

def encodeRetval : EncodeAt S → Hgap
  | .poisoning retval | .done retval => retval
  | .peeking | .encoding _ | .sending _ _ | .acking _ => .success

theorem encChunkInit_ret {enc enc' : HgapEncoder} {old chunk : HgapEncChunk S} {toEnc : Bytes}
    {ret : Hgap} (init : hgapEncChunkInit wh enc old toEnc = (ret, enc', chunk)) :
    ret = .success ∨ ret = .errWirehairError := by
  unfold hgapEncChunkInit at init
  extract_lets started enc'' coded at init
  split at init
  · exact .inl (Prod.mk.inj init).1.symm
  · split at init
    · exact .inr (Prod.mk.inj init).1.symm
    · exact .inl (Prod.mk.inj init).1.symm

/-- `encode_loop` leaves the accounts of `read_loop` alone. -/
theorem encodeLoop_reader (step : encodeLoopStep wh s = some (event, s')) :
    s'.reader = s.reader ∧ event ≠ .readError := by
  unfold encodeLoopStep at step
  split at step
  · obtain ⟨peeked, -, same⟩ := Option.map_eq_some_iff.mp step
    cases peeked
    all_goals
      cases same
      exact ⟨rfl, SendEvent.noConfusion⟩
  · split at step
    · cases step
      exact ⟨rfl, SendEvent.noConfusion⟩
    · split at step
      all_goals
        cases step
        exact ⟨rfl, SendEvent.noConfusion⟩
  · obtain ⟨sent, -, same⟩ := Option.map_eq_some_iff.mp step
    cases sent
    all_goals
      cases same
      exact ⟨rfl, SendEvent.noConfusion⟩
  · cases step
    exact ⟨rfl, SendEvent.noConfusion⟩
  · obtain ⟨sent, -, same⟩ := Option.map_eq_some_iff.mp step
    cases sent
    all_goals
      cases same
      exact ⟨rfl, SendEvent.noConfusion⟩
  · cases step

/-- And the other way round. -/
theorem readLoop_encoder (step : readLoopStep config s = some (event, s')) :
    s'.encoder = s.encoder ∧ event ≠ .encodeError ∧ encodedOf [event] = [] := by
  unfold readLoopStep at step
  split at step
  · obtain ⟨reserved, -, same⟩ := Option.map_eq_some_iff.mp step
    cases reserved
    all_goals
      cases same
      exact ⟨rfl, SendEvent.noConfusion, rfl⟩
  · dsimp only at step
    split at step
    all_goals
      cases step
      exact ⟨rfl, SendEvent.noConfusion, rfl⟩
  · split at step
    all_goals
      cases step
      exact ⟨rfl, SendEvent.noConfusion, rfl⟩
  · obtain ⟨reserved, -, same⟩ := Option.map_eq_some_iff.mp step
    cases reserved
    all_goals
      cases same
      exact ⟨rfl, SendEvent.noConfusion, rfl⟩
  · cases step
    exact ⟨rfl, SendEvent.noConfusion, rfl⟩
  · split at step
    all_goals
      cases step
      exact ⟨rfl, SendEvent.noConfusion, rfl⟩
  · cases step

/-- The other two threads leave both alone. -/
theorem SendCase.beside (move : SendCase wh config keepalive s passed event s' passed') :
    s'.reader = s.reader ∧ s'.encoder = s.encoder ∧ event ≠ .readError ∧ event ≠ .encodeError ∧
      encodedOf [event] = [] := by
  cases move with
  | emits _ _ _ e =>
    cases e.failed
    all_goals exact ⟨rfl, rfl, SendEvent.noConfusion, SendEvent.noConfusion, rfl⟩
  | _ => exact ⟨rfl, rfl, SendEvent.noConfusion, SendEvent.noConfusion, rfl⟩

theorem keepaliveLoop_beside {answer : Bool} (step : keepaliveLoopStep answer s = some (event, s')) :
    s'.reader = s.reader ∧ s'.encoder = s.encoder ∧ event ≠ .readError ∧ event ≠ .encodeError ∧
      encodedOf [event] = [] := by
  unfold keepaliveLoopStep at step
  split at step
  · cases step
  split at step
  · cases step
    exact ⟨rfl, rfl, SendEvent.noConfusion, SendEvent.noConfusion, rfl⟩
  · cases step
    exact ⟨rfl, rfl, SendEvent.noConfusion, SendEvent.noConfusion, rfl⟩
  · split at step
    all_goals
      cases step
      exact ⟨rfl, rfl, SendEvent.noConfusion, SendEvent.noConfusion, rfl⟩
  · cases step

/-- A step of `read_loop`, of `encode_loop`, or of neither. -/
theorem SendOk.whose (ok : SendOk wh config file events s read passed)
    (step : SenderStep wh config keepalive s event s') :
    readLoopStep config s = some (event, s') ∨ encodeLoopStep wh s = some (event, s') ∨
      s'.reader = s.reader ∧ s'.encoder = s.encoder ∧ event ≠ .readError ∧ event ≠ .encodeError ∧
        encodedOf [event] = [] := by
  obtain ⟨actor, step⟩ := step
  unfold senderStep at step
  split at step
  · cases step
  cases actor with
  | read => exact .inl step
  | encode => exact .inr (.inl step)
  | send answer =>
    obtain ⟨_, -, move⟩ := ok.sendLoop answer step
    exact .inr (.inr move.beside)
  | keepalive answer => exact .inr (.inr (keepaliveLoop_beside step))

theorem SendOk.readReturns (ok : SendOk wh config file events s read passed)
    (same : readRetval s.reader = readVerdict events)
    (step : SenderStep wh config keepalive s event s') :
    readRetval s'.reader = readVerdict (events ++ [event]) := by
  rcases ok.whose step with step | step | ⟨reader, -, other, -⟩
  · have quiet : readVerdict (events ++ [.quiet]) = readVerdict events :=
      readVerdict_snoc SendEvent.noConfusion
    cases at_ : s.reader with
    | reserving =>
      rw [at_] at same
      simp only [readLoopStep, at_, ok.in2enc.reserve_eq ok.openIn] at step
      split at step
      · cases step
        exact same.trans quiet.symm
      · cases step
    | reading slot =>
      rw [at_] at same
      simp only [readLoopStep, at_] at step
      split at step
      · cases step
        exact (if_pos (List.mem_append_right _ List.mem_cons_self)).symm
      · cases step
        exact same.trans (readVerdict_snoc SendEvent.noConfusion).symm
    | sending slot eof =>
      rw [at_] at same
      obtain ⟨rfl, -⟩ := ok.readSlot slot (by rw [slotToFill, at_])
      simp only [readLoopStep, at_, ok.in2enc.sendReserved_eq ok.openIn, Option.some.injEq,
        Prod.mk.injEq] at step
      obtain ⟨rfl, rfl⟩ := step
      cases eof
      all_goals exact same.trans quiet.symm
    | poisoning retval =>
      rw [at_] at same
      simp only [readLoopStep, at_, ok.in2enc.reserve_eq ok.openIn] at step
      split at step
      · cases step
        exact same.trans quiet.symm
      · cases step
    | resetting slot retval =>
      rw [at_] at same
      simp only [readLoopStep, at_, Option.some.injEq, Prod.mk.injEq] at step
      obtain ⟨rfl, rfl⟩ := step
      exact same.trans quiet.symm
    | closing slot retval =>
      rw [at_] at same
      obtain ⟨rfl, -⟩ := ok.readSlot slot (by rw [slotToFill, at_])
      simp only [readLoopStep, at_, ok.in2enc.sendReserved_eq ok.openIn, Option.some.injEq,
        Prod.mk.injEq] at step
      obtain ⟨rfl, rfl⟩ := step
      exact same.trans quiet.symm
    | done retval => simp only [readLoopStep, at_, reduceCtorEq] at step
  · obtain ⟨reader, other⟩ := encodeLoop_reader step
    rw [reader, same, readVerdict_snoc other]
  · rw [reader, same, readVerdict_snoc other]

variable (config file) in
/-- What `encode_loop` will return, and that a failed buffer is one more than those it encoded. -/
structure EncodeTold (events : List SendEvent) (s : SenderState S) : Prop where
  retval : encodeRetval s.encoder = encodeVerdict events
  short : .encodeError ∈ events → ¬ encodeGoes s ∧
    (encodedOf events).length < (buffers config.bufSize file).length

/-- Steps that encode nothing. -/
theorem EncodeTold.kept (told : EncodeTold config file events s)
    (goes : encodeGoes s' → encodeGoes s) (retval : encodeRetval s'.encoder = encodeRetval s.encoder)
    (other : event ≠ .encodeError) (nothing : encodedOf [event] = []) :
    EncodeTold config file (events ++ [event]) s' := by
  constructor
  · rw [retval, told.retval, encodeVerdict_snoc other]
  · intro failed
    obtain ⟨stopped, short⟩ := told.short ((mem_snoc_of_ne other).mp failed)
    rw [encodedOf_append, nothing, List.append_nil]
    exact ⟨fun h => stopped (goes h), short⟩

theorem SendOk.encodeReturns (ok : SendOk wh config file events s read passed)
    (told : EncodeTold config file events s) (step : SenderStep wh config keepalive s event s') :
    EncodeTold config file (events ++ [event]) s' := by
  have retval := told.retval
  rcases ok.whose step with step | step | ⟨-, encoder, -, other, nothing⟩
  · obtain ⟨encoder, other, nothing⟩ := readLoop_encoder step
    refine told.kept (fun goes => ?_) (by rw [encoder]) other nothing
    rwa [encodeGoes, encoder] at goes
  · -- a step of a loop that still goes on
    have quiet (goes : encodeGoes s) (same : encodeRetval s'.encoder = encodeRetval s.encoder)
        (event_ : event = .quiet) : EncodeTold config file (events ++ [event]) s' := by
      rw [event_]
      exact told.kept (fun _ => goes) same SendEvent.noConfusion rfl
    cases at_ : s.encoder with
    | peeking =>
      simp only [encodeLoopStep, at_, ok.in2enc.peek_eq ok.openIn] at step
      split at step
      · cases step
        exact quiet (by rw [encodeGoes, at_]; trivial) (by rw [at_]; rfl) rfl
      · cases step
    | encoding slot =>
      have goes : encodeGoes s := by rw [encodeGoes, at_]; trivial
      obtain ⟨rfl, waiting⟩ := ok.encodeSlot slot (by rw [slotToEncode, at_])
      have encoded := ok.encoded
      have marked := ok.goes goes
      simp only [unencoded, at_, ok.front waiting] at encoded marked
      have fresh : .encodeError ∉ events := fun failed => (told.short failed).1 goes
      cases element : s.in2enc.elts (read.taken % (sendChanSize + 1)) with
      | none =>
        simp only [encodeLoopStep, at_, element, Option.some.injEq, Prod.mk.injEq] at step
        obtain ⟨rfl, rfl⟩ := step
        exact quiet goes (by rw [at_]; rfl) rfl
      | some toEnc =>
        simp only [encodeLoopStep, at_, element] at step
        split at step
        · cases step
          constructor
          · rw [encodeVerdict_snoc SendEvent.noConfusion, ← retval, at_]
            rfl
          · intro failed
            rw [mem_snoc_of_ne SendEvent.noConfusion] at failed
            exact absurd failed fresh
        next ret enc chunk failed init =>
          cases step
          constructor
          · have told : encodeVerdict (events ++ [.encodeError]) = .errWirehairError :=
              if_pos (List.mem_append_right _ List.mem_cons_self)
            rw [told]
            exact (encChunkInit_ret init).resolve_left failed
          · intro _
            refine ⟨id, ?_⟩
            -- the buffer in hand is followed by the poison
            rw [element] at encoded marked
            obtain ⟨more, rest⟩ := marked.tail
            rw [rest] at encoded
            have count := congrArg List.length encoded
            simp only [elements, List.length_append, List.length_cons, List.length_map,
              List.length_nil] at count
            rw [encodedOf_append, List.length_append]
            change _ + 0 < _
            omega
    | sending slot chunk =>
      obtain ⟨rfl, waiting⟩ := ok.encodeSlot slot (by rw [slotToEncode, at_])
      rcases ok.enc2net.send_eq ok.openNet (some chunk) with
        ⟨-, blocked⟩ | ⟨chan, answer, -⟩
      · simp only [encodeLoopStep, at_, blocked, Option.map_none, reduceCtorEq] at step
      · simp only [encodeLoopStep, at_, answer, Option.map_some, Option.some.injEq,
          Prod.mk.injEq] at step
        obtain ⟨rfl, rfl⟩ := step
        exact quiet (by rw [encodeGoes, at_]; trivial) (by rw [at_]; rfl) rfl
    | acking slot =>
      simp only [encodeLoopStep, at_, Option.some.injEq, Prod.mk.injEq] at step
      obtain ⟨rfl, rfl⟩ := step
      exact quiet (by rw [encodeGoes, at_]; trivial) (by rw [at_]; rfl) rfl
    | poisoning retval =>
      rcases ok.enc2net.send_eq ok.openNet none with ⟨-, blocked⟩ | ⟨chan, answer, -⟩
      · simp only [encodeLoopStep, at_, blocked, Option.map_none, reduceCtorEq] at step
      · simp only [encodeLoopStep, at_, answer, Option.map_some, Option.some.injEq,
          Prod.mk.injEq] at step
        obtain ⟨rfl, rfl⟩ := step
        exact told.kept False.elim (by rw [at_]; rfl) SendEvent.noConfusion rfl
    | done retval => simp only [encodeLoopStep, at_, reduceCtorEq] at step
  · refine told.kept (fun goes => ?_) (by rw [encoder]) other nothing
    rwa [encodeGoes, encoder] at goes

end Retval

section Place
variable {S : Type} (config : HgapConfig)

/-- Each chunk taken was emitted up to the redundancy, unless something failed. -/
def Going (events : List SendEvent) (before after : List (Option (HgapEncChunk S))) : Prop :=
  Clean events → Marked after ∧ (finishedOf config.redund events).map some = numbersOf before

/-- And with the poison there are no more of them. -/
def Through (events : List SendEvent) (before after : List (Option (HgapEncChunk S))) : Prop :=
  sendLoopVerdict events = .success → Clean events →
    after = [] ∧ (finishedOf config.redund events).map some ++ [none] = numbersOf before

/-- What the run has shown at each place of `send_loop` and behind, pointers already taken from
its channel, and pointers to come. -/
def VerdictPlace (events : List SendEvent) (s : SenderState S)
    (before after : List (Option (HgapEncChunk S))) : Prop :=
  match s.main with
  | .creating => s.sender.isSome = false ∧ waved events = 0 ∧ .emitError ∉ events ∧
      Going config events before after
  | .handwaving => waved events = 0 ∧ .emitError ∉ events ∧ Going config events before after
  | .waving pkt left => pkt = hgapWriteHeader hgapHeaderBegin ∧ waved events + left = hgapSalveLen ∧
      .emitError ∉ events ∧ Going config events before after
  | .receiving => sendLoopVerdict events = .success ∧ Going config events before after
  | .emitting chunk failed =>
    sendLoopVerdict events = (if failed then .errWirehairError else .success) ∧
      (Clean events → Marked after ∧
        (finishedOf config.redund events).map some ++ [some chunk.num] = numbersOf before)
  | .tearingDown retval => retval = sendLoopVerdict events ∧ Through config events before after
  | .teardown pkt _ retval => pkt = hgapWriteHeader hgapHeaderEnd ∧
      retval = sendLoopVerdict events ∧ Through config events before after
  | .freeing retval => s.sender.isSome = true →
      retval = sendLoopVerdict events ∧ Through config events before after
  | .joinKeepalive retval | .joinRead retval =>
      retval = sendLoopVerdict events ∧ Through config events before after
  | .joinEncode value => Through config events before after ∧ ∃ read, s.reader = .done read ∧
      value = hgapSelectError read.code (sendLoopVerdict events).code
  | .returned value => Through config events before after ∧ ∃ read, s.reader = .done read ∧
      ∃ encode, s.encoder = .done encode ∧
        value = hgapSelectError encode.code
          (hgapSelectError read.code (sendLoopVerdict events).code)

variable {config} {wh : Wirehair S} {file : Input} {events : List SendEvent} {event : SendEvent}
  {s s' : SenderState S} {before after : List (Option (HgapEncChunk S))}
  {read : Queue (Option Bytes)} {passed passed' : Queue (Option (HgapEncChunk S))}
  {keepalive : UInt32}

/-- An event that neither belongs to the handwave nor to an emission. -/
structure Aside (event : SendEvent) : Prop where
  noWave : event ≠ .control (hgapWriteHeader hgapHeaderBegin)
  noError : event ≠ .emitError
  unfinished (redund : Double) : finishedOf redund [event] = []

theorem Aside.finished (aside : Aside event) (redund : Double) :
    finishedOf redund (events ++ [event]) = finishedOf redund events := by
  rw [finishedOf_append, aside.unfinished, List.append_nil]

theorem Aside.going (aside : Aside event) (going : Going config events before after) :
    Going config (events ++ [event]) before after := by
  intro clean
  rw [aside.finished]
  exact going clean.before

theorem Aside.through (aside : Aside event) (through : Through config events before after) :
    Through config (events ++ [event]) before after := by
  intro success clean
  rw [sendLoopVerdict_snoc aside.noWave aside.noError] at success
  rw [aside.finished]
  exact through success clean.before

theorem VerdictPlace.silent (aside : Aside event) (main : s'.main = s.main)
    (sender : s'.sender.isSome = s.sender.isSome)
    (readDone : ∀ ret, s.reader = .done ret → s'.reader = .done ret)
    (encodeDone : ∀ ret, s.encoder = .done ret → s'.encoder = .done ret)
    (place : VerdictPlace config events s before after) :
    VerdictPlace config (events ++ [event]) s' before after := by
  unfold VerdictPlace at place ⊢
  rw [main]
  have verdict : sendLoopVerdict (events ++ [event]) = sendLoopVerdict events :=
    sendLoopVerdict_snoc aside.noWave aside.noError
  have waved : waved (events ++ [event]) = waved events := waved_snoc aside.noWave
  cases at_ : s.main with
  | creating =>
    simp only [at_] at place
    obtain ⟨none_, wave, whole, going⟩ := place
    exact ⟨sender.trans none_, waved.trans wave, fun h => whole ((mem_snoc_of_ne aside.noError).mp h),
      aside.going going⟩
  | handwaving =>
    simp only [at_] at place
    obtain ⟨wave, whole, going⟩ := place
    exact ⟨waved.trans wave, fun h => whole ((mem_snoc_of_ne aside.noError).mp h), aside.going going⟩
  | waving pkt left =>
    simp only [at_] at place
    obtain ⟨begins, wave, whole, going⟩ := place
    exact ⟨begins, waved ▸ wave, fun h => whole ((mem_snoc_of_ne aside.noError).mp h),
      aside.going going⟩
  | receiving =>
    simp only [at_] at place
    exact ⟨verdict.trans place.1, aside.going place.2⟩
  | emitting chunk failed =>
    simp only [at_] at place
    refine ⟨verdict.trans place.1, fun clean => ?_⟩
    rw [aside.finished]
    exact place.2 clean.before
  | tearingDown retval | joinKeepalive retval | joinRead retval =>
    simp only [at_] at place
    exact ⟨place.1.trans verdict.symm, aside.through place.2⟩
  | teardown pkt left retval =>
    simp only [at_] at place
    exact ⟨place.1, place.2.1.trans verdict.symm, aside.through place.2.2⟩
  | freeing retval =>
    simp only [at_] at place
    intro made
    obtain ⟨same, through⟩ := place (sender ▸ made)
    exact ⟨same.trans verdict.symm, aside.through through⟩
  | joinEncode value =>
    simp only [at_] at place
    obtain ⟨through, ret, done, same⟩ := place
    exact ⟨aside.through through, ret, readDone ret done, verdict ▸ same⟩
  | returned value =>
    simp only [at_] at place
    obtain ⟨through, ret, done, ret', done', same⟩ := place
    exact ⟨aside.through through, ret, readDone ret done, ret', encodeDone ret' done', verdict ▸ same⟩

/-- A packet of a chunk, and the places it can lead to. -/
theorem VerdictPlace.emits {chunk : HgapEncChunk S} {failed : Bool} {e : Emitted S}
    (emit : hgapEncChunkEmit wh chunk = some e)
    (verdict : sendLoopVerdict events = if failed then .errWirehairError else .success)
    (numbers : Clean events → Marked after ∧
      (finishedOf config.redund events).map some ++ [some chunk.num] = numbersOf before) :
    VerdictPlace config
      (events ++ [if e.failed then .emitError else .emitted chunk.num chunk.len e.redund e.datagrams])
      { s with main := if e.redund.lt config.redund then .emitting e.chunk (failed || e.failed)
        else if failed || e.failed then .tearingDown .errWirehairError else .receiving }
      before after := by
  cases lost : e.failed with
  | true =>
    have verdict : sendLoopVerdict (events ++ [.emitError]) = .errWirehairError :=
      sendLoopVerdict_error
    have unclean : ¬ Clean (events ++ [.emitError]) := fun clean =>
      clean .emitError (List.mem_append_right _ List.mem_cons_self) (.inr (.inr rfl))
    rw [if_pos rfl, Bool.or_true, if_pos rfl]
    cases e.redund.lt config.redund with
    | true => exact ⟨verdict, fun clean => absurd clean unclean⟩
    | false => exact ⟨verdict.symm, fun _ clean => absurd clean unclean⟩
  | false =>
    have same : sendLoopVerdict (events ++ [.emitted chunk.num chunk.len e.redund e.datagrams]) =
        if failed then .errWirehairError else .success :=
      (sendLoopVerdict_snoc SendEvent.noConfusion SendEvent.noConfusion).trans verdict
    rw [if_neg Bool.false_ne_true, Bool.or_false]
    cases more : e.redund.lt config.redund with
    | true =>
      refine ⟨same, fun clean => ?_⟩
      rw [finishedOf_append, finishedOf_emitted, more, if_pos rfl, List.append_nil,
        emit_num wh emit]
      exact numbers clean.before
    | false =>
      cases failed with
      | true => exact ⟨same.symm, fun success => by cases same.symm.trans success⟩
      | false =>
        refine ⟨same, fun clean => ?_⟩
        obtain ⟨marked, numbers⟩ := numbers clean.before
        refine ⟨marked, ?_⟩
        rw [finishedOf_append, finishedOf_emitted, more, if_neg Bool.false_ne_true, List.map_append]
        exact numbers

/-- A thread that has returned stays where it is. -/
theorem SendOk.stays (ok : SendOk wh config file events s read passed)
    (step : SenderStep wh config keepalive s event s') :
    (∀ ret, s.reader = .done ret → s'.reader = .done ret) ∧
      ∀ ret, s.encoder = .done ret → s'.encoder = .done ret := by
  rcases ok.whose step with step | step | ⟨reader, encoder, -⟩
  · constructor
    · intro ret done
      simp only [readLoopStep, done, reduceCtorEq] at step
    · exact fun ret done => (readLoop_encoder step).1.trans done
  · constructor
    · exact fun ret done => (encodeLoop_reader step).1.trans done
    · intro ret done
      simp only [encodeLoopStep, done, reduceCtorEq] at step
  · exact ⟨fun ret done => reader.trans done, fun ret done => encoder.trans done⟩

theorem VerdictPlace.step (sound : config.Sound) (ok : SendOk wh config file events s read passed)
    (place : VerdictPlace config events s
      ((pointers wh (hgapEncoderNew config.pktSize) (elements config.bufSize file)).take passed.taken)
      ((pointers wh (hgapEncoderNew config.pktSize) (elements config.bufSize file)).drop passed.taken))
    (step : SenderStep wh config keepalive s event s')
    (move : SenderMove wh config keepalive s passed event s' passed') :
    VerdictPlace config (events ++ [event]) s'
      ((pointers wh (hgapEncoderNew config.pktSize) (elements config.bufSize file)).take passed'.taken)
      ((pointers wh (hgapEncoderNew config.pktSize) (elements config.bufSize file)).drop
        passed'.taken) := by
  obtain ⟨readDone, encodeDone⟩ := ok.stays step
  cases move with
  | upstream taken move =>
    rw [taken]
    refine place.silent ?_ move.main (by rw [move.sender]) readDone encodeDone
    cases event with
    | quiet | read | readError | encoded | encodeError =>
      exact ⟨SendEvent.noConfusion, SendEvent.noConfusion, fun _ => rfl⟩
    | _ => cases move.event
  | beside taken move =>
    rw [taken]
    refine place.silent ?_ move.main move.sender readDone encodeDone
    rcases move.event with rfl | rfl | rfl
    all_goals exact ⟨SendEvent.noConfusion, SendEvent.noConfusion, fun _ => rfl⟩
  | send move =>
    -- the same place behind an event that tells nothing
    have after {event : SendEvent} (aside : Aside event) :
        VerdictPlace config (events ++ [event]) s _ _ :=
      place.silent aside rfl rfl (fun _ h => h) (fun _ h => h)
    have quiet_ : Aside .quiet := ⟨SendEvent.noConfusion, SendEvent.noConfusion, fun _ => rfl⟩
    have error_ : Aside .controlError := ⟨SendEvent.noConfusion, SendEvent.noConfusion, fun _ => rfl⟩
    have quiet := after quiet_
    have error := after error_
    unfold VerdictPlace at quiet error
    cases move with
    | created at_ =>
      rw [at_] at quiet
      exact quiet.2
    | uncreated at_ =>
      rw [VerdictPlace, at_] at place
      intro made
      cases place.1.symm.trans made
    | handwaved at_ pkt room =>
      rw [at_] at quiet
      refine ⟨?_, ?_, quiet.2⟩
      · exact handwave_ok room
      · rw [quiet.1, Nat.zero_add]
    | cramped at_ failure small =>
      have := sound.payload_pos
      unfold HgapConfig.payload at this
      rw [hgapEncoderHandwave, if_neg (by unfold hgapMinBuf; omega)] at small
      cases small
    | waved pkt at_ =>
      rw [at_] at quiet
      obtain ⟨-, wave, whole, going⟩ := quiet
      exact ⟨sendLoopVerdict_success.mpr ⟨wave, whole⟩, going⟩
    | waves pkt left at_ =>
      rw [VerdictPlace, at_] at place
      obtain ⟨rfl, wave, whole, going⟩ := place
      refine ⟨rfl, ?_, fun h => whole ((mem_snoc_of_ne SendEvent.noConfusion).mp h), fun clean => ?_⟩
      · rw [waved_more]
        omega
      · rw [finishedOf_append]
        simpa [finishedOf] using going clean.before
    | unwaved pkt left at_ =>
      rw [at_] at error
      obtain ⟨-, wave, whole, -⟩ := error
      have short : sendLoopVerdict (events ++ [.controlError]) = .errNetwork := by
        rw [sendLoopVerdict, if_neg whole, if_neg (by omega)]
      exact fun _ => ⟨short.symm, fun success => by cases short.symm.trans success⟩
    | poison chan at_ front =>
      rw [at_, ok.next front] at quiet
      refine ⟨quiet.1.symm, fun _ clean => ?_⟩
      obtain ⟨marked, numbers⟩ := quiet.2 clean
      refine ⟨marked.last, ?_⟩
      rw [ok.next_take front, numbers, numbersOf, numbersOf, List.map_append]
      rfl
    | chunk chan at_ chunk front =>
      rw [at_, ok.next front] at quiet
      refine ⟨quiet.1, fun clean => ?_⟩
      obtain ⟨marked, numbers⟩ := quiet.2 clean
      refine ⟨marked.tail, ?_⟩
      rw [ok.next_take front, numbers, numbersOf, numbersOf, List.map_append]
      rfl
    | stuck => exact place.silent quiet_ rfl rfl (fun _ h => h) (fun _ h => h)
    | emits chunk failed at_ e emit =>
      rw [VerdictPlace, at_] at place
      exact .emits emit place.1 place.2
    | tearsDown retval at_ pkt room =>
      rw [at_] at quiet
      refine ⟨?_, quiet⟩
      exact teardown_ok room
    | uncontrolled _ at_ =>
      rw [at_] at quiet
      exact fun _ => quiet
    | torn _ _ at_ =>
      rw [at_] at quiet
      exact fun _ => quiet.2
    | untorn _ _ _ at_ =>
      rw [at_] at error
      exact fun _ => error.2
    | tears pkt left retval at_ =>
      rw [VerdictPlace, at_] at place
      obtain ⟨rfl, -⟩ := place
      have aside : Aside (.control (hgapWriteHeader hgapHeaderEnd)) :=
        ⟨by decide, SendEvent.noConfusion, fun _ => rfl⟩
      have sent := after aside
      rw [VerdictPlace, at_] at sent
      exact sent
    | unmade => exact place.silent quiet_ rfl rfl (fun _ h => h) (fun _ h => h)
    | stops retval at_ hs made | frees retval at_ hs made =>
      rw [at_] at quiet
      exact quiet (by rw [made, Option.isSome_some])
    | joinsKeepalive _ at_ =>
      rw [at_] at quiet
      exact quiet
    | joinsRead retval ret at_ done =>
      rw [at_] at quiet
      obtain ⟨rfl, through⟩ := quiet
      exact ⟨through, ret, done, rfl⟩
    | joinsEncode value ret at_ done =>
      rw [at_] at quiet
      obtain ⟨through, readRet, read, rfl⟩ := quiet
      exact ⟨through, readRet, read, ret, done, rfl⟩

end Place

section
variable {S : Type} {wh : Wirehair S} {config : HgapConfig} {file : Input}
  {events : List SendEvent} {s : SenderState S} {read : Queue (Option Bytes)}
  {passed : Queue (Option (HgapEncChunk S))} {keepalive : UInt32}

/-- All buffers that will be read were. -/
theorem SendOk.readAll (ok : SendOk wh config file events s read passed) {ret : Hgap}
    (done : s.reader = .done ret) : readsOf events = buffers config.bufSize file := by
  have reads := ok.reads
  simp only [unread, done] at reads
  exact List.map_injective_iff.mpr (Option.some_injective _) (List.append_cancel_right reads)

/-- A clean run in which every thread is done and every chunk emitted. -/
theorem SendOk.proper (pos : 0 < config.bufSize) (ok : SendOk wh config file events s read passed)
    (number : config.redund ≠ .nan) (quotients : Quotients events) (clean : Clean events)
    {readRet encodeRet : Hgap} (readDone : s.reader = .done readRet)
    (encodeDone : s.encoder = .done encodeRet)
    (finished : (finishedOf config.redund events).map some ++ [none] = numbersOf passed.sent) :
    Proper config.redund file.unread events := by
  have reads := ok.readAll readDone
  obtain ⟨last, -⟩ := (ok.stops (by simp [encodeGoes, encodeDone])).resolve_left
    fun error => clean _ error (.inr (.inl rfl))
  have numbers := ok.numbers
  have encoded := ok.encoded
  simp only [inHand, closed, unencoded, encodeDone, List.append_nil] at numbers encoded
  rw [numbersOf, numbers] at finished
  rw [last] at encoded
  obtain ⟨eof, whole⟩ := (ok.ended (by simp [readEnded, readDone])).resolve_left
    fun error => clean _ error (.inl rfl)
  refine ⟨?_, ⟨eof, fun error => clean _ error (.inl rfl)⟩, ?_, ?_,
    fun error => clean _ error (.inr (.inr rfl))⟩
  · rw [reads, buffers_flatten file pos whole]
  · rw [reads]
    exact Marked.unmark encoded
  · exact (quotients.reached number).trans (Marked.unmark finished.symm).symm

/-- A proper transfer has met no failure at all. -/
theorem Proper.clean (ok : SendOk wh config file events s read passed)
    (told : EncodeTold config file events s) {ret : Hgap} (done : s.reader = .done ret)
    (proper : Proper config.redund file.unread events) : Clean events := by
  intro event member spoils
  rcases spoils with rfl | rfl | rfl
  · exact proper.eof.2 member
  · have count := congrArg List.length proper.encoded
    have short := (told.short member).2
    rw [List.length_map, ok.readAll done] at count
    omega
  · exact proper.emitted member

/-- What `hgap_send` returns, in every interleaving and with every failure: at a redundancy that is
a number, HGAP_SUCCESS exactly behind a whole handwave and a proper transfer. -/
theorem sender_verdict (host : Host) (accepted : hgapCheckConfigSender host config = .success)
    (slots : Nat → Option Bytes) (pointers : Nat → Option (HgapEncChunk S))
    (run : Steps (SenderStep wh config keepalive) (.start config file slots pointers) events s)
    (retval : Int) (returned : s.main = .returned retval) :
    retval = sendVerdict events ∧ (config.redund ≠ .nan → (retval = Hgap.success.code ↔
      waved events = hgapSalveLen ∧ Proper config.redund file.unread events)) := by
  have sound := config.sound host accepted
  have given := checkConfigSender_inFile host accepted
  have reader : (SenderState.start config file slots pointers : SenderState S).reader =
      .reserving := if_pos given
  obtain ⟨read, passed, ok, readTold, encodeTold, place⟩ := send_run sound.bufSize_pos given
    (fun _ _ => True)
    (fun events s taken => readRetval s.reader = readVerdict events ∧
      EncodeTold config file events s ∧ VerdictPlace config events s
        ((Guarantees.pointers wh (hgapEncoderNew config.pktSize)
          (elements config.bufSize file)).take taken)
        ((Guarantees.pointers wh (hgapEncoderNew config.pktSize)
          (elements config.bufSize file)).drop taken))
    ⟨by rw [reader]; rfl, ⟨rfl, fun member => (List.not_mem_nil member).elim⟩, rfl, rfl,
      List.not_mem_nil, fun _ => ⟨marked_pointers .., rfl⟩⟩
    (fun _ _ _ _ _ _ _ ok told _ step move => ⟨ok.readReturns told.1 step,
      ok.encodeReturns told.2.1 step, told.2.2.step sound ok step move⟩)
    (run.guard_labels fun _ _ _ => trivial)
  rw [VerdictPlace, returned] at place
  obtain ⟨through, readRet, readDone, encodeRet, encodeDone, value⟩ := place
  have encodeRetval := encodeTold.retval
  rw [readDone] at readTold
  rw [encodeDone] at encodeRetval
  obtain rfl : readRet = readVerdict events := readTold
  obtain rfl : encodeRet = encodeVerdict events := encodeRetval
  refine ⟨value, fun number => ?_⟩
  have quotients := run_quotients sound.bufSize_pos given run
  rw [value, ← sendVerdict, sendVerdict_success]
  constructor
  · rintro ⟨wave, clean⟩
    obtain ⟨rest, finished⟩ := through
      (sendLoopVerdict_success.mpr ⟨wave, fun error => clean _ error (.inr (.inr rfl))⟩) clean
    have taken := List.drop_eq_nil_iff.mp rest
    have sent := ok.chunks
    simp only [unpassed, encodeDone, List.append_nil] at sent
    rw [List.take_of_length_le taken, ← sent] at finished
    exact ⟨wave, ok.proper sound.bufSize_pos number quotients clean readDone encodeDone finished⟩
  · rintro ⟨wave, proper⟩
    exact ⟨wave, proper.clean ok encodeTold readDone⟩

end

section Unsaid

/-- A transfer of two chunks that is taken for a success, though no packet of its END salve could
be sent. -/
theorem sender_verdict_unended : ∃ events s,
    Steps (SenderStep RepetitionCode.code doubled 0)
      (.start doubled ⟨[7, 8, 9], false⟩ (fun _ => none) (fun _ => none)) events s ∧
    s.main = .returned Hgap.success.code ∧ ¬ TornDown events ∧
    finishedOf doubled.redund events = [0, 1] ∧ Proper doubled.redund [7, 8, 9] events := by
  have run : (scheduled (senderStep RepetitionCode.code doubled 0)
      (.start doubled ⟨[7, 8, 9], false⟩ (fun _ => none) (fun _ => none))
      (turns [(hgapSalveLen + 3, .send true), (9, .read), (11, .encode), (10, .send true),
        (4, .send false)])).map
      (fun (events, s) => decide (returnedWith s = some Hgap.success.code ∧
        ¬ TornDown events ∧ finishedOf doubled.redund events = [0, 1])) = some true := by
    decide +kernel
  obtain ⟨⟨events, s⟩, run, told⟩ := Option.map_eq_some_iff.mp run
  obtain ⟨returned, unended, finished⟩ := of_decide_eq_true told
  have returned := returnedWith_eq_some.mp returned
  have verdict := sender_verdict _ doubled_accepted _ _ (scheduled_steps run) _ returned
  exact ⟨events, s, scheduled_steps run, returned, unended, finished,
    ((verdict.2 Double.noConfusion).mp rfl).2⟩

end Unsaid

end Hairgap.Guarantees
