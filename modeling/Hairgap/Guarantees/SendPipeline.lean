import Hairgap.Source.SendThreads

/-!
# What the threads of the sender pass on

No thread chooses what it sends. Whatever the order of the steps, the elements already in a
channel and those its producer has yet to send are always the same sequence.
-/
namespace Hairgap.Guarantees
open Hairgap.Base Hairgap.Source

section Sequences
variable {S : Type} (wh : Wirehair S) (bufSize : Nat)

/-- The buffers a stream fills: full ones, and the last one unless an error ends the stream. -/
def buffers (input : Input) : List Bytes :=
  (List.range (input.unread.length / bufSize + if input.fails then 0 else 1)).map
    (Blocks.block bufSize input.unread)

/-- What `read_loop` sends, with the poison behind it. -/
def elements (input : Input) : List (Option Bytes) := (buffers bufSize input).map some ++ [none]

/-- What `encode_loop` makes of these. -/
def pointers : HgapEncoder → List (Option Bytes) → List (Option (HgapEncChunk S))
  | enc, some toEnc :: rest =>
    match hgapEncChunkInit wh enc hgapEncChunkNew toEnc with
    | (.success, enc, chunk) => some chunk :: pointers enc rest
    | _ => [none]
  | _, _ => [none]

theorem pointers_some (enc : HgapEncoder) (toEnc : Bytes) (rest : List (Option Bytes)) :
    pointers wh enc (some toEnc :: rest) =
      match hgapEncChunkInit wh enc hgapEncChunkNew toEnc with
      | (.success, enc, chunk) => some chunk :: pointers wh enc rest
      | _ => [none] := rfl

/-- A buffer that cannot be encoded ends the sequence. -/
theorem pointers_failed {enc enc' : HgapEncoder} {toEnc : Bytes} {ret : Hgap}
    {chunk : HgapEncChunk S} (init : hgapEncChunkInit wh enc hgapEncChunkNew toEnc = (ret, enc', chunk))
    (failed : ret = .success → False) (rest : List (Option Bytes)) :
    pointers wh enc (some toEnc :: rest) = [none] := by
  rw [pointers_some, init]
  split
  next h => exact (failed (Prod.mk.inj h).1).elim
  next => rfl

theorem encChunkInit_num {wh : Wirehair S} {enc enc' : HgapEncoder} {old chunk : HgapEncChunk S}
    {toEnc : Bytes} {ret : Hgap} (init : hgapEncChunkInit wh enc old toEnc = (ret, enc', chunk)) :
    chunk.num = enc.nextChunkNum := by
  unfold hgapEncChunkInit at init
  extract_lets started enc'' coded at init
  have num : started.num = enc.nextChunkNum ∧ coded.num = enc.nextChunkNum := ⟨rfl, rfl⟩
  split at init
  · simp only [Prod.mk.injEq] at init
    rw [← init.2.2, num.1]
  · split at init
    all_goals
      simp only [Prod.mk.injEq] at init
      rw [← init.2.2, num.2]

theorem encChunkInit_enc {wh : Wirehair S} {enc enc' : HgapEncoder} {old chunk : HgapEncChunk S}
    {toEnc : Bytes} {ret : Hgap} (init : hgapEncChunkInit wh enc old toEnc = (ret, enc', chunk)) :
    enc' = { enc with nextChunkNum := enc.nextChunkNum + 1 } := by
  unfold hgapEncChunkInit at init
  extract_lets started enc'' coded at init
  split at init
  · exact (Prod.mk.inj (Prod.mk.inj init).2).1.symm
  · split at init
    all_goals exact (Prod.mk.inj (Prod.mk.inj init).2).1.symm

theorem marked_pointers (enc : HgapEncoder) (xs : List (Option Bytes)) :
    Marked (pointers wh enc xs) := by
  induction xs generalizing enc with
  | nil => exact .mk []
  | cons x rest ih =>
    cases x with
    | none => exact .mk []
    | some toEnc =>
      unfold pointers
      split
      next enc chunk _ =>
        obtain ⟨l, h⟩ := ih enc
        exact ⟨chunk :: l, by rw [h, List.map_cons, List.cons_append]⟩
      next => exact .mk []

variable {bufSize} (input : Input)

/-- A stream that ends before the buffer is full. -/
theorem buffers_short (short : input.unread.length < bufSize) :
    buffers bufSize input = if input.fails then [] else [input.unread] := by
  have none : input.unread.length / bufSize = 0 := Nat.div_eq_of_lt short
  unfold buffers
  rw [none, Nat.zero_add]
  cases input.fails with
  | true => rfl
  | false =>
    simp [Blocks.block, List.take_of_length_le (Nat.le_of_lt short)]

theorem buffers_full (pos : 0 < bufSize) (full : ¬ input.unread.length < bufSize) :
    buffers bufSize input = input.unread.take bufSize ::
      buffers bufSize { input with unread := input.unread.drop bufSize } := by
  have count : input.unread.length / bufSize =
      (input.unread.drop bufSize).length / bufSize + 1 := by
    rw [List.length_drop, Nat.div_eq_sub_div pos (Nat.le_of_not_lt full)]
  unfold buffers
  dsimp only
  rw [count, Nat.add_right_comm, List.range_succ_eq_map, List.map_cons, List.map_map]
  refine congrArg₂ List.cons ?_ (List.map_congr_left fun i _ => ?_)
  · rw [Blocks.block, Nat.zero_mul, List.drop_zero]
  · exact (Blocks.block_drop bufSize input.unread i).symm

/-- The buffers of a stream without an error are all of it. -/
theorem buffers_flatten (pos : 0 < bufSize) (fails : input.fails = false) :
    (buffers bufSize input).flatten = input.unread := by
  unfold buffers
  rw [fails, if_neg Bool.false_ne_true, ← List.flatMap_def]
  refine Blocks.flatMap_block _ _ _ ?_
  have := Nat.lt_div_mul_add (a := input.unread.length) pos
  rw [Nat.add_mul]
  omega

/-- Where the stream ends in an error, only the poison follows. -/
theorem elements_failed (short : input.unread.length < bufSize) (fails : input.fails = true) :
    elements bufSize input = [none] := by
  rw [elements, buffers_short input short, if_pos fails]
  rfl

theorem elements_last (short : input.unread.length < bufSize) (fails : input.fails = false) :
    elements bufSize input = [some input.unread, none] := by
  rw [elements, buffers_short input short, fails, if_neg Bool.false_ne_true]
  rfl

theorem elements_full (pos : 0 < bufSize) (full : ¬ input.unread.length < bufSize) :
    elements bufSize input = some (input.unread.take bufSize) ::
      elements bufSize { input with unread := input.unread.drop bufSize } := by
  rw [elements, buffers_full input pos full]
  rfl

end Sequences

section Places
variable {S : Type} (wh : Wirehair S) (config : HgapConfig)

/-- The slot of the first channel `read_loop` has reserved. -/
def slotToFill (s : SenderState S) : Option Nat :=
  match s.reader with
  | .reading slot | .sending slot _ | .resetting slot _ | .closing slot _ => some slot
  | .reserving | .poisoning _ | .done _ => none

/-- What `read_loop` has yet to send. -/
def unsent (s : SenderState S) : List (Option Bytes) :=
  match s.reader with
  | .reserving | .reading _ => elements config.bufSize s.input
  | .sending slot eof =>
    s.in2enc.elts slot :: if eof then [none] else elements config.bufSize s.input
  | .poisoning _ | .resetting _ _ => [none]
  | .closing slot _ => [s.in2enc.elts slot]
  | .done _ => []

/-- What `read_loop` has yet to read, the poison included. -/
def unread (s : SenderState S) : List (Option Bytes) :=
  match s.reader with
  | .reserving | .reading _ | .sending _ false => elements config.bufSize s.input
  | .sending _ true | .poisoning _ | .resetting _ _ | .closing _ _ | .done _ => [none]

/-- `read_loop` reads no more. -/
def readEnded (s : SenderState S) : Prop :=
  match s.reader with
  | .reserving | .reading _ | .sending _ false => False
  | .sending _ true | .poisoning _ | .resetting _ _ | .closing _ _ | .done _ => True

/-- The slot of the first channel `encode_loop` has peeked at. -/
def slotToEncode (s : SenderState S) : Option Nat :=
  match s.encoder with
  | .encoding slot | .sending slot _ | .acking slot => some slot
  | .peeking | .poisoning _ | .done _ => none

/-- What `encode_loop` has yet to encode of the elements it has not acknowledged. -/
def unencoded (s : SenderState S) (rest : List (Option Bytes)) : List (Option Bytes) :=
  match s.encoder with
  | .peeking | .encoding _ | .poisoning _ | .done _ => rest
  | .sending _ _ | .acking _ => rest.tail

/-- What `encode_loop` has yet to send. -/
def unpassed (s : SenderState S) (rest : List (Option Bytes)) :
    List (Option (HgapEncChunk S)) :=
  match s.encoder with
  | .peeking | .encoding _ => pointers wh s.enc rest
  | .sending _ chunk => some chunk :: pointers wh s.enc rest.tail
  | .acking _ => pointers wh s.enc rest.tail
  | .poisoning _ => [none]
  | .done _ => []

/-- Number of the chunk `encode_loop` has encoded and not yet sent. -/
def inHand (s : SenderState S) : List (Option UInt64) :=
  match s.encoder with
  | .sending _ chunk => [some chunk.num]
  | .peeking | .encoding _ | .acking _ | .poisoning _ | .done _ => []

/-- The poison `encode_loop` has sent. -/
def closed (s : SenderState S) : List (Option UInt64) :=
  match s.encoder with
  | .done _ => [none]
  | .peeking | .encoding _ | .sending _ _ | .acking _ | .poisoning _ => []

/-- `encode_loop` asks for more elements. -/
def encodeGoes (s : SenderState S) : Prop :=
  match s.encoder with
  | .peeking | .encoding _ | .sending _ _ | .acking _ => True
  | .poisoning _ | .done _ => False

/-- The return value of `hgap_send`. -/
def returnedWith (s : SenderState S) : Option Int :=
  match s.main with
  | .returned retval => some retval
  | _ => none

theorem returnedWith_eq_some {s : SenderState S} {retval : Int} :
    returnedWith s = some retval ↔ s.main = .returned retval := by
  unfold returnedWith
  split
  next told at_ => rw [at_, Option.some.injEq, SendAt.returned.injEq]
  next other => exact iff_of_false (Option.some_ne_none _).symm (other retval)

end Places

section Told

/-- The buffers that were read. -/
def readsOf (events : List SendEvent) : List Bytes :=
  events.filterMap fun
    | .read buf _ => some buf
    | _ => none

/-- The numbers and contents of the chunks that were encoded. -/
def encodedOf (events : List SendEvent) : List (UInt64 × Bytes) :=
  events.filterMap fun
    | .encoded num buf => some (num, buf)
    | _ => none

@[simp] theorem readsOf_append (xs ys : List SendEvent) :
    readsOf (xs ++ ys) = readsOf xs ++ readsOf ys := List.filterMap_append ..

@[simp] theorem encodedOf_append (xs ys : List SendEvent) :
    encodedOf (xs ++ ys) = encodedOf xs ++ encodedOf ys := List.filterMap_append ..

end Told

/-- What the two threads before `send_loop` show. -/
def upstream : SendEvent → Bool
  | .quiet | .read _ _ | .readError | .encoded _ _ | .encodeError => true
  | _ => false

/-- A step of one of the two threads before `send_loop`, as that sees it. -/
structure Upstream {S : Type} (s : SenderState S) (event : SendEvent) (s' : SenderState S) : Prop where
  main : s'.main = s.main
  sender : s'.sender = s.sender
  exited : s'.exited = s.exited
  event : upstream event = true

section
variable {S : Type} (wh : Wirehair S) (config : HgapConfig) (file : Input)

/-- The threads of the sender between two steps, with what each channel has carried. -/
structure SendOk (events : List SendEvent) (s : SenderState S) (read : Queue (Option Bytes))
    (passed : Queue (Option (HgapEncChunk S))) : Prop where
  openIn : s.in2enc.poisoned = false
  openNet : s.enc2net.poisoned = false
  in2enc : s.in2enc.Holds sendChanSize read
  enc2net : s.enc2net.Holds sendChanSize passed
  fails : s.input.fails = file.fails
  sent : read.sent ++ unsent config s = elements config.bufSize file
  readSlot : ∀ slot, slotToFill s = some slot →
    slot = read.sent.length % (sendChanSize + 1) ∧ read.HasRoom sendChanSize
  reads : (readsOf events).map some ++ unread config s = elements config.bufSize file
  ended : readEnded s → .readError ∈ events ∨
    (∃ buf, .read buf true ∈ events) ∧ file.fails = false
  encodeSlot : ∀ slot, slotToEncode s = some slot →
    slot = read.taken % (sendChanSize + 1) ∧ read.taken < read.sent.length
  encoded : (encodedOf events).map (some ·.2) ++
    unencoded s ((elements config.bufSize file).drop read.taken) = elements config.bufSize file
  chunks : passed.sent ++ unpassed wh s ((elements config.bufSize file).drop read.taken) =
    pointers wh (hgapEncoderNew config.pktSize) (elements config.bufSize file)
  numbers : passed.sent.map (Option.map (·.num)) ++ inHand s =
    (encodedOf events).map (some ·.1) ++ closed s
  goes : encodeGoes s →
    Marked (unencoded s ((elements config.bufSize file).drop read.taken))
  stops : ¬ encodeGoes s → .encodeError ∈ events ∨
    (elements config.bufSize file).drop read.taken = [none] ∧ read.taken < read.sent.length

variable {wh config file} {events : List SendEvent} {event : SendEvent} {s s' : SenderState S}
  {read : Queue (Option Bytes)} {passed : Queue (Option (HgapEncChunk S))}

/-- An event that encodes nothing leaves the accounts of `encode_loop` alone. -/
theorem SendOk.unencoding (ok : SendOk wh config file events s read passed) (event : SendEvent)
    (noEncode : encodedOf [event] = []) :
    encodedOf (events ++ [event]) = encodedOf events ∧
    (¬ encodeGoes s → .encodeError ∈ events ++ [event] ∨
      (elements config.bufSize file).drop read.taken = [none] ∧ read.taken < read.sent.length) := by
  constructor
  · rw [encodedOf_append, noEncode, List.append_nil]
  · exact fun h => (ok.stops h).imp_left (List.mem_append_left _)

/-- An event that reads nothing leaves those of `read_loop` alone. -/
theorem SendOk.unreading (ok : SendOk wh config file events s read passed) (event : SendEvent)
    (noRead : readsOf [event] = []) :
    (readsOf (events ++ [event])).map some ++ unread config s = elements config.bufSize file ∧
    (readEnded s → .readError ∈ events ++ [event] ∨
      (∃ buf, .read buf true ∈ events ++ [event]) ∧ file.fails = false) := by
  constructor
  · rw [readsOf_append, noRead, List.append_nil]
    exact ok.reads
  · intro h
    rcases ok.ended h with error | ⟨⟨buf, told⟩, whole⟩
    · exact .inl (List.mem_append_left _ error)
    · exact .inr ⟨⟨buf, List.mem_append_left _ told⟩, whole⟩

theorem SendOk.silent (ok : SendOk wh config file events s read passed) (event : SendEvent)
    (noRead : readsOf [event] = []) (noEncode : encodedOf [event] = []) :
    SendOk wh config file (events ++ [event]) s read passed := by
  obtain ⟨encoded, stops⟩ := ok.unencoding event noEncode
  obtain ⟨reads, ended⟩ := ok.unreading event noRead
  exact { ok with
    reads := reads, ended := ended, stops := stops
    encoded := encoded ▸ ok.encoded, numbers := encoded ▸ ok.numbers }

/-- One more element in the first channel changes nothing for `encode_loop`. -/
theorem SendOk.longer (ok : SendOk wh config file events s read passed) (value : Option Bytes) :
    (∀ slot, slotToEncode s = some slot → slot = read.taken % (sendChanSize + 1) ∧
      read.taken < (read.sent ++ [value]).length) ∧
    (¬ encodeGoes s → .encodeError ∈ events ∨
      (elements config.bufSize file).drop read.taken = [none] ∧
        read.taken < (read.sent ++ [value]).length) := by
  have longer (h : read.taken < read.sent.length) : read.taken < (read.sent ++ [value]).length := by
    rw [List.length_append]
    omega
  exact ⟨fun slot h => (ok.encodeSlot slot h).imp_right longer,
    fun h => (ok.stops h).imp_right (And.imp_right longer)⟩

theorem SendOk.readLoop (pos : 0 < config.bufSize) (ok : SendOk wh config file events s read passed)
    (step : readLoopStep config s = some (event, s')) :
    ∃ read', SendOk wh config file (events ++ [event]) s' read' passed ∧ Upstream s event s' := by
  have quiet := ok.silent .quiet rfl rfl
  have sent := quiet.sent
  have reads := quiet.reads
  have slots := quiet.readSlot
  have ended := quiet.ended
  cases at_ : s.reader with
  | reserving =>
    simp only [readLoopStep, at_, ok.in2enc.reserve_eq ok.openIn] at step
    simp only [unsent, unread, at_] at sent reads
    split at step
    next room =>
      obtain ⟨rfl, rfl⟩ := Prod.mk.inj (Option.some.inj step)
      exact ⟨read, { quiet with
        sent := sent, reads := reads, ended := False.elim
        readSlot := by rintro slot ⟨⟩; exact ⟨rfl, room⟩ }, rfl, rfl, rfl, rfl⟩
    next => cases step
  | reading slot =>
    obtain ⟨rfl, room⟩ := slots slot (by rw [slotToFill, at_])
    have sent := ok.sent
    have reads := ok.reads
    simp only [unsent, unread, at_] at sent reads
    have filled (value : Option Bytes) := ok.in2enc.filled room value
    have holds (value : Option Bytes) : (s.in2enc.filled
        (read.sent.length % (sendChanSize + 1)) value).elts
          (read.sent.length % (sendChanSize + 1)) = value := Function.update_self ..
    cases short : s.input.short config.bufSize with
    | true =>
      have less := of_decide_eq_true short
      have all : s.input.unread.take config.bufSize = s.input.unread :=
        List.take_of_length_le (Nat.le_of_lt less)
      cases fails : s.input.fails with
      | true =>
        simp only [readLoopStep, at_, readChunk, short, fails, Option.some.injEq, Prod.mk.injEq] at step
        obtain ⟨rfl, rfl⟩ := step
        have silent := ok.silent .readError rfl rfl
        rw [elements_failed s.input less fails] at sent reads
        exact ⟨read, { silent with
          in2enc := filled _, fails := fails ▸ ok.fails, sent := sent, readSlot := by rintro slot ⟨⟩
          reads := by simpa [unread, readsOf] using reads
          ended := fun _ => .inl (List.mem_append_right _ List.mem_cons_self) }, rfl, rfl, rfl, rfl⟩
      | false =>
        simp only [readLoopStep, at_, readChunk, short, fails, Option.some.injEq, Prod.mk.injEq] at step
        obtain ⟨rfl, rfl⟩ := step
        obtain ⟨encoded, stops⟩ := ok.unencoding (.read (s.input.unread.take config.bufSize) true) rfl
        rw [elements_last s.input less fails] at sent reads
        exact ⟨read, { ok with
          in2enc := filled _, fails := fails ▸ ok.fails, stops := stops
          encoded := encoded ▸ ok.encoded, numbers := encoded ▸ ok.numbers
          sent := by simpa [unsent, holds, all] using sent
          readSlot := by rintro slot ⟨⟩; exact ⟨rfl, room⟩
          reads := by simpa [unread, readsOf, all] using reads
          ended := fun _ => .inr ⟨⟨_, List.mem_append_right _ List.mem_cons_self⟩,
            fails ▸ ok.fails.symm⟩ }, rfl, rfl, rfl, rfl⟩
    | false =>
      simp only [readLoopStep, at_, readChunk, short, Option.some.injEq, Prod.mk.injEq] at step
      obtain ⟨rfl, rfl⟩ := step
      obtain ⟨encoded, stops⟩ := ok.unencoding (.read (s.input.unread.take config.bufSize) false) rfl
      rw [elements_full s.input pos (of_decide_eq_false short)] at sent reads
      exact ⟨read, { ok with
        in2enc := filled _, stops := stops
        encoded := encoded ▸ ok.encoded, numbers := encoded ▸ ok.numbers
        sent := by simpa [unsent, holds] using sent
        readSlot := by rintro slot ⟨⟩; exact ⟨rfl, room⟩
        reads := by simpa [unread, readsOf] using reads
        ended := False.elim }, rfl, rfl, rfl, rfl⟩
  | sending slot eof =>
    obtain ⟨rfl, room⟩ := slots slot (by rw [slotToFill, at_])
    simp only [readLoopStep, at_, ok.in2enc.sendReserved_eq ok.openIn, Option.some.injEq,
      Prod.mk.injEq] at step
    obtain ⟨rfl, rfl⟩ := step
    simp only [unsent, unread, readEnded, at_] at sent reads ended
    obtain ⟨encodeSlot, stops⟩ := quiet.longer _
    refine ⟨_, { quiet with
      in2enc := ok.in2enc.sent room, sent := ?_, reads := ?_, readSlot := ?_, ended := ?_
      encodeSlot := encodeSlot, stops := stops }, rfl, rfl, rfl, rfl⟩
    · cases eof <;> simpa [unsent] using sent
    · cases eof <;> rintro slot ⟨⟩
    · cases eof <;> exact reads
    · cases eof
      · exact False.elim
      · exact ended
  | poisoning retval =>
    simp only [readLoopStep, at_, ok.in2enc.reserve_eq ok.openIn] at step
    simp only [unsent, unread, readEnded, at_] at sent reads ended
    split at step
    next room =>
      obtain ⟨rfl, rfl⟩ := Prod.mk.inj (Option.some.inj step)
      exact ⟨read, { quiet with
        sent := sent, reads := reads, ended := ended
        readSlot := by rintro slot ⟨⟩; exact ⟨rfl, room⟩ }, rfl, rfl, rfl, rfl⟩
    next => cases step
  | resetting slot retval =>
    obtain ⟨rfl, room⟩ := slots slot (by rw [slotToFill, at_])
    simp only [readLoopStep, at_, Option.some.injEq, Prod.mk.injEq] at step
    obtain ⟨rfl, rfl⟩ := step
    simp only [unsent, unread, readEnded, at_] at sent reads ended
    refine ⟨read, { quiet with
      in2enc := ok.in2enc.filled room none, sent := ?_, reads := reads, ended := ended
      readSlot := by rintro slot ⟨⟩; exact ⟨rfl, room⟩ }, rfl, rfl, rfl, rfl⟩
    simpa only [unsent, Channel.filled, Function.update_self] using sent
  | closing slot retval =>
    obtain ⟨rfl, room⟩ := slots slot (by rw [slotToFill, at_])
    simp only [readLoopStep, at_, ok.in2enc.sendReserved_eq ok.openIn, Option.some.injEq,
      Prod.mk.injEq] at step
    obtain ⟨rfl, rfl⟩ := step
    simp only [unsent, unread, readEnded, at_] at sent reads ended
    obtain ⟨encodeSlot, stops⟩ := quiet.longer _
    refine ⟨_, { quiet with
      in2enc := ok.in2enc.sent room, sent := ?_, reads := reads, readSlot := ?_, ended := ended
      encodeSlot := encodeSlot, stops := stops }, rfl, rfl, rfl, rfl⟩
    · simpa [unsent] using sent
    · rintro slot ⟨⟩
  | done retval => simp only [readLoopStep, at_, reduceCtorEq] at step

/-- The oldest element of the first channel is the next of the sequence. -/
theorem SendOk.front (ok : SendOk wh config file events s read passed)
    (waiting : read.taken < read.sent.length) :
    (elements config.bufSize file).drop read.taken =
      s.in2enc.elts (read.taken % (sendChanSize + 1)) ::
        (elements config.bufSize file).drop (read.taken + 1) := by
  have inside : read.taken < (elements config.bufSize file).length := by
    rw [← ok.sent, List.length_append]
    omega
  have front := ok.in2enc.front waiting
  rw [List.drop_eq_getElem_cons inside, List.cons.injEq, ← Option.some.injEq, ← front,
    ← List.getElem?_eq_getElem inside, ← ok.sent, List.getElem?_append_left waiting]
  exact ⟨rfl, rfl⟩

/-- `encode_loop` has sent everything only when it has returned. -/
theorem SendOk.encode_done (ok : SendOk wh config file events s read passed)
    (all : (pointers wh (hgapEncoderNew config.pktSize) (elements config.bufSize file)).length ≤
      passed.sent.length) : ∃ retval, s.encoder = .done retval := by
  have none_ : unpassed wh s ((elements config.bufSize file).drop read.taken) = [] := by
    rw [← ok.chunks, List.length_append] at all
    exact List.eq_nil_of_length_eq_zero (by omega)
  unfold unpassed at none_
  cases at_ : s.encoder with
  | peeking | encoding | acking =>
    rw [at_] at none_
    exact absurd none_ (marked_pointers ..).ne_nil
  | sending | poisoning =>
    rw [at_] at none_
    cases none_
  | done retval => exact ⟨retval, rfl⟩

/-- And `read_loop` likewise. -/
theorem SendOk.read_done (ok : SendOk wh config file events s read passed)
    (all : (elements config.bufSize file).length ≤ read.sent.length) :
    ∃ retval, s.reader = .done retval := by
  have none_ : unsent config s = [] := by
    rw [← ok.sent, List.length_append] at all
    exact List.eq_nil_of_length_eq_zero (by omega)
  unfold unsent at none_
  cases at_ : s.reader with
  | reserving | reading =>
    rw [at_] at none_
    exact absurd none_ (Marked.mk _).ne_nil
  | sending | poisoning | resetting | closing =>
    rw [at_] at none_
    cases none_
  | done retval => exact ⟨retval, rfl⟩

theorem SendOk.encodeLoop (ok : SendOk wh config file events s read passed)
    (step : encodeLoopStep wh s = some (event, s')) :
    ∃ read' passed', SendOk wh config file (events ++ [event]) s' read' passed' ∧
      passed'.taken = passed.taken ∧ Upstream s event s' := by
  have quiet := ok.silent .quiet rfl rfl
  have encoded := quiet.encoded
  have sent := quiet.chunks
  have numbers := quiet.numbers
  have slots := quiet.encodeSlot
  have goes := quiet.goes
  have stops := quiet.stops
  cases at_ : s.encoder with
  | peeking =>
    simp only [encodeLoopStep, at_, ok.in2enc.peek_eq ok.openIn] at step
    simp only [unencoded, unpassed, inHand, closed, encodeGoes, at_] at encoded sent numbers goes
    split at step
    next waiting =>
      obtain ⟨rfl, rfl⟩ := Prod.mk.inj (Option.some.inj step)
      exact ⟨read, passed, { quiet with
        encoded := encoded, chunks := sent, numbers := numbers, goes := goes
        stops := fun h => absurd trivial h
        encodeSlot := by rintro slot ⟨⟩; exact ⟨rfl, waiting⟩ }, rfl, rfl, rfl, rfl, rfl⟩
    next => cases step
  | encoding slot =>
    obtain ⟨rfl, waiting⟩ := slots slot (by rw [slotToEncode, at_])
    simp only [unencoded, unpassed, inHand, closed, encodeGoes, at_] at encoded sent numbers goes
    rw [ok.front waiting] at encoded sent goes
    cases element : s.in2enc.elts (read.taken % (sendChanSize + 1)) with
    | none =>
      simp only [encodeLoopStep, at_, element, Option.some.injEq, Prod.mk.injEq] at step
      obtain ⟨rfl, rfl⟩ := step
      rw [element] at encoded sent goes
      have poison := (goes trivial).last
      rw [← element, ← ok.front waiting] at encoded
      refine ⟨read, passed, { quiet with
        encoded := encoded, chunks := sent, numbers := numbers, goes := False.elim
        encodeSlot := by rintro slot ⟨⟩
        stops := fun _ => .inr ⟨?_, waiting⟩ }, rfl, rfl, rfl, rfl, rfl⟩
      rw [ok.front waiting, element, poison]
    | some toEnc =>
      rw [element] at encoded sent goes
      simp only [encodeLoopStep, at_, element] at step
      split at step
      next enc chunk init =>
        simp only [pointers_some, init] at sent
        obtain ⟨rfl, rfl⟩ := Prod.mk.inj (Option.some.inj step)
        obtain ⟨reads, ended⟩ := ok.unreading (.encoded s.enc.nextChunkNum toEnc) rfl
        have encoded := ok.encoded
        simp only [unencoded, at_, ok.front waiting, element] at encoded
        refine ⟨read, passed, { ok with
          reads := reads, ended := ended, encoded := ?_, chunks := ?_, numbers := ?_
          goes := fun _ => ?_
          encodeSlot := by rintro slot ⟨⟩; exact ⟨rfl, waiting⟩
          stops := fun h => absurd trivial h }, rfl, rfl, rfl, rfl, rfl⟩
        · rw [ok.front waiting]
          simpa [unencoded, encodedOf] using encoded
        · rw [ok.front waiting]
          exact sent
        · have numbers := ok.numbers
          simp only [inHand, closed, at_, List.append_nil] at numbers
          simp [inHand, closed, encodedOf, encChunkInit_num init, numbers]
        · rw [ok.front waiting]
          exact (goes trivial).tail
      next ret enc chunk failed init =>
        obtain ⟨rfl, rfl⟩ := Prod.mk.inj (Option.some.inj step)
        have silent := ok.silent .encodeError rfl rfl
        have encoded := silent.encoded
        have numbers := silent.numbers
        simp only [unencoded, inHand, closed, at_] at encoded numbers
        rw [pointers_failed wh init failed] at sent
        exact ⟨read, passed, { silent with
          encoded := encoded, chunks := sent, numbers := numbers, goes := False.elim
          encodeSlot := by rintro slot ⟨⟩
          stops := fun _ => .inl (List.mem_append_right _ List.mem_cons_self) }, rfl, rfl, rfl, rfl, rfl⟩
  | sending slot chunk =>
    obtain ⟨rfl, waiting⟩ := slots slot (by rw [slotToEncode, at_])
    simp only [unencoded, unpassed, inHand, closed, encodeGoes, at_] at encoded sent numbers goes
    rcases ok.enc2net.send_eq ok.openNet (some chunk) with
      ⟨-, blocked⟩ | ⟨chan, answer, opened, -, holds⟩
    · simp only [encodeLoopStep, at_, blocked, Option.map_none, reduceCtorEq] at step
    · simp only [encodeLoopStep, at_, answer, Option.map_some, Option.some.injEq,
        Prod.mk.injEq] at step
      obtain ⟨rfl, rfl⟩ := step
      exact ⟨read, _, { quiet with
        openNet := opened, enc2net := holds, encoded := encoded, goes := goes
        chunks := by simpa [unpassed] using sent
        numbers := by simpa [inHand, closed] using numbers
        encodeSlot := by rintro slot ⟨⟩; exact ⟨rfl, waiting⟩
        stops := fun h => absurd trivial h }, rfl, rfl, rfl, rfl, rfl⟩
  | acking slot =>
    obtain ⟨rfl, waiting⟩ := slots slot (by rw [slotToEncode, at_])
    simp only [unencoded, unpassed, inHand, closed, encodeGoes, at_, List.tail_drop]
      at encoded sent numbers goes
    simp only [encodeLoopStep, at_, ok.in2enc.ack_eq ok.openIn, Option.getD_some, Option.some.injEq,
      Prod.mk.injEq] at step
    obtain ⟨rfl, rfl⟩ := step
    exact ⟨{ read with taken := read.taken + 1 }, passed, { quiet with
      in2enc := ok.in2enc.acked waiting, encoded := encoded, chunks := sent, numbers := numbers, goes := goes
      readSlot := fun slot h => (quiet.readSlot slot h).imp_right fun room => by
        unfold Queue.HasRoom at *
        dsimp only
        omega
      encodeSlot := by rintro slot ⟨⟩
      stops := fun h => absurd trivial h }, rfl, rfl, rfl, rfl, rfl⟩
  | poisoning retval =>
    simp only [unencoded, unpassed, inHand, closed, encodeGoes, at_] at encoded sent numbers goes stops
    rcases ok.enc2net.send_eq ok.openNet none with
      ⟨-, blocked⟩ | ⟨chan, answer, opened, -, holds⟩
    · simp only [encodeLoopStep, at_, blocked, Option.map_none, reduceCtorEq] at step
    · simp only [encodeLoopStep, at_, answer, Option.map_some, Option.some.injEq,
        Prod.mk.injEq] at step
      obtain ⟨rfl, rfl⟩ := step
      exact ⟨read, _, { quiet with
        openNet := opened, enc2net := holds, encoded := encoded, goes := goes, stops := stops
        chunks := by simpa [unpassed] using sent
        numbers := by
          rw [List.append_nil, List.append_nil] at numbers
          rw [List.map_append, numbers]
          simp [inHand, closed]
        encodeSlot := by rintro slot ⟨⟩ }, rfl, rfl, rfl, rfl, rfl⟩
  | done retval => simp only [encodeLoopStep, at_, reduceCtorEq] at step

end

section
variable {S : Type} (wh : Wirehair S) (config : HgapConfig) (keepalive : UInt32)

/-- What `send_loop` and the end of `hgap_send` can do in one step. -/
inductive SendCase (s : SenderState S) (passed : Queue (Option (HgapEncChunk S))) :
    SendEvent → SenderState S → Queue (Option (HgapEncChunk S)) → Prop
  | created (at_ : s.main = .creating) : SendCase s passed .quiet
      { s with sender := some (hgapSenderNew keepalive), main := .handwaving } passed
  | uncreated (at_ : s.main = .creating) : SendCase s passed .senderError
      { s with main := .freeing .errInternal } passed
  | handwaved (at_ : s.main = .handwaving) (pkt : Bytes)
      (room : hgapEncoderHandwave config.pktSize = .ok pkt) : SendCase s passed .quiet
      { s with main := .waving pkt hgapSalveLen } passed
  | cramped (at_ : s.main = .handwaving) (error : Hgap)
      (small : hgapEncoderHandwave config.pktSize = .error error) : SendCase s passed .controlError
      { s with main := .freeing .errBufferTooSmall } passed
  | waved (pkt : Bytes) (at_ : s.main = .waving pkt 0) : SendCase s passed .quiet
      { s with main := .receiving } passed
  | waves (pkt : Bytes) (left : Nat) (at_ : s.main = .waving pkt (left + 1)) :
      SendCase s passed (.control pkt) { s with main := .waving pkt left } passed
  | unwaved (pkt : Bytes) (left : Nat) (at_ : s.main = .waving pkt (left + 1)) :
      SendCase s passed .controlError { s with main := .freeing .errNetwork } passed
  | poison (chan : Channel (Option (HgapEncChunk S))) (at_ : s.main = .receiving)
      (front : passed.sent[passed.taken]? = some none) : SendCase s passed .quiet
      { s with enc2net := chan, main := .tearingDown .success }
      { passed with taken := passed.taken + 1 }
  | chunk (chan : Channel (Option (HgapEncChunk S))) (at_ : s.main = .receiving)
      (chunk : HgapEncChunk S) (front : passed.sent[passed.taken]? = some (some chunk)) :
      SendCase s passed .quiet { s with enc2net := chan, main := .emitting chunk false }
        { passed with taken := passed.taken + 1 }
  | stuck (chunk : HgapEncChunk S) (failed : Bool) (at_ : s.main = .emitting chunk failed)
      (ended : hgapEncChunkEmit wh chunk = none) : SendCase s passed .quiet (s.exit .check) passed
  | emits (chunk : HgapEncChunk S) (failed : Bool) (at_ : s.main = .emitting chunk failed)
      (e : Emitted S) (emit : hgapEncChunkEmit wh chunk = some e) : SendCase s passed
      (if e.failed then .emitError else .emitted chunk.num chunk.len e.redund e.datagrams)
      { s with main := if e.redund.lt config.redund then .emitting e.chunk (failed || e.failed)
        else if failed || e.failed then .tearingDown .errWirehairError else .receiving } passed
  | tearsDown (retval : Hgap) (at_ : s.main = .tearingDown retval) (pkt : Bytes)
      (room : hgapEncoderTeardown config.pktSize = .ok pkt) : SendCase s passed .quiet
      { s with main := .teardown pkt hgapSalveLen retval } passed
  | uncontrolled (retval : Hgap) (at_ : s.main = .tearingDown retval) (error : Hgap)
      (small : hgapEncoderTeardown config.pktSize = .error error) : SendCase s passed .quiet
      { s with main := .freeing retval } passed
  | torn (pkt : Bytes) (retval : Hgap) (at_ : s.main = .teardown pkt 0 retval) :
      SendCase s passed .quiet { s with main := .freeing retval } passed
  | tears (pkt : Bytes) (left : Nat) (retval : Hgap) (at_ : s.main = .teardown pkt (left + 1) retval) :
      SendCase s passed (.control pkt) { s with main := .teardown pkt left retval } passed
  | untorn (pkt : Bytes) (left : Nat) (retval : Hgap)
      (at_ : s.main = .teardown pkt (left + 1) retval) :
      SendCase s passed .controlError { s with main := .freeing retval } passed
  | unmade (retval : Hgap) (at_ : s.main = .freeing retval) (null : s.sender = none) :
      SendCase s passed .quiet (s.exit .nullSender) passed
  | stops (retval : Hgap) (at_ : s.main = .freeing retval) (hs : HgapSender)
      (made : s.sender = some hs) (runs : hs.cont = true) : SendCase s passed .quiet
      { s with sender := some { hs with cont := false }, main := .joinKeepalive retval } passed
  | frees (retval : Hgap) (at_ : s.main = .freeing retval) (hs : HgapSender)
      (made : s.sender = some hs) (none_ : hs.cont = false) : SendCase s passed .quiet
      { s with sender := none, main := .joinRead retval } passed
  | joinsKeepalive (retval : Hgap) (at_ : s.main = .joinKeepalive retval) :
      SendCase s passed .quiet { s with sender := none, main := .joinRead retval } passed
  | joinsRead (retval ret : Hgap) (at_ : s.main = .joinRead retval) (done : s.reader = .done ret) :
      SendCase s passed .quiet
        { s with main := .joinEncode (hgapSelectError ret.code retval.code) } passed
  | joinsEncode (retval : Int) (ret : Hgap) (at_ : s.main = .joinEncode retval)
      (done : s.encoder = .done ret) : SendCase s passed .quiet
        { s with main := .returned (hgapSelectError ret.code retval) } passed

variable {wh config keepalive} {file : Input} {events : List SendEvent} {event : SendEvent}
  {s s' : SenderState S} {read : Queue (Option Bytes)} {passed : Queue (Option (HgapEncChunk S))}

/-- The oldest element of the second channel is the next of its sequence. -/
theorem SendOk.next (ok : SendOk wh config file events s read passed)
    {element : Option (HgapEncChunk S)} (front : passed.sent[passed.taken]? = some element) :
    (pointers wh (hgapEncoderNew config.pktSize) (elements config.bufSize file)).drop passed.taken =
      element :: (pointers wh (hgapEncoderNew config.pktSize) (elements config.bufSize file)).drop
        (passed.taken + 1) := by
  obtain ⟨waiting, rfl⟩ := List.getElem?_eq_some_iff.mp front
  have inside : passed.taken <
      (pointers wh (hgapEncoderNew config.pktSize) (elements config.bufSize file)).length := by
    rw [← ok.chunks, List.length_append]
    omega
  rw [List.drop_eq_getElem_cons inside, List.cons.injEq, ← Option.some.injEq,
    ← List.getElem?_eq_getElem inside, ← ok.chunks, List.getElem?_append_left waiting,
    List.getElem?_eq_getElem waiting]
  exact ⟨rfl, rfl⟩

theorem SendOk.next_take (ok : SendOk wh config file events s read passed)
    {element : Option (HgapEncChunk S)} (front : passed.sent[passed.taken]? = some element) :
    (pointers wh (hgapEncoderNew config.pktSize) (elements config.bufSize file)).take
        (passed.taken + 1) =
      (pointers wh (hgapEncoderNew config.pktSize) (elements config.bufSize file)).take
        passed.taken ++ [element] := by
  rw [List.take_add, ok.next front]
  rfl

/-- The accounts do not look at `send_loop`, nor at the sender. -/
theorem SendOk.downstream (ok : SendOk wh config file events s read passed) (main : SendAt S)
    (sender : Option HgapSender) (exited : Option Exit) :
    SendOk wh config file events { s with main := main, sender := sender, exited := exited } read
      passed :=
  { ok with }

theorem SendOk.sendLoop (ok : SendOk wh config file events s read passed) (answer : Bool)
    (step : sendLoopStep wh config keepalive answer s = some (event, s')) :
    ∃ passed', SendOk wh config file (events ++ [event]) s' read passed' ∧
      SendCase wh config keepalive s passed event s' passed' := by
  cases at_ : s.main with
  | creating =>
    simp only [sendLoopStep, at_] at step
    split at step
    · obtain ⟨rfl, rfl⟩ := Prod.mk.inj (Option.some.inj step)
      exact ⟨passed, (ok.silent .quiet rfl rfl).downstream .., .created at_⟩
    · obtain ⟨rfl, rfl⟩ := Prod.mk.inj (Option.some.inj step)
      exact ⟨passed, (ok.silent .senderError rfl rfl).downstream .., .uncreated at_⟩
  | handwaving =>
    simp only [sendLoopStep, at_] at step
    split at step
    next error small =>
      obtain ⟨rfl, rfl⟩ := Prod.mk.inj (Option.some.inj step)
      exact ⟨passed, (ok.silent .controlError rfl rfl).downstream .., .cramped at_ error small⟩
    next pkt room =>
      obtain ⟨rfl, rfl⟩ := Prod.mk.inj (Option.some.inj step)
      exact ⟨passed, (ok.silent .quiet rfl rfl).downstream .., .handwaved at_ pkt room⟩
  | waving pkt left =>
    cases left with
    | zero =>
      simp only [sendLoopStep, at_, Option.some.injEq, Prod.mk.injEq] at step
      obtain ⟨rfl, rfl⟩ := step
      exact ⟨passed, (ok.silent .quiet rfl rfl).downstream .., .waved pkt at_⟩
    | succ left =>
      simp only [sendLoopStep, at_] at step
      split at step
      · obtain ⟨rfl, rfl⟩ := Prod.mk.inj (Option.some.inj step)
        exact ⟨passed, (ok.silent (.control pkt) rfl rfl).downstream .., .waves pkt left at_⟩
      · obtain ⟨rfl, rfl⟩ := Prod.mk.inj (Option.some.inj step)
        exact ⟨passed, (ok.silent .controlError rfl rfl).downstream .., .unwaved pkt left at_⟩
  | receiving =>
    rcases ok.enc2net.recv_eq ok.openNet with
      ⟨-, blocked⟩ | ⟨value, chan, answer, opened, front, holds⟩
    · simp only [sendLoopStep, at_, blocked, Option.map_none, reduceCtorEq] at step
    · simp only [sendLoopStep, at_, answer, Option.map_some, Option.some.injEq] at step
      have quiet := ok.silent .quiet rfl rfl
      cases value with
      | none =>
        obtain ⟨rfl, rfl⟩ := Prod.mk.inj step
        exact ⟨_, { quiet with openNet := opened, enc2net := holds }, .poison chan at_ front⟩
      | some chunk =>
        obtain ⟨rfl, rfl⟩ := Prod.mk.inj step
        exact ⟨_, { quiet with openNet := opened, enc2net := holds }, .chunk chan at_ chunk front⟩
  | emitting chunk failed =>
    simp only [sendLoopStep, at_] at step
    split at step
    next ended =>
      obtain ⟨rfl, rfl⟩ := Prod.mk.inj (Option.some.inj step)
      exact ⟨passed, (ok.silent .quiet rfl rfl).downstream .., .stuck chunk failed at_ ended⟩
    next e emit =>
      obtain ⟨rfl, rfl⟩ := Prod.mk.inj (Option.some.inj step)
      refine ⟨passed, (ok.silent _ ?_ ?_).downstream .., .emits chunk failed at_ e emit⟩
      · cases e.failed <;> rfl
      · cases e.failed <;> rfl
  | tearingDown retval =>
    simp only [sendLoopStep, at_] at step
    split at step
    next error small =>
      obtain ⟨rfl, rfl⟩ := Prod.mk.inj (Option.some.inj step)
      exact ⟨passed, (ok.silent .quiet rfl rfl).downstream .., .uncontrolled retval at_ error small⟩
    next pkt room =>
      obtain ⟨rfl, rfl⟩ := Prod.mk.inj (Option.some.inj step)
      exact ⟨passed, (ok.silent .quiet rfl rfl).downstream .., .tearsDown retval at_ pkt room⟩
  | teardown pkt left retval =>
    cases left with
    | zero =>
      simp only [sendLoopStep, at_, Option.some.injEq, Prod.mk.injEq] at step
      obtain ⟨rfl, rfl⟩ := step
      exact ⟨passed, (ok.silent .quiet rfl rfl).downstream .., .torn pkt retval at_⟩
    | succ left =>
      simp only [sendLoopStep, at_] at step
      split at step
      · obtain ⟨rfl, rfl⟩ := Prod.mk.inj (Option.some.inj step)
        exact ⟨passed, (ok.silent (.control pkt) rfl rfl).downstream .., .tears pkt left retval at_⟩
      · obtain ⟨rfl, rfl⟩ := Prod.mk.inj (Option.some.inj step)
        exact ⟨passed, (ok.silent .controlError rfl rfl).downstream .., .untorn pkt left retval at_⟩
  | freeing retval =>
    simp only [sendLoopStep, at_] at step
    split at step
    next null =>
      obtain ⟨rfl, rfl⟩ := Prod.mk.inj (Option.some.inj step)
      exact ⟨passed, (ok.silent .quiet rfl rfl).downstream .., .unmade retval at_ null⟩
    next hs made =>
      cases runs : hs.cont with
      | true =>
        rw [runs, if_pos rfl] at step
        obtain ⟨rfl, rfl⟩ := Prod.mk.inj (Option.some.inj step)
        exact ⟨passed, (ok.silent .quiet rfl rfl).downstream .., .stops retval at_ hs made runs⟩
      | false =>
        rw [runs, if_neg Bool.false_ne_true] at step
        obtain ⟨rfl, rfl⟩ := Prod.mk.inj (Option.some.inj step)
        exact ⟨passed, (ok.silent .quiet rfl rfl).downstream .., .frees retval at_ hs made runs⟩
  | joinKeepalive retval =>
    simp only [sendLoopStep, at_] at step
    split at step
    · obtain ⟨rfl, rfl⟩ := Prod.mk.inj (Option.some.inj step)
      exact ⟨passed, (ok.silent .quiet rfl rfl).downstream .., .joinsKeepalive retval at_⟩
    · cases step
  | joinRead retval =>
    simp only [sendLoopStep, at_] at step
    split at step
    next ret done =>
      obtain ⟨rfl, rfl⟩ := Prod.mk.inj (Option.some.inj step)
      exact ⟨passed, (ok.silent .quiet rfl rfl).downstream .., .joinsRead retval ret at_ done⟩
    · cases step
  | joinEncode retval =>
    simp only [sendLoopStep, at_] at step
    split at step
    next ret done =>
      obtain ⟨rfl, rfl⟩ := Prod.mk.inj (Option.some.inj step)
      exact ⟨passed, (ok.silent .quiet rfl rfl).downstream .., .joinsEncode retval ret at_ done⟩
    · cases step
  | returned retval => simp only [sendLoopStep, at_, reduceCtorEq] at step

/-- A step of the keepalive thread, as `send_loop` sees it. -/
structure Beside (s : SenderState S) (event : SendEvent) (s' : SenderState S) : Prop where
  main : s'.main = s.main
  sender : s'.sender.isSome = s.sender.isSome
  exited : event ≠ .keepaliveError → s'.exited = s.exited
  event : event = .quiet ∨ event = .keepaliveError ∨
    event = .keepalive (hgapWriteHeader hgapHeaderKeepalive)

theorem SendOk.keepaliveLoop (ok : SendOk wh config file events s read passed) (answer : Bool)
    (step : keepaliveLoopStep answer s = some (event, s')) :
    SendOk wh config file (events ++ [event]) s' read passed ∧ Beside s event s' := by
  unfold keepaliveLoopStep at step
  split at step
  next => cases step
  next hs made =>
    have isSome : true = s.sender.isSome := by rw [made, Option.isSome_some]
    cases at_ : hs.thread with
    | testing =>
      simp only [at_, Option.some.injEq, Prod.mk.injEq] at step
      obtain ⟨rfl, rfl⟩ := step
      exact ⟨(ok.silent .quiet rfl rfl).downstream .., rfl, isSome, fun _ => rfl, .inl rfl⟩
    | sleeping =>
      simp only [at_, Option.some.injEq, Prod.mk.injEq] at step
      obtain ⟨rfl, rfl⟩ := step
      exact ⟨(ok.silent .quiet rfl rfl).downstream .., rfl, isSome, fun _ => rfl, .inl rfl⟩
    | sending =>
      simp only [at_] at step
      split at step
      · obtain ⟨rfl, rfl⟩ := Prod.mk.inj (Option.some.inj step)
        exact ⟨(ok.silent (.keepalive _) rfl rfl).downstream .., rfl, isSome, fun _ => rfl,
          .inr (.inr rfl)⟩
      · obtain ⟨rfl, rfl⟩ := Prod.mk.inj (Option.some.inj step)
        exact ⟨(ok.silent .keepaliveError rfl rfl).downstream .., rfl, rfl,
          fun h => absurd rfl h, .inr (.inl rfl)⟩
    | ended => simp only [at_, reduceCtorEq] at step

/-- A step of any thread, as `send_loop` sees it. -/
inductive SenderMove (wh : Wirehair S) (config : HgapConfig) (keepalive : UInt32)
    (s : SenderState S) (passed : Queue (Option (HgapEncChunk S))) (event : SendEvent)
    (s' : SenderState S) (passed' : Queue (Option (HgapEncChunk S))) : Prop
  | upstream (taken : passed'.taken = passed.taken) (move : Upstream s event s')
  | send (move : SendCase wh config keepalive s passed event s' passed')
  | beside (taken : passed'.taken = passed.taken) (move : Beside s event s')

theorem SendOk.step (pos : 0 < config.bufSize) (ok : SendOk wh config file events s read passed)
    (step : SenderStep wh config keepalive s event s') :
    ∃ read' passed', SendOk wh config file (events ++ [event]) s' read' passed' ∧
      SenderMove wh config keepalive s passed event s' passed' := by
  obtain ⟨actor, step⟩ := step
  unfold senderStep at step
  split at step
  · cases step
  cases actor with
  | read =>
    obtain ⟨read', ok', move⟩ := ok.readLoop pos step
    exact ⟨read', passed, ok', .upstream rfl move⟩
  | encode =>
    obtain ⟨read', passed', ok', taken, move⟩ := ok.encodeLoop step
    exact ⟨read', passed', ok', .upstream taken move⟩
  | send answer =>
    obtain ⟨passed', ok', move⟩ := ok.sendLoop answer step
    exact ⟨read, passed', ok', .send move⟩
  | keepalive answer =>
    obtain ⟨ok', move⟩ := ok.keepaliveLoop answer step
    exact ⟨read, passed, ok', .beside rfl move⟩

theorem sendOk_start (given : config.inFile.isSome = true) (slots : Nat → Option Bytes)
    (pointers : Nat → Option (HgapEncChunk S)) :
    SendOk wh config file [] (.start config file slots pointers) .empty .empty := by
  have reader : (SenderState.start config file slots pointers : SenderState S).reader =
      .reserving := if_pos given
  refine ⟨rfl, rfl, holds_new _ _, holds_new _ _, rfl, ?_, ?_, ?_, ?_, ?_, rfl, rfl, rfl, ?_, ?_⟩
  · rw [unsent, reader]
    rfl
  · rw [slotToFill, reader]
    exact fun _ h => nomatch h
  · rw [unread, reader]
    rfl
  · rw [readEnded, reader]
    exact False.elim
  · exact fun _ h => nomatch h
  · exact fun _ => .mk _
  · exact fun h => absurd trivial h

/-- What `send_loop` can rely on in every run: the accounts of the other threads, and all that
its own steps preserve. -/
theorem send_run (pos : 0 < config.bufSize) (given : config.inFile.isSome = true)
    {slots : Nat → Option Bytes} {pointers : Nat → Option (HgapEncChunk S)}
    (allowed : SenderState S → SendEvent → Prop)
    (inv : List SendEvent → SenderState S → Nat → Prop)
    (start : inv [] (.start config file slots pointers) 0)
    (preserved : ∀ events s event s' read passed passed',
      SendOk wh config file events s read passed → inv events s passed.taken → allowed s event →
      SenderStep wh config keepalive s event s' →
      SenderMove wh config keepalive s passed event s' passed' →
      inv (events ++ [event]) s' passed'.taken)
    (run : Steps (Guarded allowed (SenderStep wh config keepalive))
      (.start config file slots pointers) events s) :
    ∃ read passed, SendOk wh config file events s read passed ∧ inv events s passed.taken := by
  refine run.invariant (fun events s => ∃ read passed,
    SendOk wh config file events s read passed ∧ inv events s passed.taken) ?_ ?_
  · exact ⟨.empty, .empty, sendOk_start given slots pointers, start⟩
  · rintro events s event s' ⟨read, passed, ok, holds⟩ ⟨step, allowed⟩
    obtain ⟨read', passed', ok', move⟩ := ok.step pos step
    exact ⟨read', passed', ok', preserved _ _ _ _ _ _ _ ok holds allowed step move⟩

end

end Hairgap.Guarantees
