import Hairgap.Source.DecoderCases
import Hairgap.Source.Config

/-!
# The sequential receiver

hgap_receive.c:102-156,177-244,320-389. The network reader and the decoder loop, one after the other
over the same datagrams. A datagram is what `recvfrom` left in the slot; when it answers with an
error instead is a parameter.
-/
namespace Hairgap.Source
open Hairgap.Base

/-- A chunk handed to the output, with the number the decoder held. -/
structure OutChunk where
  num : UInt64
  data : Bytes
  deriving DecidableEq, Repr

/-- One turn of the documented read/emit loop: the result of the read, the verdict of the
emit that follows a positive one, the chunk written, and the decoder. -/
structure Turn (S : Type) where
  ret : Int
  emitted : Option Hgap
  out : Option OutChunk
  dec : HgapDecoder S

section
variable {S : Type} (wh : Wirehair S)

/-- The buffer for the emit has the size the read returned. -/
def readEmit (dec : HgapDecoder S) (d : Datagram) : Option (Turn S) :=
  let r := hgapDecoderRead wh dec d
  if r.ret > 0 then
    (hgapDecoderEmit wh r.dec r.ret.toNat).map fun e =>
      ⟨r.ret, some e.ret, if e.ret = .success then some ⟨r.dec.chunk.num, e.out⟩ else none, e.dec⟩
  else some ⟨r.ret, none, none, r.dec⟩

/-- The two turns of the loop. -/
inductive TurnCase (dec : HgapDecoder S) (d : Datagram) : Turn S → Prop
  | quiet (nothing : ¬ (hgapDecoderRead wh dec d).ret > 0) :
      TurnCase dec d ⟨(hgapDecoderRead wh dec d).ret, none, none, (hgapDecoderRead wh dec d).dec⟩
  | emits (positive : (hgapDecoderRead wh dec d).ret > 0) (e : EmitResult S)
      (returns : hgapDecoderEmit wh (hgapDecoderRead wh dec d).dec
        (hgapDecoderRead wh dec d).ret.toNat = some e) :
      TurnCase dec d ⟨(hgapDecoderRead wh dec d).ret, some e.ret,
        if e.ret = .success then
          some ⟨(hgapDecoderRead wh dec d).dec.chunk.num, e.out⟩ else none, e.dec⟩

theorem turnCase (dec : HgapDecoder S) (d : Datagram) (turn : Turn S)
    (result : readEmit wh dec d = some turn) : TurnCase wh dec d turn := by
  simp only [readEmit] at result
  split at result
  next positive =>
    obtain ⟨e, returns, rfl⟩ := Option.map_eq_some_iff.mp result
    exact .emits positive e returns
  next nothing =>
    cases result
    exact .quiet nothing

/-- Return value with which `decloop` leaves its loop after a turn, if it does. -/
def Turn.leaves (turn : Turn S) : Option Int :=
  if turn.ret = 0 then none
  else if turn.ret = -Hgap.eot.code then some Hgap.success.code
  else if turn.ret < 0 then some (-turn.ret)
  else match turn.emitted with
    | some .success => none
    | some err => some err.code
    | none => none

/-- `decloop` up to the poison pill behind the datagrams: its return value, and the
chunks sent to the writer. `none` when a `CHK` ends the process. -/
def decloop (dec : HgapDecoder S) : List Datagram → Option (Int × List OutChunk)
  | [] => some (Hgap.success.code, [])
  | d :: rest =>
    match readEmit wh dec d with
    | none => none
    | some turn =>
      match turn.leaves with
      | some retval => some (retval, turn.out.toList)
      | none => (decloop turn.dec rest).map fun (retval, outs) => (retval, turn.out.toList ++ outs)

/-- A turn of the documented loop, whatever the caller makes of its result. -/
def ReadEmit (dec : HgapDecoder S) (label : Datagram × Option OutChunk) (dec' : HgapDecoder S) :
    Prop :=
  ∃ turn, readEmit wh dec label.1 = some turn ∧ turn.out = label.2 ∧ turn.dec = dec'

/-- A turn after which `decloop` asks for the next datagram. -/
def LoopTurn (dec : HgapDecoder S) (label : Datagram × Option OutChunk) (dec' : HgapDecoder S) :
    Prop :=
  ∃ turn, readEmit wh dec label.1 = some turn ∧ turn.leaves = none ∧ turn.out = label.2 ∧
    turn.dec = dec'

/-- The chunks a run of turns handed to the output. -/
def outChunks (labels : List (Datagram × Option OutChunk)) : List OutChunk :=
  labels.filterMap Prod.snd

/-- What a call of `recvfrom` can answer. -/
inductive Recv where
  | datagram (d : Datagram)
  | timedOut
  | failed

/-- The receive loop of `hgapr_net_reader`: its return value, and the datagrams passed on.
The loop is left on any END packet. `none` while it still waits. -/
def hgaprNetReader : List Recv → Option (Int × List Datagram)
  | [] => none
  | .timedOut :: _ => some (Hgap.errTimeout.code, [])
  | .failed :: _ => some (Hgap.errNetwork.code, [])
  | .datagram d :: rest =>
    if hgapPktType d = .end_ then some (Hgap.success.code, [d])
    else (hgaprNetReader rest).map fun (retval, passed) => (retval, d :: passed)

/-- `hgap_receive` with the writer's return value given: the merged verdict of the three
stages, and the chunks the decoder sent. -/
def hgapReceive (recvs : List Recv) (writer : Int) : Option (Int × List OutChunk) :=
  (hgaprNetReader recvs).bind fun (reader, passed) =>
    (decloop wh hgapDecoderNew passed).map fun (decoder, outs) =>
      (hgapSelectError writer (hgapSelectError decoder reader), outs)

/-- `sizeof(struct sized_buf)`. -/
abbrev sizedBufLen : Nat := 16

/-- Element size of the packet channel, a sum of type `size_t`. -/
def pktSlotSize (config : HgapConfig) : Nat := (sizedBufLen + config.pktSize) % 2 ^ 64

/-- Capacities of the two channels `hgap_receive` creates. -/
def pktChanSize (config : HgapConfig) : Nat := config.memLimit / 2 / pktSlotSize config

def chunkChanSize (config : HgapConfig) : Nat :=
  max 256 (config.memLimit / 2 / hgapMaxChunkSize)

/-- The room `hgapr_net_reader` offers to `recvfrom`, a difference of type `size_t`. -/
def netReaderMtu (config : HgapConfig) : Nat :=
  (pktSlotSize config + (2 ^ 64 - sizedBufLen)) % 2 ^ 64

/-- What `recvfrom` leaves of a packet. -/
def recvfrom (mtu : Nat) (pkt : Bytes) : Bytes := pkt.take mtu

end

section
variable {S : Type} {wh : Wirehair S}

/-- `decloop` leaves with success on the code of the end, and on nothing else. -/
theorem leaves_success_iff (turn : Turn S) :
    turn.leaves = some Hgap.success.code ↔ turn.ret = -Hgap.eot.code := by
  obtain ⟨ret, emitted, out, dec⟩ := turn
  unfold Turn.leaves
  dsimp only
  split
  next h => simp [h, Hgap.code]
  next h =>
    split
    next eot => simp [eot]
    next eot =>
      split
      next =>
        have zero : Hgap.success.code = 0 := rfl
        simp only [eot, iff_false, Option.some.injEq, zero]
        omega
      next =>
        simp only [eot, iff_false]
        rcases emitted with _ | verdict
        · simp
        · cases verdict <;> simp [Hgap.code]

theorem TurnCase.ret {dec : HgapDecoder S} {d : Datagram} {turn : Turn S}
    (case : TurnCase wh dec d turn) : turn.ret = (hgapDecoderRead wh dec d).ret := by
  cases case <;> rfl

@[simp] theorem outChunks_nil : outChunks [] = [] := rfl

@[simp] theorem outChunks_append (xs ys : List (Datagram × Option OutChunk)) :
    outChunks (xs ++ ys) = outChunks xs ++ outChunks ys := by
  simp [outChunks]

theorem LoopTurn.readEmit {dec dec' : HgapDecoder S} {label : Datagram × Option OutChunk}
    (turn : LoopTurn wh dec label dec') : ReadEmit wh dec label dec' := by
  obtain ⟨t, h, -, hout, hdec⟩ := turn
  exact ⟨t, h, hout, hdec⟩

/-- A run of `decloop`: turns that go on, and then the poison pill or the turn it
leaves on. -/
theorem decloop_run (dec : HgapDecoder S) (ds : List Datagram) (retval : Int)
    (outs : List OutChunk) (result : decloop wh dec ds = some (retval, outs)) :
    ∃ labels dec', Steps (LoopTurn wh) dec labels dec' ∧
      ((ds = labels.map Prod.fst ∧ retval = Hgap.success.code ∧ outs = outChunks labels) ∨
        ∃ d rest turn, ds = labels.map Prod.fst ++ d :: rest ∧
          readEmit wh dec' d = some turn ∧ turn.leaves = some retval ∧
          outs = outChunks labels ++ turn.out.toList) := by
  induction ds generalizing dec outs with
  | nil =>
    cases result
    exact ⟨[], dec, .nil dec, .inl ⟨rfl, rfl, rfl⟩⟩
  | cons d rest ih =>
    unfold decloop at result
    split at result
    · cases result
    next turn hread =>
      split at result
      next leaves =>
        cases result
        exact ⟨[], dec, .nil dec, .inr ⟨d, rest, turn, rfl, hread, leaves, rfl⟩⟩
      next goes =>
        obtain ⟨⟨later, more⟩, hrest, heq⟩ := Option.map_eq_some_iff.mp result
        cases heq
        obtain ⟨labels, dec', run, ending⟩ := ih turn.dec more hrest
        have first : Steps (LoopTurn wh) dec [(d, turn.out)] turn.dec :=
          .one ⟨turn, hread, goes, rfl, rfl⟩
        have houts : outChunks ([(d, turn.out)] ++ labels) = turn.out.toList ++ outChunks labels := by
          cases h : turn.out <;> simp [outChunks]
        refine ⟨_, dec', first.trans run, ?_⟩
        rcases ending with ⟨rfl, hret, rfl⟩ | ⟨last, tail, t, rfl, hread', hleaves, rfl⟩
        · exact .inl ⟨by simp, hret, houts.symm⟩
        · refine .inr ⟨last, tail, t, by simp, hread', hleaves, ?_⟩
          rw [houts, List.append_assoc]

/-- The network reader stops at the first END packet it receives. -/
theorem netReader_stops (before : List Datagram) (e : Datagram) (rest : List Recv)
    (last : hgapPktType e = .end_) (first : .end_ ∉ before.map hgapPktType) :
    hgaprNetReader (before.map .datagram ++ .datagram e :: rest) =
      some (Hgap.success.code, before ++ [e]) := by
  induction before with
  | nil => simp [hgaprNetReader, last]
  | cons d before ih =>
    rw [List.map_cons, List.mem_cons, not_or] at first
    have goes : hgapPktType d ≠ .end_ := fun h => first.1 h.symm
    simp [hgaprNetReader, goes, ih first.2]

/-- It succeeds in no other way. -/
theorem netReader_success (recvs : List Recv) (passed : List Datagram)
    (success : hgaprNetReader recvs = some (Hgap.success.code, passed)) :
    ∃ before e rest, recvs = before.map .datagram ++ .datagram e :: rest ∧
      passed = before ++ [e] ∧ hgapPktType e = .end_ ∧ .end_ ∉ before.map hgapPktType := by
  induction recvs generalizing passed with
  | nil => cases success
  | cons recv rest ih =>
    cases recv with
    | timedOut => simp [hgaprNetReader, Hgap.code] at success
    | failed => simp [hgaprNetReader, Hgap.code] at success
    | datagram d =>
      by_cases last : hgapPktType d = .end_
      · have hpassed : passed = [d] := by simpa [hgaprNetReader, last, eq_comm] using success
        exact ⟨[], d, rest, rfl, hpassed, last, by simp⟩
      · simp only [hgaprNetReader, if_neg last] at success
        obtain ⟨⟨retval, more⟩, hrest, heq⟩ := Option.map_eq_some_iff.mp success
        cases heq
        obtain ⟨before, e, after, rfl, rfl, hend, none⟩ := ih more hrest
        refine ⟨d :: before, e, after, rfl, rfl, hend, ?_⟩
        rw [List.map_cons, List.mem_cons, not_or]
        exact ⟨fun h => last h.symm, none⟩

end

end Hairgap.Source
