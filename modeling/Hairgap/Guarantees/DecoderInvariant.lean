import Hairgap.Source.Receiver

/-!
# Reachable decoders

A decoder is blank until it accepts a first chunk. From then on it holds a chunk in one
of four shapes, whatever it is fed and whenever it is asked to emit.
-/
namespace Hairgap.Guarantees
open Hairgap.Base Hairgap.Source

variable {S : Type} (wh : Wirehair S)

/-- As created: nothing behind the two flags, and a number no data packet has. -/
structure Blank (dec : HgapDecoder S) : Prop where
  chunk : dec.chunk = { hgapEncChunkNew with num := 0xffffffffffffffff }
  complete : dec.chunkComplete = true
  emitted : dec.chunkEmitted = true

/-- What stands behind the flags of a chunk that was accepted. -/
inductive Content (dec : HgapDecoder S) : Prop
  /-- A chunk announced as empty stays incomplete. -/
  | hollow (incomplete : dec.chunkComplete = false)
      (unemitted : dec.chunkEmitted = false) (isSmall : hgapEncChunkIsSmall dec.chunk = true)
      (present : dec.chunk.data = some []) (empty : dec.chunk.len = 0)
  | collecting (incomplete : dec.chunkComplete = false)
      (unemitted : dec.chunkEmitted = false) (isBig : hgapEncChunkIsSmall dec.chunk = false)
      (absent : dec.chunk.data = none)
  | small (complete : dec.chunkComplete = true) (isSmall : hgapEncChunkIsSmall dec.chunk = true)
      (data : Bytes) (present : dec.chunk.data = some data)
      (filled : data.length = dec.chunk.len) (pos : 0 < dec.chunk.len)
  | coded (complete : dec.chunkComplete = true) (isBig : hgapEncChunkIsSmall dec.chunk = false)
      (absent : dec.chunk.data = none) (pos : 0 < dec.chunk.len)
      (state : S) (hasState : dec.chunk.whState = some state)

structure Loaded (dec : HgapDecoder S) : Prop where
  inside : dec.state = .tData ∨ dec.state = .tStopped
  num : dec.chunk.num < hgapFirstReserved
  len : dec.chunk.len ≤ hgapMaxChunkSize
  content : Content dec

def Coherent (dec : HgapDecoder S) : Prop := Blank dec ∨ Loaded dec

/-- A complete chunk is not empty. -/
theorem Loaded.pos {dec : HgapDecoder S} (loaded : Loaded dec)
    (complete : dec.chunkComplete = true) : 0 < dec.chunk.len := by
  cases loaded.content with
  | hollow incomplete | collecting incomplete =>
    rw [complete] at incomplete
    cases incomplete
  | small _ _ _ _ _ pos | coded _ _ _ pos => exact pos

theorem coherent_new : Coherent (hgapDecoderNew (S := S)) := .inl ⟨rfl, rfl, rfl⟩

/-- An incomplete chunk that has its data is the empty chunk. -/
theorem Coherent.incomplete {dec : HgapDecoder S} (coherent : Coherent dec)
    (incomplete : dec.chunkComplete = false) :
    Loaded dec ∧ dec.chunkEmitted = false ∧
      ((hgapEncChunkIsSmall dec.chunk = true ∧ dec.chunk.data = some [] ∧ dec.chunk.len = 0) ∨
        (hgapEncChunkIsSmall dec.chunk = false ∧ dec.chunk.data = none)) := by
  rcases coherent with blank | loaded
  · rw [blank.complete] at incomplete
    cases incomplete
  · refine ⟨loaded, ?_⟩
    cases loaded.content with
    | hollow _ unemitted isSmall present empty =>
      exact ⟨unemitted, .inl ⟨isSmall, present, empty⟩⟩
    | collecting _ unemitted isBig absent => exact ⟨unemitted, .inr ⟨isBig, absent⟩⟩
    | small complete | coded complete =>
      rw [complete] at incomplete
      cases incomplete

/-- Only a blank decoder is not yet inside a transfer. -/
theorem Coherent.blank {dec : HgapDecoder S} (coherent : Coherent dec)
    (outside : dec.state = .tNew ∨ dec.state = .tStarted) : Blank dec := by
  rcases coherent with blank | loaded
  · exact blank
  · rcases loaded.inside with h | h <;> rw [h] at outside <;> simp at outside

theorem Coherent.complete {dec : HgapDecoder S} (coherent : Coherent dec)
    (emitted : dec.chunkEmitted = true) : dec.chunkComplete = true := by
  cases complete : dec.chunkComplete with
  | true => rfl
  | false =>
    have unemitted := (coherent.incomplete complete).2.1
    rw [emitted] at unemitted
    cases unemitted

/-- The number of a blank decoder is out of reach for a data packet. -/
theorem Blank.other {dec : HgapDecoder S} (blank : Blank dec) (d : Datagram)
    (data : hgapPktType d = .data) : d.pkt.hdr.chunkNum ≠ dec.chunk.num := by
  have low := ((pktType_data_iff d).mp data).2
  intro same
  have high : dec.chunk.num = 0xffffffffffffffff := by rw [blank.chunk]
  rw [high] at same
  have hd : (readHeader d.ptr).chunkNum = 0xffffffffffffffff := same
  rw [hd] at low
  exact absurd low (by decide)

/-- The decoder about to take in a packet holds a chunk of a length it accepts, and has
data only if that chunk is empty. -/
structure Prepared (w : HgapDecoder S) : Prop where
  state : w.state = .tData
  incomplete : w.chunkComplete = false
  unemitted : w.chunkEmitted = false
  num : w.chunk.num < hgapFirstReserved
  len : w.chunk.len ≤ hgapMaxChunkSize
  present : ∀ data, w.chunk.data = some data →
    hgapEncChunkIsSmall w.chunk = true ∧ data = [] ∧ w.chunk.len = 0

theorem Working.prepared {dec w : HgapDecoder S} {d : Datagram} (coherent : Coherent dec)
    (data : hgapPktType d = .data) (working : Working wh dec d.pkt w) : Prepared w := by
  have num : w.chunk.num < hgapFirstReserved := by
    rw [working.num]
    exact ((pktType_data_iff d).mp data).2
  cases working with
  | fresh _ _ size =>
    refine ⟨rfl, rfl, rfl, num, ?_, ?_⟩
    · rw [startedChunk_len]
      exact size
    · intro data present
      rw [startedChunk_data] at present
      cases present
  | more same incomplete =>
    obtain ⟨loaded, unemitted, shape⟩ := coherent.incomplete incomplete
    refine ⟨rfl, incomplete, unemitted, num, loaded.len, ?_⟩
    intro data present
    dsimp only at present ⊢
    rcases shape with ⟨isSmall, empty, hlen⟩ | ⟨-, absent⟩
    · rw [empty] at present
      exact ⟨isSmall, (Option.some.inj present).symm, hlen⟩
    · rw [absent] at present
      cases present

private theorem big_pos (chunk : HgapEncChunk S) (isBig : hgapEncChunkIsSmall chunk = false) :
    0 < chunk.len := by
  have := of_decide_eq_false isBig
  omega

/-- Taking in a packet leaves one of the four shapes. -/
theorem incorporate_loaded {w : HgapDecoder S} (prepared : Prepared w) (pkt : HgapPkt) :
    Loaded (hgapDecoderIncorporate wh w pkt).dec := by
  obtain ⟨state, incomplete, unemitted, num, len, present⟩ := prepared
  have absorb := absorbCase wh w pkt incomplete
  generalize hgapDecoderIncorporate wh w pkt = r at absorb
  cases absorb with
  | held data hdata =>
    obtain ⟨isSmall, rfl, empty⟩ := present data hdata
    exact ⟨.inl state, num, len, .hollow (by simp [empty]) unemitted isSmall hdata empty⟩
  | small absent isSmall =>
    refine ⟨.inl state, num, len, ?_⟩
    by_cases pos : 0 < w.chunk.len
    · exact .small (by simpa using pos) isSmall _ rfl (load_length _ _ _) pos
    · have empty : w.chunk.len = 0 := by omega
      exact .hollow (by simp [empty]) unemitted isSmall (by simp [empty, load]) empty
  | lost absent isBig => exact ⟨.inl state, num, len, .collecting incomplete unemitted isBig absent⟩
  | fed absent isBig before hasState after ready =>
    have pos := big_pos w.chunk isBig
    refine ⟨.inl state, num, len, ?_⟩
    cases ready with
    | true => exact .coded (by simpa using pos) isBig absent pos after rfl
    | false => exact .collecting rfl unemitted isBig absent

/-- Taking in a packet changes neither the number of the chunk nor its emitted flag. -/
theorem incorporate_frame (w : HgapDecoder S) (pkt : HgapPkt)
    (incomplete : w.chunkComplete = false) :
    (hgapDecoderIncorporate wh w pkt).dec.chunkEmitted = w.chunkEmitted ∧
      (hgapDecoderIncorporate wh w pkt).dec.chunk.num = w.chunk.num := by
  have absorb := absorbCase wh w pkt incomplete
  generalize hgapDecoderIncorporate wh w pkt = r at absorb
  cases absorb <;> exact ⟨rfl, rfl⟩

private theorem Loaded.next {dec : HgapDecoder S} (loaded : Loaded dec) (type : HgapPktT) :
    Loaded { dec with state := dec.state.next type } := by
  obtain ⟨inside, num, len, content⟩ := loaded
  refine ⟨?_, num, len, ?_⟩
  · rcases inside with h | h <;> rw [h] <;> cases type <;> simp [HgapDecoderState.next]
  · cases content with
    | hollow a b c e f => exact .hollow a b c e f
    | collecting a b c e => exact .collecting a b c e
    | small a b c e f g => exact .small a b c e f g
    | coded a b c e f g => exact .coded a b c e f g

/-- A call of `hgap_decoder_read` on any datagram keeps the invariant. -/
theorem Coherent.read {dec : HgapDecoder S} (coherent : Coherent dec) (d : Datagram) :
    Coherent (hgapDecoderRead wh dec d).dec := by
  have case := readCase wh dec d
  have handled (handles : Handles dec d) : Coherent { dec with state := .tData } := by
    rcases coherent with blank | loaded
    · exact .inl ⟨blank.chunk, blank.complete, blank.emitted⟩
    · have inside : dec.state = .tData := by
        rcases handles.2 with h | h
        · rcases loaded.inside with h' | h' <;> rw [h'] at h <;> cases h
        · exact h
      rw [← inside]
      exact .inr loaded
  generalize hgapDecoderRead wh dec d = r at case
  cases case with
  | idle =>
    rcases coherent with blank | loaded
    · exact .inl ⟨blank.chunk, blank.complete, blank.emitted⟩
    · exact .inr (loaded.next _)
  | handled handles r case =>
    cases case with
    | foreign | oversized | settled => exact handled handles
    | absorbed w working =>
      exact .inr (incorporate_loaded wh (Working.prepared wh coherent handles.1 working) _)

/-- So does a call of `hgap_decoder_emit` with any buffer. -/
theorem Coherent.emit {dec : HgapDecoder S} (coherent : Coherent dec) (len : Nat)
    (e : EmitResult S) (returns : hgapDecoderEmit wh dec len = some e) : Coherent e.dec := by
  have marked (complete : dec.chunkComplete = true)
      (loaded : Loaded dec) : Coherent { dec with chunkEmitted := true } := by
    refine .inr ⟨loaded.inside, loaded.num, loaded.len, ?_⟩
    cases loaded.content with
    | hollow incomplete | collecting incomplete =>
      rw [complete] at incomplete
      cases incomplete
    | small a b c e f g => exact .small a b c e f g
    | coded a b c e f g => exact .coded a b c e f g
  have case := emitCase wh dec len
  rw [returns] at case
  cases case with
  | incomplete => exact coherent
  | narrow => exact coherent
  | refused => exact coherent
  | held complete _ _ data present =>
    rcases coherent with blank | loaded
    · exact .inl ⟨blank.chunk, blank.complete, rfl⟩
    · exact marked complete loaded
  | rebuilt complete _ isBig =>
    rcases coherent with blank | loaded
    · exact .inl ⟨blank.chunk, blank.complete, rfl⟩
    · exact marked complete loaded

theorem Coherent.step {dec dec' : HgapDecoder S} {op : DecOp} (coherent : Coherent dec)
    (step : DecStep wh dec op dec') : Coherent dec' := by
  cases step with
  | read d => exact coherent.read wh d
  | emit len e returns => exact coherent.emit wh len e returns

/-- The invariant holds behind any calls on any datagrams. -/
theorem coherent_run {ops : List DecOp} {dec : HgapDecoder S}
    (run : Steps (DecStep wh) hgapDecoderNew ops dec) : Coherent dec :=
  run.invariant (fun _ dec => Coherent dec) coherent_new
    fun _ _ _ _ coherent step => coherent.step wh step

/-- Datagrams passed to `hgap_decoder_read`. -/
def reads (ops : List DecOp) : List Datagram :=
  ops.filterMap fun
    | .read d => some d
    | .emit _ => none

@[simp] theorem reads_append (xs ys : List DecOp) : reads (xs ++ ys) = reads xs ++ reads ys := by
  simp [reads]

@[simp] theorem reads_read (d : Datagram) : reads [.read d] = [d] := rfl
@[simp] theorem reads_emit (len : Nat) : reads [.emit len] = [] := rfl

/-- Only a blank decoder has the emitted flag set with nothing behind it. -/
theorem Coherent.loaded {dec : HgapDecoder S} (coherent : Coherent dec)
    (unemitted : dec.chunkEmitted = false) : Loaded dec := by
  refine coherent.resolve_left fun blank => ?_
  have emitted := blank.emitted
  rw [unemitted] at emitted
  cases emitted

/-- A positive result leaves a chunk that was not yet emitted. -/
theorem read_positive {dec : HgapDecoder S} (coherent : Coherent dec) (d : Datagram)
    (positive : (hgapDecoderRead wh dec d).ret > 0) :
    (hgapDecoderRead wh dec d).dec.chunkEmitted = false := by
  have case := readCase wh dec d
  generalize hgapDecoderRead wh dec d = r at case positive
  cases case with
  | idle =>
    dsimp only at positive
    split at positive <;> simp [Hgap.code] at positive
  | handled handles r handled =>
    cases handled with
    | foreign => simp [Hgap.code] at positive
    | oversized => simp [Hgap.code] at positive
    | settled =>
      by_cases emitted : dec.chunkEmitted = true
      · simp [emitted] at positive
      · simpa using emitted
    | absorbed w working =>
      have prepared := Working.prepared wh coherent handles.1 working
      rw [(incorporate_frame wh w _ prepared.incomplete).1]
      exact prepared.unemitted

/-- The loop never runs into the check of `hgap_decoder_emit` that ends the process. -/
theorem readEmit_returns {dec : HgapDecoder S} (coherent : Coherent dec) (d : Datagram) :
    ∃ turn, readEmit wh dec d = some turn := by
  simp only [readEmit]
  split
  next positive =>
    have loaded := (coherent.read wh d).loaded (read_positive wh coherent d positive)
    generalize hgapDecoderRead wh dec d = r at loaded
    have case := emitCase wh r.dec r.ret.toNat
    cases returns : hgapDecoderEmit wh r.dec r.ret.toNat with
    | some e => exact ⟨_, rfl⟩
    | none =>
      rw [returns] at case
      cases case with
      | aborted complete _ isSmall absent =>
        cases loaded.content with
        | hollow _ _ _ present | small _ _ _ present =>
          rw [absent] at present
          cases present
        | collecting _ _ isBig | coded _ isBig =>
          rw [isSmall] at isBig
          cases isBig
  next => exact ⟨_, rfl⟩

/-- A turn of the documented loop is a read, and an emit when that is positive. -/
theorem readEmit_turn {dec dec' : HgapDecoder S} {label : Datagram × Option OutChunk}
    (turn : ReadEmit wh dec label dec') :
    ∃ ops, reads ops = [label.1] ∧ Steps (DecStep wh) dec ops dec' := by
  obtain ⟨t, ht, -, rfl⟩ := turn
  have first : Steps (DecStep wh) dec [.read label.1] _ := .one (.read dec label.1)
  cases turnCase wh dec label.1 t ht with
  | quiet => exact ⟨[.read label.1], rfl, first⟩
  | emits _ e returns =>
    exact ⟨[.read label.1] ++ [.emit _], rfl, first.trans (.one (.emit _ _ e returns))⟩

theorem readEmit_calls {dec dec' : HgapDecoder S} {labels : List (Datagram × Option OutChunk)}
    (run : Steps (ReadEmit wh) dec labels dec') :
    ∃ ops, reads ops = labels.map Prod.fst ∧ Steps (DecStep wh) dec ops dec' := by
  induction run with
  | nil => exact ⟨[], rfl, .nil _⟩
  | snoc _ last ih =>
    obtain ⟨ops, hops, before⟩ := ih
    obtain ⟨more, hmore, after⟩ := readEmit_turn wh last
    exact ⟨ops ++ more, by simp [hops, hmore], before.trans after⟩

theorem Coherent.turn {dec dec' : HgapDecoder S} {label : Datagram × Option OutChunk}
    (coherent : Coherent dec) (turn : ReadEmit wh dec label dec') : Coherent dec' := by
  obtain ⟨ops, -, calls⟩ := readEmit_turn wh turn
  exact calls.invariant (fun _ dec => Coherent dec) coherent
    fun _ _ _ _ coherent step => coherent.step wh step

theorem decloop_returns {dec : HgapDecoder S} (coherent : Coherent dec) (ds : List Datagram) :
    ∃ retval outs, decloop wh dec ds = some (retval, outs) := by
  induction ds generalizing dec with
  | nil => exact ⟨_, _, rfl⟩
  | cons d rest ih =>
    obtain ⟨turn, hturn⟩ := readEmit_returns wh coherent d
    have turns : ReadEmit wh dec (d, turn.out) turn.dec := ⟨turn, hturn, rfl, rfl⟩
    have after := coherent.turn wh turns
    simp only [decloop, hturn]
    cases leaves : turn.leaves with
    | some retval => exact ⟨_, _, rfl⟩
    | none =>
      obtain ⟨retval, outs, hrest⟩ := ih after
      simp only [hrest, Option.map_some]
      exact ⟨_, _, rfl⟩

end Hairgap.Guarantees
