import Hairgap.Base.DoWhile
import Hairgap.Guarantees.Chunking
import Hairgap.Guarantees.PacketCount
import Hairgap.Source.RepetitionCode

/-!
# The test of the emission loop

`send_loop` compares the quotient of an emission with the redundancy. The quotient is a number
unless the chunk is empty, and a failed emission is below every redundancy.
-/
namespace Hairgap.Guarantees
open Hairgap.Base Hairgap.Source

section Division
variable {S : Type} {wh : Wirehair S} {config : HgapConfig}

/-- Every quotient of a chunk that is not empty is a number. -/
theorem emissions_number {chunk chunk' : HgapEncChunk S} {es : List (Emitted S)}
    (nonempty : 0 < chunk.len) (run : Steps (EmitStep wh) chunk es chunk') :
    ∀ e ∈ es, ∃ q, e.redund = .fin q := by
  have kept := run.invariant
    (fun es chunk' => chunk'.len = chunk.len ∧ ∀ e ∈ es, ∃ q, e.redund = .fin q) ⟨rfl, nofun⟩ ?_
  · exact kept.2
  · rintro es chunk' e chunk'' ⟨len, before⟩ ⟨emit, rfl⟩
    obtain ⟨same, redund⟩ := emit_redund wh emit
    refine ⟨same.trans len, fun e' member => ?_⟩
    rcases List.mem_append.mp member with earlier | now
    · exact before e' earlier
    · obtain rfl := List.mem_singleton.mp now
      rcases redund with failed | ⟨total, ratio⟩
      · exact ⟨_, failed⟩
      · obtain ⟨q, number, -⟩ := Arithmetic.quotient_close total nonempty
        exact ⟨q, by rw [ratio, len, number]⟩

/-- An initialised chunk is as long as its buffer. -/
theorem encChunkInit_len {enc enc' : HgapEncoder} {content : Bytes} {verdict : Hgap}
    {chunk : HgapEncChunk S}
    (init : hgapEncChunkInit wh enc hgapEncChunkNew content = (verdict, enc', chunk)) :
    chunk.len = content.length := by
  unfold hgapEncChunkInit hgapEncChunkNew at init
  extract_lets started enc'' coded at init
  split at init
  · simp only [Prod.mk.injEq] at init
    obtain ⟨-, -, rfl⟩ := init
    rfl
  · have len : coded.len = content.length := rfl
    split at init
    all_goals
      simp only [Prod.mk.injEq] at init
      obtain ⟨-, -, rfl⟩ := init
      exact len

variable (wh config) in
/-- Every chunk made of the elements of `read_loop` has octets, and the quotients of all its
emissions are numbers. -/
def DivisionDefined (elts : List (Option Bytes)) : Prop :=
  ∀ buf, some buf ∈ elts → ∀ (enc enc' : HgapEncoder) (chunk : HgapEncChunk S),
    enc.pktSize = config.pktSize →
    hgapEncChunkInit wh enc hgapEncChunkNew buf = (.success, enc', chunk) →
    0 < chunk.len ∧ ∀ es chunk', Steps (EmitStep wh) chunk es chunk' →
      ∀ e ∈ es, ∃ q, e.redund = .fin q

/-- Only a last buffer on the boundary has no octets. -/
theorem elements_nonempty_iff (bufSize : Nat) (pos : 0 < bufSize) (content : Bytes) :
    (∀ buf, some buf ∈ elements bufSize ⟨content, false⟩ → 0 < buf.length) ↔
      content.length % bufSize ≠ 0 := by
  have whole := Nat.div_add_mod content.length bufSize
  have length (i : Nat) : (Blocks.block bufSize content i).length =
      min bufSize (content.length - i * bufSize) := by
    rw [Blocks.block, List.length_take, List.length_drop]
  have member (buf : Bytes) : some buf ∈ elements bufSize ⟨content, false⟩ ↔
      ∃ i < content.length / bufSize + 1, Blocks.block bufSize content i = buf := by
    simp [elements, buffers]
  constructor
  · intro nonempty boundary
    have last := nonempty _ ((member _).mpr ⟨_, Nat.lt_succ_self _, rfl⟩)
    rw [length, Nat.mul_comm] at last
    omega
  · intro rest buf given
    obtain ⟨i, inside, rfl⟩ := (member buf).mp given
    have before : i * bufSize ≤ bufSize * (content.length / bufSize) := by
      rw [Nat.mul_comm]
      exact Nat.mul_le_mul_left _ (Nat.le_of_lt_succ inside)
    rw [length]
    omega

variable (wh) in
/-- The redundancy of a chunk is a number, for all chunks of an input, unless the input ends on
the boundary of a chunk. -/
theorem divisionDefined_iff (host : Host) (accepted : hgapCheckConfigSender host config = .success)
    (lib : Fread) (content : Bytes) :
    ∃ elts, (∀ fuel, content.length / config.bufSize < fuel →
      readLoopSends lib config.bufSize fuel (.opened content false) = some (elts, .success)) ∧
      (DivisionDefined wh config elts ↔ content.length % config.bufSize ≠ 0) := by
  have sound := config.sound host accepted
  have pos := sound.bufSize_pos
  refine ⟨elements config.bufSize ⟨content, false⟩,
    fun fuel => readLoopSends_elements lib _ pos fuel (.opened content false) rfl rfl, ?_⟩
  rw [← elements_nonempty_iff config.bufSize pos content]
  constructor
  · intro defined buf member
    by_contra empty
    obtain ⟨enc, chunk, init, -⟩ := encChunkInit_small sound ⟨config.pktSize, 0⟩ rfl buf (by omega)
    have nonempty := (defined buf member _ _ chunk rfl init).1
    rw [encChunkInit_len init] at nonempty
    exact empty nonempty
  · intro nonempty buf member enc enc' chunk _ init
    have len : 0 < chunk.len := encChunkInit_len init ▸ nonempty buf member
    exact ⟨len, fun es chunk' run => emissions_number len run⟩

/-- An input of one octet, half a chunk long. -/
theorem divisionDefined_half :
    ∃ elts, (∀ fuel, 0 < fuel →
        readLoopSends oneByOne 2 fuel (.opened [7] false) = some (elts, .success)) ∧
      DivisionDefined RepetitionCode.code { HgapConfig.smallest with nPkt := 2 } elts := by
  have accepted : hgapCheckConfigSender ⟨fun _ => 0, fun _ => false⟩
      { HgapConfig.smallest with nPkt := 2 } = .success := by
    decide
  obtain ⟨elts, sends, defined⟩ :=
    divisionDefined_iff RepetitionCode.code _ accepted oneByOne [7]
  exact ⟨elts, sends, defined.mpr (by decide)⟩

/-- The same octet fills a chunk of one packet, and the end of the file makes another chunk of
nothing, whose emission divides zero by zero. -/
theorem division_undefined :
    hgapCheckConfigSender ⟨fun _ => 0, fun _ => false⟩ .smallest = .success ∧
    ∃ elts, readLoopSends oneByOne 1 2 (.opened [7] false) = some (elts, .success) ∧
      ¬ DivisionDefined RepetitionCode.code .smallest elts ∧ some [] ∈ elts ∧
      ∃ enc chunk e, hgapEncChunkInit RepetitionCode.code ⟨25, 1⟩ hgapEncChunkNew [] =
          (.success, enc, chunk) ∧
        hgapEncChunkEmit RepetitionCode.code chunk = some e ∧ e.redund = .nan := by
  have sends := readLoopSends_elements oneByOne 1 Nat.one_pos 2 (.opened [7] false) rfl rfl
    (by decide)
  have empty : some [] ∈ elements 1 ⟨[7], false⟩ := by decide
  refine ⟨by decide, _, sends, fun defined => ?_, empty, _, _, _, rfl, rfl, rfl⟩
  exact absurd (defined [] empty ⟨25, 1⟩ _ _ rfl rfl).1 (Nat.lt_irrefl 0)

end Division

section Rounds
variable {S : Type} (codes : Nat → Wirehair S)

/-- Emission number `k`, the code answering as it likes each time. -/
def emitRound : Nat × HgapEncChunk S → Option (Emitted S × Nat × HgapEncChunk S)
  | (k, chunk) => (hgapEncChunkEmit (codes k) chunk).map fun e => (e, k + 1, e.chunk)

/-- The emissions of the do/while loop of `send_loop`. -/
def emitTrace (redund : Double) (fuel : Nat) (chunk : HgapEncChunk S) : Option (List (Emitted S)) :=
  doWhile (emitRound codes) (fun e => e.redund.lt redund) fuel (0, chunk)

/-- `retval` of `send_loop` behind them. -/
def emitRetval (es : List (Emitted S)) : Hgap :=
  es.foldl (fun retval e => if e.failed then .errWirehairError else retval) .success

/-- The loop is left, and after a failed emission it sends nothing and reports the failure. -/
def EndsAtFailure (redund : Double) (chunk : HgapEncChunk S) : Prop :=
  ∃ fuel es, emitTrace codes redund fuel chunk = some es ∧
    ∀ before e after, es = before ++ e :: after → e.failed = true →
      after.flatMap Emitted.datagrams = [] ∧ emitRetval es = .errWirehairError

variable {codes}

/-- With one code throughout, the loop is that of the sequential sender. -/
theorem emitLoop_trace (wh : Wirehair S) (redund : Double) (fuel : Nat) (chunk : HgapEncChunk S) :
    emitLoop wh redund fuel chunk = (emitTrace (fun _ => wh) redund fuel chunk).map fun es =>
      (es.flatMap Emitted.datagrams, es.any Emitted.failed) := by
  unfold emitTrace
  generalize 0 = k
  induction fuel generalizing k chunk with
  | zero => rfl
  | succ fuel ih =>
    cases emit : hgapEncChunkEmit wh chunk with
    | none => simp only [emitLoop, doWhile, emitRound, emit, Option.map_none]
    | some e =>
      simp only [emitLoop, doWhile, emitRound, emit, Option.map_some]
      by_cases more : e.redund.lt redund = true
      · rw [if_pos more, if_pos more, ih e.chunk (k + 1), Option.map_map, Option.map_map]
        rfl
      · rw [if_neg more, if_neg more, Option.map_some, List.flatMap_singleton, List.any_cons,
          List.any_nil, Bool.or_false]

/-- The call of `wirehair_write` that emission number `k` makes, if any, succeeds. -/
def Written (code : Wirehair S) (chunk : HgapEncChunk S) (k : Nat) : Prop :=
  hgapEncChunkIsSmall chunk = false →
    (chunk.whState.bind (code.write · (UInt32.ofNat k))).isSome = true

/-- A chunk after `k` emissions. -/
def counted (chunk : HgapEncChunk S) (k total : Nat) : HgapEncChunk S :=
  { chunk with nextPktId := UInt64.ofNat k, totalGen := total }

private theorem counted_next (chunk : HgapEncChunk S) (k total : Nat) :
    { counted chunk k total with nextPktId := UInt64.ofNat k + 1 } = counted chunk (k + 1) total :=
  congrArg (fun ident => { chunk with nextPktId := ident, totalGen := total })
    (UInt64.ofNat_add k 1).symm

/-- A payload that was written is counted and sent. -/
private theorem seal_counted (chunk : HgapEncChunk S) (k total size : Nat) (payload : Bytes) :
    ∃ e, hgapEncChunkSeal { counted chunk k total with nextPktId := UInt64.ofNat k + 1 }
        (UInt64.ofNat k) size payload = e ∧ e.chunk =
          counted chunk (k + 1) (Arithmetic.counter (total + size)) ∧
      e.redund = Arithmetic.quotient (Arithmetic.counter (total + size)) chunk.len ∧
      e.failed = false ∧ e.datagrams ≠ [] := by
  have failed : (hgapEncChunkSeal { counted chunk k total with nextPktId := UInt64.ofNat k + 1 }
      (UInt64.ofNat k) size payload).failed = false := Arithmetic.quotient_nonneg _ _
  refine ⟨_, rfl, ?_, rfl, failed, ?_⟩
  · exact counted_next chunk k _
  · rw [Emitted.datagrams, failed]
    exact List.cons_ne_nil _ _

variable {wh : Wirehair S} {config : HgapConfig} {num : UInt64} {content : Bytes}
  {chunk : HgapEncChunk S}

variable (codes) in
/-- One emission, with the answer of the code it gets. -/
theorem emitRound_cases (sound : config.Sound) (emitting : Emitting wh config num content chunk)
    (k total : Nat) :
    (Written (codes k) chunk k ∧ ∃ e, emitRound codes (k, counted chunk k total) =
        some (e, k + 1, counted chunk (k + 1)
          (Arithmetic.counter (total + min config.payload content.length))) ∧
      e.failed = false ∧ e.datagrams ≠ [] ∧
      e.redund = Arithmetic.quotient
        (Arithmetic.counter (total + min config.payload content.length)) content.length) ∨
    (¬ Written (codes k) chunk k ∧ ∃ e, emitRound codes (k, counted chunk k total) =
        some (e, k + 1, counted chunk (k + 1) total) ∧ e.redund = .fin (-1)) := by
  have size := emitting.payloadSize sound
  cases small : hgapEncChunkIsSmall chunk with
  | true =>
    have fits := of_decide_eq_true (small ▸ emitting.isSmall sound).symm
    have isSmall : hgapEncChunkIsSmall (counted chunk k total) = true := small
    have whole : (counted chunk k total).len + hgapHeaderLen = (counted chunk k total).pktSize := by
      have len : (counted chunk k total).len = content.length := emitting.len
      have pktSize : (counted chunk k total).pktSize = _ := emitting.pktSize
      have room := sound.pktSize_eq
      rw [len, pktSize]
      omega
    have data : (counted chunk k total).data = some content := emitting.data
    obtain ⟨e, sealed, after, redund, sent⟩ :=
      seal_counted chunk k total chunk.len (content.take chunk.len)
    rw [emitting.len] at after redund
    rw [Nat.min_eq_right fits]
    refine .inl ⟨fun coded => ?_, e, ?_, sent.1, sent.2, redund⟩
    · rw [small] at coded
      cases coded
    · have emit : hgapEncChunkEmit (codes k) (counted chunk k total) = some e := by
        rw [emit_small (codes k) isSmall, if_pos whole]
        exact Option.map_eq_some_iff.mpr ⟨content, data, sealed⟩
      rw [emitRound, emit, Option.map_some, after]
  | false =>
    have isSmall : hgapEncChunkIsSmall (counted chunk k total) = false := small
    have ident : (UInt64.ofNat k).toUInt32 = UInt32.ofNat k := UInt64.toUInt32_ofNat' ..
    have payload : hgapEncChunkPktPayloadSize (counted chunk k total) = _ := size
    have write : ((counted chunk k total).whState.bind fun state =>
        (codes k).write state (counted chunk k total).nextPktId.toUInt32) =
        chunk.whState.bind ((codes k).write · (UInt32.ofNat k)) := by
      rw [← ident]
      rfl
    have coded := emit_coded (codes k) isSmall
    rw [write] at coded
    cases written : chunk.whState.bind ((codes k).write · (UInt32.ofNat k)) with
    | none =>
      rw [written] at coded
      refine .inr ⟨fun writes => ?_, ⟨.fin (-1), none, counted chunk (k + 1) total⟩, ?_, rfl⟩
      · have wrote := writes small
        rw [written] at wrote
        cases wrote
      · rw [emitRound, coded]
        exact congrArg (fun chunk => some (Emitted.mk (.fin (-1)) none chunk, k + 1, chunk))
          (counted_next chunk k total)
    | some block =>
      rw [written, payload] at coded
      obtain ⟨e, sealed, after, redund, sent⟩ :=
        seal_counted chunk k total (min config.payload content.length) block
      rw [emitting.len] at redund
      refine .inl ⟨fun _ => ?_, e, ?_, sent.1, sent.2, redund⟩
      · rw [written]
        rfl
      · rw [emitRound, coded, ← after]
        exact congrArg (fun e => some (e, k + 1, e.chunk)) sealed

/-- What the emissions so far say about the loop: as long as none failed, every call of the code
succeeded and the quotients count the packets. -/
structure Counting (codes : Nat → Wirehair S) (size : Nat) (chunk : HgapEncChunk S)
    (es : List (Emitted S)) (s : Nat × HgapEncChunk S) : Prop where
  at_ : ∃ total, s = (es.length, counted chunk es.length total) ∧
    ((∀ e ∈ es, e.failed = false) → total = Arithmetic.counter (es.length * size))
  sent : ∀ e ∈ es, e.failed = false → e.datagrams ≠ []
  redund : (∀ e ∈ es, e.failed = false) → ∀ i (h : i < es.length),
    Written (codes i) chunk i ∧ es[i].redund = redundOf size chunk.len (i + 1)

private theorem mem_snoc {α : Type} {p : α → Prop} {xs : List α} {x : α} :
    (∀ y ∈ xs ++ [x], p y) ↔ (∀ y ∈ xs, p y) ∧ p x := by
  simp [or_imp, forall_and]

theorem Counting.emitRound (sound : config.Sound) (emitting : Emitting wh config num content chunk)
    {es : List (Emitted S)} {s s' : Nat × HgapEncChunk S} {e : Emitted S}
    (counting : Counting codes (min config.payload content.length) chunk es s)
    (acts : emitRound codes s = some (e, s')) :
    Counting codes (min config.payload content.length) chunk (es ++ [e]) s' := by
  obtain ⟨total, rfl, exact⟩ := counting.at_
  have length : (es ++ [e]).length = es.length + 1 := List.length_append
  rcases emitRound_cases codes sound emitting es.length total with
    ⟨written, e', acts', ok, datagrams, redund⟩ | ⟨unwritten, e', acts', redund⟩
  · rw [acts'] at acts
    cases acts
    refine ⟨⟨_, by rw [length], fun none => ?_⟩, mem_snoc.mpr ⟨counting.sent, fun _ => datagrams⟩,
      fun none i inside => ?_⟩
    · rw [exact (mem_snoc.mp none).1, Arithmetic.counter_add, length, Nat.add_mul, Nat.one_mul]
    · have before := (mem_snoc.mp none).1
      by_cases last : i = es.length
      · subst last
        rw [List.getElem_concat_length rfl, redund, exact before, Arithmetic.counter_add,
          emitting.len, redundOf, Nat.add_mul, Nat.one_mul]
        exact ⟨written, rfl⟩
      · have earlier : i < es.length := by omega
        rw [List.getElem_append_left earlier]
        exact counting.redund before i earlier
  · rw [acts'] at acts
    cases acts
    have failed : e.failed = true := by
      rw [Emitted.failed, redund]
      rfl
    have ended (none : ∀ y ∈ es ++ [e], y.failed = false) : False := by
      have ok := (mem_snoc.mp none).2
      rw [failed] at ok
      cases ok
    refine ⟨⟨_, by rw [length], fun none => (ended none).elim⟩, mem_snoc.mpr ⟨counting.sent, ?_⟩,
      fun none => (ended none).elim⟩
    intro ok
    rw [failed] at ok
    cases ok

/-- As long as none fails, the loop is left behind the packet with which the redundancy is first
reached. -/
theorem Counting.left_iff {es : List (Emitted S)} {s : Nat × HgapEncChunk S} {size : Nat}
    (counting : Counting codes size chunk es s) (none : ∀ e ∈ es, e.failed = false)
    (redund : Double) :
    (∃ before last, es = before ++ [last] ∧ (∀ e ∈ before, e.redund.lt redund = true) ∧
      last.redund.lt redund = false) ↔ FirstReached redund size chunk.len es.length := by
  have quotient (i : Nat) (inside : i < es.length) := (counting.redund none i inside).2
  constructor
  · rintro ⟨before, last, rfl, more, done⟩
    have length : (before ++ [last]).length = before.length + 1 := List.length_append
    rw [length]
    refine ⟨Nat.succ_pos _, fun m few pos => ?_, ?_⟩
    · have value := quotient (m - 1) (by omega)
      rw [List.getElem_append_left (by omega), Nat.sub_add_cancel pos] at value
      rw [← value]
      exact more _ (List.getElem_mem _)
    · have value := quotient before.length (by omega)
      rw [List.getElem_concat_length rfl] at value
      rwa [value] at done
  · intro first
    rcases es.eq_nil_or_concat with rfl | ⟨before, last, rfl⟩
    · exact absurd first.pos (Nat.lt_irrefl 0)
    · rw [List.concat_eq_append] at first quotient ⊢
      have length : (before ++ [last]).length = before.length + 1 := List.length_append
      refine ⟨before, last, rfl, fun e member => ?_, ?_⟩
      · obtain ⟨i, inside, rfl⟩ := List.getElem_of_mem member
        have value := quotient i (by omega)
        rw [List.getElem_append_left inside] at value
        rw [value]
        exact first.more _ (by omega) (Nat.succ_pos i)
      · have value := quotient before.length (by omega)
        rw [List.getElem_concat_length rfl, ← length] at value
        rw [value]
        exact first.last

/-- The state a loop over a new chunk starts in. -/
theorem Counting.new (size : Nat) (nextPktId : chunk.nextPktId = 0) (totalGen : chunk.totalGen = 0) :
    Counting codes size chunk [] (0, chunk) := by
  refine ⟨⟨0, ?_, fun _ => (congrArg Arithmetic.counter (Nat.zero_mul _)).symm⟩, nofun, nofun⟩
  have same : counted chunk 0 0 = chunk :=
    congrArg₂ (fun ident total => { chunk with nextPktId := ident, totalGen := total })
      nextPktId.symm totalGen.symm
  rw [List.length_nil, same]

/-- As many emissions as there are successful calls, one after the other. -/
theorem rounds_of_written (sound : config.Sound) (emitting : Emitting wh config num content chunk)
    (start : Counting codes (min config.payload content.length) chunk [] (0, chunk)) (n : Nat)
    (written : ∀ k < n, Written (codes k) chunk k) :
    ∃ es s, Steps (fun s e s' => emitRound codes s = some (e, s')) (0, chunk) es s ∧
      es.length = n ∧ (∀ e ∈ es, e.failed = false) ∧
      Counting codes (min config.payload content.length) chunk es s := by
  induction n with
  | zero => exact ⟨[], _, .nil _, rfl, nofun, start⟩
  | succ n ih =>
    obtain ⟨es, s, run, length, ok, counting⟩ :=
      ih fun k before => written k (Nat.lt_succ_of_lt before)
    obtain ⟨total, at_, -⟩ := counting.at_
    rcases emitRound_cases codes sound emitting es.length total with
      ⟨-, e, acts, sent, -⟩ | ⟨unwritten, -⟩
    · rw [← at_] at acts
      refine ⟨es ++ [e], _, .snoc run acts, ?_, mem_snoc.mpr ⟨ok, sent⟩,
        counting.emitRound sound emitting acts⟩
      rw [List.length_append, length, List.length_singleton]
    · exact absurd (written es.length (by omega)) unwritten

/-- A failed emission asks for another one. -/
theorem failed_lt {e : Emitted S} {redund : Double} (number : redund ≠ .nan)
    (ge : redund.lt (.fin 1) = false) (failed : e.failed = true) : e.redund.lt redund = true := by
  unfold Emitted.failed at failed
  cases value : e.redund with
  | nan =>
    rw [value] at failed
    cases failed
  | posInf =>
    rw [value] at failed
    cases failed
  | fin a =>
    rw [value] at failed
    have negative : a < 0 := of_decide_eq_true failed
    cases redund with
    | nan => exact absurd rfl number
    | posInf => rfl
    | fin q =>
      have least : ¬ q < 1 := of_decide_eq_false ge
      exact decide_eq_true (negative.trans (zero_lt_one.trans_le (not_lt.mp least)))

/-- Where nothing is sent behind a failure, the last emission is behind none. -/
theorem none_failed {before : List (Emitted S)} {last : Emitted S} (ok : last.failed = false)
    (sent : last.datagrams ≠ [])
    (silent : ∀ pre e post, before ++ [last] = pre ++ e :: post → e.failed = true →
      post.flatMap Emitted.datagrams = []) :
    ∀ e ∈ before ++ [last], e.failed = false := by
  refine mem_snoc.mpr ⟨fun e member => ?_, ok⟩
  by_contra failed
  obtain ⟨pre, post, rfl⟩ := List.append_of_mem member
  have nothing := silent pre e (post ++ [last]) (by simp) (by simpa using failed)
  rw [List.flatMap_append, List.append_eq_nil_iff, List.flatMap_singleton] at nothing
  exact sent nothing.2

variable (codes) in
/-- A code that fails from some packet on keeps the loop going. -/
theorem doWhile_ceaseless (sound : config.Sound)
    (emitting : Emitting wh config num content chunk) {redund : Double} (number : redund ≠ .nan)
    (ge : redund.lt (.fin 1) = false) (fuel k total : Nat)
    (never : ∀ i, k ≤ i → ¬ Written (codes i) chunk i) :
    doWhile (emitRound codes) (fun e => e.redund.lt redund) fuel (k, counted chunk k total) =
      none := by
  induction fuel generalizing k with
  | zero => rfl
  | succ fuel ih =>
    rcases emitRound_cases codes sound emitting k total with
      ⟨written, -⟩ | ⟨-, e, acts, failure⟩
    · exact absurd written (never k (Nat.le_refl k))
    · have failed : e.failed = true := by
        rw [Emitted.failed, failure]
        rfl
      have later := ih (k + 1) fun i after => never i (by omega)
      rw [doWhile, acts]
      simp only [failed_lt number ge failed, later, ↓reduceIte, Option.map_none]

/-- A loop of a chunk with octets ends, with nothing sent behind a failure, just when some number
of packets reaches the redundancy and no call of `wirehair_write` fails that is made for the first
so many. -/
theorem emission_ends_iff (host : Host) (accepted : hgapCheckConfigSender host config = .success)
    (wh : Wirehair S) (codes : Nat → Wirehair S) (enc enc' : HgapEncoder)
    (pktSize : enc.pktSize = config.pktSize) (content : Bytes) (chunk : HgapEncChunk S)
    (init : hgapEncChunkInit wh enc hgapEncChunkNew content = (.success, enc', chunk))
    (redund : Double) (number : redund ≠ .nan) (ge : redund.lt (.fin 1) = false) :
    EndsAtFailure codes redund chunk ↔ ∃ count, Reaches config redund content count ∧
      ∀ k < count, Written (codes k) chunk k := by
  have sound := config.sound host accepted
  obtain ⟨emitting, -⟩ := encChunkInit_emitting sound enc enc' pktSize content chunk init
  obtain ⟨nextPktId, totalGen⟩ := encChunkInit_counters init
  have start : Counting codes (min config.payload content.length) chunk [] (0, chunk) :=
    .new _ nextPktId totalGen
  constructor
  · rintro ⟨fuel, es, loop, silent⟩
    obtain ⟨-, ⟨s, run⟩, before, last, rfl, more, done⟩ := (doWhile_iff fuel).mp loop
    have counting := run.invariant _ start fun _ _ _ _ counting acts =>
      counting.emitRound sound emitting acts
    have ok : last.failed = false := by
      by_contra failed
      rw [failed_lt number ge (by simpa using failed)] at done
      cases done
    have sent := counting.sent last (List.mem_append_right _ (List.mem_singleton_self _)) ok
    have none := none_failed ok sent fun pre e post split failed => (silent pre e post split failed).1
    have first := (counting.left_iff none redund).mp ⟨before, last, rfl, more, done⟩
    rw [emitting.len] at first
    exact ⟨_, first, fun k few => (counting.redund none k few).1⟩
  · rintro ⟨count, first, written⟩
    obtain ⟨es, s, run, rfl, ok, counting⟩ := rounds_of_written sound emitting start _ written
    have first : FirstReached redund (min config.payload content.length) chunk.len es.length := by
      rw [emitting.len]
      exact first
    have rounds : Rounds (emitRound codes) (fun e => e.redund.lt redund) (0, chunk) es :=
      ⟨⟨s, run⟩, (counting.left_iff ok redund).mpr first⟩
    refine ⟨es.length, es, (doWhile_iff _).mpr ⟨Nat.le_refl _, rounds⟩, ?_⟩
    intro before e after split failed
    have fine := ok e (split ▸ List.mem_append_right _ List.mem_cons_self)
    rw [failed] at fine
    cases fine

end Rounds

section Failing

/-- A code that fails from call number 11 on. Ten octets in packets of one octet have reached the
double nearest to 1.1 with the eleventh packet, although 11 / 10 is below it, and none is asked
for behind that. -/
theorem emission_ends_tenOctets : ∃ enc chunk,
    hgapEncChunkInit RepetitionCode.code ⟨25, 0⟩ hgapEncChunkNew [0, 1, 2, 3, 4, 5, 6, 7, 8, 9] =
      (.success, enc, chunk) ∧
    (11 / 10 : Rat) < Double.nearest (11 / 10) ∧
    EndsAtFailure (fun k => if k < 11 then RepetitionCode.code else
      { RepetitionCode.code with write := fun _ _ => none })
      (.fin (Double.nearest (11 / 10))) chunk := by
  have accepted : hgapCheckConfigSender ⟨fun _ => 0, fun _ => false⟩
      { HgapConfig.smallest with nPkt := 10 } = .success := by
    decide
  refine ⟨_, _, rfl, by decide +kernel, ?_⟩
  refine (emission_ends_iff _ accepted RepetitionCode.code _ ⟨25, 0⟩ _ rfl
    [0, 1, 2, 3, 4, 5, 6, 7, 8, 9] _ rfl (.fin (Double.nearest (11 / 10))) Double.noConfusion
    (by decide +kernel)).mpr ⟨11, by decide +kernel, fun k few _ => ?_⟩
  rw [if_pos few]
  rfl

/-- Two octets in two packets, none of which is ever written: the loop never ends. -/
theorem emission_ceaseless :
    let config := { HgapConfig.smallest with nPkt := 2 }
    let codes := fun _ : Nat => { RepetitionCode.code with write := fun _ _ => none }
    hgapCheckConfigSender ⟨fun _ => 0, fun _ => false⟩ config = .success ∧
    ∃ enc chunk, hgapEncChunkInit RepetitionCode.code ⟨config.pktSize, 0⟩ hgapEncChunkNew [7, 8] =
        (.success, enc, chunk) ∧
      (∀ fuel, emitTrace codes config.redund fuel chunk = none) ∧
      ¬ EndsAtFailure codes config.redund chunk := by
  intro config codes
  have accepted : hgapCheckConfigSender ⟨fun _ => 0, fun _ => false⟩ config = .success := by decide
  have sound := config.sound _ accepted
  have init : hgapEncChunkInit RepetitionCode.code ⟨config.pktSize, 0⟩ hgapEncChunkNew [7, 8] =
      (.success, ⟨config.pktSize, 1⟩,
        ⟨0, 2, 25, 0, some (.encoder [7, 8] 1), some [7, 8], 0⟩) := by
    decide
  obtain ⟨emitting, -⟩ := encChunkInit_emitting sound _ _ rfl [7, 8] _ init
  have loop (fuel : Nat) : emitTrace codes config.redund fuel
      ⟨0, 2, 25, 0, some (.encoder [7, 8] 1), some [7, 8], 0⟩ = none := by
    have number : config.redund ≠ .nan := nofun
    refine doWhile_ceaseless codes sound emitting number rfl fuel 0 0
      fun i _ written => ?_
    have answer := written (by decide)
    cases answer
  refine ⟨accepted, _, _, init, loop, fun ⟨fuel, es, left, _⟩ => ?_⟩
  rw [loop fuel] at left
  cases left

end Failing

end Hairgap.Guarantees
