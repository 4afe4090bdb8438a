import Hairgap.Source.Sender
import Mathlib.Algebra.Order.BigOperators.Group.List
import Mathlib.Algebra.Order.Floor.Semiring
import Mathlib.Tactic.Positivity

/-!
# Transfers without a failure

encoding.c:130-183 and hgap_send.c:235-245, as far as they go with a code that answers: the
emission loop of a chunk ends behind the first packet with which its octets, counted and divided as
the source does, have reached the redundancy.
-/
namespace Hairgap.Source
open Hairgap.Base

section Reached

/-- What is returned with packet number `count`, counted from one, of a chunk of `len` octets in
packets of `size` octets. -/
def redundOf [Arithmetic] (size len count : Nat) : Double :=
  Arithmetic.quotient (Arithmetic.counter (count * size)) len

/-- So many packets reach the redundancy, and fewer do not. -/
structure FirstReached [Arithmetic] (redund : Double) (size len count : Nat) : Prop where
  pos : 0 < count
  more : ∀ m < count, 0 < m → (redundOf size len m).lt redund = true
  last : (redundOf size len count).lt redund = false

instance [Arithmetic] (redund : Double) (size len count : Nat) :
    Decidable (FirstReached redund size len count) :=
  decidable_of_iff (0 < count ∧ (∀ m < count, 0 < m → (redundOf size len m).lt redund = true) ∧
    (redundOf size len count).lt redund = false)
    ⟨fun ⟨pos, more, last⟩ => ⟨pos, more, last⟩, fun first => ⟨first.pos, first.more, first.last⟩⟩

/-- Some number of packets reaches the redundancy when one does. -/
theorem FirstReached.of_reached [Arithmetic] {redund : Double} {size len count : Nat}
    (pos : 0 < count) (reached : (redundOf size len count).lt redund = false) :
    ∃ first ≤ count, FirstReached redund size len first := by
  have some_ : ∃ m, 0 < m ∧ (redundOf size len m).lt redund = false := ⟨count, pos, reached⟩
  refine ⟨Nat.find some_, Nat.find_min' some_ ⟨pos, reached⟩, (Nat.find_spec some_).1, ?_,
    (Nat.find_spec some_).2⟩
  intro m before positive
  by_contra done
  exact Nat.find_min some_ before ⟨positive, Bool.not_eq_true _ ▸ done⟩

/-- An empty chunk is done with its first packet: zero by zero is below nothing. -/
theorem firstReached_empty (redund : Double) : FirstReached redund 0 0 1 :=
  ⟨Nat.one_pos, fun m few pos => by omega, rfl⟩

variable {redund : Rat} {size len : Nat}

theorem counter_small {total : Nat} (small : total < 2 ^ 64) : Arithmetic.counter total = total :=
  Nat.mod_eq_of_lt small

/-- The octets of a chunk reach every redundancy their 64-bit count has room for. -/
theorem firstReached_exists (pos : 0 < size) (fits : size ≤ len) (ge : 1 ≤ redund)
    (room : redund * len ≤ 2 ^ 62) : ∃ count, FirstReached (.fin redund) size len count := by
  have len_pos : (0 : Rat) < len := Nat.cast_pos.mpr (Nat.lt_of_lt_of_le pos fits)
  have size_pos : (0 : Rat) < size := Nat.cast_pos.mpr pos
  have size_le : (size : Rat) ≤ redund * len :=
    (Nat.cast_le.mpr fits).trans (le_mul_of_one_le_left len_pos.le ge)
  -- twice the octets asked for make up for the rounding
  set count := ⌈2 * (redund * len) / size⌉₊ with hcount
  have enough : 2 * (redund * len) ≤ (count * size : Nat) := by
    have := Nat.le_ceil (2 * (redund * len) / size)
    rw [div_le_iff₀ size_pos, ← hcount] at this
    exact_mod_cast this
  have unwrapped : count * size < 2 ^ 64 := by
    have above := Nat.ceil_lt_add_one (R := Rat) (a := 2 * (redund * len) / size) (by positivity)
    rw [← hcount] at above
    have total : (count : Rat) * size < 2 * (redund * len) + size := by
      have := mul_lt_mul_of_pos_right above size_pos
      rwa [add_mul, one_mul, div_mul_cancel₀ _ size_pos.ne'] at this
    have : ((count * size : Nat) : Rat) < (2 ^ 64 : Nat) := by
      push_cast
      linarith
    exact_mod_cast this
  have done : (redundOf size len count).lt (.fin redund) = false := by
    obtain ⟨q, quotient, close⟩ :=
      Arithmetic.quotient_close (count * size) (Nat.cast_pos.mp len_pos)
    have reached : redund ≤ q := by
      have twice : 2 * redund ≤ ((count * size : Nat) : Rat) / len := by
        rw [le_div_iff₀ len_pos]
        linarith
      have := (abs_le.mp close).1
      linarith
    rw [redundOf, counter_small unwrapped, quotient]
    exact decide_eq_false (not_lt.mpr reached)
  obtain ⟨first, -, reached⟩ := FirstReached.of_reached (Nat.ceil_pos.mpr (by positivity)) done
  exact ⟨first, reached⟩

/-- What has reached a redundancy of one or more has all octets of the chunk in its packets. -/
theorem FirstReached.covers {count : Nat} (first : FirstReached (.fin redund) size len count)
    (ge : 1 ≤ redund) (short : len ≤ 2 ^ 50) : len ≤ count * size := by
  by_contra lacking
  have lacking := Nat.lt_of_not_le lacking
  have len_pos : (0 : Rat) < len := Nat.cast_pos.mpr (by omega)
  obtain ⟨q, quotient, close⟩ :=
    Arithmetic.quotient_close (count * size) (Nat.cast_pos.mp len_pos)
  have value : redundOf size len count = .fin q := by
    rw [redundOf, counter_small (by omega), quotient]
  have below : q < redund := by
    have ratio : ((count * size : Nat) : Rat) / len ≤ 1 - 1 / 2 ^ 50 := by
      rw [div_le_iff₀ len_pos]
      have one_less : ((count * size : Nat) : Rat) + 1 ≤ len := by exact_mod_cast lacking
      have short : (len : Rat) ≤ 2 ^ 50 := by exact_mod_cast short
      have : 1 / 2 ^ 50 * (len : Rat) ≤ 1 := by
        rw [one_div_mul_eq_div, div_le_one (by positivity)]
        exact short
      linarith
    have := (abs_le.mp close).2
    linarith
  have last := first.last
  rw [value] at last
  exact of_decide_eq_false last below

end Reached

section
variable {S : Type} (wh : Wirehair S) (config : HgapConfig)

/-- Packet number `k` of a chunk. -/
def packetAt (num : UInt64) (content : Bytes) (k : Nat) : Bytes :=
  chunkPacket num content (UInt32.ofNat k) (chunkPayload wh config content (UInt32.ofNat k))

/-- So many packets of a chunk, in order. -/
def chunkPackets (count : Nat) (num : UInt64) (content : Bytes) : List Bytes :=
  (List.range count).map (packetAt wh config num content)

/-- Packets of a chunk that reach the redundancy, as the octets of each are counted. -/
def Reaches [Arithmetic] (redund : Double) (content : Bytes) (count : Nat) : Prop :=
  FirstReached redund (min config.payload content.length) content.length count

instance [Arithmetic] (redund : Double) (content : Bytes) (count : Nat) :
    Decidable (Reaches config redund content count) :=
  inferInstanceAs (Decidable (FirstReached ..))

variable {wh config} {num : UInt64} {content : Bytes} {chunk : HgapEncChunk S}

/-- An emission of a chunk whose code answers succeeds. -/
theorem emission_sent [Arithmetic] (sound : config.Sound) (fills : wh.WriteFills)
    (writes : wh.WritesAll) (emitting : Emitting wh config num content chunk) (k : Nat)
    (ident : chunk.nextPktId = UInt64.ofNat k)
    (total : chunk.totalGen = Arithmetic.counter (k * min config.payload content.length)) :
    ∃ e, hgapEncChunkEmit wh chunk = some e ∧ e.failed = false ∧
      e.datagrams = [packetAt wh config num content k] ∧
      e.redund = redundOf (min config.payload content.length) content.length (k + 1) ∧
      e.chunk = { chunk with
        nextPktId := UInt64.ofNat (k + 1)
        totalGen := Arithmetic.counter ((k + 1) * min config.payload content.length) } := by
  obtain ⟨e, hemit, emission⟩ := emissionCase sound fills emitting
  have next : Arithmetic.counter (chunk.totalGen + min config.payload content.length) =
      Arithmetic.counter ((k + 1) * min config.payload content.length) := by
    rw [total, Arithmetic.counter_add, Nat.add_mul, Nat.one_mul]
  refine ⟨e, hemit, ?_⟩
  cases emission with
  | sent payload ok written packet datagrams size redund after =>
    rw [ident, UInt64.toUInt32_ofNat'] at written datagrams
    rw [size, next] at redund
    rw [HgapEncChunk.emitted, size, next, ident] at after
    refine ⟨ok, by rw [datagrams, written, packetAt], redund, after.trans ?_⟩
    rw [UInt64.ofNat_add]
    rfl
  | lost _ enc encoded unwritten =>
    have answer := writes content config.payload enc chunk.nextPktId.toUInt32 encoded
    simp [unwritten] at answer

/-- The emission loop from packet `k` on, when `count` more packets reach the redundancy
and fewer do not. -/
theorem emitLoop_exact [Arithmetic] (sound : config.Sound) (fills : wh.WriteFills)
    (writes : wh.WritesAll) (redund : Double) (count k fuel : Nat)
    (emitting : Emitting wh config num content chunk) (ident : chunk.nextPktId = UInt64.ofNat k)
    (total : chunk.totalGen = Arithmetic.counter (k * min config.payload content.length))
    (pos : 0 < count)
    (more : ∀ m, 0 < m → m < count → (redundOf (min config.payload content.length)
      content.length (k + m)).lt redund = true)
    (last : (redundOf (min config.payload content.length) content.length
      (k + count)).lt redund = false) (enough : count ≤ fuel) :
    emitLoop wh redund fuel chunk =
      some ((List.range' k count).map (packetAt wh config num content), false) := by
  induction count generalizing k fuel chunk with
  | zero => omega
  | succ count ih =>
    obtain ⟨e, hemit, ok, datagrams, step, after⟩ :=
      emission_sent sound fills writes emitting k ident total
    cases fuel with
    | zero => omega
    | succ fuel =>
      simp only [emitLoop, hemit, ok, datagrams, step, Bool.false_or]
      by_cases done : count = 0
      · subst done
        rw [if_neg (by simpa using last)]
        rfl
      · rw [if_pos (more 1 (by omega) (by omega))]
        have next := ih (k + 1) fuel (after ▸ emitting.counted _ _) (by rw [after])
          (by rw [after]) (by omega)
          (fun m hpos hlt => by
            rw [Nat.add_assoc]
            exact more (1 + m) (by omega) (by omega))
          (by rw [Nat.add_assoc, Nat.add_comm 1 count]; exact last) (by omega)
        rw [next, Option.map_some, List.range'_succ, List.map_cons]
        rfl

/-- The emission loop on a freshly initialised chunk. -/
theorem emitLoop_fresh [Arithmetic] (sound : config.Sound) (fills : wh.WriteFills)
    (writes : wh.WritesAll) {redund : Double} {count : Nat} (fuel : Nat)
    (emitting : Emitting wh config num content chunk) (ident : chunk.nextPktId = 0)
    (total : chunk.totalGen = 0) (first : Reaches config redund content count)
    (enough : count ≤ fuel) :
    emitLoop wh redund fuel chunk = some (chunkPackets wh config count num content, false) := by
  rw [chunkPackets, List.range_eq_range']
  refine emitLoop_exact sound fills writes _ _ 0 fuel emitting ident ?_ first.pos ?_ ?_ enough
  · rw [total, Nat.zero_mul, Arithmetic.counter_zero]
  · intro m pos few
    rw [Nat.zero_add]
    exact first.more m few pos
  · rw [Nat.zero_add]
    exact first.last

/-- An emission loop from packet `k` on that ends has reached the redundancy. -/
theorem emitLoop_reached [Arithmetic] (sound : config.Sound) (fills : wh.WriteFills)
    (writes : wh.WritesAll) {redund : Double} {fuel : Nat} {loop : List Bytes × Bool} (k : Nat)
    (emitting : Emitting wh config num content chunk) (ident : chunk.nextPktId = UInt64.ofNat k)
    (total : chunk.totalGen = Arithmetic.counter (k * min config.payload content.length))
    (ends : emitLoop wh redund fuel chunk = some loop) :
    ∃ m ≤ fuel, 0 < m ∧ (redundOf (min config.payload content.length) content.length
      (k + m)).lt redund = false := by
  induction fuel generalizing k chunk loop with
  | zero => cases ends
  | succ fuel ih =>
    obtain ⟨e, hemit, -, -, step, after⟩ := emission_sent sound fills writes emitting k ident total
    simp only [emitLoop, hemit, step] at ends
    split at ends
    next =>
      obtain ⟨later, more, -⟩ := Option.map_eq_some_iff.mp ends
      obtain ⟨m, within, -, reached⟩ := ih (k + 1) (after ▸ emitting.counted _ _) (by rw [after])
        (by rw [after]) more
      refine ⟨m + 1, Nat.succ_le_succ within, Nat.succ_pos m, ?_⟩
      rwa [Nat.add_comm m 1, ← Nat.add_assoc]
    next done => exact ⟨1, Nat.succ_le_succ (Nat.zero_le fuel), Nat.one_pos, by simpa using done⟩

/-- Packets that hold as many octets as a chunk are as many as its blocks. -/
theorem blockCount_le_of_covers (sound : config.Sound) {len count : Nat}
    (holds : len ≤ count * min config.payload len) : blockCount len config.payload ≤ count := by
  have hpos := sound.payload_pos
  have wide : len ≤ count * config.payload :=
    Nat.le_trans holds (Nat.mul_le_mul_left count (Nat.min_le_left _ _))
  unfold blockCount
  rw [Nat.div_le_iff_le_mul hpos]
  omega

/-- The original blocks of a chunk are always among its packets. -/
theorem blockCount_le_of_reaches (sound : config.Sound) {redund : Rat} (ge : 1 ≤ redund)
    {count : Nat} (fits : content.length ≤ config.bufSize)
    (first : Reaches config (.fin redund) content count) :
    blockCount content.length config.payload ≤ count := by
  have short := (fits.trans sound.bufSize_le).trans (show _ ≤ 2 ^ 50 by decide)
  exact blockCount_le_of_covers sound (first.covers ge short)

/-- No number of packets reaches an infinite redundancy, unless of an empty chunk. -/
theorem Reaches.finite {redund : Double} {count : Nat} (reaches : Reaches config redund content count)
    (nonempty : content ≠ []) (number : redund ≠ .nan) : ∃ q, redund = .fin q := by
  cases redund with
  | nan => exact absurd rfl number
  | fin q => exact ⟨q, rfl⟩
  | posInf =>
    obtain ⟨q, quotient, -⟩ := Arithmetic.quotient_close
      (Arithmetic.counter (count * min config.payload content.length)) (List.length_pos_iff.mpr nonempty)
    have last := reaches.last
    rw [redundOf, quotient] at last
    cases last

/-- The payload size of a chunk as `hgap_enc_chunk_init` sets it. -/
private theorem initialPayloadSize (sound : config.Sound) (num : UInt64) (content : Bytes)
    (whState : Option S) :
    hgapEncChunkPktPayloadSize (S := S) ⟨num, content.length,
      min config.pktSize (content.length + hgapHeaderLen), 0, whState, some content, 0⟩ =
        min config.payload content.length := by
  have hpay : min config.pktSize (content.length + hgapHeaderLen) =
      min config.payload content.length + hgapHeaderLen := by
    have := sound.pktSize_eq
    omega
  rw [hgapEncChunkPktPayloadSize, hpay]
  simp

/-- A chunk that fits one payload needs no code. -/
theorem encChunkInit_small (sound : config.Sound) (enc : HgapEncoder)
    (pktSize : enc.pktSize = config.pktSize) (content : Bytes)
    (small : content.length ≤ config.payload) :
    ∃ enc' chunk, hgapEncChunkInit wh enc hgapEncChunkNew content = (.success, enc', chunk) ∧
      chunk.nextPktId = 0 ∧ chunk.totalGen = 0 := by
  have fits : content.length ≤ min config.payload content.length := by omega
  unfold hgapEncChunkInit hgapEncChunkNew
  simp only [hgapEncChunkIsSmall, pktSize, initialPayloadSize sound, decide_eq_true_eq]
  exact ⟨_, _, by rw [if_pos fits], rfl, rfl⟩

/-- Within the documented range of the code, every chunk can be initialised. -/
theorem encChunkInit_success (sound : config.Sound) (encodes : wh.EncodesInRange)
    (enc : HgapEncoder) (pktSize : enc.pktSize = config.pktSize) (content : Bytes)
    (fits : content.length ≤ config.bufSize) :
    ∃ enc' chunk, hgapEncChunkInit wh enc hgapEncChunkNew content = (.success, enc', chunk) ∧
      chunk.nextPktId = 0 ∧ chunk.totalGen = 0 := by
  by_cases small : content.length ≤ config.payload
  · exact encChunkInit_small sound enc pktSize content small
  · have hmin : min config.payload content.length = config.payload := by omega
    have hpos := sound.payload_pos
    have low : 2 ≤ blockCount content.length config.payload := by
      unfold blockCount
      rw [Nat.le_div_iff_mul_le hpos]
      omega
    have encoded := encodes content config.payload hpos low (sound.blockCount_le fits)
    obtain ⟨state, hstate⟩ := Option.isSome_iff_exists.mp encoded
    unfold hgapEncChunkInit hgapEncChunkNew
    simp only [hgapEncChunkIsSmall, pktSize, initialPayloadSize sound, hmin, decide_eq_true_eq]
    rw [if_neg small, hstate]
    exact ⟨_, _, rfl, rfl, rfl⟩

theorem sendChunks_total (sound : config.Sound) (fills : wh.WriteFills) (writes : wh.WritesAll)
    (encodes : wh.EncodesInRange) (redund : Double) (fuel : Nat) (enc : HgapEncoder)
    (pktSize : enc.pktSize = config.pktSize) (counts : Nat → Nat) (contents : List Bytes)
    (fits : ∀ content ∈ contents, content.length ≤ config.bufSize)
    (reaches : ∀ content ∈ contents, Reaches config redund content (counts content.length))
    (enough : ∀ content ∈ contents, counts content.length ≤ fuel) :
    sendChunks wh redund fuel enc contents =
      some (contents.mapIdx fun i content => chunkPackets wh config (counts content.length)
        (enc.nextChunkNum + UInt64.ofNat i) content).flatten := by
  induction contents generalizing enc with
  | nil => rfl
  | cons content rest ih =>
    obtain ⟨enc', chunk, init, ident, total⟩ := encChunkInit_success sound encodes enc pktSize
      content (fits content List.mem_cons_self)
    obtain ⟨emitting, rfl⟩ := encChunkInit_emitting sound enc enc' pktSize content chunk init
    have loop := emitLoop_fresh sound fills writes fuel emitting ident total
      (reaches content List.mem_cons_self) (enough content List.mem_cons_self)
    have later := ih { enc with nextChunkNum := enc.nextChunkNum + 1 } pktSize
      (fun c h => fits c (List.mem_cons_of_mem _ h)) (fun c h => reaches c (List.mem_cons_of_mem _ h))
      fun c h => enough c (List.mem_cons_of_mem _ h)
    have shift (i : Nat) : enc.nextChunkNum + 1 + UInt64.ofNat i =
        enc.nextChunkNum + UInt64.ofNat (i + 1) := by
      rw [UInt64.ofNat_add, UInt64.add_assoc, UInt64.add_comm (UInt64.ofNat i)]
      rfl
    simp only [sendChunks, init, loop, later, Option.map_some, List.mapIdx_cons,
      List.flatten_cons, shift]
    simp

/-- A sender that gets through its buffers has reached the redundancy for each of them. -/
theorem sendChunks_reached (sound : config.Sound) (fills : wh.WriteFills) (writes : wh.WritesAll)
    (encodes : wh.EncodesInRange) {redund : Double} {fuel : Nat} (enc : HgapEncoder)
    (pktSize : enc.pktSize = config.pktSize) {contents pkts : List Bytes}
    (fits : ∀ content ∈ contents, content.length ≤ config.bufSize)
    (sent : sendChunks wh redund fuel enc contents = some pkts) :
    ∀ content ∈ contents, ∃ count ≤ fuel, Reaches config redund content count := by
  induction contents generalizing enc pkts with
  | nil => nofun
  | cons content rest ih =>
    obtain ⟨enc', chunk, init, ident, total⟩ := encChunkInit_success sound encodes enc pktSize
      content (fits content List.mem_cons_self)
    obtain ⟨emitting, rfl⟩ := encChunkInit_emitting sound enc enc' pktSize content chunk init
    simp only [sendChunks, init] at sent
    have here : ∃ count ≤ fuel, Reaches config redund content count := by
      cases ends : emitLoop wh redund fuel chunk with
      | none =>
        rw [ends] at sent
        cases sent
      | some loop =>
        obtain ⟨m, within, pos, reached⟩ := emitLoop_reached sound fills writes 0 emitting ident
          (by rw [total, Nat.zero_mul, Arithmetic.counter_zero]) ends
        rw [Nat.zero_add] at reached
        obtain ⟨count, le, first⟩ := FirstReached.of_reached pos reached
        exact ⟨count, Nat.le_trans le within, first⟩
    obtain ⟨count, enough, first⟩ := here
    rw [emitLoop_fresh sound fills writes fuel emitting ident total first enough] at sent
    obtain ⟨more, later, -⟩ := Option.map_eq_some_iff.mp sent
    have behind := ih { enc with nextChunkNum := enc.nextChunkNum + 1 } pktSize
      (fun c h => fits c (List.mem_cons_of_mem _ h)) later
    intro c member
    rcases List.mem_cons.mp member with rfl | member
    · exact ⟨count, enough, first⟩
    · exact behind c member

/-- What the sender emits when nothing fails; the packets of a chunk depend on its length. -/
def fullTransfer (wh : Wirehair S) (config : HgapConfig) (counts : Nat → Nat) (input : Bytes) :
    List Bytes :=
  List.replicate hgapSalveLen (hgapWriteHeader hgapHeaderBegin) ++
    ((List.range (input.length / config.bufSize + 1)).map fun i =>
      chunkPackets wh config (counts (chunkAt config input i).length) (UInt64.ofNat i)
        (chunkAt config input i)).flatten ++
    List.replicate hgapSalveLen (hgapWriteHeader hgapHeaderEnd)

theorem begin_sent (wh : Wirehair S) (config : HgapConfig) (counts : Nat → Nat) (input : Bytes) :
    hgapWriteHeader hgapHeaderBegin ∈ fullTransfer wh config counts input :=
  List.mem_append_left _ (List.mem_append_left _ (List.mem_replicate.mpr ⟨by decide, rfl⟩))

theorem end_sent (wh : Wirehair S) (config : HgapConfig) (counts : Nat → Nat) (input : Bytes) :
    hgapWriteHeader hgapHeaderEnd ∈ fullTransfer wh config counts input :=
  List.mem_append_right _ (List.mem_replicate.mpr ⟨by decide, rfl⟩)

/-- The packets of any of its chunks, in order, are among those of a whole transfer. -/
theorem sublist_fullTransfer (wh : Wirehair S) (config : HgapConfig) (counts : Nat → Nat)
    (input : Bytes) (picked : List Nat)
    (chunks : picked.Sublist (List.range (input.length / config.bufSize + 1))) :
    (hgapWriteHeader hgapHeaderBegin :: (picked.map fun i =>
      chunkPackets wh config (counts (chunkAt config input i).length) (UInt64.ofNat i)
        (chunkAt config input i)).flatten).Sublist (fullTransfer wh config counts input) := by
  have first : [hgapWriteHeader hgapHeaderBegin].Sublist
      (List.replicate hgapSalveLen (hgapWriteHeader hgapHeaderBegin)) :=
    List.singleton_sublist.mpr (List.mem_replicate.mpr ⟨by decide, rfl⟩)
  exact (first.append (chunks.map _).flatten).trans (List.sublist_append_left _ _)

/-- Every chunk of an input has reached the redundancy behind so many packets. -/
def Counts (config : HgapConfig) (counts : Nat → Nat) (input : Bytes) : Prop :=
  ∀ content ∈ inputChunks config.bufSize input,
    Reaches config config.redund content (counts content.length)

theorem inputChunks_fit (config : HgapConfig) (input : Bytes) :
    ∀ content ∈ inputChunks config.bufSize input, content.length ≤ config.bufSize := by
  intro content member
  rw [inputChunks_eq] at member
  obtain ⟨i, -, rfl⟩ := List.mem_map.mp member
  exact chunkAt_length_le config input i

/-- With enough fuel for each chunk the sender gets through the input. -/
theorem sendDatagrams_full (sound : config.Sound) (fills : wh.WriteFills)
    (writes : wh.WritesAll) (encodes : wh.EncodesInRange) {counts : Nat → Nat} {input : Bytes}
    (reaches : Counts config counts input) {fuel : Nat}
    (enough : ∀ content ∈ inputChunks config.bufSize input, counts content.length ≤ fuel) :
    hgapSendDatagrams wh config fuel input = some (fullTransfer wh config counts input) := by
  have room : ¬ config.pktSize < hgapMinBuf := by
    rw [sound.pktSize_eq]
    exact Nat.not_lt.mpr (Nat.le_add_left _ _)
  have total := sendChunks_total sound fills writes encodes config.redund fuel
    (hgapEncoderNew config.pktSize) rfl counts (inputChunks config.bufSize input)
    (inputChunks_fit config input) reaches enough
  have groups : ((inputChunks config.bufSize input).mapIdx fun i content =>
      chunkPackets wh config (counts content.length)
        ((hgapEncoderNew config.pktSize).nextChunkNum + UInt64.ofNat i) content) =
      (List.range (input.length / config.bufSize + 1)).map fun i =>
        chunkPackets wh config (counts (chunkAt config input i).length) (UInt64.ofNat i)
          (chunkAt config input i) := by
    rw [inputChunks_eq]
    apply List.ext_getElem
    · simp
    · intro i _ _
      simp [hgapEncoderNew]
  rw [groups] at total
  simp only [hgapSendDatagrams, total, Option.map_some, fullTransfer,
    hgapEncoderHandwave, hgapEncoderTeardown, if_neg room, hgapSenderControl]

/-- The sender gets through an input whose chunks reach the redundancy. -/
theorem sendDatagrams_total (sound : config.Sound) (fills : wh.WriteFills)
    (writes : wh.WritesAll) (encodes : wh.EncodesInRange) {counts : Nat → Nat} {input : Bytes}
    (reaches : Counts config counts input) :
    ∃ bound, ∀ fuel, bound ≤ fuel →
      hgapSendDatagrams wh config fuel input = some (fullTransfer wh config counts input) := by
  refine ⟨((inputChunks config.bufSize input).map fun content => counts content.length).sum,
    fun fuel enough => sendDatagrams_full sound fills writes encodes reaches ?_⟩
  intro content member
  refine Nat.le_trans ?_ enough
  exact List.le_sum_of_mem (List.mem_map_of_mem member)

/-- Whenever it gets through, all chunks have reached the redundancy. -/
theorem sendDatagrams_counts (sound : config.Sound) (fills : wh.WriteFills)
    (writes : wh.WritesAll) (encodes : wh.EncodesInRange) {input : Bytes} {fuel : Nat}
    {sent : List Bytes} (done : hgapSendDatagrams wh config fuel input = some sent) :
    ∃ counts, Counts config counts input ∧ sent = fullTransfer wh config counts input := by
  obtain ⟨pkts, through, -⟩ := Option.map_eq_some_iff.mp done
  have reached := sendChunks_reached sound fills writes encodes (hgapEncoderNew config.pktSize) rfl
    (inputChunks_fit config input) through
  have byLength (len : Nat) : ∃ count, ∀ content ∈ inputChunks config.bufSize input,
      content.length = len → count ≤ fuel ∧ Reaches config config.redund content count := by
    by_cases there : ∃ content ∈ inputChunks config.bufSize input, content.length = len
    · obtain ⟨content, member, rfl⟩ := there
      obtain ⟨count, enough, first⟩ := reached content member
      refine ⟨count, fun other _ same => ⟨enough, ?_⟩⟩
      rwa [Reaches, same]
    · exact ⟨0, fun content member same => absurd ⟨content, member, same⟩ there⟩
  choose counts reaches using byLength
  have counted : Counts config counts input :=
    fun content member => (reaches _ content member rfl).2
  have full := sendDatagrams_full sound fills writes encodes counted
    fun content member => (reaches _ content member rfl).1
  exact ⟨counts, counted, Option.some.inj (done.symm.trans full)⟩

/-- The chunks of every input reach a redundancy for whose octets there is room. -/
theorem counts_exist (sound : config.Sound) {redund : Rat} (finite : config.redund = .fin redund)
    (ge : 1 ≤ redund) (room : redund * config.bufSize ≤ 2 ^ 62) (input : Bytes) :
    ∃ counts, Counts config counts input := by
  have reached (len : Nat) : ∃ count, len ≤ config.bufSize →
      FirstReached config.redund (min config.payload len) len count := by
    by_cases fits : len ≤ config.bufSize
    · rcases Nat.eq_zero_or_pos len with rfl | pos
      · refine ⟨1, fun _ => ?_⟩
        rw [Nat.min_zero]
        exact firstReached_empty _
      · have wide : redund * len ≤ 2 ^ 62 :=
          (mul_le_mul_of_nonneg_left (Nat.cast_le.mpr fits) (zero_le_one.trans ge)).trans room
        obtain ⟨count, first⟩ := firstReached_exists
          (Nat.lt_min.mpr ⟨sound.payload_pos, pos⟩) (Nat.min_le_right config.payload len) ge wide
        exact ⟨count, fun _ => finite ▸ first⟩
    · exact ⟨0, fun h => absurd h fits⟩
  choose counts first using reached
  exact ⟨counts, fun content member => first _ (inputChunks_fit config input content member)⟩

end

end Hairgap.Source
