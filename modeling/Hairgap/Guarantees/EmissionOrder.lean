import Hairgap.Guarantees.Integrity
import Hairgap.Source.RepetitionCode

/-!
# The order of the emitted chunks

The decoder starts a chunk on every number other than the one it holds. Chunks come out in
ascending order as long as each number it starts is greater than that, and this is what a
channel that keeps the order of the packets provides.
-/
namespace Hairgap.Guarantees
open Hairgap.Base Hairgap.Source

section Ascending
variable {S : Type} (wh : Wirehair S)

/-- The datagram starts no chunk, or one with a number greater than the current one. -/
def Advances (dec : HgapDecoder S) (d : Datagram) : Prop :=
  Handles dec d → d.pkt.hdr.chunkNum ≠ dec.chunk.num → dec.chunkComplete = true →
    d.pkt.hdr.chunkSize.toNat ≤ hgapMaxChunkSize →
      dec.chunk.num = hgapNoMoreChunk ∨ dec.chunk.num < d.pkt.hdr.chunkNum

def nums (labels : List (Datagram × Option OutChunk)) : List UInt64 :=
  (outChunks labels).map OutChunk.num

@[simp] theorem nums_append (xs ys : List (Datagram × Option OutChunk)) :
    nums (xs ++ ys) = nums xs ++ nums ys := by
  simp [nums]

/-- The numbers handed out so far ascend up to the current one, which is among them only
when its chunk was emitted. -/
structure Ascending (handed : List UInt64) (dec : HgapDecoder S) : Prop where
  sorted : handed.Pairwise (· < ·)
  below : ∀ num ∈ handed, num < dec.chunk.num ∨ (num = dec.chunk.num ∧ dec.chunkEmitted = true)
  blank : Blank dec → handed = []

theorem Ascending.unemitted {handed : List UInt64} {dec : HgapDecoder S}
    (ascending : Ascending handed dec) (unemitted : dec.chunkEmitted = false) :
    ∀ num ∈ handed, num < dec.chunk.num := by
  intro num member
  rcases ascending.below num member with below | ⟨-, emitted⟩
  · exact below
  · rw [unemitted] at emitted
    cases emitted

theorem Ascending.read {handed : List UInt64} {dec : HgapDecoder S}
    (ascending : Ascending handed dec) (coherent : Coherent dec) (d : Datagram)
    (advances : Advances dec d) : Ascending handed (hgapDecoderRead wh dec d).dec := by
  have after := coherent.read wh d
  have case := readCase wh dec d
  generalize hgapDecoderRead wh dec d = r at case after
  have kept (state : HgapDecoderState) : Ascending handed { dec with state := state } :=
    ⟨ascending.sorted, ascending.below,
      fun blank => ascending.blank ⟨blank.chunk, blank.complete, blank.emitted⟩⟩
  cases case with
  | idle => exact kept _
  | handled handles r handled =>
    cases handled with
    | foreign | oversized | settled => exact kept _
    | absorbed w working =>
      have prepared := Working.prepared wh coherent handles.1 working
      have workNum := working.num
      obtain ⟨emitted, num⟩ := incorporate_frame wh w d.pkt prepared.incomplete
      have below : ∀ n ∈ handed, n < w.chunk.num := by
        cases working with
        | fresh other complete size =>
          intro n member
          rw [workNum]
          rcases advances handles other complete size with initial | less
          · have blank : Blank dec := by
              rcases coherent with blank | loaded
              · exact blank
              · have low := loaded.num
                rw [initial] at low
                exact absurd low (by decide)
            rw [ascending.blank blank] at member
            cases member
          · rcases ascending.below n member with h | ⟨rfl, -⟩
            · exact UInt64.lt_trans h less
            · exact less
        | more => exact ascending.unemitted prepared.unemitted
      refine ⟨ascending.sorted, fun n member => .inl (num ▸ below n member), fun blank => ?_⟩
      have waiting := blank.emitted
      rw [emitted, prepared.unemitted] at waiting
      cases waiting

theorem Ascending.turn {handed : List UInt64} {dec dec' : HgapDecoder S}
    {label : Datagram × Option OutChunk} (ascending : Ascending handed dec)
    (coherent : Coherent dec) (advances : Advances dec label.1)
    (turn : ReadEmit wh dec label dec') : Ascending (handed ++ nums [label]) dec' := by
  obtain ⟨t, ht, hout, rfl⟩ := turn
  have read := ascending.read wh coherent label.1 advances
  have after := coherent.read wh label.1
  have case := turnCase wh dec label.1 t ht
  cases case with
  | quiet =>
    have none : label.2 = none := hout.symm
    simpa [nums, outChunks, none] using read
  | emits positive e returns =>
    have unemitted := read_positive wh coherent label.1 positive
    generalize hgapDecoderRead wh dec label.1 = r at read after unemitted returns hout
    dsimp only at hout ⊢
    have emit := emitCase wh r.dec r.ret.toNat
    rw [returns] at emit
    have loaded := after.loaded unemitted
    -- a successful emit adds the number the decoder holds, above all handed out before
    have added (message : Bytes) (some : label.2 = some ⟨r.dec.chunk.num, message⟩) :
        Ascending (handed ++ nums [label]) { r.dec with chunkEmitted := true } := by
      have last : nums [label] = [r.dec.chunk.num] := by simp [nums, outChunks, some]
      have below := read.unemitted unemitted
      rw [last]
      refine ⟨?_, ?_, ?_⟩
      · refine List.pairwise_append.mpr ⟨read.sorted, List.pairwise_singleton _ _, ?_⟩
        intro a ha b hb
        rw [List.mem_singleton.mp hb]
        exact below a ha
      · intro num member
        rcases List.mem_append.mp member with earlier | last
        · exact .inl (below num earlier)
        · exact .inr ⟨List.mem_singleton.mp last, rfl⟩
      · intro blank
        have chunk : r.dec.chunk = _ := blank.chunk
        have initial : r.dec.chunk.num = hgapNoMoreChunk := by rw [chunk]; rfl
        have low := loaded.num
        rw [initial] at low
        exact absurd low (by decide)
    cases emit with
    | incomplete | narrow | refused =>
      have none : label.2 = none := hout.symm
      simpa [nums, outChunks, none] using read
    | held complete fits isSmall data =>
      exact added (data.take r.dec.chunk.len) hout.symm
    | rebuilt complete fits isBig message => exact added message hout.symm

/-- Along a run whose steps all advance, the chunks come out in ascending order. -/
theorem ascending_run {labels : List (Datagram × Option OutChunk)} {dec : HgapDecoder S}
    (run : Steps (Guarded (fun dec label => Advances dec label.1) (ReadEmit wh))
      hgapDecoderNew labels dec) : (nums labels).Pairwise (· < ·) := by
  have both : Coherent dec ∧ Ascending (nums labels) dec := by
    refine run.invariant (fun labels dec => Coherent dec ∧ Ascending (nums labels) dec) ?_ ?_
    · exact ⟨coherent_new, .nil, nofun, fun _ => rfl⟩
    · intro labels dec label dec' inv step
      refine ⟨inv.1.turn wh step.1, ?_⟩
      rw [nums_append]
      exact inv.2.turn wh inv.1 step.2 step.1
  exact both.2.sorted

/-- Numbers of the data packets among these. -/
def dataNums (ds : List Datagram) : List UInt64 :=
  ds.filterMap fun d => if hgapPktType d = .data then some d.pkt.hdr.chunkNum else none

@[simp] theorem dataNums_append (xs ys : List Datagram) :
    dataNums (xs ++ ys) = dataNums xs ++ dataNums ys := by
  simp [dataNums]

theorem dataNums_data {d : Datagram} (data : hgapPktType d = .data) :
    dataNums [d] = [d.pkt.hdr.chunkNum] := by
  simp [dataNums, data]

/-- No data packet has a number below that of an earlier one. -/
def Ordered (ds : List Datagram) : Prop := (dataNums ds).Pairwise (· ≤ ·)

instance (ds : List Datagram) : Decidable (Ordered ds) := by
  unfold Ordered
  infer_instance

/-- The decoder holds the number of a data packet it has read. -/
def Seen (ds : List Datagram) (dec : HgapDecoder S) : Prop :=
  Blank dec ∨ dec.chunk.num ∈ dataNums ds

theorem Seen.read {ds : List Datagram} {dec : HgapDecoder S} (seen : Seen ds dec)
    (coherent : Coherent dec) (d : Datagram) :
    Seen (ds ++ [d]) (hgapDecoderRead wh dec d).dec := by
  have kept (state : HgapDecoderState) : Seen (ds ++ [d]) { dec with state := state } := by
    rcases seen with blank | member
    · exact .inl ⟨blank.chunk, blank.complete, blank.emitted⟩
    · refine .inr ?_
      rw [dataNums_append]
      exact List.mem_append_left _ member
  have case := readCase wh dec d
  generalize hgapDecoderRead wh dec d = r at case
  cases case with
  | idle => exact kept _
  | handled handles r handled =>
    cases handled with
    | foreign | oversized | settled => exact kept _
    | absorbed w working =>
      have prepared := Working.prepared wh coherent handles.1 working
      refine .inr ?_
      rw [(incorporate_frame wh w d.pkt prepared.incomplete).2, working.num, dataNums_append,
        dataNums_data handles.1]
      exact List.mem_append_right _ (List.mem_singleton_self _)

theorem Seen.turn {ds : List Datagram} {dec dec' : HgapDecoder S}
    {label : Datagram × Option OutChunk} (seen : Seen ds dec) (coherent : Coherent dec)
    (turn : ReadEmit wh dec label dec') : Seen (ds ++ [label.1]) dec' := by
  obtain ⟨t, ht, -, rfl⟩ := turn
  have read := seen.read wh coherent label.1
  cases turnCase wh dec label.1 t ht with
  | quiet => exact read
  | emits positive e returns =>
    have marked : Seen (ds ++ [label.1])
        { (hgapDecoderRead wh dec label.1).dec with chunkEmitted := true } := by
      rcases read with blank | member
      · exact .inl ⟨blank.chunk, blank.complete, rfl⟩
      · exact .inr member
    generalize hgapDecoderRead wh dec label.1 = r at read marked returns
    dsimp only
    have case := emitCase wh r.dec r.ret.toNat
    rw [returns] at case
    cases case with
    | incomplete | narrow | refused => exact read
    | held | rebuilt => exact marked

theorem seen_run {labels : List (Datagram × Option OutChunk)} {dec : HgapDecoder S}
    (run : Steps (ReadEmit wh) hgapDecoderNew labels dec) :
    Seen (labels.map Prod.fst) dec := by
  have both : Coherent dec ∧ Seen (labels.map Prod.fst) dec := by
    refine run.invariant (fun labels dec => Coherent dec ∧ Seen (labels.map Prod.fst) dec) ?_ ?_
    · exact ⟨coherent_new, .inl ⟨rfl, rfl, rfl⟩⟩
    · intro labels dec label dec' inv turn
      refine ⟨inv.1.turn wh turn, ?_⟩
      rw [List.map_append]
      exact inv.2.turn wh inv.1 turn
  exact both.2

/-- Behind datagrams in order, the next one in order starts no chunk below the current. -/
theorem Seen.advances {ds : List Datagram} {dec : HgapDecoder S} (seen : Seen ds dec)
    (d : Datagram) (ordered : Ordered (ds ++ [d])) : Advances dec d := by
  intro handles other _ _
  rcases seen with blank | member
  · left
    rw [blank.chunk]
    rfl
  · right
    rw [Ordered, dataNums_append, dataNums_data handles.1] at ordered
    have le := (List.pairwise_append.mp ordered).2.2 _ member _ (List.mem_singleton_self _)
    exact UInt64.lt_of_le_of_ne le fun same => other same.symm

theorem Ordered.shorter {before after : List Datagram} (ordered : Ordered (before ++ after)) :
    Ordered before := by
  rw [Ordered, dataNums_append] at ordered
  exact (List.pairwise_append.mp ordered).1

/-- Every turn of `decloop` on these datagrams advances. -/
def TurnsAdvance (ds : List Datagram) : Prop :=
  ∀ labels dec d rest, ds = labels.map Prod.fst ++ d :: rest →
    Steps (LoopTurn wh) hgapDecoderNew labels dec → Advances dec d

/-- Datagrams in order keep advancing. -/
theorem ordered_advance (ds : List Datagram) (ordered : Ordered ds) : TurnsAdvance wh ds := by
  intro labels dec d rest split run
  have seen := seen_run wh (run.mono fun _ _ _ turn => turn.readEmit)
  refine seen.advances d ?_
  rw [split] at ordered
  have split' : labels.map Prod.fst ++ d :: rest = (labels.map Prod.fst ++ [d]) ++ rest := by simp
  rw [split'] at ordered
  exact ordered.shorter

/-- A turn on which `decloop` leaves hands nothing out. -/
theorem leaves_out {dec : HgapDecoder S} {d : Datagram} {turn : Turn S} {retval : Int}
    (case : TurnCase wh dec d turn) (leaves : turn.leaves = some retval) : turn.out = none := by
  cases case with
  | quiet => rfl
  | emits positive e =>
    have failed : e.ret ≠ .success := by
      intro success
      have notZero : (hgapDecoderRead wh dec d).ret ≠ 0 := by omega
      have notEot : (hgapDecoderRead wh dec d).ret ≠ -1 := by omega
      have notNeg : ¬ (hgapDecoderRead wh dec d).ret < 0 := by omega
      simp [Turn.leaves, success, notZero, notNeg, Hgap.code, notEot] at leaves
    simp [failed]

/-- The chunks of a loop are those of the turns after which it goes on. -/
theorem decloop_turns {ds : List Datagram} {retval : Int} {outs : List OutChunk}
    (result : decloop wh hgapDecoderNew ds = some (retval, outs)) :
    ∃ labels dec rest, Steps (LoopTurn wh) hgapDecoderNew labels dec ∧
      ds = labels.map Prod.fst ++ rest ∧ outs = outChunks labels := by
  obtain ⟨labels, dec, run, ending⟩ := decloop_run hgapDecoderNew ds retval outs result
  rcases ending with ⟨all, -, rfl⟩ | ⟨d, rest, turn, split, hturn, leaves, rfl⟩
  · exact ⟨labels, dec, [], run, by rw [all, List.append_nil], rfl⟩
  · refine ⟨labels, dec, d :: rest, run, split, ?_⟩
    rw [leaves_out wh (turnCase wh dec d turn hturn) leaves, Option.toList_none, List.append_nil]

theorem loop_ascending {ds : List Datagram} (advance : TurnsAdvance wh ds) {retval : Int}
    {outs : List OutChunk} (result : decloop wh hgapDecoderNew ds = some (retval, outs)) :
    (outs.map OutChunk.num).Pairwise (· < ·) := by
  obtain ⟨labels, dec, rest, run, hds, rfl⟩ := decloop_turns wh result
  have guarded : Steps (Guarded (fun dec label => Advances dec label.1) (LoopTurn wh))
      hgapDecoderNew labels dec := by
    refine run.guard ?_
    intro before label after u split run
    exact advance before u label.1 (after.map Prod.fst ++ rest) (by simp [hds, split]) run
  exact ascending_run wh (guarded.mono fun _ _ _ step => ⟨step.1.readEmit, step.2⟩)

/-- `decloop` emits the chunks in ascending order, no number twice, on every sequence of
datagrams of which none starts a chunk with a number below the current one. -/
theorem decloop_ascending (ds : List Datagram) (advance : TurnsAdvance wh ds) :
    ∃ retval outs, decloop wh hgapDecoderNew ds = some (retval, outs) ∧
      (outs.map OutChunk.num).Pairwise (· < ·) := by
  obtain ⟨retval, outs, result⟩ := decloop_returns wh coherent_new ds
  exact ⟨retval, outs, result, loop_ascending wh advance result⟩

end Ascending

/-- The only packet of a chunk of one octet. -/
def octetPacket (num : UInt64) (octet : UInt8) : Datagram :=
  .zeroed (chunkPacket num [octet] 0 [octet])

/-- Two chunks in order, the packet of the second one twice. -/
theorem decloop_ascending_twoChunks :
    TurnsAdvance RepetitionCode.code
        [.begin_, octetPacket 0 7, octetPacket 1 8, octetPacket 1 8] ∧
      ∃ retval outs, decloop RepetitionCode.code hgapDecoderNew
          [.begin_, octetPacket 0 7, octetPacket 1 8, octetPacket 1 8] = some (retval, outs) ∧
        (outs.map OutChunk.num).Pairwise (· < ·) := by
  have advance := ordered_advance RepetitionCode.code
    [.begin_, octetPacket 0 7, octetPacket 1 8, octetPacket 1 8] (by decide +kernel)
  exact ⟨advance, decloop_ascending RepetitionCode.code _ advance⟩

/-- A packet of the first chunk that arrives behind the second one makes the receiver output
the first chunk again. -/
theorem lateDatagram_repeats :
    hgapCheckConfigSender ⟨fun _ => 0, fun _ => false⟩ .smallest = .success ∧
      (∃ sent, hgapSendDatagrams RepetitionCode.code .smallest 2 [7, 8] = some sent ∧
        ∀ d ∈ [.begin_, octetPacket 0 7, octetPacket 1 8, octetPacket 0 7], d.bytes ∈ sent) ∧
      ∃ outs, decloop RepetitionCode.code hgapDecoderNew
          [.begin_, octetPacket 0 7, octetPacket 1 8, octetPacket 0 7] =
            some (Hgap.success.code, outs) ∧
        outs = [⟨0, [7]⟩, ⟨1, [8]⟩, ⟨0, [7]⟩] ∧ ¬ (outs.map OutChunk.num).Pairwise (· < ·) := by
  refine ⟨by decide, ⟨(hgapSendDatagrams RepetitionCode.code .smallest 2 [7, 8]).getD [], ?_⟩,
    [⟨0, [7]⟩, ⟨1, [8]⟩, ⟨0, [7]⟩], ?_, rfl, by decide⟩
  · decide +kernel
  · decide +kernel

end Hairgap.Guarantees
