import Hairgap.Guarantees.ControlNoise
import Hairgap.Guarantees.Reception
import Mathlib.Data.List.Dedup
import Mathlib.Data.List.Sort

/-!
# The outcome of a reception

What the loop of the receiver makes of a transfer, as a function of the datagrams that arrive
between the first BEGIN and the next END: of their stretches, however they are lost, repeated and
reordered, and of the packets of each chunk as long as the chunks follow each other.
-/
namespace Hairgap.Guarantees
open Hairgap.Base Hairgap.Source

section Specification
variable {S : Type} (wh : Wirehair S) (config : HgapConfig) (chunkOf : UInt64 → Bytes)

instance (num : UInt64) (ds : List Datagram) : Decidable (Recovered wh config chunkOf num ds) := by
  unfold Recovered Recoverable
  infer_instance

/-- Numbers of the chunks that can be rebuilt, in order. -/
def recoveredNums (ds : List Datagram) : List UInt64 :=
  (dataNums ds).dedup.filter fun num => decide (Recovered wh config chunkOf num ds)

def recoveredChunks (ds : List Datagram) : List OutChunk :=
  (recoveredNums wh config chunkOf ds).map fun num => ⟨num, chunkOf num⟩

/-- The first chunk that cannot be rebuilt and has a packet of a later one behind it. -/
def firstGap (ds : List Datagram) : Option UInt64 :=
  (dataNums ds).find? fun num => decide (¬ Recovered wh config chunkOf num ds ∧
    ∃ later ∈ dataNums ds, num < later)

/-- All chunks that can be rebuilt come out, unless there is a gap: it ends the reception with an
error when the next chunk begins. -/
def outcome (ds : List Datagram) : LoopEnd × List OutChunk :=
  match firstGap wh config chunkOf ds with
  | none => (.left (-Hgap.eot.code) Hgap.success.code, recoveredChunks wh config chunkOf ds)
  | some num => (.left (-Hgap.errIncompleteChunk.code) Hgap.errIncompleteChunk.code,
      (recoveredChunks wh config chunkOf ds).filter fun out => decide (out.num < num))

variable {wh config chunkOf} {ds : List Datagram}

theorem mem_recoveredNums {num : UInt64} :
    num ∈ recoveredNums wh config chunkOf ds ↔ Recovered wh config chunkOf num ds := by
  simp only [recoveredNums, List.mem_filter, List.mem_dedup, decide_eq_true_eq]
  exact and_iff_right_of_imp fun recovered => recovered.1

theorem recoveredNums_sorted (ordered : Ordered ds) :
    (recoveredNums wh config chunkOf ds).Pairwise (· < ·) := by
  have weak : (dataNums ds).dedup.Pairwise (· ≤ ·) := ordered.sublist (List.dedup_sublist _)
  have strict : (dataNums ds).dedup.Pairwise (· < ·) :=
    (weak.and (List.nodup_dedup _)).imp fun h => UInt64.lt_of_le_of_ne h.1 h.2
  exact strict.filter _

/-- Whatever is lost, what comes out are chunks that can be rebuilt, each whole and once, in order. -/
theorem outcome_chunks (ordered : Ordered ds) : ∃ nums : List UInt64, nums.Pairwise (· < ·) ∧
    (∀ num ∈ nums, Recovered wh config chunkOf num ds) ∧
    (outcome wh config chunkOf ds).2 = nums.map fun num => ⟨num, chunkOf num⟩ := by
  have sorted : (recoveredNums wh config chunkOf ds).Pairwise (· < ·) := recoveredNums_sorted ordered
  rw [outcome]
  cases firstGap wh config chunkOf ds with
  | none => exact ⟨_, sorted, fun num member => mem_recoveredNums.mp member, rfl⟩
  | some first =>
    refine ⟨(recoveredNums wh config chunkOf ds).filter fun num => decide (num < first),
      sorted.filter _, fun num member => mem_recoveredNums.mp (List.mem_of_mem_filter member), ?_⟩
    dsimp only
    rw [recoveredChunks, List.filter_map]
    rfl

private theorem find_least {nums : List UInt64} {p : UInt64 → Bool} {least : UInt64}
    (sorted : nums.Pairwise (· ≤ ·)) (member : least ∈ nums) (holds : p least = true)
    (smallest : ∀ num ∈ nums, p num = true → least ≤ num) : nums.find? p = some least := by
  induction nums with
  | nil => cases member
  | cons num rest ih =>
    obtain ⟨above, sorted⟩ := List.pairwise_cons.mp sorted
    by_cases here : p num = true
    · have le : num ≤ least := by
        rcases List.mem_cons.mp member with rfl | later
        · exact UInt64.le_refl _
        · exact above least later
      rw [List.find?_cons_of_pos here]
      exact congrArg some (UInt64.le_antisymm le (smallest num List.mem_cons_self here))
    · rw [List.find?_cons_of_neg here]
      refine ih sorted ?_ fun later behind => smallest later (List.mem_cons_of_mem _ behind)
      refine (List.mem_cons.mp member).resolve_left ?_
      rintro rfl
      exact here holds

/-- The loop behind turns it goes on after. -/
theorem readEmitLoop_resume {dec dec' : HgapDecoder S}
    {labels : List (Datagram × Option OutChunk)} (run : Steps (LoopTurn wh) dec labels dec')
    (rest : List Datagram) :
    readEmitLoop wh dec (labels.map Prod.fst ++ rest) =
      (readEmitLoop wh dec' rest).map (Prod.map id (outChunks labels ++ ·)) := by
  induction run generalizing rest with
  | nil =>
    have same : Prod.map id (outChunks [] ++ ·) = (id : LoopEnd × List OutChunk → _) := rfl
    rw [same, Option.map_id]
    rfl
  | @snoc u v labels label _ last ih =>
    obtain ⟨turn, read, goes, out, rfl⟩ := last
    have outs : outChunks (labels ++ [label]) = outChunks labels ++ label.2.toList := by
      cases h : label.2 <;> simp [outChunks, h]
    rw [List.map_append, List.append_assoc, ih, outs]
    simp only [List.map_cons, List.map_nil, List.cons_append, List.nil_append, readEmitLoop, read,
      goes, out, Option.map_map]
    congr 1
    funext result
    simp [Prod.map]

/-- The turn the loop ends on when a read gives a negative value. -/
theorem readEmitLoop_negative {dec : HgapDecoder S} {d : Datagram}
    (negative : (hgapDecoderRead wh dec d).ret < 0) (rest : List Datagram) :
    readEmitLoop wh dec (d :: rest) = some (.left (hgapDecoderRead wh dec d).ret
      (if (hgapDecoderRead wh dec d).ret = -Hgap.eot.code then Hgap.success.code
        else -(hgapDecoderRead wh dec d).ret), []) := by
  have quiet : ¬ (hgapDecoderRead wh dec d).ret > 0 := by omega
  have notZero : (hgapDecoderRead wh dec d).ret ≠ 0 := by omega
  simp only [readEmitLoop, readEmit, if_neg quiet, Turn.leaves, if_neg notZero]
  by_cases eot : (hgapDecoderRead wh dec d).ret = -Hgap.eot.code
  · simp only [if_pos eot]
    rfl
  · simp only [if_neg eot, if_pos negative]
    rfl

/-- An END packet inside a transfer. -/
theorem readEmitLoop_end {dec : HgapDecoder S} (inside : dec.state = .tStarted ∨ dec.state = .tData)
    {e : Datagram} (ends : hgapPktType e = .end_) (rest : List Datagram) :
    readEmitLoop wh dec (e :: rest) =
      some (.left (-Hgap.eot.code) Hgap.success.code, []) := by
  have outside : ¬ Handles dec e := by
    rintro ⟨data, -⟩
    rw [ends] at data
    cases data
  have stops : dec.state.next (hgapPktType e) = .tStopped := by
    rw [ends]
    rcases inside with h | h <;> rw [h] <;> rfl
  have ret : (hgapDecoderRead wh dec e).ret = -Hgap.eot.code := by
    rw [read_idle wh dec e outside, if_pos stops]
  rw [readEmitLoop_negative (by rw [ret]; decide), ret, if_pos rfl]

/-- Whatever arrives in front of the first BEGIN packet is passed by. -/
theorem readEmitLoop_early (early rest : List Datagram)
    (unannounced : ∀ d ∈ early, hgapPktType d ≠ .begin_) :
    readEmitLoop wh hgapDecoderNew (early ++ rest) = readEmitLoop wh hgapDecoderNew rest := by
  induction early with
  | nil => rfl
  | cons d early ih =>
    have noise : IsNoise [] d := .early (unannounced d List.mem_cons_self) List.not_mem_nil
    have running : (hgapDecoderNew (S := S)).state ≠ .tStopped := nofun
    have skip := @readEmitLoop_insert S wh d (early ++ rest) [] [] noise _ rfl running
    rw [List.cons_append]
    exact skip.trans (ih fun e h => unannounced e (List.mem_cons_of_mem _ h))

section Regrouped
variable (wh config chunkOf) in
/-- What a receiver makes of packets in any order: it hands over the chunk of each stretch of packets
with one number that are enough, up to the first stretch that is cut short by another one. -/
def regrouped (pkts : List HgapPkt) : LoopEnd × List OutChunk :=
  (if Regroup.cut (Recoverable wh config chunkOf) (Regroup.stretches chunkLabel pkts) then
      .left (-Hgap.errIncompleteChunk.code) Hgap.errIncompleteChunk.code
    else .left (-Hgap.eot.code) Hgap.success.code,
  (Regroup.handed (Recoverable wh config chunkOf) (Regroup.stretches chunkLabel pkts)).map
    fun num => ⟨num, chunkOf num⟩)

theorem dataPkts_cons (d : Datagram) (ds : List Datagram) :
    dataPkts (d :: ds) = if hgapPktType d = .data then d.pkt :: dataPkts ds else dataPkts ds := by
  rw [dataPkts, dataPkts, List.filter_cons]
  by_cases data : hgapPktType d = .data
  · rw [if_pos (decide_eq_true data), if_pos data, List.map_cons]
  · rw [if_neg (by simpa using data), if_neg data]

section Loop
variable (restarts : wh.DecodeRestarts) (decodes : wh.DecodesEncoded)
  (reconstructs : wh.Reconstructs) (fits : ∀ num, (chunkOf num).length ≤ hgapMaxChunkSize)
include restarts decodes reconstructs fits

/-- The loop goes along with the receiver that only puts packets together. -/
theorem Holds.loop {held : Option (UInt64 × List HgapPkt)} {dec : HgapDecoder S}
    (holds : Holds wh config chunkOf held dec) (ds : List Datagram)
    (sent : ∀ d ∈ ds, Sent wh config chunkOf d) (running : ∀ d ∈ ds, hgapPktType d ≠ .end_)
    (rest : List Datagram) {nums : List UInt64} {last : Option (Option (UInt64 × List HgapPkt))}
    (run : Regroup.run chunkLabel (Recoverable wh config chunkOf) held (dataPkts ds) = (nums, last)) :
    (∀ held', last = some held' → ∃ dec', Holds wh config chunkOf held' dec' ∧
      readEmitLoop wh dec (ds ++ rest) = (readEmitLoop wh dec' rest).map
        (Prod.map id ((nums.map fun num => ⟨num, chunkOf num⟩) ++ ·))) ∧
    (last = none → readEmitLoop wh dec (ds ++ rest) =
      some (.left (-Hgap.errIncompleteChunk.code) Hgap.errIncompleteChunk.code,
        nums.map fun num => ⟨num, chunkOf num⟩)) := by
  induction ds generalizing held dec nums with
  | nil =>
    obtain ⟨rfl, rfl⟩ := Prod.mk.inj run
    refine ⟨?_, by rintro ⟨⟩⟩
    rintro _ ⟨⟩
    refine ⟨dec, holds, ?_⟩
    have same : Prod.map id (([] : List OutChunk) ++ ·) = (id : LoopEnd × List OutChunk → _) := rfl
    rw [List.map_nil, same, Option.map_id]
    rfl
  | cons d ds ih =>
    have here : d ∈ d :: ds := List.mem_cons_self
    have later := fun held dec nums holds run => @ih held dec holds
      (fun e h => sent e (List.mem_cons_of_mem d h)) (fun e h => running e (List.mem_cons_of_mem d h))
      nums run
    -- a turn in front of what follows
    have turns {out : Option OutChunk} {dec' : HgapDecoder S} (turn : LoopTurn wh dec (d, out) dec') :
        readEmitLoop wh dec (d :: ds ++ rest) =
          (readEmitLoop wh dec' (ds ++ rest)).map (Prod.map id (out.toList ++ ·)) := by
      have outs : outChunks [(d, out)] = out.toList := by cases out <;> rfl
      have resumed := readEmitLoop_resume (.one turn) (ds ++ rest)
      rwa [outs] at resumed
    rw [dataPkts_cons] at run
    by_cases data : hgapPktType d = .data
    · rw [if_pos data, Regroup.run] at run
      rcases holds.data restarts decodes reconstructs fits d (sent d here) data with
        ⟨held', out, dec', step, turn, next⟩ | ⟨step, ret⟩
      · rw [step] at run
        obtain ⟨rfl, rfl⟩ := Prod.mk.inj run
        obtain ⟨goes, stops⟩ := later held' dec' _ next rfl
        rw [turns turn]
        constructor
        · intro last same
          obtain ⟨dec'', ends, loop⟩ := goes last same
          refine ⟨dec'', ends, ?_⟩
          rw [loop, Option.map_map]
          congr 1
          funext result
          cases out <;> simp [Prod.map]
        · intro none
          rw [stops none]
          cases out <;> simp [Prod.map]
      · rw [step] at run
        obtain ⟨rfl, rfl⟩ := Prod.mk.inj run
        refine ⟨by rintro _ ⟨⟩, fun _ => ?_⟩
        rw [List.cons_append, readEmitLoop_negative (by rw [ret]; decide), ret]
        rfl
    · rw [if_neg data] at run
      obtain ⟨dec', turn, next⟩ := holds.control restarts reconstructs d (sent d here) data
        (running d here)
      have through : (Prod.map id ((none : Option OutChunk).toList ++ ·)) =
          (id : LoopEnd × List OutChunk → _) := rfl
      rw [turns turn, through, Option.map_id]
      exact later held dec' nums next run

section Announced
variable {early : List Datagram} (unannounced : ∀ d ∈ early, hgapPktType d ≠ .begin_) {b : Datagram}
  (begins : hgapPktType b = .begin_) (sent : ∀ d ∈ ds, Sent wh config chunkOf d)
  (running : ∀ d ∈ ds, hgapPktType d ≠ .end_)
include unannounced begins sent running

/-- The loop gets through a transfer that is announced, or stops where a stretch is cut short. -/
theorem readEmitLoop_announced (rest : List Datagram) :
    (Regroup.cut (Recoverable wh config chunkOf) (Regroup.stretches chunkLabel (dataPkts ds)) = false →
      ∃ dec : HgapDecoder S, (dec.state = .tStarted ∨ dec.state = .tData) ∧
        readEmitLoop wh hgapDecoderNew (early ++ b :: (ds ++ rest)) =
          (readEmitLoop wh dec rest).map
            (Prod.map id ((regrouped wh config chunkOf (dataPkts ds)).2 ++ ·))) ∧
    (Regroup.cut (Recoverable wh config chunkOf) (Regroup.stretches chunkLabel (dataPkts ds)) = true →
      readEmitLoop wh hgapDecoderNew (early ++ b :: (ds ++ rest)) =
        some (regrouped wh config chunkOf (dataPkts ds))) := by
  rw [readEmitLoop_early early _ unannounced]
  have outside : ¬ Handles (hgapDecoderNew (S := S)) b := by
    rintro ⟨data, -⟩
    rw [begins] at data
    cases data
  have read : hgapDecoderRead wh hgapDecoderNew b = ⟨0, startedDecoder S, 0⟩ := by
    rw [read_idle wh hgapDecoderNew b outside, begins]
    rfl
  have first : LoopTurn wh hgapDecoderNew (b, none) (startedDecoder S) := by
    have turn := @quiet_turn S wh hgapDecoderNew b (by rw [read])
    rwa [read] at turn
  have resumed := readEmitLoop_resume (.one first) (ds ++ rest)
  have through : (Prod.map id (outChunks [(b, (none : Option OutChunk))] ++ ·)) =
      (id : LoopEnd × List OutChunk → _) := rfl
  rw [through, Option.map_id, id_eq] at resumed
  simp only [List.map_cons, List.map_nil, List.cons_append, List.nil_append] at resumed
  rw [resumed]
  obtain ⟨outs, last⟩ := @Regroup.run_stretches _ _ _ chunkLabel (Recoverable wh config chunkOf) _
    (fun _ nothing => suffices_nil nothing.2) (fun _ _ pkt enough => enough.append [pkt])
    (dataPkts ds)
  cases run : Regroup.run chunkLabel (Recoverable wh config chunkOf) none (dataPkts ds) with
  | mk nums left =>
    rw [run] at outs last
    obtain ⟨goes, stops⟩ := holds_started.loop restarts decodes reconstructs fits ds sent running
      rest run
    obtain rfl : nums = _ := outs
    constructor
    · intro whole
      cases left with
      | none =>
        rw [last.mp rfl] at whole
        cases whole
      | some held =>
        obtain ⟨dec, holds, loop⟩ := goes held rfl
        exact ⟨dec, holds.inside, loop⟩
    · intro cut
      rw [stops (last.mpr cut), regrouped, if_pos cut]

/-- The loop over a transfer that is announced and ended, its packets in any order. -/
theorem readEmitLoop_regrouped {e : Datagram} (ends : hgapPktType e = .end_)
    (after : List Datagram) :
    readEmitLoop wh hgapDecoderNew (early ++ b :: (ds ++ e :: after)) =
      some (regrouped wh config chunkOf (dataPkts ds)) := by
  obtain ⟨goes, stops⟩ := readEmitLoop_announced restarts decodes reconstructs fits unannounced begins
    sent running (e :: after)
  cases cut : Regroup.cut (Recoverable wh config chunkOf)
    (Regroup.stretches chunkLabel (dataPkts ds)) with
  | true => exact stops cut
  | false =>
    obtain ⟨dec, inside, loop⟩ := goes cut
    rw [loop, readEmitLoop_end inside ends, regrouped, cut]
    simp

/-- The return value of `decloop` and its chunks do not depend on whether an END packet closes
the transfer, or the poison pill. -/
theorem decloop_regrouped {rest : List Datagram}
    (closed : ∀ e after, rest = e :: after → hgapPktType e = .end_) :
    decloop wh hgapDecoderNew (early ++ b :: (ds ++ rest)) =
      some ((regrouped wh config chunkOf (dataPkts ds)).1.retval,
        (regrouped wh config chunkOf (dataPkts ds)).2) := by
  rw [decloop_readEmitLoop]
  cases rest with
  | cons e after =>
    rw [readEmitLoop_regrouped restarts decodes reconstructs fits unannounced begins sent running
      (closed e after rfl) after]
    rfl
  | nil =>
    obtain ⟨goes, stops⟩ := readEmitLoop_announced restarts decodes reconstructs fits unannounced
      begins sent running []
    cases cut : Regroup.cut (Recoverable wh config chunkOf)
      (Regroup.stretches chunkLabel (dataPkts ds)) with
    | true =>
      rw [stops cut]
      rfl
    | false =>
      obtain ⟨dec, inside, loop⟩ := goes cut
      rw [loop, regrouped, cut]
      simp [readEmitLoop, LoopEnd.retval]

end Announced

end Loop

end Regrouped

section Grouped

theorem dataPkts_nums (ds : List Datagram) : (dataPkts ds).map chunkLabel = dataNums ds := by
  induction ds with
  | nil => rfl
  | cons d ds ih =>
    have split := dataNums_append [d] ds
    rw [List.singleton_append] at split
    rw [dataPkts_cons, split, ← ih]
    by_cases data : hgapPktType d = .data
    · rw [if_pos data, dataNums_data data]
      rfl
    · rw [if_neg data, dataNums_other data]
      rfl

theorem dataPkts_packetsOf (whole : ∀ d ∈ ds, hgapHeaderLen ≤ d.bytes.length) {num : UInt64}
    (low : num < hgapFirstReserved) :
    (dataPkts ds).filter (fun pkt => decide (chunkLabel pkt = num)) = packetsOf num ds := by
  induction ds with
  | nil => rfl
  | cons d ds ih =>
    have later := ih fun e h => whole e (List.mem_cons_of_mem d h)
    have split := packetsOf_append num [d] ds
    rw [List.singleton_append] at split
    rw [dataPkts_cons, split, ← later]
    by_cases data : hgapPktType d = .data
    · rw [if_pos data, ← List.singleton_append, List.filter_append]
      rfl
    · rw [if_neg data, packetsOf_other (control_num (whole d List.mem_cons_self) data low)]
      rfl

/-- Packets whose chunks follow each other form one stretch a chunk. -/
theorem stretches_ordered (whole : ∀ d ∈ ds, hgapHeaderLen ≤ d.bytes.length) (ordered : Ordered ds) :
    ((Regroup.stretches chunkLabel (dataPkts ds)).map Prod.fst).Pairwise (· < ·) ∧
      (∀ num, num ∈ (Regroup.stretches chunkLabel (dataPkts ds)).map Prod.fst ↔ num ∈ dataNums ds) ∧
      ∀ g ∈ Regroup.stretches chunkLabel (dataPkts ds),
        (Regroup.complete (Recoverable wh config chunkOf) g = true ↔
          Recovered wh config chunkOf g.1 ds) := by
  have sorted : ((dataPkts ds).map chunkLabel).Pairwise (· ≤ ·) := by
    rw [dataPkts_nums]
    exact ordered
  obtain ⟨ascending, labels, own⟩ := Regroup.stretches_sorted UInt64.le_antisymm sorted
  rw [dataPkts_nums] at labels
  refine ⟨ascending.imp fun h => UInt64.lt_of_le_of_ne h.1 h.2, labels, fun g member => ?_⟩
  have seen := (labels g.1).mp (List.mem_map_of_mem member)
  rw [Regroup.complete, decide_eq_true_iff, own g member, dataPkts_packetsOf whole (dataNums_low seen)]
  exact (and_iff_right seen).symm

/-- The outcome does not depend on the order inside the chunks. -/
theorem regrouped_ordered (whole : ∀ d ∈ ds, hgapHeaderLen ≤ d.bytes.length) (ordered : Ordered ds) :
    regrouped wh config chunkOf (dataPkts ds) = outcome wh config chunkOf ds := by
  obtain ⟨ascending, labels, complete⟩ :=
    @stretches_ordered S wh config chunkOf ds whole ordered
  rw [regrouped, outcome]
  generalize Regroup.stretches chunkLabel (dataPkts ds) = gs at ascending labels complete
  cases cut : Regroup.cut (Recoverable wh config chunkOf) gs with
  | false =>
    have gap : firstGap wh config chunkOf ds = none := by
      apply List.find?_eq_none.mpr
      intro num seen found
      obtain ⟨missing, later, behind, less⟩ := of_decide_eq_true found
      obtain ⟨g, hg, rfl⟩ := List.mem_map.mp ((labels num).mpr seen)
      obtain ⟨h, hh, rfl⟩ := List.mem_map.mp ((labels later).mpr behind)
      have incomplete : Regroup.complete (Recoverable wh config chunkOf) g = false := by
        rw [← Bool.not_eq_true, complete g hg]
        exact missing
      obtain ⟨front, rfl⟩ := Regroup.incomplete_last cut hg incomplete
      rw [List.map_append, List.pairwise_append] at ascending
      rcases List.mem_append.mp hh with early | last
      · have before := ascending.2.2 h.1 (List.mem_map_of_mem early) g.1 (by simp)
        exact absurd before (UInt64.lt_asymm less)
      · rw [List.mem_singleton.mp last] at less
        exact UInt64.lt_irrefl _ less
    rw [gap, Regroup.handed_whole cut, recoveredChunks]
    refine congrArg (Prod.mk _) (congrArg (List.map _) ?_)
    refine (ascending.sublist (List.filter_sublist.map _)).eq_of_mem_iff
      (recoveredNums_sorted ordered) fun num => ?_
    rw [mem_recoveredNums]
    constructor
    · intro member
      obtain ⟨g, hg, rfl⟩ := List.mem_map.mp member
      obtain ⟨inside, enough⟩ := List.mem_filter.mp hg
      exact (complete g inside).mp enough
    · intro recovered
      obtain ⟨g, hg, rfl⟩ := List.mem_map.mp ((labels num).mpr recovered.1)
      exact List.mem_map_of_mem (List.mem_filter.mpr ⟨hg, (complete g hg).mpr recovered⟩)
  | true =>
    obtain ⟨front, g, h, rest, rfl, all, incomplete, handed⟩ := Regroup.handed_cut cut
    have hg : g ∈ front ++ g :: h :: rest := by simp
    have hh : h ∈ front ++ g :: h :: rest := by simp
    have missing : ¬ Recovered wh config chunkOf g.1 ds := by
      rw [← complete g hg, incomplete]
      exact Bool.false_ne_true
    obtain ⟨early, late, apart⟩ := List.pairwise_append.mp (List.map_append ▸ ascending)
    have behind := (List.pairwise_cons.mp late).1
    -- a stretch is one of those in front of the first incomplete one, that one, or a later one
    have cases_ {num : UInt64} (seen : num ∈ dataNums ds) :
        Recovered wh config chunkOf num ds ∧ num ∈ front.map Prod.fst ∨ num = g.1 ∨ g.1 < num := by
      obtain ⟨f, hf, rfl⟩ := List.mem_map.mp ((labels num).mpr seen)
      rcases List.mem_append.mp hf with first | more
      · exact .inl ⟨(complete f hf).mp (all f first), List.mem_map_of_mem first⟩
      · rcases List.mem_cons.mp more with rfl | later
        · exact .inr (.inl rfl)
        · exact .inr (.inr (behind f.1 (List.mem_map_of_mem later)))
    have gap : firstGap wh config chunkOf ds = some g.1 := by
      refine find_least ordered ((labels g.1).mp (List.mem_map_of_mem hg)) (decide_eq_true
        ⟨missing, h.1, (labels h.1).mp (List.mem_map_of_mem hh), behind h.1 (by simp)⟩)
        fun num seen found => ?_
      rcases cases_ seen with ⟨recovered, -⟩ | rfl | later
      · exact absurd recovered (of_decide_eq_true found).1
      · exact UInt64.le_refl _
      · exact UInt64.le_of_lt later
    rw [gap, handed]
    dsimp only
    rw [if_pos rfl, recoveredChunks, List.filter_map]
    refine congrArg (Prod.mk _) (congrArg (List.map _) ?_)
    refine early.eq_of_mem_iff ((recoveredNums_sorted ordered).filter _) fun num => ?_
    rw [List.mem_filter, mem_recoveredNums, Function.comp_apply, decide_eq_true_eq]
    constructor
    · intro first
      obtain ⟨f, hf, rfl⟩ := List.mem_map.mp first
      exact ⟨(complete f (List.mem_append_left _ hf)).mp (all f hf), apart f.1 first g.1 (by simp)⟩
    · rintro ⟨recovered, less⟩
      rcases cases_ recovered.1 with ⟨-, first⟩ | rfl | later
      · exact first
      · exact absurd less (UInt64.lt_irrefl _)
      · exact absurd later (UInt64.lt_asymm less)

end Grouped

section Outcome
variable (restarts : wh.DecodeRestarts) (decodes : wh.DecodesEncoded)
  (reconstructs : wh.Reconstructs) (fits : ∀ num, (chunkOf num).length ≤ hgapMaxChunkSize)
  {early : List Datagram} (unannounced : ∀ d ∈ early, hgapPktType d ≠ .begin_) {b : Datagram}
  (begins : hgapPktType b = .begin_) (sent : ∀ d ∈ ds, Sent wh config chunkOf d)
  (running : ∀ d ∈ ds, hgapPktType d ≠ .end_) (ordered : Ordered ds)
include restarts decodes reconstructs fits unannounced begins sent running ordered

/-- The loop over a transfer that is announced and ended. -/
theorem readEmitLoop_outcome {e : Datagram} (ends : hgapPktType e = .end_)
    (after : List Datagram) :
    readEmitLoop wh hgapDecoderNew (early ++ b :: (ds ++ e :: after)) =
      some (outcome wh config chunkOf ds) := by
  rw [← regrouped_ordered (fun d h => (sent d h).whole) ordered]
  exact readEmitLoop_regrouped restarts decodes reconstructs fits unannounced begins sent running
    ends after

theorem decloop_outcome {rest : List Datagram}
    (closed : ∀ e after, rest = e :: after → hgapPktType e = .end_) :
    decloop wh hgapDecoderNew (early ++ b :: (ds ++ rest)) =
      some ((outcome wh config chunkOf ds).1.retval, (outcome wh config chunkOf ds).2) := by
  rw [← regrouped_ordered (fun d h => (sent d h).whole) ordered]
  exact decloop_regrouped restarts decodes reconstructs fits unannounced begins sent running closed

end Outcome

end Specification

end Hairgap.Guarantees
