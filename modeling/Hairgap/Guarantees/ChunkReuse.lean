import Hairgap.Source.Emission
import Hairgap.Source.RepetitionCode

/-!
# Using a chunk structure again

`hgap_enc_chunk_init` sets every field an emission reads but one: the octets counted so
far stay, and the redundancy is computed from them.
-/
namespace Hairgap.Guarantees
open Hairgap.Base Hairgap.Source

section
variable {S : Type} (wh : Wirehair S)

/-- Payload octets a packet of an encoder has room for; the subtraction wraps. -/
def payloadRoom (pktSize : Nat) : Nat :=
  if hgapHeaderLen ≤ pktSize then pktSize - hgapHeaderLen else 2 ^ 64 - hgapHeaderLen + pktSize

/-- No emission of a chunk of this content writes a packet: the encoder's packets are
shorter than a header, or the code writes none of the blocks. -/
def Unwritten (enc : HgapEncoder) (content : Bytes) : Prop :=
  if content.length ≤ payloadRoom enc.pktSize then enc.pktSize < hgapHeaderLen
  else ∀ ident,
    ((wh.encode none content (payloadRoom enc.pktSize)).bind (wh.write · ident)) = none

/-- Octets counted before that no quotient of a chunk of this content shows. -/
def Absorbed (total : Nat) (enc : HgapEncoder) (content : Bytes) : Prop :=
  ∀ count, 0 < count →
    Arithmetic.quotient (Arithmetic.counter
      (total + count * min (payloadRoom enc.pktSize) content.length)) content.length =
        redundOf (min (payloadRoom enc.pktSize) content.length) content.length count

/-- Two chunks that differ in what they have counted. The codec state of a chunk that fits one
packet is never read. -/
structure Recounted (fresh again : HgapEncChunk S) : Prop where
  same : again = { fresh with totalGen := again.totalGen, whState := again.whState }
  whState : hgapEncChunkIsSmall fresh = false → again.whState = fresh.whState

/-- Payload octets of each packet of a chunk. -/
def packetSize (chunk : HgapEncChunk S) : Nat :=
  if hgapEncChunkIsSmall chunk then chunk.len else hgapEncChunkPktPayloadSize chunk

/-- Emissions of two such chunks: the same packet, and each adds its octets to its own count. -/
inductive EmitAlike (fresh again : HgapEncChunk S) : Option (Emitted S) → Option (Emitted S) → Prop
  | ended : EmitAlike fresh again none none
  | lost : EmitAlike fresh again
      (some ⟨.fin (-1), none, { fresh with nextPktId := fresh.nextPktId + 1 }⟩)
      (some ⟨.fin (-1), none, { again with nextPktId := again.nextPktId + 1 }⟩)
  | sent (size : Nat) (counted : packetSize fresh = size) (pkt : Bytes × Nat) :
      EmitAlike fresh again
        (some ⟨Arithmetic.quotient (Arithmetic.counter (fresh.totalGen + size)) fresh.len, some pkt,
          fresh.emitted size⟩)
        (some ⟨Arithmetic.quotient (Arithmetic.counter (again.totalGen + size)) fresh.len, some pkt,
          again.emitted size⟩)

variable {wh} {fresh again : HgapEncChunk S}

theorem Recounted.emitted (recounted : Recounted fresh again) (size : Nat) :
    Recounted (fresh.emitted size) (again.emitted size) := by
  obtain ⟨same, whState⟩ := recounted
  refine ⟨?_, whState⟩
  rw [same]
  rfl

theorem Recounted.skipped (recounted : Recounted fresh again) :
    Recounted { fresh with nextPktId := fresh.nextPktId + 1 }
      { again with nextPktId := again.nextPktId + 1 } := by
  obtain ⟨same, whState⟩ := recounted
  refine ⟨?_, whState⟩
  rw [same]

variable (wh) in
theorem Recounted.emit (recounted : Recounted fresh again) :
    EmitAlike fresh again (hgapEncChunkEmit wh fresh) (hgapEncChunkEmit wh again) := by
  obtain ⟨same, hstate⟩ := recounted
  obtain ⟨_, _, _, _, whState, _, total⟩ := fresh
  obtain ⟨num, len, pktSize, ident, state, data, total'⟩ := again
  obtain ⟨rfl, rfl, rfl, rfl, -, rfl, -⟩ := HgapEncChunk.mk.inj same
  cases small : hgapEncChunkIsSmall ⟨num, len, pktSize, ident, whState, data, total⟩ with
  | true =>
    have small' : hgapEncChunkIsSmall
        ⟨num, len, pktSize, ident, state, data, total'⟩ = true := small
    have size : packetSize ⟨num, len, pktSize, ident, whState, data, total⟩ = len := if_pos small
    rw [emit_small wh small, emit_small wh small']
    by_cases whole : len + hgapHeaderLen = pktSize
    · rw [if_pos whole, if_pos whole]
      cases data with
      | none => exact .ended
      | some data => exact .sent len (if_pos small) _
    · rw [if_neg whole, if_neg whole]
      exact .ended
  | false =>
    obtain rfl := hstate small
    have small' : hgapEncChunkIsSmall
        ⟨num, len, pktSize, ident, state, data, total'⟩ = false := small
    rw [emit_coded wh small, emit_coded wh small']
    cases state.bind fun state => wh.write state ident.toUInt32 with
    | none => exact .lost
    | some block => exact .sent _ (by rw [packetSize, small]; rfl) _

/-- Counts that every further packet turns into the same quotient. -/
def Agree (total total' size len : Nat) : Prop :=
  ∀ count, 0 < count → Arithmetic.quotient (Arithmetic.counter (total' + count * size)) len =
    Arithmetic.quotient (Arithmetic.counter (total + count * size)) len

/-- Behind one packet more. -/
theorem quotient_next (total size len count : Nat) :
    Arithmetic.quotient (Arithmetic.counter (Arithmetic.counter (total + size) + count * size)) len =
      Arithmetic.quotient (Arithmetic.counter (total + (count + 1) * size)) len := by
  rw [Arithmetic.counter_add, Nat.add_assoc, Nat.add_mul, Nat.one_mul, Nat.add_comm size]

/-- Counts that agree give the same calls. -/
theorem Recounted.emissions_eq (recounted : Recounted fresh again)
    (agree : Agree fresh.totalGen again.totalGen (packetSize fresh) fresh.len) (n : Nat) :
    emissions wh n again = emissions wh n fresh := by
  induction n generalizing fresh again with
  | zero => rfl
  | succ n ih =>
    have step := recounted.emit wh
    simp only [emissions]
    generalize hgapEncChunkEmit wh fresh = e at step ⊢
    generalize hgapEncChunkEmit wh again = e' at step ⊢
    cases step with
    | ended => rfl
    | lost => simp only [ih recounted.skipped agree]
    | sent size counted pkt =>
      obtain rfl := counted
      have first := agree 1 Nat.one_pos
      rw [Nat.one_mul] at first
      have later := ih (recounted.emitted _) fun count pos => by
        have next := agree (count + 1) (Nat.succ_pos count)
        rwa [← quotient_next, ← quotient_next] at next
      simp only [later, first]

/-- No emission of this chunk writes a packet. -/
def Silent (wh : Wirehair S) (chunk : HgapEncChunk S) : Prop :=
  if hgapEncChunkIsSmall chunk then chunk.data = none ∨ chunk.len + hgapHeaderLen ≠ chunk.pktSize
  else ∀ ident, chunk.whState.bind (wh.write · ident) = none

theorem Recounted.silent (recounted : Recounted fresh again) (silent : Silent wh fresh) (n : Nat) :
    emissions wh n again = emissions wh n fresh := by
  induction n generalizing fresh again with
  | zero => rfl
  | succ n ih =>
    have step := recounted.emit wh
    cases small : hgapEncChunkIsSmall fresh with
    | true =>
      have ended : hgapEncChunkEmit wh fresh = none := by
        rw [Silent, if_pos small] at silent
        rw [emit_small wh small]
        rcases silent with absent | misfit
        · rw [absent, Option.map_none, ite_self]
        · rw [if_neg misfit]
      simp only [emissions, ended] at step ⊢
      generalize hgapEncChunkEmit wh again = e' at step ⊢
      cases step
      rfl
    | false =>
      have unwritten := silent
      rw [Silent, small, if_neg Bool.false_ne_true] at unwritten
      have lost := emit_coded wh small
      simp only [unwritten] at lost
      simp only [emissions]
      generalize hgapEncChunkEmit wh fresh = e at step lost ⊢
      generalize hgapEncChunkEmit wh again = e' at step ⊢
      cases step with
      | ended => cases lost
      | lost => simp only [ih recounted.skipped silent]
      | sent => cases (Emitted.mk.inj (Option.some.inj lost)).2.1

/-- Chunks whose calls give the same behind the first packet that is written. -/
structure SentAlike (wh : Wirehair S) (fresh again : HgapEncChunk S) : Prop where
  recounted : Recounted fresh again
  same : ∀ n, emissions wh n again = emissions wh n fresh
  written : ¬ Silent wh fresh

/-- A call of two such chunks: both skip a packet, or both write one with the same quotient. -/
theorem SentAlike.next (sent : SentAlike wh fresh again) :
    (hgapEncChunkEmit wh fresh = none) ∨
    (hgapEncChunkEmit wh fresh =
        some ⟨.fin (-1), none, { fresh with nextPktId := fresh.nextPktId + 1 }⟩ ∧
      SentAlike wh { fresh with nextPktId := fresh.nextPktId + 1 }
        { again with nextPktId := again.nextPktId + 1 }) ∨
    (Arithmetic.quotient (Arithmetic.counter (again.totalGen + packetSize fresh)) fresh.len =
        Arithmetic.quotient (Arithmetic.counter (fresh.totalGen + packetSize fresh)) fresh.len ∧
      SentAlike wh (fresh.emitted (packetSize fresh)) (again.emitted (packetSize fresh))) := by
  have step := sent.recounted.emit wh
  have same (n : Nat) := sent.same (n + 1)
  simp only [emissions] at same
  generalize hgapEncChunkEmit wh fresh = e at step same ⊢
  generalize hgapEncChunkEmit wh again = e' at step same
  cases step with
  | ended => exact .inl rfl
  | lost =>
    refine .inr (.inl ⟨rfl, sent.recounted.skipped, fun n => ?_, sent.written⟩)
    exact Option.map_injective List.cons_injective (same n)
  | sent size counted pkt =>
    obtain rfl := counted
    have first := same 0
    simp only [emissions, Option.map_some, Option.some.injEq, List.cons.injEq, Prod.mk.injEq,
      and_true] at first
    refine .inr (.inr ⟨first, sent.recounted.emitted _, fun n => ?_, sent.written⟩)
    have later := same n
    rw [first] at later
    exact Option.map_injective List.cons_injective later

/-- A chunk that writes some packet always answers, and writes one after some calls. -/
theorem written_after (written : ¬ Silent wh fresh) :
    hgapEncChunkEmit wh fresh ≠ none ∧ ∃ k e, hgapEncChunkEmit wh
      { fresh with nextPktId := fresh.nextPktId + UInt64.ofNat k } = some e ∧ e.pkt ≠ none := by
  cases small : hgapEncChunkIsSmall fresh with
  | true =>
    rw [Silent, if_pos small, not_or, not_not] at written
    obtain ⟨present, fits⟩ := written
    obtain ⟨data, held⟩ := Option.ne_none_iff_exists'.mp present
    have emits (ident : UInt64) : ∃ e, hgapEncChunkEmit wh { fresh with nextPktId := ident } =
        some e ∧ e.pkt ≠ none := by
      have small : hgapEncChunkIsSmall { fresh with nextPktId := ident } = true := small
      rw [emit_small wh small, if_pos fits, held]
      exact ⟨_, rfl, Option.some_ne_none _⟩
    obtain ⟨e, emit, -⟩ := emits fresh.nextPktId
    refine ⟨fun none => ?_, 0, emits _⟩
    rw [emit] at none
    cases none
  | false =>
    rw [Silent, small, if_neg Bool.false_ne_true, not_forall] at written
    obtain ⟨ident, written⟩ := written
    refine ⟨fun none => ?_, (ident.toUInt64 - fresh.nextPktId).toNat, ?_⟩
    · rw [emit_coded wh small] at none
      split at none <;> cases none
    · have at_ : (fresh.nextPktId + UInt64.ofNat (ident.toUInt64 - fresh.nextPktId).toNat).toUInt32 =
          ident := by
        rw [UInt64.ofNat_toNat, UInt64.add_comm, UInt64.sub_add_cancel, UInt32.toUInt32_toUInt64]
      obtain ⟨block, written⟩ := Option.ne_none_iff_exists'.mp written
      have small (ident : UInt64) :
          hgapEncChunkIsSmall { fresh with nextPktId := ident } = false := small
      rw [emit_coded wh (small _)]
      simp only [at_, written]
      exact ⟨_, rfl, Option.some_ne_none _⟩

/-- The first packet that is written. -/
theorem SentAlike.first (sent : SentAlike wh fresh again) :
    Arithmetic.quotient (Arithmetic.counter (again.totalGen + packetSize fresh)) fresh.len =
        Arithmetic.quotient (Arithmetic.counter (fresh.totalGen + packetSize fresh)) fresh.len ∧
      ∃ ident ident' : UInt64,
        SentAlike wh ({ fresh with nextPktId := ident }.emitted (packetSize fresh))
          ({ again with nextPktId := ident' }.emitted (packetSize fresh)) := by
  obtain ⟨-, k, e, emit, some_⟩ := written_after sent.written
  induction k generalizing fresh again with
  | zero =>
    have start : fresh.nextPktId + UInt64.ofNat 0 = fresh.nextPktId := UInt64.add_zero _
    rw [start] at emit
    rcases sent.next with none | ⟨lost, -⟩ | ⟨first, next⟩
    · exact absurd none (written_after sent.written).1
    · obtain rfl := Option.some.inj (emit.symm.trans lost)
      exact absurd rfl some_
    · exact ⟨first, _, _, next⟩
  | succ k ih =>
    rcases sent.next with none | ⟨-, next⟩ | ⟨first, next⟩
    · exact absurd none (written_after sent.written).1
    · have shift : fresh.nextPktId + UInt64.ofNat (k + 1) =
          fresh.nextPktId + 1 + UInt64.ofNat k := by
        rw [UInt64.ofNat_add, UInt64.add_comm (UInt64.ofNat k), ← UInt64.add_assoc]
        rfl
      rw [shift] at emit
      obtain ⟨first, ident, ident', later⟩ := ih next emit
      exact ⟨first, ident, ident', later⟩
    · exact ⟨first, _, _, next⟩

theorem SentAlike.agree (sent : SentAlike wh fresh again) :
    Agree fresh.totalGen again.totalGen (packetSize fresh) fresh.len := by
  intro count pos
  induction count generalizing fresh again with
  | zero => exact absurd pos (Nat.lt_irrefl 0)
  | succ count ih =>
    obtain ⟨first, ident, ident', next⟩ := sent.first
    rcases Nat.eq_zero_or_pos count with rfl | pos
    · rw [Nat.zero_add, Nat.one_mul]
      exact first
    · have later := ih next pos
      rw [← quotient_next, ← quotient_next]
      exact later

theorem Recounted.same_iff (recounted : Recounted fresh again) :
    (∀ n, emissions wh n again = emissions wh n fresh) ↔
      Agree fresh.totalGen again.totalGen (packetSize fresh) fresh.len ∨ Silent wh fresh := by
  constructor
  · intro same
    exact (Classical.em (Silent wh fresh)).symm.imp_left fun written =>
      SentAlike.agree ⟨recounted, same, written⟩
  · rintro (agree | silent) n
    · exact recounted.emissions_eq agree n
    · exact recounted.silent silent n

/-- What `hgap_enc_chunk_init` makes of a structure, next to a new one. -/
structure Restarted (wh : Wirehair S) (enc : HgapEncoder) (content : Bytes)
    (old again fresh : HgapEncChunk S) : Prop where
  recounted : Recounted fresh again
  agree : Agree fresh.totalGen again.totalGen (packetSize fresh) fresh.len ↔
    Absorbed old.totalGen enc content
  silent : Silent wh fresh ↔ Unwritten wh enc content

theorem payloadRoom_min (pktSize len : Nat) :
    len ≤ payloadRoom (min pktSize (len + hgapHeaderLen)) ↔ len ≤ payloadRoom pktSize := by
  unfold payloadRoom hgapHeaderLen
  split <;> split <;> omega

/-- An initialised chunk, up to the two fields its structure had before. -/
def initialised (enc : HgapEncoder) (content : Bytes) (state : Option S) (total : Nat) :
    HgapEncChunk S :=
  ⟨enc.nextChunkNum, content.length, min enc.pktSize (content.length + hgapHeaderLen), 0, state,
    some content, total⟩

section
variable (enc : HgapEncoder) (content : Bytes)

theorem initialised_isSmall (state : Option S) (total : Nat) :
    hgapEncChunkIsSmall (initialised enc content state total) =
      decide (content.length ≤ payloadRoom enc.pktSize) :=
  decide_eq_decide.mpr (payloadRoom_min enc.pktSize content.length)

theorem initialised_recounted (total : Nat) (state state' : Option S)
    (same : ¬ content.length ≤ payloadRoom enc.pktSize → state' = state) :
    Recounted (initialised enc content state 0) (initialised enc content state' total) := by
  refine ⟨rfl, fun coded => ?_⟩
  rw [initialised_isSmall] at coded
  exact same (of_decide_eq_false coded)

/-- The packets of a chunk that does not fit one are as large as the encoder's. -/
theorem pktSize_coded {enc : HgapEncoder} {content : Bytes}
    (long : ¬ content.length ≤ payloadRoom enc.pktSize) :
    min enc.pktSize (content.length + hgapHeaderLen) = enc.pktSize := by
  unfold payloadRoom hgapHeaderLen at long
  unfold hgapHeaderLen
  split at long <;> omega

theorem initialised_packetSize (state : Option S) (total : Nat) :
    packetSize (initialised enc content state total) =
      min (payloadRoom enc.pktSize) content.length := by
  rw [packetSize, initialised_isSmall]
  by_cases small : content.length ≤ payloadRoom enc.pktSize
  · rw [decide_eq_true small, if_pos rfl, Nat.min_eq_right small]
    rfl
  · rw [decide_eq_false small, if_neg Bool.false_ne_true,
      Nat.min_eq_left (Nat.le_of_not_le small)]
    exact congrArg payloadRoom (pktSize_coded small)

theorem initialised_agree (total : Nat) (state state' : Option S) :
    Agree (initialised enc content state 0).totalGen (initialised enc content state' total).totalGen
      (packetSize (initialised enc content state 0)) (initialised enc content state 0).len ↔
        Absorbed total enc content := by
  unfold Agree Absorbed redundOf
  simp only [initialised_packetSize]
  simp only [initialised, Nat.zero_add]

theorem encChunkInit_fits (old : HgapEncChunk S)
    (small : content.length ≤ payloadRoom enc.pktSize) :
    hgapEncChunkInit wh enc old content =
      (.success, { enc with nextChunkNum := enc.nextChunkNum + 1 },
        initialised enc content old.whState old.totalGen) := by
  have hsmall := (initialised_isSmall enc content old.whState old.totalGen).trans
    (decide_eq_true small)
  unfold hgapEncChunkInit
  exact if_pos hsmall

variable (wh) in
theorem encChunkInit_coded (old : HgapEncChunk S)
    (long : ¬ content.length ≤ payloadRoom enc.pktSize) :
    hgapEncChunkInit wh enc old content =
      (if (wh.encode old.whState content (payloadRoom enc.pktSize)).isSome then .success
        else .errWirehairError, { enc with nextChunkNum := enc.nextChunkNum + 1 },
        initialised enc content (wh.encode old.whState content (payloadRoom enc.pktSize))
          old.totalGen) := by
  have coded := (initialised_isSmall enc content old.whState old.totalGen).trans
    (decide_eq_false long)
  have payload : hgapEncChunkPktPayloadSize
      (initialised enc content old.whState old.totalGen) = payloadRoom enc.pktSize :=
    congrArg payloadRoom (pktSize_coded long)
  unfold hgapEncChunkInit
  extract_lets started enc' again
  have hstarted : started = initialised enc content old.whState old.totalGen := rfl
  rw [← hstarted] at coded payload
  have hstate : again = initialised enc content
      (wh.encode old.whState content (payloadRoom enc.pktSize)) old.totalGen := by
    rw [← payload]
    rfl
  rw [coded, if_neg Bool.false_ne_true, hstate]
  cases encoded : wh.encode old.whState content (payloadRoom enc.pktSize) <;> rfl

theorem encChunkInit_restarted (restarts : wh.EncodeRestarts) (old : HgapEncChunk S) :
    ∃ verdict enc' again fresh,
      hgapEncChunkInit wh enc old content = (verdict, enc', again) ∧
      hgapEncChunkInit wh enc hgapEncChunkNew content = (verdict, enc', fresh) ∧
      Restarted wh enc content old again fresh := by
  by_cases small : content.length ≤ payloadRoom enc.pktSize
  · refine ⟨_, _, _, _, encChunkInit_fits enc content old small,
      encChunkInit_fits enc content _ small, initialised_recounted enc content _ _ _ (absurd small),
      initialised_agree enc content _ _ _, ?_⟩
    rw [Silent, if_pos ((initialised_isSmall ..).trans (decide_eq_true small)), Unwritten,
      if_pos small]
    simp only [initialised, reduceCtorEq, false_or]
    unfold payloadRoom hgapHeaderLen at small
    unfold hgapHeaderLen
    split at small <;> omega
  · have encode : wh.encode old.whState content (payloadRoom enc.pktSize) =
        wh.encode none content (payloadRoom enc.pktSize) := by
      cases old.whState with
      | none => rfl
      | some state => exact restarts state content _
    have again := encChunkInit_coded wh enc content old small
    rw [encode] at again
    refine ⟨_, _, _, _, again, encChunkInit_coded wh enc content _ small,
      initialised_recounted enc content _ _ _ fun _ => rfl, initialised_agree enc content _ _ _, ?_⟩
    rw [Silent, (initialised_isSmall ..).trans (decide_eq_false small),
      if_neg Bool.false_ne_true, Unwritten, if_neg small]
    rfl

end

/-- The quotients of the machine tell totals of up to 2^49 octets from all others. -/
theorem quotient_inj {total total' len : Nat} (nonempty : 0 < len) (small : total ≤ 2 ^ 49)
    (same : Arithmetic.quotient total' len = Arithmetic.quotient total len) : total' = total := by
  have len_pos : (0 : Rat) < len := Nat.cast_pos.mpr nonempty
  have total_le : (total : Rat) ≤ 2 ^ 49 := by exact_mod_cast small
  obtain ⟨q, value, close⟩ := Arithmetic.quotient_close total nonempty
  obtain ⟨q', value', close'⟩ := Arithmetic.quotient_close total' nonempty
  obtain rfl : q' = q := Double.fin.inj (value'.symm.trans (same.trans value))
  -- both totals within a small part of themselves of the same number
  have bounds (t : Nat) (close : |q' - t / len| ≤ (t / len : Rat) / 2 ^ 51) :
      (t : Rat) * (1 - 1 / 2 ^ 51) ≤ q' * len ∧ q' * len ≤ t * (1 + 1 / 2 ^ 51) := by
    have cancel : (t : Rat) / len * len = t := div_mul_cancel₀ _ len_pos.ne'
    obtain ⟨low, high⟩ := abs_le.mp close
    have low := mul_le_mul_of_nonneg_right low len_pos.le
    have high := mul_le_mul_of_nonneg_right high len_pos.le
    constructor
    · linarith
    · linarith
  obtain ⟨low, high⟩ := bounds total close
  obtain ⟨low', high'⟩ := bounds total' close'
  rcases Nat.lt_trichotomy total' total with below | equal | above
  · have gap : (total' : Rat) + 1 ≤ total := by exact_mod_cast below
    linarith
  · exact equal
  · have gap : (total : Rat) + 1 ≤ total' := by exact_mod_cast above
    linarith

/-- A chunk of up to 2^49 octets absorbs none. -/
theorem absorbed_iff (total : Nat) (enc : HgapEncoder) {content : Bytes}
    (short : content.length ≤ 2 ^ 49) : Absorbed total enc content ↔ total % 2 ^ 64 = 0 := by
  have size_le : min (payloadRoom enc.pktSize) content.length ≤ content.length :=
    Nat.min_le_right _ _
  generalize hsize : min (payloadRoom enc.pktSize) content.length = size at size_le
  constructor
  · intro absorbed
    have first := absorbed 1 Nat.one_pos
    rw [redundOf, hsize, Nat.one_mul] at first
    have counted : (total + size) % 2 ^ 64 = size := by
      rcases Nat.eq_zero_or_pos content.length with empty | nonempty
      · obtain rfl : size = 0 := by omega
        -- zero by zero is no number, and anything else by zero is infinite
        by_contra some_
        have infinite : Arithmetic.quotient (Arithmetic.counter (total + 0)) 0 = .posInf :=
          if_neg some_
        rw [empty, infinite] at first
        cases first
      · rw [counter_small (show size < 2 ^ 64 by omega)] at first
        exact quotient_inj nonempty (Nat.le_trans size_le short) first
    omega
  · intro none count pos
    have wraps : Arithmetic.counter (total + count * size) = Arithmetic.counter (count * size) := by
      have := Nat.add_mod total (count * size) (2 ^ 64)
      rw [none, Nat.zero_add, Nat.mod_mod] at this
      exact this
    rw [hsize, wraps]
    rfl

/-- A structure used before behaves like a new one exactly when the octets counted on it show in
no quotient, as they do in a chunk of up to 2^49 octets unless there are none, or when no packet
is written now. -/
theorem reused_iff (restarts : wh.EncodeRestarts) (enc : HgapEncoder) (content : Bytes)
    (old : HgapEncChunk S) :
    ∃ verdict enc' again fresh,
      hgapEncChunkInit wh enc old content = (verdict, enc', again) ∧
      hgapEncChunkInit wh enc hgapEncChunkNew content = (verdict, enc', fresh) ∧
      ((∀ n, emissions wh n again = emissions wh n fresh) ↔
        Absorbed old.totalGen enc content ∨ Unwritten wh enc content) ∧
      (content.length ≤ 2 ^ 49 →
        (Absorbed old.totalGen enc content ↔ old.totalGen % 2 ^ 64 = 0)) ∧
      (Absorbed old.totalGen enc content ∨ Unwritten wh enc content → ∀ redund fuel,
        emitLoop wh redund fuel again = emitLoop wh redund fuel fresh) := by
  obtain ⟨verdict, enc', again, fresh, init, init', restarted⟩ :=
    encChunkInit_restarted enc content restarts old
  have same : (∀ n, emissions wh n again = emissions wh n fresh) ↔ _ :=
    restarted.recounted.same_iff
  rw [restarted.agree, restarted.silent] at same
  exact ⟨verdict, enc', again, fresh, init, init', same, absorbed_iff old.totalGen enc,
    fun clean redund fuel => emitLoop_congr wh (same.mpr clean) redund fuel⟩

end

section Octets

/-- A structure that was initialised but has emitted nothing may be initialised again. -/
theorem reused_iff_unemitted :
    ∃ chunk again fresh,
      hgapEncChunkInit RepetitionCode.code ⟨25, 0⟩ hgapEncChunkNew [1] =
        (.success, ⟨25, 1⟩, chunk) ∧
      hgapEncChunkInit RepetitionCode.code ⟨25, 1⟩ chunk [2, 3] = (.success, ⟨25, 2⟩, again) ∧
      hgapEncChunkInit RepetitionCode.code ⟨25, 1⟩ hgapEncChunkNew [2, 3] =
        (.success, ⟨25, 2⟩, fresh) ∧
      ∀ n, emissions RepetitionCode.code n again = emissions RepetitionCode.code n fresh := by
  have init : hgapEncChunkInit RepetitionCode.code ⟨25, 0⟩ hgapEncChunkNew [1] =
      (.success, ⟨25, 1⟩, ⟨0, 1, 25, 0, none, some [1], 0⟩) := rfl
  have answer : (hgapEncChunkInit RepetitionCode.code ⟨25, 1⟩ hgapEncChunkNew [2, 3]).1 =
      .success ∧ (hgapEncChunkInit RepetitionCode.code ⟨25, 1⟩ hgapEncChunkNew [2, 3]).2.1 =
        ⟨25, 2⟩ := by decide +kernel
  obtain ⟨verdict, enc', again, fresh, first, second, same, absorbed, -⟩ :=
    reused_iff RepetitionCode.encodeRestarts ⟨25, 1⟩ [2, 3] ⟨0, 1, 25, 0, none, some [1], 0⟩
  rw [second] at answer
  obtain ⟨rfl, rfl⟩ := answer
  exact ⟨_, again, fresh, init, first, second, same.mpr (.inl ((absorbed (by decide)).mpr rfl))⟩

/-- After one packet of `[1]`, the same structure sends `[2]` once where a new one sends it
twice. -/
theorem reused_short :
    ∃ chunk e again fresh,
      hgapEncChunkInit RepetitionCode.code ⟨25, 0⟩ hgapEncChunkNew [1] =
        (.success, ⟨25, 1⟩, chunk) ∧
      hgapEncChunkEmit RepetitionCode.code chunk = some e ∧
      hgapEncChunkInit RepetitionCode.code ⟨25, 1⟩ e.chunk [2] = (.success, ⟨25, 2⟩, again) ∧
      hgapEncChunkInit RepetitionCode.code ⟨25, 1⟩ hgapEncChunkNew [2] =
        (.success, ⟨25, 2⟩, fresh) ∧
      emissions RepetitionCode.code 1 again ≠ emissions RepetitionCode.code 1 fresh ∧
      (emitLoop RepetitionCode.code (.fin 2) 2 again).map (·.1.length) = some 1 ∧
      (emitLoop RepetitionCode.code (.fin 2) 2 fresh).map (·.1.length) = some 2 := by
  refine ⟨⟨0, 1, 25, 0, none, some [1], 0⟩, _, ⟨1, 1, 25, 0, none, some [2], 1⟩,
    ⟨1, 1, 25, 0, none, some [2], 0⟩, rfl, rfl, rfl, rfl, ?_, ?_, ?_⟩
  all_goals decide +kernel

end Octets

end Hairgap.Guarantees
