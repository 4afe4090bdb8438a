import Hairgap.Base.Blocks
import Mathlib.Data.List.Nodup
import Mathlib.Data.List.Perm.Subperm
import Hairgap.Source.Wirehair

/-!
A code that meets every assumption made about `wirehair`, so that none of them is
vacuous. Packet `id` repeats original block `id mod N`, hence the first `N` packets
are the message itself and any packet repairs the loss of its own block. It says
nothing about the strength of the real code.
-/
namespace Hairgap.Source.RepetitionCode
open Hairgap.Base

inductive State where
  | encoder (message : Bytes) (blockSize : Nat)
  | decoder (len blockSize : Nat) (got : List (UInt32 × Bytes))
  deriving DecidableEq, Repr

/-- Documented domain of both initialisers. -/
def InRange (len blockSize : Nat) : Prop :=
  0 < blockSize ∧ 2 ≤ blockCount len blockSize ∧ blockCount len blockSize ≤ hgapMaxNPkt

instance (len blockSize : Nat) : Decidable (InRange len blockSize) := by
  unfold InRange
  infer_instance

def held (got : List (UInt32 × Bytes)) (count i : Nat) : Option Bytes :=
  (got.find? fun r => r.1.toNat % count == i).map Prod.snd

def allHeld (got : List (UInt32 × Bytes)) (count : Nat) : Bool :=
  (List.range count).all fun i => (held got count i).isSome

def code : Wirehair State where
  encode _ message blockSize :=
    if InRange message.length blockSize then some (.encoder message blockSize) else none
  write
    | .encoder message blockSize, ident =>
      some (Blocks.padded blockSize 0 message
        (ident.toNat % blockCount message.length blockSize))
    | .decoder .., _ => none
  decode _ len blockSize :=
    if InRange len blockSize then some (.decoder len blockSize []) else none
  read
    | .decoder len blockSize got, ident, block =>
      (.decoder len blockSize ((ident, block) :: got),
        allHeld ((ident, block) :: got) (blockCount len blockSize))
    | state, _, _ => (state, false)
  reconstruct
    | .decoder len blockSize got =>
      if allHeld got (blockCount len blockSize) then
        some (((List.range (blockCount len blockSize)).flatMap fun i =>
          (held got (blockCount len blockSize) i).getD []).take len)
      else none
    | .encoder .. => none

theorem decodeRestarts : code.DecodeRestarts := fun _ _ _ => rfl

theorem encodeRestarts : code.EncodeRestarts := fun _ _ _ => rfl

theorem encode_some {message : Bytes} {blockSize : Nat} {enc : State}
    (encoded : code.encode none message blockSize = some enc) :
    InRange message.length blockSize ∧ enc = .encoder message blockSize := by
  simp only [code] at encoded
  split at encoded
  next h => exact ⟨h, (Option.some.inj encoded).symm⟩
  next => cases encoded

theorem writeFills : code.WriteFills := by
  intro message blockSize enc ident block encoded written
  obtain ⟨-, rfl⟩ := encode_some encoded
  simp only [code, Option.some.injEq] at written
  rw [← written, Blocks.padded_length]

theorem decodesEncoded : code.DecodesEncoded := by
  intro message blockSize enc encoded
  simp [code, (encode_some encoded).1]

theorem encodesInRange : code.EncodesInRange := by
  intro message blockSize hpos hlow hhigh
  simp [code, InRange, hpos, hlow, hhigh]

theorem writesAll : code.WritesAll := by
  intro message blockSize enc ident encoded
  obtain ⟨-, rfl⟩ := encode_some encoded
  simp [code]

theorem feed_decoder (len blockSize : Nat) (got reads : List (UInt32 × Bytes)) :
    code.feed (.decoder len blockSize got) reads =
      .decoder len blockSize (reads.reverse ++ got) := by
  induction reads generalizing got with
  | nil => rfl
  | cons r rest ih =>
    change code.feed (.decoder len blockSize (r :: got)) rest = _
    rw [ih]
    simp

theorem held_some {got : List (UInt32 × Bytes)} {count i : Nat} {block : Bytes}
    (h : held got count i = some block) : ∃ r ∈ got, r.1.toNat % count = i ∧ r.2 = block := by
  obtain ⟨r, hr, rfl⟩ := Option.map_eq_some_iff.mp h
  exact ⟨r, List.mem_of_find?_eq_some hr, by simpa using List.find?_some hr, rfl⟩

theorem held_isSome {got : List (UInt32 × Bytes)} {count : Nat} {r : UInt32 × Bytes}
    (member : r ∈ got) : (held got count (r.1.toNat % count)).isSome := by
  simp only [held, Option.isSome_map, List.find?_isSome]
  exact ⟨r, member, by simp⟩

theorem blocks_enough (len blockSize : Nat) (pos : 0 < blockSize) :
    len ≤ blockCount len blockSize * blockSize := by
  have hdiv := Nat.div_add_mod (len + blockSize - 1) blockSize
  have hmod := Nat.mod_lt (len + blockSize - 1) pos
  rw [blockCount, Nat.mul_comm]
  omega

/-- With every block held, each of them is the message's own. -/
theorem rebuild_genuine (message : Bytes) (blockSize : Nat) (got : List (UInt32 × Bytes))
    (range : InRange message.length blockSize)
    (genuine : code.Genuine (.encoder message blockSize) got)
    (complete : allHeld got (blockCount message.length blockSize) = true) :
    code.reconstruct (.decoder message.length blockSize got) = some message := by
  set count := blockCount message.length blockSize with hcount
  have blocks : ∀ i ∈ List.range count,
      (held got count i).getD [] = Blocks.padded blockSize 0 message i := by
    intro i hi
    have hs := List.all_eq_true.mp complete i hi
    obtain ⟨block, hb⟩ := Option.isSome_iff_exists.mp hs
    obtain ⟨r, member, hr, rfl⟩ := held_some hb
    have written := genuine r member
    simp only [code, Option.some.injEq, ← hcount, hr] at written
    rw [hb, Option.getD_some, ← written]
  have enough : message.length ≤ count * blockSize :=
    blocks_enough message.length blockSize range.1
  have hprefix := Blocks.prefix_flatMap_padded blockSize count 0 message enough
  simp only [code, ← hcount, complete, ↓reduceIte]
  rw [List.flatMap_congr blocks]
  exact congrArg some (List.prefix_iff_eq_take.mp hprefix).symm

theorem reconstructs : code.Reconstructs := by
  intro message blockSize enc state reads ident block encoded decoded genuine written ready
  obtain ⟨range, rfl⟩ := encode_some encoded
  have hstate : state = .decoder message.length blockSize [] := by
    simpa [code, range] using decoded.symm
  subst hstate
  rw [feed_decoder] at ready ⊢
  refine rebuild_genuine message blockSize _ range ?_ ready
  intro r member
  simp only [List.append_nil, List.mem_cons, List.mem_reverse] at member
  rcases member with rfl | member
  · exact written
  · exact genuine r member

theorem recoversRead : code.RecoversRead := by
  intro old len blockSize first reads ident block decoded whole filled ready
  have range : InRange len blockSize ∧ first = .decoder len blockSize [] := by
    simp only [code] at decoded
    split at decoded
    next range => exact ⟨range, (Option.some.inj decoded).symm⟩
    next => cases decoded
  obtain ⟨range, rfl⟩ := range
  rw [feed_decoder, List.append_nil] at ready ⊢
  have complete : allHeld ((ident, block) :: reads.reverse) (blockCount len blockSize) = true := ready
  have each : ∀ i ∈ List.range (blockCount len blockSize),
      ((held ((ident, block) :: reads.reverse) (blockCount len blockSize) i).getD []).length =
        blockSize := by
    intro i inside
    obtain ⟨got, found⟩ := Option.isSome_iff_exists.mp (List.all_eq_true.mp complete i inside)
    obtain ⟨r, member, -, rfl⟩ := held_some found
    rw [found, Option.getD_some]
    rcases List.mem_cons.mp member with rfl | earlier
    · exact filled
    · exact whole r (List.mem_reverse.mp earlier)
  have enough := blocks_enough len blockSize range.1
  refine ⟨_, if_pos complete, ?_⟩
  rw [List.length_take, List.length_flatMap, List.map_congr_left each, List.map_const',
    List.sum_replicate_nat, List.length_range]
  exact Nat.min_eq_left enough

theorem completes_of_allHeld (len blockSize : Nat) (got reads : List (UInt32 × Bytes))
    (nonempty : reads ≠ [])
    (complete : allHeld (reads.reverse ++ got) (blockCount len blockSize) = true) :
    code.completes (.decoder len blockSize got) reads = true := by
  induction reads generalizing got with
  | nil => exact absurd rfl nonempty
  | cons r rest ih =>
    simp only [Wirehair.completes, Bool.or_eq_true]
    by_cases last : rest = []
    · left
      simpa [code, last] using complete
    · right
      exact ih (r :: got) last (by simpa using complete)

/-- The blocks held are all when each repeats one of them. -/
theorem completes_of_residues {message : Bytes} {blockSize : Nat} {state : State}
    {reads : List (UInt32 × Bytes)} (range : InRange message.length blockSize)
    (decoded : code.decode none message.length blockSize = some state)
    (residues : ∀ i < blockCount message.length blockSize,
      ∃ r ∈ reads, r.1.toNat % blockCount message.length blockSize = i) :
    code.completes state reads = true := by
  have hstate : state = .decoder message.length blockSize [] := by
    simpa [code, range] using decoded.symm
  subst hstate
  have hlow := range.2.1
  apply completes_of_allHeld
  · rintro rfl
    obtain ⟨r, member, -⟩ := residues 0 (by omega)
    cases member
  · apply List.all_eq_true.mpr
    intro i hi
    obtain ⟨r, member, rfl⟩ := residues i (List.mem_range.mp hi)
    exact held_isSome (by simpa using member)

/-- So many ids that no residue can be missing. -/
theorem overhead (message : Bytes) (blockSize count extra : Nat)
    (enough : ∀ i < blockCount message.length blockSize, ((List.range count).filter fun n =>
      decide (n % blockCount message.length blockSize ≠ i)).length <
        blockCount message.length blockSize + extra) :
    code.Overhead message blockSize count extra := by
  intro enc state reads ids encoded decoded _ low distinct inside many
  refine completes_of_residues (encode_some encoded).1 decoded fun i within => ?_
  by_contra missing
  have others : ids.map UInt32.toNat ⊆ (List.range count).filter fun n =>
      decide (n % blockCount message.length blockSize ≠ i) := by
    intro n member
    obtain ⟨ident, hident, rfl⟩ := List.mem_map.mp member
    obtain ⟨r, read, rfl⟩ := List.mem_map.mp (inside ident hident)
    refine List.mem_filter.mpr ⟨List.mem_range.mpr (low r read), decide_eq_true fun same => ?_⟩
    exact missing ⟨r, read, same⟩
  have apart : (ids.map UInt32.toNat).Nodup :=
    List.Nodup.map (fun _ _ same => UInt32.toNat_inj.mp same) distinct
  have le := (apart.subperm others).length_le
  rw [List.length_map] at le
  have := enough i within
  omega

theorem systematic : code.Systematic := by
  intro message blockSize enc state reads encoded decoded _ originals
  have range := (encode_some encoded).1
  have hhigh : _ ≤ 64000 := range.2.2
  refine completes_of_residues range decoded fun i within => ?_
  obtain ⟨r, member, hr⟩ := List.mem_map.mp (originals i within)
  have small : i < 2 ^ 32 := by omega
  refine ⟨r, member, ?_⟩
  rw [hr, UInt32.toNat_ofNat', Nat.mod_eq_of_lt small, Nat.mod_eq_of_lt within]

end Hairgap.Source.RepetitionCode
