import Hairgap.Source.Proto

/-!
# The erasure code behind a chunk

`wirehair` is a submodule that is not part of the source tree: its five entry points, as
encoding.c:120,150,199,229,444 call them, are a parameter, with the state type left abstract. What
the callers rely on is named below, one property each, so that a result takes exactly what it uses.
-/
namespace Hairgap.Source

/-- `wirehair_encode`, `_write`, `_decode`, `_read` and `_reconstruct`. A `none` state is
the NULL pointer; `read` also tells whether the call answered non-zero. -/
structure Wirehair (S : Type) where
  encode : Option S → Bytes → Nat → Option S
  write : S → UInt32 → Option Bytes
  decode : Option S → Nat → Nat → Option S
  read : S → UInt32 → Bytes → S × Bool
  reconstruct : S → Option Bytes

/-- Number of original blocks, the `N` of the library's documentation. -/
def blockCount (len blockSize : Nat) : Nat := (len + blockSize - 1) / blockSize

namespace Wirehair
variable {S : Type} (wh : Wirehair S)

/-- State after a history of reads. -/
def feed (state : S) (reads : List (UInt32 × Bytes)) : S :=
  reads.foldl (fun state r => (wh.read state r.1 r.2).1) state

/-- Some read of the history answers that the message can be rebuilt. -/
def completes (state : S) : List (UInt32 × Bytes) → Bool
  | [] => false
  | r :: rest => (wh.read state r.1 r.2).2 || completes (wh.read state r.1 r.2).1 rest

/-- The blocks of a history were all written by this encoder. -/
def Genuine (enc : S) (reads : List (UInt32 × Bytes)) : Prop :=
  ∀ r ∈ reads, wh.write enc r.1 = some r.2

/-- An old state passed to `wirehair_decode` is only a place to put the new one. -/
def DecodeRestarts : Prop :=
  ∀ old len blockSize, wh.decode (some old) len blockSize = wh.decode none len blockSize

/-- An old state passed to `wirehair_encode` is only a place to put the new one. -/
def EncodeRestarts : Prop :=
  ∀ old message blockSize, wh.encode (some old) message blockSize = wh.encode none message blockSize

/-- `wirehair_write` fills one block. -/
def WriteFills : Prop :=
  ∀ message blockSize enc ident block, wh.encode none message blockSize = some enc →
    wh.write enc ident = some block → block.length = blockSize

/-- A message that could be encoded has a decoder of the same dimensions. -/
def DecodesEncoded : Prop :=
  ∀ message blockSize enc, wh.encode none message blockSize = some enc →
    (wh.decode none message.length blockSize).isSome

/-- Once a read of genuine blocks answered non-zero, the message comes back. -/
def Reconstructs : Prop :=
  ∀ message blockSize enc state reads ident block,
    wh.encode none message blockSize = some enc →
    wh.decode none message.length blockSize = some state →
    wh.Genuine enc reads → wh.write enc ident = some block →
    (wh.read (wh.feed state reads) ident block).2 = true →
    wh.reconstruct (wh.read (wh.feed state reads) ident block).1 = some message

/-- Once a read of whole blocks, genuine or not, answered non-zero, a message of the decoder's
length comes back. -/
def RecoversRead : Prop :=
  ∀ old len blockSize first reads ident block,
    wh.decode old len blockSize = some first →
    (∀ r ∈ reads, r.2.length = blockSize) → block.length = blockSize →
    (wh.read (wh.feed first reads) ident block).2 = true →
    ∃ message, wh.reconstruct (wh.read (wh.feed first reads) ident block).1 = some message ∧
      message.length = len

/-- The code is systematic: the original blocks suffice. -/
def Systematic : Prop :=
  ∀ message blockSize enc state reads,
    wh.encode none message blockSize = some enc →
    wh.decode none message.length blockSize = some state →
    wh.Genuine enc reads →
    (∀ i < blockCount message.length blockSize, UInt32.ofNat i ∈ reads.map Prod.fst) →
    wh.completes state reads = true

/-- Any blocks bring a message back when they are `extra` more than it has, among those with the
first `count` ids. -/
def Overhead (message : Bytes) (blockSize count extra : Nat) : Prop :=
  ∀ enc state reads (ids : List UInt32), wh.encode none message blockSize = some enc →
    wh.decode none message.length blockSize = some state → wh.Genuine enc reads →
    (∀ r ∈ reads, r.1.toNat < count) → ids.Nodup → (∀ ident ∈ ids, ident ∈ reads.map Prod.fst) →
    blockCount message.length blockSize + extra ≤ ids.length → wh.completes state reads = true

/-- Encoding succeeds on the documented range of block counts. -/
def EncodesInRange : Prop :=
  ∀ message blockSize, 0 < blockSize → 2 ≤ blockCount message.length blockSize →
    blockCount message.length blockSize ≤ hgapMaxNPkt →
    (wh.encode none message blockSize).isSome

/-- An encoder writes a block for every id. -/
def WritesAll : Prop :=
  ∀ message blockSize enc ident, wh.encode none message blockSize = some enc →
    (wh.write enc ident).isSome

theorem feed_snoc (state : S) (xs : List (UInt32 × Bytes)) (ident : UInt32) (block : Bytes) :
    wh.feed state (xs ++ [(ident, block)]) = (wh.read (wh.feed state xs) ident block).1 := by
  simp [feed]

/-- What completes a history, or completes it behind what came before. -/
theorem completes_append (state : S) (xs ys : List (UInt32 × Bytes)) :
    wh.completes state (xs ++ ys) =
      (wh.completes state xs || wh.completes (wh.feed state xs) ys) := by
  induction xs generalizing state with
  | nil => rfl
  | cons r rest ih => simp only [List.cons_append, completes, ih, Bool.or_assoc, feed, List.foldl_cons]

end Wirehair

end Hairgap.Source
