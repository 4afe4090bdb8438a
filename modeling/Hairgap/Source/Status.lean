import Mathlib.Data.Int.Notation

/-!
Return codes (hairgap.h:134-156) and the macro that merges them (common.h:86-89). The enumeration
order is the numeric order: `hgap_decoder_read` negates these codes into the same signed result that
carries chunk sizes.
-/
namespace Hairgap.Source

inductive Hgap where
  | success | eot
  | errNoConfig | errMtuTooSmall | errMtuTooBig | errInvalidAddr | errBadFd
  | errBadInFd | errBadOutFd | errFileRead | errBadNPkt | errBadRedund
  | errWirehairError | errBufferTooSmall | errIncompleteChunk | errBadChunk
  | errBadPkt | errTimeout | errNetwork | errIpc | errInternal
  deriving DecidableEq, Repr

/-- Value of the C enumerator. -/
def Hgap.code : Hgap → Int
  | .success => 0 | .eot => 1
  | .errNoConfig => 2 | .errMtuTooSmall => 3 | .errMtuTooBig => 4
  | .errInvalidAddr => 5 | .errBadFd => 6 | .errBadInFd => 7 | .errBadOutFd => 8
  | .errFileRead => 9 | .errBadNPkt => 10 | .errBadRedund => 11
  | .errWirehairError => 12 | .errBufferTooSmall => 13 | .errIncompleteChunk => 14
  | .errBadChunk => 15 | .errBadPkt => 16 | .errTimeout => 17 | .errNetwork => 18
  | .errIpc => 19 | .errInternal => 20

/-- `HGAP_SELECT_ERROR`: the first real error in enumeration order wins. -/
def hgapSelectError (e1 e2 : Int) : Int :=
  if e1 = Hgap.success.code then e2
  else if e2 = Hgap.success.code then e1
  else if e1 < e2 then e1 else e2

theorem selectError_success (e1 e2 : Int) :
    hgapSelectError e1 e2 = Hgap.success.code ↔
      e1 = Hgap.success.code ∧ e2 = Hgap.success.code := by
  unfold hgapSelectError
  split
  next h1 => simp [h1]
  next h1 =>
    split
    next h2 => simp [h1]
    next h2 => split <;> simp [h1, h2]

end Hairgap.Source
