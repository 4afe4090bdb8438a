import Hairgap.Source.Config

/-!
# Reading the input

hgap_send.c:37-106. `read_chunk` and `read_loop` by their calls of `fread`. A call may give fewer
octets than asked for; the end of the stream shows only in a call that reaches behind it. The
channel has room here, and no read fails.
-/
namespace Hairgap.Source

/-- How the C library answers `fread`: the octets given by call number `call`, when `asked` are
wanted and `left` remain, and whether that call reaches the end. -/
structure Fread where
  count : (call asked left : Nat) → Nat
  reachesEnd : (call asked left : Nat) → Bool
  within (call asked left : Nat) : count call asked left ≤ min asked left
  gives (call asked left : Nat) : 0 < asked → 0 < left → 0 < count call asked left
  reaches (call asked left : Nat) : reachesEnd call asked left = true →
    left < asked ∧ count call asked left = left
  tells (call asked : Nat) : 0 < asked → reachesEnd call asked 0 = true

/-- A stream, with the flags `feof` and `ferror` ask for. It `fails` when a read error stands in
the place of its end. -/
structure InFile where
  unread : Bytes
  fails : Bool
  calls : Nat
  eof : Bool
  error : Bool
  deriving DecidableEq, Repr

def InFile.opened (content : Bytes) (fails : Bool) : InFile := ⟨content, fails, 0, false, false⟩

def fread (lib : Fread) (asked : Nat) (file : InFile) : Bytes × InFile :=
  let got := lib.count file.calls asked file.unread.length
  let reached := lib.reachesEnd file.calls asked file.unread.length
  (file.unread.take got, {
    unread := file.unread.drop got
    fails := file.fails
    calls := file.calls + 1
    eof := file.eof || (reached && !file.fails)
    error := file.error || (reached && file.fails) })

/-- The loop of `read_chunk`, `toRead` octets of the buffer being free. -/
def readChunkLoop (lib : Fread) (toRead : Nat) (file : InFile) : Bytes × InFile :=
  if toRead = 0 then ([], file)
  else
    let got := fread lib toRead file
    if got.1.length = 0 then ([], got.2)
    else
      let more := readChunkLoop lib (toRead - got.1.length) got.2
      (got.1 ++ more.1, more.2)
termination_by toRead
decreasing_by exact Nat.sub_lt (Nat.pos_of_ne_zero ‹¬ toRead = 0›) (Nat.pos_of_ne_zero ‹_›)

/-- The elements `read_loop` sends, the poison behind the buffers, and its return value. `none`
without fuel: a buffer without room is never short. -/
def readLoopSends (lib : Fread) (bufSize : Nat) : Nat → InFile → Option (List (Option Bytes) × Hgap)
  | 0, _ => none
  | fuel + 1, file =>
    let buf := readChunkLoop lib bufSize file
    if buf.2.error then some ([none], .errFileRead)
    else if buf.2.eof then some ([some buf.1, none], .success)
    else (readLoopSends lib bufSize fuel buf.2).map fun (elts, retval) => (some buf.1 :: elts, retval)

end Hairgap.Source
