import Hairgap.Guarantees.SendPipeline
import Hairgap.Source.ReadLoop

/-!
# From a stream to buffers

However short the answers of `fread` are, `read_chunk` fills its buffer or meets the end, and
`read_loop` cuts the stream into full buffers and one that is not full.
-/
namespace Hairgap.Guarantees
open Hairgap.Base Hairgap.Source

section
variable (lib : Fread)

/-- A stream that has given `count` more octets and met its end if `short`. -/
structure Advanced (file : InFile) (count : Nat) (short : Bool) (after : InFile) : Prop where
  unread : after.unread = file.unread.drop count
  fails : after.fails = file.fails
  eof : after.eof = (file.eof || (short && !file.fails))
  error : after.error = (file.error || (short && file.fails))

/-- One answer of `fread`, between its bounds. -/
theorem fread_spec (asked : Nat) (file : InFile) (wanted : 0 < asked) :
    ∃ got ≤ min asked file.unread.length, ∃ reached : Bool,
      (fread lib asked file).1 = file.unread.take got ∧
      Advanced file got reached (fread lib asked file).2 ∧
      (got = 0 → file.unread = [] ∧ reached = true) ∧
      (reached = true → file.unread.length < asked) := by
  refine ⟨lib.count file.calls asked file.unread.length, lib.within .., _, rfl, ⟨rfl, rfl, rfl, rfl⟩,
    fun nothing => ?_, fun reached => (lib.reaches _ _ _ reached).1⟩
  have empty : file.unread.length = 0 := by
    by_contra some_
    have := lib.gives file.calls asked _ wanted (Nat.pos_of_ne_zero some_)
    omega
  exact ⟨List.eq_nil_of_length_eq_zero empty, empty ▸ lib.tells file.calls asked wanted⟩

/-- `read_chunk` takes what its buffer holds, and meets the end when that is less. -/
theorem readChunkLoop_spec (toRead : Nat) (file : InFile) :
    (readChunkLoop lib toRead file).1 = file.unread.take toRead ∧
      Advanced file toRead (decide (file.unread.length < toRead))
        (readChunkLoop lib toRead file).2 := by
  induction toRead using Nat.strongRecOn generalizing file with
  | ind toRead ih =>
    unfold readChunkLoop
    by_cases full : toRead = 0
    · rw [if_pos full, full]
      exact ⟨rfl, rfl, rfl, by simp, by simp⟩
    · obtain ⟨got, within, reached, octets, after, zero, ends⟩ :=
        fread_spec lib toRead file (Nat.pos_of_ne_zero full)
      have bounds := Nat.le_min.mp within
      have length : (fread lib toRead file).1.length = got := by
        rw [octets, List.length_take]
        exact Nat.min_eq_left bounds.2
      rw [if_neg full]
      by_cases nothing : got = 0
      · obtain ⟨empty, rfl⟩ := zero nothing
        rw [if_pos (length.trans nothing)]
        refine ⟨by rw [empty, List.take_nil], ?_, after.fails, ?_, ?_⟩
        · rw [after.unread, empty, List.drop_nil, List.drop_nil]
        · rw [after.eof, decide_eq_true (ends rfl)]
        · rw [after.error, decide_eq_true (ends rfl)]
      · rw [if_neg (length ▸ nothing)]
        dsimp only
        rw [length]
        obtain ⟨rest, more⟩ := ih (toRead - got) (by omega) (fread lib toRead file).2
        have left : got + (toRead - got) = toRead := by omega
        -- a call that reached the end leaves nothing for the calls behind it
        have short : (reached || decide ((fread lib toRead file).2.unread.length < toRead - got)) =
            decide (file.unread.length < toRead) := by
          rw [after.unread, List.length_drop]
          cases reached with
          | true =>
            rw [Bool.true_or, decide_eq_true (ends rfl)]
          | false =>
            rw [Bool.false_or]
            exact decide_eq_decide.mpr (by omega)
        refine ⟨?_, ?_, more.fails.trans after.fails, ?_, ?_⟩
        · rw [octets, rest, after.unread, ← List.take_add, left]
        · rw [more.unread, after.unread, List.drop_drop, left]
        · rw [more.eof, after.eof, after.fails, ← short, Bool.or_assoc, Bool.and_or_distrib_right]
        · rw [more.error, after.error, after.fails, ← short, Bool.or_assoc, Bool.and_or_distrib_right]

/-- `read_loop` sends what the threads of the sender read, and one failure is all it reports. -/
theorem readLoopSends_elements (bufSize : Nat) (pos : 0 < bufSize) (fuel : Nat) (file : InFile)
    (noEof : file.eof = false) (noError : file.error = false)
    (enough : file.unread.length / bufSize < fuel) :
    readLoopSends lib bufSize fuel file =
      some (elements bufSize ⟨file.unread, file.fails⟩,
        if file.fails then .errFileRead else .success) := by
  induction fuel generalizing file with
  | zero => exact absurd enough (Nat.not_lt_zero _)
  | succ fuel ih =>
    obtain ⟨octets, after⟩ := readChunkLoop_spec lib bufSize file
    have eof := after.eof
    have error := after.error
    rw [noEof, Bool.false_or] at eof
    rw [noError, Bool.false_or] at error
    unfold readLoopSends
    dsimp only
    by_cases short : file.unread.length < bufSize
    · rw [decide_eq_true short, Bool.true_and] at eof error
      cases fails : file.fails with
      | true =>
        rw [fails] at error
        rw [if_pos error, elements_failed _ short rfl]
        rfl
      | false =>
        rw [fails, Bool.not_false] at eof
        rw [fails] at error
        rw [if_neg (by rw [error]; exact Bool.false_ne_true), if_pos eof, elements_last _ short rfl, octets,
          List.take_of_length_le (Nat.le_of_lt short)]
        rfl
    · rw [decide_eq_false short, Bool.false_and] at eof error
      have next := ih (readChunkLoop lib bufSize file).2 eof error (by
        rw [after.unread, List.length_drop]
        have count := Nat.div_eq_sub_div pos (Nat.le_of_not_lt short)
        omega)
      rw [if_neg (by rw [error]; exact Bool.false_ne_true), if_neg (by rw [eof]; exact Bool.false_ne_true),
        next, octets, after.unread, after.fails]
      rw [elements_full ⟨file.unread, file.fails⟩ pos short]
      rfl

/-- Chunking loses nothing: the buffers in front of the poison are the content, all of them full
but the last. -/
theorem readLoop_chunks (content : Bytes) (bufSize : Nat) (pos : 0 < bufSize) :
    ∃ (full : List Bytes) (last : Bytes),
      (∀ fuel, content.length / bufSize < fuel →
        readLoopSends lib bufSize fuel (.opened content false) =
          some ((full ++ [last]).map some ++ [none], .success)) ∧
      (full ++ [last]).flatten = content ∧ (∀ buf ∈ full, buf.length = bufSize) ∧
      last.length < bufSize := by
  have cut : buffers bufSize ⟨content, false⟩ =
      (List.range (content.length / bufSize)).map (Blocks.block bufSize content) ++
        [Blocks.block bufSize content (content.length / bufSize)] := by
    rw [buffers, if_neg Bool.false_ne_true, List.range_succ, List.map_append]
    rfl
  have before := Nat.div_mul_le_self content.length bufSize
  have behind := Nat.lt_div_mul_add (a := content.length) pos
  refine ⟨_, _, fun fuel enough => ?_, cut ▸ buffers_flatten ⟨content, false⟩ pos rfl, ?_, ?_⟩
  · rw [readLoopSends_elements lib bufSize pos fuel (.opened content false) rfl rfl enough, ← cut]
    rfl
  · intro buf member
    obtain ⟨i, inside, rfl⟩ := List.mem_map.mp member
    have upTo : (i + 1) * bufSize ≤ content.length / bufSize * bufSize :=
      Nat.mul_le_mul_right _ (List.mem_range.mp inside)
    rw [Nat.add_mul] at upTo
    rw [Blocks.block, List.length_take, List.length_drop]
    omega
  · rw [Blocks.block, List.length_take, List.length_drop]
    omega

end

section OneByOne

/-- A library that gives one octet a call, and tells the end in a call of its own. -/
def oneByOne : Fread where
  count _ asked left := min 1 (min asked left)
  reachesEnd _ asked left := decide (left = 0 ∧ 0 < asked)
  within _ _ _ := Nat.min_le_right _ _
  gives _ _ _ wanted left := Nat.lt_min.mpr ⟨Nat.one_pos, Nat.lt_min.mpr ⟨wanted, left⟩⟩
  reaches _ _ _ reached := by
    obtain ⟨rfl, wanted⟩ := of_decide_eq_true reached
    exact ⟨wanted, by simp⟩
  tells _ _ wanted := decide_eq_true ⟨rfl, wanted⟩

theorem readLoop_chunks_oneByOne : ∃ (full : List Bytes) (last : Bytes),
    readLoopSends oneByOne 2 2 (.opened [7, 8, 9] false) =
      some ((full ++ [last]).map some ++ [none], .success) ∧ (full ++ [last]).flatten = [7, 8, 9] ∧
      last.length < 2 := by
  obtain ⟨full, last, sends, content, -, short⟩ := readLoop_chunks oneByOne [7, 8, 9] 2 (by decide)
  exact ⟨full, last, sends 2 (by decide), content, short⟩

end OneByOne

end Hairgap.Guarantees
