import Mathlib.Algebra.Order.Ring.Int
import UpanLibs.Stream.FileStreamLines
import Mathlib.Data.List.Count

/-!
How far the calls come through a file: all its lines, or those before the place where the buffer
has grown beyond the limit and takes no more chunks.
-/
namespace FileStream
open LineSplit StringText

/-- The lines that are still returned, with `text` in a buffer of this size. -/
def linesInReach : Bytes → Nat → List Bytes → Nat
  | text, size, [] =>
      if size ≤ MAX_LINE_SIZE then (lines NEWLINE text).length else text.count NEWLINE
  | text, size, buf :: chunks =>
      text.count NEWLINE +
        if size ≤ MAX_LINE_SIZE then
          linesInReach (unfinished NEWLINE text ++ buf)
            (max size ((unfinished NEWLINE text).length + buf.length)) chunks
        else 0

/-- The lines of a file that the calls return. -/
def linesRead (chunks : List Bytes) : Nat := linesInReach [] CHUNK_SIZE chunks

variable {text line : Bytes} {size : Nat}

theorem linesInReach_ended (plain : NEWLINE ∉ line) (text : Bytes) (size : Nat)
    (chunks : List Bytes) :
    linesInReach (line ++ NEWLINE :: text) size chunks = linesInReach text size chunks + 1 := by
  have ended : (line ++ NEWLINE :: text).count NEWLINE = text.count NEWLINE + 1 := by
    rw [List.count_append, List.count_eq_zero_of_not_mem plain, List.count_cons_self, Nat.zero_add]
  cases chunks with
  | nil =>
    rw [linesInReach, linesInReach, ended, lines_ended plain, List.length_cons]
    split <;> rfl
  | cons buf chunks =>
    rw [linesInReach, linesInReach, ended, unfinished_ended]
    omega

def Reaches (text : Bytes) (size : Nat) (chunks : List Bytes) : Prop :=
  Answers (at_ text size chunks)
    ((lines NEWLINE (text ++ chunks.flatten)).take (linesInReach text size chunks))

theorem reaches_of_plain (allocated : 0 < size) (chunks : List Bytes)
    (plain : ∀ text, NEWLINE ∉ text → Reaches text size chunks) (text : Bytes) :
    Reaches text size chunks := by
  induction length : text.length using Nat.strongRecOn generalizing text with
  | ind n ih =>
    by_cases mem : NEWLINE ∈ text
    · obtain ⟨line, rest, rfl, ended⟩ := first_line mem
      have shorter : rest.length < n := by
        rw [← length, List.length_append, List.length_cons]
        omega
      have later : Reaches rest size chunks := ih rest.length shorter rest rfl
      rw [Reaches, linesInReach_ended ended, List.append_assoc, List.cons_append,
        lines_ended ended, List.take_succ_cons]
      exact (answers_cons (readLine_ended allocated ended rest chunks) _).mpr later
    · exact plain text mem

theorem reaches_exceeded (allocated : 0 < size) (exceeded : MAX_LINE_SIZE < size)
    (plain : NEWLINE ∉ text) (chunks : List Bytes) : Reaches text size chunks := by
  have none_ : linesInReach text size chunks = 0 := by
    have no : ¬ size ≤ MAX_LINE_SIZE := Nat.not_le_of_lt exceeded
    cases chunks with
    | nil => rw [linesInReach, if_neg no, List.count_eq_zero_of_not_mem plain]
    | cons buf chunks => rw [linesInReach, if_neg no, List.count_eq_zero_of_not_mem plain]
  rw [Reaches, none_, List.take_zero]
  exact (answers_stuck (readLine_exceeded allocated plain exceeded chunks) []).mpr rfl

theorem reaches_end (allocated : 0 < size) (room : size ≤ MAX_LINE_SIZE) (plain : NEWLINE ∉ text) :
    Reaches text size [] := by
  have all := reads_end allocated room plain
  rw [Reads, FitsFrom] at all
  rw [Reaches, linesInReach, if_pos room, List.flatten_nil, List.append_nil, List.take_length]
  rw [List.flatten_nil, List.append_nil] at all
  exact all.mpr (.inl room)

theorem reaches (allocated : 0 < size) {chunks : List Bytes} (some_ : ∀ buf ∈ chunks, buf ≠ [])
    (text : Bytes) : Reaches text size chunks := by
  induction chunks generalizing text size with
  | nil =>
    apply reaches_of_plain allocated
    intro text plain
    rcases Nat.lt_or_ge MAX_LINE_SIZE size with exceeded | room
    · exact reaches_exceeded allocated exceeded plain []
    · exact reaches_end allocated room plain
  | cons buf chunks ih =>
    apply reaches_of_plain allocated
    intro text plain
    rcases Nat.lt_or_ge MAX_LINE_SIZE size with exceeded | room
    · exact reaches_exceeded allocated exceeded plain (buf :: chunks)
    · have more : buf ≠ [] := some_ buf List.mem_cons_self
      have later : ∀ buf ∈ chunks, buf ≠ [] := fun b mem => some_ b (List.mem_cons_of_mem buf mem)
      have grown : 0 < max size (text.length + buf.length) :=
        Nat.lt_of_lt_of_le allocated (Nat.le_max_left _ _)
      have reached := ih grown later (text ++ buf)
      rw [Reaches, List.append_assoc] at reached
      rw [Reaches, linesInReach, if_pos room, List.count_eq_zero_of_not_mem plain, Nat.zero_add,
        unfinished_plain plain, List.flatten_cons]
      exact (answers_chunk allocated plain room more chunks _).mpr reached

theorem answers_linesRead {chunks : List Bytes} (some_ : ∀ buf ∈ chunks, buf ≠ []) :
    Answers (open_ chunks) ((lines NEWLINE chunks.flatten).take (linesRead chunks)) := by
  have whole := reaches (by decide : 0 < CHUNK_SIZE) some_ []
  rw [Reaches, List.nil_append] at whole
  exact (answers_open chunks _).mpr whole

/-! A call that returns a line takes it out of the stream. -/

def ReadResult.length : ReadResult → Nat
  | .failed => 0
  | .bytes buf => buf.length

def Stream.unread (s : Stream) : Nat :=
  s.buffer.text.length + (s.pending.map ReadResult.length).sum

theorem LineBuffer.readLine_shorter {b b' : LineBuffer} (read : b.readLine = (some line, b')) :
    b'.text.length < b.text.length := by
  rw [readLine] at read
  split at read
  next n found =>
    rw [List.findIdx?_eq_some_iff_getElem] at found
    obtain ⟨inside, _⟩ := found
    obtain ⟨_, rfl⟩ := Prod.mk.inj read
    rw [List.length_drop]
    omega
  next => cases read

theorem LineBuffer.readLine_none {b b' : LineBuffer} (read : b.readLine = (none, b')) : b' = b := by
  rw [readLine] at read
  split at read
  next => cases read
  next => exact (Prod.mk.inj read).2.symm

theorem LineBuffer.readRemaining_shorter {b : LineBuffer} (read : b.readRemaining.1 = some line) :
    b.readRemaining.2.text.length < b.text.length := by
  rw [readRemaining] at read ⊢
  split at read
  next more =>
    rw [if_pos more]
    exact more
  next => cases read

theorem LineBuffer.length_add (b : LineBuffer) (buf : Bytes) :
    (b.add buf).text.length = b.text.length + buf.length := by
  rw [add]
  split <;> exact List.length_append

theorem readMore_unread {b : LineBuffer} {rs : List ReadResult} {s : Stream}
    (read : readMore b rs = (some line, s)) :
    s.unread < b.text.length + (rs.map ReadResult.length).sum := by
  induction rs generalizing b with
  | nil =>
    rw [readMore] at read
    split at read
    · cases read
    · obtain ⟨some_, rfl⟩ := Prod.mk.inj read
      exact LineBuffer.readRemaining_shorter some_
  | cons r rs ih =>
    rw [List.map_cons, List.sum_cons]
    rw [readMore.eq_def] at read
    simp only at read
    split at read
    · cases read
    · cases r with
      | failed => cases read
      | bytes buf =>
        cases buf with
        | nil =>
          obtain ⟨some_, rfl⟩ := Prod.mk.inj read
          have shorter := LineBuffer.readRemaining_shorter some_
          simp only [Stream.unread, ReadResult.length, List.length_nil]
          omega
        | cons c buf =>
          have grown := b.length_add (c :: buf)
          simp only at read
          split at read
          next line' b' found =>
            obtain ⟨_, rfl⟩ := Prod.mk.inj read
            have shorter := LineBuffer.readLine_shorter found
            simp only [Stream.unread, ReadResult.length]
            omega
          next b' none_ =>
            obtain rfl := LineBuffer.readLine_none none_
            have less := ih read
            simp only [ReadResult.length]
            omega

theorem readLine_unread {s s' : Stream} (read : readLine s = (some line, s')) :
    s'.unread < s.unread := by
  have same : s.buffer.init.text.length ≤ s.buffer.text.length := by
    rw [LineBuffer.init]
    split
    · exact Nat.zero_le _
    · exact Nat.le_refl _
  have whole : s.unread = s.buffer.text.length + (s.pending.map ReadResult.length).sum := rfl
  rw [readLine] at read
  split at read
  next line' b found =>
    obtain ⟨_, rfl⟩ := Prod.mk.inj read
    have shorter := LineBuffer.readLine_shorter found
    simp only [Stream.unread]
    omega
  next b none_ =>
    obtain rfl := LineBuffer.readLine_none none_
    have less := readMore_unread read
    omega

end FileStream
