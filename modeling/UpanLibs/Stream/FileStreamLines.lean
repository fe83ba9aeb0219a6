import UpanLibs.Stream.FileStream

/-!
Reading a file line by line, whatever the chunks are in which it comes. The buffer that
once grew beyond the limit of a line takes no more chunks, also when the lines are short.
-/
namespace FileStream
open LineSplit StringText

variable {b b' : LineBuffer} {text rest line : Bytes} {size : Nat} {pending : List ReadResult}

theorem LineBuffer.readLine_ended (plain : NEWLINE ∉ line) (text : Bytes) (size : Nat) :
    (⟨line ++ NEWLINE :: text, size⟩ : LineBuffer).readLine = (some line, ⟨text, size⟩) := by
  have found : (line ++ NEWLINE :: text).findIdx? (· == NEWLINE) = some line.length := by
    have before : line.findIdx? (· == NEWLINE) = none := by
      rw [List.findIdx?_eq_none_iff]
      intro c mem
      rw [beq_eq_false_iff_ne]
      rintro rfl
      exact plain mem
    rw [List.findIdx?_append, before, List.findIdx?_cons]
    simp
  rw [readLine]
  simp [found]

theorem LineBuffer.readLine_unended (plain : NEWLINE ∉ text) (size : Nat) :
    (⟨text, size⟩ : LineBuffer).readLine = (none, ⟨text, size⟩) := by
  have none_ : text.findIdx? (· == NEWLINE) = none := by
    rw [List.findIdx?_eq_none_iff]
    intro c mem
    rw [beq_eq_false_iff_ne]
    rintro rfl
    exact plain mem
  rw [readLine]
  simp [none_]

theorem LineBuffer.add_eq (text buf : Bytes) (size : Nat) :
    (⟨text, size⟩ : LineBuffer).add buf = ⟨text ++ buf, max size (text.length + buf.length)⟩ := by
  rw [add]
  split
  next room => rw [Nat.max_eq_left room]
  next full => rw [Nat.max_eq_right (Nat.le_of_not_le full)]

def at_ (text : Bytes) (size : Nat) (chunks : List Bytes) : Stream :=
  ⟨⟨text, size⟩, chunks.map .bytes⟩

theorem readLine_ended (allocated : 0 < size) (plain : NEWLINE ∉ line) (text : Bytes)
    (chunks : List Bytes) :
    readLine (at_ (line ++ NEWLINE :: text) size chunks) = (some line, at_ text size chunks) := by
  have init : (⟨line ++ NEWLINE :: text, size⟩ : LineBuffer).init = ⟨line ++ NEWLINE :: text, size⟩ :=
    if_neg (by simpa using Nat.ne_of_gt allocated)
  simp only [readLine, at_, init, LineBuffer.readLine_ended plain]

theorem readLine_more (allocated : 0 < size) (plain : NEWLINE ∉ text) (chunks : List Bytes) :
    readLine (at_ text size chunks) = readMore ⟨text, size⟩ (chunks.map .bytes) := by
  have init : (⟨text, size⟩ : LineBuffer).init = ⟨text, size⟩ :=
    if_neg (by simpa using Nat.ne_of_gt allocated)
  simp only [readLine, at_, init, LineBuffer.readLine_unended plain]

theorem readLine_exceeded (allocated : 0 < size) (plain : NEWLINE ∉ text)
    (exceeded : MAX_LINE_SIZE < size) (chunks : List Bytes) :
    readLine (at_ text size chunks) = (none, at_ text size chunks) := by
  rw [readLine_more allocated plain]
  cases chunks with
  | nil =>
    rw [List.map_nil, readMore]
    exact if_pos (decide_eq_true exceeded)
  | cons buf chunks =>
    rw [List.map_cons, readMore.eq_def]
    exact if_pos (decide_eq_true exceeded)

theorem readLine_end (allocated : 0 < size) (plain : NEWLINE ∉ text) (room : size ≤ MAX_LINE_SIZE) :
    readLine (at_ text size []) =
      if text = [] then (none, at_ [] size []) else (some text, at_ [] size []) := by
  have fits : ¬ (⟨text, size⟩ : LineBuffer).capacityExceeded = true := by
    simpa [LineBuffer.capacityExceeded] using room
  rw [readLine_more allocated plain, List.map_nil, readMore, if_neg fits]
  cases text <;> simp [LineBuffer.readRemaining, at_]

theorem readLine_chunk (allocated : 0 < size) (plain : NEWLINE ∉ text) (room : size ≤ MAX_LINE_SIZE)
    {buf : Bytes} (some_ : buf ≠ []) (chunks : List Bytes) :
    readLine (at_ text size (buf :: chunks)) =
      readLine (at_ (text ++ buf) (max size (text.length + buf.length)) chunks) := by
  have fits : ¬ (⟨text, size⟩ : LineBuffer).capacityExceeded = true := by
    simpa [LineBuffer.capacityExceeded] using room
  have init : (⟨text ++ buf, max size (text.length + buf.length)⟩ : LineBuffer).init =
      ⟨text ++ buf, max size (text.length + buf.length)⟩ := if_neg (by simp; omega)
  obtain ⟨c, buf, rfl⟩ := List.exists_cons_of_ne_nil some_
  rw [readLine_more allocated plain, List.map_cons, readMore.eq_def]
  simp only [if_neg fits]
  simp only [LineBuffer.add_eq, readLine, at_, init]

def Answers (s : Stream) (ls : List Bytes) : Prop := ∀ k, nthLine k s = ls[k]?

theorem answers_cons {s s' : Stream} (first : readLine s = (some line, s')) (ls : List Bytes) :
    Answers s (line :: ls) ↔ Answers s' ls := by
  constructor
  · intro answers k
    have next := answers (k + 1)
    rw [nthLine, first] at next
    exact next
  · intro answers k
    cases k with
    | zero =>
      rw [nthLine, first]
      rfl
    | succ k =>
      rw [nthLine, first]
      exact answers k

theorem nthLine_stuck {s : Stream} (stuck : readLine s = (none, s)) (k : Nat) :
    nthLine k s = none := by
  induction k with
  | zero => rw [nthLine, stuck]
  | succ k ih =>
    rw [nthLine, stuck]
    exact ih

theorem answers_stuck {s : Stream} (stuck : readLine s = (none, s)) (ls : List Bytes) :
    Answers s ls ↔ ls = [] := by
  constructor
  · intro answers
    have first := answers 0
    rw [nthLine_stuck stuck] at first
    rw [← List.head?_eq_none_iff, List.head?_eq_getElem?]
    exact first.symm
  · rintro rfl k
    exact nthLine_stuck stuck k

theorem answers_chunk (allocated : 0 < size) (plain : NEWLINE ∉ text) (room : size ≤ MAX_LINE_SIZE)
    {buf : Bytes} (some_ : buf ≠ []) (chunks ls : List Bytes) :
    Answers (at_ text size (buf :: chunks)) ls ↔
      Answers (at_ (text ++ buf) (max size (text.length + buf.length)) chunks) ls := by
  have taken := readLine_chunk allocated plain room some_ chunks
  have each : ∀ k, nthLine k (at_ text size (buf :: chunks)) =
      nthLine k (at_ (text ++ buf) (max size (text.length + buf.length)) chunks) := by
    intro k
    cases k with
    | zero => rw [nthLine, nthLine, taken]
    | succ k => rw [nthLine, nthLine, taken]
  simp only [Answers, each]

def FitsFrom : Bytes → Nat → List Bytes → Prop
  | text, size, [] => size ≤ MAX_LINE_SIZE ∨ unfinished NEWLINE text = []
  | text, size, buf :: chunks => size ≤ MAX_LINE_SIZE ∧
      FitsFrom (unfinished NEWLINE text ++ buf)
        (max size ((unfinished NEWLINE text).length + buf.length)) chunks

theorem fitsFrom_ended (line text : Bytes) (size : Nat) (chunks : List Bytes) :
    FitsFrom (line ++ NEWLINE :: text) size chunks ↔ FitsFrom text size chunks := by
  cases chunks with
  | nil => rw [FitsFrom, FitsFrom, unfinished_ended]
  | cons buf chunks => rw [FitsFrom, FitsFrom, unfinished_ended]

def Reads (text : Bytes) (size : Nat) (chunks : List Bytes) : Prop :=
  Answers (at_ text size chunks) (lines NEWLINE (text ++ chunks.flatten)) ↔
    FitsFrom text size chunks

theorem reads_of_plain (allocated : 0 < size) (chunks : List Bytes)
    (plain : ∀ text, NEWLINE ∉ text → Reads text size chunks) (text : Bytes) :
    Reads text size chunks := by
  induction length : text.length using Nat.strongRecOn generalizing text with
  | ind n ih =>
    by_cases mem : NEWLINE ∈ text
    · obtain ⟨line, rest, rfl, ended⟩ := first_line mem
      have shorter : rest.length < n := by
        rw [← length, List.length_append, List.length_cons]
        omega
      have later : Reads rest size chunks := ih rest.length shorter rest rfl
      rw [Reads] at later
      rw [Reads, fitsFrom_ended, ← later, List.append_assoc, List.cons_append, lines_ended ended]
      exact answers_cons (readLine_ended allocated ended rest chunks) _
    · exact plain text mem

theorem reads_exceeded (allocated : 0 < size) (exceeded : MAX_LINE_SIZE < size)
    {chunks : List Bytes} (some_ : ∀ buf ∈ chunks, buf ≠ []) (plain : NEWLINE ∉ text) :
    Reads text size chunks := by
  rw [Reads, answers_stuck (readLine_exceeded allocated plain exceeded chunks), lines_eq_nil]
  cases chunks with
  | nil =>
    rw [FitsFrom, unfinished_plain plain, List.flatten_nil, List.append_nil]
    exact (or_iff_right (Nat.not_le_of_lt exceeded)).symm
  | cons buf chunks =>
    have more : buf ≠ [] := some_ buf List.mem_cons_self
    constructor
    · intro none_
      simp [more] at none_
    · intro fits
      exact absurd fits.1 (Nat.not_le_of_lt exceeded)

theorem reads_end (allocated : 0 < size) (room : size ≤ MAX_LINE_SIZE) (plain : NEWLINE ∉ text) :
    Reads text size [] := by
  have fits : FitsFrom text size [] := .inl room
  have ends := readLine_end allocated List.not_mem_nil room
  rw [if_pos rfl] at ends
  rw [Reads, iff_true_right fits, List.flatten_nil, List.append_nil, lines_unended plain]
  by_cases nothing : text = []
  · subst nothing
    rw [if_pos rfl]
    exact (answers_stuck ends []).mpr rfl
  · have last := readLine_end allocated plain room
    rw [if_neg nothing] at last
    rw [if_neg nothing, answers_cons last]
    exact (answers_stuck ends []).mpr rfl

theorem reads (allocated : 0 < size) {chunks : List Bytes} (some_ : ∀ buf ∈ chunks, buf ≠ [])
    (text : Bytes) : Reads text size chunks := by
  induction chunks generalizing text size with
  | nil =>
    apply reads_of_plain allocated
    intro text plain
    rcases Nat.lt_or_ge MAX_LINE_SIZE size with exceeded | room
    · exact reads_exceeded allocated exceeded some_ plain
    · exact reads_end allocated room plain
  | cons buf chunks ih =>
    apply reads_of_plain allocated
    intro text plain
    rcases Nat.lt_or_ge MAX_LINE_SIZE size with exceeded | room
    · exact reads_exceeded allocated exceeded some_ plain
    · -- the call goes on as if the chunk had been in the buffer
      have more : buf ≠ [] := some_ buf List.mem_cons_self
      have later : ∀ buf ∈ chunks, buf ≠ [] := fun b mem => some_ b (List.mem_cons_of_mem buf mem)
      have grown : 0 < max size (text.length + buf.length) :=
        Nat.lt_of_lt_of_le allocated (Nat.le_max_left _ _)
      rw [Reads, answers_chunk allocated plain room more, FitsFrom, unfinished_plain plain,
        and_iff_right room, List.flatten_cons, ← List.append_assoc]
      exact ih grown later (text ++ buf)

/-- No chunk makes the line it goes on with longer, together with the whole chunk, than the
    limit, unless it is the last one and ends with a newline. -/
def Fits (chunks : List Bytes) : Prop :=
  ∀ before buf after, chunks = before ++ buf :: after →
    (unfinished NEWLINE before.flatten).length + buf.length ≤ MAX_LINE_SIZE ∨
      after = [] ∧ buf.getLast? = some NEWLINE

def FitsAfter (text : Bytes) (chunks : List Bytes) : Prop :=
  ∀ before buf after, chunks = before ++ buf :: after →
    (unfinished NEWLINE (text ++ before.flatten)).length + buf.length ≤ MAX_LINE_SIZE ∨
      after = [] ∧ buf.getLast? = some NEWLINE

theorem fitsAfter_nil : FitsAfter text [] := by
  intro before buf after split
  cases before <;> cases split

theorem fitsAfter_cons {buf : Bytes} {chunks : List Bytes} : FitsAfter text (buf :: chunks) ↔
    ((unfinished NEWLINE text).length + buf.length ≤ MAX_LINE_SIZE ∨
      chunks = [] ∧ buf.getLast? = some NEWLINE) ∧
    FitsAfter (unfinished NEWLINE text ++ buf) chunks := by
  constructor
  · intro fits
    constructor
    · have first := fits [] buf chunks rfl
      rw [List.flatten_nil, List.append_nil] at first
      exact first
    · intro before other after split
      have later := fits (buf :: before) other after (by rw [split]; rfl)
      rw [List.flatten_cons, ← List.append_assoc, ← unfinished_append] at later
      rw [List.append_assoc, unfinished_append, ← List.append_assoc, ← unfinished_append]
      exact later
  · rintro ⟨first, later⟩ before other after split
    cases before with
    | nil =>
      cases split
      rw [List.flatten_nil, List.append_nil]
      exact first
    | cons b before =>
      cases split
      have here := later before other after rfl
      rw [List.append_assoc, unfinished_append] at here
      rw [List.flatten_cons]
      exact here

theorem fitsFrom_iff {chunks : List Bytes} (some_ : ∀ buf ∈ chunks, buf ≠ [])
    (room : size ≤ MAX_LINE_SIZE) : FitsFrom text size chunks ↔ FitsAfter text chunks := by
  induction chunks generalizing text size with
  | nil =>
    rw [FitsFrom, iff_true_left (.inl room)]
    exact fitsAfter_nil
  | cons buf chunks ih =>
    have more : buf ≠ [] := some_ buf List.mem_cons_self
    have later : ∀ buf ∈ chunks, buf ≠ [] := fun b mem => some_ b (List.mem_cons_of_mem buf mem)
    rw [FitsFrom, and_iff_right room, fitsAfter_cons]
    rcases Nat.lt_or_ge MAX_LINE_SIZE ((unfinished NEWLINE text).length + buf.length) with longer | fits
    · have large : ¬ max size ((unfinished NEWLINE text).length + buf.length) ≤ MAX_LINE_SIZE := by
        intro small
        exact absurd (Nat.le_trans (Nat.le_max_right size _) small) (Nat.not_le_of_lt longer)
      rw [or_iff_right (Nat.not_le_of_lt longer)]
      cases chunks with
      | nil =>
        rw [FitsFrom, or_iff_right large, unfinished_eq_nil, and_iff_left fitsAfter_nil,
          List.getLast?_append_of_ne_nil _ more]
        simp [more]
      | cons next chunks =>
        rw [FitsFrom]
        simp [large]
    · rw [and_iff_right (.inl fits)]
      exact ih later (Nat.max_le.mpr ⟨room, fits⟩)

theorem fits_iff_after {chunks : List Bytes} : Fits chunks ↔ FitsAfter [] chunks := Iff.rfl

theorem answers_open (chunks : List Bytes) (ls : List Bytes) :
    Answers (open_ chunks) ls ↔ Answers (at_ [] CHUNK_SIZE chunks) ls := by
  have same : readLine (open_ chunks) = readLine (at_ [] CHUNK_SIZE chunks) := rfl
  have each : ∀ k, nthLine k (open_ chunks) = nthLine k (at_ [] CHUNK_SIZE chunks) := by
    intro k
    cases k with
    | zero => rw [nthLine, nthLine, same]
    | succ k => rw [nthLine, nthLine, same]
  simp only [Answers, each]

theorem answers_iff_fits {chunks : List Bytes} (some_ : ∀ buf ∈ chunks, buf ≠ []) :
    Answers (open_ chunks) (lines NEWLINE chunks.flatten) ↔ Fits chunks := by
  have allocated : 0 < CHUNK_SIZE := by decide
  have whole := reads allocated some_ []
  rw [Reads, List.nil_append] at whole
  rw [answers_open, whole, fits_iff_after]
  exact fitsFrom_iff some_ (by decide)

/-- Whether the calls return the lines of a file is decided by how its chunks lie. -/
theorem reads_lines_iff (chunks : List Bytes)
    (sizes : ∀ buf ∈ chunks, 1 ≤ buf.length ∧ buf.length ≤ CHUNK_SIZE) :
    (∀ k, nthLine k (open_ chunks) = (lines NEWLINE chunks.flatten)[k]?) ↔ Fits chunks := by
  apply answers_iff_fits
  intro buf mem
  exact List.ne_nil_of_length_pos (sizes buf mem).1

theorem reads_lines_iff_short : Fits [[97, NEWLINE, 98], [99]] ∧
    ∀ k, nthLine k (open_ [[97, NEWLINE, 98], [99]]) = [[97], [98, 99]][k]? := by
  have fits : Fits [[97, NEWLINE, 98], [99]] := by
    rw [fits_iff_after, fitsAfter_cons, fitsAfter_cons]
    exact ⟨.inl (by decide), .inl (by decide), fitsAfter_nil⟩
  exact ⟨fits, (reads_lines_iff [[97, NEWLINE, 98], [99]] (by decide)).mpr fits⟩

/-- A line as long as the limit in full chunks, and then its newline together with the
    next line. -/
def longLine : List Bytes :=
  List.replicate 64 (List.replicate CHUNK_SIZE 97) ++ [[NEWLINE, 98]]

theorem longLine_flatten :
    longLine.flatten = List.replicate MAX_LINE_SIZE 97 ++ NEWLINE :: [98] := by
  rw [longLine, List.flatten_append, List.flatten_replicate_replicate]
  rfl

theorem longLine_plain : NEWLINE ∉ List.replicate MAX_LINE_SIZE (97 : UInt8) := by
  intro mem
  exact absurd (List.eq_of_mem_replicate mem) (by decide)

/-- The buffer that took the newline is beyond the limit, and the line after it is lost. -/
theorem line_after_long_line_lost :
    (∀ buf ∈ longLine, 1 ≤ buf.length ∧ buf.length ≤ CHUNK_SIZE) ∧ 0 ∉ longLine.flatten ∧
      (∀ line ∈ lines NEWLINE longLine.flatten, line.length ≤ MAX_LINE_SIZE) ∧
      ¬ ∀ k, nthLine k (open_ longLine) = (lines NEWLINE longLine.flatten)[k]? := by
  have chunks : ∀ buf ∈ longLine, buf = List.replicate CHUNK_SIZE 97 ∨ buf = [NEWLINE, 98] := by
    intro buf mem
    rw [longLine, List.mem_append, List.mem_singleton] at mem
    exact mem.imp_left List.eq_of_mem_replicate
  have sizes : ∀ buf ∈ longLine, 1 ≤ buf.length ∧ buf.length ≤ CHUNK_SIZE := by
    intro buf mem
    obtain rfl | rfl := chunks buf mem
    · rw [List.length_replicate]
      decide
    · decide
  refine ⟨sizes, ?_, ?_, ?_⟩
  · rw [longLine_flatten, List.mem_append, not_or]
    refine ⟨fun mem => ?_, by decide⟩
    exact absurd (List.eq_of_mem_replicate mem) (by decide)
  · rw [longLine_flatten, lines_ended longLine_plain]
    intro line mem
    obtain rfl | mem := List.mem_cons.mp mem
    · exact Nat.le_of_eq List.length_replicate
    · obtain rfl : line = [98] := List.mem_singleton.mp mem
      decide
  · intro all
    have some_ : ∀ buf ∈ longLine, buf ≠ [] := fun buf mem => List.ne_nil_of_length_pos (sizes buf mem).1
    have fits := (answers_iff_fits some_).mp all _ [NEWLINE, 98] [] rfl
    rw [List.flatten_replicate_replicate] at fits
    have plain : unfinished NEWLINE (List.replicate (64 * CHUNK_SIZE) 97) = _ :=
      unfinished_plain longLine_plain
    rw [plain, List.length_replicate] at fits
    exact absurd fits (by decide)

end FileStream
