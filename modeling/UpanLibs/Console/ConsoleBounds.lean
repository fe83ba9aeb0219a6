import UpanLibs.Console.ConsoleDisplay

/-!
The cursor stays on the grid and only bytes of the buffer are written, unless a raw
character is put into the last cell: the cursor is behind it then.
-/
namespace ConsoleBuffer
open TextPage Console Transition

variable {rows columns : Nat} {s s' : Console} {ch attr : UInt8}

def Within (rows columns : Nat) (s s' : Console) : Prop :=
  ∀ i, rows * columns * 2 ≤ i → s'.buffer i = s.buffer i

theorem Within.trans {s₁ : Console} (first : Within rows columns s s₁)
    (second : Within rows columns s₁ s') : Within rows columns s s' := by
  intro i behind
  rw [second i behind, first i behind]

theorem putChar_within {k : Nat} (inside : k < rows * columns) :
    Within rows columns s (s.putChar (k * 2) ch attr) := by
  intro i behind
  rw [putChar_buffer, Function.update_of_ne (by omega), Function.update_of_ne (by omega)]

theorem scrollDown_within (rows_pos : 0 < rows) :
    Within rows columns s (s.scrollDown rows columns) := by
  intro i behind
  have whole := rows_split columns rows_pos
  rw [scrollDown]
  split
  · rfl
  · have copied : ¬ i < (rows - 1) * columns * 2 := by omega
    have kept : copyDown (columns * 2) ((rows - 1) * columns * 2) s.buffer i = s.buffer i :=
      if_neg copied
    simp only [NO_BYTES_PER_CHARACTER]
    rw [fillBlanks_other _ _ _ (by omega), kept]

theorem scrollDown_cursor (rows_pos : 0 < rows) (columns_pos : 0 < columns) :
    (s.scrollDown rows columns).cursorPos < rows * columns := by
  by_cases above : s.cursorPos < rows * columns
  · rw [scrollDown_above above]
    exact above
  · have whole := rows_split columns rows_pos
    have back : (s.scrollDown rows columns).cursorPos = (rows - 1) * columns := by
      rw [scrollDown, if_neg above]
      exact Nat.mul_div_cancel _ (by decide)
    omega

theorem setCurPos_within (curPos : Int) : Within rows columns s (s.setCurPos rows columns curPos) := by
  intro i _
  rw [setCurPos]
  split <;> rfl

theorem setCurPos_cursor (inside : s.cursorPos < rows * columns) (curPos : Int) :
    (s.setCurPos rows columns curPos).cursorPos < rows * columns := by
  rw [setCurPos]
  split
  next valid =>
    have below : curPos.toNat < rows * columns := by omega
    exact below
  next => exact inside

/-- Within the buffer from the first state on, with the cursor on the grid. -/
def Bounded (rows columns : Nat) (s s' : Console) : Prop :=
  s'.cursorPos < rows * columns ∧ Within rows columns s s'

theorem Bounded.trans {s₁ : Console} (first : Bounded rows columns s s₁)
    (second : Bounded rows columns s₁ s') : Bounded rows columns s s' :=
  ⟨second.1, first.2.trans second.2⟩

theorem setCurPos_bounded (inside : s.cursorPos < rows * columns) (curPos : Int) :
    Bounded rows columns s (s.setCurPos rows columns curPos) :=
  ⟨setCurPos_cursor inside curPos, setCurPos_within curPos⟩

theorem clearFrom_spec {k rounds : Nat} (inside : k + rounds ≤ rows * columns) :
    Within rows columns s (s.clearFrom (k * 2) rounds) ∧
      (s.clearFrom (k * 2) rounds).cursorPos = s.cursorPos := by
  induction rounds generalizing k s with
  | zero => exact ⟨fun _ _ => rfl, rfl⟩
  | succ rounds ih =>
    have next : k * 2 + NO_BYTES_PER_CHARACTER = (k + 1) * 2 := (Nat.succ_mul k 2).symm
    rw [clearFrom, next]
    obtain ⟨within, cursor⟩ := ih (s := s.putChar (k * 2) SPACE WHITE_ON_BLACK)
      (k := k + 1) (by omega)
    refine ⟨(putChar_within (by omega)).trans within, ?_⟩
    rw [cursor, putChar_cursor]

theorem clearToEdge_spec {k : Nat} (inside : k ≤ rows * columns) (rounds : Nat) :
    Within rows columns s (s.clearToEdge columns (k * 2) rounds) ∧
      (s.clearToEdge columns (k * 2) rounds).cursorPos = s.cursorPos := by
  induction rounds generalizing k s with
  | zero => exact ⟨fun _ _ => rfl, rfl⟩
  | succ rounds ih =>
    rw [clearToEdge]
    split
    next => exact ⟨fun _ _ => rfl, rfl⟩
    next before =>
      have apart : k ≠ rows * columns := by
        rintro rfl
        apply before
        rw [Nat.mul_assoc]
        exact Nat.mul_mod_left rows (columns * 2)
      have next : k * 2 + 2 = (k + 1) * 2 := (Nat.succ_mul k 2).symm
      rw [next]
      obtain ⟨within, cursor⟩ := ih (s := s.putChar (k * 2) SPACE WHITE_ON_BLACK)
        (k := k + 1) (by omega)
      refine ⟨(putChar_within (by omega)).trans within, ?_⟩
      rw [cursor, putChar_cursor]

theorem clearToEdge_at {k : Nat} (edge : k % columns = 0) (rounds : Nat) :
    s.clearToEdge columns (k * 2) rounds = s := by
  cases rounds with
  | zero => rfl
  | succ rounds =>
    rw [clearToEdge, Nat.mul_mod_mul_right, edge, Nat.zero_mul]
    exact if_pos rfl

theorem clearToEdge_before {k : Nat} (before : k % columns ≠ 0) (rounds : Nat) :
    s.clearToEdge columns (k * 2) (rounds + 1) =
      (s.putChar (k * 2) SPACE WHITE_ON_BLACK).clearToEdge columns ((k + 1) * 2) rounds := by
  have next : k * 2 + 2 = (k + 1) * 2 := (Nat.succ_mul k 2).symm
  rw [clearToEdge, Nat.mul_mod_mul_right, next]
  exact if_neg (by omega)

section Writes

variable (rows_pos : 0 < rows) (columns_pos : 0 < columns) (inside : s.cursorPos < rows * columns)
include rows_pos columns_pos inside

theorem glyph_bounded (ch attr : UInt8) :
    Bounded rows columns s (s.glyph rows columns ch attr) :=
  ⟨scrollDown_cursor rows_pos columns_pos,
    (putChar_within (s := s) inside).trans (scrollDown_within rows_pos)⟩

theorem character_bounded (ch attr : UInt8) :
    Bounded rows columns s (s.character rows columns ch attr) := by
  rw [character]
  split
  · exact ⟨scrollDown_cursor rows_pos columns_pos, scrollDown_within rows_pos⟩
  · split
    · have first := glyph_bounded rows_pos columns_pos inside SPACE attr
      have second := first.trans (glyph_bounded rows_pos columns_pos first.1 SPACE attr)
      have third := second.trans (glyph_bounded rows_pos columns_pos second.1 SPACE attr)
      exact third.trans (glyph_bounded rows_pos columns_pos third.1 SPACE attr)
    · exact glyph_bounded rows_pos columns_pos inside ch attr

theorem characters_bounded (text : List UInt8) (attr : UInt8) :
    Bounded rows columns s (s.characters rows columns text attr) := by
  induction text generalizing s with
  | nil => exact ⟨inside, fun _ _ => rfl⟩
  | cons ch text ih =>
    have first := character_bounded rows_pos columns_pos inside ch attr
    exact first.trans (ih first.1)

theorem output_bounded (out : Output) : Bounded rows columns s (out.perform rows columns s) := by
  cases out with
  | character ch attr => exact character_bounded rows_pos columns_pos inside ch attr
  | message text attr => exact characters_bounded rows_pos columns_pos inside _ attr
  | nmessage text n attr => exact characters_bounded rows_pos columns_pos inside _ attr

omit rows_pos columns_pos in
theorem clear_bounded : Bounded rows columns s (s.clear rows columns) := by
  have all : 0 + rows * columns ≤ rows * columns := by omega
  obtain ⟨within, cursor⟩ := clearFrom_spec (s := s) all
  have first : Bounded rows columns s (s.clearFrom 0 (rows * columns)) := ⟨cursor ▸ inside, within⟩
  exact first.trans (setCurPos_bounded first.1 0)

omit columns_pos in
theorem clearLine_bounded (iStartPos : Int) :
    Bounded rows columns s (s.clearLine rows columns iStartPos) := by
  have start : ∀ p : Int, p.toNat < rows * columns → Bounded rows columns s
      ((s.clearToEdge columns (p.toNat * 2) columns).setCurPos rows columns p) := by
    intro p below
    have loop := clearToEdge_spec (s := s) (Nat.le_of_lt below) columns
    have first : Bounded rows columns s (s.clearToEdge columns (p.toNat * 2) columns) :=
      ⟨loop.2 ▸ inside, loop.1⟩
    exact first.trans (setCurPos_bounded first.1 p)
  have one_row : columns ≤ rows * columns := Nat.le_mul_of_pos_left columns rows_pos
  rw [clearLine]
  apply start
  split
  · exact inside
  · split
    · exact inside
    · omega

end Writes

theorem rawCharacter_spec (ch attr : UInt8) (inside : s.cursorPos < rows * columns) :
    Within rows columns s (s.rawCharacter ch attr) ∧
      (s.rawCharacter ch attr).cursorPos = s.cursorPos + 1 :=
  ⟨putChar_within inside, congrArg (· + 1) (putChar_cursor _)⟩

theorem rawRow_spec (src : Nat → Cell) (i : Nat) {cols : Nat}
    (inside : s.cursorPos + cols ≤ rows * columns) : Within rows columns s (s.rawRow src i cols) ∧
      (s.rawRow src i cols).cursorPos = s.cursorPos + cols := by
  induction cols generalizing i s with
  | zero => exact ⟨fun _ _ => rfl, rfl⟩
  | succ cols ih =>
    have here : s.cursorPos < rows * columns := by omega
    obtain ⟨first, cursor₁⟩ := rawCharacter_spec (src i).ch (src i).attr here
    obtain ⟨rest_, cursor⟩ := ih (s := s.rawCharacter (src i).ch (src i).attr) (i + 1)
      (by omega)
    refine ⟨first.trans rest_, ?_⟩
    rw [rawRow, cursor, cursor₁]
    omega

theorem rawRows_bounded (src : Nat → Cell) {cols : Nat} (some_ : 0 < cols) (i more : Nat)
    (room : s.cursorPos + more * columns + cols < rows * columns) :
    Bounded rows columns s (s.rawRows rows columns src cols i (more + 1) s.cursorPos) := by
  induction more generalizing i s with
  | zero =>
    have row : s.cursorPos + cols ≤ rows * columns := by omega
    obtain ⟨within, cursor⟩ := rawRow_spec src i row
    have first : Bounded rows columns s (s.rawRow src i cols) := ⟨by omega, within⟩
    exact first.trans (setCurPos_bounded first.1 _)
  | succ more ih =>
    have below : s.cursorPos + columns + more * columns + cols < rows * columns := by
      rw [Nat.succ_mul] at room
      omega
    have row : s.cursorPos + cols ≤ rows * columns := by omega
    obtain ⟨within, cursor⟩ := rawRow_spec src i row
    have first : Bounded rows columns s (s.rawRow src i cols) := ⟨by omega, within⟩
    have moved : ((s.rawRow src i cols).setCurPos rows columns (s.cursorPos + columns)).cursorPos =
        s.cursorPos + columns := by
      rw [setCurPos, if_pos (by omega)]
      rfl
    have second := first.trans (setCurPos_bounded first.1 (s.cursorPos + columns))
    have rest_ := ih (s := (s.rawRow src i cols).setCurPos rows columns (s.cursorPos + columns))
      (i + cols) (by rw [moved]; exact below)
    rw [moved] at rest_
    exact second.trans rest_

theorem rawRows_empty (src : Nat → Cell) (i areaRows : Nat) (curPos : Int)
    (inside : s.cursorPos < rows * columns) :
    Bounded rows columns s (s.rawRows rows columns src 0 i areaRows curPos) := by
  induction areaRows generalizing i curPos s with
  | zero => exact ⟨inside, fun _ _ => rfl⟩
  | succ areaRows ih =>
    have first := setCurPos_bounded inside (curPos + columns)
    exact first.trans (ih _ _ first.1)

def AreaInside (rows columns areaRows cols : Nat) (curPos : Int) : Prop :=
  areaRows = 0 ∨ cols = 0 ∨
    0 ≤ curPos ∧ curPos.toNat % columns + cols ≤ columns ∧ curPos.toNat / columns + areaRows ≤ rows

def Admits (rows columns : Nat) (_ : Console) : Op → Prop
  | .rawCharacterArea _ areaRows cols curPos => AreaInside rows columns areaRows cols curPos
  | _ => True

def LeavesRoom (rows columns : Nat) (s : Console) : Op → Prop
  | .rawCharacter _ _ => s.cursorPos + 1 < rows * columns
  | .rawCharacterArea _ areaRows cols curPos =>
      areaRows = 0 ∨ cols = 0 ∨ curPos.toNat + (areaRows - 1) * columns + cols < rows * columns
  | _ => True

def Allowed (rows columns : Nat) (s : Console) (op : Op) : Prop :=
  Admits rows columns s op ∧ LeavesRoom rows columns s op

theorem area_bounded (inside : s.cursorPos < rows * columns) (src : Nat → Cell)
    {areaRows cols : Nat} {curPos : Int} (area : AreaInside rows columns areaRows cols curPos)
    (room : areaRows = 0 ∨ cols = 0 ∨
      curPos.toNat + (areaRows - 1) * columns + cols < rows * columns) :
    Bounded rows columns s (s.rawCharacterArea rows columns src areaRows cols curPos) := by
  have first := setCurPos_bounded inside curPos
  rcases Nat.eq_zero_or_pos cols with rfl | some_
  · exact first.trans (rawRows_empty src 0 areaRows curPos first.1)
  · cases areaRows with
    | zero => exact first
    | succ more =>
      obtain ⟨valid, -⟩ := (area.resolve_left (by omega)).resolve_left (by omega)
      have room := (room.resolve_left (by omega)).resolve_left (by omega)
      rw [Nat.add_sub_cancel] at room
      have moved : ((s.setCurPos rows columns curPos).cursorPos : Int) = curPos := by
        rw [setCurPos, if_pos (by omega)]
        exact Int.toNat_of_nonneg valid
      have below : (s.setCurPos rows columns curPos).cursorPos + more * columns + cols <
          rows * columns := by omega
      have rest_ := rawRows_bounded src some_ 0 more below
      rw [moved] at rest_
      exact first.trans rest_

theorem perform_bounded (rows_pos : 0 < rows) (columns_pos : 0 < columns)
    (inside : s.cursorPos < rows * columns) {op : Op} (allowed : Allowed rows columns s op) :
    Bounded rows columns s (op.perform rows columns s) := by
  obtain ⟨admits, room⟩ := allowed
  cases op with
  | output out => exact output_bounded rows_pos columns_pos inside out
  | clear => exact clear_bounded inside
  | clearLine iStartPos => exact clearLine_bounded rows_pos inside iStartPos
  | setCurPos curPos => exact setCurPos_bounded inside curPos
  | moveCursor iOffSet => exact setCurPos_bounded inside _
  | rawCharacter ch attr =>
    obtain ⟨within, cursor⟩ := rawCharacter_spec ch attr inside
    exact ⟨cursor ▸ room, within⟩
  | rawCharacterArea src areaRows cols curPos => exact area_bounded inside src admits room
  | refresh =>
    obtain ⟨buffer, cursor⟩ := drawFrom_rest (s := s) 0 (rows * columns)
    exact ⟨cursor ▸ inside, fun i _ => congrFun buffer i⟩

def next (rows columns : Nat) (s : Console) (op : Op) : Option Console :=
  some (op.perform rows columns s)

theorem writes_stay_in_buffer {rows columns : Nat} (rows_pos : 0 < rows)
    (columns_pos : 0 < columns) {memory : Nat → UInt8} {display : Nat → Cell} {ops : List Op}
    {s : Console} (run : Run (Guarded (Allowed rows columns) (Steps (next rows columns)))
      (.new rows columns memory display) ops s) :
    s.cursorPos < rows * columns ∧ ∀ i, rows * columns * 2 ≤ i → s.buffer i = memory i := by
  have start : Bounded rows columns (.new rows columns memory display)
      (.new rows columns memory display) := ⟨Nat.mul_pos rows_pos columns_pos, fun _ _ => rfl⟩
  have bounded : Bounded rows columns (.new rows columns memory display) s := by
    apply run_invariant (Bounded rows columns (.new rows columns memory display)) _ run start
    intro s₁ op s₂ before taken
    obtain ⟨allowed, rfl⟩ : Allowed rows columns s₁ op ∧ op.perform rows columns s₁ = s₂ :=
      ⟨taken.1, Option.some.inj taken.2⟩
    exact before.trans (perform_bounded rows_pos columns_pos before.1 allowed)
  refine ⟨bounded.1, ?_⟩
  intro i behind
  rw [bounded.2 i behind]
  exact fillBlanks_other 0 _ i (by omega)

instance (rows columns areaRows cols : Nat) (curPos : Int) :
    Decidable (AreaInside rows columns areaRows cols curPos) :=
  inferInstanceAs (Decidable (_ ∨ _))

instance (rows columns : Nat) (s : Console) (op : Op) : Decidable (Admits rows columns s op) :=
  match op with
  | .rawCharacterArea _ areaRows cols curPos =>
    inferInstanceAs (Decidable (AreaInside rows columns areaRows cols curPos))
  | .rawCharacter _ _ | .output _ | .clear | .clearLine _ | .setCurPos _ | .moveCursor _
  | .refresh => inferInstanceAs (Decidable True)

instance (rows columns : Nat) (s : Console) (op : Op) : Decidable (LeavesRoom rows columns s op) :=
  match op with
  | .rawCharacterArea _ _ _ _ => inferInstanceAs (Decidable (_ ∨ _))
  | .rawCharacter _ _ => inferInstanceAs (Decidable (_ < _))
  | .output _ | .clear | .clearLine _ | .setCurPos _ | .moveCursor _ | .refresh =>
    inferInstanceAs (Decidable True)

instance (rows columns : Nat) (s : Console) (op : Op) : Decidable (Allowed rows columns s op) :=
  inferInstanceAs (Decidable (_ ∧ _))

theorem writes_stay_in_buffer_painted : ∃ s : Console,
    s.cursorPos < 2 * 3 ∧ ∀ i, 2 * 3 * 2 ≤ i → s.buffer i = 0 := by
  have checked : (runAll (guarded (Allowed 2 3) (next 2 3))
      (.new 2 3 (fun _ => 0) fun _ => ⟨0, 0⟩)
      [.rawCharacterArea (fun _ => ⟨120, 7⟩) 2 2 0, .output (.message [65, TAB, 66] 7),
        .clearLine (-1), .moveCursor (-9)]).isSome = true := by decide +kernel
  obtain ⟨s, all⟩ := Option.isSome_iff_exists.mp checked
  exact ⟨s, writes_stay_in_buffer (by decide) (by decide) (run_guarded_iff.mpr all)⟩

/-- One row of two cells: after a raw character in the second one, the cursor is behind the
    last cell, and the next character is written behind the buffer. -/
theorem raw_character_leaves_grid :
    let s := [.setCurPos 1, .rawCharacter 120 7].foldl (Op.perform 1 2)
      (.new 1 2 (fun _ => 0) fun _ => ⟨0, 0⟩)
    ¬ s.cursorPos < 1 * 2 ∧
      ((Op.output (.character 121 7)).perform 1 2 s).buffer (1 * 2 * 2) ≠ 0 := by
  decide +kernel

end ConsoleBuffer
