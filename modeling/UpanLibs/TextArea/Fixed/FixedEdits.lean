import UpanLibs.TextArea.Fixed.FixedMoves

/-!
The operations of a `FixedTextArea` that change lines keep it coherent and its lines
well shaped, where they return.
-/
namespace FixedText

open TextInput
namespace FixedTextArea

variable {c : Config} {s t : FixedTextArea}

/-- `removeLine` puts the wrapped flag of the removed line on the line above it. -/
structure Rejoined (maxLineChars : Nat) (above above' : List FixedTextLine) : Prop where
  sizes : above'.map (·.size) = above.map (·.size)
  solid : (∀ line ∈ above, Solid maxLineChars line) → ∀ line ∈ above', Solid maxLineChars line

theorem removeLine_ok {y fixedCharacterPosY : Nat} {lines : List FixedTextLine} {height : Int}
    (ok : removeLine c y fixedCharacterPosY s = .ok (lines, height)) :
    ∃ above line below above', s.lines = above ++ line :: below ∧ above.length = y ∧
      Rejoined s.maxLineChars above above' ∧
      ((lines = above' ++ line :: below ∧ height = 0) ∨
        (lines = above' ++ below ∧ height = c.lineHeight ∧
          (fixedCharacterPosY < y ∨ below ≠ []))) := by
  obtain ⟨line, here, ok⟩ := Fallible.bind_ok_iff.mp ok
  obtain ⟨above, below, split, rfl⟩ := SplitList.split_at (get_ok_iff.mp here)
  have rejoined : ∃ above', Rejoined s.maxLineChars above above' ∧
      rejoin line.wrapped above.length s.lines = above' ++ line :: below := by
    rcases List.eq_nil_or_concat above with rfl | ⟨before, prev, rfl⟩
    · exact ⟨[], ⟨rfl, by simp⟩, split⟩
    · rw [List.concat_eq_append] at split ⊢
      refine ⟨before ++ [if prev.wrapped then { prev with wrapped := line.wrapped } else prev],
        ⟨?_, ?_⟩, ?_⟩
      · by_cases wrapped : prev.wrapped = true <;> simp [wrapped, FixedTextLine.size]
      · intro solid l mem
        rcases List.mem_append.mp mem with earlier | last
        · exact solid l (by simp [earlier])
        · have prevSolid := solid prev (by simp)
          rw [List.mem_singleton] at last
          by_cases wrapped : prev.wrapped = true
          · rw [if_pos wrapped] at last
            subst last
            exact ⟨prevSolid.1, fun _ => prevSolid.2 wrapped⟩
          · rw [if_neg wrapped] at last
            exact last ▸ prevSolid
      · simp [split, rejoin]
  obtain ⟨above', rejoined, lines'⟩ := rejoined
  have length : above'.length = above.length := by
    have := congrArg List.length rejoined.sizes
    simpa using this
  refine ⟨above, line, below, above', split, rfl, rejoined, ?_⟩
  simp only [lines'] at ok
  have count : s.lines.length = above.length + below.length + 1 := by
    simp [split, Nat.add_assoc]
  split at ok
  next inside =>
    cases ok
    refine .inr ⟨by rw [← length, SplitList.eraseIdx_length], rfl, .inr ?_⟩
    rintro rfl
    simp at count
    omega
  next =>
    split at ok
    next above_ =>
      cases ok
      exact .inr ⟨by rw [← length, SplitList.eraseIdx_length], rfl, .inl above_⟩
    next =>
      cases ok
      exact .inl ⟨rfl, rfl⟩

def Relined (c : Config) (s : FixedTextArea) (lines : List FixedTextLine) : Prop :=
  ∃ line, lines[s.characterPos.y]? = some line ∧
    s.cursorPos.x = c.columnX (min s.characterPos.x line.size)

theorem Relined.row {lines : List FixedTextLine} (relined : Relined c s lines) :
    s.characterPos.y < lines.length := by
  obtain ⟨line, here, _⟩ := relined
  exact (List.getElem?_eq_some_iff.mp here).1

theorem Relined.coherent {lines : List FixedTextLine} (relined : Relined c s lines)
    (coherent : Coherent c s) (height z : Int) (content : height = c.linesHeight lines.length)
    (bound : ScrollBound { s with lines := lines, scrollHeight := height } z) :
    Coherent c ({ s with lines := lines, scrollHeight := height }.scrolledTo z) := by
  refine ⟨relined, ?_, content, bound⟩
  have base := coherent.base
  simp only [FixedTextArea.scrolledTo]
  omega

theorem Relined.changeScrollHeight {lines : List FixedTextLine} (relined : Relined c s lines)
    (coherent : Coherent c s) {delta : Int}
    (content : s.scrollHeight + delta = c.linesHeight lines.length) :
    ∃ z, FixedTextArea.changeScrollHeight delta { s with lines := lines } =
        .ok ({ s with lines := lines, scrollHeight := s.scrollHeight + delta }.scrolledTo z) ∧
      Coherent c
        ({ s with lines := lines, scrollHeight := s.scrollHeight + delta }.scrolledTo z) := by
  have low : 0 ≤ s.scrollHeight + delta := content ▸ c.linesHeight_nonneg _
  obtain ⟨z, changed, bound⟩ := changeScrollHeight_ok (s := { s with lines := lines })
    relined.row coherent.scroll low
  exact ⟨z, changed, relined.coherent coherent _ z content bound⟩

theorem Relined.same_count {lines : List FixedTextLine} (relined : Relined c s lines)
    (coherent : Coherent c s) (count : lines.length = s.lines.length) :
    Coherent c { s with lines := lines } := by
  have after := relined.coherent coherent s.scrollHeight s.scrollY
    (by rw [count, coherent.content]) coherent.scroll
  simpa [FixedTextArea.scrolledTo] using after

theorem relined_of_size (coherent : Coherent c s) {lines : List FixedTextLine}
    (same : (lines.map (·.size))[s.characterPos.y]? =
      (s.lines.map (·.size))[s.characterPos.y]?) : Relined c s lines := by
  obtain ⟨line, here, column⟩ := coherent.caret
  rw [List.getElem?_map, List.getElem?_map, here, Option.map_some] at same
  obtain ⟨line', here', size⟩ := Option.map_eq_some_iff.mp same
  exact ⟨line', here', by rw [size]; exact column⟩

theorem relined_at (coherent : Coherent c s) {above below : List FixedTextLine}
    {line line' : FixedTextLine} {below' : List FixedTextLine}
    (split : s.lines = above ++ line :: below) (length : above.length = s.characterPos.y)
    (column : min s.characterPos.x line'.size = min s.characterPos.x line.size) :
    Relined c s (above ++ line' :: below') := by
  obtain ⟨old, there, drawn⟩ := coherent.caret
  rw [split, ← length, SplitList.get_length] at there
  cases there
  refine ⟨line', ?_, by rw [drawn, column]⟩
  rw [← length, SplitList.get_length]

theorem Rejoined.shaped {maxLineChars : Nat} {above above' below : List FixedTextLine}
    (rejoined : Rejoined maxLineChars above above') (more : below ≠ [])
    (solid : ∀ line ∈ above, Solid maxLineChars line) (shaped : Shaped maxLineChars below) :
    Shaped maxLineChars (above' ++ below) :=
  (shaped_append more).mpr ⟨rejoined.solid solid, shaped⟩

theorem deleteLine_inv (inv : Inv c s) {y : Nat}
    (which : s.characterPos.y < y ∨ (y = s.characterPos.y ∧ s.characterPos.x = 0))
    (ok : deleteLine c y s = .ok t) : Inv c t ∧ t.characterPos = s.characterPos := by
  obtain ⟨⟨lines, height⟩, removed, shrunk⟩ := Fallible.bind_ok_iff.mp ok
  obtain ⟨above, line, below, above', split, rfl, rejoined, result⟩ := removeLine_ok removed
  have shaped := inv.shaped
  rw [split, shaped_append (by simp)] at shaped
  have solidAbove := rejoined.solid shaped.1
  have content := inv.coherent.content
  have length : above'.length = above.length := by
    simpa using congrArg List.length rejoined.sizes
  have relined : Relined c s lines ∧ Shaped s.maxLineChars lines ∧
      s.scrollHeight + -height = c.linesHeight lines.length := by
    rcases result with ⟨rfl, rfl⟩ | ⟨rfl, rfl, rest⟩
    · refine ⟨relined_of_size inv.coherent (by simp [split, rejoined.sizes]),
        rejoined.shaped (by simp) shaped.1 shaped.2, ?_⟩
      rw [content, split]
      simp [length]
    · refine ⟨?_, shaped_solid_append above' solidAbove (shaped_tail shaped.2), ?_⟩
      · rcases which with above_ | ⟨same, home⟩
        · refine relined_of_size inv.coherent ?_
          rw [split, List.map_append, List.map_append, rejoined.sizes,
            List.getElem?_append_left (by simpa using above_),
            List.getElem?_append_left (by simpa using above_)]
        · have more : below ≠ [] := rest.resolve_left (by omega)
          obtain ⟨next, after, rfl⟩ := List.exists_cons_of_ne_nil more
          refine ⟨next, ?_, ?_⟩
          · rw [← same, ← length]
            exact SplitList.get_length above' after next
          · obtain ⟨old, _, column⟩ := inv.coherent.caret
            rw [column, home, Nat.zero_min, Nat.zero_min]
      · rw [content, split]
        have succ := c.linesHeight_succ (above.length + below.length)
        simp only [List.length_append, List.length_cons, length]
        rw [← Nat.add_assoc, succ]
        omega
  obtain ⟨relined, shaped', content'⟩ := relined
  obtain ⟨z, changed, coherent⟩ := relined.changeScrollHeight inv.coherent content'
  cases shrunk.symm.trans changed
  exact ⟨⟨coherent, shaped', inv.settled⟩, rfl⟩

theorem wrapremove_inv (coherent : Coherent c s) (settled : Settled c s)
    {above below : List FixedTextLine} {line : FixedTextLine}
    (split : s.lines = above ++ line :: below) (length : above.length = s.characterPos.y)
    (solid : ∀ l ∈ above, Solid s.maxLineChars l) (fits : line.size ≤ s.maxLineChars)
    (shaped : Shaped s.maxLineChars below)
    (full : line.size < s.characterPos.x → line.wrapped = true → below ≠ [] →
      line.size = s.maxLineChars)
    (ok : wrapremove c s = .ok t) : Inv c t ∧ t.characterPos = s.characterPos := by
  have removed := wrapremovech_shape s.lines.length s.characterPos.x line below
    (by simp [split]; omega) fits shaped
  have drop : s.lines.drop s.characterPos.y = line :: below := by
    rw [split, ← length, List.drop_left]
  have take : s.lines.take s.characterPos.y = above := by
    rw [split, ← length, List.take_left]
  simp only [wrapremove, drop, take] at ok
  generalize wrapremovech s.maxLineChars s.lines.length s.characterPos.x (line :: below) = r
    at removed ok
  obtain ⟨lines, deleted⟩ := r
  obtain ⟨line', below', rfl⟩ : ∃ line' below', lines = line' :: below' := by
    cases lines with
    | nil => exact absurd removed.length (by simp)
    | cons line' below' => exact ⟨line', below', rfl⟩
  have column : min s.characterPos.x line'.size = min s.characterPos.x line.size := by
    by_cases inside : s.characterPos.x ≤ line.size
    · have := removed.column line' rfl inside
      rw [Nat.min_eq_left inside, Nat.min_eq_left this]
    · rw [removed.beyond line' rfl (by omega) (full (by omega))]
  have count : (above ++ line' :: below').length = s.lines.length := by
    have := removed.length
    simp only [List.length_cons] at this
    simp [split, this]
  have inv : Inv c { s with lines := above ++ line' :: below' } :=
    ⟨(relined_at coherent split length column).same_count coherent count,
      (shaped_append (by simp)).mpr ⟨solid, removed.shaped⟩, settled⟩
  cases deleted with
  | none =>
    cases ok
    exact ⟨inv, rfl⟩
  | some d =>
    have positive := (removed.deleted d rfl).1
    have below_ : s.characterPos.y < s.characterPos.y + d := by omega
    have after := deleteLine_inv inv (.inl below_) ok
    exact after

theorem Inv.split (inv : Inv c s) {line : FixedTextLine}
    (here : s.lines[s.characterPos.y]? = some line) :
    ∃ above below, s.lines = above ++ line :: below ∧ above.length = s.characterPos.y ∧
      (∀ l ∈ above, Solid s.maxLineChars l) ∧ line.size ≤ s.maxLineChars ∧
      Shaped s.maxLineChars below ∧
      (line.wrapped = true → below ≠ [] → line.size = s.maxLineChars) := by
  obtain ⟨above, below, split, length⟩ := SplitList.split_at here
  have shaped := inv.shaped
  rw [split, shaped_append (by simp)] at shaped
  refine ⟨above, below, split, length, shaped.1, shaped_size shaped.2 (by simp),
    shaped_tail shaped.2, fun wrapped more => ?_⟩
  exact ((shaped_cons more).mp shaped.2).1.2 wrapped

theorem Inv.reshape (inv : Inv c s) {above below : List FixedTextLine}
    {line line' : FixedTextLine} (split : s.lines = above ++ line :: below)
    (length : above.length = s.characterPos.y)
    (solid : line.size ≤ s.maxLineChars → Solid s.maxLineChars line')
    (column : min s.characterPos.x line'.size = min s.characterPos.x line.size) :
    Inv c { s with lines := above ++ line' :: below } := by
  have shaped := inv.shaped
  rw [split, shaped_append (by simp)] at shaped
  refine ⟨(relined_at inv.coherent split length column).same_count inv.coherent
    (by simp [split]), ?_, inv.settled⟩
  rw [shaped_append (by simp)]
  refine ⟨shaped.1, shaped_solid_append [line'] ?_ (shaped_tail shaped.2)⟩
  intro l mem
  rw [List.mem_singleton] at mem
  exact mem ▸ solid (shaped_size shaped.2 (by simp))

theorem removech_wrapped {line : FixedTextLine}
    (here : s.lines[s.characterPos.y]? = some line) (wrapped : line.wrapped = true) :
    removech c s = wrapremove c s := by
  simp [removech, get_ok_iff.mpr here, bind, Except.bind, wrapped]

theorem removech_inv (inv : Inv c s) (ok : removech c s = .ok t) :
    Inv c t ∧ t.characterPos = s.characterPos := by
  obtain ⟨line, got, removed⟩ := Fallible.bind_ok_iff.mp ok
  have here := get_ok_iff.mp got
  obtain ⟨above, below, split, length, solid, fits, shaped, full⟩ := inv.split here
  have set (line' : FixedTextLine) :
      s.lines.set s.characterPos.y line' = above ++ line' :: below := by
    rw [split, ← length, SplitList.set_length]
  by_cases wrapped : line.wrapped = true
  · rw [if_pos wrapped] at removed
    exact wrapremove_inv inv.coherent inv.settled split length solid fits shaped
      (fun _ => full) removed
  · rw [if_neg wrapped] at removed
    by_cases atEnd : s.characterPos.x = line.size ∧ 0 < s.characterPos.x
    · rw [if_pos atEnd, set] at removed
      have relined : Relined c s (above ++ ⟨line.chars, true⟩ :: below) :=
        relined_at inv.coherent split length rfl
      have coherent := relined.same_count inv.coherent (by simp [split])
      have split' : ({ s with lines := above ++ ⟨line.chars, true⟩ :: below } :
          FixedTextArea).lines = above ++ ⟨line.chars, true⟩ :: below := rfl
      have inside : ¬ line.size < s.characterPos.x := by omega
      have after := wrapremove_inv coherent inv.settled split' length solid fits shaped
        (fun beyond => absurd beyond inside) removed
      exact after
    · rw [if_neg atEnd] at removed
      by_cases empty : s.characterPos.x = line.size
      · rw [if_pos empty] at removed
        exact deleteLine_inv inv (.inr ⟨rfl, by omega⟩) removed
      · rw [if_neg empty, set] at removed
        cases removed
        have size := remove_size line s.characterPos.x
        refine ⟨inv.reshape split length (fun fits => ⟨?_, ?_⟩) ?_, rfl⟩
        · rw [size]
          split <;> omega
        · intro wrapped'
          exact absurd ((remove_wrapped _ _ _).symm.trans wrapped') wrapped
        · rw [size]
          split <;> omega

theorem removeAll_inv (inv : Inv c s) {charCount : Nat}
    (ok : removeAll c charCount s = .ok t) : Inv c t := by
  induction charCount generalizing s with
  | zero =>
    cases ok
    exact inv
  | succ charCount ih =>
    obtain ⟨s', removed, rest⟩ := Fallible.bind_ok_iff.mp ok
    exact ih (removech_inv inv removed).1 rest

theorem removeLines_inv (inv : Inv c s) {y count : Nat} (below : s.characterPos.y < y)
    (ok : removeLines c y count s = .ok t) : Inv c t := by
  induction count generalizing s with
  | zero =>
    cases ok
    exact inv
  | succ count ih =>
    obtain ⟨s', removed, rest⟩ := Fallible.bind_ok_iff.mp ok
    obtain ⟨inv', same⟩ := deleteLine_inv inv (.inl below) removed
    exact ih inv' (same ▸ below) rest

theorem vscroll_inv (inv : Inv c s) {rows : Int} (ok : vscroll rows s = .ok t) :
    Inv c t ∧ t = s.scrolledTo t.scrollY := by
  rw [vscroll_ok inv.coherent.row inv.coherent.scroll.1] at ok
  cases ok
  exact ⟨inv.scrolledTo (newScrollY_bound inv.coherent.scroll _), rfl⟩

theorem scrollToY_inv (inv : Inv c s) {curPosY : Int} (ok : scrollToY c curPosY s = .ok t) :
    Inv c t ∧ t = s.scrolledTo t.scrollY := by
  unfold scrollToY at ok
  split at ok
  · exact vscroll_inv inv ok
  · split at ok
    · exact vscroll_inv inv ok
    · cases ok
      exact ⟨inv, (scrolledTo_self s).symm⟩

theorem getLineBaseY_eq {lines : List FixedTextLine} {y : Nat} (row : y < lines.length)
    (z : Int) : getLineBaseY c lines y z = c.linesHeight (y + 1) - 1 - z := by
  simp [getLineBaseY, Config.linesHeight, Nat.not_le.mpr row]

theorem Inv.caretPast (inv : Inv c s) {p : UIPosition Nat} {line : FixedTextLine}
    (here : s.lines[p.y]? = some line) {q : UIPosition Int}
    (column : q.x = c.columnX (min p.x line.size))
    (base : q.y = c.linesHeight (p.y + 1) - 1 - s.scrollY) :
    Inv c { s with characterPos := p, cursorPos := q } :=
  ⟨⟨⟨line, here, column⟩, base, inv.coherent.content, inv.coherent.scroll⟩, inv.shaped,
    inv.settled⟩

theorem editSelection_inv (inv : Inv c s) (ok : editSelection c s = .ok t) : Inv c t := by
  unfold editSelection at ok
  by_cases present : s.selectedArea.present = true
  · rw [if_pos present] at ok
    obtain ⟨baseX, drawn, ok⟩ := Fallible.bind_ok_iff.mp ok
    obtain ⟨line, got, baseX_eq⟩ := Fallible.bind_ok_iff.mp drawn
    have here := get_ok_iff.mp got
    cases baseX_eq
    have row := (List.getElem?_eq_some_iff.mp here).1
    obtain ⟨s₁, put, ok⟩ := Fallible.bind_ok_iff.mp ok
    rw [updateCursorPosition_ok inv.coherent.row row] at put
    cases put
    have inv₁ := inv.caretPast here (q := ⟨_, _⟩) rfl (getLineBaseY_eq row s.scrollY)
    obtain ⟨s₂, scrolled, ok⟩ := Fallible.bind_ok_iff.mp ok
    obtain ⟨inv₂, same⟩ := scrollToY_inv inv₁ scrolled
    have inv₃ := inv₂.select { s₂.selectedArea with present := false }
    have caret : s₂.characterPos = s.selectedArea.p1 := by
      rw [same]
      rfl
    split at ok
    · exact removeAll_inv inv₃ ok
    · obtain ⟨s₄, lines, ok⟩ := Fallible.bind_ok_iff.mp ok
      have inv₄ := removeLines_inv inv₃ (by simp only [caret]; omega) lines
      obtain ⟨line1, _, ok⟩ := Fallible.bind_ok_iff.mp ok
      exact removeAll_inv inv₄ ok
  · rw [if_neg present] at ok
    cases ok
    exact inv

theorem moveToNewLine_ok (coherent : Coherent c s) {curLine newLine : FixedTextLine}
    (here : s.lines[s.characterPos.y]? = some curLine)
    (next : s.lines[s.characterPos.y + 1]? = some newLine) (unwrapNextLine : Bool) :
    ∃ z, s.ScrollBound z ∧ Coherent c (s.caretAt c 0 (s.characterPos.y + 1) z) ∧
      Coherent c (s.caretAt c newLine.size (s.characterPos.y + 1) z) ∧
      moveToNewLine c unwrapNextLine s =
        if unwrapNextLine then do
          let s ← removech c (s.caretAt c newLine.size (s.characterPos.y + 1) z)
          inlinemovehome c s
        else .ok (s.caretAt c 0 (s.characterPos.y + 1) z) := by
  have home : Coherent c (s.caretAt c 0 s.characterPos.y s.scrollY) :=
    Coherent.caretAt coherent.content here (Nat.zero_le _) coherent.scroll
  obtain ⟨z, down, bound⟩ := movedown_ok
    (home.drawn_on (show OnLine _ curLine from ⟨here, Nat.zero_le _⟩)) next
  have below := Coherent.caretAt coherent.content next (Nat.zero_le newLine.size) bound
  have end_ := Coherent.caretAt coherent.content next (Nat.le_refl newLine.size) bound
  refine ⟨z, bound, below, end_, ?_⟩
  simp only [caretAt_pos, caretAt_caretAt, Nat.zero_min] at down
  simp only [moveToNewLine, inlinemovehome_ok coherent, bind, Except.bind, down]
  cases unwrapNextLine with
  | false => rfl
  | true =>
    have on : OnLine (s.caretAt c 0 (s.characterPos.y + 1) z) newLine := ⟨next, Nat.zero_le _⟩
    have toEnd := inlinemoveend_ok below on
    simp only [caretAt_pos, caretAt_scrollY, caretAt_caretAt] at toEnd
    simp only [toEnd, if_true]

theorem moveToNewLine_inv (coherent : Coherent c s) (settled : Settled c s)
    {above below : List FixedTextLine} {curLine newLine : FixedTextLine}
    (split : s.lines = above ++ curLine :: newLine :: below)
    (length : above.length = s.characterPos.y) (solid : ∀ l ∈ above, Solid s.maxLineChars l)
    (curSolid : Solid s.maxLineChars curLine) (fits : newLine.size ≤ s.maxLineChars)
    (shaped : Shaped s.maxLineChars below) {unwrapNextLine : Bool}
    (full : unwrapNextLine = false → newLine.wrapped = true → below ≠ [] →
      newLine.size = s.maxLineChars)
    (wrapped : unwrapNextLine = true → newLine.wrapped = true)
    (ok : moveToNewLine c unwrapNextLine s = .ok t) : Inv c t := by
  have here : s.lines[s.characterPos.y]? = some curLine := by
    rw [split, ← length, SplitList.get_length]
  have next : s.lines[s.characterPos.y + 1]? = some newLine := by
    rw [split, ← length]
    simp
  obtain ⟨z, bound, below_, end_, moved⟩ := moveToNewLine_ok coherent here next unwrapNextLine
  have split' : s.lines = (above ++ [curLine]) ++ newLine :: below := by simp [split]
  have solid' : ∀ l ∈ above ++ [curLine], Solid s.maxLineChars l := by
    intro l mem
    rcases List.mem_append.mp mem with earlier | last
    · exact solid l earlier
    · exact (List.mem_singleton.mp last) ▸ curSolid
  rw [moved] at ok
  cases unwrapNextLine with
  | false =>
    cases ok
    refine ⟨below_, ?_, settled⟩
    rw [caretAt_lines, caretAt_max, split', shaped_append (by simp)]
    refine ⟨solid', ?_⟩
    by_cases more : below = []
    · subst more
      exact fits
    · exact (shaped_cons more).mpr ⟨⟨fits, fun marked => full rfl marked more⟩, shaped⟩
  | true =>
    obtain ⟨s', removed, ok⟩ := Fallible.bind_ok_iff.mp ok
    have here' : (s.caretAt c newLine.size (s.characterPos.y + 1) z).lines[s.characterPos.y + 1]? =
      some newLine := next
    rw [removech_wrapped here' (wrapped rfl)] at removed
    have inside : ¬ newLine.size < newLine.size := Nat.lt_irrefl _
    obtain ⟨inv', _⟩ := wrapremove_inv end_ settled split' (by simp [length]) solid' fits shaped
      (fun beyond => absurd beyond inside) removed
    rw [inlinemovehome_ok inv'.coherent] at ok
    cases ok
    obtain ⟨line', here', _⟩ := inv'.coherent.caret
    exact inv'.caretAt here' (Nat.zero_le _) inv'.coherent.scroll

theorem splitLine_ok (inv : Inv c s) {above below : List FixedTextLine}
    {line curLine newLine : FixedTextLine} (split : s.lines = above ++ line :: below)
    (length : above.length = s.characterPos.y)
    (old : curLine = ⟨line.chars.take s.characterPos.x, false⟩)
    (new : newLine = ⟨line.chars.drop s.characterPos.x, line.wrapped⟩) :
    ∃ z, Coherent c ({ s with
        lines := above ++ curLine :: newLine :: below,
        scrollHeight := s.scrollHeight + c.lineHeight }.scrolledTo z) ∧
      splitLine c line s = moveToNewLine c (0 < s.characterPos.x && newLine.wrapped) ({ s with
        lines := above ++ curLine :: newLine :: below,
        scrollHeight := s.scrollHeight + c.lineHeight }.scrolledTo z) := by
  have curSize : curLine.size = min s.characterPos.x line.size := by
    simp [old, FixedTextLine.size]
  have lines : (s.lines.set s.characterPos.y curLine).insertIdx (s.characterPos.y + 1) newLine =
      above ++ curLine :: newLine :: below := by
    have split' : above ++ curLine :: below = (above ++ [curLine]) ++ below := by simp
    have length' : s.characterPos.y + 1 = (above ++ [curLine]).length := by simp [length]
    rw [split, ← length, SplitList.set_length, length, length', split',
      SplitList.insertIdx_length]
    simp
  have relined : Relined c s (above ++ curLine :: newLine :: below) :=
    relined_at inv.coherent split length (by rw [curSize]; omega)
  have content : s.scrollHeight + c.lineHeight =
      c.linesHeight (above ++ curLine :: newLine :: below).length := by
    have succ := c.linesHeight_succ (above.length + below.length + 1)
    have count : (above ++ curLine :: newLine :: below).length =
        above.length + below.length + 1 + 1 := by
      simp
      omega
    have before : s.lines.length = above.length + below.length + 1 := by
      simp [split]
      omega
    rw [count, succ, ← before, inv.coherent.content]
  obtain ⟨z, changed, coherent⟩ := relined.changeScrollHeight inv.coherent content
  refine ⟨z, coherent, ?_⟩
  have marked : newLine.wrapped = line.wrapped := by rw [new]
  simp only [splitLine, ← new, ← old, lines, changed, bind, Except.bind, marked]

theorem splitLine_inv (inv : Inv c s) {line : FixedTextLine}
    (here : s.lines[s.characterPos.y]? = some line) (ok : splitLine c line s = .ok t) :
    Inv c t := by
  obtain ⟨above, below, split, length, solid, fits, shaped, full⟩ := inv.split here
  obtain ⟨z, coherent, cut⟩ := splitLine_ok inv split length rfl rfl
  have curSize : (⟨line.chars.take s.characterPos.x, false⟩ : FixedTextLine).size =
      min s.characterPos.x line.size := by
    simp [FixedTextLine.size]
  have newSize : (⟨line.chars.drop s.characterPos.x, line.wrapped⟩ : FixedTextLine).size =
      line.size - s.characterPos.x := by
    simp [FixedTextLine.size]
  have curSolid : Solid s.maxLineChars ⟨line.chars.take s.characterPos.x, false⟩ :=
    ⟨by omega, by simp⟩
  rw [cut] at ok
  refine moveToNewLine_inv coherent inv.settled rfl length solid curSolid ?_ shaped ?_ ?_ ok
  · rw [newSize]
    exact Nat.le_trans (Nat.sub_le _ _) fits
  · intro noUnwrap wrapped more
    have wrapped : line.wrapped = true := wrapped
    have home : s.characterPos.x = 0 := by simpa [wrapped] using noUnwrap
    rw [newSize, home, full wrapped more]
    rfl
  · intro unwrap
    simp only [Bool.and_eq_true] at unwrap
    exact unwrap.2

theorem enter_inv (inv : Inv c s) (ok : enter c s = .ok t) : Inv c t := by
  obtain ⟨line, got, entered⟩ := Fallible.bind_ok_iff.mp ok
  have here := get_ok_iff.mp got
  split at entered
  next above pos =>
    obtain ⟨prev, gotPrev, entered⟩ := Fallible.bind_ok_iff.mp entered
    split at entered
    next =>
      cases entered
      obtain ⟨before, after, split, rfl⟩ := SplitList.split_at (get_ok_iff.mp gotPrev)
      have shaped := inv.shaped
      rw [split, shaped_append (by simp)] at shaped
      rw [split, SplitList.set_length]
      have relined : Relined c s (before ++ ⟨prev.chars, false⟩ :: after) := by
        apply relined_of_size inv.coherent
        simp only [split, List.map_append, List.map_cons]
        rfl
      refine ⟨relined.same_count inv.coherent (by simp [split]), ?_, inv.settled⟩
      rw [shaped_append (by simp)]
      refine ⟨shaped.1, shaped_solid_append [_] ?_ (shaped_tail shaped.2)⟩
      intro l mem
      rw [List.mem_singleton] at mem
      subst mem
      have fits : prev.size ≤ s.maxLineChars := shaped_size shaped.2 (by simp)
      exact ⟨fits, by simp⟩
    next => exact splitLine_inv inv here entered
  next => exact splitLine_inv inv here entered

theorem linesAdded_ok (row : s.characterPos.y < s.lines.length)
    (bound : s.ScrollBound s.scrollY) (low : 0 ≤ s.scrollHeight) (added : Nat) :
    ∃ z, linesAdded c added s =
        .ok ({ s with scrollHeight := s.scrollHeight + c.linesHeight added }.scrolledTo z) ∧
      ScrollBound { s with scrollHeight := s.scrollHeight + c.linesHeight added } z := by
  induction added generalizing s with
  | zero =>
    refine ⟨s.scrollY, ?_, ?_⟩
    · simp [linesAdded, FixedTextArea.scrolledTo]
    · simpa using bound
  | succ added ih =>
    have pos := c.lineHeight_pos
    obtain ⟨z, changed, bound'⟩ := changeScrollHeight_ok row bound
      (show 0 ≤ s.scrollHeight + c.lineHeight by omega)
    obtain ⟨z', rest, bound''⟩ := ih (s := { s with
      scrollHeight := s.scrollHeight + c.lineHeight }.scrolledTo z) row bound' (by
        simp only [FixedTextArea.scrolledTo]
        omega)
    have height : s.scrollHeight + c.lineHeight + c.linesHeight added =
        s.scrollHeight + c.linesHeight (added + 1) := by
      rw [c.linesHeight_succ]
      omega
    refine ⟨z', ?_, ?_⟩
    · have shift : s.cursorPos.y - (z - s.scrollY) - (z' - z) =
          s.cursorPos.y - (z' - s.scrollY) := by omega
      simp only [linesAdded, changed, bind, Except.bind, rest]
      simp only [FixedTextArea.scrolledTo, height, shift]
    · rw [← height]
      exact bound''

theorem linesInserted_ok (inv : Inv c s) {ch : FixedCharacter}
    {above below below' : List FixedTextLine} {line : FixedTextLine} {added : Nat}
    (split : s.lines = above ++ line :: below) (length : above.length = s.characterPos.y)
    (spec : Inserted s.maxLineChars s.characterPos.x [ch].length (line :: below) (below', added)) :
    ∃ z, linesAdded c added { s with lines := above ++ below' } =
        .ok ({ s with
          lines := above ++ below',
          scrollHeight := s.scrollHeight + c.linesHeight added }.scrolledTo z) ∧
      Inv c ({ s with
        lines := above ++ below',
        scrollHeight := s.scrollHeight + c.linesHeight added }.scrolledTo z) := by
  have shaped := inv.shaped
  rw [split, shaped_append (by simp)] at shaped
  have count := spec.length
  simp only [List.length_cons] at count
  obtain ⟨line', rest, rfl⟩ := List.exists_cons_of_ne_nil
    (List.ne_nil_of_length_pos (by omega : 0 < below'.length))
  have inside : s.characterPos.x ≤ line.size := spec.inside line rfl
  have fits : line.size ≤ s.maxLineChars := shaped_size shaped.2 (by simp)
  have size : line'.size = min s.maxLineChars (line.size + 1) := spec.first line rfl line' rfl
  have relined : Relined c s (above ++ line' :: rest) :=
    relined_at inv.coherent split length (by omega)
  have content : s.scrollHeight + c.linesHeight added =
      c.linesHeight (above ++ line' :: rest).length := by
    have total : (above ++ line' :: rest).length = s.lines.length + added := by
      simp [split]
      simp at count
      omega
    rw [total, c.linesHeight_add, inv.coherent.content]
  obtain ⟨z, grown, bound⟩ := linesAdded_ok (c := c)
    (s := { s with lines := above ++ line' :: rest }) relined.row inv.coherent.scroll
    (inv.coherent.content ▸ c.linesHeight_nonneg _) added
  exact ⟨z, grown, relined.coherent inv.coherent _ z content bound,
    (shaped_append (by simp)).mpr ⟨shaped.1, spec.shaped⟩, inv.settled⟩

theorem insertedHere_ok (inv : Inv c s) {line : FixedTextLine}
    (here : s.lines[s.characterPos.y]? = some line) (within : s.characterPos.x + 1 ≤ line.size) :
    updateCursorPosition ⟨s.characterPos.x + 1, s.characterPos.y⟩
        ⟨s.cursorPos.x + c.charWidth, s.cursorPos.y⟩ s =
      .ok (s.caretAt c (s.characterPos.x + 1) s.characterPos.y s.scrollY) ∧
    Inv c (s.caretAt c (s.characterPos.x + 1) s.characterPos.y s.scrollY) := by
  have drawn := inv.coherent.drawn_on (show OnLine s line from ⟨here, by omega⟩)
  have right : s.cursorPos.x + c.charWidth = c.columnX (s.characterPos.x + 1) := by
    rw [c.columnX_succ, ← drawn.column]
  rw [right]
  exact ⟨inv.coherent.put _, inv.caretAt here within inv.coherent.scroll⟩

theorem insertedBelow_ok (inv : Inv c s) {line next : FixedTextLine}
    (here : s.lines[s.characterPos.y]? = some line) (first : 1 ≤ line.size)
    (below : s.lines[s.characterPos.y + 1]? = some next) :
    ∃ z, (updateCursorPosition ⟨1, s.characterPos.y⟩
          ⟨c.charWidth + c.leftMargin, s.cursorPos.y⟩ s >>= movedown c) =
        .ok (s.caretAt c (min 1 next.size) (s.characterPos.y + 1) z) ∧
      Inv c (s.caretAt c (min 1 next.size) (s.characterPos.y + 1) z) := by
  have one : c.charWidth + c.leftMargin = c.columnX 1 := by
    simp [Config.columnX, Int.add_comm]
  have onFirst := inv.caretAt here first inv.coherent.scroll
  obtain ⟨z, down, bound⟩ := movedown_ok
    (onFirst.coherent.drawn_on (show OnLine _ line from ⟨here, first⟩)) below
  refine ⟨z, ?_, onFirst.caretAt below (Nat.min_le_right _ _) bound⟩
  rw [one, inv.coherent.put]
  exact down

theorem doInsert_ok (inv : Inv c s) {ch : FixedCharacter} {above below below' : List FixedTextLine}
    {line : FixedTextLine} {added : Nat} (split : s.lines = above ++ line :: below)
    (length : above.length = s.characterPos.y)
    (inserted : insertFrom s.maxLineChars s.characterPos.x s.characterPos.y [ch]
      (line :: below) = .ok (below', added)) :
    ∃ x y z, doInsert c ch s = .ok ({ s with
        lines := above ++ below',
        scrollHeight := s.scrollHeight + c.linesHeight added }.caretAt c x y z) ∧
      Inv c ({ s with
        lines := above ++ below',
        scrollHeight := s.scrollHeight + c.linesHeight added }.caretAt c x y z) ∧
      (if s.characterPos.x = s.maxLineChars
        then ∃ next ∈ below'[1]?, x = min 1 next.size ∧ y = s.characterPos.y + 1
        else x = s.characterPos.x + 1 ∧ y = s.characterPos.y) := by
  have here : s.lines[s.characterPos.y]? = some line := by
    rw [split, ← length, SplitList.get_length]
  have drop : s.lines.drop s.characterPos.y = line :: below := by
    rw [split, ← length, List.drop_left]
  have take : s.lines.take s.characterPos.y = above := by
    rw [split, ← length, List.take_left]
  have shaped := inv.shaped
  rw [split, shaped_append (by simp)] at shaped
  have spec := insertFrom_shape inv.room (by simp) shaped.2 inserted
  obtain ⟨z, grown, inv'⟩ := linesInserted_ok inv split length spec
  have count := spec.length
  simp only [List.length_cons] at count
  obtain ⟨line', rest, rfl⟩ := List.exists_cons_of_ne_nil
    (List.ne_nil_of_length_pos (by omega : 0 < below'.length))
  have inside : s.characterPos.x ≤ line.size := spec.inside line rfl
  have fits : line.size ≤ s.maxLineChars := shaped_size shaped.2 (by simp)
  have size : line'.size = min s.maxLineChars (line.size + 1) := spec.first line rfl line' rfl
  have here' : (above ++ line' :: rest)[s.characterPos.y]? = some line' := by
    rw [← length, SplitList.get_length]
  have room := inv.room
  simp only [doInsert, drop, take, inserted, bind, Except.bind, grown, scrolledTo_lines,
    get_ok_iff.mpr here']
  by_cases full : s.characterPos.x = s.maxLineChars
  · obtain ⟨next, rest', rfl⟩ : ∃ next rest', rest = next :: rest' := by
      have more := spec.more line rfl (by simp; omega)
      cases rest with
      | nil => simp at more
      | cons next rest' => exact ⟨next, rest', rfl⟩
    have next_ : (above ++ line' :: next :: rest')[s.characterPos.y + 1]? = some next := by
      rw [← length]
      simp
    obtain ⟨z', down, moved⟩ := insertedBelow_ok inv' here' (by omega) next_
    refine ⟨min 1 next.size, s.characterPos.y + 1, z', ?_, moved, by simp [full]⟩
    rw [if_pos (by omega)]
    exact down
  · obtain ⟨right, moved⟩ := insertedHere_ok inv' here' (by
      change s.characterPos.x + 1 ≤ line'.size
      omega)
    refine ⟨s.characterPos.x + 1, s.characterPos.y, z, ?_, moved, by simp [full]⟩
    rw [if_neg (by omega)]
    exact right

end FixedTextArea
end FixedText
