import UpanLibs.Image.PngRows

/-!
What is encoded is decoded again: the encoder and the decoder walk over the same lines, with the
same line above each one.
-/
namespace Png

/-! A step of the encoder. -/

section

variable {c : Context} {ri : RowInfo}

theorem and_part {choices part all : Nat} (inside : all &&& part = part)
    (some_ : choices &&& part ≠ 0) : choices &&& all ≠ 0 := by
  intro none_
  apply some_
  rw [← inside, ← Nat.and_assoc, none_, Nat.zero_and]

theorem get_best_filter_requires {prev line : List Byte} {bytes_per_pixel filter_choice : Nat}
    (above : 1 < get_best_filter prev line bytes_per_pixel filter_choice) :
    requires_previous filter_choice := by
  obtain none_ | ⟨less, chosen⟩ := get_best_filter_picks prev line bytes_per_pixel filter_choice
  · rw [none_] at above
    cases above
  · generalize get_best_filter prev line bytes_per_pixel filter_choice = filter at *
    refine and_part ?_ chosen
    match filter with
    | 0 | 1 => omega
    | 2 | 3 | 4 => decide
    | _ + 5 => omega

theorem Context.Sound.row_lt (sound : c.Sound) (line : Line c.ihdr c.passes ri) :
    ri.row_num < c.ihdr.height := by
  have inside := line.idx
  rw [line.row, rowOf]
  split
  next plain =>
    have few := (passSize_le c.ihdr ri.pass).2
    rw [(sound.calculated.size ri.pass).2] at inside
    omega
  next interlaced =>
    have one : c.ihdr.interlace_method = 1 := by
      have := sound.checked.interlace
      omega
    exact (sound.place line.nonempty one).2.2 _ inside

def aboveLine (c : Context) (ri : RowInfo) (clears : Prop) [Decidable clears]
    (prev_scanline : List Byte) : List Byte :=
  (firstCleared ri (c.passes.sub ri.pass).scanline_width clears prev_scanline).take
    (c.lineWidth ri.pass)

def Roomy (c : Context) (buffer : List Byte) : Prop :=
  ∀ pass, ¬ (c.passes.sub pass).empty → (c.passes.sub pass).scanline_width ≤ buffer.length

theorem Roomy.of_length {buffer buffer' : List Byte} (roomy : Roomy c buffer)
    (same : buffer'.length = buffer.length) : Roomy c buffer' := by
  intro pass nonempty
  rw [same]
  exact roomy pass nonempty

theorem clearFirst_roomy {prev : List Byte} (roomy : Roomy c prev)
    (line : Line c.ihdr c.passes ri) (clears : Prop) [Decidable clears] :
    clearFirst ri (c.passes.sub ri.pass).scanline_width clears prev =
        some (firstCleared ri (c.passes.sub ri.pass).scanline_width clears prev) ∧
      front (firstCleared ri (c.passes.sub ri.pass).scanline_width clears prev)
        (c.lineWidth ri.pass) = some (aboveLine c ri clears prev) ∧
      Roomy c (firstCleared ri (c.passes.sub ri.pass).scanline_width clears prev) := by
  have room := roomy ri.pass line.nonempty
  have length := firstCleared_length ri clears room
  refine ⟨clearFirst_eq ri clears room, front_eq ?_, roomy.of_length length⟩
  rw [length]
  exact Nat.le_trans (Nat.sub_le _ _) room

theorem encodeLine_ok (sound : c.Sound) (filter_choice : Nat) {scanline prev : List Byte}
    (line : Line c.ihdr c.passes ri) (room : Roomy c scanline) (roomy : Roomy c prev) :
    ∃ filter ≤ 4, ∃ filtered, (1 < filter → requires_previous filter_choice) ∧
      filteredLine c (aboveLine c ri (requires_previous filter_choice) prev)
        (c.hostRow (scanline.take (c.lineWidth ri.pass))) filter = .ok filtered ∧
      ∀ buffer idat, encodeLine c filter_choice ⟨ri, buffer, prev, idat⟩ scanline =
        some (.ok ((update_row_info c.ihdr c.passes ri).1,
          ⟨(update_row_info c.ihdr c.passes ri).2,
            firstCleared ri (c.passes.sub ri.pass).scanline_width
              (requires_previous filter_choice) prev,
            setFront scanline (c.hostRow (scanline.take (c.lineWidth ri.pass))),
            idat ++ BitVec.ofNat 8 filter :: filtered⟩)) := by
  have enough : c.lineWidth ri.pass ≤ scanline.length :=
    Nat.le_trans (Nat.sub_le _ _) (room ri.pass line.nonempty)
  have some_ : c.hostRow (scanline.take (c.lineWidth ri.pass)) ≠ [] := by
    have positive := (sound.line_positive line.nonempty).1
    rw [← List.length_pos_iff, hostRow_length, List.length_take]
    omega
  obtain ⟨cleared, front_, _⟩ := clearFirst_roomy roomy line (requires_previous filter_choice)
  generalize filter_ : get_best_filter (aboveLine c ri (requires_previous filter_choice) prev)
    (c.hostRow (scanline.take (c.lineWidth ri.pass))) c.ihdr.bytes_per_pixel filter_choice = filter
  have known : filter ≤ 4 := filter_ ▸ get_best_filter_le ..
  obtain ⟨filtered, ok⟩ :=
    @filteredLine_ok c (aboveLine c ri (requires_previous filter_choice) prev) _ filter known some_
  refine ⟨filter, known, filtered, fun second => ?_, ok, fun buffer idat => ?_⟩
  · rw [← filter_] at second
    exact get_best_filter_requires second
  · unfold Context.lineWidth at enough front_ filter_ ok
    unfold encodeLine
    simp only [front_eq enough, cleared, front_, Option.bind_eq_bind, Option.bind_some, filter_, ok]
    rfl

def scanlineOf (c : Context) (pass : Nat) (row scanline : List Byte) : Option (List Byte) :=
  if c.wholeRows pass then Raster.memcpy scanline 0 row 0 (c.lineWidth pass : Nat)
  else interlaceRow c pass row scanline

theorem encode_row_eq (filter_choice : Nat) (s : Encoder) (row : List Byte) {len : Nat}
    (room : c.lineWidth s.row_info.pass ≤ len) : encode_row c filter_choice s row len =
      (scanlineOf c s.row_info.pass row s.scanline).bind (encodeLine c filter_choice s) := by
  have long : ¬ len < (c.passes.sub s.row_info.pass).scanline_width - 1 := Nat.not_lt.mpr room
  unfold encode_row encode_scanline scanlineOf
  simp only [if_neg long]
  split
  · rfl
  · rfl

/-! A step of the decoder. -/

def LastLine (c : Context) (ri : RowInfo) : Prop :=
  ri.scanline_idx = (c.passes.sub ri.pass).height - 1 ∧ ri.pass = c.passes.last_pass

instance (c : Context) (ri : RowInfo) : Decidable (LastLine c ri) :=
  inferInstanceAs (Decidable (_ ∧ _))

/-- What `inflate` gives from a line on: the filter byte of the next line is behind it. -/
def streamFrom (c : Context) (ri : RowInfo) (filtered : List Byte) (next_filter : Nat)
    (rest : List Byte) : List Byte :=
  filtered ++ if LastLine c ri then rest else BitVec.ofNat 8 next_filter :: rest

theorem decodeLine_ok (sound : c.Sound) (line : Line c.ihdr c.passes ri)
    {row filtered encoded buffer scanline prev before stream : List Byte} {filter : Nat}
    (room : Roomy c scanline) (roomy : Roomy c prev)
    (row_ : row.length = c.lineWidth ri.pass) (known : filter ≤ 4)
    (agree : 1 < filter → Agree c row.length encoded (aboveLine c ri (1 < filter) prev))
    (ok : filteredLine c encoded (c.hostRow row) filter = .ok filtered)
    (here : scanline.take (c.lineWidth ri.pass) = filtered) (next_filter : Nat) (done : Bool) :
    ∃ scanline', decodeLine c ⟨ri, filter, buffer, prev, before, done⟩ next_filter scanline
        stream = some (.ok ⟨ri, next_filter, scanline',
          firstCleared ri (c.passes.sub ri.pass).scanline_width (1 < filter) prev, stream, done⟩) ∧
      scanline'.length = scanline.length ∧ scanline'.take (c.lineWidth ri.pass) = row := by
  have enough : c.lineWidth ri.pass ≤ scanline.length :=
    Nat.le_trans (Nat.sub_le _ _) (room ri.pass line.nonempty)
  have back := line_back sound (row_ ▸ (sound.line_positive line.nonempty).2) known agree ok
  obtain ⟨cleared, front_, _⟩ := clearFirst_roomy roomy line (1 < filter)
  refine ⟨setFront scanline row, ?_, setFront_length (row_ ▸ enough), setFront_take row_⟩
  rw [← here] at back
  unfold Context.lineWidth at enough front_ back
  unfold decodeLine
  simp only [cleared, front_eq enough, front_, Option.bind_eq_bind, Option.bind_some, back]

theorem read_scanline_ok (sound : c.Sound) (line : Line c.ihdr c.passes ri)
    {row filtered encoded scanline prev : List Byte} {filter next_filter : Nat}
    (room : Roomy c scanline) (roomy : Roomy c prev)
    (row_ : row.length = c.lineWidth ri.pass) (known : filter ≤ 4) (next_ : next_filter ≤ 4)
    (last : LastLine c ri → next_filter = 0)
    (agree : 1 < filter → Agree c row.length encoded (aboveLine c ri (1 < filter) prev))
    (ok : filteredLine c encoded (c.hostRow row) filter = .ok filtered) (rest : List Byte)
    (done : Bool) :
    ∃ scanline', read_scanline c
        ⟨ri, filter, scanline, prev, streamFrom c ri filtered next_filter rest, done⟩ =
      some (.ok ⟨ri, next_filter, scanline',
        firstCleared ri (c.passes.sub ri.pass).scanline_width (1 < filter) prev, rest, done⟩) ∧
      scanline'.length = scanline.length ∧ scanline'.take (c.lineWidth ri.pass) = row := by
  have width : filtered.length = c.lineWidth ri.pass := by
    rw [filteredLine_length ok, hostRow_length, row_]
  have positive := sound.line_positive line.nonempty
  have whole : (c.passes.sub ri.pass).scanline_width = filtered.length + 1 := by
    unfold Context.lineWidth at width positive
    omega
  have fits := room ri.pass line.nonempty
  have byte : (BitVec.ofNat 8 next_filter).toNat = next_filter := by
    rw [BitVec.toNat_ofNat]
    omega
  have read (behind : List Byte) (few : behind.length ≤ 1) :
      Roomy c (setFront scanline (filtered ++ behind)) ∧
        (setFront scanline (filtered ++ behind)).length = scanline.length ∧
        (setFront scanline (filtered ++ behind)).take (c.lineWidth ri.pass) = filtered := by
    have length : (setFront scanline (filtered ++ behind)).length = scanline.length :=
      setFront_length (by rw [List.length_append]; omega)
    refine ⟨room.of_length length, length, ?_⟩
    rw [setFront, List.append_assoc, ← width, List.take_left]
  unfold read_scanline streamFrom
  simp only []
  by_cases end_ : LastLine c ri
  · have end' := end_
    unfold LastLine at end'
    obtain ⟨room', length, here⟩ := read [] (Nat.zero_le 1)
    rw [List.append_nil] at room' length here
    obtain ⟨scanline', run, length', line_⟩ := @decodeLine_ok c ri sound line row filtered encoded
      scanline _ prev _ rest filter room' roomy row_ known agree ok here next_filter done
    refine ⟨scanline', ?_, length'.trans length, line_⟩
    rw [whole] at run
    rw [if_pos end_, if_pos end', whole, Nat.add_sub_cancel, read_scanline_bytes,
      if_neg (by omega), if_neg (by rw [List.length_append]; omega), List.take_left,
      List.drop_left]
    simp only [Option.bind_eq_bind]
    rw [if_pos end', Option.bind_some, ← last end_, if_neg (by omega), run]
  · have end' := end_
    unfold LastLine at end'
    obtain ⟨room', length, here⟩ := read [BitVec.ofNat 8 next_filter] (Nat.le_refl 1)
    obtain ⟨scanline', run, length', line_⟩ := @decodeLine_ok c ri sound line row filtered encoded
      scanline _ prev _ rest filter room' roomy row_ known agree ok here next_filter done
    refine ⟨scanline', ?_, length'.trans length, line_⟩
    have parts : filtered ++ BitVec.ofNat 8 next_filter :: rest =
        (filtered ++ [BitVec.ofNat 8 next_filter]) ++ rest := by simp
    have length_ : (filtered ++ [BitVec.ofNat 8 next_filter]).length = filtered.length + 1 := by
      simp
    have behind : (setFront scanline (filtered ++ [BitVec.ofNat 8 next_filter]))[filtered.length]? =
        some (BitVec.ofNat 8 next_filter) := by
      rw [setFront, List.append_assoc, List.getElem?_append_right (Nat.le_refl _), Nat.sub_self]
      rfl
    rw [whole] at run
    rw [if_neg end_, if_neg end', parts, whole, Nat.add_sub_cancel, read_scanline_bytes,
      if_neg (by omega), if_neg (by rw [List.length_append, length_]; omega), ← length_,
      List.take_left, List.drop_left]
    simp only [Option.bind_eq_bind]
    rw [if_neg end', behind, Option.map_some, Option.bind_some, byte, if_neg (by omega), run,
      length_]

theorem decode_scanline_ok (sound : c.Sound) (line : Line c.ihdr c.passes ri)
    {row filtered encoded scanline prev : List Byte} {filter next_filter : Nat}
    (room : Roomy c scanline) (roomy : Roomy c prev)
    (row_ : row.length = c.lineWidth ri.pass) (known : filter ≤ 4) (next_ : next_filter ≤ 4)
    (last : LastLine c ri → next_filter = 0)
    (agree : 1 < filter → Agree c row.length encoded (aboveLine c ri (1 < filter) prev))
    (ok : filteredLine c encoded (c.hostRow row) filter = .ok filtered) (rest : List Byte)
    {out : List Byte} {len : Nat} (enough : c.lineWidth ri.pass ≤ out.length)
    (enough' : c.lineWidth ri.pass ≤ len) :
    ∃ scanline' out', decode_scanline c
        ⟨ri, filter, scanline, prev, streamFrom c ri filtered next_filter rest, false⟩ out len =
      some (.ok ((update_row_info c.ihdr c.passes ri).1,
        ⟨(update_row_info c.ihdr c.passes ri).2, next_filter,
          firstCleared ri (c.passes.sub ri.pass).scanline_width (1 < filter) prev, scanline', rest,
          (update_row_info c.ihdr c.passes ri).1 = .EOI⟩, out')) ∧
      scanline'.length = scanline.length ∧ scanline'.take (c.lineWidth ri.pass) = row ∧
      out'.length = out.length ∧
      ∀ i, out'[i]? = if i < c.lineWidth ri.pass then row[i]? else out[i]? := by
  obtain ⟨scanline', read, length, here⟩ :=
    read_scanline_ok sound line room roomy row_ known next_ last agree ok rest false
  have there : 0 + c.lineWidth ri.pass ≤ scanline'.length := by
    rw [Nat.zero_add, length]
    exact Nat.le_trans (Nat.sub_le _ _) (room ri.pass line.nonempty)
  have room_ : 0 + c.lineWidth ri.pass ≤ out.length := by omega
  obtain ⟨out', copy, length', bytes⟩ := Raster.memcpy_spec room_ there
  refine ⟨scanline', out', ?_, length, here, length', fun i => ?_⟩
  · unfold Context.lineWidth at copy enough'
    rw [decode_scanline]
    simp only []
    rw [if_neg (by simp), if_neg (Nat.not_lt.mpr enough'), read]
    simp only []
    rw [show Raster.memcpy out 0 scanline' 0
      (((c.passes.sub ri.pass).scanline_width - 1 : Nat) : Int) = some out' from copy]
    rfl
  · rw [bytes]
    simp only [Nat.zero_le, true_and, Nat.zero_add, Nat.sub_zero]
    split
    next inside => rw [← here, List.getElem?_take, if_pos inside]
    next => rfl

theorem Context.Sound.whole_width (sound : c.Sound) {pass : Nat} (whole : c.wholeRows pass)
    (nonempty : ¬ (c.passes.sub pass).empty) : c.lineWidth pass = c.image_width := by
  have width : (c.passes.sub pass).width = c.ihdr.width := by
    rw [(sound.calculated.size pass).1]
    unfold passSize passSizes
    obtain plain | same := whole
    · rw [sound.calculated.only plain nonempty, if_neg (by omega)]
      rfl
    · rw [same]
      split
      · rfl
      next plain =>
        have none_ := sound.calculated.only
          (by have := sound.checked.interlace; omega) nonempty
        omega
  rw [Context.lineWidth, sound.scanline_width_eq nonempty, sound.image_width_eq, width]
  omega

theorem scanlineOf_whole (sound : c.Sound) {pass : Nat} (nonempty : ¬ (c.passes.sub pass).empty)
    (whole : c.wholeRows pass) {row before after : List Byte} (room : Roomy c before)
    (row_ : row.length = c.image_width) (scan : scanlineOf c pass row before = some after) :
    after.take (c.lineWidth pass) = row := by
  have width := sound.whole_width whole nonempty
  have before_ : c.lineWidth pass ≤ before.length :=
    Nat.le_trans (Nat.sub_le _ _) (room pass nonempty)
  obtain ⟨after', copy, _, bytes⟩ := Raster.memcpy_spec
    (show 0 + c.lineWidth pass ≤ before.length by omega)
    (show 0 + c.lineWidth pass ≤ row.length by omega)
  rw [scanlineOf, if_pos whole] at scan
  cases Option.some.inj (scan.symm.trans copy)
  apply List.ext_getElem?
  intro i
  rw [List.getElem?_take, bytes]
  simp only [Nat.zero_le, true_and, Nat.zero_add, Nat.sub_zero]
  split
  · rfl
  · rw [List.getElem?_eq_none (by omega)]

theorem decode_row_ok (sound : c.Sound) (line : Line c.ihdr c.passes ri)
    {row before after out filtered encoded scanline prev : List Byte} {filter next_filter : Nat}
    (room : Roomy c scanline) (roomy : Roomy c prev) (room_ : Roomy c before)
    (row_ : row.length = c.image_width) (out_ : out.length = c.image_width)
    (blank : Blank c.ihdr row out) (scan : scanlineOf c ri.pass row before = some after)
    (known : filter ≤ 4) (next_ : next_filter ≤ 4) (last : LastLine c ri → next_filter = 0)
    (agree : 1 < filter → Agree c (c.lineWidth ri.pass) encoded (aboveLine c ri (1 < filter) prev))
    (ok : filteredLine c encoded (c.hostRow (after.take (c.lineWidth ri.pass))) filter =
      .ok filtered) (rest : List Byte) :
    ∃ scanline' out', decode_row c
        ⟨ri, filter, scanline, prev, streamFrom c ri filtered next_filter rest, false⟩ out
          c.image_width =
      some (.ok (if c.wholeRows ri.pass then (update_row_info c.ihdr c.passes ri).1 else .ok,
        ⟨(update_row_info c.ihdr c.passes ri).2, next_filter,
          firstCleared ri (c.passes.sub ri.pass).scanline_width (1 < filter) prev, scanline', rest,
          (update_row_info c.ihdr c.passes ri).1 = .EOI⟩, out')) ∧
      scanline'.length = scanline.length ∧
      scanline'.take (c.lineWidth ri.pass) = after.take (c.lineWidth ri.pass) ∧
      Filled c ri.pass row out out' := by
  have fits := sound.line_le line.nonempty
  unfold decode_row
  simp only []
  rw [if_neg (by simp), if_neg (Nat.lt_irrefl _)]
  by_cases whole : c.wholeRows ri.pass
  · have width := sound.whole_width whole line.nonempty
    have all := scanlineOf_whole sound line.nonempty whole room_ row_ scan
    rw [all] at ok ⊢
    obtain ⟨scanline', out', run, length', here, length'', bytes'⟩ := decode_scanline_ok sound line
      room roomy (by omega) known next_ last (by rw [row_, ← width]; exact agree) ok rest
      (show c.lineWidth ri.pass ≤ out.length by omega) fits
    have same : out' = row := by
      apply List.ext_getElem?
      intro i
      rw [bytes']
      split
      · rfl
      · rw [List.getElem?_eq_none (by omega), List.getElem?_eq_none (by omega)]
    rw [if_pos whole, if_pos whole, run, same]
    exact ⟨scanline', row, rfl, length', here, Filled.whole (row_.trans out_.symm)⟩
  · rw [scanlineOf, if_neg whole] at scan
    rw [if_neg whole, if_neg whole]
    obtain ⟨line', run', length, back⟩ :=
      interlace_filled sound line.nonempty whole blank row_ out_ (room_ ri.pass line.nonempty)
    cases Option.some.inj (scan.symm.trans run')
    have taken : (after.take (c.lineWidth ri.pass)).length = c.lineWidth ri.pass := by
      have before_ := room_ ri.pass line.nonempty
      rw [List.length_take, length]
      exact Nat.min_eq_left (Nat.le_trans (Nat.sub_le _ _) before_)
    obtain ⟨scanline', buffer, run, length', here, length'', bytes⟩ := decode_scanline_ok sound
      line room roomy taken known next_ last (by rw [taken]; exact agree) ok rest
      (show c.lineWidth ri.pass ≤ (List.replicate c.image_width (0 : Byte)).length by
        rw [List.length_replicate]; exact fits) fits
    obtain ⟨out', put, filled⟩ := back buffer (by rw [length'', List.length_replicate])
      fun i inside => by
        rw [List.getD_eq_getElem?_getD, List.getD_eq_getElem?_getD, bytes, if_pos inside,
          List.getElem?_take, if_pos inside]
    rw [run]
    simp only []
    rw [put]
    exact ⟨scanline', out', rfl, length', here, filled⟩

/-! The walk over the image. -/

/-- The lines from `ri` on are in the image `out'`, and elsewhere nothing has gone wrong. -/
structure Decoded (c : Context) (ri : RowInfo) (img out out' : List Byte) : Prop where
  length : out'.length = out.length
  behind : ∀ i, c.image_width * c.ihdr.height ≤ i → out'[i]? = out[i]?
  kept : ∀ y < c.ihdr.height, ∀ x b, b < c.ihdr.bytes_per_pixel →
    cell c.ihdr (imageRow c.image_width out' y) x b =
        cell c.ihdr (imageRow c.image_width img y) x b ∨
      cell c.ihdr (imageRow c.image_width out' y) x b =
        cell c.ihdr (imageRow c.image_width out y) x b
  lines : ∀ p idx, ¬ (c.passes.sub p).empty → idx < (c.passes.sub p).height → Ahead ri p idx →
    ∀ x b, b < c.ihdr.bytes_per_pixel → Covers c p x →
      cell c.ihdr (imageRow c.image_width out' (rowOf c.ihdr p idx)) x b =
        cell c.ihdr (imageRow c.image_width img (rowOf c.ihdr p idx)) x b

section

variable {img out row : List Byte}

theorem setImageRow_behind (inside : ri.row_num < c.ihdr.height)
    (room : c.image_width * c.ihdr.height ≤ out.length) (row_ : row.length = c.image_width)
    {i : Nat} (beyond : c.image_width * c.ihdr.height ≤ i) :
    (setImageRow c.image_width out ri.row_num row)[i]? = out[i]? := by
  have next := Nat.mul_le_mul_left c.image_width (Nat.succ_le_of_lt inside)
  rw [Nat.mul_succ, Nat.mul_comm c.image_width ri.row_num] at next
  rw [setImageRow_getElem? room inside row_, if_neg (by omega)]

theorem Decoded.last (sound : c.Sound) (line : Line c.ihdr c.passes ri)
    (room : c.image_width * c.ihdr.height ≤ out.length)
    (filled : Filled c ri.pass (imageRow c.image_width img ri.row_num)
      (imageRow c.image_width out ri.row_num) row)
    (end_ : ∀ p idx, ¬ (c.passes.sub p).empty → idx < (c.passes.sub p).height → Ahead ri p idx →
      p = ri.pass ∧ idx = ri.scanline_idx) :
    Decoded c ri img out (setImageRow c.image_width out ri.row_num row) := by
  have inside := sound.row_lt line
  have row_ : row.length = c.image_width := filled.length.trans (imageRow_length room inside)
  refine ⟨setImageRow_length room inside row_, fun i => setImageRow_behind inside room row_,
    fun y _ x b small => ?_, fun p idx nonempty less ahead x b small covers => ?_⟩
  · rw [imageRow_setImageRow room inside row_]
    split
    next here => exact here ▸ filled.kept x b small
    next => exact .inr rfl
  · obtain ⟨rfl, rfl⟩ := end_ p idx nonempty less ahead
    rw [← line.row, imageRow_setImageRow room inside row_, if_pos rfl]
    exact filled.covered x b small covers

theorem Decoded.next (sound : c.Sound) (line : Line c.ihdr c.passes ri)
    (room : c.image_width * c.ihdr.height ≤ out.length)
    (filled : Filled c ri.pass (imageRow c.image_width img ri.row_num)
      (imageRow c.image_width out ri.row_num) row) {ri' : RowInfo} {out' : List Byte}
    (later : Decoded c ri' img (setImageRow c.image_width out ri.row_num row) out')
    (ahead : ∀ p idx, ¬ (c.passes.sub p).empty → idx < (c.passes.sub p).height →
      Ahead ri p idx → (p = ri.pass ∧ idx = ri.scanline_idx) ∨ Ahead ri' p idx) :
    Decoded c ri img out out' := by
  have inside := sound.row_lt line
  have row_ : row.length = c.image_width := filled.length.trans (imageRow_length room inside)
  refine ⟨later.length.trans (setImageRow_length room inside row_), fun i beyond =>
    (later.behind i beyond).trans (setImageRow_behind inside room row_ beyond),
    fun y below x b small => ?_, fun p idx nonempty less ahead_ x b small covers => ?_⟩
  · have kept := later.kept y below x b small
    rw [imageRow_setImageRow room inside row_] at kept
    obtain right | old := kept
    · exact .inl right
    · split at old
      next here =>
        subst here
        rw [old]
        exact filled.kept x b small
      next => exact .inr old
  · obtain ⟨rfl, rfl⟩ | there := ahead p idx nonempty less ahead_
    · have kept := later.kept ri.row_num inside x b small
      rw [← line.row]
      rw [imageRow_setImageRow room inside row_, if_pos rfl] at kept
      obtain right | old := kept
      · exact right
      · rw [old]
        exact filled.covered x b small covers
    · exact later.lines p idx nonempty less there x b small covers

end

theorem scanlineOf_ok (sound : c.Sound) {pass : Nat} (nonempty : ¬ (c.passes.sub pass).empty)
    {row scanline : List Byte} (row_ : row.length = c.image_width) (room : Roomy c scanline) :
    ∃ after, scanlineOf c pass row scanline = some after ∧ after.length = scanline.length := by
  have fits := sound.line_le nonempty
  unfold scanlineOf
  split
  next =>
    have enough : c.lineWidth pass ≤ scanline.length :=
      Nat.le_trans (Nat.sub_le _ _) (room pass nonempty)
    obtain ⟨after, copy, length, _⟩ := Raster.memcpy_spec
      (show 0 + c.lineWidth pass ≤ scanline.length by omega)
      (show 0 + c.lineWidth pass ≤ row.length by omega)
    exact ⟨after, copy, length⟩
  next parts =>
    obtain ⟨line, run, length, _⟩ := interlace_filled sound nonempty parts
      (fun _ _ _ _ => .inl rfl) row_ row_ (room pass nonempty)
    exact ⟨line, run, length⟩

theorem aboveLine_agree {filter filter_choice : Nat} {prev prev' : List Byte}
    (second : 1 < filter) (requires : requires_previous filter_choice)
    (agree : ri.scanline_idx ≠ 0 → Agree c (c.lineWidth ri.pass)
      (prev.take (c.lineWidth ri.pass)) (prev'.take (c.lineWidth ri.pass))) :
    Agree c (c.lineWidth ri.pass) (aboveLine c ri (requires_previous filter_choice) prev)
      (aboveLine c ri (1 < filter) prev') := by
  unfold aboveLine firstCleared
  by_cases first : ri.scanline_idx = 0
  · have zeros (rest : List Byte) : (List.replicate (c.passes.sub ri.pass).scanline_width 0 ++
        rest).take (c.lineWidth ri.pass) = List.replicate (c.lineWidth ri.pass) (0 : Byte) := by
      rw [List.take_append_of_le_length (by rw [List.length_replicate]; exact Nat.sub_le _ _),
        List.take_replicate, Context.lineWidth, Nat.min_eq_left (Nat.sub_le _ _)]
    rw [if_pos ⟨first, requires⟩, if_pos ⟨first, second⟩, zeros, zeros]
    exact Agree.zeros c _ _
  · rw [if_neg fun both => first both.1, if_neg fun both => first both.1]
    exact agree first

theorem decodeLoop_done (n : Nat) {s : Decoder} (done : s.done = true) {out : List Byte}
    (room : c.image_width * c.ihdr.height ≤ out.length)
    (inside : s.row_info.row_num < c.ihdr.height) :
    decodeLoop c (n + 1) s out = some (.ok out) := by
  have same := setImageRow_imageRow room inside
  rw [decodeLoop, decode_row, if_pos done]
  exact congrArg (fun out : List Byte => (some (.ok out) : Option (Except Error (List Byte)))) same

theorem encode_row_ok (sound : c.Sound) (filter_choice : Nat) (line : Line c.ihdr c.passes ri)
    {row scanline prev : List Byte} (row_ : row.length = c.image_width) (room : Roomy c scanline)
    (roomy : Roomy c prev) :
    ∃ after, scanlineOf c ri.pass row scanline = some after ∧ after.length = scanline.length ∧
      ∃ filter ≤ 4, ∃ filtered, (1 < filter → requires_previous filter_choice) ∧
        filteredLine c (aboveLine c ri (requires_previous filter_choice) prev)
          (c.hostRow (after.take (c.lineWidth ri.pass))) filter = .ok filtered ∧
        ∀ idat, encode_row c filter_choice ⟨ri, scanline, prev, idat⟩ row c.image_width =
          some (.ok ((update_row_info c.ihdr c.passes ri).1,
            ⟨(update_row_info c.ihdr c.passes ri).2,
              firstCleared ri (c.passes.sub ri.pass).scanline_width
                (requires_previous filter_choice) prev,
              setFront after (c.hostRow (after.take (c.lineWidth ri.pass))),
              idat ++ BitVec.ofNat 8 filter :: filtered⟩)) := by
  obtain ⟨after, scan, length⟩ := scanlineOf_ok sound line.nonempty row_ room
  obtain ⟨filter, known, filtered, requires, ok, step⟩ := encodeLine_ok sound filter_choice line
    (room.of_length length) roomy
  refine ⟨after, scan, length, filter, known, filtered, requires, ok, fun idat => ?_⟩
  rw [encode_row_eq filter_choice ⟨ri, scanline, prev, idat⟩ _ (sound.line_le line.nonempty), scan,
    Option.bind_some, step]

/-- The encoder keeps a line as it wrote it, the decoder as it put it out, and both are the same
    line above for the next one. -/
theorem keptLine_agree (sound : c.Sound) (line : Line c.ihdr c.passes ri)
    {after scanline : List Byte}
    (taken : (after.take (c.lineWidth ri.pass)).length = c.lineWidth ri.pass)
    (here : scanline.take (c.lineWidth ri.pass) = after.take (c.lineWidth ri.pass)) :
    Agree c (c.lineWidth ri.pass)
      ((setFront after (c.hostRow (after.take (c.lineWidth ri.pass)))).take (c.lineWidth ri.pass))
      (scanline.take (c.lineWidth ri.pass)) := by
  have whole := (sound.line_positive line.nonempty).2
  have even (swaps : c.swaps) : 2 ∣ (after.take (c.lineWidth ri.pass)).length := by
    rw [taken]
    exact (Context.Sound.pixel_even swaps).trans whole
  have lines := Agree.line even
  rw [taken] at lines
  rw [setFront_take (by rw [hostRow_length, taken]), here]
  exact lines

theorem blank_setImageRow (sound : c.Sound) {img out row : List Byte}
    (inside : ri.row_num < c.ihdr.height) (room : c.image_width * c.ihdr.height ≤ out.length)
    (filled : Filled c ri.pass (imageRow c.image_width img ri.row_num)
      (imageRow c.image_width out ri.row_num) row)
    (blank : ∀ y < c.ihdr.height,
      Blank c.ihdr (imageRow c.image_width img y) (imageRow c.image_width out y)) :
    ∀ y < c.ihdr.height, Blank c.ihdr (imageRow c.image_width img y)
      (imageRow c.image_width (setImageRow c.image_width out ri.row_num row) y) := by
  have row_ : row.length = c.image_width := filled.length.trans (imageRow_length room inside)
  intro y below
  rw [imageRow_setImageRow room inside row_]
  split
  next here => exact here ▸ filled.blank sound (blank _ inside)
  next => exact blank y below

theorem decode_encode_lines (sound : c.Sound) (filter_choice : Nat) {img : List Byte}
    (img_ : c.image_width * c.ihdr.height ≤ img.length) (n : Nat) (ri : RowInfo)
    (few : linesLeft c.ihdr c.passes ri ≤ n) (line : Line c.ihdr c.passes ri)
    {scanline prev : List Byte} (room : Roomy c scanline) (roomy : Roomy c prev) :
    ∃ filter ≤ 4, ∃ rest,
      (∀ idat, ∃ s, encodeLoop c filter_choice img n ⟨ri, scanline, prev, idat⟩ = some (.ok s) ∧
        s.idat = idat ++ BitVec.ofNat 8 filter :: rest) ∧
      ∀ scanline' prev' out, Roomy c scanline' → Roomy c prev' →
        c.image_width * c.ihdr.height ≤ out.length →
        (ri.scanline_idx ≠ 0 → Agree c (c.lineWidth ri.pass) (prev.take (c.lineWidth ri.pass))
          (prev'.take (c.lineWidth ri.pass))) →
        (∀ y < c.ihdr.height,
          Blank c.ihdr (imageRow c.image_width img y) (imageRow c.image_width out y)) →
        ∃ out', decodeLoop c (n + 1) ⟨ri, filter, scanline', prev', rest, false⟩ out =
            some (.ok out') ∧ Decoded c ri img out out' := by
  induction n generalizing ri scanline prev with
  | zero =>
    have inside := line.idx
    unfold linesLeft at few
    omega
  | succ n ih =>
    have inside := sound.row_lt line
    have row_ := imageRow_length img_ inside
    obtain ⟨after, scan, length, filter, known, filtered, requires, ok, encoded⟩ :=
      encode_row_ok sound filter_choice line row_ room roomy
    have after_ := room.of_length length
    have enough : c.lineWidth ri.pass ≤ after.length :=
      Nat.le_trans (Nat.sub_le _ _) (after_ ri.pass line.nonempty)
    have taken : (after.take (c.lineWidth ri.pass)).length = c.lineWidth ri.pass := by
      rw [List.length_take, Nat.min_eq_left enough]
    have next_ : Roomy c (setFront after (c.hostRow (after.take (c.lineWidth ri.pass)))) :=
      after_.of_length (setFront_length (by rw [hostRow_length, taken]; exact enough))
    obtain ⟨-, -, cleared⟩ := clearFirst_roomy roomy line (requires_previous filter_choice)
    obtain ⟨last, update, end_⟩ | ⟨more, ri', update, line', fewer, first, ahead⟩ :=
      update_row_info_spec sound.checked sound.calculated line
    · have last_ : LastLine c ri := last
      refine ⟨filter, known, filtered, fun idat => ?_,
        fun scanline' prev' out room' roomy' space agree blank => ?_⟩
      · refine ⟨⟨ri, firstCleared ri (c.passes.sub ri.pass).scanline_width
          (requires_previous filter_choice) prev,
          setFront after (c.hostRow (after.take (c.lineWidth ri.pass))),
          idat ++ BitVec.ofNat 8 filter :: filtered⟩, ?_, rfl⟩
        rw [encodeLoop, encoded, update]
      · have out_ := imageRow_length space inside
        obtain ⟨scanline'', out', run, -, -, filled⟩ := decode_row_ok sound line room' roomy' room
          row_ out_ (blank _ inside) scan known (Nat.zero_le 4) (fun _ => rfl)
          (fun second => aboveLine_agree second (requires second) agree) ok []
        have stream : streamFrom c ri filtered 0 [] = filtered := by
          rw [streamFrom, if_pos last_, List.append_nil]
        rw [stream, update] at run
        have here := Decoded.last sound line space filled end_
        refine ⟨_, ?_, here⟩
        rw [decodeLoop, run]
        by_cases whole : c.wholeRows ri.pass
        · simp only [if_pos whole]
        · simp only [if_neg whole]
          exact decodeLoop_done n rfl (by rw [here.length]; exact space) inside
    · have more_ : ¬ LastLine c ri := more
      obtain ⟨filter', known', rest, later, decoded⟩ := ih ri' (by omega) line' cleared next_
      refine ⟨filter, known, filtered ++ BitVec.ofNat 8 filter' :: rest, fun idat => ?_,
        fun scanline' prev' out room' roomy' space agree blank => ?_⟩
      · obtain ⟨s, run, idat_⟩ := later (idat ++ BitVec.ofNat 8 filter :: filtered)
        refine ⟨s, ?_, ?_⟩
        · rw [encodeLoop, encoded, update]
          exact run
        · rw [idat_]
          simp
      · have out_ := imageRow_length space inside
        obtain ⟨scanline'', out', run, length', here, filled⟩ := decode_row_ok sound line room'
          roomy' room row_ out_ (blank _ inside) scan known known'
          (fun last => absurd last more_)
          (fun second => aboveLine_agree second (requires second) agree) ok rest
        have stream : streamFrom c ri filtered filter' rest =
            filtered ++ BitVec.ofNat 8 filter' :: rest := by
          rw [streamFrom, if_neg more_]
        rw [stream, update] at run
        have row' : out'.length = c.image_width := filled.length.trans out_
        have space' : c.image_width * c.ihdr.height ≤
            (setImageRow c.image_width out ri.row_num out').length := by
          rw [setImageRow_length space inside row']
          exact space
        have above : ri'.scanline_idx ≠ 0 → Agree c (c.lineWidth ri'.pass)
            ((setFront after (c.hostRow (after.take (c.lineWidth ri.pass)))).take
              (c.lineWidth ri'.pass)) (scanline''.take (c.lineWidth ri'.pass)) := by
          intro later
          obtain none_ | same := first
          · exact absurd none_ later
          · rw [same]
            exact keptLine_agree sound line taken here
        obtain ⟨-, -, cleared'⟩ := clearFirst_roomy roomy' line (1 < filter)
        obtain ⟨out'', run', done⟩ := decoded _ _ _ cleared' (room'.of_length length') space' above
          (blank_setImageRow sound inside space filled blank)
        refine ⟨out'', ?_, Decoded.next sound line space filled done ahead⟩
        rw [decodeLoop, run]
        have goes : (if c.wholeRows ri.pass then Ret.ok else Ret.ok) = Ret.ok := ite_self _
        simp only [goes]
        exact run'

/-! The image as a whole. -/

theorem Decoded.cells (sound : c.Sound) {img out out' : List Byte}
    (decoded : Decoded c (firstRow c.ihdr c.passes) img out out') {x y b : Nat}
    (row : y < c.ihdr.height) (column : c.ihdr.interlace_method = 0 ∨ x < c.ihdr.width)
    (small : b < c.ihdr.bytes_per_pixel) :
    cell c.ihdr (imageRow c.image_width out' y) x b =
      cell c.ihdr (imageRow c.image_width img y) x b := by
  obtain ⟨_, _, ahead, _⟩ := firstRow_line sound.checked sound.calculated
  by_cases plain : c.ihdr.interlace_method = 0
  · have height : (c.passes.sub 0).height = c.ihdr.height := by
      rw [(sound.calculated.size 0).2]
      unfold passSize passSizes
      rw [if_neg (by omega)]
      rfl
    have here := decoded.lines 0 y (sound.calculated.last_nonempty sound.checked).1
      (height ▸ row) (ahead 0 y) x b small (.inl plain)
    rwa [rowOf, if_pos plain] at here
  · have interlaced : c.ihdr.interlace_method = 1 := by
      have := sound.checked.interlace
      omega
    obtain ⟨p, _, k, inside, idx, less, rfl, rfl⟩ :=
      adam7_covers interlaced (column.resolve_left plain) row
    rw [← (sound.calculated.size p).1] at inside
    rw [← (sound.calculated.size p).2] at less
    have nonempty : ¬ (c.passes.sub p).empty := by
      unfold SubImage.empty
      omega
    have here := decoded.lines p idx nonempty less (ahead p idx) _ b small
      (.inr ⟨k, inside, rfl⟩)
    rwa [rowOf, if_neg plain] at here

theorem imageRow_append {image_width height : Nat} {img rest : List Byte} {y : Nat}
    (room : image_width * height ≤ img.length) (inside : y < height) :
    imageRow image_width (img ++ rest) y = imageRow image_width img y := by
  have next := Nat.mul_le_mul_left image_width (Nat.succ_le_of_lt inside)
  rw [Nat.mul_succ, Nat.mul_comm image_width y] at next
  rw [imageRow, imageRow, List.drop_append_of_le_length (by omega),
    List.take_append_of_le_length (by rw [List.length_drop]; omega)]

theorem getD_of_rows {image_width height : Nat} {l l' : List Byte}
    (rows : ∀ y < height, ∀ x < image_width,
      (imageRow image_width l y).getD x 0 = (imageRow image_width l' y).getD x 0)
    {i : Nat} (inside : i < image_width * height) : l.getD i 0 = l'.getD i 0 := by
  have row : i / image_width < height := Nat.div_lt_of_lt_mul inside
  have positive : 0 < image_width := Nat.pos_of_ne_zero fun none_ => by
    rw [none_, Nat.zero_mul] at inside
    exact absurd inside (Nat.not_lt_zero i)
  have column := Nat.mod_lt i positive
  have place : i / image_width * image_width + i % image_width = i := by
    rw [Nat.mul_comm]
    exact Nat.div_add_mod i image_width
  have here := rows _ row _ column
  rw [List.getD_eq_getElem?_getD, List.getD_eq_getElem?_getD, imageRow_getElem?,
    imageRow_getElem?, if_pos column, if_pos column, place] at here
  rwa [List.getD_eq_getElem?_getD, List.getD_eq_getElem?_getD]

theorem Decoded.bytes (sound : c.Sound) {img out out' : List Byte}
    (decoded : Decoded c (firstRow c.ihdr c.passes) img out out')
    (kind : c.ihdr.interlace_method = 0 ∨ 8 ≤ c.ihdr.bit_depth)
    (img_ : img.length = c.image_width * c.ihdr.height) (room : img.length ≤ out.length) :
    out' = img ++ out.drop img.length := by
  have rows (y : Nat) (below : y < c.ihdr.height) (x : Nat) (inside : x < c.image_width) :
      (imageRow c.image_width out' y).getD x 0 = (imageRow c.image_width img y).getD x 0 := by
    by_cases plain : c.ihdr.interlace_method = 0
    · have here := decoded.cells (x := x) sound below (.inl plain) sound.pixel_positive
      unfold cell at here
      rwa [if_pos plain, if_pos plain] at here
    · have bytes := kind.resolve_left plain
      have image_ := sound.image_bytes bytes
      have column : x / c.ihdr.bytes_per_pixel < c.ihdr.width :=
        Nat.div_lt_of_lt_mul (by rw [Nat.mul_comm, ← image_]; exact inside)
      have here := decoded.cells sound below (.inr column)
        (Nat.mod_lt x sound.pixel_positive)
      have place : x / c.ihdr.bytes_per_pixel * c.ihdr.bytes_per_pixel +
          x % c.ihdr.bytes_per_pixel = x := by
        rw [Nat.mul_comm]
        exact Nat.div_add_mod x _
      unfold cell pixelByte at here
      rwa [if_neg plain, if_neg plain, if_neg (by omega), if_neg (by omega), place] at here
  apply List.ext_getElem?
  intro i
  by_cases inside : i < img.length
  · have here := getD_of_rows rows (img_ ▸ inside)
    rw [List.getElem?_append_left inside, List.getElem?_eq_getElem inside,
      List.getElem?_eq_getElem (by rw [decoded.length]; omega)]
    rwa [List.getD_eq_getElem _ _ inside,
      List.getD_eq_getElem _ _ (by rw [decoded.length]; omega), ← Option.some_inj] at here
  · rw [List.getElem?_append_right (by omega), List.getElem?_drop,
      decoded.behind i (by omega)]
    congr 1
    omega

end

theorem malloc_roomy (sound : c.Sound) (heap : Nat → Byte) (start : Nat) :
    Roomy c (malloc heap start c.scanline_buf_size) ∧
      Roomy c ((malloc heap start c.scanline_buf_size).drop 16) := by
  constructor
  · intro pass nonempty
    have fits := sound.width_le nonempty
    rw [malloc_length]
    omega
  · intro pass nonempty
    have fits := sound.width_le nonempty
    rw [List.length_drop, malloc_length]
    omega

theorem blank_zeros {ihdr : iHeader} {image_width : Nat} {img out : List Byte} {y : Nat}
    (below : y < ihdr.height)
    (zeros : ihdr.bit_depth < 8 → ihdr.interlace_method ≠ 0 →
      ∀ i < image_width * ihdr.height, out.getD i 0 = 0) :
    Blank ihdr (imageRow image_width img y) (imageRow image_width out y) := by
  intro packed interlaced x b
  right
  have zero : (imageRow image_width out y).getD (x / (8 / ihdr.bit_depth)) 0 = 0#8 := by
    rw [List.getD_eq_getElem?_getD, imageRow_getElem?]
    split
    next inside =>
      have next := Nat.mul_le_mul_left image_width (Nat.succ_le_of_lt below)
      rw [Nat.mul_succ, Nat.mul_comm image_width y] at next
      rw [← List.getD_eq_getElem?_getD]
      exact zeros packed interlaced _ (by omega)
    next => rfl
  rw [cell, if_neg interlaced, pixelByte, if_pos packed, sampleAt, zero,
    BitVec.zero_ushiftRight, BitVec.zero_and]
  rfl

theorem drop_of_behind {size : Nat} {out out' : List Byte}
    (behind : ∀ i, size ≤ i → out'[i]? = out[i]?) : out'.drop size = out.drop size := by
  apply List.ext_getElem?
  intro i
  rw [List.getElem?_drop, List.getElem?_drop]
  exact behind _ (Nat.le_add_right _ _)

end Png
