import UpanLibs.Image.PngRoundTrip

/-!
Streams that no encoder made. Whatever `inflate` gives, the decoder comes to an end, with an
error or with an image, and stays inside its line buffers and the rows of the image.
-/
namespace Png

section

variable {σ : Type} (k : Kernel σ)

theorem Kernel.defilter3_length (s : σ) (prev row : List Byte) :
    (k.defilter3 s prev row).length = row.length := by
  induction s, prev, row using Kernel.defilter3.induct k with
  | case1 s prev r0 r1 r2 row load =>
    rename_i next ih
    rw [Kernel.defilter3]
    simp only [List.length_cons]
    rw [ih]
  | case2 s prev row other =>
    rw [Kernel.defilter3]
    exact other

theorem Kernel.defilter4_length (s : σ) (prev row : List Byte) :
    (k.defilter4 s prev row).length = row.length := by
  induction s, prev, row using Kernel.defilter4.induct k with
  | case1 s prev r0 r1 r2 r3 row =>
    rename_i next ih
    rw [Kernel.defilter4]
    simp only [List.length_cons]
    rw [ih]
  | case2 s prev row other =>
    rw [Kernel.defilter4]
    exact other

end

theorem defilter_scanline_length {prev scanline row : List Byte} {bytes_per_pixel filter : Nat}
    (ok : defilter_scanline prev scanline bytes_per_pixel filter = .ok row) :
    row.length = scanline.length := by
  unfold defilter_scanline at ok
  split at ok
  · cases ok
    rfl
  split at ok
  · cases ok
    simp [defilter_up]
  split at ok
  · split at ok
    · cases ok
      exact Kernel.defilter4_length _ _ _ _
    split at ok
    · cases ok
      exact Kernel.defilter4_length _ _ _ _
    split at ok
    · cases ok
      exact Kernel.defilter4_length _ _ _ _
    · cases ok
  split at ok
  · split at ok
    · cases ok
      exact Kernel.defilter3_length _ _ _ _
    split at ok
    · cases ok
      exact Kernel.defilter3_length _ _ _ _
    split at ok
    · cases ok
      exact Kernel.defilter3_length _ _ _ _
    · cases ok
  · cases ok
    exact defilterLoop_length

section

variable {c : Context} {ri : RowInfo}

structure Reading (c : Context) (s : Decoder) (ri : RowInfo) (done : Bool) : Prop where
  row_info : s.row_info = ri
  done : s.done = done
  scanline : Roomy c s.scanline
  prev_scanline : Roomy c s.prev_scanline

theorem decodeLine_safe {s : Decoder} (reading : Reading c s ri false)
    (line : Line c.ihdr c.passes ri) (next_filter : Nat) {scanline : List Byte}
    (room : Roomy c scanline) (stream : List Byte) :
    (∃ e, decodeLine c s next_filter scanline stream = some (.error e)) ∨
      ∃ s', decodeLine c s next_filter scanline stream = some (.ok s') ∧
        Reading c s' ri false := by
  have enough : c.lineWidth s.row_info.pass ≤ scanline.length := by
    rw [reading.row_info]
    exact Nat.le_trans (Nat.sub_le _ _) (room ri.pass line.nonempty)
  obtain ⟨cleared, front_, roomy⟩ := clearFirst_roomy reading.prev_scanline
    (reading.row_info ▸ line) (1 < s.filter)
  unfold Context.lineWidth at enough front_
  unfold decodeLine
  simp only [cleared, front_eq enough, front_, Option.bind_eq_bind, Option.bind_some]
  split
  next e _ => exact .inl ⟨e, rfl⟩
  next row defiltered =>
    have row_ : row.length ≤ scanline.length := by
      rw [defilter_scanline_length defiltered, hostRow_length, List.length_take]
      exact Nat.min_le_right _ _
    exact .inr ⟨_, rfl, reading.row_info, reading.done, room.of_length (setFront_length row_),
      roomy⟩

theorem read_scanline_bytes_safe {dest : List Byte} (stream : List Byte) {len : Nat}
    (room : len ≤ dest.length) :
    (∃ e, read_scanline_bytes dest stream len = some (.error e)) ∨
      ∃ dest' rest, read_scanline_bytes dest stream len = some (.ok (dest', rest)) ∧
        dest'.length = dest.length := by
  unfold read_scanline_bytes
  rw [if_neg (Nat.not_lt.mpr room)]
  split
  · exact .inl ⟨_, rfl⟩
  · refine .inr ⟨_, _, rfl, setFront_length ?_⟩
    rw [List.length_take]
    exact Nat.le_trans (Nat.min_le_left _ _) room

theorem read_scanline_safe (sound : c.Sound) {s : Decoder} (reading : Reading c s ri false)
    (line : Line c.ihdr c.passes ri) :
    (∃ e, read_scanline c s = some (.error e)) ∨
      ∃ s', read_scanline c s = some (.ok s') ∧ Reading c s' ri false := by
  obtain rfl := reading.row_info
  have fits := reading.scanline s.row_info.pass line.nonempty
  unfold read_scanline
  by_cases last : s.row_info.scanline_idx = (c.passes.sub s.row_info.pass).height - 1 ∧
      s.row_info.pass = c.passes.last_pass
  · simp only [if_pos last]
    obtain ⟨e, short⟩ | ⟨scanline, stream, read, length⟩ := read_scanline_bytes_safe s.stream
      (Nat.le_trans (Nat.sub_le (c.passes.sub s.row_info.pass).scanline_width 1) fits)
    · rw [short]
      exact .inl ⟨e, rfl⟩
    · rw [read]
      simp only [Option.bind_eq_bind, Option.bind_some]
      rw [if_neg (by omega)]
      exact decodeLine_safe reading line 0 (reading.scanline.of_length length) stream
  · simp only [if_neg last]
    obtain ⟨e, short⟩ | ⟨scanline, stream, read, length⟩ := read_scanline_bytes_safe s.stream fits
    · rw [short]
      exact .inl ⟨e, rfl⟩
    · have behind : (c.passes.sub s.row_info.pass).scanline_width - 1 < scanline.length := by
        have positive := (sound.line_positive line.nonempty).1
        unfold Context.lineWidth at positive
        omega
      rw [read]
      simp only [Option.bind_eq_bind]
      rw [List.getElem?_eq_getElem behind, Option.map_some, Option.bind_some]
      split
      · exact .inl ⟨_, rfl⟩
      · exact decodeLine_safe reading line _ (reading.scanline.of_length length) stream

theorem decode_scanline_safe (sound : c.Sound) {s : Decoder} (reading : Reading c s ri false)
    (line : Line c.ihdr c.passes ri) {out : List Byte} {len : Nat}
    (room : c.lineWidth ri.pass ≤ out.length) :
    (∃ e, decode_scanline c s out len = some (.error e)) ∨
      ∃ s' out', decode_scanline c s out len =
          some (.ok ((update_row_info c.ihdr c.passes ri).1, s', out')) ∧
        Reading c s' (update_row_info c.ihdr c.passes ri).2
          (decide ((update_row_info c.ihdr c.passes ri).1 = .EOI)) ∧
        out'.length = out.length := by
  obtain rfl := reading.row_info
  unfold decode_scanline
  simp only []
  rw [reading.done, if_neg (by simp)]
  split
  · exact .inl ⟨_, rfl⟩
  obtain ⟨e, fails⟩ | ⟨s', read, reading'⟩ := read_scanline_safe sound reading line
  · rw [fails]
    exact .inl ⟨e, rfl⟩
  · have there : 0 + c.lineWidth s.row_info.pass ≤ s'.scanline.length := by
      rw [Nat.zero_add]
      exact Nat.le_trans (Nat.sub_le _ _) (reading'.scanline _ line.nonempty)
    have room_ : 0 + c.lineWidth s.row_info.pass ≤ out.length := by omega
    obtain ⟨out', copy, length, _⟩ := Raster.memcpy_spec room_ there
    rw [read]
    simp only []
    rw [show Raster.memcpy out 0 s'.scanline 0
      (((c.passes.sub s.row_info.pass).scanline_width - 1 : Nat) : Int) = some out' from copy]
    exact .inr ⟨_, out', rfl, ⟨rfl, rfl, reading'.prev_scanline, reading'.scanline⟩, length⟩

theorem deinterlaceRow_safe (sound : c.Sound) {pass : Nat}
    (nonempty : ¬ (c.passes.sub pass).empty) (parts : ¬ c.wholeRows pass) {row out : List Byte}
    (row_ : row.length = c.image_width) (out_ : out.length = c.image_width) :
    ∃ out', deinterlaceRow c pass row out = some out' ∧ out'.length = out.length := by
  have interlaced := sound.interlaced parts
  have steps := (sound.place nonempty interlaced).1
  have fits := sound.line_le nonempty
  by_cases bytes : 8 ≤ c.ihdr.bit_depth
  · have there : (c.passes.sub pass).width * c.ihdr.bytes_per_pixel ≤ row.length := by
      rw [row_, ← sound.line_bytes nonempty bytes]
      exact fits
    obtain ⟨out', run, length, _⟩ := scatterLoop_spec row out steps
      (fun k inside => out_.symm ▸ sound.pixel_room nonempty interlaced bytes inside) there
    refine ⟨out', ?_, length⟩
    unfold deinterlaceRow
    rw [if_neg (by omega)]
    exact run
  · have packed := sound.packed (Nat.lt_of_not_le bytes)
    obtain ⟨line_, room⟩ := sound.sample_room nonempty interlaced packed
    obtain ⟨out', run, length, _⟩ := unpackLoop_spec packed (adam7_x_start pass) steps row
      (fun k inside => row_.symm ▸ Nat.lt_of_lt_of_le (line_ k inside) fits)
      fun k inside => out_.symm ▸ room k inside
    refine ⟨out', ?_, length⟩
    unfold deinterlaceRow
    rw [if_pos (by omega)]
    exact run

theorem decode_row_safe (sound : c.Sound) (line : Line c.ihdr c.passes ri) {s : Decoder}
    (reading : Reading c s ri false) {out : List Byte} (out_ : out.length = c.image_width) :
    (∃ e, decode_row c s out c.image_width = some (.error e)) ∨
      ∃ s' out', decode_row c s out c.image_width =
          some (.ok (if c.wholeRows ri.pass then (update_row_info c.ihdr c.passes ri).1 else .ok,
            s', out')) ∧
        Reading c s' (update_row_info c.ihdr c.passes ri).2
          (decide ((update_row_info c.ihdr c.passes ri).1 = .EOI)) ∧
        out'.length = out.length := by
  obtain rfl := reading.row_info
  have fits := sound.line_le line.nonempty
  unfold decode_row
  simp only []
  rw [reading.done, if_neg (by simp), if_neg (Nat.lt_irrefl _)]
  by_cases whole : c.wholeRows s.row_info.pass
  · rw [if_pos whole, if_pos whole]
    exact decode_scanline_safe sound reading line (by omega)
  · rw [if_neg whole, if_neg whole]
    have row_ : (List.replicate c.image_width (0 : Byte)).length = c.image_width :=
      List.length_replicate
    obtain ⟨e, fails⟩ | ⟨s', buffer, run, reading', length⟩ :=
      decode_scanline_safe sound reading line (row_.symm ▸ fits)
    · rw [fails]
      exact .inl ⟨e, rfl⟩
    · obtain ⟨out', put, length'⟩ :=
        deinterlaceRow_safe sound line.nonempty whole (length.trans row_) out_
      rw [run]
      simp only []
      rw [put]
      exact .inr ⟨s', out', rfl, reading', length'⟩

structure Untouched (c : Context) (out out' : List Byte) : Prop where
  length : out'.length = out.length
  behind : ∀ i, c.image_width * c.ihdr.height ≤ i → out'[i]? = out[i]?

theorem decodeLoop_safe (sound : c.Sound) (n : Nat) {s : Decoder}
    (few : linesLeft c.ihdr c.passes ri ≤ n) (line : Line c.ihdr c.passes ri)
    (reading : Reading c s ri false) {out : List Byte}
    (room : c.image_width * c.ihdr.height ≤ out.length) :
    (∃ e, decodeLoop c (n + 1) s out = some (.error e)) ∨
      ∃ out', decodeLoop c (n + 1) s out = some (.ok out') ∧ Untouched c out out' := by
  induction n generalizing ri s out with
  | zero =>
    have inside := line.idx
    unfold linesLeft at few
    omega
  | succ n ih =>
    have inside := sound.row_lt line
    have out_ := imageRow_length room inside
    have here := reading.row_info
    obtain ⟨e, fails⟩ | ⟨s', row, run, reading', length⟩ :=
      decode_row_safe sound line reading out_
    · left
      exact ⟨e, by rw [decodeLoop, here, fails]⟩
    · have row_ : row.length = c.image_width := length.trans out_
      have length' := setImageRow_length room inside row_
      have kept : Untouched c out (setImageRow c.image_width out ri.row_num row) :=
        ⟨length', fun i => setImageRow_behind inside room row_⟩
      have room' : c.image_width * c.ihdr.height ≤
          (setImageRow c.image_width out ri.row_num row).length := by
        rw [length']
        exact room
      rw [decodeLoop, here, run]
      obtain ⟨_, update, _⟩ | ⟨_, ri', update, line', fewer, _⟩ :=
        update_row_info_spec sound.checked sound.calculated line
      · rw [update] at reading' ⊢
        right
        by_cases whole : c.wholeRows ri.pass
        · simp only [if_pos whole]
          exact ⟨_, rfl, kept⟩
        · simp only [if_neg whole]
          refine ⟨_, decodeLoop_done n reading'.done room' ?_, kept⟩
          rw [reading'.row_info]
          exact inside
      · rw [update] at reading' ⊢
        have goes : (if c.wholeRows ri.pass then Ret.ok else Ret.ok) = Ret.ok := ite_self _
        simp only [goes]
        obtain fails | ⟨out', ok, kept'⟩ := ih (by omega) line' reading' room'
        · exact .inl fails
        · exact .inr ⟨out', ok, kept'.length.trans kept.length, fun i beyond =>
            (kept'.behind i beyond).trans (kept.behind i beyond)⟩

end

end Png
