import UpanLibs.Image.PngLines

/-!
A row through a pass. The pixels that the encoder takes from a row of the image for a line of the
pass are the ones that the decoder puts back.
-/
namespace Png

/-- A byte of a pixel; a packed sample is its only one. -/
def pixelByte (ihdr : iHeader) (row : List Byte) (x b : Nat) : Byte :=
  if ihdr.bit_depth < 8 then sampleAt ihdr.bit_depth row x
  else row.getD (x * ihdr.bytes_per_pixel + b) 0

/-- What a pass puts into a row one by one. -/
def cell (ihdr : iHeader) (row : List Byte) (x b : Nat) : Byte :=
  if ihdr.interlace_method = 0 then row.getD x 0 else pixelByte ihdr row x b

def Covers (c : Context) (pass x : Nat) : Prop :=
  c.ihdr.interlace_method = 0 ∨
    ∃ k < (c.passes.sub pass).width, x = adam7_x_start pass + k * adam7_x_delta pass

/-- Packed samples of an interlaced image are put into a row by an or. -/
def Blank (ihdr : iHeader) (row out : List Byte) : Prop :=
  ihdr.bit_depth < 8 → ihdr.interlace_method ≠ 0 → ∀ x b,
    cell ihdr out x b = cell ihdr row x b ∨ cell ihdr out x b = 0

/-- A pass has put the places of its line into the row and has left the other ones. -/
structure Filled (c : Context) (pass : Nat) (row out out' : List Byte) : Prop where
  length : out'.length = out.length
  covered : ∀ x b, b < c.ihdr.bytes_per_pixel → Covers c pass x →
    cell c.ihdr out' x b = cell c.ihdr row x b
  kept : ∀ x b, b < c.ihdr.bytes_per_pixel →
    cell c.ihdr out' x b = cell c.ihdr row x b ∨ cell c.ihdr out' x b = cell c.ihdr out x b

section

variable {c : Context} {pass : Nat} {row out : List Byte}

theorem Filled.whole (same : row.length = out.length) : Filled c pass row out row where
  length := same
  covered := fun _ _ _ _ => rfl
  kept := fun _ _ _ => .inl rfl

theorem Filled.blank {out' : List Byte} (sound : c.Sound) (filled : Filled c pass row out out')
    (blank : Blank c.ihdr row out) : Blank c.ihdr row out' := by
  intro packed interlaced x b
  -- The byte of a packed sample does not depend on `b`.
  have first (row : List Byte) : cell c.ihdr row x b = cell c.ihdr row x 0 := by
    unfold cell pixelByte
    rw [if_neg interlaced, if_neg interlaced, if_pos packed, if_pos packed]
  rw [first, first]
  obtain same | old := filled.kept x 0 sound.pixel_positive
  · exact .inl same
  · rw [old]
    exact blank packed interlaced x 0

theorem sampleAt_congr {bit_depth n : Nat} {l l' : List Byte}
    (same : ∀ i < n, l'.getD i 0 = l.getD i 0) {j : Nat} (inside : j / (8 / bit_depth) < n) :
    sampleAt bit_depth l' j = sampleAt bit_depth l j := by
  rw [sampleAt, sampleAt, same _ inside]

theorem Context.Sound.interlaced (sound : c.Sound) (parts : ¬ c.wholeRows pass) :
    c.ihdr.interlace_method = 1 := by
  have := sound.checked.interlace
  unfold Context.wholeRows at parts
  omega

theorem Context.Sound.place (sound : c.Sound) (nonempty : ¬ (c.passes.sub pass).empty)
    (interlaced : c.ihdr.interlace_method = 1) : 0 < adam7_x_delta pass ∧
      (∀ k < (c.passes.sub pass).width,
        adam7_x_start pass + k * adam7_x_delta pass < c.ihdr.width) ∧
      ∀ i < (c.passes.sub pass).height,
        adam7_y_start pass + i * adam7_y_delta pass < c.ihdr.height := by
  rw [(sound.calculated.size pass).1, (sound.calculated.size pass).2]
  exact adam7_inside interlaced (sound.calculated.known nonempty)

theorem Context.Sound.line_bytes (sound : c.Sound) (nonempty : ¬ (c.passes.sub pass).empty)
    (bytes : 8 ≤ c.ihdr.bit_depth) :
    c.lineWidth pass = (c.passes.sub pass).width * c.ihdr.bytes_per_pixel := by
  rw [Context.lineWidth, sound.scanline_width_eq nonempty, sound.bits_eq bytes]
  omega

theorem Context.Sound.image_bytes (sound : c.Sound) (bytes : 8 ≤ c.ihdr.bit_depth) :
    c.image_width = c.ihdr.width * c.ihdr.bytes_per_pixel := by
  rw [sound.image_width_eq, sound.bits_eq bytes]
  omega

theorem Context.Sound.pixel_room (sound : c.Sound) (nonempty : ¬ (c.passes.sub pass).empty)
    (interlaced : c.ihdr.interlace_method = 1) (bytes : 8 ≤ c.ihdr.bit_depth) {k : Nat}
    (inside : k < (c.passes.sub pass).width) :
    (adam7_x_start pass + k * adam7_x_delta pass + 1) * c.ihdr.bytes_per_pixel ≤
      c.image_width := by
  rw [sound.image_bytes bytes]
  exact Nat.mul_le_mul_right _ ((sound.place nonempty interlaced).2.1 k inside)

theorem Context.Sound.packed (sound : c.Sound) (few : c.ihdr.bit_depth < 8) :
    Packed c.ihdr.bit_depth := by
  have := sound.checked.bit_depth
  unfold Packed
  omega

theorem Context.Sound.sample_room (sound : c.Sound) (nonempty : ¬ (c.passes.sub pass).empty)
    (interlaced : c.ihdr.interlace_method = 1) (packed : Packed c.ihdr.bit_depth) :
    (∀ j < (c.passes.sub pass).width, j / (8 / c.ihdr.bit_depth) < c.lineWidth pass) ∧
      ∀ j < (c.passes.sub pass).width,
        (adam7_x_start pass + j * adam7_x_delta pass) / (8 / c.ihdr.bit_depth) <
          c.image_width := by
  have few : c.ihdr.bit_depth < 8 := by
    unfold Packed at packed
    omega
  have width := sound.scanline_width_eq nonempty
  have image := sound.image_width_eq
  rw [sound.checked.packed few, Nat.one_mul] at width image
  have fits {bits w j : Nat} (packed : Packed bits) (inside : j < w) :
      j / (8 / bits) < (bits * w + 15) / 8 - 1 := by
    obtain rfl | rfl | rfl := packed <;> omega
  refine ⟨fun j inside => ?_, fun j inside => ?_⟩
  · rw [Context.lineWidth, width]
    exact fits packed inside
  · have less := fits packed ((sound.place nonempty interlaced).2.1 j inside)
    rw [image]
    omega

theorem interlace_bytes (sound : c.Sound) (nonempty : ¬ (c.passes.sub pass).empty)
    (parts : ¬ c.wholeRows pass) (bytes : 8 ≤ c.ihdr.bit_depth)
    (row_ : row.length = c.image_width) (out_ : out.length = c.image_width)
    {scanline : List Byte} (room_ : (c.passes.sub pass).scanline_width ≤ scanline.length) :
    ∃ line, interlaceRow c pass row scanline = some line ∧ line.length = scanline.length ∧
      ∀ buffer : List Byte, buffer.length = c.image_width →
        (∀ i < c.lineWidth pass, buffer.getD i 0 = line.getD i 0) →
        ∃ out', deinterlaceRow c pass buffer out = some out' ∧ Filled c pass row out out' := by
  have interlaced := sound.interlaced parts
  obtain ⟨steps, columns, _⟩ := sound.place nonempty interlaced
  have line_ := sound.line_bytes nonempty bytes
  have room (k : Nat) := sound.pixel_room nonempty interlaced bytes (k := k)
  unfold interlaceRow deinterlaceRow
  rw [if_neg (by omega)]
  have fits : (c.passes.sub pass).width * c.ihdr.bytes_per_pixel ≤ scanline.length := by
    rw [← line_]
    exact Nat.le_trans (Nat.sub_le _ _) room_
  obtain ⟨line, run, length, pixels⟩ := gatherLoop_spec row scanline fits
    fun k inside => row_.symm ▸ room k inside
  refine ⟨line, run, length, fun buffer buffer_ same => ?_⟩
  obtain ⟨out', run', length', there, other⟩ := scatterLoop_spec buffer out steps
    (fun k inside => out_.symm ▸ room k inside)
    (by rw [buffer_, ← line_]; exact sound.line_le nonempty)
  rw [if_neg (by omega)]
  have read (row : List Byte) (x b : Nat) :
      cell c.ihdr row x b = row.getD (x * c.ihdr.bytes_per_pixel + b) 0 := by
    rw [cell, if_neg (by omega), pixelByte, if_neg (by omega)]
  have covered (k : Nat) (inside : k < (c.passes.sub pass).width) (b : Nat)
      (small : b < c.ihdr.bytes_per_pixel) :
      cell c.ihdr out' (adam7_x_start pass + k * adam7_x_delta pass) b =
        cell c.ihdr row (adam7_x_start pass + k * adam7_x_delta pass) b := by
    have next := Nat.mul_le_mul_right c.ihdr.bytes_per_pixel inside
    rw [Nat.succ_mul] at next
    rw [read, read, there k inside b small, same _ (by omega), pixels k inside b small]
  refine ⟨out', run', length', fun x b small covers => ?_, fun x b small => ?_⟩
  · obtain plain | ⟨k, inside, rfl⟩ := covers
    · omega
    · exact covered k inside b small
  · by_cases covers : ∃ k < (c.passes.sub pass).width,
        x = adam7_x_start pass + k * adam7_x_delta pass
    · obtain ⟨k, inside, rfl⟩ := covers
      exact .inl (covered k inside b small)
    · refine .inr ?_
      rw [read, read, other x (fun k inside here => covers ⟨k, inside, here⟩) b small]

theorem interlace_samples (sound : c.Sound) (nonempty : ¬ (c.passes.sub pass).empty)
    (parts : ¬ c.wholeRows pass) (few : c.ihdr.bit_depth < 8) (blank : Blank c.ihdr row out)
    (row_ : row.length = c.image_width) (out_ : out.length = c.image_width)
    {scanline : List Byte} (room_ : (c.passes.sub pass).scanline_width ≤ scanline.length) :
    ∃ line, interlaceRow c pass row scanline = some line ∧ line.length = scanline.length ∧
      ∀ buffer : List Byte, buffer.length = c.image_width →
        (∀ i < c.lineWidth pass, buffer.getD i 0 = line.getD i 0) →
        ∃ out', deinterlaceRow c pass buffer out = some out' ∧ Filled c pass row out out' := by
  have interlaced := sound.interlaced parts
  have packed := sound.packed few
  obtain ⟨steps, _, _⟩ := sound.place nonempty interlaced
  obtain ⟨line_, row_room⟩ := sound.sample_room nonempty interlaced packed
  unfold interlaceRow deinterlaceRow
  rw [if_pos few]
  have line_room (j : Nat) (inside : j < (c.passes.sub pass).width) :
      j / (8 / c.ihdr.bit_depth) < (c.passes.sub pass).scanline_width :=
    Nat.lt_of_lt_of_le (line_ j inside) (Nat.sub_le _ _)
  obtain ⟨line, run, length, packs⟩ := packLoop_spec packed (adam7_x_start pass)
    (adam7_x_delta pass) row (scanline.drop (c.passes.sub pass).scanline_width) line_room
    fun j inside => row_.symm ▸ row_room j inside
  have length' : line.length = scanline.length := by
    rw [length, List.length_drop]
    omega
  refine ⟨line, ?_, length', fun buffer buffer_ same => ?_⟩
  · rw [memset_eq room_, Option.bind_some, run]
  rw [if_pos few]
  have read (row : List Byte) (x b : Nat) :
      cell c.ihdr row x b = sampleAt c.ihdr.bit_depth row x := by
    rw [cell, if_neg (by omega), pixelByte, if_pos few]
  have there_ (j : Nat) (inside : j < (c.passes.sub pass).width) :
      j / (8 / c.ihdr.bit_depth) < buffer.length :=
    buffer_.symm ▸ Nat.lt_of_lt_of_le (line_ j inside) (sound.line_le nonempty)
  obtain ⟨out', run', length'', there, other⟩ := unpackLoop_spec packed (adam7_x_start pass)
    steps buffer there_ fun j inside => out_.symm ▸ row_room j inside
  have covered (k : Nat) (inside : k < (c.passes.sub pass).width) (b : Nat) :
      cell c.ihdr out' (adam7_x_start pass + k * adam7_x_delta pass) b =
        cell c.ihdr row (adam7_x_start pass + k * adam7_x_delta pass) b := by
    have old := blank few (by omega) (adam7_x_start pass + k * adam7_x_delta pass) b
    rw [read, read] at old
    rw [read, read, there k inside, sampleAt_congr same (line_ k inside), packs k inside]
    obtain old | old := old
    · rw [old, BitVec.or_self]
    · rw [old]
      exact BitVec.zero_or
  refine ⟨out', run', length'', fun x b small covers => ?_, fun x b small => ?_⟩
  · obtain plain | ⟨k, inside, rfl⟩ := covers
    · omega
    · exact covered k inside b
  · by_cases covers : ∃ k < (c.passes.sub pass).width,
        x = adam7_x_start pass + k * adam7_x_delta pass
    · obtain ⟨k, inside, rfl⟩ := covers
      exact .inl (covered k inside b)
    · refine .inr ?_
      rw [read, read, other x fun k inside here => covers ⟨k, inside, here⟩]

theorem interlace_filled (sound : c.Sound) (nonempty : ¬ (c.passes.sub pass).empty)
    (parts : ¬ c.wholeRows pass) (blank : Blank c.ihdr row out)
    (row_ : row.length = c.image_width) (out_ : out.length = c.image_width)
    {scanline : List Byte} (room : (c.passes.sub pass).scanline_width ≤ scanline.length) :
    ∃ line, interlaceRow c pass row scanline = some line ∧ line.length = scanline.length ∧
      ∀ buffer : List Byte, buffer.length = c.image_width →
        (∀ i < c.lineWidth pass, buffer.getD i 0 = line.getD i 0) →
        ∃ out', deinterlaceRow c pass buffer out = some out' ∧ Filled c pass row out out' := by
  by_cases bytes : 8 ≤ c.ihdr.bit_depth
  · exact interlace_bytes sound nonempty parts bytes row_ out_ room
  · exact interlace_samples sound nonempty parts (by omega) blank row_ out_ room

/-! The rows of an image. -/

theorem imageRow_getElem? (image_width : Nat) (img : List Byte) (y i : Nat) :
    (imageRow image_width img y)[i]? =
      if i < image_width then img[y * image_width + i]? else none := by
  rw [imageRow, List.getElem?_take, List.getElem?_drop]

theorem imageRow_length {image_width height : Nat} {img : List Byte} {y : Nat}
    (room : image_width * height ≤ img.length) (inside : y < height) :
    (imageRow image_width img y).length = image_width := by
  have next := Nat.mul_le_mul_left image_width (Nat.succ_le_of_lt inside)
  rw [Nat.mul_succ, Nat.mul_comm image_width y] at next
  rw [imageRow, List.length_take, List.length_drop]
  omega

theorem setImageRow_length {image_width height : Nat} {img row : List Byte} {y : Nat}
    (room : image_width * height ≤ img.length) (inside : y < height)
    (row_ : row.length = image_width) :
    (setImageRow image_width img y row).length = img.length := by
  have next := Nat.mul_le_mul_left image_width (Nat.succ_le_of_lt inside)
  rw [Nat.mul_succ, Nat.mul_comm image_width y] at next
  rw [setImageRow, List.length_append, List.length_append, List.length_take, List.length_drop,
    row_]
  omega

theorem setImageRow_getElem? {image_width height : Nat} {img row : List Byte} {y : Nat}
    (room : image_width * height ≤ img.length) (inside : y < height)
    (row_ : row.length = image_width) (i : Nat) :
    (setImageRow image_width img y row)[i]? =
      if y * image_width ≤ i ∧ i < y * image_width + image_width then row[i - y * image_width]?
      else img[i]? := by
  have next := Nat.mul_le_mul_left image_width (Nat.succ_le_of_lt inside)
  rw [Nat.mul_succ, Nat.mul_comm image_width y] at next
  have front : (img.take (y * image_width)).length = y * image_width := by
    rw [List.length_take]
    omega
  rw [setImageRow, List.append_assoc, List.getElem?_append, front]
  by_cases before : i < y * image_width
  · rw [if_pos before, if_neg (by omega), List.getElem?_take, if_pos before]
  rw [if_neg before, List.getElem?_append, row_]
  by_cases within : i - y * image_width < image_width
  · rw [if_pos within, if_pos (by omega)]
  · have rest : y * image_width + image_width + (i - y * image_width - image_width) = i := by omega
    rw [if_neg within, if_neg (by omega), List.getElem?_drop, rest]

theorem imageRow_setImageRow {image_width height : Nat} {img row : List Byte} {y : Nat}
    (room : image_width * height ≤ img.length) (inside : y < height)
    (row_ : row.length = image_width) (z : Nat) :
    imageRow image_width (setImageRow image_width img y row) z =
      if z = y then row else imageRow image_width img z := by
  apply List.ext_getElem?
  intro i
  rw [imageRow_getElem?]
  by_cases column : i < image_width
  · have here := Raster.place_mem_row 0 image_width y z (Nat.zero_add _).le column
    rw [Nat.zero_add, Nat.zero_add, Nat.add_comm i, Nat.add_comm image_width] at here
    rw [if_pos column, setImageRow_getElem? room inside row_]
    by_cases same : z = y
    · subst same
      rw [if_pos (here.mpr ⟨rfl, Nat.zero_le _, column⟩), if_pos rfl, Nat.add_sub_cancel_left]
    · rw [if_neg fun there => same (here.mp there).1, if_neg same, imageRow_getElem?,
        if_pos column]
  · rw [if_neg column]
    split
    · rw [List.getElem?_eq_none (by omega)]
    · rw [imageRow_getElem?, if_neg column]

theorem setImageRow_imageRow {image_width height : Nat} {img : List Byte} {y : Nat}
    (room : image_width * height ≤ img.length) (inside : y < height) :
    setImageRow image_width img y (imageRow image_width img y) = img := by
  apply List.ext_getElem?
  intro i
  rw [setImageRow_getElem? room inside (imageRow_length room inside), imageRow_getElem?]
  split
  next within =>
    have whole : y * image_width + (i - y * image_width) = i := by omega
    rw [if_pos (by omega), whole]
  next => rfl

end

end Png
