import UpanLibs.Image.BmpEncoder

/-!
The image that the rows of a file stand for, and the formats that `decode` reads so.
-/
namespace BmpEncoder

def rowBytes (i : InfoHeader) : Nat := (i.width * i.bitsPerPixel + 31) / 32 * 4

/-- The colour at column `x` of a row of the file. -/
def stored (i : InfoHeader) (table : List UInt32) (pixelData : Bytes) (x row : Nat) :
    Option UInt32 :=
  let start := row * rowBytes i
  match i.bitsPerPixel with
  | 4 => do
      let code ← pixelData[start + x / 2]?
      table[if x % 2 = 0 then code.toNat / 16 else code.toNat % 16]?
  | 8 => do
      let code ← pixelData[start + x]?
      table[code.toNat]?
  | 24 => do
      let b ← pixelData[start + 3 * x]?
      let g ← pixelData[start + 3 * x + 1]?
      let r ← pixelData[start + 3 * x + 2]?
      some (UInt32.ofNat (r.toNat * 65536 + g.toNat * 256 + b.toNat))
  | _ => none

/-! The running index. It counts nibbles for 4 bits and bytes otherwise. -/

def advance (bitsPerPixel : Nat) : Nat := if bitsPerPixel = 24 then 3 else 1

def colourAt (bitsPerPixel : Nat) (table : List UInt32) (pixelData : Bytes) (index : Nat) :
    Option UInt32 :=
  (readPixel bitsPerPixel table pixelData index).map Prod.fst

def stride (i : InfoHeader) : Nat := i.width * advance i.bitsPerPixel + scanLinePadding i

variable {bits : Nat} {i : InfoHeader} {table : List UInt32} {pixelData : Bytes}
  {transparentColor : Option UInt32}

theorem readPixel_eq (index : Nat) :
    readPixel bits table pixelData index
      = (colourAt bits table pixelData index).map fun color => (color, index + advance bits) := by
  have moved : ∀ r, readPixel bits table pixelData index = some r → r.2 = index + advance bits := by
    intro r read
    unfold readPixel at read
    split at read
    · simp only [Option.bind_eq_bind, Option.bind_eq_some_iff] at read
      obtain ⟨_, _, _, _, same⟩ := read
      cases same
      rfl
    · simp only [Option.bind_eq_bind, Option.bind_eq_some_iff] at read
      obtain ⟨_, _, _, _, same⟩ := read
      cases same
      rfl
    · simp only [Option.bind_eq_bind, Option.bind_eq_some_iff] at read
      obtain ⟨_, _, _, _, _, _, same⟩ := read
      cases same
      rfl
    · cases read
  rw [colourAt]
  cases read : readPixel bits table pixelData index with
  | none => rfl
  | some r =>
    rw [Option.map_some, Option.map_some, ← moved r read]

/-- After `k` rows of the file and `n` columns of the next one. -/
structure Filled (transparentColor : Option UInt32) (i : InfoHeader) (table : List UInt32)
    (pixelData : Bytes) (k n : Nat) (s : Nat × List UInt32) : Prop where
  index : s.1 = k * stride i + n * advance i.bitsPerPixel
  size : s.2.length = i.width * i.height
  pixels : ∀ x < i.width, ∀ y < i.height,
    i.height - 1 - y < k ∨ i.height - 1 - y = k ∧ x < n →
      s.2[y * i.width + x]? =
        (colourAt i.bitsPerPixel table pixelData
          ((i.height - 1 - y) * stride i + x * advance i.bitsPerPixel)).map
          (applyTransparencyFilter transparentColor)

theorem pixel_inside {x y width height : Nat} (column : x < width) (row : y < height) :
    y * width + x < width * height := by
  have rows : (y + 1) * width ≤ height * width := Nat.mul_le_mul_right width row
  rw [Nat.add_mul, Nat.one_mul] at rows
  rw [Nat.mul_comm width height]
  omega

theorem pixel_distinct {x y x' y' width : Nat} (column : x < width) (column' : x' < width)
    (same : y * width + x = y' * width + x') : y = y' ∧ x = x' := by
  have first := Raster.place (y := y) column
  have second := Raster.place (y := y') column'
  rw [Nat.add_comm] at first second
  rw [same] at first
  exact ⟨first.1.symm.trans second.1, first.2.symm.trans second.2⟩

variable {k n : Nat} {s t : Nat × List UInt32}

theorem pixelStep_eq (filled : Filled transparentColor i table pixelData k n s)
    (column : n < i.width) (row : k < i.height) :
    pixelStep transparentColor i table pixelData (i.height - 1 - k) n s =
      (colourAt i.bitsPerPixel table pixelData s.1).map fun color =>
        (s.1 + advance i.bitsPerPixel,
          s.2.set ((i.height - 1 - k) * i.width + n)
            (applyTransparencyFilter transparentColor color)) := by
  have inside : (i.height - 1 - k) * i.width + n < s.2.length := by
    rw [filled.size]
    exact pixel_inside column (by omega)
  rw [pixelStep, readPixel_eq]
  cases colourAt i.bitsPerPixel table pixelData s.1 with
  | none => rfl
  | some color =>
    simp only [Option.map_some, Option.bind_eq_bind, Option.bind_some, Raster.store_spec inside]

theorem filled_pixel (filled : Filled transparentColor i table pixelData k n s)
    (column : n < i.width) (row : k < i.height)
    (step : pixelStep transparentColor i table pixelData (i.height - 1 - k) n s = some t) :
    Filled transparentColor i table pixelData k (n + 1) t := by
  rw [pixelStep_eq filled column row, Option.map_eq_some_iff] at step
  obtain ⟨color, read, rfl⟩ := step
  refine ⟨?_, ?_, ?_⟩
  · simp only [filled.index, Nat.add_mul, Nat.one_mul]
    omega
  · simp only [List.length_set, filled.size]
  · intro x inside y below done
    have room : (i.height - 1 - k) * i.width + n < s.2.length := by
      rw [filled.size]
      exact pixel_inside column (by omega)
    by_cases here : i.height - 1 - y = k ∧ x = n
    · obtain ⟨rfl, rfl⟩ := here
      have same : i.height - 1 - (i.height - 1 - y) = y := by omega
      rw [same] at room
      simp only [same]
      rw [List.getElem?_set_self room, ← filled.index, read]
      rfl
    · have apart : (i.height - 1 - k) * i.width + n ≠ y * i.width + x := by
        intro same
        obtain ⟨rows, columns⟩ := pixel_distinct column inside same
        omega
      simp only [List.getElem?_set_ne apart]
      exact filled.pixels x inside y below (by omega)

theorem filled_row (filled : Filled transparentColor i table pixelData k i.width s) :
    Filled transparentColor i table pixelData (k + 1) 0 (s.1 + scanLinePadding i, s.2) := by
  refine ⟨?_, filled.size, ?_⟩
  · simp only [filled.index, stride, Nat.add_mul, Nat.one_mul]
    omega
  · intro x inside y below done
    exact filled.pixels x inside y below (by omega)

theorem rowStep_eq (transparentColor : Option UInt32) (i : InfoHeader) (table : List UInt32)
    (pixelData : Bytes) (n : Nat) (s : Nat × List UInt32) :
    rowStep transparentColor i table pixelData n s =
      (Raster.loop (pixelStep transparentColor i table pixelData (i.height - 1 - n)) i.width s).map
        fun s => (s.1 + scanLinePadding i, s.2) := by
  rw [rowStep]
  cases Raster.loop (pixelStep transparentColor i table pixelData (i.height - 1 - n)) i.width s <;>
    rfl

theorem filled_rowStep (filled : Filled transparentColor i table pixelData k 0 s)
    (row : k < i.height) (step : rowStep transparentColor i table pixelData k s = some t) :
    Filled transparentColor i table pixelData (k + 1) 0 t := by
  rw [rowStep_eq, Option.map_eq_some_iff] at step
  obtain ⟨mid, run, rfl⟩ := step
  apply filled_row
  exact Raster.loop_keeps (fun n => Filled transparentColor i table pixelData k n) filled
    (fun n column s t here => filled_pixel here column row) run

theorem filled_fresh (fresh : Nat → UInt32) :
    Filled transparentColor i table pixelData 0 0
      (0, (List.range (i.width * i.height)).map fresh) := by
  refine ⟨by simp, by simp, ?_⟩
  intro x _ y _ done
  omega

theorem decodePixels_eq (fresh : Nat → UInt32) :
    decodePixels transparentColor i table pixelData fresh =
      (Raster.loop (rowStep transparentColor i table pixelData) i.height
        (0, (List.range (i.width * i.height)).map fresh)).map Prod.snd := by
  rw [decodePixels]
  cases Raster.loop (rowStep transparentColor i table pixelData) i.height
    (0, (List.range (i.width * i.height)).map fresh) <;> rfl

theorem decodePixels_pixels {fresh : Nat → UInt32} {imageBuffer : List UInt32}
    (run : decodePixels transparentColor i table pixelData fresh = some imageBuffer) :
    imageBuffer.length = i.width * i.height ∧ ∀ x < i.width, ∀ y < i.height,
      imageBuffer[y * i.width + x]? =
        (colourAt i.bitsPerPixel table pixelData
          ((i.height - 1 - y) * stride i + x * advance i.bitsPerPixel)).map
          (applyTransparencyFilter transparentColor) := by
  rw [decodePixels_eq, Option.map_eq_some_iff] at run
  obtain ⟨s, rows, rfl⟩ := run
  have filled := Raster.loop_keeps (fun k => Filled transparentColor i table pixelData k 0)
    (filled_fresh fresh) (fun k row s t here => filled_rowStep here row) rows
  refine ⟨filled.size, fun x inside y below => filled.pixels x inside y below (by omega)⟩

theorem decodePixels_runs (fresh : Nat → UInt32)
    (there : ∀ x < i.width, ∀ row < i.height, ∃ color,
      colourAt i.bitsPerPixel table pixelData (row * stride i + x * advance i.bitsPerPixel)
        = some color) :
    ∃ imageBuffer, decodePixels transparentColor i table pixelData fresh = some imageBuffer := by
  have rows : ∃ s, Raster.loop (rowStep transparentColor i table pixelData) i.height
      (0, (List.range (i.width * i.height)).map fresh) = some s ∧
      Filled transparentColor i table pixelData i.height 0 s := by
    apply Raster.loop_spec fun k (s : Nat × List UInt32) =>
      Filled transparentColor i table pixelData k 0 s
    · exact filled_fresh fresh
    · intro k row s filled
      have columns : ∃ t,
          Raster.loop (pixelStep transparentColor i table pixelData (i.height - 1 - k)) i.width s
            = some t ∧ Filled transparentColor i table pixelData k i.width t := by
        apply Raster.loop_spec fun n (s : Nat × List UInt32) =>
          Filled transparentColor i table pixelData k n s
        · exact filled
        · intro n column s here
          obtain ⟨color, read⟩ := there n column k row
          rw [← here.index] at read
          have step := pixelStep_eq here column row
          rw [read, Option.map_some] at step
          exact ⟨_, step, filled_pixel here column row step⟩
      obtain ⟨t, run, _⟩ := columns
      have step := rowStep_eq transparentColor i table pixelData k s
      rw [run, Option.map_some] at step
      exact ⟨_, step, filled_rowStep filled row step⟩
  obtain ⟨s, run, _⟩ := rows
  rw [decodePixels_eq, run]
  exact ⟨s.2, rfl⟩

/-! What the masks and shifts of a pixel come to. -/

theorem low_nibble (code : UInt8) : (code &&& 0xF).toNat = code.toNat % 16 := by
  rw [UInt8.toNat_and]
  exact Nat.and_two_pow_sub_one_eq_mod code.toNat 4

theorem high_nibble (code : UInt8) : ((code >>> 4) &&& 0xF).toNat = code.toNat / 16 := by
  have small := code.toNat_lt
  rw [low_nibble, UInt8.toNat_shiftRight, Nat.shiftRight_eq_div_pow]
  have four : (4 : UInt8).toNat % 8 = 4 := rfl
  rw [four]
  omega

theorem pack_eq (r g b : UInt8) :
    pack r.toUInt32 g.toUInt32 b.toUInt32
      = UInt32.ofNat (r.toNat * 65536 + g.toNat * 256 + b.toNat) := by
  have hr := r.toNat_lt
  have hg := g.toNat_lt
  have hb := b.toNat_lt
  have blue : (b.toUInt32 &&& 0x000000FF).toNat = b.toNat := by
    rw [UInt32.toNat_and, UInt8.toNat_toUInt32]
    exact (Nat.and_two_pow_sub_one_eq_mod b.toNat 8).trans (Nat.mod_eq_of_lt hb)
  have green : (g.toUInt32 <<< 8 &&& 0x0000FF00).toNat = g.toNat <<< 8 := by
    have shifted : (g.toUInt32 <<< 8).toNat = g.toNat <<< 8 := by
      rw [UInt32.toNat_shiftLeft, UInt8.toNat_toUInt32]
      apply Nat.mod_eq_of_lt
      change g.toNat <<< 8 < 2 ^ 32
      omega
    rw [UInt32.toNat_and, shifted]
    change g.toNat <<< 8 &&& 255 <<< 8 = _
    rw [← Nat.shiftLeft_and_distrib]
    exact congrArg (· <<< 8)
      ((Nat.and_two_pow_sub_one_eq_mod g.toNat 8).trans (Nat.mod_eq_of_lt hg))
  have red : (r.toUInt32 <<< 16 &&& 0x00FF0000).toNat = r.toNat <<< 16 := by
    have shifted : (r.toUInt32 <<< 16).toNat = r.toNat <<< 16 := by
      rw [UInt32.toNat_shiftLeft, UInt8.toNat_toUInt32]
      apply Nat.mod_eq_of_lt
      change r.toNat <<< 16 < 2 ^ 32
      omega
    rw [UInt32.toNat_and, shifted]
    change r.toNat <<< 16 &&& 255 <<< 16 = _
    rw [← Nat.shiftLeft_and_distrib]
    exact congrArg (· <<< 16)
      ((Nat.and_two_pow_sub_one_eq_mod r.toNat 8).trans (Nat.mod_eq_of_lt hr))
  apply UInt32.toNat_inj.mp
  simp only [pack, UInt32.toNat_or, red, green, blue]
  have low : g.toNat <<< 8 + b.toNat < 2 ^ 16 := by omega
  rw [Nat.or_assoc, ← Nat.shiftLeft_add_eq_or_of_lt hb, ← Nat.shiftLeft_add_eq_or_of_lt low,
    UInt32.toNat_ofNat_of_lt' (by change _ < 4294967296; omega)]
  omega

/-- The depths that `checkInfoHeader` lets through. -/
def Supported (bits : Nat) : Prop := bits = 4 ∨ bits = 8 ∨ bits = 24

def unit (bits : Nat) : Nat := if bits = 4 then 2 else 1

theorem colourAt_stored (supported : Supported i.bitsPerPixel) {x row : Nat}
    (aligned : row * stride i = row * rowBytes i * unit i.bitsPerPixel) :
    colourAt i.bitsPerPixel table pixelData (row * stride i + x * advance i.bitsPerPixel)
      = stored i table pixelData x row := by
  rw [aligned, stored]
  generalize row * rowBytes i = start
  rcases supported with depth | depth | depth
  · have byte : (start * 2 + x) / 2 = start + x / 2 := by omega
    have parity : (start * 2 + x) &&& 1 = x % 2 := by
      rw [Nat.and_one_is_mod]
      omega
    simp only [depth, colourAt, readPixel, unit, advance, if_true, Nat.mul_one, byte, parity,
      show ¬ (4 : Nat) = 24 by decide, if_false]
    cases pixelData[start + x / 2]? with
    | none => rfl
    | some code =>
      simp only [Option.bind_eq_bind, Option.bind_some]
      by_cases even : x % 2 = 0
      · simp only [even, ne_eq, not_true_eq_false, if_false, if_true, high_nibble]
        cases table[code.toNat / 16]? <;> rfl
      · simp only [even, ne_eq, not_false_eq_true, if_true, if_false, low_nibble]
        cases table[code.toNat % 16]? <;> rfl
  · simp only [depth, colourAt, readPixel, unit, advance, Nat.mul_one,
      show ¬ (8 : Nat) = 4 by decide, show ¬ (8 : Nat) = 24 by decide, if_false]
    cases pixelData[start + x]? with
    | none => rfl
    | some code =>
      simp only [Option.bind_eq_bind, Option.bind_some]
      cases table[code.toNat]? <;> rfl
  · simp only [depth, colourAt, readPixel, unit, advance, Nat.mul_one, Nat.mul_comm x 3,
      show ¬ (24 : Nat) = 4 by decide, if_false, if_true]
    cases pixelData[start + 3 * x]? with
    | none => rfl
    | some b =>
      cases pixelData[start + 3 * x + 1]? with
      | none => rfl
      | some g =>
        cases pixelData[start + 3 * x + 2]? with
        | none => rfl
        | some r => exact congrArg some (pack_eq r g b)

theorem stride_aligned (supported : Supported i.bitsPerPixel)
    (even : i.bitsPerPixel = 4 → i.width % 2 = 0) :
    stride i = rowBytes i * unit i.bitsPerPixel := by
  rcases supported with depth | depth | depth
  · have even := even depth
    simp only [stride, scanLinePadding, rowBytes, unit, advance, depth, if_true,
      show ¬ (4 : Nat) = 24 by decide, if_false]
    split <;> omega
  · simp only [stride, scanLinePadding, rowBytes, unit, advance, depth,
      show ¬ (8 : Nat) = 24 by decide, show ¬ (8 : Nat) = 4 by decide, if_false]
    split <;> omega
  · simp only [stride, scanLinePadding, rowBytes, unit, advance, depth, if_true,
      show ¬ (24 : Nat) = 4 by decide, if_false]
    split <;> omega

theorem stride_odd (depth : i.bitsPerPixel = 4) (odd : i.width % 2 = 1) :
    stride i ≠ rowBytes i * 2 := by
  simp only [stride, scanLinePadding, rowBytes, advance, depth,
    show ¬ (4 : Nat) = 24 by decide, if_false]
  split <;> omega

theorem stored_some (supported : Supported i.bitsPerPixel)
    (sixteen : i.bitsPerPixel = 4 → table.length = 16)
    (all : i.bitsPerPixel = 8 → table.length = 256)
    (room : i.height * rowBytes i ≤ pixelData.length) {x row : Nat} (column : x < i.width)
    (below : row < i.height) : ∃ color, stored i table pixelData x row = some color := by
  have rows : (row + 1) * rowBytes i ≤ i.height * rowBytes i := Nat.mul_le_mul_right _ below
  rw [Nat.add_mul, Nat.one_mul] at rows
  have inRow : x * i.bitsPerPixel / 8 + i.bitsPerPixel / 8 ≤ rowBytes i
      ∧ x * i.bitsPerPixel / 8 < rowBytes i := by
    simp only [rowBytes]
    rcases supported with depth | depth | depth <;> rw [depth] <;> omega
  rw [stored]
  generalize row * rowBytes i = start at rows
  rcases supported with depth | depth | depth
  · rw [depth] at inRow
    have inside : start + x / 2 < pixelData.length := by omega
    have small := (pixelData[start + x / 2]).toNat_lt
    have entry : (if x % 2 = 0 then (pixelData[start + x / 2]).toNat / 16
        else (pixelData[start + x / 2]).toNat % 16) < table.length := by
      rw [sixteen depth]
      split <;> omega
    simp only [depth, List.getElem?_eq_getElem inside, Option.bind_eq_bind, Option.bind_some,
      List.getElem?_eq_getElem entry]
    exact ⟨_, rfl⟩
  · rw [depth] at inRow
    have inside : start + x < pixelData.length := by omega
    have small := (pixelData[start + x]).toNat_lt
    have entry : (pixelData[start + x]).toNat < table.length := by
      rw [all depth]
      omega
    simp only [depth, List.getElem?_eq_getElem inside, Option.bind_eq_bind, Option.bind_some,
      List.getElem?_eq_getElem entry]
    exact ⟨_, rfl⟩
  · rw [depth] at inRow
    have first : start + 3 * x < pixelData.length := by omega
    have second : start + 3 * x + 1 < pixelData.length := by omega
    have third : start + 3 * x + 2 < pixelData.length := by omega
    simp only [depth, List.getElem?_eq_getElem first, List.getElem?_eq_getElem second,
      List.getElem?_eq_getElem third, Option.bind_eq_bind, Option.bind_some]
    exact ⟨_, rfl⟩

/-! Files that `decode` takes, with pixel data of the length of their format. -/

structure Accepted (data : Bytes) (h : Header) (i : InfoHeader) : Prop where
  header : readHeader data = some h
  signature : checkHeader h = .ok ()
  infoHeader : readInfoHeader data = some i
  checked : checkInfoHeader i = .ok ()
  length : data.length = h.dataOffset + i.height * rowBytes i

variable {data : Bytes} {h : Header}

theorem checkInfoHeader_ok (checked : checkInfoHeader i = .ok ()) :
    Supported i.bitsPerPixel ∧ (1 ≤ i.width ∧ i.width ≤ 3000) ∧ 1 ≤ i.height ∧ i.height ≤ 3000 := by
  simp only [checkInfoHeader] at checked
  repeat
    split at checked
    · cases checked
  rw [Supported]
  omega

theorem uint32At_some {start : Nat} (room : start + 4 ≤ data.length) :
    ∃ v, uint32At data start = some v := by
  simp only [uint32At, uint16At, List.getElem?_eq_getElem (show start < data.length by omega),
    List.getElem?_eq_getElem (show start + 1 < data.length by omega),
    List.getElem?_eq_getElem (show start + 2 < data.length by omega),
    List.getElem?_eq_getElem (show start + 2 + 1 < data.length by omega),
    Option.bind_eq_bind, Option.bind_some]
  exact ⟨_, rfl⟩

theorem tableAt_some {n : Nat} {start : Nat} (room : start + 4 * n ≤ data.length) :
    ∃ table, tableAt data start n = some table ∧ table.length = n := by
  induction n generalizing start with
  | zero => exact ⟨[], rfl, rfl⟩
  | succ n ih =>
    obtain ⟨word, read⟩ : ∃ word, uint32At data start = some word := uint32At_some (by omega)
    obtain ⟨rest, more, size⟩ : ∃ rest, tableAt data (start + 4) n = some rest
        ∧ rest.length = n := ih (by omega)
    refine ⟨UInt32.ofNat word :: rest, ?_, congrArg (· + 1) size⟩
    rw [tableAt, read, more]
    rfl

theorem colorTable_some (inside : h.dataOffset ≤ data.length) :
    ∃ table, colorTable data h i = some table ∧ (i.bitsPerPixel = 4 → table.length = 16)
      ∧ (i.bitsPerPixel = 8 → table.length = 256) := by
  rw [colorTable]
  split
  next own =>
    obtain ⟨table, read, size⟩ : ∃ table, tableAt data headerSize 16 = some table
        ∧ table.length = 16 := tableAt_some (by omega)
    exact ⟨table, read, fun _ => size, fun depth => by omega⟩
  next =>
    split
    next own =>
      obtain ⟨table, read, size⟩ : ∃ table, tableAt data headerSize 256 = some table
          ∧ table.length = 256 := tableAt_some (by omega)
      exact ⟨table, read, fun depth => by omega, fun _ => size⟩
    next =>
      split
      next depth =>
        exact ⟨_, rfl, fun _ => ColorPalettes.length_CP16, fun other => by omega⟩
      next =>
        split
        next depth =>
          exact ⟨_, rfl, fun other => by omega, fun _ => ColorPalettes.length_CP256⟩
        next => exact ⟨_, rfl, fun depth => by omega, fun depth => by omega⟩

theorem decode_accepted (transparentColor : Option UInt32) (accepted : Accepted data h i)
    {table : List UInt32} (colours : colorTable data h i = some table) (fresh : Nat → UInt32) :
    decode (some data) transparentColor fresh =
      (reading (decodePixels transparentColor i table (data.drop h.dataOffset) fresh)).map
        (Image.create i.width i.height) := by
  simp only [decode, reading, bind, Except.bind, accepted.header, accepted.signature,
    accepted.infoHeader, accepted.checked, colours]
  cases decodePixels transparentColor i table (data.drop h.dataOffset) fresh <;> rfl

/-- Each pixel of the image is the colour stored for it, which lies in the data. -/
structure Right (data : Bytes) (h : Header) (i : InfoHeader) (transparentColor : Option UInt32)
    (image : Image) : Prop where
  width : image.width = i.width
  height : image.height = i.height
  size : image.data.length = i.width * i.height
  pixels : ∀ table, colorTable data h i = some table → ∀ x < i.width, ∀ y < i.height,
    ∃ color, stored i table (data.drop h.dataOffset) x (i.height - 1 - y) = some color
      ∧ image.data[y * i.width + x]? = some (applyTransparencyFilter transparentColor color)

theorem decode_right (accepted : Accepted data h i)
    (even : i.bitsPerPixel = 4 → i.width % 2 = 0 ∨ i.height = 1) (fresh : Nat → UInt32) :
    ∃ image, decode (some data) transparentColor fresh = .ok image
      ∧ Right data h i transparentColor image := by
  have supported := (checkInfoHeader_ok accepted.checked).1
  have length := accepted.length
  obtain ⟨table, colours, sixteen, all⟩ : ∃ table, colorTable data h i = some table
      ∧ (i.bitsPerPixel = 4 → table.length = 16) ∧ (i.bitsPerPixel = 8 → table.length = 256) :=
    colorTable_some (by omega)
  have room : i.height * rowBytes i ≤ (data.drop h.dataOffset).length := by
    rw [List.length_drop]
    omega
  have aligned : ∀ row < i.height,
      row * stride i = row * rowBytes i * unit i.bitsPerPixel := by
    intro row below
    by_cases single : i.bitsPerPixel = 4 ∧ i.height = 1
    · have first : row = 0 := by omega
      simp only [first, Nat.zero_mul]
    · rw [stride_aligned supported (fun depth => by have := even depth; omega), Nat.mul_assoc]
  have found : ∀ x < i.width, ∀ row < i.height, ∃ color,
      colourAt i.bitsPerPixel table (data.drop h.dataOffset)
        (row * stride i + x * advance i.bitsPerPixel) = some color := by
    intro x column row below
    rw [colourAt_stored supported (aligned row below)]
    exact stored_some supported sixteen all room column below
  obtain ⟨imageBuffer, run⟩ : ∃ imageBuffer,
      decodePixels transparentColor i table (data.drop h.dataOffset) fresh = some imageBuffer :=
    decodePixels_runs fresh found
  have done := decode_accepted transparentColor accepted colours fresh
  rw [run] at done
  obtain ⟨size, pixels⟩ := decodePixels_pixels run
  refine ⟨_, done, rfl, rfl, size, ?_⟩
  intro table' colours' x column y below
  obtain rfl : table = table' := Option.some.inj (colours.symm.trans colours')
  have row : i.height - 1 - y < i.height := by omega
  obtain ⟨color, read⟩ := stored_some supported sixteen all room column row
  refine ⟨color, read, ?_⟩
  have pixel := pixels x column y below
  rw [colourAt_stored supported (aligned _ row), read] at pixel
  exact pixel

/-! A file of 4 bits with odd rows. All its pixels are black but the first of the second row,
which the running index does not meet there. -/

def fileOf (width height : Nat) (pixelData : Bytes) : Bytes :=
  [0x42, 0x4D, 0, 0, 0, 0, 0, 0, 0, 0, 54, 0, 0, 0,
    40, 0, 0, 0, UInt8.ofNat width, UInt8.ofNat (width / 256), 0, 0,
    UInt8.ofNat height, UInt8.ofNat (height / 256), 0, 0, 1, 0, 4, 0, 0, 0, 0, 0,
    0, 0, 0, 0, 0, 0, 0, 0, 0, 0, 0, 0, 0, 0, 0, 0, 0, 0, 0, 0] ++ pixelData

def fourBits (width height : Nat) : InfoHeader := ⟨40, width, height, 4, 0⟩

def whiteSecond (width height : Nat) : Bytes :=
  (List.replicate (height * rowBytes (fourBits width height)) 0).set
    (rowBytes (fourBits width height)) 0xF0

theorem accepted_fileOf {width height : Nat} (hw : 1 ≤ width ∧ width ≤ 3000)
    (hh : 1 ≤ height ∧ height ≤ 3000) {pixelData : Bytes}
    (size : pixelData.length = height * rowBytes (fourBits width height)) :
    Accepted (fileOf width height pixelData) ⟨(0x42, 0x4D), 54⟩ (fourBits width height) := by
  have word : ∀ n : Nat, n ≤ 3000 →
      (UInt8.ofNat n).toNat + (UInt8.ofNat (n / 256)).toNat * 256 = n := by
    intro n small
    rw [UInt8.toNat_ofNat', UInt8.toNat_ofNat']
    omega
  refine ⟨rfl, rfl, ?_, ?_, ?_⟩
  · have read : readInfoHeader (fileOf width height pixelData) =
        some ⟨40, (UInt8.ofNat width).toNat + (UInt8.ofNat (width / 256)).toNat * 256 + 0 * 65536,
          (UInt8.ofNat height).toNat + (UInt8.ofNat (height / 256)).toNat * 256 + 0 * 65536,
          4, 0⟩ := rfl
    rw [read, word width hw.2, word height hh.2]
    rfl
  · have wide : ¬ ((fourBits width height).width < 1 ∨ (fourBits width height).width > 3000) := by
      change ¬ (width < 1 ∨ width > 3000)
      omega
    have high : ¬ ((fourBits width height).height < 1 ∨ (fourBits width height).height > 3000) := by
      change ¬ (height < 1 ∨ height > 3000)
      omega
    have forty : ¬ (fourBits width height).infoHeadersize ≠ 40 := not_not_intro rfl
    have plain : ¬ (fourBits width height).compression ≠ 0 := not_not_intro rfl
    rw [checkInfoHeader, if_neg forty, if_neg plain, if_neg wide, if_neg high,
      if_neg fun other => other.1 rfl]
  · simp only [fileOf, List.length_append, List.length_cons, List.length_nil, size, fourBits]

theorem drop_fileOf (width height : Nat) (pixelData : Bytes) :
    (fileOf width height pixelData).drop 54 = pixelData := rfl

theorem stored_whiteSecond {width height : Nat} (positive : 1 ≤ width) (more : 2 ≤ height) :
    stored (fourBits width height) ColorPalettes.CP16.GetColorTable (whiteSecond width height) 0 1
      = some 0xFFFFFF := by
  have wide : 1 ≤ rowBytes (fourBits width height) := by
    change 1 ≤ (width * 4 + 31) / 32 * 4
    omega
  have rows : 2 * rowBytes (fourBits width height) ≤ height * rowBytes (fourBits width height) :=
    Nat.mul_le_mul_right _ more
  have inside : rowBytes (fourBits width height)
      < (List.replicate (height * rowBytes (fourBits width height)) (0 : UInt8)).length := by
    rw [List.length_replicate]
    omega
  have white : (whiteSecond width height)[1 * rowBytes (fourBits width height) + 0 / 2]?
      = some 0xF0 := by
    rw [Nat.one_mul, whiteSecond]
    exact List.getElem?_set_self inside
  simp only [stored, fourBits] at white ⊢
  rw [white]
  rfl

theorem colourAt_whiteSecond {width height index : Nat}
    (off : index ≠ rowBytes (fourBits width height) * 2) {color : UInt32}
    (read : colourAt 4 ColorPalettes.CP16.GetColorTable (whiteSecond width height) index
      = some color) : color = 0 := by
  have code : ∀ code, (whiteSecond width height)[index / 2]? = some code →
      code = 0 ∨ code = 0xF0 ∧ index % 2 = 1 := by
    intro code found
    rw [whiteSecond, List.getElem?_set] at found
    split at found
    next same =>
      split at found
      · cases found
        exact .inr ⟨rfl, by omega⟩
      · cases found
    next =>
      rw [List.getElem?_replicate] at found
      split at found
      · cases found
        exact .inl rfl
      · cases found
  rw [colourAt, readPixel] at read
  cases found : (whiteSecond width height)[index / 2]? with
  | none =>
    rw [found] at read
    cases read
  | some byte =>
    rw [found] at read
    have parity := Nat.and_one_is_mod index
    rcases code byte found with rfl | ⟨rfl, odd⟩
    · have zero : (if index &&& 1 ≠ 0 then (0 : UInt8) &&& 0xF
          else ((0 : UInt8) >>> (4 : UInt8)) &&& 0xF) = 0 := by
        split <;> rfl
      simp only [Option.bind_eq_bind, Option.bind_some, zero] at read
      exact (Option.some.inj read).symm
    · have zero : (if index &&& 1 ≠ 0 then (0xF0 : UInt8) &&& 0xF
          else ((0xF0 : UInt8) >>> (4 : UInt8)) &&& 0xF) = 0 := by
        rw [if_pos (by omega)]
        rfl
      simp only [Option.bind_eq_bind, Option.bind_some, zero] at read
      exact (Option.some.inj read).symm

theorem not_right_odd {width height : Nat} (hw : 1 ≤ width ∧ width ≤ 3000) (odd : width % 2 = 1)
    (hh : 2 ≤ height ∧ height ≤ 3000) (fresh : Nat → UInt32) (image : Image)
    (run : decode (some (fileOf width height (whiteSecond width height))) none fresh = .ok image) :
    ¬ Right (fileOf width height (whiteSecond width height)) ⟨(0x42, 0x4D), 54⟩
      (fourBits width height) none image := by
  intro right
  have size : (whiteSecond width height).length = height * rowBytes (fourBits width height) := by
    simp only [whiteSecond, List.length_set, List.length_replicate]
  have accepted := accepted_fileOf hw ⟨by omega, hh.2⟩ size
  have colours : colorTable (fileOf width height (whiteSecond width height)) ⟨(0x42, 0x4D), 54⟩
      (fourBits width height) = some ColorPalettes.CP16.GetColorTable := rfl
  rw [decode_accepted none accepted colours, drop_fileOf] at run
  obtain ⟨color, read, pixel⟩ := right.pixels _ colours 0 hw.1 (height - 2)
    (show height - 2 < height by omega)
  have row : (fourBits width height).height - 1 - (height - 2) = 1 := by
    change height - 1 - (height - 2) = 1
    omega
  rw [row, drop_fileOf, stored_whiteSecond hw.1 hh.1] at read
  cases read
  cases rows : decodePixels none (fourBits width height) ColorPalettes.CP16.GetColorTable
    (whiteSecond width height) fresh with
  | none =>
    rw [rows] at run
    cases run
  | some imageBuffer =>
    rw [rows] at run
    cases run
    have black := (decodePixels_pixels rows).2 0 hw.1 (height - 2)
      (show height - 2 < height by omega)
    rw [row, Nat.one_mul, Nat.zero_mul] at black
    have off := stride_odd (i := fourBits width height) rfl odd
    change imageBuffer[_]? = _ at pixel
    rw [black, Nat.add_zero, Option.map_eq_some_iff] at pixel
    obtain ⟨color, read, same⟩ := pixel
    obtain rfl := colourAt_whiteSecond off read
    exact absurd same (by decide)

/-- Every file of the format is decoded to the image that it stores. -/
def DecodesFormat (bitsPerPixel width height : Nat) : Prop :=
  ∀ data h i transparentColor fresh, Accepted data h i →
    i.bitsPerPixel = bitsPerPixel → i.width = width → i.height = height →
      ∃ image, decode (some data) transparentColor fresh = .ok image
        ∧ Right data h i transparentColor image

/-- The rows of 4 bits with an odd width are the ones that are not found, from the second on. -/
theorem decodesFormat_iff {bitsPerPixel width height : Nat} (supported : Supported bitsPerPixel)
    (hw : 1 ≤ width ∧ width ≤ 3000) (hh : 1 ≤ height ∧ height ≤ 3000) :
    DecodesFormat bitsPerPixel width height ↔
      (bitsPerPixel = 4 → width % 2 = 0 ∨ height = 1) := by
  constructor
  · rintro decodes rfl
    by_contra bad
    have size : (whiteSecond width height).length = height * rowBytes (fourBits width height) := by
      simp only [whiteSecond, List.length_set, List.length_replicate]
    obtain ⟨image, run, right⟩ := decodes _ _ _ none (fun _ => 0) (accepted_fileOf hw hh size)
      rfl rfl rfl
    exact not_right_odd hw (by omega) ⟨by omega, hh.2⟩ _ image run right
  · intro even data h i transparentColor fresh accepted depth wide high
    subst depth wide high
    exact decode_right accepted even fresh

theorem decodesFormat_twoPixelRow : DecodesFormat 4 2 1 ↔ ((4 : Nat) = 4 → 2 % 2 = 0 ∨ 1 = 1) :=
  decodesFormat_iff (.inl rfl) (by decide) (by decide)

/-- Two rows of one pixel: the white pixel of the second row is read at the second nibble of the
    first row. -/
theorem second_row_misread :
    Accepted (fileOf 1 2 [0, 0, 0, 0, 0xF0, 0, 0, 0]) ⟨(0x42, 0x4D), 54⟩ (fourBits 1 2)
      ∧ decode (some (fileOf 1 2 [0, 0, 0, 0, 0xF0, 0, 0, 0])) none (fun _ => 0)
        = .ok ⟨false, 1, 2, [0xFF000000, 0xFF000000]⟩
      ∧ ¬ Right (fileOf 1 2 [0, 0, 0, 0, 0xF0, 0, 0, 0]) ⟨(0x42, 0x4D), 54⟩ (fourBits 1 2) none
        ⟨false, 1, 2, [0xFF000000, 0xFF000000]⟩
      ∧ ¬ DecodesFormat 4 1 2 := by
  have accepted : Accepted (fileOf 1 2 [0, 0, 0, 0, 0xF0, 0, 0, 0]) ⟨(0x42, 0x4D), 54⟩
      (fourBits 1 2) := accepted_fileOf (by decide) (by decide) rfl
  have run : decode (some (fileOf 1 2 [0, 0, 0, 0, 0xF0, 0, 0, 0])) none (fun _ => 0)
      = .ok ⟨false, 1, 2, [0xFF000000, 0xFF000000]⟩ := by decide +kernel
  have wrong : ∀ image, decode (some (fileOf 1 2 [0, 0, 0, 0, 0xF0, 0, 0, 0])) none (fun _ => 0)
      = .ok image → ¬ Right (fileOf 1 2 [0, 0, 0, 0, 0xF0, 0, 0, 0]) ⟨(0x42, 0x4D), 54⟩
        (fourBits 1 2) none image :=
    not_right_odd (by decide) (by decide) (by decide) (fun _ => 0)
  refine ⟨accepted, run, wrong _ run, fun decodes => ?_⟩
  obtain ⟨image, done, right⟩ := decodes _ _ _ none (fun _ => 0) accepted rfl rfl rfl
  exact wrong image done right

end BmpEncoder
