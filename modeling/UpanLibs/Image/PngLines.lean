import Mathlib.Tactic.Ring
import UpanLibs.Image.PngCodec

/-!
A line goes through the encoder and the decoder on its own, where the two have the same line
above it.
-/
namespace Png

/-! The order of the bytes. -/

def partner (i : Nat) : Nat := if i % 2 = 0 then i + 1 else i - 1

theorem u16_row_swap_length (row : List Byte) : (u16_row_swap row).length = row.length := by
  induction row using u16_row_swap.induct with
  | case1 x y row ih => rw [u16_row_swap, List.length_cons, List.length_cons, ih]; rfl
  | case2 row other => rw [u16_row_swap]; exact other

theorem u16_row_swap_swap (row : List Byte) : u16_row_swap (u16_row_swap row) = row := by
  induction row using u16_row_swap.induct with
  | case1 x y row ih => rw [u16_row_swap, u16_row_swap, ih]
  | case2 row other =>
    have same : u16_row_swap row = row := by rw [u16_row_swap]; exact other
    rw [same, same]

theorem u16_row_swap_getD {row : List Byte} (even : 2 ∣ row.length) {i : Nat}
    (inside : i < row.length) : (u16_row_swap row).getD i 0 = row.getD (partner i) 0 := by
  induction row using u16_row_swap.induct generalizing i with
  | case1 x y row ih =>
    rw [u16_row_swap]
    match i with
    | 0 => rfl
    | 1 => rfl
    | i + 2 =>
      have next : partner (i + 2) = partner i + 2 := by
        unfold partner
        split <;> split <;> omega
      simp only [List.length_cons] at even inside
      rw [next, List.getD_cons_succ, List.getD_cons_succ, List.getD_cons_succ,
        List.getD_cons_succ, ih (by omega) (by omega)]
  | case2 row other =>
    match row, other with
    | [], _ => cases inside
    | [_], _ => simp at even
    | _ :: _ :: _, other => exact absurd rfl (other _ _ _)

theorem Defiltered.above {filter : Nat} {a c prev prev' raw row : List Byte}
    (h : Defiltered filter a c prev raw row)
    (same : ∀ i < raw.length, prev'.getD i 0 = prev.getD i 0) :
    Defiltered filter a c prev' raw row where
  length := h.length
  byte := by
    intro i inside
    have left : (c ++ prev').getD i 0 = (c ++ prev).getD i 0 := by
      by_cases first : i < c.length
      · rw [List.getD_append _ _ _ _ first, List.getD_append _ _ _ _ first]
      · rw [List.getD_append_right _ _ _ _ (by omega), List.getD_append_right _ _ _ _ (by omega)]
        exact same _ (by omega)
    rw [left, same i inside]
    exact h.byte i inside

theorem Defiltered.swap {filter bytes_per_pixel : Nat} {prev prev' raw row : List Byte}
    (pixel : 2 ∣ bytes_per_pixel) (even : 2 ∣ raw.length)
    (h : Defiltered filter (noPixel bytes_per_pixel) (noPixel bytes_per_pixel) prev raw row)
    (above : ∀ i < raw.length, prev'.getD i 0 = prev.getD (partner i) 0) :
    Defiltered filter (noPixel bytes_per_pixel) (noPixel bytes_per_pixel) prev'
      (u16_row_swap raw) (u16_row_swap row) := by
  obtain ⟨length, bytes⟩ := defiltered_iff.mp h
  have even' : 2 ∣ row.length := length ▸ even
  refine defiltered_iff.mpr ⟨by rw [u16_row_swap_length, u16_row_swap_length, length], ?_⟩
  intro i inside
  rw [u16_row_swap_length] at inside
  have other : partner i < raw.length := by
    unfold partner
    split <;> omega
  have left (l l' : List Byte) (swapped : ∀ i < raw.length, l'.getD i 0 = l.getD (partner i) 0) :
      leftOf bytes_per_pixel l' i = leftOf bytes_per_pixel l (partner i) := by
    unfold leftOf
    by_cases before : bytes_per_pixel ≤ i
    · have before' : bytes_per_pixel ≤ partner i := by
        unfold partner
        split <;> omega
      have back : partner (i - bytes_per_pixel) = partner i - bytes_per_pixel := by
        unfold partner
        split <;> split <;> omega
      rw [if_pos before, if_pos before', swapped _ (by omega), back]
    · have before' : ¬ bytes_per_pixel ≤ partner i := by
        unfold partner
        split <;> omega
      rw [if_neg before, if_neg before']
  rw [u16_row_swap_getD even' (by omega), u16_row_swap_getD even inside, bytes _ other]
  unfold predicted
  rw [left row (u16_row_swap row) fun i less => u16_row_swap_getD even' (by omega),
    left prev prev' above, above i inside]

/-! One line. -/

structure Context.Sound (c : Context) : Prop where
  checked : c.ihdr.Checked
  calculated : Calculated c.ihdr 7 c.passes
  width : c.ihdr.calculate_image_width = .ok c.image_width

def Context.lineWidth (c : Context) (pass : Nat) : Nat := (c.passes.sub pass).scanline_width - 1

namespace Context.Sound

variable {c : Context}

theorem pixel_even (swaps : c.swaps) : 2 ∣ c.ihdr.bytes_per_pixel := by
  rw [iHeader.bytes_per_pixel, swaps.1, if_neg (by omega)]
  exact ⟨c.ihdr.num_channels, Nat.mul_comm _ _⟩

variable (sound : c.Sound)
include sound

theorem pixel_positive : 0 < c.ihdr.bytes_per_pixel := by
  have depth := sound.checked.bit_depth
  have channels := sound.checked.channels.1
  unfold iHeader.bytes_per_pixel
  split
  · omega
  · exact Nat.mul_pos channels (by omega)

theorem scanline_width_eq {pass : Nat} (nonempty : ¬ (c.passes.sub pass).empty) :
    (c.passes.sub pass).scanline_width =
      (c.ihdr.num_channels * c.ihdr.bit_depth * (c.passes.sub pass).width + 15) / 8 := by
  have ok := sound.calculated.scanline pass (sound.calculated.known nonempty) nonempty
  have some_ : 0 < (c.passes.sub pass).width := by
    unfold SubImage.empty at nonempty
    omega
  have small := (sound.calculated.size pass).1 ▸ (passSize_le c.ihdr pass).1
  rw [scanline_width_ok sound.checked some_ (by have := sound.checked.width.2; omega)] at ok
  split at ok
  · cases ok
  · exact (Except.ok.inj ok).symm

theorem image_width_eq : c.image_width =
    (c.ihdr.num_channels * c.ihdr.bit_depth * c.ihdr.width + 7) / 8 := by
  have ok := sound.width
  rw [iHeader.calculate_image_width,
    scanline_width_ok sound.checked sound.checked.width.1 sound.checked.width.2] at ok
  split at ok
  next => cases ok
  next scanline_width fits =>
    split at fits
    · cases fits
    · have same := Except.ok.inj ok
      have all := Except.ok.inj fits
      omega

theorem width_le {pass : Nat} (nonempty : ¬ (c.passes.sub pass).empty) :
    (c.passes.sub pass).scanline_width + 32 ≤ c.scanline_buf_size :=
  Nat.add_le_add_right
    (sound.calculated.widest pass (sound.calculated.known nonempty) nonempty) 32

theorem line_le {pass : Nat} (nonempty : ¬ (c.passes.sub pass).empty) :
    c.lineWidth pass ≤ c.image_width := by
  have small := (sound.calculated.size pass).1 ▸ (passSize_le c.ihdr pass).1
  have bits := Nat.mul_le_mul_left (c.ihdr.num_channels * c.ihdr.bit_depth) small
  rw [Context.lineWidth, sound.scanline_width_eq nonempty, sound.image_width_eq]
  omega

theorem bits_eq (bytes : 8 ≤ c.ihdr.bit_depth) (width : Nat) :
    c.ihdr.num_channels * c.ihdr.bit_depth * width = 8 * (width * c.ihdr.bytes_per_pixel) := by
  have depth : c.ihdr.bit_depth = 8 * (c.ihdr.bit_depth / 8) := by
    have := sound.checked.bit_depth
    omega
  rw [iHeader.bytes_per_pixel, if_neg (by omega)]
  generalize c.ihdr.bit_depth / 8 = bytes_ at depth ⊢
  rw [depth]
  ring

theorem line_positive {pass : Nat} (nonempty : ¬ (c.passes.sub pass).empty) :
    0 < c.lineWidth pass ∧ c.ihdr.bytes_per_pixel ∣ c.lineWidth pass := by
  have some_ : 0 < (c.passes.sub pass).width := by
    unfold SubImage.empty at nonempty
    omega
  have depth := sound.checked.bit_depth
  have bits : 0 < c.ihdr.num_channels * c.ihdr.bit_depth * (c.passes.sub pass).width :=
    Nat.mul_pos (Nat.mul_pos sound.checked.channels.1 (by omega)) some_
  rw [Context.lineWidth, sound.scanline_width_eq nonempty]
  refine ⟨by omega, ?_⟩
  by_cases bytes : 8 ≤ c.ihdr.bit_depth
  · rw [sound.bits_eq bytes]
    exact ⟨(c.passes.sub pass).width, by rw [Nat.mul_comm c.ihdr.bytes_per_pixel]; omega⟩
  · rw [iHeader.bytes_per_pixel, if_pos (by omega)]
    exact Nat.one_dvd _

end Context.Sound

section

variable {c : Context}

theorem hostRow_length (c : Context) (row : List Byte) : (c.hostRow row).length = row.length := by
  unfold Context.hostRow
  split
  · exact u16_row_swap_length row
  · rfl

theorem hostRow_hostRow (c : Context) (row : List Byte) : c.hostRow (c.hostRow row) = row := by
  unfold Context.hostRow
  split
  · exact u16_row_swap_swap row
  · rfl

/-! The line buffers. -/

theorem malloc_length (heap : Nat → Byte) (start size : Nat) :
    (malloc heap start size).length = size := by
  rw [malloc, List.length_map, List.length_range]

theorem front_eq {buffer : List Byte} {len : Nat} (room : len ≤ buffer.length) :
    front buffer len = some (buffer.take len) := if_pos room

theorem memset_eq {buffer : List Byte} {len : Nat} (room : len ≤ buffer.length) :
    memset buffer len = some (List.replicate len 0 ++ buffer.drop len) := if_pos room

theorem setFront_length {buffer line : List Byte} (room : line.length ≤ buffer.length) :
    (setFront buffer line).length = buffer.length := by
  rw [setFront, List.length_append, List.length_drop]
  omega

theorem setFront_take {buffer line : List Byte} {len : Nat} (line_ : line.length = len) :
    (setFront buffer line).take len = line := by
  rw [setFront, ← line_, List.take_left]

def firstCleared (ri : RowInfo) (scanline_width : Nat) (clears : Prop) [Decidable clears]
    (prev_scanline : List Byte) : List Byte :=
  if ri.scanline_idx = 0 ∧ clears then
    List.replicate scanline_width 0 ++ prev_scanline.drop scanline_width
  else prev_scanline

theorem clearFirst_eq (ri : RowInfo) {scanline_width : Nat} (clears : Prop) [Decidable clears]
    {prev_scanline : List Byte} (room : scanline_width ≤ prev_scanline.length) :
    clearFirst ri scanline_width clears prev_scanline =
      some (firstCleared ri scanline_width clears prev_scanline) := by
  unfold clearFirst firstCleared
  split
  · exact memset_eq room
  · rfl

theorem firstCleared_length (ri : RowInfo) {scanline_width : Nat} (clears : Prop)
    [Decidable clears] {prev_scanline : List Byte}
    (room : scanline_width ≤ prev_scanline.length) :
    (firstCleared ri scanline_width clears prev_scanline).length = prev_scanline.length := by
  unfold firstCleared
  split
  · rw [List.length_append, List.length_replicate, List.length_drop]
    omega
  · rfl

def Agree (c : Context) (width : Nat) (encoded decoded : List Byte) : Prop :=
  ∀ i < width, decoded.getD i 0 =
    if c.swaps then encoded.getD (partner i) 0 else encoded.getD i 0

theorem Agree.zeros (c : Context) (width n : Nat) :
    Agree c width (List.replicate n 0) (List.replicate n 0) := by
  intro i _
  have zero (i : Nat) : (List.replicate n (0 : Byte)).getD i 0 = 0 := by
    by_cases inside : i < n
    · exact List.getD_replicate _ inside
    · exact List.getD_eq_default _ _ (by simpa using inside)
  rw [zero, zero, ite_self]

theorem Agree.line (even : c.swaps → 2 ∣ row.length) :
    Agree c row.length (c.hostRow row) row := by
  intro i inside
  unfold Context.hostRow
  split
  next swaps =>
    have other : partner i < row.length := by
      have := even swaps
      unfold partner
      split <;> omega
    have back : partner (partner i) = i := by
      unfold partner
      split <;> split <;> omega
    rw [u16_row_swap_getD (even swaps) other, back]
  next => rfl

theorem filteredLine_ok {prev_scanline scanline : List Byte} {filter : Nat} (known : filter ≤ 4)
    (some_ : scanline ≠ []) : ∃ filtered, filteredLine c prev_scanline scanline filter =
      .ok filtered := by
  unfold filteredLine
  split
  · exact ⟨_, rfl⟩
  next filters =>
    rw [filter_scanline, if_neg some_, if_neg (by omega), if_neg filters]
    exact ⟨_, rfl⟩

theorem filteredLine_length {prev_scanline scanline filtered : List Byte} {filter : Nat}
    (ok : filteredLine c prev_scanline scanline filter = .ok filtered) :
    filtered.length = scanline.length := by
  unfold filteredLine at ok
  split at ok
  · cases ok
    rfl
  next filters => exact filter_scanline_length filters ok

theorem line_back (sound : c.Sound) {row filtered encoded decoded : List Byte} {filter : Nat}
    (whole : c.ihdr.bytes_per_pixel ∣ row.length) (known : filter ≤ 4)
    (agree : 1 < filter → Agree c row.length encoded decoded)
    (ok : filteredLine c encoded (c.hostRow row) filter = .ok filtered) :
    defilter_scanline decoded (c.hostRow filtered) c.ihdr.bytes_per_pixel filter = .ok row := by
  have length := filteredLine_length ok
  rw [hostRow_length] at length
  by_cases filters : filter = PNG_FILTER_NONE
  · rw [filteredLine, if_pos filters] at ok
    cases ok
    rw [hostRow_hostRow, defilter_scanline, if_pos filters]
  rw [filteredLine, if_neg filters] at ok
  have encoded_ := filter_defiltered filters ok
  obtain ⟨above, base, same⟩ : ∃ above, Defiltered filter (noPixel c.ihdr.bytes_per_pixel)
      (noPixel c.ihdr.bytes_per_pixel) above (c.hostRow filtered) row ∧
      ∀ i < row.length, above.getD i 0 =
        if c.swaps then encoded.getD (partner i) 0 else encoded.getD i 0 := by
    unfold Context.hostRow at encoded_ ⊢
    by_cases swaps : c.swaps
    · rw [if_pos swaps] at encoded_ ⊢
      have even : 2 ∣ filtered.length :=
        (Context.Sound.pixel_even swaps).trans (length ▸ whole)
      have bytes : ∀ i < filtered.length, ((List.range row.length).map fun i =>
          encoded.getD (partner i) 0).getD i 0 = encoded.getD (partner i) 0 := by
        intro i inside
        rw [List.getD_eq_getElem _ _ (by simpa [← length] using inside), List.getElem_map,
          List.getElem_range]
      have swapped := encoded_.swap (Context.Sound.pixel_even swaps) even bytes
      rw [u16_row_swap_swap] at swapped
      refine ⟨_, swapped, fun i inside => ?_⟩
      rw [if_pos swaps, bytes i (by omega)]
    · rw [if_neg swaps] at encoded_ ⊢
      exact ⟨encoded, encoded_, fun i _ => by rw [if_neg swaps]⟩
  have decoded_ : Defiltered filter (noPixel c.ihdr.bytes_per_pixel)
      (noPixel c.ihdr.bytes_per_pixel) decoded (c.hostRow filtered) row := by
    by_cases second : 1 < filter
    · refine base.above fun i inside => ?_
      rw [hostRow_length, length] at inside
      rw [agree second i inside, same i inside]
    · have sub : filter = PNG_FILTER_SUB := by
        unfold PNG_FILTER_NONE at filters
        unfold PNG_FILTER_SUB
        omega
      subst sub
      exact base.sub_above
  have whole_ : c.ihdr.bytes_per_pixel ∣ (c.hostRow filtered).length := by
    rw [hostRow_length, length]
    exact whole
  obtain ⟨row', done, right⟩ := defilter_scanline_defiltered decoded known filters
    sound.pixel_positive whole_
  have pixel : noPixel c.ihdr.bytes_per_pixel ≠ [] := by
    have := sound.pixel_positive
    rw [noPixel, Ne, List.replicate_eq_nil_iff]
    omega
  rw [done, right.unique pixel decoded_]

end

end Png
