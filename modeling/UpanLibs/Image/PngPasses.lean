import UpanLibs.Image.PngFilter

/-!
The passes of an image and the walk over their lines, which the encoder and the decoder share.
An image without interlacing is one pass.
-/
namespace Png

def PNG_COLOR_TYPE_INDEXED : Nat := 3
def UINT32_MAX : Nat := 4294967295
def SIZE_MAX : Nat := 18446744073709551615

structure iHeader where
  width : Nat
  height : Nat
  bit_depth : Nat
  color_type : Nat
  compression_method : Nat
  filter_method : Nat
  interlace_method : Nat
  deriving DecidableEq, Repr

namespace iHeader

def num_channels (ihdr : iHeader) : Nat :=
  match ihdr.color_type with
  | 2 => 3
  | 4 => 2
  | 6 => 4
  | 0 => 1
  | 3 => 1
  | _ => 0

def calculate_scanline_width (ihdr : iHeader) (swidth : Nat) : Except Error Nat :=
  if swidth = 0 then .error .EINTERNAL
  else
    let res := ihdr.num_channels * ihdr.bit_depth
    if SIZE_MAX / swidth < res then .error .EOVERFLOW
    else
      let res := (res * swidth + 15) % (SIZE_MAX + 1)
      if res < 15 then .error .EOVERFLOW
      else
        let res := res / 8
        if UINT32_MAX < res then .error .EOVERFLOW else .ok res

/-- For the formats `PNG_FMT_PNG` and `PNG_FMT_RAW`. -/
def calculate_image_width (ihdr : iHeader) : Except Error Nat :=
  match ihdr.calculate_scanline_width ihdr.width with
  | .error e => .error e
  | .ok res => .ok (res - 1)

def bytes_per_pixel (ihdr : iHeader) : Nat :=
  if ihdr.bit_depth < 8 then 1 else ihdr.num_channels * (ihdr.bit_depth / 8)

end iHeader

/-- What `check_ihdr` refuses. -/
inductive HeaderError where
  | EWIDTH | EHEIGHT | EUSER_WIDTH | EUSER_HEIGHT | EBIT_DEPTH | ECOLOR_TYPE
  | ECOMPRESSION_METHOD | EFILTER_METHOD | EINTERLACE_METHOD
  deriving DecidableEq, Repr

def u32max : Nat := 2147483647

def bitDepths (color_type : Nat) : Option (List Nat) :=
  match color_type with
  | 0 => some [1, 2, 4, 8, 16]
  | 2 => some [8, 16]
  | 4 => some [8, 16]
  | 6 => some [8, 16]
  | 3 => some [1, 2, 4, 8]
  | _ => none

def check_ihdr (ihdr : iHeader) (max_width max_height : Nat) : Except HeaderError Unit :=
  if u32max < ihdr.width ∨ ihdr.width = 0 then .error .EWIDTH
  else if u32max < ihdr.height ∨ ihdr.height = 0 then .error .EHEIGHT
  else if max_width < ihdr.width then .error .EUSER_WIDTH
  else if max_height < ihdr.height then .error .EUSER_HEIGHT
  else
    match bitDepths ihdr.color_type with
    | none => .error .ECOLOR_TYPE
    | some depths =>
        if ihdr.bit_depth ∉ depths then .error .EBIT_DEPTH
        else if ihdr.compression_method ≠ 0 then .error .ECOMPRESSION_METHOD
        else if ihdr.filter_method ≠ 0 then .error .EFILTER_METHOD
        else if 1 < ihdr.interlace_method then .error .EINTERLACE_METHOD
        else .ok ()

structure SubImage where
  width : Nat
  height : Nat
  scanline_width : Nat
  deriving DecidableEq, Repr

def SubImage.empty (sub : SubImage) : Prop := sub.width = 0 ∨ sub.height = 0

instance (sub : SubImage) : Decidable sub.empty :=
  inferInstanceAs (Decidable (sub.width = 0 ∨ sub.height = 0))

def adam7_x_start (pass : Nat) : Nat := [0, 4, 0, 2, 0, 1, 0].getD pass 0
def adam7_y_start (pass : Nat) : Nat := [0, 0, 4, 0, 2, 0, 1].getD pass 0
def adam7_x_delta (pass : Nat) : Nat := [8, 8, 4, 4, 2, 2, 1].getD pass 1
def adam7_y_delta (pass : Nat) : Nat := [8, 8, 8, 4, 4, 2, 2].getD pass 1

def passSizes (ihdr : iHeader) : List (Nat × Nat) :=
  if ihdr.interlace_method = 1 then
    [((ihdr.width + 7) / 8, (ihdr.height + 7) / 8), ((ihdr.width + 3) / 8, (ihdr.height + 7) / 8),
      ((ihdr.width + 3) / 4, (ihdr.height + 3) / 8), ((ihdr.width + 1) / 4, (ihdr.height + 3) / 4),
      ((ihdr.width + 1) / 2, (ihdr.height + 1) / 4), (ihdr.width / 2, (ihdr.height + 1) / 2),
      (ihdr.width, ihdr.height / 2)]
  else (ihdr.width, ihdr.height) :: List.replicate 6 (0, 0)

/-- The passes with what the loop of `calculate_subimages` keeps of them. -/
structure Passes where
  subimage : List SubImage
  widest_pass : Nat
  last_pass : Nat
  deriving DecidableEq, Repr

def Passes.sub (passes : Passes) (pass : Nat) : SubImage := passes.subimage.getD pass ⟨0, 0, 0⟩

def subimageLoop (ihdr : iHeader) : Nat → Nat → Passes → Except Error Passes
  | 0, _, passes => .ok passes
  | left + 1, i, passes =>
      let sub := passes.sub i
      if sub.empty then subimageLoop ihdr left (i + 1) passes
      else
        match ihdr.calculate_scanline_width sub.width with
        | .error e => .error e
        | .ok scanline_width =>
            let subimage := passes.subimage.set i ⟨sub.width, sub.height, scanline_width⟩
            let widest := (subimage.getD passes.widest_pass ⟨0, 0, 0⟩).scanline_width
            subimageLoop ihdr left (i + 1)
              ⟨subimage, if widest < scanline_width then i else passes.widest_pass, i⟩

def calculate_subimages (ihdr : iHeader) : Except Error Passes :=
  subimageLoop ihdr 7 0 ⟨(passSizes ihdr).map fun size => ⟨size.1, size.2, 0⟩, 0, 0⟩

structure RowInfo where
  scanline_idx : Nat
  row_num : Nat
  pass : Nat
  deriving DecidableEq, Repr

inductive Ret where
  | ok | EOI
  deriving DecidableEq, Repr

def skipEmpty (passes : Passes) (pass : Nat) : Nat :=
  if (passes.sub pass).empty ∧ pass < passes.last_pass then skipEmpty passes (pass + 1) else pass
  termination_by passes.last_pass - pass

def update_row_info (ihdr : iHeader) (passes : Passes) (ri : RowInfo) : Ret × RowInfo :=
  let interlace (ri : RowInfo) : RowInfo :=
    if ihdr.interlace_method = 0 then ri
    else { ri with
      row_num := adam7_y_start ri.pass + ri.scanline_idx * adam7_y_delta ri.pass }
  if ri.scanline_idx = (passes.sub ri.pass).height - 1 then
    if ri.pass = passes.last_pass then (.EOI, ri)
    else (.ok, interlace { ri with scanline_idx := 0, pass := skipEmpty passes (ri.pass + 1) })
  else
    (.ok, interlace { ri with scanline_idx := ri.scanline_idx + 1, row_num := ri.row_num + 1 })

def firstRow (ihdr : iHeader) (passes : Passes) : RowInfo :=
  let pass := passes.subimage.findIdx fun sub => ¬ sub.empty
  ⟨0, if ihdr.interlace_method = 0 then 0 else adam7_y_start pass, pass⟩

/-! What a header that is accepted says. -/

structure iHeader.Checked (ihdr : iHeader) : Prop where
  width : 0 < ihdr.width ∧ ihdr.width ≤ u32max
  height : 0 < ihdr.height ∧ ihdr.height ≤ u32max
  bit_depth : ihdr.bit_depth = 1 ∨ ihdr.bit_depth = 2 ∨ ihdr.bit_depth = 4 ∨
    ihdr.bit_depth = 8 ∨ ihdr.bit_depth = 16
  channels : 0 < ihdr.num_channels ∧ ihdr.num_channels ≤ 4
  packed : ihdr.bit_depth < 8 → ihdr.num_channels = 1
  interlace : ihdr.interlace_method = 0 ∨ ihdr.interlace_method = 1

theorem bitDepths_channels {ihdr : iHeader} {depths : List Nat}
    (known : bitDepths ihdr.color_type = some depths) :
    (ihdr.num_channels = 1 ∧ depths ⊆ [1, 2, 4, 8, 16]) ∨
      (0 < ihdr.num_channels ∧ ihdr.num_channels ≤ 4 ∧ depths = [8, 16]) := by
  unfold bitDepths at known
  unfold iHeader.num_channels
  split at known <;> cases known <;> simp_all

theorem check_ihdr_checked {ihdr : iHeader} {max_width max_height : Nat}
    (ok : check_ihdr ihdr max_width max_height = .ok ()) : ihdr.Checked := by
  unfold check_ihdr at ok
  split at ok
  next => cases ok
  split at ok
  next => cases ok
  split at ok
  next => cases ok
  split at ok
  next => cases ok
  next width height _ _ =>
    split at ok
    next => cases ok
    next depths known =>
      split at ok
      next => cases ok
      split at ok
      next => cases ok
      split at ok
      next => cases ok
      split at ok
      next => cases ok
      next member _ _ interlace =>
        obtain ⟨one, among⟩ | ⟨some_, few, among⟩ := bitDepths_channels known
        · have depth := among (not_not.mp member)
          simp only [List.mem_cons, List.not_mem_nil, or_false] at depth
          exact ⟨by omega, by omega, depth, by omega, fun _ => one, by omega⟩
        · have depth := not_not.mp member
          rw [among] at depth
          simp only [List.mem_cons, List.not_mem_nil, or_false] at depth
          exact ⟨by omega, by omega, by omega, ⟨some_, few⟩, by omega, by omega⟩

section

variable {ihdr : iHeader}

theorem scanline_width_ok (checked : ihdr.Checked) {swidth : Nat} (some_ : 0 < swidth)
    (small : swidth ≤ u32max) :
    ihdr.calculate_scanline_width swidth =
      if UINT32_MAX < (ihdr.num_channels * ihdr.bit_depth * swidth + 15) / 8 then
        .error .EOVERFLOW
      else .ok ((ihdr.num_channels * ihdr.bit_depth * swidth + 15) / 8) := by
  have depth : ihdr.bit_depth ≤ 16 := by
    have := checked.bit_depth
    omega
  have bits : ihdr.num_channels * ihdr.bit_depth ≤ 4 * 16 :=
    Nat.mul_le_mul checked.channels.2 depth
  have all : ihdr.num_channels * ihdr.bit_depth * swidth ≤ 64 * u32max :=
    Nat.mul_le_mul bits small
  have room : ihdr.num_channels * ihdr.bit_depth ≤ SIZE_MAX / swidth := by
    rw [Nat.le_div_iff_mul_le some_]
    exact all.trans (by decide)
  have fits : ihdr.num_channels * ihdr.bit_depth * swidth + 15 < SIZE_MAX + 1 := by
    unfold SIZE_MAX
    unfold u32max at all
    omega
  rw [iHeader.calculate_scanline_width, if_neg (by omega), if_neg (Nat.not_lt.mpr room)]
  simp only [Nat.mod_eq_of_lt fits]
  rw [if_neg (by omega)]

theorem scanline_width_mono (checked : ihdr.Checked) {w swidth scanline_width : Nat}
    (some_ : 0 < w) (less : w ≤ swidth) (small : swidth ≤ u32max)
    (ok : ihdr.calculate_scanline_width swidth = .ok scanline_width) :
    ihdr.calculate_scanline_width w = .ok ((ihdr.num_channels * ihdr.bit_depth * w + 15) / 8) ∧
      (ihdr.num_channels * ihdr.bit_depth * w + 15) / 8 ≤ scanline_width := by
  rw [scanline_width_ok checked (by omega) small] at ok
  split at ok
  next => cases ok
  next fits =>
    cases ok
    have bits := Nat.mul_le_mul_left (ihdr.num_channels * ihdr.bit_depth) less
    refine ⟨?_, by omega⟩
    rw [scanline_width_ok checked some_ (by omega), if_neg (by omega)]

def passSize (ihdr : iHeader) (pass : Nat) : Nat × Nat := (passSizes ihdr).getD pass (0, 0)

theorem passSizes_length (ihdr : iHeader) : (passSizes ihdr).length = 7 := by
  unfold passSizes
  split <;> rfl

theorem passSize_le (ihdr : iHeader) (pass : Nat) :
    (passSize ihdr pass).1 ≤ ihdr.width ∧ (passSize ihdr pass).2 ≤ ihdr.height := by
  unfold passSize passSizes
  match pass with
  | 0 | 1 | 2 | 3 | 4 | 5 | 6 =>
    split <;> simp only [List.getD_cons_succ, List.getD_cons_zero, List.replicate_succ] <;> omega
  | _ + 7 => split <;> simp

/-- What the loop of `calculate_subimages` knows before the pass `i`. -/
structure Calculated (ihdr : iHeader) (i : Nat) (passes : Passes) : Prop where
  length : passes.subimage.length = 7
  size : ∀ p, (passes.sub p).width = (passSize ihdr p).1 ∧
    (passes.sub p).height = (passSize ihdr p).2
  scanline : ∀ p < i, ¬ (passes.sub p).empty →
    ihdr.calculate_scanline_width (passes.sub p).width = .ok (passes.sub p).scanline_width
  before_last : ∀ p < i, ¬ (passes.sub p).empty → p ≤ passes.last_pass
  last : passes.last_pass = 0 ∨ ¬ (passes.sub passes.last_pass).empty
  widest : ∀ p < i, ¬ (passes.sub p).empty →
    (passes.sub p).scanline_width ≤ (passes.sub passes.widest_pass).scanline_width
  widest_before : passes.widest_pass = 0 ∨ passes.widest_pass < i

theorem Calculated.start (ihdr : iHeader) :
    Calculated ihdr 0 ⟨(passSizes ihdr).map fun size => ⟨size.1, size.2, 0⟩, 0, 0⟩ where
  length := by rw [List.length_map, passSizes_length]
  size := by
    intro p
    unfold Passes.sub passSize
    by_cases inside : p < 7
    · rw [List.getD_eq_getElem _ _ (by rw [List.length_map, passSizes_length]; exact inside),
        List.getElem_map, List.getD_eq_getElem _ _ (by rw [passSizes_length]; exact inside)]
      exact ⟨rfl, rfl⟩
    · rw [List.getD_eq_default _ _ (by rw [List.length_map, passSizes_length]; omega),
        List.getD_eq_default _ _ (by rw [passSizes_length]; omega)]
      exact ⟨rfl, rfl⟩
  scanline := fun _ none_ => absurd none_ (Nat.not_lt_zero _)
  before_last := fun _ none_ => absurd none_ (Nat.not_lt_zero _)
  last := .inl rfl
  widest := fun _ none_ => absurd none_ (Nat.not_lt_zero _)
  widest_before := .inl rfl

theorem Calculated.skip {i : Nat} {passes : Passes} (h : Calculated ihdr i passes)
    (empty : (passes.sub i).empty) : Calculated ihdr (i + 1) passes where
  length := h.length
  size := h.size
  scanline p less some_ := h.scanline p (by
    by_contra
    exact some_ (show p = i by omega ▸ empty)) some_
  before_last p less some_ := by
    by_cases same : p = i
    · exact absurd (same ▸ empty) some_
    · exact h.before_last p (by omega) some_
  last := h.last
  widest p less some_ := by
    by_cases same : p = i
    · exact absurd (same ▸ empty) some_
    · exact h.widest p (by omega) some_
  widest_before := by
    have := h.widest_before
    omega

theorem Calculated.next {i : Nat} {passes : Passes} {scanline_width : Nat}
    {subimage : List SubImage} (h : Calculated ihdr i passes) (inside : i < 7)
    (some_ : ¬ (passes.sub i).empty)
    (ok : ihdr.calculate_scanline_width (passes.sub i).width = .ok scanline_width)
    (set_ : subimage = passes.subimage.set i
      ⟨(passes.sub i).width, (passes.sub i).height, scanline_width⟩) :
    Calculated ihdr (i + 1) ⟨subimage,
      if (subimage.getD passes.widest_pass ⟨0, 0, 0⟩).scanline_width < scanline_width then i
        else passes.widest_pass, i⟩ := by
  have here : subimage.getD i ⟨0, 0, 0⟩ =
      ⟨(passes.sub i).width, (passes.sub i).height, scanline_width⟩ := by
    rw [set_, List.getD_eq_getElem _ _ (by rw [List.length_set, h.length]; exact inside),
      List.getElem_set_self]
  have other (p : Nat) (apart : p ≠ i) : subimage.getD p ⟨0, 0, 0⟩ = passes.sub p := by
    rw [set_, List.getD_eq_getElem?_getD, List.getElem?_set_ne (Ne.symm apart),
      ← List.getD_eq_getElem?_getD, Passes.sub]
  have sizes (p : Nat) : (subimage.getD p ⟨0, 0, 0⟩).width = (passes.sub p).width ∧
      (subimage.getD p ⟨0, 0, 0⟩).height = (passes.sub p).height := by
    by_cases same : p = i
    · rw [same, here]
      exact ⟨rfl, rfl⟩
    · rw [other p same]
      exact ⟨rfl, rfl⟩
  have empty_ (p : Nat) : (subimage.getD p ⟨0, 0, 0⟩).empty ↔ (passes.sub p).empty := by
    unfold SubImage.empty
    rw [(sizes p).1, (sizes p).2]
  refine ⟨by rw [set_, List.length_set, h.length], fun p => ?_, fun p less nonempty => ?_,
    fun p less _ => Nat.le_of_lt_succ less, .inr fun empty => some_ ((empty_ i).mp empty),
    fun p less nonempty => ?_, ?_⟩
  · exact ⟨(sizes p).1.trans (h.size p).1, (sizes p).2.trans (h.size p).2⟩
  · unfold Passes.sub at nonempty ⊢
    by_cases same : p = i
    · rw [same, here]
      exact ok
    · rw [other p same] at nonempty ⊢
      exact h.scanline p (by omega) nonempty
  · unfold Passes.sub at nonempty ⊢
    -- A pass before `i` has no more than the widest pass had before `i`.
    have earlier (apart : p ≠ i) : p < i ∧ (subimage.getD p ⟨0, 0, 0⟩).scanline_width ≤
        (subimage.getD passes.widest_pass ⟨0, 0, 0⟩).scanline_width := by
      have less' : p < i := by omega
      rw [other p apart] at nonempty ⊢
      have wide := h.widest p less' nonempty
      have before := h.widest_before
      rw [other _ (by omega)]
      exact ⟨less', wide⟩
    split
    next wider =>
      by_cases same : p = i
      · rw [same]
      · rw [here]
        exact (earlier same).2.trans (Nat.le_of_lt wider)
    next narrow =>
      by_cases same : p = i
      · rw [same, here]
        exact Nat.not_lt.mp narrow
      · exact (earlier same).2
  · have before := h.widest_before
    simp only []
    split
    next => exact .inr (Nat.lt_succ_self i)
    next => omega

theorem subimageLoop_calculated {left i : Nat} {passes result : Passes} (end_ : i + left = 7)
    (h : Calculated ihdr i passes) (ok : subimageLoop ihdr left i passes = .ok result) :
    Calculated ihdr 7 result := by
  induction left generalizing i passes with
  | zero =>
    cases ok
    exact (show i = 7 by omega) ▸ h
  | succ left ih =>
    rw [subimageLoop] at ok
    simp only [] at ok
    split at ok
    next empty => exact ih (by omega) (h.skip empty) ok
    next some_ =>
      split at ok
      next => cases ok
      next scanline_width fits => exact ih (by omega) (h.next (by omega) some_ fits rfl) ok

theorem calculate_subimages_calculated {passes : Passes}
    (ok : calculate_subimages ihdr = .ok passes) : Calculated ihdr 7 passes :=
  subimageLoop_calculated rfl (Calculated.start ihdr) ok

theorem subimageLoop_ok (checked : ihdr.Checked) {scanline_width : Nat}
    (fits : ihdr.calculate_scanline_width ihdr.width = .ok scanline_width) {left i : Nat}
    {passes : Passes} (end_ : i + left = 7) (h : Calculated ihdr i passes) :
    ∃ result, subimageLoop ihdr left i passes = .ok result := by
  induction left generalizing i passes with
  | zero => exact ⟨passes, rfl⟩
  | succ left ih =>
    rw [subimageLoop]
    simp only []
    split
    next empty => exact ih (by omega) (h.skip empty)
    next some_ =>
      have width : 0 < (passes.sub i).width := by
        unfold SubImage.empty at some_
        omega
      have less : (passes.sub i).width ≤ ihdr.width := by
        rw [(h.size i).1]
        exact (passSize_le ihdr i).1
      have ok := (scanline_width_mono checked width less checked.width.2 fits).1
      rw [ok]
      exact ih (by omega) (h.next (by omega) some_ ok rfl)

theorem calculate_subimages_ok (checked : ihdr.Checked) {scanline_width : Nat}
    (fits : ihdr.calculate_scanline_width ihdr.width = .ok scanline_width) :
    ∃ passes, calculate_subimages ihdr = .ok passes :=
  subimageLoop_ok checked fits rfl (Calculated.start ihdr)

/-! The places of the passes. -/

def rowOf (ihdr : iHeader) (pass idx : Nat) : Nat :=
  if ihdr.interlace_method = 0 then idx else adam7_y_start pass + idx * adam7_y_delta pass

theorem adam7_inside (interlaced : ihdr.interlace_method = 1) {pass : Nat} (known : pass < 7) :
    0 < adam7_x_delta pass ∧
    (∀ k < (passSize ihdr pass).1, adam7_x_start pass + k * adam7_x_delta pass < ihdr.width) ∧
    ∀ i < (passSize ihdr pass).2, adam7_y_start pass + i * adam7_y_delta pass < ihdr.height := by
  unfold passSize passSizes
  rw [if_pos interlaced]
  unfold adam7_x_delta adam7_x_start adam7_y_delta adam7_y_start
  match pass with
  | 0 | 1 | 2 | 3 | 4 | 5 | 6 =>
    simp only [List.getD_cons_succ, List.getD_cons_zero]
    exact ⟨by omega, fun _ _ => by omega, fun _ _ => by omega⟩
  | _ + 7 => omega

theorem adam7_covers (interlaced : ihdr.interlace_method = 1) {x y : Nat} (column : x < ihdr.width)
    (row : y < ihdr.height) :
    ∃ pass < 7, ∃ k < (passSize ihdr pass).1, ∃ i < (passSize ihdr pass).2,
      x = adam7_x_start pass + k * adam7_x_delta pass ∧
        y = adam7_y_start pass + i * adam7_y_delta pass := by
  have place (pass : Nat) (known : pass < 7)
      (there : (x - adam7_x_start pass) / adam7_x_delta pass < (passSize ihdr pass).1 ∧
        (y - adam7_y_start pass) / adam7_y_delta pass < (passSize ihdr pass).2 ∧
        x = adam7_x_start pass +
          (x - adam7_x_start pass) / adam7_x_delta pass * adam7_x_delta pass ∧
        y = adam7_y_start pass +
          (y - adam7_y_start pass) / adam7_y_delta pass * adam7_y_delta pass) :
      ∃ pass < 7, ∃ k < (passSize ihdr pass).1, ∃ i < (passSize ihdr pass).2,
        x = adam7_x_start pass + k * adam7_x_delta pass ∧
          y = adam7_y_start pass + i * adam7_y_delta pass :=
    ⟨pass, known, _, there.1, _, there.2.1, there.2.2⟩
  unfold passSize passSizes at place ⊢
  rw [if_pos interlaced] at place ⊢
  by_cases odd : y % 2 = 1
  · apply place 6 (by omega)
    simp [adam7_x_start, adam7_x_delta, adam7_y_start, adam7_y_delta]
    omega
  by_cases odd_ : x % 2 = 1
  · apply place 5 (by omega)
    simp [adam7_x_start, adam7_x_delta, adam7_y_start, adam7_y_delta]
    omega
  by_cases two : y % 4 = 2
  · apply place 4 (by omega)
    simp [adam7_x_start, adam7_x_delta, adam7_y_start, adam7_y_delta]
    omega
  by_cases two_ : x % 4 = 2
  · apply place 3 (by omega)
    simp [adam7_x_start, adam7_x_delta, adam7_y_start, adam7_y_delta]
    omega
  by_cases four : y % 8 = 4
  · apply place 2 (by omega)
    simp [adam7_x_start, adam7_x_delta, adam7_y_start, adam7_y_delta]
    omega
  by_cases four_ : x % 8 = 4
  · apply place 1 (by omega)
    simp [adam7_x_start, adam7_x_delta, adam7_y_start, adam7_y_delta]
    omega
  · apply place 0 (by omega)
    simp [adam7_x_start, adam7_x_delta, adam7_y_start, adam7_y_delta]
    omega

/-! The walk. -/

theorem skipEmpty_spec (passes : Passes) (pass : Nat) (before : pass ≤ passes.last_pass) :
    pass ≤ skipEmpty passes pass ∧ skipEmpty passes pass ≤ passes.last_pass ∧
      (¬ (passes.sub (skipEmpty passes pass)).empty ∨
        skipEmpty passes pass = passes.last_pass) ∧
      ∀ p, pass ≤ p → p < skipEmpty passes pass → (passes.sub p).empty := by
  induction pass using skipEmpty.induct passes with
  | case1 pass here ih =>
    obtain ⟨low, high, end_, skipped⟩ := ih (by omega)
    rw [skipEmpty, if_pos here]
    refine ⟨by omega, high, end_, fun p after less => ?_⟩
    by_cases same : p = pass
    · exact same ▸ here.1
    · exact skipped p (by omega) less
  | case2 pass here =>
    rw [skipEmpty, if_neg here]
    refine ⟨Nat.le_refl _, before, ?_, fun p after less => by omega⟩
    by_cases nonempty : (passes.sub pass).empty
    · exact .inr (by have := mt (And.intro nonempty) here; omega)
    · exact .inl nonempty

structure Line (ihdr : iHeader) (passes : Passes) (ri : RowInfo) : Prop where
  pass : ri.pass ≤ passes.last_pass
  nonempty : ¬ (passes.sub ri.pass).empty
  idx : ri.scanline_idx < (passes.sub ri.pass).height
  row : ri.row_num = rowOf ihdr ri.pass ri.scanline_idx

/-- The line `idx` of the pass `p` is still to come. -/
def Ahead (ri : RowInfo) (p idx : Nat) : Prop :=
  ri.pass < p ∨ (ri.pass = p ∧ ri.scanline_idx ≤ idx)

def linesLeft (ihdr : iHeader) (passes : Passes) (ri : RowInfo) : Nat :=
  (6 - ri.pass) * ihdr.height + ((passes.sub ri.pass).height - ri.scanline_idx)

section

variable {passes : Passes} {ri : RowInfo}

theorem Calculated.last_nonempty (checked : ihdr.Checked) (h : Calculated ihdr 7 passes) :
    ¬ (passes.sub 0).empty ∧ ¬ (passes.sub passes.last_pass).empty := by
  have first : ¬ (passes.sub 0).empty := by
    unfold SubImage.empty
    rw [(h.size 0).1, (h.size 0).2]
    unfold passSize passSizes
    have width := checked.width.1
    have height := checked.height.1
    split <;> simp only [List.getD_cons_zero] <;> omega
  refine ⟨first, ?_⟩
  obtain zero | nonempty := h.last
  · rw [zero]
    exact first
  · exact nonempty

theorem Calculated.known (h : Calculated ihdr 7 passes) {p : Nat}
    (nonempty : ¬ (passes.sub p).empty) : p < 7 := by
  by_contra beyond
  apply nonempty
  rw [Passes.sub, List.getD_eq_default _ _ (by rw [h.length]; omega)]
  exact .inl rfl

theorem Calculated.only (h : Calculated ihdr 7 passes) (plain : ihdr.interlace_method = 0) {p : Nat}
    (nonempty : ¬ (passes.sub p).empty) : p = 0 := by
  have known := h.known nonempty
  by_contra other
  apply nonempty
  unfold SubImage.empty
  rw [(h.size p).1]
  unfold passSize passSizes
  rw [if_neg (by omega)]
  match p with
  | 0 => omega
  | 1 | 2 | 3 | 4 | 5 | 6 => exact .inl rfl
  | _ + 7 => omega

theorem update_row_info_spec (checked : ihdr.Checked) (h : Calculated ihdr 7 passes)
    (line : Line ihdr passes ri) :
    ((ri.scanline_idx = (passes.sub ri.pass).height - 1 ∧ ri.pass = passes.last_pass) ∧
      update_row_info ihdr passes ri = (.EOI, ri) ∧
      ∀ p idx, ¬ (passes.sub p).empty → idx < (passes.sub p).height → Ahead ri p idx →
        p = ri.pass ∧ idx = ri.scanline_idx) ∨
    (¬ (ri.scanline_idx = (passes.sub ri.pass).height - 1 ∧ ri.pass = passes.last_pass) ∧
      ∃ ri', update_row_info ihdr passes ri = (.ok, ri') ∧ Line ihdr passes ri' ∧
        linesLeft ihdr passes ri' < linesLeft ihdr passes ri ∧
        (ri'.scanline_idx = 0 ∨ ri'.pass = ri.pass) ∧
        ∀ p idx, ¬ (passes.sub p).empty → idx < (passes.sub p).height → Ahead ri p idx →
          (p = ri.pass ∧ idx = ri.scanline_idx) ∨ Ahead ri' p idx) := by
  have inside := line.idx
  by_cases end_ : ri.scanline_idx = (passes.sub ri.pass).height - 1
  · by_cases last : ri.pass = passes.last_pass
    · refine .inl ⟨⟨end_, last⟩, ?_, fun p idx nonempty less ahead => ?_⟩
      · simp only [update_row_info]
        rw [if_pos end_, if_pos last]
      · have before := h.before_last p (h.known nonempty) nonempty
        obtain later | ⟨same, after⟩ := ahead
        · omega
        · subst same
          exact ⟨rfl, by omega⟩
    · refine .inr ⟨fun both => last both.2, ?_⟩
      have before := line.pass
      obtain ⟨low, high, stop, skipped⟩ := skipEmpty_spec passes (ri.pass + 1) (by omega)
      generalize next : skipEmpty passes (ri.pass + 1) = pass at low high stop skipped
      have nonempty : ¬ (passes.sub pass).empty := by
        obtain nonempty | same := stop
        · exact nonempty
        · rw [same]
          exact (h.last_nonempty checked).2
      have interlaced : ihdr.interlace_method ≠ 0 := by
        intro plain
        have := h.only plain nonempty
        omega
      refine ⟨⟨0, adam7_y_start pass + 0 * adam7_y_delta pass, pass⟩, ?_, ?_, ?_, .inl rfl, ?_⟩
      · simp only [update_row_info]
        rw [if_pos end_, if_neg last, if_neg interlaced, next]
      · refine ⟨high, nonempty, ?_, by rw [rowOf, if_neg interlaced]⟩
        change 0 < (passes.sub pass).height
        unfold SubImage.empty at nonempty
        omega
      · have known := h.known nonempty
        have few : (passes.sub pass).height ≤ ihdr.height := by
          rw [(h.size pass).2]
          exact (passSize_le ihdr pass).2
        have fewer : (6 - pass + 1) * ihdr.height ≤ (6 - ri.pass) * ihdr.height :=
          Nat.mul_le_mul_right _ (by omega)
        rw [Nat.add_mul, Nat.one_mul] at fewer
        unfold linesLeft
        simp only []
        omega
      · intro p idx some_ less ahead
        obtain later | ⟨same, after⟩ := ahead
        · right
          by_cases skip : p < pass
          · exact absurd (skipped p (by omega) skip) some_
          · by_cases same : p = pass
            · exact .inr ⟨same.symm, Nat.zero_le _⟩
            · exact .inl (by simp only []; omega)
        · subst same
          exact .inl ⟨rfl, by omega⟩
  · refine .inr ⟨fun both => end_ both.1, ⟨ri.scanline_idx + 1,
      rowOf ihdr ri.pass (ri.scanline_idx + 1), ri.pass⟩, ?_, ?_, ?_, .inr rfl, ?_⟩
    · have row := line.row
      unfold rowOf at row ⊢
      simp only [update_row_info]
      rw [if_neg end_]
      split
      next plain =>
        rw [if_pos plain] at row
        rw [row]
      next => rfl
    · exact ⟨line.pass, line.nonempty, by simp only []; omega, rfl⟩
    · unfold linesLeft
      simp only []
      omega
    · intro p idx _ _ ahead
      obtain later | ⟨same, after⟩ := ahead
      · exact .inr (.inl later)
      · by_cases here : idx = ri.scanline_idx
        · exact .inl ⟨same.symm, here⟩
        · exact .inr (.inr ⟨same, by simp only []; omega⟩)

theorem firstRow_line (checked : ihdr.Checked) (h : Calculated ihdr 7 passes) :
    Line ihdr passes (firstRow ihdr passes) ∧ (firstRow ihdr passes).scanline_idx = 0 ∧
      (∀ p idx, Ahead (firstRow ihdr passes) p idx) ∧
      linesLeft ihdr passes (firstRow ihdr passes) ≤ 7 * ihdr.height := by
  have first := (h.last_nonempty checked).1
  have pass : (passes.subimage.findIdx fun sub => ¬ sub.empty) = 0 := by
    obtain ⟨sub, rest, parts⟩ : ∃ sub rest, passes.subimage = sub :: rest := by
      cases parts : passes.subimage with
      | nil =>
        have := h.length
        rw [parts] at this
        cases this
      | cons sub rest => exact ⟨sub, rest, rfl⟩
    have head : passes.sub 0 = sub := by rw [Passes.sub, parts, List.getD_cons_zero]
    rw [parts, List.findIdx_cons, ← head]
    simp [first]
  unfold firstRow
  rw [pass]
  have height : 0 < (passes.sub 0).height := by
    unfold SubImage.empty at first
    omega
  have row : (if ihdr.interlace_method = 0 then 0 else adam7_y_start 0) = rowOf ihdr 0 0 := by
    unfold rowOf
    split
    · rfl
    · rw [Nat.zero_mul, Nat.add_zero]
  have few : (passes.sub 0).height ≤ ihdr.height := by
    rw [(h.size 0).2]
    exact (passSize_le ihdr 0).2
  refine ⟨⟨Nat.zero_le _, first, height, row⟩, rfl, fun p idx => ?_, ?_⟩
  · unfold Ahead
    simp only []
    omega
  · unfold linesLeft
    simp only []
    omega

end

end

end Png
