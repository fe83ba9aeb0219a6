import UpanLibs.Image.PngFilter
import UpanLibs.Raster

/-!
The pixels of a row: whole bytes, or samples of one, two or four bits packed from the top of a
byte. The loops move the pixels of a pass between a row of the image and the scanline.
-/
namespace Png

structure Iter where
  shift_amount : Nat
  samples : List Byte
  deriving DecidableEq, Repr

def Iter.new (bit_depth : Nat) (samples : List Byte) : Iter := ⟨8 - bit_depth, samples⟩

def sampleMask (bit_depth : Nat) : Byte := BitVec.ofNat 8 (2 ^ bit_depth - 1)

def Iter.get_sample (iter : Iter) (bit_depth : Nat) : Option (Byte × Iter) :=
  match iter.samples with
  | [] => none
  | byte :: samples =>
      let x := (byte >>> iter.shift_amount) &&& sampleMask bit_depth
      if iter.shift_amount < bit_depth then some (x, ⟨8 - bit_depth, samples⟩)
      else some (x, ⟨iter.shift_amount - bit_depth, byte :: samples⟩)

/-- The bits to the right of the sample `x` in its byte. -/
def slot (bit_depth x : Nat) : Nat := 8 - bit_depth - x * bit_depth % 8

def sampleAt (bit_depth : Nat) (row : List Byte) (x : Nat) : Byte :=
  (row.getD (x / (8 / bit_depth)) 0 >>> slot bit_depth x) &&& sampleMask bit_depth

/-- `buffer[i] |= sample` -/
def orByte (buffer : List Byte) (i : Nat) (sample : Byte) : Option (List Byte) :=
  buffer[i]?.map fun old => buffer.set i (old ||| sample)

/-- The loop of `encode_row` over the samples of a pass; `i` is the byte of the scanline. -/
def packLoop (bit_depth x_start x_delta : Nat) (row : List Byte) :
    Nat → Nat → Nat → Nat → List Byte → Option (List Byte)
  | 0, _, _, _, scanline => some scanline
  | left + 1, k, shift_amount, i, scanline => do
      let ioffset := x_start + k * x_delta
      let byte ← row[ioffset / (8 / bit_depth)]?
      let sample := (byte >>> slot bit_depth ioffset) &&& sampleMask bit_depth
      let scanline ← orByte scanline i (sample <<< shift_amount)
      if shift_amount < bit_depth then
        packLoop bit_depth x_start x_delta row left (k + 1) (8 - bit_depth) (i + 1) scanline
      else
        packLoop bit_depth x_start x_delta row left (k + 1) (shift_amount - bit_depth) i scanline

/-- The loop of `decode_row` over the samples of a pass. -/
def unpackLoop (bit_depth x_start x_delta : Nat) :
    Nat → Nat → Iter → List Byte → Option (List Byte)
  | 0, _, _, out => some out
  | left + 1, k, iter, out => do
      let (sample, iter) ← iter.get_sample bit_depth
      let ioffset := x_start + k * x_delta
      let sample := sample <<< slot bit_depth ioffset
      let out ← orByte out (ioffset / (8 / bit_depth)) sample
      unpackLoop bit_depth x_start x_delta left (k + 1) iter out

/-- The copies of `encode_row` where a pixel has whole bytes. -/
def gatherLoop (pixel_size x_start x_delta width : Nat) (row scanline : List Byte) :
    Option (List Byte) :=
  Raster.loop (fun k scanline => Raster.memcpy scanline (k * pixel_size : Nat) row
    ((x_start + k * x_delta) * pixel_size : Nat) pixel_size) width scanline

/-- The copies of `decode_row` where a pixel has whole bytes. -/
def scatterLoop (pixel_size x_start x_delta width : Nat) (row out : List Byte) :
    Option (List Byte) :=
  Raster.loop (fun k out => Raster.memcpy out ((x_start + k * x_delta) * pixel_size : Nat) row
    (k * pixel_size : Nat) pixel_size) width out

def Packed (bit_depth : Nat) : Prop := bit_depth = 1 ∨ bit_depth = 2 ∨ bit_depth = 4

/-! Packed samples. -/

theorem sampleMask_bit (bit_depth i : Nat) :
    (sampleMask bit_depth).getLsbD i = (decide (i < 8) && decide (i < bit_depth)) := by
  rw [sampleMask, BitVec.getLsbD_ofNat, Nat.testBit_two_pow_sub_one]

theorem sampleAt_bit (bit_depth : Nat) (row : List Byte) (x i : Nat) :
    (sampleAt bit_depth row x).getLsbD i =
      ((row.getD (x / (8 / bit_depth)) 0).getLsbD (slot bit_depth x + i) &&
        (decide (i < 8) && decide (i < bit_depth))) := by
  rw [sampleAt, BitVec.getLsbD_and, BitVec.getLsbD_ushiftRight, sampleMask_bit]

def Sample (bit_depth : Nat) (v : Byte) : Prop := ∀ i, bit_depth ≤ i → v.getLsbD i = false

theorem sampleAt_sample (bit_depth : Nat) (row : List Byte) (x : Nat) :
    Sample bit_depth (sampleAt bit_depth row x) := by
  intro i above
  rw [sampleAt_bit, decide_eq_false (Nat.not_lt.mpr above), Bool.and_false, Bool.and_false]

def orAt (bit_depth : Nat) (row : List Byte) (x : Nat) (v : Byte) : List Byte :=
  row.set (x / (8 / bit_depth)) (row.getD (x / (8 / bit_depth)) 0 ||| v <<< slot bit_depth x)

theorem orAt_length (bit_depth : Nat) (row : List Byte) (x : Nat) (v : Byte) :
    (orAt bit_depth row x v).length = row.length := List.length_set

theorem slots_apart {bit_depth x y : Nat} (packed : Packed bit_depth)
    (byte : x / (8 / bit_depth) = y / (8 / bit_depth)) (other : x ≠ y) :
    slot bit_depth x + bit_depth ≤ slot bit_depth y ∨
      slot bit_depth y + bit_depth ≤ slot bit_depth x := by
  unfold slot
  obtain rfl | rfl | rfl := packed <;> omega

theorem slot_le {bit_depth : Nat} (packed : Packed bit_depth) (x : Nat) :
    slot bit_depth x + bit_depth ≤ 8 := by
  unfold slot
  obtain rfl | rfl | rfl := packed <;> omega

theorem sampleAt_orAt {bit_depth : Nat} (packed : Packed bit_depth) {row : List Byte} {x : Nat}
    {v : Byte} (inside : x / (8 / bit_depth) < row.length) (sample : Sample bit_depth v)
    (y : Nat) :
    sampleAt bit_depth (orAt bit_depth row x v) y =
      if y = x then sampleAt bit_depth row x ||| v else sampleAt bit_depth row y := by
  apply BitVec.eq_of_getLsbD_eq
  intro i small
  have fits := slot_le packed x
  have fits' := slot_le packed y
  by_cases byte : y / (8 / bit_depth) = x / (8 / bit_depth)
  · have here : (orAt bit_depth row x v).getD (x / (8 / bit_depth)) 0 =
        row.getD (x / (8 / bit_depth)) 0 ||| v <<< slot bit_depth x := by
      rw [orAt, List.getD_eq_getElem _ _ (by simpa using inside), List.getElem_set_self]
    rw [sampleAt_bit, byte, here, BitVec.getLsbD_or, BitVec.getLsbD_shiftLeft]
    by_cases same : y = x
    · subst same
      rw [if_pos rfl, BitVec.getLsbD_or, sampleAt_bit, Nat.add_sub_cancel_left]
      by_cases low : i < bit_depth
      · simp [low, small, show slot bit_depth y + i < 8 by omega,
          show ¬ slot bit_depth y + i < slot bit_depth y by omega]
      · simp [low, sample i (by omega)]
    · rw [if_neg same, sampleAt_bit, byte]
      by_cases low : i < bit_depth
      · have apart := slots_apart packed byte.symm (Ne.symm same)
        have none_ : (decide (slot bit_depth y + i < 8) &&
            !decide (slot bit_depth y + i < slot bit_depth x) &&
            v.getLsbD (slot bit_depth y + i - slot bit_depth x)) = false := by
          by_cases before : slot bit_depth y + i < slot bit_depth x
          · simp [before]
          · rw [sample _ (by omega), Bool.and_false]
        rw [none_, Bool.or_false]
      · simp [low]
  · have other : (orAt bit_depth row x v).getD (y / (8 / bit_depth)) 0 =
        row.getD (y / (8 / bit_depth)) 0 := by
      rw [orAt, List.getD_eq_getElem?_getD, List.getElem?_set_ne (Ne.symm byte),
        ← List.getD_eq_getElem?_getD]
    have apart : y ≠ x := by
      rintro rfl
      exact byte rfl
    rw [if_neg apart, sampleAt_bit, sampleAt_bit, other]

theorem slot_next {bit_depth : Nat} (packed : Packed bit_depth) (k : Nat) :
    (slot bit_depth k < bit_depth ∧ slot bit_depth (k + 1) = 8 - bit_depth ∧
      (k + 1) / (8 / bit_depth) = k / (8 / bit_depth) + 1) ∨
    (bit_depth ≤ slot bit_depth k ∧ slot bit_depth (k + 1) = slot bit_depth k - bit_depth ∧
      (k + 1) / (8 / bit_depth) = k / (8 / bit_depth)) := by
  unfold slot
  obtain rfl | rfl | rfl := packed <;> omega

theorem slot_zero (bit_depth : Nat) : slot bit_depth 0 = 8 - bit_depth := by
  rw [slot, Nat.zero_mul, Nat.zero_mod, Nat.sub_zero]

def iterAt (bit_depth : Nat) (row : List Byte) (k : Nat) : Iter :=
  ⟨slot bit_depth k, row.drop (k / (8 / bit_depth))⟩

theorem iter_new (bit_depth : Nat) (row : List Byte) :
    Iter.new bit_depth row = iterAt bit_depth row 0 := by
  rw [Iter.new, iterAt, slot_zero, Nat.zero_div, List.drop_zero]

theorem get_sample_iterAt {bit_depth : Nat} (packed : Packed bit_depth) {row : List Byte}
    {k : Nat} (inside : k / (8 / bit_depth) < row.length) :
    (iterAt bit_depth row k).get_sample bit_depth =
      some (sampleAt bit_depth row k, iterAt bit_depth row (k + 1)) := by
  unfold iterAt Iter.get_sample
  rw [List.drop_eq_getElem_cons inside]
  have head : row.getD (k / (8 / bit_depth)) 0 = row[k / (8 / bit_depth)] :=
    List.getD_eq_getElem _ _ inside
  rw [sampleAt, head]
  obtain ⟨low, next, byte⟩ | ⟨high, next, byte⟩ := slot_next packed k
  · simp only [if_pos low, next, byte]
  · simp only [if_neg (Nat.not_lt.mpr high), next, byte]
    rw [List.drop_eq_getElem_cons inside]

theorem orByte_sample {bit_depth : Nat} {row : List Byte} {x : Nat} (v : Byte)
    (inside : x / (8 / bit_depth) < row.length) :
    orByte row (x / (8 / bit_depth)) (v <<< slot bit_depth x) = some (orAt bit_depth row x v) := by
  rw [orByte, orAt, List.getElem?_eq_getElem inside, Option.map_some,
    List.getD_eq_getElem _ _ inside]

section

variable {bit_depth x_start x_delta : Nat} {row : List Byte}

theorem packLoop_next (packed : Packed bit_depth) {left k : Nat} {scanline : List Byte}
    (there : (x_start + k * x_delta) / (8 / bit_depth) < row.length)
    (room : k / (8 / bit_depth) < scanline.length) :
    packLoop bit_depth x_start x_delta row (left + 1) k (slot bit_depth k)
        (k / (8 / bit_depth)) scanline =
      packLoop bit_depth x_start x_delta row left (k + 1) (slot bit_depth (k + 1))
        ((k + 1) / (8 / bit_depth))
        (orAt bit_depth scanline k (sampleAt bit_depth row (x_start + k * x_delta))) := by
  have read : (row[(x_start + k * x_delta) / (8 / bit_depth)] >>>
      slot bit_depth (x_start + k * x_delta)) &&& sampleMask bit_depth =
        sampleAt bit_depth row (x_start + k * x_delta) := by
    rw [sampleAt, List.getD_eq_getElem _ _ there]
  rw [packLoop, List.getElem?_eq_getElem there, Option.bind_eq_bind, Option.bind_some]
  simp only [read]
  rw [orByte_sample _ room, Option.bind_eq_bind, Option.bind_some]
  obtain ⟨low, next, byte⟩ | ⟨high, next, byte⟩ := slot_next packed k
  · rw [if_pos low, next, byte]
  · rw [if_neg (Nat.not_lt.mpr high), next, byte]

theorem packLoop_sample (packed : Packed bit_depth) {left k : Nat} {scanline : List Byte}
    (there : ∀ j < k + left, (x_start + j * x_delta) / (8 / bit_depth) < row.length)
    (room : ∀ j < k + left, j / (8 / bit_depth) < scanline.length)
    (blank : ∀ j, k ≤ j → j < k + left → sampleAt bit_depth scanline j = 0) :
    ∃ line, packLoop bit_depth x_start x_delta row left k (slot bit_depth k)
        (k / (8 / bit_depth)) scanline = some line ∧ line.length = scanline.length ∧
      ∀ j < k + left, sampleAt bit_depth line j =
        if k ≤ j then sampleAt bit_depth row (x_start + j * x_delta)
        else sampleAt bit_depth scanline j := by
  induction left generalizing k scanline with
  | zero => exact ⟨scanline, rfl, rfl, fun j here => by rw [if_neg (by omega)]⟩
  | succ left ih =>
    have set_ := sampleAt_orAt packed (room k (by omega))
      (sampleAt_sample bit_depth row (x_start + k * x_delta))
    rw [packLoop_next packed (there k (by omega)) (room k (by omega))]
    obtain ⟨line, run, length, samples⟩ := @ih (k + 1)
      (orAt bit_depth scanline k (sampleAt bit_depth row (x_start + k * x_delta)))
      (fun j inside => there j (by omega))
      (fun j inside => by
        rw [orAt_length]
        exact room j (by omega))
      (fun j after inside => by
        rw [set_, if_neg (by omega)]
        exact blank j (by omega) (by omega))
    refine ⟨line, run, length.trans (orAt_length ..), fun j here => ?_⟩
    rw [samples j (by omega)]
    split
    next after => rw [if_pos (by omega)]
    next before =>
      rw [set_]
      split
      next same =>
        subst same
        have none_ : (0 : Byte) = 0#8 := rfl
        rw [if_pos (Nat.le_refl _), blank j (Nat.le_refl _) (by omega), none_, BitVec.zero_or]
      next other => rw [if_neg (by omega)]

theorem unpackLoop_next (packed : Packed bit_depth) {left k : Nat} {out : List Byte}
    (there : k / (8 / bit_depth) < row.length)
    (room : (x_start + k * x_delta) / (8 / bit_depth) < out.length) :
    unpackLoop bit_depth x_start x_delta (left + 1) k (iterAt bit_depth row k) out =
      unpackLoop bit_depth x_start x_delta left (k + 1) (iterAt bit_depth row (k + 1))
        (orAt bit_depth out (x_start + k * x_delta) (sampleAt bit_depth row k)) := by
  rw [unpackLoop, get_sample_iterAt packed there, Option.bind_eq_bind, Option.bind_some]
  simp only []
  rw [orByte_sample _ room, Option.bind_eq_bind, Option.bind_some]

theorem unpackLoop_sample (packed : Packed bit_depth) (steps : 0 < x_delta) {left k : Nat}
    {out : List Byte} (there : ∀ j < k + left, j / (8 / bit_depth) < row.length)
    (room : ∀ j < k + left, (x_start + j * x_delta) / (8 / bit_depth) < out.length) :
    ∃ out', unpackLoop bit_depth x_start x_delta left k (iterAt bit_depth row k) out =
        some out' ∧ out'.length = out.length ∧
      (∀ j, k ≤ j → j < k + left → sampleAt bit_depth out' (x_start + j * x_delta) =
        sampleAt bit_depth out (x_start + j * x_delta) ||| sampleAt bit_depth row j) ∧
      ∀ x, (∀ j, k ≤ j → j < k + left → x ≠ x_start + j * x_delta) →
        sampleAt bit_depth out' x = sampleAt bit_depth out x := by
  induction left generalizing k out with
  | zero => exact ⟨out, rfl, rfl, fun _ _ _ => by omega, fun _ _ => rfl⟩
  | succ left ih =>
    have set_ := sampleAt_orAt packed (room k (by omega)) (sampleAt_sample bit_depth row k)
    have room_ : ∀ j < k + 1 + left, (x_start + j * x_delta) / (8 / bit_depth) <
        (orAt bit_depth out (x_start + k * x_delta) (sampleAt bit_depth row k)).length := by
      intro j inside
      rw [orAt_length]
      exact room j (by omega)
    obtain ⟨out', run, length, inside_, outside⟩ :=
      ih (fun j inside => there j (by omega)) room_
    have apart {i j : Nat} (less : i < j) : x_start + i * x_delta ≠ x_start + j * x_delta := by
      have := Nat.mul_lt_mul_of_pos_right less steps
      omega
    rw [unpackLoop_next packed (there k (by omega)) (room k (by omega))]
    refine ⟨out', run, length.trans (orAt_length ..), fun j after inside => ?_,
      fun x other => ?_⟩
    · by_cases same : j = k
      · subst same
        rw [outside _ fun i after _ => apart (by omega), set_, if_pos rfl]
      · rw [inside_ j (by omega) (by omega), set_, if_neg (apart (by omega)).symm]
    · rw [outside x fun j after inside => other j (by omega) (by omega), set_,
        if_neg (other k (by omega) (by omega))]

theorem sampleAt_zeros {bit_depth n j : Nat} (rest : List Byte)
    (inside : j / (8 / bit_depth) < n) :
    sampleAt bit_depth (List.replicate n 0 ++ rest) j = 0 := by
  have zero : (List.replicate n (0 : Byte) ++ rest).getD (j / (8 / bit_depth)) 0 = 0#8 := by
    rw [List.getD_append _ _ _ _ (by simpa using inside)]
    exact List.getD_replicate _ inside
  rw [sampleAt, zero, BitVec.zero_ushiftRight, BitVec.zero_and]
  rfl

theorem packLoop_spec (packed : Packed bit_depth) (x_start x_delta : Nat) (row : List Byte)
    {width n : Nat} (rest : List Byte) (room : ∀ j < width, j / (8 / bit_depth) < n)
    (there : ∀ j < width, (x_start + j * x_delta) / (8 / bit_depth) < row.length) :
    ∃ line, packLoop bit_depth x_start x_delta row width 0 (8 - bit_depth) 0
        (List.replicate n 0 ++ rest) = some line ∧ line.length = n + rest.length ∧
      ∀ j < width, sampleAt bit_depth line j =
        sampleAt bit_depth row (x_start + j * x_delta) := by
  have room_ : ∀ j < 0 + width, j / (8 / bit_depth) <
      (List.replicate n (0 : Byte) ++ rest).length := by
    intro j inside
    have here := room j (by omega)
    rw [List.length_append, List.length_replicate]
    omega
  obtain ⟨line, run, length, samples⟩ := @packLoop_sample bit_depth x_start x_delta row packed
    width 0 _ (fun j inside => there j (by omega)) room_
    fun j _ inside => sampleAt_zeros rest (room j (by omega))
  rw [slot_zero, Nat.zero_div] at run
  refine ⟨line, run, ?_, fun j inside => ?_⟩
  · rw [length, List.length_append, List.length_replicate]
  · rw [samples j (by omega), if_pos (Nat.zero_le j)]

theorem unpackLoop_spec (packed : Packed bit_depth) (x_start : Nat) (steps : 0 < x_delta)
    (row : List Byte) {width : Nat} {out : List Byte}
    (there : ∀ j < width, j / (8 / bit_depth) < row.length)
    (room : ∀ j < width, (x_start + j * x_delta) / (8 / bit_depth) < out.length) :
    ∃ out', unpackLoop bit_depth x_start x_delta width 0 (Iter.new bit_depth row) out =
        some out' ∧ out'.length = out.length ∧
      (∀ k < width, sampleAt bit_depth out' (x_start + k * x_delta) =
        sampleAt bit_depth out (x_start + k * x_delta) ||| sampleAt bit_depth row k) ∧
      ∀ x, (∀ k < width, x ≠ x_start + k * x_delta) →
        sampleAt bit_depth out' x = sampleAt bit_depth out x := by
  obtain ⟨out', run, length, there_, other⟩ := @unpackLoop_sample bit_depth x_start x_delta row
    packed steps width 0 out (fun j inside => there j (by omega)) fun j inside =>
      room j (by omega)
  rw [iter_new]
  refine ⟨out', run, length, fun k inside => ?_, fun x apart => ?_⟩
  · exact there_ k (Nat.zero_le k) (by omega)
  · exact other x fun k _ inside => apart k (by omega)

end

/-! Pixels of whole bytes. -/

section

variable {pixel_size x_start x_delta width : Nat} (row dst : List Byte)

theorem pixel_byte {k x b : Nat} (inside : b < pixel_size) :
    (k * pixel_size ≤ x * pixel_size + b ∧ x * pixel_size + b < k * pixel_size + pixel_size) ↔
      x = k := by
  have here := Raster.place_mem_row 0 pixel_size k x (by omega) inside
  rw [Nat.zero_add, Nat.zero_add, Nat.add_comm b, Nat.add_comm pixel_size] at here
  rw [here]
  omega

theorem memcpy_pixel {x k : Nat} (room : (x + 1) * pixel_size ≤ dst.length)
    (there : (k + 1) * pixel_size ≤ row.length) :
    ∃ out, Raster.memcpy dst (x * pixel_size : Nat) row (k * pixel_size : Nat) pixel_size =
      some out ∧ out.length = dst.length ∧ ∀ y b, b < pixel_size →
        out.getD (y * pixel_size + b) 0 = if y = x then row.getD (k * pixel_size + b) 0
          else dst.getD (y * pixel_size + b) 0 := by
  rw [Nat.add_mul, Nat.one_mul] at room there
  obtain ⟨out, run, same, bytes⟩ := Raster.memcpy_spec room there
  refine ⟨out, run, same, fun y b inside => ?_⟩
  rw [List.getD_eq_getElem?_getD, bytes]
  by_cases here : y = x
  · have start : k * pixel_size + (y * pixel_size + b - x * pixel_size) = k * pixel_size + b := by
      rw [here]
      omega
    rw [if_pos ((pixel_byte inside).mpr here), if_pos here, start, ← List.getD_eq_getElem?_getD]
  · rw [if_neg fun inside_ => here ((pixel_byte inside).mp inside_), if_neg here,
      ← List.getD_eq_getElem?_getD]

theorem gatherLoop_spec (room : width * pixel_size ≤ dst.length)
    (there : ∀ k < width, (x_start + k * x_delta + 1) * pixel_size ≤ row.length) :
    ∃ out, gatherLoop pixel_size x_start x_delta width row dst = some out ∧
      out.length = dst.length ∧ ∀ k < width, ∀ b < pixel_size,
        out.getD (k * pixel_size + b) 0 =
          row.getD ((x_start + k * x_delta) * pixel_size + b) 0 := by
  refine Raster.loop_spec (fun i (out : List Byte) => out.length = dst.length ∧ ∀ k < i,
    ∀ b < pixel_size, out.getD (k * pixel_size + b) 0 =
      row.getD ((x_start + k * x_delta) * pixel_size + b) 0) ⟨rfl, fun _ none_ => by omega⟩ ?_
  rintro i inside out ⟨same, before⟩
  have room_ : (i + 1) * pixel_size ≤ out.length := by
    have := Nat.mul_le_mul_right pixel_size (show i + 1 ≤ width by omega)
    omega
  obtain ⟨out', run, same', bytes⟩ := memcpy_pixel row out room_ (there i inside)
  refine ⟨out', run, same'.trans same, fun k less b small => ?_⟩
  rw [bytes k b small]
  split
  next here => rw [here]
  next other => exact before k (by omega) b small

theorem scatterLoop_spec (steps : 0 < x_delta)
    (room : ∀ k < width, (x_start + k * x_delta + 1) * pixel_size ≤ dst.length)
    (there : width * pixel_size ≤ row.length) :
    ∃ out, scatterLoop pixel_size x_start x_delta width row dst = some out ∧
      out.length = dst.length ∧
      (∀ k < width, ∀ b < pixel_size, out.getD ((x_start + k * x_delta) * pixel_size + b) 0 =
        row.getD (k * pixel_size + b) 0) ∧
      ∀ x, (∀ k < width, x ≠ x_start + k * x_delta) → ∀ b < pixel_size,
        out.getD (x * pixel_size + b) 0 = dst.getD (x * pixel_size + b) 0 := by
  refine Raster.loop_spec (fun i (out : List Byte) => out.length = dst.length ∧
    (∀ k < i, ∀ b < pixel_size, out.getD ((x_start + k * x_delta) * pixel_size + b) 0 =
      row.getD (k * pixel_size + b) 0) ∧
    ∀ x, (∀ k < i, x ≠ x_start + k * x_delta) → ∀ b < pixel_size,
      out.getD (x * pixel_size + b) 0 = dst.getD (x * pixel_size + b) 0)
    ⟨rfl, fun _ none_ => by omega, fun _ _ _ _ => rfl⟩ ?_
  rintro i inside out ⟨same, before, other⟩
  have room_ := room i inside
  rw [← same] at room_
  have there_ : (i + 1) * pixel_size ≤ row.length := by
    have := Nat.mul_le_mul_right pixel_size (show i + 1 ≤ width by omega)
    omega
  obtain ⟨out', run, same', bytes⟩ := memcpy_pixel row out room_ there_
  refine ⟨out', run, same'.trans same, fun k less b small => ?_, fun x apart b small => ?_⟩
  · rw [bytes _ b small]
    by_cases last : k = i
    · rw [if_pos (by rw [last]), last]
    · have := Nat.mul_lt_mul_of_pos_right (show k < i by omega) steps
      rw [if_neg (by omega)]
      exact before k (by omega) b small
  · rw [bytes x b small, if_neg (apart i (by omega))]
    exact other x (fun k less => apart k (by omega)) b small

end

end Png
