import UpanLibs.Image.PngPasses
import UpanLibs.Image.PngSamples
import UpanLibs.Image.PngSimd

/-!
`encode_image` and `decode_image` for the formats that keep the layout of the file. The stream
between them is what the one hands to `deflate` and the other gets from `inflate`. A call has no
result where it would read or write outside of a buffer or a loop would not end in the steps given
to it. The functions that filter a line and undo it get the line and the one above as lists.
-/
namespace Png

/-- `PNG_FMT_PNG` has the samples of sixteen bits in the order of the host, `PNG_FMT_RAW` in that
    of the file. -/
inductive Format where
  | PNG_FMT_PNG | PNG_FMT_RAW
  deriving DecidableEq, Repr

/-- `u16_row_to_host` and `u16_row_to_bigendian` on a little-endian host. -/
def u16_row_swap : List Byte → List Byte
  | x :: y :: row => y :: x :: u16_row_swap row
  | row => row

structure Context where
  ihdr : iHeader
  passes : Passes
  image_width : Nat
  fmt : Format
  deriving DecidableEq, Repr

namespace Context

variable (c : Context)

def swaps : Prop := c.ihdr.bit_depth = 16 ∧ c.fmt ≠ .PNG_FMT_RAW

instance : Decidable c.swaps :=
  inferInstanceAs (Decidable (c.ihdr.bit_depth = 16 ∧ c.fmt ≠ .PNG_FMT_RAW))

def hostRow (row : List Byte) : List Byte := if c.swaps then u16_row_swap row else row

def wholeRows (pass : Nat) : Prop := c.ihdr.interlace_method = 0 ∨ pass = 6

instance (pass : Nat) : Decidable (c.wholeRows pass) := inferInstanceAs (Decidable (_ ∨ _))

end Context

/-! The line buffers, from the pointer to the first pixel on. -/

def Context.scanline_buf_size (c : Context) : Nat :=
  (c.passes.sub c.passes.widest_pass).scanline_width + 32

def malloc (heap : Nat → Byte) (start size : Nat) : List Byte :=
  (List.range size).map fun i => heap (start + i)

def memset (buffer : List Byte) (len : Nat) : Option (List Byte) :=
  if len ≤ buffer.length then some (List.replicate len 0 ++ buffer.drop len) else none

/-- The first bytes, for a function that gets a pointer and a length. -/
def front (buffer : List Byte) (len : Nat) : Option (List Byte) :=
  if len ≤ buffer.length then some (buffer.take len) else none

def setFront (buffer line : List Byte) : List Byte := line ++ buffer.drop line.length

def clearFirst (ri : RowInfo) (scanline_width : Nat) (clears : Prop) [Decidable clears]
    (prev_scanline : List Byte) : Option (List Byte) :=
  if ri.scanline_idx = 0 ∧ clears then memset prev_scanline scanline_width
  else some prev_scanline

/-! The encoder. -/

def requires_previous (filter_choice : Nat) : Prop :=
  filter_choice &&& (PNG_FILTER_CHOICE_UP ||| PNG_FILTER_CHOICE_AVG |||
    PNG_FILTER_CHOICE_PAETH) ≠ 0

instance (filter_choice : Nat) : Decidable (requires_previous filter_choice) :=
  inferInstanceAs (Decidable (_ ≠ _))

/-- `prev_scanline` is unfiltered; `idat` is what has been handed to `deflate`. -/
structure Encoder where
  row_info : RowInfo
  scanline : List Byte
  prev_scanline : List Byte
  idat : List Byte
  deriving DecidableEq, Repr

def filteredLine (c : Context) (prev_scanline scanline : List Byte) (filter : Nat) :
    Except Error (List Byte) :=
  if filter = PNG_FILTER_NONE then .ok scanline
  else filter_scanline [] prev_scanline scanline c.ihdr.bytes_per_pixel filter

/-- The part of `encode_scanline` for the line in the buffer `scanline`. -/
def encodeLine (c : Context) (filter_choice : Nat) (s : Encoder) (scanline : List Byte) :
    Option (Except Error (Ret × Encoder)) := do
  let ri := s.row_info
  let scanline_width := (c.passes.sub ri.pass).scanline_width
  let line ← front scanline (scanline_width - 1)
  let line := c.hostRow line
  let prev_scanline ←
    clearFirst ri scanline_width (requires_previous filter_choice) s.prev_scanline
  let above ← front prev_scanline (scanline_width - 1)
  let filter := get_best_filter above line c.ihdr.bytes_per_pixel filter_choice
  match filteredLine c above line filter with
  | .error e => some (.error e)
  | .ok filtered =>
      let next := update_row_info c.ihdr c.passes ri
      some (.ok (next.1, ⟨next.2, prev_scanline, setFront scanline line,
        s.idat ++ BitVec.ofNat 8 filter :: filtered⟩))

/-- `none` is the buffer of the encoder itself. -/
def encode_scanline (c : Context) (filter_choice : Nat) (s : Encoder)
    (scanline : Option (List Byte)) (len : Nat) : Option (Except Error (Ret × Encoder)) :=
  let scanline_width := (c.passes.sub s.row_info.pass).scanline_width
  if len < scanline_width - 1 then some (.error .EINTERNAL)
  else
    match scanline with
    | some scanline =>
        (Raster.memcpy s.scanline 0 scanline 0 (scanline_width - 1 : Nat)).bind
          (encodeLine c filter_choice s)
    | none => encodeLine c filter_choice s s.scanline

def interlaceRow (c : Context) (pass : Nat) (row scanline : List Byte) : Option (List Byte) :=
  let sub := c.passes.sub pass
  if c.ihdr.bit_depth < 8 then
    (memset scanline sub.scanline_width).bind
      (packLoop c.ihdr.bit_depth (adam7_x_start pass) (adam7_x_delta pass) row sub.width 0
        (8 - c.ihdr.bit_depth) 0)
  else gatherLoop c.ihdr.bytes_per_pixel (adam7_x_start pass) (adam7_x_delta pass) sub.width row
    scanline

def encode_row (c : Context) (filter_choice : Nat) (s : Encoder) (row : List Byte) (len : Nat) :
    Option (Except Error (Ret × Encoder)) :=
  let pass := s.row_info.pass
  if c.wholeRows pass then encode_scanline c filter_choice s (some row) len
  else (interlaceRow c pass row s.scanline).bind fun scanline =>
    encode_scanline c filter_choice { s with scanline := scanline } none len

/-- The bytes of the row `row_num`. -/
def imageRow (image_width : Nat) (img : List Byte) (row_num : Nat) : List Byte :=
  (img.drop (row_num * image_width)).take image_width

def encodeLoop (c : Context) (filter_choice : Nat) (img : List Byte) :
    Nat → Encoder → Option (Except Error Encoder)
  | 0, _ => none
  | left + 1, s =>
      match encode_row c filter_choice s (imageRow c.image_width img s.row_info.row_num)
          c.image_width with
      | none => none
      | some (.error e) => some (.error e)
      | some (.ok (.EOI, s)) => some (.ok s)
      | some (.ok (.ok, s)) => encodeLoop c filter_choice img left s

/-- What the encoder is set to: `plte` tells that a palette is stored, `optimize_filter` is the bit
    `PNG_FILTER_CHOICE` of `_optimize_option`. -/
structure EncodeOptions where
  plte : Bool
  filter_choice : Nat
  optimize_filter : Bool
  compression_level : Int
  deriving DecidableEq, Repr

def filterChoice (ihdr : iHeader) (options : EncodeOptions) : Nat :=
  let filter_choice := if options.optimize_filter ∧ (options.compression_level = 0 ∨
      ihdr.color_type = PNG_COLOR_TYPE_INDEXED ∨ ihdr.bit_depth < 8) then
    PNG_DISABLE_FILTERING else options.filter_choice
  if filter_choice = PNG_FILTER_CHOICE_NONE then PNG_DISABLE_FILTERING else filter_choice

/-- The filter of a line is put before its first pixel: the pointers are 16 bytes behind the start
    of their buffers. -/
def encode_image (ihdr : iHeader) (options : EncodeOptions) (fmt : Format) (heap : Nat → Byte)
    (img : List Byte) : Option (Except Error (List Byte)) :=
  if ihdr.color_type = PNG_COLOR_TYPE_INDEXED ∧ options.plte = false then some (.error .ENOPLTE)
  else
    match ihdr.calculate_image_width with
    | .error e => some (.error e)
    | .ok image_width =>
        if SIZE_MAX / ihdr.height < image_width ∨ image_width * ihdr.height = 0 then
          some (.error .EOVERFLOW)
        else if img.length ≠ image_width * ihdr.height then some (.error .EBUFSIZ)
        else
          match calculate_subimages ihdr with
          | .error e => some (.error e)
          | .ok passes =>
              let c : Context := ⟨ihdr, passes, image_width, fmt⟩
              let scanline_buf := malloc heap 0 c.scanline_buf_size
              let prev_scanline_buf := malloc heap c.scanline_buf_size c.scanline_buf_size
              (encodeLoop c (filterChoice ihdr options) img (7 * ihdr.height)
                ⟨firstRow ihdr passes, scanline_buf.drop 16, prev_scanline_buf.drop 16, []⟩).map
                fun result => result.map Encoder.idat

/-! The decoder. -/

/-- `filter` is that of the next line; `stream` is what `inflate` is still to give. -/
structure Decoder where
  row_info : RowInfo
  filter : Nat
  scanline : List Byte
  prev_scanline : List Byte
  stream : List Byte
  done : Bool
  deriving DecidableEq, Repr

def read_scanline_bytes (dest stream : List Byte) (len : Nat) :
    Option (Except Error (List Byte × List Byte)) :=
  if dest.length < len then none
  else if stream.length < len then some (.error .EIDAT_TOO_SHORT)
  else some (.ok (setFront dest (stream.take len), stream.drop len))

/-- The part of `read_scanline` that undoes the filter of the line in the buffer `scanline`. -/
def decodeLine (c : Context) (s : Decoder) (next_filter : Nat) (scanline stream : List Byte) :
    Option (Except Error Decoder) := do
  let ri := s.row_info
  let scanline_width := (c.passes.sub ri.pass).scanline_width
  let prev_scanline ← clearFirst ri scanline_width (1 < s.filter) s.prev_scanline
  let line ← front scanline (scanline_width - 1)
  let above ← front prev_scanline (scanline_width - 1)
  match defilter_scanline above (c.hostRow line) c.ihdr.bytes_per_pixel s.filter with
  | .error e => some (.error e)
  | .ok line =>
      some (.ok ⟨ri, next_filter, setFront scanline line, prev_scanline, stream, s.done⟩)

/-- The filter byte of the next line comes with a line, but for the last one. -/
def read_scanline (c : Context) (s : Decoder) : Option (Except Error Decoder) :=
  let ri := s.row_info
  let sub := c.passes.sub ri.pass
  let last := ri.scanline_idx = sub.height - 1 ∧ ri.pass = c.passes.last_pass
  match read_scanline_bytes s.scanline s.stream
      (if last then sub.scanline_width - 1 else sub.scanline_width) with
  | none => none
  | some (.error e) => some (.error e)
  | some (.ok (scanline, stream)) => do
      let next_filter ← if last then some 0 else scanline[sub.scanline_width - 1]?.map (·.toNat)
      if 4 < next_filter then some (.error .EFILTER)
      else decodeLine c s next_filter scanline stream

def decode_scanline (c : Context) (s : Decoder) (out : List Byte) (len : Nat) :
    Option (Except Error (Ret × Decoder × List Byte)) :=
  let ri := s.row_info
  let scanline_width := (c.passes.sub ri.pass).scanline_width
  if s.done then some (.ok (.EOI, s, out))
  else if len < scanline_width - 1 then some (.error .EBUFSIZ)
  else
    match read_scanline c s with
    | none => none
    | some (.error e) => some (.error e)
    | some (.ok s) =>
        (Raster.memcpy out 0 s.scanline 0 (scanline_width - 1 : Nat)).map fun out =>
          let next := update_row_info c.ihdr c.passes ri
          .ok (next.1, ⟨next.2, s.filter, s.prev_scanline, s.scanline, s.stream,
            next.1 = .EOI⟩, out)

def deinterlaceRow (c : Context) (pass : Nat) (row out : List Byte) : Option (List Byte) :=
  let sub := c.passes.sub pass
  if c.ihdr.bit_depth < 8 then
    unpackLoop c.ihdr.bit_depth (adam7_x_start pass) (adam7_x_delta pass) sub.width 0
      (Iter.new c.ihdr.bit_depth row) out
  else scatterLoop c.ihdr.bytes_per_pixel (adam7_x_start pass) (adam7_x_delta pass) sub.width
    row out

/-- Behind a scanline the memory `_row` is not read, so that what it held before does not matter.
    The end of the image in a pass before the seventh is only told by the next call. -/
def decode_row (c : Context) (s : Decoder) (out : List Byte) (len : Nat) :
    Option (Except Error (Ret × Decoder × List Byte)) :=
  let pass := s.row_info.pass
  if s.done then some (.ok (.EOI, s, out))
  else if len < c.image_width then some (.error .EBUFSIZ)
  else if c.wholeRows pass then decode_scanline c s out len
  else
    match decode_scanline c s (List.replicate c.image_width 0) c.image_width with
    | none => none
    | some (.error e) => some (.error e)
    | some (.ok (_, s, row)) =>
        (deinterlaceRow c pass row out).map fun out => .ok (.ok, s, out)

def setImageRow (image_width : Nat) (img : List Byte) (row_num : Nat) (row : List Byte) :
    List Byte :=
  img.take (row_num * image_width) ++ row ++ img.drop (row_num * image_width + image_width)

def decodeLoop (c : Context) : Nat → Decoder → List Byte → Option (Except Error (List Byte))
  | 0, _, _ => none
  | left + 1, s, out =>
      let row_num := s.row_info.row_num
      match decode_row c s (imageRow c.image_width out row_num) c.image_width with
      | none => none
      | some (.error e) => some (.error e)
      | some (.ok (.EOI, _, row)) => some (.ok (setImageRow c.image_width out row_num row))
      | some (.ok (.ok, s, row)) =>
          decodeLoop c left s (setImageRow c.image_width out row_num row)

def decode_image (ihdr : iHeader) (fmt : Format) (heap : Nat → Byte) (out stream : List Byte) :
    Option (Except Error (List Byte)) :=
  match calculate_subimages ihdr, ihdr.calculate_image_width with
  | .error e, _ => some (.error e)
  | _, .error e => some (.error e)
  | .ok passes, .ok image_width =>
      if SIZE_MAX / ihdr.height < image_width ∨ image_width * ihdr.height = 0 then
        some (.error .EOVERFLOW)
      else if out.length < image_width * ihdr.height then some (.error .EBUFSIZ)
      else
        match read_scanline_bytes [0] stream 1 with
        | none => none
        | some (.error e) => some (.error e)
        | some (.ok (first, stream)) =>
            let filter := (first.getD 0 0).toNat
            if 4 < filter then some (.error .EFILTER)
            else
              let c : Context := ⟨ihdr, passes, image_width, fmt⟩
              let scanline_buf := malloc heap 0 c.scanline_buf_size
              let prev_scanline_buf := malloc heap c.scanline_buf_size c.scanline_buf_size
              decodeLoop c (7 * ihdr.height + 1)
                ⟨firstRow ihdr passes, filter, scanline_buf, prev_scanline_buf, stream, false⟩ out

end Png
