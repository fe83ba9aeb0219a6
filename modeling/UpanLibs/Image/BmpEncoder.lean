import UpanLibs.Fallible
import UpanLibs.Image.ColorPalettes
import UpanLibs.Raster

/-!
`BmpEncoder::decode`, from the bytes of the file to the pixels of the image. A read that
leaves the bytes is a fault of its own; the file sizes that are accepted fit in an `int`.
-/
namespace BmpEncoder

abbrev Bytes : Type := List UInt8

inductive Fault where
  | null
  | signature (first second : UInt8)
  | headerSize
  | compression (c : Nat)
  | width (w : Nat)
  | height (h : Nat)
  | resolution (bits : Nat)
  | outside
  deriving DecidableEq, Repr

def reading {α : Type} : Option α → Except Fault α
  | some a => .ok a
  | none => .error .outside

def uint16At (data : Bytes) (i : Nat) : Option Nat := do
  let b0 ← data[i]?
  let b1 ← data[i + 1]?
  some (b0.toNat + b1.toNat * 256)

def uint32At (data : Bytes) (i : Nat) : Option Nat := do
  let low ← uint16At data i
  let high ← uint16At data (i + 2)
  some (low + high * 65536)

structure Header where
  signature : UInt8 × UInt8
  dataOffset : Nat
  deriving DecidableEq, Repr

structure InfoHeader where
  infoHeadersize : Nat
  width : Nat
  height : Nat
  bitsPerPixel : Nat
  compression : Nat
  deriving DecidableEq, Repr

def headerBytes : Nat := 14

def headerSize : Nat := headerBytes + 40

/-- The copy of the bytes over the packed `_header`. -/
def readHeader (data : Bytes) : Option Header := do
  let first ← data[0]?
  let second ← data[1]?
  let dataOffset ← uint32At data 10
  some ⟨(first, second), dataOffset⟩

/-- The copy of the bytes over the packed `_infoHeader`. -/
def readInfoHeader (data : Bytes) : Option InfoHeader := do
  let infoHeadersize ← uint32At data headerBytes
  let width ← uint32At data (headerBytes + 4)
  let height ← uint32At data (headerBytes + 8)
  let bitsPerPixel ← uint16At data (headerBytes + 14)
  let compression ← uint32At data (headerBytes + 16)
  let _ ← data[headerSize - 1]?
  some ⟨infoHeadersize, width, height, bitsPerPixel, compression⟩

def checkHeader (h : Header) : Except Fault Unit :=
  if h.signature ≠ (0x42, 0x4D) then .error (.signature h.signature.1 h.signature.2) else .ok ()

def checkInfoHeader (i : InfoHeader) : Except Fault Unit :=
  if i.infoHeadersize ≠ 40 then .error .headerSize
  else if i.compression ≠ 0 then .error (.compression i.compression)
  else if i.width < 1 ∨ i.width > 3000 then .error (.width i.width)
  else if i.height < 1 ∨ i.height > 3000 then .error (.height i.height)
  else if i.bitsPerPixel ≠ 4 ∧ i.bitsPerPixel ≠ 8 ∧ i.bitsPerPixel ≠ 24 then
    .error (.resolution i.bitsPerPixel)
  else .ok ()

def tableAt (data : Bytes) (start : Nat) : Nat → Option (List UInt32)
  | 0 => some []
  | n + 1 => do
      let word ← uint32At data start
      let rest ← tableAt data (start + 4) n
      some (UInt32.ofNat word :: rest)

/-- Where the data starts below the headers, the unsigned difference of the source is large
    and is no table size either. -/
def colorTable (data : Bytes) (h : Header) (i : InfoHeader) : Option (List UInt32) :=
  let colorTableSize := h.dataOffset - headerSize
  if i.bitsPerPixel = 4 ∧ colorTableSize = 16 * 4 then tableAt data headerSize 16
  else if i.bitsPerPixel = 8 ∧ colorTableSize = 256 * 4 then tableAt data headerSize 256
  else if i.bitsPerPixel = 4 then some ColorPalettes.CP16.GetColorTable
  else if i.bitsPerPixel = 8 then some ColorPalettes.CP256.GetColorTable
  else some []

def scanLinePadding (i : InfoHeader) : Nat :=
  match i.bitsPerPixel with
  | 4 =>
      let delta := i.width / 2 % 4
      if delta ≠ 0 then (4 - delta) * 2 else 0
  | 8 =>
      let delta := i.width % 4
      if delta ≠ 0 then 4 - delta else 0
  | 24 =>
      let delta := 3 * i.width % 4
      if delta ≠ 0 then 4 - delta else 0
  | _ => 0

def ALPHA_MASK : UInt32 := 0xFF000000

def NO_ALPHA_MASK : UInt32 := ~~~ALPHA_MASK

def applyTransparencyFilter (transparentColor : Option UInt32) (color : UInt32) : UInt32 :=
  if transparentColor = some color then color &&& NO_ALPHA_MASK else color ||| ALPHA_MASK

def pack (r g b : UInt32) : UInt32 :=
  let red : UInt32 := (r <<< 16) &&& 0x00FF0000
  let green : UInt32 := (g <<< 8) &&& 0x0000FF00
  let blue : UInt32 := b &&& 0x000000FF
  red ||| green ||| blue

/-- The body of the loop over a row: the colour that is read, and the index after it. -/
def readPixel (bitsPerPixel : Nat) (colorTable : List UInt32) (pixelData : Bytes)
    (dataIndex : Nat) : Option (UInt32 × Nat) :=
  match bitsPerPixel with
  | 4 => do
      let code ← pixelData[dataIndex / 2]?
      let colorCode := if dataIndex &&& 1 ≠ 0 then code &&& 0xF else (code >>> 4) &&& 0xF
      let color ← colorTable[colorCode.toNat]?
      some (color, dataIndex + 1)
  | 8 => do
      let colorCode ← pixelData[dataIndex]?
      let color ← colorTable[colorCode.toNat]?
      some (color, dataIndex + 1)
  | 24 => do
      let b ← pixelData[dataIndex]?
      let g ← pixelData[dataIndex + 1]?
      let r ← pixelData[dataIndex + 2]?
      some (pack r.toUInt32 g.toUInt32 b.toUInt32, dataIndex + 3)
  | _ => none

section Rows

variable (transparentColor : Option UInt32) (i : InfoHeader) (colorTable : List UInt32)
  (pixelData : Bytes)

def pixelStep (y x : Nat) (s : Nat × List UInt32) : Option (Nat × List UInt32) := do
  let (color, dataIndex) ← readPixel i.bitsPerPixel colorTable pixelData s.1
  let imageBuffer ← Raster.store s.2 (y * i.width + x : Nat)
    (applyTransparencyFilter transparentColor color)
  some (dataIndex, imageBuffer)

/-- The `n`-th row of the file goes to row `height - 1 - n` of the image. -/
def rowStep (n : Nat) (s : Nat × List UInt32) : Option (Nat × List UInt32) := do
  let (dataIndex, imageBuffer) ←
    Raster.loop (pixelStep transparentColor i colorTable pixelData (i.height - 1 - n)) i.width s
  some (dataIndex + scanLinePadding i, imageBuffer)

def decodePixels (fresh : Nat → UInt32) : Option (List UInt32) := do
  let (_, imageBuffer) ←
    Raster.loop (rowStep transparentColor i colorTable pixelData) i.height
      (0, (List.range (i.width * i.height)).map fresh)
  some imageBuffer

end Rows

structure Image where
  hasAlpha : Bool
  width : Nat
  height : Nat
  data : List UInt32
  deriving DecidableEq, Repr

def Image.create (width height : Nat) (data : List UInt32) : Image :=
  ⟨data.any fun p => p &&& ALPHA_MASK ≠ ALPHA_MASK, width, height, data⟩

/-- `decode` of the bytes from `imageData` on, or of a null pointer. -/
def decode (imageData : Option Bytes) (transparentColor : Option UInt32) (fresh : Nat → UInt32) :
    Except Fault Image :=
  match imageData with
  | none => .error .null
  | some data => do
      let header ← reading (readHeader data)
      checkHeader header
      let infoHeader ← reading (readInfoHeader data)
      checkInfoHeader infoHeader
      let table ← reading (colorTable data header infoHeader)
      let imageBuffer ← reading (decodePixels transparentColor infoHeader table
        (data.drop header.dataOffset) fresh)
      .ok (.create infoHeader.width infoHeader.height imageBuffer)

end BmpEncoder
