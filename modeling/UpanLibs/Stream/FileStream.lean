import UpanLibs.Ds.StringText
import UpanLibs.Text.LineSplit

/-!
The class `file_stream` as a reader of lines. What the file still has is a list of the
chunks in which `read` hands it out; after the last one, `read` is at the end of the file.
-/
namespace FileStream
open LineSplit StringText

def NEWLINE : UInt8 := 10
def CHUNK_SIZE : Nat := 512
def MAX_LINE_SIZE : Nat := 32 * 1024

/-- `text` is what the first `_len` bytes of the buffer hold; `size` is what is allocated. -/
structure LineBuffer where
  text : Bytes
  size : Nat
  deriving DecidableEq

namespace LineBuffer

def new : LineBuffer := ⟨[], 0⟩

def init (b : LineBuffer) : LineBuffer := if b.size = 0 then ⟨[], CHUNK_SIZE⟩ else b

def close (b : LineBuffer) : LineBuffer := { b with text := [] }

def capacityExceeded (b : LineBuffer) : Bool := decide (MAX_LINE_SIZE < b.size)

/-- The buffer grows when the bytes have no room, and never shrinks. -/
def add (b : LineBuffer) (buf : Bytes) : LineBuffer :=
  let newSize := b.text.length + buf.length
  if newSize ≤ b.size then { b with text := b.text ++ buf }
  else ⟨b.text ++ buf, newSize⟩

def readRemaining (b : LineBuffer) : Option Bytes × LineBuffer :=
  if 0 < b.text.length then (some b.text, { b with text := [] }) else (none, b)

def readLine (b : LineBuffer) : Option Bytes × LineBuffer :=
  match b.text.findIdx? (· == NEWLINE) with
  | some n => (some (b.text.take n), { b with text := b.text.drop (n + 1) })
  | none => (none, b)

end LineBuffer

/-- What `read` returns: a negative number, or so many bytes; none at the end. -/
inductive ReadResult where
  | failed
  | bytes (buf : Bytes)
  deriving DecidableEq

structure Stream where
  buffer : LineBuffer
  pending : List ReadResult
  deriving DecidableEq

def open_ (chunks : List Bytes) : Stream := ⟨.new, chunks.map .bytes⟩

/-- The loop of `read_line`. -/
def readMore : LineBuffer → List ReadResult → Option Bytes × Stream
  | b, [] =>
    if b.capacityExceeded then (none, ⟨b, []⟩)
    else (b.readRemaining.1, ⟨b.readRemaining.2, []⟩)
  | b, r :: rest =>
    if b.capacityExceeded then (none, ⟨b, r :: rest⟩)
    else match r with
      | .failed => (none, ⟨b, rest⟩)
      | .bytes [] => (b.readRemaining.1, ⟨b.readRemaining.2, rest⟩)
      | .bytes (c :: buf) =>
        let b := b.add (c :: buf)
        match b.readLine with
        | (some line, b) => (some line, ⟨b, rest⟩)
        | (none, b) => readMore b rest

def readLine (s : Stream) : Option Bytes × Stream :=
  let b := s.buffer.init
  match b.readLine with
  | (some line, b) => (some line, ⟨b, s.pending⟩)
  | (none, b) => readMore b s.pending

/-- What the call number `k` of `read_line` returns, counted from zero. -/
def nthLine : Nat → Stream → Option Bytes
  | 0, s => (readLine s).1
  | k + 1, s => nthLine k (readLine s).2

end FileStream
