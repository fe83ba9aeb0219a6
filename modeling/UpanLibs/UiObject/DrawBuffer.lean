import UpanLibs.Raster

/-!
`GCoreFunctions::setPixel` and `DrawBuffer`. The memory of a buffer is the one from
`_buffer` on, so that a derived buffer has its place in the parent's as its first pixel.
-/
namespace Drawing
open Raster

abbrev Pixel := UInt32

def MAX_ALPHA : UInt32 := 0xFF
def ALPHA_MASK : Pixel := MAX_ALPHA <<< 24
def NO_ALPHA_MASK : Pixel := ~~~ALPHA_MASK

structure PixelCache where
  cDest : Pixel
  cSrc : Pixel
  cRes : Pixel
  deriving DecidableEq, Repr

def PixelCache.empty : PixelCache := ⟨0, 0, 0⟩

def channel (color : Pixel) (shift : UInt32) : UInt32 := (color >>> shift) &&& 0xFF

def mix (i c ia : UInt32) : UInt32 :=
  (min ((i * ia + c * (MAX_ALPHA - ia)) / MAX_ALPHA) 0xFF).toUInt8.toUInt32

def blend (pixel color : Pixel) : Pixel :=
  let ia := channel color 24
  mix MAX_ALPHA (channel pixel 24) ia <<< 24 |||
    mix (channel color 16) (channel pixel 16) ia <<< 16 |||
    mix (channel color 8) (channel pixel 8) ia <<< 8 |||
    mix (channel color 0) (channel pixel 0) ia

/-- The new value of the pixel, and of the cache of the last blending. -/
def setPixel (pixel color : Pixel) (pixelCache : PixelCache) (isDirectSet : Bool) :
    Pixel × PixelCache :=
  if isDirectSet then (color, pixelCache)
  else
    let ia := channel color 24
    let oa := channel pixel 24
    if ia > 0 then
      if ia = MAX_ALPHA ∨ oa = 0 then (color, pixelCache)
      else if pixelCache.cDest = pixel ∧ pixelCache.cSrc = color then
        (pixelCache.cRes, pixelCache)
      else
        let blended := blend pixel color
        (blended, ⟨pixel, color, blended⟩)
    else (pixel, pixelCache)

def composed (pixel color : Pixel) (isDirectSet : Bool) : Pixel :=
  if isDirectSet then color
  else if channel color 24 > 0 then
    if channel color 24 = MAX_ALPHA ∨ channel pixel 24 = 0 then color else blend pixel color
  else pixel

/-- The cache holds the blending of its two colours; the first one stands for no colours. -/
def PixelCache.Right (c : PixelCache) : Prop :=
  channel c.cSrc 24 > 0 → c.cRes = blend c.cDest c.cSrc

theorem PixelCache.right_empty : PixelCache.empty.Right := by
  intro visible
  exact absurd visible (by decide)

theorem setPixel_spec {cache : PixelCache} (right : cache.Right) (pixel color : Pixel)
    (isDirectSet : Bool) :
    (setPixel pixel color cache isDirectSet).1 = composed pixel color isDirectSet ∧
      (setPixel pixel color cache isDirectSet).2.Right := by
  unfold setPixel composed
  cases isDirectSet with
  | true => exact ⟨rfl, right⟩
  | false =>
    simp only [Bool.false_eq_true, if_false]
    by_cases visible : channel color 24 > 0
    · by_cases replaces : channel color 24 = MAX_ALPHA ∨ channel pixel 24 = 0
      · simp only [visible, replaces, if_true]
        exact ⟨trivial, right⟩
      · by_cases cached : cache.cDest = pixel ∧ cache.cSrc = color
        · obtain ⟨rfl, rfl⟩ := cached
          simp only [visible, replaces, and_self, if_true, if_false]
          exact ⟨right visible, right⟩
        · simp only [visible, replaces, cached, if_true, if_false]
          exact ⟨trivial, fun _ => rfl⟩
    · simp only [visible, if_false]
      exact ⟨trivial, right⟩

inductive BufferType where
  | Null
  | Local
  | ForceLocal
  | Derived
  deriving DecidableEq, Repr

structure DrawBuffer where
  type : BufferType
  pixels : List Pixel
  width : Nat
  height : Nat
  vWidth : Nat
  vHeight : Nat
  deriving DecidableEq, Repr

namespace DrawBuffer

def bytesPerPixel : Int := 4

def null : DrawBuffer := ⟨.Null, [], 0, 0, 0, 0⟩

def isLocal (b : DrawBuffer) : Bool := b.type = .Local ∨ b.type = .ForceLocal

def isNull (b : DrawBuffer) : Bool := b.type = .Null

/-- A buffer of its own, which is cleaned; one of the same size stays as it is. -/
def initLocal (width height : Nat) (b : DrawBuffer) : DrawBuffer × Bool :=
  if b.type = .Local ∧ b.width = width ∧ b.height = height then (b, false)
  else (⟨.Local, List.replicate (width * height) 0, width, height, width, height⟩, true)

def copy (b src : DrawBuffer) : Option DrawBuffer := do
  let ex := min b.vWidth src.width
  let ey := min b.vHeight src.height
  let pixels ← loop (fun y mem =>
    memcpy mem ((y * b.width : Nat) : Int) src.pixels ((y * src.width : Nat) : Int) ex)
    ey b.pixels
  some { b with pixels }

def fill (color : Pixel) (b : DrawBuffer) : Option DrawBuffer := do
  let pixels ← loop (fun y => loop (fun x mem => store mem ((x + y * b.width : Nat) : Int) color)
    b.vWidth) b.vHeight b.pixels
  some { b with pixels }

def pixelAt (b : DrawBuffer) (x y : Nat) : Option Pixel := b.pixels[x + y * b.width]?

theorem copy_spec (b src : DrawBuffer) (wide : min b.vWidth src.width ≤ b.width)
    (room : (min b.vHeight src.height - 1) * b.width + min b.vWidth src.width ≤ b.pixels.length)
    (source : (min b.vHeight src.height - 1) * src.width + min b.vWidth src.width ≤
      src.pixels.length) :
    ∃ pixels, b.copy src = some { b with pixels } ∧ pixels.length = b.pixels.length ∧
      ∀ x < min b.vWidth src.width, ∀ y < min b.vHeight src.height,
        pixels[x + y * b.width]? = src.pixelAt x y := by
  have narrow : min b.vWidth src.width ≤ src.width := Nat.min_le_right ..
  unfold copy
  generalize min b.vWidth src.width = ex at *
  generalize min b.vHeight src.height = ey at *
  suffices run : ∃ pixels, loop (fun y mem =>
      memcpy mem ((y * b.width : Nat) : Int) src.pixels ((y * src.width : Nat) : Int) ex)
      ey b.pixels = some pixels ∧ pixels.length = b.pixels.length ∧
      ∀ x < ex, ∀ y < ey, pixels[x + y * b.width]? = src.pixelAt x y by
    obtain ⟨pixels, run, rest⟩ := run
    refine ⟨pixels, ?_, rest⟩
    simp only [run, bind, Option.bind_some]
  apply loop_spec fun n (mem : List Pixel) => mem.length = b.pixels.length ∧
    ∀ x < ex, ∀ y < n, mem[x + y * b.width]? = src.pixelAt x y
  · exact ⟨rfl, fun _ _ _ none => absurd none (Nat.not_lt_zero _)⟩
  · rintro n less mem ⟨length, copied⟩
    have target := row_le room less
    have origin := row_le source less
    obtain ⟨out, run, length', pixels⟩ := memcpy_spec (length ▸ target) origin
    refine ⟨out, run, length'.trans length, fun x column y before => ?_⟩
    have row := place_mem_row 0 ex n y (by omega) (Nat.lt_of_lt_of_le column wide)
    rw [pixels]
    by_cases here : y = n
    · subst here
      rw [if_pos (by omega), pixelAt]
      congr 1
      omega
    · rw [if_neg (by omega)]
      exact copied x column y (by omega)

theorem fill_some {b : DrawBuffer} (room : (b.vHeight - 1) * b.width + b.vWidth ≤ b.pixels.length)
    (color : Pixel) : ∃ b', b.fill color = some b' := by
  suffices run : ∃ pixels, loop (fun y => loop (fun x mem =>
      store mem ((x + y * b.width : Nat) : Int) color) b.vWidth) b.vHeight b.pixels =
        some pixels ∧ pixels.length = b.pixels.length by
    obtain ⟨pixels, run, -⟩ := run
    exact ⟨{ b with pixels }, by simp only [fill, run, bind, Option.bind_some]⟩
  apply loop_spec fun _ (mem : List Pixel) => mem.length = b.pixels.length
  · rfl
  · intro y below mem length
    have last := row_le room below
    apply loop_spec fun _ (mem : List Pixel) => mem.length = b.pixels.length
    · exact length
    · intro x inside mem length
      exact ⟨_, store_spec (by omega) color, by rw [List.length_set, length]⟩

end DrawBuffer

end Drawing
