import Mathlib.Algebra.Order.Ring.Int
import UpanLibs.UiObject.DrawBuffer

/-!
Runs of `setPixel` that share a cache, on pixels in memory, and the bytes of a blended pixel.
-/
namespace Drawing

/-- A call of `setPixel` for the pixel at this address. -/
structure Call where
  address : Nat
  color : Pixel
  isDirectSet : Bool

def Call.set (call : Call) (state : (Nat → Pixel) × PixelCache) : (Nat → Pixel) × PixelCache :=
  let (pixel, pixelCache) := setPixel (state.1 call.address) call.color state.2 call.isDirectSet
  (Function.update state.1 call.address pixel, pixelCache)

def setPixels (calls : List Call) (state : (Nat → Pixel) × PixelCache) :
    (Nat → Pixel) × PixelCache :=
  calls.foldl (fun state call => call.set state) state

def composedPixels (calls : List Call) (pixels : Nat → Pixel) : Nat → Pixel :=
  calls.foldl (fun pixels call => Function.update pixels call.address
    (composed (pixels call.address) call.color call.isDirectSet)) pixels

theorem call_set_spec (call : Call) {cache : PixelCache} (right : cache.Right)
    (pixels : Nat → Pixel) :
    (call.set (pixels, cache)).1 = Function.update pixels call.address
        (composed (pixels call.address) call.color call.isDirectSet) ∧
      (call.set (pixels, cache)).2.Right := by
  obtain ⟨same, kept⟩ := setPixel_spec right (pixels call.address) call.color call.isDirectSet
  exact ⟨congrArg (Function.update pixels call.address) same, kept⟩

theorem setPixels_right (calls : List Call) {cache : PixelCache} (right : cache.Right)
    (pixels : Nat → Pixel) :
    (setPixels calls (pixels, cache)).1 = composedPixels calls pixels := by
  induction calls generalizing pixels cache with
  | nil => rfl
  | cons call calls ih =>
    obtain ⟨same, kept⟩ := call_set_spec call right pixels
    have rest := ih kept (call.set (pixels, cache)).1
    rw [same] at rest
    have split : call.set (pixels, cache) = ((call.set (pixels, cache)).1,
      (call.set (pixels, cache)).2) := rfl
    rw [setPixels, List.foldl_cons, split, same]
    exact rest

def weighted (i c ia : Nat) : Nat := (i * ia + c * (255 - ia)) / 255

theorem weighted_le {i c ia : Nat} (first : i ≤ 255) (second : c ≤ 255) (weight : ia ≤ 255) :
    weighted i c ia ≤ 255 := by
  have whole : ia + (255 - ia) = 255 := Nat.add_sub_of_le weight
  have bound : i * ia + c * (255 - ia) ≤ 255 * 255 := calc
    i * ia + c * (255 - ia) ≤ 255 * ia + 255 * (255 - ia) :=
      Nat.add_le_add (Nat.mul_le_mul_right _ first) (Nat.mul_le_mul_right _ second)
    _ = 255 * 255 := by rw [← Nat.mul_add, whole]
  exact Nat.div_le_of_le_mul bound

theorem channel_toNat (color : Pixel) (shift : UInt32) :
    (channel color shift).toNat = color.toNat / 2 ^ (shift.toNat % 32) % 256 := by
  have mask : (0xFF : UInt32).toNat = 2 ^ 8 - 1 := rfl
  rw [channel, UInt32.toNat_and, mask, Nat.and_two_pow_sub_one_eq_mod, UInt32.toNat_shiftRight,
    Nat.shiftRight_eq_div_pow]

theorem channel_le (color : Pixel) (shift : UInt32) : (channel color shift).toNat ≤ 255 := by
  rw [channel_toNat]
  omega

theorem mix_toNat {i c ia : UInt32} (first : i.toNat ≤ 255) (second : c.toNat ≤ 255)
    (weight : ia.toNat ≤ 255) : (mix i c ia).toNat = weighted i.toNat c.toNat ia.toNat := by
  have whole : MAX_ALPHA.toNat = 255 := rfl
  have rest : (MAX_ALPHA - ia).toNat = 255 - ia.toNat := by
    rw [UInt32.toNat_sub_of_le _ _ (UInt32.le_iff_toNat_le.mpr weight), whole]
  have left : i.toNat * ia.toNat ≤ 255 * 255 := Nat.mul_le_mul first weight
  have right : c.toNat * (255 - ia.toNat) ≤ 255 * 255 :=
    Nat.mul_le_mul second (Nat.sub_le _ _)
  have sum : (i * ia + c * (MAX_ALPHA - ia)).toNat =
      i.toNat * ia.toNat + c.toNat * (255 - ia.toNat) := by
    rw [UInt32.toNat_add, UInt32.toNat_mul, UInt32.toNat_mul, rest]
    omega
  have mean : ((i * ia + c * (MAX_ALPHA - ia)) / MAX_ALPHA).toNat =
      weighted i.toNat c.toNat ia.toNat := by
    rw [UInt32.toNat_div, sum, whole, weighted]
  have small := weighted_le first second weight
  have least : min ((i * ia + c * (MAX_ALPHA - ia)) / MAX_ALPHA) 0xFF =
      (i * ia + c * (MAX_ALPHA - ia)) / MAX_ALPHA := by
    refine if_pos (UInt32.le_iff_toNat_le.mpr ?_)
    rw [mean]
    exact small
  rw [mix, least, UInt8.toNat_toUInt32, UInt32.toNat_toUInt8, mean]
  omega

theorem word_toNat {a b c d : UInt32} (ha : a.toNat ≤ 255) (hb : b.toNat ≤ 255)
    (hc : c.toNat ≤ 255) (hd : d.toNat ≤ 255) :
    (a <<< 24 ||| b <<< 16 ||| c <<< 8 ||| d).toNat =
      ((a.toNat * 256 + b.toNat) * 256 + c.toNat) * 256 + d.toNat := by
  have join {hi lo i : Nat} (small : lo < 2 ^ i) : 2 ^ i * hi ||| lo = 2 ^ i * hi + lo :=
    (Nat.two_pow_add_eq_or_of_lt small hi).symm
  have top : (a <<< 24).toNat = 2 ^ 24 * a.toNat := by
    rw [UInt32.toNat_shiftLeft, Nat.shiftLeft_eq]
    simp only [UInt32.reduceToNat, Nat.reduceMod]
    omega
  have second : (b <<< 16).toNat = 2 ^ 16 * b.toNat := by
    rw [UInt32.toNat_shiftLeft, Nat.shiftLeft_eq]
    simp only [UInt32.reduceToNat, Nat.reduceMod]
    omega
  have third : (c <<< 8).toNat = 2 ^ 8 * c.toNat := by
    rw [UInt32.toNat_shiftLeft, Nat.shiftLeft_eq]
    simp only [UInt32.reduceToNat, Nat.reduceMod]
    omega
  have upper : 2 ^ 24 * a.toNat ||| 2 ^ 16 * b.toNat = 2 ^ 16 * (2 ^ 8 * a.toNat + b.toNat) := by
    rw [join (by omega)]
    omega
  have middle : 2 ^ 16 * (2 ^ 8 * a.toNat + b.toNat) ||| 2 ^ 8 * c.toNat =
      2 ^ 8 * (2 ^ 8 * (2 ^ 8 * a.toNat + b.toNat) + c.toNat) := by
    rw [join (by omega)]
    omega
  rw [UInt32.toNat_or, UInt32.toNat_or, UInt32.toNat_or, top, second, third, upper, middle,
    join (by omega)]
  omega

/-- Every byte of a blended pixel is the mean of the two bytes in its place; for the alpha
    byte, the colour's is taken for an opaque one. -/
structure Blended (pixel color blended : Pixel) : Prop where
  alpha : (channel blended 24).toNat =
    weighted 255 (channel pixel 24).toNat (channel color 24).toNat
  red : (channel blended 16).toNat =
    weighted (channel color 16).toNat (channel pixel 16).toNat (channel color 24).toNat
  green : (channel blended 8).toNat =
    weighted (channel color 8).toNat (channel pixel 8).toNat (channel color 24).toNat
  blue : (channel blended 0).toNat =
    weighted (channel color 0).toNat (channel pixel 0).toNat (channel color 24).toNat

theorem blend_blended (pixel color : Pixel) : Blended pixel color (blend pixel color) := by
  have weight := channel_le color 24
  have bytes (i c : UInt32) (first : i.toNat ≤ 255) (second : c.toNat ≤ 255) :=
    And.intro (mix_toNat first second weight) (weighted_le first second weight)
  obtain ⟨alpha, alphaLe⟩ := bytes MAX_ALPHA (channel pixel 24) (by decide) (channel_le _ _)
  obtain ⟨red, redLe⟩ := bytes (channel color 16) (channel pixel 16) (channel_le _ _)
    (channel_le _ _)
  obtain ⟨green, greenLe⟩ := bytes (channel color 8) (channel pixel 8) (channel_le _ _)
    (channel_le _ _)
  obtain ⟨blue, blueLe⟩ := bytes (channel color 0) (channel pixel 0) (channel_le _ _)
    (channel_le _ _)
  have word := word_toNat (alpha ▸ alphaLe) (red ▸ redLe) (green ▸ greenLe) (blue ▸ blueLe)
  rw [alpha, red, green, blue] at word
  have whole : MAX_ALPHA.toNat = 255 := rfl
  rw [whole] at word alphaLe
  constructor
  · rw [channel_toNat, blend, word]
    simp only [UInt32.reduceToNat, Nat.reduceMod]
    omega
  · rw [channel_toNat, blend, word]
    simp only [UInt32.reduceToNat, Nat.reduceMod]
    omega
  · rw [channel_toNat, blend, word]
    simp only [UInt32.reduceToNat, Nat.reduceMod]
    omega
  · rw [channel_toNat, blend, word]
    simp only [UInt32.reduceToNat, Nat.reduceMod]
    omega

/-- Whatever the calls are, the cache changes no pixel, and a blending is one byte by byte. -/
theorem cache_transparent (calls : List Call) (pixels : Nat → Pixel) :
    (setPixels calls (pixels, PixelCache.empty)).1 = composedPixels calls pixels ∧
      ∀ pixel color, Blended pixel color (blend pixel color) :=
  ⟨setPixels_right calls PixelCache.right_empty pixels, blend_blended⟩

end Drawing
