import UpanLibs.UiObject.DrawBuffer
import UpanLibs.Stdlib.Dtime
import UpanLibs.TextArea.Input

/-!
`RectangularLayout::draw`: a child with a buffer of its own is copied into the buffer of
its parent, clipped to the area inside of the border. An offset inside of a buffer is an
`int`, since the size of the buffer is one.
-/
namespace Drawing
open Raster
open Dtime (int32 int32_iff)
open TextInput (MIN_OBJECT_SIZE)

/-- The parent; its buffer has a place for each of its pixels. -/
structure Parent where
  width : Nat
  height : Nat
  borderThickness : Nat
  drawBuffer : DrawBuffer
  positive : 0 < width ∧ 0 < height
  wide : width ≤ drawBuffer.width
  room : (height - 1) * drawBuffer.width + width ≤ drawBuffer.pixels.length
  small : drawBuffer.pixels.length < 2 ^ 31

/-- The child; a buffer of its own has its size. -/
structure Child where
  x : Int
  y : Int
  width : Nat
  height : Nat
  isRectangularShape : Bool
  hasAlphaLocal : Bool
  drawBuffer : DrawBuffer
  least : MIN_OBJECT_SIZE ≤ width ∧ MIN_OBJECT_SIZE ≤ height
  own : drawBuffer.isLocal = true →
    drawBuffer.width = width ∧ drawBuffer.pixels.length = width * height
  small : width * height < 2 ^ 31

inductive BoundaryCheckResult where
  | Inside
  | Outside
  | PartiallyInside
  deriving DecidableEq, Repr

/-- Where one side of the copied area starts in the child and in the parent, and its length:
    `sx1`, `dx1` and `w`, or `sy1`, `dy1` and `h`. -/
structure Clip where
  src : Int
  dst : Int
  length : Int
  deriving DecidableEq, Repr

def clip (size borderThickness : Nat) (pos : Int) (extent : Nat) : Option Clip := do
  let psize ← int32 (size - borderThickness)
  let src ← if pos ≥ 0 then some 0 else int32 (0 - pos)
  let dst ← int32 ((if pos ≥ 0 then pos else 0) + borderThickness)
  let own ← int32 (extent - src)
  let left ← int32 (psize - dst)
  some ⟨src, dst, if own ≤ left then own else left⟩

namespace RectangularLayout

def checkBoundary (p : Parent) (c : Child) : BoundaryCheckResult :=
  let cx1 := c.x
  let cy1 := c.y
  let cx2 := cx1 + c.width - 1
  let cy2 := cy1 + c.height - 1
  let pwidth : Int := p.width - 2 * p.borderThickness
  let pheight : Int := p.height - 2 * p.borderThickness
  if cx1 ≥ 0 ∧ cx2 < pwidth ∧ cy1 ≥ 0 ∧ cy2 < pheight then .Inside
  else if (cx1 < 0 ∧ cx2 < 0) ∨ (cy1 < 0 ∧ cy2 < 0) ∨ (cx1 ≥ pwidth ∧ cx2 ≥ pwidth) ∨
      (cy1 ≥ pheight ∧ cy2 ≥ pheight) then .Outside
  else .PartiallyInside

/-- A row of `w` pixels; the length of the copy is counted in pixels, once its bytes are. -/
def drawRow (directCopy : Bool) (src : List Pixel) (srcOffset destOffset w : Int)
    (state : List Pixel × PixelCache) : Option (List Pixel × PixelCache) :=
  if directCopy then do
    let _ ← int32 (w * DrawBuffer.bytesPerPixel)
    let pixels ← memcpy state.1 destOffset src srcOffset w
    some (pixels, state.2)
  else
    loop (fun x state => do
      let pixel ← load state.1 (x + destOffset)
      let color ← load src (x + srcOffset)
      let (pixel, pixelCache) := setPixel pixel color state.2 false
      let pixels ← store state.1 (x + destOffset) pixel
      some (pixels, pixelCache)) w.toNat state

def directCopy (c : Child) : Bool := c.isRectangularShape && !c.hasAlphaLocal

/-- The loop of `draw` over the rows of the clipped area. -/
def drawRows (p : Parent) (c : Child) (x y : Clip) : Option (List Pixel × PixelCache) :=
  loop (fun row =>
    drawRow (directCopy c) c.drawBuffer.pixels (x.src + (y.src + row) * c.drawBuffer.width)
      (x.dst + (y.dst + row) * p.drawBuffer.width) x.length)
    y.length.toNat (p.drawBuffer.pixels, .empty)

/-- The pixels of the parent's buffer after the child is drawn into it. -/
def draw (p : Parent) (c : Child) : Option (List Pixel) :=
  if c.drawBuffer.isLocal = false then some p.drawBuffer.pixels
  else do
    let x ← clip p.width p.borderThickness c.x c.width
    let y ← clip p.height p.borderThickness c.y c.height
    let state ← drawRows p c x y
    some state.1

end RectangularLayout

def Parent.Inner (p : Parent) (x y : Int) : Prop :=
  (p.borderThickness ≤ x ∧ x < p.width - p.borderThickness) ∧
    p.borderThickness ≤ y ∧ y < p.height - p.borderThickness

def Child.Covers (c : Child) (x y : Int) : Prop :=
  (c.x ≤ x ∧ x < c.x + c.width) ∧ c.y ≤ y ∧ y < c.y + c.height

def Child.pixelAt (c : Child) (x y : Int) : Option Pixel :=
  load c.drawBuffer.pixels (x - c.x + (y - c.y) * c.width)

def Seen (p : Parent) (c : Child) (x y : Int) : Prop :=
  p.Inner x y ∧ c.Covers (x - p.borderThickness) (y - p.borderThickness)

instance (p : Parent) (c : Child) (x y : Int) : Decidable (Seen p c x y) := by
  unfold Seen Parent.Inner Child.Covers
  infer_instance

def together (isDirectSet : Bool) (pixel color : Option Pixel) : Option Pixel := do
  let pixel ← pixel
  let color ← color
  some (composed pixel color isDirectSet)

/-- Nothing goes outside of a buffer, and every place of the parent's buffer, row after row,
    is put together with the child's pixel where the child is seen, and kept elsewhere. -/
def Composes (p : Parent) (c : Child) : Prop :=
  ∃ pixels, RectangularLayout.draw p c = some pixels ∧
    pixels.length = p.drawBuffer.pixels.length ∧
    ∀ i : Nat, pixels[i]? =
      let x : Int := (i % p.drawBuffer.width : Nat)
      let y : Int := (i / p.drawBuffer.width : Nat)
      if Seen p c x y then
        together (RectangularLayout.directCopy c) p.drawBuffer.pixels[i]?
          (c.pixelAt (x - p.borderThickness) (y - p.borderThickness))
      else p.drawBuffer.pixels[i]?

/-- The position and the two clipped lengths of a side are representable. -/
def Fits (size borderThickness : Nat) (pos : Int) : Prop :=
  -2 ^ 31 < pos ∧ max pos 0 + borderThickness < 2 ^ 31 ∧
    -2 ^ 31 ≤ (size : Int) - borderThickness - (max pos 0 + borderThickness)

/-- The child and the inner area have a part of the side in common. -/
def Meet (size borderThickness : Nat) (pos : Int) (extent : Nat) : Prop :=
  0 < pos + extent ∧ max pos 0 < (size : Int) - 2 * borderThickness

/-- There is a gap between the child and the inner area. -/
def Apart (size borderThickness : Nat) (pos : Int) (extent : Nat) : Prop :=
  pos + extent < 0 ∨ (size : Int) - 2 * borderThickness < max pos 0

def clipped (size borderThickness : Nat) (pos : Int) (extent : Nat) : Clip :=
  ⟨(-pos).toNat, (pos.toNat + borderThickness : Nat),
    min (extent - (-pos).toNat) (size - borderThickness - (pos.toNat + borderThickness : Nat))⟩

theorem clip_iff {size borderThickness extent : Nat} {pos : Int} {k : Clip}
    (small : size < 2 ^ 31) (short : extent < 2 ^ 31) :
    clip size borderThickness pos extent = some k ↔
      Fits size borderThickness pos ∧ k = clipped size borderThickness pos extent := by
  unfold Fits clipped
  rcases Int.lt_or_le pos 0 with negative | positive
  · have front : (pos.toNat : Int) = 0 := by omega
    have back : ((-pos).toNat : Int) = -pos := Int.toNat_of_nonneg (by omega)
    simp only [clip, ge_iff_le, Int.not_le.mpr negative, if_false, bind, Option.bind_eq_some_iff,
      int32_iff, front, back, Int.natCast_add, Option.some.injEq]
    constructor
    · rintro ⟨_, ⟨_, rfl⟩, _, ⟨_, rfl⟩, _, ⟨_, rfl⟩, _, ⟨_, rfl⟩, _, ⟨_, rfl⟩, rfl⟩
      refine ⟨by omega, ?_⟩
      rw [Int.min_def, Int.zero_sub]
    · rintro ⟨fits, rfl⟩
      refine ⟨_, ⟨by omega, rfl⟩, _, ⟨by omega, rfl⟩, _, ⟨by omega, rfl⟩, _, ⟨by omega, rfl⟩,
        _, ⟨by omega, rfl⟩, ?_⟩
      rw [Int.min_def, Int.zero_sub]
  · have front : (pos.toNat : Int) = pos := Int.toNat_of_nonneg positive
    have back : ((-pos).toNat : Int) = 0 := by omega
    simp only [clip, ge_iff_le, positive, if_true, bind, Option.bind_eq_some_iff,
      int32_iff, front, back, Int.natCast_add, Option.some.injEq]
    constructor
    · rintro ⟨_, ⟨_, rfl⟩, _, rfl, _, ⟨_, rfl⟩, _, ⟨_, rfl⟩, _, ⟨_, rfl⟩, rfl⟩
      refine ⟨by omega, ?_⟩
      rw [Int.min_def]
    · rintro ⟨fits, rfl⟩
      refine ⟨_, ⟨by omega, rfl⟩, _, rfl, _, ⟨by omega, rfl⟩, _, ⟨by omega, rfl⟩,
        _, ⟨by omega, rfl⟩, ?_⟩
      rw [Int.min_def]

theorem Parent.sides (p : Parent) : p.width < 2 ^ 31 ∧ p.height < 2 ^ 31 := by
  have room := p.room
  have wide := p.wide
  have small := p.small
  have positive := p.positive
  have rows : (p.height - 1) * 1 ≤ (p.height - 1) * p.drawBuffer.width :=
    Nat.mul_le_mul_left _ (by omega)
  omega

theorem Child.positive (c : Child) : 0 < c.width ∧ 0 < c.height := by
  have least := c.least
  unfold MIN_OBJECT_SIZE at least
  omega

theorem Child.sides (c : Child) : c.width < 2 ^ 31 ∧ c.height < 2 ^ 31 := by
  have small := c.small
  have width : c.width ≤ c.width * c.height := Nat.le_mul_of_pos_right _ c.positive.2
  have height : c.height ≤ c.width * c.height := Nat.le_mul_of_pos_left _ c.positive.1
  omega

namespace RectangularLayout

theorem drawRow_spec (direct : Bool) {src mem : List Pixel} {cache : PixelCache}
    {start at' w : Nat} (right : cache.Right) (room : at' + w ≤ mem.length)
    (there : start + w ≤ src.length) (bytes : w * 4 < 2 ^ 31) :
    ∃ state, drawRow direct src start at' w (mem, cache) = some state ∧ state.2.Right ∧
      state.1.length = mem.length ∧ ∀ i, state.1[i]? = if at' ≤ i ∧ i < at' + w then
        together direct mem[i]? src[start + (i - at')]? else mem[i]? := by
  cases direct with
  | true =>
    obtain ⟨out, copied, length, pixels⟩ := memcpy_spec room there
    refine ⟨(out, cache), ?_, right, length, ?_⟩
    · have fits : int32 ((w : Int) * DrawBuffer.bytesPerPixel) = some ((w : Int) * 4) := by
        rw [int32_iff, DrawBuffer.bytesPerPixel]
        omega
      simp [drawRow, fits, copied]
    · intro i
      rw [pixels]
      split
      next inside =>
        have old : i < mem.length := by omega
        have new : start + (i - at') < src.length := by omega
        simp [together, composed, old, new]
      · rfl
  | false =>
    simp only [drawRow, Bool.false_eq_true, if_false, Int.toNat_natCast]
    apply loop_spec fun x (state : List Pixel × PixelCache) => state.2.Right ∧ state.1.length = mem.length ∧
      ∀ i, state.1[i]? = if at' ≤ i ∧ i < at' + x then
        together false mem[i]? src[start + (i - at')]? else mem[i]?
    · refine ⟨right, rfl, fun i => ?_⟩
      rw [if_neg (by omega)]
    · rintro x less ⟨now, cache⟩ ⟨right, length, pixels⟩
      have old : mem[x + at']? = some mem[x + at'] := List.getElem?_eq_getElem (by omega)
      have new : src[x + start]? = some src[x + start] := List.getElem?_eq_getElem (by omega)
      have here : now[x + at']? = some mem[x + at'] := by
        rw [pixels, if_neg (by omega), old]
      obtain ⟨set, kept⟩ := setPixel_spec right mem[x + at'] src[x + start] false
      have place : (x : Int) + at' = (x + at' : Nat) := rfl
      have from' : (x : Int) + start = (x + start : Nat) := rfl
      refine ⟨(now.set (x + at') (composed mem[x + at'] src[x + start] false), _), ?_, kept,
        by simpa using length, fun i => ?_⟩
      · simp only [place, from', load_natCast, here, new, bind, Option.bind_some, set]
        rw [store_spec (by simp only at length; omega)]
        rfl
      · simp only
        rw [List.getElem?_set, pixels]
        by_cases same : x + at' = i
        · subst same
          have inside : x + at' < now.length := by simp only at length; omega
          rw [if_pos rfl, if_pos inside, if_pos (by omega),
            show start + (x + at' - at') = x + start by omega, old, new]
          rfl
        · rw [if_neg same]
          by_cases before : at' ≤ i ∧ i < at' + x
          · rw [if_pos before, if_pos (by omega)]
          · rw [if_neg before, if_neg (by omega)]

variable {p : Parent} {c : Child}

theorem rows_spec (isLocal : c.drawBuffer.isLocal = true) {sx sy dx dy w h : Nat}
    (parent : dx + w ≤ p.width ∧ dy + h ≤ p.height)
    (child : sx + w ≤ c.width ∧ sy + h ≤ c.height) :
    ∃ state, drawRows p c ⟨sx, dx, w⟩ ⟨sy, dy, h⟩ = some state ∧
      state.2.Right ∧ state.1.length = p.drawBuffer.pixels.length ∧
      ∀ i, state.1[i]? =
        if (dy ≤ i / p.drawBuffer.width ∧ i / p.drawBuffer.width < dy + h) ∧
            dx ≤ i % p.drawBuffer.width ∧ i % p.drawBuffer.width < dx + w then
          together (directCopy c) p.drawBuffer.pixels[i]?
            c.drawBuffer.pixels[sx + (i % p.drawBuffer.width - dx) +
              (sy + (i / p.drawBuffer.width - dy)) * c.width]?
        else p.drawBuffer.pixels[i]? := by
  obtain ⟨stride, size⟩ := c.own isLocal
  have short := c.small
  have tall : 5 ≤ c.height := by
    have least := c.least.2
    unfold MIN_OBJECT_SIZE at least
    omega
  have bytes : w * 4 < 2 ^ 31 := by
    have : c.width * 5 ≤ c.width * c.height := Nat.mul_le_mul_left _ tall
    omega
  rw [drawRows, stride, Int.toNat_natCast]
  apply loop_spec fun n (state : List Pixel × PixelCache) => state.2.Right ∧
    state.1.length = p.drawBuffer.pixels.length ∧ ∀ i, state.1[i]? =
      if (dy ≤ i / p.drawBuffer.width ∧ i / p.drawBuffer.width < dy + n) ∧
          dx ≤ i % p.drawBuffer.width ∧ i % p.drawBuffer.width < dx + w then
        together (directCopy c) p.drawBuffer.pixels[i]?
          c.drawBuffer.pixels[sx + (i % p.drawBuffer.width - dx) +
            (sy + (i / p.drawBuffer.width - dy)) * c.width]?
      else p.drawBuffer.pixels[i]?
  · refine ⟨PixelCache.right_empty, rfl, fun i => ?_⟩
    rw [if_neg (by omega)]
  · rintro n less ⟨mem, cache⟩ ⟨right, length, pixels⟩
    simp only at length pixels right
    have last : (dy + n) * p.drawBuffer.width + p.width ≤ p.drawBuffer.pixels.length :=
      row_le p.room (by omega)
    have source : (sy + n) * c.width + c.width ≤ c.width * c.height := by
      rw [← Nat.succ_mul, Nat.mul_comm]
      exact Nat.mul_le_mul_left _ (by omega)
    have wide := p.wide
    have room : dx + (dy + n) * p.drawBuffer.width + w ≤ mem.length := by omega
    have there : sx + (sy + n) * c.width + w ≤ c.drawBuffer.pixels.length := by omega
    obtain ⟨state, drawn, right', length', pixels'⟩ :=
      drawRow_spec (directCopy c) right room there bytes
    refine ⟨state, ?_, right', length'.trans length, fun i => ?_⟩
    · rw [← drawn]
      simp only [Int.natCast_add, Int.natCast_mul]
    · rw [pixels' i, Nat.add_right_comm, pixels]
      have across : dx + w ≤ p.drawBuffer.width := by omega
      have row := mem_row (r := dy + n) (i := i) across
      by_cases inside : i / p.drawBuffer.width = dy + n ∧ dx ≤ i % p.drawBuffer.width ∧
          i % p.drawBuffer.width < dx + w
      · rw [if_pos (row.mpr inside), if_neg (by omega), if_pos (by omega)]
        have place := Nat.div_add_mod i p.drawBuffer.width
        rw [Nat.mul_comm, inside.1] at place
        rw [inside.1, Nat.add_sub_cancel_left]
        congr 2
        omega
      · rw [if_neg (row.not.mpr inside)]
        by_cases before : (dy ≤ i / p.drawBuffer.width ∧ i / p.drawBuffer.width < dy + n) ∧
            dx ≤ i % p.drawBuffer.width ∧ i % p.drawBuffer.width < dx + w
        · rw [if_pos before, if_pos (by omega)]
        · rw [if_neg before, if_neg (by omega)]

theorem drawRow_none {w : Int} (negative : w < 0) (src : List Pixel) (srcOffset destOffset : Int)
    (state : List Pixel × PixelCache) : drawRow true src srcOffset destOffset w state = none := by
  cases bytes : int32 (w * DrawBuffer.bytesPerPixel) <;>
    simp [drawRow, bytes, memcpy_none negative]

theorem draw_iff (isLocal : c.drawBuffer.isLocal = true) {pixels : List Pixel} :
    draw p c = some pixels ↔
      (Fits p.width p.borderThickness c.x ∧ Fits p.height p.borderThickness c.y) ∧
        ∃ cache, drawRows p c (clipped p.width p.borderThickness c.x c.width)
          (clipped p.height p.borderThickness c.y c.height) = some (pixels, cache) := by
  simp only [draw, isLocal, Bool.true_eq_false, if_false, bind, Option.bind_eq_some_iff,
    clip_iff p.sides.1 c.sides.1, clip_iff p.sides.2 c.sides.2, Option.some.injEq]
  constructor
  · rintro ⟨_, ⟨fitsX, rfl⟩, _, ⟨fitsY, rfl⟩, ⟨_, cache⟩, drawn, rfl⟩
    exact ⟨⟨fitsX, fitsY⟩, cache, drawn⟩
  · rintro ⟨⟨fitsX, fitsY⟩, cache, drawn⟩
    exact ⟨_, ⟨fitsX, rfl⟩, _, ⟨fitsY, rfl⟩, _, drawn, rfl⟩

theorem drawRows_none {x y : Clip} (direct : directCopy c = true) (rows : 0 < y.length)
    (negative : x.length < 0) : drawRows p c x y = none := by
  apply loop_none
  · rw [direct]
    exact drawRow_none negative ..
  · omega

theorem drawRows_nothing {x y : Clip}
    (nothing : y.length ≤ 0 ∨ directCopy c = false ∧ x.length ≤ 0) :
    drawRows p c x y = some (p.drawBuffer.pixels, .empty) := by
  rcases nothing with rows | ⟨mixed, columns⟩
  · rw [drawRows, Int.toNat_of_nonpos rows]
    rfl
  · obtain ⟨state, run, rfl⟩ : ∃ state, drawRows p c x y = some state ∧
        state = (p.drawBuffer.pixels, PixelCache.empty) := by
      apply loop_spec fun _ state => state = (p.drawBuffer.pixels, PixelCache.empty)
      · rfl
      · rintro row - _ rfl
        refine ⟨_, ?_, rfl⟩
        simp [drawRow, mixed, Int.toNat_of_nonpos columns, loop]
    exact run

theorem composes_nothing (drawn : draw p c = some p.drawBuffer.pixels)
    (hidden : ∀ x y, ¬ Seen p c x y) : Composes p c := by
  refine ⟨_, drawn, rfl, fun i => ?_⟩
  simp only [hidden, if_false]

theorem pixelAt_eq {x y : Nat} (column : c.x.toNat + p.borderThickness ≤ x)
    (row : c.y.toNat + p.borderThickness ≤ y) :
    c.pixelAt (x - p.borderThickness) (y - p.borderThickness) =
      c.drawBuffer.pixels[(-c.x).toNat + (x - (c.x.toNat + p.borderThickness)) +
        ((-c.y).toNat + (y - (c.y.toNat + p.borderThickness))) * c.width]? := by
  have dx : (x : Int) - p.borderThickness - c.x =
      ((-c.x).toNat + (x - (c.x.toNat + p.borderThickness)) : Nat) := by omega
  have dy : (y : Int) - p.borderThickness - c.y =
      ((-c.y).toNat + (y - (c.y.toNat + p.borderThickness)) : Nat) := by omega
  rw [Child.pixelAt, dx, dy, ← Int.natCast_mul, ← Int.natCast_add, load_natCast]

/-- The child is put together with the parent exactly when the positions are representable
    and no row is copied to or from the other side of a gap. -/
theorem draw_composes (isLocal : c.drawBuffer.isLocal = true) : Composes p c ↔
    (Fits p.width p.borderThickness c.x ∧ Fits p.height p.borderThickness c.y) ∧
      ¬ (directCopy c = true ∧ Meet p.height p.borderThickness c.y c.height ∧
        Apart p.width p.borderThickness c.x c.width) := by
  have positive := c.positive
  constructor
  · rintro ⟨pixels, drawn, -⟩
    obtain ⟨fits, cache, run⟩ := (draw_iff isLocal).mp drawn
    refine ⟨fits, ?_⟩
    rintro ⟨direct, meet, apart⟩
    unfold Meet at meet
    unfold Apart at apart
    rw [drawRows_none direct] at run
    · cases run
    · simp only [clipped]
      omega
    · simp only [clipped]
      omega
  · rintro ⟨fits, together⟩
    by_cases nothing : (clipped p.height p.borderThickness c.y c.height).length ≤ 0 ∨
        (clipped p.width p.borderThickness c.x c.width).length < 0
    · apply composes_nothing
      · refine (draw_iff isLocal).mpr ⟨fits, _, drawRows_nothing ?_⟩
        rcases nothing with rows | columns
        · exact .inl rows
        · by_cases direct : directCopy c = true
          · left
            by_contra rows
            refine together ⟨direct, ?_, ?_⟩
            · simp only [clipped] at rows
              unfold Meet
              omega
            · simp only [clipped] at columns
              unfold Apart
              omega
          · exact .inr ⟨by simpa using direct, by omega⟩
      · rintro x y ⟨inner, covers⟩
        unfold Parent.Inner at inner
        unfold Child.Covers at covers
        simp only [clipped] at nothing
        omega
    · simp only [clipped] at nothing
      obtain ⟨w, width⟩ : ∃ w : Nat,
          (clipped p.width p.borderThickness c.x c.width).length = w := by
        apply Int.eq_ofNat_of_zero_le
        simp only [clipped]
        omega
      obtain ⟨h, height⟩ : ∃ h : Nat,
          (clipped p.height p.borderThickness c.y c.height).length = h := by
        apply Int.eq_ofNat_of_zero_le
        simp only [clipped]
        omega
      simp only [clipped] at width height
      have parent : c.x.toNat + p.borderThickness + w ≤ p.width ∧
          c.y.toNat + p.borderThickness + h ≤ p.height := by omega
      have child : (-c.x).toNat + w ≤ c.width ∧ (-c.y).toNat + h ≤ c.height := by omega
      obtain ⟨⟨pixels, cache⟩, drawn, -, length, seen⟩ := rows_spec isLocal parent child
      refine ⟨pixels, (draw_iff isLocal).mpr ⟨fits, cache, ?_⟩, length, fun i => ?_⟩
      · rw [clipped, clipped, width, height]
        exact drawn
      · simp only at seen ⊢
        rw [seen]
        by_cases inside : (c.y.toNat + p.borderThickness ≤ i / p.drawBuffer.width ∧
            i / p.drawBuffer.width < c.y.toNat + p.borderThickness + h) ∧
            c.x.toNat + p.borderThickness ≤ i % p.drawBuffer.width ∧
            i % p.drawBuffer.width < c.x.toNat + p.borderThickness + w
        · have shown : Seen p c (i % p.drawBuffer.width : Nat) (i / p.drawBuffer.width : Nat) := by
            unfold Seen Parent.Inner Child.Covers
            omega
          rw [if_pos inside, if_pos shown, pixelAt_eq inside.2.1 inside.1.1]
        · have hidden : ¬ Seen p c (i % p.drawBuffer.width : Nat)
              (i / p.drawBuffer.width : Nat) := by
            unfold Seen Parent.Inner Child.Covers
            omega
          rw [if_neg inside, if_neg hidden]

theorem draw_composes_corner :
    Composes ⟨5, 5, 1, ⟨.Local, List.replicate 25 0, 5, 5, 5, 5⟩, by decide, by decide,
        by decide, by decide⟩
      ⟨-3, 2, 5, 5, true, false, ⟨.Local, List.replicate 25 1, 5, 5, 5, 5⟩, by decide,
        by decide, by decide⟩ := by
  refine (draw_composes rfl).mpr ⟨?_, ?_⟩
  · unfold Fits
    decide
  · rintro ⟨-, -, apart⟩
    revert apart
    unfold Apart
    decide

/-- A border of more than half the width: the length of each row is -5. -/
theorem draw_thick_border : ¬ ∀ (p : Parent) (c : Child), checkBoundary p c ≠ .Outside →
    c.drawBuffer.isLocal = true → Composes p c := by
  intro composes
  obtain ⟨pixels, drawn, -⟩ := composes
    ⟨5, 20, 5, ⟨.Local, List.replicate 100 0, 5, 20, 5, 20⟩, by decide, by decide,
      by decide, by decide⟩
    ⟨-7, 0, 8, 5, true, false, ⟨.Local, List.replicate 40 1, 8, 5, 8, 5⟩, by decide,
      by decide, by decide⟩ (by decide) rfl
  exact absurd (Option.isSome_of_mem drawn) (by decide)

end RectangularLayout

end Drawing
