import UpanLibs.UiObject.DrawBuffer

/-!
`RectangularLayout::fill`: the background and the border of a canvas, with the pixels of
the last fill kept under a hash of its five parameters.
-/
namespace Drawing
open Raster

/-- `hash32` of a first value and those after it. -/
def hash32 : UInt32 → List UInt32 → UInt32
  | n, [] => n
  | n1, n2 :: ns => hash32 (((n1 <<< 1) ||| (n1 >>> 31)) ^^^ n2) ns

/-- The properties of the canvas that are read to fill it. -/
structure Canvas where
  width : Nat
  height : Nat
  backgroundColorForDraw : Pixel
  backgroundColorAlpha : UInt8
  borderColor : Pixel
  borderColorAlpha : UInt8
  borderThickness : Nat
  deriving DecidableEq, Repr

structure Parameters where
  bgColor : Pixel
  brColor : Pixel
  height : Nat
  width : Nat
  borderThickness : Nat
  deriving DecidableEq, Repr

def Parameters.cacheKey (f : Parameters) : UInt32 :=
  hash32 f.bgColor [f.brColor, .ofNat f.height, .ofNat f.width, .ofNat f.borderThickness]

namespace Canvas

def hasAlphaLocal (p : Canvas) : Bool :=
  p.backgroundColorAlpha.toUInt32 ≠ MAX_ALPHA ∨
    (p.borderThickness > 0 ∧ p.borderColorAlpha.toUInt32 ≠ MAX_ALPHA)

def withAlpha (color : Pixel) (alpha : UInt8) : Pixel :=
  (color &&& NO_ALPHA_MASK) ||| (alpha.toUInt32 <<< 24)

def parameters (p : Canvas) : Parameters :=
  ⟨withAlpha p.backgroundColorForDraw p.backgroundColorAlpha,
    withAlpha p.borderColor p.borderColorAlpha, p.height, p.width, p.borderThickness⟩

def isBlank (p : Canvas) : Bool := p.backgroundColorAlpha = 0 ∧ p.borderThickness = 0

def useCache (p : Canvas) (b : DrawBuffer) : Bool := b.isLocal || !p.hasAlphaLocal

end Canvas

/-- The loop over the columns from `start` to `stop` of one row. -/
def span (b : DrawBuffer) (y : Nat) (color : Pixel) (start stop : Int)
    (state : List Pixel × PixelCache) : Option (List Pixel × PixelCache) :=
  loop (fun k state => do
    let offset := (start + k) + (y * b.width : Nat)
    let pixel ← load state.1 offset
    let (pixel, pixelCache) := setPixel pixel color state.2 b.isLocal
    let pixels ← store state.1 offset pixel
    some (pixels, pixelCache)) (stop - start).toNat state

def fillRow (f : Parameters) (b : DrawBuffer) (y : Nat) (state : List Pixel × PixelCache) :
    Option (List Pixel × PixelCache) :=
  if y < f.borderThickness ∨ (f.height : Int) - y ≤ f.borderThickness then
    span b y f.brColor 0 f.width state
  else do
    let state ← span b y f.brColor 0 f.borderThickness state
    let state ← span b y f.bgColor f.borderThickness (f.width - f.borderThickness) state
    span b y f.brColor (f.width - f.borderThickness) f.width state

def paint (f : Parameters) (b : DrawBuffer) : Option DrawBuffer := do
  let state ← loop (fillRow f b) f.height (b.pixels, .empty)
  some { b with pixels := state.1 }

/-- `_cache` and `_cacheKey`. -/
structure FillCache where
  cache : DrawBuffer
  cacheKey : UInt32
  deriving DecidableEq, Repr

namespace FillCache

def empty : FillCache := ⟨.null, 0⟩

def fill (s : FillCache) (p : Canvas) (b : DrawBuffer) : Option (FillCache × DrawBuffer) :=
  if p.isBlank then
    if b.isLocal then do
      let b ← b.fill 0
      some (s, b)
    else some (s, b)
  else
    let f := p.parameters
    let useCache := p.useCache b
    if (s.cacheKey = f.cacheKey ∧ s.cache.isNull = false) ∧ useCache = true then do
      let b ← b.copy s.cache
      some (s, b)
    else do
      let b ← paint f b
      if useCache then do
        let cache ← (s.cache.initLocal f.width f.height).1.copy b
        some (⟨cache, f.cacheKey⟩, b)
      else some (s, b)

end FillCache

def refill (p : Canvas) (b : DrawBuffer) : Option DrawBuffer :=
  if p.isBlank then
    if b.isLocal then b.fill 0 else some b
  else paint p.parameters b

/-- The buffer that the canvas is set up with: as large as the canvas, in a raster that is
    no smaller. -/
structure Canvas.Owns (p : Canvas) (b : DrawBuffer) : Prop where
  positive : 0 < p.width ∧ 0 < p.height
  visible : b.vWidth = p.width ∧ b.vHeight = p.height
  raster : p.width ≤ b.width ∧ p.height ≤ b.height
  room : (p.height - 1) * b.width + p.width ≤ b.pixels.length

def SamePixels (p : Canvas) (b b' : DrawBuffer) : Prop :=
  ∀ x < p.width, ∀ y < p.height, b.pixelAt x y = b'.pixelAt x y

/-- Each of the fills, of the canvas and the buffer as they are then, gives the pixels that
    a fill without the cache gives. -/
def Transparent : FillCache → List (Canvas × DrawBuffer) → Prop
  | _, [] => True
  | s, (p, b) :: fills => ∃ s' b' b'', s.fill p b = some (s', b') ∧ refill p b = some b'' ∧
      SamePixels p b' b'' ∧ Transparent s' fills

def lastCached (last : Option Parameters) (p : Canvas) (b : DrawBuffer) : Option Parameters :=
  if !p.isBlank && p.useCache b then some p.parameters else last

/-- A fill that may take the cached pixels has the key of the fill they are from only if it
    has its parameters. -/
def NoCollision : Option Parameters → List (Canvas × DrawBuffer) → Prop
  | _, [] => True
  | last, (p, b) :: fills =>
      (p.isBlank = false → p.useCache b = true →
        ∀ f ∈ last, f.cacheKey = p.parameters.cacheKey → f = p.parameters) ∧
      NoCollision (lastCached last p b) fills

instance noCollisionDecidable : ∀ last fills, Decidable (NoCollision last fills)
  | _, [] => .isTrue trivial
  | last, (p, b) :: fills =>
      have := noCollisionDecidable (lastCached last p b) fills
      inferInstanceAs (Decidable ((p.isBlank = false → p.useCache b = true →
        ∀ f ∈ last, f.cacheKey = p.parameters.cacheKey → f = p.parameters) ∧
          NoCollision (lastCached last p b) fills))

def Parameters.image (f : Parameters) (x y : Nat) : Pixel :=
  if (y < f.borderThickness ∨ f.height ≤ y + f.borderThickness) ∨
      x < f.borderThickness ∨ f.width ≤ x + f.borderThickness then f.brColor
  else f.bgColor

/-- A pixel of the buffer that gets the colour has it, whatever it was. -/
def Sets (b : DrawBuffer) (color : Pixel) : Prop :=
  b.isLocal = true ∨ channel color 24 = MAX_ALPHA

def Covers (f : Parameters) (b : DrawBuffer) : Prop :=
  Sets b f.bgColor ∧ (0 < f.borderThickness → Sets b f.brColor)

theorem setPixel_sets {b : DrawBuffer} {color : Pixel} (sets : Sets b color) (pixel : Pixel)
    (cache : PixelCache) : (setPixel pixel color cache b.isLocal).1 = color := by
  unfold setPixel
  rcases sets with direct | full
  · rw [direct]
    rfl
  · have visible : MAX_ALPHA > 0 := by decide
    cases b.isLocal <;> simp [full, visible]

theorem channel_withAlpha (color : Pixel) : channel (Canvas.withAlpha color 255) 24 = MAX_ALPHA := by
  have cleared : NO_ALPHA_MASK >>> 24 = 0 := by decide
  unfold channel Canvas.withAlpha
  rw [UInt32.shiftRight_or, UInt32.shiftRight_and, cleared, UInt32.and_zero, UInt32.zero_or]
  decide

theorem covers_of_useCache {p : Canvas} {b : DrawBuffer} (use : p.useCache b = true) :
    Covers p.parameters b := by
  unfold Canvas.useCache at use
  cases isLocal : b.isLocal with
  | true => exact ⟨.inl isLocal, fun _ => .inl isLocal⟩
  | false =>
    have full {alpha : UInt8} (byte : alpha.toUInt32 = MAX_ALPHA) : alpha = 255 := by
      apply UInt8.toUInt32_inj.mp
      rw [byte]
      rfl
    simp only [isLocal, Bool.false_or, Canvas.hasAlphaLocal, Bool.not_eq_true',
      decide_eq_false_iff_not, not_or, not_and, Decidable.not_not] at use
    constructor
    · right
      simp only [Canvas.parameters]
      rw [full use.1]
      exact channel_withAlpha _
    · intro border
      right
      simp only [Canvas.parameters]
      rw [full (use.2 border)]
      exact channel_withAlpha _

theorem span_spec (b : DrawBuffer) (y : Nat) (color : Pixel) (start stop : Int)
    (state : List Pixel × PixelCache) (low : 0 ≤ start + (y * b.width : Nat))
    (high : start < stop → stop + (y * b.width : Nat) ≤ state.1.length) :
    ∃ after, span b y color start stop state = some after ∧
      after.1.length = state.1.length ∧
      ((start < stop → Sets b color) → ∀ i : Nat, after.1[i]? =
        if start + (y * b.width : Nat) ≤ i ∧ (i : Int) < stop + (y * b.width : Nat) then
          some color else state.1[i]?) := by
  rcases Int.lt_or_le stop start with empty | ordered
  · refine ⟨state, ?_, rfl, fun _ i => ?_⟩
    · rw [span, Int.toNat_of_nonpos (by omega)]
      rfl
    · rw [if_neg (by omega)]
  obtain ⟨count, rfl⟩ := Int.le.dest ordered
  rw [span, show (start + count - start).toNat = count by omega]
  apply loop_spec fun n (now : List Pixel × PixelCache) => now.1.length = state.1.length ∧
    ((start < start + count → Sets b color) → ∀ i : Nat, now.1[i]? =
      if start + (y * b.width : Nat) ≤ i ∧ (i : Int) < start + n + (y * b.width : Nat) then
        some color else state.1[i]?)
  · refine ⟨rfl, fun _ i => ?_⟩
    rw [if_neg (by omega)]
  · rintro k less ⟨now, cache⟩ ⟨length, pixels⟩
    simp only at length pixels
    obtain ⟨i, place⟩ := Int.eq_ofNat_of_zero_le
      (show 0 ≤ start + k + (y * b.width : Nat) by omega)
    have inside : i < now.length := by omega
    have old : now[i]? = some now[i] := List.getElem?_eq_getElem inside
    refine ⟨(now.set i (setPixel now[i] color cache b.isLocal).1,
      (setPixel now[i] color cache b.isLocal).2), ?_, ?_, fun sets j => ?_⟩
    · simp only [place, load_natCast, old, bind, Option.bind_some, store_spec inside]
    · rw [List.length_set, length]
    · simp only
      rw [List.getElem?_set, pixels sets, setPixel_sets (sets (by omega))]
      by_cases same : i = j
      · subst same
        rw [if_pos rfl, if_pos inside, if_pos (by omega)]
      · rw [if_neg same]
        by_cases before : start + (y * b.width : Nat) ≤ j ∧
            (j : Int) < start + k + (y * b.width : Nat)
        · rw [if_pos before, if_pos (by omega)]
        · rw [if_neg before, if_neg (by omega)]

/-- A row of the canvas is filled. In a canvas that is all border a row may spill into
    others, which get the border's colour, too. -/
theorem fillRow_spec {f : Parameters} {b : DrawBuffer} {y : Nat} (state : List Pixel × PixelCache)
    (wide : f.width ≤ b.width) (positive : 0 < f.width) (below : y < f.height)
    (room : (f.height - 1) * b.width + f.width ≤ state.1.length) :
    ∃ after, fillRow f b y state = some after ∧ after.1.length = state.1.length ∧
      (Covers f b → ∀ x < f.width, ∀ y' < f.height,
        after.1[x + y' * b.width]? = some (f.image x y') ∨
          y' ≠ y ∧ after.1[x + y' * b.width]? = state.1[x + y' * b.width]?) := by
  have last := row_le room below
  unfold fillRow
  split
  next edge =>
    obtain ⟨after, run, length, pixels⟩ := span_spec b y f.brColor 0 f.width state
      (by omega) (by omega)
    refine ⟨after, run, length, fun covers x column y' row => ?_⟩
    have here := place_mem_row 0 f.width y y' (by omega) (Nat.lt_of_lt_of_le column wide)
    rw [pixels fun _ => covers.2 (by omega)]
    by_cases same : y' = y
    · have border : f.image x y' = f.brColor := if_pos (.inl (by omega))
      rw [if_pos (by omega), border]
      exact .inl rfl
    · rw [if_neg (by omega)]
      exact .inr ⟨same, rfl⟩
  next middle =>
    have spill : f.borderThickness * 1 ≤ f.borderThickness * b.width :=
      Nat.mul_le_mul_left _ (by omega)
    have above : f.borderThickness * b.width ≤ y * b.width := Nat.mul_le_mul_right _ (by omega)
    have under : (y + f.borderThickness) * b.width ≤ (f.height - 1) * b.width :=
      Nat.mul_le_mul_right _ (by omega)
    rw [Nat.add_mul] at under
    obtain ⟨first, run, length, pixels⟩ := span_spec b y f.brColor 0
      f.borderThickness state (by omega) (by omega)
    obtain ⟨second, run', length', pixels'⟩ := span_spec b y f.bgColor
      f.borderThickness (f.width - f.borderThickness) first (by omega) (by omega)
    obtain ⟨third, run'', length'', pixels''⟩ := span_spec b y f.brColor
      (f.width - f.borderThickness) f.width second (by omega) (by omega)
    refine ⟨third, ?_, length''.trans (length'.trans length), fun covers x column y' row => ?_⟩
    · simp only [run, run', run'', bind, Option.bind_some]
    rw [pixels'' fun _ => covers.2 (by omega), pixels' fun _ => covers.1,
      pixels fun _ => covers.2 (by omega)]
    rcases Nat.lt_or_ge (2 * f.borderThickness) f.width with inner | all
    · have placed : x < b.width := Nat.lt_of_lt_of_le column wide
      have left := place_mem_row 0 f.borderThickness y y' (by omega) placed
      have center := place_mem_row f.borderThickness (f.width - 2 * f.borderThickness) y y'
        (by omega) placed
      have right := place_mem_row (f.width - f.borderThickness) f.borderThickness y y'
        (by omega) placed
      by_cases same : y' = y
      · left
        by_cases edge : x < f.borderThickness ∨ f.width ≤ x + f.borderThickness
        · have border : f.image x y' = f.brColor := if_pos (.inr edge)
          rw [border]
          split
          · rfl
          · rw [if_neg (by omega), if_pos (by omega)]
        · have inside : f.image x y' = f.bgColor := if_neg (by omega)
          rw [if_neg (by omega), if_pos (by omega), inside]
      · rw [if_neg (by omega), if_neg (by omega), if_neg (by omega)]
        exact .inr ⟨same, rfl⟩
    · have border : f.image x y' = f.brColor := if_pos (.inr (by omega))
      rw [border]
      split
      · exact .inl rfl
      next notLast =>
        rw [if_neg (by omega)]
        split
        · exact .inl rfl
        next notFirst =>
          refine .inr ⟨?_, rfl⟩
          rintro rfl
          omega

theorem paint_spec {f : Parameters} {b : DrawBuffer} (wide : f.width ≤ b.width)
    (positive : 0 < f.width) (room : (f.height - 1) * b.width + f.width ≤ b.pixels.length) :
    ∃ pixels, paint f b = some { b with pixels } ∧ pixels.length = b.pixels.length ∧
      (Covers f b → ∀ x < f.width, ∀ y < f.height,
        pixels[x + y * b.width]? = some (f.image x y)) := by
  obtain ⟨after, run, length, pixels⟩ : ∃ after : List Pixel × PixelCache,
      loop (fillRow f b) f.height (b.pixels, .empty) = some after ∧
      after.1.length = b.pixels.length ∧
      (Covers f b → ∀ x < f.width, ∀ y < f.height, y < f.height →
        after.1[x + y * b.width]? = some (f.image x y)) := by
    apply loop_spec fun n (now : List Pixel × PixelCache) => now.1.length = b.pixels.length ∧
      (Covers f b → ∀ x < f.width, ∀ y < f.height, y < n →
        now.1[x + y * b.width]? = some (f.image x y))
    · exact ⟨rfl, fun _ _ _ _ _ none => absurd none (Nat.not_lt_zero _)⟩
    · rintro n less now ⟨length, done⟩
      obtain ⟨after, run, length', row⟩ := fillRow_spec now wide positive less (length ▸ room)
      refine ⟨after, run, length'.trans length, fun covers x column y below reached => ?_⟩
      rcases row covers x column y below with painted | ⟨other, kept⟩
      · exact painted
      · rw [kept]
        exact done covers x column y below (by omega)
  refine ⟨after.1, ?_, length, fun covers x column y row => pixels covers x column y row row⟩
  simp only [paint, run, bind, Option.bind_some]

def Whole (b : DrawBuffer) : Prop := b.type = .Local →
  (b.vWidth = b.width ∧ b.vHeight = b.height) ∧ b.pixels.length = b.width * b.height

theorem initLocal_spec {b : DrawBuffer} (whole : Whole b) (width height : Nat) :
    ((b.initLocal width height).1.type = .Local ∧ (b.initLocal width height).1.width = width ∧
      (b.initLocal width height).1.height = height) ∧ Whole (b.initLocal width height).1 := by
  unfold DrawBuffer.initLocal
  split
  next same => exact ⟨same, whole⟩
  · refine ⟨⟨rfl, rfl, rfl⟩, fun _ => ⟨⟨rfl, rfl⟩, ?_⟩⟩
    rw [List.length_replicate]

def FillCache.Holds (s : FillCache) : Option Parameters → Prop
  | none => s.cache.isNull = true
  | some f => s.cacheKey = f.cacheKey ∧
      (s.cache.type = .Local ∧ s.cache.width = f.width ∧ s.cache.height = f.height) ∧
      ∀ x < f.width, ∀ y < f.height, s.cache.pixelAt x y = some (f.image x y)

section Steps

variable {s : FillCache} {p : Canvas} {b : DrawBuffer} {last : Option Parameters}

theorem rows_eq {height width : Nat} (positive : 0 < height) :
    (height - 1) * width + width = width * height := by
  rw [← Nat.succ_mul, Nat.succ_eq_add_one, Nat.sub_add_cancel positive, Nat.mul_comm]

theorem copy_image (owns : p.Owns b) (whole : Whole s.cache) (use : p.useCache b = true)
    (holds : s.Holds (some p.parameters)) : ∃ b' b'', b.copy s.cache = some b' ∧
      paint p.parameters b = some b'' ∧ SamePixels p b' b'' := by
  obtain ⟨-, ⟨isLocal, width, height⟩, image⟩ := holds
  obtain ⟨-, size⟩ := whole isLocal
  have wide : min b.vWidth s.cache.width = p.width := by
    rw [owns.visible.1, width]
    exact Nat.min_self _
  have tall : min b.vHeight s.cache.height = p.height := by
    rw [owns.visible.2, height]
    exact Nat.min_self _
  obtain ⟨pixels, copied, -, cached⟩ := DrawBuffer.copy_spec b s.cache
    (by rw [wide]; exact owns.raster.1) (by rw [wide, tall]; exact owns.room)
    (by
      rw [wide, tall, size, width, height]
      exact Nat.le_of_eq (rows_eq owns.positive.2))
  obtain ⟨pixels', painted, -, fresh⟩ := paint_spec (f := p.parameters) owns.raster.1
    owns.positive.1 owns.room
  refine ⟨_, _, copied, painted, fun x column y row => ?_⟩
  have left : pixels[x + y * b.width]? = some (p.parameters.image x y) := by
    rw [cached x (by omega) y (by omega)]
    exact image x column y row
  exact left.trans (fresh (covers_of_useCache use) x column y row).symm

theorem cache_image (owns : p.Owns b) (whole : Whole s.cache) (use : p.useCache b = true) :
    ∃ b' cache, paint p.parameters b = some b' ∧
      (s.cache.initLocal p.width p.height).1.copy b' = some cache ∧ Whole cache ∧
      FillCache.Holds ⟨cache, p.parameters.cacheKey⟩ (some p.parameters) := by
  obtain ⟨pixels, painted, length, fresh⟩ := paint_spec (f := p.parameters) owns.raster.1
    owns.positive.1 owns.room
  obtain ⟨⟨isLocal, width, height⟩, whole'⟩ := initLocal_spec whole p.width p.height
  obtain ⟨⟨vWidth, vHeight⟩, size⟩ := whole' isLocal
  have wide : min (s.cache.initLocal p.width p.height).1.vWidth b.width = p.width := by
    rw [vWidth, width]
    exact Nat.min_eq_left owns.raster.1
  have tall : min (s.cache.initLocal p.width p.height).1.vHeight b.height = p.height := by
    rw [vHeight, height]
    exact Nat.min_eq_left owns.raster.2
  obtain ⟨pixels', copied, length', cached⟩ := DrawBuffer.copy_spec
    (s.cache.initLocal p.width p.height).1 { b with pixels }
    (Nat.le_of_eq (wide.trans width.symm))
    (by
      simp only
      rw [wide, tall, size, width, height]
      exact Nat.le_of_eq (rows_eq owns.positive.2))
    (by
      simp only
      rw [wide, tall, length]
      exact owns.room)
  simp only at cached
  refine ⟨_, _, painted, copied, fun _ => ⟨⟨vWidth, vHeight⟩, length'.trans size⟩, rfl,
    ⟨isLocal, width, height⟩, fun x column y row => ?_⟩
  rw [DrawBuffer.pixelAt, cached x (by rw [wide]; exact column) y (by rw [tall]; exact row)]
  exact fresh (covers_of_useCache use) x column y row

theorem fill_step (owns : p.Owns b) (whole : Whole s.cache) (holds : s.Holds last)
    (noCollision : p.isBlank = false → p.useCache b = true →
      ∀ f ∈ last, f.cacheKey = p.parameters.cacheKey → f = p.parameters) :
    ∃ s' b' b'', s.fill p b = some (s', b') ∧ refill p b = some b'' ∧ SamePixels p b' b'' ∧
      Whole s'.cache ∧ s'.Holds (lastCached last p b) := by
  unfold FillCache.fill refill lastCached
  cases blank : p.isBlank with
  | true =>
    simp only [if_true, Bool.not_true, Bool.false_and, Bool.false_eq_true, if_false]
    cases isLocal : b.isLocal with
    | true =>
      obtain ⟨b', filled⟩ := DrawBuffer.fill_some (b := b)
        (by rw [owns.visible.1, owns.visible.2]; exact owns.room) 0
      refine ⟨s, b', b', ?_, ?_, fun _ _ _ _ => rfl, whole, holds⟩
      · simp only [filled, if_true, bind, Option.bind_some]
      · simp only [filled, if_true]
    | false => exact ⟨s, b, b, rfl, rfl, fun _ _ _ _ => rfl, whole, holds⟩
  | false =>
    simp only [Bool.false_eq_true, if_false, Bool.not_false, Bool.true_and]
    cases use : p.useCache b with
    | false =>
      obtain ⟨pixels, painted, -, -⟩ := paint_spec (f := p.parameters) owns.raster.1
        owns.positive.1 owns.room
      refine ⟨s, _, _, ?_, painted, fun _ _ _ _ => rfl, whole, holds⟩
      simp only [painted, Bool.false_eq_true, and_false, if_false, bind, Option.bind_some]
    | true =>
      by_cases hit : s.cacheKey = p.parameters.cacheKey ∧ s.cache.isNull = false
      · cases last with
        | none =>
          have absent : s.cache.isNull = true := holds
          rw [absent] at hit
          exact absurd hit.2 Bool.true_eq_false.mp
        | some f =>
          obtain rfl := noCollision blank use f rfl (holds.1.symm.trans hit.1)
          obtain ⟨b', b'', copied, painted, same⟩ := copy_image owns whole use holds
          refine ⟨s, b', b'', ?_, painted, same, whole, holds⟩
          simp only [hit, copied, and_self, if_true, bind, Option.bind_some]
      · obtain ⟨b', cache, painted, copied, whole', holds'⟩ := cache_image owns whole use
        refine ⟨⟨cache, p.parameters.cacheKey⟩, b', b', ?_, painted, fun _ _ _ _ => rfl,
          whole', holds'⟩
        have sizes : s.cache.initLocal p.parameters.width p.parameters.height =
          s.cache.initLocal p.width p.height := rfl
        simp only [hit, painted, sizes, copied, false_and, if_true, if_false, bind,
          Option.bind_some]

end Steps

/-- The cache changes no pixel in any sequence of fills in which no fill has the key of the
    cached one and other parameters. -/
theorem fill_transparent {fills : List (Canvas × DrawBuffer)}
    (owned : ∀ fill ∈ fills, fill.1.Owns fill.2) (noCollision : NoCollision none fills) :
    Transparent .empty fills := by
  suffices run : ∀ (s : FillCache) (last : Option Parameters), Whole s.cache → s.Holds last →
      NoCollision last fills → Transparent s fills from
    run .empty none (fun isLocal => nomatch isLocal) rfl noCollision
  clear noCollision
  induction fills with
  | nil => exact fun _ _ _ _ _ => trivial
  | cons fill fills ih =>
    obtain ⟨p, b⟩ := fill
    rintro s last whole holds ⟨distinct, rest⟩
    obtain ⟨owns, owned⟩ := List.forall_mem_cons.mp owned
    obtain ⟨s', b', b'', filled, refilled, same, whole', holds'⟩ :=
      fill_step owns whole holds distinct
    exact ⟨s', b', b'', filled, refilled, same, ih owned s' _ whole' holds' rest⟩

def cleaned (p : Canvas) : DrawBuffer := (DrawBuffer.null.initLocal p.width p.height).1

theorem owns_cleaned {p : Canvas} (positive : 0 < p.width ∧ 0 < p.height) :
    p.Owns (cleaned p) := by
  refine ⟨positive, ⟨rfl, rfl⟩, ⟨Nat.le_refl _, Nat.le_refl _⟩, ?_⟩
  have size : (cleaned p).pixels.length = p.width * p.height := List.length_replicate
  rw [size]
  exact Nat.le_of_eq (rows_eq positive.2)

theorem fill_transparent_recolored :
    let canvas (color : Pixel) : Canvas := ⟨5, 5, color, 255, 2, 255, 1⟩
    Transparent .empty [(canvas 1, cleaned (canvas 1)), (canvas 3, cleaned (canvas 3)),
      (canvas 3, cleaned (canvas 3))] := by
  apply fill_transparent
  · intro fill member
    simp only [List.mem_cons, List.not_mem_nil, or_false] at member
    rcases member with rfl | rfl | rfl <;> exact owns_cleaned (by decide)
  · decide

/-- Six columns with a border of two have the key of seven columns without one. -/
theorem fill_takes_other_size : ¬ ∀ fills : List (Canvas × DrawBuffer),
    (∀ fill ∈ fills, fill.1.Owns fill.2) → Transparent .empty fills := by
  intro transparent
  let bordered : Canvas := ⟨6, 5, 1, 255, 2, 255, 2⟩
  let wider : Canvas := ⟨7, 5, 1, 255, 2, 255, 0⟩
  obtain ⟨s, b, _, first, -, -, s', b', b'', second, refilled, same, -⟩ :=
    transparent [(bordered, cleaned bordered), (wider, cleaned wider)] (by
      intro fill member
      simp only [List.mem_cons, List.not_mem_nil, or_false] at member
      rcases member with rfl | rfl <;> exact owns_cleaned (by decide))
  have cached : ((FillCache.empty.fill bordered (cleaned bordered)).bind fun r =>
      r.1.fill wider (cleaned wider)).map (fun r => r.2.pixelAt 0 0) =
        some (some bordered.parameters.brColor) := by decide
  have fresh : (refill wider (cleaned wider)).map (fun b => b.pixelAt 0 0) =
      some (some wider.parameters.bgColor) := by decide
  rw [first, Option.bind_some, second] at cached
  rw [refilled] at fresh
  simp only [Option.map_some, Option.some.injEq] at cached fresh
  have corner := same 0 (by decide) 0 (by decide)
  rw [cached, fresh] at corner
  exact absurd corner (by decide)

end Drawing
