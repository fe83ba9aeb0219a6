import Mathlib.Data.Nat.Bitwise
import UpanLibs.Image.PngFilter

/-!
The vector versions of `defilter_scanline` for pixels of three and four bytes. Of a vector only
the four lanes that a pixel is loaded to are kept; a load of four bytes where a pixel has three
takes the next pixel's first byte to the last lane, which is never stored.
-/
namespace Png

abbrev Word := BitVec 16

@[ext] structure Lanes (α : Type) where
  x0 : α
  x1 : α
  x2 : α
  x3 : α
  deriving DecidableEq, Repr

namespace Lanes

variable {α β γ : Type}

def set1 (x : α) : Lanes α := ⟨x, x, x, x⟩

def map (f : α → β) (a : Lanes α) : Lanes β := ⟨f a.x0, f a.x1, f a.x2, f a.x3⟩

def map2 (f : α → β → γ) (a : Lanes α) (b : Lanes β) : Lanes γ :=
  ⟨f a.x0 b.x0, f a.x1 b.x1, f a.x2 b.x2, f a.x3 b.x3⟩

end Lanes

open Lanes

def load4 (p : List Byte) : Lanes Byte := ⟨p.getD 0 0, p.getD 1 0, p.getD 2 0, p.getD 3 0⟩

def load3 (p : List Byte) : Lanes Byte := ⟨p.getD 0 0, p.getD 1 0, p.getD 2 0, 0⟩

/-! The instructions, lane by lane. -/

def add_epi8 : Lanes Byte → Lanes Byte → Lanes Byte := map2 (· + ·)
def sub_epi8 : Lanes Byte → Lanes Byte → Lanes Byte := map2 (· - ·)

/-- The average of `_mm_avg_epu8` rounds up. -/
def avg_epu8 : Lanes Byte → Lanes Byte → Lanes Byte :=
  map2 fun a b => BitVec.ofNat 8 ((a.toNat + b.toNat + 1) / 2)

def xor_epi8 : Lanes Byte → Lanes Byte → Lanes Byte := map2 (· ^^^ ·)
def and_epi8 : Lanes Byte → Lanes Byte → Lanes Byte := map2 (· &&& ·)

/-- `_mm_unpacklo_epi8(v, zero)`. -/
def unpacklo_epi8 : Lanes Byte → Lanes Word := map (·.setWidth 16)

def add_epi16 : Lanes Word → Lanes Word → Lanes Word := map2 (· + ·)
def sub_epi16 : Lanes Word → Lanes Word → Lanes Word := map2 (· - ·)

def xor_epi16 : Lanes Word → Lanes Word → Lanes Word := map2 (· ^^^ ·)
def and_epi16 : Lanes Word → Lanes Word → Lanes Word := map2 (· &&& ·)
def or_epi16 : Lanes Word → Lanes Word → Lanes Word := map2 (· ||| ·)
def andnot_epi16 : Lanes Word → Lanes Word → Lanes Word := map2 fun a b => ~~~a &&& b

def mask (b : Bool) : Word := if b then BitVec.allOnes 16 else 0

def cmplt_epi16 : Lanes Word → Lanes Word → Lanes Word := map2 fun a b => mask (a.slt b)
def cmpeq_epi16 : Lanes Word → Lanes Word → Lanes Word := map2 fun a b => mask (a == b)
def min_epi16 : Lanes Word → Lanes Word → Lanes Word := map2 fun a b => if a.slt b then a else b

/-- `_mm_add_epi8` on lanes of two bytes. -/
def add_epi8_words : Lanes Word → Lanes Word → Lanes Word :=
  map2 fun a b => ((a >>> 8).setWidth 8 + (b >>> 8).setWidth 8 : Byte) ++
    (a.setWidth 8 + b.setWidth 8 : Byte)

/-- `_mm_packus_epi16` saturates a signed lane. -/
def packus_epi16 : Lanes Word → Lanes Byte :=
  map fun a => if a.toInt < 0 then 0 else if 255 < a.toInt then 255 else a.setWidth 8

def abs_i16 (x : Lanes Word) : Lanes Word :=
  let is_negative := cmplt_epi16 x (set1 0)
  let x := xor_epi16 x is_negative
  sub_epi16 x is_negative

def if_then_else (c t e : Lanes Word) : Lanes Word :=
  or_epi16 (and_epi16 c t) (andnot_epi16 c e)

/-- A loop of the vector code: what it keeps between two pixels, what it makes of the pixel
    above and the raw pixel, and the pixel that it stores. -/
structure Kernel (σ : Type) where
  start : σ
  next : σ → Lanes Byte → Lanes Byte → σ
  pixel : σ → Lanes Byte

def subKernel : Kernel (Lanes Byte) where
  start := set1 0
  next a _ d := add_epi8 d a
  pixel d := d

def avgKernel : Kernel (Lanes Byte) where
  start := set1 0
  next a b d :=
    let avg := avg_epu8 a b
    let avg := sub_epi8 avg (and_epi8 (xor_epi8 a b) (set1 1))
    add_epi8 d avg
  pixel d := d

/-- The words of `b` and `d`, which are `c` and `a` for the next pixel. -/
def paethKernel : Kernel (Lanes Word × Lanes Word) where
  start := (set1 0, set1 0)
  next state prev row :=
    let c := state.1
    let b := unpacklo_epi8 prev
    let a := state.2
    let d := unpacklo_epi8 row
    let pa := sub_epi16 b c
    let pb := sub_epi16 a c
    let pc := add_epi16 pa pb
    let pa := abs_i16 pa
    let pb := abs_i16 pb
    let pc := abs_i16 pc
    let smallest := min_epi16 pc (min_epi16 pa pb)
    let nearest := if_then_else (cmpeq_epi16 smallest pa) a
      (if_then_else (cmpeq_epi16 smallest pb) b c)
    (b, add_epi8_words d nearest)
  pixel state := packus_epi16 state.2

section

variable {σ : Type} (k : Kernel σ)

/-- The loop over pixels of three bytes; the last one is loaded by `load3`. -/
def Kernel.defilter3 : σ → List Byte → List Byte → List Byte
  | s, prev, r0 :: r1 :: r2 :: row =>
      let load := if row = [] then load3 else load4
      let s := k.next s (load prev) (load (r0 :: r1 :: r2 :: row))
      let d := k.pixel s
      d.x0 :: d.x1 :: d.x2 :: defilter3 s (prev.drop 3) row
  | _, _, row => row

def Kernel.defilter4 : σ → List Byte → List Byte → List Byte
  | s, prev, r0 :: r1 :: r2 :: r3 :: row =>
      let s := k.next s (load4 prev) (load4 (r0 :: r1 :: r2 :: r3 :: row))
      let d := k.pixel s
      d.x0 :: d.x1 :: d.x2 :: d.x3 :: defilter4 s (prev.drop 4) row
  | _, _, row => row

end

def defilter_sub3 (row : List Byte) : List Byte := subKernel.defilter3 subKernel.start [] row
def defilter_sub4 (row : List Byte) : List Byte := subKernel.defilter4 subKernel.start [] row

def defilter_avg3 (row prev : List Byte) : List Byte :=
  avgKernel.defilter3 avgKernel.start prev row

def defilter_avg4 (row prev : List Byte) : List Byte :=
  avgKernel.defilter4 avgKernel.start prev row

def defilter_paeth3 (row prev : List Byte) : List Byte :=
  paethKernel.defilter3 paethKernel.start prev row

def defilter_paeth4 (row prev : List Byte) : List Byte :=
  paethKernel.defilter4 paethKernel.start prev row

/-- Pixels of three and four bytes are done by the vector versions. -/
def defilter_scanline (prev_scanline scanline : List Byte) (bytes_per_pixel filter : Nat) :
    Except Error (List Byte) :=
  if filter = PNG_FILTER_NONE then .ok scanline
  else if filter = PNG_FILTER_UP then .ok (defilter_up scanline prev_scanline)
  else if bytes_per_pixel = 4 then
    if filter = PNG_FILTER_SUB then .ok (defilter_sub4 scanline)
    else if filter = PNG_FILTER_AVERAGE then .ok (defilter_avg4 scanline prev_scanline)
    else if filter = PNG_FILTER_PAETH then .ok (defilter_paeth4 scanline prev_scanline)
    else .error .EFILTER
  else if bytes_per_pixel = 3 then
    if filter = PNG_FILTER_SUB then .ok (defilter_sub3 scanline)
    else if filter = PNG_FILTER_AVERAGE then .ok (defilter_avg3 scanline prev_scanline)
    else if filter = PNG_FILTER_PAETH then .ok (defilter_paeth3 scanline prev_scanline)
    else .error .EFILTER
  else .ok (defilterLoop filter bytes_per_pixel prev_scanline scanline.length 0 scanline)

/-! One lane. -/

theorem average_rounded_up (a b : Byte) :
    BitVec.ofNat 8 ((a.toNat + b.toNat + 1) / 2) - ((a ^^^ b) &&& 1) = average a b := by
  have low : ((a ^^^ b) &&& 1).toNat = (a.toNat + b.toNat) % 2 := by
    rw [BitVec.toNat_and, BitVec.toNat_xor]
    change (a.toNat ^^^ b.toNat) &&& 1 = _
    rw [Nat.and_one_is_mod, Nat.xor_mod_two_eq]
  have small := a.isLt
  have small' := b.isLt
  apply BitVec.eq_of_toNat_eq
  rw [average, BitVec.toNat_sub, low, BitVec.toNat_ofNat, BitVec.toNat_ofNat]
  omega

def absWord (x : Word) : Word := (x ^^^ mask (x.slt 0)) - mask (x.slt 0)

theorem absWord_toInt {x : Word} (inside : -32768 < x.toInt) :
    (absWord x).toInt = x.toInt.natAbs := by
  unfold absWord
  have sign : x.slt 0 = decide (x.toInt < 0) := rfl
  by_cases negative : x.toInt < 0
  · have flipped : (x ^^^ BitVec.allOnes 16) - BitVec.allOnes 16 = -x := by
      rw [BitVec.xor_allOnes, ← BitVec.neg_one_eq_allOnes, BitVec.sub_neg, BitVec.neg_eq_not_add]
    rw [sign, decide_eq_true negative, mask, if_pos rfl, flipped, BitVec.toInt_neg]
    have low := x.toInt_lt
    rw [Int.bmod_def]
    omega
  · have same : (x ^^^ (0 : Word)) - 0 = x := by simp
    rw [sign, decide_eq_false negative, mask, if_neg (by simp), same]
    omega

theorem word_toInt (a : Byte) : (a.setWidth 16).toInt = a.toNat := by
  have small := a.isLt
  rw [BitVec.toInt_setWidth, Int.bmod_def]
  omega

theorem sub_word_toInt (a b : Byte) :
    (a.setWidth 16 - b.setWidth 16).toInt = (a.toNat : Int) - b.toNat := by
  have small := a.isLt
  have small' := b.isLt
  rw [BitVec.toInt_sub, word_toInt, word_toInt, Int.bmod_def]
  omega

def minWord (a b : Word) : Word := if a.slt b then a else b

theorem minWord_toInt (a b : Word) : (minWord a b).toInt = min a.toInt b.toInt := by
  unfold minWord
  rw [BitVec.slt_eq_decide]
  by_cases less : a.toInt < b.toInt
  · rw [if_pos (decide_eq_true less)]
    omega
  · rw [if_neg (by simpa using less)]
    omega

def ifWord (c t e : Word) : Word := (c &&& t) ||| (~~~c &&& e)

theorem ifWord_mask (b : Bool) (t e : Word) : ifWord (mask b) t e = if b then t else e := by
  have none_ : (0 : Word) = 0#16 := rfl
  unfold ifWord mask
  cases b with
  | false =>
    rw [if_neg (by simp), if_neg (by simp), none_, BitVec.zero_and, BitVec.not_zero,
      BitVec.allOnes_and, BitVec.zero_or]
  | true =>
    rw [if_pos rfl, if_pos rfl, BitVec.allOnes_and, BitVec.not_allOnes, BitVec.zero_and,
      BitVec.or_zero]

def nearestWord (a b c : Word) : Word :=
  let pa := absWord (b - c)
  let pb := absWord (a - c)
  let pc := absWord ((b - c) + (a - c))
  let smallest := minWord pc (minWord pa pb)
  ifWord (mask (smallest == pa)) a (ifWord (mask (smallest == pb)) b c)

theorem nearestWord_eq (a b c : Byte) :
    nearestWord (a.setWidth 16) (b.setWidth 16) (c.setWidth 16) = (paeth a b c).setWidth 16 := by
  unfold nearestWord
  extract_lets pa pb pc smallest
  have ba := a.isLt
  have bb := b.isLt
  have bc := c.isLt
  have pa_ : pa.toInt = ((b.toNat : Int) - c.toNat).natAbs := by
    rw [← sub_word_toInt b c]
    exact absWord_toInt (by rw [sub_word_toInt]; omega)
  have pb_ : pb.toInt = ((a.toNat : Int) - c.toNat).natAbs := by
    rw [← sub_word_toInt a c]
    exact absWord_toInt (by rw [sub_word_toInt]; omega)
  have sum : ((b.setWidth 16 - c.setWidth 16) + (a.setWidth 16 - c.setWidth 16) : Word).toInt =
      (b.toNat : Int) - c.toNat + (a.toNat - c.toNat) := by
    rw [BitVec.toInt_add, sub_word_toInt, sub_word_toInt, Int.bmod_def]
    omega
  have pc_ : pc.toInt = ((b.toNat : Int) - c.toNat + (a.toNat - c.toNat)).natAbs := by
    rw [← sum]
    exact absWord_toInt (by rw [sum]; omega)
  have smallest_ : smallest.toInt = min pc.toInt (min pa.toInt pb.toInt) := by
    rw [← minWord_toInt, ← minWord_toInt]
  have first : (smallest == pa) = decide (pa.toInt ≤ pb.toInt ∧ pa.toInt ≤ pc.toInt) := by
    rw [beq_eq_decide, decide_eq_decide, ← BitVec.toInt_inj, smallest_]
    omega
  have second : (smallest == pb) = decide (pb.toInt ≤ pa.toInt ∧ pb.toInt ≤ pc.toInt) := by
    rw [beq_eq_decide, decide_eq_decide, ← BitVec.toInt_inj, smallest_]
    omega
  rw [ifWord_mask, ifWord_mask, first, second, pa_, pb_, pc_, paeth]
  simp only [decide_eq_true_eq]
  split
  next nearest => rw [if_pos (by omega)]
  next other =>
    split
    next nearest => rw [if_neg (by omega), if_pos (by omega)]
    next third => rw [if_neg (by omega), if_neg (by omega)]

def addWord (a b : Word) : Word :=
  ((a >>> 8).setWidth 8 + (b >>> 8).setWidth 8 : Byte) ++ (a.setWidth 8 + b.setWidth 8 : Byte)

theorem addWord_eq (a b : Byte) :
    addWord (a.setWidth 16) (b.setWidth 16) = (a + b).setWidth 16 := by
  have high (x : Byte) : (x.setWidth 16 >>> 8).setWidth 8 = (0 : Byte) := by
    have small := x.isLt
    apply BitVec.eq_of_toNat_eq
    rw [BitVec.toNat_setWidth, BitVec.toNat_ushiftRight, BitVec.toNat_setWidth,
      Nat.shiftRight_eq_div_pow]
    change _ = 0
    omega
  have low (x : Byte) : (x.setWidth 16).setWidth 8 = x := by simp
  rw [addWord, high, high, low, low]
  apply BitVec.eq_of_toNat_eq
  have small := (a + b).isLt
  rw [BitVec.toNat_append, BitVec.toNat_setWidth]
  simp only [BitVec.ofNat_eq_ofNat, BitVec.add_zero, BitVec.toNat_ofNat, Nat.zero_mod,
    Nat.zero_shiftLeft, Nat.zero_or]
  omega

theorem packus_word (a : Byte) :
    (if (a.setWidth 16 : Word).toInt < 0 then (0 : Byte)
      else if 255 < (a.setWidth 16 : Word).toInt then 255 else (a.setWidth 16).setWidth 8) = a := by
  have small := a.isLt
  rw [word_toInt, if_neg (by omega), if_neg (by omega)]
  simp

/-! A whole line. -/

def predictions (filter : Nat) (a p c : Lanes Byte) : Lanes Byte :=
  ⟨prediction filter a.x0 p.x0 c.x0, prediction filter a.x1 p.x1 c.x1,
    prediction filter a.x2 p.x2 c.x2, prediction filter a.x3 p.x3 c.x3⟩

/-- The state `s` stands for the pixel `a` on the left and the one above it, `c`, and the loop
    adds the prediction from these to the raw pixel. -/
structure Kernel.Predicts {σ : Type} (k : Kernel σ) (filter : Nat)
    (Stands : σ → Lanes Byte → Lanes Byte → Prop) : Prop where
  start : Stands k.start (set1 0) (set1 0)
  next : ∀ s a c p r, Stands s a c →
    Stands (k.next s p r) (map2 (· + ·) r (predictions filter a p c)) p
  pixel : ∀ s a c, Stands s a c → k.pixel s = a

theorem subKernel_predicts : subKernel.Predicts PNG_FILTER_SUB fun s a _ => s = a where
  start := rfl
  next := by
    intro s a c p r here
    subst here
    rfl
  pixel := fun _ _ _ here => here

theorem avgKernel_predicts : avgKernel.Predicts PNG_FILTER_AVERAGE fun s a _ => s = a where
  start := rfl
  next := by
    intro s a c p r here
    subst here
    have lane (x y z : Byte) :
        x + (BitVec.ofNat 8 ((y.toNat + z.toNat + 1) / 2) - ((y ^^^ z) &&& 1)) =
          x + average y z := by rw [average_rounded_up]
    simp only [avgKernel, add_epi8, sub_epi8, avg_epu8, and_epi8, xor_epi8, map2, set1, lane]
    rfl
  pixel := fun _ _ _ here => here

theorem abs_i16_lanes (x : Lanes Word) : abs_i16 x = map absWord x := rfl

theorem min_epi16_lanes (a b : Lanes Word) : min_epi16 a b = map2 minWord a b := rfl

theorem add_epi8_words_lanes (a b : Lanes Word) : add_epi8_words a b = map2 addWord a b := rfl

theorem if_then_else_lanes (c t e : Lanes Word) : if_then_else c t e =
    ⟨ifWord c.x0 t.x0 e.x0, ifWord c.x1 t.x1 e.x1, ifWord c.x2 t.x2 e.x2,
      ifWord c.x3 t.x3 e.x3⟩ := rfl

theorem paethKernel_predicts : paethKernel.Predicts PNG_FILTER_PAETH
    fun s a c => s = (unpacklo_epi8 c, unpacklo_epi8 a) where
  start := rfl
  next := by
    intro s a c p r here
    subst here
    have lane (a b c d : Byte) : addWord (d.setWidth 16)
        (nearestWord (a.setWidth 16) (b.setWidth 16) (c.setWidth 16)) =
          (d + paeth a b c).setWidth 16 := by rw [nearestWord_eq, addWord_eq]
    simp only [nearestWord] at lane
    simp only [paethKernel, abs_i16_lanes, min_epi16_lanes, if_then_else_lanes,
      add_epi8_words_lanes, cmpeq_epi16, add_epi16, sub_epi16, unpacklo_epi8, map, map2, lane]
    rfl
  pixel := by
    intro s a c here
    subst here
    simp only [paethKernel, packus_epi16, unpacklo_epi8, map, packus_word]

theorem getD_tail (p : List Byte) (i : Nat) : p.tail.getD i 0 = p.getD (i + 1) 0 := by
  rw [List.getD_eq_getElem?_getD, List.getD_eq_getElem?_getD, List.getElem?_tail]

theorem Defiltered.cons {filter : Nat} {x y r new : Byte} {a c prev raw row : List Byte}
    (new_ : new = r + prediction filter x (prev.getD 0 0) y)
    (h : Defiltered filter (a ++ [new]) (c ++ [prev.getD 0 0]) prev.tail raw row) :
    Defiltered filter (x :: a) (y :: c) prev (r :: raw) (new :: row) where
  length := by rw [List.length_cons, List.length_cons, h.length]
  byte := by
    intro i inside
    cases i with
    | zero => simpa using new_
    | succ i =>
      have here := h.byte i (by simpa using inside)
      have above : (c ++ prev).getD i 0 = (c ++ [prev.getD 0 0] ++ prev.tail).getD i 0 := by
        cases prev with
        | nil =>
          by_cases inside : i < c.length
          · rw [List.append_nil, List.tail_nil, List.append_nil,
              List.getD_append _ _ _ _ inside]
          · rw [List.append_nil, List.getD_eq_default _ _ (by omega)]
            by_cases last : i = c.length
            · simp [last]
            · rw [List.getD_eq_default _ _ (by simp; omega)]
        | cons p prev => simp
      rw [List.getD_cons_succ, List.getD_cons_succ, List.cons_append, List.getD_cons_succ,
        List.cons_append, List.getD_cons_succ, above, ← getD_tail, here]
      simp

section

variable {σ : Type} {k : Kernel σ} {filter : Nat} {Stands : σ → Lanes Byte → Lanes Byte → Prop}

theorem Kernel.Predicts.defilter3_defiltered (right : k.Predicts filter Stands) {s : σ}
    {a c : Lanes Byte} (here : Stands s a c) {prev raw : List Byte} (whole : 3 ∣ raw.length) :
    Defiltered filter [a.x0, a.x1, a.x2] [c.x0, c.x1, c.x2] prev raw
      (k.defilter3 s prev raw) := by
  induction s, prev, raw using Kernel.defilter3.induct k generalizing a c with
  | case1 s prev r0 r1 r2 row load =>
    rename_i next ih
    have step := right.next s a c (load prev) (load (r0 :: r1 :: r2 :: row)) here
    have rest := ih step (by simp only [List.length_cons] at whole; omega)
    rw [Kernel.defilter3, right.pixel _ _ _ step]
    have lanes (p : List Byte) : (load p).x0 = p.getD 0 0 ∧ (load p).x1 = p.getD 1 0 ∧
        (load p).x2 = p.getD 2 0 := by
      have cases_ : load = load3 ∨ load = load4 := by
        by_cases last : row = []
        · exact .inl (if_pos last)
        · exact .inr (if_neg last)
      obtain h | h := cases_ <;> rw [h] <;> exact ⟨rfl, rfl, rfl⟩
    obtain ⟨h0, h1, h2⟩ := lanes prev
    obtain ⟨r0_, r1_, r2_⟩ := lanes (r0 :: r1 :: r2 :: row)
    have drop : prev.tail.tail.tail = prev.drop 3 := by simp [← List.drop_one]
    refine Defiltered.cons (by rw [← h0]; exact congrArg (· + _) r0_) ?_
    refine Defiltered.cons (by rw [getD_tail, ← h1]; exact congrArg (· + _) r1_) ?_
    refine Defiltered.cons (by rw [getD_tail, getD_tail, ← h2]; exact congrArg (· + _) r2_) ?_
    rw [getD_tail, getD_tail, getD_tail, ← h0, ← h1, ← h2, drop]
    exact rest
  | case2 s prev row other =>
    have none_ : row = [] := by
      match row, other, whole with
      | [], _, _ => rfl
      | [_], _, whole => simp at whole
      | [_, _], _, whole => simp at whole
      | _ :: _ :: _ :: _, other, _ => exact absurd rfl (other _ _ _ _)
    subst none_
    rw [Kernel.defilter3]
    · exact ⟨rfl, fun _ inside => absurd inside (Nat.not_lt_zero _)⟩
    · simp

theorem Kernel.Predicts.defilter4_defiltered (right : k.Predicts filter Stands) {s : σ}
    {a c : Lanes Byte} (here : Stands s a c) {prev raw : List Byte} (whole : 4 ∣ raw.length) :
    Defiltered filter [a.x0, a.x1, a.x2, a.x3] [c.x0, c.x1, c.x2, c.x3] prev raw
      (k.defilter4 s prev raw) := by
  induction s, prev, raw using Kernel.defilter4.induct k generalizing a c with
  | case1 s prev r0 r1 r2 r3 row =>
    rename_i next ih
    have step := right.next s a c (load4 prev) (load4 (r0 :: r1 :: r2 :: r3 :: row)) here
    have rest := ih step (by simp only [List.length_cons] at whole; omega)
    rw [Kernel.defilter4, right.pixel _ _ _ step]
    have drop : prev.tail.tail.tail.tail = prev.drop 4 := by simp [← List.drop_one]
    refine Defiltered.cons rfl ?_
    refine Defiltered.cons (by rw [getD_tail]; rfl) ?_
    refine Defiltered.cons (by rw [getD_tail, getD_tail]; rfl) ?_
    refine Defiltered.cons (by rw [getD_tail, getD_tail, getD_tail]; rfl) ?_
    rw [getD_tail, getD_tail, getD_tail, getD_tail, getD_tail, getD_tail, drop]
    exact rest
  | case2 s prev row other =>
    have none_ : row = [] := by
      match row, other, whole with
      | [], _, _ => rfl
      | [_], _, whole => simp at whole
      | [_, _], _, whole => simp at whole
      | [_, _, _], _, whole => simp at whole
      | _ :: _ :: _ :: _ :: _, other, _ => exact absurd rfl (other _ _ _ _ _)
    subst none_
    rw [Kernel.defilter4]
    · exact ⟨rfl, fun _ inside => absurd inside (Nat.not_lt_zero _)⟩
    · simp

theorem Kernel.Predicts.line3 (right : k.Predicts filter Stands) {prev raw : List Byte}
    (whole : 3 ∣ raw.length) :
    Defiltered filter (noPixel 3) (noPixel 3) prev raw (k.defilter3 k.start prev raw) :=
  right.defilter3_defiltered right.start whole

theorem Kernel.Predicts.line4 (right : k.Predicts filter Stands) {prev raw : List Byte}
    (whole : 4 ∣ raw.length) :
    Defiltered filter (noPixel 4) (noPixel 4) prev raw (k.defilter4 k.start prev raw) :=
  right.defilter4_defiltered right.start whole

end

theorem Defiltered.sub_above {a c c' prev prev' raw row : List Byte}
    (h : Defiltered PNG_FILTER_SUB a c prev raw row) :
    Defiltered PNG_FILTER_SUB a c' prev' raw row := ⟨h.length, h.byte⟩

theorem defilter_scanline_defiltered {filter bytes_per_pixel : Nat} (prev : List Byte)
    {raw : List Byte} (known : filter ≤ 4) (some_ : filter ≠ PNG_FILTER_NONE) (positive : 0 < bytes_per_pixel)
    (whole : bytes_per_pixel ∣ raw.length) :
    ∃ row, defilter_scanline prev raw bytes_per_pixel filter = .ok row ∧
      Defiltered filter (noPixel bytes_per_pixel) (noPixel bytes_per_pixel) prev raw row := by
  rw [defilter_scanline, if_neg some_]
  by_cases up : filter = PNG_FILTER_UP
  · rw [if_pos up, up]
    exact ⟨_, rfl, defilter_up_defiltered _ _ _⟩
  have kinds : filter = PNG_FILTER_SUB ∨ filter = PNG_FILTER_AVERAGE ∨
      filter = PNG_FILTER_PAETH := by
    unfold PNG_FILTER_NONE PNG_FILTER_UP PNG_FILTER_SUB PNG_FILTER_AVERAGE
      PNG_FILTER_PAETH at *
    omega
  rw [if_neg up]
  by_cases four : bytes_per_pixel = 4
  · subst four
    rw [if_pos rfl]
    obtain kind | kind | kind := kinds <;> subst kind
    · exact ⟨_, rfl, (subKernel_predicts.line4 whole).sub_above⟩
    · exact ⟨_, rfl, avgKernel_predicts.line4 whole⟩
    · exact ⟨_, rfl, paethKernel_predicts.line4 whole⟩
  rw [if_neg four]
  by_cases three : bytes_per_pixel = 3
  · subst three
    rw [if_pos rfl]
    obtain kind | kind | kind := kinds <;> subst kind
    · exact ⟨_, rfl, (subKernel_predicts.line3 whole).sub_above⟩
    · exact ⟨_, rfl, avgKernel_predicts.line3 whole⟩
    · exact ⟨_, rfl, paethKernel_predicts.line3 whole⟩
  rw [if_neg three]
  exact ⟨_, rfl, defilterLoop_defiltered positive prev raw⟩

/-- The vector versions do what the plain loop does. -/
theorem defilter_scanline_eq_loop {filter bytes_per_pixel : Nat} {prev raw : List Byte}
    (known : filter ≤ 4) (some_ : filter ≠ PNG_FILTER_NONE) (positive : 0 < bytes_per_pixel)
    (whole : bytes_per_pixel ∣ raw.length) :
    defilter_scanline prev raw bytes_per_pixel filter =
      .ok (defilterLoop filter bytes_per_pixel prev raw.length 0 raw) := by
  obtain ⟨row, ok, right⟩ := defilter_scanline_defiltered prev known some_ positive whole
  have pixel : noPixel bytes_per_pixel ≠ [] := by
    rw [noPixel, Ne, List.replicate_eq_nil_iff]
    omega
  rw [ok, right.unique pixel (defilterLoop_defiltered positive prev raw)]

theorem defilter_scanline_eq_loop_pixels :
    defilter_scanline [9, 8, 7, 6, 5, 4, 3, 2] [1, 200, 3, 4, 250, 6, 7, 128] 4 4 =
      .ok (defilterLoop 4 4 [9, 8, 7, 6, 5, 4, 3, 2] 8 0 [1, 200, 3, 4, 250, 6, 7, 128]) :=
  defilter_scanline_eq_loop (by decide) (by decide) (by decide) (by decide)

theorem filter_scanline_length {filtered prev scanline raw : List Byte}
    {bytes_per_pixel filter : Nat} (some_ : filter ≠ PNG_FILTER_NONE)
    (ok : filter_scanline filtered prev scanline bytes_per_pixel filter = .ok raw) :
    raw.length = scanline.length := (filter_defiltered some_ ok).length.symm

end Png
