import Mathlib.Algebra.Order.Ring.Int
import Mathlib.Data.List.GetD
import Mathlib.Tactic.Common

/-!
The filters of a PNG scanline. A scanline is the list of its bytes without the filter byte; what
the buffers hold behind it is left out.
-/
namespace Png

abbrev Byte := BitVec 8

inductive Error where
  | EINTERNAL | EOVERFLOW | EFILTER | EBUFSIZ | EIDAT_TOO_SHORT | ENOPLTE
  deriving DecidableEq, Repr

def PNG_FILTER_NONE : Nat := 0
def PNG_FILTER_SUB : Nat := 1
def PNG_FILTER_UP : Nat := 2
def PNG_FILTER_AVERAGE : Nat := 3
def PNG_FILTER_PAETH : Nat := 4

def paeth (a b c : Byte) : Byte :=
  let p : Int := a.toNat + b.toNat - c.toNat
  let pa := (p - a.toNat).natAbs
  let pb := (p - b.toNat).natAbs
  let pc := (p - c.toNat).natAbs
  if pa ≤ pb ∧ pa ≤ pc then a else if pb ≤ pc then b else c

def average (a b : Byte) : Byte := BitVec.ofNat 8 ((a.toNat + b.toNat) / 2)

/-- What the switch of each filter loop takes off a byte or adds to it, from the byte `a` on the
    left, `b` above and `c` above on the left. -/
def prediction (filter : Nat) (a b c : Byte) : Byte :=
  match filter with
  | 1 => a
  | 2 => b
  | 3 => average a b
  | 4 => paeth a b c
  | _ => 0

def leftOf (bytes_per_pixel : Nat) (row : List Byte) (i : Nat) : Byte :=
  if bytes_per_pixel ≤ i then row.getD (i - bytes_per_pixel) 0 else 0

def predicted (filter bytes_per_pixel : Nat) (prev row : List Byte) (i : Nat) : Byte :=
  prediction filter (leftOf bytes_per_pixel row i) (prev.getD i 0) (leftOf bytes_per_pixel prev i)

/-- It writes to the buffer `filtered`, which it leaves as it is where there is no filter. -/
def filter_scanline (filtered prev_scanline scanline : List Byte) (bytes_per_pixel filter : Nat) :
    Except Error (List Byte) :=
  if scanline = [] then .error .EINTERNAL
  else if 4 < filter then .error .EFILTER
  else if filter = PNG_FILTER_NONE then .ok filtered
  else .ok ((List.range scanline.length).map fun i =>
    scanline.getD i 0 - predicted filter bytes_per_pixel prev_scanline scanline i)

def INT32_MAX : Int := 2147483647

def filter_sum (prev_scanline scanline : List Byte) (bytes_per_pixel filter : Nat) : Int :=
  if INT32_MAX / 128 < scanline.length then INT32_MAX
  else ((List.range scanline.length).map fun i =>
    let x := scanline.getD i 0 - predicted filter bytes_per_pixel prev_scanline scanline i
    128 - (((x.toNat : Int) - 128).natAbs : Int)).sum

def PNG_DISABLE_FILTERING : Nat := 0
def PNG_FILTER_CHOICE_NONE : Nat := 8
def PNG_FILTER_CHOICE_UP : Nat := 32
def PNG_FILTER_CHOICE_AVG : Nat := 64
def PNG_FILTER_CHOICE_PAETH : Nat := 128

def chooseLoop (prev_scanline scanline : List Byte) (bytes_per_pixel choices : Nat) :
    List Nat → Nat → Int → Nat
  | [], best_filter, _ => best_filter
  | i :: filters, best_filter, best_score =>
      if choices &&& 1 <<< (i + 3) = 0 then
        chooseLoop prev_scanline scanline bytes_per_pixel choices filters best_filter best_score
      else
        let score : Int := (filter_sum prev_scanline scanline bytes_per_pixel i).natAbs
        if score < best_score then
          chooseLoop prev_scanline scanline bytes_per_pixel choices filters i score
        else
          chooseLoop prev_scanline scanline bytes_per_pixel choices filters best_filter best_score

def onlyFilter (choices : Nat) : Option Nat :=
  if choices &&& (choices - 1) = 0 then
    (List.range 5).find? fun i => choices = 1 <<< (i + 3)
  else none

def get_best_filter (prev_scanline scanline : List Byte) (bytes_per_pixel choices : Nat) : Nat :=
  if choices = PNG_DISABLE_FILTERING then PNG_FILTER_NONE
  else
    match onlyFilter choices with
    | some i => i
    | none => chooseLoop prev_scanline scanline bytes_per_pixel choices (List.range 5)
        PNG_FILTER_NONE INT32_MAX

def defilter_up (row prev : List Byte) : List Byte :=
  (List.range row.length).map fun i => row.getD i 0 + prev.getD i 0

/-- The loop of `defilter_scanline` from the byte `i` on, in place. -/
def defilterLoop (filter bytes_per_pixel : Nat) (prev_scanline : List Byte) :
    Nat → Nat → List Byte → List Byte
  | 0, _, scanline => scanline
  | left + 1, i, scanline =>
      defilterLoop filter bytes_per_pixel prev_scanline left (i + 1)
        (scanline.set i (scanline.getD i 0 +
          predicted filter bytes_per_pixel prev_scanline scanline i))

/-! What defiltering has to yield. -/

/-- The bytes behind `a`, from the raw ones and the line above with `c` before it: each one is
    the raw byte and the prediction from its neighbours. -/
structure Defiltered (filter : Nat) (a c prev raw row : List Byte) : Prop where
  length : row.length = raw.length
  byte : ∀ i < raw.length, row.getD i 0 =
    raw.getD i 0 + prediction filter ((a ++ row).getD i 0) (prev.getD i 0) ((c ++ prev).getD i 0)

def noPixel (bytes_per_pixel : Nat) : List Byte := List.replicate bytes_per_pixel 0

theorem noPixel_append_getD (bytes_per_pixel : Nat) (row : List Byte) (i : Nat) :
    (noPixel bytes_per_pixel ++ row).getD i 0 = leftOf bytes_per_pixel row i := by
  unfold leftOf noPixel
  by_cases inside : bytes_per_pixel ≤ i
  · rw [if_pos inside, List.getD_append_right _ _ _ _ (by simpa using inside)]
    simp
  · rw [if_neg inside, List.getD_append _ _ _ _ (by simpa using inside)]
    exact List.getD_replicate _ (by omega)

theorem defiltered_iff {filter bytes_per_pixel : Nat} {prev raw row : List Byte} :
    Defiltered filter (noPixel bytes_per_pixel) (noPixel bytes_per_pixel) prev raw row ↔
      row.length = raw.length ∧ ∀ i < raw.length,
        row.getD i 0 = raw.getD i 0 + predicted filter bytes_per_pixel prev row i := by
  constructor
  · intro h
    refine ⟨h.length, fun i inside => ?_⟩
    rw [h.byte i inside, noPixel_append_getD, noPixel_append_getD, predicted]
  · intro h
    refine ⟨h.1, fun i inside => ?_⟩
    rw [h.2 i inside, noPixel_append_getD, noPixel_append_getD, predicted]

theorem Defiltered.unique {filter : Nat} {a c prev raw row row' : List Byte} (some_ : a ≠ [])
    (h : Defiltered filter a c prev raw row) (h' : Defiltered filter a c prev raw row') :
    row = row' := by
  have same : ∀ i, row.getD i 0 = row'.getD i 0 := by
    intro i
    induction i using Nat.strongRecOn with
    | ind i ih =>
      by_cases inside : i < raw.length
      · have left : (a ++ row).getD i 0 = (a ++ row').getD i 0 := by
          by_cases first : i < a.length
          · rw [List.getD_append _ _ _ _ first, List.getD_append _ _ _ _ first]
          · have positive := List.length_pos_iff.mpr some_
            rw [List.getD_append_right _ _ _ _ (by omega),
              List.getD_append_right _ _ _ _ (by omega)]
            exact ih _ (by omega)
        rw [h.byte i inside, h'.byte i inside, left]
      · rw [List.getD_eq_default _ _ (by rw [h.length]; omega),
          List.getD_eq_default _ _ (by rw [h'.length]; omega)]
  refine List.ext_getElem (h.length.trans h'.length.symm) fun i inside inside' => ?_
  have here := same i
  rwa [List.getD_eq_getElem _ _ inside, List.getD_eq_getElem _ _ inside'] at here

theorem filter_defiltered {filtered prev scanline raw : List Byte}
    {bytes_per_pixel filter : Nat} (some_ : filter ≠ PNG_FILTER_NONE)
    (ok : filter_scanline filtered prev scanline bytes_per_pixel filter = .ok raw) :
    Defiltered filter (noPixel bytes_per_pixel) (noPixel bytes_per_pixel) prev raw scanline := by
  unfold filter_scanline at ok
  split at ok
  next => cases ok
  split at ok
  next => cases ok
  cases ok
  refine defiltered_iff.mpr ⟨by simp, fun i inside => ?_⟩
  simp only [List.length_map, List.length_range] at inside
  rw [List.getD_eq_getElem ((List.range scanline.length).map _) _ (by simpa using inside),
    List.getElem_map, List.getElem_range, BitVec.sub_add_cancel]

theorem defilter_up_defiltered (bytes_per_pixel : Nat) (prev raw : List Byte) :
    Defiltered PNG_FILTER_UP (noPixel bytes_per_pixel) (noPixel bytes_per_pixel) prev raw
      (defilter_up raw prev) := by
  refine ⟨by simp [defilter_up], fun i inside => ?_⟩
  rw [List.getD_eq_getElem (defilter_up raw prev) _ (by simpa [defilter_up] using inside)]
  simp [defilter_up, prediction, PNG_FILTER_UP]

theorem defilterLoop_length {filter bytes_per_pixel : Nat} {prev : List Byte} {left i : Nat}
    {row : List Byte} :
    (defilterLoop filter bytes_per_pixel prev left i row).length = row.length := by
  induction left generalizing i row with
  | zero => rfl
  | succ left ih => rw [defilterLoop, ih, List.length_set]

theorem defilterLoop_byte {filter bytes_per_pixel : Nat} (positive : 0 < bytes_per_pixel)
    {prev raw : List Byte} {left i : Nat} {row : List Byte} (end_ : i + left = row.length)
    (behind : ∀ j < i, row.getD j 0 = raw.getD j 0 +
      predicted filter bytes_per_pixel prev row j)
    (ahead : ∀ j, i ≤ j → row.getD j 0 = raw.getD j 0) :
    ∀ j < row.length,
      (defilterLoop filter bytes_per_pixel prev left i row).getD j 0 = raw.getD j 0 +
        predicted filter bytes_per_pixel prev
          (defilterLoop filter bytes_per_pixel prev left i row) j := by
  induction left generalizing i row with
  | zero =>
    intro j inside
    exact behind j (by omega)
  | succ left ih =>
    rw [defilterLoop]
    have room : i < row.length := by omega
    -- Setting the byte `i` changes no byte left of `i`.
    have left_ (new : Byte) (j : Nat) (here : j ≤ i) :
        predicted filter bytes_per_pixel prev (row.set i new) j =
          predicted filter bytes_per_pixel prev row j := by
      have same : leftOf bytes_per_pixel (row.set i new) j = leftOf bytes_per_pixel row j := by
        unfold leftOf
        split
        · rw [List.getD_eq_getElem?_getD, List.getElem?_set_ne (by omega),
            ← List.getD_eq_getElem?_getD]
        · rfl
      rw [predicted, predicted, same]
    generalize new_ : row.getD i 0 + predicted filter bytes_per_pixel prev row i = new
    have next := @ih (i + 1) (row.set i new) (by rw [List.length_set]; omega) ?_ ?_
    · rwa [List.length_set] at next
    · intro j before
      rw [left_ new j (by omega)]
      by_cases same : j = i
      · subst same
        rw [List.getD_eq_getElem _ _ (by simpa using room), List.getElem_set_self, ← new_,
          ahead j (Nat.le_refl _)]
      · rw [List.getD_eq_getElem?_getD, List.getElem?_set_ne (Ne.symm same),
          ← List.getD_eq_getElem?_getD]
        exact behind j (by omega)
    · intro j after
      rw [List.getD_eq_getElem?_getD, List.getElem?_set_ne (by omega),
        ← List.getD_eq_getElem?_getD]
      exact ahead j (by omega)

theorem defilterLoop_defiltered {filter bytes_per_pixel : Nat} (positive : 0 < bytes_per_pixel)
    (prev raw : List Byte) :
    Defiltered filter (noPixel bytes_per_pixel) (noPixel bytes_per_pixel) prev raw
      (defilterLoop filter bytes_per_pixel prev raw.length 0 raw) := by
  refine defiltered_iff.mpr ⟨defilterLoop_length, fun i inside => ?_⟩
  exact defilterLoop_byte positive (Nat.zero_add _) (by omega) (fun _ _ => rfl) i inside

/-! The filter that the encoder picks. -/

theorem chooseLoop_picks {prev line : List Byte} {bytes_per_pixel choices : Nat}
    {filters : List Nat} {best : Nat} {score : Int} :
    chooseLoop prev line bytes_per_pixel choices filters best score = best ∨
      (chooseLoop prev line bytes_per_pixel choices filters best score ∈ filters ∧
        choices &&& 1 <<< (chooseLoop prev line bytes_per_pixel choices filters best score + 3) ≠
          0) := by
  induction filters generalizing best score with
  | nil => exact .inl rfl
  | cons i filters ih =>
    have later {best : Nat} {score : Int} :
        chooseLoop prev line bytes_per_pixel choices filters best score = best ∨
          (chooseLoop prev line bytes_per_pixel choices filters best score ∈ i :: filters ∧
            choices &&&
              1 <<< (chooseLoop prev line bytes_per_pixel choices filters best score + 3) ≠ 0) := by
      obtain same | ⟨member, chosen⟩ := @ih best score
      · exact .inl same
      · exact .inr ⟨List.mem_cons_of_mem _ member, chosen⟩
    rw [chooseLoop]
    split
    next => exact later
    next chosen =>
      extract_lets score'
      split
      next =>
        obtain same | there := @later i score'
        · rw [same]
          exact .inr ⟨List.mem_cons_self, chosen⟩
        · exact .inr there
      next => exact later

theorem get_best_filter_picks (prev line : List Byte) (bytes_per_pixel choices : Nat) :
    get_best_filter prev line bytes_per_pixel choices = PNG_FILTER_NONE ∨
      (get_best_filter prev line bytes_per_pixel choices < 5 ∧
        choices &&& 1 <<< (get_best_filter prev line bytes_per_pixel choices + 3) ≠ 0) := by
  unfold get_best_filter
  split
  next => exact .inl rfl
  next some_ =>
    cases found : onlyFilter choices with
    | some i =>
      unfold onlyFilter at found
      split at found
      next =>
        have chosen : choices = 1 <<< (i + 3) := by simpa using List.find?_some found
        refine .inr ⟨List.mem_range.mp (List.mem_of_find?_eq_some found), ?_⟩
        change choices &&& 1 <<< (i + 3) ≠ 0
        rw [← chosen, Nat.and_self]
        exact some_
      next => cases found
    | none =>
      obtain same | ⟨member, chosen⟩ := @chooseLoop_picks prev line bytes_per_pixel choices
        (List.range 5) PNG_FILTER_NONE INT32_MAX
      · exact .inl same
      · exact .inr ⟨List.mem_range.mp member, chosen⟩

theorem get_best_filter_le (prev line : List Byte) (bytes_per_pixel choices : Nat) :
    get_best_filter prev line bytes_per_pixel choices ≤ 4 := by
  obtain none_ | ⟨less, _⟩ := get_best_filter_picks prev line bytes_per_pixel choices
  · rw [none_]
    exact Nat.zero_le 4
  · omega

end Png
