import Mathlib.Tactic.Common
import Mathlib.Data.List.Basic

/-!
Rasters, row after row in one memory. A read, a write or a copy that leaves its memory has
no result, and neither has a loop with such a step.
-/
namespace Raster

universe u
variable {σ α : Type u}

def loop (step : Nat → σ → Option σ) : Nat → σ → Option σ
  | 0, s => some s
  | n + 1, s => (loop step n s).bind (step n)

def load (mem : List α) (i : Int) : Option α := if 0 ≤ i then mem[i.toNat]? else none

def store (mem : List α) (i : Int) (v : α) : Option (List α) :=
  if 0 ≤ i ∧ i < mem.length then some (mem.set i.toNat v) else none

def memcpy (dst : List α) (at' : Int) (src : List α) (start len : Int) : Option (List α) :=
  if (0 ≤ len ∧ 0 ≤ at' ∧ at' + len ≤ dst.length) ∧ 0 ≤ start ∧ start + len ≤ src.length then
    some (dst.take at'.toNat ++ (src.drop start.toNat).take len.toNat ++
      dst.drop (at' + len).toNat)
  else none

section Loops

variable {step : Nat → σ → Option σ} {n : Nat} {s : σ}

theorem loop_spec (inv : Nat → σ → Prop) (start : inv 0 s)
    (next : ∀ i < n, ∀ s, inv i s → ∃ s', step i s = some s' ∧ inv (i + 1) s') :
    ∃ s', loop step n s = some s' ∧ inv n s' := by
  induction n with
  | zero => exact ⟨s, rfl, start⟩
  | succ n ih =>
    obtain ⟨s', run, here⟩ := ih fun i less => next i (by omega)
    obtain ⟨s'', stepped, there⟩ := next n (by omega) s' here
    refine ⟨s'', ?_, there⟩
    rw [loop, run]
    exact stepped

theorem loop_keeps (inv : Nat → σ → Prop) {t : σ} (start : inv 0 s)
    (next : ∀ i < n, ∀ s s', inv i s → step i s = some s' → inv (i + 1) s')
    (run : loop step n s = some t) : inv n t := by
  induction n generalizing t with
  | zero =>
    cases run
    exact start
  | succ n ih =>
    rw [loop, Option.bind_eq_some_iff] at run
    obtain ⟨mid, first, last⟩ := run
    exact next n (by omega) mid t (ih (fun i less => next i (by omega)) first) last

theorem loop_none (stuck : step 0 s = none) (some' : 0 < n) : loop step n s = none := by
  induction n with
  | zero => omega
  | succ n ih =>
    rw [loop]
    cases n with
    | zero => exact stuck
    | succ n => rw [ih (by omega), Option.bind_none]

end Loops

section Rows

variable {c r w width i : Nat}

theorem mem_row (inside : c + w ≤ width) :
    (c + r * width ≤ i ∧ i < c + w + r * width) ↔
      i / width = r ∧ c ≤ i % width ∧ i % width < c + w := by
  have parts := Nat.div_add_mod i width
  rw [Nat.mul_comm] at parts
  constructor
  · rintro ⟨low, high⟩
    have row : i / width = r := by
      apply Nat.div_eq_of_lt_le
      · omega
      · rw [Nat.add_mul, Nat.one_mul]
        omega
    rw [row] at parts
    exact ⟨row, by omega, by omega⟩
  · rintro ⟨rfl, low, high⟩
    omega

theorem place {x y : Nat} (inside : x < width) :
    (x + y * width) / width = y ∧ (x + y * width) % width = x := by
  have positive : 0 < width := by omega
  rw [Nat.add_mul_div_right _ _ positive, Nat.add_mul_mod_self_right, Nat.div_eq_of_lt inside,
    Nat.mod_eq_of_lt inside]
  exact ⟨Nat.zero_add y, rfl⟩

theorem place_mem_row (c w r y : Nat) {x : Nat} (inside : c + w ≤ width) (column : x < width) :
    (c + r * width ≤ x + y * width ∧ x + y * width < c + w + r * width) ↔
      y = r ∧ c ≤ x ∧ x < c + w := by
  rw [mem_row inside, (place column).1, (place column).2]

theorem row_le {size height : Nat} (room : (height - 1) * width + w ≤ size) (below : r < height) :
    r * width + w ≤ size := by
  have rows : r * width ≤ (height - 1) * width := Nat.mul_le_mul_right width (by omega)
  omega

end Rows

section Copies

variable {dst src : List α} {at' start len : Nat}

theorem memcpy_spec (room : at' + len ≤ dst.length) (there : start + len ≤ src.length) :
    ∃ out, memcpy dst at' src start len = some out ∧ out.length = dst.length ∧
      ∀ i, out[i]? = if at' ≤ i ∧ i < at' + len then src[start + (i - at')]? else dst[i]? := by
  refine ⟨dst.take at' ++ (src.drop start).take len ++ dst.drop (at' + len), ?_, ?_, ?_⟩
  · rw [memcpy, if_pos (by omega)]
    rfl
  · simp only [List.length_append, List.length_take, List.length_drop]
    omega
  · intro i
    simp only [List.getElem?_append, List.length_append, List.length_take, List.length_drop,
      List.getElem?_take, List.getElem?_drop]
    grind

theorem memcpy_none {start len : Int} (negative : len < 0) (at' : Int) :
    memcpy dst at' src start len = none := by
  rw [memcpy, if_neg]
  omega

theorem load_natCast (mem : List α) (i : Nat) : load mem i = mem[i]? := by
  rw [load, if_pos (by omega), Int.toNat_natCast]

theorem store_spec {mem : List α} {i : Nat} (inside : i < mem.length) (v : α) :
    store mem i v = some (mem.set i v) := by
  rw [store, if_pos (by omega), Int.toNat_natCast]

end Copies

end Raster
