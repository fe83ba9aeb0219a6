import Mathlib.Tactic.Common
import Mathlib.Data.List.Basic
import Mathlib.Data.Nat.ModEq

/-!
A window of a list that is read in a ring: its elements lie one after the other from a
start on, and go on at the front of the list where the end of it is reached.
-/
namespace RingWindow

universe u
variable {α : Type u}

/-- The elements `xs` lie in the ring from `start` on. -/
def Holds (buffer : List α) (start : Nat) (xs : List α) : Prop :=
  ∀ i x, xs[i]? = some x → buffer[(start + i) % buffer.length]? = some x

theorem holds_nil (buffer : List α) (start : Nat) : Holds buffer start [] := by
  intro i x here
  simp at here

theorem holds_head {buffer xs : List α} {start : Nat} {x : α} (inside : start < buffer.length)
    (holds : Holds buffer start (x :: xs)) : buffer[start]? = some x := by
  have first := holds 0 x rfl
  rwa [Nat.add_zero, Nat.mod_eq_of_lt inside] at first

theorem holds_tail {buffer xs : List α} {start : Nat} {x : α}
    (holds : Holds buffer start (x :: xs)) :
    Holds buffer ((start + 1) % buffer.length) xs := by
  intro i y here
  have next := holds (i + 1) y here
  rwa [Nat.mod_add_mod, Nat.add_assoc, Nat.add_comm 1 i]

theorem place_ne {size start i j : Nat} (less : i < j) (apart : j < size) :
    (start + i) % size ≠ (start + j) % size := by
  intro same
  have residue : i % size = j % size := Nat.ModEq.add_left_cancel' start same
  rw [Nat.mod_eq_of_lt (by omega), Nat.mod_eq_of_lt apart] at residue
  omega

theorem holds_push {buffer xs : List α} {start : Nat} (room : xs.length < buffer.length)
    (holds : Holds buffer start xs) (x : α) :
    Holds (buffer.set ((start + xs.length) % buffer.length) x) start (xs ++ [x]) := by
  intro i y here
  have inside : (start + xs.length) % buffer.length < buffer.length := Nat.mod_lt _ (by omega)
  rw [List.length_set]
  rcases Nat.lt_or_ge i xs.length with old | new
  · rw [List.getElem?_append_left old] at here
    rw [List.getElem?_set_ne (place_ne old room).symm]
    exact holds i y here
  · have last : i = xs.length := by
      have := (List.getElem?_eq_some_iff.mp here).1
      simp at this
      omega
    subst last
    rw [List.getElem?_append_right (Nat.le_refl _), Nat.sub_self] at here
    cases here
    rw [List.getElem?_set_self inside]

end RingWindow
