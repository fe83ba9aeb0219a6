import Mathlib.Data.Nat.Basic
import Mathlib.Logic.Function.Basic
import Mathlib.Tactic.Common

/-!
A page without end, written cell by cell from its first row on, and the screen that shows
its last rows.
-/
namespace TextPage

universe u
variable {α : Type u}

structure Page (α : Type u) where
  cell : Nat → α
  pos : Nat

namespace Page

def empty (blank : α) : Page α := ⟨fun _ => blank, 0⟩

def put (page : Page α) (a : α) : Page α := ⟨Function.update page.cell page.pos a, page.pos + 1⟩

def newLine (columns : Nat) (page : Page α) : Page α :=
  { page with pos := (page.pos / columns + 1) * columns }

def Clean (blank : α) (page : Page α) : Prop := ∀ i, page.pos ≤ i → page.cell i = blank

def top (rows columns : Nat) (page : Page α) : Nat := page.pos / columns + 1 - rows

theorem clean_empty (blank : α) : (empty blank).Clean blank := fun _ _ => rfl

theorem Clean.put {blank : α} {page : Page α} (clean : page.Clean blank) (a : α) :
    (page.put a).Clean blank := by
  intro i after
  have later : page.pos < i := after
  have other : (page.put a).cell i = page.cell i := Function.update_of_ne (Nat.ne_of_gt later) _ _
  exact other.trans (clean i (Nat.le_of_lt later))

theorem le_newLine {columns : Nat} (positive : 0 < columns) (page : Page α) :
    page.pos < (page.newLine columns).pos := by
  have below : page.pos % columns < columns := Nat.mod_lt _ positive
  have split : columns * (page.pos / columns) + page.pos % columns = page.pos :=
    Nat.div_add_mod page.pos columns
  have moved : (page.newLine columns).pos = columns * (page.pos / columns) + columns := by
    rw [newLine, Nat.add_mul, Nat.one_mul, Nat.mul_comm]
  omega

theorem Clean.newLine {blank : α} {page : Page α} (clean : page.Clean blank) {columns : Nat}
    (positive : 0 < columns) : (page.newLine columns).Clean blank := by
  intro i after
  have later := le_newLine positive page
  exact clean i (Nat.le_of_lt (Nat.lt_of_lt_of_le later after))

end Page

def scrolled (rows columns : Nat) (blank : α) (screen : Nat → α) : Nat → α :=
  fun i => if i < (rows - 1) * columns then screen (i + columns) else blank

/-- A screen with a cursor shows the last rows of a page, or all while there are fewer. -/
structure Shows (rows columns : Nat) (screen : Nat → α) (cursor : Nat) (page : Page α) : Prop where
  cells : ∀ i, i < rows * columns → screen i = page.cell (page.top rows columns * columns + i)
  cursor : page.pos = page.top rows columns * columns + cursor

variable {rows columns cursor cursor' : Nat} {screen screen' : Nat → α} {page page' : Page α}
  {blank : α}

theorem shows_empty (rows_pos : 0 < rows) (blanks : ∀ i, i < rows * columns → screen i = blank) :
    Shows rows columns screen 0 (Page.empty blank) := by
  have top : (Page.empty blank).top rows columns = 0 := by
    have first : (Page.empty blank).pos / columns = 0 := Nat.zero_div columns
    rw [Page.top, first]
    omega
  constructor
  · intro i inside
    exact blanks i inside
  · rw [top, Nat.zero_mul]
    rfl

theorem Shows.congr (shows_ : Shows rows columns screen cursor page)
    (same : ∀ i, i < rows * columns → screen' i = screen i) :
    Shows rows columns screen' cursor page := by
  refine ⟨?_, shows_.cursor⟩
  intro i inside
  rw [same i inside, shows_.cells i inside]

theorem row_of {top : Nat} (positive : 0 < columns) (at_ : page.pos = top * columns + cursor) :
    page.pos / columns = top + cursor / columns := by
  rw [at_, Nat.add_comm, Nat.add_mul_div_right _ _ positive, Nat.add_comm]

theorem Shows.inside (shows_ : Shows rows columns screen cursor page) (columns_pos : 0 < columns) :
    cursor < rows * columns := by
  have row := row_of columns_pos shows_.cursor
  have within : cursor / columns < rows := by
    rw [Page.top] at row
    omega
  exact (Nat.div_lt_iff_lt_mul columns_pos).mp within

theorem Shows.advance (shows_ : Shows rows columns screen cursor page) (columns_pos : 0 < columns)
    (cells : ∀ i, i < rows * columns →
      screen' i = page'.cell (page.top rows columns * columns + i))
    (at_ : page'.pos = page.top rows columns * columns + cursor') (on : cursor ≤ cursor')
    (inside : cursor' < rows * columns) : Shows rows columns screen' cursor' page' := by
  have row := row_of columns_pos shows_.cursor
  have row' := row_of columns_pos at_
  have within : cursor' / columns < rows := (Nat.div_lt_iff_lt_mul columns_pos).mpr inside
  have later : cursor / columns ≤ cursor' / columns := Nat.div_le_div_right on
  have top : page'.top rows columns = page.top rows columns := by
    rw [Page.top] at row row'
    rw [Page.top, Page.top]
    omega
  constructor
  · rw [top]
    exact cells
  · rw [top]
    exact at_

theorem Shows.scroll (shows_ : Shows rows columns screen cursor page) (columns_pos : 0 < columns)
    (rows_pos : 0 < rows)
    (cells : ∀ i, i < rows * columns →
      screen' i = page'.cell (page.top rows columns * columns + i))
    (at_ : page'.pos = page.top rows columns * columns + rows * columns)
    (clean : page'.Clean blank) :
    Shows rows columns (scrolled rows columns blank screen') ((rows - 1) * columns) page' := by
  have row := row_of columns_pos shows_.cursor
  have row' := row_of columns_pos at_
  rw [Nat.mul_div_cancel _ columns_pos] at row'
  have top : page'.top rows columns = page.top rows columns + 1 := by
    rw [Page.top] at row'
    rw [Page.top, Page.top]
    omega
  have whole : rows * columns = (rows - 1) * columns + columns := by
    rw [← Nat.succ_mul]
    congr 1
    omega
  constructor
  · intro i inside
    rw [top, scrolled]
    split
    next above =>
      rw [cells _ (by omega)]
      congr 1
      rw [Nat.add_mul, Nat.one_mul]
      omega
    next below =>
      symm
      apply clean
      rw [at_, Nat.add_mul, Nat.one_mul]
      omega
  · rw [top, at_, Nat.add_mul, Nat.one_mul]
    omega

end TextPage
