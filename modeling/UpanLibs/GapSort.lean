import Mathlib.Logic.Equiv.Basic
import Mathlib.Tactic.Common

/-!
Insertion along a gap, the pass of a Shell sort. An element sinks in steps of the gap until the one
before it stays; when each element in turn has sunk, any two at the distance of the gap are in
order, whatever order the comparison follows.
-/
namespace GapSort

universe u
variable {α : Type u}

def swap (e : Nat → α) (i j : Nat) : Nat → α := e ∘ Equiv.swap i j

theorem swap_left (e : Nat → α) (i j : Nat) : swap e i j i = e j := by
  simp [swap]

theorem swap_right (e : Nat → α) (i j : Nat) : swap e i j j = e i := by
  simp [swap]

theorem swap_other (e : Nat → α) {i j k : Nat} (left : k ≠ i) (right : k ≠ j) :
    swap e i j k = e k := by
  simp [swap, Equiv.swap_apply_of_ne_of_ne left right]

def Rearranged (n : Nat) (e e' : Nat → α) : Prop :=
  ∃ σ : Equiv.Perm Nat, (∀ i, n ≤ i → σ i = i) ∧ e' = e ∘ σ

variable {n : Nat} {e e' : Nat → α}

theorem Rearranged.refl (n : Nat) (e : Nat → α) : Rearranged n e e :=
  ⟨Equiv.refl Nat, fun _ _ => rfl, rfl⟩

theorem Rearranged.trans {e'' : Nat → α} (first : Rearranged n e e')
    (second : Rearranged n e' e'') : Rearranged n e e'' := by
  obtain ⟨σ, fixed, rfl⟩ := first
  obtain ⟨τ, still, rfl⟩ := second
  refine ⟨τ.trans σ, fun i past => ?_, rfl⟩
  rw [Equiv.trans_apply, still i past, fixed i past]

theorem Rearranged.mono {m : Nat} (h : Rearranged m e e') (less : m ≤ n) : Rearranged n e e' := by
  obtain ⟨σ, fixed, eq⟩ := h
  exact ⟨σ, fun i past => fixed i (Nat.le_trans less past), eq⟩

theorem Rearranged.swap {i j : Nat} (left : i < n) (right : j < n) (e : Nat → α) :
    Rearranged n e (swap e i j) := by
  refine ⟨Equiv.swap i j, fun k past => ?_, rfl⟩
  apply Equiv.swap_apply_of_ne_of_ne <;> omega

theorem Rearranged.beyond (h : Rearranged n e e') {i : Nat} (past : n ≤ i) : e' i = e i := by
  obtain ⟨σ, fixed, rfl⟩ := h
  rw [Function.comp_apply, fixed i past]

theorem perm_inside {σ : Equiv.Perm Nat} (fixed : ∀ i, n ≤ i → σ i = i) (i : Nat) :
    σ i < n ↔ i < n := by
  constructor
  · intro less
    by_contra past
    rw [fixed i (by omega)] at less
    exact past less
  · intro less
    by_contra past
    have same := σ.injective (fixed (σ i) (by omega))
    omega

theorem Rearranged.exists_iff (h : Rearranged n e e') (p : α → Prop) :
    (∃ i, i < n ∧ p (e' i)) ↔ ∃ i, i < n ∧ p (e i) := by
  obtain ⟨σ, fixed, rfl⟩ := h
  constructor
  · rintro ⟨i, less, here⟩
    exact ⟨σ i, (perm_inside fixed i).mpr less, here⟩
  · rintro ⟨i, less, here⟩
    refine ⟨σ.symm i, (perm_inside fixed _).mp (by rw [σ.apply_symm_apply]; exact less), ?_⟩
    rw [Function.comp_apply, σ.apply_symm_apply]
    exact here

theorem Rearranged.forall_pair (h : Rearranged n e e') {p : α → α → Prop}
    (all : ∀ i, i < n → ∀ j, j < n → p (e i) (e j)) :
    ∀ i, i < n → ∀ j, j < n → p (e' i) (e' j) := by
  obtain ⟨σ, fixed, rfl⟩ := h
  intro i less j below
  exact all _ ((perm_inside fixed i).mpr less) _ ((perm_inside fixed j).mpr below)

/-- The elements at the distance of the gap are in order. -/
def Sorted (le : α → α → Prop) (g n : Nat) (e : Nat → α) : Prop :=
  ∀ i, i + g < n → le (e i) (e (i + g))

variable (stays : α → α → Bool) (g : Nat)

def sink (e : Nat → α) (j : Nat) : Nat → α :=
  if _ : 0 < g ∧ g ≤ j then
    if stays (e (j - g)) (e j) then e else sink (swap e (j - g) j) (j - g)
  else e
termination_by j
decreasing_by omega

def pass (n : Nat) (e : Nat → α) (i : Nat) : Nat → α :=
  if i < n then pass n (sink stays g e i) (i + 1) else e
termination_by n - i

variable {stays g}

theorem sink_rearranged (e : Nat → α) (j : Nat) : Rearranged (j + 1) e (sink stays g e j) := by
  induction e, j using sink.induct stays g with
  | case1 e j here stay =>
    rw [sink, dif_pos here, if_pos stay]
    exact .refl _ e
  | case2 e j here moves ih =>
    rw [sink, dif_pos here, if_neg moves]
    exact (Rearranged.swap (by omega) (by omega) e).trans (ih.mono (by omega))
  | case3 e j bottom =>
    rw [sink, dif_neg bottom]
    exact .refl _ e

theorem pass_rearranged (n : Nat) (e : Nat → α) (i : Nat) :
    Rearranged n e (pass stays g n e i) := by
  induction e, i using pass.induct stays g n with
  | case1 e i less ih =>
    rw [pass, if_pos less]
    exact ((sink_rearranged e i).mono less).trans ih
  | case2 e i done =>
    rw [pass, if_neg done]
    exact .refl _ e

variable {le : α → α → Prop}

/-- All is in order but the element at `j` and the one before it; the elements on both sides of it
    are in order as well. -/
structure Sinking (le : α → α → Prop) (g n : Nat) (e : Nat → α) (j : Nat) : Prop where
  apart : ∀ i, i + g < n → i + g ≠ j → le (e i) (e (i + g))
  around : ∀ i, i + g = j → j + g < n → le (e i) (e (j + g))

theorem Sinking.swap {j : Nat} (h : Sinking le g n e (j + g)) (positive : 0 < g)
    (inside : j + g < n) (order : le (e (j + g)) (e j)) :
    Sinking le g n (swap e j (j + g)) j := by
  constructor
  · intro i less other
    by_cases here : i = j
    · subst here
      rw [swap_left, swap_right]
      exact order
    · by_cases next : i = j + g
      · subst next
        rw [swap_right, swap_other e (by omega) (by omega)]
        exact h.around j rfl less
      · rw [swap_other e here next, swap_other e (by omega) (by omega)]
        exact h.apart i less (by omega)
  · intro i below less
    subst below
    rw [swap_right, swap_other e (by omega) (by omega)]
    exact h.apart i (by omega) (by omega)

theorem sink_sorted (positive : 0 < g) (reads : ∀ a b, stays a b = true → le a b)
    (e : Nat → α) (j : Nat) (total : ∀ i, i < n → ∀ k, k < n → stays (e i) (e k) = false →
      le (e k) (e i)) (inside : j < n) (h : Sinking le g n e j) :
    Sorted le g n (sink stays g e j) := by
  induction e, j using sink.induct stays g with
  | case1 e j here stay =>
    rw [sink, dif_pos here, if_pos stay]
    intro i less
    by_cases same : i + g = j
    · have eq : i = j - g := by omega
      rw [same, eq]
      exact reads _ _ stay
    · exact h.apart i less same
  | case2 e j here moves ih =>
    rw [sink, dif_pos here, if_neg moves]
    obtain ⟨i, rfl⟩ : ∃ i, j = i + g := ⟨j - g, by omega⟩
    rw [Nat.add_sub_cancel] at moves ih ⊢
    have mixed : Rearranged n e (GapSort.swap e i (i + g)) := .swap (by omega) inside e
    refine ih ?_ (by omega) (h.swap positive inside ?_)
    · exact mixed.forall_pair (p := fun a b => stays a b = false → le b a) total
    · exact total _ (by omega) _ inside (Bool.eq_false_iff.mpr moves)
  | case3 e j bottom =>
    rw [sink, dif_neg bottom]
    intro i less
    exact h.apart i less (by omega)

theorem pass_sorted (positive : 0 < g) (reads : ∀ a b, stays a b = true → le a b)
    (e : Nat → α) (i : Nat) (total : ∀ j, j < n → ∀ k, k < n → stays (e j) (e k) = false →
      le (e k) (e j)) (start : Sorted le g i e) (bound : i ≤ n) :
    Sorted le g n (pass stays g n e i) := by
  induction e, i using pass.induct stays g n with
  | case1 e i less ih =>
    rw [pass, if_pos less]
    apply ih
    · have mixed : Rearranged n e (sink stays g e i) := (sink_rearranged e i).mono less
      exact mixed.forall_pair (p := fun a b => stays a b = false → le b a) total
    · apply sink_sorted positive reads e i
        (fun j low k below => total j (by omega) k (by omega)) (Nat.lt_succ_self i)
      refine ⟨fun j low other => start j (by omega), fun j _ low => by omega⟩
    · exact less
  | case2 e i done =>
    rw [pass, if_neg done]
    have eq : i = n := by omega
    rw [← eq]
    exact start

theorem Sorted.all (h : Sorted le 1 n e) (trans : ∀ i, i < n → ∀ j, j < n → ∀ k, k < n →
    le (e i) (e j) → le (e j) (e k) → le (e i) (e k)) {i j : Nat} (less : i < j)
    (inside : j < n) : le (e i) (e j) := by
  induction j with
  | zero => omega
  | succ j ih =>
    by_cases next : i = j
    · subst next
      exact h i inside
    · exact trans i (by omega) j (by omega) (j + 1) inside (ih (by omega) (by omega)) (h j inside)

end GapSort
