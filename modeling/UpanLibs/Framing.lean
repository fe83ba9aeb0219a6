import UpanLibs.Memory

/-!
Objects that own any number of blocks. A program that has a result in a part of a heap has it in
the whole heap as well and leaves the rest, and the blocks of different owners stay apart.
-/
namespace Memory

variable {β γ δ X : Type}

namespace Heap

/-- The heap `H` is `h` with the blocks `rest` beside it. -/
structure Joins (H h : Heap β) (rest : Nat → Option β) : Prop where
  next : H.next = h.next
  block : ∀ a, H.block a = (h.block a).or (rest a)
  apart : ∀ a, rest a ≠ none → h.block a = none

def restrict (h : Heap β) (l : List Nat) : Heap β where
  block a := if a ∈ l then h.block a else none
  next := h.next
  fresh a above := by rw [h.fresh a above, ite_self]

@[simp]
theorem block_restrict (h : Heap β) (l : List Nat) (a : Nat) :
    (h.restrict l).block a = if a ∈ l then h.block a else none := rfl

variable {H H' h : Heap β} {rest : Nat → Option β}

theorem joins_restrict (h : Heap β) (l : List Nat) :
    Joins h (h.restrict l) fun a => if a ∈ l then none else h.block a := by
  constructor
  · rfl
  · intro a
    by_cases mem : a ∈ l <;> simp [mem]
  · intro a beside
    by_cases mem : a ∈ l
    · simp [mem] at beside
    · simp [mem]

theorem Joins.unique (joins : Joins H h rest) (joins' : Joins H' h rest) : H' = H := by
  ext1
  · funext a
    rw [joins.block, joins'.block]
  · rw [joins.next, joins'.next]

theorem Joins.here (joins : Joins H h rest) {a : Nat} {b : β} (live : h.block a = some b) :
    H.block a = some b ∧ rest a = none := by
  constructor
  · rw [joins.block, live, Option.some_or]
  · by_contra beside
    rw [joins.apart a beside] at live
    cases live

end Heap

open Heap

/-- The program has the same result when other blocks are beside those that it works on, and
    leaves them. -/
structure Framed (p : Program β γ) : Prop where
  run : ∀ (H h h' : Heap β) (rest : Nat → Option β) (c : γ), Joins H h rest →
    p h = some (c, h') → ∃ H', p H = some (c, H') ∧ Joins H' h' rest

section Rules

theorem framed_pure (c : γ) : Framed (pure c : Program β γ) := by
  refine ⟨fun H h h' rest d joins run => ?_⟩
  cases run
  exact ⟨H, rfl, joins⟩

theorem framed_failure : Framed (failure : Program β γ) := by
  refine ⟨fun H h h' rest d joins run => ?_⟩
  cases run

theorem framed_bind {p : Program β γ} {f : γ → Program β δ} (first : Framed p)
    (next : ∀ c, Framed (f c)) : Framed (p >>= f) := by
  refine ⟨fun H h h' rest d joins run => ?_⟩
  obtain ⟨⟨c, h₁⟩, run₁, run₂⟩ := Option.bind_eq_some_iff.mp run
  obtain ⟨H₁, run₁', joins₁⟩ := first.run _ _ _ _ _ joins run₁
  obtain ⟨H', run₂', joins'⟩ := (next c).run _ _ _ _ _ joins₁ run₂
  exact ⟨H', (run_bind run₁').trans run₂', joins'⟩

theorem framed_map {p : Program β γ} (framed : Framed p) (f : γ → δ) : Framed (StateT.map f p) :=
  framed_bind framed fun c => framed_pure (f c)

theorem framed_ite {p q : Program β γ} {b : Prop} [Decidable b] (yes : Framed p) (no : Framed q) :
    Framed (if b then p else q) := by
  split
  · exact yes
  · exact no

theorem framed_deref (p : Option Nat) : Framed (deref p : Program β Nat) := by
  refine ⟨fun H h h' rest d joins run => ?_⟩
  cases p with
  | none => cases run
  | some a =>
    cases run
    exact ⟨H, rfl, joins⟩

theorem framed_load (a : Nat) : Framed (load a : Program β β) := by
  refine ⟨fun H h h' rest d joins run => ?_⟩
  obtain ⟨b, live, same⟩ := Option.map_eq_some_iff.mp run
  cases same
  exact ⟨H, run_load (joins.here live).1, joins⟩

theorem framed_alloc (b : β) : Framed (alloc b : Program β Nat) := by
  refine ⟨fun H h h' rest d joins run => ?_⟩
  cases run
  refine ⟨H.add b, by rw [run_alloc, joins.next], congrArg (· + 1) joins.next, ?_, ?_⟩
  · intro a
    by_cases new : a = h.next
    · simp [new, joins.next]
    · simp [new, joins.next, joins.block]
  · intro a beside
    have old : a ≠ h.next := by
      rintro rfl
      have live := joins.block h.next
      rw [joins.apart _ beside, Option.none_or, ← joins.next, H.block_next] at live
      rw [← joins.next] at beside
      exact beside live.symm
    rw [block_add, if_neg old, joins.apart a beside]

theorem framed_store (a : Nat) (b : β) : Framed (store a b : Program β Unit) := by
  refine ⟨fun H h h' rest d joins run => ?_⟩
  obtain ⟨old, live, same⟩ := Option.map_eq_some_iff.mp run
  cases same
  obtain ⟨live', nothing⟩ := joins.here live
  refine ⟨H.write a b, run_store live' b, joins.next, ?_, ?_⟩
  · intro c
    by_cases same : c = a
    · rw [same, block_write_self live', block_write_self live, Option.some_or]
    · rw [block_write_other _ _ same, block_write_other _ _ same, joins.block]
  · intro c beside
    have other : c ≠ a := by
      rintro rfl
      exact beside nothing
    rw [block_write_other _ _ other, joins.apart c beside]

theorem framed_free (a : Nat) : Framed (free a : Program β Unit) := by
  refine ⟨fun H h h' rest d joins run => ?_⟩
  obtain ⟨old, live, same⟩ := Option.map_eq_some_iff.mp run
  cases same
  obtain ⟨live', nothing⟩ := joins.here live
  refine ⟨H.erase a, run_free live', joins.next, ?_, ?_⟩
  · intro c
    by_cases same : c = a
    · simp [same, nothing]
    · simp [same, joins.block]
  · intro c beside
    rw [block_erase, joins.apart c beside, ite_self]

theorem framed_delete (p : Option Nat) : Framed (delete p : Program β Unit) := by
  cases p with
  | none => exact framed_pure ()
  | some a => exact framed_free a

end Rules

section Owners

variable {h h' : Heap β} {old new : List Nat}

/-- What an operation on the owner of the blocks `old` does, which owns `new` afterwards. -/
structure Changes (h h' : Heap β) (old new : List Nat) : Prop where
  fresh : ∀ a ∈ new, a ∈ old ∨ h.block a = none
  frame : ∀ a, a ∉ old → a ∉ new → h'.block a = h.block a
  freed : ∀ a ∈ old, a ∉ new → h'.block a = none

theorem Changes.refl (h : Heap β) (old : List Nat) : Changes h h old old :=
  ⟨fun _ mem => .inl mem, fun _ _ _ => rfl, fun _ mem out => absurd mem out⟩

theorem Framed.part {p : Program β γ} (framed : Framed p) {c : γ} {h₁ : Heap β}
    (run : p (h.restrict old) = some (c, h₁)) (live : ∀ a, h₁.block a ≠ none ↔ a ∈ new) :
    ∃ h', p h = some (c, h') ∧ h'.restrict new = h₁ ∧ Changes h h' old new := by
  obtain ⟨h', run', joins⟩ := framed.run _ _ _ _ _ (joins_restrict h old) run
  refine ⟨h', run', ?_, ?_, ?_, ?_⟩
  · ext1
    · funext a
      rw [block_restrict, joins.block]
      by_cases mem : a ∈ new
      · obtain ⟨b, here⟩ := Option.ne_none_iff_exists'.mp ((live a).mpr mem)
        rw [if_pos mem, here, Option.some_or]
      · rw [if_neg mem]
        by_contra here
        exact mem ((live a).mp (Ne.symm here))
    · exact joins.next
  · intro a mem
    by_contra both
    obtain ⟨was, here⟩ := not_or.mp both
    exact (live a).mpr mem (joins.apart a (by rwa [if_neg was]))
  · intro a was now
    rw [joins.block, not_ne_iff.mp fun here => now ((live a).mp here), Option.none_or, if_neg was]
  · intro a was now
    rw [joins.block, not_ne_iff.mp fun here => now ((live a).mp here), Option.none_or, if_pos was]

theorem Framed.read {p : Program β γ} (framed : Framed p) {c : γ}
    (run : p (h.restrict old) = some (c, h.restrict old)) : p h = some (c, h) := by
  have joins := joins_restrict h old
  obtain ⟨h', run', joins'⟩ := framed.run _ _ _ _ _ joins run
  rw [run', joins.unique joins']

theorem Changes.trans {h₁ : Heap β} {mid : List Nat} (first : Changes h h₁ old mid)
    (second : Changes h₁ h' mid new) : Changes h h' old new := by
  constructor
  · intro a mem
    by_cases was : a ∈ old
    · exact .inl was
    obtain between | nothing := second.fresh a mem
    · exact first.fresh a between
    · by_cases between : a ∈ mid
      · exact first.fresh a between
      · exact .inr ((first.frame a was between).symm.trans nothing)
  · intro a was now
    by_cases between : a ∈ mid
    · obtain here | nothing := first.fresh a between
      · exact absurd here was
      · rw [second.freed a between now, nothing]
    · rw [second.frame a between now, first.frame a was between]
  · intro a was now
    by_cases between : a ∈ mid
    · exact second.freed a between now
    · rw [second.frame a between now, first.freed a was between]

theorem Changes.apart (changes : Changes h h' old new) {l : List Nat}
    (live : ∀ a ∈ l, h.block a ≠ none) (out : ∀ a ∈ l, a ∉ old) :
    ∀ a ∈ l, a ∉ new ∧ h'.block a = h.block a := by
  intro a mem
  have outside : a ∉ new := by
    intro now
    obtain was | nothing := changes.fresh a now
    · exact out a mem was
    · exact live a mem nothing
  exact ⟨outside, changes.frame a (out a mem) outside⟩

structure Owners (h : Heap β) (own : X → List Nat) : Prop where
  live : ∀ x, ∀ a ∈ own x, h.block a ≠ none
  apart : ∀ x y, x ≠ y → ∀ a ∈ own x, a ∉ own y
  owned : ∀ a, h.block a ≠ none → ∃ x, a ∈ own x

variable [DecidableEq X]

theorem Owners.update {own : X → List Nat} (owners : Owners h own) {x : X}
    (changes : Changes h h' (own x) new) (live : ∀ a ∈ new, h'.block a ≠ none) :
    Owners h' (Function.update own x new) := by
  have others : ∀ y, y ≠ x → ∀ a ∈ own y, a ∉ new ∧ h'.block a = h.block a := fun y other =>
    changes.apart (owners.live y) (owners.apart y x other)
  constructor
  · intro y a mem
    by_cases same : y = x
    · subst same
      rw [Function.update_self] at mem
      exact live a mem
    · rw [Function.update_of_ne same] at mem
      rw [(others y same a mem).2]
      exact owners.live y a mem
  · intro y z different a mem
    by_cases first : y = x
    · subst first
      rw [Function.update_self] at mem
      rw [Function.update_of_ne (Ne.symm different)]
      exact fun theirs => (others z (Ne.symm different) a theirs).1 mem
    · rw [Function.update_of_ne first] at mem
      by_cases second : z = x
      · subst second
        rw [Function.update_self]
        exact (others y first a mem).1
      · rw [Function.update_of_ne second]
        exact owners.apart y z different a mem
  · intro a here
    by_cases now : a ∈ new
    · exact ⟨x, by rwa [Function.update_self]⟩
    by_cases was : a ∈ own x
    · exact absurd (changes.freed a was now) here
    · rw [changes.frame a was now] at here
      obtain ⟨y, mem⟩ := owners.owned a here
      have other : y ≠ x := by
        rintro rfl
        exact was mem
      exact ⟨y, by rwa [Function.update_of_ne other]⟩

end Owners

end Memory
