import Mathlib.Data.Option.Basic
import Mathlib.Logic.Equiv.Basic
import Mathlib.Tactic.Common

/-!
Programs over a heap of blocks. An address is used once: reading, writing or freeing
a block that is not live has no result, so a program with a result has used no block
after it was freed and freed none twice. Objects that own at most one block each are
related to their meanings, and an effect says what an operation on one object did to
the heap.
-/
namespace Memory

@[ext] structure Heap (β : Type) where
  block : Nat → Option β
  next : Nat
  fresh : ∀ a, next ≤ a → block a = none

variable {β γ δ : Type}

namespace Heap

def empty : Heap β := ⟨fun _ => none, 0, fun _ _ => rfl⟩

def add (h : Heap β) (b : β) : Heap β where
  block a := if a = h.next then some b else h.block a
  next := h.next + 1
  fresh a above := by
    rw [if_neg (by omega)]
    exact h.fresh a (by omega)

def write (h : Heap β) (a : Nat) (b : β) : Heap β where
  block c := if c = a then (h.block a).map fun _ => b else h.block c
  next := h.next
  fresh c above := by
    split
    next same => rw [← same, h.fresh c above, Option.map_none]
    next => exact h.fresh c above

def erase (h : Heap β) (a : Nat) : Heap β where
  block c := if c = a then none else h.block c
  next := h.next
  fresh c above := by
    split
    next => rfl
    next => exact h.fresh c above

theorem block_next (h : Heap β) : h.block h.next = none := h.fresh _ (Nat.le_refl _)

@[simp]
theorem block_add (h : Heap β) (b : β) (a : Nat) :
    (h.add b).block a = if a = h.next then some b else h.block a := rfl

@[simp]
theorem block_erase (h : Heap β) (a c : Nat) :
    (h.erase a).block c = if c = a then none else h.block c := rfl

theorem block_write_self {h : Heap β} {a : Nat} {b : β} (live : h.block a = some b) (b' : β) :
    (h.write a b').block a = some b' := by
  simp [write, live]

@[simp]
theorem block_write_other (h : Heap β) {a c : Nat} (b : β) (other : c ≠ a) :
    (h.write a b).block c = h.block c := if_neg other

@[simp]
theorem write_write (h : Heap β) (a : Nat) (b c : β) : (h.write a b).write a c = h.write a c := by
  ext d
  · by_cases same : d = a <;> simp [write, same]
  · rfl

theorem write_same {h : Heap β} {a : Nat} {b : β} (live : h.block a = some b) :
    h.write a b = h := by
  ext d
  · by_cases same : d = a <;> simp [write, same, live]
  · rfl

end Heap

abbrev Program (β : Type) := StateT (Heap β) Option

def alloc (b : β) : Program β Nat := fun h => some (h.next, h.add b)

def load (a : Nat) : Program β β := fun h => (h.block a).map (·, h)

def store (a : Nat) (b : β) : Program β Unit := fun h =>
  (h.block a).map fun _ => ((), h.write a b)

def free (a : Nat) : Program β Unit := fun h => (h.block a).map fun _ => ((), h.erase a)

def deref (p : Option Nat) : Program β Nat := fun h => p.map (·, h)

def delete (p : Option Nat) : Program β Unit :=
  match p with
  | none => pure ()
  | some a => free a

section Runs

variable {h h' : Heap β} {a : Nat} {b : β}

theorem run_bind {p : Program β γ} {f : γ → Program β δ} {c : γ} (first : p h = some (c, h')) :
    (p >>= f) h = f c h' := by
  simp only [bind, StateT.bind, first, Option.bind_some]

theorem run_bind_none {p : Program β γ} {f : γ → Program β δ} (fails : p h = none) :
    (p >>= f) h = none := by
  simp only [bind, StateT.bind, fails, Option.bind_none]

theorem run_map {p : Program β γ} {c : γ} (first : p h = some (c, h')) (f : γ → δ) :
    StateT.map f p h = some (f c, h') := by
  simp only [StateT.map, bind, first, Option.bind_some]
  rfl

theorem run_pure (c : γ) : (pure c : Program β γ) h = some (c, h) := rfl

theorem run_alloc (b : β) : alloc b h = some (h.next, h.add b) := rfl

theorem run_load (live : h.block a = some b) : load a h = some (b, h) := by
  simp [load, live]

theorem run_store (live : h.block a = some b) (b' : β) :
    store a b' h = some ((), h.write a b') := by
  simp [store, live]

theorem run_free (live : h.block a = some b) : free a h = some ((), h.erase a) := by
  simp [free, live]

theorem run_deref (a : Nat) : deref (some a) h = some (a, h) := rfl

end Runs

/-- An operation of an object that owned the block `old` and owns `new` now, if any:
    no other block was touched, and the old one was freed unless it is kept. -/
structure Effect (h h' : Heap β) (old new : Option Nat) : Prop where
  fresh : ∀ a, new = some a → old = some a ∨ h.block a = none
  frame : ∀ a, old ≠ some a → new ≠ some a → h'.block a = h.block a
  freed : ∀ a, old = some a → new ≠ some a → h'.block a = none

namespace Effect

variable {h h₁ h' : Heap β} {old mid new : Option Nat}

theorem refl (h : Heap β) (old : Option Nat) : Effect h h old old := by
  constructor
  · intro a here
    exact .inl here
  · intro a _ _
    rfl
  · intro a here other
    exact absurd here other

theorem trans (first : Effect h h₁ old mid) (second : Effect h₁ h' mid new) :
    Effect h h' old new := by
  constructor
  · intro a here
    obtain kept | was := second.fresh a here
    · exact first.fresh a kept
    · by_cases mine : old = some a
      · exact .inl mine
      by_cases between : mid = some a
      · exact first.fresh a between
      · exact .inr ((first.frame a mine between).symm.trans was)
  · intro a mine yours
    by_cases between : mid = some a
    · obtain kept | was := first.fresh a between
      · exact absurd kept mine
      · rw [second.freed a between yours, was]
    · rw [second.frame a between yours, first.frame a mine between]
  · intro a mine yours
    by_cases between : mid = some a
    · exact second.freed a between yours
    · rw [second.frame a between yours, first.freed a mine between]

theorem write (h : Heap β) (a : Nat) (b : β) : Effect h (h.write a b) (some a) (some a) := by
  constructor
  · intro c here
    exact .inl here
  · intro c other _
    exact h.block_write_other b fun same => other (same ▸ rfl)
  · intro c here other
    exact absurd here other

theorem alloc (h : Heap β) (b : β) : Effect h (h.add b) none (some h.next) := by
  constructor
  · intro a here
    cases here
    exact .inr h.block_next
  · intro a _ other
    have different : a ≠ h.next := by
      intro same
      exact other (congrArg some same.symm)
    exact if_neg different
  · intro a here
    cases here

theorem erase (h : Heap β) (a : Nat) : Effect h (h.erase a) (some a) none := by
  constructor
  · intro c nothing
    cases nothing
  · intro c other _
    have different : c ≠ a := by
      intro same
      exact other (congrArg some same.symm)
    exact if_neg different
  · intro c mine _
    cases mine
    exact if_pos rfl

theorem apart (first : Effect h h₁ none new) {a : Nat} (live : (h.block a).isSome) :
    new ≠ some a := by
  intro here
  obtain nothing | was := first.fresh a here
  · cases nothing
  · rw [was] at live
    cases live

theorem exchange (first : Effect h h₁ none new) (second : Effect h₁ h' old none) :
    Effect h h' old new := by
  constructor
  · intro a here
    obtain nothing | was := first.fresh a here
    · cases nothing
    · exact .inr was
  · intro a mine yours
    rw [second.frame a mine (by simp), first.frame a (by simp) yours]
  · intro a mine _
    exact second.freed a mine (by simp)

theorem around {h₂ : Heap β} {temp : Option Nat} (first : Effect h h₁ none temp)
    (live : ∀ a, temp = some a → (h₁.block a).isSome) (middle : Effect h₁ h₂ old new)
    (last : Effect h₂ h' temp none) : Effect h h' old new := by
  constructor
  · intro a here
    obtain kept | was := middle.fresh a here
    · exact .inl kept
    · have apart : temp ≠ some a := by
        intro same
        have live := live a same
        rw [was] at live
        cases live
      exact .inr ((first.frame a (by simp) apart).symm.trans was)
  · intro a mine yours
    by_cases temporary : temp = some a
    · obtain nothing | was := first.fresh a temporary
      · cases nothing
      · rw [last.freed a temporary (by simp), was]
    · rw [last.frame a temporary (by simp), middle.frame a mine yours,
        first.frame a (by simp) temporary]
  · intro a mine yours
    by_cases temporary : temp = some a
    · exact last.freed a temporary (by simp)
    · rw [last.frame a temporary (by simp), middle.freed a mine yours]

end Effect

theorem run_delete {h : Heap β} (p : Option Nat) (live : ∀ a, p = some a → (h.block a).isSome) :
    ∃ h', delete p h = some ((), h') ∧ Effect h h' p none := by
  cases p with
  | none => exact ⟨h, rfl, .refl h none⟩
  | some a =>
    obtain ⟨b, here⟩ := Option.isSome_iff_exists.mp (live a rfl)
    exact ⟨h.erase a, run_free here, .erase h a⟩

section Objects

variable {V O M : Type}

structure World (V O β : Type) where
  heap : Heap β
  object : V → Option O

def World.update [DecidableEq V] (w : World V O β) (x : V) (heap : Heap β) (o : Option O) : World V O β :=
  ⟨heap, Function.update w.object x o⟩

/-- A method called on the object `x`. -/
def World.call [DecidableEq V] (w : World V O β) (x : V) (f : O → Program β (O × γ)) :
    Option (World V O β × γ) :=
  match w.object x with
  | none => none
  | some o => (f o w.heap).map fun ((o, r), h) => (w.update x h (some o), r)

/-- A constructor run for `x`, which does not live yet. -/
def World.build [DecidableEq V] (w : World V O β) (x : V) (f : Program β O) :
    Option (World V O β) :=
  match w.object x with
  | some _ => none
  | none => (f w.heap).map fun (o, h) => w.update x h (some o)

structure Owning (buffer : O → Option Nat) (rep : Heap β → O → M → Prop) : Prop where
  live : ∀ {h o l a}, rep h o l → buffer o = some a → (h.block a).isSome
  frame : ∀ {h h' o l}, rep h o l → (∀ a, buffer o = some a → h'.block a = h.block a) → rep h' o l

/-- Each object has its meaning, no block has two owners and none is without owner. -/
structure Represents (buffer : O → Option Nat) (rep : Heap β → O → M → Prop)
    (w : World V O β) (m : V → Option M) : Prop where
  objects : ∀ x, Option.Rel (rep w.heap) (w.object x) (m x)
  single : ∀ x y a, (w.object x).bind buffer = some a → (w.object y).bind buffer = some a → x = y
  owned : ∀ a, (w.heap.block a).isSome → ∃ x, (w.object x).bind buffer = some a

variable {buffer : O → Option Nat} {rep : Heap β → O → M → Prop} {w : World V O β}
  {m : V → Option M}

theorem rel_live (owning : Owning buffer rep) {h : Heap β} {o : Option O} {l : Option M}
    (related : Option.Rel (rep h) o l) {a : Nat} (has : o.bind buffer = some a) :
    (h.block a).isSome := by
  cases related with
  | none => cases has
  | some here => exact owning.live here has

theorem rel_frame (owning : Owning buffer rep) {h h' : Heap β} {o : Option O} {l : Option M}
    (related : Option.Rel (rep h) o l) (same : ∀ a, o.bind buffer = some a → h'.block a = h.block a) :
    Option.Rel (rep h') o l := by
  cases related with
  | none => exact .none
  | some here => exact .some (owning.frame here same)

theorem Owning.beside (owning : Owning buffer rep) {h h' : Heap β} {o : O} {l : M}
    {new : Option Nat} (meaning : rep h o l) (effect : Effect h h' none new) : rep h' o l := by
  apply owning.frame meaning
  intro a has
  exact effect.frame a (by simp) (effect.apart (owning.live meaning has))

theorem Represents.some_of (held : Represents buffer rep w m) {x : V} {l : M}
    (here : m x = some l) : ∃ o, w.object x = some o ∧ rep w.heap o l := by
  have related := held.objects x
  rw [here] at related
  cases object : w.object x with
  | none =>
    rw [object] at related
    cases related
  | some o =>
    rw [object] at related
    cases related with
    | some here => exact ⟨o, rfl, here⟩

theorem Represents.of_object (held : Represents buffer rep w m) {x : V} {o : O}
    (object : w.object x = some o) : ∃ l, m x = some l ∧ rep w.heap o l := by
  have related := held.objects x
  rw [object] at related
  cases here : m x with
  | none =>
    rw [here] at related
    cases related
  | some l =>
    rw [here] at related
    cases related with
    | some meaning => exact ⟨l, rfl, meaning⟩

theorem Represents.none_of (held : Represents buffer rep w m) {x : V} (here : m x = none) :
    w.object x = none := by
  have related := held.objects x
  rw [here] at related
  cases object : w.object x with
  | none => rfl
  | some o =>
    rw [object] at related
    cases related

theorem represents_empty : Represents buffer rep (⟨.empty, fun _ => none⟩ : World V O β)
    fun _ => none := by
  constructor
  · intro x
    exact .none
  · intro x y a has
    cases has
  · intro a live
    cases live

variable [DecidableEq V]

theorem Represents.update (owning : Owning buffer rep) (held : Represents buffer rep w m)
    {x : V} {h' : Heap β} {o : Option O} {l : Option M}
    (effect : Effect w.heap h' ((w.object x).bind buffer) (o.bind buffer))
    (meaning : Option.Rel (rep h') o l) :
    Represents buffer rep (w.update x h' o) (Function.update m x l) := by
  have others : ∀ y a, y ≠ x → (w.object y).bind buffer = some a →
      (w.object x).bind buffer ≠ some a ∧ o.bind buffer ≠ some a := by
    intro y a other theirs
    have mine : (w.object x).bind buffer ≠ some a := fun mine => other (held.single y x a theirs mine)
    refine ⟨mine, fun now => ?_⟩
    obtain was | nothing := effect.fresh a now
    · exact mine was
    · have live := rel_live owning (held.objects y) theirs
      rw [nothing] at live
      cases live
  constructor
  · intro y
    by_cases same : y = x
    · subst same
      simpa [World.update] using meaning
    · have kept : Option.Rel (rep h') (w.object y) (m y) := by
        apply rel_frame owning (held.objects y)
        intro a theirs
        obtain ⟨mine, now⟩ := others y a same theirs
        exact effect.frame a mine now
      simpa [World.update, same] using kept
  · intro y z a hy hz
    by_cases atY : y = x <;> by_cases atZ : z = x
    · rw [atY, atZ]
    · simp only [World.update, atY, Function.update_self, Function.update_of_ne atZ] at hy hz
      exact absurd hy (others z a atZ hz).2
    · simp only [World.update, atZ, Function.update_self, Function.update_of_ne atY] at hy hz
      exact absurd hz (others y a atY hy).2
    · simp only [World.update, Function.update_of_ne atZ, Function.update_of_ne atY] at hy hz
      exact held.single y z a hy hz
  · intro a live
    by_cases now : o.bind buffer = some a
    · exact ⟨x, by simpa [World.update] using now⟩
    by_cases mine : (w.object x).bind buffer = some a
    · rw [World.update, effect.freed a mine now] at live
      cases live
    · rw [World.update, effect.frame a mine now] at live
      obtain ⟨y, theirs⟩ := held.owned a live
      have other : y ≠ x := by
        rintro rfl
        exact mine theirs
      exact ⟨y, by simpa [World.update, other] using theirs⟩

theorem Represents.call (owning : Owning buffer rep) (held : Represents buffer rep w m) {x : V}
    {o o' : O} {l : M} {f : O → Program β (O × γ)} {r : γ} {h' : Heap β}
    (object : w.object x = some o) (run : f o w.heap = some ((o', r), h'))
    (effect : Effect w.heap h' (buffer o) (buffer o')) (meaning : rep h' o' l) :
    w.call x f = some (w.update x h' (some o'), r) ∧
      Represents buffer rep (w.update x h' (some o')) (Function.update m x (some l)) := by
  constructor
  · simp only [World.call, object, run, Option.map_some]
  · refine held.update owning ?_ (.some meaning)
    rw [object]
    exact effect

theorem Represents.build (owning : Owning buffer rep) (held : Represents buffer rep w m) {x : V}
    {o : O} {l : M} {f : Program β O} {h' : Heap β} (fresh : w.object x = none)
    (run : f w.heap = some (o, h')) (effect : Effect w.heap h' none (buffer o))
    (meaning : rep h' o l) :
    w.build x f = some (w.update x h' (some o)) ∧
      Represents buffer rep (w.update x h' (some o)) (Function.update m x (some l)) := by
  constructor
  · simp only [World.build, fresh, run, Option.map_some]
  · refine held.update owning ?_ (.some meaning)
    rw [fresh]
    exact effect

theorem Represents.destroy (owning : Owning buffer rep) (held : Represents buffer rep w m) {x : V}
    {o : O} {h' : Heap β} (object : w.object x = some o)
    (effect : Effect w.heap h' (buffer o) none) :
    Represents buffer rep (w.update x h' none) (Function.update m x none) := by
  have effect' : Effect w.heap h' ((w.object x).bind buffer) ((none : Option O).bind buffer) := by
    rw [object]
    exact effect
  exact held.update owning effect' .none

def World.swap (w : World V O β) (x y : V) : World V O β :=
  ⟨w.heap, fun z => w.object (Equiv.swap x y z)⟩

theorem World.swap_eq (w : World V O β) (x y : V) :
    w.swap x y = (w.update y w.heap (w.object x)).update x w.heap (w.object y) := by
  simp only [World.swap, World.update, World.mk.injEq, true_and]
  exact Equiv.comp_swap_eq_update x y w.object

theorem Represents.swap (held : Represents buffer rep w m) (x y : V) :
    Represents buffer rep (w.swap x y) (fun z => m (Equiv.swap x y z)) := by
  constructor
  · intro z
    exact held.objects _
  · intro u v a hu hv
    exact (Equiv.swap x y).injective (held.single _ _ a hu hv)
  · intro a live
    obtain ⟨z, theirs⟩ := held.owned a live
    exact ⟨Equiv.swap x y z, by simpa [World.swap] using theirs⟩

theorem World.update_self {w : World V O β} {x : V} {o : Option O} (here : w.object x = o) :
    w.update x w.heap o = w := by
  rw [World.update, ← here, Function.update_eq_self]

theorem World.update_update (w : World V O β) (x : V) (h h' : Heap β) (o o' : Option O) :
    (w.update x h o).update x h' o' = w.update x h' o' := by
  simp [World.update]

theorem Represents.move (owning : Owning buffer rep) (held : Represents buffer rep w m) {x y : V}
    (apart : x ≠ y) (nothing : w.object x = none) {left : O} {l : M} (null : buffer left = none)
    (meaning : rep w.heap left l) :
    Represents buffer rep ((w.update x w.heap (w.object y)).update y w.heap (some left))
      (Function.update (Function.update m x (m y)) y (some l)) := by
  have gone : ((w.swap x y).object y).bind buffer = none := by simp [World.swap, nothing]
  have effect : Effect w.heap w.heap (((w.swap x y).object y).bind buffer)
      ((some left).bind buffer) := by
    rw [gone, Option.bind_some, null]
    exact .refl _ _
  have moved := (held.swap x y).update owning effect (.some meaning)
  have objects : (w.swap x y).update y w.heap (some left) =
      (w.update x w.heap (w.object y)).update y w.heap (some left) := by
    simp [World.swap_eq, World.update, Function.update_comm apart]
  have meanings : Function.update (fun z => m (Equiv.swap x y z)) y (some l) =
      Function.update (Function.update m x (m y)) y (some l) := by
    have swapped := Equiv.comp_swap_eq_update x y m
    rw [Function.comp_def] at swapped
    simp [swapped, Function.update_comm apart]
  rw [objects, meanings] at moved
  exact moved

theorem Represents.moveOver (owning : Owning buffer rep) (held : Represents buffer rep w m)
    {x y : V} (apart : x ≠ y) {o r left : O} {l : M} {h' : Heap β} (object : w.object x = some o)
    (source : w.object y = some r) (effect : Effect w.heap h' (buffer o) none)
    (null : buffer left = none) (meaning : rep h' left l) :
    Represents buffer rep ((w.update x h' (some r)).update y h' (some left))
      (Function.update (Function.update m x (m y)) y (some l)) := by
  have gone := held.destroy owning object effect
  have kept : (w.update x h' none).object y = some r := by
    simp [World.update, apart.symm, source]
  have nothing : (w.update x h' none).object x = none := by simp [World.update]
  have taken := gone.move owning apart nothing null meaning
  rw [kept, Function.update_of_ne apart.symm, Function.update_idem] at taken
  have same : ((w.update x h' none).update x h' (some r)) = w.update x h' (some r) :=
    w.update_update x h' h' none (some r)
  rw [← same]
  exact taken

end Objects

end Memory
