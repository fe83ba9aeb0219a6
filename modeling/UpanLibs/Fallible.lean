import Mathlib.Tactic.Common

/-!
Computations that may end in an exception.
-/
namespace Fallible

universe u v
variable {ε : Type u} {α β : Type v}

@[simp]
theorem bind_ok_iff {x : Except ε α} {f : α → Except ε β} {b : β} :
    x >>= f = .ok b ↔ ∃ a, x = .ok a ∧ f a = .ok b := by
  cases x with
  | error fault => simp [bind, Except.bind]
  | ok a => simp [bind, Except.bind]

theorem toOption_some {x : Except ε α} {a : α} : x.toOption = some a ↔ x = .ok a := by
  cases x <;> simp [Except.toOption]

/-- The computation comes to an end without an exception, with a result as described. -/
def Returns (x : Except ε α) (post : α → Prop) : Prop := ∃ a, x = .ok a ∧ post a

theorem Returns.ok {post : α → Prop} {a : α} (here : post a) :
    Returns (.ok a : Except ε α) post :=
  ⟨a, rfl, here⟩

theorem Returns.bind {x : Except ε α} {f : α → Except ε β} {mid : α → Prop} {post : β → Prop}
    (first : Returns x mid) (rest : ∀ a, mid a → Returns (f a) post) :
    Returns (x >>= f) post := by
  obtain ⟨a, rfl, here⟩ := first
  exact rest a here

theorem Returns.mono {x : Except ε α} {mid post : α → Prop} (first : Returns x mid)
    (weaker : ∀ a, mid a → post a) : Returns x post := by
  obtain ⟨a, ok, here⟩ := first
  exact ⟨a, ok, weaker a here⟩

theorem Returns.and {x : Except ε α} {first second : α → Prop} (h : Returns x first)
    (h' : Returns x second) : Returns x fun a => first a ∧ second a := by
  obtain ⟨a, ok, here⟩ := h
  obtain ⟨a', ok', here'⟩ := h'
  cases Except.ok.inj (ok.symm.trans ok')
  exact ⟨a, ok, here, here'⟩

/-- The result, where there is one, is as described. -/
def Always (x : Except ε α) (post : α → Prop) : Prop := ∀ a, x = .ok a → post a

instance {x : Except ε α} {post : α → Prop} [∀ a, Decidable (post a)] :
    Decidable (Always x post) :=
  match x with
  | .ok a => decidable_of_iff (post a)
      ⟨fun here _ same => Except.ok.inj same ▸ here, fun all => all a rfl⟩
  | .error _ => .isTrue fun _ same => nomatch same

theorem Always.ok {post : α → Prop} {a : α} (here : post a) :
    Always (.ok a : Except ε α) post := by
  rintro _ ⟨⟩
  exact here

theorem Always.error {post : α → Prop} (fault : ε) : Always (.error fault) post := nofun

theorem Always.bind {x : Except ε α} {f : α → Except ε β} {mid : α → Prop} {post : β → Prop}
    (first : Always x mid) (rest : ∀ a, mid a → Always (f a) post) : Always (x >>= f) post := by
  intro b all
  obtain ⟨a, ok, done⟩ := bind_ok_iff.mp all
  exact rest a (first a ok) b done

theorem Always.behind {x : Except ε α} {f : α → Except ε β} {post : β → Prop}
    (rest : ∀ a, Always (f a) post) : Always (x >>= f) post :=
  Always.bind (fun _ _ => trivial) fun a _ => rest a

theorem Returns.always {x : Except ε α} {mid post : α → Prop} (first : Returns x mid)
    (all : Always x post) : Returns x fun a => mid a ∧ post a := by
  obtain ⟨a, ok, here⟩ := first
  exact ⟨a, ok, here, all a ok⟩

end Fallible
