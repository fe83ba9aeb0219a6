import UpanLibs.Ds.AvlTreeMethods
import UpanLibs.Transition

/-!
Any number of named trees in one heap, and all that is done to them. No two of them ever have
a node in common, and every live node is in one of them.
-/
namespace AvlTree
open Memory HeightTree HeightTree.HTree Transition

variable {X V K : Type}

inductive Op (X V K : Type) where
  | construct (x : X)
  | copy (x y : X)
  | assign (x y : X)
  | insert (x : X) (value : V)
  | index (x : X) (value : V) (write : V → V)
  | erase (x : X) (key : K)
  | eraseIt (x : X) (it : Nat)
  | clear (x : X)
  | destruct (x : X)

def Op.target : Op X V K → X
  | .construct x | .copy x _ | .assign x _ | .insert x _ | .index x _ _ | .erase x _ | .eraseIt x _
  | .clear x | .destruct x => x

def start : World X Avl (Node V) := ⟨.empty, fun _ => none⟩

/-- The names are those of objects that live, or do not live yet; a write leaves the key; an
    iterator is at a node that lives. -/
def Allowed (C : CType V K) (w : World X Avl (Node V)) : Op X V K → Prop
  | .construct x => w.object x = none
  | .copy x y => w.object x = none ∧ w.object y ≠ none
  | .assign x y => w.object x ≠ none ∧ w.object y ≠ none
  | .index x _ write => w.object x ≠ none ∧ ∀ e, C.getKey (write e) = C.getKey e
  | .eraseIt x it => w.object x ≠ none ∧ w.heap.block it ≠ none
  | .insert x _ | .erase x _ | .clear x | .destruct x => w.object x ≠ none

/-- The trees that the objects hold: nothing, where none lives. -/
structure Sound (C : CType V K) (w : World X Avl (Node V)) (trees : X → Cells V) : Prop where
  holds : ∀ x m, w.object x = some m → Holds C w.heap m (trees x)
  none_ : ∀ x, w.object x = none → trees x = leaf
  apart : ∀ x y, x ≠ y → ∀ a ∈ ids (trees x), a ∉ ids (trees y)
  owned : ∀ a, w.heap.block a ≠ none → ∃ x, a ∈ ids (trees x)

section Steps

variable {C : CType V K} {w : World X Avl (Node V)} {trees : X → Cells V}

theorem sound_start : Sound C (start : World X Avl (Node V)) fun _ => leaf := by
  constructor
  · intro x m here
    cases here
  · intro x _
    rfl
  · intro x y _ a mem
    cases mem
  · intro a live
    exact absurd rfl live

theorem Sound.linked (sound : Sound C w trees) (x : X) : ∃ p, Linked w.heap (trees x) p := by
  cases object : w.object x with
  | none =>
    rw [sound.none_ x object]
    exact ⟨none, trivial⟩
  | some m => exact ⟨none, (sound.holds x m object).linked⟩

variable [DecidableEq X]

/-- An operation on the trees, if it does not use a node that is not live. -/
def next (C : CType V K) (w : World X Avl (Node V)) : Op X V K → Option (World X Avl (Node V))
  | .construct x => w.build x (pure .new)
  | .copy x y =>
      match w.object y with
      | none => none
      | some o => w.build x (Avl.new.assign C o)
  | .assign x y =>
      match w.object y with
      | none => none
      | some o =>
          if x = y then some w
          else (w.call x fun m => (·, ()) <$> m.assign C o).map Prod.fst
  | .insert x value => (w.call x fun m => m.insert C value).map Prod.fst
  | .index x value write => (w.call x fun m => m.index C value write).map Prod.fst
  | .erase x key => (w.call x fun m => m.erase C key).map Prod.fst
  | .eraseIt x it => (w.call x fun m => m.eraseIt C (some it)).map Prod.fst
  | .clear x => (w.call x fun m => (·, ()) <$> m.clear).map Prod.fst
  | .destruct x =>
      match w.object x with
      | none => none
      | some m => (m.clear w.heap).map fun (_, h) => w.update x h none

theorem Sound.update (sound : Sound C w trees) {x : X} {h' : Heap (Node V)} {o : Option Avl}
    {t : Cells V} (effects : Effects w.heap h' (ids (trees x)) (ids t))
    (holds : ∀ m, o = some m → Holds C h' m t) (nothing : o = none → t = leaf) :
    Sound C (w.update x h' o) (Function.update trees x t) := by
  have others : ∀ y, y ≠ x → (∀ a ∈ ids (trees y), a ∉ ids t) ∧
      ∀ a ∈ ids (trees y), h'.block a = w.heap.block a := by
    intro y other
    obtain ⟨p, linked⟩ := sound.linked y
    exact effects.apart linked (sound.apart y x other)
  constructor
  · intro y m object
    by_cases same : y = x
    · subst same
      simp only [World.update, Function.update_self] at object ⊢
      exact holds m object
    · simp only [World.update, Function.update_of_ne same] at object ⊢
      exact (sound.holds y m object).frame (others y same).2
  · intro y object
    by_cases same : y = x
    · subst same
      simp only [World.update, Function.update_self] at object ⊢
      exact nothing object
    · simp only [World.update, Function.update_of_ne same] at object ⊢
      exact sound.none_ y object
  · intro y z different a mem
    by_cases first : y = x <;> by_cases second : z = x
    · exact absurd (first.trans second.symm) different
    · subst first
      rw [Function.update_self] at mem
      rw [Function.update_of_ne second]
      exact fun mem' => (others z second).1 a mem' mem
    · subst second
      rw [Function.update_of_ne first] at mem
      rw [Function.update_self]
      exact (others y first).1 a mem
    · rw [Function.update_of_ne first] at mem
      rw [Function.update_of_ne second]
      exact sound.apart y z different a mem
  · intro a live
    by_cases now : a ∈ ids t
    · exact ⟨x, by rwa [Function.update_self]⟩
    by_cases was : a ∈ ids (trees x)
    · exact absurd (effects.freed a was now) live
    · have before : w.heap.block a ≠ none := by
        rw [← effects.frame a was now]
        exact live
      obtain ⟨y, mem⟩ := sound.owned a before
      have other : y ≠ x := by
        rintro rfl
        exact was mem
      exact ⟨y, by rwa [Function.update_of_ne other]⟩

theorem Sound.call {γ : Type} (sound : Sound C w trees) {x : X} {m m' : Avl} {t : Cells V}
    {f : Avl → Program (Node V) (Avl × γ)} {r : γ} {h' : Heap (Node V)} (object : w.object x = some m)
    (run : f m w.heap = some ((m', r), h')) (holds : Holds C h' m' t)
    (effects : Effects w.heap h' (ids (trees x)) (ids t)) :
    ∃ w' t', (w.call x f).map Prod.fst = some w' ∧ Sound C w' (Function.update trees x t') ∧
      ∀ y, y ≠ x → w'.object y = w.object y := by
  refine ⟨w.update x h' (some m'), t, ?_, sound.update effects ?_ nofun, ?_⟩
  · simp only [World.call, object, run, Option.map_some]
  · intro n same
    cases same
    exact holds
  · intro y other
    exact Function.update_of_ne other _ _

theorem Sound.build (sound : Sound C w trees) {x : X} {m : Avl} {t : Cells V}
    {f : Program (Node V) Avl} {h' : Heap (Node V)} (fresh : w.object x = none)
    (run : f w.heap = some (m, h')) (holds : Holds C h' m t) (effects : Effects w.heap h' [] (ids t)) :
    ∃ w' t', w.build x f = some w' ∧ Sound C w' (Function.update trees x t') ∧
      ∀ y, y ≠ x → w'.object y = w.object y := by
  refine ⟨w.update x h' (some m), t, ?_, sound.update ?_ ?_ nofun, ?_⟩
  · simp only [World.build, fresh, run, Option.map_some]
  · rw [sound.none_ x fresh]
    exact effects
  · intro n same
    cases same
    exact holds
  · intro y other
    exact Function.update_of_ne other _ _

theorem run_unit {p : Program (Node V) Avl} {h h' : Heap (Node V)} {m : Avl}
    (run : p h = some (m, h')) : ((·, ()) <$> p) h = some ((m, ()), h') := run_map run _

theorem step_sound (sound : Sound C w trees) {op : Op X V K} (allowed : Allowed C w op) :
    ∃ w' t, next C w op = some w' ∧ Sound C w' (Function.update trees op.target t) ∧
      ∀ y, y ≠ op.target → w'.object y = w.object y := by
  cases op with
  | construct x =>
    exact sound.build allowed rfl (holds_new C w.heap) (Within.effects fun a _ => rfl)
  | copy x y =>
    obtain ⟨fresh, live⟩ := allowed
    obtain ⟨o, object⟩ := Option.ne_none_iff_exists'.mp live
    obtain ⟨h', m', t', run, holds', -, effects⟩ := assign_run (holds_new C w.heap)
      (sound.holds y o object) (by simp)
    rw [next, object]
    exact sound.build fresh run holds' effects
  | assign x y =>
    obtain ⟨live, live'⟩ := allowed
    obtain ⟨m, object⟩ := Option.ne_none_iff_exists'.mp live
    obtain ⟨o, object'⟩ := Option.ne_none_iff_exists'.mp live'
    simp only [next, object']
    by_cases same : x = y
    · exact ⟨w, trees x, if_pos same, by rwa [Op.target, Function.update_eq_self], fun _ _ => rfl⟩
    · obtain ⟨h', m', t', run, holds', -, effects⟩ := assign_run (sound.holds x m object)
        (sound.holds y o object') (sound.apart y x (Ne.symm same))
      rw [if_neg same]
      exact sound.call object (run_unit run) holds' effects
  | insert x value =>
    obtain ⟨m, object⟩ := Option.ne_none_iff_exists'.mp allowed
    obtain ⟨h', m', z, run, holds', effects, -⟩ := insert_run (sound.holds x m object) value
    exact sound.call object run holds' effects
  | index x value write =>
    obtain ⟨live, keeps⟩ := allowed
    obtain ⟨m, object⟩ := Option.ne_none_iff_exists'.mp live
    obtain ⟨h', m', z, run, holds', effects, -⟩ :=
      index_run (sound.holds x m object) value keeps
    refine sound.call object run holds' ?_
    rw [ids_relabel]
    exact effects
  | erase x key =>
    obtain ⟨m, object⟩ := Option.ne_none_iff_exists'.mp allowed
    obtain ⟨h', m', run, holds', effects⟩ := erase_run (sound.holds x m object) key
    exact sound.call object run holds' effects
  | eraseIt x it =>
    obtain ⟨live, live'⟩ := allowed
    obtain ⟨m, object⟩ := Option.ne_none_iff_exists'.mp live
    obtain ⟨n, here⟩ := Option.ne_none_iff_exists'.mp live'
    obtain ⟨h', m', run, holds', effects⟩ := erase_run (sound.holds x m object) (C.getKey n.element)
    have read : Avl.value (some it) w.heap = some (n.element, w.heap) :=
      (run_bind (run_deref it)).trans (run_element here)
    exact sound.call object ((run_bind read).trans run) holds' effects
  | clear x =>
    obtain ⟨m, object⟩ := Option.ne_none_iff_exists'.mp allowed
    obtain ⟨h', run, effects⟩ := clear_run (sound.holds x m object)
    exact sound.call object (run_unit run) (holds_new C h') effects
  | destruct x =>
    obtain ⟨m, object⟩ := Option.ne_none_iff_exists'.mp allowed
    obtain ⟨h', run, effects⟩ := clear_run (sound.holds x m object)
    refine ⟨w.update x h' none, leaf, ?_, sound.update effects nofun ?_, ?_⟩
    · simp only [next, object, run, Option.map_some]
    · intro _
      rfl
    · intro y other
      exact Function.update_of_ne other _ _

/-- The runs of operations that are allowed where they are done. -/
abbrev Runs (C : CType V K) : List (Op X V K) → World X Avl (Node V) → Prop :=
  Run (Guarded (Allowed C) (Steps (next C))) start

theorem runs_sound {ops : List (Op X V K)} (run : Runs C ops w) : ∃ trees, Sound C w trees := by
  apply run_invariant (fun w => ∃ trees, Sound C w trees) ?_ run ⟨_, sound_start⟩
  intro w op w' ⟨trees, sound⟩ ⟨allowed, taken⟩
  obtain ⟨w₁, t, result, sound', -⟩ := step_sound sound allowed
  rw [Steps, result, Option.some.injEq] at taken
  subst taken
  exact ⟨_, sound'⟩

/-- After every run each object is a balanced search tree with right heights, links and
    counter, and whatever is allowed next has a result. -/
theorem avl_tree_invariant {ops : List (Op X V K)} (run : Runs C ops w) :
    (∀ x m, w.object x = some m → ∃ t, Holds C w.heap m t) ∧
      ∀ op, Allowed C w op → ∃ w', next C w op = some w' := by
  obtain ⟨trees, sound⟩ := runs_sound run
  constructor
  · intro x m object
    exact ⟨trees x, sound.holds x m object⟩
  · intro op allowed
    obtain ⟨w', t, result, -⟩ := step_sound sound allowed
    exact ⟨w', result⟩

theorem runs_numbers : ∃ w : World Unit Avl (Node Nat),
    Runs numbers [.construct (), .insert () 2, .insert () 1, .insert () 3] w ∧
      w.object () = some ⟨some 0, 3⟩ := by
  obtain ⟨w₁, w₂, w₃, w, first, second, third, fourth, live₁, live₂, live₃, object⟩ :
      ∃ w₁ w₂ w₃ w : World Unit Avl (Node Nat), next numbers start (.construct ()) = some w₁ ∧
        next numbers w₁ (.insert () 2) = some w₂ ∧ next numbers w₂ (.insert () 1) = some w₃ ∧
        next numbers w₃ (.insert () 3) = some w ∧ w₁.object () ≠ none ∧ w₂.object () ≠ none ∧
        w₃.object () ≠ none ∧ w.object () = some ⟨some 0, 3⟩ :=
    ⟨_, _, _, _, rfl, rfl, rfl, rfl, nofun, nofun, nofun, rfl⟩
  refine ⟨w, ?_, object⟩
  exact .cons ⟨rfl, first⟩ (.cons ⟨live₁, second⟩ (.cons ⟨live₂, third⟩
    (.cons ⟨live₃, fourth⟩ (.nil w))))

theorem avl_tree_invariant_numbers : ∃ w : World Unit Avl (Node Nat),
    w.object () = some ⟨some 0, 3⟩ ∧
      (∀ x m, w.object x = some m → ∃ t, Holds numbers w.heap m t) ∧
      ∀ op, Allowed numbers w op → ∃ w', next numbers w op = some w' := by
  obtain ⟨w, run, object⟩ := runs_numbers
  exact ⟨w, object, avl_tree_invariant run⟩

end Steps

end AvlTree
