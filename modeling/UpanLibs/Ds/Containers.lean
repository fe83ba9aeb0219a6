import UpanLibs.Ds.AvlTreeMap
import UpanLibs.Ds.AvlTreeWorld
import UpanLibs.Ds.LinkedListWorld

/-!
Any number of maps, sets and lists, with the members that the compiler adds. The constructor of
`_tree` that moves leaves the pointer in its source, and the move assignment of a map or a set
is the one that copies.
-/
namespace Containers
open Memory Transition AvlTree HeightTree.HTree

section Trees

variable {X V K : Type}

inductive TreeOp (X V K : Type) where
  | call (op : AvlTree.Op X V K)
  | move (x y : X)

def TreeOp.target : TreeOp X V K → X
  | .call op => op.target
  | .move x _ => x

def TreeAllowed (C : CType V K) (w : World X Avl (Node V)) : TreeOp X V K → Prop
  | .call op => AvlTree.Allowed C w op
  | .move x y => w.object x = none ∧ w.object y ≠ none

def TreeOwned (w : World X Avl (Node V)) : TreeOp X V K → Prop
  | .call _ => True
  | .move _ y => w.object y = some .new

def treeContents (w : World X Avl (Node V)) (x : X) : Option (List V) :=
  (w.object x).bind fun m => (m.foreach w.heap).map Prod.fst

variable {C : CType V K} {w : World X Avl (Node V)} {trees : X → Cells V}

theorem sound_contents (sound : Sound C w trees) (x : X) :
    treeContents w x = (w.object x).map fun _ => values (trees x) := by
  rw [treeContents]
  cases object : w.object x with
  | none => rfl
  | some m => rw [Option.bind_some, foreach_run (sound.holds x m object)]; rfl

variable [DecidableEq X]

def nextTree (C : CType V K) (w : World X Avl (Node V)) :
    TreeOp X V K → Option (World X Avl (Node V))
  | .call op => AvlTree.next C w op
  | .move x y =>
      match w.object y with
      | none => none
      | some o => w.build x (pure o)

theorem nextTree_sound (sound : Sound C w trees) {op : TreeOp X V K}
    (allowed : TreeAllowed C w op) (owned : TreeOwned w op) :
    ∃ w' t, nextTree C w op = some w' ∧ Sound C w' (Function.update trees op.target t) ∧
      ∀ y, y ≠ op.target → w'.object y = w.object y := by
  cases op with
  | call op => exact step_sound sound allowed
  | move x y =>
    rw [nextTree, owned]
    exact sound.build allowed.1 rfl (holds_new C w.heap) (Within.effects fun a _ => rfl)

theorem owned_of_sound {op : TreeOp X V K} (allowed : TreeAllowed C w op)
    {w' : World X Avl (Node V)} (taken : nextTree C w op = some w') {trees' : X → Cells V}
    (sound' : Sound C w' trees') : TreeOwned w op := by
  cases op with
  | call op => trivial
  | move x y =>
    obtain ⟨fresh, live⟩ := allowed
    obtain ⟨o, object⟩ := Option.ne_none_iff_exists'.mp live
    have other : y ≠ x := by
      rintro rfl
      exact live fresh
    simp only [nextTree, object, World.build, fresh] at taken
    have same : w.update x w.heap (some o) = w' := Option.some.inj taken
    subst same
    have mine := sound'.holds x o (Function.update_self _ _ _)
    have theirs := sound'.holds y o ((Function.update_of_ne other _ _).trans object)
    have nothing : o.root = none := by
      cases top : o.root with
      | none => rfl
      | some a =>
        have first := root_mem (mine.root.symm.trans top)
        have second := root_mem (theirs.root.symm.trans top)
        exact absurd first (sound'.apart y x other a second)
    have leaf := root_eq_none.mp (mine.root.symm.trans nothing)
    have size := mine.size
    rw [leaf] at size
    rw [TreeOwned, object]
    cases o
    cases nothing
    cases size
    rfl

end Trees

section Populations

structure Population (X Y Z V U α : Type) where
  maps : World X Avl (Node V)
  sets : World Y Avl (Node U)
  lists : World Z LinkedList.Lst (NodeRing.Node α)

inductive Name (X Y Z : Type) where
  | map (x : X)
  | set (y : Y)
  | list (z : Z)
  deriving DecidableEq

inductive Contents (V U α : Type) where
  | map (l : List V)
  | set (l : List U)
  | list (l : List α)

inductive Op (X Y Z V K U L α : Type) where
  | map (op : TreeOp X V K)
  | set (op : TreeOp Y U L)
  | list (op : LinkedList.ListOp Z α)

variable {X Y Z V K U L α : Type}

def Op.target : Op X Y Z V K U L α → Name X Y Z
  | .map op => .map op.target
  | .set op => .set op.target
  | .list op => .list op.target

def startAll : Population X Y Z V U α := ⟨start, start, LinkedList.startLists⟩

namespace Population

def Lives (p : Population X Y Z V U α) : Name X Y Z → Prop
  | .map x => p.maps.object x ≠ none
  | .set y => p.sets.object y ≠ none
  | .list z => p.lists.object z ≠ none

def contents (p : Population X Y Z V U α) : Name X Y Z → Option (Contents V U α)
  | .map x => (treeContents p.maps x).map .map
  | .set y => (treeContents p.sets y).map .set
  | .list z => (LinkedList.listContents p.lists z).map .list

end Population

variable (C : CType V K) (D : CType U L) (lt eq : α → α → Bool)

/-- The names are those of objects that live, or do not live yet, and an iterator is at an
    element. -/
def Allowed (p : Population X Y Z V U α) : Op X Y Z V K U L α → Prop
  | .map op => TreeAllowed C p.maps op
  | .set op => TreeAllowed D p.sets op
  | .list op => LinkedList.ListAllowed p.lists op

/-- No map or set with elements is moved, and no list is assigned, but to itself or with no
    elements in either. -/
def Owned (p : Population X Y Z V U α) : Op X Y Z V K U L α → Prop
  | .map op => TreeOwned p.maps op
  | .set op => TreeOwned p.sets op
  | .list op => LinkedList.ListOwned p.lists op

/-- The nodes of different containers are different, and every live node is in one that lives. -/
structure Separate (p : Population X Y Z V U α) : Prop where
  maps : ∃ trees, Sound C p.maps trees
  sets : ∃ trees, Sound D p.sets trees
  lists : ∃ cells, LinkedList.Separate p.lists cells

variable {C D lt eq} {p : Population X Y Z V U α}

theorem separate_startAll : Separate C D (startAll : Population X Y Z V U α) :=
  ⟨⟨_, sound_start⟩, ⟨_, sound_start⟩, ⟨_, LinkedList.separate_start⟩⟩

theorem Separate.contents (separate : Separate C D p) (n : Name X Y Z) :
    p.Lives n ↔ p.contents n ≠ none := by
  cases n with
  | map x =>
    obtain ⟨trees, sound⟩ := separate.maps
    simp [Population.Lives, Population.contents, sound_contents sound]
  | set y =>
    obtain ⟨trees, sound⟩ := separate.sets
    simp [Population.Lives, Population.contents, sound_contents sound]
  | list z =>
    obtain ⟨cells, apart⟩ := separate.lists
    simp [Population.Lives, Population.contents, apart.contents]

theorem Separate.nothing_left (separate : Separate C D p) (gone : ∀ n, ¬p.Lives n) (a : Nat) :
    p.maps.heap.block a = none ∧ p.sets.heap.block a = none ∧ p.lists.heap.block a = none := by
  obtain ⟨⟨maps, soundM⟩, ⟨sets, soundS⟩, ⟨cells, apart⟩⟩ := separate
  refine ⟨?_, ?_, ?_⟩
  · by_contra live
    obtain ⟨x, mem⟩ := soundM.owned a live
    rw [soundM.none_ x (not_not.mp (gone (.map x)))] at mem
    cases mem
  · by_contra live
    obtain ⟨y, mem⟩ := soundS.owned a live
    rw [soundS.none_ y (not_not.mp (gone (.set y)))] at mem
    cases mem
  · by_contra live
    obtain ⟨z, mem⟩ := apart.owners.owned a live
    rw [apart.none_ z (not_not.mp (gone (.list z)))] at mem
    cases mem

variable [DecidableEq X] [DecidableEq Y] [DecidableEq Z]

variable (C D lt eq) in
def next (p : Population X Y Z V U α) :
    Op X Y Z V K U L α → Option (Population X Y Z V U α)
  | .map op => (nextTree C p.maps op).map fun w => ⟨w, p.sets, p.lists⟩
  | .set op => (nextTree D p.sets op).map fun w => ⟨p.maps, w, p.lists⟩
  | .list op => (LinkedList.nextList lt eq p.lists op).map fun w => ⟨p.maps, p.sets, w⟩

theorem next_separate (separate : Separate C D p) {op : Op X Y Z V K U L α}
    (allowed : Allowed C D p op) (owned : Owned p op) :
    ∃ p', next C D lt eq p op = some p' ∧ Separate C D p' ∧
      ∀ n, n ≠ op.target → p'.contents n = p.contents n := by
  obtain ⟨⟨maps, soundM⟩, ⟨sets, soundS⟩, ⟨cells, apart⟩⟩ := separate
  cases op with
  | map op =>
    obtain ⟨w', t, taken, sound', kept⟩ := nextTree_sound soundM allowed owned
    refine ⟨⟨w', p.sets, p.lists⟩, by rw [next, taken]; rfl,
      ⟨⟨_, sound'⟩, ⟨_, soundS⟩, ⟨_, apart⟩⟩, ?_⟩
    intro n other
    cases n with
    | set | list => rfl
    | map x =>
      have different : x ≠ op.target := fun same => other (congrArg Name.map same)
      rw [Population.contents, Population.contents, sound_contents sound', sound_contents soundM,
        kept x different, Function.update_of_ne different]
  | set op =>
    obtain ⟨w', t, taken, sound', kept⟩ := nextTree_sound soundS allowed owned
    refine ⟨⟨p.maps, w', p.lists⟩, by rw [next, taken]; rfl,
      ⟨⟨_, soundM⟩, ⟨_, sound'⟩, ⟨_, apart⟩⟩, ?_⟩
    intro n other
    cases n with
    | map | list => rfl
    | set y =>
      have different : y ≠ op.target := fun same => other (congrArg Name.set same)
      rw [Population.contents, Population.contents, sound_contents sound', sound_contents soundS,
        kept y different, Function.update_of_ne different]
  | list op =>
    obtain ⟨w', c, taken, apart', kept⟩ := LinkedList.step_separate apart allowed owned
    refine ⟨⟨p.maps, p.sets, w'⟩, by rw [next, taken]; rfl,
      ⟨⟨_, soundM⟩, ⟨_, soundS⟩, ⟨_, apart'⟩⟩, ?_⟩
    intro n other
    cases n with
    | map | set => rfl
    | list z =>
      have different : z ≠ op.target := fun same => other (congrArg Name.list same)
      rw [Population.contents, Population.contents, apart'.contents, apart.contents,
        kept z different, Function.update_of_ne different]

theorem owned_of_next (separate : Separate C D p) {op : Op X Y Z V K U L α}
    (allowed : Allowed C D p op) {p' : Population X Y Z V U α}
    (taken : next C D lt eq p op = some p') (separate' : Separate C D p') : Owned p op := by
  obtain ⟨⟨maps, soundM⟩, ⟨sets, soundS⟩, ⟨cells, apart'⟩⟩ := separate'
  cases op with
  | map op =>
    obtain ⟨w', moved, same⟩ := Option.map_eq_some_iff.mp taken
    subst same
    exact owned_of_sound allowed moved soundM
  | set op =>
    obtain ⟨w', moved, same⟩ := Option.map_eq_some_iff.mp taken
    subst same
    exact owned_of_sound allowed moved soundS
  | list op =>
    obtain ⟨w', moved, same⟩ := Option.map_eq_some_iff.mp taken
    subst same
    obtain ⟨cells, apart⟩ := separate.lists
    exact LinkedList.owned_of_separate apart allowed moved apart'

/-- The runs of operations that are allowed where they are done, and copy no pointer. -/
abbrev Runs (C : CType V K) (D : CType U L) (lt eq : α → α → Bool) :
    List (Op X Y Z V K U L α) → Population X Y Z V U α → Prop :=
  Run (Guarded (fun p op => Allowed C D p op ∧ Owned p op) (Steps (next C D lt eq))) startAll

/-- After every run that copies no pointer the containers are apart and can be read, and what
    is allowed next leaves them apart, and the contents of the others, exactly if it copies no
    pointer either. -/
theorem containers_independent {ops : List (Op X Y Z V K U L α)} (run : Runs C D lt eq ops p) :
    Separate C D p ∧ (∀ n, p.Lives n ↔ p.contents n ≠ none) ∧
      ((∀ n, ¬p.Lives n) → ∀ a, p.maps.heap.block a = none ∧ p.sets.heap.block a = none ∧
        p.lists.heap.block a = none) ∧
      ∀ op, Allowed C D p op → (Owned p op ↔ ∃ p', next C D lt eq p op = some p' ∧
        Separate C D p' ∧ ∀ n, n ≠ op.target → p'.contents n = p.contents n) := by
  have separate : Separate C D p := by
    refine run_invariant (Separate C D) ?_ run separate_startAll
    intro p op p' separate step
    obtain ⟨p₁, taken, separate', -⟩ := next_separate separate step.1.1 step.1.2
    have same : p₁ = p' := Option.some.inj (taken.symm.trans step.2)
    rwa [← same]
  refine ⟨separate, separate.contents, separate.nothing_left, ?_⟩
  intro op allowed
  constructor
  · exact next_separate separate allowed
  · intro after
    obtain ⟨p', taken, separate', -⟩ := after
    exact owned_of_next separate allowed taken separate'

abbrev Few : Type := Population Nat Nat Nat Nat Nat Nat

abbrev FewOp : Type := Op Nat Nat Nat Nat Nat Nat Nat Nat

abbrev few (p : Few) (op : FewOp) : Option Few := next numbers numbers Nat.blt Nat.beq p op

theorem containers_independent_few : ∃ p : Few, p.contents (.map 1) = some (.map [5]) ∧
    p.contents (.list 0) = some (.list [7]) ∧
    Separate numbers numbers p ∧ (∀ n, p.Lives n ↔ p.contents n ≠ none) ∧
      ((∀ n, ¬p.Lives n) → ∀ a, p.maps.heap.block a = none ∧ p.sets.heap.block a = none ∧
        p.lists.heap.block a = none) ∧
      ∀ op, Allowed numbers numbers p op → (Owned p op ↔ ∃ p', few p op = some p' ∧
        Separate numbers numbers p' ∧ ∀ n, n ≠ op.target → p'.contents n = p.contents n) := by
  obtain ⟨p₁, p₂, p₃, p₄, p, first, second, third, fourth, last, fresh₁, live₁, nothing, live₂,
      fresh₃, live₄, maps, lists⟩ :
      ∃ p₁ p₂ p₃ p₄ p : Few, few startAll (.map (.call (.construct 0))) = some p₁ ∧
        few p₁ (.map (.move 1 0)) = some p₂ ∧ few p₂ (.map (.call (.insert 1 5))) = some p₃ ∧
        few p₃ (.list (.construct 0)) = some p₄ ∧ few p₄ (.list (.call 0 (.pushBack 7))) = some p ∧
        p₁.maps.object 1 = none ∧ p₁.maps.object 0 ≠ none ∧ p₁.maps.object 0 = some .new ∧
        p₂.maps.object 1 ≠ none ∧ p₃.lists.object 0 = none ∧ p₄.lists.object 0 ≠ none ∧
        p.contents (.map 1) = some (.map [5]) ∧ p.contents (.list 0) = some (.list [7]) :=
    ⟨_, _, _, _, _, rfl, rfl, rfl, rfl, rfl, rfl, nofun, rfl, nofun, rfl, nofun, rfl, rfl⟩
  have run : Runs numbers numbers Nat.blt Nat.beq [.map (.call (.construct 0)), .map (.move 1 0),
      .map (.call (.insert 1 5)), .list (.construct 0), .list (.call 0 (.pushBack 7))] p := by
    refine .cons ⟨⟨rfl, trivial⟩, first⟩ (.cons ⟨⟨⟨fresh₁, live₁⟩, nothing⟩, second⟩
      (.cons ⟨⟨live₂, trivial⟩, third⟩ (.cons ⟨⟨fresh₃, trivial⟩, fourth⟩
        (.cons ⟨⟨⟨live₄, ?_⟩, trivial⟩, last⟩ (.nil p)))))
    intro a mem
    cases mem
  exact ⟨p, maps, lists, containers_independent run⟩

def Shares (p : Few) (op : FewOp) (n : Name Nat Nat Nat) (again : FewOp) : Prop :=
  ∃ p', few p op = some p' ∧ p.contents n ≠ none ∧ p'.contents n = none ∧
    Allowed numbers numbers p' again ∧ few p' again = none

/-- So it is after operations that are all allowed, and the containers are not apart. -/
def SharesAfter (ops : List FewOp) (op : FewOp) (n : Name Nat Nat Nat) (again : FewOp) : Prop :=
  ∃ p, Run (Guarded (Allowed numbers numbers) (Steps few)) startAll ops p ∧ Shares p op n again ∧
    ¬Separate numbers numbers p

theorem Shares.not_separate {p : Few} {op again : FewOp} {n : Name Nat Nat Nat}
    (shares : Shares p op n again) (allowed : Allowed numbers numbers p op) (owned : Owned p op)
    (other : n ≠ op.target) : ¬Separate numbers numbers p := by
  obtain ⟨p', taken, before, after, -⟩ := shares
  intro separate
  obtain ⟨p₁, taken', -, kept⟩ := next_separate separate allowed owned
  have same : p₁ = p' := Option.some.inj (taken'.symm.trans taken)
  rw [← kept n other, same] at before
  exact before after

theorem map_moved : SharesAfter
    [.map (.call (.construct 0)), .map (.call (.insert 0 5)), .map (.move 1 0)]
    (.map (.call (.destruct 0))) (.map 1) (.map (.call (.destruct 1))) := by
  obtain ⟨p₁, p₂, p, first, second, third, live₁, live₂, fresh, live, shares⟩ :
      ∃ p₁ p₂ p : Few, few startAll (.map (.call (.construct 0))) = some p₁ ∧
        few p₁ (.map (.call (.insert 0 5))) = some p₂ ∧ few p₂ (.map (.move 1 0)) = some p ∧
        p₁.maps.object 0 ≠ none ∧ p₂.maps.object 0 ≠ none ∧ p₂.maps.object 1 = none ∧
        p.maps.object 0 ≠ none ∧
        Shares p (.map (.call (.destruct 0))) (.map 1) (.map (.call (.destruct 1))) :=
    ⟨_, _, _, rfl, rfl, rfl, nofun, nofun, rfl, nofun, _, rfl, nofun, rfl, nofun, rfl⟩
  refine ⟨p, ?_, shares, shares.not_separate live trivial (by decide)⟩
  exact .cons ⟨rfl, first⟩ (.cons ⟨live₁, second⟩ (.cons ⟨⟨fresh, live₂⟩, third⟩ (.nil p)))

theorem list_assigned : SharesAfter
    [.list (.construct 0), .list (.call 0 (.pushBack 5)), .list (.construct 1),
      .list (.assign 1 0)]
    (.list (.destruct 0)) (.list 1) (.list (.destruct 1)) := by
  obtain ⟨p₁, p₂, p₃, p, first, second, third, fourth, live₁, fresh, live₃, live₃', live, shares⟩ :
      ∃ p₁ p₂ p₃ p : Few, few startAll (.list (.construct 0)) = some p₁ ∧
        few p₁ (.list (.call 0 (.pushBack 5))) = some p₂ ∧
        few p₂ (.list (.construct 1)) = some p₃ ∧ few p₃ (.list (.assign 1 0)) = some p ∧
        p₁.lists.object 0 ≠ none ∧ p₂.lists.object 1 = none ∧ p₃.lists.object 1 ≠ none ∧
        p₃.lists.object 0 ≠ none ∧ p.lists.object 0 ≠ none ∧
        Shares p (.list (.destruct 0)) (.list 1) (.list (.destruct 1)) :=
    ⟨_, _, _, _, rfl, rfl, rfl, rfl, nofun, rfl, nofun, nofun, nofun, _, rfl, nofun, rfl, nofun,
      rfl⟩
  refine ⟨p, ?_, shares, shares.not_separate live trivial (by decide)⟩
  refine .cons ⟨rfl, first⟩ (.cons ⟨⟨live₁, ?_⟩, second⟩ (.cons ⟨fresh, third⟩
    (.cons ⟨⟨live₃, live₃'⟩, fourth⟩ (.nil p))))
  intro a mem
  cases mem

/-- The containers are not independent after a move of a map, nor after an assignment of a list. -/
theorem special_members_share :
    SharesAfter [.map (.call (.construct 0)), .map (.call (.insert 0 5)), .map (.move 1 0)]
      (.map (.call (.destruct 0))) (.map 1) (.map (.call (.destruct 1))) ∧
    SharesAfter [.list (.construct 0), .list (.call 0 (.pushBack 5)), .list (.construct 1),
        .list (.assign 1 0)]
      (.list (.destruct 0)) (.list 1) (.list (.destruct 1)) :=
  ⟨map_moved, list_assigned⟩

end Populations
end Containers
