import Mathlib.Data.List.TakeWhile
import UpanLibs.UiObject.ObjectTree

/-!
The two maps, the focused objects and the redraw queue over whole runs of the manager.
-/
namespace UIObjectManager
open Manager

universe u
variable {α : Type u} [DecidableEq α]

/-- What a draw of the queued objects reaches: the objects themselves and the root, their
    recorded parents and their children. -/
inductive Touched (root : α) (s : Manager α) : α → Prop where
  | queued {x : α} (here : x ∈ s.modifiedUIObjects) : Touched root s x
  | root {x : α} (here : x ∈ s.modifiedUIObjects) : Touched root s root
  | parent {x p : α} (from_ : Touched root s x) (recorded : s.parentOf x = some p) :
      Touched root s p
  | child {x c : α} (from_ : Touched root s x) (listed : c ∈ s.listOf x) : Touched root s c

/-- The maps agree, the children of each parent are in the order of the z-index they were
    added with, an object that was removed can be added again, and no object that was deleted
    is referred to or drawn. -/
structure Consistent (root : α) (s : Manager α) : Prop where
  listed_iff : ∀ p c, c ∈ s.listOf p ↔ s.parentOf c = some p
  ordered : ∀ p, (s.listOf p).Pairwise fun a b => s.zAdded a ≤ s.zAdded b
  readded : ∀ c ∈ s.removed, ∀ p, p ≠ c → ∃ t, s.add p c = .ok t
  gone : ∀ x ∈ s.destroyed, ¬ s.Mentions x
  drawn : ∀ x, Touched root s x → x ∉ s.destroyed

/-- Among its siblings the new child is put where its z-index belongs by what theirs were
    when they were added. -/
def Placed (s : Manager α) (p c : α) : Prop :=
  (∀ e ∈ (s.listOf p).takeWhile fun e => ¬ s.comp c e, s.zAdded e ≤ s.zIndex c) ∧
    ∀ e ∈ (s.listOf p).dropWhile fun e => ¬ s.comp c e, s.zIndex c ≤ s.zAdded e

/-- The arguments of a call are objects that exist. -/
def Op.Alive (s : Manager α) (op : Op α) : Prop := ∀ o ∈ op.args, o ∉ s.destroyed

def Op.Meets (root : α) (s : Manager α) : Op α → Prop
  | .add p c => p ≠ c → s.parentOf c = none → Placed s p c
  | .remove c => s.parentOf c = none
  | .destroy o => s.parentOf o ≠ none →
      (∀ x, s.Below o x → s.modifiedUIObjects.count x ≤ 1) ∧
        (s.Below o root → ∀ x ∈ s.modifiedUIObjects, s.Below o x)
  | .queueForRedraw _ => root ∉ s.destroyed
  | _ => True

instance (s : Manager α) (op : Op α) : Decidable (op.Alive s) :=
  inferInstanceAs (Decidable (∀ o ∈ op.args, o ∉ s.destroyed))

instance (s : Manager α) (p c : α) : Decidable (Placed s p c) :=
  inferInstanceAs (Decidable (_ ∧ _))

structure Inv (root : α) (s : Manager α) : Prop where
  sound : Sound s
  removed : s.removed = []
  rooted : root ∈ s.destroyed → s.modifiedUIObjects = []

variable {root : α} {s t : Manager α}

theorem Inv.consistent (inv : Inv root s) : Consistent root s where
  listed_iff := inv.sound.listed_iff
  ordered := inv.sound.ordered
  readded := by simp [inv.removed]
  gone := inv.sound.gone
  drawn := by
    intro x touched dead
    induction touched with
    | queued here => exact inv.sound.gone _ dead (.queued here)
    | root here =>
      rw [inv.rooted dead] at here
      cases here
    | parent _ recorded _ => exact inv.sound.gone _ dead (.value recorded)
    | child _ listed _ => exact inv.sound.gone _ dead (.listed listed)

/-- What `add` makes of a state in which it does not throw. -/
def entered (s : Manager α) (p c : α) : Manager α :=
  { s.setList p ((s.listOf p).orderedInsert s.comp c) with
    childParentMap := s.childParentMap.insert c p
    zAdded := Function.update s.zAdded c (s.zIndex c)
    removed := s.removed.filter (· ≠ c) }

theorem add_cases {p c : α} (done : s.add p c = .ok t) :
    p ≠ c ∧ s.parentOf c = none ∧ t = entered s p c := by
  unfold Manager.add at done
  split at done
  next => cases done
  next apart =>
    split at done
    next => cases done
    next free => exact ⟨apart, free, (Except.ok.inj done).symm⟩

theorem parentOf_entered (s : Manager α) (p c d : α) :
    (entered s p c).parentOf d = if d = c then some p else s.parentOf d := by
  split
  next same =>
    subst same
    exact AList.lookup_insert _
  next apart => exact AList.lookup_insert_ne apart

theorem listOf_entered (s : Manager α) (p c q : α) :
    (entered s p c).listOf q =
      if q = p then (s.listOf p).orderedInsert s.comp c else s.listOf q :=
  listOf_setList s p _ q

theorem mem_listOf_entered (s : Manager α) (p c q d : α) :
    d ∈ (entered s p c).listOf q ↔ (d = c ∧ q = p) ∨ d ∈ s.listOf q := by
  rw [listOf_entered]
  split
  next same =>
    subst same
    rw [List.mem_orderedInsert]
    tauto
  next other => tauto

theorem mentions_entered {s : Manager α} {p c x : α} (here : (entered s p c).Mentions x) :
    x = p ∨ x = c ∨ s.Mentions x := by
  cases here with
  | key here =>
    rcases (AList.mem_insert _).mp here with same | here
    · exact .inl same
    · exact .inr (.inr (.key here))
  | listed here =>
    rcases (mem_listOf_entered s p c _ x).mp here with ⟨same, -⟩ | here
    · exact .inr (.inl same)
    · exact .inr (.inr (.listed here))
  | child here =>
    rcases (AList.mem_insert _).mp here with same | here
    · exact .inr (.inl same)
    · exact .inr (.inr (.child here))
  | value here =>
    rw [parentOf_entered] at here
    split at here
    next => exact .inl (Option.some.inj here).symm
    next => exact .inr (.inr (.value here))
  | keyboard here => exact .inr (.inr (.keyboard here))
  | mouse here => exact .inr (.inr (.mouse here))
  | queued here => exact .inr (.inr (.queued here))

theorem entered_ordered {p c : α} (sound : Sound s) (free : s.parentOf c = none)
    (placed : Placed s p c) (q : α) :
    ((entered s p c).listOf q).Pairwise fun a b =>
      (entered s p c).zAdded a ≤ (entered s p c).zAdded b := by
  have old : ∀ q, ∀ e ∈ s.listOf q, (entered s p c).zAdded e = s.zAdded e := by
    intro q e listed
    apply Function.update_of_ne
    rintro rfl
    rw [sound.listed_iff, free] at listed
    cases listed
  have new : (entered s p c).zAdded c = s.zIndex c := Function.update_self ..
  have kept : ∀ q, (s.listOf q).Pairwise fun a b =>
      (entered s p c).zAdded a ≤ (entered s p c).zAdded b := by
    intro q
    apply (sound.ordered q).imp_of_mem
    intro a b ha hb
    rw [old q a ha, old q b hb]
    exact id
  rw [listOf_entered]
  split
  next =>
    rw [List.orderedInsert_eq_take_drop, List.pairwise_append, List.pairwise_cons]
    refine ⟨(kept p).sublist (List.takeWhile_sublist _),
      ⟨?_, (kept p).sublist (List.dropWhile_sublist _)⟩, ?_⟩
    · intro e after
      rw [old p e ((List.dropWhile_sublist _).subset after), new]
      exact placed.2 e after
    · intro a before b after
      rw [old p a ((List.takeWhile_sublist _).subset before)]
      rcases List.mem_cons.mp after with rfl | after
      · rw [new]
        exact placed.1 a before
      · rw [old p b ((List.dropWhile_sublist _).subset after)]
        exact (placed.1 a before).trans (placed.2 b after)
  next => exact kept q

theorem Inv.add {p c : α} (inv : Inv root s) (alive : (Op.add p c).Alive s)
    (met : (Op.add p c).Meets root s) (done : s.add p c = .ok t) : Inv root t := by
  obtain ⟨apart, free, rfl⟩ := add_cases done
  have sound := inv.sound
  refine ⟨⟨?_, ?_, entered_ordered sound free (met apart free), ?_⟩, ?_, inv.rooted⟩
  · intro q d
    rw [mem_listOf_entered, parentOf_entered, sound.listed_iff]
    split
    next same =>
      subst same
      rw [free]
      simp [eq_comm]
    next other => simp [other]
  · intro q
    rw [listOf_entered]
    split
    next =>
      have unlisted : c ∉ s.listOf p := by
        rw [sound.listed_iff, free]
        exact fun none_ => nomatch none_
      exact (List.perm_orderedInsert s.comp c _).nodup_iff.mpr
        (List.nodup_cons.mpr ⟨unlisted, sound.once p⟩)
    next => exact sound.once q
  · intro x dead here
    rcases mentions_entered here with rfl | rfl | here
    · exact alive x (by simp [Op.args]) dead
    · exact alive x (by simp [Op.args]) dead
    · exact sound.gone x dead here
  · change s.removed.filter _ = []
    rw [inv.removed]
    rfl

theorem Inv.alive (inv : Inv root s) {x : α} (here : s.Mentions x) : x ∉ s.destroyed :=
  fun dead => inv.sound.gone x dead here

theorem Inv.of_same (inv : Inv root s) (lists : t.listOf = s.listOf)
    (parents : t.parentOf = s.parentOf) (zAdded : t.zAdded = s.zAdded)
    (removed : t.removed = s.removed) (destroyed : t.destroyed = s.destroyed)
    (keys : ∀ x ∈ t.parentChildMap, x ∉ s.destroyed)
    (keyboard : ∀ x, t.keyboardFocusedObject = some x → x ∉ s.destroyed)
    (mouse : ∀ x, t.mouseFocusedObject = some x → x ∉ s.destroyed)
    (queue : ∀ x ∈ t.modifiedUIObjects, x ∉ s.destroyed)
    (rooted : root ∈ s.destroyed → t.modifiedUIObjects = []) : Inv root t where
  sound := {
    listed_iff := by
      intro p c
      rw [lists, parents]
      exact inv.sound.listed_iff p c
    once := by
      intro p
      rw [lists]
      exact inv.sound.once p
    ordered := by
      intro p
      rw [lists, zAdded]
      exact inv.sound.ordered p
    gone := by
      intro x dead here
      rw [destroyed] at dead
      cases here with
      | key here => exact keys x here dead
      | listed here => exact inv.alive (.listed (congrFun lists _ ▸ here)) dead
      | child here =>
        have recorded : s.parentOf x ≠ none := congrFun parents x ▸ mem_records.mp here
        exact inv.alive (.child (mem_records.mpr recorded)) dead
      | value here => exact inv.alive (.value (congrFun parents _ ▸ here)) dead
      | keyboard here => exact keyboard x here dead
      | mouse here => exact mouse x here dead
      | queued here => exact queue x here dead }
  removed := removed.trans inv.removed
  rooted := by
    rw [destroyed]
    exact rooted

theorem queue_cases (root : α) (s : Manager α) (o : α) : ∃ queue,
    s.queueForRedraw root o = { s with modifiedUIObjects := queue } ∧
      ∀ x ∈ queue, x = root ∨ x = o ∨ x ∈ s.modifiedUIObjects := by
  unfold Manager.queueForRedraw
  split
  next => exact ⟨[root], rfl, by simp⟩
  next =>
    split
    next =>
      refine ⟨s.modifiedUIObjects ++ [o], rfl, ?_⟩
      intro x mem
      rcases List.mem_append.mp mem with old | new
      · exact .inr (.inr old)
      · exact .inr (.inl (List.mem_singleton.mp new))
    next => exact ⟨s.modifiedUIObjects, rfl, fun x mem => .inr (.inr mem)⟩

theorem Inv.queueForRedraw {o : α} (inv : Inv root s) (alive : o ∉ s.destroyed)
    (up : root ∉ s.destroyed) : Inv root (s.queueForRedraw root o) := by
  obtain ⟨queue, queued, from_⟩ := queue_cases root s o
  rw [queued]
  have all : ∀ x ∈ queue, x ∉ s.destroyed := by
    intro x here
    rcases from_ x here with rfl | rfl | here
    · exact up
    · exact alive
    · exact inv.alive (.queued here)
  exact inv.of_same rfl rfl rfl rfl rfl (fun x here => inv.alive (.key here))
    (fun x here => inv.alive (.keyboard here)) (fun x here => inv.alive (.mouse here)) all
    fun dead => absurd dead up

theorem Inv.children {p : α} (inv : Inv root s) (exists_ : p ∉ s.destroyed) :
    Inv root (s.children p).1 := by
  have lists : (s.setList p (s.listOf p)).listOf = s.listOf := by
    funext q
    rw [listOf_setList]
    split <;> simp [*]
  apply inv.of_same lists rfl rfl rfl rfl _ (fun x here => inv.alive (.keyboard here))
    (fun x here => inv.alive (.mouse here)) (fun x here => inv.alive (.queued here)) inv.rooted
  intro x here
  rcases (AList.mem_insert _).mp here with rfl | here
  · exact exists_
  · exact inv.alive (.key here)

theorem Inv.destroy {o : α} (inv : Inv root s) (met : (Op.destroy o).Meets root s)
    (done : s.destroy o = .ok t) : Inv root t := by
  cases recorded : s.parentOf o with
  | none =>
    rw [destroy_unrecorded recorded] at done
    cases done
  | some p =>
    obtain ⟨once, rooted⟩ := met (by simp [recorded])
    obtain ⟨t', done', destroys⟩ := destroy_sound inv.sound recorded once
    obtain rfl := Except.ok.inj (done'.symm.trans done)
    refine ⟨destroys.sound, destroys.shrunk.removed.trans inv.removed, ?_⟩
    intro dead
    apply List.eq_nil_iff_forall_not_mem.mpr
    intro x queued
    have old := destroys.shrunk.queue.subset queued
    have alive : x ∉ t'.destroyed := fun dead =>
      destroys.sound.gone x dead (.queued queued)
    rw [destroys.destroyed_iff inv.sound] at dead alive
    rcases dead with before | below
    · rw [inv.rooted before] at old
      cases old
    · exact alive (.inr (rooted below x old))

theorem step_inv (op : Op α) (inv : Inv root s) (alive : op.Alive s) (met : op.Meets root s) :
    Inv root (step root s op).1 := by
  cases op with
  | add p c =>
    cases done : s.add p c with
    | error fault => simpa only [step, done, settle] using inv
    | ok t => simpa only [step, done, settle] using inv.add alive met done
  | remove c =>
    have none_ : s.remove c = .error .noParent := remove_unrecorded met
    simpa only [step, none_, settle, Except.map] using inv
  | destroy o =>
    cases done : s.destroy o with
    | error fault => simpa only [step, done, settle] using inv
    | ok t => simpa only [step, done, settle] using inv.destroy met done
  | queueForRedraw o => exact inv.queueForRedraw (alive o (by simp [Op.args])) met
  | draw =>
    exact inv.of_same rfl rfl rfl rfl rfl (fun x here => inv.alive (.key here))
      (fun x here => inv.alive (.keyboard here)) (fun x here => inv.alive (.mouse here))
      (fun x here => nomatch here) fun _ => rfl
  | setKeyboardFocus o =>
    have exists_ : o ∉ s.destroyed := alive o (by simp [Op.args])
    exact inv.of_same rfl rfl rfl rfl rfl (fun x here => inv.alive (.key here))
      (fun x here => Option.some.inj here ▸ exists_) (fun x here => inv.alive (.mouse here))
      (fun x here => inv.alive (.queued here)) inv.rooted
  | setMouseFocus o =>
    have exists_ : o ∉ s.destroyed := alive o (by simp [Op.args])
    exact inv.of_same rfl rfl rfl rfl rfl (fun x here => inv.alive (.key here))
      (fun x here => inv.alive (.keyboard here)) (fun x here => Option.some.inj here ▸ exists_)
      (fun x here => inv.alive (.queued here)) inv.rooted
  | children p => exact inv.children (alive p (by simp [Op.args]))
  | zIndex o z =>
    exact inv.of_same rfl rfl rfl rfl rfl (fun x here => inv.alive (.key here))
      (fun x here => inv.alive (.keyboard here)) (fun x here => inv.alive (.mouse here))
      (fun x here => inv.alive (.queued here)) inv.rooted

theorem new_inv {proxyParent : α} {autoRefresh : Bool} {zIndex : α → Int}
    (born : new root proxyParent autoRefresh zIndex = .ok s) : Inv root s := by
  simp only [new, Fallible.bind_ok_iff] at born
  obtain ⟨t, added, born⟩ := born
  have start : Inv root ⟨∅, ∅, some root, none, [], zIndex, zIndex, [], []⟩ :=
    ⟨⟨by simp [listOf, parentOf], by simp [listOf], by simp [listOf], by simp⟩, rfl, by simp⟩
  have inv : Inv root t :=
    start.add (by simp [Op.Alive]) (fun _ _ => by simp [Placed, listOf]) added
  obtain ⟨apart, -, same⟩ := add_cases added
  have empty : t.listOf root = [] := by
    rw [same, listOf_entered, if_neg (Ne.symm apart)]
    rfl
  have up : root ∉ t.destroyed := by
    rw [same]
    exact List.not_mem_nil
  have listed := inv.children up
  rw [Manager.children, empty] at listed
  cases autoRefresh with
  | false => exact Except.ok.inj born ▸ listed
  | true => exact Except.ok.inj born ▸ listed.queueForRedraw up up

theorem stays_consistent (proxyParent : α) (autoRefresh : Bool) (zIndex : α → Int)
    (born : new root proxyParent autoRefresh zIndex = .ok s) (ops : List (Op α))
    (met : Machine.Admitted (step root) (fun s op => op.Alive s ∧ op.Meets root s) s ops) :
    Consistent root (Machine.answers (step root) s ops).1 :=
  (Machine.answers_invariant (Inv root) (fun _ op inv met => step_inv op inv met.1 met.2)
    (new_inv born) met).consistent

theorem stays_consistent_subtree : ∃ s, new 0 1 false (fun o : Nat => -(o : Int)) = .ok s ∧
    Consistent 0 (Machine.answers (step 0) s [.add 0 2, .add 2 3, .add 0 4, .queueForRedraw 3,
      .setKeyboardFocus 2, .remove 5, .destroy 2, .draw]).1 := by
  refine ⟨_, rfl, stays_consistent 1 false (fun o : Nat => -(o : Int)) rfl _ ?_⟩
  refine ⟨⟨by decide +kernel, fun _ _ => by decide +kernel⟩,
    ⟨by decide +kernel, fun _ _ => by decide +kernel⟩,
    ⟨by decide +kernel, fun _ _ => by decide +kernel⟩, ⟨by decide +kernel, List.not_mem_nil⟩,
    ⟨by decide +kernel, trivial⟩, ⟨by decide +kernel, rfl⟩, ⟨by decide +kernel, fun _ => ?_⟩,
    ⟨by decide +kernel, trivial⟩, trivial⟩
  constructor
  · intro x _
    exact List.nodup_iff_count_le_one.mp (by decide +kernel) x
  · intro _ x queued
    obtain rfl : x = 3 := List.mem_singleton.mp queued
    exact .single (by decide +kernel)

/-- An object that was queued, followed by another and queued again is still in the queue
    when it has been destroyed; one that was removed keeps its parent, and cannot be added. -/
theorem destroyed_object_queued : ∃ s, new 0 1 false (fun _ : Nat => 0) = .ok s ∧
    Machine.Admitted (step 0) (fun s op => op.Alive s) s [.add 0 2, .add 0 3, .queueForRedraw 2,
      .queueForRedraw 3, .queueForRedraw 2, .destroy 2] ∧
    ¬ Consistent 0 (Machine.answers (step 0) s [.add 0 2, .add 0 3, .queueForRedraw 2,
      .queueForRedraw 3, .queueForRedraw 2, .destroy 2]).1 ∧
    Machine.Admitted (step 0) (fun s op => op.Alive s) s [.add 0 2, .remove 2, .add 3 2] ∧
    (Machine.answers (step 0) s [.add 0 2, .remove 2, .add 3 2]).2 =
      [.ok [], .ok [], .error .alreadyChild] ∧
    ¬ Consistent 0 (Machine.answers (step 0) s [.add 0 2, .remove 2]).1 := by
  refine ⟨_, rfl, by decide +kernel, ?_, by decide +kernel, by decide +kernel, ?_⟩
  · intro consistent
    exact consistent.gone 2 (by decide +kernel) (.queued (by decide +kernel))
  · intro consistent
    have listed := (consistent.listed_iff 0 2).mpr (by decide +kernel)
    exact absurd listed (by decide +kernel)

end UIObjectManager
