import UpanLibs.UiObject.UIObjectManager
import Mathlib.Data.List.Nodup

/-!
Destroying an object: the recursion of `destroy`, and what it leaves of the maps, the
queue and the focused objects.
-/
namespace UIObjectManager

universe u
variable {α : Type u} [DecidableEq α]

namespace Manager

variable (s : Manager α) (p c o : α)

@[simp]
theorem parentOf_setList (list : List α) : (s.setList p list).parentOf c = s.parentOf c := rfl

theorem listOf_setList (list : List α) (q : α) :
    (s.setList p list).listOf q = if q = p then list else s.listOf q := by
  split
  next same =>
    subst same
    simp only [setList, listOf, AList.lookup_insert, Option.getD_some]
  next apart => simp only [setList, listOf, AList.lookup_insert_ne apart]

theorem parentOf_forget : (s.forget o).parentOf c = if c = o then none else s.parentOf c := by
  split
  next same =>
    subst same
    simp only [forget, parentOf, AList.lookup_erase]
  next apart => simp only [forget, parentOf, AList.lookup_erase_ne apart]

@[simp]
theorem listOf_forget (q : α) : (s.forget o).listOf q = s.listOf q := rfl

@[simp]
theorem parentOf_purge : (s.purge o).parentOf c = s.parentOf c := rfl

theorem listOf_purge (q : α) : (s.purge o).listOf q = if q = o then [] else s.listOf q := by
  split
  next same =>
    subst same
    simp only [purge, listOf, AList.lookup_erase, Option.getD_none]
  next apart => simp only [purge, listOf, AList.lookup_erase_ne apart]

theorem mem_of_listOf {s : Manager α} {p c : α} (listed : c ∈ s.listOf p) :
    p ∈ s.parentChildMap := by
  rw [← AList.lookup_isSome]
  cases entry : s.parentChildMap.lookup p with
  | none => simp only [listOf, entry, Option.getD_none, List.not_mem_nil] at listed
  | some list => rfl

theorem mem_records {s : Manager α} {c : α} : c ∈ s.childParentMap.keys ↔ s.parentOf c ≠ none := by
  rw [← AList.mem_keys, ← AList.lookup_isSome, parentOf, Option.isSome_iff_ne_none]

theorem remove_recorded {s : Manager α} {c p : α} (recorded : s.parentOf c = some p) :
    s.remove c = .ok (s.setList p ((s.listOf p).erase c)) := by
  simp only [remove, parent, recorded]
  rfl

theorem remove_unrecorded {s : Manager α} {c : α} (none_ : s.parentOf c = none) :
    s.remove c = .error .noParent := by
  simp only [remove, parent, none_]
  rfl

/-- `s` once an object is out of the list of its parent and has no record. -/
def detached (s : Manager α) (o p : α) : Manager α :=
  (s.setList p ((s.listOf p).erase o)).forget o

/-! The recursion: each call of `destroy` erases a record, so that the number of records is
enough for the calls below it. -/

theorem destroyWith_recorded {n : Nat} {s : Manager α} {o p : α}
    (recorded : s.parentOf o = some p) :
    destroyWith (n + 1) s o =
      (((s.detached o p).listOf o).foldlM (destroyWith n) (s.detached o p)).map (·.purge o) := by
  simp only [destroyWith, remove_recorded recorded]
  rfl

theorem destroyWith_unrecorded {n : Nat} {s : Manager α} {o : α} (none_ : s.parentOf o = none) :
    destroyWith n s o = .error .noParent := by
  cases n with
  | zero => rfl
  | succ n =>
    simp only [destroyWith, remove_unrecorded none_]
    rfl

theorem records_detached {s : Manager α} {o p : α} (recorded : s.parentOf o = some p) :
    (s.detached o p).records + 1 = s.records := by
  have mem : o ∈ s.childParentMap.keys := mem_records.mpr (by simp [recorded])
  have some_ := List.length_pos_of_mem mem
  have kept : (s.detached o p).records = (s.childParentMap.keys.erase o).length := by
    simp only [records, detached, forget, setList, AList.keys_erase]
  rw [kept, List.length_erase_of_mem mem, records]
  omega

theorem foldlM_records {f : Manager α → α → Except Fault (Manager α)}
    (fewer : ∀ s o t, f s o = .ok t → t.records ≤ s.records) {os : List α} {s t : Manager α}
    (done : os.foldlM f s = .ok t) : t.records ≤ s.records := by
  induction os generalizing s with
  | nil =>
    cases done
    exact le_rfl
  | cons o os ih =>
    rw [List.foldlM_cons, Fallible.bind_ok_iff] at done
    obtain ⟨mid, first, rest⟩ := done
    exact (ih rest).trans (fewer s o mid first)

theorem destroyWith_records {n : Nat} {s t : Manager α} {o : α}
    (done : destroyWith n s o = .ok t) : t.records ≤ s.records := by
  induction n generalizing s t o with
  | zero => cases done
  | succ n ih =>
    cases recorded : s.parentOf o with
    | none =>
      rw [destroyWith_unrecorded recorded] at done
      cases done
    | some p =>
      rw [destroyWith_recorded recorded] at done
      cases emptied : ((s.detached o p).listOf o).foldlM (destroyWith n) (s.detached o p) with
      | error fault =>
        rw [emptied] at done
        cases done
      | ok mid =>
        rw [emptied] at done
        cases done
        have fewer := foldlM_records (fun s o t => ih) emptied
        have one := records_detached recorded
        change mid.records ≤ s.records
        omega

theorem foldlM_agree {f g : Manager α → α → Except Fault (Manager α)} (bound : Nat)
    (fewer : ∀ s o t, f s o = .ok t → t.records ≤ s.records)
    (agree : ∀ s o, s.records ≤ bound → f s o = g s o) {os : List α} {s : Manager α}
    (few : s.records ≤ bound) : os.foldlM f s = os.foldlM g s := by
  induction os generalizing s with
  | nil => rfl
  | cons o os ih =>
    rw [List.foldlM_cons, List.foldlM_cons, ← agree s o few]
    cases done : f s o with
    | error fault => rfl
    | ok t => exact ih ((fewer s o t done).trans few)

theorem destroyWith_enough {m n : Nat} {s : Manager α} {o : α} (hm : s.records ≤ m)
    (hn : s.records ≤ n) : destroyWith m s o = destroyWith n s o := by
  induction m generalizing n s o with
  | zero =>
    have unrecorded : s.parentOf o = none := by
      by_contra recorded
      obtain ⟨p, recorded⟩ := Option.ne_none_iff_exists'.mp recorded
      have := records_detached recorded
      omega
    rw [destroyWith_unrecorded unrecorded, destroyWith_unrecorded unrecorded]
  | succ m ih =>
    cases recorded : s.parentOf o with
    | none => rw [destroyWith_unrecorded recorded, destroyWith_unrecorded recorded]
    | some p =>
      have one := records_detached recorded
      obtain ⟨n, rfl⟩ : ∃ k, n = k + 1 := ⟨n - 1, by omega⟩
      rw [destroyWith_recorded recorded, destroyWith_recorded recorded]
      apply congrArg (Except.map fun t : Manager α => t.purge o)
      apply foldlM_agree (min m n) (fun s o t => destroyWith_records) _ (by omega)
      intro t c few
      exact ih (few.trans (min_le_left m n)) (few.trans (min_le_right m n))

theorem destroy_eq (s : Manager α) (o : α) :
    s.destroy o = (do
      let s ← s.remove o
      let s := s.forget o
      let s ← (s.listOf o).foldlM destroy s
      .ok (s.purge o)) := by
  cases recorded : s.parentOf o with
  | none =>
    rw [destroy, destroyWith_unrecorded recorded, remove_unrecorded recorded]
    rfl
  | some p =>
    have one := records_detached recorded
    rw [destroy, ← one, destroyWith_recorded recorded, remove_recorded recorded]
    apply congrArg (Except.map fun t : Manager α => t.purge o)
    apply foldlM_agree (s.detached o p).records (fun s o t => destroyWith_records) _ le_rfl
    intro t c few
    exact destroyWith_enough few le_rfl

/-- The object is in one of the maps, the redraw queue or a focus. -/
inductive Mentions (s : Manager α) (x : α) : Prop where
  | key (here : x ∈ s.parentChildMap)
  | listed {p : α} (here : x ∈ s.listOf p)
  | child (here : x ∈ s.childParentMap)
  | value {c : α} (here : s.parentOf c = some x)
  | keyboard (here : s.keyboardFocusedObject = some x)
  | mouse (here : s.mouseFocusedObject = some x)
  | queued (here : x ∈ s.modifiedUIObjects)

/-- The two maps record one tree, in the order of the children, and nothing that the
    manager has a reference to was deleted. -/
structure Sound (s : Manager α) : Prop where
  listed_iff : ∀ p c, c ∈ s.listOf p ↔ s.parentOf c = some p
  once : ∀ p, (s.listOf p).Nodup
  ordered : ∀ p, (s.listOf p).Pairwise fun a b => s.zAdded a ≤ s.zAdded b
  gone : ∀ x ∈ s.destroyed, ¬ s.Mentions x

def Below (s : Manager α) : α → α → Prop := Relation.ReflTransGen fun p c => c ∈ s.listOf p

/-- `t` is `s` with some of its references taken out. -/
structure Shrunk (s t : Manager α) : Prop where
  lists : ∀ p, (t.listOf p).Sublist (s.listOf p)
  queue : t.modifiedUIObjects.Sublist s.modifiedUIObjects
  mentions : ∀ x, t.Mentions x → s.Mentions x
  deleted : s.destroyed ⊆ t.destroyed
  zAdded : t.zAdded = s.zAdded
  removed : t.removed = s.removed

theorem Shrunk.refl (s : Manager α) : Shrunk s s :=
  ⟨fun _ => .refl _, .refl _, fun _ => id, fun _ => id, rfl, rfl⟩

theorem Shrunk.trans {s t u : Manager α} (first : Shrunk s t) (second : Shrunk t u) :
    Shrunk s u where
  lists := fun p => (second.lists p).trans (first.lists p)
  queue := second.queue.trans first.queue
  mentions := fun x here => first.mentions x (second.mentions x here)
  deleted := fun _ mem => second.deleted (first.deleted mem)
  zAdded := second.zAdded.trans first.zAdded
  removed := second.removed.trans first.removed

theorem Shrunk.below {s t : Manager α} (shrunk : Shrunk s t) {o x : α} (below : t.Below o x) :
    s.Below o x :=
  Relation.ReflTransGen.mono (fun p _ listed => (shrunk.lists p).subset listed) _ _ below

theorem Shrunk.count {s t : Manager α} (shrunk : Shrunk s t) (x : α) :
    t.modifiedUIObjects.count x ≤ s.modifiedUIObjects.count x :=
  shrunk.queue.count_le x

theorem Shrunk.unrecorded {s t : Manager α} (shrunk : Shrunk s t) (sound : Sound s)
    (sound' : Sound t) {q : α} (top : s.parentOf q = none) : t.parentOf q = none := by
  by_contra recorded
  obtain ⟨y, recorded⟩ := Option.ne_none_iff_exists'.mp recorded
  have above := (shrunk.lists y).subset ((sound'.listed_iff y q).mpr recorded)
  rw [sound.listed_iff, top] at above
  cases above

structure Destroys (s : Manager α) (o : α) (t : Manager α) : Prop where
  sound : Sound t
  shrunk : Shrunk s t
  only : ∀ x ∈ t.destroyed, x ∈ s.destroyed ∨ s.Below o x
  itself : o ∈ t.destroyed
  kept : ∀ c, c ∉ t.destroyed → t.parentOf c = s.parentOf c

variable {s : Manager α} {p o : α}

theorem below_cases {x : α} (below : s.Below o x) : x = o ∨ ∃ y, s.Below o y ∧ x ∈ s.listOf y := by
  cases below with
  | refl => exact .inl rfl
  | tail before last => exact .inr ⟨_, before, last⟩

theorem Sound.below_sibling (sound : Sound s) {q c d : α} (top : s.parentOf q = none)
    (hc : c ∈ s.listOf q) (hd : d ∈ s.listOf q) (apart : d ≠ c) : ¬ s.Below c d := by
  intro below
  obtain ⟨y, before, listed⟩ := (below_cases below).resolve_left apart
  have same : y = q := by
    have hy := (sound.listed_iff y d).mp listed
    rw [(sound.listed_iff q d).mp hd] at hy
    exact (Option.some.inj hy).symm
  subst same
  rcases below_cases before with rfl | ⟨z, -, above⟩
  · rw [sound.listed_iff, top] at hc
    cases hc
  · rw [sound.listed_iff, top] at above
    cases above

omit [DecidableEq α] in
theorem eq_tail_of_sublist {c : α} {l rest : List α} (sub : l.Sublist (c :: rest))
    (out : c ∉ l) (once : rest.Nodup) (all : ∀ d ∈ rest, d ∈ l) : l = rest := by
  have inside : l.Sublist rest := by
    cases sub with
    | cons _ inside => exact inside
    | cons_cons _ _ => exact absurd List.mem_cons_self out
  exact inside.eq_of_length_le (List.subperm_of_subset once all).length_le

/-- The loop over the children of an object without a record: when a child is destroyed the
    list under the iterator is what is left of it. -/
theorem foldlM_sound {f : Manager α → α → Except Fault (Manager α)} {n : Nat}
    (destroys : ∀ {s o p}, Sound s → s.records ≤ n → s.parentOf o = some p →
      (∀ x, s.Below o x → s.modifiedUIObjects.count x ≤ 1) → ∃ t, f s o = .ok t ∧ Destroys s o t)
    (fewer : ∀ s o t, f s o = .ok t → t.records ≤ s.records)
    {q : α} {os : List α} (sound : Sound s) (few : s.records ≤ n) (top : s.parentOf q = none)
    (listed : s.listOf q = os)
    (once : ∀ c ∈ os, ∀ x, s.Below c x → s.modifiedUIObjects.count x ≤ 1) :
    ∃ t, os.foldlM f s = .ok t ∧ Sound t ∧ Shrunk s t ∧ t.listOf q = [] ∧
      (∀ x ∈ t.destroyed, x ∈ s.destroyed ∨ ∃ c ∈ os, s.Below c x) ∧
      ∀ c, c ∉ t.destroyed → t.parentOf c = s.parentOf c := by
  induction os generalizing s with
  | nil => exact ⟨s, rfl, sound, .refl s, listed, fun x mem => .inl mem, fun c _ => rfl⟩
  | cons c os ih =>
    have hc : c ∈ s.listOf q := by simp [listed]
    have distinct : (c :: os).Nodup := listed ▸ sound.once q
    obtain ⟨mid, first, done⟩ := destroys sound few ((sound.listed_iff q c).mp hc)
      (once c List.mem_cons_self)
    have spared : ∀ d ∈ os, d ∈ mid.listOf q := by
      intro d mem
      have hd : d ∈ s.listOf q := by simp [listed, mem]
      have apart : d ≠ c := fun same => (List.nodup_cons.mp distinct).1 (same ▸ mem)
      have alive : d ∉ mid.destroyed := by
        intro dead
        rcases done.only d dead with old | below
        · exact sound.gone d old (.listed hd)
        · exact sound.below_sibling top hc hd apart below
      rw [done.sound.listed_iff, done.kept d alive]
      exact (sound.listed_iff q d).mp hd
    have out : c ∉ mid.listOf q := fun mem =>
      done.sound.gone c done.itself (.listed mem)
    have rest : mid.listOf q = os :=
      eq_tail_of_sublist (listed ▸ done.shrunk.lists q) out (List.nodup_cons.mp distinct).2 spared
    have top' := done.shrunk.unrecorded sound done.sound top
    obtain ⟨t, loop, sound', shrunk, empty, only, kept⟩ := ih done.sound
      ((fewer s c mid first).trans few) top' rest fun d mem x below =>
        (done.shrunk.count x).trans (once d (by simp [mem]) x (done.shrunk.below below))
    refine ⟨t, ?_, sound', done.shrunk.trans shrunk, empty, ?_, ?_⟩
    · rw [List.foldlM_cons, first]
      exact loop
    · intro x mem
      rcases only x mem with old | ⟨d, hd, below⟩
      · rcases done.only x old with older | below
        · exact .inl older
        · exact .inr ⟨c, by simp, below⟩
      · exact .inr ⟨d, by simp [hd], done.shrunk.below below⟩
    · intro d alive
      rw [kept d alive, done.kept d fun dead => alive (shrunk.deleted dead)]

theorem listOf_detached (s : Manager α) (o p q : α) :
    (s.detached o p).listOf q = if q = p then (s.listOf p).erase o else s.listOf q := by
  rw [detached, listOf_forget, listOf_setList]

theorem parentOf_detached (s : Manager α) (o p c : α) :
    (s.detached o p).parentOf c = if c = o then none else s.parentOf c := by
  rw [detached, parentOf_forget, parentOf_setList]

theorem Sound.detached_shrunk (sound : Sound s) (recorded : s.parentOf o = some p) :
    Shrunk s (s.detached o p) where
  lists := by
    intro q
    rw [listOf_detached]
    split
    next same =>
      subst same
      exact List.erase_sublist
    next => exact .refl _
  queue := .refl _
  mentions := by
    have lists : ∀ q x, x ∈ (s.detached o p).listOf q → x ∈ s.listOf q := by
      intro q x
      rw [listOf_detached]
      split
      next same =>
        subst same
        exact List.mem_of_mem_erase
      next => exact id
    have parents : ∀ c x, (s.detached o p).parentOf c = some x → s.parentOf c = some x := by
      intro c x
      rw [parentOf_detached]
      split
      next => exact fun none_ => nomatch none_
      next => exact id
    intro x here
    cases here with
    | key here =>
      rcases (AList.mem_insert _).mp here with rfl | here
      · exact .key (mem_of_listOf ((sound.listed_iff x o).mpr recorded))
      · exact .key here
    | listed here => exact .listed (lists _ x here)
    | child here => exact .child (AList.mem_erase.mp here).2
    | value here => exact .value (parents _ x here)
    | keyboard here => exact .keyboard here
    | mouse here => exact .mouse here
    | queued here => exact .queued here
  deleted := fun _ => id
  zAdded := rfl
  removed := rfl

theorem Sound.detached (sound : Sound s) (recorded : s.parentOf o = some p) :
    Sound (s.detached o p) where
  listed_iff := by
    intro q c
    rw [listOf_detached, parentOf_detached]
    by_cases same : c = o
    · subst same
      simp only [if_pos, iff_false, reduceCtorEq]
      split
      next => exact (sound.once p).not_mem_erase
      next apart =>
        rw [sound.listed_iff, recorded]
        exact fun same => apart (Option.some.inj same).symm
    · rw [if_neg same, ← sound.listed_iff]
      split
      next here =>
        subst here
        exact List.mem_erase_of_ne same
      next => exact Iff.rfl
  once := fun q => (sound.once q).sublist ((sound.detached_shrunk recorded).lists q)
  ordered := fun q => (sound.ordered q).sublist ((sound.detached_shrunk recorded).lists q)
  gone := fun x dead here =>
    sound.gone x dead ((sound.detached_shrunk recorded).mentions x here)

theorem unfocused_some {focus : Option α} {x : α} (here : unfocused focus o = some x) :
    focus = some x ∧ x ≠ o := by
  unfold unfocused at here
  split at here
  next => cases here
  next apart => exact ⟨here, fun same => apart (same ▸ here)⟩

theorem purge_shrunk (s : Manager α) (o : α) : Shrunk s (s.purge o) where
  lists := by
    intro q
    rw [listOf_purge]
    split
    next => exact List.nil_sublist _
    next => exact .refl _
  queue := List.erase_sublist
  mentions := by
    intro x here
    cases here with
    | key here => exact .key (AList.mem_erase.mp here).2
    | listed here =>
      rw [listOf_purge] at here
      split at here
      next => cases here
      next => exact .listed here
    | child here => exact .child here
    | value here => exact .value here
    | keyboard here => exact .keyboard (unfocused_some here).1
    | mouse here => exact .mouse (unfocused_some here).1
    | queued here => exact .queued (List.mem_of_mem_erase here)
  deleted := fun _ => List.mem_cons_of_mem _
  zAdded := rfl
  removed := rfl

theorem Sound.purge (sound : Sound s) (top : s.parentOf o = none) (empty : s.listOf o = [])
    (few : s.modifiedUIObjects.count o ≤ 1) : Sound (s.purge o) where
  listed_iff := by
    intro q c
    rw [listOf_purge, parentOf_purge, ← sound.listed_iff]
    split
    next same =>
      subst same
      rw [empty]
    next => exact Iff.rfl
  once := fun q => (sound.once q).sublist ((purge_shrunk s o).lists q)
  ordered := fun q => (sound.ordered q).sublist ((purge_shrunk s o).lists q)
  gone := by
    intro x dead here
    rcases List.mem_cons.mp dead with rfl | old
    · have out : ∀ q, x ∉ s.listOf q := by
        intro q
        rw [sound.listed_iff, top]
        exact fun none_ => nomatch none_
      cases here with
      | key here => exact (AList.mem_erase.mp here).1 rfl
      | listed here => exact out _ (((purge_shrunk s x).lists _).subset here)
      | child here => exact mem_records.mp here top
      | value here =>
        rw [parentOf_purge, ← sound.listed_iff, empty] at here
        cases here
      | keyboard here => exact (unfocused_some here).2 rfl
      | mouse here => exact (unfocused_some here).2 rfl
      | queued here =>
        have left : 0 < (s.modifiedUIObjects.erase x).count x := List.count_pos_iff.mpr here
        rw [List.count_erase_self] at left
        omega
    · exact sound.gone x old ((purge_shrunk s o).mentions x here)

theorem destroyWith_sound {n : Nat} {s : Manager α} {o p : α} (sound : Sound s)
    (few : s.records ≤ n) (recorded : s.parentOf o = some p)
    (once : ∀ x, s.Below o x → s.modifiedUIObjects.count x ≤ 1) :
    ∃ t, destroyWith n s o = .ok t ∧ Destroys s o t := by
  induction n generalizing s o p with
  | zero =>
    have := records_detached recorded
    omega
  | succ n ih =>
    have fewer := records_detached recorded
    have cut := sound.detached_shrunk recorded
    have top : (s.detached o p).parentOf o = none := by rw [parentOf_detached, if_pos rfl]
    have under : ∀ c ∈ (s.detached o p).listOf o, ∀ x, (s.detached o p).Below c x → s.Below o x :=
      fun c mem x below => .head ((cut.lists o).subset mem) (cut.below below)
    obtain ⟨t, loop, sound', shrunk, empty, only, kept⟩ :=
      foldlM_sound ih (fun s o t => destroyWith_records) (sound.detached recorded) (by omega) top rfl
        fun c mem x below => once x (under c mem x below)
    have top' := shrunk.unrecorded (sound.detached recorded) sound' top
    have few' : t.modifiedUIObjects.count o ≤ 1 :=
      ((cut.trans shrunk).count o).trans (once o .refl)
    refine ⟨t.purge o, ?_, sound'.purge top' empty few', ?_, ?_, List.mem_cons_self, ?_⟩
    · rw [destroyWith_recorded recorded, loop]
      rfl
    · exact (cut.trans shrunk).trans (purge_shrunk t o)
    · intro x dead
      rcases List.mem_cons.mp dead with rfl | dead
      · exact .inr .refl
      · rcases only x dead with old | ⟨c, mem, below⟩
        · exact .inl old
        · exact .inr (under c mem x below)
    · intro c alive
      have apart : c ≠ o := fun same => alive (same ▸ List.mem_cons_self)
      rw [parentOf_purge, kept c fun dead => alive (List.mem_cons_of_mem _ dead),
        parentOf_detached, if_neg apart]

theorem Destroys.destroyed_iff {t : Manager α} (sound : Sound s) (done : Destroys s o t) (x : α) :
    x ∈ t.destroyed ↔ x ∈ s.destroyed ∨ s.Below o x := by
  refine ⟨done.only x, ?_⟩
  rintro (old | below)
  · exact done.shrunk.deleted old
  · induction below with
    | refl => exact done.itself
    | tail _ listed dead =>
      -- a child that stays has the record it had, under a parent that was deleted
      by_contra alive
      have recorded := (sound.listed_iff _ _).mp listed
      rw [← done.kept _ alive] at recorded
      exact done.sound.gone _ dead (.value recorded)

theorem destroy_sound {s : Manager α} {o p : α} (sound : Sound s)
    (recorded : s.parentOf o = some p)
    (once : ∀ x, s.Below o x → s.modifiedUIObjects.count x ≤ 1) :
    ∃ t, s.destroy o = .ok t ∧ Destroys s o t :=
  destroyWith_sound sound le_rfl recorded once

theorem destroy_unrecorded {s : Manager α} {o : α} (none_ : s.parentOf o = none) :
    s.destroy o = .error .noParent :=
  destroyWith_unrecorded none_

end Manager

end UIObjectManager
