import UpanLibs.Infra.SharedPtr
import Mathlib.Data.Finset.Card
import Mathlib.Data.Set.Insert

/-!
The deletions that one `destroy()` sets off. While they go on, some handles have let go
of their objects and are not written yet, and some objects are deleted whose members are
not all destroyed.
-/
namespace SharedPtr
open Memory

variable {H O : Type}

def World.Refers (w : World H O) (h : H) (o : O) : Prop := ∃ p, w.handles h = some p ∧ p.ptr = some o

/-- The object has `n` handles, those that let go aside. -/
def Holders (w : World H O) (pending : Set H) (o : O) (n : Nat) : Prop :=
  ∃ s : Finset H, (∀ h, h ∈ s ↔ h ∉ pending ∧ w.Refers h o) ∧ s.card = n

/-- The state of the counts: `block` says which count belongs to which live object,
    `pending` has the handles that let go, and `dying` the objects that are being deleted. -/
structure Inv (layout : Layout H O) (w : World H O) (pending : Set H) (dying : Set O)
    (block : O → Option Nat) : Prop where
  adopted : ∀ o c, block o = some c → o ∈ w.adopted ∧ w.deletes o = 0
  live : ∀ o ∈ w.adopted, w.deletes o = 0 → block o ≠ none
  once : ∀ o, w.deletes o ≤ 1 ∧ (w.deletes o ≠ 0 → o ∈ w.adopted)
  single : ∀ o o' c, block o = some c → block o' = some c → o = o'
  counted : ∀ o c, block o = some c → ∃ n, w.counts.block c = some n ∧ 0 < n ∧
    Holders w pending o n
  agrees : ∀ h p, h ∉ pending → w.handles h = some p → p.refCount = p.ptr.bind block ∧
    ∀ o, p.ptr = some o → block o ≠ none
  gone : ∀ h o, layout.home h = some o → w.deletes o ≠ 0 → o ∈ dying ∨ w.handles h = none

/-- Objects that stay, because handles that stay refer to them: `holders` are in no object
    or in one that stays. -/
structure Anchored (layout : Layout H O) (w : World H O) (pending : Set H) (stays : Set O)
    (holders : Set H) : Prop where
  home : ∀ k ∈ holders, ∀ a, layout.home k = some a → a ∈ stays
  free : ∀ k ∈ holders, k ∉ pending
  live : ∀ o ∈ stays, w.deletes o = 0
  held : ∀ o ∈ stays, o ∈ w.adopted → ∃ k ∈ holders, w.Refers k o

/-- A handle that is in no object that may still be deleted. -/
def Outside (layout : Layout H O) (w : World H O) (stays : Set O) (k : H) : Prop :=
  ∀ a, layout.home k = some a → a ∈ stays ∨ w.deletes a ≠ 0

/-- Deletions that go on: what let go waits in no object that may still be deleted. -/
structure Going (layout : Layout H O) (stays : Set O) (holders : Set H) (w : World H O)
    (pending : Set H) (dying : Set O) (block : O → Option Nat) : Prop where
  inv : Inv layout w pending dying block
  anchored : Anchored layout w pending stays holders
  waits : ∀ k ∈ pending, Outside layout w stays k

structure Falls (layout : Layout H O) (stays : Set O) (w w' : World H O)
    (block block' : O → Option Nat) (targets : Set H) : Prop where
  adopted : w'.adopted = w.adopted
  deletes : ∀ o, w.deletes o ≠ 0 → w'.deletes o ≠ 0
  blocks : ∀ o c, block' o = some c → block o = some c
  counts : ∀ c, (∀ o, block o ≠ some c) → w'.counts.block c = w.counts.block c
  kept : ∀ k ∉ targets, Outside layout w stays k → w'.handles k = w.handles k
  dead : ∀ k, w.handles k = none → w'.handles k = none

section Cascade

variable {layout : Layout H O} {w w₁ w' : World H O} {pending : Set H} {dying : Set O}
  {block block₁ block' : O → Option Nat} {stays : Set O} {holders targets : Set H}

theorem Falls.refl (targets : Set H) : Falls layout stays w w block block targets := by
  constructor
  · rfl
  · intro o deleted
    exact deleted
  · intro o c has
    exact has
  · intro c _
    rfl
  · intro k _ _
    rfl
  · intro k none_
    exact none_

theorem Outside.falls {k : H} (outside : Outside layout w stays k)
    (falls : Falls layout stays w w₁ block block₁ targets) : Outside layout w₁ stays k := by
  intro a home
  exact (outside a home).imp_right (falls.deletes a)

theorem Falls.trans (first : Falls layout stays w w₁ block block₁ targets)
    (second : Falls layout stays w₁ w' block₁ block' targets) :
    Falls layout stays w w' block block' targets := by
  constructor
  · exact second.adopted.trans first.adopted
  · intro o deleted
    exact second.deletes o (first.deletes o deleted)
  · intro o c has
    exact first.blocks o c (second.blocks o c has)
  · intro c none_
    have none₁ : ∀ o, block₁ o ≠ some c := fun o has => none_ o (first.blocks o c has)
    rw [second.counts c none₁, first.counts c none_]
  · intro k other outside
    rw [second.kept k other (outside.falls first), first.kept k other outside]
  · intro k none_
    exact second.dead k (first.dead k none_)

theorem Falls.narrow {fewer : Set H} (falls : Falls layout stays w w' block block' targets)
    (sub : ∀ k ∈ targets, Outside layout w stays k → k ∈ fewer) :
    Falls layout stays w w' block block' fewer := by
  refine ⟨falls.adopted, falls.deletes, falls.blocks, falls.counts, ?_, falls.dead⟩
  intro k other outside
  exact falls.kept k (fun mem => other (sub k mem outside)) outside

theorem Falls.mono {more : Set H} (sub : targets ⊆ more)
    (falls : Falls layout stays w w' block block' targets) :
    Falls layout stays w w' block block' more :=
  ⟨falls.adopted, falls.deletes, falls.blocks, falls.counts,
    fun k other outside => falls.kept k (fun mem => other (sub mem)) outside, falls.dead⟩

theorem holders_congr {n : Nat} {pending' : Set H} {o : O} (has : Holders w pending o n)
    (same : ∀ h, (h ∉ pending' ∧ w'.Refers h o) ↔ (h ∉ pending ∧ w.Refers h o)) :
    Holders w' pending' o n := by
  obtain ⟨s, mem, card⟩ := has
  refine ⟨s, ?_, card⟩
  intro h
  rw [mem, same]

theorem holders_lt [DecidableEq H] {n : Nat} {o : O} {h k : H} (has : Holders w pending o n)
    (apart : h ≠ k)
    (first : h ∉ pending ∧ w.Refers h o) (second : k ∉ pending ∧ w.Refers k o) : 1 < n := by
  obtain ⟨s, mem, rfl⟩ := has
  rw [Finset.one_lt_card]
  exact ⟨h, (mem h).mpr first, k, (mem k).mpr second, apart⟩

theorem Inv.count_of (inv : Inv layout w pending dying block) {h : H} {p : Handle O} {c : Nat}
    (free : h ∉ pending) (here : w.handles h = some p) (has : p.refCount = some c) :
    ∃ o n, p.ptr = some o ∧ block o = some c ∧ w.counts.block c = some n ∧ 0 < n ∧
      Holders w pending o n := by
  obtain ⟨same, -⟩ := inv.agrees h p free here
  rw [has] at same
  obtain ⟨o, points, blocks⟩ := Option.bind_eq_some_iff.mp same.symm
  obtain ⟨n, counts, positive, holds⟩ := inv.counted o c blocks
  exact ⟨o, n, points, blocks, counts, positive, holds⟩

theorem Inv.block_of (inv : Inv layout w pending dying block) {h : H} {o : O} (free : h ∉ pending)
    (refers : w.Refers h o) : ∃ c, block o = some c := by
  obtain ⟨p, here, points⟩ := refers
  obtain ⟨-, blocks⟩ := inv.agrees h p free here
  exact Option.ne_none_iff_exists'.mp (blocks o points)

theorem Inv.relabel {pending' : Set H} (inv : Inv layout w pending dying block)
    (counts : w'.counts = w.counts) (adopted : w'.adopted = w.adopted)
    (deletes : w'.deletes = w.deletes)
    (refers : ∀ h o, (h ∉ pending' ∧ w'.Refers h o) ↔ (h ∉ pending ∧ w.Refers h o))
    (fields : ∀ h p, h ∉ pending' → w'.handles h = some p →
      h ∉ pending ∧ w.handles h = some p ∨ p = .empty)
    (alive : ∀ h o, layout.home h = some o → w.deletes o ≠ 0 → w.handles h = none →
      w'.handles h = none) : Inv layout w' pending' dying block := by
  constructor
  · rw [adopted, deletes]
    exact inv.adopted
  · rw [adopted, deletes]
    exact inv.live
  · rw [adopted, deletes]
    exact inv.once
  · exact inv.single
  · intro o c has
    obtain ⟨n, here, positive, holds⟩ := inv.counted o c has
    rw [counts]
    exact ⟨n, here, positive, holders_congr holds fun h => refers h o⟩
  · intro h p free here
    obtain ⟨was, old⟩ | rfl := fields h p free here
    · exact inv.agrees h p was old
    · exact ⟨rfl, fun o points => by cases points⟩
  · intro h o home deleted
    rw [deletes] at deleted
    exact (inv.gone h o home deleted).imp_right (alive h o home deleted)

theorem refers_unique {h : H} {o o' : O} (first : w.Refers h o) (second : w.Refers h o') : o = o' := by
  obtain ⟨p, here, points⟩ := first
  obtain ⟨p', here', points'⟩ := second
  cases here.symm.trans here'
  exact Option.some.inj (points.symm.trans points')

theorem still_out {h k : H} (other : k ≠ h) (out : k ∉ pending) : k ∉ insert h pending := by
  rw [Set.mem_insert_iff, or_iff_right other]
  exact out

theorem pend_iff {h k : H} {o : O} (nothing : ¬ w.Refers h o) :
    (k ∉ insert h pending ∧ w.Refers k o) ↔ (k ∉ pending ∧ w.Refers k o) := by
  rw [Set.mem_insert_iff, not_or]
  constructor
  · intro ⟨⟨_, free⟩, refers⟩
    exact ⟨free, refers⟩
  · intro ⟨free, refers⟩
    refine ⟨⟨?_, free⟩, refers⟩
    rintro rfl
    exact nothing refers

theorem Inv.pend (inv : Inv layout w pending dying block) {h : H}
    (nothing : ∀ o, ¬ w.Refers h o) : Inv layout w (insert h pending) dying block := by
  refine inv.relabel rfl rfl rfl (fun k o => pend_iff (nothing o)) ?_ fun _ _ _ _ none_ => none_
  intro k p free here
  exact .inl ⟨fun mem => free (Set.mem_insert_of_mem h mem), here⟩

variable [DecidableEq H]

theorem refers_put {h k : H} {p : Option (Handle O)} {o : O} (other : k ≠ h) :
    (w.put h p).Refers k o ↔ w.Refers k o := by
  simp [World.Refers, other]

theorem Inv.cleared {h : H} (inv : Inv layout w (insert h pending) dying block)
    {p : Option (Handle O)} (empty : ∀ q ∈ p, q = .empty)
    (lives : w.handles h = none → p = none ∨ ∀ o, layout.home h = some o → w.deletes o = 0) :
    Inv layout (w.put h p) pending dying block := by
  have nothing : ∀ o, ¬ (w.put h p).Refers h o := by
    rintro o ⟨q, here, points⟩
    rw [World.put_self] at here
    rw [empty q here] at points
    cases points
  refine inv.relabel rfl rfl rfl ?_ ?_ ?_
  · intro k o
    by_cases same : k = h
    · subst same
      constructor
      · intro ⟨_, refers⟩
        exact absurd refers (nothing o)
      · intro ⟨out, _⟩
        exact absurd (Set.mem_insert k pending) out
    · rw [refers_put same, Set.mem_insert_iff, or_iff_right same]
  · intro k q out here
    by_cases same : k = h
    · subst same
      rw [World.put_self] at here
      exact .inr (empty q here)
    · rw [World.put_other w _ same] at here
      exact .inl ⟨still_out same out, here⟩
  · intro k o home deleted none_
    by_cases same : k = h
    · subst same
      obtain dead | kept := lives none_
      · rw [World.put_self, dead]
      · exact absurd (kept o home) deleted
    · rw [World.put_other w _ same, none_]

theorem Inv.emptied {h : H} (inv : Inv layout w (insert h pending) dying block)
    (lives : w.handles h = none → ∀ o, layout.home h = some o → w.deletes o = 0) :
    Inv layout (w.put h (some .empty)) pending dying block := by
  apply inv.cleared
  · intro q mem
    exact (Option.some.inj mem).symm
  · intro none_
    exact .inr (lives none_)

theorem holders_release {n : Nat} {o : O} {h : H} (has : Holders w pending o n)
    (here : h ∉ pending ∧ w.Refers h o) (same : w'.handles = w.handles) :
    Holders w' (insert h pending) o (n - 1) := by
  obtain ⟨s, mem, rfl⟩ := has
  refine ⟨s.erase h, ?_, Finset.card_erase_of_mem ((mem h).mpr here)⟩
  intro k
  rw [Finset.mem_erase, mem, Set.mem_insert_iff, not_or, World.Refers, World.Refers, same]
  tauto

theorem Inv.release (inv : Inv layout w pending dying block) {h : H} {o : O} {c n : Nat}
    (free : h ∉ pending) (refers : w.Refers h o) (has : block o = some c)
    (counts : w.counts.block c = some n) (positive : 0 < n) (holds : Holders w pending o n)
    (others : n ≠ 1) :
    Inv layout { w with counts := w.counts.write c (n - 1) } (insert h pending) dying block := by
  constructor
  · exact inv.adopted
  · exact inv.live
  · exact inv.once
  · exact inv.single
  · intro o' c' has'
    by_cases same : c' = c
    · subst same
      obtain rfl := inv.single o o' c' has has'
      refine ⟨n - 1, Heap.block_write_self counts _, by omega, ?_⟩
      exact holders_release holds ⟨free, refers⟩ rfl
    · obtain ⟨n', counts', positive', holds'⟩ := inv.counted o' c' has'
      have nothing : ¬ w.Refers h o' := by
        intro also
        obtain rfl := refers_unique refers also
        exact same (Option.some.inj (has'.symm.trans has))
      refine ⟨n', ?_, positive', holders_congr holds' fun k => pend_iff nothing⟩
      rw [Heap.block_write_other _ _ same, counts']
  · intro k p out here
    exact inv.agrees k p (fun mem => out (Set.mem_insert_of_mem h mem)) here
  · exact inv.gone

variable [DecidableEq O]

omit [DecidableEq H] in
theorem agrees_update {p : Handle O} {o : O} (c : Option Nat) (apart : p.ptr ≠ some o)
    (agrees : p.refCount = p.ptr.bind block ∧ ∀ o, p.ptr = some o → block o ≠ none) :
    p.refCount = p.ptr.bind (Function.update block o c) ∧
      ∀ o', p.ptr = some o' → Function.update block o c o' ≠ none := by
  obtain ⟨same, blocks⟩ := agrees
  cases points : p.ptr with
  | none =>
    rw [points] at same
    exact ⟨same, fun o' no => by cases no⟩
  | some o' =>
    have other : o' ≠ o := by
      rintro rfl
      exact apart points
    rw [points] at same
    constructor
    · rw [same, Option.bind_some, Option.bind_some, Function.update_of_ne other]
    · intro o₁ this_
      cases this_
      rw [Function.update_of_ne other]
      exact blocks o' points

theorem Inv.last (inv : Inv layout w pending dying block) {h : H} {o : O} {c : Nat}
    (free : h ∉ pending) (refers : w.Refers h o) (has : block o = some c)
    (holds : Holders w pending o 1) (m : Nat) :
    Inv layout { w with
        counts := w.counts.write c m
        deletes := Function.update w.deletes o (w.deletes o + 1) }
      (insert h pending) (insert o dying) (Function.update block o none) := by
  obtain ⟨adopted, undeleted⟩ := inv.adopted o c has
  have only : ∀ k, k ∉ pending → w.Refers k o → k = h := by
    intro k out also
    by_contra apart
    exact absurd (holders_lt holds apart ⟨out, also⟩ ⟨free, refers⟩) (by omega)
  have other_of : ∀ o' c', Function.update block o none o' = some c' → o' ≠ o ∧ block o' = some c' := by
    intro o' c' has'
    by_cases same : o' = o
    · subst same
      simp at has'
    · rw [Function.update_of_ne same] at has'
      exact ⟨same, has'⟩
  constructor
  · intro o' c' has'
    obtain ⟨other, has'⟩ := other_of o' c' has'
    simpa [other] using inv.adopted o' c' has'
  · intro o' mem undeleted'
    have other : o' ≠ o := by
      rintro rfl
      simp at undeleted'
    simp only [Function.update_of_ne other] at undeleted' ⊢
    exact inv.live o' mem undeleted'
  · intro o'
    by_cases same : o' = o
    · subst same
      simp [undeleted, adopted]
    · simpa [same] using inv.once o'
  · intro o₁ o₂ c' has₁ has₂
    exact inv.single o₁ o₂ c' (other_of o₁ c' has₁).2 (other_of o₂ c' has₂).2
  · intro o' c' has'
    obtain ⟨other, has'⟩ := other_of o' c' has'
    have apart : c' ≠ c := by
      rintro rfl
      exact other (inv.single o' o c' has' has)
    obtain ⟨n', counts', positive', holds'⟩ := inv.counted o' c' has'
    have nothing : ¬ w.Refers h o' := fun also => other (refers_unique also refers)
    refine ⟨n', ?_, positive', holders_congr holds' fun k => pend_iff nothing⟩
    rw [Heap.block_write_other _ _ apart, counts']
  · intro k p out here
    rw [Set.mem_insert_iff, not_or] at out
    apply agrees_update _ _ (inv.agrees k p out.2 here)
    intro points
    exact out.1 (only k out.2 ⟨p, here, points⟩)
  · intro k o' home deleted
    by_cases same : o' = o
    · exact .inl (same ▸ Set.mem_insert o' dying)
    · simp only [Function.update_of_ne same] at deleted
      exact (inv.gone k o' home deleted).imp_left (Set.mem_insert_of_mem o)

omit [DecidableEq H] [DecidableEq O] in
theorem Inv.ended {o : O} (inv : Inv layout w pending (insert o dying) block)
    (members : ∀ m ∈ layout.members o, w.handles m = none) : Inv layout w pending dying block := by
  obtain ⟨adopted, live, once, single, counted, agrees, gone⟩ := inv
  refine ⟨adopted, live, once, single, counted, agrees, ?_⟩
  intro k a home deleted
  obtain here | none_ := gone k a home deleted
  · obtain rfl | mem := Set.mem_insert_iff.mp here
    · exact .inr (members k ((layout.mem_members k a).mpr home))
    · exact .inl mem
  · exact .inr none_

omit [DecidableEq H] [DecidableEq O] in
theorem Anchored.falls {pending' : Set H} {dying' : Set O}
    (anchored : Anchored layout w pending stays holders)
    (falls : Falls layout stays w w' block block' targets) (inv : Inv layout w' pending' dying' block')
    (apart : ∀ k ∈ holders, k ∉ targets ∧ k ∉ pending') :
    Anchored layout w' pending' stays holders := by
  have kept : ∀ k ∈ holders, w'.handles k = w.handles k := by
    intro k mem
    apply falls.kept k (apart k mem).1
    intro a home
    exact .inl (anchored.home k mem a home)
  have held : ∀ o ∈ stays, o ∈ w'.adopted → ∃ k ∈ holders, w'.Refers k o := by
    intro o mem adopted
    rw [falls.adopted] at adopted
    obtain ⟨k, holds, p, here, points⟩ := anchored.held o mem adopted
    exact ⟨k, holds, p, (kept k holds).trans here, points⟩
  refine ⟨anchored.home, fun k mem => (apart k mem).2, ?_, held⟩
  intro o mem
  by_contra deleted
  obtain ⟨k, holds, refers⟩ := held o mem ((inv.once o).2 deleted)
  obtain ⟨c, has⟩ := inv.block_of (apart k holds).2 refers
  exact deleted (inv.adopted o c has).2

omit [DecidableEq H] [DecidableEq O] in
theorem Going.falls {pending' : Set H} {dying' : Set O}
    (going : Going layout stays holders w pending dying block)
    (falls : Falls layout stays w w' block block' targets) (inv : Inv layout w' pending' dying' block')
    (apart : ∀ k ∈ holders, k ∉ targets ∧ k ∉ pending')
    (waits : ∀ k ∈ pending', k ∈ pending ∨ Outside layout w stays k) :
    Going layout stays holders w' pending' dying' block' := by
  refine ⟨inv, going.anchored.falls falls inv apart, ?_⟩
  intro k mem
  obtain before | outside := waits k mem
  · exact (going.waits k before).falls falls
  · exact outside.falls falls

omit [DecidableEq H] [DecidableEq O] in
theorem Going.apart {h : H} (going : Going layout stays holders w pending dying block)
    (notHolder : h ∉ holders) : ∀ k ∈ holders, k ∉ ({h} : Set H) ∧ k ∉ insert h pending := by
  intro k holds
  have other : k ≠ h := by
    rintro rfl
    exact notHolder holds
  exact ⟨other, still_out other (going.anchored.free k holds)⟩

omit [DecidableEq H] [DecidableEq O] in
theorem Outside.waits {h : H} (outside : Outside layout w stays h) (pending : Set H) :
    ∀ k ∈ insert h pending, k ∈ pending ∨ Outside layout w stays k := by
  intro k mem
  obtain rfl | before := Set.mem_insert_iff.mp mem
  · exact .inr outside
  · exact .inl before

def liveObjects (w : World H O) : Finset O := w.adopted.toFinset.filter fun o => w.deletes o = 0

omit [DecidableEq H] in
theorem live_falls (falls : Falls layout stays w w' block block' targets) :
    (liveObjects w').card ≤ (liveObjects w).card := by
  apply Finset.card_le_card
  intro o mem
  simp only [liveObjects, Finset.mem_filter, List.mem_toFinset] at mem ⊢
  rw [falls.adopted] at mem
  refine ⟨mem.1, ?_⟩
  by_contra deleted
  exact falls.deletes o deleted mem.2

omit [DecidableEq H] in
theorem live_last {o : O} (adopted : o ∈ w.adopted) (undeleted : w.deletes o = 0) (counts : Heap Nat) :
    (liveObjects { w with
      counts := counts
      deletes := Function.update w.deletes o (w.deletes o + 1) }).card < (liveObjects w).card := by
  apply Finset.card_lt_card
  rw [Finset.ssubset_iff_of_subset]
  · refine ⟨o, ?_, ?_⟩
    · simp [liveObjects, adopted, undeleted]
    · simp [liveObjects]
  · intro a mem
    simp only [liveObjects, Finset.mem_filter, List.mem_toFinset] at mem ⊢
    refine ⟨mem.1, ?_⟩
    by_cases same : a = o
    · rw [same, undeleted]
    · rw [← mem.2, Function.update_of_ne same]

/-- `destroy()` to this depth does what it has to, in every state with fewer live objects. -/
def DestroysTo (layout : Layout H O) (stays : Set O) (holders : Set H) (depth : Nat) : Prop :=
  ∀ (w : World H O) (pending : Set H) (dying : Set O) (block : O → Option Nat) (h : H),
    Going layout stays holders w pending dying block → h ∉ pending → h ∉ holders →
    (w.handles h).isSome → Outside layout w stays h → (liveObjects w).card < depth →
    ∃ w' block', destroy layout depth w h = some w' ∧
      Going layout stays holders w' (insert h pending) dying block' ∧
      Falls layout stays w w' block block' {h} ∧ (w'.handles h).isSome

omit [DecidableEq O] in
theorem falls_put_none {h : H} : Falls layout stays w (w.put h none) block block {h} := by
  refine ⟨rfl, fun _ deleted => deleted, fun _ _ has => has, fun _ _ => rfl, ?_, ?_⟩
  · intro k other _
    exact World.put_other w _ other
  · intro k none_
    by_cases same : k = h
    · rw [same, World.put_self]
    · rw [World.put_other w _ same, none_]

theorem destroyMembers_spec {depth : Nat} (destroys : DestroysTo layout stays holders depth)
    {o : O} (ms : List H) (going : Going layout stays holders w pending dying block)
    (home : ∀ m ∈ ms, layout.home m = some o) (deleted : w.deletes o ≠ 0)
    (free : ∀ m ∈ ms, m ∉ pending) (enough : (liveObjects w).card < depth) :
    ∃ w' block', destroyMembers (destroy layout depth) w ms = some w' ∧
      Going layout stays holders w' pending dying block' ∧
      Falls layout stays w w' block block' {m | m ∈ ms} ∧ ∀ m ∈ ms, w'.handles m = none := by
  induction ms generalizing w block with
  | nil => exact ⟨w, block, rfl, going, .refl _, by simp⟩
  | cons m ms ih =>
    have home' : ∀ k ∈ ms, layout.home k = some o := fun k mem => home k (by simp [mem])
    have free' : ∀ k ∈ ms, k ∉ pending := fun k mem => free k (by simp [mem])
    have sub : {k | k ∈ ms} ⊆ {k | k ∈ m :: ms} := fun k mem => by simp_all
    cases here : w.handles m with
    | none =>
      obtain ⟨w', block', run, going', falls, dead⟩ := ih going home' deleted free' enough
      refine ⟨w', block', ?_, going', falls.mono sub, ?_⟩
      · rw [destroyMembers, here]
        exact run
      · intro k mem
        obtain rfl | mem := List.mem_cons.mp mem
        · exact falls.dead k here
        · exact dead k mem
    | some p =>
      have outside : Outside layout w stays m := by
        intro a at_
        rw [home m (by simp)] at at_
        cases at_
        exact .inr deleted
      have notHolder : m ∉ holders := by
        intro holds
        exact deleted (going.anchored.live o (going.anchored.home m holds o (home m (by simp))))
      obtain ⟨w₁, block₁, first, going₁, falls₁, -⟩ := destroys w pending dying block m going
        (free m (by simp)) notHolder (by rw [here]; rfl) outside enough
      have inv₂ : Inv layout (w₁.put m none) pending dying block₁ :=
        going₁.inv.cleared (by simp) (fun _ => .inl rfl)
      have falls₂ : Falls layout stays w (w₁.put m none) block block₁ {m} :=
        falls₁.trans falls_put_none
      have going₂ : Going layout stays holders (w₁.put m none) pending dying block₁ := by
        refine going.falls falls₂ inv₂ ?_ fun k mem => .inl mem
        intro k holds
        refine ⟨?_, going.anchored.free k holds⟩
        rintro rfl
        exact notHolder holds
      obtain ⟨w', block', run, going', falls, dead⟩ := ih going₂ home'
        (falls₂.deletes o deleted) free' (Nat.lt_of_le_of_lt (live_falls falls₂) enough)
      refine ⟨w', block', ?_, going', (falls₂.mono (by simp)).trans (falls.mono sub), ?_⟩
      · rw [destroyMembers, here]
        simp only [first]
        exact run
      · intro k mem
        obtain rfl | mem := List.mem_cons.mp mem
        · exact falls.dead k (World.put_self ..)
        · exact dead k mem

omit [DecidableEq H] [DecidableEq O] in
theorem Inv.erase (inv : Inv layout w pending dying block) {c : Nat} (free : ∀ o, block o ≠ some c) :
    Inv layout { w with counts := w.counts.erase c } pending dying block := by
  obtain ⟨adopted, live, once, single, counted, agrees, gone⟩ := inv
  refine ⟨adopted, live, once, single, ?_, agrees, gone⟩
  intro o c' has
  obtain ⟨n, counts, positive, holds⟩ := counted o c' has
  have apart : c' ≠ c := by
    rintro rfl
    exact free o has
  exact ⟨n, (if_neg apart).trans counts, positive, holds⟩

omit [DecidableEq O] in
theorem forget_spec {h : H} {p : Handle O} {c m : Nat}
    (inv : Inv layout w (insert h pending) dying block) (here : w.handles h = some p)
    (has : p.refCount = some c) (counts : w.counts.block c = some m)
    (free : ∀ o, block o ≠ some c) :
    forget w h = some ({ w with counts := w.counts.erase c }.put h (some .empty)) ∧
      Inv layout ({ w with counts := w.counts.erase c }.put h (some .empty)) (insert h pending) dying
        block := by
  constructor
  · simp only [forget, here, has, World.deleteCount, counts, Option.map_some]
  · have cleared : Inv layout ({ w with counts := w.counts.erase c }.put h (some .empty)) pending
        dying block := by
      apply (inv.erase free).emptied
      intro none_
      cases here.symm.trans none_
    apply cleared.pend
    rintro o ⟨q, now, points⟩
    rw [World.put_self] at now
    cases now
    cases points

omit [DecidableEq O] in
theorem Falls.forget {h : H} {p : Handle O} {o : O} {c : Nat}
    (falls : Falls layout stays w w' block block' {h}) (has : block o = some c)
    (here : w'.handles h = some p) :
    Falls layout stays w ({ w' with counts := w'.counts.erase c }.put h (some .empty)) block block'
      {h} := by
  refine ⟨falls.adopted, falls.deletes, falls.blocks, ?_, ?_, ?_⟩
  · intro c' none_
    have apart : c' ≠ c := by
      rintro rfl
      exact none_ o has
    exact (if_neg apart).trans (falls.counts c' none_)
  · intro k other outside
    rw [World.put_other _ _ other]
    exact falls.kept k other outside
  · intro k none_
    have dead := falls.dead k none_
    have other : k ≠ h := by
      rintro rfl
      cases here.symm.trans dead
    rw [World.put_other _ _ other]
    exact dead

theorem lastHandle_spec {depth : Nat} (destroys : DestroysTo layout stays holders depth) {h : H}
    {p : Handle O} {o : O} {c : Nat} (going : Going layout stays holders w pending dying block)
    (free : h ∉ pending) (notHolder : h ∉ holders) (outside : Outside layout w stays h)
    (here : w.handles h = some p) (has : p.refCount = some c) (points : p.ptr = some o)
    (blocks : block o = some c) (counts : w.counts.block c = some 1)
    (holds : Holders w pending o 1) (enough : (liveObjects w).card < depth + 1) :
    ∃ w₂ w' block', deleteObject layout (destroy layout depth)
        { w with counts := w.counts.write c 0 } (some o) = some w₂ ∧ forget w₂ h = some w' ∧
      Inv layout w' (insert h pending) dying block' ∧ Falls layout stays w w' block block' {h} ∧
      (w'.handles h).isSome := by
  have refers : w.Refers h o := ⟨p, here, points⟩
  obtain ⟨adopted, undeleted⟩ := going.inv.adopted o c blocks
  have falling : o ∉ stays := by
    intro mem
    obtain ⟨k, holder, also⟩ := going.anchored.held o mem adopted
    have other : k ≠ h := by
      rintro rfl
      exact notHolder holder
    exact absurd (holders_lt holds other ⟨going.anchored.free k holder, also⟩ ⟨free, refers⟩)
      (Nat.lt_irrefl 1)
  have elsewhere : ∀ k, Outside layout w stays k → layout.home k ≠ some o := by
    intro k out home
    obtain mem | deleted := out o home
    · exact falling mem
    · exact deleted undeleted
  let w₁ : World H O := { w with
    counts := w.counts.write c 0
    deletes := Function.update w.deletes o (w.deletes o + 1) }
  have inv₁ : Inv layout w₁ (insert h pending) (insert o dying) (Function.update block o none) :=
    going.inv.last free refers blocks holds 0
  have falls₁ : Falls layout stays w w₁ block (Function.update block o none) {h} := by
    refine ⟨rfl, ?_, ?_, ?_, fun _ _ _ => rfl, fun _ none_ => none_⟩
    · intro a deleted
      by_cases same : a = o
      · simp [w₁, same]
      · simpa [w₁, same] using deleted
    · intro a c' old
      by_cases same : a = o
      · simp [same] at old
      · simpa [same] using old
    · intro c' none_
      have apart : c' ≠ c := by
        rintro rfl
        exact none_ o blocks
      exact Heap.block_write_other _ _ apart
  have going₁ : Going layout stays holders w₁ (insert h pending) (insert o dying)
      (Function.update block o none) := by
    exact going.falls falls₁ inv₁ (going.apart notHolder) (outside.waits pending)
  have members : ∀ m ∈ layout.members o, layout.home m = some o :=
    fun m mem => (layout.mem_members m o).mp mem
  have notPending : ∀ m ∈ layout.members o, m ∉ insert h pending := by
    intro m mem waiting
    obtain rfl | before := Set.mem_insert_iff.mp waiting
    · exact elsewhere m outside (members m mem)
    · exact elsewhere m (going.waits m before) (members m mem)
  have deleted₁ : w₁.deletes o ≠ 0 := by simp [w₁]
  have fewer : (liveObjects w₁).card < (liveObjects w).card := live_last adopted undeleted _
  obtain ⟨w₂, block₂, run, going₂, falls₂, dead⟩ := destroyMembers_spec destroys
    (layout.members o) going₁ members deleted₁ notPending (by omega)
  have inv₂ := going₂.inv.ended dead
  have kept : w₂.handles h = some p := by
    rw [falls₂.kept h (fun mem => elsewhere h outside (members h mem)) (outside.falls falls₁)]
    exact here
  have unowned : ∀ a, Function.update block o none a ≠ some c := by
    intro a old
    by_cases same : a = o
    · simp [same] at old
    · rw [Function.update_of_ne same] at old
      exact same (going.inv.single a o c old blocks)
  have count₂ : w₂.counts.block c = some 0 :=
    (falls₂.counts c unowned).trans (Heap.block_write_self counts 0)
  obtain ⟨forgot, inv'⟩ := forget_spec inv₂ kept has count₂ fun a old => unowned a (falls₂.blocks a c old)
  have falls : Falls layout stays w w₂ block block₂ {h} := by
    have both := (falls₁.mono (Set.subset_union_left (t := {m | m ∈ layout.members o}))).trans
      (falls₂.mono Set.subset_union_right)
    refine both.narrow ?_
    intro k mem out
    obtain target | member := mem
    · exact target
    · exact absurd (members k member) (elsewhere k out)
  refine ⟨w₂, _, block₂, run, forgot, inv', falls.forget blocks kept, ?_⟩
  rw [World.put_self]
  rfl

theorem destroy_spec (depth : Nat) : DestroysTo (H := H) (O := O) layout stays holders depth := by
  induction depth with
  | zero =>
    intro w pending dying block h _ _ _ _ _ enough
    exact absurd enough (Nat.not_lt_zero _)
  | succ depth ih =>
    intro w pending dying block h going free notHolder alive outside enough
    obtain ⟨p, here⟩ := Option.isSome_iff_exists.mp alive
    have apart := going.apart notHolder
    have waits := outside.waits pending
    cases has : p.refCount with
    | none =>
      have nothing : ∀ o, ¬ w.Refers h o := by
        rintro o ⟨q, here', points⟩
        cases here.symm.trans here'
        obtain ⟨same, blocks⟩ := going.inv.agrees h p free here
        rw [has, points] at same
        exact blocks o points same.symm
      refine ⟨w, block, ?_, ?_, .refl _, alive⟩
      · simp only [destroy, here, has]
      · exact going.falls (.refl {h}) (going.inv.pend nothing) apart waits
    | some c =>
      obtain ⟨o, n, points, blocks, counts, positive, holds⟩ := going.inv.count_of free here has
      have refers : w.Refers h o := ⟨p, here, points⟩
      have touched : ∀ c', (∀ a, block a ≠ some c') → c' ≠ c := by
        rintro c' none_ rfl
        exact none_ o blocks
      by_cases only : n = 1
      · subst only
        obtain ⟨w₂, w', block', deleted, forgot, inv', falls, alive'⟩ := lastHandle_spec ih going
          free notHolder outside here has points blocks counts holds enough
        refine ⟨w', block', ?_, going.falls falls inv' apart waits, falls, alive'⟩
        simp only [destroy, here, has, counts, if_true, points, Nat.sub_self]
        rw [deleted]
        exact forgot
      · have released := going.inv.release free refers blocks counts positive holds only
        have falls : Falls layout stays w { w with counts := w.counts.write c (n - 1) } block block
            {h} := by
          refine ⟨rfl, fun _ deleted => deleted, fun _ _ old => old, ?_, fun _ _ _ => rfl,
            fun _ none_ => none_⟩
          intro c' none_
          exact Heap.block_write_other _ _ (touched c' none_)
        refine ⟨_, block, ?_, going.falls falls released apart waits, falls, alive⟩
        simp only [destroy, here, has, counts, if_neg only]

end Cascade

end SharedPtr
