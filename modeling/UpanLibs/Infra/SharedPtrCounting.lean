import UpanLibs.Infra.SharedPtrCascade
import Mathlib.Data.Fintype.Basic
import Mathlib.Logic.Relation

/-!
Runs of calls on `shared_ptr` handles. The counts stay right as long as no assignment
takes its source from an object that goes when the target lets go.
-/
namespace SharedPtr
open Memory Transition

variable {H O : Type} {layout : Layout H O} {w w' : World H O} {block : O → Option Nat}

def Edge (layout : Layout H O) (w : World H O) (a b : O) : Prop :=
  ∃ k, layout.home k = some a ∧ w.Refers k b

def Acyclic (layout : Layout H O) (w : World H O) : Prop :=
  ∀ o, ¬ Relation.TransGen (Edge layout w) o o

def Below (layout : Layout H O) (w : World H O) (h : H) (x : O) : Prop :=
  ∃ o, w.Refers h o ∧ Relation.ReflTransGen (Edge layout w) o x

/-- Objects that stay when `h` lets go: a chain of other handles leads to them, from one
    that is in no managed object. -/
inductive Kept (layout : Layout H O) (w : World H O) (h : H) : O → Prop where
  | raw {o : O} (unmanaged : o ∉ w.adopted) : Kept layout w h o
  | held {k : H} {o : O} (other : k ≠ h) (refers : w.Refers k o)
      (up : ∀ a, layout.home k = some a → Kept layout w h a) : Kept layout w h o

theorem acyclic_of_rank (rank : O → Nat)
    (falls : ∀ k a b, layout.home k = some a → w.Refers k b → rank b < rank a) :
    Acyclic layout w := by
  have below : ∀ a b, Relation.TransGen (Edge layout w) a b → rank b < rank a := by
    intro a b path
    induction path with
    | single edge =>
      obtain ⟨k, home, refers⟩ := edge
      exact falls k _ _ home refers
    | tail path edge ih =>
      obtain ⟨k, home, refers⟩ := edge
      exact Nat.lt_trans (falls k _ _ home refers) ih
  intro o cycle
  exact Nat.lt_irrefl _ (below o o cycle)

theorem Inv.home_live {pending : Set H} (inv : Inv layout w pending ∅ block) {h : H}
    (alive : (w.handles h).isSome) : ∀ a, layout.home h = some a → w.deletes a = 0 := by
  intro a home
  by_contra deleted
  obtain no | dead := inv.gone h a home deleted
  · exact no
  · rw [dead] at alive
    cases alive

theorem Kept.live {pending : Set H} {dying : Set O} (inv : Inv layout w pending dying block) {h : H}
    (free : ∀ k, k ≠ h → k ∉ pending) {o : O} (kept : Kept layout w h o) : w.deletes o = 0 := by
  cases kept with
  | raw unmanaged =>
    by_contra deleted
    exact unmanaged ((inv.once o).2 deleted)
  | held other refers _ =>
    obtain ⟨c, has⟩ := inv.block_of (free _ other) refers
    exact (inv.adopted o c has).2

/-- What stays when `h` is destroyed: what it does not keep alive, and what others keep. -/
def staysFor (layout : Layout H O) (w : World H O) (h : H) : Set O :=
  {x | w.deletes x = 0 ∧ ¬ Below layout w h x ∨ Kept layout w h x}

def holdersFor (layout : Layout H O) (w : World H O) (h : H) : Set H :=
  {k | k ≠ h ∧ ∀ a, layout.home k = some a → a ∈ staysFor layout w h}

theorem anchored_at_rest (inv : Inv layout w ∅ ∅ block) (h : H) :
    Anchored layout w ∅ (staysFor layout w h) (holdersFor layout w h) := by
  constructor
  · intro k holds
    exact holds.2
  · intro k _ no
    exact no
  · intro o stays
    obtain ⟨undeleted, -⟩ | kept := stays
    · exact undeleted
    · exact kept.live inv fun _ _ no => no
  · intro o stays adopted
    obtain ⟨undeleted, apart⟩ | kept := stays
    · -- one of its handles is not `h`, and is in nothing that `h` keeps alive
      obtain ⟨c, has⟩ := Option.ne_none_iff_exists'.mp (inv.live o adopted undeleted)
      obtain ⟨n, -, positive, s, mem, card⟩ := inv.counted o c has
      obtain ⟨k, member⟩ := Finset.card_pos.mp (card ▸ positive)
      have refers : w.Refers k o := ((mem k).mp member).2
      refine ⟨k, ⟨?_, ?_⟩, refers⟩
      · rintro rfl
        exact apart ⟨o, refers, .refl⟩
      · intro a home
        have alive : (w.handles k).isSome := by
          obtain ⟨p, here, -⟩ := refers
          rw [here]
          rfl
        refine .inl ⟨inv.home_live alive a home, ?_⟩
        intro ⟨x, first, path⟩
        exact apart ⟨x, first, path.tail ⟨k, home, refers⟩⟩
    · cases kept with
      | raw unmanaged => exact absurd adopted unmanaged
      | held other refers up => exact ⟨_, ⟨other, fun a home => .inr (up a home)⟩, refers⟩

theorem outside_at_rest (inv : Inv layout w ∅ ∅ block) (acyclic : Acyclic layout w) {h : H}
    (alive : (w.handles h).isSome) : Outside layout w (staysFor layout w h) h := by
  intro a home
  refine .inl (.inl ⟨inv.home_live alive a home, ?_⟩)
  intro ⟨o, refers, path⟩
  exact acyclic o (Relation.TransGen.tail' path ⟨h, home, refers⟩)

/-- A handle is made where none is, in no deleted object. -/
def Fresh (layout : Layout H O) (w : World H O) (h : H) : Prop :=
  w.handles h = none ∧ ∀ o, layout.home h = some o → w.deletes o = 0

/-- The calls of the class on handles that are alive; an object is given away once. -/
def Admits (layout : Layout H O) (w : World H O) : Op H O → Prop
  | .construct h ptr => Fresh layout w h ∧ ∀ o, ptr = some o → o ∉ w.adopted
  | .copyConstruct h r => Fresh layout w h ∧ (w.handles r).isSome
  | .moveConstruct h r => Fresh layout w h ∧ (w.handles r).isSome
  | .cast h r _ => Fresh layout w h ∧ (w.handles r).isSome
  | .assign h r => (w.handles h).isSome ∧ (w.handles r).isSome
  | .moveAssign h r => (w.handles h).isSome ∧ (w.handles r).isSome
  | .reset h newPtr => (w.handles h).isSome ∧
      ∀ o, newPtr = some o → o ∉ w.adopted ∨ w.Refers h o
  | .destruct h => (w.handles h).isSome

def SourceKept (layout : Layout H O) (w : World H O) : Op H O → Prop
  | .assign h r => h = r ∨ ∀ a, layout.home r = some a → Kept layout w h a
  | .moveAssign h r => h = r ∨ ∀ a, layout.home r = some a → Kept layout w h a
  | _ => True

def Sound (layout : Layout H O) (w : World H O) : Prop := ∃ block, Inv layout w ∅ ∅ block

section Calls

variable [DecidableEq H] [DecidableEq O]

theorem World.destroy_spec (inv : Inv layout w ∅ ∅ block) (acyclic : Acyclic layout w) {h : H}
    (alive : (w.handles h).isSome) :
    ∃ w' block', w.destroy layout h = some w' ∧ Inv layout w' (insert h ∅) ∅ block' ∧
      w'.adopted = w.adopted ∧ (w'.handles h).isSome ∧
      ∀ r, r ≠ h → (∀ a, layout.home r = some a → Kept layout w h a) →
        w'.handles r = w.handles r := by
  have going : Going layout (staysFor layout w h) (holdersFor layout w h) w ∅ ∅ block :=
    ⟨inv, anchored_at_rest inv h, fun _ no => no.elim⟩
  have enough : (liveObjects w).card < w.adopted.length + 1 := by
    have fewer : (liveObjects w).card ≤ w.adopted.toFinset.card :=
      Finset.card_le_card (Finset.filter_subset _ _)
    have bound := List.toFinset_card_le w.adopted
    omega
  obtain ⟨w', block', run, going', falls, alive'⟩ := SharedPtr.destroy_spec _ w ∅ ∅ block h going
    (fun no => no) (fun holds => holds.1 rfl) alive (outside_at_rest inv acyclic alive) enough
  refine ⟨w', block', run, going'.inv, falls.adopted, alive', ?_⟩
  intro r other kept
  exact falls.kept r other fun a home => .inl (.inr (kept a home))

omit [DecidableEq O] in
theorem Inv.shared {pending : Set H} {h r : H} {q : Handle O}
    (inv : Inv layout w (insert h pending) ∅ block) (free : h ∉ pending)
    (source : r ∉ insert h pending) (here : w.handles r = some q)
    (lives : ∀ o, layout.home h = some o → w.deletes o = 0) :
    ∃ w', (w.put h (some q)).inc q.refCount = some w' ∧ Inv layout w' pending ∅ block ∧
      w'.handles = (w.put h (some q)).handles := by
  cases has : q.refCount with
  | none =>
    have empty : q = .empty := by
      obtain ⟨same, blocks⟩ := inv.agrees r q source here
      obtain ⟨ptr, refCount⟩ := q
      cases ptr with
      | none =>
        cases has
        rfl
      | some o => exact absurd (same.symm.trans has) (blocks o rfl)
    refine ⟨_, rfl, ?_, rfl⟩
    apply inv.cleared
    · intro q' mem
      rw [← Option.some.inj mem, empty]
    · intro _
      exact .inr lives
  | some c =>
    obtain ⟨o, n, points, blocks, counts, positive, s, mem, card⟩ := inv.count_of source here has
    have refers_h : ∀ o', (w.put h (some q)).Refers h o' ↔ o' = o := by
      intro o'
      simp [World.Refers, points, eq_comm]
    refine ⟨{ w.put h (some q) with counts := w.counts.write c (n + 1) }, ?_, ?_, rfl⟩
    · simp [World.inc, World.put, counts]
    constructor
    · exact inv.adopted
    · exact inv.live
    · exact inv.once
    · exact inv.single
    · intro o' c' has'
      by_cases same : c' = c
      · subst same
        obtain rfl := inv.single o' o c' has' blocks
        refine ⟨n + 1, Heap.block_write_self counts _, Nat.succ_pos n, s.cons h ?_, ?_, ?_⟩
        · intro already
          exact ((mem h).mp already).1 (Set.mem_insert h pending)
        · intro k
          rw [Finset.mem_cons, mem]
          by_cases target : k = h
          · subst target
            simp [World.Refers, World.put, points, free]
          · simp [World.Refers, World.put, target]
        · rw [Finset.card_cons, card]
      · obtain ⟨n', counts', positive', holds'⟩ := inv.counted o' c' has'
        refine ⟨n', (Heap.block_write_other _ _ same).trans counts', positive', ?_⟩
        apply holders_congr holds'
        intro k
        by_cases target : k = h
        · subst target
          have apart : o' ≠ o := by
            rintro rfl
            exact same (Option.some.inj (has'.symm.trans blocks))
          constructor
          · rintro ⟨_, refers⟩
            exact absurd ((refers_h o').mp refers) apart
          · rintro ⟨out, _⟩
            exact absurd (Set.mem_insert k pending) out
        · simp [World.Refers, World.put, target]
    · intro k p out now
      by_cases target : k = h
      · subst target
        have same : q = p := by simpa [World.put] using now
        exact same ▸ inv.agrees r q source here
      · have before : w.handles k = some p := by simpa [World.put, target] using now
        exact inv.agrees k p (still_out target out) before
    · intro k a home deleted
      by_cases target : k = h
      · subst target
        exact absurd (lives a home) deleted
      · simpa [World.put, target] using inv.gone k a home deleted

omit [DecidableEq O] in
theorem Inv.moved {pending : Set H} {h r : H} {q : Handle O}
    (inv : Inv layout w (insert h pending) ∅ block) (free : h ∉ pending)
    (source : r ∉ insert h pending) (here : w.handles r = some q)
    (lives : ∀ o, layout.home h = some o → w.deletes o = 0) :
    Inv layout ((w.put h (some q)).put r (some .empty)) pending ∅ block := by
  rw [Set.mem_insert_iff, not_or] at source
  have kept : (w.put h (some q)).handles r = some q := (World.put_other w _ source.1).trans here
  have handed : Inv layout (w.put h (some q)) (insert r pending) ∅ block := by
    obtain ⟨w', run, inv', same⟩ := inv.shared free (still_out source.1 source.2) here lives
    cases has : q.refCount with
    | none =>
      rw [has] at run
      cases run
      apply inv'.pend
      rintro o ⟨p, now, points⟩
      cases kept.symm.trans now
      obtain ⟨agreed, blocks⟩ := inv'.agrees r q source.2 kept
      rw [has, points] at agreed
      exact blocks o points agreed.symm
    | some c =>
      have here' : w'.handles r = some q := by rw [same, kept]
      obtain ⟨o, m, points, blocks, counts, positive, holds⟩ := inv'.count_of source.2 here' has
      have refers : w'.Refers r o := ⟨q, here', points⟩
      have refers_h : w'.Refers h o := ⟨q, by rw [same, World.put_self], points⟩
      have more : 1 < m := holders_lt holds source.1 ⟨source.2, refers⟩ ⟨free, refers_h⟩
      have released := inv'.release source.2 refers blocks counts positive holds (by omega)
      rw [has] at run
      obtain ⟨n, old, rfl⟩ := Option.map_eq_some_iff.mp run
      obtain rfl : n + 1 = m := Option.some.inj ((Heap.block_write_self old _).symm.trans counts)
      rw [Nat.add_sub_cancel, Heap.write_write, Heap.write_same old] at released
      exact released
  apply handed.emptied
  intro none_
  cases kept.symm.trans none_

omit [DecidableEq H] [DecidableEq O] in
theorem Inv.next_free {pending : Set H} {dying : Set O} (inv : Inv layout w pending dying block)
    {o : O} {c : Nat} (has : block o = some c) : c ≠ w.counts.next := by
  rintro rfl
  obtain ⟨n, counts, -⟩ := inv.counted o _ has
  rw [Heap.block_next] at counts
  cases counts

theorem Inv.owned {pending : Set H} {h : H} {o : O}
    (inv : Inv layout w (insert h pending) ∅ block) (free : h ∉ pending) (new : o ∉ w.adopted)
    (lives : ∀ o, layout.home h = some o → w.deletes o = 0) :
    Inv layout (w.own h (some o)) pending ∅ (Function.update block o (some w.counts.next)) := by
  have unheld : ∀ k, k ≠ h → k ∉ pending → ¬ w.Refers k o := by
    intro k other out refers
    obtain ⟨c, has⟩ := inv.block_of (still_out other out) refers
    exact new (inv.adopted o c has).1
  have undeleted : w.deletes o = 0 := by
    by_contra deleted
    exact new ((inv.once o).2 deleted)
  have known : ∀ o' c, o' ≠ o → Function.update block o (some w.counts.next) o' = some c →
      block o' = some c := by
    intro o' c other has
    rw [Function.update_of_ne other] at has
    exact has
  have refers_h : ∀ o', (w.own h (some o)).Refers h o' ↔ o' = o := by
    intro o'
    simp [World.Refers, World.own, eq_comm]
  have refers_other : ∀ k o', k ≠ h → ((w.own h (some o)).Refers k o' ↔ w.Refers k o') := by
    intro k o' other
    simp [World.Refers, World.own, other]
  constructor
  · intro o' c has
    by_cases same : o' = o
    · subst same
      exact ⟨List.mem_cons_self, undeleted⟩
    · obtain ⟨mem, live⟩ := inv.adopted o' c (known o' c same has)
      exact ⟨List.mem_cons_of_mem o mem, live⟩
  · intro o' mem live
    by_cases same : o' = o
    · subst same
      simp
    · rw [Function.update_of_ne same]
      exact inv.live o' ((List.mem_cons.mp mem).resolve_left same) live
  · intro o'
    exact ⟨(inv.once o').1, fun deleted => List.mem_cons_of_mem o ((inv.once o').2 deleted)⟩
  · intro o₁ o₂ c has₁ has₂
    by_cases first : o₁ = o <;> by_cases second : o₂ = o
    · rw [first, second]
    · subst first
      rw [Function.update_self] at has₁
      exact absurd (Option.some.inj has₁).symm (inv.next_free (known o₂ c second has₂))
    · subst second
      rw [Function.update_self] at has₂
      exact absurd (Option.some.inj has₂).symm (inv.next_free (known o₁ c first has₁))
    · exact inv.single o₁ o₂ c (known o₁ c first has₁) (known o₂ c second has₂)
  · intro o' c has
    by_cases same : o' = o
    · subst same
      rw [Function.update_self] at has
      cases has
      refine ⟨1, if_pos rfl, Nat.one_pos, {h}, ?_, Finset.card_singleton h⟩
      intro k
      rw [Finset.mem_singleton]
      constructor
      · rintro rfl
        exact ⟨free, (refers_h o').mpr rfl⟩
      · rintro ⟨out, refers⟩
        by_contra other
        exact unheld k other out ((refers_other k o' other).mp refers)
    · have has' := known o' c same has
      obtain ⟨n, counts, positive, holds⟩ := inv.counted o' c has'
      refine ⟨n, (if_neg (inv.next_free has')).trans counts, positive, ?_⟩
      apply holders_congr holds
      intro k
      by_cases target : k = h
      · subst target
        constructor
        · rintro ⟨_, refers⟩
          exact absurd ((refers_h o').mp refers) same
        · rintro ⟨out, _⟩
          exact absurd (Set.mem_insert k pending) out
      · rw [refers_other k o' target, Set.mem_insert_iff, or_iff_right target]
  · intro k p out here
    by_cases target : k = h
    · subst target
      have same : (⟨some o, some w.counts.next⟩ : Handle O) = p := by
        simpa [World.own] using here
      rw [← same]
      refine ⟨by simp, ?_⟩
      intro o' points
      cases points
      simp
    · have before : w.handles k = some p := by simpa [World.own, target] using here
      apply agrees_update _ _ (inv.agrees k p (still_out target out) before)
      intro points
      exact unheld k target out ⟨p, before, points⟩
  · intro k a home deleted
    by_cases target : k = h
    · subst target
      exact absurd (lives a home) deleted
    · simpa [World.own, target] using inv.gone k a home deleted

omit [DecidableEq H] [DecidableEq O] in
theorem Inv.fresh {h : H} (inv : Inv layout w ∅ ∅ block) (fresh : Fresh layout w h) :
    Inv layout w (insert h ∅) ∅ block := by
  apply inv.pend
  rintro o ⟨p, here, -⟩
  cases fresh.1.symm.trans here

theorem own_sound {h : H} {ptr : Option O} (inv : Inv layout w (insert h ∅) ∅ block)
    (new : ∀ o, ptr = some o → o ∉ w.adopted)
    (lives : ∀ o, layout.home h = some o → w.deletes o = 0) : Sound layout (w.own h ptr) := by
  cases ptr with
  | none =>
    exact ⟨block, inv.emptied fun _ => lives⟩
  | some o => exact ⟨_, inv.owned (fun no => no) (new o rfl) lives⟩

theorem construct_sound {h : H} {ptr : Option O} (sound : Sound layout w)
    (admits : Admits layout w (.construct h ptr)) :
    ∃ w', step layout w (.construct h ptr) = some w' ∧ Sound layout w' := by
  obtain ⟨block, inv⟩ := sound
  obtain ⟨fresh, new⟩ := admits
  refine ⟨w.own h ptr, ?_, own_sound (inv.fresh fresh) new fresh.2⟩
  simp only [step, fresh.1]

omit [DecidableEq O] in
theorem share_sound {h r : H} {q : Handle O} (inv : Inv layout w (insert h ∅) ∅ block)
    (other : r ≠ h) (here : w.handles r = some q)
    (lives : ∀ o, layout.home h = some o → w.deletes o = 0) :
    ∃ w', (w.put h (some q)).inc q.refCount = some w' ∧ Sound layout w' := by
  obtain ⟨w', run, inv', -⟩ := inv.shared (fun no => no) (still_out other fun no => no) here lives
  exact ⟨w', run, block, inv'⟩

omit [DecidableEq H] [DecidableEq O] in
theorem Fresh.other {h r : H} {q : Handle O} (fresh : Fresh layout w h)
    (here : w.handles r = some q) : r ≠ h := by
  rintro rfl
  cases fresh.1.symm.trans here

theorem copyConstruct_sound {h r : H} (sound : Sound layout w)
    (admits : Admits layout w (.copyConstruct h r)) :
    ∃ w', step layout w (.copyConstruct h r) = some w' ∧ Sound layout w' := by
  obtain ⟨block, inv⟩ := sound
  obtain ⟨fresh, alive⟩ := admits
  obtain ⟨q, here⟩ := Option.isSome_iff_exists.mp alive
  obtain ⟨w', run, sound'⟩ := share_sound (inv.fresh fresh) (fresh.other here) here fresh.2
  refine ⟨w', ?_, sound'⟩
  simp only [step, fresh.1, here]
  exact run

theorem moveConstruct_sound {h r : H} (sound : Sound layout w)
    (admits : Admits layout w (.moveConstruct h r)) :
    ∃ w', step layout w (.moveConstruct h r) = some w' ∧ Sound layout w' := by
  obtain ⟨block, inv⟩ := sound
  obtain ⟨fresh, alive⟩ := admits
  obtain ⟨q, here⟩ := Option.isSome_iff_exists.mp alive
  refine ⟨(w.put h (some q)).put r (some .empty), ?_, block, ?_⟩
  · simp only [step, fresh.1, here]
  · exact (inv.fresh fresh).moved (fun no => no) (still_out (fresh.other here) fun no => no) here
      fresh.2

theorem cast_sound {h r : H} {found : Bool} (sound : Sound layout w)
    (admits : Admits layout w (.cast h r found)) :
    ∃ w', step layout w (.cast h r found) = some w' ∧ Sound layout w' := by
  obtain ⟨block, inv⟩ := sound
  obtain ⟨fresh, alive⟩ := admits
  obtain ⟨q, here⟩ := Option.isSome_iff_exists.mp alive
  by_cases shares : q.ptr.isSome ∧ found
  · obtain ⟨w', run, sound'⟩ := share_sound (inv.fresh fresh) (fresh.other here) here fresh.2
    refine ⟨w', ?_, sound'⟩
    simp only [step, fresh.1, here]
    rw [if_pos shares]
    exact run
  · have empty : Sound layout (w.own h none) :=
      own_sound (inv.fresh fresh) (fun o no => by cases no) fresh.2
    refine ⟨_, ?_, empty⟩
    simp only [step, fresh.1, here]
    rw [if_neg shares]
    rfl

theorem assign_sound {h r : H} (sound : Sound layout w) (acyclic : Acyclic layout w)
    (admits : Admits layout w (.assign h r)) (kept : SourceKept layout w (.assign h r)) :
    ∃ w', step layout w (.assign h r) = some w' ∧ Sound layout w' := by
  obtain ⟨block, inv⟩ := sound
  obtain ⟨alive, source⟩ := admits
  by_cases same : h = r
  · subst same
    obtain ⟨p, here⟩ := Option.isSome_iff_exists.mp alive
    refine ⟨w, ?_, block, inv⟩
    simp [step, here]
  · obtain ⟨w₁, block₁, run, inv₁, -, alive₁, kept₁⟩ := World.destroy_spec inv acyclic alive
    obtain ⟨q, here⟩ := Option.isSome_iff_exists.mp source
    have here₁ : w₁.handles r = some q := by
      rw [kept₁ r (Ne.symm same) (kept.resolve_left same)]
      exact here
    obtain ⟨w', shared, sound'⟩ := share_sound inv₁ (Ne.symm same) here₁ (inv₁.home_live alive₁)
    obtain ⟨p, target⟩ := Option.isSome_iff_exists.mp alive₁
    refine ⟨w', ?_, sound'⟩
    simp only [step, if_neg same, run, target, here₁]
    exact shared

theorem moveAssign_sound {h r : H} (sound : Sound layout w) (acyclic : Acyclic layout w)
    (admits : Admits layout w (.moveAssign h r)) (kept : SourceKept layout w (.moveAssign h r)) :
    ∃ w', step layout w (.moveAssign h r) = some w' ∧ Sound layout w' := by
  obtain ⟨block, inv⟩ := sound
  obtain ⟨alive, source⟩ := admits
  obtain ⟨w₁, block₁, run, inv₁, -, alive₁, kept₁⟩ := World.destroy_spec inv acyclic alive
  obtain ⟨p, target⟩ := Option.isSome_iff_exists.mp alive₁
  by_cases same : h = r
  · subst same
    refine ⟨_, ?_, block₁, inv₁.emptied fun _ => inv₁.home_live alive₁⟩
    simp [step, run, target, World.put]
  · obtain ⟨q, here⟩ := Option.isSome_iff_exists.mp source
    have here₁ : w₁.handles r = some q := by
      rw [kept₁ r (Ne.symm same) (kept.resolve_left same)]
      exact here
    refine ⟨(w₁.put h (some q)).put r (some .empty), ?_, block₁, ?_⟩
    · simp only [step, run, target, here₁]
    · exact inv₁.moved (fun no => no) (still_out (Ne.symm same) fun no => no) here₁
        (inv₁.home_live alive₁)

theorem reset_sound {h : H} {newPtr : Option O} (sound : Sound layout w)
    (acyclic : Acyclic layout w) (admits : Admits layout w (.reset h newPtr)) :
    ∃ w', step layout w (.reset h newPtr) = some w' ∧ Sound layout w' := by
  obtain ⟨block, inv⟩ := sound
  obtain ⟨alive, new⟩ := admits
  obtain ⟨p, here⟩ := Option.isSome_iff_exists.mp alive
  by_cases same : p.ptr = newPtr
  · refine ⟨w, ?_, block, inv⟩
    simp only [step, here, if_pos same]
  · obtain ⟨w₁, block₁, run, inv₁, adopted, alive₁, -⟩ := World.destroy_spec inv acyclic alive
    obtain ⟨p₁, target⟩ := Option.isSome_iff_exists.mp alive₁
    refine ⟨w₁.own h newPtr, ?_, own_sound inv₁ ?_ (inv₁.home_live alive₁)⟩
    · simp only [step, here, if_neg same, run, target, Option.map_some]
    · intro o wanted
      rw [adopted]
      obtain unmanaged | ⟨q, here', points⟩ := new o wanted
      · exact unmanaged
      · cases here.symm.trans here'
        exact absurd (points.trans wanted.symm) same

theorem destruct_sound {h : H} (sound : Sound layout w) (acyclic : Acyclic layout w)
    (admits : Admits layout w (.destruct h)) :
    ∃ w', step layout w (.destruct h) = some w' ∧ Sound layout w' := by
  obtain ⟨block, inv⟩ := sound
  obtain ⟨w₁, block₁, run, inv₁, -, -, -⟩ := World.destroy_spec inv acyclic admits
  refine ⟨w₁.put h none, ?_, block₁, inv₁.cleared (by simp) fun _ => .inl rfl⟩
  simp only [step, run, Option.map_some]

theorem step_sound {op : Op H O} (sound : Sound layout w) (acyclic : Acyclic layout w)
    (admits : Admits layout w op) (kept : SourceKept layout w op) :
    ∃ w', step layout w op = some w' ∧ Sound layout w' := by
  cases op with
  | construct h ptr => exact construct_sound sound admits
  | copyConstruct h r => exact copyConstruct_sound sound admits
  | moveConstruct h r => exact moveConstruct_sound sound admits
  | cast h r found => exact cast_sound sound admits
  | assign h r => exact assign_sound sound acyclic admits kept
  | moveAssign h r => exact moveAssign_sound sound acyclic admits kept
  | reset h newPtr => exact reset_sound sound acyclic admits
  | destruct h => exact destruct_sound sound acyclic admits

omit [DecidableEq H] [DecidableEq O] in
theorem empty_sound : Sound layout (.empty : World H O) := by
  refine ⟨fun _ => none, ?_, ?_, ?_, ?_, ?_, ?_, ?_⟩
  · intro o c no
    cases no
  · intro o no
    cases no
  · intro o
    exact ⟨Nat.zero_le 1, fun deleted => absurd rfl deleted⟩
  · intro o o' c no
    cases no
  · intro o c no
    cases no
  · intro h p _ no
    cases no
  · intro h o _ deleted
    exact absurd rfl deleted

/-- What the class promises: every live object has a count, which is the number of its
    handles and which they all have; an object was deleted once if it was given away and
    has no handle, and otherwise not at all; the handles in deleted objects are gone. -/
structure Counted (layout : Layout H O) (w : World H O) : Prop where
  count : ∀ o ∈ w.adopted, w.deletes o = 0 → ∃ c n, w.counts.block c = some n ∧ 0 < n ∧
    Holders w ∅ o n ∧ ∀ h p, w.handles h = some p → p.ptr = some o → p.refCount = some c
  deleted : ∀ o, w.deletes o ≤ 1 ∧ (w.deletes o = 1 ↔ o ∈ w.adopted ∧ ∀ h, ¬ w.Refers h o)
  gone : ∀ h o, layout.home h = some o → w.deletes o = 1 → w.handles h = none

omit [DecidableEq H] [DecidableEq O] in
theorem Sound.counted (sound : Sound layout w) : Counted layout w := by
  obtain ⟨block, inv⟩ := sound
  constructor
  · intro o adopted undeleted
    obtain ⟨c, has⟩ := Option.ne_none_iff_exists'.mp (inv.live o adopted undeleted)
    obtain ⟨n, counts, positive, holds⟩ := inv.counted o c has
    refine ⟨c, n, counts, positive, holds, ?_⟩
    intro h p here points
    obtain ⟨same, -⟩ := inv.agrees h p (fun no => no) here
    rw [same, points, Option.bind_some, has]
  · intro o
    refine ⟨(inv.once o).1, ?_, ?_⟩
    · intro once
      refine ⟨(inv.once o).2 (by omega), ?_⟩
      intro h refers
      obtain ⟨c, has⟩ := inv.block_of (fun no => no) refers
      have undeleted := (inv.adopted o c has).2
      omega
    · intro ⟨adopted, unheld⟩
      by_contra not_once
      have undeleted : w.deletes o = 0 := by
        have bound := (inv.once o).1
        omega
      obtain ⟨c, has⟩ := Option.ne_none_iff_exists'.mp (inv.live o adopted undeleted)
      obtain ⟨n, -, positive, s, mem, card⟩ := inv.counted o c has
      obtain ⟨k, member⟩ := Finset.card_pos.mp (card ▸ positive)
      exact unheld k ((mem k).mp member).2
  · intro h o home deleted
    exact (inv.gone h o home (by omega)).resolve_left fun no => no

def Expected (layout : Layout H O) (w : World H O) (op : Op H O) : Prop :=
  Acyclic layout w ∧ Admits layout w op

/-- Those that do not read a source which went with the old object of the target. -/
def Allowed (layout : Layout H O) (w : World H O) (op : Op H O) : Prop :=
  Expected layout w op ∧ SourceKept layout w op

theorem run_sound {ops : List (Op H O)}
    (run : Run (Guarded (Allowed layout) (Steps (step layout))) .empty ops w) : Sound layout w := by
  apply run_invariant (Sound layout) _ run empty_sound
  intro w op w' sound next
  obtain ⟨⟨⟨acyclic, admits⟩, kept⟩, run⟩ := next
  obtain ⟨w₁, run₁, sound'⟩ := step_sound sound acyclic admits kept
  cases run₁.symm.trans run
  exact sound'

theorem counts_agree {ops : List (Op H O)}
    (run : Run (Guarded (Allowed layout) (Steps (step layout))) .empty ops w) :
    Counted layout w ∧ ∀ op, Allowed layout w op → (step layout w op).isSome := by
  have sound := run_sound run
  refine ⟨sound.counted, ?_⟩
  intro op allowed
  obtain ⟨w', next, -⟩ := step_sound sound allowed.1.1 allowed.1.2 allowed.2
  rw [next]
  rfl

end Calls

section Chain

instance [DecidableEq O] (w : World H O) (h : H) (o : O) : Decidable (w.Refers h o) :=
  decidable_of_iff ((w.handles h).bind Handle.ptr = some o) Option.bind_eq_some_iff

variable [Fintype O] [DecidableEq O]

instance (layout : Layout H O) (w : World H O) (h : H) : Decidable (Fresh layout w h) :=
  inferInstanceAs (Decidable (_ ∧ _))

instance (layout : Layout H O) (w : World H O) (op : Op H O) : Decidable (Admits layout w op) :=
  match op with
  | .construct .. | .copyConstruct .. | .moveConstruct .. | .cast .. | .assign .. | .moveAssign ..
  | .reset .. => inferInstanceAs (Decidable (_ ∧ _))
  | .destruct _ => inferInstanceAs (Decidable (_ = _))

def Ranked (layout : Layout H O) (rank : O → Nat) (w : World H O) : Prop :=
  ∀ k a b, layout.home k = some a → w.Refers k b → rank b < rank a

def SourceRooted (layout : Layout H O) (w : World H O) : Op H O → Prop
  | .assign h r => ∀ a, layout.home r = some a → ∃ k, k ≠ h ∧ layout.home k = none ∧ w.Refers k a
  | .moveAssign h r => ∀ a, layout.home r = some a → ∃ k, k ≠ h ∧ layout.home k = none ∧ w.Refers k a
  | _ => True

instance [Fintype H] (layout : Layout H O) (rank : O → Nat) (w : World H O) :
    Decidable (Ranked layout rank w) := inferInstanceAs (Decidable (∀ _, _))

instance [Fintype H] [DecidableEq H] (layout : Layout H O) (w : World H O) (op : Op H O) :
    Decidable (SourceRooted layout w op) :=
  match op with
  | .assign .. | .moveAssign .. => inferInstanceAs (Decidable (∀ _, _))
  | .construct .. | .copyConstruct .. | .moveConstruct .. | .cast .. | .reset .. | .destruct _ =>
    inferInstanceAs (Decidable True)

/-- What can be decided of the calls over finitely many handles and objects. -/
def Plain (layout : Layout H O) (rank : O → Nat) (w : World H O) (op : Op H O) : Prop :=
  Ranked layout rank w ∧ Admits layout w op

def PlainKept (layout : Layout H O) (rank : O → Nat) (w : World H O) (op : Op H O) : Prop :=
  Plain layout rank w op ∧ SourceRooted layout w op

instance [Fintype H] (layout : Layout H O) (rank : O → Nat) (w : World H O) (op : Op H O) :
    Decidable (Plain layout rank w op) := inferInstanceAs (Decidable (_ ∧ _))

instance [Fintype H] [DecidableEq H] (layout : Layout H O) (rank : O → Nat) (w : World H O)
    (op : Op H O) : Decidable (PlainKept layout rank w op) := inferInstanceAs (Decidable (_ ∧ _))

omit [Fintype O] [DecidableEq O] in
theorem Plain.expected {rank : O → Nat} {op : Op H O} (plain : Plain layout rank w op) :
    Expected layout w op := ⟨acyclic_of_rank rank plain.1, plain.2⟩

omit [Fintype O] [DecidableEq O] in
theorem kept_of_rooted {h r : H} (rooted : ∀ a, layout.home r = some a →
    ∃ k, k ≠ h ∧ layout.home k = none ∧ w.Refers k a) :
    ∀ a, layout.home r = some a → Kept layout w h a := by
  intro a home
  obtain ⟨k, other, outside, refers⟩ := rooted a home
  apply Kept.held other refers
  intro b inside
  rw [outside] at inside
  cases inside

omit [Fintype O] [DecidableEq O] in
theorem PlainKept.allowed {rank : O → Nat} {op : Op H O} (plain : PlainKept layout rank w op) :
    Allowed layout w op := by
  refine ⟨plain.1.expected, ?_⟩
  have rooted := plain.2
  cases op with
  | assign h r => exact .inr (kept_of_rooted rooted)
  | moveAssign h r => exact .inr (kept_of_rooted rooted)
  | construct => trivial
  | copyConstruct => trivial
  | moveConstruct => trivial
  | cast => trivial
  | reset => trivial
  | destruct => trivial

/-- Two nodes of a linked list: the handle `next`, 1, is a member of the node 0. The
    handles 0 and 2 are local. -/
def nodes : Layout (Fin 3) (Fin 2) where
  members o := if o = 0 then [1] else []
  home h := if h = 1 then some 0 else none
  mem_members := by decide

def nodeRank (o : Fin 2) : Nat := 1 - o.val

/-- The nodes are linked, and a handle `p` refers to the first. -/
def link : List (Op (Fin 3) (Fin 2)) := [.construct 1 (some 1), .construct 0 (some 0)]

theorem counts_agree_linked : ∃ w, Counted nodes w ∧ (step nodes w (.destruct 2)).isSome := by
  have checked : ((runAll (guarded (PlainKept nodes nodeRank) (step nodes)) .empty
      (link ++ [.copyConstruct 2 0, .assign 0 1])).any
        fun w => decide (PlainKept nodes nodeRank w (.destruct 2))) = true := by decide +kernel
  obtain ⟨w, all, next⟩ := (Option.any_eq_true _ _).mp checked
  have run := run_guarded_mono (fun _ _ => PlainKept.allowed) (run_guarded_iff.mpr all)
  obtain ⟨counted, safe⟩ := counts_agree run
  exact ⟨w, counted, safe _ (of_decide_eq_true next).allowed⟩

/-- `p = p->next` with `p` the only handle of the node, as a copy and as a move: the source
    is read when it is gone. -/
theorem assigned_from_deleted : ∃ w,
    Run (Guarded (Expected nodes) (Steps (step nodes))) .empty link w ∧
      Expected nodes w (.assign 0 1) ∧ step nodes w (.assign 0 1) = none ∧
      Expected nodes w (.moveAssign 0 1) ∧ step nodes w (.moveAssign 0 1) = none := by
  have checked : ((runAll (guarded (Plain nodes nodeRank) (step nodes)) .empty link).any
      fun w => decide (Plain nodes nodeRank w (.assign 0 1) ∧ (step nodes w (.assign 0 1)).isNone ∧
        Plain nodes nodeRank w (.moveAssign 0 1) ∧ (step nodes w (.moveAssign 0 1)).isNone))
      = true := by decide +kernel
  obtain ⟨w, all, next⟩ := (Option.any_eq_true _ _).mp checked
  obtain ⟨copied, copyFails, moved, moveFails⟩ := of_decide_eq_true next
  have run := run_guarded_mono (fun _ _ => Plain.expected) (run_guarded_iff.mpr all)
  exact ⟨w, run, copied.expected, Option.isNone_iff_eq_none.mp copyFails, moved.expected,
    Option.isNone_iff_eq_none.mp moveFails⟩

end Chain

end SharedPtr
