import UpanLibs.Transition
import Mathlib.Logic.Function.Basic

/-!
The class `uniq_ptr` over any kinds of handles and objects. A raw pointer is the object
it points to; what `deletePtr` calls is counted for each object.
-/
namespace UniqPtr

universe u v
variable {H : Type u} {O : Type v}

structure Handle (O : Type v) where
  ptr : Option O
  owner : Bool
  deriving DecidableEq, Repr

/-- The handles that are alive, and what has become of the objects: `adopted` and `letGo`
    record the objects given to a constructor or `reset`, and those released or disowned. -/
structure World (H : Type u) (O : Type v) where
  handles : H → Option (Handle O)
  deletes : O → Nat
  adopted : O → Bool
  letGo : O → Bool

inductive Op (H : Type u) (O : Type v) where
  | construct (h : H) (ptr : Option O)
  | moveConstruct (h r : H)
  | moveAssign (h r : H)
  | reset (h : H) (newPtr : Option O)
  | release (h : H)
  | disown (h : H)
  | destruct (h : H)
  deriving DecidableEq, Repr

namespace World

def empty : World H O := ⟨fun _ => none, fun _ => 0, fun _ => false, fun _ => false⟩

variable [DecidableEq H] [DecidableEq O] (w : World H O)

def put (h : H) (p : Option (Handle O)) : World H O :=
  { w with handles := Function.update w.handles h p }

def adopt : Option O → World H O
  | some o => { w with adopted := Function.update w.adopted o true }
  | none => w

def giveUp : Option O → World H O
  | some o => { w with letGo := Function.update w.letGo o true }
  | none => w

/-- `destroy()` on the handle `h`, which is `p`. -/
def destroy (h : H) (p : Handle O) : World H O :=
  match p.owner, p.ptr with
  | true, some o =>
      { w with deletes := Function.update w.deletes o (w.deletes o + 1) }.put h
        (some { p with ptr := none })
  | _, _ => w

/-- The internal `disown()` of a handle that was moved from. -/
def disownMoved (r : H) : World H O :=
  match w.handles r with
  | some p => w.put r (some { p with owner := false })
  | none => w

/-- One call; there is none on a handle that is not alive, and a constructor needs a new
    one. -/
def step (w : World H O) : Op H O → Option (World H O)
  | .construct h ptr =>
      match w.handles h with
      | some _ => none
      | none => some ((w.adopt ptr).put h (some ⟨ptr, true⟩))
  | .moveConstruct h r =>
      match w.handles h, w.handles r with
      | none, some q => some ((w.put h (some ⟨q.ptr, true⟩)).disownMoved r)
      | _, _ => none
  | .moveAssign h r =>
      match w.handles h, w.handles r with
      | some p, some _ =>
          let w := w.destroy h p
          match w.handles r with
          | some q => some ((w.put h (some ⟨q.ptr, true⟩)).disownMoved r)
          | none => none
      | _, _ => none
  | .reset h newPtr =>
      match w.handles h with
      | some p =>
          if p.ptr ≠ newPtr then
            some (((w.destroy h p).adopt newPtr).put h (some { p with ptr := newPtr }))
          else some w
      | none => none
  | .release h =>
      match w.handles h with
      | some p => some ((w.giveUp p.ptr).put h (some { p with ptr := none }))
      | none => none
  | .disown h =>
      match w.handles h with
      | some p => some ((w.giveUp p.ptr).put h (some { p with owner := false }))
      | none => none
  | .destruct h =>
      match w.handles h with
      | some p => some ((w.destroy h p).put h none)
      | none => none

def Owns (h : H) (o : O) : Prop := w.handles h = some ⟨some o, true⟩

/-- A constructor or `reset` gets a raw object only once. -/
def AdoptsOnce : Op H O → Prop
  | .construct _ (some o) => w.adopted o = false
  | .reset _ (some o) => w.adopted o = false
  | _ => True

def OwnsWhatItHolds (h : H) : Prop :=
  ∀ p ∈ w.handles h, p.owner = true ∨ p.ptr = none

/-- No object is moved, released or disowned from a handle that is not its owner, and none
    is given to a handle that was moved from or disowned. -/
def Harmless : Op H O → Prop
  | .construct _ _ => True
  | .moveConstruct _ r => w.OwnsWhatItHolds r
  | .moveAssign h r => h = r ∨ w.OwnsWhatItHolds r
  | .reset h newPtr => newPtr = none ∨ ∀ p ∈ w.handles h, p.owner = true
  | .release h => ∀ p ∈ w.handles h, p.owner = true ∨ ∀ o ∈ p.ptr, w.letGo o = true
  | .disown h => ∀ p ∈ w.handles h, p.owner = true ∨ ∀ o ∈ p.ptr, w.letGo o = true
  | .destruct _ => True

end World

inductive Status (H : Type u) where
  | absent
  | held (h : H)
  | deleted
  | letGo
  deriving DecidableEq, Repr

def Status.deletes : Status H → Nat
  | .deleted => 1
  | .absent | .held _ | .letGo => 0

/-- The status of each object tells which handle owns it and what was done to it. -/
structure Represents (w : World H O) (status : O → Status H) : Prop where
  owns : ∀ h o, w.Owns h o ↔ status o = .held h
  deletes : ∀ o, w.deletes o = (status o).deletes
  adopted : ∀ o, w.adopted o = false ↔ status o = .absent
  letGo : ∀ o, w.letGo o = true ↔ status o = .letGo
  known : ∀ h p o, w.handles h = some p → p.ptr = some o → status o ≠ .absent

def Idle (status : O → Status H) (h : H) : Prop := ∀ o, status o ≠ .held h

theorem Represents.idle_of_handle {w : World H O} {status : O → Status H}
    (rep : Represents w status) {h : H} {p : Handle O}
    (here : w.handles h = some p) (plain : p.owner = true → p.ptr = none) : Idle status h := by
  intro o held
  have owns : w.handles h = some ⟨some o, true⟩ := (rep.owns h o).mpr held
  rw [here] at owns
  cases owns
  simp at plain

theorem Represents.only_owner {w : World H O} {status : O → Status H}
    (rep : Represents w status) {h : H} {o : O}
    (here : w.handles h = some ⟨some o, true⟩) :
    status o = .held h ∧ w.adopted o = true ∧ w.letGo o = false ∧ w.deletes o = 0 ∧
      (∀ h', h' ≠ h → status o ≠ .held h') ∧ ∀ o', o' ≠ o → status o' ≠ .held h := by
  have held : status o = .held h := (rep.owns h o).mp here
  refine ⟨held, ?_, ?_, ?_, ?_, ?_⟩
  · by_contra fresh
    have absent := (rep.adopted o).mp (by simpa using fresh)
    rw [held] at absent
    cases absent
  · by_contra gone
    have letGo := (rep.letGo o).mp (by simpa using gone)
    rw [held] at letGo
    cases letGo
  · rw [rep.deletes, held]
    rfl
  · intro h' differ same
    rw [held] at same
    cases same
    exact differ rfl
  · intro o' differ same
    have owns : w.handles h = some ⟨some o', true⟩ := (rep.owns h o').mpr same
    rw [here] at owns
    cases owns
    exact differ rfl

theorem represents_empty : Represents (World.empty : World H O) fun _ => .absent :=
  ⟨by simp [World.Owns, World.empty], fun _ => rfl, by simp [World.empty],
    by simp [World.empty], by simp [World.empty]⟩

/-- No object has two owners or is deleted twice, or while it is owned, or after it was
    released or disowned; every other one has been deleted when no handle is left. -/
def Ownership (w : World H O) : Prop :=
  (∀ o h h', w.Owns h o → w.Owns h' o → h = h') ∧
    (∀ o h, w.Owns h o → w.deletes o = 0) ∧
    (∀ o, w.deletes o ≤ 1) ∧
    (∀ o, w.letGo o = true → w.deletes o = 0) ∧
    ((∀ h, w.handles h = none) → ∀ o, w.adopted o = true → w.letGo o = false →
      w.deletes o = 1)

theorem Represents.ownership {w : World H O} {status : O → Status H}
    (rep : Represents w status) : Ownership w := by
  refine ⟨?_, ?_, ?_, ?_, ?_⟩
  · intro o h h' owns owns'
    have same := ((rep.owns h o).mp owns).symm.trans ((rep.owns h' o).mp owns')
    exact Status.held.inj same
  · intro o h owns
    rw [rep.deletes, (rep.owns h o).mp owns]
    rfl
  · intro o
    rw [rep.deletes]
    cases status o <;> simp [Status.deletes]
  · intro o gone
    rw [rep.deletes, (rep.letGo o).mp gone]
    rfl
  · intro ended o adopted kept
    rw [rep.deletes]
    cases fate : status o with
    | absent =>
      rw [(rep.adopted o).mpr fate] at adopted
      cases adopted
    | held h =>
      have owns : w.handles h = some ⟨some o, true⟩ := (rep.owns h o).mpr fate
      rw [ended h] at owns
      cases owns
    | deleted => rfl
    | letGo =>
      rw [(rep.letGo o).mpr fate] at kept
      cases kept

section

variable [DecidableEq H] {w : World H O} {status : O → Status H}

theorem handles_put (w : World H O) (h h' : H) (p : Option (Handle O)) :
    (w.put h p).handles h' = if h' = h then p else w.handles h' := by
  simp only [World.put, Function.update_apply]

theorem owns_put (w : World H O) (h h' : H) (p : Option (Handle O)) (o : O) :
    (w.put h p).Owns h' o ↔ if h' = h then p = some ⟨some o, true⟩ else w.Owns h' o := by
  rw [World.Owns, handles_put]
  split <;> rfl

theorem Represents.put_idle (rep : Represents w status) {h : H} (idle : Idle status h)
    {p : Option (Handle O)} (plain : ∀ o, p ≠ some ⟨some o, true⟩)
    (known : ∀ q ∈ p, ∀ o ∈ q.ptr, status o ≠ .absent) : Represents (w.put h p) status := by
  refine ⟨?_, rep.deletes, rep.adopted, rep.letGo, ?_⟩
  · intro h' o
    rw [owns_put]
    split
    next same =>
      subst same
      exact iff_of_false (plain o) (idle o)
    next => exact rep.owns h' o
  · intro h' q o here ptr
    rw [handles_put] at here
    split at here
    · exact known q here o ptr
    · exact rep.known h' q o here ptr

variable [DecidableEq O]

/-- The fate of one object, which no other handle than `h` is concerned with. -/
structure Fate (w w' : World H O) (status : O → Status H) (h : H) (o : O) (p : Option (Handle O))
    (fate : Status H) : Prop where
  handles : w'.handles = Function.update w.handles h p
  others : ∀ o', o' ≠ o → w'.deletes o' = w.deletes o' ∧ w'.adopted o' = w.adopted o' ∧
    w'.letGo o' = w.letGo o' ∧ status o' ≠ .held h
  alone : ∀ h', h' ≠ h → status o ≠ .held h' ∧ fate ≠ .held h'
  owns : fate = .held h ↔ p = some ⟨some o, true⟩
  ptr : ∀ q ∈ p, ∀ o' ∈ q.ptr, o' = o
  deletes : w'.deletes o = fate.deletes
  adopted : w'.adopted o = true ∧ fate ≠ .absent
  letGo : w'.letGo o = true ↔ fate = .letGo

theorem Represents.fate (rep : Represents w status) {w' : World H O} {h : H} {o : O}
    {p : Option (Handle O)} {fate : Status H} (f : Fate w w' status h o p fate) :
    Represents w' (Function.update status o fate) := by
  have at_ (h' : H) : w'.handles h' = if h' = h then p else w.handles h' := by
    rw [f.handles, Function.update_apply]
  refine ⟨?_, ?_, ?_, ?_, ?_⟩
  · intro h' o'
    rw [World.Owns, at_, Function.update_apply]
    by_cases self : h' = h
    · subst self
      rw [if_pos rfl]
      by_cases same : o' = o
      · subst same
        rw [if_pos rfl]
        exact f.owns.symm
      · rw [if_neg same]
        refine iff_of_false ?_ (f.others o' same).2.2.2
        intro owns
        exact same (f.ptr _ owns o' rfl)
    · rw [if_neg self]
      refine (rep.owns h' o').trans ?_
      split
      next same => exact iff_of_false (same ▸ (f.alone h' self).1) (f.alone h' self).2
      next => exact Iff.rfl
  · intro o'
    rw [Function.update_apply]
    split
    next same => exact same ▸ f.deletes
    next differ => exact (f.others o' differ).1.trans (rep.deletes o')
  · intro o'
    rw [Function.update_apply]
    split
    next same =>
      subst same
      exact iff_of_false (by simp [f.adopted.1]) f.adopted.2
    next differ =>
      rw [(f.others o' differ).2.1]
      exact rep.adopted o'
  · intro o'
    rw [Function.update_apply]
    split
    next same => exact same ▸ f.letGo
    next differ =>
      rw [(f.others o' differ).2.2.1]
      exact rep.letGo o'
  · intro h' q o' here ptr
    rw [Function.update_apply]
    split
    · exact f.adopted.2
    next differ =>
      rw [at_] at here
      split at here
      · exact absurd (f.ptr q here o' ptr) differ
      · exact rep.known h' q o' here ptr

structure Destroyed (w w' : World H O) (status status' : O → Status H) (h : H) (p : Handle O) :
    Prop where
  rep : Represents w' status'
  idle : Idle status' h
  others : ∀ r, r ≠ h → w'.handles r = w.handles r
  self : ∃ q, w'.handles h = some q ∧ (q.owner = true → q.ptr = none)
  absent : ∀ o, status' o = .absent ↔ status o = .absent
  adopted : ∀ o, w'.adopted o = w.adopted o

theorem Represents.destroy (rep : Represents w status) {h : H} {p : Handle O}
    (here : w.handles h = some p) :
    ∃ status', Destroyed w (w.destroy h p) status status' h p := by
  have stays (same : w.destroy h p = w) (plain : p.owner = true → p.ptr = none) :
      Destroyed w (w.destroy h p) status status h p := by
    rw [same]
    exact ⟨rep, rep.idle_of_handle here plain, fun _ _ => rfl, ⟨p, here, plain⟩,
      fun _ => Iff.rfl, fun _ => rfl⟩
  rcases p with ⟨_ | o, _ | _⟩
  · exact ⟨status, stays rfl (by simp)⟩
  · exact ⟨status, stays rfl (by simp)⟩
  · exact ⟨status, stays rfl (by simp)⟩
  · obtain ⟨held, adopted, letGo, none_, alone, others⟩ := rep.only_owner here
    have deleted : Fate w (w.destroy h ⟨some o, true⟩) status h o (some ⟨none, true⟩) .deleted := by
      refine ⟨rfl, fun o' differ => ⟨?_, rfl, rfl, others o' differ⟩,
        fun h' differ => ⟨alone h' differ, by simp⟩, by simp, by simp, ?_, ⟨adopted, by simp⟩,
        by simpa [World.destroy, World.put] using letGo⟩
      · exact Function.update_of_ne differ _ _
      · simp [World.destroy, World.put, none_, Status.deletes]
    refine ⟨_, rep.fate deleted, ?_, ?_, ?_, ?_, fun _ => rfl⟩
    · intro o'
      rw [Function.update_apply]
      split
      · simp
      next differ => exact others o' differ
    · intro r differ
      exact Function.update_of_ne differ _ _
    · exact ⟨⟨none, true⟩, Function.update_self _ _ _, fun _ => rfl⟩
    · intro o'
      rw [Function.update_apply]
      split
      next same => simp [same, held]
      next => exact Iff.rfl

theorem Represents.adopt (rep : Represents w status) {h : H} (idle : Idle status h)
    {ptr : Option O} (fresh : ∀ o ∈ ptr, w.adopted o = false) :
    ∃ status', Represents ((w.adopt ptr).put h (some ⟨ptr, true⟩)) status' := by
  cases ptr with
  | none => exact ⟨status, rep.put_idle idle (by simp) (by simp)⟩
  | some o =>
    have absent := (rep.adopted o).mp (fresh o rfl)
    have adopted : Fate w ((w.adopt (some o)).put h (some ⟨some o, true⟩)) status h o
        (some ⟨some o, true⟩) (.held h) := by
      refine ⟨rfl, fun o' differ => ⟨rfl, Function.update_of_ne differ _ _, rfl, idle o'⟩,
        fun h' differ => ⟨by simp [absent], fun same => differ (Status.held.inj same).symm⟩,
        by simp, by simp, ?_, ⟨Function.update_self _ _ _, by simp⟩, ?_⟩
      · exact (rep.deletes o).trans (by rw [absent]; rfl)
      · exact (rep.letGo o).trans (by simp [absent])
    exact ⟨_, rep.fate adopted⟩

theorem Represents.transfer (rep : Represents w status) {h r : H} (idle : Idle status h)
    (differ : h ≠ r) {q : Handle O} (here : w.handles r = some q)
    (owner : q.owner = true ∨ q.ptr = none) :
    ∃ status', Represents ((w.put h (some ⟨q.ptr, true⟩)).disownMoved r) status' := by
  have there : (w.put h (some ⟨q.ptr, true⟩)).handles r = some q := by
    rw [handles_put, if_neg differ.symm, here]
  have moved : (w.put h (some ⟨q.ptr, true⟩)).disownMoved r =
      (w.put h (some ⟨q.ptr, true⟩)).put r (some { q with owner := false }) := by
    simp only [World.disownMoved, there]
  rw [moved]
  rcases q with ⟨_ | o, owner⟩
  · have idle' := rep.idle_of_handle here fun _ => rfl
    have put := rep.put_idle idle (p := some ⟨none, true⟩) (by simp) (by simp)
    exact ⟨status, put.put_idle idle' (by simp) (by simp)⟩
  · simp only [reduceCtorEq, or_false] at owner
    subst owner
    obtain ⟨held, adopted, letGo, none_, alone, others⟩ := rep.only_owner here
    refine ⟨Function.update status o (.held h), ?_, ?_, ?_, ?_, ?_⟩
    · intro h' o'
      rw [owns_put, owns_put, Function.update_apply]
      by_cases source : h' = r
      · subst source
        rw [if_pos rfl]
        refine iff_of_false (by simp) ?_
        split
        · exact fun same => differ (Status.held.inj same)
        next other => exact others o' other
      · rw [if_neg source]
        by_cases target : h' = h
        · subst target
          rw [if_pos rfl]
          by_cases same : o' = o
          · simp [same]
          · rw [if_neg same]
            exact iff_of_false (by simpa using Ne.symm same) (idle o')
        · rw [if_neg target]
          refine (rep.owns h' o').trans ?_
          split
          next same =>
            subst same
            exact iff_of_false (alone h' source) fun same => target (Status.held.inj same).symm
          next => exact Iff.rfl
    · intro o'
      refine (rep.deletes o').trans ?_
      rw [Function.update_apply]
      split
      next same => rw [same, held]; rfl
      next => rfl
    · intro o'
      refine (rep.adopted o').trans ?_
      rw [Function.update_apply]
      split
      next same => simp [same, held]
      next => exact Iff.rfl
    · intro o'
      refine (rep.letGo o').trans ?_
      rw [Function.update_apply]
      split
      next same => simp [same, held]
      next => exact Iff.rfl
    · intro h' q o' put ptr
      rw [Function.update_apply]
      split
      · simp
      next other =>
        rw [handles_put, handles_put] at put
        split at put
        · cases put
          exact absurd (Option.some.inj ptr).symm other
        · split at put
          · cases put
            exact absurd (Option.some.inj ptr).symm other
          · exact rep.known h' q o' put ptr

theorem Represents.giveUp (rep : Represents w status) {h : H} {p p' : Handle O}
    (here : w.handles h = some p)
    (harmless : p.owner = true ∨ ∀ o ∈ p.ptr, w.letGo o = true)
    (plain : p'.owner = true → p'.ptr = none) (same : p'.ptr = none ∨ p'.ptr = p.ptr) :
    ∃ status', Represents ((w.giveUp p.ptr).put h (some p')) status' := by
  have plain' (o : O) : some p' ≠ some ⟨some o, true⟩ := by
    intro eq
    cases eq
    simp at plain
  have known : ∀ q ∈ some p', ∀ o ∈ q.ptr, o ∈ p.ptr := by
    rintro q ⟨⟩ o ptr
    rcases same with none_ | same
    · rw [none_] at ptr
      cases ptr
    · rwa [← same]
  rcases p with ⟨_ | o, owner⟩
  · have idle := rep.idle_of_handle here fun _ => rfl
    exact ⟨status, rep.put_idle idle plain' fun q mem o ptr => by simpa using known q mem o ptr⟩
  · cases owner with
    | true =>
      obtain ⟨held, adopted, letGo, none_, alone, others⟩ := rep.only_owner here
      have gone : Fate w ((w.giveUp (some o)).put h (some p')) status h o (some p') .letGo := by
        refine ⟨rfl, fun o' differ => ⟨rfl, rfl, Function.update_of_ne differ _ _, others o' differ⟩,
          fun h' differ => ⟨alone h' differ, by simp⟩, ?_, ?_, none_, ⟨adopted, by simp⟩, ?_⟩
        · exact iff_of_false (by simp) (plain' o)
        · intro q mem o' ptr
          exact (Option.some.inj (known q mem o' ptr)).symm
        · exact iff_of_true (Function.update_self _ _ _) rfl
      exact ⟨_, rep.fate gone⟩
    | false =>
      have gone : w.letGo o = true := by simpa using harmless
      have unchanged : w.giveUp (some o) = w := by
        rw [World.giveUp, ← gone, Function.update_eq_self]
      have idle := rep.idle_of_handle here (by simp)
      rw [unchanged]
      refine ⟨status, rep.put_idle idle plain' fun q mem o' ptr => ?_⟩
      have same := Option.some.inj (known q mem o' ptr)
      subst same
      rw [(rep.letGo o).mp gone]
      simp

theorem moveAssign_represents (rep : Represents w status) {h r : H} {p q : Handle O}
    (here : w.handles h = some p) (harmless : h = r ∨ w.OwnsWhatItHolds r)
    (source : (w.destroy h p).handles r = some q) :
    ∃ status',
      Represents (((w.destroy h p).put h (some ⟨q.ptr, true⟩)).disownMoved r) status' := by
  obtain ⟨status₁, destroyed⟩ := rep.destroy here
  by_cases self : h = r
  · subst self
    have twice : ((w.destroy h p).put h (some ⟨q.ptr, true⟩)).disownMoved h =
        (w.destroy h p).put h (some ⟨q.ptr, false⟩) := by
      simp [World.disownMoved, World.put]
    rw [twice]
    refine ⟨status₁, destroyed.rep.put_idle destroyed.idle (by simp) ?_⟩
    rintro _ ⟨⟩ o ptr
    exact destroyed.rep.known h q o source ptr
  · have source' : w.handles r = some q := by
      rwa [destroyed.others r (Ne.symm self)] at source
    exact destroyed.rep.transfer destroyed.idle self source
      (harmless.resolve_left self q source')

theorem reset_represents (rep : Represents w status) {h : H} {p : Handle O} {newPtr : Option O}
    (here : w.handles h = some p) (fresh : ∀ o ∈ newPtr, w.adopted o = false)
    (harmless : newPtr = none ∨ p.owner = true) :
    ∃ status', Represents
      (((w.destroy h p).adopt newPtr).put h (some { p with ptr := newPtr })) status' := by
  obtain ⟨status₁, destroyed⟩ := rep.destroy here
  cases newPtr with
  | none => exact ⟨status₁, destroyed.rep.put_idle destroyed.idle (by simp) (by simp)⟩
  | some o =>
    have owner := harmless.resolve_left (by simp)
    rw [owner]
    refine destroyed.rep.adopt destroyed.idle fun o' mem => ?_
    rw [destroyed.adopted]
    exact fresh o' mem

theorem step_represents (rep : Represents w status) {op : Op H O} {w' : World H O}
    (once : w.AdoptsOnce op) (harmless : w.Harmless op) (next : w.step op = some w') :
    ∃ status', Represents w' status' := by
  have absent {h : H} (gone : w.handles h = none) : Idle status h := by
    intro o held
    have owns : w.handles h = some ⟨some o, true⟩ := (rep.owns h o).mpr held
    rw [gone] at owns
    cases owns
  cases op with
  | construct h ptr =>
    cases here : w.handles h with
    | some p => simp [World.step, here] at next
    | none =>
      simp only [World.step, here, Option.some.injEq] at next
      subst next
      refine rep.adopt (absent here) fun o mem => ?_
      cases mem
      exact once
  | moveConstruct h r =>
    cases here : w.handles h with
    | some p => simp [World.step, here] at next
    | none =>
      cases source : w.handles r with
      | none => simp [World.step, here, source] at next
      | some q =>
        simp only [World.step, here, source, Option.some.injEq] at next
        subst next
        have differ : h ≠ r := by
          rintro rfl
          rw [here] at source
          cases source
        exact rep.transfer (absent here) differ source (harmless q source)
  | moveAssign h r =>
    cases here : w.handles h with
    | none => simp [World.step, here] at next
    | some p =>
      cases given : w.handles r with
      | none => simp [World.step, here, given] at next
      | some q' =>
        simp only [World.step, here, given] at next
        cases source : (w.destroy h p).handles r with
        | none => simp [source] at next
        | some q =>
          simp only [source, Option.some.injEq] at next
          subst next
          exact moveAssign_represents rep here harmless source
  | reset h newPtr =>
    cases here : w.handles h with
    | none => simp [World.step, here] at next
    | some p =>
      simp only [World.step, here] at next
      split at next
      · cases next
        refine reset_represents rep here (fun o mem => ?_) (harmless.imp_right fun all => all p here)
        cases mem
        exact once
      · cases next
        exact ⟨status, rep⟩
  | release h =>
    cases here : w.handles h with
    | none => simp [World.step, here] at next
    | some p =>
      simp only [World.step, here, Option.some.injEq] at next
      subst next
      exact rep.giveUp here (harmless p here) (fun _ => rfl) (.inl rfl)
  | disown h =>
    cases here : w.handles h with
    | none => simp [World.step, here] at next
    | some p =>
      simp only [World.step, here, Option.some.injEq] at next
      subst next
      exact rep.giveUp here (harmless p here) (by simp) (.inr rfl)
  | destruct h =>
    cases here : w.handles h with
    | none => simp [World.step, here] at next
    | some p =>
      simp only [World.step, here, Option.some.injEq] at next
      subst next
      obtain ⟨status₁, destroyed⟩ := rep.destroy here
      exact ⟨status₁, destroyed.rep.put_idle destroyed.idle (by simp) (by simp)⟩

def Allowed (w : World H O) (op : Op H O) : Prop := w.AdoptsOnce op ∧ w.Harmless op

theorem ownership_kept {ops : List (Op H O)}
    (run : Transition.Run (Transition.Guarded Allowed (Transition.Steps World.step))
      World.empty ops w) : Ownership w := by
  obtain ⟨status, rep⟩ := Transition.run_invariant (fun w => ∃ status, Represents w status)
    (fun w op w' ⟨status, rep⟩ next => step_represents rep next.1.1 next.1.2 next.2) run
    ⟨_, represents_empty⟩
  exact rep.ownership

instance (op : Op H O) : Decidable (w.AdoptsOnce op) :=
  match op with
  | .construct _ (some _) | .reset _ (some _) => inferInstanceAs (Decidable (_ = false))
  | .construct _ none | .reset _ none | .moveConstruct _ _ | .moveAssign _ _ | .release _
  | .disown _ | .destruct _ => .isTrue trivial

instance (h : H) : Decidable (w.OwnsWhatItHolds h) :=
  inferInstanceAs (Decidable (∀ p ∈ w.handles h, _ ∨ _))

instance (op : Op H O) : Decidable (w.Harmless op) :=
  match op with
  | .moveConstruct _ r => inferInstanceAs (Decidable (w.OwnsWhatItHolds r))
  | .moveAssign h r => inferInstanceAs (Decidable (h = r ∨ w.OwnsWhatItHolds r))
  | .reset h newPtr =>
      inferInstanceAs (Decidable (newPtr = none ∨ ∀ p ∈ w.handles h, p.owner = true))
  | .release h | .disown h =>
      inferInstanceAs (Decidable (∀ p ∈ w.handles h, _ ∨ ∀ o ∈ p.ptr, w.letGo o = true))
  | .construct _ _ | .destruct _ => .isTrue trivial

instance (op : Op H O) : Decidable (Allowed w op) := inferInstanceAs (Decidable (_ ∧ _))

end

theorem ownership_kept_reused :
    ∃ w : World Nat Nat, Transition.runAll (Transition.guarded Allowed World.step) World.empty
        [.construct 0 (some 5), .moveConstruct 1 0, .reset 0 none, .moveAssign 0 1,
          .destruct 1, .destruct 0] = some w ∧ Ownership w := by
  have reached : (Transition.runAll (Transition.guarded Allowed World.step)
      (World.empty : World Nat Nat) [.construct 0 (some 5), .moveConstruct 1 0, .reset 0 none,
        .moveAssign 0 1, .destruct 1, .destruct 0]).isSome = true := by
    decide
  obtain ⟨w, here⟩ := Option.isSome_iff_exists.mp reached
  exact ⟨w, here, ownership_kept (Transition.run_guarded_iff.mpr here)⟩

/-- A handle keeps its pointer when it is moved from, so a second move makes a second
    owner, and the object is deleted twice. -/
theorem moved_from_again :
    ∃ w : World Nat Nat, Transition.runAll (Transition.guarded World.AdoptsOnce World.step)
        World.empty [.construct 0 (some 5), .moveConstruct 1 0, .moveConstruct 2 0,
          .destruct 1, .destruct 2] = some w ∧ ¬ Ownership w := by
  have reached : ((Transition.runAll (Transition.guarded World.AdoptsOnce World.step)
      (World.empty : World Nat Nat) [.construct 0 (some 5), .moveConstruct 1 0,
        .moveConstruct 2 0, .destruct 1, .destruct 2]).any fun w => w.deletes 5 == 2) = true := by
    decide
  obtain ⟨w, here, twice⟩ := (Option.any_eq_true _ _).mp reached
  refine ⟨w, here, fun ownership => ?_⟩
  have once := ownership.2.2.1 5
  rw [beq_iff_eq.mp twice] at once
  omega

end UniqPtr
