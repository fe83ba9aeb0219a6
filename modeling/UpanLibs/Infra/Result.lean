import UpanLibs.Memory
import UpanLibs.Transition

/-!
The class `result`. It has a destructor and no other special member of its own: its copies
and assignments are made member by member, and what is moved is copied. The value of a
`result<Good&>` is the address of its object. A bad result has no value that is read.
-/
namespace Results
open Memory

/-- `upan::error`, which has its message as a string of its own. -/
structure Error where
  val : Int
  msg : String
  deriving DecidableEq, Repr

structure Result (G : Type) where
  value : Option G
  error : Option Nat
  deriving DecidableEq, Repr

variable {G V : Type}

def ofGood (value : G) : Result G := ⟨some value, none⟩

def ofError (err : Error) : Program Error (Result G) := do
  let e ← alloc err
  pure ⟨none, some e⟩

def destroy (r : Result G) : Program Error Unit := delete r.error

def isBad (r : Result G) : Bool := r.error.isSome

def isGood (r : Result G) : Bool := !isBad r

def badValue (r : Result G) : Program Error (Except String Error) :=
  match r.error with
  | none => pure (.error "result is Good - can't get Error")
  | some a => do
    let e ← load a
    pure (.ok e)

abbrev State (V G : Type) := World V (Result G) Error

def State.empty : State V G := ⟨.empty, fun _ => none⟩

inductive Op (V G : Type) where
  | good (x : V) (value : G)
  | bad (x : V) (err : Error)
  | copy (x y : V)
  | assign (x y : V)
  | destruct (x : V)
  deriving DecidableEq, Repr

/-- A result on the heap and what it stands for. -/
def Rep (h : Heap Error) (r : Result G) : Except Error G → Prop
  | .ok value => r = ofGood value
  | .error err => ∃ a, r.error = some a ∧ h.block a = some err

/-- The results have their values and errors, every error on the heap belongs to one of
    them, and none to two. -/
def Holds (s : State V G) (m : V → Option (Except Error G)) : Prop :=
  Represents Result.error Rep s m

/-- Every error on the heap has exactly one owner, and a bad result has the error it should:
    an error that is not there any more was deleted, and only once. -/
structure Ownership (s : State V G) (m : V → Option (Except Error G)) : Prop where
  owner : ∀ a, (s.heap.block a).isSome → ∃! x, (s.object x).bind Result.error = some a
  live : ∀ x a, (s.object x).bind Result.error = some a → (s.heap.block a).isSome
  reads : ∀ x err, m x = some (.error err) → ∃ r, s.object x = some r ∧
    badValue r s.heap = some (.ok err, s.heap)

variable {s : State V G} {m : V → Option (Except Error G)}

theorem owning_rep : Owning Result.error (Rep (G := G)) where
  live := by
    intro h r l a meaning has
    cases l with
    | ok value =>
      cases meaning
      cases has
    | error err =>
      obtain ⟨b, here, live⟩ := meaning
      rw [here, Option.some.injEq] at has
      rw [← has, live]
      rfl
  frame := by
    intro h h' r l meaning same
    cases l with
    | ok value => exact meaning
    | error err =>
      obtain ⟨b, here, live⟩ := meaning
      exact ⟨b, here, (same b here).trans live⟩

theorem rep_good {h : Heap Error} {r : Result G} {l : Except Error G} (rep : Rep h r l)
    (good : isGood r = true) : r.error = none ∧ ∀ h', Rep h' r l := by
  cases l with
  | ok value =>
    cases rep
    exact ⟨rfl, fun h' => rfl⟩
  | error err =>
    obtain ⟨a, here, -⟩ := rep
    simp [isGood, isBad, here] at good

theorem good_of_null {r : Result G} (null : ∀ a, r.error ≠ some a) : isGood r = true := by
  cases here : r.error with
  | none => simp [isGood, isBad, here]
  | some a => exact absurd here (null a)

theorem holds_ownership (held : Holds s m) : Ownership s m where
  owner := by
    intro a live
    obtain ⟨x, has⟩ := held.owned a live
    exact ⟨x, has, fun y other => held.single y x a other has⟩
  live := fun x a has => rel_live owning_rep (held.objects x) has
  reads := by
    intro x err here
    obtain ⟨r, object, a, has, live⟩ := held.some_of here
    refine ⟨r, object, ?_⟩
    rw [badValue]
    simp only [has]
    rw [run_bind (run_load live), run_pure]

variable [DecidableEq V]

/-- One construction, assignment or destruction; there is none of a result that does not
    live, and a constructor needs a new one. -/
def step (s : State V G) : Op V G → Option (State V G)
  | .good x value => s.build x (pure (ofGood value))
  | .bad x err => s.build x (ofError err)
  | .copy x y => (s.object y).bind fun r => s.build x (pure r)
  | .assign x y => (s.object y).bind fun r => (s.call x fun _ => pure (r, ())).map Prod.fst
  | .destruct x => (s.object x).bind fun r =>
      (destroy r s.heap).map fun ((), h) => s.update x h none

/-- What the results are to stand for: a copy or an assignment gives the source's value or
    error. -/
def next (m : V → Option (Except Error G)) : Op V G → V → Option (Except Error G)
  | .good x value => Function.update m x (some (.ok value))
  | .bad x err => Function.update m x (some (.error err))
  | .copy x y => Function.update m x (m y)
  | .assign x y => Function.update m x (m y)
  | .destruct x => Function.update m x none

/-- The operation is one on live results, or constructs a new one. -/
def Admits (s : State V G) : Op V G → Prop
  | .good x _ => s.object x = none
  | .bad x _ => s.object x = none
  | .copy x y => s.object x = none ∧ (s.object y).isSome
  | .assign x y => (s.object x).isSome ∧ (s.object y).isSome
  | .destruct x => (s.object x).isSome

/-- Only good results are copied, and assigned to good ones or to themselves. -/
def Allowed (s : State V G) : Op V G → Prop
  | .copy _ y => ∀ r ∈ s.object y, isGood r = true
  | .assign x y => x = y ∨
      (∀ r ∈ s.object x, isGood r = true) ∧ ∀ r ∈ s.object y, isGood r = true
  | _ => True

theorem holds_build {x : V} {h' : Heap Error} {f : Program Error (Result G)} {r : Result G}
    {l : Except Error G} (held : Holds s m) (fresh : s.object x = none)
    (run : f s.heap = some (r, h')) (effect : Effect s.heap h' none r.error) (rep : Rep h' r l) :
    ∃ s', s.build x f = some s' ∧ Holds s' (Function.update m x (some l)) :=
  ⟨_, held.build owning_rep fresh run effect rep⟩

theorem step_holds (held : Holds s m) {op : Op V G} (admits : Admits s op)
    (allowed : Allowed s op) : ∃ s', step s op = some s' ∧ Holds s' (next m op) := by
  cases op with
  | good x value => exact holds_build held admits rfl (.refl _ _) rfl
  | bad x err =>
    refine holds_build held admits rfl (.alloc _ err) (l := .error err) ⟨_, rfl, ?_⟩
    exact if_pos rfl
  | copy x y =>
    obtain ⟨fresh, lives⟩ := admits
    obtain ⟨r, object⟩ := Option.isSome_iff_exists.mp lives
    obtain ⟨l, here, rep⟩ := held.of_object object
    obtain ⟨null, always⟩ := rep_good rep (allowed r object)
    have built := holds_build held fresh (f := pure r) rfl (null ▸ .refl _ _) (always s.heap)
    simpa only [step, object, Option.bind_some, next, here] using built
  | assign x y =>
    obtain ⟨mine, yours⟩ := admits
    obtain ⟨o, target⟩ := Option.isSome_iff_exists.mp mine
    obtain ⟨r, source⟩ := Option.isSome_iff_exists.mp yours
    obtain ⟨l, here, rep⟩ := held.of_object source
    have run : step s (.assign x y) = some (s.update x s.heap (some r)) := by
      simp only [step, source, Option.bind_some, World.call, target]
      rfl
    refine ⟨_, run, ?_⟩
    rw [next, here]
    refine held.update owning_rep ?_ (.some rep)
    rcases allowed with rfl | ⟨first, second⟩
    · rw [source]
      exact .refl _ _
    · obtain ⟨l', -, rep'⟩ := held.of_object target
      rw [target, Option.bind_some, Option.bind_some, (rep_good rep' (first o target)).1,
        (rep_good rep (second r source)).1]
      exact .refl _ _
  | destruct x =>
    obtain ⟨r, object⟩ := Option.isSome_iff_exists.mp admits
    obtain ⟨l, here, rep⟩ := held.of_object object
    obtain ⟨h', run, effect⟩ := run_delete r.error fun a has => owning_rep.live rep has
    refine ⟨s.update x h' none, ?_, held.destroy owning_rep object effect⟩
    simp only [step, object, Option.bind_some, destroy, run]
    rfl

theorem allowed_of_ownership (held : Holds s m) {op : Op V G} (admits : Admits s op)
    {s' : State V G} (taken : step s op = some s') (after : Ownership s' (next m op)) :
    Allowed s op := by
  cases op with
  | good x value => trivial
  | bad x err => trivial
  | destruct x => trivial
  | copy x y =>
    obtain ⟨fresh, -⟩ := admits
    intro r object
    rw [Option.mem_def] at object
    simp only [step, object, Option.bind_some, World.build, fresh] at taken
    cases taken
    have apart : y ≠ x := by
      rintro rfl
      rw [fresh] at object
      cases object
    refine good_of_null fun a has => ?_
    have mine : (s.object y).bind Result.error = some a := by rw [object, Option.bind_some, has]
    have live := rel_live owning_rep (held.objects y) mine
    refine apart ((after.owner a live).unique ?_ ?_)
    · simp [World.update, apart, object, has]
    · simp [World.update, has]
  | assign x y =>
    by_cases same : x = y
    · exact .inl same
    obtain ⟨mine, yours⟩ := admits
    obtain ⟨o, target⟩ := Option.isSome_iff_exists.mp mine
    obtain ⟨r, source⟩ := Option.isSome_iff_exists.mp yours
    simp only [step, source, Option.bind_some, World.call, target] at taken
    cases taken
    have null (a : Nat) : r.error ≠ some a := by
      intro has
      have owns : (s.object y).bind Result.error = some a := by rw [source, Option.bind_some, has]
      have live := rel_live owning_rep (held.objects y) owns
      refine same ((after.owner a live).unique ?_ ?_)
      · simp [World.update, has]
      · simp [World.update, Ne.symm same, source, has]
    refine .inr ⟨fun r' object => ?_, fun r' object => ?_⟩
    · cases (Option.mem_def.mp object).symm.trans target
      refine good_of_null fun a has => ?_
      have owns : (s.object x).bind Result.error = some a := by rw [target, Option.bind_some, has]
      have live := rel_live owning_rep (held.objects x) owns
      obtain ⟨z, theirs, -⟩ := after.owner a live
      by_cases atX : z = x
      · subst atX
        simp only [World.update, Function.update_self, Option.bind_some] at theirs
        exact null a theirs
      · simp only [World.update, Function.update_of_ne atX] at theirs
        exact atX (held.single z x a theirs owns)
    · cases (Option.mem_def.mp object).symm.trans source
      exact good_of_null null

/-- In every state that the operations lead through, the ownership is right. -/
def Kept (s : State V G) (m : V → Option (Except Error G)) : List (Op V G) → Prop
  | [] => Ownership s m
  | op :: ops => Ownership s m ∧ ∃ s', step s op = some s' ∧ Kept s' (next m op) ops

/-- Every operation has what it needs in the state in which it comes. -/
def Along (needs : State V G → Op V G → Prop) (s : State V G) : List (Op V G) → Prop
  | [] => True
  | op :: ops => needs s op ∧ ∀ s', step s op = some s' → Along needs s' ops

theorem kept_iff (held : Holds s m) {ops : List (Op V G)} (admits : Along Admits s ops) :
    Kept s m ops ↔ Along Allowed s ops := by
  induction ops generalizing s m with
  | nil => exact iff_of_true (holds_ownership held) trivial
  | cons op ops ih =>
    obtain ⟨first, rest⟩ := admits
    constructor
    · rintro ⟨-, s', taken, kept⟩
      have after : Ownership s' (next m op) := by
        cases ops with
        | nil => exact kept
        | cons op' ops => exact kept.1
      have allowed := allowed_of_ownership held first taken after
      obtain ⟨s₁, taken₁, held₁⟩ := step_holds held first allowed
      cases taken₁.symm.trans taken
      refine ⟨allowed, fun s₂ taken₂ => ?_⟩
      cases taken.symm.trans taken₂
      exact (ih held₁ (rest s' taken)).mp kept
    · rintro ⟨allowed, later⟩
      obtain ⟨s', taken, held'⟩ := step_holds held first allowed
      exact ⟨holds_ownership held, s', taken, (ih held' (rest s' taken)).mpr (later s' taken)⟩

/-- From no results at all. -/
theorem ownership_iff (ops : List (Op V G)) (admits : Along Admits State.empty ops) :
    Kept State.empty (fun _ => none) ops ↔ Along Allowed State.empty ops :=
  kept_iff represents_empty admits

theorem ownership_iff_good :
    let ops : List (Op Nat Nat) := [.bad 0 ⟨-1, "no file"⟩, .good 1 5, .copy 2 1, .assign 1 2,
      .assign 0 0, .destruct 0]
    Kept State.empty (fun _ => none) ops ↔ Along Allowed State.empty ops := by
  refine ownership_iff _ ⟨rfl, ?_⟩
  rintro _ ⟨⟩
  refine ⟨rfl, ?_⟩
  rintro _ ⟨⟩
  refine ⟨⟨rfl, rfl⟩, ?_⟩
  rintro _ ⟨⟩
  refine ⟨⟨rfl, rfl⟩, ?_⟩
  rintro _ ⟨⟩
  refine ⟨⟨rfl, rfl⟩, ?_⟩
  rintro _ ⟨⟩
  refine ⟨rfl, ?_⟩
  rintro _ ⟨⟩
  trivial

/-- A copy of a bad result has the same error, which is then deleted twice. -/
theorem copied_error :
    let ops : List (Op Nat Nat) := [.bad 0 ⟨-1, "no file"⟩, .copy 1 0]
    Along Admits State.empty ops ∧ ¬ Kept State.empty (fun _ => none) ops ∧
      Transition.runAll step State.empty (ops ++ [.destruct 0, .destruct 1]) = none := by
  refine ⟨⟨rfl, ?_⟩, ?_, rfl⟩
  · rintro _ ⟨⟩
    refine ⟨⟨rfl, rfl⟩, ?_⟩
    rintro _ ⟨⟩
    trivial
  · -- both results own the error at address 0
    rintro ⟨-, _, ⟨⟩, -, _, ⟨⟩, shared⟩
    obtain ⟨x, -, only⟩ := shared.owner 0 rfl
    cases (only 0 rfl).trans (only 1 rfl).symm

end Results
