import UpanLibs.Transition
import Mathlib.Logic.Function.Basic

/-!
The keys for thread-local data of `pthread.cpp`. `pthread_key_create` takes a key under the
mutex and then writes the caller's own table, and other threads may run in between; all else
is one access to the keys or stays in the caller's table. `key` is never null, `NULL` is
`none`, and a destructor calls none of these functions. Beside the program stands what its
callers know of the calls so far: the keys that are live with their destructors and creators,
the values that were set since the creation, and what each thread gave for keys of its own.
-/
namespace ThreadKeys
open Transition

def PTHREAD_MAX_LOCAL_KEYS : Nat := 128

variable {T D V : Type}

structure thread_local_key_value (D V : Type) where
  destructor : Option D
  value : Option V
  deriving DecidableEq

def unset : thread_local_key_value D V := ⟨none, none⟩

/-- The thread-local variables, and the key that an unfinished `pthread_key_create` took with
    the destructor it was given. -/
structure Thread (D V : Type) where
  data : Nat → thread_local_key_value D V
  initialized : Bool
  creating : Option (Nat × Option D)

structure Program (T D V : Type) where
  threadKeys : Nat → Bool
  thread : T → Option (Thread D V)

inductive Action (T D V : Type) where
  | start (t : T)
  | keyCreate (t : T) (destructor : Option D)
  | keyCreateEnd (t : T)
  | keyDelete (t : T) (key : Nat)
  | setspecific (t : T) (key : Nat) (data : Option V)
  | getspecific (t : T) (key : Nat)
  | exit (t : T)

inductive Returned (D V : Type) where
  | zero
  | EAGAIN
  | EINVAL
  | key (k : Nat)
  | value (v : Option V)
  | destructed (calls : List (Nat × D × Option V))
  deriving DecidableEq

/-- `_get_thread_local_data`. -/
def Thread.local_data (th : Thread D V) : Thread D V :=
  if th.initialized then th else { th with data := fun _ => unset, initialized := true }

def Thread.set (th : Thread D V) (key : Nat) (e : thread_local_key_value D V) : Thread D V :=
  { th with data := Function.update th.data key e }

/-- The thread after `upthread_entry_caller` has cleared its table. -/
def Thread.new : Thread D V := ⟨fun _ => unset, false, none⟩

def create_key (threadKeys : Nat → Bool) : Option Nat :=
  (List.range PTHREAD_MAX_LOCAL_KEYS).find? fun i => !threadKeys i

/-- The loop of `pthread_exit`: key, destructor and argument of each call. -/
def destruct (th : Thread D V) : List (Nat × D × Option V) :=
  (List.range PTHREAD_MAX_LOCAL_KEYS).filterMap fun i =>
    (th.local_data.data i).destructor.map fun d => (i, d, (th.local_data.data i).value)

variable [DecidableEq T]

def Program.put (p : Program T D V) (t : T) (th : Option (Thread D V)) : Program T D V :=
  { p with thread := Function.update p.thread t th }

def Program.idle (p : Program T D V) (t : T) : Option (Thread D V) :=
  match p.thread t with
  | some th => if th.creating = none then some th else none
  | none => none

def perform (p : Program T D V) : Action T D V → Option (Program T D V × Returned D V)
  | .start t =>
    match p.thread t with
    | some _ => none
    | none => some (p.put t (some .new), .zero)
  | .keyCreate t destructor =>
    (p.idle t).map fun th =>
      match create_key p.threadKeys with
      | none => (p, .EAGAIN)
      | some k =>
        ({ p.put t (some { th with creating := some (k, destructor) }) with
            threadKeys := Function.update p.threadKeys k true }, .key k)
  | .keyCreateEnd t =>
    match p.thread t with
    | some ⟨data, initialized, some (k, destructor)⟩ =>
      let th := Thread.local_data ⟨data, initialized, none⟩
      some (p.put t (some (th.set k ⟨destructor, none⟩)), .zero)
    | _ => none
  | .keyDelete t k =>
    (p.idle t).map fun _ =>
      if PTHREAD_MAX_LOCAL_KEYS ≤ k then (p, .EINVAL)
      else ({ p with threadKeys := Function.update p.threadKeys k false }, .zero)
  | .setspecific t k v =>
    (p.idle t).map fun th =>
      if PTHREAD_MAX_LOCAL_KEYS ≤ k then (p, .EINVAL)
      else
        let th := th.local_data
        (p.put t (some (th.set k { th.data k with value := v })), .zero)
  | .getspecific t k =>
    (p.idle t).map fun th =>
      if PTHREAD_MAX_LOCAL_KEYS ≤ k then (p, .value none)
      else (p.put t (some th.local_data), .value (th.local_data.data k).value)
  | .exit t => (p.idle t).map fun th => (p.put t none, .destructed (destruct th))

/-- The live keys with the destructors given at their creation, what each thread has set since
    then, the running thread that created a live key, and the destructor that each thread gave
    when it last created a key itself. -/
structure Keys (T D V : Type) where
  created : Nat → Option (Option D)
  value : T → Nat → Option V
  creator : Nat → Option T
  gave : T → Nat → Option D

def Keys.follow (keys : Keys T D V) : Action T D V → Returned D V → Keys T D V
  | .start t, .zero =>
    { keys with
        value := Function.update keys.value t fun _ => none
        gave := Function.update keys.gave t fun _ => none }
  | .keyCreate t destructor, .key k =>
    ⟨Function.update keys.created k (some destructor),
      fun u => Function.update (keys.value u) k none,
      Function.update keys.creator k (some t),
      Function.update keys.gave t (Function.update (keys.gave t) k destructor)⟩
  | .keyDelete _ k, .zero =>
    { keys with
        created := Function.update keys.created k none
        creator := Function.update keys.creator k none }
  | .setspecific t k v, .zero =>
    { keys with value := Function.update keys.value t (Function.update (keys.value t) k v) }
  | .exit t, .destructed _ =>
    { keys with creator := fun k => if keys.creator k = some t then none else keys.creator k }
  | _, _ => keys

def Keys.dueDestructor (keys : Keys T D V) (t : T) (k : Nat) : Option D :=
  match keys.created k, keys.value t k with
  | some d, some _ => d
  | _, _ => none

def Keys.due (keys : Keys T D V) (t : T) : List (Nat × D × Option V) :=
  (List.range PTHREAD_MAX_LOCAL_KEYS).filterMap fun k =>
    (keys.dueDestructor t k).map fun d => (k, d, keys.value t k)

structure System (T D V : Type) where
  program : Program T D V
  keys : Keys T D V

def System.next (s : System T D V) (e : Action T D V × Returned D V) (s' : System T D V) : Prop :=
  perform s.program e.1 = some (s'.program, e.2) ∧ s'.keys = s.keys.follow e.1 e.2

def System.start (main : T) : System T D V :=
  ⟨⟨fun _ => false, fun t => if t = main then some .new else none⟩,
    ⟨fun _ => none, fun _ _ => none, fun _ => none, fun _ _ => none⟩⟩

/-- What the callers are told: the value of a live key is the last one set since its creation,
    and an exit runs the destructor of each live key with a value, once. -/
def Right (s : System T D V) : Action T D V → Returned D V → Prop
  | .getspecific t k, r => (s.keys.created k).isSome → r = .value (s.keys.value t k)
  | .exit t, r => r = .destructed (s.keys.due t)
  | _, _ => True

/-- The live keys with a destructor for which the thread has a value are its own, and what it has
    last created with a destructor is still live and has a value. -/
structure OwnKeys (keys : Keys T D V) (t : T) : Prop where
  created : ∀ k d, keys.created k = some (some d) → (keys.value t k).isSome →
    keys.creator k = some t
  gave : ∀ k d, keys.gave t k = some d → keys.creator k = some t ∧ (keys.value t k).isSome

/-- A key is created where no other thread has a value left, and a thread exits with keys of
    its own. -/
def Allowed (s : System T D V) (e : Action T D V × Returned D V) : Prop :=
  match e.1 with
  | .keyCreate t _ => ∀ k, create_key s.program.threadKeys = some k →
      ∀ u th, u ≠ t → s.program.thread u = some th → th.creating.map Prod.fst ≠ some k →
        (th.local_data.data k).value = none
  | .exit t => OwnKeys s.keys t
  | _ => True

/-- A table has the values set since the creation of each live key; a thread that is still
    creating a key has set none. -/
def Has (created : Nat → Option (Option D)) (value : Nat → Option V) (th : Thread D V) : Prop :=
  ∀ k, (created k).isSome → if th.creating.map Prod.fst = some k then value k = none
    else (th.local_data.data k).value = value k

/-- A table has the destructors that the thread gave, and a creation that is not finished has
    the one that it was given. -/
structure Gave (gave : Nat → Option D) (th : Thread D V) : Prop where
  creating : ∀ k d, th.creating = some (k, d) → gave k = d
  destructor : ∀ k, th.creating.map Prod.fst ≠ some k → (th.local_data.data k).destructor = gave k

structure Invariant (s : System T D V) : Prop where
  live : ∀ k, s.program.threadKeys k = (s.keys.created k).isSome
  below : ∀ k, (s.keys.created k).isSome → k < PTHREAD_MAX_LOCAL_KEYS
  tables : ∀ t th, s.program.thread t = some th → Has s.keys.created (s.keys.value t) th

/-- The destructors in the tables are those that the threads gave, and a key that a running
    thread created has the one that this thread gave. -/
structure Owners (s : System T D V) : Prop where
  gave : ∀ t th, s.program.thread t = some th → Gave (s.keys.gave t) th
  creator : ∀ k t, s.keys.creator k = some t → (s.program.thread t).isSome ∧
    s.keys.created k = some (s.keys.gave t k)

section Threads

omit [DecidableEq T]

variable {p : Program T D V} {t : T} {th : Thread D V}

theorem create_key_free {threadKeys : Nat → Bool} {k : Nat} (free : create_key threadKeys = some k) :
    k < PTHREAD_MAX_LOCAL_KEYS := by
  exact List.mem_range.mp (List.mem_of_find?_eq_some free)

theorem idle_eq_some : p.idle t = some th ↔ p.thread t = some th ∧ th.creating = none := by
  unfold Program.idle
  cases p.thread t with
  | none => simp
  | some u =>
    by_cases out : u.creating = none
    · simp only [out, if_true, Option.some.injEq]
      constructor
      · rintro rfl
        exact ⟨rfl, out⟩
      · exact And.left
    · simp only [out, if_false, Option.some.injEq]
      constructor
      · intro nothing
        cases nothing
      · rintro ⟨rfl, none⟩
        exact absurd none out

theorem local_data_of_initialized (here : th.initialized = true) : th.local_data = th := if_pos here

@[simp]
theorem local_data_initialized : th.local_data.initialized = true := by
  unfold Thread.local_data
  split
  · assumption
  · rfl

@[simp]
theorem local_data_creating : th.local_data.creating = th.creating := by
  unfold Thread.local_data
  split <;> rfl

@[simp]
theorem local_data_set (k : Nat) (e : thread_local_key_value D V) :
    (th.local_data.set k e).local_data = th.local_data.set k e :=
  local_data_of_initialized local_data_initialized

theorem local_data_local_data : th.local_data.local_data = th.local_data :=
  local_data_of_initialized local_data_initialized

theorem local_data_data (creating : Option (Nat × Option D)) :
    (Thread.local_data { th with creating := creating }).data = th.local_data.data := by
  unfold Thread.local_data
  split <;> rfl

theorem Has.value {created : Nat → Option (Option D)} {value : Nat → Option V}
    (has : Has created value th) (idle : th.creating = none) {k : Nat}
    (live : (created k).isSome) : (th.local_data.data k).value = value k := by
  have here := has k live
  rw [idle] at here
  exact here

end Threads

variable {p : Program T D V} {t : T} {created : Nat → Option (Option D)}
  {value : T → Nat → Option V}

/-- What a call that returns has done. -/
inductive Effect (p : Program T D V) : Action T D V → Returned D V → Program T D V → Prop
  | started {t : T} (gone : p.thread t = none) : Effect p (.start t) .zero (p.put t (some .new))
  | created {t : T} {th : Thread D V} {destructor : Option D} {k : Nat}
      (here : p.thread t = some th) (out : th.creating = none)
      (free : create_key p.threadKeys = some k) :
      Effect p (.keyCreate t destructor) (.key k)
        { p.put t (some { th with creating := some (k, destructor) }) with
          threadKeys := Function.update p.threadKeys k true }
  | createdEnd {t : T} {th : Thread D V} {k : Nat} {destructor : Option D}
      (here : p.thread t = some th) (creating : th.creating = some (k, destructor)) :
      Effect p (.keyCreateEnd t) .zero (p.put t (some
        ((Thread.local_data { th with creating := none }).set k ⟨destructor, none⟩)))
  | deleted {t : T} {k : Nat} : Effect p (.keyDelete t k) .zero
      { p with threadKeys := Function.update p.threadKeys k false }
  | set {t : T} {th : Thread D V} {k : Nat} {v : Option V} (here : p.thread t = some th)
      (out : th.creating = none) : Effect p (.setspecific t k v) .zero
        (p.put t (some (th.local_data.set k { th.local_data.data k with value := v })))
  | got {t : T} {th : Thread D V} {k : Nat} (here : p.thread t = some th)
      (out : th.creating = none) : Effect p (.getspecific t k)
        (.value (th.local_data.data k).value) (p.put t (some th.local_data))
  | exited {t : T} {th : Thread D V} (here : p.thread t = some th) (out : th.creating = none) :
      Effect p (.exit t) (.destructed (destruct th)) (p.put t none)
  | refused {action : Action T D V} {returned : Returned D V}
      (same : ∀ keys : Keys T D V, keys.follow action returned = keys) :
      Effect p action returned p

theorem perform_effect {p' : Program T D V} {action : Action T D V} {returned : Returned D V}
    (code : perform p action = some (p', returned)) : Effect p action returned p' := by
  cases action with
  | start t =>
    simp only [perform] at code
    split at code
    · cases code
    next gone =>
      cases code
      exact .started gone
  | keyCreate t destructor =>
    obtain ⟨th, idle, eq⟩ := Option.map_eq_some_iff.mp code
    obtain ⟨here, out⟩ := idle_eq_some.mp idle
    cases free : create_key p.threadKeys with
    | none =>
      simp only [free] at eq
      cases eq
      exact .refused fun _ => rfl
    | some k =>
      simp only [free] at eq
      cases eq
      exact .created here out free
  | keyCreateEnd t =>
    simp only [perform] at code
    split at code
    next here =>
      cases code
      exact .createdEnd here rfl
    next => cases code
  | keyDelete t k =>
    obtain ⟨_, _, eq⟩ := Option.map_eq_some_iff.mp code
    split at eq
    · cases eq
      exact .refused fun _ => rfl
    · cases eq
      exact .deleted
  | setspecific t k v =>
    obtain ⟨th, idle, eq⟩ := Option.map_eq_some_iff.mp code
    obtain ⟨here, out⟩ := idle_eq_some.mp idle
    split at eq
    · cases eq
      exact .refused fun _ => rfl
    · cases eq
      exact .set here out
  | getspecific t k =>
    obtain ⟨th, idle, eq⟩ := Option.map_eq_some_iff.mp code
    obtain ⟨here, out⟩ := idle_eq_some.mp idle
    split at eq
    · cases eq
      exact .refused fun _ => rfl
    · cases eq
      exact .got here out
  | exit t =>
    obtain ⟨th, idle, eq⟩ := Option.map_eq_some_iff.mp code
    cases eq
    obtain ⟨here, out⟩ := idle_eq_some.mp idle
    exact .exited here out

theorem tables_put {th : Option (Thread D V)}
    (others : ∀ u thu, u ≠ t → p.thread u = some thu → Has created (value u) thu)
    (mine : ∀ th', th = some th' → Has created (value t) th') :
    ∀ u thu, (p.put t th).thread u = some thu → Has created (value u) thu := by
  intro u thu thread
  by_cases same : u = t
  · subst same
    exact mine thu (by simpa [Program.put] using thread)
  · exact others u thu same (by simpa [Program.put, same] using thread)

variable {s s' : System T D V}

theorem next_create {t : T} {destructor : Option D} {th : Thread D V} {k : Nat}
    (inv : Invariant s) (here : s.program.thread t = some th) (out : th.creating = none)
    (free : create_key s.program.threadKeys = some k)
    (clear : ∀ u th, u ≠ t → s.program.thread u = some th → th.creating.map Prod.fst ≠ some k →
      (th.local_data.data k).value = none) :
    Invariant ⟨{ s.program.put t (some { th with creating := some (k, destructor) }) with
        threadKeys := Function.update s.program.threadKeys k true },
      s.keys.follow (.keyCreate t destructor) (.key k)⟩ := by
  simp only [Keys.follow]
  constructor
  · intro j
    by_cases same : j = k
    · simp [same]
    · simpa [same] using inv.live j
  · intro j live
    by_cases same : j = k
    · exact same ▸ create_key_free free
    · exact inv.below j (by simpa [same] using live)
  · refine tables_put (p := s.program) ?_ ?_
    · intro u thu other thread j live
      by_cases same : j = k
      · subst same
        by_cases creating : thu.creating.map Prod.fst = some j
        · simp [creating]
        · simp [creating, clear u thu other thread creating]
      · simpa [same] using inv.tables u thu thread j (by simpa [same] using live)
    · rintro _ ⟨⟩ j live
      by_cases same : j = k
      · simp [same]
      · have live : (s.keys.created j).isSome := by simpa [same] using live
        have kept := (inv.tables t th here).value out live
        simp [same, Ne.symm same, local_data_data, kept]

theorem gave_put {gave : T → Nat → Option D} {th : Option (Thread D V)}
    (others : ∀ u thu, u ≠ t → p.thread u = some thu → Gave (gave u) thu)
    (mine : ∀ th', th = some th' → Gave (gave t) th') :
    ∀ u thu, (p.put t th).thread u = some thu → Gave (gave u) thu := by
  intro u thu thread
  by_cases same : u = t
  · subst same
    exact mine thu (by simpa [Program.put] using thread)
  · exact others u thu same (by simpa [Program.put, same] using thread)

theorem creator_put {creator : Nat → Option T} {gave : T → Nat → Option D} {th : Thread D V}
    (owned : ∀ k u, creator k = some u → (p.thread u).isSome ∧ created k = some (gave u k)) :
    ∀ k u, creator k = some u →
      ((p.put t (some th)).thread u).isSome ∧ created k = some (gave u k) := by
  intro k u here
  refine ⟨?_, (owned k u here).2⟩
  by_cases same : u = t
  · simp [Program.put, same]
  · simpa [Program.put, same] using (owned k u here).1

theorem owners_create {t : T} {destructor : Option D} {th : Thread D V} {k : Nat}
    (owners : Owners s) (here : s.program.thread t = some th) (out : th.creating = none) :
    Owners ⟨{ s.program.put t (some { th with creating := some (k, destructor) }) with
        threadKeys := Function.update s.program.threadKeys k true },
      s.keys.follow (.keyCreate t destructor) (.key k)⟩ := by
  simp only [Keys.follow]
  constructor
  · refine gave_put (p := s.program) ?_ ?_
    · intro u thu other thread
      simpa [other] using owners.gave u thu thread
    · rintro _ ⟨⟩
      constructor
      · rintro j d ⟨⟩
        simp
      · intro j apart
        have apart : j ≠ k := fun same => apart (by simp [same])
        have had := (owners.gave t th here).destructor j (by simp [out])
        simp [apart, local_data_data, had]
  · intro j u creator
    by_cases same : j = k
    · subst same
      obtain rfl : t = u := by simpa using creator
      simp [Program.put]
    · have old := owners.creator j u (by simpa [same] using creator)
      by_cases mine : u = t
      · subst mine
        simpa [same, Program.put] using old.2
      · simpa [same, mine, Program.put] using old

omit [DecidableEq T] in
theorem gave_createEnd {t : T} {th : Thread D V} {k : Nat} {destructor : Option D}
    (owners : Owners s) (here : s.program.thread t = some th)
    (creating : th.creating = some (k, destructor)) :
    Gave (s.keys.gave t) ((Thread.local_data { th with creating := none }).set k
      ⟨destructor, none⟩) := by
  have had := owners.gave t th here
  constructor
  · intro j d later
    simp [Thread.set] at later
  · intro j _
    rw [local_data_set]
    by_cases same : j = k
    · subst same
      simpa [Thread.set] using (had.creating j destructor creating).symm
    · have kept := had.destructor j (by simpa [creating] using Ne.symm same)
      simpa [Thread.set, same, local_data_data] using kept

omit [DecidableEq T] in
theorem gave_set {t : T} {th : Thread D V} {k : Nat} {v : Option V} (owners : Owners s)
    (here : s.program.thread t = some th) (out : th.creating = none) :
    Gave (s.keys.gave t) (th.local_data.set k { th.local_data.data k with value := v }) := by
  have had := owners.gave t th here
  constructor
  · intro j d creating
    exact had.creating j d (by simpa [Thread.set] using creating)
  · intro j _
    rw [local_data_set]
    have kept := had.destructor j (by simp [out])
    by_cases same : j = k
    · subst same
      simpa [Thread.set] using kept
    · simpa [Thread.set, same] using kept

theorem next_owners {e : Action T D V × Returned D V} (owners : Owners s) (taken : s.next e s') :
    Owners s' := by
  obtain ⟨p', keys'⟩ := s'
  obtain ⟨code, keys⟩ := taken
  simp only at code keys
  subst keys
  have others : ∀ (t u : T) thu, u ≠ t → s.program.thread u = some thu →
      Gave (s.keys.gave u) thu := fun _ u thu _ thread => owners.gave u thu thread
  obtain ⟨action, returned⟩ := e
  cases perform_effect code with
  | refused same => exact (same s.keys).symm ▸ owners
  | @started t gone =>
    have absent : ∀ k, s.keys.creator k ≠ some t := by
      intro k creator
      have there := (owners.creator k t creator).1
      rw [gone] at there
      cases there
    constructor
    · refine gave_put ?_ ?_
      · intro u thu other thread
        simpa [Keys.follow, other] using others t u thu other thread
      · rintro _ ⟨⟩
        exact ⟨nofun, fun k _ => by simp [Keys.follow, Thread.new, Thread.local_data, unset]⟩
    · refine creator_put ?_
      intro k u creator
      have other : u ≠ t := fun same => absent k (same ▸ creator)
      simpa [Keys.follow, other] using owners.creator k u creator
  | created here out _ => exact owners_create owners here out
  | createdEnd here creating =>
    have mine := gave_createEnd owners here creating
    refine ⟨gave_put (others _) ?_, creator_put owners.creator⟩
    rintro _ ⟨⟩
    exact mine
  | @deleted t k =>
    refine ⟨owners.gave, fun j u creator => ?_⟩
    by_cases same : j = k
    · simp [Keys.follow, same] at creator
    · have old : s.keys.creator j = some u := by simpa [Keys.follow, same] using creator
      simpa [Keys.follow, same] using owners.creator j u old
  | @set t th k v here out =>
    have mine := gave_set (k := k) (v := v) owners here out
    refine ⟨gave_put (others _) ?_, creator_put owners.creator⟩
    rintro _ ⟨⟩
    exact mine
  | got here out =>
    refine ⟨gave_put (others _) ?_, creator_put owners.creator⟩
    rintro _ ⟨⟩
    have had := owners.gave _ _ here
    constructor
    · intro j d creating
      exact had.creating j d (by simpa using creating)
    · intro j apart
      rw [local_data_local_data]
      exact had.destructor j (by simpa using apart)
  | @exited t th here out =>
    refine ⟨gave_put (others t) nofun, fun k u creator => ?_⟩
    simp only [Keys.follow] at creator
    split at creator
    · cases creator
    next other =>
      have apart : u ≠ t := fun same => other (same ▸ creator)
      simpa [Keys.follow, Program.put, apart] using owners.creator k u creator

omit [DecidableEq T] in
theorem has_createEnd {t : T} {th : Thread D V} {k : Nat} {destructor : Option D}
    (inv : Invariant s) (here : s.program.thread t = some th)
    (creating : th.creating = some (k, destructor)) :
    Has s.keys.created (s.keys.value t) ((Thread.local_data { th with creating := none }).set k
      ⟨destructor, none⟩) := by
  intro j live
  have had := inv.tables t th here j live
  rw [local_data_set]
  by_cases same : j = k
  · subst same
    simpa [Thread.set, creating, eq_comm] using had
  · simpa [Thread.set, creating, same, Ne.symm same, local_data_data] using had

theorem next_delete {t : T} {k : Nat} (inv : Invariant s) :
    Invariant ⟨{ s.program with threadKeys := Function.update s.program.threadKeys k false },
      s.keys.follow (.keyDelete t k) .zero⟩ := by
  have fewer : ∀ j, ((Function.update s.keys.created k none) j).isSome →
      (s.keys.created j).isSome := by
    intro j live
    by_cases same : j = k
    · simp [same] at live
    · simpa [same] using live
  refine ⟨?_, fun j live => inv.below j (fewer j live),
    fun u thu thread j live => inv.tables u thu thread j (fewer j live)⟩
  intro j
  by_cases same : j = k
  · simp [Keys.follow, same]
  · simpa [Keys.follow, same] using inv.live j

theorem next_inv {e : Action T D V × Returned D V} (inv : Invariant s)
    (allowed : Allowed s e) (taken : s.next e s') : Invariant s' := by
  obtain ⟨p', keys'⟩ := s'
  obtain ⟨code, keys⟩ := taken
  simp only at code keys
  subst keys
  have others : ∀ (t u : T) thu, u ≠ t → s.program.thread u = some thu →
      Has s.keys.created (s.keys.value u) thu := fun _ u thu _ thread => inv.tables u thu thread
  obtain ⟨action, returned⟩ := e
  cases perform_effect code with
  | refused same => exact (same s.keys).symm ▸ inv
  | @started t gone =>
    refine ⟨inv.live, inv.below, tables_put ?_ ?_⟩
    · intro u thu other thread
      simpa [Keys.follow, other] using others t u thu other thread
    · rintro _ ⟨⟩ k live
      simp [Keys.follow, Thread.new, Thread.local_data, unset]
  | created here out free => exact next_create inv here out free (allowed _ free)
  | createdEnd here creating =>
    have mine := has_createEnd inv here creating
    refine ⟨inv.live, inv.below, tables_put (others _) ?_⟩
    rintro _ ⟨⟩
    exact mine
  | deleted => exact next_delete inv
  | @set t th k v here out =>
    refine ⟨inv.live, inv.below, tables_put ?_ ?_⟩
    · intro u thu other thread
      simpa [Keys.follow, other] using others t u thu other thread
    · rintro _ ⟨⟩ j live
      have had := (inv.tables t th here).value out live
      rw [local_data_set]
      by_cases same : j = k
      · subst same
        simp [Keys.follow, Thread.set, out]
      · simpa [Keys.follow, Thread.set, out, same] using had
  | got here out =>
    refine ⟨inv.live, inv.below, tables_put (others _) ?_⟩
    rintro _ ⟨⟩ j live
    have had := inv.tables _ _ here j live
    rw [local_data_local_data, local_data_creating]
    exact had
  | exited here out =>
    refine ⟨inv.live, inv.below, tables_put (others _) ?_⟩
    rintro _ ⟨⟩

theorem mem_destruct {th : Thread D V} {k : Nat} {d : D} {v : Option V} :
    (k, d, v) ∈ destruct th ↔ k < PTHREAD_MAX_LOCAL_KEYS ∧
      (th.local_data.data k).destructor = some d ∧ (th.local_data.data k).value = v := by
  simp only [destruct, List.mem_filterMap, List.mem_range, Option.map_eq_some_iff, Prod.mk.injEq]
  constructor
  · rintro ⟨i, small, d', here, rfl, rfl, rfl⟩
    exact ⟨small, here, rfl⟩
  · rintro ⟨small, here, rfl⟩
    exact ⟨k, small, d, here, rfl, rfl, rfl⟩

omit [DecidableEq T] in
theorem mem_due {keys : Keys T D V} {t : T} {k : Nat} {d : D} {v : Option V} :
    (k, d, v) ∈ keys.due t ↔ k < PTHREAD_MAX_LOCAL_KEYS ∧
      keys.dueDestructor t k = some d ∧ keys.value t k = v := by
  simp only [Keys.due, List.mem_filterMap, List.mem_range, Option.map_eq_some_iff, Prod.mk.injEq]
  constructor
  · rintro ⟨i, small, d', here, rfl, rfl, rfl⟩
    exact ⟨small, here, rfl⟩
  · rintro ⟨small, here, rfl⟩
    exact ⟨k, small, d, here, rfl, rfl, rfl⟩

omit [DecidableEq T] in
theorem dueDestructor_live {keys : Keys T D V} {t : T} {k : Nat} {d : D}
    (due : keys.dueDestructor t k = some d) : (keys.created k).isSome := by
  unfold Keys.dueDestructor at due
  split at due
  next live _ => rw [live]; rfl
  next => cases due

omit [DecidableEq T] in
theorem destruct_eq_due {t : T} {th : Thread D V} (inv : Invariant s)
    (here : s.program.thread t = some th) (out : th.creating = none) :
    destruct th = s.keys.due t ↔ ∀ k < PTHREAD_MAX_LOCAL_KEYS,
      (th.local_data.data k).destructor = s.keys.dueDestructor t k := by
  constructor
  · intro same k small
    apply Option.ext
    intro d
    constructor
    · intro had
      have mem := mem_destruct.mpr ⟨small, had, rfl⟩
      rw [same] at mem
      exact (mem_due.mp mem).2.1
    · intro due
      have mem := mem_due.mpr ⟨small, due, rfl⟩
      rw [← same] at mem
      exact (mem_destruct.mp mem).2.1
  · intro all
    refine List.filterMap_congr ?_
    intro k mem
    rw [all k (List.mem_range.mp mem)]
    cases due : s.keys.dueDestructor t k with
    | none => rfl
    | some d => rw [(inv.tables t th here).value out (dueDestructor_live due)]

omit [DecidableEq T] in
theorem destructor_due {t : T} {th : Thread D V} (owners : Owners s)
    (here : s.program.thread t = some th) (out : th.creating = none) (own : OwnKeys s.keys t)
    (k : Nat) : (th.local_data.data k).destructor = s.keys.dueDestructor t k := by
  rw [(owners.gave t th here).destructor k (by simp [out])]
  cases gave : s.keys.gave t k with
  | some d =>
    obtain ⟨creator, value⟩ := own.gave k d gave
    obtain ⟨v, value⟩ := Option.isSome_iff_exists.mp value
    have created := (owners.creator k t creator).2
    simp [Keys.dueDestructor, created, value, gave]
  | none =>
    cases created : s.keys.created k with
    | none => simp [Keys.dueDestructor, created]
    | some destructor =>
      cases value : s.keys.value t k with
      | none => simp [Keys.dueDestructor, created, value]
      | some v =>
        cases destructor with
        | none => simp [Keys.dueDestructor, created, value]
        | some d =>
          have creator := own.created k d created (by rw [value]; rfl)
          have mine := (owners.creator k t creator).2
          rw [created, gave] at mine
          cases mine

theorem next_right {e : Action T D V × Returned D V} (inv : Invariant s) (owners : Owners s)
    (allowed : Allowed s e) (taken : s.next e s') : Right s e.1 e.2 := by
  obtain ⟨action, returned⟩ := e
  have code := taken.1
  simp only at code
  cases action with
  | getspecific t k =>
    intro live
    obtain ⟨th, idle, eq⟩ := Option.map_eq_some_iff.mp code
    obtain ⟨here, out⟩ := idle_eq_some.mp idle
    rw [if_neg (Nat.not_le.mpr (inv.below k live))] at eq
    rw [← (Prod.mk.inj eq).2, (inv.tables t th here).value out live]
  | exit t =>
    obtain ⟨th, idle, eq⟩ := Option.map_eq_some_iff.mp code
    obtain ⟨here, out⟩ := idle_eq_some.mp idle
    have same := (destruct_eq_due inv here out).mpr fun k _ =>
      destructor_due owners here out allowed k
    exact (Prod.mk.inj eq).2.symm.trans (congrArg _ same)
  | start t => trivial
  | keyCreate t destructor => trivial
  | keyCreateEnd t => trivial
  | keyDelete t k => trivial
  | setspecific t k v => trivial

theorem start_inv (main : T) : Invariant (System.start main : System T D V) := by
  constructor
  · intro k
    rfl
  · intro k live
    cases live
  · intro t th _ k live
    cases live

theorem start_owners (main : T) : Owners (System.start main : System T D V) := by
  constructor
  · intro t th here
    have fresh : th = .new := by
      simp only [System.start] at here
      split at here
      · exact (Option.some.inj here).symm
      · cases here
    subst fresh
    exact ⟨nofun, fun k _ => rfl⟩
  · intro k t creator
    cases creator

/-- In every run in which keys are created and threads exit as allowed, each call is right. -/
theorem thread_keys_right {main : T} {es : List (Action T D V × Returned D V)}
    {e : Action T D V × Returned D V} (run : Run (Guarded Allowed System.next) (.start main) es s)
    (allowed : Allowed s e) (taken : s.next e s') : Right s e.1 e.2 := by
  have inv : Invariant s := run_invariant Invariant
    (fun s e s' inv step => next_inv inv step.1 step.2) run (start_inv main)
  have owners : Owners s := run_invariant Owners
    (fun s e s' owners step => next_owners owners step.2) run (start_owners main)
  exact next_right inv owners allowed taken

theorem thread_keys_right_alone : ∃ s s' : System Nat Nat Nat,
    Run (Guarded Allowed System.next) (.start 0)
      [(.keyCreate 0 (some 7), .key 0), (.keyCreateEnd 0, .zero),
        (.setspecific 0 0 (some 5), .zero)] s ∧
    s.next (.exit 0, .destructed [(0, 7, some 5)]) s' ∧
    Right s (.exit 0) (.destructed [(0, 7, some 5)]) := by
  have only : ∀ u th, u ≠ 0 → (System.start 0 : System Nat Nat Nat).program.thread u = some th →
      th.creating.map Prod.fst ≠ some 0 → (th.local_data.data 0).value = none := by
    intro u th other thread
    simp [System.start, other] at thread
  obtain ⟨s, s', run, allowed, taken⟩ : ∃ s s' : System Nat Nat Nat,
      Run (Guarded Allowed System.next) (.start 0)
        [(.keyCreate 0 (some 7), .key 0), (.keyCreateEnd 0, .zero),
          (.setspecific 0 0 (some 5), .zero)] s ∧
      Allowed s (.exit 0, .destructed [(0, 7, some 5)]) ∧
      s.next (.exit 0, .destructed [(0, 7, some 5)]) s' := by
    refine ⟨_, ⟨_, _⟩, .cons (t := ⟨_, _⟩) ⟨?_, rfl, rfl⟩ (.cons (t := ⟨_, _⟩) ⟨trivial, rfl, rfl⟩
      (.cons (t := ⟨_, _⟩) ⟨trivial, rfl, rfl⟩ (.nil _))), ?_, rfl, rfl⟩
    · intro k free
      cases free
      exact only
    · constructor
      · intro k d created _
        by_cases zero : k = 0
        · subst zero
          rfl
        · simp [System.start, zero] at created
      · intro k d gave
        by_cases zero : k = 0
        · subst zero
          exact ⟨rfl, rfl⟩
        · simp [System.start, zero] at gave
  exact ⟨s, s', run, taken, thread_keys_right run allowed taken⟩

/-- A thread sets a value for a key that another has created, and its exit runs nothing. -/
theorem destructor_of_creator_only : ¬ ∀ (es : List (Action Nat Nat Nat × Returned Nat Nat))
    (e : Action Nat Nat Nat × Returned Nat Nat) (s s' : System Nat Nat Nat),
    Run System.next (.start 0) es s → s.next e s' → Right s e.1 e.2 := by
  intro always
  obtain ⟨s, s', run, taken, missed⟩ : ∃ s s' : System Nat Nat Nat,
      Run System.next (.start 0) [(.start 1, .zero), (.keyCreate 0 (some 7), .key 0),
        (.keyCreateEnd 0, .zero), (.setspecific 1 0 (some 5), .zero)] s ∧
      s.next (.exit 1, .destructed []) s' ∧ s.keys.due 1 = [(0, 7, some 5)] :=
    ⟨_, ⟨_, _⟩, .cons (t := ⟨_, _⟩) ⟨rfl, rfl⟩ (.cons (t := ⟨_, _⟩) ⟨rfl, rfl⟩
      (.cons (t := ⟨_, _⟩) ⟨rfl, rfl⟩ (.cons (t := ⟨_, _⟩) ⟨rfl, rfl⟩ (.nil _)))), ⟨rfl, rfl⟩,
      by decide⟩
  have right : Returned.destructed [] = .destructed (s.keys.due 1) := always _ _ s s' run taken
  rw [missed] at right
  cases right

end ThreadKeys
