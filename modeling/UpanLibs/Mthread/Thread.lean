import Mathlib.Data.Fintype.Sum
import Mathlib.Tactic.DeriveFintype
import UpanLibs.Interleaving

/-!
The life of a `thread`: `start`, `pause` and `stop`, called by any threads, and
`thread_callback`, which runs the body. Each read or write of `_state` and each
acquisition or release of `_t_mutex` is one step. A caller is in one call at a
time, so it never takes the mutex twice. What `exect` and `isprocessalive` answer
and how `run` ends is left open.
-/
namespace Thread
open Interleaving

inductive StateT where
  | not_running
  | running
  | paused
  | stopping
  | stopped
  deriving DecidableEq

/-- The thread that runs the body, or another one. -/
inductive Caller (Tid : Type) where
  | body
  | other (t : Tid)
  deriving DecidableEq, Fintype

/-- Where `thread_callback` is: not begun, in `run`, in the handler that sets the
    error, in the destructor of the termination guard, or over. -/
inductive Body where
  | absent
  | run
  | caught
  | set_error
  | guard
  | terminated
  deriving DecidableEq

/-- `requested` remembers that `stopping` was written. -/
structure Memory (Tid : Type) where
  state : StateT
  t_mutex : Option (Caller Tid)
  body : Body
  requested : Bool

inductive StartLine where
  | lock
  | get
  | setRunning
  | exect
  | setResumed
  | unlock (thrown : Option String)
  deriving DecidableEq

inductive PauseLine where
  | lock
  | get
  | setPaused
  | unlock (thrown : Option String)
  deriving DecidableEq

inductive StopLine where
  | get
  | getAgain
  | setStopping
  | poll
  | isprocessalive
  deriving DecidableEq

inductive Place where
  | outside
  | start (line : StartLine)
  | pause (line : PauseLine)
  | stop (line : StopLine)
  deriving DecidableEq

inductive Call where
  | start
  | pause
  | stop

def Call.entry : Call → Place
  | .start => .start .lock
  | .pause => .pause .lock
  | .stop => .stop .get

variable {Tid : Type}

section Code

variable [DecidableEq Tid]

def Memory.lock (m : Memory Tid) (t : Caller Tid) : Option (Memory Tid) :=
  if m.t_mutex = none then some { m with t_mutex := some t } else none

def Memory.unlock (m : Memory Tid) (t : Caller Tid) : Memory Tid :=
  if m.t_mutex = some t then { m with t_mutex := none } else m

def start (t : Caller Tid) (m : Memory Tid) (answer : Bool) :
    StartLine → Option (Memory Tid × Place)
  | .lock => (m.lock t).map (·, .start .get)
  | .get => match m.state with
    | .not_running => some (m, .start .setRunning)
    | .paused => some (m, .start .setResumed)
    | .running => some (m, .start (.unlock (some "thread is already running")))
    | .stopping => some (m, .start (.unlock (some "thread has stopping - can't run again")))
    | .stopped => some (m, .start (.unlock (some "thread has stopped - can't run again")))
  | .setRunning => some ({ m with state := .running }, .start .exect)
  | .exect => some (if answer then { m with body := .run } else m, .start (.unlock none))
  | .setResumed => some ({ m with state := .running }, .start (.unlock none))
  | .unlock _ => some (m.unlock t, .outside)

def pause (t : Caller Tid) (m : Memory Tid) : PauseLine → Option (Memory Tid × Place)
  | .lock => (m.lock t).map (·, .pause .get)
  | .get => match m.state with
    | .running => some (m, .pause .setPaused)
    | .paused => some (m, .pause (.unlock none))
    | .not_running => some (m, .pause (.unlock (some "thread is not running - can't pause")))
    | .stopped => some (m, .pause (.unlock (some "thread has stopped - can't pause")))
    | .stopping => some (m, .pause (.unlock (some "thread is in unknown state: %d")))
  | .setPaused => some ({ m with state := .paused }, .pause (.unlock none))
  | .unlock _ => some (m.unlock t, .outside)

def stop (m : Memory Tid) (answer : Bool) : StopLine → Option (Memory Tid × Place)
  | .get =>
    if m.state ≠ .not_running then some (m, .stop .getAgain) else some (m, .outside)
  | .getAgain =>
    if m.state ≠ .stopped then some (m, .stop .setStopping) else some (m, .outside)
  | .setStopping => some ({ m with state := .stopping, requested := true }, .stop .poll)
  | .poll =>
    if m.state ≠ .stopped then some (m, .stop .isprocessalive) else some (m, .outside)
  | .isprocessalive => if answer then some (m, .stop .poll) else some (m, .outside)

/-- The body between the calls it makes itself; `answer` is whether `run` throws. -/
def thread_callback (m : Memory Tid) (answer : Bool) : Option (Memory Tid) :=
  match m.body with
  | .absent | .terminated => none
  | .run => some { m with body := if answer then .caught else .guard }
  | .caught => (m.lock .body).map fun m => { m with body := .set_error }
  | .set_error => some { m.unlock .body with body := .guard }
  | .guard => some { m with state := .stopped, body := .terminated }

inductive Input where
  | call (call : Call)
  | access (answer : Bool)

def act (t : Caller Tid) (m : Memory Tid) (place : Place) : Input → Option (Memory Tid × Place)
  | .call call =>
    -- the body calls only while it is in `run`
    if place = .outside ∧ (t = .body → m.body = .run) then some (m, call.entry) else none
  | .access answer => match place with
    | .outside => if t = .body then (thread_callback m answer).map (·, .outside) else none
    | .start line => start t m answer line
    | .pause line => pause t m line
    | .stop line => stop m answer line

end Code

abbrev State (Tid : Type) := Config (Caller Tid) (Memory Tid) Place

def initial : State Tid := ⟨⟨.not_running, none, .absent, false⟩, fun _ => .outside⟩

/-- The state is not `running` or `paused` after the body has terminated, nor once
    `stopping` was recorded. -/
structure Lifecycle (m : Memory Tid) : Prop where
  terminated : m.body = .terminated → m.state ≠ .running ∧ m.state ≠ .paused
  requested : m.requested = true → m.body ≠ .terminated → m.state ≠ .running ∧ m.state ≠ .paused

/-- The next access writes `stopping` in `stop` or `stopped` in the termination guard. -/
def Ends (t : Caller Tid) (m : Memory Tid) (place : Place) : Prop :=
  place = .stop .setStopping ∨ t = .body ∧ place = .outside ∧ m.body = .guard

instance [DecidableEq Tid] (t : Caller Tid) (m : Memory Tid) (place : Place) :
    Decidable (Ends t m place) :=
  inferInstanceAs (Decidable (_ ∨ _))

/-- A `start` or a `pause` between its read of the state and the write that follows. -/
def Checked : Place → Bool
  | .start .setRunning | .start .setResumed | .pause .setPaused => true
  | _ => false

/-- No `stopping` and no `stopped` is written between a check and its write. -/
def Undisturbed (s : State Tid) (e : Caller Tid × Input) : Prop :=
  Ends e.1 s.memory (s.place e.1) → ∀ t, Checked (s.place t) = false

instance [DecidableEq Tid] [Fintype Tid] (s : State Tid) (e : Caller Tid × Input) : Decidable (Undisturbed s e) :=
  inferInstanceAs (Decidable (_ → _))

structure Common (m : Memory Tid) : Prop extends Lifecycle m where
  begun : m.state = .not_running → m.body = .absent ∧ m.requested = false

/-- What a thread knows at each place: the mutex is its own, and a checked state is
    still there. -/
def Own (t : Caller Tid) (m : Memory Tid) : Place → Prop
  | .outside | .start .lock | .pause .lock | .stop .get | .stop .poll | .stop .isprocessalive =>
    True
  | .start .get | .start (.unlock _) | .pause .get | .pause (.unlock _) => m.t_mutex = some t
  | .start .setRunning => m.t_mutex = some t ∧ m.state = .not_running
  | .start .exect => m.t_mutex = some t ∧ m.body = .absent ∧ m.state ≠ .not_running
  | .start .setResumed => m.t_mutex = some t ∧ m.state = .paused
  | .pause .setPaused => m.t_mutex = some t ∧ m.state = .running
  | .stop .getAgain | .stop .setStopping => m.state ≠ .not_running

/-- What an access of `t` leaves for the thread that has the mutex. -/
structure Rest (t : Caller Tid) (m after : Memory Tid) (ends : Prop) : Prop where
  mutex : ∀ u, u ≠ t → m.t_mutex = some u → after.t_mutex = some u
  state : ∀ u, u ≠ t → m.t_mutex = some u → after.state = m.state ∨ ends
  body : ∀ u, u ≠ t → m.t_mutex = some u → m.body = .absent → after.body = .absent
  begun : m.state ≠ .not_running → after.state ≠ .not_running

theorem own_stable {t u : Caller Tid} {m after : Memory Tid} {ends : Prop} {place : Place}
    (rest : Rest t m after ends) (other : u ≠ t) (own : Own u m place)
    (undisturbed : ends → Checked place = false) : Own u after place := by
  cases place with
  | outside => trivial
  | start line =>
    cases line with
    | lock => trivial
    | get | unlock => exact rest.mutex u other own
    | setRunning | setResumed =>
      obtain ⟨mutex, state⟩ := own
      refine ⟨rest.mutex u other mutex, ?_⟩
      obtain same | ends := rest.state u other mutex
      · exact same.trans state
      · cases undisturbed ends
    | exect =>
      obtain ⟨mutex, body, begun⟩ := own
      exact ⟨rest.mutex u other mutex, rest.body u other mutex body, rest.begun begun⟩
  | pause line =>
    cases line with
    | lock => trivial
    | get | unlock => exact rest.mutex u other own
    | setPaused =>
      obtain ⟨mutex, state⟩ := own
      refine ⟨rest.mutex u other mutex, ?_⟩
      obtain same | ends := rest.state u other mutex
      · exact same.trans state
      · cases undisturbed ends
  | stop line =>
    cases line with
    | get | poll | isprocessalive => trivial
    | getAgain | setStopping => exact rest.begun own

section Accesses

variable {t : Caller Tid} {m after : Memory Tid} {dest : Place} {answer : Bool} {ends : Prop}

theorem rest_refl : Rest t m m ends := by
  constructor
  · intro u _ mutex
    exact mutex
  · intro u _ _
    exact .inl rfl
  · intro u _ _ body
    exact body
  · exact id

theorem rest_of_nobody (nobody : ∀ u, u ≠ t → m.t_mutex ≠ some u)
    (begun : m.state ≠ .not_running → after.state ≠ .not_running) : Rest t m after ends := by
  constructor
  · intro u other taken
    exact absurd taken (nobody u other)
  · intro u other taken
    exact absurd taken (nobody u other)
  · intro u other taken
    exact absurd taken (nobody u other)
  · exact begun

theorem rest_of_mutex (mutex : m.t_mutex = some t)
    (begun : m.state ≠ .not_running → after.state ≠ .not_running) : Rest t m after ends := by
  refine rest_of_nobody ?_ begun
  intro u other taken
  exact other (Option.some.inj (taken.symm.trans mutex))

theorem rest_of_ends (yes : ends) (mutex : after.t_mutex = m.t_mutex)
    (body : m.body = .absent → after.body = .absent) (begun : after.state ≠ .not_running) :
    Rest t m after ends := by
  constructor
  · intro u _ taken
    exact mutex.trans taken
  · intro u _ _
    exact .inr yes
  · intro u _ _ absent
    exact body absent
  · intro _
    exact begun

theorem rest_of_body (mutex : after.t_mutex = m.t_mutex) (state : after.state = m.state)
    (body : m.body ≠ .absent) : Rest t m after ends := by
  constructor
  · intro u _ taken
    exact mutex.trans taken
  · intro u _ _
    exact .inl state
  · intro u _ _ absent
    exact absurd absent body
  · intro begun
    rw [state]
    exact begun

theorem common_of_same (common : Common m) (state : after.state = m.state)
    (requested : after.requested = m.requested)
    (over_ : after.body = .terminated ↔ m.body = .terminated)
    (absent : m.state = .not_running → after.body = m.body) : Common after := by
  constructor
  · constructor
    · rw [over_, state]
      exact common.terminated
    · rw [requested, state, ne_eq, over_]
      exact common.requested
  · intro fresh
    rw [state] at fresh
    rw [absent fresh, requested]
    exact common.begun fresh

theorem common_mutex (common : Common m) (mutex : Option (Caller Tid)) :
    Common { m with t_mutex := mutex } :=
  common_of_same common rfl rfl Iff.rfl fun _ => rfl

theorem untouched (common : Common m)
    (state : m.state = .not_running ∨ m.state = .running ∨ m.state = .paused) :
    m.body ≠ .terminated ∧ m.requested = false := by
  obtain fresh | active := state
  · obtain ⟨absent, quiet⟩ := common.begun fresh
    rw [absent]
    exact ⟨Body.noConfusion, quiet⟩
  have alive : m.body ≠ .terminated := by
    intro over_
    have := common.terminated over_
    grind
  refine ⟨alive, ?_⟩
  by_contra asked
  have := common.requested (Bool.eq_true_of_not_eq_false asked) alive
  grind

theorem common_write (common : Common m) (state : StateT)
    (checked : m.state = .not_running ∨ m.state = .running ∨ m.state = .paused)
    (begun : state ≠ .not_running) : Common { m with state := state } := by
  obtain ⟨alive, quiet⟩ := untouched common checked
  constructor
  · constructor
    · intro over_
      exact absurd over_ alive
    · intro asked
      exact absurd (asked.symm.trans quiet) Bool.noConfusion
  · intro fresh
    exact absurd fresh begun

theorem lock_eq_some_iff : m.lock t = some after ↔
    m.t_mutex = none ∧ { m with t_mutex := some t } = after := by
  rw [Memory.lock, Option.ite_none_right_eq_some, Option.some.injEq]

theorem lock_kept (common : Common m) (run : m.lock t = some after) :
    Common after ∧ after.t_mutex = some t ∧ Rest t m after ends := by
  obtain ⟨free, rfl⟩ := lock_eq_some_iff.mp run
  refine ⟨common_mutex common _, rfl, rest_of_nobody ?_ id⟩
  intro u _ taken
  cases free.symm.trans taken

theorem stop_kept {line : StopLine} (common : Common m) (own : Own t m (.stop line))
    (run : stop m answer line = some (after, dest)) :
    Common after ∧ Own t after dest ∧ Rest t m after (Ends t m (.stop line)) := by
  cases line with
  | get =>
    simp only [stop] at run
    split at run
    next begun =>
      cases run
      exact ⟨common, begun, rest_refl⟩
    next =>
      cases run
      exact ⟨common, trivial, rest_refl⟩
  | getAgain =>
    simp only [stop] at run
    split at run
    · cases run
      exact ⟨common, own, rest_refl⟩
    · cases run
      exact ⟨common, trivial, rest_refl⟩
  | setStopping =>
    cases run
    refine ⟨⟨⟨?_, ?_⟩, ?_⟩, trivial, rest_of_ends (.inl rfl) rfl id StateT.noConfusion⟩
    · intro _
      exact ⟨StateT.noConfusion, StateT.noConfusion⟩
    · intro _ _
      exact ⟨StateT.noConfusion, StateT.noConfusion⟩
    · intro fresh
      cases fresh
  | poll =>
    simp only [stop] at run
    split at run
    · cases run
      exact ⟨common, trivial, rest_refl⟩
    · cases run
      exact ⟨common, trivial, rest_refl⟩
  | isprocessalive =>
    simp only [stop] at run
    split at run
    · cases run
      exact ⟨common, trivial, rest_refl⟩
    · cases run
      exact ⟨common, trivial, rest_refl⟩

end Accesses

section Steps

variable [DecidableEq Tid] {t : Caller Tid} {m after : Memory Tid} {dest : Place}
  {answer : Bool} {ends : Prop}

theorem unlock_of_mutex (mutex : m.t_mutex = some t) : m.unlock t = { m with t_mutex := none } :=
  if_pos mutex

theorem unlock_kept (common : Common m) (mutex : m.t_mutex = some t) :
    Common (m.unlock t) ∧ Rest t m (m.unlock t) ends := by
  rw [unlock_of_mutex mutex]
  exact ⟨common_mutex common _, rest_of_mutex mutex id⟩

theorem start_kept {line : StartLine} (common : Common m) (own : Own t m (.start line))
    (run : start t m answer line = some (after, dest)) :
    Common after ∧ Own t after dest ∧ Rest t m after ends := by
  cases line with
  | lock =>
    obtain ⟨_, lock, same⟩ := Option.map_eq_some_iff.mp run
    cases same
    exact lock_kept common lock
  | get =>
    simp only [start] at run
    split at run
    next fresh =>
      cases run
      exact ⟨common, ⟨own, fresh⟩, rest_refl⟩
    next paused =>
      cases run
      exact ⟨common, ⟨own, paused⟩, rest_refl⟩
    all_goals
      cases run
      exact ⟨common, own, rest_refl⟩
  | setRunning =>
    obtain ⟨mutex, fresh⟩ := own
    cases run
    have begun : StateT.running ≠ .not_running := StateT.noConfusion
    refine ⟨common_write common _ (.inl fresh) begun, ⟨mutex, (common.begun fresh).1, begun⟩, ?_⟩
    exact rest_of_mutex mutex fun _ => begun
  | exect =>
    obtain ⟨mutex, absent, begun⟩ := own
    cases run
    split
    · refine ⟨common_of_same common rfl rfl ?_ ?_, mutex, rest_of_mutex mutex id⟩
      · simp [absent]
      · intro fresh
        exact absurd fresh begun
    · exact ⟨common, mutex, rest_refl⟩
  | setResumed =>
    obtain ⟨mutex, paused⟩ := own
    cases run
    have begun : StateT.running ≠ .not_running := StateT.noConfusion
    refine ⟨common_write common _ (.inr (.inr paused)) begun, mutex, ?_⟩
    exact rest_of_mutex mutex fun _ => begun
  | unlock =>
    cases run
    obtain ⟨common, rest⟩ := unlock_kept common own
    exact ⟨common, trivial, rest⟩

theorem pause_kept {line : PauseLine} (common : Common m) (own : Own t m (.pause line))
    (run : pause t m line = some (after, dest)) :
    Common after ∧ Own t after dest ∧ Rest t m after ends := by
  cases line with
  | lock =>
    obtain ⟨_, lock, same⟩ := Option.map_eq_some_iff.mp run
    cases same
    exact lock_kept common lock
  | get =>
    simp only [pause] at run
    split at run
    next running =>
      cases run
      exact ⟨common, ⟨own, running⟩, rest_refl⟩
    all_goals
      cases run
      exact ⟨common, own, rest_refl⟩
  | setPaused =>
    obtain ⟨mutex, running⟩ := own
    cases run
    have begun : StateT.paused ≠ .not_running := StateT.noConfusion
    refine ⟨common_write common _ (.inr (.inl running)) begun, mutex, ?_⟩
    exact rest_of_mutex mutex fun _ => begun
  | unlock =>
    cases run
    obtain ⟨common, rest⟩ := unlock_kept common own
    exact ⟨common, trivial, rest⟩

theorem body_kept (common : Common m) (run : thread_callback m answer = some after) :
    Common after ∧ Rest .body m after (Ends .body m .outside) := by
  have begun : m.state = .not_running → m.body = .absent := fun fresh => (common.begun fresh).1
  unfold thread_callback at run
  split at run
  next => cases run
  next => cases run
  next body =>
    cases run
    refine ⟨common_of_same common rfl rfl ?_ ?_, rest_of_body rfl rfl ?_⟩
    · rw [body]
      cases answer <;> simp
    · intro fresh
      cases body.symm.trans (begun fresh)
    · rw [body]
      exact Body.noConfusion
  next body =>
    obtain ⟨locked, lock, rfl⟩ := Option.map_eq_some_iff.mp run
    obtain ⟨free, rfl⟩ := lock_eq_some_iff.mp lock
    refine ⟨common_of_same common rfl rfl ?_ ?_, rest_of_nobody ?_ id⟩
    · simp [body]
    · intro fresh
      cases body.symm.trans (begun fresh)
    · intro u _ taken
      cases free.symm.trans taken
  next body =>
    cases run
    have same : (m.unlock .body).state = m.state ∧ (m.unlock .body).requested = m.requested := by
      unfold Memory.unlock
      split <;> exact ⟨rfl, rfl⟩
    refine ⟨common_of_same common same.1 same.2 ?_ ?_, ?_⟩
    · simp [body]
    · intro fresh
      cases body.symm.trans (begun fresh)
    · by_cases mutex : m.t_mutex = some .body
      · refine rest_of_mutex mutex ?_
        simp only [same.1]
        exact id
      · have kept : (m.unlock .body).t_mutex = m.t_mutex :=
          congrArg Memory.t_mutex (if_neg mutex : m.unlock .body = m)
        refine rest_of_body kept same.1 ?_
        rw [body]
        exact Body.noConfusion
  next body =>
    cases run
    refine ⟨⟨⟨?_, ?_⟩, ?_⟩, rest_of_ends (.inr ⟨rfl, rfl, body⟩) rfl ?_ StateT.noConfusion⟩
    · intro _
      exact ⟨StateT.noConfusion, StateT.noConfusion⟩
    · intro _ _
      exact ⟨StateT.noConfusion, StateT.noConfusion⟩
    · intro fresh
      cases fresh
    · intro absent
      cases body.symm.trans absent

theorem act_kept {place : Place} {e : Input} (common : Common m) (own : Own t m place)
    (run : act t m place e = some (after, dest)) :
    Common after ∧ Own t after dest ∧ Rest t m after (Ends t m place) := by
  cases e with
  | call call =>
    obtain ⟨_, same⟩ := Option.ite_none_right_eq_some.mp run
    cases same
    refine ⟨common, ?_, rest_refl⟩
    cases call <;> trivial
  | access answer =>
    cases place with
    | outside =>
      obtain ⟨rfl, run⟩ := Option.ite_none_right_eq_some.mp run
      obtain ⟨_, moved, same⟩ := Option.map_eq_some_iff.mp run
      cases same
      obtain ⟨common, rest⟩ := body_kept common moved
      exact ⟨common, trivial, rest⟩
    | start line => exact start_kept common own run
    | pause line => exact pause_kept common own run
    | stop line => exact stop_kept common own run

end Steps

theorem invariant_initial : Invariant Common Own (initial : State Tid) := by
  constructor
  · constructor
    · constructor
      · intro over_
        cases over_
      · intro asked
        cases asked
    · intro _
      exact ⟨rfl, rfl⟩
  · intro t
    trivial

variable [DecidableEq Tid]

/-- Where no stop and no termination falls between a check and its write, the state
    never goes back to `running` or `paused`. -/
theorem lifecycle_kept {es : List (Caller Tid × Input)} {s : State Tid}
    (run : Transition.Run (Transition.Guarded Undisturbed (Transition.Steps (step act)))
      initial es s) : Lifecycle s.memory := by
  have inv : Invariant Common Own s := by
    refine run_guarded_invariant ?_ run invariant_initial
    intro s t e after dest inv undisturbed taken
    obtain ⟨common, own, rest⟩ := act_kept inv.memory (inv.places t) taken
    refine ⟨common, own, ?_⟩
    intro u other theirs
    exact own_stable rest other theirs fun ends => undisturbed ends u
  exact inv.memory.toLifecycle

def calls (t : Caller Unit) (call : Call) (accesses : Nat) : List (Caller Unit × Input) :=
  (t, .call call) :: List.replicate accesses (t, .access true)

def stoppedAfterPause : List (Caller Unit × Input) :=
  calls (.other ()) .start 5 ++ calls .body .pause 4 ++ calls (.other ()) .start 4 ++
    calls (.other ()) .stop 4 ++ List.replicate 4 (.body, .access true)

theorem lifecycle_kept_stopped : ∃ s : State Unit,
    s.memory.body = .terminated ∧ s.memory.requested = true ∧ Lifecycle s.memory := by
  have ends : (Transition.runAll (Transition.guarded Undisturbed (step act)) initial
      stoppedAfterPause).any
        (fun s => s.memory.body = .terminated ∧ s.memory.requested = true) = true := by decide
  obtain ⟨s, run, seen⟩ := (Option.any_eq_true _ _).mp ends
  have seen := of_decide_eq_true seen
  exact ⟨s, seen.1, seen.2, lifecycle_kept (Transition.run_guarded_iff.mpr run)⟩

/-- `pause` reads `running`, then the body terminates, then `pause` writes `paused`; and
    a stop that comes between the read and the write of `start` is overwritten. -/
theorem check_then_set_races :
    (∃ es : List (Caller Unit × Input), ∃ s : State Unit,
      Transition.Run (Transition.Steps (step act)) initial es s ∧
        s.memory.body = .terminated ∧ s.memory.state = .paused) ∧
    ∃ es : List (Caller Unit × Input), ∃ s : State Unit,
      Transition.Run (Transition.Steps (step act)) initial es s ∧
        s.memory.requested = true ∧ s.memory.body = .run ∧ s.memory.state = .running := by
  let started := calls (.other ()) .start 5
  let terminates : List (Caller Unit × Input) := [(.body, .access false), (.body, .access false)]
  have terminated : (Transition.runAll (step act) initial
      (started ++ calls (.other ()) .pause 2 ++ terminates ++ [(.other (), .access true)])).any
        (fun s : State Unit => s.memory.body = .terminated ∧ s.memory.state = .paused) = true := by
    decide
  have stopped : (Transition.runAll (step act) initial
      (started ++ calls (.other ()) .pause 4 ++ calls (.other ()) .start 2 ++
        calls .body .stop 3 ++ [(.other (), .access true)])).any
        (fun s : State Unit => s.memory.requested = true ∧ s.memory.body = .run ∧
          s.memory.state = .running) = true := by
    decide
  obtain ⟨s, here, seen⟩ := (Option.any_eq_true _ _).mp terminated
  obtain ⟨s', here', seen'⟩ := (Option.any_eq_true _ _).mp stopped
  exact ⟨⟨_, s, Transition.run_iff_runAll.mpr here, of_decide_eq_true seen⟩,
    ⟨_, s', Transition.run_iff_runAll.mpr here', of_decide_eq_true seen'⟩⟩

end Thread
