import UpanLibs.Interleaving

/-!
`pthread_mutex_lock`, `pthread_mutex_trylock` and `pthread_mutex_unlock`, one
access to `_lock` or `_lock_count` at a time. The lock word and the count are
separate variables, and any owner may run between two accesses of another. The
last access of a call is the one after which it returns. `FREE_MUTEX` is any
number, `waitonlock` returns once it has changed the word from `FREE_MUTEX` to
the caller's id, and the count is an unbounded integer.
-/
namespace PthreadMutex
open Interleaving

/-- What `getlockownerid` returns; `FREE_MUTEX` is nobody's id. -/
@[ext] structure Owner (FREE_MUTEX : Int) where
  id : Int
  valid : id ≠ FREE_MUTEX
  deriving DecidableEq

structure Mutex where
  lock : Int
  lockCount : Int
  deriving DecidableEq

inductive Call where
  | lock
  | trylock
  | unlock
  deriving DecidableEq

inductive Returned where
  | zero
  | one
  | EBUSY
  deriving DecidableEq

inductive LockLine where
  | compareSwap
  | countOne
  | countRead
  | countWrite (count : Int)
  | spin
  | waitonlock
  deriving DecidableEq

inductive TrylockLine where
  | compareSwap
  | countOne
  | countRead
  | countWrite (count : Int)
  deriving DecidableEq

inductive UnlockLine where
  | owner
  | positive
  | countRead
  | countWrite (count : Int)
  | zero
  | free
  deriving DecidableEq

inductive Place where
  | outside
  | lock (line : LockLine)
  | trylock (line : TrylockLine)
  | unlock (line : UnlockLine)
  deriving DecidableEq

inductive Next where
  | goto (place : Place)
  | ret (r : Returned)

section Code

variable (FREE_MUTEX : Int) (me : Int) (mtx : Mutex)

/-- `atomic_compare_swap(&mtx->_lock, FREE_MUTEX, newVal)`; it returns the old word. -/
def Mutex.compareSwap (newVal : Int) : Mutex :=
  if mtx.lock = FREE_MUTEX then { mtx with lock := newVal } else mtx

def pthread_mutex_lock : LockLine → Option (Mutex × Next)
  | .compareSwap =>
    let oldVal := mtx.lock
    let mtx := mtx.compareSwap FREE_MUTEX me
    if oldVal = FREE_MUTEX then some (mtx, .goto (.lock .countOne))
    else if oldVal = me then some (mtx, .goto (.lock .countRead))
    -- an owner below zero is a processor, which cannot yield
    else if me < 0 then some (mtx, .goto (.lock .spin))
    else some (mtx, .goto (.lock .waitonlock))
  | .countOne => some ({ mtx with lockCount := 1 }, .ret .zero)
  | .countRead => some (mtx, .goto (.lock (.countWrite mtx.lockCount)))
  | .countWrite count => some ({ mtx with lockCount := count + 1 }, .ret .zero)
  | .spin =>
    if mtx.lock ≠ FREE_MUTEX then some (mtx, .goto (.lock .spin))
    else some (mtx, .goto (.lock .compareSwap))
  | .waitonlock =>
    if mtx.lock = FREE_MUTEX then some ({ mtx with lock := me }, .goto (.lock .countOne))
    else none

def pthread_mutex_trylock : TrylockLine → Option (Mutex × Next)
  | .compareSwap =>
    let oldVal := mtx.lock
    let mtx := mtx.compareSwap FREE_MUTEX me
    if oldVal = FREE_MUTEX then some (mtx, .goto (.trylock .countOne))
    else if oldVal = me then some (mtx, .goto (.trylock .countRead))
    else some (mtx, .ret .EBUSY)
  | .countOne => some ({ mtx with lockCount := 1 }, .ret .zero)
  | .countRead => some (mtx, .goto (.trylock (.countWrite mtx.lockCount)))
  | .countWrite count => some ({ mtx with lockCount := count + 1 }, .ret .zero)

def pthread_mutex_unlock : UnlockLine → Option (Mutex × Next)
  | .owner =>
    if mtx.lock ≠ me then some (mtx, .ret .one) else some (mtx, .goto (.unlock .positive))
  | .positive =>
    if 0 < mtx.lockCount then some (mtx, .goto (.unlock .countRead))
    else some (mtx, .goto (.unlock .zero))
  | .countRead => some (mtx, .goto (.unlock (.countWrite mtx.lockCount)))
  | .countWrite count => some ({ mtx with lockCount := count - 1 }, .goto (.unlock .zero))
  | .zero =>
    if mtx.lockCount = 0 then some (mtx, .goto (.unlock .free)) else some (mtx, .ret .zero)
  | .free => some ({ mtx with lock := FREE_MUTEX }, .ret .zero)

end Code

def Call.entry : Call → Place
  | .lock => .lock .compareSwap
  | .trylock => .trylock .compareSwap
  | .unlock => .unlock .owner

/-- The access of the owner `me` at a place, and the call it belongs to. -/
def access (FREE_MUTEX me : Int) (mtx : Mutex) : Place → Option (Call × Mutex × Next)
  | .outside => none
  | .lock line => (pthread_mutex_lock FREE_MUTEX me mtx line).map (Prod.mk .lock)
  | .trylock line => (pthread_mutex_trylock FREE_MUTEX me mtx line).map (Prod.mk .trylock)
  | .unlock line => (pthread_mutex_unlock FREE_MUTEX me mtx line).map (Prod.mk .unlock)

structure Memory (FREE_MUTEX : Int) where
  mtx : Mutex
  log : List (Owner FREE_MUTEX × Call × Returned)

abbrev State (FREE_MUTEX : Int) := Config (Owner FREE_MUTEX) (Memory FREE_MUTEX) Place

variable {FREE_MUTEX : Int}

/-- After `pthread_mutex_init`. -/
def initial : State FREE_MUTEX := ⟨⟨⟨FREE_MUTEX, 0⟩, []⟩, fun _ => .outside⟩

def Next.place : Next → Place
  | .goto place => place
  | .ret _ => .outside

def Memory.follow (m : Memory FREE_MUTEX) (p : Owner FREE_MUTEX) (call : Call) :
    Next → Memory FREE_MUTEX
  | .goto _ => m
  | .ret r => { m with log := m.log ++ [(p, call, r)] }

inductive Input where
  | call (call : Call)
  | access

/-- An owner that is in no call begins one; an owner in a call makes its next access. -/
def act (p : Owner FREE_MUTEX) (m : Memory FREE_MUTEX) (place : Place) :
    Input → Option (Memory FREE_MUTEX × Place)
  | .call call => if place = .outside then some (m, call.entry) else none
  | .access => (access FREE_MUTEX p.id m.mtx place).map fun (call, mtx, next) =>
      ({ m with mtx := mtx }.follow p call next, next.place)

/-- The successful `lock` and `trylock` calls of an owner, less its unlocks. -/
def Memory.balance (m : Memory FREE_MUTEX) (p : Owner FREE_MUTEX) : Int :=
  m.log.count (p, .lock, .zero) + m.log.count (p, .trylock, .zero)
    - m.log.count (p, .unlock, .zero)

def Next.gain (call : Call) : Next → Int
  | .ret .zero => match call with
    | .lock | .trylock => 1
    | .unlock => -1
  | .ret .one | .ret .EBUSY | .goto _ => 0

/-- What the owner `me` with balance `b` knows of the mutex at each place. -/
def Fits (me : Int) (mtx : Mutex) (b : Int) : Place → Prop
  | .outside | .lock .compareSwap | .lock .spin | .lock .waitonlock | .trylock .compareSwap
  | .unlock .owner => if mtx.lock = me then mtx.lockCount = b ∧ 0 < b else b = 0
  | .lock .countOne | .trylock .countOne => mtx.lock = me ∧ b = 0
  | .lock .countRead | .trylock .countRead | .unlock .positive | .unlock .countRead =>
    mtx.lock = me ∧ mtx.lockCount = b ∧ 0 < b
  | .lock (.countWrite count) | .trylock (.countWrite count) | .unlock (.countWrite count) =>
    mtx.lock = me ∧ mtx.lockCount = b ∧ count = b ∧ 0 < b
  | .unlock .zero => mtx.lock = me ∧ mtx.lockCount = b - 1 ∧ 0 < b
  | .unlock .free => mtx.lock = me ∧ mtx.lockCount = 0 ∧ b = 1

def Mutex.Cleared (FREE_MUTEX : Int) (mtx : Mutex) : Prop :=
  mtx.lock = FREE_MUTEX → mtx.lockCount = 0

/-- What one access of `me` does: it touches only a free mutex or its own, what it
    knows holds at the next place too, and it frees the word exactly when its
    balance returns to zero. -/
structure Kept (FREE_MUTEX me : Int) (b : Int) (mtx after : Mutex) (call : Call) (next : Next) :
    Prop where
  word : after = mtx ∨
    (mtx.lock = FREE_MUTEX ∨ mtx.lock = me) ∧ (after.lock = FREE_MUTEX ∨ after.lock = me)
  cleared : after.Cleared FREE_MUTEX
  fits : Fits me after (b + next.gain call) next.place
  released : mtx.lock ≠ FREE_MUTEX ∧ after.lock = FREE_MUTEX ↔ b ≠ 0 ∧ b + next.gain call = 0

section Access

variable {me : Int} {b : Int} {mtx after : Mutex} {call : Call} {next : Next}
  (valid : me ≠ FREE_MUTEX) (cleared : mtx.Cleared FREE_MUTEX)

theorem kept_unchanged (cleared : mtx.Cleared FREE_MUTEX) (same : next.gain call = 0)
    (fits : Fits me mtx b next.place) : Kept FREE_MUTEX me b mtx mtx call next := by
  constructor
  · exact .inl rfl
  · exact cleared
  · rw [same, Int.add_zero]
    exact fits
  · rw [same, Int.add_zero]
    simp

theorem kept_own (valid : me ≠ FREE_MUTEX) (own : mtx.lock = me) (still : after.lock = me)
    (fits : Fits me after (b + next.gain call) next.place)
    (more : b = 0 ∨ 0 < b + next.gain call) : Kept FREE_MUTEX me b mtx after call next := by
  constructor
  · exact .inr ⟨.inr own, .inr still⟩
  · intro free
    exact absurd (still.symm.trans free) valid
  · exact fits
  · constructor
    · intro ⟨_, free⟩
      exact absurd (still.symm.trans free) valid
    · intro ⟨held, gone⟩
      omega

theorem kept_taken (valid : me ≠ FREE_MUTEX) (free : mtx.lock = FREE_MUTEX)
    (taken : after.lock = me) (none : b = 0) (same : next.gain call = 0)
    (fits : Fits me after b next.place) : Kept FREE_MUTEX me b mtx after call next := by
  constructor
  · exact .inr ⟨.inl free, .inr taken⟩
  · intro again
    exact absurd (taken.symm.trans again) valid
  · rw [same, Int.add_zero]
    exact fits
  · simp [free, none]

theorem nothing_held (other : mtx.lock ≠ me) (fits : Fits me mtx b .outside) : b = 0 := by
  rwa [Fits, if_neg other] at fits

theorem own_held (own : mtx.lock = me) (fits : Fits me mtx b .outside) :
    mtx.lockCount = b ∧ 0 < b := by
  rwa [Fits, if_pos own] at fits

theorem kept_counted (valid : me ≠ FREE_MUTEX) (own : mtx.lock = me) (more : 0 ≤ b)
    (got : next.gain call = 1) (back : next.place = .outside) :
    Kept FREE_MUTEX me b mtx { mtx with lockCount := b + 1 } call next := by
  have fits : Fits me { mtx with lockCount := b + 1 } (b + next.gain call) next.place := by
    rw [got, back, Fits, if_pos own]
    exact ⟨rfl, by omega⟩
  exact kept_own valid own own fits (.inr (by omega))

theorem swap_cases (valid : me ≠ FREE_MUTEX) (fits : Fits me mtx b .outside) :
    mtx.lock = FREE_MUTEX ∧ b = 0 ∧ mtx.compareSwap FREE_MUTEX me = { mtx with lock := me } ∨
    mtx.lock ≠ FREE_MUTEX ∧ mtx.compareSwap FREE_MUTEX me = mtx ∧
      (mtx.lock = me ∧ mtx.lockCount = b ∧ 0 < b ∨ mtx.lock ≠ me ∧ b = 0) := by
  unfold Mutex.compareSwap
  by_cases free : mtx.lock = FREE_MUTEX
  · have other : mtx.lock ≠ me := fun own => valid (own.symm.trans free)
    exact .inl ⟨free, nothing_held other fits, if_pos free⟩
  by_cases own : mtx.lock = me
  · exact .inr ⟨free, if_neg free, .inl ⟨own, own_held own fits⟩⟩
  · exact .inr ⟨free, if_neg free, .inr ⟨own, nothing_held own fits⟩⟩

include valid cleared

theorem lock_kept {line : LockLine} (fits : Fits me mtx b (.lock line))
    (run : pthread_mutex_lock FREE_MUTEX me mtx line = some (after, next)) :
    Kept FREE_MUTEX me b mtx after .lock next := by
  cases line with
  | compareSwap =>
    simp only [pthread_mutex_lock] at run
    obtain ⟨free, none, swapped⟩ | ⟨taken, same, ⟨own, held⟩ | ⟨other, none⟩⟩ :=
      swap_cases valid fits
    · rw [if_pos free, swapped] at run
      cases run
      exact kept_taken valid free rfl none rfl ⟨rfl, none⟩
    · rw [if_neg taken, if_pos own, same] at run
      cases run
      exact kept_unchanged cleared rfl ⟨own, held⟩
    · rw [if_neg taken, if_neg other, same] at run
      split at run
      · cases run
        exact kept_unchanged cleared rfl fits
      · cases run
        exact kept_unchanged cleared rfl fits
  | countOne =>
    obtain ⟨own, none⟩ := fits
    subst none
    cases run
    exact kept_counted valid own (by omega) rfl rfl
  | countRead =>
    obtain ⟨own, count, held⟩ := fits
    cases run
    exact kept_unchanged cleared rfl ⟨own, count, count, held⟩
  | countWrite =>
    obtain ⟨own, count, read, held⟩ := fits
    subst read
    cases run
    exact kept_counted valid own (by omega) rfl rfl
  | spin =>
    simp only [pthread_mutex_lock] at run
    split at run
    · cases run
      exact kept_unchanged cleared rfl fits
    · cases run
      exact kept_unchanged cleared rfl fits
  | waitonlock =>
    simp only [pthread_mutex_lock] at run
    split at run
    next free =>
      have none := nothing_held (fun own => valid (own.symm.trans free)) fits
      cases run
      exact kept_taken valid free rfl none rfl ⟨rfl, none⟩
    next => cases run

theorem trylock_kept {line : TrylockLine} (fits : Fits me mtx b (.trylock line))
    (run : pthread_mutex_trylock FREE_MUTEX me mtx line = some (after, next)) :
    Kept FREE_MUTEX me b mtx after .trylock next := by
  cases line with
  | compareSwap =>
    simp only [pthread_mutex_trylock] at run
    obtain ⟨free, none, swapped⟩ | ⟨taken, same, ⟨own, held⟩ | ⟨other, none⟩⟩ :=
      swap_cases valid fits
    · rw [if_pos free, swapped] at run
      cases run
      exact kept_taken valid free rfl none rfl ⟨rfl, none⟩
    · rw [if_neg taken, if_pos own, same] at run
      cases run
      exact kept_unchanged cleared rfl ⟨own, held⟩
    · rw [if_neg taken, if_neg other, same] at run
      cases run
      exact kept_unchanged cleared rfl fits
  | countOne =>
    obtain ⟨own, none⟩ := fits
    subst none
    cases run
    exact kept_counted valid own (by omega) rfl rfl
  | countRead =>
    obtain ⟨own, count, held⟩ := fits
    cases run
    exact kept_unchanged cleared rfl ⟨own, count, count, held⟩
  | countWrite =>
    obtain ⟨own, count, read, held⟩ := fits
    subst read
    cases run
    exact kept_counted valid own (by omega) rfl rfl

theorem unlock_kept {line : UnlockLine} (fits : Fits me mtx b (.unlock line))
    (run : pthread_mutex_unlock FREE_MUTEX me mtx line = some (after, next)) :
    Kept FREE_MUTEX me b mtx after .unlock next := by
  cases line with
  | owner =>
    simp only [pthread_mutex_unlock] at run
    split at run
    next other =>
      cases run
      exact kept_unchanged cleared rfl fits
    next own =>
      have own := not_not.mp own
      have held := own_held own fits
      cases run
      exact kept_unchanged cleared rfl ⟨own, held⟩
  | positive =>
    obtain ⟨own, count, held⟩ := fits
    simp only [pthread_mutex_unlock, if_pos (count ▸ held)] at run
    cases run
    exact kept_unchanged cleared rfl ⟨own, count, held⟩
  | countRead =>
    obtain ⟨own, count, held⟩ := fits
    cases run
    exact kept_unchanged cleared rfl ⟨own, count, count, held⟩
  | countWrite =>
    obtain ⟨own, count, read, held⟩ := fits
    cases run
    refine kept_own valid own own ⟨own, ?_, ?_⟩ (.inr ?_)
    · simp only [Next.gain]
      omega
    · simpa [Next.gain] using held
    · simpa [Next.gain] using held
  | zero =>
    obtain ⟨own, count, held⟩ := fits
    simp only [pthread_mutex_unlock] at run
    split at run
    next zero =>
      cases run
      exact kept_unchanged cleared rfl ⟨own, zero, by omega⟩
    next more =>
      cases run
      refine kept_own valid own own ?_ (.inr (by simp only [Next.gain]; omega))
      simp only [Fits, Next.place, Next.gain, own, if_true]
      omega
  | free =>
    obtain ⟨own, count, one⟩ := fits
    cases run
    constructor
    · exact .inr ⟨.inr own, .inl rfl⟩
    · intro
      exact count
    · simp [Fits, Next.place, Next.gain, valid.symm, one]
    · simp [Next.gain, own, valid, one]

theorem access_kept {place : Place} (fits : Fits me mtx b place)
    (run : access FREE_MUTEX me mtx place = some (call, after, next)) :
    Kept FREE_MUTEX me b mtx after call next := by
  cases place with
  | outside => cases run
  | lock line =>
    obtain ⟨_, run, same⟩ := Option.map_eq_some_iff.mp run
    cases same
    exact lock_kept valid cleared fits run
  | trylock line =>
    obtain ⟨_, run, same⟩ := Option.map_eq_some_iff.mp run
    cases same
    exact trylock_kept valid cleared fits run
  | unlock line =>
    obtain ⟨_, run, same⟩ := Option.map_eq_some_iff.mp run
    cases same
    exact unlock_kept valid cleared fits run

end Access

theorem fits_other {me : Int} {mtx after : Mutex} {b : Int} {place : Place}
    (fits : Fits me mtx b place) (before : mtx.lock ≠ me) (now : after.lock ≠ me) :
    Fits me after b place := by
  unfold Fits at fits ⊢
  split at fits <;> simp_all

theorem balance_follow (m : Memory FREE_MUTEX) (p q : Owner FREE_MUTEX) (call : Call)
    (next : Next) :
    (m.follow p call next).balance q = m.balance q + if q = p then next.gain call else 0 := by
  cases next with
  | goto place => simp [Memory.follow, Next.gain]
  | ret r =>
    simp only [Memory.follow, Memory.balance, List.count_append, List.count_singleton,
      beq_iff_eq, Prod.mk.injEq]
    by_cases same : q = p
    · subst same
      cases call <;> cases r <;> simp [Next.gain] <;> omega
    · simp [same, Ne.symm same]

theorem mtx_follow (m : Memory FREE_MUTEX) (p : Owner FREE_MUTEX) (call : Call) (next : Next) :
    (m.follow p call next).mtx = m.mtx := by
  cases next <;> rfl

def Common (m : Memory FREE_MUTEX) : Prop := m.mtx.Cleared FREE_MUTEX

def Own (p : Owner FREE_MUTEX) (m : Memory FREE_MUTEX) (place : Place) : Prop :=
  Fits p.id m.mtx (m.balance p) place

theorem invariant_initial : Invariant Common Own (initial : State FREE_MUTEX) := by
  constructor
  · intro
    rfl
  · intro p
    simp [initial, Own, Memory.balance, Fits, p.valid.symm]

theorem act_cases {p : Owner FREE_MUTEX} {m after : Memory FREE_MUTEX} {place dest : Place}
    {e : Input} (common : Common m) (own : Own p m place)
    (taken : act p m place e = some (after, dest)) :
    (place = .outside ∧ after = m ∧ ∃ call : Call, dest = call.entry) ∨
    ∃ call mtx next, Kept FREE_MUTEX p.id (m.balance p) m.mtx mtx call next ∧
      after = { m with mtx := mtx }.follow p call next ∧ dest = next.place := by
  cases e with
  | call call =>
    obtain ⟨out, same⟩ := Option.ite_none_right_eq_some.mp taken
    cases same
    exact .inl ⟨out, rfl, call, rfl⟩
  | access =>
    obtain ⟨⟨call, mtx, next⟩, run, same⟩ := Option.map_eq_some_iff.mp taken
    cases same
    exact .inr ⟨call, mtx, next, access_kept p.valid common own run, rfl, rfl⟩

theorem others_kept {p q : Owner FREE_MUTEX} {m : Memory FREE_MUTEX} {mtx : Mutex} {call : Call}
    {next : Next} {place : Place} (other : q ≠ p)
    (kept : Kept FREE_MUTEX p.id (m.balance p) m.mtx mtx call next) (own : Own q m place) :
    Own q ({ m with mtx := mtx }.follow p call next) place := by
  unfold Own
  rw [mtx_follow, balance_follow, if_neg other, Int.add_zero]
  obtain unchanged | ⟨before, now⟩ := kept.word
  · rw [unchanged]
    exact own
  have apart : ∀ word, word = FREE_MUTEX ∨ word = p.id → word ≠ q.id := by
    intro word whose mine
    obtain free | theirs := whose
    · exact q.valid (mine.symm.trans free)
    · exact other (Owner.ext (mine.symm.trans theirs))
  exact fits_other own (apart _ before) (apart _ now)

theorem act_kept {p : Owner FREE_MUTEX} {m after : Memory FREE_MUTEX} {place dest : Place}
    {e : Input} (common : Common m) (own : Own p m place)
    (taken : act p m place e = some (after, dest)) :
    Common after ∧ Own p after dest ∧ ∀ q, q ≠ p → ∀ there, Own q m there → Own q after there := by
  obtain ⟨rfl, rfl, call, rfl⟩ | ⟨call, mtx, next, kept, rfl, rfl⟩ := act_cases common own taken
  · refine ⟨common, ?_, fun _ _ _ => id⟩
    cases call <;> exact own
  · refine ⟨?_, ?_, fun q other there => others_kept other kept⟩
    · rw [Common, mtx_follow]
      exact kept.cleared
    · rw [Own, mtx_follow, balance_follow, if_pos rfl]
      exact kept.fits

/-- The mutex as its callers see it, in a state and in the step that follows. -/
structure Recursive (s : State FREE_MUTEX) : Prop where
  one_owner : ∀ p q, 0 < s.memory.balance p → 0 < s.memory.balance q → p = q
  owner : ∀ p, 0 < s.memory.balance p → s.memory.mtx.lock = p.id
  counted : ∀ p, s.place p = .outside → s.memory.mtx.lock = p.id →
    0 < s.memory.balance p ∧ s.memory.mtx.lockCount = s.memory.balance p
  released : ∀ e t, step act s e = some t →
    (s.memory.mtx.lock ≠ FREE_MUTEX ∧ t.memory.mtx.lock = FREE_MUTEX ↔
      ∃ p, s.memory.balance p ≠ 0 ∧ t.memory.balance p = 0)
  trylock_refused : ∀ p line, s.place p = .trylock line →
    s.memory.mtx.lock ≠ FREE_MUTEX → s.memory.mtx.lock ≠ p.id →
      step act s (p, .access) =
        some (s.move p (s.memory.follow p .trylock (.ret .EBUSY)) .outside)
  unlock_refused : ∀ p line, s.place p = .unlock line → s.memory.mtx.lock ≠ p.id →
    step act s (p, .access) = some (s.move p (s.memory.follow p .unlock (.ret .one)) .outside)

theorem owner_of_balance {me : Int} {mtx : Mutex} {b : Int} {place : Place}
    (fits : Fits me mtx b place) (held : 0 < b) : mtx.lock = me := by
  unfold Fits at fits
  split at fits <;> grind

theorem released_iff {s t : State FREE_MUTEX} {e : Owner FREE_MUTEX × Input}
    (inv : Invariant Common Own s) (taken : step act s e = some t) :
    s.memory.mtx.lock ≠ FREE_MUTEX ∧ t.memory.mtx.lock = FREE_MUTEX ↔
      ∃ p, s.memory.balance p ≠ 0 ∧ t.memory.balance p = 0 := by
  obtain ⟨after, dest, acted, rfl⟩ := step_eq_some_iff.mp taken
  simp only [Config.move]
  obtain ⟨_, rfl, _⟩ | ⟨call, mtx, next, kept, rfl, _⟩ :=
    act_cases inv.memory (inv.places e.1) acted
  · constructor
    · intro ⟨held, free⟩
      exact absurd free held
    · intro ⟨q, held, gone⟩
      exact absurd gone held
  · rw [mtx_follow, kept.released]
    constructor
    · intro ⟨held, gone⟩
      refine ⟨e.1, held, ?_⟩
      rw [balance_follow, if_pos rfl]
      exact gone
    · intro ⟨q, held, gone⟩
      rw [balance_follow] at gone
      split at gone
      next same =>
        rw [same] at held gone
        exact ⟨held, gone⟩
      next => exact absurd ((Int.add_zero _).symm.trans gone) held

theorem trylock_refused {p : Owner FREE_MUTEX} {m : Memory FREE_MUTEX} {line : TrylockLine}
    (own : Own p m (.trylock line)) (taken : m.mtx.lock ≠ FREE_MUTEX)
    (other : m.mtx.lock ≠ p.id) :
    act p m (.trylock line) .access = some (m.follow p .trylock (.ret .EBUSY), .outside) := by
  cases line with
  | compareSwap =>
    simp [act, access, pthread_mutex_trylock, Mutex.compareSwap, taken, other, Next.place]
  | countOne | countRead | countWrite => exact absurd own.1 other

theorem unlock_refused {p : Owner FREE_MUTEX} {m : Memory FREE_MUTEX} {line : UnlockLine}
    (own : Own p m (.unlock line)) (other : m.mtx.lock ≠ p.id) :
    act p m (.unlock line) .access = some (m.follow p .unlock (.ret .one), .outside) := by
  cases line with
  | owner => simp [act, access, pthread_mutex_unlock, other, Next.place]
  | positive | countRead | countWrite | zero | free => exact absurd own.1 other

/-- Two owners: 4 takes the mutex twice and gives it back once, 7 is refused, waits and
    gets the mutex when 4 has given it back again. -/
def contended : List (Owner (-999) × Input) :=
  let a : Owner (-999) := ⟨4, by decide⟩
  let b : Owner (-999) := ⟨7, by decide⟩
  let does := fun (p : Owner (-999)) (call : Call) (accesses : Nat) =>
    (p, Input.call call) :: List.replicate accesses (p, .access)
  does a .lock 2 ++ does a .trylock 3 ++ does b .trylock 1 ++ does b .unlock 1 ++
    does b .lock 1 ++ does a .unlock 5 ++ does a .unlock 6 ++ [(b, .access), (b, .access)]

end PthreadMutex
