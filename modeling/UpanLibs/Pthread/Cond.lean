import Mathlib.Data.Fintype.Basic
import UpanLibs.Interleaving

/-!
The numbers of condition variables: `get_cond_id` and `pthread_cond_init`, one atomic access at a
time. The kernel puts threads that wait into a queue by that number and takes them out of it by that
number; the calls to it are recorded.
-/
namespace PthreadCond

open Interleaving
open Transition

universe u v
variable {T : Type u} {C : Type v} [DecidableEq T] [DecidableEq C]

inductive Purpose where
  | waitqueue
  | waitdequeue (all : Bool)
  deriving DecidableEq, Repr

inductive Place (C : Type v) where
  | outside
  /-- `atomic_get(&cond->_id)` -/
  | get (cond : C) (purpose : Purpose)
  /-- `atomic_add(&_global_cv_id_seq._val, 1)` -/
  | add (cond : C) (purpose : Purpose)
  /-- `atomic_compare_swap(&cond->_id, 0, val)` -/
  | swap (cond : C) (purpose : Purpose) (val : Nat)
  /-- The two accesses of `pthread_cond_init`. -/
  | initAdd (cond : C)
  | initSet (cond : C) (val : Nat)
  deriving DecidableEq, Repr

structure Memory (T : Type u) (C : Type v) where
  globalCvIdSeq : Nat
  id : C → Nat
  /-- The calls to the kernel. -/
  kernel : List (T × C × Purpose × Nat)

/-- A thread begins a call, or makes its next access. -/
inductive Input (C : Type v) where
  | init (cond : C)
  | use (cond : C) (purpose : Purpose)
  | access
  deriving DecidableEq, Repr

abbrev State (T : Type u) (C : Type v) := Config T (Memory T C) (Place C)

def Memory.atomicAdd (m : Memory T C) : Nat × Memory T C :=
  (m.globalCvIdSeq, { m with globalCvIdSeq := (m.globalCvIdSeq + 1) % 4294967296 })

def Memory.setId (m : Memory T C) (cond : C) (val : Nat) : Memory T C :=
  { m with id := fun c => if c = cond then val else m.id c }

/-- `get_cond_id` returns, and its caller goes to the kernel. -/
def Memory.call (m : Memory T C) (t : T) (cond : C) (purpose : Purpose) (id : Nat) : Memory T C :=
  { m with kernel := m.kernel ++ [(t, cond, purpose, id)] }

def access (t : T) (m : Memory T C) : Place C → Input C → Option (Memory T C × Place C)
  | .outside, .init cond => some (m, .initAdd cond)
  | .outside, .use cond purpose => some (m, .get cond purpose)
  | .outside, .access => none
  | .get cond purpose, .access =>
      if m.id cond = 0 then some (m, .add cond purpose)
      else some (m.call t cond purpose (m.id cond), .outside)
  | .add cond purpose, .access => some (m.atomicAdd.2, .swap cond purpose m.atomicAdd.1)
  | .swap cond purpose val, .access =>
      let prev := m.id cond
      let m := if prev = 0 then m.setId cond val else m
      some (m.call t cond purpose (if prev = 0 then val else prev), .outside)
  | .initAdd cond, .access => some (m.atomicAdd.2, .initSet cond m.atomicAdd.1)
  | .initSet cond val, .access => some (m.setId cond val, .outside)
  | _, .init _ | _, .use _ _ => none

/-- The sequence begins at one, and conditions at zero. -/
def initial : State T C := ⟨⟨1, fun _ => 0, []⟩, fun _ => .outside⟩

def Place.cond : Place C → Option C
  | .outside => none
  | .get cond _ | .add cond _ | .swap cond _ _ | .initAdd cond | .initSet cond _ => some cond

/-- The value of the sequence that the thread has taken and not yet given to a condition. -/
def Place.taken : Place C → Option Nat
  | .swap _ _ val | .initSet _ val => some val
  | .outside | .get _ _ | .add _ _ | .initAdd _ => none

def Place.initializes (cond : C) : Place C → Prop
  | .initAdd c | .initSet c _ => c = cond
  | .outside | .get _ _ | .add _ _ | .swap _ _ _ => False

/-- A condition is initialized before anything else is done with it, and only once; the sequence has
    not come round to zero. -/
def Allowed (s : State T C) (e : T × Input C) : Prop :=
  match e.2, s.place e.1 with
  | .init cond, _ => s.memory.id cond = 0 ∧ ∀ u, (s.place u).cond ≠ some cond
  | .use cond _, _ => ∀ u, ¬ (s.place u).initializes cond
  | .access, .add _ _ | .access, .initAdd _ => s.memory.globalCvIdSeq ≠ 0
  | .access, _ => True

instance (cond : C) : DecidablePred (Place.initializes cond)
  | .initAdd c | .initSet c _ => inferInstanceAs (Decidable (c = cond))
  | .outside | .get _ _ | .add _ _ | .swap _ _ _ => .isFalse id

instance [Fintype T] (s : State T C) (e : T × Input C) : Decidable (Allowed s e) := by
  unfold Allowed
  split <;> infer_instance

def Memory.limit (m : Memory T C) : Nat :=
  if m.globalCvIdSeq = 0 then 4294967296 else m.globalCvIdSeq

/-- No two conditions have one number, and the kernel has seen no other numbers. -/
structure Numbered (m : Memory T C) : Prop where
  bound : m.globalCvIdSeq < 4294967296
  below : ∀ c, m.id c < m.limit
  apart : ∀ c d, m.id c = m.id d → m.id c ≠ 0 → c = d
  kernel : ∀ t c purpose i, (t, c, purpose, i) ∈ m.kernel → i = m.id c ∧ i ≠ 0

structure Unused (m : Memory T C) (v : Nat) : Prop where
  positive : v ≠ 0
  below : v < m.limit
  apart : ∀ c, m.id c ≠ v

structure Inv (s : State T C) : Prop where
  numbered : Numbered s.memory
  taken : ∀ t v, (s.place t).taken = some v → Unused s.memory v
  own : ∀ t u v, (s.place t).taken = some v → (s.place u).taken = some v → t = u
  alone : ∀ t c, (s.place t).initializes c →
    s.memory.id c = 0 ∧ ∀ u, u ≠ t → (s.place u).cond ≠ some c

variable {s : State T C} {t : T} {m : Memory T C} {place : Place C}

omit [DecidableEq C] in
theorem Inv.move (inv : Inv s) (numbered : Numbered m)
    (mine : ∀ v, place.taken = some v → Unused m v ∧ ∀ u, u ≠ t → (s.place u).taken ≠ some v)
    (taken : ∀ u v, u ≠ t → (s.place u).taken = some v → Unused m v)
    (alone : ∀ c, place.initializes c → m.id c = 0 ∧ ∀ u, u ≠ t → (s.place u).cond ≠ some c)
    (others : ∀ u c, u ≠ t → (s.place u).initializes c → m.id c = 0 ∧ place.cond ≠ some c) :
    Inv (s.move t m place) where
  numbered := numbered
  taken u v took := by
    by_cases here : u = t
    · subst here
      rw [place_move_self] at took
      exact (mine v took).1
    · rw [place_move_other s here] at took
      exact taken u v here took
  own u w v first second := by
    by_cases here : u = t
    · by_cases there : w = t
      · rw [here, there]
      · subst here
        rw [place_move_self] at first
        rw [place_move_other s there] at second
        exact absurd second ((mine v first).2 w there)
    · rw [place_move_other s here] at first
      by_cases there : w = t
      · subst there
        rw [place_move_self] at second
        exact absurd first ((mine v second).2 u here)
      · rw [place_move_other s there] at second
        exact inv.own u w v first second
  alone u c initializes := by
    by_cases here : u = t
    · subst here
      rw [place_move_self] at initializes
      obtain ⟨zero, free⟩ := alone c initializes
      refine ⟨zero, fun w other => ?_⟩
      rw [place_move_other s other]
      exact free w other
    · rw [place_move_other s here] at initializes
      obtain ⟨zero, free⟩ := others u c here initializes
      refine ⟨zero, fun w other => ?_⟩
      by_cases there : w = t
      · subst there
        rw [place_move_self]
        exact free
      · rw [place_move_other s there]
        exact (inv.alone u c initializes).2 w other

omit [DecidableEq C] [DecidableEq T] in
theorem limit_atomicAdd (left : m.globalCvIdSeq ≠ 0) (bound : m.globalCvIdSeq < 4294967296) :
    m.limit = m.globalCvIdSeq ∧ m.atomicAdd.2.limit = m.globalCvIdSeq + 1 := by
  unfold Memory.limit Memory.atomicAdd
  simp only []
  constructor
  · rw [if_neg left]
  · split <;> omega

omit [DecidableEq C] [DecidableEq T] in
theorem Numbered.atomicAdd (numbered : Numbered m) (left : m.globalCvIdSeq ≠ 0) :
    Numbered m.atomicAdd.2 ∧ Unused m.atomicAdd.2 m.atomicAdd.1 ∧
      ∀ v, Unused m v → Unused m.atomicAdd.2 v ∧ v ≠ m.atomicAdd.1 := by
  obtain ⟨before, after⟩ := limit_atomicAdd left numbered.bound
  have below := numbered.below
  rw [before] at below
  refine ⟨⟨Nat.mod_lt _ (by omega), fun c => ?_, numbered.apart, numbered.kernel⟩,
    ⟨left, ?_, fun c => ?_⟩, fun v unused => ⟨⟨unused.positive, ?_, unused.apart⟩, ?_⟩⟩
  · rw [after]
    exact Nat.lt_succ_of_lt (below c)
  · rw [after]
    exact Nat.lt_succ_self _
  · exact Nat.ne_of_lt (below c)
  · have less := unused.below
    rw [before] at less
    rw [after]
    exact Nat.lt_succ_of_lt less
  · have less := unused.below
    rw [before] at less
    exact Nat.ne_of_lt less

omit [DecidableEq T] in
theorem Numbered.setId (numbered : Numbered m) {c : C} {v : Nat} (zero : m.id c = 0)
    (unused : Unused m v) : Numbered (m.setId c v) ∧
      ∀ w, Unused m w → w ≠ v → Unused (m.setId c v) w := by
  refine ⟨⟨numbered.bound, fun d => ?_, fun d e same some_ => ?_, fun t d purpose i call => ?_⟩,
    fun w other apart => ⟨other.positive, other.below, fun d => ?_⟩⟩
  · simp only [Memory.setId]
    split
    · exact unused.below
    · exact numbered.below d
  · simp only [Memory.setId] at same some_
    split at same
    next here =>
      split at same
      next there => rw [here, there]
      next => exact absurd same.symm (unused.apart e)
    next here =>
      rw [if_neg here] at some_
      split at same
      next => exact absurd same (unused.apart d)
      next => exact numbered.apart d e same some_
  · obtain ⟨eq, positive⟩ := numbered.kernel t d purpose i call
    refine ⟨?_, positive⟩
    simp only [Memory.setId]
    split
    next here =>
      rw [here, zero] at eq
      exact absurd eq positive
    next => exact eq
  · simp only [Memory.setId]
    split
    · exact apart.symm
    · exact other.apart d

omit [DecidableEq C] [DecidableEq T] in
theorem Numbered.call (numbered : Numbered m) (t : T) {c : C} (purpose : Purpose)
    (some_ : m.id c ≠ 0) : Numbered (m.call t c purpose (m.id c)) := by
  refine ⟨numbered.bound, numbered.below, numbered.apart, fun u d purpose' i call => ?_⟩
  simp only [Memory.call, List.mem_append, List.mem_singleton] at call
  obtain before | now := call
  · exact numbered.kernel u d purpose' i before
  · cases now
    exact ⟨rfl, some_⟩

omit [DecidableEq C] in
theorem Place.cond_of_initializes {c : C} {p : Place C} (h : p.initializes c) : p.cond = some c := by
  cases p with
  | initAdd d | initSet d _ =>
    cases h
    rfl
  | outside | get _ _ | add _ _ | swap _ _ _ => cases h

omit [DecidableEq C] in
theorem Inv.goOn (inv : Inv s) (numbered : Numbered m) (id : m.id = s.memory.id)
    (limit : m.limit = s.memory.limit) (empty : place.taken = none)
    (own : ∀ c, place.cond = some c → (s.place t).cond = some c)
    (alone : ∀ c, ¬ place.initializes c) : Inv (s.move t m place) := by
  have unused {v : Nat} (before : Unused s.memory v) : Unused m v :=
    ⟨before.positive, by rw [limit]; exact before.below, by rw [id]; exact before.apart⟩
  refine inv.move numbered (fun v took => by rw [empty] at took; cases took)
    (fun u v _ took => unused (inv.taken u v took)) (fun c here => absurd here (alone c)) ?_
  intro u c other initializes
  obtain ⟨zero, free⟩ := inv.alone u c initializes
  rw [id]
  exact ⟨zero, fun same => free t other.symm (own c same)⟩

theorem Inv.give (inv : Inv s) {c : C} {v : Nat} (took : (s.place t).taken = some v)
    (zero : s.memory.id c = 0) (free : ∀ u, u ≠ t → ¬ (s.place u).initializes c) :
    Inv (s.move t (s.memory.setId c v) .outside) := by
  obtain ⟨numbered, others⟩ := inv.numbered.setId zero (inv.taken t v took)
  refine inv.move numbered (fun v took => nomatch took) (fun u w other took' => ?_)
    (fun d same => nomatch same) ?_
  · apply others w (inv.taken u w took')
    intro same
    subst same
    exact other (inv.own u t w took' took)
  · intro u d other initializes
    refine ⟨?_, fun same => nomatch same⟩
    simp only [Memory.setId]
    split
    next here =>
      rw [here] at initializes
      exact absurd initializes (free u other)
    next => exact (inv.alone u d initializes).1

omit [DecidableEq T] [DecidableEq C] in
theorem Inv.call (inv : Inv s) {c : C} (purpose : Purpose) (some_ : s.memory.id c ≠ 0) :
    Inv { s with memory := s.memory.call t c purpose (s.memory.id c) } where
  numbered := inv.numbered.call t purpose some_
  taken u v took := ⟨(inv.taken u v took).positive, (inv.taken u v took).below,
    (inv.taken u v took).apart⟩
  own := inv.own
  alone := inv.alone

theorem access_inv (inv : Inv s) {e : Input C} (allowed : Allowed s (t, e))
    (taken : access t s.memory (s.place t) e = some (m, place)) : Inv (s.move t m place) := by
  unfold Allowed at allowed
  simp only [] at allowed
  cases at_ : s.place t with
  | outside =>
    rw [at_] at taken
    cases e with
    | access => cases taken
    | init c =>
      cases taken
      obtain ⟨zero, free⟩ := allowed
      refine inv.move inv.numbered (fun v took => nomatch took)
        (fun u v _ took => inv.taken u v took) ?_ ?_
      · intro d same
        cases same
        exact ⟨zero, fun u _ => free u⟩
      · intro u d _ initializes
        refine ⟨(inv.alone u d initializes).1, fun same => ?_⟩
        cases same
        exact free u (Place.cond_of_initializes initializes)
    | use c purpose =>
      cases taken
      refine inv.move inv.numbered (fun v took => nomatch took)
        (fun u v _ took => inv.taken u v took) (fun d same => nomatch same) ?_
      intro u d _ initializes
      refine ⟨(inv.alone u d initializes).1, fun same => ?_⟩
      cases same
      exact allowed u initializes
  | get c purpose =>
    rw [at_] at taken
    cases e with
    | init _ | use _ _ => cases taken
    | access =>
      simp only [access] at taken
      split at taken
      next =>
        cases taken
        exact inv.goOn inv.numbered rfl rfl rfl (fun d same => by rw [at_]; exact same)
          (fun d same => nomatch same)
      next some_ =>
        cases taken
        exact inv.goOn (inv.numbered.call t purpose some_) rfl rfl rfl
          (fun d same => nomatch same) (fun d same => nomatch same)
  | add c purpose =>
    rw [at_] at taken
    cases e with
    | init _ | use _ _ => cases taken
    | access =>
      cases taken
      rw [at_] at allowed
      obtain ⟨numbered, fresh, others⟩ := inv.numbered.atomicAdd allowed
      refine inv.move numbered ?_ (fun u v _ took => (others v (inv.taken u v took)).1)
        (fun d same => nomatch same) ?_
      · intro v took
        cases took
        exact ⟨fresh, fun u _ took => (others _ (inv.taken u _ took)).2 rfl⟩
      · intro u d other initializes
        obtain ⟨zero, free⟩ := inv.alone u d initializes
        exact ⟨zero, fun same => free t other.symm (by rw [at_]; exact same)⟩
  | initAdd c =>
    rw [at_] at taken
    cases e with
    | init _ | use _ _ => cases taken
    | access =>
      cases taken
      rw [at_] at allowed
      obtain ⟨numbered, fresh, others⟩ := inv.numbered.atomicAdd allowed
      have mine := inv.alone t c (by rw [at_]; exact rfl)
      refine inv.move numbered ?_ (fun u v _ took => (others v (inv.taken u v took)).1) ?_ ?_
      · intro v took
        cases took
        exact ⟨fresh, fun u _ took => (others _ (inv.taken u _ took)).2 rfl⟩
      · intro d same
        cases same
        exact mine
      · intro u d other initializes
        obtain ⟨zero, free⟩ := inv.alone u d initializes
        exact ⟨zero, fun same => free t other.symm (by rw [at_]; exact same)⟩
  | swap c purpose val =>
    rw [at_] at taken
    have mine : (s.place t).taken = some val := by rw [at_]; rfl
    cases e with
    | init _ | use _ _ => cases taken
    | access =>
      simp only [access] at taken
      by_cases zero : s.memory.id c = 0
      · rw [if_pos zero, if_pos zero] at taken
        cases taken
        have free (u : T) (other : u ≠ t) (initializes : (s.place u).initializes c) : False :=
          (inv.alone u c initializes).2 t other.symm (by rw [at_]; rfl)
        have given := inv.give mine zero free
        have own : (s.memory.setId c val).id c = val := if_pos rfl
        have recorded := given.call (t := t) (c := c) purpose (by
          simp only [Config.move]
          rw [own]
          exact (inv.taken t val mine).positive)
        simp only [Config.move, own] at recorded
        exact recorded
      · rw [if_neg zero, if_neg zero] at taken
        cases taken
        exact inv.goOn (inv.numbered.call t purpose zero) rfl rfl rfl
          (fun d same => nomatch same) (fun d same => nomatch same)
  | initSet c val =>
    rw [at_] at taken
    have mine : (s.place t).taken = some val := by rw [at_]; rfl
    have initializes : (s.place t).initializes c := by rw [at_]; rfl
    cases e with
    | init _ | use _ _ => cases taken
    | access =>
      cases taken
      obtain ⟨zero, free⟩ := inv.alone t c initializes
      exact inv.give mine zero fun u other here =>
        free u other (Place.cond_of_initializes here)

omit [DecidableEq T] [DecidableEq C] in
theorem initial_inv : Inv (initial : State T C) where
  numbered := ⟨by simp [initial], fun c => Nat.one_pos, fun c d same some_ => absurd rfl some_,
    fun t c purpose i call => nomatch call⟩
  taken t v took := nomatch took
  own t u v took := nomatch took
  alone t c here := nomatch here

/-- Whatever threads race for the number of a condition, in the kernel they all meet at one number,
    and never those of another condition. -/
theorem kernel_meets_by_condition {s : State T C} {es : List (T × Input C)}
    (run : Run (Guarded Allowed (Steps (step access))) initial es s) {t u : T} {c d : C}
    {p q : Purpose} {i j : Nat} (first : (t, c, p, i) ∈ s.memory.kernel)
    (second : (u, d, q, j) ∈ s.memory.kernel) : i ≠ 0 ∧ (i = j ↔ c = d) := by
  have inv : Inv s := by
    apply Transition.run_invariant Inv _ run initial_inv
    intro s e s' inv taken
    obtain ⟨allowed, taken⟩ := taken
    obtain ⟨memory, place, access, rfl⟩ := step_eq_some_iff.mp taken
    exact access_inv inv allowed access
  obtain ⟨eq, positive⟩ := inv.numbered.kernel t c p i first
  obtain ⟨eq', -⟩ := inv.numbered.kernel u d q j second
  refine ⟨positive, fun same => ?_, fun same => ?_⟩
  · rw [eq, eq'] at same
    exact inv.numbered.apart c d same (by rw [← eq]; exact positive)
  · rw [eq, eq', same]

/-- A thread waits and another broadcasts while the condition has no number, so that each takes one
    for it; the first then signals a condition that was initialized. -/
def race : List (Bool × Input Bool) :=
  let does := fun (t : Bool) (call : Input Bool) => [(t, call), (t, .access)]
  does true (.init false) ++ [(true, .access)] ++ does false (.use true .waitqueue) ++
    does true (.use true (.waitdequeue true)) ++
    [(true, .access), (false, .access), (false, .access), (true, .access)] ++
    does false (.use false (.waitdequeue false))

theorem kernel_meets_by_condition_race :
    ∃ s : State Bool Bool, s.memory.kernel = [(false, true, .waitqueue, 3),
        (true, true, .waitdequeue true, 3), (false, false, .waitdequeue false, 1)] ∧
      (3 ≠ 0 ∧ (3 = 1 ↔ true = false)) := by
  have ends : (runAll (guarded Allowed (step access)) initial race).any
      (fun s => s.memory.kernel = [(false, true, .waitqueue, 3),
        (true, true, .waitdequeue true, 3), (false, false, .waitdequeue false, 1)]) = true := by
    decide
  obtain ⟨s, run, seen⟩ := (Option.any_eq_true _ _).mp ends
  have seen := of_decide_eq_true seen
  refine ⟨s, seen, kernel_meets_by_condition (t := false) (u := false) (p := .waitqueue)
    (q := .waitdequeue false) (run_guarded_iff.mpr run) ?_ ?_⟩
  · simp [seen]
  · simp [seen]

end PthreadCond
