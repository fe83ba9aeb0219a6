import UpanLibs.Transition

/-!
Threads over a shared memory. Each thread has a place of its own, and a step is
one access of one thread: it changes the memory and the place of that thread. An
invariant has a part about the memory and one for each thread at its place; it is
enough that an access keeps its own thread's part and does not disturb the others.
-/
namespace Interleaving

universe u v w x
variable {T : Type u} {M : Type v} {L : Type w} {E : Type x}

structure Config (T : Type u) (M : Type v) (L : Type w) where
  memory : M
  place : T → L

structure Invariant (common : M → Prop) (own : T → M → L → Prop) (s : Config T M L) : Prop where
  memory : common s.memory
  places : ∀ t, own t s.memory (s.place t)

variable [DecidableEq T]

def Config.move (s : Config T M L) (t : T) (memory : M) (place : L) : Config T M L :=
  ⟨memory, fun u => if u = t then place else s.place u⟩

/-- One access of the thread `e.1`. -/
def step (access : T → M → L → E → Option (M × L)) (s : Config T M L) (e : T × E) :
    Option (Config T M L) :=
  (access e.1 s.memory (s.place e.1) e.2).map fun r => s.move e.1 r.1 r.2

theorem step_eq_some_iff {access : T → M → L → E → Option (M × L)} {s s' : Config T M L}
    {e : T × E} :
    step access s e = some s' ↔
      ∃ memory place, access e.1 s.memory (s.place e.1) e.2 = some (memory, place) ∧
        s.move e.1 memory place = s' := by
  simp [step, Option.map_eq_some_iff]

theorem place_move_self (s : Config T M L) (t : T) (memory : M) (place : L) :
    (s.move t memory place).place t = place := if_pos rfl

theorem place_move_other (s : Config T M L) {t u : T} (other : u ≠ t) (memory : M) (place : L) :
    (s.move t memory place).place u = s.place u := if_neg other

variable {common : M → Prop} {own : T → M → L → Prop}

theorem invariant_move {s : Config T M L} (inv : Invariant common own s) {t : T} {memory : M}
    {place : L} (shared : common memory) (mine : own t memory place)
    (others : ∀ u, u ≠ t → own u s.memory (s.place u) → own u memory (s.place u)) :
    Invariant common own (s.move t memory place) := by
  constructor
  · exact shared
  · intro u
    by_cases same : u = t
    · subst same
      rw [place_move_self]
      exact mine
    · rw [place_move_other s same]
      exact others u same (inv.places u)

section Rules

variable {access : T → M → L → E → Option (M × L)}

theorem run_guarded_invariant {allowed : Config T M L → T × E → Prop}
    (kept : ∀ (s : Config T M L) (t : T) (e : E) (memory : M) (place : L),
      Invariant common own s → allowed s (t, e) →
      access t s.memory (s.place t) e = some (memory, place) →
      common memory ∧ own t memory place ∧
        ∀ u, u ≠ t → own u s.memory (s.place u) → own u memory (s.place u))
    {s s' : Config T M L} {es : List (T × E)}
    (run : Transition.Run (Transition.Guarded allowed (Transition.Steps (step access))) s es s')
    (start : Invariant common own s) : Invariant common own s' := by
  refine Transition.run_invariant _ ?_ run start
  intro s e s' inv ⟨here, taken⟩
  obtain ⟨memory, place, run, rfl⟩ := step_eq_some_iff.mp taken
  obtain ⟨shared, mine, others⟩ := kept s e.1 e.2 memory place inv here run
  exact invariant_move inv shared mine others

theorem run_invariant
    (kept : ∀ (s : Config T M L) (t : T) (e : E) (memory : M) (place : L),
      Invariant common own s → access t s.memory (s.place t) e = some (memory, place) →
      common memory ∧ own t memory place ∧
        ∀ u, u ≠ t → own u s.memory (s.place u) → own u memory (s.place u))
    {s s' : Config T M L} {es : List (T × E)}
    (run : Transition.Run (Transition.Steps (step access)) s es s')
    (start : Invariant common own s) : Invariant common own s' := by
  have free : Transition.Run
      (Transition.Guarded (fun _ _ => True) (Transition.Steps (step access))) s es s' :=
    Transition.run_mono (fun _ _ _ taken => ⟨trivial, taken⟩) run
  exact run_guarded_invariant (fun s t e memory place inv _ => kept s t e memory place inv) free
    start

end Rules

end Interleaving
