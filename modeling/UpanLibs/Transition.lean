import Mathlib.Data.List.Basic
import Mathlib.Tactic.Common

/-!
Labelled transition systems over an arbitrary state type. A run is the list of
labels taken between two states; invariants and simulations are proved for one
step and carried along every run by the rules below.
-/
namespace Transition

universe u v w
variable {S : Type u} {E : Type v} {T : Type w}

inductive Run (step : S → E → S → Prop) : S → List E → S → Prop where
  | nil (s : S) : Run step s [] s
  | cons {s t u : S} {e : E} {es : List E}
      (first : step s e t) (tail : Run step t es u) : Run step s (e :: es) u

/-- Only the steps whose label is allowed in the state they start from. -/
def Guarded (allowed : S → E → Prop) (step : S → E → S → Prop) : S → E → S → Prop :=
  fun s e t => allowed s e ∧ step s e t

def Steps (next : S → E → Option S) : S → E → S → Prop :=
  fun s e t => next s e = some t

/-- The state a list of labels leads to, if every step is possible. -/
def runAll (next : S → E → Option S) : S → List E → Option S
  | s, [] => some s
  | s, e :: es => (next s e).bind fun t => runAll next t es

theorem run_iff_runAll {next : S → E → Option S} {s t : S} {es : List E} :
    Run (Steps next) s es t ↔ runAll next s es = some t := by
  constructor
  · intro run
    induction run with
    | nil s => rfl
    | cons first tail ih => exact (congrArg (Option.bind · _) first).trans ih
  · intro all
    induction es generalizing s with
    | nil =>
      cases all
      exact .nil _
    | cons e es ih =>
      obtain ⟨mid, first, rest⟩ := Option.bind_eq_some_iff.mp all
      exact .cons first (ih rest)

/-- The partial step function with the labels that are not allowed left out. -/
def guarded (allowed : S → E → Prop) [∀ s e, Decidable (allowed s e)]
    (next : S → E → Option S) : S → E → Option S :=
  fun s e => if allowed s e then next s e else none

theorem run_guarded_iff {allowed : S → E → Prop} [∀ s e, Decidable (allowed s e)]
    {next : S → E → Option S} {s t : S} {es : List E} :
    Run (Guarded allowed (Steps next)) s es t ↔ runAll (guarded allowed next) s es = some t := by
  have same : Guarded allowed (Steps next) = Steps (guarded allowed next) := by
    funext s e t
    by_cases here : allowed s e <;> simp [Guarded, Steps, guarded, here]
  rw [same, run_iff_runAll]

theorem run_invariant {step : S → E → S → Prop} (inv : S → Prop)
    (preserved : ∀ s e t, inv s → step s e t → inv t)
    {s t : S} {es : List E} (run : Run step s es t) (start : inv s) : inv t := by
  induction run with
  | nil s => exact start
  | cons first tail ih => exact ih (preserved _ _ _ start first)

theorem run_simulation {step : S → E → S → Prop} (rel : S → T → Prop) (next : T → E → T)
    (simulated : ∀ s e t a, rel s a → step s e t → rel t (next a e))
    {s t : S} {es : List E} (run : Run step s es t) (a : T) (start : rel s a) :
    rel t (es.foldl next a) := by
  induction run generalizing a with
  | nil s => exact start
  | cons first tail ih => exact ih _ (simulated _ _ _ _ start first)

theorem run_mono {step more : S → E → S → Prop} (sub : ∀ s e t, step s e t → more s e t)
    {s t : S} {es : List E} (run : Run step s es t) : Run more s es t := by
  induction run with
  | nil s => exact .nil s
  | cons first tail ih => exact .cons (sub _ _ _ first) ih

theorem run_guarded_mono {allowed more : S → E → Prop} {step : S → E → S → Prop}
    (sub : ∀ s e, allowed s e → more s e) {s t : S} {es : List E}
    (run : Run (Guarded allowed step) s es t) : Run (Guarded more step) s es t := by
  apply run_mono _ run
  intro s e t taken
  exact ⟨sub s e taken.1, taken.2⟩

end Transition
