import Mathlib.Tactic.Common
import Mathlib.Data.List.Basic

/-!
Machines that answer requests, and their refinement: a machine that may get stuck is
compared with a model that has an answer to every request.
-/
namespace Machine

universe u v w x
variable {S : Type u} {T : Type v} {E : Type w} {R : Type x}

/-- The answers to a list of requests, if the machine does not get stuck. -/
def serve (step : S → E → Option (S × R)) : S → List E → Option (S × List R)
  | s, [] => some (s, [])
  | s, e :: es =>
      match step s e with
      | none => none
      | some (s, r) => (serve step s es).map fun rest => (rest.1, r :: rest.2)

def answers (next : T → E → T × R) : T → List E → T × List R
  | t, [] => (t, [])
  | t, e :: es =>
      let rest := answers next (next t e).1 es
      (rest.1, (next t e).2 :: rest.2)

/-- Each request is admitted in the state of the model that it meets. -/
def Admitted (next : T → E → T × R) (admits : T → E → Prop) : T → List E → Prop
  | _, [] => True
  | t, e :: es => admits t e ∧ Admitted next admits (next t e).1 es

theorem admitted_of_all {next : T → E → T × R} {admits : E → Prop} {es : List E}
    (all : ∀ e ∈ es, admits e) (t : T) : Admitted next (fun _ => admits) t es := by
  induction es generalizing t with
  | nil => trivial
  | cons e es ih => exact ⟨all e (by simp), ih (fun e mem => all e (by simp [mem])) _⟩

instance admittedDecidable (next : T → E → T × R) (admits : T → E → Prop)
    [∀ t e, Decidable (admits t e)] : ∀ t es, Decidable (Admitted next admits t es)
  | _, [] => .isTrue trivial
  | t, e :: es =>
      have := admittedDecidable next admits (next t e).1 es
      inferInstanceAs (Decidable (admits t e ∧ Admitted next admits (next t e).1 es))

/-- A machine that gives the answer of the model to every admitted request, and stays
    related to the model, does so along every list of requests. -/
theorem serve_refines {step : S → E → Option (S × R)} {next : T → E → T × R}
    {admits : T → E → Prop} (rel : S → T → Prop)
    (simulated : ∀ s t e, rel s t → admits t e →
      ∃ s', step s e = some (s', (next t e).2) ∧ rel s' (next t e).1)
    {s : S} {t : T} (start : rel s t) {es : List E} (admitted : Admitted next admits t es) :
    ∃ s', serve step s es = some (s', (answers next t es).2) ∧
      rel s' (answers next t es).1 := by
  induction es generalizing s t with
  | nil => exact ⟨s, rfl, start⟩
  | cons e es ih =>
    obtain ⟨s₁, first, related⟩ := simulated s t e start admitted.1
    obtain ⟨s₂, rest, related'⟩ := ih related admitted.2
    refine ⟨s₂, ?_, related'⟩
    rw [serve, first]
    simp only [rest, answers, Option.map_some]

theorem answers_invariant {next : T → E → T × R} {admits : T → E → Prop} (inv : T → Prop)
    (kept : ∀ t e, inv t → admits t e → inv (next t e).1) {t : T} (start : inv t)
    {es : List E} (admitted : Admitted next admits t es) : inv (answers next t es).1 := by
  induction es generalizing t with
  | nil => exact start
  | cons e es ih => exact ih (kept t e start admitted.1) admitted.2

end Machine
