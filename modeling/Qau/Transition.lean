import Mathlib

/-!
# Guarded transition systems

States that a deterministic step function reaches from an initial state by
events that a guard allows, and the rule for invariants of such runs. The
guard has to hold only of the events that change the state (`of_guarded`).
-/

namespace Qau

variable {σ ε : Type}

/-- The states reached by allowed events. -/
inductive Reachable (step : σ → ε → σ) (ok : σ → ε → Prop) (init : σ) : σ → Prop where
  | init : Reachable step ok init init
  | next {s : σ} (e : ε) : Reachable step ok init s → ok s e → Reachable step ok init (step s e)

/-- The guard allows each event of a list in turn. -/
def Allowed (step : σ → ε → σ) (ok : σ → ε → Prop) : σ → List ε → Prop
  | _, [] => True
  | s, e :: es => ok s e ∧ Allowed step ok (step s e) es

instance Allowed.decidable {step : σ → ε → σ} {ok : σ → ε → Prop} [∀ s e, Decidable (ok s e)] :
    (s : σ) → (es : List ε) → Decidable (Allowed step ok s es)
  | _, [] => inferInstanceAs (Decidable True)
  | s, e :: es =>
    have : Decidable (Allowed step ok (step s e) es) := Allowed.decidable _ es
    inferInstanceAs (Decidable (ok s e ∧ _))

/-- The guard, for events that change the state. -/
def Guarded (step : σ → ε → σ) (ok : σ → ε → Prop) (s : σ) (e : ε) : Prop := step s e ≠ s → ok s e

namespace Reachable

variable {step : σ → ε → σ} {ok ok' : σ → ε → Prop} {init s : σ} {Inv : σ → Prop}

/-- What holds initially and is kept by allowed events holds throughout. -/
theorem invariant (h : Reachable step ok init s) (hinit : Inv init)
    (hstep : ∀ s e, Inv s → ok s e → Inv (step s e)) : Inv s := by
  induction h with
  | init => exact hinit
  | next e _ hok ih => exact hstep _ e ih hok

theorem of_guarded (h : Reachable step (Guarded step ok) init s) : Reachable step ok init s := by
  induction h with
  | init => exact .init
  | @next s e _ hok ih =>
    by_cases hsame : step s e = s
    · rwa [hsame]
    · exact ih.next e (hok hsame)

theorem guarded (h : Reachable step ok init s) : Reachable step (Guarded step ok) init s := by
  induction h with
  | init => exact .init
  | next e _ hok ih => exact ih.next e fun _ => hok

theorem foldl {es : List ε} (h : Reachable step ok init s) (hes : Allowed step ok s es) :
    Reachable step ok init (es.foldl step s) := by
  induction es generalizing s with
  | nil => exact h
  | cons e es ih => exact ih (h.next e hes.1) hes.2

end Reachable

end Qau
