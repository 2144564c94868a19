import Mathlib.Data.List.Basic

/-!
# Runs of a guarded machine

A machine takes one action after the other; an action is only taken in a state that
allows it. What every allowed step keeps, every run keeps.
-/

namespace Runs

variable {σ α : Type}

/-- From `s`, the actions lead to a state; each is allowed where it is taken. -/
inductive Run (step : σ → α → σ) (ok : σ → α → Prop) (s : σ) : List α → σ → Prop
  /-- No action. -/
  | nil : Run step ok s [] s
  /-- One more action. -/
  | snoc {as : List α} {t : σ} {a : α} (r : Run step ok s as t) (h : ok t a) :
    Run step ok s (as ++ [a]) (step t a)

/-- An invariant of every allowed step holds in every state a run reaches. -/
theorem Run.invariant {step : σ → α → σ} {ok : σ → α → Prop} {s t : σ} {as : List α}
    (I : σ → Prop) (h0 : I s) (hs : ∀ t a, I t → ok t a → I (step t a))
    (r : Run step ok s as t) : I t := by
  induction r with
  | nil => exact h0
  | snoc _ ha ih => exact hs _ _ ih ha

/-- One action. -/
theorem Run.single {step : σ → α → σ} {ok : σ → α → Prop} {s : σ} {a : α} (h : ok s a) :
    Run step ok s [a] (step s a) := Run.nil.snoc h

/-- Each action of a list is allowed where it is taken. -/
def Checked (step : σ → α → σ) (ok : σ → α → Prop) : σ → List α → Prop
  | _, [] => True
  | s, a :: as => ok s a ∧ Checked step ok (step s a) as

/-- A run goes on with a list of actions that are allowed. -/
theorem Run.append {step : σ → α → σ} {ok : σ → α → Prop} {s t : σ} {as bs : List α}
    (r : Run step ok s as t) (h : Checked step ok t bs) :
    Run step ok s (as ++ bs) (bs.foldl step t) := by
  induction bs generalizing as t with
  | nil => rwa [List.append_nil]
  | cons b bs ih =>
    have := ih (r.snoc h.1) h.2
    rwa [List.append_assoc] at this

end Runs
