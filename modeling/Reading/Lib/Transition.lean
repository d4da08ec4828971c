import Mathlib.Data.List.Basic

/-!
# Runs of a transition function

A system that takes one action at a time is a function `step : σ → α → σ`, and a run is a list of actions. The nondeterminism of an environment is in the choice of the actions. `Along P` says that every action of a run meets a condition in the state it is taken in, which is how an assumption about the environment, or a restriction to the steps that avoid a defect, is attached to a run.
-/

namespace Reading.Transition

variable {σ α : Type} (step : σ → α → σ)

/-- The state after a list of actions. -/
def run (s : σ) (actions : List α) : σ := actions.foldl step s

@[simp] theorem run_nil (s : σ) : run step s [] = s := rfl

@[simp] theorem run_cons (s : σ) (a : α) (actions : List α) :
    run step s (a :: actions) = run step (step s a) actions := rfl

theorem run_append (s : σ) (before after : List α) :
    run step s (before ++ after) = run step (run step s before) after :=
  List.foldl_append

/-- Every action of the run meets `P` in the state it is taken in. -/
def Along (P : σ → α → Prop) : σ → List α → Prop
  | _, [] => True
  | s, a :: actions => P s a ∧ Along P (step s a) actions

instance decidableAlong {P : σ → α → Prop} [∀ s a, Decidable (P s a)] :
    ∀ (s : σ) (actions : List α), Decidable (Along step P s actions)
  | _, [] => isTrue trivial
  | s, a :: actions =>
    have : Decidable (Along step P (step s a) actions) := decidableAlong (step s a) actions
    inferInstanceAs (Decidable (P s a ∧ Along step P (step s a) actions))

theorem along_append {P : σ → α → Prop} {s : σ} {before after : List α} :
    Along step P s (before ++ after) ↔
      Along step P s before ∧ Along step P (run step s before) after := by
  induction before generalizing s with
  | nil => simp [Along]
  | cons a before ih => simp [Along, ih, and_assoc]

theorem along_true (s : σ) (actions : List α) : Along step (fun _ _ => True) s actions := by
  induction actions generalizing s with
  | nil => trivial
  | cons a actions ih => exact ⟨trivial, ih _⟩

/-- An invariant that every permitted action keeps holds after every permitted run. -/
theorem run_invariant {P : σ → α → Prop} {Inv : σ → Prop}
    (hstep : ∀ s a, P s a → Inv s → Inv (step s a)) {s : σ} {actions : List α}
    (hrun : Along step P s actions) (hinit : Inv s) : Inv (run step s actions) := by
  induction actions generalizing s with
  | nil => exact hinit
  | cons a actions ih => exact ih hrun.2 (hstep s a hrun.1 hinit)

/-- What an invariant and the permission give for one action holds of every action of a run. -/
theorem along_of_invariant {P R : σ → α → Prop} {Inv : σ → Prop}
    (hstep : ∀ s a, P s a → Inv s → Inv (step s a) ∧ R s a) {s : σ} {actions : List α}
    (hrun : Along step P s actions) (hinit : Inv s) : Along step R s actions := by
  induction actions generalizing s with
  | nil => trivial
  | cons a actions ih =>
    obtain ⟨hnext, hkeeps⟩ := hstep s a hrun.1 hinit
    exact ⟨hkeeps, ih hrun.2 hnext⟩

end Reading.Transition
