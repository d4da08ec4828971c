import Mathlib.Data.List.Basic

/-!
# Machines that run until they stop

A deterministic machine is a function `step : σ → σ ⊕ ρ`: it goes on in a new state or stops with a result. `runFor` executes a number of steps, and a state is visited when the machine is in it after some number of them. The rules are the three that a verified interpreter needs: an invariant holds in every visited state, a measure that every step decreases bounds the number of steps, and two machines whose steps correspond stop with corresponding results.
-/

namespace Reading.Machine

variable {σ τ ρ : Type}

/-- The state, or the result, after at most `n` steps. -/
def runFor (step : σ → σ ⊕ ρ) : Nat → σ → σ ⊕ ρ
  | 0, s => .inl s
  | n + 1, s =>
    match step s with
    | .inl s' => runFor step n s'
    | .inr r => .inr r

/-- The machine started in `s` comes to the state `t`. -/
inductive Visits (step : σ → σ ⊕ ρ) : σ → σ → Prop
  | here (s : σ) : Visits step s s
  | next {s s' t : σ} : step s = .inl s' → Visits step s' t → Visits step s t

section One

variable {step : σ → σ ⊕ ρ}

theorem runFor_next {s s' : σ} (h : step s = .inl s') (n : Nat) :
    runFor step (n + 1) s = runFor step n s' := by
  simp only [runFor, h]

theorem runFor_stop {s : σ} {r : ρ} (h : step s = .inr r) (n : Nat) :
    runFor step (n + 1) s = .inr r := by
  simp only [runFor, h]

theorem Visits.snoc {s t t' : σ} (h : Visits step s t) (hstep : step t = .inl t') : Visits step s t' := by
  induction h with
  | here s => exact .next hstep (.here t')
  | next hfirst _ ih => exact .next hfirst (ih hstep)

/-- An invariant that every step out of a visited state keeps holds in every visited state. -/
theorem Visits.invariant {Inv : σ → Prop} {s t : σ} (h : Visits step s t)
    (hstep : ∀ u u', Visits step s u → step u = .inl u' → Inv u → Inv u') (hinit : Inv s) : Inv t := by
  induction h with
  | here s => exact hinit
  | next hfirst _ ih =>
    refine ih (fun u u' hu => hstep u u' (.next hfirst hu)) ?_
    exact hstep _ _ (.here _) hfirst hinit

/-- A measure that is positive in every visited state and that every step decreases bounds the steps until the machine stops. -/
theorem stops_of_measure (μ : σ → Nat) {s : σ} {n : Nat} (hpos : ∀ t, Visits step s t → 0 < μ t)
    (hstep : ∀ t t', Visits step s t → step t = .inl t' → μ t' < μ t) (hle : μ s ≤ n) :
    ∃ t r, Visits step s t ∧ step t = .inr r ∧ runFor step n s = .inr r := by
  induction n generalizing s with
  | zero =>
    have := hpos s (.here s)
    omega
  | succ n ih =>
    cases hnext : step s with
    | inl s' =>
      have hless := hstep s s' (.here s) hnext
      obtain ⟨t, r, hvisits, hstop, hrun⟩ := ih (fun t ht => hpos t (.next hnext ht))
        (fun t t' ht => hstep t t' (.next hnext ht)) (by omega)
      exact ⟨t, r, .next hnext hvisits, hstop, (runFor_next hnext n).trans hrun⟩
    | inr r => exact ⟨s, r, .here s, hnext, runFor_stop hnext n⟩

end One

/-! ### Machines that keep a log -/

/-- The state in which a step ends, whether the machine goes on or not. -/
def landing (step : σ → σ ⊕ σ) (s : σ) : σ := (step s).elim id id

section Log

variable {β : Type} {step right : σ → σ ⊕ σ} {log : σ → List β}

/-- What every step only adds to, a run only adds to. -/
theorem runFor_log (hlog : ∀ s, log s <+: log (landing step s)) {n : Nat} {s t : σ}
    (h : runFor step n s = .inr t) : log s <+: log t := by
  induction n generalizing s with
  | zero => cases h
  | succ n ih =>
    have hnext := hlog s
    unfold landing at hnext
    cases hstep : step s with
    | inl s' =>
      rw [runFor_next hstep] at h
      rw [hstep] at hnext
      exact hnext.trans (ih h)
    | inr r =>
      rw [runFor_stop hstep] at h
      obtain rfl : r = t := Sum.inr.inj h
      rw [hstep] at hnext
      exact hnext

/-- A second machine that takes the same step whenever all of the log of that step is good runs alike if all of the final log is. -/
theorem runFor_agree {P : β → Prop} (hlog : ∀ s, log s <+: log (landing step s))
    (hagree : ∀ s, (∀ b ∈ log (landing step s), P b) → right s = step s) {n : Nat} {s t : σ}
    (h : runFor step n s = .inr t) (hall : ∀ b ∈ log t, P b) : runFor right n s = .inr t := by
  induction n generalizing s with
  | zero => cases h
  | succ n ih =>
    have hsame := hagree s
    unfold landing at hsame
    cases hstep : step s with
    | inl s' =>
      rw [runFor_next hstep] at h
      rw [hstep] at hsame
      have hgood : ∀ b ∈ log s', P b := fun b hb => hall b ((runFor_log hlog h).subset hb)
      rw [runFor_next (hsame hgood)]
      exact ih h
    | inr r =>
      rw [runFor_stop hstep] at h
      obtain rfl : r = t := Sum.inr.inj h
      rw [hstep] at hsame
      rw [runFor_stop (hsame hall)]

end Log

/-- Two machines whose steps agree in every state the first one visits run alike. -/
theorem runFor_congr {left right : σ → σ ⊕ ρ} {s : σ}
    (h : ∀ t, Visits left s t → left t = right t) (n : Nat) : runFor left n s = runFor right n s := by
  induction n generalizing s with
  | zero => rfl
  | succ n ih =>
    have hsame := h s (.here s)
    cases hstep : left s with
    | inl s' =>
      rw [runFor_next hstep, runFor_next (hsame ▸ hstep)]
      exact ih fun t ht => h t (.next hstep ht)
    | inr r => rw [runFor_stop hstep, runFor_stop (hsame ▸ hstep)]

end Reading.Machine
