import Reading.Lib.Fuel

/-!
# Runs with checks

A program that goes wrong does not return, and neither does a bounded run that had too little time. The two are told apart by a second program: it does the same, and in front of a step that can go wrong it checks the state and stops with a name. When each part of the second program guards a part of the first, and the second always comes to an end, the first returns exactly if the second is never stopped.
-/

namespace Reading.Lib

open Attempt

/-- A step that may be stopped with a name. -/
abbrev Checked (ε σ α : Type) := ExceptT ε (StateT σ Option) α

variable {ε σ α β : Type}

theorem Attempt.bind_of_none {r : Attempt σ α} {c : σ} (h : r c = none) (f : α → Attempt σ β) : (r >>= f) c = none := by
  rw [Attempt.bind_apply, h]
  rfl

namespace Checked

/-- The step is stopped unless the state has the property. -/
def check (p : σ → Prop) [DecidablePred p] (e : ε) : Checked ε σ Unit :=
  ExceptT.mk fun c => if p c then some (.ok (), c) else some (.error e, c)

/-- There was too little time. -/
def fail : Checked ε σ α := ExceptT.mk fun _ => none

variable {g : Checked ε σ α} {k : α → Checked ε σ β} {r s : Attempt σ α} {f : α → Attempt σ β} {c c' : σ} {a : α} {e : ε}

theorem pure_apply (a : α) (c : σ) : (pure a : Checked ε σ α) c = some (.ok a, c) := rfl

theorem lift_apply (r : Attempt σ α) (c : σ) : (liftM r : Checked ε σ α) c = (r c).map fun out => (.ok out.1, out.2) := by
  cases h : r c with
  | none =>
    change (r c).bind _ = _
    rw [h]
    rfl
  | some out =>
    change (r c).bind _ = _
    rw [h]
    rfl

theorem bind_apply (g : Checked ε σ α) (k : α → Checked ε σ β) (c : σ) :
    (g >>= k) c = (g c).bind fun out => ExceptT.bindCont k out.1 out.2 := rfl

theorem bind_of_ok (h : g c = some (.ok a, c')) (k : α → Checked ε σ β) : (g >>= k) c = k a c' := by
  rw [bind_apply, h]
  rfl

theorem bind_of_error (h : g c = some (.error e, c')) (k : α → Checked ε σ β) : (g >>= k) c = some (.error e, c') := by
  rw [bind_apply, h]
  rfl

/-! ### Programs that guard others -/

/-- What the first returns from the state the second returns too, and when the first is stopped the second does not return. -/
def GuardsAt (g : Checked ε σ α) (r : Attempt σ α) (c : σ) : Prop :=
  ∀ v c', g c = some (v, c') → r c = v.toOption.map fun a => (a, c')

def Guards (g : Checked ε σ α) (r : Attempt σ α) : Prop := ∀ c, GuardsAt g r c

theorem guards_pure (a : α) : Guards (pure a : Checked ε σ α) (pure a) := by
  intro c v c' h
  obtain ⟨rfl, rfl⟩ := Prod.mk.inj (Option.some.inj h)
  rfl

theorem guards_lift (h : Le r s) : Guards (liftM r : Checked ε σ α) s := by
  intro c v c' hrun
  rw [lift_apply, Option.map_eq_some_iff] at hrun
  obtain ⟨⟨a, d⟩, hr, heq⟩ := hrun
  obtain ⟨rfl, rfl⟩ := Prod.mk.inj heq
  exact h c _ hr

theorem guards_refl (r : Attempt σ α) : Guards (liftM r : Checked ε σ α) r := guards_lift (Le.refl r)

theorem guards_fail (r : Attempt σ α) : Guards (fail : Checked ε σ α) r := by
  intro c v c' h
  cases h

theorem Guards.bind (h : Guards g r) (hk : ∀ a, Guards (k a) (f a)) : Guards (g >>= k) (r >>= f) := by
  intro c v c'' hrun
  rw [bind_apply, Option.bind_eq_some_iff] at hrun
  obtain ⟨⟨u, c'⟩, hg, hrest⟩ := hrun
  have hr := h c u c' hg
  cases u with
  | ok a => rw [bind_of_eq hr, hk a c' v c'' hrest]
  | error e =>
    obtain ⟨rfl, rfl⟩ := Prod.mk.inj (Option.some.inj hrest)
    exact bind_of_none hr f

theorem Guards.ite {p : Prop} [Decidable p] {g' : Checked ε σ α} (h : Guards g r) (h' : Guards g' s) :
    Guards (if p then g else g') (if p then r else s) := by
  split
  · exact h
  · exact h'

/-- A check in front of a step that does not return from the states that it stops. -/
theorem guards_check {p : σ → Prop} [DecidablePred p] (h : ∀ c, p c → GuardsAt g r c) (hr : ∀ c, ¬p c → r c = none) (e : ε) :
    Guards (check p e >>= fun _ => g) r := by
  intro c v c' hrun
  by_cases hp : p c
  · have hcheck : check p e c = some (.ok (), c) := if_pos hp
    exact h c hp v c' ((bind_of_ok hcheck _).symm.trans hrun)
  · have hcheck : check p e c = some (.error e, c) := if_neg hp
    obtain ⟨rfl, rfl⟩ := Prod.mk.inj (Option.some.inj ((bind_of_error hcheck _).symm.trans hrun))
    exact hr c hp

/-! ### Programs that come to an end -/

/-- The step comes to an end, and when it is not stopped, what it returns and leaves has the property. -/
def Halts (g : Checked ε σ α) (c : σ) (Q : α → σ → Prop) : Prop := ∃ v c', g c = some (v, c') ∧ ∀ a, v = .ok a → Q a c'

variable {Q Q' : α → σ → Prop} {R : β → σ → Prop}

theorem halts_pure (h : Q a c) : Halts (pure a : Checked ε σ α) c Q := by
  refine ⟨_, _, rfl, fun b hb => ?_⟩
  cases hb
  exact h

theorem halts_lift (h : Returns r c Q) : Halts (liftM r : Checked ε σ α) c Q := by
  obtain ⟨a, c', hr, ha⟩ := h
  refine ⟨.ok a, c', by rw [lift_apply, hr]; rfl, fun b hb => ?_⟩
  cases hb
  exact ha

theorem Halts.imp (h : Halts g c Q) (hQ : ∀ a c', Q a c' → Q' a c') : Halts g c Q' := by
  obtain ⟨v, c', hg, hv⟩ := h
  exact ⟨v, c', hg, fun a ha => hQ a c' (hv a ha)⟩

theorem Halts.bind (h : Halts g c Q) (hk : ∀ a c', Q a c' → Halts (k a) c' R) : Halts (g >>= k) c R := by
  obtain ⟨v, c', hg, hv⟩ := h
  cases v with
  | ok a =>
    obtain ⟨w, c'', hrun, hw⟩ := hk a c' (hv a rfl)
    exact ⟨w, c'', (bind_of_ok hg k).trans hrun, hw⟩
  | error e =>
    refine ⟨.error e, c', bind_of_error hg k, fun b hb => ?_⟩
    cases hb

/-- A step whose result is known. -/
theorem halts_after (h : r c = some (a, c')) (hk : Halts (k a) c' R) : Halts (liftM r >>= k) c R := by
  obtain ⟨w, c'', hrun, hw⟩ := hk
  refine ⟨w, c'', (bind_of_ok ?_ k).trans hrun, hw⟩
  rw [lift_apply, h]
  rfl

theorem halts_check {p : σ → Prop} [DecidablePred p] (h : p c → Halts g c Q) (e : ε) : Halts (check p e >>= fun _ => g) c Q := by
  by_cases hp : p c
  · have hcheck : check p e c = some (.ok (), c) := if_pos hp
    obtain ⟨w, c', hrun, hw⟩ := h hp
    exact ⟨w, c', (bind_of_ok hcheck _).trans hrun, hw⟩
  · have hcheck : check p e c = some (.error e, c) := if_neg hp
    refine ⟨.error e, c, bind_of_error hcheck _, fun b hb => ?_⟩
    cases hb

/-! ### Bounded runs -/

section Bounded

variable {f : Nat → Attempt σ α} {g : Nat → Checked ε σ α}

/-- A program does not return when a run of its guard is stopped. -/
theorem not_yields_of_stopped (hf : Ascending f) (hg : ∀ n m, n ≤ m → Guards (g n) (f m)) {n : Nat}
    (h : g n c = some (.error e, c')) {out : α × σ} : ¬Yields f c out := by
  intro hyields
  obtain ⟨m, hm⟩ := hyields
  have hnone := hg n (max n m) (Nat.le_max_left n m) c _ c' h
  have hsome := hf m (max n m) (Nat.le_max_right n m) c out hm
  cases hnone.symm.trans hsome

/-- A program returns when its guard comes to an end and is never stopped. -/
theorem yields_of_not_stopped (hg : ∀ n, Guards (g n) (f n)) (hends : ∃ n, Halts (g n) c Q)
    (h : ∀ n e c', g n c ≠ some (.error e, c')) : ∃ out, Yields f c out := by
  obtain ⟨n, v, c', hrun, -⟩ := hends
  cases v with
  | ok a => exact ⟨(a, c'), n, hg n c _ c' hrun⟩
  | error e => exact absurd hrun (h n e c')

end Bounded

end Checked

end Reading.Lib
