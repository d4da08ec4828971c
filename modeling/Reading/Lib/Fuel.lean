import Mathlib.Logic.Basic

/-!
# Computations with a bound

A program that may run forever is a family of bounded computations: each says what it returns when it is allowed so many calls inside each other. The family is ascending when a larger bound changes no result, and then what the program returns is what some member returns. The rules below are about that result and no longer mention the bound.
-/

namespace Reading.Lib

/-- A step on a state that may not return. -/
abbrev Attempt (σ α : Type) := StateT σ Option α

variable {σ α β : Type}

namespace Attempt

def fail : Attempt σ α := fun _ => none

@[simp] theorem fail_apply (c : σ) : (fail : Attempt σ α) c = none := rfl

@[simp] theorem pure_apply (a : α) (c : σ) : (pure a : Attempt σ α) c = some (a, c) := rfl

theorem bind_apply (r : Attempt σ α) (f : α → Attempt σ β) (c : σ) : (r >>= f) c = (r c).bind fun out => f out.1 out.2 := rfl

theorem bind_of_eq {r : Attempt σ α} {c c' : σ} {a : α} (h : r c = some (a, c')) (f : α → Attempt σ β) : (r >>= f) c = f a c' := by
  rw [bind_apply, h]
  rfl

theorem bind_eq_some {r : Attempt σ α} {f : α → Attempt σ β} {c : σ} {out : β × σ} :
    (r >>= f) c = some out ↔ ∃ a c', r c = some (a, c') ∧ f a c' = some out := by
  rw [bind_apply, Option.bind_eq_some_iff]
  constructor
  · intro ⟨⟨a, c'⟩, hr, hf⟩
    exact ⟨a, c', hr, hf⟩
  · intro ⟨a, c', hr, hf⟩
    exact ⟨(a, c'), hr, hf⟩

/-- What the first returns the second returns too. -/
def Le (r s : Attempt σ α) : Prop := ∀ c out, r c = some out → s c = some out

theorem Le.refl (r : Attempt σ α) : Le r r := fun _ _ h => h

theorem fail_le (r : Attempt σ α) : Le fail r := fun _ _ h => nomatch h

theorem Le.bind {r s : Attempt σ α} {f g : α → Attempt σ β} (h : Le r s) (hf : ∀ a, Le (f a) (g a)) : Le (r >>= f) (s >>= g) := by
  intro c out hout
  rw [bind_eq_some] at hout ⊢
  obtain ⟨a, c', hr, hfa⟩ := hout
  exact ⟨a, c', h c _ hr, hf a c' out hfa⟩

theorem Le.ite {p : Prop} [Decidable p] {r r' s s' : Attempt σ α} (h : Le r r') (h' : Le s s') :
    Le (if p then r else s) (if p then r' else s') := by
  split
  · exact h
  · exact h'

/-! ### What holds after a step -/

/-- From a state with the invariant, the step keeps it and its result has the property. -/
def Ensures (I : σ → Prop) (r : Attempt σ α) (Q : α → Prop) : Prop := ∀ c a c', I c → r c = some (a, c') → I c' ∧ Q a

section Ensures

variable {I : σ → Prop} {r : Attempt σ α} {f : α → Attempt σ β} {Q : α → Prop} {R : β → Prop}

theorem ensures_fail : Ensures I (fail : Attempt σ α) Q := fun _ _ _ _ h => nomatch h

theorem ensures_pure {a : α} (h : Q a) : Ensures I (pure a : Attempt σ α) Q := by
  intro c a' c' hc hrun
  obtain ⟨rfl, rfl⟩ := Prod.mk.inj (Option.some.inj hrun)
  exact ⟨hc, h⟩

theorem Ensures.bind (h : Ensures I r Q) (hf : ∀ a, Q a → Ensures I (f a) R) : Ensures I (r >>= f) R := by
  intro c b c'' hc hrun
  obtain ⟨a, c', hr, hfa⟩ := bind_eq_some.1 hrun
  obtain ⟨hc', ha⟩ := h c a c' hc hr
  exact hf a ha c' b c'' hc' hfa

theorem Ensures.ite {p : Prop} [Decidable p] {s : Attempt σ α} (h : Ensures I r Q) (h' : Ensures I s Q) :
    Ensures I (if p then r else s) Q := by
  split
  · exact h
  · exact h'

end Ensures

/-! ### What a step returns -/

/-- The step returns, and what it returns and leaves has the property. -/
def Returns (r : Attempt σ α) (c : σ) (Q : α → σ → Prop) : Prop := ∃ a c', r c = some (a, c') ∧ Q a c'

section Returns

variable {r : Attempt σ α} {f : α → Attempt σ β} {c : σ} {Q Q' : α → σ → Prop} {R : β → σ → Prop}

theorem Returns.of_eq {a : α} {c' : σ} (h : r c = some (a, c')) (hQ : Q a c') : Returns r c Q := ⟨a, c', h, hQ⟩

theorem returns_pure {a : α} (h : Q a c) : Returns (pure a : Attempt σ α) c Q := .of_eq rfl h

theorem Returns.imp (h : Returns r c Q) (hQ : ∀ a c', Q a c' → Q' a c') : Returns r c Q' := by
  obtain ⟨a, c', hr, ha⟩ := h
  exact ⟨a, c', hr, hQ a c' ha⟩

theorem Returns.bind (h : Returns r c Q) (hf : ∀ a c', Q a c' → Returns (f a) c' R) : Returns (r >>= f) c R := by
  obtain ⟨a, c', hr, ha⟩ := h
  obtain ⟨b, c'', hfa, hb⟩ := hf a c' ha
  exact ⟨b, c'', (bind_of_eq hr f).trans hfa, hb⟩

/-- A step whose result is known. -/
theorem Returns.after {a : α} {c' : σ} (h : r c = some (a, c')) (hf : Returns (f a) c' R) : Returns (r >>= f) c R :=
  (Returns.of_eq h ⟨rfl, rfl⟩ : Returns r c fun b d => b = a ∧ d = c').bind fun _ _ ⟨hb, hd⟩ => hb ▸ hd ▸ hf

end Returns

end Attempt

open Attempt

/-- A larger bound changes no result. -/
def Ascending (f : Nat → Attempt σ α) : Prop := ∀ n m, n ≤ m → Le (f n) (f m)

/-- What the program returns. -/
def Yields (f : Nat → Attempt σ α) (c : σ) (out : α × σ) : Prop := ∃ n, f n c = some out

variable {f : Nat → Attempt σ α} {c : σ} {out : α × σ}

theorem ascending_const (r : Attempt σ α) : Ascending fun _ => r := fun _ _ _ => Le.refl r

theorem Ascending.bind {g : α → Nat → Attempt σ β} (hf : Ascending f) (hg : ∀ a, Ascending (g a)) : Ascending fun n => f n >>= (g · n) :=
  fun n m hle => (hf n m hle).bind fun a => hg a n m hle

/-- A program returns at most once. -/
theorem Yields.unique (hf : Ascending f) {out' : α × σ} (h : Yields f c out) (h' : Yields f c out') : out = out' := by
  obtain ⟨n, hn⟩ := h
  obtain ⟨m, hm⟩ := h'
  have hn' : f (max n m) c = some out := hf n _ (Nat.le_max_left n m) c out hn
  have hm' : f (max n m) c = some out' := hf m _ (Nat.le_max_right n m) c out' hm
  exact Option.some.inj (hn'.symm.trans hm')

theorem yields_const {r : Attempt σ α} : Yields (fun _ => r) c out ↔ r c = some out := by
  constructor
  · intro ⟨_, h⟩
    exact h
  · intro h
    exact ⟨0, h⟩

theorem yields_bind {g : α → Nat → Attempt σ β} {out : β × σ} (hf : Ascending f) (hg : ∀ a, Ascending (g a)) :
    Yields (fun n => f n >>= (g · n)) c out ↔ ∃ a c', Yields f c (a, c') ∧ Yields (g a) c' out := by
  constructor
  · intro ⟨n, h⟩
    obtain ⟨a, c', hr, hs⟩ := bind_eq_some.1 h
    exact ⟨a, c', ⟨n, hr⟩, ⟨n, hs⟩⟩
  · intro ⟨a, c', ⟨n, hn⟩, ⟨m, hm⟩⟩
    refine ⟨max n m, bind_eq_some.2 ⟨a, c', ?_, ?_⟩⟩
    · exact hf n _ (Nat.le_max_left n m) c _ hn
    · exact hg a m _ (Nat.le_max_right n m) c' out hm

/-- When it is known what the first of two steps returns, it can be passed over. -/
theorem yields_bind_iff {g : α → Nat → Attempt σ β} {out : β × σ} (hf : Ascending f) (hg : ∀ a, Ascending (g a)) {a : α} {c' : σ}
    (h : Yields f c (a, c')) : Yields (fun n => f n >>= (g · n)) c out ↔ Yields (g a) c' out := by
  rw [yields_bind hf hg]
  constructor
  · intro ⟨b, d, hb, hgb⟩
    obtain ⟨rfl, rfl⟩ := Prod.mk.inj (h.unique hf hb)
    exact hgb
  · intro hga
    exact ⟨a, c', h, hga⟩

/-- The same for a step without a bound. -/
theorem yields_step_iff {r : Attempt σ α} {g : α → Nat → Attempt σ β} {out : β × σ} {a : α} {c' : σ} (h : r c = some (a, c')) :
    Yields (fun n => r >>= (g · n)) c out ↔ Yields (g a) c' out := by
  constructor
  · intro ⟨n, hn⟩
    exact ⟨n, (bind_of_eq h _).symm.trans hn⟩
  · intro ⟨n, hn⟩
    exact ⟨n, (bind_of_eq h _).trans hn⟩

/-- The last step only puts the result together. -/
theorem yields_map (hf : Ascending f) (h : α → β) {out : β × σ} :
    Yields (fun n => f n >>= fun a => pure (h a)) c out ↔ ∃ a c', Yields f c (a, c') ∧ out = (h a, c') := by
  rw [yields_bind hf fun a => ascending_const _]
  simp only [yields_const, pure_apply, Option.some_inj, eq_comm]

theorem yields_succ (hf : Ascending f) : Yields (fun n => f (n + 1)) c out ↔ Yields f c out := by
  constructor
  · intro ⟨n, h⟩
    exact ⟨n + 1, h⟩
  · intro ⟨n, h⟩
    exact ⟨n, hf n (n + 1) (Nat.le_succ n) c out h⟩

/-- A loop with a bound of its own around calls with another: both may be taken to be the same. -/
theorem yields_diagonal {F : Nat → Nat → Attempt σ α} (hF : ∀ n n' m m', n ≤ n' → m ≤ m' → Le (F n m) (F n' m')) :
    Yields (fun n => F n (n + 1)) c out ↔ Yields (fun n => F n n) c out := by
  constructor
  · intro ⟨n, h⟩
    exact ⟨n + 1, hF n (n + 1) (n + 1) (n + 1) (Nat.le_succ n) (Nat.le_refl _) c out h⟩
  · intro ⟨n, h⟩
    exact ⟨n, hF n n n (n + 1) (Nat.le_refl _) (Nat.le_succ n) c out h⟩

end Reading.Lib
