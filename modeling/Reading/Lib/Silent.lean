import Reading.Lib.Fuel

/-!
# Runs that report nothing

A part of the state is a log that a program only appends to. Of a program that goes on after what it has reported there is often nothing to say but this; of a run that reports nothing there is: each of its steps reported nothing, so what is known of them can be composed.
-/

namespace Reading.Lib.Attempt

variable {σ ε α β : Type}

/-- The step appends to the log. When it appends nothing, its result and the states around it are related. -/
def Silent (log : σ → List ε) (r : Attempt σ α) (Q : σ → α → σ → Prop) : Prop :=
  ∀ c a c', r c = some (a, c') → ∃ more, log c' = log c ++ more ∧ (more = [] → Q c a c')

section Silent

variable {log : σ → List ε} {r : Attempt σ α} {f : α → Attempt σ β} {Q Q' : σ → α → σ → Prop} {R : α → σ → β → σ → Prop}

theorem silent_fail : Silent log (fail : Attempt σ α) Q := fun _ _ _ h => nomatch h

theorem silent_pure (a : α) : Silent log (pure a : Attempt σ α) fun c b c' => b = a ∧ c' = c := by
  intro c b c' h
  obtain ⟨rfl, rfl⟩ := Prod.mk.inj (Option.some.inj h)
  exact ⟨[], (List.append_nil _).symm, fun _ => ⟨rfl, rfl⟩⟩

theorem Silent.imp (h : Silent log r Q) (hQ : ∀ c a c', Q c a c' → Q' c a c') : Silent log r Q' := by
  intro c a c' hr
  obtain ⟨more, hmore, hq⟩ := h c a c' hr
  exact ⟨more, hmore, fun hnil => hQ c a c' (hq hnil)⟩

theorem Silent.bind (h : Silent log r Q) (hf : ∀ a, Silent log (f a) (R a)) :
    Silent log (r >>= f) fun c b c'' => ∃ a c', Q c a c' ∧ R a c' b c'' := by
  intro c b c'' hrun
  obtain ⟨a, c', hr, hfa⟩ := bind_eq_some.1 hrun
  obtain ⟨more, hmore, hq⟩ := h c a c' hr
  obtain ⟨more', hmore', hq'⟩ := hf a c' b c'' hfa
  refine ⟨more ++ more', by rw [hmore', hmore, List.append_assoc], fun hnil => ?_⟩
  obtain ⟨hmore, hmore'⟩ := List.append_eq_nil_iff.1 hnil
  exact ⟨a, c', hq hmore, hq' hmore'⟩

theorem Silent.ite {p : Prop} [Decidable p] {s : Attempt σ α} (h : Silent log r Q) (h' : Silent log s Q') :
    Silent log (if p then r else s) fun c a c' => p ∧ Q c a c' ∨ ¬p ∧ Q' c a c' := by
  split
  · exact h.imp fun _ _ _ hq => .inl ⟨‹_›, hq⟩
  · exact h'.imp fun _ _ _ hq => .inr ⟨‹_›, hq⟩

/-- A step that leaves the log alone. -/
theorem silent_of_eq (h : ∀ c a c', r c = some (a, c') → log c' = log c ∧ Q c a c') : Silent log r Q := by
  intro c a c' hr
  obtain ⟨hlog, hq⟩ := h c a c' hr
  exact ⟨[], hlog.trans (List.append_nil _).symm, fun _ => hq⟩

/-- A step that reports. -/
theorem silent_report {x : ε} (h : ∀ c a c', r c = some (a, c') → log c' = log c ++ [x]) : Silent log r Q :=
  fun c a c' hr => ⟨[x], h c a c' hr, fun hnil => nomatch hnil⟩

end Silent

end Reading.Lib.Attempt
