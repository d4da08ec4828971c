import Reading.Ip.Inpcb

/-!
# The control block that a lookup returns

`in_pcblookup` goes through the list once. It keeps the best control block so far with the number of its wildcard matches, and stops at an exact match. What it returns is the first of the best: of the control blocks that agree with the addresses and ports asked for, those with the fewest wildcard matches count, and of these the first in the list.
-/

namespace Reading.Ip.Pcb

/-! ### The first of the best -/

section Best

variable {α : Type} {p : α → Prop} {w : α → Nat} {l : List α} {o : Option α} {a b : α}

/-- The first of those elements with the property that have the least weight, or none if no element has the property. -/
def IsBest (p : α → Prop) (w : α → Nat) (l : List α) : Option α → Prop
  | none => ∀ b ∈ l, ¬p b
  | some a => ∃ before after, l = before ++ a :: after ∧ p a ∧ (∀ b ∈ before, p b → w a < w b) ∧ ∀ b ∈ after, p b → w a ≤ w b

theorem IsBest.le (h : IsBest p w l (some a)) (hb : b ∈ l) (hp : p b) : w a ≤ w b := by
  obtain ⟨before, after, rfl, -, hbefore, hafter⟩ := h
  rcases List.mem_append.mp hb with hb | hb
  · exact Nat.le_of_lt (hbefore b hb hp)
  · rcases List.mem_cons.mp hb with rfl | hb
    · exact Nat.le_refl _
    · exact hafter b hb hp

theorem IsBest.skip (h : IsBest p w l o) (hb : p b → ∃ a, o = some a ∧ w a ≤ w b) : IsBest p w (l ++ [b]) o := by
  cases o with
  | none =>
    intro c hc hp
    rcases List.mem_append.mp hc with hc | hc
    · exact h c hc hp
    · obtain rfl := List.mem_singleton.mp hc
      obtain ⟨a, hnone, -⟩ := hb hp
      exact nomatch hnone
  | some a =>
    obtain ⟨before, after, rfl, hpa, hbefore, hafter⟩ := h
    refine ⟨before, after ++ [b], by simp, hpa, hbefore, fun c hc hp => ?_⟩
    rcases List.mem_append.mp hc with hc | hc
    · exact hafter c hc hp
    · obtain rfl := List.mem_singleton.mp hc
      obtain ⟨a', heq, hle⟩ := hb hp
      obtain rfl := Option.some.inj heq
      exact hle

/-- An element that is better than the best so far takes its place. -/
theorem IsBest.take (h : IsBest p w l o) (hb : p b) (hlt : ∀ a, o = some a → w b < w a) : IsBest p w (l ++ [b]) (some b) := by
  refine ⟨l, [], rfl, hb, fun c hc hp => ?_, fun c hc => absurd hc List.not_mem_nil⟩
  cases o with
  | none => exact absurd hp (h c hc)
  | some a => exact Nat.lt_of_lt_of_le (hlt a rfl) (h.le hc hp)

theorem IsBest.stop (h : IsBest p w l (some a)) (hzero : w a = 0) (rest : List α) : IsBest p w (l ++ rest) (some a) := by
  obtain ⟨before, after, rfl, hpa, hbefore, hafter⟩ := h
  refine ⟨before, after ++ rest, by simp, hpa, hbefore, fun c hc _ => ?_⟩
  rw [hzero]
  exact Nat.zero_le _

end Best

/-! ### Agreement -/

/-- Two addresses agree when they are equal or one of them is the wildcard. -/
def Agree (own given : Addr) : Prop := own = inaddrAny ∨ given = inaddrAny ∨ own = given

/-- A wildcard match is one of an address with the wildcard. -/
def anyMatch (own given : Addr) : Nat := if own = inaddrAny ↔ given = inaddrAny then 0 else 1

variable {A : Type} {faddr laddr : Addr} {fport lport : Port} {flag : Bool} {inp : Inpcb A}

/-- The control block has the local port and agrees with the addresses. The foreign ports are compared when both foreign addresses are given. -/
structure Compatible (faddr : Addr) (fport : Port) (laddr : Addr) (lport : Port) (inp : Inpcb A) : Prop where
  port : inp.lport = lport
  localAddr : Agree inp.laddr laddr
  foreignAddr : Agree inp.faddr faddr
  foreignPort : inp.faddr ≠ inaddrAny → faddr ≠ inaddrAny → inp.fport = fport

/-- The number of wildcard matches. -/
def wildcards (faddr laddr : Addr) (inp : Inpcb A) : Nat := anyMatch inp.laddr laddr + anyMatch inp.faddr faddr

/-- Without `INPLOOKUP_WILDCARD` only exact matches count. -/
def Eligible (faddr : Addr) (fport : Port) (laddr : Addr) (lport : Port) (flag : Bool) (inp : Inpcb A) : Prop :=
  Compatible faddr fport laddr lport inp ∧ (flag = false → wildcards faddr laddr inp = 0)

theorem wildcardAddr_eq_some {own given : Addr} {portsAgree : Bool} {n : Nat} : wildcardAddr own given portsAgree = some n ↔
    Agree own given ∧ (own ≠ inaddrAny → given ≠ inaddrAny → portsAgree = true) ∧ anyMatch own given = n := by
  by_cases hown : own = inaddrAny <;> by_cases hgiven : given = inaddrAny
  · simp [wildcardAddr, Agree, anyMatch, hown, hgiven]
  · simp [wildcardAddr, Agree, anyMatch, hown, hgiven]
  · simp [wildcardAddr, Agree, anyMatch, hown, hgiven]
  · by_cases heq : own = given
    · cases portsAgree <;> simp [wildcardAddr, Agree, anyMatch, hgiven, heq]
    · simp [wildcardAddr, Agree, anyMatch, hown, hgiven, heq]

/-- What the code counts for a control block of the local port, if it does not pass over it. -/
theorem wildcard_eq_some (hport : inp.lport = lport) {n : Nat} :
    wildcard inp faddr fport laddr = some n ↔ Compatible faddr fport laddr lport inp ∧ wildcards faddr laddr inp = n := by
  simp only [wildcard, Option.bind_eq_bind, Option.bind_eq_some_iff, wildcardAddr_eq_some, beq_iff_eq, Option.some.injEq]
  constructor
  · rintro ⟨l, ⟨hl, -, rfl⟩, f, ⟨hf, hfport, rfl⟩, hn⟩
    exact ⟨⟨hport, hl, hf, hfport⟩, hn⟩
  · rintro ⟨⟨-, hl, hf, hfport⟩, hn⟩
    exact ⟨_, ⟨hl, fun _ _ => trivial, rfl⟩, _, ⟨hf, hfport, rfl⟩, hn⟩

/-! ### The loop -/

/-- What the loop has found is the best of what it has passed. -/
theorem inPcblookupFrom_best (rest before : List (Inpcb A)) (found : Option (Inpcb A)) (matchwild : Nat)
    (hbest : IsBest (Eligible faddr fport laddr lport flag) (wildcards faddr laddr) before found)
    (hwild : matchwild = found.elim 3 (wildcards faddr laddr)) :
    IsBest (Eligible faddr fport laddr lport flag) (wildcards faddr laddr) (before ++ rest)
      (inPcblookupFrom faddr fport laddr lport flag rest found matchwild) := by
  induction rest generalizing before found matchwild with
  | nil =>
    rw [List.append_nil]
    exact hbest
  | cons inp rest ih =>
    have hsplit : before ++ inp :: rest = before ++ [inp] ++ rest := by simp
    rw [hsplit, inPcblookupFrom]
    split
    case isTrue hother =>
      exact ih _ _ _ (hbest.skip fun hinp => absurd hinp.1.port hother) hwild
    case isFalse hport =>
      have hlport : inp.lport = lport := Decidable.not_not.mp hport
      cases hw : wildcard inp faddr fport laddr with
      | none =>
        refine ih _ _ _ (hbest.skip fun hinp => ?_) hwild
        rw [(wildcard_eq_some hlport).mpr ⟨hinp.1, rfl⟩] at hw
        cases hw
      | some n =>
        obtain ⟨hcompatible, hn⟩ := (wildcard_eq_some hlport).mp hw
        dsimp only
        split
        case isTrue hskip =>
          refine ih _ _ _ (hbest.skip fun hinp => ?_) hwild
          exact absurd (hn.symm.trans (hinp.2 hskip.2)) hskip.1
        case isFalse htake =>
          have heligible : Eligible faddr fport laddr lport flag inp := by
            refine ⟨hcompatible, fun hflag => ?_⟩
            by_contra hne
            exact htake ⟨hn ▸ hne, hflag⟩
          split
          case isTrue hlt =>
            have hnew := hbest.take heligible fun a ha => by
              rw [hwild, ha] at hlt
              rw [hn]
              exact hlt
            split
            case isTrue hzero => exact hnew.stop (hn.trans hzero) rest
            case isFalse => exact ih _ _ _ hnew hn.symm
          case isFalse hge =>
            refine ih _ _ _ (hbest.skip fun _ => ?_) hwild
            cases found with
            | none => exact absurd (hwild ▸ wildcard_lt hw) hge
            | some a =>
              rw [hwild] at hge
              exact ⟨a, rfl, hn ▸ Nat.not_lt.mp hge⟩

/-- The lookup returns the first of the eligible control blocks with the fewest wildcard matches, and no control block exactly when none is eligible. -/
theorem inPcblookup_best (st : Pcbs A) (faddr : Addr) (fport : Port) (laddr : Addr) (lport : Port) (flag : Bool) :
    (∀ inp, inPcblookup st faddr fport laddr lport flag = some inp → ∃ before after, st.list = before ++ inp :: after ∧
      Eligible faddr fport laddr lport flag inp ∧
      (∀ p ∈ before, Eligible faddr fport laddr lport flag p → wildcards faddr laddr inp < wildcards faddr laddr p) ∧
      ∀ p ∈ after, Eligible faddr fport laddr lport flag p → wildcards faddr laddr inp ≤ wildcards faddr laddr p) ∧
    (inPcblookup st faddr fport laddr lport flag = none ↔ ∀ p ∈ st.list, ¬Eligible faddr fport laddr lport flag p) := by
  have hbest : IsBest (Eligible faddr fport laddr lport flag) (wildcards faddr laddr) st.list
      (inPcblookup st faddr fport laddr lport flag) :=
    inPcblookupFrom_best st.list [] none 3 (fun p hp => absurd hp List.not_mem_nil) rfl
  generalize inPcblookup st faddr fport laddr lport flag = found at hbest
  cases found with
  | none => exact ⟨fun inp h => (nomatch h), fun _ => hbest, fun _ => rfl⟩
  | some a =>
    refine ⟨fun inp h => ?_, fun h => (nomatch h), fun hnone => ?_⟩
    · obtain rfl := Option.some.inj h
      exact hbest
    · obtain ⟨before, after, hlist, heligible, -⟩ := hbest
      exact absurd heligible (hnone a (hlist ▸ List.mem_append_right before List.mem_cons_self))

end Reading.Ip.Pcb
