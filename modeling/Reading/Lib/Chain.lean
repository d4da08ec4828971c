import Mathlib.Data.Fintype.Card
import Mathlib.Logic.Function.Basic

/-!
# Chains of links

A link function gives each address the one behind it, or none. `Links next p l q` says that following the links from the pointer `p` visits the addresses `l` and comes to the pointer `q`. A chain that ends is determined by where it begins, so no address is on it twice. The two loops of a singly linked list, to its end and to the cell before a given one, are here with what they find, and so is what the usual two writes do to a chain.
-/

namespace Reading.Lib

variable {A : Type}

/-- The addresses from the pointer `p` on up to the pointer `q`. -/
def Links (next : A → Option A) : Option A → List A → Option A → Prop
  | p, [], q => p = q
  | p, a :: l, q => p = some a ∧ Links next (next a) l q

section Links

variable {next next' : A → Option A} {p q : Option A} {l l' : List A} {a b z t : A}

theorem links_append : Links next p (l ++ l') q ↔ ∃ r, Links next p l r ∧ Links next r l' q := by
  induction l generalizing p with
  | nil => simp [Links]
  | cons a l ih => simp [Links, ih, and_assoc]

theorem links_snoc : Links next p (l ++ [a]) q ↔ Links next p l (some a) ∧ next a = q := by
  rw [links_append]
  constructor
  · rintro ⟨r, hl, rfl, hq⟩
    exact ⟨hl, hq⟩
  · rintro ⟨hl, hq⟩
    exact ⟨some a, hl, rfl, hq⟩

theorem Links.congr (h : Links next p l q) (hnext : ∀ a ∈ l, next' a = next a) : Links next' p l q := by
  induction l generalizing p with
  | nil => exact h
  | cons a l ih =>
    refine ⟨h.1, ?_⟩
    rw [hnext a List.mem_cons_self]
    exact ih h.2 fun b hb => hnext b (List.mem_cons_of_mem _ hb)

theorem Links.update [DecidableEq A] (h : Links next p l q) (ha : a ∉ l) (r : Option A) : Links (Function.update next a r) p l q := by
  refine h.congr fun b hb => ?_
  rw [Function.update_of_ne]
  rintro rfl
  exact ha hb

theorem Links.unique (h : Links next p l none) (h' : Links next p l' none) : l = l' := by
  induction l generalizing p l' with
  | nil =>
    obtain rfl : p = none := h
    cases l' with
    | nil => rfl
    | cons b l' => exact nomatch h'.1
  | cons a l ih =>
    obtain ⟨rfl, hrest⟩ := h
    cases l' with
    | nil => exact nomatch h'
    | cons b l' =>
      obtain ⟨hb, hrest'⟩ := h'
      cases hb
      rw [ih hrest hrest']

/-- A chain that comes to an end does not come back to a place. -/
theorem Links.nodup (h : Links next p l none) : l.Nodup := by
  induction l generalizing p with
  | nil => exact List.nodup_nil
  | cons a l ih =>
    refine List.nodup_cons.mpr ⟨fun ha => ?_, ih h.2⟩
    obtain ⟨before, behind, rfl⟩ := List.append_of_mem ha
    obtain ⟨r, -, rfl, hbehind⟩ := links_append.mp h.2
    have heq := h.2.unique hbehind
    have := congrArg List.length heq
    simp only [List.length_append, List.length_cons] at this
    omega

theorem Links.length_le [Fintype A] (h : Links next p l none) : l.length ≤ Fintype.card A := h.nodup.length_le_card

/-- The first address is where the pointer leads. -/
theorem Links.eq_nil_iff (h : Links next p l none) : l = [] ↔ p = none := by
  cases l with
  | nil => exact ⟨fun _ => h, fun _ => rfl⟩
  | cons a l => simp [h.1]

theorem Links.eq_head? (h : Links next p l none) : p = l.head? := by
  cases l with
  | nil => exact h
  | cons a l => exact h.1

/-! ### Loops -/

/-- The address whose link is null. -/
def lastFrom (next : A → Option A) : Nat → A → Option A
  | 0, _ => none
  | fuel + 1, a =>
    match next a with
    | none => some a
    | some b => lastFrom next fuel b

theorem lastFrom_spec {fuel : Nat} (h : Links next (some a) (l ++ [z]) none) (hfuel : l.length < fuel) :
    lastFrom next fuel a = some z := by
  induction fuel generalizing a l with
  | zero => exact absurd hfuel (Nat.not_lt_zero _)
  | succ fuel ih =>
    cases l with
    | nil =>
      obtain ⟨hz, hnext⟩ := h
      cases hz
      have hnext : next z = none := hnext
      simp [lastFrom, hnext]
    | cons b l =>
      obtain ⟨hb, hrest⟩ := h
      cases hb
      cases hnext : next a with
      | none =>
        rw [hnext] at hrest
        exact absurd ((Links.eq_nil_iff hrest).mpr rfl) (by simp)
      | some c =>
        rw [hnext] at hrest
        simp only [lastFrom, hnext]
        exact ih hrest (Nat.lt_of_succ_lt_succ hfuel)

variable [DecidableEq A]

/-- The address whose link leads to the target, if the chain has it. -/
def findBefore (next : A → Option A) (target : A) : Nat → A → Option (Option A)
  | 0, _ => none
  | fuel + 1, prev =>
    match next prev with
    | none => some none
    | some b => if b = target then some (some prev) else findBefore next target fuel b

theorem findBefore_found {fuel : Nat} (h : Links next (some a) (l ++ z :: t :: l') none) (hfuel : l.length < fuel) :
    findBefore next t fuel a = some (some z) := by
  induction fuel generalizing a l with
  | zero => exact absurd hfuel (Nat.not_lt_zero _)
  | succ fuel ih =>
    cases l with
    | nil =>
      obtain ⟨hz, ht, -⟩ := h
      cases hz
      simp [findBefore, ht]
    | cons b l =>
      have hrest : Links next (next b) (l ++ z :: t :: l') none := h.2
      obtain rfl : a = b := Option.some.inj h.1
      cases hnext : next a with
      | none =>
        rw [hnext] at hrest
        exact absurd ((Links.eq_nil_iff hrest).mpr rfl) (by simp)
      | some c =>
        rw [hnext] at hrest
        have hne : c ≠ t := by
          rintro rfl
          -- The chain from the target on would be shorter than itself.
          obtain ⟨r, -, hz, ht, hl'⟩ := links_append.mp hrest
          have htail : Links next (some c) (c :: l') none := ⟨rfl, hl'⟩
          have := congrArg List.length (hrest.unique htail)
          simp only [List.length_append, List.length_cons] at this
          omega
        simp only [findBefore, hnext, if_neg hne]
        exact ih hrest (Nat.lt_of_succ_lt_succ hfuel)

theorem findBefore_absent {fuel : Nat} (h : Links next (next a) l none) (ht : t ∉ l) (hfuel : l.length < fuel) :
    findBefore next t fuel a = some none := by
  induction fuel generalizing a l with
  | zero => exact absurd hfuel (Nat.not_lt_zero _)
  | succ fuel ih =>
    cases l with
    | nil =>
      have hnext : next a = none := h
      simp [findBefore, hnext]
    | cons b l =>
      obtain ⟨hb, hrest⟩ := h
      have hne : b ≠ t := fun heq => ht (heq ▸ List.mem_cons_self)
      simp only [findBefore, hb, if_neg hne]
      exact ih hrest (fun hmem => ht (List.mem_cons_of_mem _ hmem)) (Nat.lt_of_succ_lt_succ hfuel)

/-! ### Writes -/

/-- A cell is put behind the last one. -/
theorem Links.push (h : Links next p (l ++ [z]) none) (hb : b ∉ l ++ [z]) (hnull : next b = none) :
    Links (Function.update next z (some b)) p (l ++ [z, b]) none := by
  have hz : z ∉ l := by
    have := h.nodup
    simp only [List.nodup_append, List.mem_singleton] at this
    exact fun hmem => this.2.2 z hmem z rfl rfl
  have hne : b ≠ z := fun heq => hb (by simp [heq])
  obtain ⟨hl, -⟩ := links_snoc.mp h
  rw [links_append]
  refine ⟨some z, hl.update hz _, rfl, ?_, ?_⟩
  · rw [Function.update_self]
  · rw [Function.update_of_ne hne, hnull]
    rfl

/-- A cell is put behind another one. -/
theorem Links.insert (h : Links next p (l ++ z :: l') q) (hz : z ∉ l ++ l') (hb : b ∉ l ++ z :: l') :
    Links (Function.update (Function.update next b (next z)) z (some b)) p (l ++ z :: b :: l') q := by
  obtain ⟨r, hl, rfl, hl'⟩ := links_append.mp h
  simp only [List.mem_append, List.mem_cons, not_or] at hz hb
  rw [links_append]
  refine ⟨some z, (hl.update hb.1 _).update hz.1 _, rfl, ?_, ?_⟩
  · rw [Function.update_self]
  · rw [Function.update_of_ne hb.2.1, Function.update_self]
    exact (hl'.update hb.2.2 _).update hz.2 _

/-- A cell is left out. -/
theorem Links.unlink (h : Links next p (l ++ z :: t :: l') q) (hz : z ∉ l ++ l') :
    Links (Function.update next z (next t)) p (l ++ z :: l') q := by
  obtain ⟨r, hl, rfl, ht, hl'⟩ := links_append.mp h
  rw [links_append]
  refine ⟨some z, hl.update (fun hmem => hz (List.mem_append_left _ hmem)) _, rfl, ?_⟩
  rw [Function.update_self]
  exact hl'.update (fun hmem => hz (List.mem_append_right _ hmem)) _

end Links

end Reading.Lib
