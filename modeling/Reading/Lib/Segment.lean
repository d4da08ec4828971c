import Mathlib.Data.Fintype.Card
import Mathlib.Logic.Function.Basic

/-!
# Linked lists in a memory

A memory maps addresses to cells, and a cell holds the address of the next one beside its contents. `Seg` says that following the links from `p` visits the cells of a list of addresses and contents and comes to `q`; a complete list ends at the null pointer. The links themselves are not part of the list, so changing one that leads nowhere in the segment changes nothing. Segments are cut and joined as lists are, and they do not notice a write outside of them. The addresses are a finite type, so a list without a repeated address is no longer than the memory.
-/

namespace Reading.Lib

variable {A α β : Type}

/-- The cells from the pointer `p` on up to the pointer `q`. -/
def Seg (next : α → Option A) (view : α → β) (mem : A → Option α) : Option A → List (A × β) → Option A → Prop
  | p, [], q => p = q
  | p, (a, b) :: cells, q => p = some a ∧ ∃ x, mem a = some x ∧ view x = b ∧ Seg next view mem (next x) cells q

/-- The addresses of the cells. -/
def addrs (cells : List (A × β)) : List A := cells.map Prod.fst

@[simp] theorem addrs_nil : addrs ([] : List (A × β)) = [] := rfl

@[simp] theorem addrs_cons (cell : A × β) (cells : List (A × β)) : addrs (cell :: cells) = cell.1 :: addrs cells := rfl

@[simp] theorem addrs_append (cells cells' : List (A × β)) : addrs (cells ++ cells') = addrs cells ++ addrs cells' :=
  List.map_append

@[simp] theorem length_addrs (cells : List (A × β)) : (addrs cells).length = cells.length := List.length_map _

section Segments

variable {next : α → Option A} {view : α → β} {mem mem' : A → Option α} {p q : Option A} {cells cells' : List (A × β)}
  {a : A} {b : β} {x : α}

theorem seg_append : Seg next view mem p (cells ++ cells') q
    ↔ ∃ r, Seg next view mem p cells r ∧ Seg next view mem r cells' q := by
  induction cells generalizing p with
  | nil => simp [Seg]
  | cons cell cells ih =>
    constructor
    · rintro ⟨hp, x, hx, hview, hrest⟩
      obtain ⟨r, hcells, hcells'⟩ := ih.mp hrest
      exact ⟨r, ⟨hp, x, hx, hview, hcells⟩, hcells'⟩
    · rintro ⟨r, ⟨hp, x, hx, hview, hcells⟩, hcells'⟩
      exact ⟨hp, x, hx, hview, ih.mpr ⟨r, hcells, hcells'⟩⟩

theorem Seg.append {r : Option A} (h : Seg next view mem p cells r) (h' : Seg next view mem r cells' q) :
    Seg next view mem p (cells ++ cells') q := seg_append.mpr ⟨r, h, h'⟩

theorem Seg.frame (h : Seg next view mem p cells q) (hmem : ∀ a ∈ addrs cells, mem' a = mem a) :
    Seg next view mem' p cells q := by
  induction cells generalizing p with
  | nil => exact h
  | cons cell cells ih =>
    obtain ⟨hp, x, hx, hview, hrest⟩ := h
    refine ⟨hp, x, ?_, hview, ih hrest fun a ha => hmem a (List.mem_cons_of_mem _ ha)⟩
    rw [hmem _ List.mem_cons_self, hx]

theorem Seg.update [DecidableEq A] (h : Seg next view mem p cells q) (ha : a ∉ addrs cells) (v : Option α) :
    Seg next view (Function.update mem a v) p cells q := by
  refine h.frame fun b hb => ?_
  rw [Function.update_of_ne]
  rintro rfl
  exact ha hb

/-- Rewriting a cell with a link and contents that look the same. -/
theorem Seg.rewrite [DecidableEq A] (h : Seg next view mem p cells q) (hx : mem a = some x) {x' : α}
    (hnext : next x' = next x) (hview : view x' = view x) : Seg next view (Function.update mem a (some x')) p cells q := by
  induction cells generalizing p with
  | nil => exact h
  | cons cell cells ih =>
    obtain ⟨hp, y, hy, hcell, hrest⟩ := h
    by_cases heq : cell.1 = a
    · subst heq
      rw [hx] at hy
      cases hy
      refine ⟨hp, x', Function.update_self .., hview.trans hcell, ?_⟩
      rw [hnext]
      exact ih hrest
    · refine ⟨hp, y, ?_, hcell, ih hrest⟩
      rw [Function.update_of_ne heq, hy]

theorem Seg.exists_mem (h : Seg next view mem p cells q) (hcell : (a, b) ∈ cells) : ∃ x, mem a = some x ∧ view x = b := by
  induction cells generalizing p with
  | nil => cases hcell
  | cons cell cells ih =>
    obtain ⟨_, x, hx, hview, hrest⟩ := h
    rcases List.mem_cons.mp hcell with rfl | hin
    · exact ⟨x, hx, hview⟩
    · exact ih hrest hin

theorem Seg.eq_nil (h : Seg next view mem none cells q) : cells = [] := by
  cases cells with
  | nil => rfl
  | cons cell cells => exact nomatch h.1

/-- A list that is not empty, cut before its last cell. -/
theorem seg_snoc : Seg next view mem p (cells ++ [(a, b)]) q
    ↔ Seg next view mem p cells (some a) ∧ ∃ x, mem a = some x ∧ view x = b ∧ next x = q := by
  rw [seg_append]
  constructor
  · rintro ⟨r, hcells, rfl, hx⟩
    exact ⟨hcells, hx⟩
  · rintro ⟨hcells, hx⟩
    exact ⟨some a, hcells, rfl, hx⟩

end Segments

theorem length_le_card [Fintype A] {cells : List (A × β)} (h : (addrs cells).Nodup) : cells.length ≤ Fintype.card A := by
  rw [← length_addrs]
  exact h.length_le_card

end Reading.Lib
