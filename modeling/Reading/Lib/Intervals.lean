import Mathlib.Data.List.Basic
import Mathlib.Data.List.TakeWhile

/-!
# Queues of intervals

A queue holds items that each cover an interval, ordered by where they begin. A new item goes behind those that begin no later; what the one before it covers is cut off its front, and what it covers of those behind it is cut off theirs. `Ops` says where an item begins, how long it is and how its front is cut off, which need not be exact: an order is kept as long as the cuts that are made are.
-/

namespace Reading.Lib.Interval

structure Ops (φ : Type) where
  off : φ → Int
  len : φ → Int
  trim : φ → Int → φ

variable {φ ψ : Type}

namespace Ops

variable (o : Ops φ)

/-- Where an item ends. -/
def stop (x : φ) : Int := o.off x + o.len x

/-- Cut off what the item before covers; `none` if that is all of it. -/
def trimByPrev (prev? : Option φ) (f : φ) : Option φ :=
  match prev? with
  | none => some f
  | some q =>
    let i := o.off q + o.len q - o.off f
    if i > 0 then if i ≥ o.len f then none else some (o.trim f i)
    else some f

/-- Cut off what `f` covers, or leave out the items that it covers. -/
def trimSucc (f : φ) : List φ → List φ
  | [] => []
  | q :: qs =>
    if o.off f + o.len f > o.off q then
      let i := o.off f + o.len f - o.off q
      if i < o.len q then o.trim q i :: qs
      else trimSucc f qs
    else q :: qs

/-- Put an item in its place; `none` if all of it is there. -/
def insert (qs : List φ) (f : φ) : Option (List φ) :=
  let before := qs.takeWhile fun q => ¬ o.off q > o.off f
  let after := qs.dropWhile fun q => ¬ o.off q > o.off f
  (o.trimByPrev before.getLast? f).map fun f => before ++ f :: o.trimSucc f after

/-- Where the items end that begin at `next` and follow one another. -/
def contiguous (next : Int) : List φ → Option Int
  | [] => some next
  | q :: qs => if o.off q ≠ next then none else contiguous (next + o.len q) qs

end Ops

/-! ### Items seen another way -/

/-- A view of items that keeps their intervals and commutes with a cut. -/
structure Hom (o : Ops φ) (o' : Ops ψ) (g : φ → ψ) : Prop where
  off : ∀ x, o'.off (g x) = o.off x
  len : ∀ x, o'.len (g x) = o.len x
  trim : ∀ x i, g (o.trim x i) = o'.trim (g x) i

section Hom

variable {o : Ops φ} {o' : Ops ψ} {g : φ → ψ}

theorem Hom.trimByPrev (h : Hom o o' g) (prev? : Option φ) (f : φ) :
    (o.trimByPrev prev? f).map g = o'.trimByPrev (prev?.map g) (g f) := by
  cases prev? with
  | none => rfl
  | some q =>
    simp only [Option.map_some, Ops.trimByPrev, h.off, h.len]
    split
    · split
      · rfl
      · rw [Option.map_some, h.trim]
    · rfl

theorem Hom.trimSucc (h : Hom o o' g) (f : φ) (qs : List φ) : (o.trimSucc f qs).map g = o'.trimSucc (g f) (qs.map g) := by
  induction qs with
  | nil => rfl
  | cons q qs ih =>
    simp only [List.map_cons, Ops.trimSucc, h.off, h.len]
    split
    · split
      · rw [List.map_cons, h.trim]
      · exact ih
    · rfl

theorem Hom.insert (h : Hom o o' g) (qs : List φ) (f : φ) : (o.insert qs f).map (List.map g) = o'.insert (qs.map g) (g f) := by
  unfold Ops.insert
  have hpred : ((fun q => decide (¬o'.off q > o'.off (g f))) ∘ g) = fun q => decide (¬o.off q > o.off f) := by
    funext q
    simp only [Function.comp_apply, h.off]
  dsimp only
  rw [List.takeWhile_map, List.dropWhile_map, hpred, List.getLast?_map, ← h.trimByPrev, Option.map_map, Option.map_map]
  congr 1
  funext x
  simp only [Function.comp_apply, List.map_append, List.map_cons, h.trimSucc]

theorem Hom.contiguous (h : Hom o o' g) (next : Int) (qs : List φ) : o.contiguous next qs = o'.contiguous next (qs.map g) := by
  induction qs generalizing next with
  | nil => rfl
  | cons q qs ih => simp only [List.map_cons, Ops.contiguous, h.off, h.len, ih]

end Hom

/-! ### What an insertion leaves -/

section Insert

variable {o : Ops φ} {f f' x : φ} {qs qs' : List φ}

theorem trimByPrev_eq {prev? : Option φ} (h : o.trimByPrev prev? f = some f') :
    (f' = f ∧ ∀ q, prev? = some q → o.stop q ≤ o.off f) ∨
      ∃ q, prev? = some q ∧ o.off f < o.stop q ∧ o.stop q < o.stop f ∧ f' = o.trim f (o.stop q - o.off f) := by
  cases prev? with
  | none => exact .inl ⟨(Option.some.inj h).symm, nofun⟩
  | some q =>
    rw [Ops.trimByPrev] at h
    unfold Ops.stop
    split at h
    · split at h
      · cases h
      · exact .inr ⟨q, rfl, by omega, by omega, (Option.some.inj h).symm⟩
    · refine .inl ⟨(Option.some.inj h).symm, fun r hr => ?_⟩
      obtain rfl := Option.some.inj hr
      omega

theorem mem_trimSucc (h : x ∈ o.trimSucc f qs) :
    x ∈ qs ∨ ∃ q ∈ qs, o.off q < o.stop f ∧ o.stop f < o.stop q ∧ x = o.trim q (o.stop f - o.off q) := by
  induction qs with
  | nil => cases h
  | cons r rs ih =>
    rw [Ops.trimSucc] at h
    dsimp only at h
    unfold Ops.stop
    split at h
    · split at h
      · rcases List.mem_cons.mp h with rfl | hmem
        · exact .inr ⟨r, List.mem_cons_self, by omega, by omega, rfl⟩
        · exact .inl (List.mem_cons_of_mem r hmem)
      · rcases ih h with hmem | ⟨q, hq, hcut⟩
        · exact .inl (List.mem_cons_of_mem r hmem)
        · exact .inr ⟨q, List.mem_cons_of_mem r hq, hcut⟩
    · exact .inl h

/-- An insertion puts the item, cut or not, between the two parts of the queue. -/
theorem insert_eq (h : o.insert qs f = some qs') : ∃ before after f', qs = before ++ after ∧
    (∀ q ∈ before, o.off q ≤ o.off f) ∧ (∀ q ∈ after.head?, o.off f < o.off q) ∧
    o.trimByPrev before.getLast? f = some f' ∧ qs' = before ++ f' :: o.trimSucc f' after := by
  obtain ⟨f', hf', rfl⟩ := Option.map_eq_some_iff.mp h
  refine ⟨_, _, f', List.takeWhile_append_dropWhile.symm, fun q hq => ?_, fun q hq => ?_, hf', rfl⟩
  · have := List.mem_takeWhile_imp hq
    simp only [decide_eq_true_eq] at this
    omega
  · have := List.head?_dropWhile_not (fun q => decide (¬o.off q > o.off f)) qs
    rw [hq] at this
    simp only [decide_eq_false_iff_not] at this
    omega

/-- The first item of a queue is never cut: it is the one that was there, or the new one as it came. -/
theorem insert_head? (h : o.insert qs f = some qs') : qs'.head? = qs.head? ∨ qs'.head? = some f := by
  obtain ⟨before, after, f', rfl, -, -, hf', rfl⟩ := insert_eq h
  cases before with
  | nil => exact .inr (congrArg some (Option.some.inj hf').symm)
  | cons b before => exact .inl rfl

end Insert

/-! ### Order -/

namespace Ops

variable (o : Ops φ)

/-- The items follow one another and do not overlap. -/
def Ordered (qs : List φ) : Prop := qs.Pairwise fun a b => o.off a < o.off b ∧ o.stop a ≤ o.off b

/-- A cut of `i` from the front of `x` is what it says. -/
def Exact (x : φ) (i : Int) : Prop := o.off (o.trim x i) = o.off x + i ∧ o.len (o.trim x i) = o.len x - i

theorem Exact.stop {o : Ops φ} {x : φ} {i : Int} (h : o.Exact x i) : o.stop (o.trim x i) = o.stop x := by
  unfold Ops.stop
  have hoff := h.1
  have hlen := h.2
  omega

end Ops

section Order

variable {o : Ops φ} {f : φ} {qs qs' : List φ}

theorem ordered_cons_iff {q : φ} : o.Ordered (q :: qs) ↔ (∀ r ∈ qs, o.off q < o.off r ∧ o.stop q ≤ o.off r) ∧ o.Ordered qs :=
  List.pairwise_cons

/-- An item that begins before a queue, and what it leaves of it. -/
theorem trimSucc_ordered (h : o.Ordered qs) (hlen : ∀ q ∈ qs, 0 ≤ o.len q) (hnew : 0 ≤ o.len f)
    (hbefore : ∀ q ∈ qs, o.off f < o.off q ∨ o.off f = o.off q ∧ 0 < o.len f)
    (hexact : ∀ q ∈ qs, o.off q < o.stop f → o.stop f < o.stop q → o.Exact q (o.stop f - o.off q)) :
    o.Ordered (f :: o.trimSucc f qs) ∧ ∀ q ∈ o.trimSucc f qs, 0 ≤ o.len q := by
  induction qs with
  | nil => exact ⟨List.pairwise_singleton _ _, nofun⟩
  | cons q qs ih =>
    have hq := hbefore q List.mem_cons_self
    have hqlen := hlen q List.mem_cons_self
    obtain ⟨hqs, hrest⟩ := ordered_cons_iff.mp h
    rw [Ops.trimSucc]
    by_cases hover : o.off f + o.len f > o.off q
    · rw [if_pos hover]
      by_cases hcut : o.off f + o.len f - o.off q < o.len q
      · have hcutq := hexact q List.mem_cons_self hover (by unfold Ops.stop; omega)
        have hstop := hcutq.stop
        obtain ⟨hoff, hqlen'⟩ := hcutq
        rw [if_pos hcut]
        unfold Ops.stop at *
        refine ⟨?_, ?_⟩
        · rw [ordered_cons_iff, ordered_cons_iff, List.forall_mem_cons]
          unfold Ops.stop
          refine ⟨⟨⟨by omega, by omega⟩, fun r hr => ?_⟩, fun r hr => ?_, hrest⟩
          · have := hqs r hr
            omega
          · have := hqs r hr
            omega
        · rw [List.forall_mem_cons]
          exact ⟨by omega, fun r hr => hlen r (List.mem_cons_of_mem _ hr)⟩
      · rw [if_neg hcut]
        exact ih hrest (fun r hr => hlen r (List.mem_cons_of_mem _ hr)) (fun r hr => hbefore r (List.mem_cons_of_mem _ hr))
          fun r hr => hexact r (List.mem_cons_of_mem _ hr)
    · rw [if_neg hover]
      refine ⟨ordered_cons_iff.mpr ⟨fun r hr => ?_, h⟩, hlen⟩
      unfold Ops.stop at *
      rcases List.mem_cons.mp hr with rfl | hr
      · omega
      · have := hqs r hr
        omega

/-- All items behind the place of the new one begin after it. -/
theorem lt_of_head {before after : List φ} (h : o.Ordered (before ++ after)) (hafter : ∀ q ∈ after.head?, o.off f < o.off q) :
    ∀ q ∈ after, o.off f < o.off q := by
  have ha := (List.pairwise_append.mp h).2.1
  cases after with
  | nil => nofun
  | cons a as =>
    have hfirst := hafter a rfl
    intro q hq
    rcases List.mem_cons.mp hq with rfl | hq
    · exact hfirst
    · exact Int.lt_trans hfirst ((ordered_cons_iff.mp ha).1 q hq).1

/-- What is in the queue after an insertion. -/
theorem mem_insert (h : o.Ordered qs)
    (hfront : ∀ q ∈ qs, o.off q ≤ o.off f → o.off f < o.stop q → o.stop q < o.stop f → o.Exact f (o.stop q - o.off f))
    (hins : o.insert qs f = some qs') {x : φ} (hx : x ∈ qs') :
    x ∈ qs ∨ x = f ∨ (∃ q ∈ qs, o.off q ≤ o.off f ∧ o.off f < o.stop q ∧ o.stop q < o.stop f ∧ x = o.trim f (o.stop q - o.off f)) ∨
      ∃ q ∈ qs, o.off f < o.off q ∧ o.off q < o.stop f ∧ o.stop f < o.stop q ∧ x = o.trim q (o.stop f - o.off q) := by
  obtain ⟨before, after, f', rfl, hbefore, hafter, hf', rfl⟩ := insert_eq hins
  have hafter' := lt_of_head h hafter
  obtain ⟨hstop, hnew⟩ : o.stop f' = o.stop f ∧ (f' = f ∨ ∃ q ∈ before ++ after, o.off q ≤ o.off f ∧ o.off f < o.stop q ∧
      o.stop q < o.stop f ∧ f' = o.trim f (o.stop q - o.off f)) := by
    rcases trimByPrev_eq hf' with ⟨rfl, -⟩ | ⟨q, hq, hlt, hcut, rfl⟩
    · exact ⟨rfl, .inl rfl⟩
    · have hqmem := List.mem_of_getLast? hq
      have hqall := List.mem_append_left after hqmem
      exact ⟨(hfront q hqall (hbefore q hqmem) hlt hcut).stop, .inr ⟨q, hqall, hbefore q hqmem, hlt, hcut, rfl⟩⟩
  rcases List.mem_append.mp hx with hx | hx
  · exact .inl (List.mem_append_left _ hx)
  · rcases List.mem_cons.mp hx with rfl | hx
    · exact .inr (hnew.imp_right .inl)
    · rcases mem_trimSucc hx with hx | ⟨q, hq, hlt, hcut, rfl⟩
      · exact .inl (List.mem_append_right _ hx)
      · rw [hstop] at hlt hcut ⊢
        exact .inr (.inr (.inr ⟨q, List.mem_append_right _ hq, hafter' q hq, hlt, hcut, rfl⟩))

/-- An insertion keeps the order, if the cuts that it makes are exact and there is no empty item where the new one begins. -/
theorem insert_ordered (h : o.Ordered qs) (hlen : ∀ q ∈ qs, 0 ≤ o.len q) (hnew : 0 ≤ o.len f)
    (hempty : ∀ q ∈ qs, o.off q = o.off f → 0 < o.len q)
    (hfront : ∀ q ∈ qs, o.off q ≤ o.off f → o.off f < o.stop q → o.stop q < o.stop f → o.Exact f (o.stop q - o.off f))
    (hback : ∀ q ∈ qs, o.off f < o.off q → o.off q < o.stop f → o.stop f < o.stop q → o.Exact q (o.stop f - o.off q))
    (hins : o.insert qs f = some qs') : o.Ordered qs' ∧ ∀ q ∈ qs', 0 ≤ o.len q := by
  obtain ⟨before, after, f', rfl, hbefore, hafter, hf', rfl⟩ := insert_eq hins
  rw [List.forall_mem_append] at hlen hempty hfront hback
  obtain ⟨hb, ha, hba⟩ := List.pairwise_append.mp h
  have hafter' := lt_of_head h hafter
  -- the items before end where the last of them does, at most
  have hends : ∀ q, before.getLast? = some q → ∀ b ∈ before, b = q ∨ o.off b < o.off q ∧ o.stop b ≤ o.off q := by
    intro q hq b hmem
    obtain ⟨l, rfl⟩ := List.getLast?_eq_some_iff.mp hq
    rcases List.mem_append.mp hmem with hl | hl
    · exact .inr ((List.pairwise_append.mp hb).2.2 b hl q (List.mem_singleton.mpr rfl))
    · exact .inl (List.mem_singleton.mp hl)
  have hnew' : 0 ≤ o.len f' ∧ o.stop f' = o.stop f ∧ (∀ b ∈ before, o.off b < o.off f' ∧ o.stop b ≤ o.off f') ∧
      ∀ q ∈ after, o.off f' < o.off q ∨ o.off f' = o.off q ∧ 0 < o.len f' := by
    rcases trimByPrev_eq hf' with ⟨rfl, hprev⟩ | ⟨q, hq, hlt, hcut, rfl⟩
    · refine ⟨hnew, rfl, fun b hmem => ?_, fun q hq => .inl (hafter' q hq)⟩
      obtain ⟨q, hq⟩ : ∃ q, before.getLast? = some q := by
        rw [← Option.isSome_iff_exists, List.getLast?_isSome]
        exact List.ne_nil_of_mem hmem
      have hqmem := List.mem_of_getLast? hq
      have hstop := hprev q hq
      have hoff := hbefore q hqmem
      have hsize := hempty.1 q hqmem
      unfold Ops.stop at *
      rcases hends q hq b hmem with rfl | ⟨hless, hle⟩
      · omega
      · omega
    · have hqmem := List.mem_of_getLast? hq
      have hexact := hfront.1 q hqmem (hbefore q hqmem) hlt hcut
      have hstop := hexact.stop
      have hqlen := hlen.1 q hqmem
      obtain ⟨hoff, hlen'⟩ := hexact
      unfold Ops.stop at *
      refine ⟨by omega, hstop, fun b hmem => ?_, fun r hr => ?_⟩
      · have := hbefore b hmem
        rcases hends q hq b hmem with rfl | ⟨hless, hle⟩ <;> omega
      · have := (hba q hqmem r hr).2
        omega
  obtain ⟨hlen', hstop', hleft, hright⟩ := hnew'
  obtain ⟨hordered, hlens⟩ := trimSucc_ordered ha hlen.2 hlen' hright (by
    rw [hstop']
    exact fun q hq => hback.2 q hq (hafter' q hq))
  refine ⟨List.pairwise_append.mpr ⟨hb, hordered, fun b hmem x hx => ?_⟩, ?_⟩
  · rcases List.mem_cons.mp hx with rfl | hx
    · exact hleft b hmem
    · have hbf := hleft b hmem
      have hfx := ((ordered_cons_iff.mp hordered).1 x hx).1
      exact ⟨Int.lt_trans hbf.1 hfx, Int.le_of_lt (Int.lt_of_le_of_lt hbf.2 hfx)⟩
  · rw [List.forall_mem_append, List.forall_mem_cons]
    exact ⟨hlen.1, hlen', hlens⟩

/-- Items that follow one another cover everything up to where they end. -/
theorem contiguous_covers {next n : Int} (h : o.contiguous next qs = some n) (hlen : ∀ q ∈ qs, 0 ≤ o.len q) :
    next ≤ n ∧ (∀ x, next ≤ x → x < n → ∃ q ∈ qs, o.off q ≤ x ∧ x < o.stop q) ∧ ∀ q ∈ qs, next ≤ o.off q ∧ o.stop q ≤ n := by
  induction qs generalizing next with
  | nil =>
    obtain rfl : next = n := Option.some.inj h
    exact ⟨Int.le_refl _, fun x hle hlt => absurd hlt (Int.not_lt.mpr hle), nofun⟩
  | cons q qs ih =>
    rw [Ops.contiguous] at h
    split at h
    · cases h
    next hoff =>
      rw [not_ne_iff] at hoff
      have hqlen := hlen q List.mem_cons_self
      obtain ⟨hle, hcover, hwithin⟩ := ih h fun r hr => hlen r (List.mem_cons_of_mem _ hr)
      refine ⟨by omega, fun x hx hlt => ?_, fun r hr => ?_⟩
      · by_cases hin : x < next + o.len q
        · exact ⟨q, List.mem_cons_self, by omega, by unfold Ops.stop; omega⟩
        · obtain ⟨r, hr, hrange⟩ := hcover x (Int.not_lt.mp hin) hlt
          exact ⟨r, List.mem_cons_of_mem _ hr, hrange⟩
      · unfold Ops.stop at *
        rcases List.mem_cons.mp hr with rfl | hr
        · omega
        · have := hwithin r hr
          omega

/-- They end where the last of them does. -/
theorem contiguous_last {next n : Int} {q : φ} (h : o.contiguous next qs = some n) (hq : qs.getLast? = some q) : o.stop q = n := by
  induction qs generalizing next with
  | nil => cases hq
  | cons r rs ih =>
    rw [Ops.contiguous] at h
    split at h
    · cases h
    next hoff =>
      cases rs with
      | nil =>
        obtain rfl : r = q := Option.some.inj hq
        rw [Ops.stop, not_ne_iff.mp hoff]
        exact Option.some.inj h
      | cons r' rs => exact ih h hq

end Order

end Reading.Lib.Interval
