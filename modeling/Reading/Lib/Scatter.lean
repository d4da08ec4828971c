import Reading.Lib.Chain

/-!
# Chained scatter tables with Brent's variation

Every cell of such a table may hold a key and a link to another cell. A key has a home cell, and a search goes from there along the links. A cell whose key is not in its home is on the chain of its home, whose own key is at home: so a newcomer to an occupied home either goes behind the key that lives there or sends the stranger it finds there to a free cell. `Scattered` says this of a table, and the three ways in which a key comes into a table keep it. What a home's key is overwritten with does not matter to the other keys of its chain, which is why a cell whose entry was deleted can be taken over by a newcomer while it stands in the middle of someone else's chain.
-/

namespace Reading.Lib

variable {A K : Type}

/-- Keys are reached from their homes, and no stranger stands at the home of a key. -/
structure Scattered (home : K → A) (key : A → Option K) (next : A → Option A) : Prop where
  source : ∀ {a b}, next a = some b → key a ≠ none
  target : ∀ {a b}, next a = some b → key b ≠ none
  inj : ∀ {a a' b}, next a = some b → next a' = some b → a = a'
  ends : ∀ a, ∃ l, Links next (some a) l none
  reach : ∀ {a k}, key a = some k → ∃ l, Links next (some (home k)) l (some a)
  placed : ∀ {a k}, key a = some k → ∃ k', key (home k) = some k' ∧ home k' = home k
  unique : ∀ {a b k}, key a = some k → key b = some k → a = b

section Scattered

variable {home : K → A} {key : A → Option K} {next : A → Option A} {k k₀ : K} {n prev : A}

theorem scattered_empty : Scattered home (fun _ => none) (fun _ => none) := by
  constructor
  case ends => exact fun a => ⟨[a], rfl, rfl⟩
  all_goals simp

theorem Scattered.placed_used (h : Scattered home key next) {a : A} (ha : key a = some k) : key (home k) ≠ none := by
  obtain ⟨k', hk', -⟩ := h.placed ha
  simp [hk']

/-- A free cell is on no chain that begins elsewhere. -/
theorem Scattered.free_notMem (h : Scattered home key next) (hn : key n = none) {a : A} {l : List A} {q : Option A}
    (hl : Links next (some a) l q) (ha : a ≠ n) : n ∉ l := by
  induction l generalizing a with
  | nil => simp
  | cons b l ih =>
    obtain ⟨hb, hrest⟩ := hl
    obtain rfl : a = b := Option.some.inj hb
    rw [List.mem_cons, not_or]
    refine ⟨ha.symm, ?_⟩
    cases hnext : next a with
    | none =>
      rw [hnext] at hrest
      cases l with
      | nil => simp
      | cons c l => exact nomatch hrest.1
    | some c =>
      rw [hnext] at hrest
      exact ih hrest fun heq => h.target hnext (heq ▸ hn)

/-- No cell is linked to itself. -/
theorem Scattered.no_loop (h : Scattered home key next) {a : A} : next a ≠ some a := by
  intro hloop
  -- The chain from here on would begin with itself.
  obtain ⟨l, hl⟩ := h.ends a
  cases l with
  | nil => exact nomatch hl
  | cons b l =>
    obtain ⟨hb, hrest⟩ := hl
    cases hb
    rw [hloop] at hrest
    have hagain : Links next (some a) (a :: l) none := ⟨rfl, hloop ▸ hrest⟩
    have hlength := congrArg List.length (hagain.unique hrest)
    simp at hlength

/-- The cell a stranger is linked from, as the search from its own home finds it. -/
theorem Scattered.exists_before (h : Scattered home key next) {a : A} (ha : key a = some k) (hne : home k ≠ a) :
    ∃ (l l' : List A) (prev : A), Links next (some (home k)) (l ++ prev :: a :: l') none ∧ next prev = some a := by
  obtain ⟨l, hl⟩ := h.reach ha
  obtain ⟨l', hl'⟩ := h.ends a
  obtain rfl | ⟨l, prev, rfl⟩ := List.eq_nil_or_concat l
  · exact absurd (Option.some.inj hl) hne
  · rw [List.concat_eq_append, links_snoc] at hl
    cases l' with
    | nil => exact nomatch hl'
    | cons b l' =>
      obtain ⟨hb, hrest⟩ := hl'
      cases hb
      refine ⟨l, l', prev, ?_, hl.2⟩
      rw [links_append]
      exact ⟨some prev, hl.1, rfl, hl.2, hrest⟩

variable [DecidableEq A]

/-- A newcomer overwrites what its home holds. -/
theorem Scattered.put (h : Scattered home key next) (hfresh : ∀ a, key a ≠ some k) :
    Scattered home (Function.update key (home k) (some k)) next := by
  have hused : ∀ {a}, key a ≠ none → Function.update key (home k) (some k) a ≠ none := by
    intro a ha
    by_cases heq : a = home k
    · simp [heq]
    · rwa [Function.update_of_ne heq]
  have hold : ∀ {a k'}, Function.update key (home k) (some k) a = some k' → a = home k ∧ k' = k ∨ a ≠ home k ∧ key a = some k' := by
    intro a k' ha
    by_cases heq : a = home k
    · subst heq
      rw [Function.update_self] at ha
      exact .inl ⟨rfl, (Option.some.inj ha).symm⟩
    · rw [Function.update_of_ne heq] at ha
      exact .inr ⟨heq, ha⟩
  refine ⟨fun hab => hused (h.source hab), fun hab => hused (h.target hab), h.inj, h.ends, ?_, ?_, ?_⟩
  · intro a k' ha
    obtain ⟨rfl, rfl⟩ | ⟨-, ha⟩ := hold ha
    · exact ⟨[], rfl⟩
    · exact h.reach ha
  · intro a k' ha
    by_cases heq : home k' = home k
    · exact ⟨k, by rw [heq, Function.update_self], heq.symm⟩
    · obtain ⟨rfl, rfl⟩ | ⟨-, ha⟩ := hold ha
      · exact absurd rfl heq
      · rw [Function.update_of_ne heq]
        exact h.placed ha
  · intro a b k' ha hb
    obtain ⟨rfl, rfl⟩ | ⟨-, ha'⟩ := hold ha
    · obtain ⟨rfl, -⟩ | ⟨-, hb'⟩ := hold hb
      · rfl
      · exact absurd hb' (hfresh b)
    · obtain ⟨-, rfl⟩ | ⟨-, hb'⟩ := hold hb
      · exact absurd ha' (hfresh a)
      · exact h.unique ha' hb'

/-! ### Behind the key that lives there -/

/-- The links after a cell is put behind another one. -/
def linkBehind (next : A → Option A) (mp n : A) : A → Option A :=
  Function.update (Function.update next n (next mp)) mp (some n)

theorem Links.linkBehind {mp : A} {p q : Option A} {l : List A} (h : Links next p l q) (hn : n ∉ l) (hne : n ≠ mp) :
    ∃ l', Links (linkBehind next mp n) p l' q := by
  induction l generalizing p with
  | nil => exact ⟨[], h⟩
  | cons a l ih =>
    obtain ⟨rfl, hrest⟩ := h
    obtain ⟨l', hl'⟩ := ih hrest fun hmem => hn (List.mem_cons_of_mem _ hmem)
    have ha : a ≠ n := fun heq => hn (heq ▸ List.mem_cons_self)
    by_cases heq : a = mp
    · subst heq
      refine ⟨a :: n :: l', rfl, ?_, ?_⟩
      · rw [Lib.linkBehind, Function.update_self]
      · rw [Lib.linkBehind, Function.update_of_ne hne, Function.update_self]
        exact hl'
    · refine ⟨a :: l', rfl, ?_⟩
      rw [Lib.linkBehind, Function.update_of_ne heq, Function.update_of_ne ha]
      exact hl'

theorem linkBehind_eq_some {mp a b : A} (h : linkBehind next mp n a = some b) :
    a = mp ∧ b = n ∨ a ≠ mp ∧ a = n ∧ next mp = some b ∨ a ≠ mp ∧ a ≠ n ∧ next a = some b := by
  by_cases hmp : a = mp
  · subst hmp
    rw [linkBehind, Function.update_self] at h
    exact .inl ⟨rfl, (Option.some.inj h).symm⟩
  · rw [linkBehind, Function.update_of_ne hmp] at h
    by_cases hn : a = n
    · subst hn
      rw [Function.update_self] at h
      exact .inr (.inl ⟨hmp, rfl, h⟩)
    · rw [Function.update_of_ne hn] at h
      exact .inr (.inr ⟨hmp, hn, h⟩)

/-- A newcomer whose home is someone else's home too goes into a free cell behind it. -/
theorem Scattered.behind (h : Scattered home key next) (hfresh : ∀ a, key a ≠ some k) (hn : key n = none)
    (hmp : key (home k) = some k₀) (hk₀ : home k₀ = home k) :
    Scattered home (Function.update key n (some k)) (linkBehind next (home k) n) := by
  have hne : n ≠ home k := by
    rintro rfl
    simp [hn] at hmp
  have hused : ∀ {a}, key a ≠ none → Function.update key n (some k) a ≠ none := by
    intro a ha
    rwa [Function.update_of_ne]
    rintro rfl
    exact ha hn
  have hold : ∀ {a k'}, Function.update key n (some k) a = some k' → a = n ∧ k' = k ∨ a ≠ n ∧ key a = some k' := by
    intro a k' ha
    by_cases heq : a = n
    · subst heq
      rw [Function.update_self] at ha
      exact .inl ⟨rfl, (Option.some.inj ha).symm⟩
    · rw [Function.update_of_ne heq] at ha
      exact .inr ⟨heq, ha⟩
  have hmpUsed : key (home k) ≠ none := by simp [hmp]
  have hto : ∀ {a}, next a ≠ some n := fun ha => h.target ha hn
  constructor
  case source =>
    intro a b hab
    obtain ⟨rfl, -⟩ | ⟨-, rfl, -⟩ | ⟨-, -, hab⟩ := linkBehind_eq_some hab
    · exact hused hmpUsed
    · simp
    · exact hused (h.source hab)
  case target =>
    intro a b hab
    obtain ⟨-, rfl⟩ | ⟨-, -, hab⟩ | ⟨-, -, hab⟩ := linkBehind_eq_some hab
    · simp
    · exact hused (h.target hab)
    · exact hused (h.target hab)
  case inj =>
    intro a a' b hab hab'
    obtain ⟨rfl, rfl⟩ | ⟨-, rfl, hmpb⟩ | ⟨hamp, -, hnb⟩ := linkBehind_eq_some hab
    · obtain ⟨rfl, -⟩ | ⟨-, -, hmpb'⟩ | ⟨-, -, hnb'⟩ := linkBehind_eq_some hab'
      · rfl
      · exact absurd hmpb' hto
      · exact absurd hnb' hto
    · obtain ⟨-, rfl⟩ | ⟨-, rfl, -⟩ | ⟨hamp', -, hnb'⟩ := linkBehind_eq_some hab'
      · exact absurd hmpb hto
      · rfl
      · exact absurd (h.inj hnb' hmpb) hamp'
    · obtain ⟨-, rfl⟩ | ⟨-, rfl, hmpb'⟩ | ⟨-, -, hnb'⟩ := linkBehind_eq_some hab'
      · exact absurd hnb hto
      · exact absurd (h.inj hnb hmpb') hamp
      · exact h.inj hnb hnb'
  case ends =>
    intro a
    by_cases heq : a = n
    · subst heq
      obtain ⟨l, hl⟩ := h.ends (home k)
      have hnotMem := h.free_notMem hn hl (Ne.symm hne)
      cases l with
      | nil => exact nomatch hl
      | cons b l =>
        obtain ⟨hb, hrest⟩ := hl
        cases hb
        obtain ⟨l', hl'⟩ := hrest.linkBehind (fun hmem => hnotMem (List.mem_cons_of_mem _ hmem)) hne
        refine ⟨a :: l', rfl, ?_⟩
        rw [linkBehind, Function.update_of_ne hne, Function.update_self]
        exact hl'
    · obtain ⟨l, hl⟩ := h.ends a
      exact hl.linkBehind (h.free_notMem hn hl heq) hne
  case reach =>
    intro a k' ha
    obtain ⟨rfl, rfl⟩ | ⟨-, ha⟩ := hold ha
    · refine ⟨[home k'], rfl, ?_⟩
      rw [linkBehind, Function.update_self]
      rfl
    · obtain ⟨l, hl⟩ := h.reach ha
      refine hl.linkBehind (h.free_notMem hn hl fun heq => ?_) hne
      exact h.placed_used ha (heq ▸ hn)
  case placed =>
    intro a k' ha
    obtain ⟨-, rfl⟩ | ⟨-, ha⟩ := hold ha
    · exact ⟨k₀, by rw [Function.update_of_ne (Ne.symm hne), hmp], hk₀⟩
    · obtain ⟨k₁, hk₁, hhome⟩ := h.placed ha
      refine ⟨k₁, ?_, hhome⟩
      rw [Function.update_of_ne, hk₁]
      intro heq
      simp [heq, hn] at hk₁
  case unique =>
    intro a b k' ha hb
    obtain ⟨rfl, rfl⟩ | ⟨-, ha'⟩ := hold ha
    · obtain ⟨rfl, -⟩ | ⟨-, hb'⟩ := hold hb
      · rfl
      · exact absurd hb' (hfresh b)
    · obtain ⟨-, rfl⟩ | ⟨-, hb'⟩ := hold hb
      · exact absurd ha' (hfresh a)
      · exact h.unique ha' hb'

/-! ### In the place of a stranger -/

/-- The links after a stranger moves from `mp` to `n`. -/
def relink (next : A → Option A) (prev mp n : A) : A → Option A :=
  Function.update (Function.update (Function.update next prev (some n)) n (next mp)) mp none

/-- Where a cell's content is after the move. -/
def moved (mp n a : A) : A := if a = mp then n else a

theorem moved_of_ne {mp a : A} (h : a ≠ mp) : moved mp n a = a := if_neg h

@[simp] theorem moved_self (mp : A) : moved mp n mp = n := if_pos rfl

section Displace

variable {mp : A} (hprev : next prev = some mp) (hinj : ∀ {a}, next a = some mp → a = prev) (hself : next mp ≠ some mp)

include hprev hinj hself

theorem relink_moved {a : A} (han : a ≠ n) (hmn : mp ≠ n) : relink next prev mp n (moved mp n a) = (next a).map (moved mp n) := by
  have hmp : ∀ {b}, next b ≠ some mp → (next b).map (moved mp n) = next b := by
    intro b hb
    cases hnext : next b with
    | none => rfl
    | some c => simp [moved_of_ne (show c ≠ mp from fun heq => hb (by rw [hnext, heq]))]
  by_cases ha : a = mp
  · subst ha
    rw [moved_self, relink, Function.update_of_ne (Ne.symm hmn), Function.update_self, hmp hself]
  · rw [moved_of_ne ha, relink, Function.update_of_ne ha, Function.update_of_ne han]
    by_cases hp : a = prev
    · subst hp
      simp [hprev]
    · rw [Function.update_of_ne hp, hmp fun heq => hp (hinj heq)]

theorem Links.relink {p q : Option A} {l : List A} (h : Links next p l q) (hn : n ∉ l) (hmn : mp ≠ n) :
    Links (relink next prev mp n) (p.map (moved mp n)) (l.map (moved mp n)) (q.map (moved mp n)) := by
  induction l generalizing p with
  | nil =>
    obtain rfl : p = q := h
    rfl
  | cons a l ih =>
    obtain ⟨rfl, hrest⟩ := h
    refine ⟨rfl, ?_⟩
    rw [relink_moved hprev hinj hself (show a ≠ n from fun heq => hn (heq ▸ List.mem_cons_self)) hmn]
    exact ih hrest fun hmem => hn (List.mem_cons_of_mem _ hmem)

end Displace

theorem relink_eq_some {mp a b : A} (h : relink next prev mp n a = some b) :
    a ≠ mp ∧ a = n ∧ next mp = some b ∨ a ≠ mp ∧ a ≠ n ∧ a = prev ∧ b = n ∨ a ≠ mp ∧ a ≠ n ∧ a ≠ prev ∧ next a = some b := by
  by_cases hmp : a = mp
  · subst hmp
    simp [relink] at h
  · rw [relink, Function.update_of_ne hmp] at h
    by_cases hn : a = n
    · subst hn
      rw [Function.update_self] at h
      exact .inl ⟨hmp, rfl, h⟩
    · rw [Function.update_of_ne hn] at h
      by_cases hp : a = prev
      · subst hp
        rw [Function.update_self] at h
        exact .inr (.inl ⟨hmp, hn, rfl, (Option.some.inj h).symm⟩)
      · rw [Function.update_of_ne hp] at h
        exact .inr (.inr ⟨hmp, hn, hp, h⟩)

/-- A newcomer takes its home from a stranger, which goes into a free cell. -/
theorem Scattered.displace (h : Scattered home key next) (hfresh : ∀ a, key a ≠ some k) (hn : key n = none)
    (hmp : key (home k) = some k₀) (hk₀ : home k₀ ≠ home k) (hprev : next prev = some (home k)) :
    Scattered home (Function.update (Function.update key n (some k₀)) (home k) (some k)) (relink next prev (home k) n) := by
  have hmn : home k ≠ n := by
    rintro rfl
    simp [hn] at hmp
  have hold : ∀ {a k'}, Function.update (Function.update key n (some k₀)) (home k) (some k) a = some k' →
      a = home k ∧ k' = k ∨ a ≠ home k ∧ a = n ∧ k' = k₀ ∨ a ≠ home k ∧ a ≠ n ∧ key a = some k' := by
    intro a k' ha
    by_cases heq : a = home k
    · subst heq
      rw [Function.update_self] at ha
      exact .inl ⟨rfl, (Option.some.inj ha).symm⟩
    · rw [Function.update_of_ne heq] at ha
      by_cases hane : a = n
      · subst hane
        rw [Function.update_self] at ha
        exact .inr (.inl ⟨heq, rfl, (Option.some.inj ha).symm⟩)
      · rw [Function.update_of_ne hane] at ha
        exact .inr (.inr ⟨heq, hane, ha⟩)
  have hused : ∀ {a}, key a ≠ none → Function.update (Function.update key n (some k₀)) (home k) (some k) a ≠ none := by
    intro a ha
    by_cases heq : a = home k
    · simp [heq]
    · rwa [Function.update_of_ne heq, Function.update_of_ne]
      rintro rfl
      exact ha hn
  have hself : next (home k) ≠ some (home k) := h.no_loop
  have hinj : ∀ {a}, next a = some (home k) → a = prev := fun ha => h.inj ha hprev
  have hto : ∀ {a}, next a ≠ some n := fun ha => h.target ha hn
  constructor
  case source =>
    intro a b hab
    obtain ⟨hne, rfl, -⟩ | ⟨-, -, rfl, -⟩ | ⟨-, -, -, hab⟩ := relink_eq_some hab
    · simp [Function.update_of_ne hne]
    · exact hused (h.source hprev)
    · exact hused (h.source hab)
  case target =>
    intro a b hab
    obtain ⟨-, -, hab⟩ | ⟨-, -, -, rfl⟩ | ⟨-, -, -, hab⟩ := relink_eq_some hab
    · exact hused (h.target hab)
    · simp [Function.update_of_ne (Ne.symm hmn)]
    · exact hused (h.target hab)
  case inj =>
    intro a a' b hab hab'
    obtain ⟨hamp, rfl, hmpb⟩ | ⟨-, -, rfl, rfl⟩ | ⟨hamp, -, -, hnb⟩ := relink_eq_some hab
    · obtain ⟨-, rfl, -⟩ | ⟨-, -, -, rfl⟩ | ⟨hamp', -, -, hnb'⟩ := relink_eq_some hab'
      · rfl
      · exact absurd hmpb hto
      · exact absurd (h.inj hnb' hmpb) hamp'
    · obtain ⟨-, -, hmpb'⟩ | ⟨-, -, rfl, -⟩ | ⟨-, -, -, hnb'⟩ := relink_eq_some hab'
      · exact absurd hmpb' hto
      · rfl
      · exact absurd hnb' hto
    · obtain ⟨-, -, hmpb'⟩ | ⟨-, -, -, rfl⟩ | ⟨-, -, -, hnb'⟩ := relink_eq_some hab'
      · exact absurd (h.inj hnb hmpb') hamp
      · exact absurd hnb hto
      · exact h.inj hnb hnb'
  case ends =>
    intro a
    by_cases hamp : a = home k
    · refine ⟨[a], rfl, ?_⟩
      simp [Links, relink, hamp]
    -- Every other cell's chain is the image of one from before.
    have hmoved : ∀ b, b ≠ n → ∃ l, Links (relink next prev (home k) n) (some (moved (home k) n b)) l none := by
      intro b hb
      obtain ⟨l, hl⟩ := h.ends b
      exact ⟨_, hl.relink hprev hinj hself (h.free_notMem hn hl hb) hmn⟩
    by_cases han : a = n
    · subst han
      have hl := hmoved (home k) hmn
      rwa [moved_self] at hl
    · have hl := hmoved a han
      rwa [moved_of_ne hamp] at hl
  case reach =>
    intro a k' ha
    have hmoved : ∀ {b}, key b = some k' → home k' ≠ home k →
        ∃ l, Links (relink next prev (home k) n) (some (home k')) l (some (moved (home k) n b)) := by
      intro b hb hne
      obtain ⟨l, hl⟩ := h.reach hb
      have hnotMem := h.free_notMem hn hl fun heq => h.placed_used hb (heq ▸ hn)
      have hlinks := hl.relink hprev hinj hself hnotMem hmn
      rw [Option.map_some, moved_of_ne hne] at hlinks
      exact ⟨_, hlinks⟩
    obtain ⟨rfl, rfl⟩ | ⟨-, rfl, rfl⟩ | ⟨hamp, -, hak⟩ := hold ha
    · exact ⟨[], rfl⟩
    · have hl := hmoved hmp hk₀
      rwa [moved_self] at hl
    · -- A stranger stood at `home k`, so no key lives there.
      have hne : home k' ≠ home k := by
        intro heq
        obtain ⟨k₁, hk₁, hhome⟩ := h.placed hak
        rw [heq, hmp] at hk₁
        cases hk₁
        exact hk₀ (hhome.trans heq)
      have hl := hmoved hak hne
      rwa [moved_of_ne hamp] at hl
  case placed =>
    intro a k' ha
    by_cases heq : home k' = home k
    · exact ⟨k, by rw [heq, Function.update_self], heq.symm⟩
    have hplaced : ∀ {b}, key b = some k' → ∃ k₁,
        Function.update (Function.update key n (some k₀)) (home k) (some k) (home k') = some k₁ ∧ home k₁ = home k' := by
      intro b hb
      obtain ⟨k₁, hk₁, hhome⟩ := h.placed hb
      refine ⟨k₁, ?_, hhome⟩
      rw [Function.update_of_ne heq, Function.update_of_ne, hk₁]
      intro hk
      simp [hk, hn] at hk₁
    obtain ⟨-, rfl⟩ | ⟨-, -, rfl⟩ | ⟨-, -, hak⟩ := hold ha
    · exact absurd rfl heq
    · exact hplaced hmp
    · exact hplaced hak
  case unique =>
    intro a b k' ha hb
    have hk₀ne : k₀ ≠ k := fun heq => hfresh _ (heq ▸ hmp)
    obtain ⟨rfl, rfl⟩ | ⟨-, rfl, rfl⟩ | ⟨hamp, -, hak⟩ := hold ha
    · obtain ⟨rfl, -⟩ | ⟨-, -, heq⟩ | ⟨-, -, hbk⟩ := hold hb
      · rfl
      · exact absurd heq.symm hk₀ne
      · exact absurd hbk (hfresh b)
    · obtain ⟨-, heq⟩ | ⟨-, rfl, -⟩ | ⟨hbmp, -, hbk⟩ := hold hb
      · exact absurd heq hk₀ne
      · rfl
      · exact absurd (h.unique hbk hmp) hbmp
    · obtain ⟨-, rfl⟩ | ⟨-, -, rfl⟩ | ⟨-, -, hbk⟩ := hold hb
      · exact absurd hak (hfresh a)
      · exact absurd (h.unique hak hmp) hamp
      · exact h.unique hak hbk

end Scattered

/-! ### Searches -/

section Search

variable {home : K → A} {key : A → Option K} {next : A → Option A} {k : K}

/-- The first cell of a chain that passes a test; the inner `none` is the end of the chain. -/
def searchFrom (next : A → Option A) (test : A → Bool) : Nat → A → Option (Option A)
  | 0, _ => none
  | fuel + 1, a =>
    if test a then some (some a)
    else
      match next a with
      | none => some none
      | some b => searchFrom next test fuel b

variable {test : A → Bool} {a b : A} {l l' : List A} {fuel : Nat}

theorem searchFrom_found (h : Links next (some a) l (some b)) (hl : ∀ c ∈ l, test c = false) (hb : test b = true)
    (hfuel : l.length < fuel) : searchFrom next test fuel a = some (some b) := by
  induction fuel generalizing a l with
  | zero => exact absurd hfuel (Nat.not_lt_zero _)
  | succ fuel ih =>
    cases l with
    | nil =>
      obtain rfl : a = b := Option.some.inj h
      simp [searchFrom, hb]
    | cons c l =>
      obtain ⟨hc, hrest⟩ := h
      obtain rfl : a = c := Option.some.inj hc
      have ha := hl a List.mem_cons_self
      cases hnext : next a with
      | none =>
        rw [hnext] at hrest
        cases l with
        | nil => exact nomatch hrest
        | cons d l => exact nomatch hrest.1
      | some d =>
        rw [hnext] at hrest
        simp only [searchFrom, ha, hnext, Bool.false_eq_true, if_false]
        exact ih hrest (fun c hc => hl c (List.mem_cons_of_mem _ hc)) (Nat.lt_of_succ_lt_succ hfuel)

theorem searchFrom_absent (h : Links next (some a) l none) (hl : ∀ c ∈ l, test c = false) (hfuel : l.length ≤ fuel) :
    searchFrom next test fuel a = some none := by
  induction fuel generalizing a l with
  | zero =>
    cases l with
    | nil => exact nomatch h
    | cons c l => exact absurd hfuel (Nat.not_succ_le_zero _)
  | succ fuel ih =>
    cases l with
    | nil => exact nomatch h
    | cons c l =>
      obtain ⟨hc, hrest⟩ := h
      obtain rfl : a = c := Option.some.inj hc
      have ha := hl a List.mem_cons_self
      simp only [searchFrom, ha, Bool.false_eq_true, if_false]
      cases hnext : next a with
      | none => rfl
      | some d =>
        rw [hnext] at hrest
        exact ih hrest (fun c hc => hl c (List.mem_cons_of_mem _ hc)) (Nat.le_of_succ_le_succ hfuel)

/-- Where the chain of a home passes by a cell, its end lies behind. -/
theorem Scattered.chain (h : Scattered home key next) (ha : key a = some k) :
    ∃ l l', Links next (some (home k)) (l ++ a :: l') none ∧ Links next (some (home k)) l (some a) := by
  obtain ⟨l, hl⟩ := h.reach ha
  obtain ⟨l', hl'⟩ := h.ends a
  cases l' with
  | nil => exact nomatch hl'
  | cons b l' =>
    obtain ⟨hb, hrest⟩ := hl'
    cases hb
    exact ⟨l, l', links_append.mpr ⟨some a, hl, rfl, hrest⟩, hl⟩

section Bounded

variable {s : Finset A} (hs : ∀ {c}, key c ≠ none → c ∈ s)

include hs

/-- A chain has no more cells than the table. -/
theorem Scattered.chain_subset (h : Scattered home key next) (hl : Links next (some a) l none) (ha : a ∈ s) :
    ∀ c ∈ l, c ∈ s := by
  induction l generalizing a with
  | nil => simp
  | cons b l ih =>
    obtain ⟨hb, hrest⟩ := hl
    obtain rfl : a = b := Option.some.inj hb
    rw [List.forall_mem_cons]
    refine ⟨ha, ?_⟩
    cases hnext : next a with
    | none =>
      rw [hnext] at hrest
      rw [hrest.eq_nil_iff.mpr rfl]
      simp
    | some c =>
      rw [hnext] at hrest
      exact ih hrest (hs (h.target hnext))

theorem Scattered.length_le (h : Scattered home key next) (hl : Links next (some a) l none) (ha : a ∈ s) :
    l.length ≤ s.card := by
  classical
  rw [← List.toFinset_card_of_nodup hl.nodup]
  apply Finset.card_le_card
  intro c hc
  exact h.chain_subset hs hl ha c (List.mem_toFinset.mp hc)

variable (htest : ∀ c, test c = true ↔ key c = some k) (hhome : home k ∈ s) (hfuel : s.card ≤ fuel)

include htest hhome hfuel

theorem Scattered.search_found (h : Scattered home key next) (ha : key a = some k) :
    searchFrom next test fuel (home k) = some (some a) := by
  obtain ⟨l, l', hchain, hl⟩ := h.chain ha
  have hlength := h.length_le hs hchain hhome
  rw [List.length_append, List.length_cons] at hlength
  apply searchFrom_found hl
  · intro c hc
    rw [← Bool.not_eq_true, htest]
    intro hck
    -- The key is in one cell only, and the chain comes by there once.
    cases h.unique hck ha
    have hnodup := hchain.nodup
    simp only [List.nodup_append, List.mem_cons] at hnodup
    exact hnodup.2.2 a hc a (.inl rfl) rfl
  · exact (htest a).mpr ha
  · omega

theorem Scattered.search_absent (h : Scattered home key next) (hfresh : ∀ c, key c ≠ some k) :
    searchFrom next test fuel (home k) = some none := by
  obtain ⟨l, hl⟩ := h.ends (home k)
  apply searchFrom_absent hl
  · intro c _
    rw [← Bool.not_eq_true, htest]
    exact hfresh c
  · exact (h.length_le hs hl hhome).trans hfuel

end Bounded

end Search

end Reading.Lib
