import Reading.Lua.Room

/-!
# Allocations that fail

With a budget of allocations the run of `newkey` ends at the first one that is not allowed, and leaves the table as it is at that point. A failure to make a new hash part loses the keys that the old one has in the range of an array part that has just grown: a lookup does not come to their nodes any more. Where the array part shrinks, every key has gone from the table while it is moved, and a rehash in the middle of the moves can fail.
-/

namespace Reading.Lua

variable {V : Values} {t t' t₀ tE : Table V} {k key : TValue V} {a b d i n size : Nat} {p : Slot}

/-- How a run ends early. -/
inductive Halt (V : Values) where
  | stop (e : Stop)
  /-- An allocation failed and left this table. -/
  | memory (t : Table V)

/-- A run with the number of allocations that do not fail yet. -/
abbrev Run (V : Values) : Type → Type := StateT Nat (Except (Halt V))

namespace Run

def lift {α : Type} (x : Except Stop α) : Run V α := fun b =>
  match x with
  | .ok a => .ok (a, b)
  | .error e => .error (.stop e)

def allocate (t : Table V) : Run V Unit := fun b =>
  match b with
  | 0 => .error (.memory t)
  | b + 1 => .ok ((), b)

end Run

/-- Allocations that fail when the budget is used up. -/
def budget : Host V (Run V) where
  lift := Run.lift
  allocate := Run.allocate

theorem Run.bind_eq {α β : Type} (x : Run V α) (f : α → Run V β) (b : Nat) :
    (x >>= f) b = match x b with
      | .ok (a, b') => f a b'
      | .error e => .error e := by
  cases hx : x b with
  | ok r =>
    obtain ⟨a, b'⟩ := r
    simp [bind, StateT.bind, Except.bind, hx]
  | error e => simp [bind, StateT.bind, Except.bind, hx]

theorem Run.bind_ok {α β : Type} {x : Run V α} {r : α} {b' : Nat} (f : α → Run V β) (hx : x b = .ok (r, b')) :
    (x >>= f) b = f r b' := by
  rw [Run.bind_eq, hx]

theorem Run.bind_error {α β : Type} {x : Run V α} {e : Halt V} (f : α → Run V β) (hx : x b = .error e) :
    (x >>= f) b = .error e := by
  rw [Run.bind_eq, hx]

/-- A run that does not fail to allocate does what the code does where nothing fails. -/
def Follows {α : Type} (x : Run V α) (y : Except Stop α) : Prop := ∀ b,
  match x b with
  | .ok (a, _) => y = .ok a
  | .error (.stop e) => y = .error e
  | .error (.memory _) => True

theorem related_follows : Host.Related (budget : Host V _) Host.plain Follows where
  pure _ _ := rfl
  lift x b := by
    cases x <;> rfl
  bind := by
    intro α β x x' f f' hx hf b
    rw [Run.bind_eq]
    have hb := hx b
    cases hxb : x b with
    | ok r =>
      rw [hxb] at hb
      rw [show x' = .ok r.1 from hb]
      exact hf r.1 r.2
    | error e =>
      rw [hxb] at hb
      cases e with
      | stop e =>
        rw [show x' = .error e from hb]
        rfl
      | memory t => trivial

/-- The only new way in which an insertion ends is that there is no memory. -/
theorem budget_newkey (d : Nat) (t : Table V) (k : TValue V) : Follows (budget.newkey d t k) (newkey d t k) := by
  rw [← Host.plain_newkey]
  refine related_follows.newkey (fun t b => ?_) d t k
  cases b with
  | zero => trivial
  | succ b => rfl

/-! ### Runs that do not allocate -/

/-- What a run does without an allocation on a budget of `b`, or it ends early in one of the ways `Bad`. -/
def budgetOutcome (b : Nat) (Bad : Halt V → Prop) : (budget : Host V _).Outcome where
  Returns x a := x b = .ok (a, b)
  Fails x := ∃ e, x b = .error e ∧ Bad e
  pure _ := rfl
  lift _ := rfl
  returns_bind hx hf := (Run.bind_ok _ hx).trans hf
  fails_bind hx hf := hf.imp fun _ he => he.imp_left (Run.bind_ok _ hx).trans
  bind_fails f hx := hx.imp fun _ he => he.imp_left (Run.bind_error f)

theorem budget_inserts (b : Nat) (Bad : Halt V → Prop) (inner : Host.Newkey V (Run V)) :
    (budgetOutcome b Bad).Inserts (budget.newkeyStep inner) := by
  intro t k h hk hplace hroom
  obtain ⟨t', p, hfree, hinserted⟩ | ⟨hfull, -⟩ := insertFree_cases h hk hplace
  · refine ⟨t', p, ?_, hinserted⟩
    rw [Host.newkeyStep, hfree]
    rfl
  · exact absurd hroom (Nat.not_lt.mpr hfull)

/-! ### How a run ends -/

/-- On any budget the run returns what satisfies `Q` or ends early in one of the ways `Bad`. -/
def Ends {α : Type} (x : Run V α) (Q : α → Prop) (Bad : Halt V → Prop) : Prop := ∀ b,
  match x b with
  | .ok (a, _) => Q a
  | .error e => Bad e

section Ends

variable {Bad : Halt V → Prop} {α β : Type} {Q : α → Prop} {Q' : β → Prop} {x : Run V α} {f : α → Run V β}

theorem Ends.bind (hx : Ends x Q Bad) (hf : ∀ a, Q a → Ends (f a) Q' Bad) : Ends (x >>= f) Q' Bad := by
  intro b
  rw [Run.bind_eq]
  have hb := hx b
  cases hxb : x b with
  | ok r =>
    rw [hxb] at hb
    exact hf r.1 hb r.2
  | error e =>
    rw [hxb] at hb
    exact hb

theorem ends_pure {a : α} (ha : Q a) : Ends (pure a : Run V α) Q Bad := fun _ => ha

/-- A run whose end is known on each budget. -/
theorem ends_of_outcome (h : ∀ b, (∃ a, (budgetOutcome b Bad).Returns x a ∧ Q a) ∨ (budgetOutcome b Bad).Fails x) :
    Ends x Q Bad := by
  intro b
  obtain ⟨a, hreturns, ha⟩ | ⟨e, hfails, he⟩ := h b
  · rw [show x b = .ok (a, b) from hreturns]
    exact ha
  · rw [hfails]
    exact he

variable (hstop : ∀ e, Bad (.stop e))

include hstop

theorem ends_lift {y : Except Stop α} (hy : ∀ {a}, y = .ok a → Q a) : Ends (budget.lift y) Q Bad := by
  intro b
  cases y with
  | ok a => exact hy rfl
  | error e => exact hstop e

/-- A resize ends where an allocation fails, or in the moves. -/
theorem resize_ends {inner : Host.Newkey V (Run V)} {Q : Table V → Prop} (harray : (growarray t n).ArrayOk)
    (hfirst : Bad (.memory t))
    (hgrown : t.sizearray < n → size ≠ 0 → ceillog2 size ≤ maxBits → Bad (.memory (growarray t n)))
    (hmoves : ∀ {fresh}, Fresh (growarray t n) fresh → fresh.capacity = nodesFor size →
      Ends (budget.reinsert inner t n fresh) Q Bad) : Ends (budget.resize inner t n size) Q Bad := by
  refine Ends.bind (Q := fun grown => grown = growarray t n) ?_ fun grown hgrow => ?_
  · rw [Host.growarray, growarray]
    by_cases hlt : t.sizearray < n
    · rw [if_pos hlt, if_pos hlt]
      rintro (- | b)
      · exact hfirst
      · rfl
    · rw [if_neg hlt, if_neg hlt]
      exact ends_pure rfl
  subst hgrow
  refine Ends.bind (Q := fun fresh => Fresh (growarray t n) fresh ∧ fresh.capacity = nodesFor size) ?_
    fun fresh hfresh => hmoves hfresh.1 hfresh.2
  have hlift : Ends (budget.lift (setnodevector (growarray t n) size))
      (fun fresh => Fresh (growarray t n) fresh ∧ fresh.capacity = nodesFor size) Bad := by
    refine ends_lift hstop fun {fresh} hfresh => ?_
    obtain ⟨fresh', hfresh', hempty⟩ | ⟨-, hover⟩ := setnodevector_spec harray size
    · cases hfresh.symm.trans hfresh'
      exact hempty
    · cases hfresh.symm.trans hover
  rw [Host.setnodevector]
  by_cases hsize : size = 0 ∨ maxBits < ceillog2 size
  · rw [if_pos hsize]
    exact hlift
  rw [if_neg hsize]
  refine Ends.bind (Q := fun _ => True) ?_ fun _ _ => hlift
  rintro (- | b)
  · rw [not_or, Nat.not_lt] at hsize
    by_cases hlt : t.sizearray < n
    · exact hgrown hlt hsize.1 hsize.2
    · rw [growarray, if_neg hlt]
      exact hfirst
  · trivial

end Ends

theorem budget_rehash_eq (inner : Host.Newkey V (Run V)) (h : Valid t) (hplace : t.place k = .nilobject)
    (hbest : Best (rehashInts t k) n) : budget.rehash inner t k = budget.resize inner t n (outsiders t k n) := by
  obtain ⟨m, hbest', hsizes, htotal⟩ := h.computesizes_eq hplace
  obtain rfl := hbest'.unique hbest
  change (budget.lift (computesizes (countint k t.use.nums).1 (t.use.ause + (countint k t.use.nums).2)) >>= fun sizes =>
    budget.resize inner t sizes.1 (t.use.totaluse + 1 - sizes.2)) = _
  rw [hsizes, htotal, ← nhsize_eq t k hbest.le]
  rfl

section Newkey

variable {Bad : Halt V → Prop} (hstop : ∀ e, Bad (.stop e))

include hstop

/-- A new key is put into a free node, or what follows is a rehash. -/
theorem newkeyStep_ends {inner : Host.Newkey V (Run V)} (h : Valid t) (hk : k ≠ .nil) (hplace : t.place k = .nilobject)
    (hfull : Valid t.exhausted → Ends (budget.rehash inner t.exhausted k >>= fun t => budget.luaHSet inner t k) (fun _ => True) Bad) :
    Ends (budget.newkeyStep inner t k) (fun _ => True) Bad := by
  rw [Host.newkeyStep]
  obtain ⟨t', p, hfree, -⟩ | ⟨-, hexhausted, hfree⟩ := insertFree_cases h hk hplace
  · rw [hfree]
    exact ends_lift hstop fun _ => trivial
  · rw [hfree]
    exact hfull hexhausted

/-- Where the array part does not shrink only the two allocations of the rehash can fail. -/
theorem newkey_grow_ends (d : Nat) (h : Valid t) (hk : k ≠ .nil) (hplace : t.place k = .nilobject)
    (hbest : Best (rehashInts t k) n) (hle : t.sizearray ≤ n) (hfirst : Valid t.exhausted → Bad (.memory t.exhausted))
    (hgrown : t.sizearray < n → outsiders t k n ≠ 0 → ceillog2 (outsiders t k n) ≤ maxBits →
      Bad (.memory (growarray t.exhausted n))) : Ends (budget.newkey (d + 2) t k) (fun _ => True) Bad := by
  refine newkeyStep_ends hstop h hk hplace fun hexhausted => ?_
  have hmax : n < 2 ^ 31 := hbest.le.trans_lt (by decide)
  have hsize := nhsize_le h k n
  rw [nhsize_eq t k hbest.le] at hsize
  have hroom : outsideBelow t.exhausted n t.exhausted.sizenode + extraRoom k n ≤ outsiders t.exhausted k n := by
    rw [outsiders]
    omega
  rw [← rehashInts_exhausted] at hbest
  rw [budget_rehash_eq _ hexhausted hplace hbest, outsiders_exhausted]
  rw [outsiders_exhausted] at hroom
  refine Ends.bind (Q := Resized t.exhausted n (extraRoom k n)) ?_ fun t' hresized => ends_of_outcome fun b => ?_
  · refine resize_ends hstop (growarray_spec hexhausted.arrayOk hmax hle).1 (hfirst hexhausted) hgrown
      fun hempty hcapacity => ends_of_outcome fun b => ?_
    have hfits := hroom.trans (le_nodesFor hsize)
    exact reinsert_roomy (budget_inserts b Bad _) hexhausted hle hmax hempty (hcapacity ▸ hfits)
  · obtain ⟨t'', p, hset, -⟩ := hresized.takes (budget_inserts b Bad (budget.newkey d)) hk
    exact .inl ⟨(t'', p), hset, trivial⟩

end Newkey

/-! ### What is left after a failure -/

/-- Every key with a value is found with it. -/
def Keeps (t tE : Table V) : Prop := ∀ k, t.content k ≠ .nil → Finds tE (luaHGet tE k) (t.content k)

/-- An early end after which every key is found. -/
def Harmless (t : Table V) : Halt V → Prop
  | .stop _ => True
  | .memory tE => Keeps t tE

theorem Valid.keeps (h : Valid tE) (hcontent : tE.content = t.content) : Keeps t tE :=
  fun k _ => ⟨tE.place k, h.luaHGet_eq k, congrFun hcontent k⟩

/-- The array part answers for its own range. -/
theorem luaHGet_inArray (hsize : t.sizearray < 2 ^ 31) (hin : t.inArray k) : luaHGet t k = .ok (.array (index k - 1)) := by
  cases k with
  | number m =>
    have hint : V.castNum (V.number2int m) = m := by
      by_contra hne
      exact not_inArray (index_eq_zero hne) hin
    have hindex : index (.number m) = (V.number2int m).toInt.toNat := by rw [← hint, index_castNum, V.number2int_castNum]
    rw [Table.inArray, hindex] at hin
    rw [luaHGet, if_pos hint, luaHGetnum, if_pos ((unsigned_lt_iff hsize).mpr (by omega)), pred_toNat (by omega), hindex]
  | _ => exact absurd hin (not_inArray (by first | exact index_nil | exact index_string _ | rfl))

/-- Elsewhere a lookup sees the nodes only. -/
theorem luaHGet_nodes (hnode : t'.node = t.node) (hlsize : t'.lsizenode = t.lsizenode) (hsize : t.sizearray < 2 ^ 31)
    (hsize' : t'.sizearray < 2 ^ 31) (hin : ¬ t.inArray k) (hin' : ¬ t'.inArray k) : luaHGet t' k = luaHGet t k := by
  have hsearch : ∀ test k, searchChain t' test (mainposition t' k) = searchChain t test (mainposition t k) := by
    intro test k
    rw [searchChain, searchChain, hnode, Table.sizenode, Table.sizenode, hlsize, mainposition_congr hlsize]
  cases k with
  | nil => rfl
  | string s => exact hsearch (fun k => k = .string s) (.string s)
  | number m =>
    rw [luaHGet, luaHGet, hsearch]
    by_cases hint : V.castNum (V.number2int m) = m
    · have hindex : index (.number m) = (V.number2int m).toInt.toNat := by rw [← hint, index_castNum, V.number2int_castNum]
      rw [Table.inArray, hindex] at hin hin'
      have hout : ¬ (V.number2int m - 1).toUInt32.toNat < t.sizearray := by
        rw [unsigned_lt_iff hsize]
        omega
      have hout' : ¬ (V.number2int m - 1).toUInt32.toNat < t'.sizearray := by
        rw [unsigned_lt_iff hsize']
        omega
      rw [if_pos hint, if_pos hint, luaHGetnum, luaHGetnum, if_neg hout, if_neg hout']
      exact hsearch _ (.number (V.castNum (V.number2int m)))
    · rw [if_neg hint, if_neg hint]
  | boolean c => exact hsearch (fun k => k = .boolean c) (.boolean c)
  | lightuserdata q => exact hsearch (fun k => k = .lightuserdata q) (.lightuserdata q)
  | object o => exact hsearch (fun k => k = .object o) (.object o)

/-- Under an array part that has grown the keys are found that are in no node of its new range. -/
theorem keeps_grown (h : Valid t) (hn : n < 2 ^ 31) (hle : t.sizearray ≤ n) :
    Keeps t (growarray t n) ↔ ∀ a, (t.node a).val ≠ .nil → ¬(0 < index (t.node a).key ∧ index (t.node a).key ≤ n) := by
  obtain ⟨-, hsize, -, hread⟩ := growarray_spec h.arrayOk hn hle
  have hnode : (growarray t n).node = t.node ∧ (growarray t n).lsizenode = t.lsizenode := by
    rw [growarray]
    split <;> exact ⟨rfl, rfl⟩
  have hin' : ∀ k, (growarray t n).inArray k ↔ 0 < index k ∧ index k ≤ n := fun k => by rw [Table.inArray, hsize]
  constructor
  · intro hkeeps a hval hin
    have hkey := h.keyAt_of_val hval
    have hout := h.outside hkey
    rw [← h.content_node hkey] at hval
    obtain ⟨p, hget, hcontent⟩ := hkeeps _ hval
    rw [luaHGet_inArray (hsize.trans_lt hn) ((hin' _).mpr hin)] at hget
    obtain rfl := Except.ok.inj hget
    rw [Table.inArray] at hout
    rw [Table.read, hread _ (by omega), if_neg (by omega)] at hcontent
    exact hval hcontent.symm
  · intro hclear k hval
    by_cases hin : t.inArray k
    · have hpos := hin.1
      have hbound := hin.2
      refine ⟨_, luaHGet_inArray (hsize.trans_lt hn) ((hin' k).mpr ⟨hpos, hbound.trans hle⟩), ?_⟩
      rw [Table.read, hread _ (by omega), if_pos (by omega), content_array hin]
    · have hp : t.place k ≠ .nilobject := fun hp => hval (by rw [Table.content, hp]; rfl)
      obtain ⟨a, ha⟩ := (h.placed_cases hp).resolve_left hin
      rw [h.content_node ha] at hval ⊢
      have hout := hclear a hval
      rw [(keyAt_eq_some.mp ha).1] at hout
      refine ⟨.node a, ?_, by rw [Table.read, hnode.1]⟩
      rw [luaHGet_nodes hnode.1 hnode.2 h.sizearray_lt (hsize.trans_lt hn) hin fun hin => hout ((hin' k).mp hin),
        h.luaHGet_eq, h.place_node ha]

/-! ### Moves that lose nothing -/

section Shrink

variable (d : Nat) (h : Valid t) (hk : k ≠ .nil) (hplace : t.place k = .nilobject) (hbest : Best (rehashInts t k) n)
  (hn : n < t.sizearray)

include h hk hplace hbest hn

/-- When all keys are back the new one can only fail to come in. -/
theorem set_shrunk_ends (h' : Valid t') (hcontent : t'.content = t.content) (hsize : t'.sizearray = n) :
    Ends (budget.luaHSet (budget.newkey (d + 2)) t' k) (fun _ => True) (Harmless t) := by
  rw [Host.luaHSet, h'.luaHGet_eq]
  refine Ends.bind (Q := fun p => p = t'.place k) (ends_lift (fun _ => trivial) fun heq => (Except.ok.inj heq).symm) fun p hp => ?_
  subst hp
  cases hplace' : t'.place k with
  | array i => exact ends_pure trivial
  | node a => exact ends_pure trivial
  | nilobject =>
    have hall : Partial t (fun _ => False) t' := ⟨fun hf => hf.elim, fun _ => congrFun hcontent _⟩
    have hbest' : Best (rehashInts t' k) t'.sizearray := by
      rw [hsize]
      exact hall.best h hplace hbest hn.le h' hplace' (fun _ _ _ => id) (.inr rfl)
    simp only [if_neg hk]
    exact newkey_grow_ends (fun _ => trivial) d h' hk hplace' hbest' (Nat.le_refl _)
      (fun hexhausted => hexhausted.keeps hcontent) fun hlt => absurd hlt (Nat.lt_irrefl _)

/-- A rehash that shrinks the array part loses no key if its moves do not. -/
theorem newkey_shrink_ends (hmoves : ∀ {fresh}, Valid t.exhausted → Fresh t.exhausted fresh →
    fresh.capacity = nodesFor (outsiders t k n) → Ends (budget.reinsert (budget.newkey (d + 2)) t.exhausted n fresh)
      (fun t' => Valid t' ∧ t'.content = t.content ∧ t'.sizearray = n) (Harmless t)) :
    Ends (budget.newkey (d + 3) t k) (fun _ => True) (Harmless t) := by
  refine newkeyStep_ends (fun _ => trivial) h hk hplace fun hexhausted => ?_
  have hbest₁ : Best (rehashInts t.exhausted k) n := (rehashInts_exhausted t k).symm ▸ hbest
  have hgrow : growarray t.exhausted n = t.exhausted := if_neg (Nat.not_lt.mpr hn.le)
  rw [budget_rehash_eq _ hexhausted hplace hbest₁, outsiders_exhausted]
  refine Ends.bind (Q := fun t' => Valid t' ∧ t'.content = t.content ∧ t'.sizearray = n) ?_
    fun t' ht' => set_shrunk_ends d h hk hplace hbest hn ht'.1 ht'.2.1 ht'.2.2
  refine resize_ends (fun _ => trivial) (hgrow.symm ▸ hexhausted.arrayOk) (hexhausted.keeps rfl) ?_ ?_
  · exact fun hlt => absurd hlt (Nat.lt_asymm hn)
  · intro fresh hempty hcapacity
    rw [hgrow] at hempty
    exact hmoves hexhausted hempty hcapacity

/-- With a node for every key that moves all moves go through. -/
theorem shrink_ends_of_room
    (hroom : outsideBelow t n t.sizenode + countSlice t (n + 1) (t.sizearray - n) ≤ nodesFor (outsiders t k n)) :
    Ends (budget.newkey (d + 3) t k) (fun _ => True) (Harmless t) := by
  refine newkey_shrink_ends d h hk hplace hbest hn fun hexhausted hempty hcapacity => ends_of_outcome fun b => ?_
  have hfits : countSlice t.exhausted (n + 1) (t.sizearray - n) + outsideBelow t.exhausted n t.sizenode + 0 ≤ nodesFor (outsiders t k n) := by
    rw [Nat.add_zero, Nat.add_comm]
    rw [countSlice_card, outsideBelow_card] at hroom ⊢
    exact hroom
  refine (reinsert_roomy_shrink (budget_inserts b _ (budget.newkey (d + 1))) hexhausted hn hempty (hcapacity ▸ hfits)).imp_left ?_
  exact fun ⟨t', hreturns, hresized⟩ => ⟨t', hreturns, hresized.valid, hresized.content, hresized.sizearray⟩

end Shrink

/-! ### Full tables -/

theorem mem_nodeKeys_self (h : Valid t) : k ∈ nodeKeys t t.sizearray ↔ ¬ t.inArray k ∧ t.content k ≠ .nil := by
  rw [mem_nodeKeys h]
  constructor
  · exact And.right
  · rintro ⟨hout, hval⟩
    have hp : t.place k ≠ .nilobject := fun hp => hval (by rw [Table.content, hp]; rfl)
    exact ⟨(h.placed_cases hp).resolve_left hout, hout, hval⟩

/-- Under an array part that stays as it is the hash part is for the keys that it has and the new one. -/
theorem outsiders_self (h : Valid t) (hplace : t.place k = .nilobject) :
    outsiders t k t.sizearray = (nodeKeys t t.sizearray).card + 1 := by
  have hout := (h.absent_of_place hplace).1
  rw [Table.inArray] at hout
  have hnone : min t.sizearray maxAsize - t.sizearray = 0 := Nat.sub_eq_zero_of_le (Nat.min_le_left _ _)
  rw [outsiders, extraRoom, if_neg hout, hnone, card_nodeKeys h, countSlice, Nat.add_zero]

theorem card_nodeKeys_le_used (h : Valid t) (n : Nat) : (nodeKeys t n).card ≤ t.used :=
  card_le_used (fun _ hk => ((mem_nodeKeys h).mp hk).1) h

theorem capacity_le (h : Valid t) : t.capacity ≤ maxAsize := by
  have hnodes : t.sizenode ≤ maxAsize := Nat.pow_le_pow_right (by decide) h.lsizenode_le
  rw [Table.capacity]
  split
  · exact Nat.zero_le _
  · exact hnodes

section Full

variable {Bad : Halt V → Prop} {inner : Host.Newkey V (Run V)}

/-- On a full table whose array part has its best size `newkey` fails where the new hash part does. -/
theorem fails_full (hbest : Best (rehashInts t k) t.sizearray) (hplace : t.place k = .nilobject) (hexhausted : Valid t.exhausted)
    (hfree : insertFree t k = .inl t.exhausted)
    (hfails : (budgetOutcome b Bad).Fails (budget.setnodevector t.exhausted (outsiders t k t.sizearray))) :
    (budgetOutcome b Bad).Fails (budget.newkeyStep inner t k) := by
  have hbest₁ : Best (rehashInts t.exhausted k) t.sizearray := (rehashInts_exhausted t k).symm ▸ hbest
  have hsame : budget.growarray t.exhausted t.sizearray = pure t.exhausted := if_neg (Nat.lt_irrefl _)
  rw [Host.newkeyStep, hfree]
  refine (budgetOutcome b Bad).bind_fails _ ?_
  rw [budget_rehash_eq _ hexhausted hplace hbest₁, outsiders_exhausted, Host.resize, hsame]
  exact (budgetOutcome b Bad).fails_bind ((budgetOutcome b Bad).pure _) ((budgetOutcome b Bad).bind_fails _ hfails)

/-- The moves of a shrinking resize go through, or one of them finds the hash part full and the rehash inside fails. -/
theorem reinsert_shrink_or (inner : Host.Newkey V (Run V)) {I : Table V → Prop} (h₀ : Valid t₀) (hek : t₀.place key = .nilobject)
    (hbest : Best (rehashInts t₀ key) n) (hn : n < t₀.sizearray) {fresh : Table V} (hempty : Fresh t₀ fresh)
    (hstart : I { fresh with sizearray := n }) (hcut : ∀ {t}, I t → I { t with array := t.array.take n })
    (htaken : ∀ {t k t'}, Valid t → ¬ t.inArray k → I t → Taken t k t' → I t')
    (hfull : ∀ {t k}, Valid t → t.place k = .nilobject → t₀.content k ≠ .nil → I t → t.capacity ≤ t.used →
      (budgetOutcome b Bad).Fails (budget.setnodevector t.exhausted (outsiders t k t.sizearray))) :
    (∃ t', budget.reinsert (budget.newkeyStep inner) t₀ n fresh b = .ok (t', b) ∧ Valid t' ∧ t'.content = t₀.content ∧
      t'.sizearray = n ∧ I t') ∨ (budgetOutcome b Bad).Fails (budget.reinsert (budget.newkeyStep inner) t₀ n fresh) := by
  have henters : ∀ {t k}, Valid t → k ≠ .nil → (t.place k = .nilobject → Best (rehashInts t k) t.sizearray) →
      t₀.content k ≠ .nil → I t → EntersOr (budgetOutcome b Bad) (budget.newkeyStep inner) t k (Taken t k) := by
    intro t k h hk hsame hval hI
    refine free_enters (fun {r} hfree => ?_) (fun hplace hroom hexhausted hfree => ?_) h hk
    · change budget.newkeyStep inner t k b = .ok (r, b)
      rw [Host.newkeyStep, hfree]
      rfl
    · exact fails_full (hsame hplace) hplace hexhausted hfree (hfull h hplace hval hI hroom)
  refine reinsert_shrink (o := budgetOutcome b Bad) (J := fun _ => I) (K := fun _ t => t.sizearray = n ∧ I t) h₀ hn hempty
    hstart (fun _ _ hI => hI) ?_ (fun hs hI => ⟨hs.sizearray, hcut hI⟩) (fun hK _ => hK) ?_
  · intro i t hn' hi hs hI hval
    have hout := hs.element_outside h₀ hn' hi
    have hlive : t₀.content (intKey V (i + 1)) ≠ .nil := content_element h₀ hi ▸ hval
    refine (henters hs.valid (intKey_ne_nil _ _) (fun hplace => ?_) hlive hI).mono fun t' ht' =>
      ⟨⟨ht'.array hout, congrArg Prod.fst ht'.sizes⟩, htaken hs.valid hout hI ht'⟩
    rw [hs.sizearray]
    exact hs.best_element h₀ hek hbest hn' hi hval hplace
  · intro i t h hpart hK hval
    have hkey := h₀.keyAt_of_val hval
    have hlive : t₀.content (t₀.node i).key ≠ .nil := (h₀.content_node hkey).trans_ne hval
    have hout : ¬ t.inArray (t₀.node i).key := by
      have hout := h₀.outside hkey
      rw [Table.inArray] at hout ⊢
      rw [hK.1]
      omega
    refine (henters h (ne_nil_of_keyAt hkey) (fun hplace => ?_) hlive hK.2).mono fun t' ht' =>
      ⟨(congrArg Prod.fst ht'.sizes).trans hK.1, htaken h hout hK.2 ht'⟩
    rw [hK.1]
    exact hpart.best_node h₀ hek hbest hn.le h hval hplace

end Full

/-- The largest hash part, with a value in every node that is used. -/
def Lively (t : Table V) : Prop := t.capacity = maxAsize ∧ t.used ≤ (nodeKeys t t.sizearray).card

theorem Lively.taken (h : Valid t) (hout : ¬ t.inArray k) (hlively : Lively t) (htaken : Taken t k t') : Lively t' := by
  refine ⟨(capacity_of_sizes htaken.sizes).trans hlively.1, htaken.used.trans ?_⟩
  obtain ⟨v, hv, hcontent⟩ := htaken.content
  have hin : ∀ k', t'.inArray k' ↔ t.inArray k' := fun k' => inArray_of_sizes htaken.sizes
  have hself : k ∈ nodeKeys t' t'.sizearray := by
    rw [mem_nodeKeys_self htaken.valid, hin, hcontent, Function.update_self]
    exact ⟨hout, hv⟩
  have hsubset : nodeKeys t t.sizearray ⊆ nodeKeys t' t'.sizearray := by
    intro k' hk'
    by_cases heq : k' = k
    · exact heq ▸ hself
    · rw [mem_nodeKeys_self h] at hk'
      rw [mem_nodeKeys_self htaken.valid, hin, hcontent, Function.update_of_ne heq]
      exact hk'
  by_cases hplace : t.place k = .nilobject
  · have hnew : k ∉ nodeKeys t t.sizearray := by
      rw [mem_nodeKeys_self h, Table.content, hplace]
      exact fun hk => hk.2 rfl
    have hcard := Finset.card_le_card (Finset.insert_subset hself hsubset)
    rw [Finset.card_insert_of_notMem hnew] at hcard
    rw [if_pos hplace]
    exact (Nat.succ_le_succ hlively.2).trans hcard
  · rw [if_neg hplace]
    exact hlively.2.trans (Finset.card_le_card hsubset)

/-- A hash part of `2^MAXBITS` nodes that is full cannot be made larger. -/
theorem Lively.fails {Bad : Halt V → Prop} (hstop : ∀ e, Bad (.stop e)) (h : Valid t) (hplace : t.place k = .nilobject)
    (hlively : Lively t) (hfull : t.capacity ≤ t.used) :
    (budgetOutcome b Bad).Fails (budget.setnodevector t.exhausted (outsiders t k t.sizearray)) := by
  have hused := card_nodeKeys_le_used h t.sizearray
  have hcapacity := hlively.1
  have hlow := hlively.2
  have hle := h.used_le
  have hmax : maxAsize = 2 ^ maxBits := rfl
  have hlarge : maxBits < ceillog2 (outsiders t k t.sizearray) := by
    have hsmall : maxAsize + 1 ≤ 2 ^ 32 := by decide
    rw [outsiders_self h hplace, ← Nat.not_le, ceillog2_le (by omega)]
    omega
  refine ⟨.stop .tableOverflow, ?_, hstop _⟩
  rw [Host.setnodevector, if_pos (.inr hlarge), setnodevector, if_neg (by rw [outsiders_self h hplace]; exact Nat.succ_ne_zero _),
    if_pos hlarge]
  rfl

theorem capacity_of_nodesFor {fresh : Table V} (h : Valid fresh) (hcapacity : fresh.capacity = nodesFor size)
    (hlarge : maxBits ≤ ceillog2 size) : fresh.capacity = maxAsize := by
  have hzero : size ≠ 0 := by
    rintro rfl
    exact absurd hlarge (by decide)
  have hle := capacity_le h
  rw [hcapacity, nodesFor, if_neg hzero] at hle ⊢
  exact Nat.le_antisymm hle (Nat.pow_le_pow_right (by decide) hlarge)

section Shrink

variable (d : Nat) (h : Valid t) (hk : k ≠ .nil) (hplace : t.place k = .nilobject) (hbest : Best (rehashInts t k) n)
  (hn : n < t.sizearray)

include h hk hplace hbest hn

/-- Where the new hash part is as large as it can be there is no allocation after it that could fail. -/
theorem shrink_ends_of_large (hlarge : maxBits ≤ ceillog2 (outsiders t k n)) :
    Ends (budget.newkey (d + 3) t k) (fun _ => True) (Harmless t) := by
  refine newkey_shrink_ends d h hk hplace hbest hn fun hexhausted hempty hcapacity => ends_of_outcome fun b => ?_
  have hbest₁ : Best (rehashInts t.exhausted k) n := (rehashInts_exhausted t k).symm ▸ hbest
  refine (reinsert_shrink_or (budget.newkey (d + 1)) (I := Lively) hexhausted hplace hbest₁ hn hempty ?_ id
    (fun h hout hlively htaken => hlively.taken h hout htaken)
    fun h hplace _ hlively hfull => hlively.fails (fun _ => trivial) h hplace hfull).imp_left ?_
  · have hlargest := capacity_of_nodesFor hempty.valid hcapacity hlarge
    have hnone := hempty.used
    exact ⟨hlargest, hnone.trans_le (Nat.zero_le _)⟩
  · exact fun ⟨t', hreturns, hvalid, hcontent, hsize, _⟩ => ⟨t', hreturns, hvalid, hcontent, hsize⟩

end Shrink

/-! ### Failures that lose a key -/

section Loss

variable {inner : Host.Newkey V (Run V)}

/-- The new hash part fails after the array part has grown. -/
theorem grown_fails (hplace : t.place k = .nilobject) (hbest : Best (rehashInts t k) n) (hexhausted : Valid t.exhausted)
    (hfree : insertFree t k = .inl t.exhausted) (hgrow : t.sizearray < n) (hsome : outsiders t k n ≠ 0)
    (hsmall : ceillog2 (outsiders t k n) ≤ maxBits) :
    budget.newkeyStep inner t k 1 = .error (.memory (growarray t.exhausted n)) := by
  have hbest₁ : Best (rehashInts t.exhausted k) n := (rehashInts_exhausted t k).symm ▸ hbest
  have hgrown : budget.growarray t.exhausted n 1 = .ok (growarray t.exhausted n, 0) := by
    have hlt : t.exhausted.sizearray < n := hgrow
    rw [Host.growarray, if_pos hlt, growarray, if_pos hlt]
    rfl
  have hvector : budget.setnodevector (growarray t.exhausted n) (outsiders t k n) 0 = .error (.memory (growarray t.exhausted n)) := by
    rw [Host.setnodevector, if_neg (not_or.mpr ⟨hsome, Nat.not_lt.mpr hsmall⟩)]
    rfl
  rw [Host.newkeyStep, hfree]
  refine Run.bind_error _ ?_
  rw [budget_rehash_eq _ hexhausted hplace hbest₁, outsiders_exhausted]
  exact (Run.bind_ok _ hgrown).trans (Run.bind_error _ hvector)

/-- A failure after which some key is not found with its value. -/
def Loses (t : Table V) (e : Halt V) : Prop := ∃ tE, e = .memory tE ∧ ¬ Keeps t tE

theorem Valid.exhausted_of_full (h : Valid t) (hfull : t.capacity ≤ t.used) : Valid t.exhausted := by
  refine h.exhausted fun hdummy => ?_
  have hle := h.used_le
  rw [Table.capacity, hdummy] at hfull hle
  exact Nat.le_antisymm hle hfull

/-- The key that is being moved when the allocation of a rehash inside fails is nowhere. -/
theorem loses_moved (h : Valid t) (hplace : t.place k = .nilobject) (hval : t₀.content k ≠ .nil)
    (hsmall : ceillog2 (outsiders t k t.sizearray) ≤ maxBits) (hfull : t.capacity ≤ t.used) :
    (budgetOutcome 0 (Loses t₀)).Fails (budget.setnodevector t.exhausted (outsiders t k t.sizearray)) := by
  have hsome : outsiders t k t.sizearray ≠ 0 := by
    rw [outsiders_self h hplace]
    exact Nat.succ_ne_zero _
  refine ⟨.memory t.exhausted, ?_, t.exhausted, rfl, fun hkeeps => ?_⟩
  · rw [Host.setnodevector, if_neg (not_or.mpr ⟨hsome, Nat.not_lt.mpr hsmall⟩)]
    rfl
  · obtain ⟨p, hget, hread⟩ := hkeeps k hval
    rw [(h.exhausted_of_full hfull).luaHGet_eq] at hget
    obtain rfl := Except.ok.inj hget
    exact hval (hread.symm.trans (congrArg t.read hplace))

/-- Without room for the keys that move one of them finds the hash part full, and is lost. -/
theorem shrink_fails (inner : Host.Newkey V (Run V)) (hplace : t.place k = .nilobject) (hbest : Best (rehashInts t k) n) (hexhausted : Valid t.exhausted)
    (hfree : insertFree t k = .inl t.exhausted) (hn : n < t.sizearray) (hsmall : ceillog2 (outsiders t k n) < maxBits)
    (hroom : nodesFor (outsiders t k n) < outsideBelow t n t.sizenode + countSlice t (n + 1) (t.sizearray - n)) :
    ∃ b, (budgetOutcome b (Loses t)).Fails (budget.newkeyStep (budget.newkeyStep inner) t k) := by
  have hbest₁ : Best (rehashInts t.exhausted k) n := (rehashInts_exhausted t k).symm ▸ hbest
  have hgrow : budget.growarray t.exhausted n = pure t.exhausted := if_neg (Nat.lt_asymm hn)
  obtain ⟨fresh, hfresh, hempty, hcapacity⟩ | ⟨hlarge, -⟩ := setnodevector_spec hexhausted.arrayOk (outsiders t k n)
  case inr => omega
  obtain ⟨b, hvector⟩ : ∃ b, budget.setnodevector t.exhausted (outsiders t k n) b = .ok (fresh, 0) := by
    rw [Host.setnodevector]
    by_cases hzero : outsiders t k n = 0 ∨ maxBits < ceillog2 (outsiders t k n)
    · rw [if_pos hzero, hfresh]
      exact ⟨0, rfl⟩
    · rw [if_neg hzero, hfresh]
      exact ⟨1, rfl⟩
  have hlow : fresh.capacity ≤ 2 ^ (maxBits - 1) := by
    rw [hcapacity, nodesFor]
    split
    · exact Nat.zero_le _
    · exact Nat.pow_le_pow_right (by decide) (by omega)
  obtain ⟨t', -, hvalid, hcontent, hsize, hsame⟩ | ⟨e, hfails, hloses⟩ := reinsert_shrink_or (b := 0)
    inner (I := fun t' => t'.capacity = fresh.capacity) hexhausted hplace hbest₁ hn hempty rfl id
    (fun _ _ hI htaken => (capacity_of_sizes htaken.sizes).trans hI) fun {t₁ k₁} h₁ hplace₁ hval hI hfull => by
      have hused := card_nodeKeys_le_used h₁ t₁.sizearray
      have hle := h₁.used_le
      have hcap : t₁.capacity = fresh.capacity := hI
      have hhalf : 2 ^ (maxBits - 1) + 1 ≤ 2 ^ maxBits := by decide
      have hint : 2 ^ maxBits ≤ 2 ^ 32 := by decide
      refine loses_moved h₁ hplace₁ hval ?_ hfull
      rw [outsiders_self h₁ hplace₁, ceillog2_le (by omega)]
      omega
  · have hall := moved_le_used hexhausted hvalid hcontent hsize
    have hle := hvalid.used_le
    rw [hsame, hcapacity] at hle
    rw [countSlice_card, outsideBelow_card] at hroom
    rw [countSlice_card, outsideBelow_card] at hall
    exact absurd (hall.trans hle) (Nat.not_le.mpr hroom)
  · refine ⟨b, e, ?_, hloses⟩
    rw [Host.newkeyStep, hfree]
    refine Run.bind_error _ ?_
    rw [budget_rehash_eq _ hexhausted hplace hbest₁, outsiders_exhausted, Host.resize, hgrow, pure_bind]
    exact (Run.bind_ok _ hvector).trans hfails

end Loss

/-! ### When no key is lost -/

/-- The old nodes and the new sizes let a failure do no harm. Where the array part grows and a hash part is made, no node has a value for an integer in the new range of the array part. Where the array part shrinks, the new hash part takes all keys that move, or it is as large as it can be. -/
structure Spares (t : Table V) (k : TValue V) (n : Nat) : Prop where
  grow : t.sizearray < n → outsiders t k n ≠ 0 → ceillog2 (outsiders t k n) ≤ maxBits →
    ∀ a, (t.node a).val ≠ .nil → ¬(0 < index (t.node a).key ∧ index (t.node a).key ≤ n)
  shrink : n < t.sizearray →
    outsideBelow t n t.sizenode + countSlice t (n + 1) (t.sizearray - n) ≤ nodesFor (outsiders t k n) ∨
      maxBits ≤ ceillog2 (outsiders t k n)

section Full

variable {t₁ : Table V} (h : Valid t) (hk : k ≠ .nil) (hplace : t.place k = .nilobject)

include h hk hplace

theorem luaHSet_absent (inner : Host.Newkey V (Run V)) (b : Nat) : budget.luaHSet inner t k b = inner t k b := by
  rw [Host.luaHSet, h.luaHGet_eq, hplace]
  change (if k = .nil then _ else inner t k : Run V _) b = _
  rw [if_neg hk]

/-- Where the condition holds every failure is harmless. -/
theorem newkey_ends_of_spares (d : Nat) (hbest : Best (rehashInts t k) n) (hspares : Spares t k n) :
    Ends (budget.newkey (d + 3) t k) (fun _ => True) (Harmless t) := by
  by_cases hn : n < t.sizearray
  · obtain hroom | hlarge := hspares.shrink hn
    · exact shrink_ends_of_room d h hk hplace hbest hn hroom
    · exact shrink_ends_of_large d h hk hplace hbest hn hlarge
  have hle := Nat.not_lt.mp hn
  have hmax : n < 2 ^ 31 := hbest.le.trans_lt (by decide)
  by_cases hfull : t.capacity ≤ t.used
  · have hexhausted := h.exhausted_of_full hfull
    exact newkey_grow_ends (fun _ => trivial) (d + 1) h hk hplace hbest hle (fun _ => hexhausted.keeps rfl) fun hgrow hsome hsmall =>
      (keeps_grown hexhausted hmax hle).mpr (hspares.grow hgrow hsome hsmall)
  · intro b
    obtain ⟨t', p, hinsert, -⟩ := budget_inserts b (Harmless t) (budget.newkey (d + 2)) h hk hplace (Nat.not_le.mp hfull)
    rw [show budget.newkey (d + 3) t k b = .ok ((t', p), b) from hinsert]
    trivial

omit h hk in
/-- Where it does not, some failure is not. -/
theorem spares_of_keeps (d : Nat) (hbest : Best (rehashInts t k) n) (hexhausted : Valid t.exhausted)
    (hfree : insertFree t k = .inl t.exhausted)
    (hkeeps : ∀ b tE, budget.newkey (d + 3) t k b = .error (.memory tE) → Keeps t tE) : Spares t k n := by
  constructor
  case grow =>
    intro hgrow hsome hsmall
    have hmax : n < 2 ^ 31 := hbest.le.trans_lt (by decide)
    exact (keeps_grown hexhausted hmax hgrow.le).mp (hkeeps 1 _ (grown_fails hplace hbest hexhausted hfree hgrow hsome hsmall))
  case shrink =>
    intro hn
    by_contra hneither
    rw [not_or, Nat.not_le, Nat.not_le] at hneither
    obtain ⟨b, e, hfails, tE, rfl, hloses⟩ :=
      shrink_fails (budget.newkey (d + 1)) hplace hbest hexhausted hfree hn hneither.2 hneither.1
    exact hloses (hkeeps b tE hfails)

/-- A failed allocation loses no key, exactly if the sizes and the old nodes spare all of them. -/
theorem failed_allocation_keeps_iff (htaken : (t.node (mainposition t k)).val ≠ .nil ∨ t.dummy = true)
    (hnone : getfreepos t = (t₁, none)) (d : Nat) :
    (∀ b tE, budget.luaHSet (budget.newkey (d + 3)) t k b = .error (.memory tE) → Keeps t tE) ↔
      ∃ n, Best (rehashInts t k) n ∧ Spares t k n := by
  have hfree : insertFree t k = .inl t₁ := by rw [insertFree, if_pos htaken, hnone]
  obtain ⟨rfl, hexhausted⟩ := full_eq h hk hplace htaken hnone
  simp only [luaHSet_absent h hk hplace]
  constructor
  · intro hkeeps
    obtain ⟨n, hbest, -⟩ := h.computesizes_eq hplace
    exact ⟨n, hbest, spares_of_keeps hplace d hbest hexhausted hfree hkeeps⟩
  · rintro ⟨n, hbest, hspares⟩ b tE hfails
    have hends := newkey_ends_of_spares h hk hplace d hbest hspares b
    rw [hfails] at hends
    exact hends

end Full

/-- The integers 1 and 2 go to the array part, and there is no hash part. -/
theorem failed_allocation_keeps_iff_two : ∃ t, OnlyLast t 1 ∧
    ∀ b tE, budget.luaHSet (budget.newkey 3) t (integers.num 2) b = .error (.memory tE) → Keeps t tE := by
  obtain ⟨t, h⟩ := exists_onlyLast Nat.zero_lt_one (by decide)
  have hplace : t.place (integers.num 2) = .nilobject := h.place_of_not_inArray fun hin => by
    have hle := hin.2
    rw [h.sizearray] at hle
    exact absurd hle (by decide)
  have hk : integers.num 2 ≠ .nil := by
    rw [integers.num]
    rintro ⟨⟩
  obtain ⟨n, hbest, -⟩ := h.valid.computesizes_eq hplace
  refine ⟨t, h, (failed_allocation_keeps_iff h.valid hk hplace (.inr h.dummy) h.free 0).mpr ⟨n, hbest, ?_, fun hn => ?_⟩⟩
  · exact fun _ _ _ a hval => absurd (h.val_eq a) hval
  · -- the element 1 alone fills the first place
    have hin : t.inArray (intKey integers 1) := ⟨by decide, h.sizearray.symm ▸ (by decide)⟩
    have hcontent : t.content (intKey integers 1) ≠ .nil := by
      rw [content_array hin]
      exact (h.live Nat.zero_lt_one (Nat.le_refl 1)).mpr rfl
    have hmem : 1 ∈ rehashInts t (integers.num 2) := h.valid.mem_rehashInts.mpr ⟨Nat.zero_lt_one, by decide, .inr hcontent⟩
    have hfills : Fills (rehashInts t (integers.num 2)) 0 := List.countP_pos_iff.mpr ⟨1, hmem, by decide⟩
    have hone := hbest.largest 0 (Nat.zero_le _) hfills
    rw [h.sizearray] at hn
    omega

/-- The integer 1 in the one node is shadowed when the array part has grown for it and the hash part for the string cannot be made. -/
theorem failed_allocation_loses : ∃ t tE : Table integers, Reached 3 0 1 [.setnum 1 (.boolean true)] t ∧
    t.content (integers.num 1) = .boolean true ∧
    budget.luaHSet (budget.newkey 3) t (integers.str 0) 1 = .error (.memory tE) ∧ ¬ Keeps t tE := by
  refine ⟨_, _, .step (.new rfl) trivial rfl, by rfl, by rfl, fun hkeeps => ?_⟩
  obtain ⟨p, hget, hread⟩ := hkeeps (integers.num 1) (by decide +kernel)
  cases (show Except.ok (.array 0) = Except.ok p from hget)
  exact nomatch hread

end Reading.Lua
