import Reading.Lua.Counting
import Reading.Lua.Alloc

/-!
# Moving the keys

A resize takes a table apart and puts its keys one by one into a new hash part and an array part of another size. `Partial` says which keys are still to be moved. Where the hash part is large enough for all of them no move needs a free node that is not there. An array part beyond `2^MAXBITS` is not counted, so that a move out of it can find the hash part full and rehash in the middle of the resize; but the best size is then the one that the array part has already, and the resize inside leaves it alone.
-/

namespace Reading.Lua

open Lib (Scattered scattered_empty)

variable {V : Values} {t t' t₀ : Table V} {k ek : TValue V} {n i : Nat} {p : Slot}

/-! ### New hash parts -/

/-- An empty hash part under the array part of `t`. -/
structure Fresh (t fresh : Table V) : Prop where
  valid : Valid fresh
  array : fresh.array = t.array
  sizearray : fresh.sizearray = t.sizearray
  empty : ∀ a, keyAt fresh a = none

theorem Fresh.used {fresh : Table V} (h : Fresh t fresh) : fresh.used = 0 := by
  rw [Table.used, Finset.card_eq_zero, Finset.filter_eq_empty_iff]
  exact fun a _ ha => ha (h.empty a)

theorem Fresh.content {fresh : Table V} (h : Fresh t fresh) (k : TValue V) :
    fresh.content k = if t.inArray k then t.array.getD (index k - 1) .nil else .nil := by
  have hin : fresh.inArray k ↔ t.inArray k := inArray_congr h.sizearray
  by_cases harray : t.inArray k
  · rw [if_pos harray, content_array (hin.mpr harray), h.array]
  · rw [if_neg harray, h.valid.content_absent (fun hin' => harray (hin.mp hin')) fun a ha => ?_]
    rw [h.empty a] at ha
    cases ha

/-- The parts of the invariant that are about the array part. -/
def Table.ArrayOk (t : Table V) : Prop := t.sizearray ≤ t.array.length ∧ t.sizearray < 2 ^ 31

theorem Valid.arrayOk (h : Valid t) : t.ArrayOk := ⟨h.buffer, h.sizearray_lt⟩

/-- How many nodes a hash part for `size` keys has. -/
def nodesFor (size : Nat) : Nat := if size = 0 then 0 else 2 ^ ceillog2 size

theorem le_nodesFor {size : Nat} (hsize : size ≤ 2 ^ 32) : size ≤ nodesFor size := by
  rw [nodesFor]
  split
  case isTrue hzero => exact hzero.le
  case isFalse => exact (ceillog2_le hsize _).mp (Nat.le_refl _)

theorem setnodevector_spec (harray : t.ArrayOk) (size : Nat) :
    (∃ fresh, setnodevector t size = .ok fresh ∧ Fresh t fresh ∧ fresh.capacity = nodesFor size) ∨
      maxBits < ceillog2 size ∧ setnodevector t size = .error .tableOverflow := by
  rw [setnodevector]
  by_cases hzero : size = 0
  · left
    rw [if_pos hzero]
    refine ⟨_, rfl, ⟨?_, rfl, rfl, fun a => rfl⟩, (if_pos hzero).symm⟩
    constructor
    case scattered => exact scattered_empty
    case inside => exact fun ha => absurd rfl ha
    case vacant => exact fun _ => rfl
    case outside => exact fun ha => nomatch ha
    case free => exact fun hdummy => nomatch hdummy
    case lastfree_le => exact Int.natCast_nonneg _
    case blank => exact fun _ => ⟨fun a => rfl, rfl, Int.le_refl 0⟩
    case lsizenode_le => exact Nat.zero_le _
    case buffer => exact harray.1
    case sizearray_lt => exact harray.2
  rw [if_neg hzero]
  by_cases hover : maxBits < ceillog2 size
  · right
    rw [if_pos hover]
    exact ⟨hover, rfl⟩
  · left
    rw [if_neg hover]
    refine ⟨_, rfl, ⟨?_, rfl, rfl, fun a => rfl⟩, (if_neg hzero).symm⟩
    constructor
    case scattered => exact scattered_empty
    case inside => exact fun ha => absurd rfl ha
    case vacant => exact fun _ => rfl
    case outside => exact fun ha => nomatch ha
    case free =>
      intro _ a ha hlast
      have hlt : (a : Int) < (2 ^ ceillog2 size : Nat) := Int.ofNat_lt.mpr ha
      exact absurd hlast (Int.not_le.mpr hlt)
    case lastfree_le => exact Int.le_refl _
    case blank => exact fun hdummy => nomatch hdummy
    case lsizenode_le => exact Nat.not_lt.mp hover
    case buffer => exact harray.1
    case sizearray_lt => exact harray.2

/-! ### Growing the array part -/

theorem growarray_spec (harray : t.ArrayOk) (hn : n < 2 ^ 31) (hle : t.sizearray ≤ n) :
    (growarray t n).ArrayOk ∧ (growarray t n).sizearray = n ∧ (t.sizearray = n → growarray t n = t) ∧
      ∀ j < n, (growarray t n).array.getD j .nil = if j < t.sizearray then t.array.getD j .nil else .nil := by
  rw [growarray]
  by_cases hlt : t.sizearray < n
  · rw [if_pos hlt]
    have hlength : ((t.array.take t.sizearray).take n).length = t.sizearray := by
      have hbuffer := harray.1
      simp only [List.length_take]
      omega
    refine ⟨⟨?_, hn⟩, rfl, fun heq => absurd heq hlt.ne, fun j hj => ?_⟩
    · change n ≤ ((t.array.take t.sizearray).take n ++ List.replicate (n - t.sizearray) TValue.nil).length
      rw [List.length_append, hlength, List.length_replicate]
      omega
    · change ((t.array.take t.sizearray).take n ++ List.replicate (n - t.sizearray) TValue.nil).getD j .nil = _
      rw [List.getD_eq_getElem?_getD, List.getElem?_append, hlength]
      by_cases hj' : j < t.sizearray
      · rw [if_pos hj', if_pos hj', List.getElem?_take, if_pos hj, List.getElem?_take, if_pos hj',
          List.getD_eq_getElem?_getD]
      · rw [if_neg hj', if_neg hj', List.getElem?_replicate, if_pos (by omega), Option.getD_some]
  · have heq : t.sizearray = n := Nat.le_antisymm hle (Nat.not_lt.mp hlt)
    rw [if_neg hlt]
    refine ⟨harray, heq, fun _ => rfl, fun j hj => ?_⟩
    rw [if_pos (heq ▸ hj)]

/-! ### Moves -/

/-- The keys of `t₀` are in `t` with their values, except for the pending ones. -/
structure Partial (t₀ : Table V) (pending : TValue V → Prop) (t : Table V) : Prop where
  gone : ∀ {k}, pending k → t.content k = .nil
  kept : ∀ {k}, ¬ pending k → t.content k = t₀.content k

section Partial

variable {pending pending' : TValue V → Prop}

theorem Partial.congr (h : Partial t₀ pending t) (hiff : ∀ k, pending' k ↔ pending k) : Partial t₀ pending' t :=
  ⟨fun hk => h.gone ((hiff _).mp hk), fun hk => h.kept fun hk' => hk ((hiff _).mpr hk')⟩

theorem Partial.done (h : Partial t₀ pending t) (hnone : ∀ k, ¬ pending k) : t.content = t₀.content :=
  funext fun k => h.kept (hnone k)

/-- A key without a value has not to be moved. -/
theorem Partial.skip (h : Partial t₀ pending t) (hk : t₀.content k = .nil) :
    Partial t₀ (fun k' => pending k' ∧ k' ≠ k) t := by
  refine ⟨fun hk' => h.gone hk'.1, fun {k'} hk' => ?_⟩
  by_cases hp : pending k'
  · have heq : k' = k := by_contra fun hne => hk' ⟨hp, hne⟩
    rw [h.gone hp, heq, hk]
  · exact h.kept hp

/-- A key is moved. -/
theorem Partial.move (h : Partial t₀ pending t) (hcontent : t'.content = Function.update t.content k (t₀.content k)) :
    Partial t₀ (fun k' => pending k' ∧ k' ≠ k) t' := by
  refine ⟨fun {k'} hk' => ?_, fun {k'} hk' => ?_⟩
  · rw [hcontent, Function.update_of_ne hk'.2, h.gone hk'.1]
  · rw [hcontent]
    by_cases heq : k' = k
    · rw [heq, Function.update_self]
    · rw [Function.update_of_ne heq, h.kept fun hp => hk' ⟨hp, heq⟩]

end Partial

/-! ### The nodes of the old hash part -/

/-- The keys of the nodes below `i`. -/
def keysBelow (t₀ : Table V) (i : Nat) (k : TValue V) : Prop := ∃ a < i, keyAt t₀ a = some k

theorem keysBelow_iff (h₀ : Valid t₀) (hkey : keyAt t₀ i = some k) (k' : TValue V) :
    keysBelow t₀ i k' ↔ keysBelow t₀ (i + 1) k' ∧ k' ≠ k := by
  constructor
  · rintro ⟨a, ha, hak⟩
    refine ⟨⟨a, Nat.lt_succ_of_lt ha, hak⟩, fun heq => ?_⟩
    have hsame := h₀.scattered.unique hkey (heq ▸ hak)
    omega
  · rintro ⟨⟨a, ha, hak⟩, hne⟩
    have hai : a ≠ i := fun heq => by
      rw [heq, hkey] at hak
      exact hne (Option.some.inj hak).symm
    exact ⟨a, by omega, hak⟩

theorem keysBelow_vacant (hkey : keyAt t₀ i = none) (k' : TValue V) : keysBelow t₀ i k' ↔ keysBelow t₀ (i + 1) k' := by
  constructor
  · rintro ⟨a, ha, hak⟩
    exact ⟨a, Nat.lt_succ_of_lt ha, hak⟩
  · rintro ⟨a, ha, hak⟩
    have hai : a ≠ i := fun heq => by
      rw [heq, hkey] at hak
      cases hak
    exact ⟨a, by omega, hak⟩

/-- A node without a value is nothing to move. -/
theorem Partial.skipNode (h₀ : Valid t₀) (hval : (t₀.node i).val = .nil) (h : Partial t₀ (keysBelow t₀ (i + 1)) t) :
    Partial t₀ (keysBelow t₀ i) t := by
  cases hkey : keyAt t₀ i with
  | none => exact h.congr (keysBelow_vacant hkey)
  | some k =>
    have hcontent : t₀.content k = .nil := by rw [h₀.content_node hkey, hval]
    exact (h.skip hcontent).congr (keysBelow_iff h₀ hkey)

section Outcome

variable {m : Type → Type} [Monad m] {host : Host V m} (o : host.Outcome) {newkey : Host.Newkey V m}

/-- Taking a key in either works and leaves `J` when its value is written, or it fails in a way that is allowed. -/
def EntersOr (newkey : Host.Newkey V m) (t : Table V) (k : TValue V) (J : Table V → Prop) : Prop :=
  (∃ t' p, o.Returns (Host.enter newkey t k) (t', p) ∧ Entered t k t' p ∧ ∀ v t'', v ≠ .nil → Written t' k v t'' → J t'') ∨
    o.Fails (Host.enter newkey t k)

variable {o}

theorem EntersOr.mono {J J' : Table V → Prop} (h : EntersOr o newkey t k J) (hJ : ∀ t', J t' → J' t') :
    EntersOr o newkey t k J' :=
  h.imp_left fun ⟨t', p, henter, hentered, hwrite⟩ => ⟨t', p, henter, hentered, fun v t'' hv hwritten => hJ t'' (hwrite v t'' hv hwritten)⟩

theorem returns_placed (hp : t.place k ≠ .nilobject) : o.Returns (Host.enter newkey t k) (t, t.place k) := by
  rw [Host.enter]
  cases hplace : t.place k with
  | nilobject => exact absurd hplace hp
  | array i => exact o.pure _
  | node a => exact o.pure _

/-- A key that has a place keeps it. -/
theorem EntersOr.placed (h : Valid t) (hp : t.place k ≠ .nilobject) {J : Table V → Prop}
    (hJ : ∀ v t', v ≠ .nil → Written t k v t' → J t') : EntersOr o newkey t k J :=
  .inl ⟨t, t.place k, returns_placed hp, h.entered_self hp, hJ⟩

/-- A key that has none is new. -/
theorem enter_absent (newkey : Host.Newkey V m) (hp : t.place k = .nilobject) : Host.enter newkey t k = newkey t k := by
  rw [Host.enter, hp]

/-- The loop over the nodes moves all their keys, if each of them can be taken in. -/
theorem moveNodes_spec (h₀ : Valid t₀) {J : Nat → Table V → Prop}
    (hskip : ∀ {i t}, J (i + 1) t → (t₀.node i).val = .nil → J i t)
    (henter : ∀ {i t}, i < t₀.sizenode → Valid t → Partial t₀ (keysBelow t₀ (i + 1)) t → J (i + 1) t →
      (t₀.node i).val ≠ .nil → EntersOr o newkey t (t₀.node i).key (J i))
    (hi : i ≤ t₀.sizenode) (h : Valid t) (hpart : Partial t₀ (keysBelow t₀ i) t) (hJ : J i t) :
    (∃ t', o.Returns (host.moveNodes newkey t₀.node i t) t' ∧ Valid t' ∧ t'.content = t₀.content ∧ J 0 t') ∨
      o.Fails (host.moveNodes newkey t₀.node i t) := by
  induction i generalizing t with
  | zero =>
    refine .inl ⟨t, o.pure t, h, hpart.done fun k hk => ?_, hJ⟩
    obtain ⟨a, ha, -⟩ := hk
    exact absurd ha (Nat.not_lt_zero a)
  | succ i ih =>
    have hrest : ∀ {x : m (Table V)} {t'}, o.Returns x t' → Valid t' → Partial t₀ (keysBelow t₀ i) t' → J i t' →
        (∃ t', o.Returns (x >>= host.moveNodes newkey t₀.node i) t' ∧ Valid t' ∧ t'.content = t₀.content ∧ J 0 t') ∨
          o.Fails (x >>= host.moveNodes newkey t₀.node i) := by
      intro x t' hx h' hpart' hJ'
      refine (ih (by omega) h' hpart' hJ').imp ?_ (o.fails_bind hx)
      rintro ⟨t'', hreturns, hdone⟩
      exact ⟨t'', o.returns_bind hx hreturns, hdone⟩
    rw [Host.moveNodes, Host.moveNode]
    by_cases hval : (t₀.node i).val = .nil
    · rw [if_pos hval]
      exact hrest (o.pure t) h (hpart.skipNode h₀ hval) (hskip hJ hval)
    rw [if_neg hval]
    have hkey := h₀.keyAt_of_val hval
    obtain ⟨hset, hfail⟩ := o.luaHSet newkey h (ne_nil_of_keyAt hkey)
    obtain ⟨t', p, henters, hentered, hwrite⟩ | hfails := henter (Nat.lt_of_succ_le hi) h hpart hJ hval
    · have hwritten := hentered.write (t₀.node i).val
      refine hrest (o.returns_bind (hset henters) (o.pure _)) hwritten.valid ?_ (hwrite _ _ hval hwritten)
      have hcontent : (t'.write (t₀.node i).val p).content =
          Function.update t.content (t₀.node i).key (t₀.content (t₀.node i).key) := by
        rw [hwritten.content, hentered.content, h₀.content_node hkey]
      exact (hpart.move hcontent).congr (keysBelow_iff h₀ hkey)
    · exact .inr (o.bind_fails _ (o.bind_fails _ (hfail hfails)))

end Outcome

/-! ### A resize that does not shrink the array part -/

/-- The new hash part has room for what is still to come, and for `extra` more keys. -/
structure Roomy (t₀ : Table V) (n extra i : Nat) (t : Table V) : Prop where
  sizearray : t.sizearray = n
  room : t.used + outsideBelow t₀ n i + extra ≤ t.capacity
  array : t₀.sizearray = n → t.array = t₀.array

theorem Roomy.skip {extra : Nat} (h : Roomy t₀ n extra (i + 1) t) (hval : (t₀.node i).val = .nil) :
    Roomy t₀ n extra i t := by
  have hroom := h.room
  rw [outsideBelow, if_pos (.inl hval)] at hroom
  exact ⟨h.sizearray, hroom, h.array⟩

section Outcome

variable {m : Type → Type} [Monad m] {host : Host V m} {o : host.Outcome} {newkey : Host.Newkey V m} {extra : Nat}

theorem Roomy.enters (hinserts : o.Inserts newkey) (h₀ : Valid t₀) (h : Valid t) (hroomy : Roomy t₀ n extra (i + 1) t)
    (hval : (t₀.node i).val ≠ .nil) : EntersOr o newkey t (t₀.node i).key (Roomy t₀ n extra i) := by
  have hkey := h₀.keyAt_of_val hval
  have hroom := hroomy.room
  rw [outsideBelow] at hroom
  -- a node's key comes to the array part only where that has grown
  have hin : t.inArray (t₀.node i).key ↔ 0 < index (t₀.node i).key ∧ index (t₀.node i).key ≤ n := by
    rw [Table.inArray, hroomy.sizearray]
  have harray : t₀.sizearray = n → ¬ t.inArray (t₀.node i).key := by
    intro hsame hin'
    rw [hin, ← hsame] at hin'
    exact h₀.outside hkey hin'
  by_cases hplace : t.place (t₀.node i).key = .nilobject
  · have hout := (h.absent_of_place hplace).1
    rw [if_neg fun hcond => hcond.elim hval fun hin' => hout (hin.mpr hin')] at hroom
    obtain ⟨t', p, hinsert, hinserted⟩ := hinserts h (ne_nil_of_keyAt hkey) hplace (show t.used < t.capacity by omega)
    left
    rw [enter_absent newkey hplace]
    refine ⟨t', p, hinsert, hinserted.entered, fun v t'' _ hwritten => ?_⟩
    have hsizes := hwritten.sizes.trans (sizes_of_shape hinserted.shape)
    have hout' : ¬ t'.inArray (t₀.node i).key := fun hin' => hout ((inArray_of_sizes (sizes_of_shape hinserted.shape)).mp hin')
    constructor
    case sizearray => exact (congrArg Prod.fst hsizes).trans hroomy.sizearray
    case room =>
      have hused := hinserted.used
      rw [hwritten.used, capacity_of_sizes hsizes]
      omega
    case array => exact fun hsame => ((hwritten.array hout').trans (congrArg Prod.fst hinserted.shape)).trans (hroomy.array hsame)
  · refine .placed h hplace fun v t'' _ hwritten => ?_
    constructor
    case sizearray => exact (congrArg Prod.fst hwritten.sizes).trans hroomy.sizearray
    case room =>
      rw [hwritten.used, capacity_of_sizes hwritten.sizes]
      omega
    case array => exact fun hsame => (hwritten.array (harray hsame)).trans (hroomy.array hsame)

end Outcome

/-- What a resize to an array part of size `n` leaves, with room for `extra` more keys. -/
structure Resized (t : Table V) (n extra : Nat) (t' : Table V) : Prop where
  valid : Valid t'
  content : t'.content = t.content
  sizearray : t'.sizearray = n
  room : t'.used + extra ≤ t'.capacity
  array : t.sizearray = n → t'.array = t.array

/-- Over an array part that has grown a new hash part is the start of the moves. -/
theorem Fresh.pending (h : Valid t) (hle : t.sizearray ≤ n) (hn : n < 2 ^ 31) {fresh : Table V}
    (hempty : Fresh (growarray t n) fresh) : Partial t (keysBelow t t.sizenode) fresh := by
  obtain ⟨-, hsizearray, -, hread⟩ := growarray_spec h.arrayOk hn hle
  constructor
  case gone =>
    intro k hk
    obtain ⟨a, -, ha⟩ := hk
    have hout := h.outside ha
    rw [hempty.content]
    by_cases hin : (growarray t n).inArray k
    · have hpos := hin.1
      have hbound := hin.2
      rw [Table.inArray] at hout
      rw [if_pos hin, hread _ (by omega), if_neg (by omega)]
    · rw [if_neg hin]
  case kept =>
    intro k hk
    rw [hempty.content]
    by_cases hin : t.inArray k
    · have hin' : (growarray t n).inArray k := ⟨hin.1, hsizearray.symm ▸ hin.2.trans hle⟩
      have hpos := hin.1
      have hbound := hin.2
      rw [if_pos hin', hread _ (by omega), if_pos (by omega), content_array hin]
    · have hfresh : ∀ a, keyAt t a ≠ some k := fun a ha =>
        hk ⟨a, h.inside (by rw [ha]; exact Option.some_ne_none k), ha⟩
      rw [h.content_absent hin hfresh]
      by_cases hin' : (growarray t n).inArray k
      · have hpos := hin'.1
        have hbound := hin'.2
        rw [Table.inArray] at hin
        rw [if_pos hin', hread _ (by omega), if_neg (by omega)]
      · rw [if_neg hin']

/-- Where the array part does not shrink the keys of the nodes are all that is moved. -/
theorem reinsert_grow {m : Type → Type} [Monad m] {host : Host V m} {o : host.Outcome} {newkey : Host.Newkey V m}
    {J : Nat → Table V → Prop} (h : Valid t) (hle : t.sizearray ≤ n) (hn : n < 2 ^ 31) {fresh : Table V}
    (hempty : Fresh (growarray t n) fresh) (hskip : ∀ {i t'}, J (i + 1) t' → (t.node i).val = .nil → J i t')
    (henter : ∀ {i t'}, Valid t' → Partial t (keysBelow t (i + 1)) t' → J (i + 1) t' → (t.node i).val ≠ .nil →
      EntersOr o newkey t' (t.node i).key (J i)) (hJ : J t.sizenode fresh) :
    (∃ t', o.Returns (host.reinsert newkey t n fresh) t' ∧ Valid t' ∧ t'.content = t.content ∧ J 0 t') ∨
      o.Fails (host.reinsert newkey t n fresh) := by
  rw [Host.reinsert, if_neg (Nat.not_lt.mpr hle)]
  have hstart : o.Returns (pure fresh : m (Table V)) fresh := o.pure fresh
  refine (moveNodes_spec h hskip (fun _ ht hpart hJ hval => henter ht hpart hJ hval) (Nat.le_refl _) hempty.valid
    (hempty.pending h hle hn) hJ).imp ?_ (o.fails_bind hstart)
  rintro ⟨t', hreturns, hdone⟩
  exact ⟨t', o.returns_bind hstart hreturns, hdone⟩

/-- With room for every key that is moved there is no failure. -/
theorem reinsert_roomy {m : Type → Type} [Monad m] {host : Host V m} {o : host.Outcome} {newkey : Host.Newkey V m}
    (hinserts : o.Inserts newkey) (h : Valid t) (hle : t.sizearray ≤ n) (hn : n < 2 ^ 31) {extra : Nat} {fresh : Table V}
    (hempty : Fresh (growarray t n) fresh) (hroom : outsideBelow t n t.sizenode + extra ≤ fresh.capacity) :
    (∃ t', o.Returns (host.reinsert newkey t n fresh) t' ∧ Resized t n extra t') ∨
      o.Fails (host.reinsert newkey t n fresh) := by
  obtain ⟨-, hsizearray, hsame, -⟩ := growarray_spec h.arrayOk hn hle
  have hJ : Roomy t n extra t.sizenode fresh := by
    refine ⟨hempty.sizearray.trans hsizearray, ?_, fun heq => hempty.array.trans (by rw [hsame heq])⟩
    rw [hempty.used]
    omega
  refine (reinsert_grow h hle hn hempty Roomy.skip (fun ht _ hJ hval => hJ.enters hinserts h ht hval) hJ).imp_left ?_
  exact fun ⟨t', hreturns, hvalid, hcontent, hdone⟩ =>
    ⟨t', hreturns, hvalid, hcontent, hdone.sizearray, hdone.room, hdone.array⟩

/-- The code of before, as it is on the host whose allocations succeed. -/
theorem resize_eq (newkey : Newkey V) (t : Table V) (n nhsize : Nat) :
    resize newkey t n nhsize = (do Host.plain.reinsert newkey t n (← setnodevector (growarray t n) nhsize)) := by
  rw [← Host.plain_resize, Host.resize, Host.plain_growarray, ← Host.plain_setnodevector]
  rfl

theorem resize_grow {newkey : Newkey V} (hinserts : Inserts newkey) (h : Valid t) (hle : t.sizearray ≤ n) (hn : n < 2 ^ 31)
    {extra nhsize : Nat} (hsize : nhsize ≤ 2 ^ 32) (hroom : outsideBelow t n t.sizenode + extra ≤ nhsize) :
    (∃ t', resize newkey t n nhsize = .ok t' ∧ Resized t n extra t') ∨
      maxBits < ceillog2 nhsize ∧ resize newkey t n nhsize = .error .tableOverflow := by
  rw [resize_eq]
  obtain ⟨fresh, hfresh, hempty, hcapacity⟩ | ⟨hlarge, hover⟩ :=
    setnodevector_spec (growarray_spec h.arrayOk hn hle).1 nhsize
  · have hfits := le_nodesFor hsize
    rw [hfresh]
    refine (reinsert_roomy (o := Host.plainOutcome False) hinserts h hle hn hempty (by omega)).imp id ?_
    exact fun hfails => hfails.1.elim
  · right
    rw [hover]
    exact ⟨hlarge, rfl⟩

/-! ### Rehashes that leave the array part -/

/-- The size that a rehash asks for the hash part under an array part of size `n`. -/
def nhsize (t : Table V) (k : TValue V) (n : Nat) : Nat :=
  (arrayInts t (min t.sizearray maxAsize)).length + liveBelow t t.sizenode + 1 - upTo (rehashInts t k) n

/-- It is an `int`. -/
theorem nhsize_le (h : Valid t) (k : TValue V) (n : Nat) : nhsize t k n ≤ 2 ^ 32 := by
  have harray : (arrayInts t (min t.sizearray maxAsize)).length ≤ maxAsize := by
    have hfilter : (arrayInts t (min t.sizearray maxAsize)).length ≤ (List.range' 1 (min t.sizearray maxAsize)).length :=
      List.length_filter_le _ _
    rw [List.length_range'] at hfilter
    omega
  have hlive := liveBelow_le t t.sizenode
  have hnodes : t.sizenode ≤ maxAsize := Nat.pow_le_pow_right (by decide) h.lsizenode_le
  have hmax : maxAsize = 67108864 := by decide
  rw [nhsize]
  omega

/-- The new key, which is in no part yet, has room in the hash part or belongs in the array part. -/
def extraRoom (k : TValue V) (n : Nat) : Nat := if 0 < index k ∧ index k ≤ n then 0 else 1

theorem rehash_grow {newkey : Newkey V} (hinserts : Inserts newkey) (h : Valid t) (hplace : t.place k = .nilobject)
    (hbest : Best (rehashInts t k) n) (hle : t.sizearray ≤ n) :
    (∃ t', rehash newkey t k = .ok t' ∧ Resized t n (extraRoom k n) t') ∨
      maxBits < ceillog2 (nhsize t k n) ∧ rehash newkey t k = .error .tableOverflow := by
  obtain ⟨m, hbest', hrehash⟩ := h.rehash_eq newkey hplace
  have heq := hbest'.unique hbest
  subst heq
  rw [hrehash]
  have hmax := hbest.le
  exact resize_grow hinserts h hle (hmax.trans_lt (by decide)) (nhsize_le h k m) (room_of_rehash t k hmax)

/-- After a rehash that made room for the key, it is taken in. -/
theorem Resized.takes {m : Type → Type} [Monad m] {host : Host V m} {o : host.Outcome} {newkey : Host.Newkey V m}
    (hinserts : o.Inserts newkey) (hk : k ≠ .nil) (hresized : Resized t n (extraRoom k n) t') :
    ∃ t'' p, o.Returns (host.luaHSet newkey t' k) (t'', p) ∧ Entered t' k t'' p ∧
      t''.array = t'.array ∧ t''.sizearray = t'.sizearray := by
  have hvalid := hresized.valid
  obtain ⟨hset, -⟩ := o.luaHSet newkey hvalid hk
  by_cases hplace : t'.place k = .nilobject
  · have hout := (hvalid.absent_of_place hplace).1
    have hroom := hresized.room
    rw [Table.inArray, hresized.sizearray] at hout
    rw [extraRoom, if_neg hout] at hroom
    obtain ⟨t'', p, hinsert, hinserted⟩ := hinserts hvalid hk hplace hroom
    rw [enter_absent newkey hplace] at hset
    have hshape := hinserted.shape
    exact ⟨t'', p, hset hinsert, hinserted.entered, congrArg Prod.fst hshape, congrArg (·.2.1) hshape⟩
  · refine ⟨t', t'.place k, hset ?_, hvalid.entered_self hplace, rfl, rfl⟩
    exact returns_placed hplace

theorem Resized.enters {newkey : Newkey V} (hinserts : Inserts newkey) (hk : k ≠ .nil)
    (hresized : Resized t n (extraRoom k n) t') :
    ∃ t'' p, luaHSet newkey t' k = .ok (t'', p) ∧ Entered t' k t'' p ∧
      t''.array = t'.array ∧ t''.sizearray = t'.sizearray := by
  rw [← Host.plain_luaHSet]
  exact hresized.takes (o := Host.plainOutcome False) hinserts hk

theorem rehashInts_exhausted (t : Table V) (k : TValue V) : rehashInts t.exhausted k = rehashInts t k := by
  have hnodes : ∀ i, nodeInts t.exhausted i = nodeInts t i := by
    intro i
    induction i with
    | zero => rfl
    | succ i ih =>
      rw [nodeInts, nodeInts, ih]
      rfl
  rw [rehashInts, rehashInts, hnodes]
  rfl

/-- The array part is left as it was. -/
def SameArray (t t' : Table V) : Prop := t'.array = t.array ∧ t'.sizearray = t.sizearray

/-- Where the array part has its best size already a new key leaves it alone. -/
theorem newkey_best (d : Nat) (h : Valid t) (hk : k ≠ .nil) (hplace : t.place k = .nilobject)
    (hbest : Best (rehashInts t k) t.sizearray) :
    (∃ t' p, newkey (d + 2) t k = .ok (t', p) ∧ Entered t k t' p ∧ SameArray t t') ∨
      newkey (d + 2) t k = .error .tableOverflow := by
  obtain ⟨t', p, hinsert, hinserted⟩ | ⟨-, hexhausted, hstep⟩ := newkeyStep_cases (newkey (d + 1)) h hk hplace
  · have hshape := hinserted.shape
    exact .inl ⟨t', p, hinsert, hinserted.entered, congrArg Prod.fst hshape, congrArg (·.2.1) hshape⟩
  rw [newkey, hstep]
  rw [← rehashInts_exhausted] at hbest
  obtain ⟨t', hrehash, hresized⟩ | ⟨-, hover⟩ :=
    rehash_grow (newkeyStep_inserts (newkey d)) hexhausted hplace hbest (Nat.le_refl t.sizearray)
  · left
    obtain ⟨t'', p, hset, hentered, harray, hsize⟩ := hresized.enters (newkeyStep_inserts (newkey d)) hk
    refine ⟨t'', p, ?_, ⟨hentered.valid, hentered.place, hentered.exists_place, ?_⟩, ?_, ?_⟩
    · rw [newkey, hrehash]
      exact hset
    · exact hentered.content.trans hresized.content
    · exact harray.trans (hresized.array rfl)
    · exact hsize.trans hresized.sizearray
  · right
    rw [newkey, hover]
    rfl

/-! ### A resize that shrinks the array part -/

/-- Keys that go from the table leave its best size what it was, as long as none goes from the array part. -/
theorem Partial.best {pending : TValue V → Prop} (h₀ : Valid t₀) (hek : t₀.place ek = .nilobject)
    (hbest : Best (rehashInts t₀ ek) n) (hn : n ≤ t₀.sizearray) (h : Valid t) (hplace : t.place k = .nilobject)
    (hpart : Partial t₀ pending t) (hkept : ∀ j, 0 < j → j ≤ n → ¬ pending (intKey V j))
    (hk : t₀.content k ≠ .nil ∨ k = ek) : Best (rehashInts t k) n := by
  apply hbest.mono (h₀.indices_rehashInts hek) (h.indices_rehashInts hplace)
  · intro j hj
    obtain ⟨hpos, hle, hj⟩ := h.mem_rehashInts.mp hj
    refine h₀.mem_rehashInts.mpr ⟨hpos, hle, ?_⟩
    rcases hj with heq | hcontent
    · rcases hk with hlive | hnew
      · exact .inr (heq ▸ hlive)
      · exact .inl (hnew ▸ heq)
    · have hmoved : ¬ pending (intKey V j) := fun hp => hcontent (hpart.gone hp)
      rw [hpart.kept hmoved] at hcontent
      exact .inr hcontent
  · intro j hj hjn
    obtain ⟨hpos, hle, hj⟩ := h₀.mem_rehashInts.mp hj
    refine h.mem_rehashInts.mpr ⟨hpos, hle, .inr ?_⟩
    rcases hj with heq | hcontent
    · -- the new key would be in the array part
      have hout := (h₀.absent_of_place hek).1
      rw [heq, Table.inArray, index_intKey (hle.trans_lt (by decide))] at hout
      omega
    · rw [hpart.kept (hkept j hpos hjn)]
      exact hcontent

/-- So it is when a key of a node is to be moved. -/
theorem Partial.best_node (h₀ : Valid t₀) (hek : t₀.place ek = .nilobject) (hbest : Best (rehashInts t₀ ek) n)
    (hn : n ≤ t₀.sizearray) (h : Valid t) (hpart : Partial t₀ (keysBelow t₀ (i + 1)) t) (hval : (t₀.node i).val ≠ .nil)
    (hplace : t.place (t₀.node i).key = .nilobject) : Best (rehashInts t (t₀.node i).key) n := by
  refine hpart.best h₀ hek hbest hn h hplace ?_ (.inl ?_)
  · rintro j hpos hjn ⟨a, -, ha⟩
    have hout := h₀.outside ha
    rw [Table.inArray, index_intKey (by have hlt := h₀.sizearray_lt; omega)] at hout
    omega
  · rw [h₀.content_node (h₀.keyAt_of_val hval)]
    exact hval

/-- What is still to be moved before the element `i` of the vanishing slice. -/
def sliceFrom (t₀ : Table V) (i : Nat) (k : TValue V) : Prop :=
  keysBelow t₀ t₀.sizenode k ∨ i < index k ∧ index k ≤ t₀.sizearray

theorem sliceFrom_iff (h₀ : Valid t₀) (hi : i < t₀.sizearray) (k : TValue V) :
    sliceFrom t₀ (i + 1) k ↔ sliceFrom t₀ i k ∧ k ≠ intKey V (i + 1) := by
  have hindex : index (intKey V (i + 1)) = i + 1 := index_intKey (Nat.lt_of_le_of_lt hi h₀.sizearray_lt)
  constructor
  · rintro (⟨a, ha, hak⟩ | ⟨hlt, hle⟩)
    · refine ⟨.inl ⟨a, ha, hak⟩, fun heq => h₀.outside hak ?_⟩
      rw [heq, Table.inArray, hindex]
      omega
    · refine ⟨.inr ⟨by omega, hle⟩, fun heq => ?_⟩
      rw [heq, hindex] at hlt
      exact absurd hlt (Nat.lt_irrefl _)
  · rintro ⟨hnode | ⟨hlt, hle⟩, hne⟩
    · exact .inl hnode
    · right
      have hother : index k ≠ i + 1 := fun heq => by
        have hk := eq_intKey (k := k) (by omega)
        rw [heq] at hk
        exact hne hk
      exact ⟨by omega, hle⟩

/-- The state of the loop over the vanishing slice. -/
structure Slicing (t₀ : Table V) (n i : Nat) (t : Table V) : Prop where
  valid : Valid t
  sizearray : t.sizearray = n
  array : t.array = t₀.array
  moved : Partial t₀ (sliceFrom t₀ i) t

theorem index_element (h₀ : Valid t₀) (hi : i < t₀.sizearray) : index (intKey V (i + 1)) = i + 1 :=
  index_intKey (Nat.lt_of_le_of_lt hi h₀.sizearray_lt)

theorem content_element (h₀ : Valid t₀) (hi : i < t₀.sizearray) : t₀.content (intKey V (i + 1)) = t₀.array.getD i .nil := by
  have hindex := index_element h₀ hi
  have hin : t₀.inArray (intKey V (i + 1)) := by
    rw [Table.inArray, hindex]
    omega
  rw [content_array hin, hindex, Nat.add_sub_cancel]

/-- The keys of the vanishing slice do not belong in the array part that is left. -/
theorem Slicing.element_outside (h₀ : Valid t₀) (hn : n ≤ i) (hi : i < t₀.sizearray) (h : Slicing t₀ n i t) :
    ¬ t.inArray (intKey V (i + 1)) := by
  rw [Table.inArray, h.sizearray, index_element h₀ hi]
  omega

/-- The best size is still the best when an element of the slice is to be moved. -/
theorem Slicing.best_element (h₀ : Valid t₀) (hek : t₀.place ek = .nilobject) (hbest : Best (rehashInts t₀ ek) n)
    (hn : n ≤ i) (hi : i < t₀.sizearray) (h : Slicing t₀ n i t) (hval : t₀.array.getD i .nil ≠ .nil)
    (hplace : t.place (intKey V (i + 1)) = .nilobject) : Best (rehashInts t (intKey V (i + 1))) n := by
  refine h.moved.best h₀ hek hbest (hn.trans hi.le) h.valid hplace ?_ (.inl (content_element h₀ hi ▸ hval))
  rintro j hpos hjn (⟨a, -, ha⟩ | ⟨hlt, -⟩)
  · have hout := h₀.outside ha
    rw [Table.inArray, index_intKey (by have hsize := h₀.sizearray_lt; omega)] at hout
    omega
  · rw [index_intKey (by have hsize := h₀.sizearray_lt; omega)] at hlt
    omega

section Outcome

variable {m : Type → Type} [Monad m] {host : Host V m} {o : host.Outcome} {newkey : Host.Newkey V m}

theorem Slicing.moveElement {J J' : Table V → Prop} (h₀ : Valid t₀) (hn : n ≤ i) (hi : i < t₀.sizearray)
    (hskip : t₀.array.getD i .nil = .nil → J t → J' t)
    (henter : t₀.array.getD i .nil ≠ .nil → EntersOr o newkey t (intKey V (i + 1)) fun t' => SameArray t t' ∧ J' t')
    (h : Slicing t₀ n i t) (hJ : J t) :
    (∃ t', o.Returns (host.moveElement newkey t i) t' ∧ Slicing t₀ n (i + 1) t' ∧ J' t') ∨
      o.Fails (host.moveElement newkey t i) := by
  have hcontent := content_element h₀ hi
  rw [Host.moveElement, h.array]
  by_cases hval : t₀.array.getD i .nil = .nil
  · left
    rw [if_pos hval]
    exact ⟨t, o.pure t, ⟨h.valid, h.sizearray, h.array, (h.moved.skip (hcontent.trans hval)).congr (sliceFrom_iff h₀ hi)⟩,
      hskip hval hJ⟩
  obtain ⟨hset, hfail⟩ := o.luaHSetnum newkey h.valid (Int32.ofNat (i + 1))
  rw [if_neg hval]
  obtain ⟨t', p, henters, hentered, hwrite⟩ | hfails := henter hval
  · left
    -- no write changes the array part, so that the element is still there after the key came in
    obtain ⟨⟨hsame, hsame'⟩, -⟩ := hwrite (.boolean true) _ (by rintro ⟨⟩) (hentered.write _)
    have hany := hentered.write (.boolean true)
    have hsize : t'.sizearray = t.sizearray := (congrArg Prod.fst hany.sizes).symm.trans hsame'
    have hout : ¬ t'.inArray (intKey V (i + 1)) := fun hin => h.element_outside h₀ hn hi ((inArray_congr hsize).mp hin)
    have harray : t'.array = t₀.array := ((hany.array hout).symm.trans hsame).trans h.array
    have hread : t'.read (.array i) = t₀.array.getD i .nil := by rw [Table.read, harray]
    have hwritten := hentered.write (t'.read (.array i))
    obtain ⟨hkept, hJ'⟩ := hwrite _ _ (hread.trans_ne hval) hwritten
    refine ⟨_, o.returns_bind (hset henters) (o.pure _),
      ⟨hwritten.valid, hkept.2.trans h.sizearray, hkept.1.trans h.array, ?_⟩, hJ'⟩
    refine (h.moved.move ?_).congr (sliceFrom_iff h₀ hi)
    rw [hwritten.content, hentered.content, hread, hcontent]
  · exact .inr (o.bind_fails _ (hfail hfails))

/-- The loop over the vanishing slice moves all its elements, if each of them can be taken in. -/
theorem moveSlice_spec {J : Nat → Table V → Prop} (h₀ : Valid t₀)
    (hskip : ∀ {i t}, i < t₀.sizearray → t₀.array.getD i .nil = .nil → J i t → J (i + 1) t)
    (henter : ∀ {i t}, n ≤ i → i < t₀.sizearray → Slicing t₀ n i t → J i t → t₀.array.getD i .nil ≠ .nil →
      EntersOr o newkey t (intKey V (i + 1)) fun t' => SameArray t t' ∧ J (i + 1) t')
    {steps : Nat} (hn : n ≤ i) (hi : i + steps = t₀.sizearray) (h : Slicing t₀ n i t) (hJ : J i t) :
    (∃ t', o.Returns (host.moveSlice newkey steps i t) t' ∧ Slicing t₀ n t₀.sizearray t' ∧ J t₀.sizearray t') ∨
      o.Fails (host.moveSlice newkey steps i t) := by
  induction steps generalizing i t with
  | zero => exact .inl ⟨t, o.pure t, hi ▸ h, hi ▸ hJ⟩
  | succ steps ih =>
    have hlt : i < t₀.sizearray := by omega
    rw [Host.moveSlice]
    obtain ⟨t', hmoved, h', hJ'⟩ | hfails := h.moveElement h₀ hn hlt (hskip hlt) (henter hn hlt h hJ) hJ
    · refine (ih (i := i + 1) (by omega) (by omega) h' hJ').imp ?_ (o.fails_bind hmoved)
      rintro ⟨t'', hreturns, hdone⟩
      exact ⟨t'', o.returns_bind hmoved hreturns, hdone⟩
    · exact .inr (o.bind_fails _ hfails)

end Outcome

/-- The rest of the buffer goes when nothing is left in it. -/
theorem Valid.take (h : Valid t) (hn : t.sizearray = n) :
    Valid { t with array := t.array.take n } ∧ Table.content { t with array := t.array.take n } = t.content := by
  subst hn
  have hvalid : Valid { t with array := t.array.take t.sizearray } := by
    constructor
    case buffer =>
      change t.sizearray ≤ (t.array.take t.sizearray).length
      rw [List.length_take]
      exact Nat.le_min.mpr ⟨Nat.le_refl _, h.buffer⟩
    case scattered => exact h.scattered
    case inside => exact h.inside
    case vacant => exact h.vacant
    case outside => exact h.outside
    case free => exact h.free
    case lastfree_le => exact h.lastfree_le
    case blank => exact h.blank
    case lsizenode_le => exact h.lsizenode_le
    case sizearray_lt => exact h.sizearray_lt
  refine ⟨hvalid, funext fun k => ?_⟩
  by_cases hin : t.inArray k
  · have hin' : Table.inArray { t with array := t.array.take t.sizearray } k := hin
    have hpos := hin.1
    have hle := hin.2
    rw [content_array hin, content_array hin']
    change (t.array.take t.sizearray).getD (index k - 1) .nil = _
    rw [List.getD_eq_getElem?_getD, List.getElem?_take, if_pos (by omega), List.getD_eq_getElem?_getD]
  · by_cases hused : ∃ a, keyAt t a = some k
    · obtain ⟨a, ha⟩ := hused
      rw [h.content_node ha, hvalid.content_node (a := a) ha]
    · rw [h.content_absent hin (not_exists.mp hused), hvalid.content_absent hin (not_exists.mp hused)]

/-- The empty hash part over an array part that has lost its end. -/
theorem Slicing.start (h₀ : Valid t₀) {fresh : Table V} (hempty : Fresh t₀ fresh) (hn : n < t₀.sizearray) :
    Slicing t₀ n n { fresh with sizearray := n } := by
  have hvalid : Valid { fresh with sizearray := n } := by
    constructor
    case outside =>
      intro a k ha
      exact nomatch (hempty.empty a).symm.trans ha
    case buffer => exact hn.le.trans (hempty.array ▸ h₀.buffer)
    case sizearray_lt => exact hn.trans h₀.sizearray_lt
    case scattered => exact hempty.valid.scattered
    case inside => exact hempty.valid.inside
    case vacant => exact hempty.valid.vacant
    case free => exact hempty.valid.free
    case lastfree_le => exact hempty.valid.lastfree_le
    case blank => exact hempty.valid.blank
    case lsizenode_le => exact hempty.valid.lsizenode_le
  have hcut : Fresh { t₀ with sizearray := n } { fresh with sizearray := n } := ⟨hvalid, hempty.array, rfl, hempty.empty⟩
  refine ⟨hvalid, rfl, hempty.array, ?_, ?_⟩
  · rintro k (⟨a, -, ha⟩ | ⟨hlt, -⟩)
    · have hout := h₀.outside ha
      rw [Table.inArray] at hout
      rw [hcut.content, if_neg fun hin => hout ⟨hin.1, hin.2.trans hn.le⟩]
    · rw [hcut.content, if_neg fun hin => absurd hin.2 (Nat.not_le.mpr hlt)]
  · intro k hk
    rw [hcut.content]
    by_cases hin : Table.inArray { t₀ with sizearray := n } k
    · have hin₀ : t₀.inArray k := ⟨hin.1, hin.2.trans hn.le⟩
      rw [if_pos hin, content_array hin₀]
    · have hout : ¬ t₀.inArray k := fun hin₀ => hk (.inr ⟨Nat.not_le.mp fun hle => hin ⟨hin₀.1, hle⟩, hin₀.2⟩)
      have hfresh : ∀ a, keyAt t₀ a ≠ some k := fun a ha =>
        hk (.inl ⟨a, h₀.inside (by rw [ha]; exact Option.some_ne_none k), ha⟩)
      rw [if_neg hin, h₀.content_absent hout hfresh]

/-- In a shrunk table a node's key is taken in without a change of the array part. -/
theorem enters_shrunk (d : Nat) (h₀ : Valid t₀) (hek : t₀.place ek = .nilobject) (hbest : Best (rehashInts t₀ ek) n)
    (hn : n < t₀.sizearray) (h : Valid t) (hpart : Partial t₀ (keysBelow t₀ (i + 1)) t) (hsize : t.sizearray = n)
    (hval : (t₀.node i).val ≠ .nil) :
    EntersOr (Host.plainOutcome True) (newkey (d + 2)) t (t₀.node i).key fun t' => t'.sizearray = n := by
  have hkey := h₀.keyAt_of_val hval
  by_cases hplace : t.place (t₀.node i).key = .nilobject
  · have hsame : Best (rehashInts t (t₀.node i).key) t.sizearray := by
      rw [hsize]
      exact hpart.best_node h₀ hek hbest hn.le h hval hplace
    rw [EntersOr, enter_absent _ hplace]
    refine (newkey_best d h (ne_nil_of_keyAt hkey) hplace hsame).imp ?_ fun hover => ⟨trivial, hover⟩
    rintro ⟨t', p, hinsert, hentered, -, hsize'⟩
    exact ⟨t', p, hinsert, hentered, fun v t'' _ hwritten => (congrArg Prod.fst hwritten.sizes).trans (hsize'.trans hsize)⟩
  · exact .placed h hplace fun v t'' _ hwritten => (congrArg Prod.fst hwritten.sizes).trans hsize

/-- In a shrunk table an element of the slice is taken in without a change of the array part. -/
theorem Slicing.enters (d : Nat) (h₀ : Valid t₀) (hek : t₀.place ek = .nilobject) (hbest : Best (rehashInts t₀ ek) n)
    (hn : n ≤ i) (hi : i < t₀.sizearray) (h : Slicing t₀ n i t) (hval : t₀.array.getD i .nil ≠ .nil) :
    EntersOr (Host.plainOutcome True) (newkey (d + 2)) t (intKey V (i + 1)) fun t' => SameArray t t' ∧ True := by
  have hout := h.element_outside h₀ hn hi
  by_cases hplace : t.place (intKey V (i + 1)) = .nilobject
  · have hsame : Best (rehashInts t (intKey V (i + 1))) t.sizearray := by
      rw [h.sizearray]
      exact h.best_element h₀ hek hbest hn hi hval hplace
    rw [EntersOr, enter_absent _ hplace]
    refine (newkey_best d h.valid (intKey_ne_nil _ _) hplace hsame).imp ?_ fun hover => ⟨trivial, hover⟩
    rintro ⟨t', p, hinsert, hentered, harray, hsize⟩
    refine ⟨t', p, hinsert, hentered, fun v t'' _ hwritten => ⟨⟨?_, ?_⟩, trivial⟩⟩
    · have hout' : ¬ t'.inArray (intKey V (i + 1)) := fun hin => hout ((inArray_congr hsize).mp hin)
      exact (hwritten.array hout').trans harray
    · exact (congrArg Prod.fst hwritten.sizes).trans hsize
  · exact .placed h.valid hplace fun v t'' _ hwritten => ⟨⟨hwritten.array hout, congrArg Prod.fst hwritten.sizes⟩, trivial⟩

/-- Where the array part shrinks the vanishing slice is moved first, and then the keys of the nodes, if each key can be taken in. -/
theorem reinsert_shrink {m : Type → Type} [Monad m] {host : Host V m} {o : host.Outcome} {newkey : Host.Newkey V m}
    {J K : Nat → Table V → Prop} (h₀ : Valid t₀) (hn : n < t₀.sizearray) {fresh : Table V} (hempty : Fresh t₀ fresh)
    (hstart : J n { fresh with sizearray := n })
    (hskip : ∀ {i t}, i < t₀.sizearray → t₀.array.getD i .nil = .nil → J i t → J (i + 1) t)
    (henter : ∀ {i t}, n ≤ i → i < t₀.sizearray → Slicing t₀ n i t → J i t → t₀.array.getD i .nil ≠ .nil →
      EntersOr o newkey t (intKey V (i + 1)) fun t' => SameArray t t' ∧ J (i + 1) t')
    (hcut : ∀ {t}, Slicing t₀ n t₀.sizearray t → J t₀.sizearray t → K t₀.sizenode { t with array := t.array.take n })
    (hskip' : ∀ {i t}, K (i + 1) t → (t₀.node i).val = .nil → K i t)
    (henter' : ∀ {i t}, Valid t → Partial t₀ (keysBelow t₀ (i + 1)) t → K (i + 1) t → (t₀.node i).val ≠ .nil →
      EntersOr o newkey t (t₀.node i).key (K i)) :
    (∃ t', o.Returns (host.reinsert newkey t₀ n fresh) t' ∧ Valid t' ∧ t'.content = t₀.content ∧ K 0 t') ∨
      o.Fails (host.reinsert newkey t₀ n fresh) := by
  rw [Host.reinsert, if_pos hn, Host.shrinkarray]
  obtain ⟨t₁, hslice, h₁, hJ⟩ | hfails := moveSlice_spec (o := o) (J := J) h₀ hskip henter (Nat.le_refl n)
    (Nat.add_sub_cancel' hn.le) (Slicing.start h₀ hempty hn) hstart
  case inr => exact .inr (o.bind_fails _ (o.bind_fails _ hfails))
  have hkept := o.returns_bind (f := fun t : Table V => pure { t with array := t.array.take n }) hslice (o.pure _)
  obtain ⟨h₂, hcontent⟩ := h₁.valid.take h₁.sizearray
  have hmoved : Partial t₀ (sliceFrom t₀ t₀.sizearray) { t₁ with array := t₁.array.take n } :=
    ⟨fun hk => (congrFun hcontent _).trans (h₁.moved.gone hk), fun hk => (congrFun hcontent _).trans (h₁.moved.kept hk)⟩
  have hpart : Partial t₀ (keysBelow t₀ t₀.sizenode) { t₁ with array := t₁.array.take n } := hmoved.congr fun k =>
    ⟨.inl, fun hk => hk.resolve_right fun hlate => absurd hlate.2 (Nat.not_le.mpr hlate.1)⟩
  refine (moveNodes_spec h₀ hskip' (fun _ h hpart hJ hval => henter' h hpart hJ hval) (Nat.le_refl _) h₂ hpart
    (hcut h₁ hJ)).imp ?_ (o.fails_bind hkept)
  rintro ⟨t', hreturns, hdone⟩
  exact ⟨t', o.returns_bind hkept hreturns, hdone⟩

/-- A resize for a new key that takes a part of the array away. -/
theorem resize_shrink (d : Nat) (h₀ : Valid t₀) (hek : t₀.place ek = .nilobject) (hbest : Best (rehashInts t₀ ek) n)
    (hn : n < t₀.sizearray) (nhsize : Nat) :
    (∃ t', resize (newkey (d + 2)) t₀ n nhsize = .ok t' ∧ Valid t' ∧ t'.content = t₀.content ∧ t'.sizearray = n) ∨
      resize (newkey (d + 2)) t₀ n nhsize = .error .tableOverflow := by
  have hgrow : growarray t₀ n = t₀ := if_neg (Nat.not_lt.mpr hn.le)
  rw [resize_eq, hgrow]
  obtain ⟨fresh, hfresh, hempty, -⟩ | ⟨-, hover⟩ := setnodevector_spec h₀.arrayOk nhsize
  · rw [hfresh]
    refine (reinsert_shrink (o := Host.plainOutcome True) (J := fun _ _ => True) (K := fun _ t => t.sizearray = n) h₀ hn hempty
      trivial (fun _ _ _ => trivial) (fun hn hi h _ hval => h.enters d h₀ hek hbest hn hi hval) (fun h _ => h.sizearray)
      (fun hK _ => hK) fun h hpart hK hval => enters_shrunk d h₀ hek hbest hn h hpart hK hval).imp id And.right
  · right
    rw [hover]
    rfl

/-! ### New keys -/

/-- `newkey` takes any new key in, with the nesting of its calls three deep, or the table would be too large. -/
theorem newkey_spec (d : Nat) (h : Valid t) (hk : k ≠ .nil) (hplace : t.place k = .nilobject) :
    (∃ t' p, newkey (d + 3) t k = .ok (t', p) ∧ Entered t k t' p) ∨ newkey (d + 3) t k = .error .tableOverflow := by
  obtain ⟨t', p, hinsert, hinserted⟩ | ⟨-, hexhausted, hstep⟩ := newkeyStep_cases (newkey (d + 2)) h hk hplace
  · exact .inl ⟨t', p, hinsert, hinserted.entered⟩
  rw [newkey, hstep]
  obtain ⟨n, hbest, hrehash⟩ := hexhausted.rehash_eq (newkey (d + 2)) hplace
  by_cases hn : t.sizearray ≤ n
  · obtain ⟨t', hgrown, hresized⟩ | ⟨-, hover⟩ := rehash_grow (newkeyStep_inserts (newkey (d + 1))) hexhausted hplace hbest hn
    · left
      obtain ⟨t'', p, hset, hentered, -, -⟩ := hresized.enters (newkeyStep_inserts (newkey (d + 1))) hk
      refine ⟨t'', p, ?_, hentered.valid, hentered.place, hentered.exists_place, hentered.content.trans hresized.content⟩
      rw [newkey, hgrown]
      exact hset
    · right
      rw [newkey, hover]
      rfl
  have hn' : n < t.exhausted.sizearray := Nat.not_le.mp hn
  rw [hrehash]
  obtain ⟨t', hshrunk, h', hcontent, hsize⟩ | hover := resize_shrink d hexhausted hplace hbest hn' _
  case inr =>
    right
    rw [hover]
    rfl
  rw [hshrunk]
  change (∃ t'' p, luaHSet (newkey (d + 2)) t' k = _ ∧ _) ∨ luaHSet (newkey (d + 2)) t' k = _
  rw [h'.luaHSet_eq _ hk, enter]
  by_cases hplace' : t'.place k = .nilobject
  · rw [hplace']
    -- all keys are back, so the size is still the best one
    have hall : Partial t.exhausted (fun _ => False) t' := ⟨fun hf => hf.elim, fun _ => congrFun hcontent _⟩
    have hbest' : Best (rehashInts t' k) t'.sizearray := by
      rw [hsize]
      exact hall.best hexhausted hplace hbest hn'.le h' hplace' (fun _ _ _ => id) (.inr rfl)
    refine (newkey_best d h' hk hplace' hbest').imp_left ?_
    rintro ⟨t'', p, hinsert, hentered, -⟩
    exact ⟨t'', p, hinsert, hentered.valid, hentered.place, hentered.exists_place, hentered.content.trans hcontent⟩
  · left
    have hself := h'.entered_self hplace'
    refine ⟨t', t'.place k, ?_, hself.valid, hself.place, hself.exists_place, hcontent⟩
    exact enter_placed _ hplace'

/-- A resize by the user that does not shrink the array part. -/
theorem luaHResizearray_spec (d : Nat) (h : Valid t) (hle : t.sizearray ≤ n) (hn : n < 2 ^ 31) :
    (∃ t', luaHResizearray (newkey (d + 1)) t n = .ok t' ∧ Valid t' ∧ t'.content = t.content) ∨
      luaHResizearray (newkey (d + 1)) t n = .error .tableOverflow := by
  have hroom : outsideBelow t n t.sizenode + 0 ≤ if t.dummy then 0 else t.sizenode := by
    cases hdummy : t.dummy with
    | true =>
      obtain ⟨hempty, hzero, -⟩ := h.blank hdummy
      have hone : t.sizenode = 0 + 1 := by
        rw [Table.sizenode, hzero]
        rfl
      rw [hone, outsideBelow, if_pos (.inl (h.vacant (hempty 0)))]
      exact Nat.le_refl 0
    | false => exact outsideBelow_le t n t.sizenode
  have hsize : (if t.dummy then 0 else t.sizenode) ≤ 2 ^ 32 := by
    have hnodes : t.sizenode ≤ 2 ^ 32 := Nat.pow_le_pow_right (by decide) (h.lsizenode_le.trans (by decide))
    split
    · exact Nat.zero_le _
    · exact hnodes
  refine (resize_grow (newkeyStep_inserts (newkey d)) h hle hn hsize hroom).imp ?_ And.right
  rintro ⟨t', hgrown, hresized⟩
  exact ⟨t', hgrown, hresized.valid, hresized.content⟩

end Reading.Lua
