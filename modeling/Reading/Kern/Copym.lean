import Reading.Kern.Cluster

/-!
# What a copy of a chain holds

The bytes that `m_copym` copies and those that `m_copydata` copies, for chains as lists of mbufs. The second loop of `m_copym` compares what is left of `len` with `M_COPYALL` in every turn, so a longer copy that comes to an mbuf with `M_COPYALL` bytes left goes on to the end of the chain.
-/

namespace Reading.Kern.Cl

variable {C : Type}

/-- The bytes of a chain. -/
def bytes (ms : List (Mb C)) : List Byte := ms.flatMap Mb.data

/-- The packet header of a chain. -/
def pkthdr (ms : List (Mb C)) : Option Pkthdr := ms.head?.bind Mb.pkthdr

/-- The second loop of `m_copydata`, with the bytes copied so far. -/
def copydataLoop : List (Mb C) → Int → Int → List Byte → List Byte
  | [], _, _, cp => cp
  | m :: ms, off, len, cp =>
    if len > 0 then
      let count := min (m.len - off) len
      copydataLoop ms 0 (len - count) (cp ++ (m.data.drop off.toNat).take count.toNat)
    else cp

/-- `m_copydata`: the bytes that are copied. -/
def mCopydata (ms : List (Mb C)) (off len : Int) : Option (List Byte) := do
  if off < 0 ∨ len < 0 then none
  else
    let (ms, off) ← copyStart ms off
    some (copydataLoop ms off len [])

/-- An mbuf ends `M_COPYALL` bytes before the last byte to copy. -/
def Meets (ms : List (Mb C)) (off len : Int) : Prop :=
  mCopyall < len ∧ ∃ k, (bytes (ms.take k)).length + mCopyall = off + len

section Bytes

variable {ms : List (Mb C)} {m : Mb C} {off len : Int}

@[simp] theorem bytes_nil : bytes ([] : List (Mb C)) = [] := rfl

theorem bytes_cons (m : Mb C) (ms : List (Mb C)) : bytes (m :: ms) = m.data ++ bytes ms := List.flatMap_cons

theorem bytes_append (ms ns : List (Mb C)) : bytes (ms ++ ns) = bytes ms ++ bytes ns := List.flatMap_append

theorem length_bytes_cons (m : Mb C) (ms : List (Mb C)) : (bytes (m :: ms)).length = m.len + (bytes ms).length := by
  rw [bytes_cons, List.length_append]
  rfl

/-- The offset is in the first mbuf, or at its beginning. -/
def Within (ms : List (Mb C)) (off : Int) : Prop := 0 ≤ off ∧ off ≤ ((ms.head?.map Mb.len).getD 0 : Nat)

theorem Within.zero (ms : List (Mb C)) : Within ms 0 := ⟨Int.le_refl _, Int.natCast_nonneg _⟩

/-- The first loop passes the mbufs before the offset. -/
theorem copyStart_spec (hpos : 0 ≤ off) (hle : off ≤ (bytes ms).length) :
    ∃ before ms' off', copyStart ms off = some (ms', off') ∧ ms = before ++ ms' ∧ Within ms' off' ∧
      off = (bytes before).length + off' ∧ (off = 0 → before = []) := by
  induction ms generalizing off with
  | nil =>
    obtain rfl : off = 0 := Int.le_antisymm hle hpos
    exact ⟨[], [], 0, rfl, rfl, .zero _, rfl, fun _ => rfl⟩
  | cons m ms ih =>
    by_cases hoff : off > 0
    · by_cases hin : off < m.len
      · refine ⟨[], m :: ms, off, ?_, rfl, ⟨hpos, Int.le_of_lt hin⟩, (Int.zero_add _).symm, fun _ => rfl⟩
        rw [copyStart, if_pos hoff, if_pos hin]
      · rw [length_bytes_cons] at hle
        obtain ⟨before, ms', off', hstart, rfl, hwithin, hsum, -⟩ := @ih (off - m.len) (by omega) (by omega)
        refine ⟨m :: before, ms', off', ?_, rfl, hwithin, ?_, fun h => absurd h (Int.ne_of_gt hoff)⟩
        · rw [copyStart, if_pos hoff, if_neg hin, hstart]
        · rw [length_bytes_cons]
          omega
    · obtain rfl : off = 0 := by omega
      exact ⟨[], m :: ms, 0, rfl, rfl, .zero _, rfl, fun _ => rfl⟩

/-- What comes from the offset on is in the mbufs that are left. -/
theorem drop_bytes_append (before ms : List (Mb C)) (hpos : 0 ≤ off) :
    (bytes (before ++ ms)).drop ((bytes before).length + off).toNat = (bytes ms).drop off.toNat := by
  have hnat : ((bytes before).length + off).toNat = (bytes before).length + off.toNat := by omega
  rw [bytes_append, hnat, List.drop_append]
  simp

theorem drop_bytes_cons (hoff : off.toNat ≤ m.len) (ms : List (Mb C)) :
    (bytes (m :: ms)).drop off.toNat = m.data.drop off.toNat ++ bytes ms := by
  rw [bytes_cons, List.drop_append_of_le_length hoff]

end Bytes

/-- The part of the first mbuf that is copied, and the rest. -/
theorem take_first {l l' : List Byte} {n : Nat} {room len : Int} (hroom : room = l.length - n) (hn : n ≤ l.length) (hlen : 0 ≤ len) :
    (l.drop n ++ l').take len.toNat = (l.drop n).take (min len room).toNat ++ l'.take (len - min len room).toNat := by
  rw [List.take_append, List.length_drop]
  by_cases hle : len ≤ room
  · rw [Int.min_eq_left hle, Int.sub_self, show len.toNat - (l.length - n) = 0 by omega]
    rfl
  · have hall : (l.drop n).length ≤ room.toNat := by
      rw [List.length_drop]
      omega
    rw [Int.min_eq_right (by omega), List.take_of_length_le hall, List.take_of_length_le (by omega),
      show len.toNat - (l.length - n) = (len - room).toNat by omega]

/-! ### `m_copydata` -/

section Copydata

variable {ms : List (Mb C)} {off len : Int}

theorem Within.toNat_le {m : Mb C} (hoff : Within (m :: ms) off) : off.toNat ≤ m.len := Int.toNat_le.mpr hoff.2

theorem copydataLoop_spec (hoff : Within ms off) (cp : List Byte) :
    copydataLoop ms off len cp = cp ++ ((bytes ms).drop off.toNat).take len.toNat := by
  induction ms generalizing off len cp with
  | nil => simp [copydataLoop]
  | cons m ms ih =>
    have hnat := hoff.toNat_le
    have hpos := hoff.1
    by_cases hlen : len > 0
    · have hroom : (m.len - off : Int) = m.data.length - off.toNat := by
        rw [Int.toNat_of_nonneg hpos]
        rfl
      rw [copydataLoop, if_pos hlen]
      dsimp only
      rw [ih (.zero _), List.append_assoc, drop_bytes_cons hnat, take_first hroom hnat (Int.le_of_lt hlen), Int.min_comm,
        Int.toNat_zero, List.drop_zero]
    · rw [copydataLoop, if_neg hlen, Int.toNat_of_nonpos (Int.not_lt.mp hlen), List.take_zero, List.append_nil]

theorem mCopydata_spec (hoff : 0 ≤ off) (hlen : 0 ≤ len) (hle : off ≤ (bytes ms).length) :
    mCopydata ms off len = some (((bytes ms).drop off.toNat).take len.toNat) := by
  obtain ⟨before, ms', off', hstart, rfl, hwithin, hsum, -⟩ := copyStart_spec hoff hle
  rw [mCopydata, if_neg (by omega), hstart]
  change some (copydataLoop ms' off' len []) = _
  rw [copydataLoop_spec hwithin, hsum, drop_bytes_append _ _ hwithin.1, List.nil_append]

end Copydata

/-! ### `m_copym` -/

section Copym

variable [DecidableEq C] {p : Pool C} {ms : List (Mb C)} {m : Mb C} {off0 off len : Int} {copyhdr : Bool}

theorem copyMbuf_data (p : Pool C) (m : Mb C) (off0 off len : Int) (copyhdr : Bool) :
    (copyMbuf p m off0 off len copyhdr).2.data = (m.data.drop off.toNat).take (min len (m.len - off)).toNat := by
  unfold copyMbuf
  cases m.ext <;> rfl

theorem copyMbuf_pkthdr (p : Pool C) (m : Mb C) (off0 off len : Int) (copyhdr : Bool) :
    (copyMbuf p m off0 off len copyhdr).2.pkthdr =
      if copyhdr then m.pkthdr.map fun h => { h with len := if len = mCopyall then h.len - off0 else len } else none := by
  unfold copyMbuf
  cases m.ext <;> cases copyhdr <;> rfl

/-- No mbuf has `M_COPYALL` bytes. -/
def Moderate (ms : List (Mb C)) : Prop := ∀ m ∈ ms, (m.len : Int) ≤ mCopyall

omit [DecidableEq C] in
theorem Moderate.tail (h : Moderate (m :: ms)) : Moderate ms := fun x hx => h x (List.mem_cons_of_mem _ hx)

/-- The turn of the second loop for an mbuf. -/
theorem copyLoop_cons {gets : Nat} (hlen : len > 0) (top : List (Mb C)) :
    copyLoop off0 (m :: ms) off len copyhdr (gets + 1) p top =
      copyLoop off0 ms 0
        (if len ≠ mCopyall then len - (copyMbuf p m off0 off len copyhdr).2.len else len) false gets
        (copyMbuf p m off0 off len copyhdr).1 (top ++ [(copyMbuf p m off0 off len copyhdr).2]) := by
  rw [copyLoop, if_pos hlen]

/-- A copy of everything goes to the end of the chain. -/
theorem copyLoop_all {gets : Nat} (hgets : ms.length ≤ gets) (hmod : Moderate ms) (hoff : Within ms off) (top : List (Mb C)) :
    ∃ p' ns, copyLoop off0 ms off mCopyall copyhdr gets p top = some (p', top ++ ns) ∧
      ns.head? = (ms.head?.map fun m => (copyMbuf p m off0 off mCopyall copyhdr).2) ∧ bytes ns = (bytes ms).drop off.toNat := by
  induction ms generalizing off copyhdr gets p top with
  | nil => exact ⟨p, [], by simp [copyLoop], rfl, by simp⟩
  | cons m ms ih =>
    obtain ⟨gets, rfl⟩ : ∃ g, gets = g + 1 := ⟨gets - 1, by simp only [List.length_cons] at hgets; omega⟩
    have hnat := hoff.toNat_le
    have hpos := hoff.1
    have hmod' := hmod m List.mem_cons_self
    obtain ⟨p', ns, hrun, -, hbytes⟩ := @ih (copyMbuf p m off0 off mCopyall copyhdr).1 0 false gets
      (Nat.le_of_succ_le_succ hgets) hmod.tail (.zero _) (top ++ [(copyMbuf p m off0 off mCopyall copyhdr).2])
    refine ⟨p', (copyMbuf p m off0 off mCopyall copyhdr).2 :: ns, ?_, rfl, ?_⟩
    · rw [copyLoop_cons (by decide), if_neg (by simp), hrun, List.append_assoc]
      rfl
    · have hall : (m.data.drop off.toNat).length ≤ (min mCopyall (m.len - off)).toNat := by
        rw [List.length_drop]
        change m.len - off.toNat ≤ _
        omega
      rw [bytes_cons, copyMbuf_data, List.take_of_length_le hall, hbytes, drop_bytes_cons hnat]
      rfl

omit [DecidableEq C] in
/-- Whether the copy comes to such an mbuf is decided behind the first one. -/
theorem meets_cons (hoff : Within (m :: ms) off) (hne : len ≠ mCopyall) :
    Meets (m :: ms) off len ↔ len - (m.len - off) = mCopyall ∨ Meets ms 0 (len - (m.len - off)) := by
  have hpos := hoff.1
  have hle : off ≤ m.len := hoff.2
  constructor
  · rintro ⟨hmore, k, hk⟩
    cases k with
    | zero =>
      rw [List.take_zero] at hk
      simp only [bytes_nil, List.length_nil] at hk
      omega
    | succ k =>
      rw [List.take_succ_cons, length_bytes_cons] at hk
      by_cases hat : len - (m.len - off) = mCopyall
      · exact .inl hat
      · exact .inr ⟨by omega, k, by omega⟩
  · rintro (hat | ⟨hmore, k, hk⟩)
    · refine ⟨by omega, 1, ?_⟩
      rw [List.take_succ_cons, length_bytes_cons, List.take_zero, bytes_nil, List.length_nil]
      omega
    · refine ⟨by omega, k + 1, ?_⟩
      rw [List.take_succ_cons, length_bytes_cons]
      omega

omit [DecidableEq C] in
theorem not_meets {ms : List (Mb C)} (h : len ≤ mCopyall) : ¬Meets ms off len := fun hmeets => Int.not_lt.mpr h hmeets.1

/-- A copy of `len` bytes, which goes to the end of the chain if it comes to an mbuf with `M_COPYALL` bytes left. -/
theorem copyLoop_spec {gets : Nat} (hgets : ms.length ≤ gets) (hmod : Moderate ms) (hoff : Within ms off) (hlen : 0 ≤ len)
    (hne : len ≠ mCopyall) (hle : off + len ≤ (bytes ms).length) (top : List (Mb C)) :
    ∃ p' ns, copyLoop off0 ms off len copyhdr gets p top = some (p', top ++ ns) ∧
      (0 < len → ns.head? = ms.head?.map fun m => (copyMbuf p m off0 off len copyhdr).2) ∧
      (Meets ms off len → bytes ns = (bytes ms).drop off.toNat) ∧
      (¬Meets ms off len → bytes ns = ((bytes ms).drop off.toNat).take len.toNat) := by
  induction ms generalizing off len copyhdr gets p top with
  | nil =>
    obtain rfl : len = 0 := by
      have := hoff.1
      simp only [bytes_nil, List.length_nil] at hle
      omega
    exact ⟨p, [], by simp [copyLoop], fun _ => rfl, fun _ => by simp, fun _ => by simp⟩
  | cons m ms ih =>
    have hnat := hoff.toNat_le
    have hpos := hoff.1
    have hin : off ≤ m.len := hoff.2
    have hmod' := hmod m List.mem_cons_self
    rw [length_bytes_cons] at hle
    obtain ⟨gets, rfl⟩ : ∃ g, gets = g + 1 := ⟨gets - 1, by simp only [List.length_cons] at hgets; omega⟩
    by_cases hzero : len = 0
    · refine ⟨p, [], ?_, fun h => absurd hzero (Int.ne_of_gt h), fun h => absurd h (not_meets (by rw [hzero]; decide)), fun _ => ?_⟩
      · rw [copyLoop, if_neg (by omega), List.append_nil]
      · rw [hzero]
        rfl
    have hgets' := Nat.le_of_succ_le_succ hgets
    obtain ⟨n, hn⟩ : ∃ n, n = copyMbuf p m off0 off len copyhdr := ⟨_, rfl⟩
    have hdata : n.2.data = (m.data.drop off.toNat).take (min len (m.len - off)).toNat := by rw [hn, copyMbuf_data]
    have hcopied : (n.2.len : Int) = min len (m.len - off) := by
      rw [Mb.len, hdata, List.length_take, List.length_drop]
      change ((min _ (m.len - off.toNat) : Nat) : Int) = _
      omega
    have hroom : (m.len - off : Int) = m.data.length - off.toNat := by
      rw [Int.toNat_of_nonneg hpos]
      rfl
    rw [copyLoop_cons (by omega), ← hn, if_pos hne, hcopied, drop_bytes_cons hnat]
    by_cases hat : len - min len (m.len - off) = mCopyall
    · -- from here on everything is copied
      have hfull : min len (m.len - off) = m.len - off := by
        have : (0 : Int) < mCopyall := by decide
        omega
      obtain ⟨p', ns, hrun, -, hbytes⟩ := @copyLoop_all C _ n.1 ms off0 0 false gets hgets' hmod.tail (.zero _) (top ++ [n.2])
      rw [hat, hrun]
      rw [hfull] at hat hdata
      refine ⟨p', n.2 :: ns, by rw [List.append_assoc]; rfl, fun _ => by rw [hn]; rfl, fun _ => ?_, fun h => ?_⟩
      · rw [bytes_cons, hdata, hbytes, List.take_of_length_le]
        · rfl
        · rw [List.length_drop]
          omega
      · exact absurd ((meets_cons hoff hne).mpr (.inl hat)) h
    · obtain ⟨p', ns, hrun, -, hmeets, hnot⟩ := @ih n.1 0 (len - min len (m.len - off)) false gets hgets' hmod.tail (.zero _)
        (by omega) hat (by omega) (top ++ [n.2])
      rw [hrun]
      refine ⟨p', n.2 :: ns, by rw [List.append_assoc]; rfl, fun _ => by rw [hn]; rfl, fun h => ?_, fun h => ?_⟩
      · have hfull : min len (m.len - off) = m.len - off := by
          have := h.1
          omega
        rw [hfull] at hat hdata hmeets
        have hrest := ((meets_cons hoff hne).mp h).resolve_left hat
        rw [bytes_cons, hdata, hmeets hrest, List.take_of_length_le]
        · rfl
        · rw [List.length_drop]
          omega
      · have hrest : ¬Meets ms 0 (len - min len (m.len - off)) := fun hrest => by
          have hfull : min len (m.len - off) = m.len - off := by
            have : (0 : Int) < mCopyall := by decide
            have := hrest.1
            omega
          rw [hfull] at hrest
          exact h ((meets_cons hoff hne).mpr (.inr hrest))
        rw [bytes_cons, hdata, hnot hrest, take_first hroom hnat hlen]
        rfl

omit [DecidableEq C] in
/-- The mbufs before the offset do not matter. -/
theorem meets_append {before : List (Mb C)} (hpos : 0 ≤ off) :
    Meets (before ++ ms) ((bytes before).length + off) len ↔ Meets ms off len := by
  constructor
  · rintro ⟨hmore, k, hk⟩
    refine ⟨hmore, k - before.length, ?_⟩
    rw [List.take_append, bytes_append, List.length_append] at hk
    by_cases hle : before.length ≤ k
    · rw [List.take_of_length_le hle] at hk
      omega
    · have hprefix : (bytes (before.take k)).length ≤ (bytes before).length := by
        conv_rhs => rw [← List.take_append_drop k before, bytes_append, List.length_append]
        exact Nat.le_add_right _ _
      rw [Nat.sub_eq_zero_of_le (Nat.le_of_not_le hle), List.take_zero] at hk
      simp only [bytes_nil, List.length_nil] at hk
      omega
  · rintro ⟨hmore, k, hk⟩
    refine ⟨hmore, before.length + k, ?_⟩
    rw [List.take_length_add_append, bytes_append, List.length_append]
    omega

/-- The packet header of a copy from the beginning on. -/
def copiedHdr (ms : List (Mb C)) (off len : Int) : Option Pkthdr :=
  if off = 0 then (ms.head?.bind Mb.pkthdr).map fun h => { h with len := if len = mCopyall then h.len else len } else none

theorem copyMbuf_copiedHdr {ms' : List (Mb C)} {off' : Int} (hms : off = 0 → ms' = ms) :
    (ms'.head?.map fun m => (copyMbuf p m off off' len (decide (off = 0) && (ms.head?.bind Mb.pkthdr).isSome)).2).bind Mb.pkthdr =
      copiedHdr ms off len := by
  unfold copiedHdr
  by_cases hoff : off = 0
  · rw [hms hoff, hoff, if_pos rfl]
    cases ms with
    | nil => rfl
    | cons m ms =>
      rw [List.head?_cons, Option.map_some, Option.bind_some, Option.bind_some, copyMbuf_pkthdr]
      cases hhdr : m.pkthdr with
      | none => rfl
      | some h => simp
  · rw [if_neg hoff, decide_eq_false hoff]
    cases ms' with
    | nil => rfl
    | cons m ms => rw [List.head?_cons, Option.map_some, Option.bind_some, copyMbuf_pkthdr, Bool.false_and, if_neg (by decide)]

/-- `m_copym` with enough mbufs. -/
theorem mCopym_spec {gets : Nat} (hgets : ms.length ≤ gets) (hmod : Moderate ms) (hoff : 0 ≤ off) (hlen : 0 < len)
    (hle : off ≤ (bytes ms).length) (hroom : len ≠ mCopyall → off + len ≤ (bytes ms).length) :
    ∃ p' ns, mCopym p ms off len gets = some (p', ns) ∧ ns.head?.bind Mb.pkthdr = copiedHdr ms off len ∧
      (len = mCopyall ∨ Meets ms off len → bytes ns = (bytes ms).drop off.toNat) ∧
      (¬(len = mCopyall ∨ Meets ms off len) → bytes ns = ((bytes ms).drop off.toNat).take len.toNat) := by
  obtain ⟨before, ms', off', hstart, rfl, hwithin, hsum, hnone⟩ := copyStart_spec hoff hle
  have hgets' : ms'.length ≤ gets := by
    rw [List.length_append] at hgets
    omega
  have hmod' : Moderate ms' := fun m hm => hmod m (List.mem_append_right _ hm)
  have hdrop : (bytes (before ++ ms')).drop off.toNat = (bytes ms').drop off'.toNat := by
    rw [hsum, drop_bytes_append _ _ hwithin.1]
  have hmeets : Meets (before ++ ms') off len ↔ Meets ms' off' len := by rw [hsum, meets_append hwithin.1]
  obtain ⟨copyhdr, hcopyhdr⟩ : ∃ b, b = (decide (off = 0) && ((before ++ ms').head?.bind Mb.pkthdr).isSome) := ⟨_, rfl⟩
  have hhdr : (ms'.head?.map fun m => (copyMbuf p m off off' len copyhdr).2).bind Mb.pkthdr = copiedHdr (before ++ ms') off len := by
    rw [hcopyhdr]
    exact copyMbuf_copiedHdr fun hzero => by rw [hnone hzero, List.nil_append]
  rw [bytes_append, List.length_append] at hroom
  rw [mCopym, if_neg (by omega), hstart, hdrop, hmeets, ← hcopyhdr]
  by_cases hall : len = mCopyall
  · rw [hall] at hhdr ⊢
    obtain ⟨p', ns, hrun, hhead, hbytes⟩ := @copyLoop_all C _ p ms' off off' copyhdr gets hgets' hmod' hwithin []
    exact ⟨p', ns, hrun, hhead ▸ hhdr, fun _ => hbytes, fun h => absurd (.inl rfl) h⟩
  · obtain ⟨p', ns, hrun, hhead, hcut, hnot⟩ := @copyLoop_spec C _ p ms' off off' len copyhdr gets hgets' hmod' hwithin
      (Int.le_of_lt hlen) hall (by have := hroom hall; omega) []
    exact ⟨p', ns, hrun, hhead hlen ▸ hhdr, fun h => hcut (h.resolve_left hall), fun h => hnot fun hm => h (.inr hm)⟩

end Copym

end Reading.Kern.Cl
