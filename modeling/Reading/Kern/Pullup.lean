import Reading.Kern.Copym

/-!
# What `m_pullup` and `m_adj` leave of a chain

`m_pullup` moves bytes to the first mbuf and keeps those of the chain. How many it gathers there is at least what was asked for, but from a cluster it moves no more than `max_protohdr` bytes if that is enough. `m_adj` is here for the mbufs that `m_pullup` works on.
-/

namespace Reading.Kern.Cl

variable {C : Type}

/-! ### `m_adj` -/

/-- The bytes that are trimmed in the mbufs at the head. -/
def adjHead : List (Mb C) → Nat → List (Mb C)
  | [], _ => []
  | m :: ms, len =>
    if len = 0 then m :: ms
    else if m.len ≤ len then { m with data := [] } :: adjHead ms (len - m.len)
    else { m with data := m.data.drop len, off := m.off + len } :: ms

/-- Keep `count` bytes. -/
def adjKeep : List (Mb C) → Nat → List (Mb C)
  | [], _ => []
  | m :: ms, count =>
    if m.len ≥ count then { m with data := m.data.take count } :: ms.map fun x => { x with data := [] }
    else m :: adjKeep ms (count - m.len)

/-- `m_pkthdr.len = len` in the first mbuf, if it has a packet header. -/
def setPktLen (ms : List (Mb C)) (f : Int → Int) : List (Mb C) :=
  ms.modifyHead fun m => { m with pkthdr := m.pkthdr.map fun h => { h with len := f h.len } }

/-! The arithmetic of `m_adj` is that of `int`, which wraps around. -/

def intMin : Int := -2 ^ 31

def intMax : Int := 2 ^ 31 - 1

/-- `-n`: the least `int` has no opposite and stays what it is. -/
def negInt (n : Int) : Int := if n = intMin then intMin else -n

/-- The `int` that a difference is stored as. -/
def wrapInt (n : Int) : Int := n.bmod (2 ^ 32)

/-- `m_adj`: a positive request trims from the head, a negative one from the tail. There is no chain any more where an `m_len` becomes negative. -/
def mAdj (ms : List (Mb C)) (reqLen : Int) : Option (List (Mb C)) :=
  if reqLen ≥ 0 then some (setPktLen (adjHead ms reqLen.toNat) fun n => n - min reqLen (bytes ms).length)
  else
    let len := negInt reqLen
    match ms.getLast? with
    | none => some []
    | some last =>
      if last.len ≥ len then
        if len < 0 then none
        else some (setPktLen (ms.dropLast ++ [{ last with data := last.data.take (last.len - len.toNat) }]) fun n => n - len)
      else
        let count := max 0 (wrapInt ((bytes ms).length - len))
        some (setPktLen (adjKeep ms count.toNat) fun _ => count)

section Adj

variable {ms : List (Mb C)}

theorem map_data_adjHead (ms : List (Mb C)) (len : Nat) : (adjHead ms len).map Mb.data = Kern.adjHead (ms.map Mb.data) len := by
  induction ms generalizing len with
  | nil => rfl
  | cons m ms ih =>
    rw [adjHead, List.map_cons, Kern.adjHead]
    by_cases hzero : len = 0
    · rw [if_pos hzero, if_pos hzero]
      rfl
    rw [if_neg hzero, if_neg hzero]
    by_cases hle : m.len ≤ len
    · rw [if_pos hle, if_pos (show m.data.length ≤ len from hle), List.map_cons, ih]
      rfl
    · rw [if_neg hle, if_neg (show ¬m.data.length ≤ len from hle)]
      rfl

theorem map_data_adjKeep (ms : List (Mb C)) (count : Nat) : (adjKeep ms count).map Mb.data = Kern.adjKeep (ms.map Mb.data) count := by
  induction ms generalizing count with
  | nil => rfl
  | cons m ms ih =>
    rw [adjKeep, List.map_cons, Kern.adjKeep]
    by_cases hlast : m.len ≥ count
    · rw [if_pos hlast, if_pos (show m.data.length ≥ count from hlast), List.map_cons, List.map_map, List.map_map]
      rfl
    · rw [if_neg hlast, if_neg (show ¬m.data.length ≥ count from hlast), List.map_cons, ih]
      rfl

theorem map_data_setPktLen (ms : List (Mb C)) (f : Int → Int) : (setPktLen ms f).map Mb.data = ms.map Mb.data := by
  cases ms <;> rfl

theorem bytes_setPktLen (ms : List (Mb C)) (f : Int → Int) : bytes (setPktLen ms f) = bytes ms := by
  rw [bytes, List.flatMap_def, map_data_setPktLen, bytes, List.flatMap_def]

theorem bytes_adjHead (ms : List (Mb C)) (len : Nat) : bytes (adjHead ms len) = (bytes ms).drop len := by
  rw [bytes, List.flatMap_def, map_data_adjHead, Kern.flatten_adjHead, bytes, List.flatMap_def]

theorem bytes_adjKeep (ms : List (Mb C)) (count : Nat) : bytes (adjKeep ms count) = (bytes ms).take count := by
  rw [bytes, List.flatMap_def, map_data_adjKeep, Kern.flatten_adjKeep, bytes, List.flatMap_def]

/-- The last mbuf is shortened. -/
theorem bytes_trimLast {last : Mb C} (hlast : ms.getLast? = some last) {len : Nat} (hlen : len ≤ last.len) :
    bytes (ms.dropLast ++ [{ last with data := last.data.take (last.len - len) }]) = (bytes ms).take ((bytes ms).length - len) := by
  obtain ⟨init, rfl⟩ := List.getLast?_eq_some_iff.mp hlast
  have hlength : (bytes (init ++ [last])).length - len = (bytes init).length + (last.len - len) := by
    rw [bytes_append, List.length_append, length_bytes_cons, bytes_nil, List.length_nil]
    omega
  rw [List.dropLast_concat, hlength, bytes_append, bytes_append, bytes_cons, bytes_cons, bytes_nil, List.append_nil, List.append_nil,
    List.take_length_add_append]

theorem pkthdr_setPktLen (ms : List (Mb C)) (f : Int → Int) :
    pkthdr (setPktLen ms f) = (pkthdr ms).map fun h => { h with len := f h.len } := by
  cases ms <;> rfl

theorem pkthdr_adjHead (ms : List (Mb C)) (len : Nat) : pkthdr (adjHead ms len) = pkthdr ms := by
  cases ms with
  | nil => rfl
  | cons m ms =>
    rw [adjHead]
    split
    · rfl
    · split <;> rfl

theorem pkthdr_adjKeep (ms : List (Mb C)) (count : Nat) : pkthdr (adjKeep ms count) = pkthdr ms := by
  cases ms with
  | nil => rfl
  | cons m ms =>
    rw [adjKeep]
    split <;> rfl

theorem pkthdr_trimLast {last : Mb C} (hlast : ms.getLast? = some last) (data : List Byte) :
    pkthdr (ms.dropLast ++ [{ last with data := data }]) = pkthdr ms := by
  obtain ⟨init, rfl⟩ := List.getLast?_eq_some_iff.mp hlast
  rw [List.dropLast_concat]
  cases init <;> rfl

/-- What a request is to leave of the bytes. -/
def remaining (data : List Byte) (reqLen : Int) : List Byte :=
  if 0 ≤ reqLen then data.drop (min reqLen.toNat data.length) else data.take (data.length - min (-reqLen).toNat data.length)

/-- The chain has what is to be left, and a packet header that was right is right again. -/
def Adjusted (ms : List (Mb C)) (reqLen : Int) (ms' : List (Mb C)) : Prop :=
  bytes ms' = remaining (bytes ms) reqLen ∧
    ∀ h, pkthdr ms = some h → h.len = (bytes ms).length → pkthdr ms' = some { h with len := (bytes ms').length }

theorem remaining_head {data : List Byte} {reqLen : Int} (hpos : 0 ≤ reqLen) : remaining data reqLen = data.drop reqLen.toNat := by
  rw [remaining, if_pos hpos]
  by_cases hle : reqLen.toNat ≤ data.length
  · rw [Nat.min_eq_left hle]
  · rw [Nat.min_eq_right (by omega), List.drop_length, List.drop_eq_nil_of_le (by omega)]

theorem remaining_tail {data : List Byte} {reqLen : Int} (hneg : ¬0 ≤ reqLen) {count : Nat} (hcount : count = data.length - (-reqLen).toNat) :
    remaining data reqLen = data.take count := by
  rw [remaining, if_neg hneg, hcount]
  congr 1
  omega

/-- A header whose length is changed to the number of bytes that are left. -/
theorem adjusted_setPktLen {ms' : List (Mb C)} {reqLen : Int} {f : Int → Int} (hbytes : bytes ms' = remaining (bytes ms) reqLen)
    (hhdr : pkthdr ms' = pkthdr ms) (hf : f (bytes ms).length = (remaining (bytes ms) reqLen).length) :
    Adjusted ms reqLen (setPktLen ms' f) := by
  refine ⟨(bytes_setPktLen _ _).trans hbytes, fun h hh hlen => ?_⟩
  rw [pkthdr_setPktLen, hhdr, hh, bytes_setPktLen, hbytes, ← hf, ← hlen]
  rfl

theorem wrapInt_of_le {n : Int} (hmin : intMin ≤ n) (hmax : n ≤ intMax) : wrapInt n = n := by
  unfold intMin at hmin
  unfold intMax at hmax
  exact Int.bmod_eq_of_le (by omega) (by omega)

theorem wrapInt_le (n : Int) : wrapInt n ≤ intMax := Int.le_of_lt_add_one (Int.bmod_lt (by decide))

theorem negInt_of_ne {n : Int} (hn : n ≠ intMin) : negInt n = -n := if_neg hn

/-- The request has an opposite, and the last mbuf has that many bytes or an `int` holds the number of those that are left. -/
def Sized (ms : List (Mb C)) (reqLen : Int) : Prop :=
  reqLen ≠ intMin ∧ ((∃ last, ms.getLast? = some last ∧ -reqLen ≤ last.len) ∨ (bytes ms).length + reqLen ≤ intMax)

theorem mAdj_head {reqLen : Int} (hpos : 0 ≤ reqLen) : ∃ ms', mAdj ms reqLen = some ms' ∧ Adjusted ms reqLen ms' := by
  refine ⟨_, if_pos hpos, adjusted_setPktLen ?_ (pkthdr_adjHead _ _) ?_⟩
  · rw [bytes_adjHead, remaining_head hpos]
  · rw [remaining_head hpos, List.length_drop]
    omega

theorem mAdj_intMin (hne : ms ≠ []) : mAdj ms intMin = none := by
  rw [mAdj, if_neg (by decide), List.getLast?_eq_some_getLast hne]
  exact if_pos (Int.le_trans (by decide) (Int.natCast_nonneg _))

/-- A request that is not the least `int`, from the tail: only the last mbuf is cut, or what is left is counted. -/
theorem mAdj_tail {reqLen : Int} (hneg : ¬reqLen ≥ 0) (hmin : reqLen ≠ intMin) {last : Mb C} (hlast : ms.getLast? = some last) :
    mAdj ms reqLen = some (if last.len ≥ -reqLen then
      setPktLen (ms.dropLast ++ [{ last with data := last.data.take (last.len - (-reqLen).toNat) }]) fun n => n - -reqLen
    else setPktLen (adjKeep ms (wrapInt ((bytes ms).length - -reqLen)).toNat) fun _ => max 0 (wrapInt ((bytes ms).length - -reqLen))) := by
  rw [mAdj, if_neg hneg, negInt_of_ne hmin, hlast]
  dsimp only
  split
  · rw [if_neg (by omega)]
  · rw [show (max 0 (wrapInt ((bytes ms).length - -reqLen))).toNat = (wrapInt ((bytes ms).length - -reqLen)).toNat by omega]

/-- `m_adj` drops from the head or from the tail, as far as there are bytes, and keeps the length of a packet right, unless it is to negate the least `int` or to count more bytes than an `int` holds. -/
theorem mAdj_trims_iff (ms : List (Mb C)) (reqLen : Int) (hint : intMin ≤ reqLen) :
    (∃ ms', mAdj ms reqLen = some ms' ∧ Adjusted ms reqLen ms') ↔ (reqLen < 0 → ms ≠ [] → Sized ms reqLen) := by
  by_cases hpos : 0 ≤ reqLen
  · exact iff_of_true (mAdj_head hpos) fun hneg => by omega
  cases hlast : ms.getLast? with
  | none =>
    obtain rfl := List.getLast?_eq_none_iff.mp hlast
    refine iff_of_true ⟨[], by rw [mAdj, if_neg hpos, hlast], ?_, fun h hh => ?_⟩ fun _ h => absurd rfl h
    · rw [remaining, if_neg hpos, bytes_nil, List.take_nil]
    · cases hh
  | some last =>
    have hne : ms ≠ [] := by
      rintro rfl
      cases hlast
    have hle : last.len ≤ (bytes ms).length := by
      obtain ⟨init, rfl⟩ := List.getLast?_eq_some_iff.mp hlast
      rw [bytes_append, List.length_append, length_bytes_cons]
      omega
    by_cases hmin : reqLen = intMin
    · refine iff_of_false ?_ fun h => (h (by omega) hne).1 hmin
      rintro ⟨ms', hrun, -⟩
      rw [hmin, mAdj_intMin hne] at hrun
      cases hrun
    · rw [mAdj_tail hpos hmin hlast]
      by_cases hshort : (last.len : Int) ≥ -reqLen
      · have hcut : (-reqLen).toNat ≤ last.len := by omega
        have hleft : remaining (bytes ms) reqLen = (bytes ms).take ((bytes ms).length - (-reqLen).toNat) := remaining_tail hpos rfl
        refine iff_of_true ⟨_, rfl, ?_⟩ fun _ _ => ⟨hmin, .inl ⟨last, hlast, hshort⟩⟩
        rw [if_pos hshort]
        refine adjusted_setPktLen ?_ (pkthdr_trimLast hlast _) ?_
        · rw [bytes_trimLast hlast hcut, hleft]
        · rw [hleft, List.length_take]
          omega
      · rw [if_neg hshort]
        by_cases hfew : (bytes ms).length + reqLen ≤ intMax
        · have hwrap : wrapInt ((bytes ms).length - -reqLen) = (bytes ms).length + reqLen := by
            rw [wrapInt_of_le (by omega) (by omega)]
            omega
          have hleft : remaining (bytes ms) reqLen = (bytes ms).take ((bytes ms).length + reqLen).toNat := remaining_tail hpos (by omega)
          refine iff_of_true ⟨_, rfl, ?_⟩ fun _ _ => ⟨hmin, .inr hfew⟩
          rw [hwrap]
          refine adjusted_setPktLen ?_ (pkthdr_adjKeep _ _) ?_
          · rw [bytes_adjKeep, hleft]
          · rw [hleft, List.length_take]
            omega
        · refine iff_of_false ?_ fun h => ?_
          · rintro ⟨ms', hrun, hbytes, -⟩
            obtain rfl := Option.some.inj hrun
            have hmax := wrapInt_le ((bytes ms).length - -reqLen)
            have hmany : 0 ≤ intMax := by decide
            have hlength := congrArg List.length hbytes
            rw [bytes_setPktLen, bytes_adjKeep, remaining_tail hpos rfl, List.length_take, List.length_take] at hlength
            omega
          · obtain ⟨-, ⟨last', hlast', hshort'⟩ | hfew'⟩ := h (by omega) hne
            · obtain rfl := Option.some.inj (hlast.symm.trans hlast')
              exact hshort hshort'
            · exact hfew hfew'

/-- A packet of six bytes, with an mbuf that is empty. -/
def sixBytes : List (Mb Nat) :=
  [{ data := [1, 2, 3], pkthdr := some { rcvif := 1, len := 6 } }, { data := [] }, { data := [4, 5, 6] }]

/-- Five bytes are cut from the end. -/
theorem mAdj_trims_iff_tail :
    (∃ ms', mAdj sixBytes (-5) = some ms' ∧ Adjusted sixBytes (-5) ms') ↔ ((-5 : Int) < 0 → sixBytes ≠ [] → Sized sixBytes (-5)) :=
  mAdj_trims_iff sixBytes (-5) (by decide)

/-- The least `int` makes the length of the last mbuf negative, where no byte is to be left. -/
theorem mAdj_least : ¬∃ ms', mAdj sixBytes intMin = some ms' ∧ Adjusted sixBytes intMin ms' := by
  rintro ⟨ms', hrun, -⟩
  rw [sixBytes, mAdj_intMin (List.cons_ne_nil _ _)] at hrun
  cases hrun

/-- The first of several mbufs loses bytes to a trim from the tail only if it has more than are to be left. -/
theorem mAdj_tail_first {m : Mb C} {hdr : Pkthdr} {keep : Nat} {l : List (Mb C)} (hms : ms ≠ []) (hhdr : m.pkthdr = some hdr)
    (hlen : hdr.len = (bytes (m :: ms)).length) (hkeep : keep < (bytes (m :: ms)).length) (hint : keep ≤ intMax)
    (hrun : mAdj (m :: ms) (keep - (bytes (m :: ms)).length) = some l) :
    ∃ data ms', l = { m with data := data, pkthdr := some { hdr with len := keep } } :: ms' ∧
      (data = m.data ∨ data = m.data.take keep ∧ keep ≤ m.len) := by
  obtain ⟨total, htotal⟩ : ∃ n, n = (bytes (m :: ms)).length := ⟨_, rfl⟩
  obtain ⟨last, hlast⟩ : ∃ last, (m :: ms).getLast? = some last := ⟨_, List.getLast?_eq_some_getLast (List.cons_ne_nil _ _)⟩
  rw [← htotal] at hlen hkeep hrun
  have hneg : ¬(keep - total : Int) ≥ 0 := by omega
  by_cases hmin : (keep - total : Int) = intMin
  · rw [hmin, mAdj_intMin (List.cons_ne_nil _ _)] at hrun
    cases hrun
  have hwrap : wrapInt (total - -(keep - total : Int)) = keep := by
    have hzero : intMin ≤ 0 := by decide
    rw [wrapInt_of_le (by omega) (by omega)]
    omega
  rw [mAdj_tail hneg hmin hlast, ← htotal, hwrap] at hrun
  obtain rfl := Option.some.inj hrun
  by_cases hshort : (last.len : Int) ≥ -(keep - total : Int)
  · have hpkt : hdr.len - -(keep - total : Int) = keep := by omega
    rw [if_pos hshort, List.dropLast_cons_of_ne_nil hms, setPktLen, List.cons_append, List.modifyHead_cons, hhdr,
      Option.map_some, hpkt]
    exact ⟨m.data, _, rfl, .inl rfl⟩
  · rw [if_neg hshort, Int.max_eq_right (Int.natCast_nonneg keep), Int.toNat_natCast, adjKeep]
    by_cases hfirst : m.len ≥ keep
    · rw [if_pos hfirst, setPktLen, List.modifyHead_cons, hhdr]
      exact ⟨m.data.take keep, _, rfl, .inr ⟨rfl, hfirst⟩⟩
    · rw [if_neg hfirst, setPktLen, List.modifyHead_cons, hhdr]
      exact ⟨m.data, _, rfl, .inl rfl⟩

end Adj

/-! ### `m_pullup` -/

section Pullup

variable [DecidableEq C] {maxProtohdr : Nat} {p : Pool C} {n : Mb C} {ns : List (Mb C)} {len : Int}

/-- Gathering in an mbuf with room for what is wanted. -/
theorem pullLoop_spec {m : Mb C} (hlen : 0 < len) (hroom : m.off + m.len + len ≤ mlen) :
    ∃ p' data ns' len', pullLoop maxProtohdr p m ns len = some (p', { m with data := data }, ns', len') ∧
      data ++ bytes ns' = m.data ++ bytes ns ∧ m.data <+: data ∧ data.length + len' = m.len + len ∧ (0 < len' → ns' = []) := by
  induction ns generalizing p m len with
  | nil => exact ⟨p, m.data, [], len, rfl, rfl, List.prefix_rfl, rfl, fun _ => rfl⟩
  | cons n ns ih =>
    obtain ⟨count, hcount⟩ : ∃ c : Int, c = min (min (max len maxProtohdr) (mlen - (m.off + m.len))) n.len := ⟨_, rfl⟩
    rw [pullLoop, ← hcount]
    by_cases hpart : count.toNat < n.len
    · rw [if_pos hpart, if_neg (by omega)]
      refine ⟨_, _, _, _, rfl, ?_, List.prefix_append _ _, ?_, fun h => by omega⟩
      · rw [bytes_cons, bytes_cons, List.append_assoc, ← List.append_assoc (n.data.take _), List.take_append_drop]
      · rw [List.length_append, List.length_take_of_le (Nat.le_of_lt hpart)]
        change ((m.len + count.toNat : Nat) : Int) + _ = _
        omega
    · have htake : n.data.take count.toNat = n.data := List.take_of_length_le (Nat.not_lt.mp hpart)
      have hall : count = n.len := by omega
      rw [if_neg hpart, htake]
      by_cases hmore : len - count > 0
      · rw [if_pos hmore]
        have hlength : ({ m with data := m.data ++ n.data } : Mb C).len = m.len + n.len := List.length_append
        obtain ⟨p', data, ns', len', hrun, hbytes, hprefix, hsum, hnone⟩ :=
          @ih (mFree p n) (len - count) { m with data := m.data ++ n.data } hmore (by rw [hlength]; dsimp only; omega)
        refine ⟨p', data, ns', len', hrun, ?_, (List.prefix_append _ _).trans hprefix, ?_, hnone⟩
        · rw [hbytes, bytes_cons, List.append_assoc]
        · rw [hsum, hlength]
          omega
      · rw [if_neg hmore]
        refine ⟨_, _, _, _, rfl, ?_, List.prefix_append _ _, ?_, fun h => absurd h hmore⟩
        · rw [bytes_cons, List.append_assoc]
        · rw [List.length_append]
          change ((m.len + n.len : Nat) : Int) + _ = _
          omega

theorem pullInto_spec {m : Mb C} (hlen : 0 < len) (hroom : m.off + m.len + len ≤ mlen) :
    ∃ p' l, pullInto maxProtohdr p m ns len = some (p', l) ∧
      (l = [] ∧ (bytes ns).length < len ∨ ∃ data ns', l = { m with data := data } :: ns' ∧
        data ++ bytes ns' = m.data ++ bytes ns ∧ m.len + len ≤ data.length) := by
  obtain ⟨p', data, ns', len', hrun, hbytes, -, hsum, hnone⟩ := @pullLoop_spec _ _ maxProtohdr p ns len m hlen hroom
  rw [pullInto, hrun]
  change ∃ p' l, (if len' > 0 then _ else _) = some (p', l) ∧ _
  by_cases hmore : len' > 0
  · obtain rfl := hnone hmore
    have hlength := congrArg List.length hbytes
    rw [bytes_nil, List.append_nil, List.length_append] at hlength
    change data.length = m.len + (bytes ns).length at hlength
    rw [if_pos hmore]
    exact ⟨_, [], rfl, .inl ⟨rfl, by omega⟩⟩
  · rw [if_neg hmore]
    exact ⟨p', _, rfl, .inr ⟨data, ns', rfl, hbytes, by omega⟩⟩

/-- `m_pullup` fails for want of bytes or of an mbuf for them, or the first mbuf has the bytes that were asked for and no cluster. -/
theorem mPullup_spec (get : Bool) (hlen : 0 < len) :
    ∃ p' l, mPullup maxProtohdr p (n :: ns) len get = some (p', l) ∧
      (l = [] ∧ (get = false ∨ mhlen < len ∨ (bytes (n :: ns)).length < len) ∨ ∃ m ms, l = m :: ms ∧
        bytes (m :: ms) = bytes (n :: ns) ∧ len ≤ m.len ∧ m.ext = none ∧ m.pkthdr = n.pkthdr) := by
  rw [mPullup]
  by_cases hown : n.ext.isNone ∧ n.off + len < mlen ∧ ns ≠ []
  · rw [if_pos hown]
    have hext := Option.isNone_iff_eq_none.mp hown.1
    by_cases hhas : (n.len : Int) ≥ len
    · rw [if_pos hhas]
      exact ⟨p, _, rfl, .inr ⟨n, ns, rfl, rfl, hhas, hext, rfl⟩⟩
    · rw [if_neg hhas]
      obtain ⟨p', l, hrun, hl⟩ := @pullInto_spec _ _ maxProtohdr p ns (len - n.len) n (by omega) (by have := hown.2.1; omega)
      refine ⟨p', l, hrun, hl.imp ?_ ?_⟩
      · rintro ⟨rfl, hshort⟩
        exact ⟨rfl, .inr (.inr (by rw [length_bytes_cons]; omega))⟩
      · rintro ⟨data, ns', rfl, hbytes, hle⟩
        exact ⟨_, _, rfl, hbytes, show len ≤ (data.length : Int) by omega, hext, rfl⟩
  · rw [if_neg hown]
    by_cases hbad : len > mhlen ∨ get = false
    · rw [if_pos hbad]
      exact ⟨_, [], rfl, .inl ⟨rfl, hbad.symm.imp_right .inl⟩⟩
    rw [if_neg hbad]
    have hmhlen : mhlen ≤ mlen := by decide
    have hmlen : ((mlen - mhlen : Nat) : Int) + len ≤ mlen := by omega
    cases hhdr : n.pkthdr with
    | some hdr =>
      rw [Option.isSome_some, if_pos rfl]
      obtain ⟨p', l, hrun, hl⟩ := @pullInto_spec _ _ maxProtohdr p ({ n with pkthdr := none } :: ns) len
        (copyPkthdr { mtype := n.mtype } n) hlen (by change ((mlen - mhlen : Nat) : Int) + (0 : Nat) + len ≤ mlen; omega)
      refine ⟨p', l, hrun, hl.imp ?_ ?_⟩
      · rintro ⟨rfl, hshort⟩
        exact ⟨rfl, .inr (.inr hshort)⟩
      · rintro ⟨data, ns', rfl, hbytes, hle⟩
        refine ⟨_, _, rfl, hbytes, ?_, rfl, hhdr⟩
        change ((0 : Nat) : Int) + len ≤ data.length at hle
        change len ≤ data.length
        omega
    | none =>
      rw [Option.isSome_none, if_neg Bool.false_ne_true]
      obtain ⟨p', l, hrun, hl⟩ := @pullInto_spec _ _ maxProtohdr p (n :: ns) len { mtype := n.mtype } hlen
        (by change ((0 : Nat) : Int) + (0 : Nat) + len ≤ mlen; omega)
      refine ⟨p', l, hrun, hl.imp ?_ ?_⟩
      · rintro ⟨rfl, hshort⟩
        exact ⟨rfl, .inr (.inr hshort)⟩
      · rintro ⟨data, ns', rfl, hbytes, hle⟩
        refine ⟨_, _, rfl, hbytes, ?_, rfl, rfl⟩
        change ((0 : Nat) : Int) + len ≤ data.length at hle
        change len ≤ data.length
        omega

/-- With an mbuf for it, `m_pullup` comes to an end, and it gives up only a chain that is too short or a request that is too long. -/
theorem mPullup_gathers (maxProtohdr : Nat) (p : Pool C) (n : Mb C) (ns : List (Mb C)) (len : Int) (hlen : 0 < len) :
    ∃ p' l, mPullup maxProtohdr p (n :: ns) len true = some (p', l) ∧
      (l = [] → (bytes (n :: ns)).length < len ∨ mhlen < len) ∧
      ∀ m ms, l = m :: ms → bytes (m :: ms) = bytes (n :: ns) ∧ m.pkthdr = n.pkthdr ∧ len ≤ m.len ∧ m.ext = none := by
  obtain ⟨p', l, hrun, hl⟩ := @mPullup_spec C _ maxProtohdr p n ns len true hlen
  refine ⟨p', l, hrun, ?_, ?_⟩
  · rintro rfl
    obtain ⟨-, hget | hlong | hshort⟩ | ⟨m, ms, hcons, -⟩ := hl
    · cases hget
    · exact .inr hlong
    · exact .inl hshort
    · cases hcons
  · rintro m ms rfl
    obtain ⟨hnil, -⟩ | ⟨m', ms', hcons, hbytes, hle, hext, hhdr⟩ := hl
    · cases hnil
    · obtain ⟨rfl, rfl⟩ := List.cons.inj hcons
      exact ⟨hbytes, hhdr, hle, hext⟩

/-- Two bytes are gathered from two mbufs. -/
theorem mPullup_gathers_two :
    ∃ p' l, mPullup 40 {} ([{ data := [1] }, { data := [2] }] : List (Mb Nat)) 2 true = some (p', l) ∧
      (l = [] → (2 : Nat) < (2 : Int) ∨ mhlen < (2 : Int)) ∧
      ∀ m ms, l = m :: ms → bytes (m :: ms) = [1, 2] ∧ m.pkthdr = none ∧ (2 : Int) ≤ m.len ∧ m.ext = none :=
  mPullup_gathers 40 {} { data := [1] } [{ data := [2] }] 2 (by decide)

/-- One mbuf that has what is wanted gives as much as `max_protohdr` and the space allow. -/
theorem pullInto_first {m x : Mb C} {l : List (Mb C)} {p' : Pool C} (hhas : len ≤ n.len) (hroom : m.off + m.len + len ≤ mlen)
    (h : pullInto maxProtohdr p m (n :: ns) len = some (p', x :: l)) :
    (x.len : Int) = m.len + max 0 (min (min (max len maxProtohdr) (mlen - (m.off + m.len))) n.len) := by
  obtain ⟨count, hcount⟩ : ∃ c : Int, c = min (min (max len maxProtohdr) (mlen - (m.off + m.len))) n.len := ⟨_, rfl⟩
  have hle : len ≤ count := by omega
  have hmore : ¬len - count > 0 := by omega
  rw [pullInto, pullLoop, ← hcount] at h
  have hfirst : x.data = m.data ++ n.data.take count.toNat := by
    by_cases hpart : count.toNat < n.len
    · rw [if_pos hpart, if_neg hmore] at h
      change (if len - count > 0 then _ else _) = _ at h
      rw [if_neg hmore] at h
      rw [← (List.cons.inj (Prod.mk.inj (Option.some.inj h)).2).1]
    · rw [if_neg hpart, if_neg hmore] at h
      change (if len - count > 0 then _ else _) = _ at h
      rw [if_neg hmore] at h
      rw [← (List.cons.inj (Prod.mk.inj (Option.some.inj h)).2).1]
  rw [← hcount, Mb.len, hfirst, List.length_append, List.length_take]
  change ((m.len + min count.toNat n.len : Nat) : Int) = _
  omega

/-- From a cluster that has what was asked for, `m_pullup` takes no more than `max_protohdr` bytes. -/
theorem mPullup_cluster {hdr : Pkthdr} {get : Bool} (hext : n.ext.isSome) (hhdr : n.pkthdr = some hdr) (hlen : 0 < len)
    (hhas : len ≤ n.len) {p' : Pool C} {m : Mb C} {ms : List (Mb C)}
    (h : mPullup maxProtohdr p (n :: ns) len get = some (p', m :: ms)) :
    (m.len : Int) = min (min (max len maxProtohdr) mhlen) n.len := by
  have hown : ¬(n.ext.isNone ∧ n.off + len < mlen ∧ ns ≠ []) := fun h => by
    rw [Option.isNone_iff_eq_none.mp h.1] at hext
    cases hext
  rw [mPullup, if_neg hown] at h
  by_cases hbad : len > mhlen ∨ get = false
  · rw [if_pos hbad] at h
    cases h
  have hmhlen : mhlen ≤ mlen := by decide
  rw [if_neg hbad, hhdr, Option.isSome_some, if_pos rfl] at h
  have hfirst := pullInto_first (show len ≤ ({ n with pkthdr := none } : Mb C).len from hhas)
    (by change ((mlen - mhlen : Nat) : Int) + (0 : Nat) + len ≤ mlen; omega) h
  change (m.len : Int) = (0 : Nat) + max 0 (min (min (max len maxProtohdr) (mlen - (((mlen - mhlen : Nat) : Int) + (0 : Nat)))) n.len) at hfirst
  omega

end Pullup

end Reading.Kern.Cl
