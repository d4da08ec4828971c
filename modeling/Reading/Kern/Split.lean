import Reading.Kern.Copym

/-!
# How `m_split` parts a chain

`m_split` gives the bytes from an offset on to a chain of their own, and `m_cat` puts the two together again. `MGETHDR` does not set `m_len`, and in the one case in which `m_split` calls itself it does not set it either; the lengths in the packet headers are set before the call, which may fail.
-/

namespace Reading.Kern.Cl

variable {C : Type}

/-! ### The model with the memory of a new mbuf -/

/-- The mbuf for the packet header of the bytes behind `len0`; `m_len` is not set. -/
def newHeader (stale : List Byte) (mtype : Nat) (h : Pkthdr) (len0 : Nat) : Mb C where
  data := stale
  mtype := mtype
  off := mlen - mhlen
  pkthdr := some { h with len := h.len - len0 }

/-- `m_split`, where the memory of the mbuf for the packet header holds `stale` as long as `m_len` is not set. -/
def mSplitIn [DecidableEq C] (stale : List Byte) (p : Pool C) (ms : List (Mb C)) (len0 gets : Nat) :
    Option (Pool C × List (Mb C) × List (Mb C)) :=
  match splitPoint ms len0 with
  | none => some (p, ms, [])
  | some (before, m, after, len) =>
    match ms.head?.bind Mb.pkthdr with
    | none =>
      let (p, stay, tail) := splitPlain p m after len gets
      some (p, before ++ stay, tail)
    | some h =>
      if gets = 0 then some (p, ms, [])
      else do
        let kept := (before ++ [m]).modifyHead fun x => { x with pkthdr := some { h with len := len0 } }
        let last ← kept.getLast?
        splitHeader p kept.dropLast last (newHeader stale (ms.headD m).mtype h len0) after len gets

/-- With memory that was cleared it is the `m_split` of the runs of clusters. -/
theorem mSplit_eq [DecidableEq C] (p : Pool C) (ms : List (Mb C)) (len0 gets : Nat) :
    mSplit p ms len0 gets = mSplitIn [] p ms len0 gets := rfl

/-- The data is inside the mbuf, and behind the packet header if there is one. -/
def Mb.Fits (m : Mb C) : Prop := m.ext = none → m.off + m.len ≤ mlen ∧ (m.pkthdr.isSome → mlen - mhlen ≤ m.off)

/-- A chain with a packet header that has the right length. -/
structure Packet (ms : List (Mb C)) : Prop where
  ne_nil : ms ≠ []
  fits : ∀ m ∈ ms, m.Fits
  len : ∀ h, pkthdr ms = some h → h.len = (bytes ms).length

/-- The two chains of a success. -/
structure Parted [DecidableEq C] (ms : List (Mb C)) (len0 : Nat) (p : Pool C) (stay tail : List (Mb C)) : Prop where
  stayed : bytes stay = (bytes ms).take len0
  parted : bytes tail = (bytes ms).drop len0
  headers : ∀ h, pkthdr ms = some h →
    pkthdr stay = some { h with len := len0 } ∧ pkthdr tail = some { h with len := ((bytes ms).length - len0 : Nat) }
  joined : ∃ p' l, mCat p stay tail = some (p', l) ∧ bytes l = bytes ms

/-- What is to hold of a call, whatever is in the memory of a new mbuf: the chain is parted, or, if mbufs are short, left as it was. -/
def Splits [DecidableEq C] (p : Pool C) (ms : List (Mb C)) (len0 gets : Nat) : Prop :=
  ∀ stale, ∃ p' stay tail, mSplitIn stale p ms len0 gets = some (p', stay, tail) ∧
    (Parted ms len0 p' stay tail ∨ gets < 2 ∧ stay = ms ∧ tail = [])

/-- More bytes than fit behind a packet header are in an mbuf without a cluster, behind the place of the split, so `m_split` has to call itself. -/
def Calls (ms : List (Mb C)) (len0 : Nat) : Prop :=
  (pkthdr ms).isSome ∧ ∃ x ∈ splitPoint ms len0, x.2.1.ext = none ∧ mhlen < x.2.1.len - x.2.2.2

section Point

variable {ms before after : List (Mb C)} {m : Mb C} {len0 len : Nat}

theorem splitPoint_some (hle : len0 ≤ (bytes ms).length) (hne : ms ≠ []) : ∃ x, splitPoint ms len0 = some x := by
  induction ms generalizing len0 with
  | nil => exact absurd rfl hne
  | cons m ms ih =>
    rw [length_bytes_cons] at hle
    rw [splitPoint]
    by_cases hmore : len0 > m.len
    · rw [if_pos hmore]
      have hrest : ms ≠ [] := by
        rintro rfl
        rw [bytes_nil, List.length_nil] at hle
        omega
      obtain ⟨x, hx⟩ := @ih (len0 - m.len) (by omega) hrest
      rw [hx]
      exact ⟨_, rfl⟩
    · rw [if_neg hmore]
      exact ⟨_, rfl⟩

/-- The offset is in the mbuf that is found, or at its end. -/
theorem splitPoint_len (h : splitPoint ms len0 = some (before, m, after, len)) :
    len0 = (bytes before).length + len ∧ len ≤ m.len := by
  induction ms generalizing len0 before with
  | nil => cases h
  | cons x ms ih =>
    rw [splitPoint] at h
    split at h
    next hmore =>
      obtain ⟨⟨before', m', after', len'⟩, hrest, heq⟩ := Option.map_eq_some_iff.mp h
      cases heq
      obtain ⟨hlen, hle⟩ := ih hrest
      rw [length_bytes_cons]
      omega
    next hmore =>
      cases h
      exact ⟨(Nat.zero_add _).symm, Nat.not_lt.mp hmore⟩

end Point

section Bytes

variable [DecidableEq C] {p : Pool C}

theorem bytes_catLoop (m : Mb C) (ns : List (Mb C)) : bytes (catLoop p m ns).2 = m.data ++ bytes ns := by
  induction ns generalizing p m with
  | nil => rfl
  | cons n ns ih =>
    rw [catLoop]
    split
    · exact bytes_cons _ _
    · rw [ih, bytes_cons, List.append_assoc]

/-- `m_cat` keeps the bytes of both chains. -/
theorem mCat_spec {ms : List (Mb C)} (hne : ms ≠ []) (ns : List (Mb C)) :
    ∃ p' l, mCat p ms ns = some (p', l) ∧ bytes l = bytes ms ++ bytes ns := by
  have hlast := List.getLast?_eq_some_getLast hne
  refine ⟨_, _, by rw [mCat, hlast]; rfl, ?_⟩
  rw [bytes_append, bytes_catLoop, ← List.append_assoc]
  congr 1
  conv_rhs => rw [← List.dropLast_append_getLast hne, bytes_append]
  rw [bytes_cons, bytes_nil, List.append_nil]

/-- The bytes of one mbuf are parted, and those of the others go with theirs. -/
theorem Parted.of_bytes {before after stay tail : List (Mb C)} {m : Mb C} {len0 len : Nat} (hlen0 : len0 = (bytes before).length + len)
    (hlen : len ≤ m.len) (hne : stay ≠ []) (hstay : bytes stay = bytes before ++ m.data.take len)
    (htail : bytes tail = m.data.drop len ++ bytes after)
    (hheaders : ∀ h, pkthdr (before ++ m :: after) = some h → pkthdr stay = some { h with len := len0 } ∧
      pkthdr tail = some { h with len := ((bytes (before ++ m :: after)).length - len0 : Nat) }) :
    Parted (before ++ m :: after) len0 p stay tail := by
  have hsplit : bytes (before ++ m :: after) = bytes stay ++ bytes tail := by
    rw [hstay, htail, bytes_append, bytes_cons, List.append_assoc, ← List.append_assoc (m.data.take len), List.take_append_drop]
  have hlength : (bytes stay).length = len0 := by
    rw [hstay, List.length_append, List.length_take_of_le hlen, hlen0]
  refine ⟨?_, ?_, hheaders, ?_⟩
  · rw [hsplit, List.take_left' hlength]
  · rw [hsplit, List.drop_left' hlength]
  · rw [hsplit]
    exact mCat_spec hne tail

theorem splitMbuf_spec (m n : Mb C) (len : Nat) : ∃ p' m' n', splitMbuf p m n len = (p', m', n') ∧
    m'.data = m.data.take len ∧ n'.data = m.data.drop len ∧ m'.pkthdr = m.pkthdr ∧ n'.pkthdr = n.pkthdr := by
  rw [splitMbuf]
  cases m.ext with
  | none => exact ⟨_, _, _, rfl, rfl, rfl, rfl, rfl⟩
  | some e => exact ⟨_, _, _, rfl, rfl, rfl, rfl, rfl⟩

theorem splitPlain_spec (m : Mb C) (after : List (Mb C)) {len gets : Nat} : ∃ p' stay tail,
    splitPlain p m after len gets = (p', stay, tail) ∧
      (stay ≠ [] ∧ bytes stay = m.data.take len ∧ bytes tail = m.data.drop len ++ bytes after ∧ (len < m.len → tail ≠ []) ∨
        gets = 0 ∧ stay = m :: after ∧ tail = []) := by
  rw [splitPlain]
  by_cases hall : m.len - len = 0
  · have hle : m.data.length ≤ len := Nat.sub_eq_zero_iff_le.mp hall
    rw [if_pos hall]
    refine ⟨p, [m], after, rfl, .inl ⟨List.cons_ne_nil _ _, ?_, ?_, fun h => ?_⟩⟩
    · rw [bytes_cons, bytes_nil, List.append_nil, List.take_of_length_le hle]
    · rw [List.drop_eq_nil_of_le hle, List.nil_append]
    · omega
  · rw [if_neg hall]
    by_cases hgets : gets = 0
    · rw [if_pos hgets]
      exact ⟨p, m :: after, [], rfl, .inr ⟨hgets, rfl, rfl⟩⟩
    · rw [if_neg hgets]
      obtain ⟨p', m', n', hmbuf, htake, hdrop, -, -⟩ := @splitMbuf_spec C _ p m (align { mtype := m.mtype } (m.len - len)) len
      rw [hmbuf]
      refine ⟨p', [m'], n' :: after, rfl, .inl ⟨List.cons_ne_nil _ _, ?_, ?_, fun _ => List.cons_ne_nil _ _⟩⟩
      · rw [bytes_cons, bytes_nil, List.append_nil, htake]
      · rw [bytes_cons, hdrop]

omit [DecidableEq C] in
/-- The mbufs up to the one to split, with the new length in the packet header. -/
theorem kept_spec (before : List (Mb C)) (m : Mb C) (h : Pkthdr) : ∃ before' m',
    ((before ++ [m]).modifyHead fun x => { x with pkthdr := some h }) = before' ++ [m'] ∧ bytes before' = bytes before ∧
      m'.data = m.data ∧ m'.ext = m.ext ∧ (∀ y ms, y.pkthdr = m'.pkthdr → pkthdr (before' ++ y :: ms) = some h) ∧
      (before = [] ∨ m' = m) := by
  cases before with
  | nil => exact ⟨[], { m with pkthdr := some h }, rfl, rfl, rfl, rfl, fun _ _ hy => hy, .inl rfl⟩
  | cons b before => exact ⟨{ b with pkthdr := some h } :: before, m, rfl, rfl, rfl, rfl, fun _ _ _ => rfl, .inr rfl⟩

end Bytes

/-! ### When a split is right -/

section Splits

variable [DecidableEq C] {p : Pool C} {before after : List (Mb C)} {m : Mb C} {len0 len gets : Nat} {h : Pkthdr}

/-- A chain without a packet header. -/
theorem splits_plain (hpoint : splitPoint (before ++ m :: after) len0 = some (before, m, after, len))
    (hnone : pkthdr (before ++ m :: after) = none) : Splits p (before ++ m :: after) len0 gets := by
  obtain ⟨hlen0, hlen⟩ := splitPoint_len hpoint
  intro stale
  obtain ⟨p', stay, tail, hplain, hparts⟩ := @splitPlain_spec C _ p m after len gets
  refine ⟨p', before ++ stay, tail, ?_, ?_⟩
  · rw [mSplitIn, hpoint]
    dsimp only
    rw [show (before ++ m :: after).head?.bind Mb.pkthdr = none from hnone]
    dsimp only
    rw [hplain]
  · obtain ⟨hne, hstay, htail, -⟩ | ⟨hgets, hstay, htail⟩ := hparts
    · left
      apply Parted.of_bytes hlen0 hlen
      · exact List.append_ne_nil_of_right_ne_nil _ hne
      · rw [bytes_append, hstay]
      · exact htail
      · intro h hhdr
        rw [hnone] at hhdr
        cases hhdr
    · exact .inr ⟨by omega, congrArg (before ++ ·) hstay, htail⟩

/-- The mbuf for the packet header cannot be had. -/
theorem splits_none (hpoint : splitPoint (before ++ m :: after) len0 = some (before, m, after, len))
    (hhdr : pkthdr (before ++ m :: after) = some h) : Splits p (before ++ m :: after) len0 0 := by
  intro stale
  refine ⟨p, _, [], ?_, .inr ⟨by decide, rfl, rfl⟩⟩
  rw [mSplitIn, hpoint]
  dsimp only
  rw [show (before ++ m :: after).head?.bind Mb.pkthdr = some h from hhdr]
  dsimp only
  rw [if_pos rfl]

/-- With the mbuf for the packet header, the rest of the call. -/
theorem mSplitIn_header (hpoint : splitPoint (before ++ m :: after) len0 = some (before, m, after, len))
    (hhdr : pkthdr (before ++ m :: after) = some h) (hgets : gets ≠ 0) (stale : List Byte) :
    ∃ before' m' n, mSplitIn stale p (before ++ m :: after) len0 gets = splitHeader p before' m' n after len gets ∧
      n.data = stale ∧ n.pkthdr = some { h with len := h.len - len0 } ∧ bytes before' = bytes before ∧ m'.data = m.data ∧
      m'.ext = m.ext ∧ (∀ y ms, y.pkthdr = m'.pkthdr → pkthdr (before' ++ y :: ms) = some { h with len := len0 }) ∧
      (before = [] ∨ m' = m) := by
  obtain ⟨before', m', hkept, hbytes, hdata, hext, hlead, hsame⟩ := kept_spec before m { h with len := len0 }
  refine ⟨before', m', newHeader stale ((before ++ m :: after).headD m).mtype h len0, ?_, rfl, rfl, hbytes, hdata, hext, hlead, hsame⟩
  rw [mSplitIn, hpoint]
  dsimp only
  rw [show (before ++ m :: after).head?.bind Mb.pkthdr = some h from hhdr]
  dsimp only
  rw [if_neg hgets, hkept, List.getLast?_concat, List.dropLast_concat]
  rfl

/-- The mbuf with the packet header takes the bytes itself. -/
theorem splits_header (hpoint : splitPoint (before ++ m :: after) len0 = some (before, m, after, len))
    (hhdr : pkthdr (before ++ m :: after) = some h) (hlength : h.len = (bytes (before ++ m :: after)).length) (hgets : gets ≠ 0)
    (hfew : m.ext = none → m.len - len ≤ mhlen) : Splits p (before ++ m :: after) len0 gets := by
  obtain ⟨hlen0, hlen⟩ := splitPoint_len hpoint
  intro stale
  obtain ⟨before', m', n, hrun, -, hn, hbytes, hdata, hext, hlead, -⟩ := @mSplitIn_header C _ p _ _ _ _ _ gets _ hpoint hhdr hgets stale
  obtain ⟨p', x, y, hmbuf, hx, hy, hxhdr, hyhdr⟩ := @splitMbuf_spec C _ p m' (if m'.ext.isSome then n else align n (m'.len - len)) len
  have hhere : ¬(m'.ext.isNone ∧ m'.len - len > mhlen) := by
    rintro ⟨hnone, hmany⟩
    have hle := hfew (hext ▸ Option.isNone_iff_eq_none.mp hnone)
    rw [Mb.len, hdata] at hmany
    exact absurd hmany (Nat.not_lt.mpr hle)
  refine ⟨p', before' ++ [x], y :: after, ?_, .inl ?_⟩
  · rw [hrun, splitHeader, if_neg hhere, hmbuf]
  apply Parted.of_bytes hlen0 hlen
  · exact List.append_ne_nil_of_right_ne_nil _ (List.cons_ne_nil _ _)
  · rw [bytes_append, bytes_cons, bytes_nil, List.append_nil, hbytes, hx, hdata]
  · rw [bytes_cons, hy, hdata]
  · intro h' hhdr'
    obtain rfl := Option.some.inj (hhdr.symm.trans hhdr')
    have hle : len0 ≤ (bytes (before ++ m :: after)).length := by
      rw [bytes_append, List.length_append, length_bytes_cons]
      omega
    refine ⟨hlead x [] hxhdr, ?_⟩
    have hrest : h.len - len0 = ((bytes (before ++ m :: after)).length - len0 : Nat) := by omega
    have hnew : (if m'.ext.isSome then n else align n (m'.len - len)).pkthdr = n.pkthdr := by
      split <;> rfl
    change y.pkthdr = _
    rw [hyhdr, hnew, hn, hrest]

/-- The mbuf with the packet header is to be followed by one for the bytes. -/
theorem not_splits_calls (hpoint : splitPoint (before ++ m :: after) len0 = some (before, m, after, len))
    (hhdr : pkthdr (before ++ m :: after) = some h) (hlength : h.len = (bytes (before ++ m :: after)).length) (hgets : gets ≠ 0)
    (hfits : m.Fits) (hext : m.ext = none) (hmany : mhlen < m.len - len) : ¬Splits p (before ++ m :: after) len0 gets := by
  obtain ⟨hlen0, hlen⟩ := splitPoint_len hpoint
  intro hsplits
  obtain ⟨p', stay, tail, hcall, hresult⟩ := hsplits [0]
  obtain ⟨before', m', n, hrun, hn, -, hbytes, hdata, hext', hlead, hsame⟩ := @mSplitIn_header C _ p _ _ _ _ _ gets _ hpoint hhdr hgets [0]
  have hlen' : m'.len = m.len := congrArg List.length hdata
  have hdeep : m'.ext.isNone ∧ m'.len - len > mhlen := by
    rw [hext', hext, hlen']
    exact ⟨rfl, hmany⟩
  have hplain : ¬m'.pkthdr.isSome := by
    intro hsome
    have hm : m.pkthdr.isSome := by
      obtain rfl | rfl := hsame
      · rw [show m.pkthdr = some h from hhdr]
        rfl
      · exact hsome
    obtain ⟨hroom, hoff⟩ := hfits hext
    have hle := hoff hm
    have hvalues : mlen = 108 ∧ mhlen = 100 := ⟨rfl, rfl⟩
    omega
  have hdrop : ((bytes (before ++ m :: after)).drop len0).length = m.len - len + (bytes after).length := by
    rw [List.length_drop, bytes_append, List.length_append, length_bytes_cons]
    omega
  have hwhole : (bytes (before ++ m :: after)).length = len0 + (m.len - len) + (bytes after).length := by
    rw [bytes_append, List.length_append, length_bytes_cons]
    omega
  obtain ⟨q, stay', tail', hcalled, hparts⟩ := @splitPlain_spec C _ p m' after len (gets - 1)
  rw [hrun, splitHeader, if_pos hdeep, if_neg hplain, hcalled] at hcall
  dsimp only at hcall
  obtain ⟨hne, -, htail, hsome⟩ | ⟨-, rfl, rfl⟩ := hparts
  · -- the new mbuf begins with what was in its memory
    rw [if_neg (hsome (by omega))] at hcall
    obtain ⟨-, hcall⟩ := Prod.mk.inj (Option.some.inj hcall)
    obtain ⟨-, rfl⟩ := Prod.mk.inj hcall
    obtain hparted | ⟨-, -, hnil⟩ := hresult
    · have hlong := congrArg List.length hparted.parted
      rw [hdrop, bytes_cons, List.length_append, htail, List.length_append, List.length_drop, hdata,
        show (align n 0).data = [0] from hn, List.length_singleton] at hlong
      change 1 + (m.len - len + _) = _ at hlong
      omega
    · cases hnil
  · -- the length was set before
    rw [if_pos rfl] at hcall
    obtain ⟨-, hcall⟩ := Prod.mk.inj (Option.some.inj hcall)
    obtain ⟨rfl, rfl⟩ := Prod.mk.inj hcall
    obtain hparted | ⟨-, hstay, -⟩ := hresult
    · have hlong := congrArg List.length hparted.parted
      rw [hdrop, bytes_nil, List.length_nil] at hlong
      omega
    · have hnew := hlead m' after rfl
      rw [hstay, hhdr] at hnew
      have hsame := congrArg Pkthdr.len (Option.some.inj hnew)
      dsimp only at hsame
      omega

/-- A packet is parted, or left as it was, except where `m_split` calls itself. -/
theorem splits_iff (p : Pool C) {ms : List (Mb C)} (hms : Packet ms) {len0 : Nat} (hle : len0 ≤ (bytes ms).length) (gets : Nat) :
    Splits p ms len0 gets ↔ gets = 0 ∨ ¬Calls ms len0 := by
  obtain ⟨⟨before, m, after, len⟩, hpoint⟩ := splitPoint_some hle hms.ne_nil
  obtain rfl := splitPoint_eq hpoint
  cases hhdr : pkthdr (before ++ m :: after) with
  | none =>
    refine iff_of_true (splits_plain hpoint hhdr) (.inr ?_)
    rintro ⟨hsome, -⟩
    rw [hhdr] at hsome
    cases hsome
  | some h =>
    have hlength := hms.len h hhdr
    by_cases hgets : gets = 0
    · subst hgets
      exact iff_of_true (splits_none hpoint hhdr) (.inl rfl)
    by_cases hdeep : m.ext = none ∧ mhlen < m.len - len
    · have hfits := hms.fits m (List.mem_append_right _ List.mem_cons_self)
      refine iff_of_false (not_splits_calls hpoint hhdr hlength hgets hfits hdeep.1 hdeep.2) ?_
      rintro (hzero | hcalls)
      · exact hgets hzero
      · exact hcalls ⟨by rw [hhdr]; rfl, _, hpoint, hdeep⟩
    · refine iff_of_true (splits_header hpoint hhdr hlength hgets fun hext => ?_) (.inr ?_)
      · exact Nat.not_lt.mp fun hmany => hdeep ⟨hext, hmany⟩
      · rintro ⟨-, x, hx, hcalls⟩
        obtain rfl := Option.some.inj (hpoint.symm.trans hx)
        exact hdeep hcalls

end Splits

/-- A packet whose second mbuf is full. -/
def fullSecond : List (Mb Nat) :=
  [{ data := [0], off := mlen - mhlen, pkthdr := some { rcvif := 1, len := 109 } }, { data := List.replicate 108 0 }]

theorem packet_fullSecond : Packet fullSecond where
  ne_nil := List.cons_ne_nil _ _
  fits m hm _ := by
    obtain rfl | hm := List.mem_cons.mp hm
    · decide
    · obtain rfl := List.mem_singleton.mp hm
      decide
  len h hhdr := by
    obtain rfl := Option.some.inj hhdr
    rfl

theorem splits_iff_fullSecond : Splits {} fullSecond 1 1 ↔ 1 = 0 ∨ ¬Calls fullSecond 1 :=
  splits_iff {} packet_fullSecond (by decide) 1

/-- With one mbuf the call fails and leaves the wrong length; with two the first of them has no length. -/
theorem not_splits_fullSecond : Packet fullSecond ∧ ¬Splits {} fullSecond 2 1 ∧ ¬Splits {} fullSecond 2 2 := by
  have hfits : ({ data := List.replicate 108 0 } : Mb Nat).Fits := packet_fullSecond.fits _ (by decide)
  have hnot (gets : Nat) (hgets : gets ≠ 0) : ¬Splits {} fullSecond 2 gets :=
    @not_splits_calls Nat _ {} [{ data := [0], off := mlen - mhlen, pkthdr := some { rcvif := 1, len := 109 } }] []
      { data := List.replicate 108 0 } 2 1 gets { rcvif := 1, len := 109 } rfl rfl rfl hgets hfits rfl (by decide)
  exact ⟨packet_fullSecond, hnot 1 (by decide), hnot 2 (by decide)⟩

end Reading.Kern.Cl
