import Reading.Kern.Copym
import Reading.Lib.Chain
import Reading.Lib.Stream

/-!
# Mbufs in memory

`m_copym` and `m_copydata` on the mbufs themselves, which are linked by `m_next` and keep their data in `m_dat` or in a cluster. A loop has no result where the kernel panics, follows a null pointer or does not come to an end in the turns that it is given.
-/

namespace Reading.Kern.Mem

open Lib
open Cl (Pkthdr Ext Pool Mb mlen mhlen mCopyall)

/-- What bytes can be in. -/
inductive Area (A C : Type) where
  /-- `m_dat` of an mbuf. -/
  | dat (m : A)
  | cluster (c : C)
  | buffer (n : Nat)
  deriving DecidableEq

structure Mbuf (A C : Type) where
  mNext : Option A := none
  mLen : Nat := 0
  /-- What `m_data` points into. -/
  area : Area A C
  /-- How far `m_data` is behind the beginning of it. -/
  off : Nat := 0
  mType : Nat := 1
  pkthdr : Option Pkthdr := none
  eor : Bool := false
  bcast : Bool := false
  mcast : Bool := false
  ext : Option (Ext C) := none

structure Memory (A C : Type) where
  mbuf : A → Mbuf A C
  byte : Area A C → Nat → Byte
  pool : Pool C
  /-- The mbufs that `MGET` can give. -/
  mfree : List A

/-- What comes of a copy. -/
inductive Copy (A C : Type) where
  | nospace (h : Memory A C) (top : Option A)
  | top (h : Memory A C) (top : Option A)

variable {A C : Type} [DecidableEq A] [DecidableEq C]

namespace Memory

def set (h : Memory A C) (a : A) (m : Mbuf A C) : Memory A C := { h with mbuf := Function.update h.mbuf a m }

def bcopy (h : Memory A C) (src : Area A C) (i : Nat) (dst : Area A C) (j n : Nat) : Memory A C :=
  { h with byte := fun r k => if r = dst ∧ j ≤ k ∧ k < j + n then h.byte src (i + (k - j)) else h.byte r k }

/-- `MGET`, which does not set `m_len`. -/
def mget (h : Memory A C) (type : Nat) : Memory A C × Option A :=
  match h.mfree with
  | [] => (h, none)
  | n :: rest => ({ h.set n { mLen := (h.mbuf n).mLen, area := .dat n, mType := type } with mfree := rest }, some n)

/-- `MFREE`, with the next mbuf. -/
def mFree (h : Memory A C) (a : A) : Memory A C × Option A :=
  let pool := match (h.mbuf a).ext with
    | some e => h.pool.drop e.buf
    | none => h.pool
  ({ h with pool := pool, mfree := a :: h.mfree }, (h.mbuf a).mNext)

def mFreem : Nat → Memory A C → Option A → Memory A C
  | _, h, none => h
  | 0, h, _ => h
  | fuel + 1, h, some a => mFreem fuel (h.mFree a).1 (h.mFree a).2

/-- `*np = n`, where `np` points to `top` or to the link of an mbuf. -/
def link (h : Memory A C) (np top n : Option A) : Memory A C × Option A :=
  match np with
  | none => (h, n)
  | some a => (h.set a { h.mbuf a with mNext := n }, top)

/-- The loop for the offset, which both functions begin with. -/
def copyStart (h : Memory A C) : Nat → Option A → Int → Option (Option A × Int)
  | 0, _, _ => none
  | fuel + 1, m, off =>
    if off > 0 then
      match m with
      | none => none
      | some a =>
        if off < (h.mbuf a).mLen then some (m, off) else copyStart h fuel (h.mbuf a).mNext (off - (h.mbuf a).mLen)
    else some (m, off)

/-! ### `m_copym` -/

/-- The new mbuf with its packet header and `m_len`. -/
def fillHdr (h : Memory A C) (n a : A) (off0 off len : Int) (copyhdr : Bool) : Mbuf A C :=
  let x := if copyhdr then
      { h.mbuf n with
        pkthdr := (h.mbuf a).pkthdr.map fun p => { p with len := if len = mCopyall then p.len - off0 else len }
        eor := (h.mbuf a).eor, bcast := (h.mbuf a).bcast, mcast := (h.mbuf a).mcast, ext := none
        area := .dat n, off := mlen - mhlen }
    else h.mbuf n
  { x with mLen := (min len ((h.mbuf a).mLen - off)).toNat }

/-- Fill the mbuf `n` from the mbuf `a`. -/
def copyMbuf (h : Memory A C) (n a : A) (off0 off len : Int) (copyhdr : Bool) : Memory A C :=
  let x := h.fillHdr n a off0 off len copyhdr
  match (h.mbuf a).ext with
  | some e =>
    { h.set n { x with area := (h.mbuf a).area, off := (h.mbuf a).off + off.toNat, ext := some e } with
      pool := h.pool.share e.buf }
  | none => (h.set n x).bcopy (h.mbuf a).area ((h.mbuf a).off + off.toNat) x.area x.off x.mLen

def copyLoop (off0 : Int) : Nat → Memory A C → Option A → Int → Int → Bool → Option A → Option A → Option (Copy A C)
  | 0, _, _, _, _, _, _, _ => none
  | fuel + 1, h, m, off, len, copyhdr, np, top =>
    if len > 0 then
      match m with
      | none => if len ≠ mCopyall then none else some (.top h top)
      | some a =>
        let (h, n) := h.mget (h.mbuf a).mType
        let (h, top) := h.link np top n
        match n with
        | none => some (.nospace h top)
        | some n =>
          let h := h.copyMbuf n a off0 off len copyhdr
          let len := if len ≠ mCopyall then len - (h.mbuf n).mLen else len
          copyLoop off0 fuel h (h.mbuf a).mNext 0 len false (some n) top
    else some (.top h top)

def mCopym (fuel : Nat) (h : Memory A C) (m : Option A) (off0 len : Int) : Option (Copy A C) := do
  if off0 < 0 ∨ len < 0 then none
  else
    let copyhdr ← if off0 = 0 then m.map fun a => (h.mbuf a).pkthdr.isSome else some false
    let (m, off) ← h.copyStart fuel m off0
    match ← copyLoop off0 fuel h m off len copyhdr none none with
    | .nospace h top => some (.nospace (mFreem fuel h top) none)
    | .top h top => some (.top h top)

/-! ### `m_copydata` -/

def copydataLoop : Nat → Memory A C → Option A → Int → Int → Area A C → Nat → Option (Memory A C × Nat)
  | 0, _, _, _, _, _, _ => none
  | fuel + 1, h, m, off, len, dst, cp =>
    if len > 0 then
      match m with
      | none => some (h, cp)
      | some a =>
        let count := min ((h.mbuf a).mLen - off) len
        let h := h.bcopy (h.mbuf a).area ((h.mbuf a).off + off.toNat) dst cp count.toNat
        copydataLoop fuel h (h.mbuf a).mNext 0 (len - count) dst (cp + count.toNat)
    else some (h, cp)

/-- `m_copydata` to `cp` in an area, with what it returns. -/
def mCopydata (fuel : Nat) (h : Memory A C) (m : Option A) (off len : Int) (dst : Area A C) (cp : Nat) :
    Option (Memory A C × Nat) := do
  if off < 0 ∨ len < 0 then none
  else
    let (m, off) ← h.copyStart fuel m off
    let (h, cp') ← copydataLoop fuel h m off len dst cp
    some (h, cp' - cp)

end Memory

/-! ### Chains in memory -/

/-- An mbuf at an address is sound: its data is in its own `m_dat`, behind the packet header if it has one, or in its cluster. -/
structure Mbuf.Sound (a : A) (m : Mbuf A C) : Prop where
  area : m.area = match m.ext with
    | none => .dat a
    | some e => .cluster e.buf
  room : m.off + m.mLen ≤ if m.ext.isSome then Cl.mclbytes else mlen
  header : m.ext = none → m.pkthdr.isSome → mlen - mhlen ≤ m.off

omit [DecidableEq A] [DecidableEq C] in
/-- The data of one mbuf is not in the `m_dat` of another. -/
theorem Mbuf.Sound.area_ne {m : Mbuf A C} {b n : A} (hm : m.Sound b) (hb : b ≠ n) : m.area ≠ .dat n := by
  rw [hm.area]
  cases m.ext with
  | none => exact fun heq => hb (Area.dat.inj heq)
  | some e => exact nofun

omit [DecidableEq A] [DecidableEq C] in
theorem Mbuf.Sound.next {m : Mbuf A C} {a : A} (hm : m.Sound a) (next : Option A) : Sound a { m with mNext := next } :=
  ⟨hm.area, hm.room, hm.header⟩

omit [DecidableEq A] [DecidableEq C] in
theorem Mbuf.Sound.mLen_le {m : Mbuf A C} {a : A} (hm : m.Sound a) : (m.mLen : Int) ≤ mCopyall := by
  have hroom := hm.room
  have hmlen : (mlen : Int) ≤ mCopyall := by decide
  have hmclbytes : (Cl.mclbytes : Int) ≤ mCopyall := by decide
  split at hroom <;> omega

/-- A chain of sound mbufs that are in use. -/
structure Memory.IsChain (h : Memory A C) (p : Option A) (as : List A) : Prop where
  links : Links (fun a => (h.mbuf a).mNext) p as none
  sound : ∀ a ∈ as, (h.mbuf a).Sound a
  used : ∀ a ∈ as, a ∉ h.mfree

/-- The mbuf with its data. -/
def Memory.view (h : Memory A C) (a : A) : Mb C :=
  let m := h.mbuf a
  { data := slice (h.byte m.area) m.off m.mLen, off := m.off, mtype := m.mType, pkthdr := m.pkthdr, eor := m.eor
    bcast := m.bcast, mcast := m.mcast, ext := m.ext }

/-- The bytes of a chain. -/
def Memory.bytes (h : Memory A C) (as : List A) : List Byte := Cl.bytes (as.map h.view)

/-! ### Filling an mbuf -/

namespace Memory

section Fill

variable {h : Memory A C} {n a : A} {off0 off len : Int} {copyhdr : Bool} {l : Nat}

theorem slice_bcopy (h : Memory A C) (src : Area A C) (i : Nat) (dst : Area A C) (j n : Nat) :
    slice ((h.bcopy src i dst j n).byte dst) j n = slice (h.byte src) i n := by
  apply slice_congr
  intro k hk
  have hin : j ≤ j + k ∧ j + k < j + n := ⟨Nat.le_add_right _ _, Nat.add_lt_add_left hk _⟩
  simp only [bcopy, true_and, if_pos hin, Nat.add_sub_cancel_left]

theorem bcopy_byte_of_ne {src dst r : Area A C} {i j m : Nat} (hr : r ≠ dst) : (h.bcopy src i dst j m).byte r = h.byte r := by
  funext k
  simp only [bcopy, hr, false_and, if_false]

theorem copyMbuf_mbuf_of_ne {b : A} (hb : b ≠ n) : (h.copyMbuf n a off0 off len copyhdr).mbuf b = h.mbuf b := by
  unfold copyMbuf
  dsimp only
  cases (h.mbuf a).ext <;> exact Function.update_of_ne hb _ _

theorem copyMbuf_mfree : (h.copyMbuf n a off0 off len copyhdr).mfree = h.mfree := by
  unfold copyMbuf
  dsimp only
  cases (h.mbuf a).ext <;> rfl

/-- The new mbuf, apart from where its data is. -/
theorem copyMbuf_mbuf : ∃ area off' ext, (h.copyMbuf n a off0 off len copyhdr).mbuf n =
    { h.fillHdr n a off0 off len copyhdr with area := area, off := off', ext := ext } := by
  unfold copyMbuf
  dsimp only
  cases (h.mbuf a).ext with
  | some e => exact ⟨_, _, _, Function.update_self ..⟩
  | none => exact ⟨_, _, _, Function.update_self ..⟩

theorem copyMbuf_mNext : ((h.copyMbuf n a off0 off len copyhdr).mbuf n).mNext = (h.mbuf n).mNext := by
  obtain ⟨_, _, _, hmbuf⟩ := @copyMbuf_mbuf _ _ _ _ h n a off0 off len copyhdr
  rw [hmbuf]
  unfold fillHdr
  cases copyhdr <;> rfl

omit [DecidableEq A] [DecidableEq C] in
theorem fillHdr_area (hn : (h.mbuf n).area = .dat n) : (h.fillHdr n a off0 off len copyhdr).area = .dat n := by
  unfold fillHdr
  cases copyhdr
  · exact hn
  · rfl

theorem copyMbuf_byte {r : Area A C} (hn : (h.mbuf n).area = .dat n) (hr : r ≠ .dat n) :
    (h.copyMbuf n a off0 off len copyhdr).byte r = h.byte r := by
  unfold copyMbuf
  dsimp only
  cases (h.mbuf a).ext with
  | some e => rfl
  | none =>
    apply bcopy_byte_of_ne
    rwa [fillHdr_area hn]

theorem copyMbuf_pool : (h.copyMbuf n a off0 off len copyhdr).pool = (Cl.copyMbuf h.pool (h.view a) off0 off len copyhdr).1 := by
  unfold copyMbuf Cl.copyMbuf view
  dsimp only
  cases (h.mbuf a).ext <;> rfl

/-- What comes of the mbuf is what comes of the copy of its contents. -/
theorem copyMbuf_view (hn : h.mbuf n = { mLen := l, area := .dat n, mType := (h.mbuf a).mType })
    (hoff : 0 ≤ off) (hle : off ≤ (h.mbuf a).mLen) :
    (h.copyMbuf n a off0 off len copyhdr).view n = (Cl.copyMbuf h.pool (h.view a) off0 off len copyhdr).2 := by
  have hcount : (min len ((h.mbuf a).mLen - off)).toNat ≤ (h.mbuf a).mLen - off.toNat := by omega
  have hdata : ((h.view a).data.drop off.toNat).take (min len ((h.mbuf a).mLen - off)).toNat =
      slice (h.byte (h.mbuf a).area) ((h.mbuf a).off + off.toNat) (min len ((h.mbuf a).mLen - off)).toNat := by
    rw [view, drop_slice, take_slice _ _ hcount]
  have hlen : (h.view a).len = (h.mbuf a).mLen := length_slice _ _ _
  unfold Cl.copyMbuf
  rw [hlen, hdata]
  unfold copyMbuf
  dsimp only
  have hext : (h.view a).ext = (h.mbuf a).ext := rfl
  rw [hext]
  cases (h.mbuf a).ext with
  | some e =>
    unfold view fillHdr
    dsimp only [set]
    rw [Function.update_self, hn]
    cases copyhdr <;> rfl
  | none =>
    unfold view
    dsimp only
    rw [show ((h.set n (h.fillHdr n a off0 off len copyhdr)).bcopy (h.mbuf a).area ((h.mbuf a).off + off.toNat)
      (h.fillHdr n a off0 off len copyhdr).area (h.fillHdr n a off0 off len copyhdr).off
      (h.fillHdr n a off0 off len copyhdr).mLen).mbuf n = h.fillHdr n a off0 off len copyhdr from Function.update_self ..]
    rw [slice_bcopy]
    unfold fillHdr
    rw [hn]
    cases copyhdr <;> rfl

/-- The new mbuf has room for what it gets. -/
theorem copyMbuf_sound (hn : h.mbuf n = { mLen := l, area := .dat n, mType := (h.mbuf a).mType }) (hsound : (h.mbuf a).Sound a)
    (hhdr : copyhdr = true → (h.mbuf a).pkthdr.isSome) (hoff : 0 ≤ off) (hle : off ≤ (h.mbuf a).mLen) :
    ((h.copyMbuf n a off0 off len copyhdr).mbuf n).Sound n := by
  have harea := hsound.area
  have hroom := hsound.room
  have hheader := hsound.header
  unfold copyMbuf
  dsimp only
  cases hext : (h.mbuf a).ext with
  | some e =>
    dsimp only [set]
    rw [Function.update_self]
    rw [hext] at harea hroom
    refine ⟨harea, ?_, nofun⟩
    change (h.mbuf a).off + off.toNat + (min len ((h.mbuf a).mLen - off)).toNat ≤ Cl.mclbytes
    change (h.mbuf a).off + (h.mbuf a).mLen ≤ Cl.mclbytes at hroom
    omega
  | none =>
    dsimp only [set, bcopy]
    rw [Function.update_self]
    rw [hext] at hroom
    change (h.mbuf a).off + (h.mbuf a).mLen ≤ mlen at hroom
    unfold fillHdr
    rw [hn]
    cases copyhdr with
    | false =>
      refine ⟨rfl, ?_, nofun⟩
      change 0 + (min len ((h.mbuf a).mLen - off)).toNat ≤ mlen
      omega
    | true =>
      have hat := hheader hext (hhdr rfl)
      refine ⟨rfl, ?_, fun _ _ => Nat.le_refl _⟩
      change mlen - mhlen + (min len ((h.mbuf a).mLen - off)).toNat ≤ mlen
      have : mhlen ≤ mlen := by decide
      omega

end Fill

/-! ### The copy so far -/

/-- What a copy has done to memory after it has made the mbufs `bs`, which look like `ns`. -/
structure Copying (h₀ h : Memory A C) (np top : Option A) (bs : List A) (ns : List (Mb C)) : Prop where
  mbuf : ∀ a ∉ h₀.mfree, h.mbuf a = h₀.mbuf a
  byte : ∀ r, (∀ a ∈ h₀.mfree, r ≠ .dat a) → h.byte r = h₀.byte r
  links : Links (fun a => (h.mbuf a).mNext) top bs none
  last : np = bs.getLast?
  views : bs.map h.view = ns
  sound : ∀ b ∈ bs, (h.mbuf b).Sound b
  new : ∀ b ∈ bs, b ∈ h₀.mfree ∧ b ∉ h.mfree
  free : h.mfree ⊆ h₀.mfree
  nodup : h.mfree.Nodup

omit [DecidableEq A] [DecidableEq C] in
theorem Copying.start {h : Memory A C} (hnodup : h.mfree.Nodup) : Copying h h none none [] [] where
  mbuf := fun _ _ => rfl
  byte := fun _ _ => rfl
  links := rfl
  last := rfl
  views := rfl
  sound := nofun
  new := nofun
  free := List.Subset.refl _
  nodup := hnodup

section Turn

variable {h₀ h : Memory A C} {np top : Option A} {bs : List A} {ns : List (Mb C)} {a n : A} {rest : List A}
  {off0 off len : Int} {copyhdr : Bool}

omit [DecidableEq C] in
/-- The mbuf that `MGET` gives. -/
theorem mget_cons (hfree : h.mfree = n :: rest) (type : Nat) :
    h.mget type = ({ h.set n { mLen := (h.mbuf n).mLen, area := .dat n, mType := type } with mfree := rest }, some n) := by
  rw [mget, hfree]

omit [DecidableEq A] [DecidableEq C] in
theorem view_congr {h' : Memory A C} {b : A} {next : Option A} (hm : h'.mbuf b = { h.mbuf b with mNext := next })
    (hb : h'.byte (h.mbuf b).area = h.byte (h.mbuf b).area) : h'.view b = h.view b := by
  unfold view
  rw [hm]
  dsimp only
  rw [hb]

omit [DecidableEq C] in
theorem link_mbuf (h : Memory A C) (np top next : Option A) (b : A) :
    (h.link np top next).1.mbuf b = if np = some b then { h.mbuf b with mNext := next } else h.mbuf b := by
  cases np with
  | none => rfl
  | some c =>
    by_cases hc : b = c
    · rw [hc, if_pos rfl]
      exact Function.update_self ..
    · rw [if_neg fun heq => hc (Option.some.inj heq).symm]
      exact Function.update_of_ne hc ..

/-- The memory when the new mbuf is linked to the copy. -/
def grown (h : Memory A C) (a n : A) (rest : List A) (np top : Option A) : Memory A C × Option A :=
  ({ h.set n { mLen := (h.mbuf n).mLen, area := .dat n, mType := (h.mbuf a).mType } with mfree := rest } : Memory A C).link
    np top (some n)

omit [DecidableEq C] in
theorem grown_byte : (grown h a n rest np top).1.byte = h.byte := by
  unfold grown
  cases np <;> rfl

omit [DecidableEq C] in
theorem grown_pool : (grown h a n rest np top).1.pool = h.pool := by
  unfold grown
  cases np <;> rfl

omit [DecidableEq C] in
theorem grown_mfree : (grown h a n rest np top).1.mfree = rest := by
  unfold grown
  cases np <;> rfl

omit [DecidableEq C] in
theorem grown_new (hnp : np ≠ some n) :
    (grown h a n rest np top).1.mbuf n = { mLen := (h.mbuf n).mLen, area := .dat n, mType := (h.mbuf a).mType } := by
  rw [grown, link_mbuf, if_neg hnp]
  exact Function.update_self ..

omit [DecidableEq C] in
theorem grown_of_ne {b : A} (hb : b ≠ n) : (grown h a n rest np top).1.mbuf b =
    if np = some b then { h.mbuf b with mNext := some n } else h.mbuf b := by
  rw [grown, link_mbuf]
  dsimp only [set]
  rw [Function.update_of_ne hb]

omit [DecidableEq C] in
theorem grown_view {b : A} (hb : b ≠ n) : (grown h a n rest np top).1.view b = h.view b := by
  have hmbuf := @grown_of_ne _ _ _ h np top a n rest b hb
  by_cases hnp : np = some b
  · rw [if_pos hnp] at hmbuf
    exact view_congr hmbuf (by rw [grown_byte])
  · rw [if_neg hnp] at hmbuf
    exact view_congr hmbuf (by rw [grown_byte])

/-- One turn: an mbuf is taken, linked and filled. -/
theorem Copying.turn (hc : Copying h₀ h np top bs ns) (hfree : h.mfree = n :: rest) (ha : a ∉ h₀.mfree)
    (hsound : (h.mbuf a).Sound a) (hhdr : copyhdr = true → (h.mbuf a).pkthdr.isSome) (hoff : 0 ≤ off) (hle : off ≤ (h.mbuf a).mLen) :
    Copying h₀ ((grown h a n rest np top).1.copyMbuf n a off0 off len copyhdr) (some n) (grown h a n rest np top).2 (bs ++ [n])
      (ns ++ [(Cl.copyMbuf h.pool (h.view a) off0 off len copyhdr).2]) := by
  have hnodup := hc.nodup
  rw [hfree, List.nodup_cons] at hnodup
  have hn : n ∈ h₀.mfree := hc.free (hfree ▸ List.mem_cons_self)
  have hna : n ≠ a := fun heq => ha (heq ▸ hn)
  have hbs : n ∉ bs := fun hmem => (hc.new n hmem).2 (hfree ▸ List.mem_cons_self)
  have hnp : np ≠ some n := fun heq => hbs (List.mem_of_getLast? (hc.last ▸ heq))
  have hnpa : np ≠ some a := fun heq => ha (hc.new a (List.mem_of_getLast? (hc.last ▸ heq))).1
  have hnew := @grown_new _ _ _ h np top a n rest hnp
  have hmbufa : (grown h a n rest np top).1.mbuf a = h.mbuf a := by rw [grown_of_ne (Ne.symm hna), if_neg hnpa]
  have hview : ∀ b ≠ n, (h.mbuf b).Sound b →
      ((grown h a n rest np top).1.copyMbuf n a off0 off len copyhdr).view b = h.view b := by
    intro b hb hsound
    have harea : ((grown h a n rest np top).1.mbuf b).area = (h.mbuf b).area := by
      rw [grown_of_ne hb]
      split <;> rfl
    have hsame : ((grown h a n rest np top).1.copyMbuf n a off0 off len copyhdr).view b = (grown h a n rest np top).1.view b := by
      refine @view_congr _ _ _ _ b ((grown h a n rest np top).1.mbuf b).mNext (copyMbuf_mbuf_of_ne hb) ?_
      exact copyMbuf_byte (by rw [hnew]) (harea ▸ hsound.area_ne hb)
    rw [hsame, grown_view hb]
  constructor
  case mbuf =>
    intro b hb
    have hbn : b ≠ n := fun heq => hb (heq ▸ hn)
    have hnpb : np ≠ some b := fun heq => hb (hc.new b (List.mem_of_getLast? (hc.last ▸ heq))).1
    rw [copyMbuf_mbuf_of_ne hbn, grown_of_ne hbn, if_neg hnpb, hc.mbuf b hb]
  case byte =>
    intro r hr
    rw [copyMbuf_byte (by rw [hnew]) (hr n hn), grown_byte, hc.byte r hr]
  case links =>
    have hnull : (((grown h a n rest np top).1.copyMbuf n a off0 off len copyhdr).mbuf n).mNext = none := by
      rw [copyMbuf_mNext, hnew]
    have hlast := hc.last
    rcases List.eq_nil_or_concat bs with hnil | ⟨l, z, hz⟩
    · rw [hnil] at hlast
      have htop : (grown h a n rest np top).2 = some n := by
        rw [hlast]
        rfl
      rw [hnil, htop]
      exact ⟨rfl, hnull⟩
    · rw [List.concat_eq_append] at hz
      have hlinks := hc.links
      have hznd := hlinks.nodup
      rw [hz, List.getLast?_concat] at hlast
      rw [hz] at hbs hlinks hznd ⊢
      obtain ⟨hl, -⟩ := links_snoc.mp hlinks
      have hzl : z ∉ l := by
        rw [List.nodup_append] at hznd
        exact fun hmem => hznd.2.2 z hmem z (List.mem_singleton.mpr rfl) rfl
      simp only [List.mem_append, List.mem_singleton, not_or] at hbs
      rw [links_snoc, links_snoc]
      refine ⟨⟨?_, ?_⟩, hnull⟩
      · have htop : (grown h a n rest np top).2 = top := by
          rw [hlast]
          rfl
        rw [htop]
        refine Links.congr hl fun b hb => ?_
        have hbn : b ≠ n := fun heq => hbs.1 (heq ▸ hb)
        have hbz : np ≠ some b := fun heq => hzl (Option.some.inj (hlast.symm.trans heq) ▸ hb)
        rw [copyMbuf_mbuf_of_ne hbn, grown_of_ne hbn, if_neg hbz]
      · rw [copyMbuf_mbuf_of_ne (Ne.symm hbs.2), grown_of_ne (Ne.symm hbs.2), if_pos hlast]
  case last => rw [List.getLast?_append_of_ne_nil _ (List.cons_ne_nil _ _)]; rfl
  case views =>
    rw [List.map_append, ← hc.views]
    congr 1
    · exact List.map_congr_left fun b hb => hview b (fun heq => hbs (heq ▸ hb)) (hc.sound b hb)
    · rw [List.map_singleton, copyMbuf_view (by rw [hnew, hmbufa]) hoff (by rw [hmbufa]; exact hle), grown_pool,
        grown_view (Ne.symm hna)]
  case sound =>
    intro b hb
    rcases List.mem_append.mp hb with hb | hb
    · have hbn : b ≠ n := fun heq => hbs (heq ▸ hb)
      rw [copyMbuf_mbuf_of_ne hbn, grown_of_ne hbn]
      split
      · exact (hc.sound b hb).next _
      · exact hc.sound b hb
    · rw [List.mem_singleton.mp hb]
      apply copyMbuf_sound
      · rw [hnew, hmbufa]
      · rw [hmbufa]
        exact hsound
      · rw [hmbufa]
        exact hhdr
      · exact hoff
      · rw [hmbufa]
        exact hle
  case new =>
    intro b hb
    rw [copyMbuf_mfree, grown_mfree]
    rcases List.mem_append.mp hb with hb | hb
    · have := hc.new b hb
      rw [hfree, List.mem_cons, not_or] at this
      exact ⟨this.1, this.2.2⟩
    · rw [List.mem_singleton.mp hb]
      exact ⟨hn, hnodup.1⟩
  case free =>
    rw [copyMbuf_mfree, grown_mfree]
    exact fun b hb => hc.free (hfree ▸ List.mem_cons_of_mem _ hb)
  case nodup =>
    rw [copyMbuf_mfree, grown_mfree]
    exact hnodup.2

omit [DecidableEq A] [DecidableEq C] in
/-- The source of a copy is what it was. -/
theorem Copying.view_source (hc : Copying h₀ h np top bs ns) (ha : a ∉ h₀.mfree) (hsound : (h₀.mbuf a).Sound a) :
    h.view a = h₀.view a := by
  have hbyte : h.byte (h₀.mbuf a).area = h₀.byte (h₀.mbuf a).area := by
    apply hc.byte
    exact fun b hb => hsound.area_ne fun heq => ha (heq ▸ hb)
  unfold view
  rw [hc.mbuf a ha]
  dsimp only
  rw [hbyte]

omit [DecidableEq A] [DecidableEq C] in
theorem length_view (h : Memory A C) (a : A) : (h.view a).len = (h.mbuf a).mLen := length_slice _ _ _

/-- The turn for an mbuf, when there is a free one. -/
theorem copyLoop_turn (hfree : h.mfree = n :: rest) (hlen : len > 0) (fuel : Nat) :
    copyLoop off0 (fuel + 1) h (some a) off len copyhdr np top =
      copyLoop off0 fuel ((grown h a n rest np top).1.copyMbuf n a off0 off len copyhdr)
        (((grown h a n rest np top).1.copyMbuf n a off0 off len copyhdr).mbuf a).mNext 0
        (if len ≠ mCopyall then len - (((grown h a n rest np top).1.copyMbuf n a off0 off len copyhdr).mbuf n).mLen else len)
        false (some n) (grown h a n rest np top).2 := by
  rw [copyLoop, if_pos hlen, mget_cons hfree]
  rfl

/-- The second loop does with the mbufs what it does with their contents, unless there are too few. -/
theorem copyLoop_refines {as : List A} {m : Option A} {fuel gets : Nat} {p' : Pool C} {ns' : List (Mb C)}
    (hc : Copying h₀ h np top bs ns) (hlinks : Links (fun a => (h₀.mbuf a).mNext) m as none)
    (hsound : ∀ a ∈ as, (h₀.mbuf a).Sound a) (hused : ∀ a ∈ as, a ∉ h₀.mfree) (hfuel : as.length < fuel)
    (hin : Cl.Within (as.map h₀.view) off) (hhdr : copyhdr = true → ∀ a, m = some a → (h₀.mbuf a).pkthdr.isSome)
    (hgets : as.length ≤ gets) (hrun : Cl.copyLoop off0 (as.map h₀.view) off len copyhdr gets h.pool ns = some (p', ns')) :
    ∃ r, copyLoop off0 fuel h m off len copyhdr np top = some r ∧
      (as.length ≤ h.mfree.length → ∀ h' t, r ≠ .nospace h' t) ∧
      ∀ h' t, r = .top h' t → ∃ np' bs', Copying h₀ h' np' t bs' ns' ∧ h'.pool = p' := by
  induction as generalizing h m off len copyhdr np top bs ns fuel gets with
  | nil =>
    obtain ⟨fuel, rfl⟩ : ∃ k, fuel = k + 1 := ⟨fuel - 1, by omega⟩
    obtain rfl : m = none := hlinks
    rw [List.map_nil, Cl.copyLoop] at hrun
    split at hrun
    · cases hrun
    · obtain ⟨rfl, rfl⟩ := Prod.mk.inj (Option.some.inj hrun)
      have hturn : copyLoop off0 (fuel + 1) h none off len copyhdr np top = some (.top h top) := by
        rw [copyLoop]
        split
        · rw [if_neg (by omega)]
        · rfl
      refine ⟨_, hturn, (fun _ _ _ heq => by cases heq), fun h' t heq => ?_⟩
      obtain ⟨rfl, rfl⟩ := Copy.top.inj heq
      exact ⟨np, bs, hc, rfl⟩
  | cons a as ih =>
    obtain ⟨fuel, rfl⟩ : ∃ k, fuel = k + 1 := ⟨fuel - 1, by omega⟩
    obtain ⟨gets, rfl⟩ : ∃ k, gets = k + 1 := ⟨gets - 1, by simp only [List.length_cons] at hgets; omega⟩
    obtain ⟨rfl, hrest⟩ := hlinks
    by_cases hlen : len > 0
    · cases hfree : h.mfree with
      | nil =>
        refine ⟨.nospace (h.link np top none).1 (h.link np top none).2, ?_, ?_, (fun _ _ heq => by cases heq)⟩
        · rw [copyLoop, if_pos hlen, mget, hfree]
        · intro hle
          exact absurd hle (Nat.not_succ_le_zero _)
      | cons n rest =>
        have ha := hused a List.mem_cons_self
        have hsa := hsound a List.mem_cons_self
        have hmbuf := hc.mbuf a ha
        have hle : off ≤ (h.mbuf a).mLen := by
          have := hin.2
          rw [List.map_cons, List.head?_cons, Option.map_some, Option.getD_some, length_view] at this
          rwa [hmbuf]
        have hhdr' : copyhdr = true → (h.mbuf a).pkthdr.isSome := fun hcopy => hmbuf ▸ hhdr hcopy a rfl
        have hnext := @Copying.turn _ _ _ _ h₀ h np top bs ns a n rest off0 off len copyhdr hc hfree ha (hmbuf ▸ hsa) hhdr' hin.1 hle
        have hview : h.view a = h₀.view a := hc.view_source ha hsa
        obtain ⟨h₃, hh₃⟩ : ∃ h₃, h₃ = (grown h a n rest np top).1.copyMbuf n a off0 off len copyhdr := ⟨_, rfl⟩
        have hpool : h₃.pool = (Cl.copyMbuf h.pool (h₀.view a) off0 off len copyhdr).1 := by
          have hna : a ≠ n := fun heq => ha (hc.free (hfree ▸ heq ▸ List.mem_cons_self))
          rw [hh₃, copyMbuf_pool, grown_pool, grown_view hna, hview]
        have hfree₃ : h₃.mfree = rest := by rw [hh₃, copyMbuf_mfree, grown_mfree]
        rw [← hh₃, hview] at hnext
        have hcopied : (h₃.mbuf n).mLen = (Cl.copyMbuf h.pool (h₀.view a) off0 off len copyhdr).2.len := by
          have hlast := congrArg List.getLast? hnext.views
          rw [List.map_append, List.map_singleton, List.getLast?_concat, List.getLast?_concat] at hlast
          rw [← Option.some.inj hlast, length_view]
        rw [List.map_cons, Cl.copyLoop_cons hlen, ← hpool, ← hcopied] at hrun
        rw [copyLoop_turn hfree hlen, ← hh₃, hnext.mbuf a ha]
        obtain ⟨r, hr, hspace, htop⟩ := ih hnext hrest (fun b hb => hsound b (List.mem_cons_of_mem _ hb))
          (fun b hb => hused b (List.mem_cons_of_mem _ hb)) (Nat.lt_of_succ_lt_succ hfuel) (.zero _) (fun h => absurd h Bool.false_ne_true)
          (Nat.le_of_succ_le_succ hgets) hrun
        refine ⟨r, hr, fun hle => hspace ?_, htop⟩
        rw [hfree₃]
        exact Nat.le_of_succ_le_succ hle
    · rw [List.map_cons, Cl.copyLoop, if_neg hlen] at hrun
      obtain ⟨rfl, rfl⟩ := Prod.mk.inj (Option.some.inj hrun)
      refine ⟨.top h top, by rw [copyLoop, if_neg hlen], (fun _ _ _ heq => by cases heq), fun h' t heq => ?_⟩
      obtain ⟨rfl, rfl⟩ := Copy.top.inj heq
      exact ⟨np, bs, hc, rfl⟩

end Turn

/-! ### Both loops -/

section Refines

variable {h : Memory A C} {m : Option A} {as : List A} {off len : Int} {fuel : Nat}

omit [DecidableEq A] [DecidableEq C] in
/-- The loop for the offset comes to the mbuf that it comes to in the list. -/
theorem copyStart_refines {ms' : List (Mb C)} {off' : Int} (hlinks : Links (fun a => (h.mbuf a).mNext) m as none)
    (hfuel : as.length < fuel) (hstart : Cl.copyStart (as.map h.view) off = some (ms', off')) :
    ∃ m' before as', as = before ++ as' ∧ ms' = as'.map h.view ∧ Links (fun a => (h.mbuf a).mNext) m' as' none ∧
      h.copyStart fuel m off = some (m', off') := by
  induction as generalizing m off fuel with
  | nil =>
    obtain ⟨fuel, rfl⟩ : ∃ k, fuel = k + 1 := ⟨fuel - 1, by omega⟩
    rw [List.map_nil, Cl.copyStart] at hstart
    split at hstart
    · cases hstart
    next hoff =>
      obtain ⟨rfl, rfl⟩ := Prod.mk.inj (Option.some.inj hstart)
      obtain rfl : m = none := hlinks
      exact ⟨none, [], [], rfl, rfl, rfl, by rw [copyStart, if_neg hoff]⟩
  | cons a as ih =>
    obtain ⟨fuel, rfl⟩ : ∃ k, fuel = k + 1 := ⟨fuel - 1, by omega⟩
    have hwhole := hlinks
    obtain ⟨rfl, hrest⟩ := hlinks
    rw [List.map_cons, Cl.copyStart, length_view] at hstart
    rw [copyStart]
    by_cases hoff : off > 0
    · rw [if_pos hoff] at hstart ⊢
      by_cases hin : off < (h.mbuf a).mLen
      · rw [if_pos hin] at hstart
        obtain ⟨rfl, rfl⟩ := Prod.mk.inj (Option.some.inj hstart)
        exact ⟨some a, [], a :: as, rfl, rfl, hwhole, if_pos hin⟩
      · rw [if_neg hin] at hstart
        obtain ⟨m', before, as', rfl, hms', hlinks', hrun⟩ := ih hrest (Nat.lt_of_succ_lt_succ hfuel) hstart
        refine ⟨m', a :: before, as', rfl, hms', hlinks', ?_⟩
        rw [if_neg hin, hrun]
    · rw [if_neg hoff] at hstart ⊢
      obtain ⟨rfl, rfl⟩ := Prod.mk.inj (Option.some.inj hstart)
      exact ⟨some a, [], a :: as, rfl, rfl, hwhole, rfl⟩

theorem mCopym_eq {a : A} {m' : Option A} {off' : Int} (hoff : 0 ≤ off) (hlen : 0 ≤ len)
    (hstart : h.copyStart fuel (some a) off = some (m', off')) :
    h.mCopym fuel (some a) off len =
      (copyLoop off fuel h m' off' len (decide (off = 0) && (h.mbuf a).pkthdr.isSome) none none).bind fun
        | .nospace g top => some (.nospace (mFreem fuel g top) none)
        | .top g top => some (.top g top) := by
  rw [mCopym, if_neg (by omega), hstart]
  by_cases hzero : off = 0
  · rw [if_pos hzero, decide_eq_true hzero]
    rfl
  · rw [if_neg hzero, decide_eq_false hzero]
    rfl

/-- `m_copym` makes what it makes of the list of the contents, unless there are too few mbufs. -/
theorem mCopym_refines {a : A} {p' : Pool C} {ns' : List (Mb C)} (hch : h.IsChain (some a) as) (hnodup : h.mfree.Nodup)
    (hfuel : as.length < fuel) (hoff : 0 ≤ off) (hlen : 0 ≤ len) (hle : off ≤ (h.bytes as).length)
    (hrun : Cl.mCopym h.pool (as.map h.view) off len as.length = some (p', ns')) :
    ∃ r, h.mCopym fuel (some a) off len = some r ∧ (as.length ≤ h.mfree.length → ∀ h' t, r ≠ .nospace h' t) ∧
      ∀ h' t, r = .top h' t → ∃ np bs, Copying h h' np t bs ns' := by
  have htotal : off ≤ (Cl.bytes (as.map h.view)).length := hle
  obtain ⟨-, ms', off', hstart, -, hwithin, -⟩ := Cl.copyStart_spec hoff htotal
  obtain ⟨m', before, as', rfl, rfl, hlinks', hskip⟩ := copyStart_refines hch.links hfuel hstart
  have hhead : (before ++ as').head? = some a := hch.links.eq_head?.symm
  have hhdrs : ((before ++ as').map h.view).head?.bind Mb.pkthdr = (h.mbuf a).pkthdr := by
    rw [List.head?_map, hhead]
    rfl
  rw [Cl.mCopym, if_neg (by omega), hstart, hhdrs] at hrun
  have hhdr : (decide (off = 0) && (h.mbuf a).pkthdr.isSome) = true → ∀ b, m' = some b → (h.mbuf b).pkthdr.isSome := by
    intro hcopy b hb
    rw [Bool.and_eq_true, decide_eq_true_eq] at hcopy
    obtain ⟨fuel, rfl⟩ : ∃ k, fuel = k + 1 := ⟨fuel - 1, by omega⟩
    rw [hcopy.1, copyStart, if_neg (Int.lt_irrefl 0)] at hskip
    obtain rfl : a = b := Option.some.inj ((Prod.mk.inj (Option.some.inj hskip)).1.trans hb)
    exact hcopy.2
  rw [List.length_append] at hfuel hrun ⊢
  obtain ⟨r, hr, hspace, htop⟩ := copyLoop_refines (Copying.start hnodup) hlinks'
    (fun b hb => hch.sound b (List.mem_append_right _ hb)) (fun b hb => hch.used b (List.mem_append_right _ hb))
    (show as'.length < fuel by omega) hwithin hhdr (Nat.le_add_left _ _) hrun
  rw [mCopym_eq hoff hlen hskip, hr]
  cases r with
  | nospace g t =>
    exact ⟨_, rfl, fun hle => absurd rfl (hspace (Nat.le_trans (Nat.le_add_left _ _) hle) g t), (fun _ _ heq => by cases heq)⟩
  | top g t =>
    refine ⟨_, rfl, (fun _ _ _ heq => by cases heq), fun h' t' heq => ?_⟩
    obtain ⟨np, bs, hc, -⟩ := htop h' t' heq
    exact ⟨np, bs, hc⟩

end Refines

/-! ### The copy to a buffer -/

/-- The data of a chain is apart from `n` bytes at `cp`. -/
def Apart (h : Memory A C) (as : List A) (dst : Area A C) (cp n : Nat) : Prop :=
  ∀ a ∈ as, (h.mbuf a).area = dst → (h.mbuf a).off + (h.mbuf a).mLen ≤ cp ∨ cp + n ≤ (h.mbuf a).off

/-- Of all that is in memory only the bytes at `cp` are changed, to `data`. -/
structure Written (h₀ h : Memory A C) (dst : Area A C) (cp : Nat) (data : List Byte) : Prop where
  mbuf : h.mbuf = h₀.mbuf
  pool : h.pool = h₀.pool
  mfree : h.mfree = h₀.mfree
  holds : slice (h.byte dst) cp data.length = data
  byte : ∀ r k, ¬(r = dst ∧ cp ≤ k ∧ k < cp + data.length) → h.byte r k = h₀.byte r k

omit [DecidableEq A] [DecidableEq C] in
theorem Written.start (h : Memory A C) (dst : Area A C) (cp : Nat) : Written h h dst cp [] where
  mbuf := rfl
  pool := rfl
  mfree := rfl
  holds := rfl
  byte := fun _ _ _ => rfl

section Written

variable {h₀ h : Memory A C} {dst : Area A C} {cp n : Nat} {data : List Byte} {as : List A}

omit [DecidableEq A] [DecidableEq C] in
theorem Written.view (hw : Written h₀ h dst cp data) (hapart : Apart h₀ as dst cp n) (hn : data.length ≤ n) {a : A} (ha : a ∈ as) :
    h.view a = h₀.view a := by
  unfold Memory.view
  rw [hw.mbuf]
  dsimp only
  congr 1
  apply slice_congr
  intro k hk
  apply hw.byte
  rintro ⟨hdst, hle, hlt⟩
  have := hapart a ha hdst
  omega

/-- The next bytes are written behind the last ones. -/
theorem Written.bcopy (hw : Written h₀ h dst cp data) (src : Area A C) (i count : Nat) :
    Written h₀ (h.bcopy src i dst (cp + data.length) count) dst cp (data ++ slice (h.byte src) i count) where
  mbuf := hw.mbuf
  pool := hw.pool
  mfree := hw.mfree
  holds := by
    have hfirst : slice ((h.bcopy src i dst (cp + data.length) count).byte dst) cp data.length = data := by
      conv_rhs => rw [← hw.holds]
      apply slice_congr
      intro k hk
      unfold Memory.bcopy
      dsimp only
      rw [if_neg (by omega)]
    rw [List.length_append, length_slice, ← slice_append, hfirst, slice_bcopy]
  byte := by
    intro r k hout
    rw [List.length_append, length_slice] at hout
    unfold Memory.bcopy
    dsimp only
    rw [if_neg (fun h => hout ⟨h.1, by omega⟩)]
    exact hw.byte r k fun h => hout ⟨h.1, by omega⟩

/-- The loop of `m_copydata` writes what is copied of the contents. -/
theorem copydataLoop_refines {m : Option A} {off len : Int} {fuel : Nat} (hw : Written h₀ h dst cp data)
    (hlinks : Links (fun a => (h₀.mbuf a).mNext) m as none) (hapart : Apart h₀ as dst cp n) (hfuel : as.length < fuel)
    (hin : Cl.Within (as.map h₀.view) off) (hn : data.length + len ≤ n) :
    ∃ h' data', copydataLoop fuel h m off len dst (cp + data.length) = some (h', cp + data'.length) ∧
      Cl.copydataLoop (as.map h₀.view) off len data = data' ∧ Written h₀ h' dst cp data' := by
  induction as generalizing h m off len data fuel with
  | nil =>
    obtain ⟨fuel, rfl⟩ : ∃ k, fuel = k + 1 := ⟨fuel - 1, by omega⟩
    obtain rfl : m = none := hlinks
    refine ⟨h, data, ?_, rfl, hw⟩
    rw [copydataLoop]
    exact ite_self _
  | cons a as ih =>
    obtain ⟨fuel, rfl⟩ : ∃ k, fuel = k + 1 := ⟨fuel - 1, by omega⟩
    obtain ⟨rfl, hrest⟩ := hlinks
    rw [List.map_cons, Cl.copydataLoop, copydataLoop]
    by_cases hlen : len > 0
    · rw [if_pos hlen, if_pos hlen]
      dsimp only
      have hdata : data.length ≤ n := by omega
      have hview := hw.view hapart hdata List.mem_cons_self
      have hpos := hin.1
      have hle : off ≤ (h₀.mbuf a).mLen := by
        have := hin.2
        rwa [List.map_cons, List.head?_cons, Option.map_some, Option.getD_some, length_view] at this
      obtain ⟨count, hcount⟩ : ∃ c : Int, c = min ((h₀.mbuf a).mLen - off) len := ⟨_, rfl⟩
      have hcopied : slice (h.byte (h₀.mbuf a).area) ((h₀.mbuf a).off + off.toNat) count.toNat =
          ((h₀.view a).data.drop off.toNat).take count.toNat := by
        rw [← hview, Memory.view, hw.mbuf, drop_slice, take_slice _ _ (by omega)]
      have hnext := hw.bcopy (h₀.mbuf a).area ((h₀.mbuf a).off + off.toNat) count.toNat
      have hlength : (data ++ slice (h.byte (h₀.mbuf a).area) ((h₀.mbuf a).off + off.toNat) count.toNat).length =
          data.length + count.toNat := by rw [List.length_append, length_slice]
      obtain ⟨h', data', hrun, hlist, hw'⟩ := @ih _ _ ((h₀.mbuf a).mNext) 0 (len - count) fuel hnext hrest
        (fun b hb => hapart b (List.mem_cons_of_mem _ hb)) (Nat.lt_of_succ_lt_succ hfuel) (.zero _) (by rw [hlength]; omega)
      refine ⟨h', data', ?_, ?_, hw'⟩
      · rw [hlength, ← Nat.add_assoc] at hrun
        rw [hw.mbuf, ← hcount, hnext.mbuf]
        exact hrun
      · rw [length_view, ← hcount, ← hcopied]
        exact hlist
    · rw [if_neg hlen, if_neg hlen]
      exact ⟨h, data, rfl, rfl, hw⟩

theorem mCopydata_refines {m : Option A} {off len : Int} {fuel : Nat} (hlinks : Links (fun a => (h.mbuf a).mNext) m as none)
    (hapart : Apart h as dst cp len.toNat) (hfuel : as.length < fuel) (hoff : 0 ≤ off) (hlen : 0 ≤ len)
    (hle : off ≤ (h.bytes as).length) :
    ∃ h', h.mCopydata fuel m off len dst cp = some (h', (((h.bytes as).drop off.toNat).take len.toNat).length) ∧
      Written h h' dst cp (((h.bytes as).drop off.toNat).take len.toNat) := by
  have hlist := Cl.mCopydata_spec hoff hlen hle
  obtain ⟨-, ms', off', hstart, -, hwithin, -⟩ := Cl.copyStart_spec hoff hle
  obtain ⟨m', before, as', rfl, rfl, hlinks', hskip⟩ := copyStart_refines hlinks hfuel hstart
  rw [Cl.mCopydata, if_neg (by omega), hstart] at hlist
  obtain ⟨h', data', hrun, hdata, hw⟩ := copydataLoop_refines (Written.start h dst cp) hlinks'
    (fun b hb => hapart b (List.mem_append_right _ hb)) (show as'.length < fuel by rw [List.length_append] at hfuel; omega)
    hwithin (show (([] : List Byte).length : Int) + len ≤ len.toNat by rw [List.length_nil]; omega)
  have hbytes : data' = ((h.bytes (before ++ as')).drop off.toNat).take len.toNat := hdata.symm.trans (Option.some.inj hlist)
  rw [← hbytes]
  refine ⟨h', ?_, hw⟩
  rw [List.length_nil, Nat.add_zero] at hrun
  rw [mCopydata, if_neg (by omega), hskip]
  change (copydataLoop fuel h m' off' len dst cp).bind _ = _
  rw [hrun]
  exact congrArg (fun n => some (h', n)) (Nat.add_sub_cancel_left _ _)

end Written

/-! ### Copies -/

/-- The chain is the one it was, with the same bytes. -/
structure Kept (h h' : Memory A C) (m : Option A) (as : List A) : Prop where
  chain : h'.IsChain m as
  bytes : h'.bytes as = h.bytes as

/-- The bytes that are to be copied. -/
def wanted (h : Memory A C) (as : List A) (off len : Int) : List Byte :=
  if len = mCopyall then (h.bytes as).drop off.toNat else ((h.bytes as).drop off.toNat).take len.toNat

/-- `m_copym` gives a chain with what is to be copied, behind a packet header if there is one to copy. -/
def CopiesChain (h : Memory A C) (fuel : Nat) (m : Option A) (as : List A) (off len : Int) : Prop :=
  ∃ h' top bs, h.mCopym fuel m off len = some (.top h' top) ∧ h'.IsChain top bs ∧ h'.bytes bs = h.wanted as off len ∧
    (bs.head?.bind fun b => (h'.mbuf b).pkthdr) = Cl.copiedHdr (as.map h.view) off len ∧ Kept h h' m as

/-- `m_copydata` copies the bytes that there are, and returns how many. -/
def CopiesData (h : Memory A C) (fuel : Nat) (m : Option A) (as : List A) (off len : Int) (dst : Area A C) (cp : Nat) : Prop :=
  ∃ h' n, h.mCopydata fuel m off len dst cp = some (h', n) ∧ slice (h'.byte dst) cp n = ((h.bytes as).drop off.toNat).take len.toNat ∧
    Kept h h' m as

section Copies

variable {h h' : Memory A C} {m : Option A} {as : List A} {off len : Int} {fuel : Nat} {dst : Area A C} {cp : Nat}

omit [DecidableEq A] [DecidableEq C] in
theorem Copying.kept {np top : Option A} {bs : List A} {ns : List (Mb C)} (hc : Copying h h' np top bs ns) (hch : h.IsChain m as) :
    Kept h h' m as where
  chain := {
    links := hch.links.congr fun a ha => by rw [hc.mbuf a (hch.used a ha)]
    sound := fun a ha => by
      rw [hc.mbuf a (hch.used a ha)]
      exact hch.sound a ha
    used := fun a ha hmem => hch.used a ha (hc.free hmem) }
  bytes := by
    have hviews : as.map h'.view = as.map h.view :=
      List.map_congr_left fun a ha => hc.view_source (hch.used a ha) (hch.sound a ha)
    rw [bytes, bytes, hviews]

omit [DecidableEq A] [DecidableEq C] in
theorem Copying.isChain {np top : Option A} {bs : List A} {ns : List (Mb C)} (hc : Copying h h' np top bs ns) : h'.IsChain top bs :=
  ⟨hc.links, hc.sound, fun b hb => (hc.new b hb).2⟩

omit [DecidableEq A] [DecidableEq C] in
theorem Written.kept {data : List Byte} {n : Nat} (hw : Written h h' dst cp data) (hch : h.IsChain m as) (hapart : Apart h as dst cp n)
    (hn : data.length ≤ n) : Kept h h' m as where
  chain := by
    refine ⟨?_, ?_, ?_⟩
    · rw [hw.mbuf]
      exact hch.links
    · rw [hw.mbuf]
      exact hch.sound
    · rw [hw.mfree]
      exact hch.used
  bytes := by
    have hviews : as.map h'.view = as.map h.view := List.map_congr_left fun a ha => hw.view hapart hn ha
    rw [bytes, bytes, hviews]

theorem mCopydata_copies (hch : h.IsChain m as) (hapart : Apart h as dst cp len.toNat) (hfuel : as.length < fuel) (hoff : 0 ≤ off)
    (hlen : 0 ≤ len) (hle : off ≤ (h.bytes as).length) : CopiesData h fuel m as off len dst cp := by
  obtain ⟨h', hrun, hw⟩ := mCopydata_refines hch.links hapart hfuel hoff hlen hle
  exact ⟨h', _, hrun, hw.holds, hw.kept hch hapart (List.length_take_le _ _)⟩

omit [DecidableEq A] [DecidableEq C] in
theorem IsChain.moderate (hch : h.IsChain m as) : Cl.Moderate (as.map h.view) := by
  intro x hx
  obtain ⟨b, hb, rfl⟩ := List.mem_map.mp hx
  rw [length_view]
  exact (hch.sound b hb).mLen_le

/-- Whether `m_copym` copies what it should is decided by the bytes of the copy of the contents. -/
theorem copiesChain_iff {a : A} (hch : h.IsChain (some a) as) (hnodup : h.mfree.Nodup) (hfuel : as.length < fuel) (hoff : 0 ≤ off)
    (hlen : 0 < len) (hle : off ≤ (h.bytes as).length) (hroom : len ≠ mCopyall → off + len ≤ (h.bytes as).length)
    (hspace : ∀ h' top, h.mCopym fuel (some a) off len ≠ some (.nospace h' top)) :
    CopiesChain h fuel (some a) as off len ↔ (Cl.Meets (as.map h.view) off len → off + len = (h.bytes as).length) := by
  obtain ⟨p', ns, hlist, hhdr, hall, hcut⟩ := @Cl.mCopym_spec _ _ h.pool (as.map h.view) off len as.length
    (Nat.le_of_eq (List.length_map _)) hch.moderate hoff hlen hle hroom
  obtain ⟨r, hr, -, htop⟩ := mCopym_refines hch hnodup hfuel hoff (Int.le_of_lt hlen) hle hlist
  cases r with
  | nospace g t => exact absurd hr (hspace g t)
  | top g t =>
    obtain ⟨np, bs, hc⟩ := htop g t rfl
    have hbytes : g.bytes bs = Cl.bytes ns := by rw [bytes, hc.views]
    have hcopies : CopiesChain h fuel (some a) as off len ↔ Cl.bytes ns = h.wanted as off len := by
      constructor
      · rintro ⟨g', t', bs', hr', hch', hwanted, -⟩
        rw [hr] at hr'
        obtain ⟨rfl, rfl⟩ := Copy.top.inj (Option.some.inj hr')
        rw [← hwanted, ← hbytes, hc.links.unique hch'.links]
      · intro hwanted
        refine ⟨g, t, bs, hr, hc.isChain, hbytes.trans hwanted, ?_, hc.kept hch⟩
        rw [← hhdr, ← hc.views, List.head?_map]
        cases bs.head? <;> rfl
    rw [hcopies, wanted]
    by_cases heverything : len = mCopyall
    · rw [if_pos heverything]
      refine iff_of_true (hall (.inl heverything)) fun hmeets => absurd hmeets (Cl.not_meets (Int.le_of_eq heverything))
    rw [if_neg heverything]
    by_cases hmeets : Cl.Meets (as.map h.view) off len
    · have hdrop : Cl.bytes ns = (h.bytes as).drop off.toNat := hall (.inr hmeets)
      have hfits := hroom heverything
      rw [hdrop, eq_comm, List.take_eq_self_iff, List.length_drop]
      constructor
      · intro hshort _
        omega
      · intro hend
        have := hend hmeets
        omega
    · exact iff_of_true (hcut fun h => h.elim heverything hmeets) fun h => absurd h hmeets

/-- With enough free mbufs there is a copy. -/
theorem mCopym_space {a : A} (hch : h.IsChain (some a) as) (hnodup : h.mfree.Nodup) (hfuel : as.length < fuel) (hoff : 0 ≤ off)
    (hlen : 0 < len) (hle : off ≤ (h.bytes as).length) (hroom : len ≠ mCopyall → off + len ≤ (h.bytes as).length)
    (hfree : as.length ≤ h.mfree.length) (h' : Memory A C) (top : Option A) :
    h.mCopym fuel (some a) off len ≠ some (.nospace h' top) := by
  obtain ⟨p', ns, hlist, -⟩ := @Cl.mCopym_spec _ _ h.pool (as.map h.view) off len as.length
    (Nat.le_of_eq (List.length_map _)) hch.moderate hoff hlen hle hroom
  obtain ⟨r, hr, hspace, -⟩ := mCopym_refines hch hnodup hfuel hoff (Int.le_of_lt hlen) hle hlist
  rw [hr]
  exact fun heq => hspace hfree h' top (Option.some.inj heq)

/-- Both functions copy the bytes at the offset and leave the chain as it was, exactly if `m_copym` does not come to an mbuf with `M_COPYALL` bytes left before the end of the chain. -/
theorem copies_iff {a : A} (hch : h.IsChain (some a) as) (hnodup : h.mfree.Nodup) (hfuel : as.length < fuel) (hoff : 0 ≤ off)
    (hlen : 0 < len) (hle : off ≤ (h.bytes as).length) (hroom : len ≠ mCopyall → off + len ≤ (h.bytes as).length)
    (hspace : ∀ h' top, h.mCopym fuel (some a) off len ≠ some (.nospace h' top)) (hapart : Apart h as dst cp len.toNat) :
    CopiesChain h fuel (some a) as off len ∧ CopiesData h fuel (some a) as off len dst cp ↔
      (Cl.Meets (as.map h.view) off len → off + len = (h.bytes as).length) := by
  rw [copiesChain_iff hch hnodup hfuel hoff hlen hle hroom hspace]
  exact and_iff_left (mCopydata_copies hch hapart hfuel hoff (Int.le_of_lt hlen) hle)

end Copies

/-- A chain of two mbufs, the first of which has a packet header. -/
def twoMbufs : Memory Nat Nat where
  mbuf a :=
    if a = 0 then { mNext := some 1, mLen := 2, area := .dat 0, off := 8, pkthdr := some { rcvif := 1, len := 5 } }
    else { mLen := 3, area := .cluster 0, off := 40, ext := some { buf := 0, size := Cl.mclbytes } }
  byte _ k := UInt8.ofNat k
  pool := {}
  mfree := [2, 3]

theorem copies_iff_two :
    CopiesChain twoMbufs 3 (some 0) [0, 1] 1 3 ∧ CopiesData twoMbufs 3 (some 0) [0, 1] 1 3 (.buffer 0) 0 ↔
      (Cl.Meets ([0, 1].map twoMbufs.view) 1 3 → (1 : Int) + 3 = (twoMbufs.bytes [0, 1]).length) := by
  refine copies_iff ⟨⟨rfl, rfl, rfl⟩, ?_, ?_⟩ (by decide) (by decide) (by decide) (by decide) (by decide) (fun _ => by decide) ?_ ?_
  · intro a ha
    simp only [List.mem_cons, List.not_mem_nil, or_false] at ha
    rcases ha with rfl | rfl
    · exact ⟨rfl, by decide, fun _ _ => by decide⟩
    · exact ⟨rfl, by decide, nofun⟩
  · decide
  · intro h' top heq
    cases heq
  · intro a ha
    simp only [List.mem_cons, List.not_mem_nil, or_false] at ha
    rcases ha with rfl | rfl <;> exact nofun

/-- A chain of clusters with 2000 bytes each. -/
def longChain (n : Nat) : Memory Nat Nat where
  mbuf a := { mNext := if a + 1 < n then some (a + 1) else none, mLen := 2000, area := .cluster a, ext := some { buf := a, size := Cl.mclbytes } }
  byte _ _ := 0
  pool := {}
  mfree := List.range' n n

theorem links_longChain {n k l : Nat} (hk : k + l = n) :
    Links (fun a => ((longChain n).mbuf a).mNext) (if k < n then some k else none) (List.range' k l) none := by
  induction l generalizing k with
  | zero => exact if_neg (by omega)
  | succ l ih => exact ⟨if_pos (by omega), ih (by omega)⟩

theorem isChain_longChain {n : Nat} (hn : 0 < n) : (longChain n).IsChain (some 0) (List.range' 0 n) where
  links := by
    have hlinks := @links_longChain n 0 n (Nat.zero_add n)
    rwa [if_pos hn] at hlinks
  sound := fun a _ => ⟨rfl, show 0 + 2000 ≤ Cl.mclbytes by decide, nofun⟩
  used := by
    intro a ha hfree
    change a ∈ List.range' n n at hfree
    rw [List.mem_range'_1] at ha hfree
    omega

theorem length_longChain (n : Nat) (as : List Nat) : ((longChain n).bytes as).length = 2000 * as.length := by
  induction as with
  | nil => rfl
  | cons a as ih =>
    rw [bytes, List.map_cons, Cl.length_bytes_cons, length_view]
    change 2000 + ((longChain n).bytes as).length = _
    rw [ih, List.length_cons]
    omega

/-- Of a long chain more is copied than was asked for. -/
theorem mCopym_goes_on :
    (longChain 500002).IsChain (some 0) (List.range' 0 500002) ∧
      0 + (mCopyall + 2000) ≤ (((longChain 500002).bytes (List.range' 0 500002)).length : Int) ∧
      (∀ h' top, (longChain 500002).mCopym 500003 (some 0) 0 (mCopyall + 2000) ≠ some (.nospace h' top)) ∧
      ¬CopiesChain (longChain 500002) 500003 (some 0) (List.range' 0 500002) 0 (mCopyall + 2000) := by
  have hch := @isChain_longChain 500002 (by decide)
  have hnodup : (longChain 500002).mfree.Nodup := List.nodup_range'
  have hfuel : (List.range' 0 500002).length < 500003 := by rw [List.length_range']; decide
  have htotal : (((longChain 500002).bytes (List.range' 0 500002)).length : Int) = 1000004000 := by
    rw [length_longChain, List.length_range']
    decide
  have hlen : (0 : Int) < mCopyall + 2000 := by decide
  have hroom : 0 + (mCopyall + 2000) ≤ (((longChain 500002).bytes (List.range' 0 500002)).length : Int) := by
    rw [htotal]
    decide
  have hle : (0 : Int) ≤ ((longChain 500002).bytes (List.range' 0 500002)).length := Int.natCast_nonneg _
  have hfree : (List.range' 0 500002).length ≤ (longChain 500002).mfree.length := by
    rw [longChain, List.length_range', List.length_range']
  have hspace := mCopym_space hch hnodup hfuel (Int.le_refl 0) hlen hle (fun _ => hroom) hfree
  refine ⟨hch, hroom, hspace, fun hcopies => ?_⟩
  -- the first mbuf ends where `M_COPYALL` bytes are left
  have hmeets : Cl.Meets ((List.range' 0 500002).map (longChain 500002).view) 0 (mCopyall + 2000) := by
    refine ⟨by decide, 1, ?_⟩
    have hfirst := length_longChain 500002 ((List.range' 0 500002).take 1)
    rw [List.length_take, List.length_range'] at hfirst
    rw [← List.map_take]
    change (((longChain 500002).bytes ((List.range' 0 500002).take 1)).length : Int) + mCopyall = _
    rw [hfirst]
    decide
  have hend := (copiesChain_iff hch hnodup hfuel (Int.le_refl 0) hlen hle (fun _ => hroom) hspace).mp hcopies hmeets
  rw [htotal] at hend
  exact absurd hend (by decide)

end Memory

end Reading.Kern.Mem
