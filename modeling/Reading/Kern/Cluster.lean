import Mathlib.Algebra.BigOperators.Group.Multiset.Basic
import Mathlib.Tactic.Abel
import Mathlib.Tactic.Ring
import Reading.Kern.Mbuf

/-!
# Mbuf clusters

The functions of `mbuf.h` and `uipc_mbuf.c` that take and drop references to clusters: `MCLALLOC`, `MCLGET`, `MCLFREE`, `MFREE`, `m_copym`, `m_split`, `m_pullup` and `m_cat`. Chains share clusters and nothing else, so a chain is the list of its mbufs; a cluster that several mbufs refer to has one entry in `mclrefcnt`, which is an array of `char`.

Whether an mbuf can be allocated is a choice of the environment: a call is given the number of mbufs that it gets. It has no result where the kernel panics or does not come back.
-/

namespace Reading.Kern.Cl

def mlen : Nat := 108

def mhlen : Nat := 100

def mclbytes : Nat := 2048

/-- `M_COPYALL`. -/
def mCopyall : Int := 1000000000

structure Pkthdr where
  rcvif : Nat
  len : Int
deriving DecidableEq

/-- `m_ext`, for a cluster. -/
structure Ext (C : Type) where
  buf : C
  size : Nat
deriving DecidableEq

structure Mb (C : Type) where
  /-- The `m_len` bytes from `m_data` on. -/
  data : List Byte := []
  /-- The distance of `m_data` from `m_dat`, or from the cluster. -/
  off : Nat := 0
  mtype : Nat := 1
  pkthdr : Option Pkthdr := none
  eor : Bool := false
  bcast : Bool := false
  mcast : Bool := false
  ext : Option (Ext C) := none
deriving DecidableEq

variable {C : Type}

/-- `m_len`. -/
def Mb.len (m : Mb C) : Nat := m.data.length

/-- `M_COPY_PKTHDR`. -/
def copyPkthdr (target source : Mb C) : Mb C :=
  { target with pkthdr := source.pkthdr, eor := source.eor, bcast := source.bcast, mcast := source.mcast, ext := none, off := mlen - mhlen }

/-! ### Clusters -/

structure Pool (C : Type) where
  mclrefcnt : C → BitVec 8 := fun _ => 0
  mclfree : List C := []
  /-- The clusters that `m_clalloc` has made. -/
  mbutl : List C := []

variable [DecidableEq C]

/-- `m_clalloc`, which gets memory for the clusters. -/
def Pool.mClalloc (p : Pool C) (fresh : List C) : Pool C := { p with mclfree := fresh.reverse ++ p.mclfree, mbutl := fresh ++ p.mbutl }

def Pool.share (p : Pool C) (c : C) : Pool C := { p with mclrefcnt := Function.update p.mclrefcnt c (p.mclrefcnt c + 1) }

def Pool.mclalloc (p : Pool C) (fresh : List C) : Pool C × Option C :=
  let p := if p.mclfree = [] then p.mClalloc fresh else p
  match p.mclfree with
  | [] => (p, none)
  | c :: rest => ({ p.share c with mclfree := rest }, some c)

/-- `MCLFREE`. -/
def Pool.drop (p : Pool C) (c : C) : Pool C :=
  let p := { p with mclrefcnt := Function.update p.mclrefcnt c (p.mclrefcnt c - 1) }
  if p.mclrefcnt c = 0 then { p with mclfree := c :: p.mclfree } else p

/-- `MCLGET`. -/
def mclget (p : Pool C) (m : Mb C) (fresh : List C) : Pool C × Mb C :=
  match p.mclalloc fresh with
  | (p, none) => (p, m)
  | (p, some c) => (p, { m with off := 0, ext := some { buf := c, size := mclbytes } })

/-- `MFREE`. -/
def mFree (p : Pool C) (m : Mb C) : Pool C :=
  match m.ext with
  | none => p
  | some e => p.drop e.buf

def mFreem (p : Pool C) (ms : List (Mb C)) : Pool C := ms.foldl mFree p

/-! ### `m_copym` -/

/-- The first loop: the mbuf with the byte at the offset. -/
def copyStart : List (Mb C) → Int → Option (List (Mb C) × Int)
  | [], off => if off > 0 then none else some ([], off)
  | m :: ms, off =>
    if off > 0 then if off < m.len then some (m :: ms, off) else copyStart ms (off - m.len)
    else some (m :: ms, off)

/-- The copy of an mbuf, which shares its cluster. -/
def copyMbuf (p : Pool C) (m : Mb C) (off0 off len : Int) (copyhdr : Bool) : Pool C × Mb C :=
  let n : Mb C := { mtype := m.mtype }
  let n := if copyhdr then
      let n := copyPkthdr n m
      { n with pkthdr := n.pkthdr.map fun h => { h with len := if len = mCopyall then h.len - off0 else len } }
    else n
  let n := { n with data := (m.data.drop off.toNat).take (min len (m.len - off)).toNat }
  match m.ext with
  | some e => (p.share e.buf, { n with off := m.off + off.toNat, ext := some e })
  | none => (p, n)

/-- The second loop, with the copy so far. -/
def copyLoop (off0 : Int) : List (Mb C) → Int → Int → Bool → Nat → Pool C → List (Mb C) → Option (Pool C × List (Mb C))
  | [], _, len, _, _, p, top => if len > 0 ∧ len ≠ mCopyall then none else some (p, top)
  | m :: ms, off, len, copyhdr, gets, p, top =>
    if len > 0 then
      match gets with
      | 0 => some (mFreem p top, [])
      | gets + 1 =>
        let (p, n) := copyMbuf p m off0 off len copyhdr
        copyLoop off0 ms 0 (if len ≠ mCopyall then len - n.len else len) false gets p (top ++ [n])
    else some (p, top)

def mCopym (p : Pool C) (ms : List (Mb C)) (off0 len : Int) (gets : Nat) : Option (Pool C × List (Mb C)) := do
  if off0 < 0 ∨ len < 0 then none
  else
    let copyhdr := decide (off0 = 0) && (ms.head?.bind Mb.pkthdr).isSome
    let (ms, off) ← copyStart ms off0
    copyLoop off0 ms off len copyhdr gets p []

/-! ### `m_cat` -/

/-- The loop over the second chain, with the last mbuf of the first one. -/
def catLoop (p : Pool C) (m : Mb C) : List (Mb C) → Pool C × List (Mb C)
  | [] => (p, [m])
  | n :: ns =>
    if m.ext.isSome ∨ m.off + m.len + n.len ≥ mlen then (p, m :: n :: ns)
    else catLoop (mFree p n) { m with data := m.data ++ n.data } ns

/-- `m_cat`; the first chain is not empty. -/
def mCat (p : Pool C) (ms ns : List (Mb C)) : Option (Pool C × List (Mb C)) := do
  let m ← ms.getLast?
  let (p, tail) := catLoop p m ns
  some (p, ms.dropLast ++ tail)

/-! ### `m_pullup` -/

/-- The loop that gathers `len` bytes in `m`: the mbuf, the rest of the chain and what is left of `len`. If `m` is full and more is wanted the loop goes on for ever. -/
def pullLoop (maxProtohdr : Nat) : Pool C → Mb C → List (Mb C) → Int → Option (Pool C × Mb C × List (Mb C) × Int)
  | p, m, [], len => some (p, m, [], len)
  | p, m, n :: ns, len =>
    let space : Int := mlen - (m.off + m.len)
    let count := min (min (max len maxProtohdr) space) n.len
    let m := { m with data := m.data ++ n.data.take count.toNat }
    let len := len - count
    if count.toNat < n.len then
      if len > 0 then none
      else some (p, m, { n with data := n.data.drop count.toNat, off := n.off + count.toNat } :: ns, len)
    else if len > 0 then pullLoop maxProtohdr (mFree p n) m ns len
    else some (mFree p n, m, ns, len)

/-- The part of `m_pullup` after the mbuf to gather in has been found. -/
def pullInto (maxProtohdr : Nat) (p : Pool C) (m : Mb C) (ns : List (Mb C)) (len : Int) : Option (Pool C × List (Mb C)) := do
  let (p, m, ns, len) ← pullLoop maxProtohdr p m ns len
  if len > 0 then some (mFreem (mFree p m) ns, []) else some (p, m :: ns)

/-- `m_pullup`, with whether an mbuf can be allocated. -/
def mPullup (maxProtohdr : Nat) (p : Pool C) (ms : List (Mb C)) (len : Int) (get : Bool) : Option (Pool C × List (Mb C)) :=
  match ms with
  | [] => none
  | n :: ns =>
    if n.ext.isNone ∧ n.off + len < mlen ∧ ns ≠ [] then
      if n.len ≥ len then some (p, n :: ns) else pullInto maxProtohdr p n ns (len - n.len)
    else if len > mhlen ∨ get = false then some (mFreem p (n :: ns), [])
    else
      let m : Mb C := { mtype := n.mtype }
      if n.pkthdr.isSome then pullInto maxProtohdr p (copyPkthdr m n) ({ n with pkthdr := none } :: ns) len
      else pullInto maxProtohdr p m (n :: ns) len

/-! ### `m_split` -/

/-- The mbufs before the one in which the chain is split, that one, those behind it, and how many of its bytes stay. -/
def splitPoint : List (Mb C) → Nat → Option (List (Mb C) × Mb C × List (Mb C) × Nat)
  | [], _ => none
  | m :: ms, len =>
    if len > m.len then (splitPoint ms (len - m.len)).map fun (before, x, after, len) => (m :: before, x, after, len)
    else some ([], m, ms, len)

/-- `M_ALIGN`, or `MH_ALIGN` for an mbuf with a packet header. -/
def align (n : Mb C) (len : Nat) : Mb C :=
  { n with off := n.off + (if n.pkthdr.isSome then mhlen - len else mlen - len) / 4 * 4 }

/-- From `extpacket` on: what stays of `m`, and `n` with what comes behind. -/
def splitMbuf (p : Pool C) (m n : Mb C) (len : Nat) : Pool C × Mb C × Mb C :=
  match m.ext with
  | some e =>
    (p.share e.buf, { m with data := m.data.take len, ext := some { e with size := 0 } },
      { n with data := m.data.drop len, off := m.off + len, ext := some e })
  | none => (p, { m with data := m.data.take len }, { n with data := m.data.drop len })

/-- `m_split` of a chain that begins with the mbuf to split and has no packet header. -/
def splitPlain (p : Pool C) (m : Mb C) (after : List (Mb C)) (len gets : Nat) : Pool C × List (Mb C) × List (Mb C) :=
  if m.len - len = 0 then (p, [m], after)
  else if gets = 0 then (p, m :: after, [])
  else
    let (p, m, n) := splitMbuf p m (align { mtype := m.mtype } (m.len - len)) len
    (p, [m], n :: after)

/-- The rest of `m_split` for a chain with a packet header, whose new one is in `n`. A lead mbuf without a cluster that had more bytes than fit behind a packet header would make it call itself for ever. -/
def splitHeader (p : Pool C) (before : List (Mb C)) (m n : Mb C) (after : List (Mb C)) (len gets : Nat) :
    Option (Pool C × List (Mb C) × List (Mb C)) :=
  if m.ext.isNone ∧ m.len - len > mhlen then
    if m.pkthdr.isSome then none
    else
      let (p, stay, tail) := splitPlain p m after len (gets - 1)
      if tail = [] then some (mFree p n, before ++ stay, []) else some (p, before ++ stay, align n 0 :: tail)
  else
    let (p, m, n) := splitMbuf p m (if m.ext.isSome then n else align n (m.len - len)) len
    some (p, before ++ [m], n :: after)

/-- `m_split`: the chain that stays and the one that is returned. -/
def mSplit (p : Pool C) (ms : List (Mb C)) (len0 gets : Nat) : Option (Pool C × List (Mb C) × List (Mb C)) :=
  match splitPoint ms len0 with
  | none => some (p, ms, [])
  | some (before, m, after, len) =>
    match ms.head?.bind Mb.pkthdr with
    | none =>
      let (p, stay, tail) := splitPlain p m after len gets
      some (p, before ++ stay, tail)
    | some h =>
      if gets = 0 then some (p, ms, [])
      else do
        let n : Mb C := { mtype := (ms.headD m).mtype, off := mlen - mhlen, pkthdr := some { h with len := h.len - len0 } }
        -- The lead mbuf may be the one that is split.
        let kept := (before ++ [m]).modifyHead fun x => { x with pkthdr := some { h with len := len0 } }
        let m ← kept.getLast?
        splitHeader p kept.dropLast m n after len gets

/-! ### Runs -/

/-- All chains, with the clusters. -/
structure State (C : Type) where
  pool : Pool C := {}
  chains : List (List (Mb C)) := []

inductive Op (C : Type) where
  /-- A new mbuf without a cluster. -/
  | new (m : Mb C)
  /-- The owner of a chain writes to its mbufs, and leaves their clusters as they are. -/
  | write (i : Nat) (ms : List (Mb C))
  | mclget (i k : Nat) (fresh : List C)
  | copym (i : Nat) (off len : Int) (gets : Nat)
  | split (i len gets : Nat)
  | pullup (maxProtohdr i : Nat) (len : Int) (get : Bool)
  | cat (i j : Nat)
  | mfree (i : Nat)

/-- The cluster that an mbuf refers to. -/
def Mb.ref (m : Mb C) : Option C := m.ext.map Ext.buf

/-- `MCLGET` for an mbuf of a chain that has no cluster. -/
def mclgetAt (p : Pool C) (fresh : List C) : Nat → List (Mb C) → Pool C × List (Mb C)
  | _, [] => (p, [])
  | 0, m :: ms =>
    if m.ext.isSome then (p, m :: ms)
    else
      let (p, m) := mclget p m fresh
      (p, m :: ms)
  | k + 1, m :: ms =>
    let (p, ms) := mclgetAt p fresh k ms
    (p, m :: ms)

/-- The call is made on chains that are there; clusters that are made are new, and two chains that are joined are not one. -/
def step (s : State C) : Op C → Option (State C)
  | .new m => some (if m.ext.isSome then s else { s with chains := s.chains ++ [[m]] })
  | .write i ms =>
    some (if (s.chains[i]?.map fun l => l.map Mb.ref) = some (ms.map Mb.ref) then { s with chains := s.chains.set i ms } else s)
  | .mclget i k fresh =>
    match s.chains[i]? with
    | none => some s
    | some ms =>
      if fresh.Nodup ∧ ∀ c ∈ fresh, c ∉ s.pool.mbutl then
        let (p, ms) := mclgetAt s.pool fresh k ms
        some { pool := p, chains := s.chains.set i ms }
      else some s
  | .copym i off len gets =>
    match s.chains[i]? with
    | none => some s
    | some ms => (mCopym s.pool ms off len gets).map fun (p, ns) => { pool := p, chains := s.chains ++ [ns] }
  | .split i len gets =>
    match s.chains[i]? with
    | none => some s
    | some ms => (mSplit s.pool ms len gets).map fun (p, ms, ns) => { pool := p, chains := s.chains.set i ms ++ [ns] }
  | .pullup maxProtohdr i len get =>
    match s.chains[i]? with
    | none => some s
    | some ms => (mPullup maxProtohdr s.pool ms len get).map fun (p, ms) => { pool := p, chains := s.chains.set i ms }
  | .cat i j =>
    match s.chains[i]?, s.chains[j]? with
    | some ms, some ns =>
      if i = j then some s
      else (mCat s.pool ms ns).map fun (p, ms) => { pool := p, chains := (s.chains.set j []).set i ms }
    | _, _ => some s
  | .mfree i =>
    match s.chains[i]? with
    | some (m :: ms) => some { pool := mFree s.pool m, chains := s.chains.set i ms }
    | _ => some s

/-! ### References -/

/-- The cluster of an mbuf, if it has one. -/
def Mb.refs (m : Mb C) : Multiset C := (m.ref.toList : Multiset C)

/-- The clusters that the mbufs of a chain refer to. -/
def refs (ms : List (Mb C)) : Multiset C := (ms.map Mb.refs).sum

/-- The clusters that live mbufs refer to, as often as they do. -/
def State.refs (s : State C) : Multiset C := (s.chains.map Cl.refs).sum

section Refs

omit [DecidableEq C]

variable (m : Mb C) (ms ns : List (Mb C))

@[simp] theorem refs_nil : refs ([] : List (Mb C)) = 0 := rfl

@[simp] theorem refs_cons : refs (m :: ms) = m.refs + refs ms := by rw [refs, List.map_cons, List.sum_cons, refs]

@[simp] theorem refs_append : refs (ms ++ ns) = refs ms + refs ns := by rw [refs, List.map_append, List.sum_append, refs, refs]

theorem refs_of_ext_none {m : Mb C} (h : m.ext = none) : m.refs = 0 := by simp [Mb.refs, Mb.ref, h]

theorem refs_of_ext {m : Mb C} {e : Ext C} (h : m.ext = some e) : m.refs = {e.buf} := by simp [Mb.refs, Mb.ref, h]

theorem refs_congr {m n : Mb C} (h : m.ext = n.ext) : m.refs = n.refs := by rw [Mb.refs, Mb.refs, Mb.ref, Mb.ref, h]

end Refs

/-- The counts are right, and the free list has the clusters without references, each once. -/
structure Good (p : Pool C) (us : Multiset C) : Prop where
  count : ∀ c, (p.mclrefcnt c).toInt = us.count c
  free : ∀ c, c ∈ p.mclfree ↔ c ∈ p.mbutl ∧ us.count c = 0
  used : ∀ c ∈ us, c ∈ p.mbutl
  nodup : p.mclfree.Nodup

section Good

variable {p : Pool C} {us : Multiset C} {c : C}

theorem toInt_add_one {x : BitVec 8} (h : x.toInt < 127) : (x + 1).toInt = x.toInt + 1 := by
  have hlow := x.le_toInt
  rw [BitVec.toInt_add]
  exact Int.bmod_eq_of_le (by simp at *; omega) (by simp at *; omega)

theorem toInt_sub_one {x : BitVec 8} (h : 0 < x.toInt) : (x - 1).toInt = x.toInt - 1 := by
  have hhigh := x.toInt_lt
  rw [BitVec.toInt_sub]
  exact Int.bmod_eq_of_le (by simp at *; omega) (by simp at *; omega)

theorem Good.congr {us' : Multiset C} (h : Good p us) (heq : us = us') : Good p us' := heq ▸ h

/-- A cluster is shared by one mbuf more, as long as its count does not overflow. -/
theorem Good.share (h : Good p us) (hc : c ∈ us) (hroom : us.count c < 127) : Good (p.share c) ({c} + us) := by
  refine ⟨?_, ?_, ?_, h.nodup⟩
  · intro d
    rw [Pool.share, Multiset.count_add, Multiset.count_singleton]
    dsimp only
    by_cases heq : d = c
    · subst heq
      rw [Function.update_self, toInt_add_one (by rw [h.count]; exact_mod_cast hroom), h.count, if_pos rfl]
      push_cast
      ring
    · rw [Function.update_of_ne heq, h.count, if_neg heq, zero_add]
  · intro d
    rw [Multiset.count_add, Multiset.count_singleton]
    by_cases heq : d = c
    · subst heq
      have hpos := Multiset.count_pos.mpr hc
      constructor
      · intro hfree
        have := ((h.free d).mp hfree).2
        omega
      · intro hzero
        simp at hzero
    · rw [if_neg heq, zero_add]
      exact h.free d
  · intro d hd
    rcases Multiset.mem_add.mp hd with hd | hd
    · rw [Multiset.mem_singleton.mp hd]
      exact h.used c hc
    · exact h.used d hd

/-- A reference is dropped, and the cluster is freed with the last one. -/
theorem Good.drop (h : Good p ({c} + us)) : Good (p.drop c) us := by
  have hcount : (p.mclrefcnt c).toInt = us.count c + 1 := by
    rw [h.count, Multiset.count_add, Multiset.count_singleton_self]
    push_cast
    ring
  have hless : (p.mclrefcnt c - 1).toInt = us.count c := by
    rw [toInt_sub_one (by omega), hcount]
    ring
  have hother : ∀ d, d ≠ c → (Multiset.count d ({c} + us)) = us.count d := by
    intro d hd
    rw [Multiset.count_add, Multiset.count_singleton, if_neg hd, zero_add]
  have hknown : c ∈ p.mbutl := h.used c (by simp)
  have hheld : c ∉ p.mclfree := by
    intro hfree
    have := ((h.free c).mp hfree).2
    simp at this
  have hnew : ∀ d, (Function.update p.mclrefcnt c (p.mclrefcnt c - 1) d).toInt = us.count d := by
    intro d
    by_cases heq : d = c
    · rw [heq, Function.update_self, hless]
    · rw [Function.update_of_ne heq, h.count, hother d heq]
  have hused : ∀ d ∈ us, d ∈ p.mbutl := fun d hd => h.used d (Multiset.mem_add.mpr (.inr hd))
  simp only [Pool.drop, Function.update_self]
  split
  · rename_i hzero
    have hnone : us.count c = 0 := by
      rw [hzero, show (0 : BitVec 8).toInt = 0 from rfl] at hless
      exact_mod_cast hless.symm
    refine ⟨hnew, ?_, hused, List.nodup_cons.mpr ⟨hheld, h.nodup⟩⟩
    intro d
    rw [List.mem_cons]
    by_cases heq : d = c
    · subst heq
      simp [hknown, hnone]
    · rw [h.free d, hother d heq]
      simp [heq]
  · rename_i hnonzero
    have hpos : us.count c ≠ 0 := by
      intro hzero
      apply hnonzero
      apply BitVec.eq_of_toInt_eq
      rw [hless, hzero]
      rfl
    refine ⟨hnew, ?_, hused, h.nodup⟩
    intro d
    by_cases heq : d = c
    · subst heq
      simp [hheld, hpos]
    · rw [h.free d, hother d heq]

theorem Good.mClalloc {fresh : List C} (h : Good p us) (hnodup : fresh.Nodup) (hnew : ∀ c ∈ fresh, c ∉ p.mbutl) : Good (p.mClalloc fresh) us := by
  have hunused : ∀ c ∈ fresh, us.count c = 0 := by
    intro c hc
    rw [Multiset.count_eq_zero]
    exact fun hmem => hnew c hc (h.used c hmem)
  refine ⟨h.count, ?_, ?_, ?_⟩
  · intro d
    simp only [Pool.mClalloc, List.mem_append, List.mem_reverse, h.free d]
    constructor
    · rintro (hd | hd)
      · exact ⟨.inl hd, hunused d hd⟩
      · exact ⟨.inr hd.1, hd.2⟩
    · rintro ⟨hd | hd, hzero⟩
      · exact .inl hd
      · exact .inr ⟨hd, hzero⟩
  · intro d hd
    exact List.mem_append_right _ (h.used d hd)
  · refine (List.nodup_reverse.mpr hnodup).append h.nodup ?_
    intro d hd hfree
    exact hnew d (List.mem_reverse.mp hd) ((h.free d).mp hfree).1

/-- The first cluster of the free list is taken. -/
theorem Good.take {rest : List C} (h : Good p us) (hfree : p.mclfree = c :: rest) : Good { p.share c with mclfree := rest } ({c} + us) := by
  obtain ⟨hknown, hzero⟩ := (h.free c).mp (by rw [hfree]; exact List.mem_cons_self)
  have hnodup := h.nodup
  rw [hfree, List.nodup_cons] at hnodup
  refine ⟨?_, ?_, ?_, hnodup.2⟩
  · intro d
    rw [Pool.share, Multiset.count_add, Multiset.count_singleton]
    dsimp only
    by_cases heq : d = c
    · subst heq
      rw [Function.update_self, toInt_add_one (by rw [h.count, hzero]; decide), h.count, if_pos rfl]
      push_cast
      ring
    · rw [Function.update_of_ne heq, h.count, if_neg heq, zero_add]
  · intro d
    rw [Multiset.count_add, Multiset.count_singleton]
    by_cases heq : d = c
    · subst heq
      constructor
      · intro hd
        exact absurd hd hnodup.1
      · intro hd
        simp at hd
    · rw [if_neg heq, zero_add]
      have hiff := h.free d
      rw [hfree, List.mem_cons, or_iff_right heq] at hiff
      exact hiff
  · intro d hd
    rcases Multiset.mem_add.mp hd with hd | hd
    · rw [Multiset.mem_singleton.mp hd]
      exact hknown
    · exact h.used d hd

theorem Good.mFree {m : Mb C} (h : Good p (m.refs + us)) : Good (mFree p m) us := by
  rw [Cl.mFree]
  split
  · rename_i hext
    rwa [refs_of_ext_none hext, zero_add] at h
  · rename_i e hext
    rw [refs_of_ext hext] at h
    exact h.drop

theorem Good.mFreem {ms : List (Mb C)} (h : Good p (refs ms + us)) : Good (mFreem p ms) us := by
  induction ms generalizing p with
  | nil =>
    rw [refs_nil, zero_add] at h
    exact h
  | cons m ms ih =>
    rw [refs_cons, add_assoc] at h
    exact ih h.mFree

theorem Good.mclget {m : Mb C} {fresh : List C} (h : Good p us) (hext : m.ext = none) (hnodup : fresh.Nodup)
    (hnew : ∀ c ∈ fresh, c ∉ p.mbutl) : Good (mclget p m fresh).1 ((mclget p m fresh).2.refs + us) := by
  have hp : Good (if p.mclfree = [] then p.mClalloc fresh else p) us := by
    split
    · exact h.mClalloc hnodup hnew
    · exact h
  rw [Cl.mclget, Pool.mclalloc]
  dsimp only
  cases hfree : (if p.mclfree = [] then p.mClalloc fresh else p).mclfree with
  | nil =>
    dsimp only
    rw [refs_of_ext_none hext, zero_add]
    exact hp
  | cons c rest =>
    dsimp only
    rw [refs_of_ext rfl]
    exact hp.take hfree

theorem Good.mclgetAt {fresh : List C} (hnodup : fresh.Nodup) (hnew : ∀ c ∈ fresh, c ∉ p.mbutl) (k : Nat) (ms : List (Mb C)) {us : Multiset C}
    (h : Good p (refs ms + us)) : Good (mclgetAt p fresh k ms).1 (refs (mclgetAt p fresh k ms).2 + us) := by
  induction ms generalizing k us with
  | nil =>
    cases k <;> exact h
  | cons m ms ih =>
    rw [refs_cons] at h
    cases k with
    | zero =>
      rw [Cl.mclgetAt]
      split
      · rw [refs_cons]
        exact h
      · rename_i hext
        have hext : m.ext = none := by simpa using hext
        rw [refs_of_ext_none hext, zero_add] at h
        rw [refs_cons, add_assoc]
        exact h.mclget hext hnodup hnew
    | succ k =>
      rw [Cl.mclgetAt, refs_cons]
      rw [add_comm m.refs, add_assoc] at h
      have hrest := ih k h
      rw [← add_assoc, add_comm _ m.refs] at hrest
      exact hrest

/-! ### The functions -/

omit [DecidableEq C] in
theorem copyStart_refs {ms ms' : List (Mb C)} {off off' : Int} (h : copyStart ms off = some (ms', off')) : refs ms' ≤ refs ms := by
  induction ms generalizing off with
  | nil =>
    rw [copyStart] at h
    split at h
    · cases h
    · cases h
      exact le_rfl
  | cons m ms ih =>
    rw [copyStart] at h
    split at h
    · split at h
      · cases h
        exact le_rfl
      · rw [refs_cons]
        exact (ih h).trans (Multiset.le_add_left _ _)
    · cases h
      exact le_rfl

/-- The copy of an mbuf refers to the cluster of the mbuf. -/
theorem Good.copyMbuf {m : Mb C} (h : Good p us) (hm : m.refs ≤ us) (hroom : ∀ c ∈ m.refs, us.count c < 127) (off0 off len : Int) (copyhdr : Bool) :
    Good (copyMbuf p m off0 off len copyhdr).1 (m.refs + us) ∧ (copyMbuf p m off0 off len copyhdr).2.refs = m.refs := by
  rw [Cl.copyMbuf]
  cases hext : m.ext with
  | none =>
    rw [refs_of_ext_none hext, zero_add]
    refine ⟨h, refs_of_ext_none ?_⟩
    cases copyhdr <;> rfl
  | some e =>
    rw [refs_of_ext hext] at hm hroom ⊢
    exact ⟨h.share (Multiset.singleton_le.mp hm) (hroom _ (Multiset.mem_singleton_self _)), refs_of_ext rfl⟩

section CopyLoop

variable (off0 : Int) (m : Mb C) (ms : List (Mb C)) (off len : Int) (copyhdr : Bool) (gets : Nat) (p : Pool C) (top : List (Mb C))

theorem copyLoop_zero :
    copyLoop off0 (m :: ms) off len copyhdr 0 p top = if len > 0 then some (mFreem p top, []) else some (p, top) := rfl

theorem copyLoop_succ :
    copyLoop off0 (m :: ms) off len copyhdr (gets + 1) p top =
      if len > 0 then
        copyLoop off0 ms 0 (if len ≠ mCopyall then len - (copyMbuf p m off0 off len copyhdr).2.len else len) false gets
          (copyMbuf p m off0 off len copyhdr).1 (top ++ [(copyMbuf p m off0 off len copyhdr).2])
      else some (p, top) := rfl

end CopyLoop

/-- How many bytes of an mbuf are in the range that begins at the offset. -/
def Mb.inRange (m : Mb C) (off len : Int) : Nat := ((m.data.drop off.toNat).take (min len (m.len - off)).toNat).length

/-- The mbufs of a chain with the bytes of the range. -/
def within : List (Mb C) → Int → Int → List (Mb C)
  | [], _, _ => []
  | m :: ms, off, len => if len > 0 then m :: within ms 0 (if len ≠ mCopyall then len - m.inRange off len else len) else []

/-- The mbufs that `m_copym` copies. -/
def copied (ms : List (Mb C)) (off0 len : Int) : List (Mb C) :=
  match copyStart ms off0 with
  | some (ms, off) => within ms off len
  | none => []

theorem copyMbuf_len (p : Pool C) (m : Mb C) (off0 off len : Int) (copyhdr : Bool) :
    (copyMbuf p m off0 off len copyhdr).2.len = m.inRange off len := by
  unfold copyMbuf
  cases m.ext <;> rfl

theorem Good.copyLoop {off0 : Int} {ms top ns : List (Mb C)} {off len : Int} {copyhdr : Bool} {gets : Nat} {p' : Pool C}
    (h : Good p (refs top + us)) (hms : refs ms ≤ us) (hroom : ∀ c, (refs top + us).count c + (refs (within ms off len)).count c ≤ 127)
    (hcopy : copyLoop off0 ms off len copyhdr gets p top = some (p', ns)) : Good p' (refs ns + us) := by
  induction ms generalizing off len copyhdr gets p top with
  | nil =>
    unfold Cl.copyLoop at hcopy
    split at hcopy
    · cases hcopy
    · cases hcopy
      exact h
  | cons m ms ih =>
    rw [refs_cons] at hms
    cases gets with
    | zero =>
      rw [copyLoop_zero] at hcopy
      split at hcopy
      · cases hcopy
        rw [refs_nil, zero_add]
        exact h.mFreem
      · cases hcopy
        exact h
    | succ gets =>
      rw [copyLoop_succ] at hcopy
      split at hcopy
      · rename_i hlen
        rw [within, if_pos hlen, refs_cons] at hroom
        have hm : m.refs ≤ refs top + us := (le_trans (Multiset.le_add_right _ _) hms).trans (Multiset.le_add_left _ _)
        have hfew : ∀ c ∈ m.refs, (refs top + us).count c < 127 := by
          intro c hc
          have hle := hroom c
          have hpos := Multiset.count_pos.mpr hc
          simp only [Multiset.count_add] at hle ⊢
          omega
        obtain ⟨hgood, hrefs⟩ := h.copyMbuf hm hfew off0 off len copyhdr
        have htop : refs (top ++ [(Cl.copyMbuf p m off0 off len copyhdr).2]) = m.refs + refs top := by
          rw [refs_append, refs_cons, refs_nil, add_zero, hrefs, add_comm]
        refine ih ?_ ((Multiset.le_add_left _ _).trans hms) ?_ hcopy
        · rw [htop, add_assoc]
          exact hgood
        · intro c
          have hle := hroom c
          rw [htop, copyMbuf_len]
          simp only [Multiset.count_add] at hle ⊢
          omega
      · cases hcopy
        exact h

theorem Good.mCopym {ms ns : List (Mb C)} {off0 len : Int} {gets : Nat} {p' : Pool C} (h : Good p us) (hms : refs ms ≤ us)
    (hroom : ∀ c, us.count c + (refs (copied ms off0 len)).count c ≤ 127) (hcopy : mCopym p ms off0 len gets = some (p', ns)) : Good p' (refs ns + us) := by
  rw [Cl.mCopym] at hcopy
  split at hcopy
  · cases hcopy
  · obtain ⟨⟨ms', off⟩, hstart, hcopy⟩ := Option.bind_eq_some_iff.mp hcopy
    have hle := copyStart_refs hstart
    refine Good.copyLoop (by rwa [refs_nil, zero_add]) (hle.trans hms) ?_ hcopy
    rw [copied, hstart] at hroom
    rwa [refs_nil, zero_add]

theorem Good.catLoop {m : Mb C} {ns : List (Mb C)} (h : Good p (m.refs + refs ns + us)) :
    Good (catLoop p m ns).1 (refs (catLoop p m ns).2 + us) := by
  induction ns generalizing p m with
  | nil => exact h
  | cons n ns ih =>
    rw [Cl.catLoop]
    split
    · exact h
    · apply ih
      rw [refs_cons] at h
      have hfree : Good (Cl.mFree p n) (m.refs + refs ns + us) := by
        apply Good.mFree
        exact h.congr (by abel)
      exact hfree

theorem Good.mCat {ms ns l : List (Mb C)} {p' : Pool C} (h : Good p (refs ms + refs ns + us)) (hcat : mCat p ms ns = some (p', l)) :
    Good p' (refs l + us) := by
  rw [Cl.mCat] at hcat
  obtain ⟨m, hm, hcat⟩ := Option.bind_eq_some_iff.mp hcat
  cases hcat
  have hsplit : refs ms = refs ms.dropLast + m.refs := by
    have hlist := List.dropLast_append_getLast? m hm
    rw [← hlist]
    simp
  rw [hsplit] at h
  have hloop := (h.congr (show _ = m.refs + refs ns + (refs ms.dropLast + us) by abel)).catLoop
  refine hloop.congr ?_
  rw [refs_append]
  abel

theorem Good.pullLoop {maxProtohdr : Nat} {m m' : Mb C} {ns ns' : List (Mb C)} {len len' : Int} {p' : Pool C}
    (h : Good p (m.refs + refs ns + us)) (hpull : pullLoop maxProtohdr p m ns len = some (p', m', ns', len')) :
    Good p' (m'.refs + refs ns' + us) := by
  induction ns generalizing p m len with
  | nil =>
    rw [Cl.pullLoop] at hpull
    cases hpull
    exact h
  | cons n ns ih =>
    rw [refs_cons] at h
    have hfree : Good (Cl.mFree p n) (m.refs + refs ns + us) := by
      apply Good.mFree
      exact h.congr (by abel)
    rw [Cl.pullLoop] at hpull
    split at hpull
    · split at hpull
      · cases hpull
      · cases hpull
        rw [refs_cons]
        exact h
    · split at hpull
      · refine ih ?_ hpull
        exact hfree
      · cases hpull
        exact hfree

theorem Good.pullInto {maxProtohdr : Nat} {m : Mb C} {ns l : List (Mb C)} {len : Int} {p' : Pool C}
    (h : Good p (m.refs + refs ns + us)) (hpull : pullInto maxProtohdr p m ns len = some (p', l)) : Good p' (refs l + us) := by
  rw [Cl.pullInto] at hpull
  obtain ⟨⟨p₁, m₁, ns₁, len₁⟩, hloop, hpull⟩ := Option.bind_eq_some_iff.mp hpull
  have hgood := h.pullLoop hloop
  dsimp only at hpull
  split at hpull
  · cases hpull
    rw [add_assoc] at hgood
    rw [refs_nil, zero_add]
    exact hgood.mFree.mFreem
  · cases hpull
    rw [refs_cons]
    exact hgood

theorem Good.mPullup {maxProtohdr : Nat} {ms l : List (Mb C)} {len : Int} {get : Bool} {p' : Pool C} (h : Good p (refs ms + us))
    (hpull : mPullup maxProtohdr p ms len get = some (p', l)) : Good p' (refs l + us) := by
  cases ms with
  | nil => cases hpull
  | cons n ns =>
    rw [Cl.mPullup] at hpull
    split at hpull
    · split at hpull
      · cases hpull
        exact h
      · rw [refs_cons] at h
        exact h.pullInto hpull
    · split at hpull
      · cases hpull
        rw [refs_nil, zero_add]
        exact h.mFreem
      · dsimp only at hpull
        have hfresh : Good p (0 + refs (n :: ns) + us) := h.congr (by rw [zero_add])
        split at hpull
        · refine Good.pullInto ?_ hpull
          exact hfresh
        · refine Good.pullInto ?_ hpull
          exact hfresh

omit [DecidableEq C] in
theorem splitPoint_eq {ms before after : List (Mb C)} {m : Mb C} {len len' : Nat} (h : splitPoint ms len = some (before, m, after, len')) :
    ms = before ++ m :: after := by
  induction ms generalizing len before with
  | nil => cases h
  | cons x ms ih =>
    rw [splitPoint] at h
    split at h
    · obtain ⟨⟨before', x', after', l⟩, hrest, heq⟩ := Option.map_eq_some_iff.mp h
      cases heq
      rw [ih hrest]
      rfl
    · cases h
      rfl

/-- Both parts of an mbuf refer to its cluster. -/
theorem Good.splitMbuf {m n : Mb C} {len : Nat} (h : Good p (m.refs + us)) (hn : n.ext = none)
    (hroom : ∀ c ∈ m.refs, (m.refs + us).count c < 127) :
    Good (splitMbuf p m n len).1 ((splitMbuf p m n len).2.1.refs + (splitMbuf p m n len).2.2.refs + us) := by
  rw [Cl.splitMbuf]
  cases hext : m.ext with
  | none =>
    dsimp only
    rw [refs_of_ext_none (show ({ n with data := m.data.drop len } : Mb C).ext = none from hn), refs_of_ext_none rfl]
    rw [refs_of_ext_none hext] at h
    exact h
  | some e =>
    dsimp only
    rw [refs_of_ext hext] at h hroom
    rw [refs_of_ext rfl, refs_of_ext rfl, add_assoc]
    refine h.share ?_ ?_
    · simp
    · exact hroom _ (Multiset.mem_singleton_self _)

theorem Good.splitPlain {m : Mb C} {after : List (Mb C)} {len gets : Nat} (h : Good p (m.refs + refs after + us))
    (hroom : ∀ c ∈ m.refs, (m.refs + refs after + us).count c < 127) :
    Good (splitPlain p m after len gets).1 (refs (splitPlain p m after len gets).2.1 + refs (splitPlain p m after len gets).2.2 + us) := by
  rw [Cl.splitPlain]
  split
  · simpa using h
  · split
    · simpa using h
    · have hsplit := @Good.splitMbuf C _ p (refs after + us) m (align { mtype := m.mtype } (m.len - len)) len
        (h.congr (by abel)) rfl (by rwa [← add_assoc])
      refine hsplit.congr ?_
      simp only [refs_cons, refs_nil, add_zero]
      abel

omit [DecidableEq C] in
theorem refs_modifyHead {f : Mb C → Mb C} (hf : ∀ m, (f m).ext = m.ext) (ms : List (Mb C)) : refs (ms.modifyHead f) = refs ms := by
  cases ms with
  | nil => rfl
  | cons m ms => rw [List.modifyHead_cons, refs_cons, refs_cons, refs_congr (hf m)]

omit [DecidableEq C] in
theorem getLast?_modifyHead {f : Mb C → Mb C} (hf : ∀ m, (f m).ext = m.ext) {before : List (Mb C)} {m x : Mb C}
    (h : ((before ++ [m]).modifyHead f).getLast? = some x) : x.ext = m.ext := by
  cases before with
  | nil =>
    cases h
    exact hf m
  | cons b before =>
    rw [List.cons_append, List.modifyHead_cons, List.getLast?_cons, List.getLast?_append] at h
    cases h
    rfl

/-- The part of `m_split` behind the packet header, with the mbufs up to the one that is split. -/
theorem Good.splitHeader {rest after stay tail : List (Mb C)} {m n : Mb C} {len gets : Nat} {p' : Pool C}
    (h : Good p (refs rest + m.refs + refs after + us)) (hn : n.ext = none)
    (hroom : ∀ c ∈ m.refs, (refs rest + m.refs + refs after + us).count c < 127)
    (hsplit : splitHeader p rest m n after len gets = some (p', stay, tail)) : Good p' (refs stay + refs tail + us) := by
  rw [Cl.splitHeader] at hsplit
  split at hsplit
  · split at hsplit
    · cases hsplit
    · have hplain := @Good.splitPlain C _ p (refs rest + us) m after len (gets - 1) (h.congr (by abel)) (by
        rwa [show m.refs + refs after + (refs rest + us) = refs rest + m.refs + refs after + us by abel])
      generalize Cl.splitPlain p m after len (gets - 1) = r at hsplit hplain
      obtain ⟨p₁, stay₁, tail₁⟩ := r
      dsimp only at hsplit hplain
      split at hsplit
      · rename_i hnil
        cases hsplit
        rw [Cl.mFree, hn]
        refine hplain.congr ?_
        rw [hnil, refs_append]
        abel
      · cases hsplit
        refine hplain.congr ?_
        rw [refs_append, refs_cons, refs_of_ext_none (show (align n 0).ext = none from hn), zero_add]
        abel
  · have hext : (if m.ext.isSome then n else align n (m.len - len)).ext = none := by
      split
      · exact hn
      · exact hn
    have hmbuf := @Good.splitMbuf C _ p (refs rest + refs after + us) m _ len (h.congr (by abel)) hext (by
      rwa [show m.refs + (refs rest + refs after + us) = refs rest + m.refs + refs after + us by abel])
    generalize Cl.splitMbuf p m (if m.ext.isSome then n else align n (m.len - len)) len = r at hsplit hmbuf
    obtain ⟨p₁, m₁, n₁⟩ := r
    cases hsplit
    refine hmbuf.congr ?_
    rw [refs_append, refs_cons, refs_cons, refs_nil]
    abel

theorem Good.mSplit {ms stay tail : List (Mb C)} {len gets : Nat} {p' : Pool C} (h : Good p (refs ms + us))
    (hroom : ∀ before m after len', splitPoint ms len = some (before, m, after, len') → ∀ c ∈ m.refs, (refs ms + us).count c < 127)
    (hsplit : mSplit p ms len gets = some (p', stay, tail)) : Good p' (refs stay + refs tail + us) := by
  rw [Cl.mSplit] at hsplit
  split at hsplit
  · cases hsplit
    simpa using h
  rename_i before m after len' hpoint
  have hroom := hroom before m after len' hpoint
  obtain rfl := splitPoint_eq hpoint
  split at hsplit
  · rw [refs_append, refs_cons] at h hroom
    have hplain := @Good.splitPlain C _ p (refs before + us) m after len' gets (h.congr (by abel)) (by
      rwa [show m.refs + refs after + (refs before + us) = refs before + (m.refs + refs after) + us by abel])
    generalize Cl.splitPlain p m after len' gets = r at hsplit hplain
    obtain ⟨p₁, stay₁, tail₁⟩ := r
    cases hsplit
    refine hplain.congr ?_
    rw [refs_append]
    abel
  · rename_i hdr _
    split at hsplit
    · cases hsplit
      simpa using h
    · have hlead : ∀ x : Mb C, ({ x with pkthdr := some { hdr with len := (len : Int) } } : Mb C).ext = x.ext := fun _ => rfl
      have hrefs := refs_modifyHead hlead (before ++ [m])
      obtain ⟨x, hx, hsplit⟩ := Option.bind_eq_some_iff.mp hsplit
      have hxm := refs_congr (getLast?_modifyHead hlead hx)
      have hlist := List.dropLast_append_getLast? x hx
      rw [← hlist, refs_append, refs_append, refs_cons, refs_cons, refs_nil, add_zero, add_zero, hxm] at hrefs
      have hall : refs (before ++ m :: after) + us =
          refs ((before ++ [m]).modifyHead fun x => { x with pkthdr := some { hdr with len := (len : Int) } }).dropLast + x.refs +
            refs after + us := by
        rw [hxm, hrefs, refs_append, refs_cons]
        abel
      rw [hall] at h hroom
      refine h.splitHeader rfl ?_ hsplit
      intro c hc
      rw [hxm] at hc
      exact hroom c hc

end Good

/-! ### All runs -/

/-- A call that shares clusters is made while their counts have room for it. -/
def Op.Clear (s : State C) : Op C → Prop
  | .copym i off len _ => ∀ ms, s.chains[i]? = some ms → ∀ c, s.refs.count c + (refs (copied ms off len)).count c ≤ 127
  | .split i len _ => ∀ ms, s.chains[i]? = some ms → ∀ before m after len', splitPoint ms len = some (before, m, after, len') →
    ∀ c ∈ m.refs, s.refs.count c < 127
  | _ => True

/-- What is to hold of the clusters. -/
structure Counted (s : State C) : Prop where
  count : ∀ c, (s.pool.mclrefcnt c).toInt = s.refs.count c
  free : ∀ c ∈ s.pool.mbutl, c ∈ s.pool.mclfree ↔ s.refs.count c = 0
  nodup : s.pool.mclfree.Nodup

def CountedAlong : State C → List (Op C) → Prop
  | s, [] => Counted s
  | s, op :: ops => Counted s ∧ ∀ s', step s op = some s' → CountedAlong s' ops

def ClearAlong : State C → List (Op C) → Prop
  | _, [] => True
  | s, op :: ops => op.Clear s ∧ ∀ s', step s op = some s' → ClearAlong s' ops

section Runs

variable {s s' : State C}

theorem Good.counted (h : Good s.pool s.refs) : Counted s := by
  refine ⟨h.count, ?_, h.nodup⟩
  intro c hc
  rw [h.free c]
  exact ⟨fun hfree => hfree.2, fun hzero => ⟨hc, hzero⟩⟩

omit [DecidableEq C] in
/-- One chain among the others. -/
theorem refs_chain {chains : List (List (Mb C))} {i : Nat} {ms : List (Mb C)} (h : chains[i]? = some ms) :
    ∃ us, (chains.map refs).sum = refs ms + us ∧ ∀ ns, ((chains.set i ns).map refs).sum = refs ns + us := by
  induction chains generalizing i with
  | nil => cases h
  | cons l chains ih =>
    cases i with
    | zero =>
      cases h
      exact ⟨(chains.map refs).sum, rfl, fun _ => rfl⟩
    | succ i =>
      obtain ⟨us, hsum, hset⟩ := ih h
      refine ⟨refs l + us, ?_, fun ns => ?_⟩
      · rw [List.map_cons, List.sum_cons, hsum]
        abel
      · rw [List.set_cons_succ, List.map_cons, List.sum_cons, hset]
        abel

omit [DecidableEq C] in
theorem refs_push (chains : List (List (Mb C))) (ns : List (Mb C)) :
    ((chains ++ [ns]).map refs).sum = refs ns + (chains.map refs).sum := by
  rw [List.map_append, List.sum_append, List.map_singleton, List.sum_singleton, add_comm]

omit [DecidableEq C] in
theorem refs_eq_of_map_ref {ms ns : List (Mb C)} (h : ms.map Mb.ref = ns.map Mb.ref) : refs ms = refs ns := by
  have hmap : ∀ l : List (Mb C), refs l = ((l.map Mb.ref).map fun r => (r.toList : Multiset C)).sum := by
    intro l
    rw [List.map_map]
    rfl
  rw [hmap, hmap, h]

/-- Every call keeps the counts. -/
theorem Good.step {op : Op C} (h : Good s.pool s.refs) (hclear : op.Clear s) (hstep : step s op = some s') : Good s'.pool s'.refs := by
  cases op with
  | new m =>
    cases hstep
    split
    · exact h
    · rename_i hext
      refine h.congr ?_
      rw [State.refs, State.refs, refs_push, refs_cons, refs_of_ext_none (by simpa using hext), refs_nil, zero_add, zero_add]
  | write i ms =>
    cases hstep
    split
    · rename_i hsame
      obtain ⟨l, hl, hmap⟩ := Option.map_eq_some_iff.mp hsame
      obtain ⟨us, hsum, hset⟩ := refs_chain hl
      refine h.congr ?_
      rw [State.refs, State.refs, hsum, hset, refs_eq_of_map_ref hmap]
    · exact h
  | mclget i k fresh =>
    rw [Cl.step] at hstep
    split at hstep
    · cases hstep
      exact h
    · rename_i ms hms
      split at hstep
      · rename_i hfresh
        obtain ⟨us, hsum, hset⟩ := refs_chain hms
        have hgood := Good.mclgetAt hfresh.1 hfresh.2 k ms (h.congr hsum)
        cases hstep
        exact hgood.congr (hset _).symm
      · cases hstep
        exact h
  | copym i off len gets =>
    rw [Cl.step] at hstep
    split at hstep
    · cases hstep
      exact h
    · rename_i ms hms
      obtain ⟨⟨p, ns⟩, hcopy, rfl⟩ := Option.map_eq_some_iff.mp hstep
      obtain ⟨us, hsum, -⟩ := refs_chain hms
      have hle : refs ms ≤ s.refs := by
        rw [State.refs, hsum]
        exact Multiset.le_add_right _ _
      exact (h.mCopym hle (hclear ms hms) hcopy).congr (refs_push _ _).symm
  | split i len gets =>
    rw [Cl.step] at hstep
    split at hstep
    · cases hstep
      exact h
    · rename_i ms hms
      obtain ⟨⟨p, stay, tail⟩, hsplit, rfl⟩ := Option.map_eq_some_iff.mp hstep
      obtain ⟨us, hsum, hset⟩ := refs_chain hms
      have hroom := hclear ms hms
      rw [State.refs, hsum] at h hroom
      refine (h.mSplit hroom hsplit).congr ?_
      rw [State.refs, refs_push, hset]
      abel
  | pullup maxProtohdr i len get =>
    rw [Cl.step] at hstep
    split at hstep
    · cases hstep
      exact h
    · rename_i ms hms
      obtain ⟨⟨p, ns⟩, hpull, rfl⟩ := Option.map_eq_some_iff.mp hstep
      obtain ⟨us, hsum, hset⟩ := refs_chain hms
      exact ((h.congr hsum).mPullup hpull).congr (hset _).symm
  | cat i j =>
    rw [Cl.step] at hstep
    split at hstep
    · rename_i ms ns hms hns
      split at hstep
      · cases hstep
        exact h
      · rename_i hne
        obtain ⟨⟨p, l⟩, hcat, rfl⟩ := Option.map_eq_some_iff.mp hstep
        obtain ⟨us, hsum, hset⟩ := refs_chain hns
        have hms' : (s.chains.set j [])[i]? = some ms := by
          rw [List.getElem?_set_ne fun heq => hne heq.symm]
          exact hms
        obtain ⟨us', hsum', hset'⟩ := refs_chain hms'
        have hus : us = refs ms + us' := by
          rw [← hsum', hset, refs_nil, zero_add]
        have hgood : Good s.pool (refs ms + refs ns + us') := by
          refine h.congr ?_
          rw [State.refs, hsum, hus]
          abel
        exact (hgood.mCat hcat).congr (hset' _).symm
    · cases hstep
      exact h
  | mfree i =>
    rw [Cl.step] at hstep
    split at hstep
    · rename_i m ms hms
      cases hstep
      obtain ⟨us, hsum, hset⟩ := refs_chain hms
      have hfree : Good (Cl.mFree s.pool m) (refs ms + us) := by
        apply Good.mFree
        rw [← add_assoc, ← refs_cons, ← hsum]
        exact h
      exact hfree.congr (hset _).symm
    · cases hstep
      exact h

theorem Good.countedAlong {ops : List (Op C)} (h : Good s.pool s.refs) (hclear : ClearAlong s ops) : CountedAlong s ops := by
  induction ops generalizing s with
  | nil => exact h.counted
  | cons op ops ih => exact ⟨h.counted, fun s' hstep => ih (h.step hclear.1 hstep) (hclear.2 s' hstep)⟩

/-- In every run in which no more than 127 mbufs come to share a cluster the counts are right. -/
theorem clusters_counted (ops : List (Op C)) (hclear : ClearAlong {} ops) : CountedAlong {} ops := by
  have hempty : Good ({} : State C).pool ({} : State C).refs := by
    refine ⟨fun c => ?_, fun c => ?_, fun c hc => ?_, List.nodup_nil⟩
    · rfl
    · simp
    · exact absurd hc (Multiset.notMem_zero c)
  exact hempty.countedAlong hclear

theorem CountedAlong.run {ops : List (Op C)} (h : CountedAlong s ops) (hrun : ops.foldlM step s = some s') : Counted s' := by
  induction ops generalizing s with
  | nil =>
    cases hrun
    exact h
  | cons op ops ih =>
    obtain ⟨s₁, hstep, hrest⟩ := Option.bind_eq_some_iff.mp hrun
    exact ih (h.2 s₁ hstep) hrest

end Runs

theorem clusters_counted_shared :
    CountedAlong ({} : State (Fin 2))
      [.new {}, .mclget 0 0 [0, 1], .write 0 [{ data := [7, 8], ext := some { buf := 1, size := 2048 } }], .copym 0 0 2 1, .mfree 0] := by
  apply clusters_counted
  refine ⟨trivial, fun s₁ h₁ => ⟨trivial, fun s₂ h₂ => ⟨trivial, fun s₃ h₃ => ⟨?_, fun _ _ => ⟨trivial, fun _ _ => trivial⟩⟩⟩⟩⟩
  cases h₁
  cases h₂
  cases h₃
  intro ms hms
  cases hms
  decide

/-- One byte in a cluster is copied until 128 mbufs share the cluster. -/
def doubling : List (Op (Fin 1)) :=
  [.new {}, .mclget 0 0 [0], .write 0 [{ data := [7], ext := some { buf := 0, size := 2048 } }],
    .copym 0 0 mCopyall 1, .cat 0 1, .copym 0 0 mCopyall 2, .cat 0 2, .copym 0 0 mCopyall 4, .cat 0 3, .copym 0 0 mCopyall 8, .cat 0 4,
    .copym 0 0 mCopyall 16, .cat 0 5, .copym 0 0 mCopyall 32, .cat 0 6, .copym 0 0 mCopyall 64]

theorem clusters_not_counted : ¬ ∀ ops : List (Op (Fin 1)), CountedAlong {} ops := by
  intro h
  have hbad : (doubling.foldlM step {}).any fun s => decide ((s.pool.mclrefcnt 0).toInt ≠ s.refs.count 0) := by decide +kernel
  obtain ⟨s, hrun, hne⟩ := (Option.any_eq_true _ _).mp hbad
  exact of_decide_eq_true hne (((h doubling).run hrun).count 0)

end Reading.Kern.Cl
