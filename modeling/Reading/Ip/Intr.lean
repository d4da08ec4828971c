import Reading.Ip.Options
import Reading.Ip.Reass
import Reading.Kern.Pullup

/-!
# The mbufs of an arriving packet

`ipintr` on the mbufs of a packet, from the queue up to the point where a fragment is given to `ip_reass`. The header is in the first mbuf, in network order on the wire and in host order from then on; its fields are read from the bytes as numbers either way. A step has no result where the kernel does not come back, and otherwise an error is the clusters that are left when the packet is gone.

What `ip_dooptions` stores behind the first mbuf is not followed.
-/

namespace Reading.Ip

open Reading.Kern Reading.Lib
open Cl (Mb Pool bytes)
open OnesSum

/-! ### Reading a header -/

def wordAt (d : List Byte) (i : Nat) : Nat := (d.getD i 0).toNat * 256 + (d.getD (i + 1) 0).toNat

/-- The header in the first 20 bytes. -/
def Header.ofBytes (d : List Byte) : Header where
  ipV := BitVec.ofNat 4 ((d.getD 0 0).toNat / 16)
  ipHl := BitVec.ofNat 4 ((d.getD 0 0).toNat % 16)
  ipTos := d.getD 1 0
  ipLen := BitVec.ofNat 16 (wordAt d 2)
  ipId := BitVec.ofNat 16 (wordAt d 4)
  ipOff := BitVec.ofNat 16 (wordAt d 6)
  ipTtl := d.getD 8 0
  ipP := d.getD 9 0
  ipSum := BitVec.ofNat 16 (wordAt d 10)
  ipSrc := BitVec.ofNat 32 (wordAt d 12 * 65536 + wordAt d 14)
  ipDst := BitVec.ofNat 32 (wordAt d 16 * 65536 + wordAt d 18)

theorem toNat_ofNat_byte {x : Nat} (hx : x < 256) : (UInt8.ofNat x).toNat = x := by
  rw [UInt8.toNat_ofNat']
  exact Nat.mod_eq_of_lt hx

theorem word_bytes {x : Nat} (hx : x < 65536) : (UInt8.ofNat (x / 256)).toNat * 256 + (UInt8.ofNat (x % 256)).toNat = x := by
  rw [toNat_ofNat_byte (by omega), toNat_ofNat_byte (Nat.mod_lt _ (by decide))]
  omega

theorem Header.ofBytes_bytes (ip : Header) (rest : List Byte) : Header.ofBytes (ip.bytes ++ rest) = ip := by
  have hword : ∀ x : U16, BitVec.ofNat 16 ((UInt8.ofNat (x.toNat / 256)).toNat * 256 + (UInt8.ofNat (x.toNat % 256)).toNat) = x := by
    intro x
    rw [word_bytes x.isLt, BitVec.ofNat_toNat, BitVec.setWidth_eq]
  have hlong : ∀ x : U32, BitVec.ofNat 32 (((UInt8.ofNat (x.toNat / 65536 / 256)).toNat * 256 +
      (UInt8.ofNat (x.toNat / 65536 % 256)).toNat) * 65536 + ((UInt8.ofNat (x.toNat % 65536 / 256)).toNat * 256 +
      (UInt8.ofNat (x.toNat % 65536 % 256)).toNat)) = x := by
    intro x
    have := x.isLt
    rw [word_bytes (by omega), word_bytes (by omega), Nat.div_add_mod', BitVec.ofNat_toNat, BitVec.setWidth_eq]
  have hfirst : (UInt8.ofNat (ip.ipV.toNat * 16 + ip.ipHl.toNat)).toNat = ip.ipV.toNat * 16 + ip.ipHl.toNat := by
    have := ip.ipV.isLt
    have := ip.ipHl.isLt
    exact toNat_ofNat_byte (by omega)
  apply Header.ext
  · change BitVec.ofNat 4 ((UInt8.ofNat (ip.ipV.toNat * 16 + ip.ipHl.toNat)).toNat / 16) = ip.ipV
    have := ip.ipHl.isLt
    rw [hfirst, show (ip.ipV.toNat * 16 + ip.ipHl.toNat) / 16 = ip.ipV.toNat by omega, BitVec.ofNat_toNat, BitVec.setWidth_eq]
  · change BitVec.ofNat 4 ((UInt8.ofNat (ip.ipV.toNat * 16 + ip.ipHl.toNat)).toNat % 16) = ip.ipHl
    have := ip.ipHl.isLt
    rw [hfirst, show (ip.ipV.toNat * 16 + ip.ipHl.toNat) % 16 = ip.ipHl.toNat by omega, BitVec.ofNat_toNat, BitVec.setWidth_eq]
  · rfl
  · exact hword _
  · exact hword _
  · exact hword _
  · rfl
  · rfl
  · exact hword _
  · exact hlong _
  · exact hlong _

theorem Header.hlen_ofBytes (d : List Byte) : (Header.ofBytes d).hlen = (d.getD 0 0).toNat % 16 * 4 := by
  unfold Header.hlen Header.ofBytes
  dsimp only
  rw [BitVec.toNat_ofNat, Nat.mod_eq_of_lt (Nat.mod_lt _ (by decide))]

theorem Header.hlen_lt (ip : Header) : ip.hlen < 64 := by
  have := ip.ipHl.isLt
  unfold Header.hlen
  omega

/-- The packet is a fragment: `ip_off` has more than flags, or `IP_MF`. -/
def Header.isFragment (ip : Header) : Prop := ip.ipOff &&& ipMf ≠ 0 ∨ ip.ipOff <<< 3 ≠ 0

instance (ip : Header) : Decidable ip.isFragment := inferInstanceAs (Decidable (_ ∨ _))

/-! ### `ipintr` -/

/-- What `ipintr` finds in the kernel. -/
structure Kernel where
  order : Order
  maxProtohdr : Nat
  /-- The address is one of ours. -/
  ours : U32 → Bool
  lookups : Lookups

/-- A packet on `ipintrq`, with the parity of the addresses of its mbufs and whether there are mbufs for the calls of `m_pullup` and for a new queue. -/
structure Inbound (C : Type) where
  ms : List (Mb C)
  odd : Nat → Bool
  forIp : Bool := true
  forHeader : Bool := true
  forFragment : Bool := true
  forQueue : Bool := true

/-- The first mbuf has the packet header, with the number of bytes. -/
def Inbound.Sound {C : Type} (a : Inbound C) : Prop :=
  ∃ x rest h, a.ms = x :: rest ∧ x.pkthdr = some h ∧ h.len = (bytes a.ms).length

variable {C : Type} [DecidableEq C]

/-- A packet that is still there, with its first mbuf apart. -/
abbrev Staged (C : Type) := Except (Option (Pool C)) (Pool C × Mb C × List (Mb C))

def pullup (maxProtohdr : Nat) (p : Pool C) (m : Mb C) (ms : List (Mb C)) (len : Nat) (get : Bool) : Staged C :=
  match Cl.mPullup maxProtohdr p (m :: ms) len get with
  | none => .error none
  | some (p, []) => .error (some p)
  | some (p, m :: ms) => .ok (p, m, ms)

/-- `goto bad`. -/
def toBad (p : Pool C) (m : Mb C) (ms : List (Mb C)) : Staged C := .error (some (Cl.mFreem p (m :: ms)))

/-- `m->m_pkthdr.len`. -/
def pktLen (m : Mb C) : Int := (m.pkthdr.map Cl.Pkthdr.len).getD 0

/-- The fixed header in the first mbuf. -/
def getIp (k : Kernel) (a : Inbound C) (p : Pool C) (m : Mb C) (ms : List (Mb C)) : Staged C :=
  if m.len < 20 then pullup k.maxProtohdr p m ms 20 a.forIp else .ok (p, m, ms)

/-- The header with its options in the first mbuf. -/
def getHeader (k : Kernel) (a : Inbound C) (p : Pool C) (m : Mb C) (ms : List (Mb C)) : Staged C :=
  let ip := Header.ofBytes m.data
  if ip.ipV ≠ 4 then toBad p m ms
  else if ip.hlen < 20 then toBad p m ms
  else if ip.hlen > m.len then pullup k.maxProtohdr p m ms ip.hlen a.forHeader
  else .ok (p, m, ms)

/-- Trim the mbufs if they are longer than the packet. -/
def trimPacket (m : Mb C) (ms : List (Mb C)) (ipLen : Int) : Option (List (Mb C)) :=
  if pktLen m > ipLen then
    if m.len = pktLen m then
      some ({ m with data := m.data.take ipLen.toNat, pkthdr := m.pkthdr.map fun h => { h with len := ipLen } } :: ms)
    else Cl.mAdj (m :: ms) (ipLen - pktLen m)
  else some (m :: ms)

/-- `ip->ip_sum = 0`. -/
def zeroSum (m : Mb C) : Mb C := { m with data := (m.data.set 10 0).set 11 0 }

/-- The checksum, whose field is then 0, and the lengths. -/
def checkHeader (k : Kernel) (a : Inbound C) (hlen : Nat) (p : Pool C) (m : Mb C) (ms : List (Mb C)) : Staged C :=
  if inCksum k.order ((m :: ms).mapIdx fun i x => ⟨a.odd i, x.data⟩) hlen ≠ 0 then toBad p m ms
  else
    let m := zeroSum m
    let ipLen := (Header.ofBytes m.data).ipLen.toInt
    if ipLen < hlen then toBad p m ms
    else if pktLen m < ipLen then toBad p m ms
    else match trimPacket m ms ipLen with
      | none | some [] => .error none
      | some (m :: ms) => .ok (p, m, ms)

/-- `ip_dooptions`; a packet that is in error or forwarded is not ours any more. -/
def processOptions (k : Kernel) (hlen : Nat) (p : Pool C) (m : Mb C) (ms : List (Mb C)) : Staged C :=
  if hlen > 20 then
    match ipDooptions k.lookups (fun i => m.data.getD i 0) (hlen / 4) with
    | .inl _ => .error none
    | .inr t =>
      if t.bad.isSome ∨ t.forward then .error (some p) else .ok (p, { m with data := slice t.mem 0 m.len }, ms)
  else .ok (p, m, ms)

/-- From `ours` on: the fixed header of a fragment in an mbuf without a cluster. -/
def getFragment (k : Kernel) (a : Inbound C) (p : Pool C) (m : Mb C) (ms : List (Mb C)) : Staged C :=
  let ip := Header.ofBytes m.data
  if k.ours ip.ipDst then
    if ip.ipOff &&& ~~~ipDf ≠ 0 ∧ m.ext.isSome then pullup k.maxProtohdr p m ms 20 a.forFragment else .ok (p, m, ms)
  else .error (some p)

/-- The packet as it comes to the search for its queue, or to the protocol if it is whole, and `hlen`. -/
def received (k : Kernel) (p : Pool C) (a : Inbound C) : Except (Option (Pool C)) (Nat × Pool C × Mb C × List (Mb C)) :=
  match a.ms with
  | [] => .error (some p)
  | m :: ms => do
    let (p, m, ms) ← getIp k a p m ms
    let hlen := (Header.ofBytes m.data).hlen
    let (p, m, ms) ← getHeader k a p m ms
    let (p, m, ms) ← checkHeader k a hlen p m ms
    let (p, m, ms) ← processOptions k hlen p m ms
    let (p, m, ms) ← getFragment k a p m ms
    .ok (hlen, p, m, ms)

/-! ### The first mbuf -/

section Stages

variable {k : Kernel} {a : Inbound C} {p p' : Pool C} {x m m' : Mb C} {rest ms ms' : List (Mb C)} {hlen : Nat}

omit [DecidableEq C] in
theorem getD_bytes {i : Nat} (hi : i < m.len) : (bytes (m :: ms)).getD i 0 = m.data.getD i 0 := by
  rw [Cl.bytes_cons, List.getD_eq_getElem?_getD, List.getD_eq_getElem?_getD, List.getElem?_append_left hi]

omit [DecidableEq C] in
theorem hlen_bytes (hpos : 0 < m.len) : (Header.ofBytes (bytes (m :: ms))).hlen = (Header.ofBytes m.data).hlen := by
  rw [Header.hlen_ofBytes, Header.hlen_ofBytes, getD_bytes hpos]

theorem pullup_ok {maxProtohdr len : Nat} {get : Bool} (hlen : 0 < len) (h : pullup maxProtohdr p m ms len get = .ok (p', m', ms')) :
    bytes (m' :: ms') = bytes (m :: ms) ∧ len ≤ m'.len ∧ m'.ext = none ∧ m'.pkthdr = m.pkthdr := by
  obtain ⟨q, l, hrun, hl⟩ := @Cl.mPullup_spec C _ maxProtohdr p m ms len get (Int.natCast_pos.mpr hlen)
  rw [pullup, hrun] at h
  rcases hl with ⟨rfl, -⟩ | ⟨m₁, ms₁, rfl, hbytes, hle, hext, hhdr⟩
  · cases h
  · obtain ⟨-, hm⟩ := Prod.mk.inj (Except.ok.inj h)
    obtain ⟨rfl, rfl⟩ := Prod.mk.inj hm
    exact ⟨hbytes, Int.ofNat_le.mp hle, hext, hhdr⟩

/-- What holds of the first mbuf once the header is in it: it is a cluster if it was one that had the whole header. -/
structure Headed (x : Mb C) (hlen : Nat) (m : Mb C) : Prop where
  pos : 20 ≤ hlen
  len : hlen ≤ m.len
  cluster : m.ext.isSome ↔ x.ext.isSome ∧ hlen ≤ x.len
  hl : (Header.ofBytes m.data).hlen = hlen

theorem getIp_ok (h : getIp k a p x rest = .ok (p', m, ms)) :
    bytes (m :: ms) = bytes (x :: rest) ∧ 20 ≤ m.len ∧ m.pkthdr = x.pkthdr ∧ (m = x ∨ m.ext = none ∧ x.len < 20) := by
  unfold getIp at h
  split at h
  next hshort =>
    obtain ⟨hbytes, hle, hext, hhdr⟩ := pullup_ok (by decide) h
    exact ⟨hbytes, hle, hhdr, .inr ⟨hext, hshort⟩⟩
  next hlong =>
    obtain ⟨-, hm⟩ := Prod.mk.inj (Except.ok.inj h)
    obtain ⟨rfl, rfl⟩ := Prod.mk.inj hm
    exact ⟨rfl, Nat.not_lt.mp hlong, rfl, .inl rfl⟩

theorem getHeader_ok (hm : m = x ∨ m.ext = none ∧ x.len < 20) (hpos : 20 ≤ m.len)
    (h : getHeader k a p m ms = .ok (p', m', ms')) :
    bytes (m' :: ms') = bytes (m :: ms) ∧ m'.pkthdr = m.pkthdr ∧ Headed x (Header.ofBytes m.data).hlen m' := by
  unfold getHeader toBad at h
  dsimp only at h
  split at h
  · cases h
  split at h
  · cases h
  next hmin =>
  have hmin := Nat.not_lt.mp hmin
  split at h
  next hshort =>
    obtain ⟨hbytes, hle, hext, hhdr⟩ := pullup_ok (Nat.lt_of_lt_of_le (by decide) hmin) h
    refine ⟨hbytes, hhdr, hmin, hle, ?_, ?_⟩
    · rw [hext]
      refine iff_of_false (by simp) fun hx => ?_
      rcases hm with rfl | ⟨-, hless⟩ <;> omega
    · have hsame : (Header.ofBytes (bytes (m' :: ms'))).hlen = (Header.ofBytes m'.data).hlen := hlen_bytes (by omega)
      rw [← hsame, hbytes, hlen_bytes (by omega)]
  next hlong =>
    obtain ⟨-, hm'⟩ := Prod.mk.inj (Except.ok.inj h)
    obtain ⟨rfl, rfl⟩ := Prod.mk.inj hm'
    refine ⟨rfl, rfl, hmin, Nat.not_lt.mp hlong, ?_, rfl⟩
    rcases hm with rfl | ⟨hext, hless⟩
    · exact ⟨fun h => ⟨h, Nat.not_lt.mp hlong⟩, fun h => h.1⟩
    · rw [hext]
      exact iff_of_false (by simp) fun h => by omega

omit [DecidableEq C] in
theorem Headed.of_same {m₁ : Mb C} (hm : Headed x hlen m) (hext : m₁.ext = m.ext) (hlen' : hlen ≤ m₁.len)
    (hfirst : m₁.data.getD 0 0 = m.data.getD 0 0) : Headed x hlen m₁ where
  pos := hm.pos
  len := hlen'
  cluster := by rw [hext, hm.cluster]
  hl := by rw [Header.hlen_ofBytes, hfirst, ← Header.hlen_ofBytes, hm.hl]

theorem getD_take {d : List Byte} {n i : Nat} (hi : i < n) : (d.take n).getD i 0 = d.getD i 0 := by
  rw [List.getD_eq_getElem?_getD, List.getD_eq_getElem?_getD, List.getElem?_take_of_lt hi]

omit [DecidableEq C] in
/-- Trimming leaves the header, and the first mbuf as it was otherwise. -/
theorem trimPacket_ok {h : Cl.Pkthdr} {keep : Nat} (hhdr : m.pkthdr = some h) (hpkt : h.len = (bytes (m :: ms)).length)
    (hle : keep ≤ (bytes (m :: ms)).length) (hint : keep ≤ Cl.intMax) (hhead : hlen ≤ keep) (hm : Headed x hlen m)
    (htrim : trimPacket m ms keep = some (m' :: ms')) : Headed x hlen m' ∧ m'.pkthdr.isSome := by
  have hpos := hm.pos
  have hhas := hm.len
  have hpktLen : pktLen m = (bytes (m :: ms)).length := by rw [pktLen, hhdr, ← hpkt]; rfl
  have hcut : hlen ≤ (m.data.take keep).length := by
    rw [List.length_take]
    exact Nat.le_min.mpr ⟨hhead, hhas⟩
  unfold trimPacket at htrim
  rw [hpktLen, hhdr] at htrim
  split at htrim
  next hlong =>
    split at htrim
    · obtain ⟨rfl, rfl⟩ := List.cons.inj (Option.some.inj htrim)
      refine ⟨hm.of_same rfl ?_ ?_, rfl⟩
      · exact hcut
      · exact getD_take (by omega)
    next hmore =>
      have hms : ms ≠ [] := by
        rintro rfl
        rw [Cl.length_bytes_cons] at hmore
        simp at hmore
      obtain ⟨data, ms₁, hcons, hdata⟩ := Cl.mAdj_tail_first hms hhdr hpkt (by omega) hint htrim
      obtain ⟨rfl, rfl⟩ := List.cons.inj hcons
      refine ⟨hm.of_same rfl ?_ ?_, rfl⟩
      · change hlen ≤ data.length
        rcases hdata with rfl | ⟨rfl, -⟩
        · exact hhas
        · exact hcut
      · rcases hdata with rfl | ⟨rfl, -⟩
        · rfl
        · exact getD_take (by omega)
  · obtain ⟨rfl, rfl⟩ := List.cons.inj (Option.some.inj htrim)
    exact ⟨hm, by rw [hhdr]; rfl⟩

theorem checkHeader_ok {h : Cl.Pkthdr} (hhdr : m.pkthdr = some h) (hpkt : h.len = (bytes (m :: ms)).length)
    (hm : Headed x hlen m) (hok : checkHeader k a hlen p m ms = .ok (p', m', ms')) : Headed x hlen m' ∧ m'.pkthdr.isSome := by
  have hlen₁ : (zeroSum m).len = m.len := by
    rw [zeroSum, Cl.Mb.len, List.length_set, List.length_set]
    rfl
  have hhead₁ : Headed x hlen (zeroSum m) := by
    apply hm.of_same
    · rfl
    · rw [hlen₁]
      exact hm.len
    · rw [zeroSum, List.getD_eq_getElem?_getD, List.getD_eq_getElem?_getD, List.getElem?_set_ne (by decide),
        List.getElem?_set_ne (by decide)]
  have hhdr₁ : (zeroSum m).pkthdr = some h := hhdr
  have hpkt₁ : h.len = (bytes (zeroSum m :: ms)).length := by rw [hpkt, Cl.length_bytes_cons, Cl.length_bytes_cons, hlen₁]
  obtain ⟨m₁, hm₁⟩ : ∃ m₁, m₁ = zeroSum m := ⟨_, rfl⟩
  rw [← hm₁] at hhead₁ hhdr₁ hpkt₁
  unfold checkHeader toBad at hok
  dsimp only at hok
  rw [← hm₁] at hok
  split at hok
  · cases hok
  split at hok
  · cases hok
  next hmin =>
  split at hok
  · cases hok
  next hfull =>
  obtain ⟨keep, hkeep⟩ : ∃ n : Nat, (Header.ofBytes m₁.data).ipLen.toInt = n := Int.eq_ofNat_of_zero_le (by omega)
  have hint : keep ≤ Cl.intMax := by
    have := @BitVec.toInt_lt 16 (Header.ofBytes m₁.data).ipLen
    unfold Cl.intMax
    omega
  rw [hkeep] at hok hmin hfull
  have hpktLen : pktLen m₁ = (bytes (m₁ :: ms)).length := by rw [pktLen, hhdr₁, ← hpkt₁]; rfl
  split at hok
  · cases hok
  · cases hok
  next htrim =>
    obtain ⟨-, hmm⟩ := Prod.mk.inj (Except.ok.inj hok)
    obtain ⟨rfl, rfl⟩ := Prod.mk.inj hmm
    exact trimPacket_ok hhdr₁ hpkt₁ (by omega) hint (by omega) hhead₁ htrim

omit [DecidableEq C] in
theorem processOptions_ok (hm : Headed x hlen m) (hok : processOptions k hlen p m ms = .ok (p', m', ms')) :
    Headed x hlen m' ∧ m'.pkthdr = m.pkthdr := by
  unfold processOptions at hok
  split at hok
  · obtain ⟨t, hrun, hfront⟩ := ipDooptions_ends k.lookups (fun i => m.data.getD i 0) (hlen / 4)
    rw [hrun] at hok
    dsimp only at hok
    split at hok
    · cases hok
    · obtain ⟨-, hmm⟩ := Prod.mk.inj (Except.ok.inj hok)
      obtain ⟨rfl, rfl⟩ := Prod.mk.inj hmm
      have hpos := hm.pos
      have hhas := hm.len
      refine ⟨hm.of_same rfl (by change hlen ≤ (slice t.mem 0 m.len).length; rw [length_slice]; exact hhas) ?_, rfl⟩
      obtain ⟨n, hn⟩ : ∃ n, m.len = n + 1 := ⟨m.len - 1, by omega⟩
      rw [hn]
      exact hfront 0 (by decide)
  · obtain ⟨-, hmm⟩ := Prod.mk.inj (Except.ok.inj hok)
    obtain ⟨rfl, rfl⟩ := Prod.mk.inj hmm
    exact ⟨hm, rfl⟩

omit [DecidableEq C] in
/-- The header of a chain is read from its first mbuf, if that has it. -/
theorem ofBytes_first (hfull : 20 ≤ m.len) : Header.ofBytes (bytes (m :: ms)) = Header.ofBytes m.data := by
  have hbyte : ∀ i < 20, (bytes (m :: ms)).getD i 0 = m.data.getD i 0 := fun i hi => getD_bytes (by omega)
  unfold Header.ofBytes wordAt
  simp only [hbyte _ (by decide : 0 < 20), hbyte _ (by decide : 1 < 20), hbyte _ (by decide : 2 < 20), hbyte _ (by decide : 2 + 1 < 20),
    hbyte _ (by decide : 4 < 20), hbyte _ (by decide : 4 + 1 < 20), hbyte _ (by decide : 6 < 20), hbyte _ (by decide : 6 + 1 < 20),
    hbyte _ (by decide : 8 < 20), hbyte _ (by decide : 9 < 20), hbyte _ (by decide : 10 < 20), hbyte _ (by decide : 10 + 1 < 20),
    hbyte _ (by decide : 12 < 20), hbyte _ (by decide : 12 + 1 < 20), hbyte _ (by decide : 14 < 20), hbyte _ (by decide : 14 + 1 < 20),
    hbyte _ (by decide : 16 < 20), hbyte _ (by decide : 16 + 1 < 20), hbyte _ (by decide : 18 < 20), hbyte _ (by decide : 18 + 1 < 20)]

/-- A fragment in a cluster gets a new first mbuf, with no more of the header than `m_pullup` takes along. -/
structure Fetched (maxProtohdr hlen : Nat) (m m' : Mb C) : Prop where
  header : Header.ofBytes m'.data = Header.ofBytes m.data
  pkthdr : m'.pkthdr = m.pkthdr
  fixed : 20 ≤ m'.len
  moved : m.ext.isSome → (Header.ofBytes m.data).ipOff &&& ~~~ipDf ≠ 0 → (hlen ≤ m'.len ↔ hlen ≤ max 20 maxProtohdr)
  kept : ¬(m.ext.isSome ∧ (Header.ofBytes m.data).ipOff &&& ~~~ipDf ≠ 0) → m' = m

theorem getFragment_ok (hm : Headed x hlen m) (hhdr : m.pkthdr.isSome) (hok : getFragment k a p m ms = .ok (p', m', ms')) :
    bytes (m' :: ms') = bytes (m :: ms) ∧ Fetched k.maxProtohdr hlen m m' := by
  have hpos := hm.pos
  have hhas := hm.len
  have hmax : hlen < 64 := hm.hl ▸ Header.hlen_lt _
  unfold getFragment at hok
  dsimp only at hok
  split at hok
  · split at hok
    next hmove =>
      obtain ⟨hbytes, hle, hext, hsame⟩ := pullup_ok (by decide) hok
      obtain ⟨hdr, hhdr⟩ := Option.isSome_iff_exists.mp hhdr
      refine ⟨hbytes, ?_, hsame, hle, fun _ _ => ?_, fun h => absurd hmove.symm h⟩
      · have hfirst : Header.ofBytes (bytes (m' :: ms')) = Header.ofBytes m'.data := ofBytes_first hle
        rw [← hfirst, hbytes, ofBytes_first (by omega)]
      · have hrun : Cl.mPullup k.maxProtohdr p (m :: ms) (20 : Nat) a.forFragment = some (p', m' :: ms') := by
          unfold pullup at hok
          split at hok
          · cases hok
          · cases hok
          next hrun =>
            obtain ⟨rfl, hmm⟩ := Prod.mk.inj (Except.ok.inj hok)
            obtain ⟨rfl, rfl⟩ := Prod.mk.inj hmm
            exact hrun
        have hfirst := Cl.mPullup_cluster hmove.2 hhdr (by decide) (by omega) hrun
        have hmhlen : (Cl.mhlen : Int) = 100 := rfl
        omega
    next hstay =>
      obtain ⟨-, hmm⟩ := Prod.mk.inj (Except.ok.inj hok)
      obtain ⟨rfl, rfl⟩ := Prod.mk.inj hmm
      exact ⟨rfl, rfl, rfl, by omega, fun hext hoff => absurd ⟨hoff, hext⟩ hstay, fun _ => rfl⟩
  · cases hok

theorem of_stage {ε α β : Type} {x : Except ε α} {f : α → Except ε β} {b : β} (h : (x >>= f) = .ok b) : ∃ y, x = .ok y ∧ f y = .ok b := by
  cases x with
  | error e => cases h
  | ok y => exact ⟨y, rfl, h⟩

end Stages

/-- The length of the header that a packet comes with. -/
def Inbound.hlen (a : Inbound C) : Nat := (Header.ofBytes (bytes a.ms)).hlen

/-- If the packet comes in a cluster with the whole header, `m_pullup` takes all of that along. -/
def Inbound.Shallow (a : Inbound C) (maxProtohdr : Nat) : Prop :=
  ∀ x ∈ a.ms.head?, x.ext.isSome → a.hlen ≤ x.len → a.hlen ≤ max 20 maxProtohdr

/-- What holds of a packet that has come through all stages. -/
theorem received_spec {k : Kernel} {p p' : Pool C} {a : Inbound C} {hlen : Nat} {m : Mb C} {ms : List (Mb C)} (ha : a.Sound)
    (hok : received k p a = .ok (hlen, p', m, ms)) :
    hlen = a.hlen ∧ 20 ≤ hlen ∧ (Header.ofBytes m.data).hlen = hlen ∧ 20 ≤ m.len ∧ m.pkthdr.isSome ∧
      ((Header.ofBytes m.data).ipOff &&& ~~~ipDf ≠ 0 → (hlen ≤ m.len ↔ a.Shallow k.maxProtohdr)) ∧
      ((Header.ofBytes m.data).ipOff &&& ~~~ipDf = 0 → hlen ≤ m.len) := by
  obtain ⟨x, rest, h, hms, hhdr, hpkt⟩ := ha
  rw [received, hms] at hok
  obtain ⟨⟨p₁, m₁, ms₁⟩, hip, hok⟩ := of_stage hok
  obtain ⟨hbytes₁, hlen₁, hhdr₁, hsame⟩ := getIp_ok hip
  obtain ⟨⟨p₂, m₂, ms₂⟩, hheader, hok⟩ := of_stage hok
  obtain ⟨hbytes₂, hhdr₂, hhead₂⟩ := getHeader_ok hsame hlen₁ hheader
  obtain ⟨⟨p₃, m₃, ms₃⟩, hcheck, hok⟩ := of_stage hok
  have hhdr₂' : m₂.pkthdr = some h := by rw [hhdr₂, hhdr₁, hhdr]
  obtain ⟨hhead₃, hhdr₃⟩ := checkHeader_ok hhdr₂' (by rw [hpkt, hms, hbytes₂, hbytes₁]) hhead₂ hcheck
  obtain ⟨⟨p₄, m₄, ms₄⟩, hoptions, hok⟩ := of_stage hok
  obtain ⟨hhead₄, hhdr₄⟩ := processOptions_ok hhead₃ hoptions
  obtain ⟨⟨p₅, m₅, ms₅⟩, hfragment, hok⟩ := of_stage hok
  obtain ⟨-, hfetched⟩ := getFragment_ok hhead₄ (hhdr₄ ▸ hhdr₃) hfragment
  dsimp only at hok
  obtain ⟨hhlen, hrest⟩ := Prod.mk.inj (Except.ok.inj hok)
  obtain ⟨-, hmm⟩ := Prod.mk.inj hrest
  obtain ⟨rfl, rfl⟩ := Prod.mk.inj hmm
  subst hhlen
  have hl : (Header.ofBytes m₁.data).hlen = a.hlen := by rw [Inbound.hlen, hms, ← hbytes₁, hlen_bytes (by omega)]
  have hshallow : a.Shallow k.maxProtohdr ↔
      (m₄.ext.isSome → (Header.ofBytes m₁.data).hlen ≤ max 20 k.maxProtohdr) := by
    rw [hhead₄.cluster, hl, Inbound.Shallow, hms]
    exact ⟨fun h hx => h x rfl hx.1 hx.2, fun h y hy hext hle => by
      obtain rfl := Option.some.inj hy
      exact h ⟨hext, hle⟩⟩
  refine ⟨hl, hhead₄.pos, by rw [hfetched.header, hhead₄.hl], hfetched.fixed, ?_, ?_, ?_⟩
  · rw [hfetched.pkthdr, hhdr₄]
    exact hhdr₃
  · intro hoff
    rw [hfetched.header] at hoff
    rw [hshallow]
    by_cases hext : m₄.ext.isSome
    · rw [hfetched.moved hext hoff]
      exact ⟨fun h _ => h, fun h => h hext⟩
    · rw [hfetched.kept fun h => hext h.1]
      exact iff_of_true hhead₄.len fun h => absurd h hext
  · intro hoff
    rw [hfetched.header] at hoff
    rw [hfetched.kept fun h => h.2 hoff]
    exact hhead₄.len

/-- `m->m_data += hlen; m->m_len -= hlen`, for a length that does not become negative. -/
def stripHeader (hlen : Nat) (m : Mb C) : Mb C := { m with data := m.data.drop hlen, off := m.off + hlen }

theorem and_not_ipDf_of_isFragment {ip : Header} (hfrag : ip.isFragment) : ip.ipOff &&& ~~~ipDf ≠ 0 := by
  intro hzero
  have hsplit := toNat_and_add_and_not ip.ipOff ipDf
  have hbit := @toNat_and_bit ip.ipOff ipDf 14 rfl
  rw [hzero] at hsplit
  have hvalues : ip.ipOff = 0 ∨ ip.ipOff = ipDf := by
    rw [← BitVec.toNat_inj, ← BitVec.toNat_inj]
    change _ = 0 ∨ _ = 16384
    change ip.ipOff.toNat = _ + 0 at hsplit
    omega
  unfold Header.isFragment at hfrag
  rcases hvalues with h | h <;> rw [h] at hfrag <;> exact absurd hfrag (by decide)

/-- Of a fragment that is given to `ip_reass` the header is removed, and nothing else, exactly if it did not come in a cluster with more of a header than `m_pullup` takes along. -/
theorem strips_header_iff {k : Kernel} {p p' : Pool C} {a : Inbound C} {hlen : Nat} {m : Mb C} {ms : List (Mb C)} (ha : a.Sound)
    (hok : received k p a = .ok (hlen, p', m, ms)) (hfrag : (Header.ofBytes m.data).isFragment) :
    0 ≤ (m.len : Int) - hlen ∧ bytes (stripHeader hlen m :: ms) = (bytes (m :: ms)).drop hlen ↔ a.Shallow k.maxProtohdr := by
  obtain ⟨-, -, -, -, -, hiff, -⟩ := received_spec ha hok
  rw [← hiff (and_not_ipDf_of_isFragment hfrag)]
  constructor
  · intro h
    omega
  · intro hle
    refine ⟨by omega, ?_⟩
    rw [Cl.bytes_cons, Cl.bytes_cons, List.drop_append_of_le_length hle]
    rfl

/-- A packet for this host in a cluster, with its headers of the given length in words and as much data. -/
def clusterPacket (first : Byte) (sum : List Byte) (options : Nat) : Inbound Nat where
  ms := [{
    data := [first, 0, 0, 28 + UInt8.ofNat options, 0, 1, 0x20, 0, 64, 17] ++ sum ++ [10, 0, 0, 1, 10, 0, 0, 2] ++
      List.replicate options 1 ++ List.replicate 8 0
    pkthdr := some { rcvif := 1, len := 28 + options }
    ext := some { buf := 0, size := Cl.mclbytes } }]
  odd := fun _ => false

/-- `max_protohdr` is that of TCP. -/
def kernel : Kernel where
  order := .big
  maxProtohdr := 40
  ours := fun _ => true
  lookups := everywhere

theorem exists_of_any {ε α : Type} {x : Except ε α} {q : α → Bool} (h : x.toOption.any q) : ∃ y, x = .ok y ∧ q y := by
  cases x with
  | error e => cases h
  | ok y => exact ⟨y, rfl, h⟩

theorem strips_header_iff_plain :
    ∃ p m ms, received kernel {} (clusterPacket 0x45 [0x46, 0xce] 0) = .ok (20, p, m, ms) ∧
      (0 ≤ (m.len : Int) - (20 : Nat) ∧ bytes (stripHeader 20 m :: ms) = (bytes (m :: ms)).drop 20 ↔
        (clusterPacket 0x45 [0x46, 0xce] 0).Shallow kernel.maxProtohdr) := by
  obtain ⟨⟨hlen, p, m, ms⟩, hrun, hcheck⟩ := @exists_of_any _ _ (received kernel {} (clusterPacket 0x45 [0x46, 0xce] 0))
    (fun r => r.1 = 20 ∧ (Header.ofBytes r.2.2.1.data).isFragment) (by decide +kernel)
  obtain ⟨rfl, hfrag⟩ := of_decide_eq_true hcheck
  exact ⟨p, m, ms, hrun, strips_header_iff ⟨_, _, _, rfl, rfl, rfl⟩ hrun hfrag⟩

/-- Of 40 bytes of options 20 stay in the cluster: what is left of the first mbuf has a length of −20. -/
theorem options_left_behind :
    (clusterPacket 0x4f [0x28, 0x92] 40).Sound ∧
      ∃ p m ms, received kernel {} (clusterPacket 0x4f [0x28, 0x92] 40) = .ok (60, p, m, ms) ∧
        (Header.ofBytes m.data).isFragment ∧ (m.len : Int) - 60 = -20 := by
  obtain ⟨⟨hlen, p, m, ms⟩, hrun, hcheck⟩ := @exists_of_any _ _ (received kernel {} (clusterPacket 0x4f [0x28, 0x92] 40))
    (fun r => r.1 = 60 ∧ (Header.ofBytes r.2.2.1.data).isFragment ∧ (r.2.2.1.len : Int) - 60 = -20) (by decide +kernel)
  obtain ⟨rfl, hfrag, hshort⟩ := of_decide_eq_true hcheck
  exact ⟨⟨_, _, _, rfl, rfl, rfl⟩, p, m, ms, hrun, hfrag, hshort⟩

end Reading.Ip
