import Mathlib.Data.Nat.Bitwise
import Reading.Ip.Packet

/-!
# IP fragmentation

`ip_output` from the label `sendit` on, up to the packets it hands to the interface. `len` and `off` are the variables of the source. `ip_optcopy` is a parameter: it is called for headers with options only.
-/

namespace Reading.Ip

open Reading.Kern
open OnesSum

inductive Errno
  | emsgsize
  | enobufs
  /-- Not an error number: the panic of `m_copym`. -/
  | panic
  deriving DecidableEq

/-- What `ip_output` finds on its machine: the byte order, the parity of the address of each mbuf of each fragment, and whether there are mbufs for a fragment. -/
structure Sender where
  order : Order
  odd : Nat → Nat → Bool
  room : Nat → Bool
  ipOptcopy : Packet → List Byte

/-- `len` for the fragment at `off`. -/
def fragLen (ip : Header) (len off : Nat) : Nat := if off + len ≥ ip.ipLen.toNat then ip.ipLen.toNat - off else len

/-- `ip_off` for the fragment at `off`. -/
def fragOff (ip : Header) (len off : Nat) : U16 :=
  let ipOff := BitVec.ofNat 16 ((off - ip.hlen) / 8) + (ip.ipOff &&& ~~~ipMf)
  let ipOff := if ip.ipOff &&& ipMf ≠ 0 then ipOff ||| ipMf else ipOff
  if off + len ≥ ip.ipLen.toNat then ipOff else ipOff ||| ipMf

/-- The turn of the loop that makes the `k`-th fragment, at `off`. -/
def fragment (env : Sender) (p : Packet) (k len off : Nat) : Except Errno Packet :=
  if env.room k then
    let opts := if p.ip.hlen > 20 then env.ipOptcopy p else []
    let mhip := { p.ip with
      ipHl := if p.ip.hlen > 20 then BitVec.ofNat 4 ((20 + opts.length) / 4) else p.ip.ipHl
      ipOff := fragOff p.ip len off
      ipLen := BitVec.ofNat 16 (fragLen p.ip len off + (20 + opts.length)) }
    match mCopym p.chain off (fragLen p.ip len off) with
    | none => .error .panic
    | some chain => .ok (Packet.fillSum env.order (env.odd k) ⟨mhip, { chain := opts :: chain }⟩)
  else .error .enobufs

/-- The loop over the fragments after the first. -/
def fragLoop (env : Sender) (p : Packet) (k len off : Nat) : Except Errno (List Packet) :=
  if 0 < len ∧ off < p.ip.ipLen.toNat then do
    let m ← fragment env p k len off
    let rest ← fragLoop env p (k + 1) (fragLen p.ip len off) (off + fragLen p.ip len off)
    return m :: rest
  else .ok []
termination_by p.ip.ipLen.toNat - off
decreasing_by
  unfold fragLen
  split <;> omega

/-- The first fragment, trimmed of what has been copied out. -/
def firstFragment (p : Packet) (len : Nat) : Packet :=
  { ip := { p.ip with ipLen := BitVec.ofNat 16 (p.ip.hlen + len), ipOff := p.ip.ipOff ||| ipMf }
    m := mAdj p.m ((p.ip.hlen + len : Nat) - (p.ip.ipLen.toNat : Int)) }

/-- `sendit`: the packets in the order in which they are sent. -/
def sendit (env : Sender) (mtu : Nat) (p : Packet) : Except Errno (List Packet) :=
  if p.ip.ipLen.toNat ≤ mtu then .ok [p.fillSum env.order (env.odd 0)]
  else if p.ip.ipOff &&& ipDf ≠ 0 then .error .emsgsize
  else
    let len := (mtu - p.ip.hlen) / 8 * 8
    if len < 8 then .error .emsgsize
    else do
      let rest ← fragLoop env p 1 len (p.ip.hlen + len)
      return (firstFragment p len).fillSum env.order (env.odd 0) :: rest

/-! ### The field `ip_off` -/

section Flags

variable (x : U16)

theorem toNat_and_bit {m : U16} {k : Nat} (hm : m.toNat = 2 ^ k) : (x &&& m).toNat = x.toNat / 2 ^ k % 2 * 2 ^ k := by
  rw [BitVec.toNat_and, hm, Nat.and_two_pow, Nat.testBit_eq_decide_div_mod_eq]
  rcases Nat.mod_two_eq_zero_or_one (x.toNat / 2 ^ k) with h | h <;> simp [h]

theorem toNat_and_ipMf : (x &&& ipMf).toNat = x.toNat / 8192 % 2 * 8192 := @toNat_and_bit x ipMf 13 rfl

theorem toNat_and_add_and_not (m : U16) : x.toNat = (x &&& m).toNat + (x &&& ~~~m).toNat := by
  have hdisjoint : (x &&& m) &&& (x &&& ~~~m) = 0#16 := by
    ext i hi
    simp only [BitVec.getElem_and, BitVec.getElem_not, BitVec.getElem_zero]
    cases m[i] <;> simp
  have hor : (x &&& m) ||| (x &&& ~~~m) = x := by
    ext i hi
    simp only [BitVec.getElem_or, BitVec.getElem_and, BitVec.getElem_not]
    cases m[i] <;> simp
  rw [← BitVec.toNat_add_of_and_eq_zero hdisjoint, BitVec.add_eq_or_of_and_eq_zero _ _ hdisjoint, hor]

theorem toNat_or_ipMf : (x ||| ipMf).toNat = (x &&& ~~~ipMf).toNat + 8192 := by
  have hdisjoint : (x &&& ~~~ipMf) &&& ipMf = 0#16 := by
    ext i hi
    simp only [BitVec.getElem_and, BitVec.getElem_not, BitVec.getElem_zero]
    cases ipMf[i] <;> simp
  have hor : (x &&& ~~~ipMf) ||| ipMf = x ||| ipMf := by
    ext i hi
    simp only [BitVec.getElem_or, BitVec.getElem_and, BitVec.getElem_not]
    cases ipMf[i] <;> simp
  rw [← hor, ← BitVec.add_eq_or_of_and_eq_zero _ _ hdisjoint, BitVec.toNat_add_of_and_eq_zero hdisjoint]
  rfl

theorem and_ipMf_ne_zero_iff : x &&& ipMf ≠ 0 ↔ x.toNat / 8192 % 2 = 1 := by
  have hand := toNat_and_ipMf x
  rw [ne_eq, ← BitVec.toNat_inj, hand]
  show ¬ (x.toNat / 8192 % 2 * 8192 = 0) ↔ _
  omega

end Flags

/-- `IP_MF` is set. -/
def Header.mf (ip : Header) : Prop := ip.ipOff &&& ipMf ≠ 0

instance (ip : Header) : Decidable ip.mf := inferInstanceAs (Decidable (_ ≠ _))

/-- The offset of the data in the datagram, in bytes. -/
def Header.fragOffset (ip : Header) : Nat := ip.ipOff.toNat % 8192 * 8

/-- The fragment at `off` keeps the bits above `IP_MF`, and its offset does not run into `IP_MF`. -/
theorem fragOff_spec {ip : Header} {len off : Nat} (hroom : ip.ipOff.toNat % 8192 + (off - ip.hlen) / 8 < 8192) :
    (fragOff ip len off).toNat % 8192 = ip.ipOff.toNat % 8192 + (off - ip.hlen) / 8 ∧
      (fragOff ip len off).toNat / 16384 = ip.ipOff.toNat / 16384 ∧
      ((fragOff ip len off).toNat / 8192 % 2 = 1 ↔ off + len < ip.ipLen.toNat ∨ ip.mf) := by
  obtain ⟨k, hk⟩ : ∃ k, k = (off - ip.hlen) / 8 := ⟨_, rfl⟩
  rw [← hk] at hroom ⊢
  obtain ⟨y, hy⟩ : ∃ y, y = BitVec.ofNat 16 k + (ip.ipOff &&& ~~~ipMf) := ⟨_, rfl⟩
  have hlt := ip.ipOff.isLt
  have hclear := toNat_and_add_and_not ip.ipOff ipMf
  rw [toNat_and_ipMf] at hclear
  have hynat : y.toNat = k + (ip.ipOff &&& ~~~ipMf).toNat := by
    rw [hy, BitVec.toNat_add, BitVec.toNat_ofNat]
    omega
  have hset : (y ||| ipMf).toNat = y.toNat + 8192 := by
    have hyclear := toNat_and_add_and_not y ipMf
    rw [toNat_and_ipMf] at hyclear
    rw [toNat_or_ipMf]
    omega
  have htwice : (y ||| ipMf) ||| ipMf = y ||| ipMf := by rw [BitVec.or_assoc, BitVec.or_self]
  have hmf : ip.mf ↔ ip.ipOff.toNat / 8192 % 2 = 1 := and_ipMf_ne_zero_iff ip.ipOff
  have hvalue : fragOff ip len off = if off + len < ip.ipLen.toNat ∨ ip.mf then y ||| ipMf else y := by
    unfold fragOff Header.mf
    rw [← hk, ← hy]
    by_cases hin : ip.ipOff &&& ipMf ≠ 0
    · by_cases hlast : off + len ≥ ip.ipLen.toNat
      · simp only [if_pos hin, if_pos hlast, if_pos (Or.inr hin : _ ∨ _)]
      · simp only [if_pos hin, if_neg hlast, if_pos (Or.inr hin : _ ∨ _), htwice]
    · by_cases hlast : off + len ≥ ip.ipLen.toNat
      · have hno : ¬ (off + len < ip.ipLen.toNat ∨ ip.ipOff &&& ipMf ≠ 0) := by
          rw [not_or]
          exact ⟨by omega, hin⟩
        simp only [if_neg hin, if_pos hlast, if_neg hno]
      · have hyes : off + len < ip.ipLen.toNat ∨ ip.ipOff &&& ipMf ≠ 0 := .inl (by omega)
        simp only [if_neg hin, if_neg hlast, if_pos hyes]
  rw [hvalue]
  by_cases hmore : off + len < ip.ipLen.toNat ∨ ip.mf
  · rw [if_pos hmore, hset, hynat]
    exact ⟨by omega, by omega, iff_of_true (by omega) hmore⟩
  · rw [if_neg hmore, hynat]
    exact ⟨by omega, by omega, iff_of_false (by omega) hmore⟩

/-! ### Fragments -/

/-- An option-free datagram, or fragment of one, of less than 32768 bytes with `IP_DF` clear. Its length is that of its chain, and its data lies within the largest packet. -/
structure Packet.OptionFree (p : Packet) : Prop where
  v : p.ip.ipV = 4
  hl : p.ip.ipHl = 5
  df : p.ip.ipOff &&& ipDf = 0
  len : p.ip.ipLen.toNat = p.pktLen
  short : p.ip.ipLen.toNat < 32768
  within : p.ip.fragOffset + p.m.bytes.length ≤ 65535

/-- `f` is the fragment of `p` for an interface with the given MTU that begins `start` bytes into the data of `p`; `more` says that data follows it. -/
structure IsFragment (p : Packet) (mtu start : Nat) (more : Prop) (f : Packet) : Prop where
  header : f.ip = { p.ip with ipLen := f.ip.ipLen, ipOff := f.ip.ipOff, ipSum := f.ip.ipSum }
  flags : f.ip.ipOff.toNat / 16384 = p.ip.ipOff.toNat / 16384
  len : f.ip.ipLen.toNat = f.pktLen
  fits : f.pktLen ≤ mtu
  data : f.m.bytes = (p.m.bytes.drop start).take f.m.bytes.length
  nonempty : p.m.bytes ≠ [] → f.m.bytes ≠ []
  off : f.ip.fragOffset = p.ip.fragOffset + start
  aligned : 8 ∣ start
  mf : f.ip.mf ↔ more
  /-- The checksum is correct on every machine, and in every chain that holds the bytes. -/
  sum (o : Order) (odd : Nat → Bool) (r : Packet) : r.ip = f.ip → r.m.bytes = f.m.bytes →
    inCksum o (r.pieces odd) r.ip.hlen = 0

/-- The packets of the list are the fragments of the data of `p` from `start` on, in order. -/
def Fragments (p : Packet) (mtu : Nat) : Nat → List Packet → Prop
  | start, [] => start = p.m.bytes.length
  | start, f :: fs =>
    IsFragment p mtu start (fs ≠ [] ∨ p.ip.mf) f ∧ Fragments p mtu (start + f.m.bytes.length) fs

namespace Packet.OptionFree

variable {p : Packet} (hp : p.OptionFree)
include hp

theorem hlen : p.ip.hlen = 20 := by
  unfold Header.hlen
  rw [hp.hl]
  rfl

theorem len_eq : p.ip.ipLen.toNat = 20 + p.m.bytes.length := hp.len

/-- A copy of the header with a length and an offset of its own, in front of the data it counts. -/
theorem isFragment (o : Order) (odd : Nat → Bool) {mtu start : Nat} {more : Prop} {len off : U16} {m : Mbuf}
    (hlen : len.toNat = 20 + m.bytes.length) (hfits : 20 + m.bytes.length ≤ mtu)
    (hflags : off.toNat / 16384 = p.ip.ipOff.toNat / 16384)
    (hdata : m.bytes = (p.m.bytes.drop start).take m.bytes.length) (hnonempty : p.m.bytes ≠ [] → m.bytes ≠ [])
    (hoff : off.toNat % 8192 * 8 = p.ip.fragOffset + start) (haligned : 8 ∣ start)
    (hmf : off.toNat / 8192 % 2 = 1 ↔ more) :
    IsFragment p mtu start more (Packet.fillSum o odd ⟨{ p.ip with ipLen := len, ipOff := off }, m⟩) where
  header := rfl
  flags := hflags
  len := hlen
  fits := hfits
  data := hdata
  nonempty := hnonempty
  off := hoff
  aligned := haligned
  mf := (and_ipMf_ne_zero_iff off).trans hmf
  sum o' odd' r hip hm := by
    have hlong : 20 + m.bytes.length ≤ 65535 := by
      have hlt := len.isLt
      omega
    have hhlen : ({ p.ip with ipLen := len, ipOff := off } : Header).hlen = 20 := hp.hlen
    exact @Packet.fillSum_verifies o o' odd odd' ⟨{ p.ip with ipLen := len, ipOff := off }, m⟩ r hhlen hlong hip hm

theorem fragment {env : Sender} (hroom : ∀ k, env.room k = true) {mtu k len start : Nat} (hpos : 0 < len)
    (hfits : 20 + len ≤ mtu) (hstart : start < p.m.bytes.length) (haligned : 8 ∣ start) :
    ∃ f, fragment env p k len (20 + start) = .ok f ∧
      f.m.bytes.length = fragLen p.ip len (20 + start) ∧
      IsFragment p mtu start (start + len < p.m.bytes.length ∨ p.ip.mf) f := by
  obtain ⟨n, hn⟩ : ∃ n, n = fragLen p.ip len (20 + start) := ⟨_, rfl⟩
  have htotal := hp.len_eq
  have hnval : n = min len (p.m.bytes.length - start) := by
    rw [hn, fragLen]
    split <;> omega
  have hflat : p.chain.flatten.length = 20 + p.m.bytes.length := by
    rw [Packet.flatten_chain, List.length_append, Header.length_bytes]
  obtain ⟨chain, hcopy, hchain⟩ := @mCopym_spec p.chain (20 + start) n (by omega)
  have hbytes : chain.flatten = (p.m.bytes.drop start).take n := by
    rw [hchain, Packet.flatten_chain, List.drop_append, Header.length_bytes, List.drop_eq_nil_of_le
      (by rw [Header.length_bytes]; omega), List.nil_append, Nat.add_sub_cancel_left]
  have hlength : chain.flatten.length = n := by
    rw [hbytes, List.length_take, List.length_drop]
    omega
  have hhlen : ¬ p.ip.hlen > 20 := by
    rw [hp.hlen]
    omega
  have hshort := hp.short
  have hwithin := hp.within
  unfold Header.fragOffset at hwithin
  obtain ⟨hoff, hflags, hmf⟩ := @fragOff_spec p.ip len (20 + start) (by rw [hp.hlen]; omega)
  rw [hp.hlen, Nat.add_sub_cancel_left] at hoff
  refine ⟨Packet.fillSum env.order (env.odd k)
    ⟨{ p.ip with ipLen := BitVec.ofNat 16 (n + 20), ipOff := fragOff p.ip len (20 + start) },
      { chain := [] :: chain }⟩, ?_, ?_, ?_⟩
  · unfold Ip.fragment
    rw [if_pos (hroom k), ← hn, hcopy]
    simp only [if_neg hhlen]
    rfl
  · rw [← hn, ← hlength]
    rfl
  · have hdata : ({ chain := [] :: chain } : Mbuf).bytes = chain.flatten := rfl
    refine hp.isFragment env.order (env.odd k) ?_ ?_ hflags ?_ ?_ ?_ haligned (hmf.trans ?_)
    · rw [hdata, hlength, BitVec.toNat_ofNat]
      omega
    · rw [hdata, hlength]
      omega
    · rw [hdata, hlength, hbytes]
    · intro _
      rw [hdata]
      exact List.ne_nil_of_length_pos (by omega)
    · rw [hoff]
      unfold Header.fragOffset
      omega
    · refine or_congr ?_ Iff.rfl
      omega

theorem fragLoop {env : Sender} (hroom : ∀ k, env.room k = true) {mtu : Nat} (n : Nat) {k len start : Nat}
    (hn : p.m.bytes.length - start ≤ n) (hstart : start ≤ p.m.bytes.length)
    (hgo : start < p.m.bytes.length → 0 < len ∧ 8 ∣ len ∧ 20 + len ≤ mtu ∧ 8 ∣ start) :
    ∃ fs, fragLoop env p k len (20 + start) = .ok fs ∧ Fragments p mtu start fs ∧
      (fs ≠ [] ↔ start < p.m.bytes.length) := by
  induction n generalizing k len start with
  | zero =>
    refine ⟨[], ?_, by show start = _; omega, by simp; omega⟩
    have htotal := hp.len_eq
    rw [Ip.fragLoop, if_neg (by omega)]
  | succ n ih =>
    have htotal := hp.len_eq
    by_cases hdone : start = p.m.bytes.length
    · refine ⟨[], ?_, hdone, by simp; omega⟩
      rw [Ip.fragLoop, if_neg (by omega)]
    · obtain ⟨hpos, hmult, hfits, haligned⟩ := hgo (by omega)
      obtain ⟨f, hf, hlength, hfrag⟩ := hp.fragment hroom hpos hfits (k := k) (by omega) haligned
      have hnext : fragLen p.ip len (20 + start) = min len (p.m.bytes.length - start) := by
        rw [fragLen]
        split <;> omega
      obtain ⟨fs, hfs, hrest, hmore⟩ := @ih (k + 1) (fragLen p.ip len (20 + start))
        (start + fragLen p.ip len (20 + start)) (by omega) (by omega) (fun hlt => by
          have hfull : fragLen p.ip len (20 + start) = len := by omega
          rw [hfull]
          exact ⟨hpos, hmult, hfits, Nat.dvd_add haligned hmult⟩)
      refine ⟨f :: fs, ?_, ⟨?_, by rw [hlength]; exact hrest⟩, by simp; omega⟩
      · rw [Ip.fragLoop, if_pos (by omega), hf, Nat.add_assoc, hfs]
        rfl
      · have hsame : (fs ≠ [] ∨ p.ip.mf) = (start + len < p.m.bytes.length ∨ p.ip.mf) := by
          rw [hmore]
          refine propext (or_congr ?_ Iff.rfl)
          omega
        rw [hsame]
        exact hfrag

theorem firstFragment (o : Order) (odd : Nat → Bool) {mtu len : Nat} {fs : List Packet} (haligned : 8 ∣ len)
    (hpos : 0 < len) (hfits : 20 + len ≤ mtu) (hlen : len < p.m.bytes.length) (hrest : Fragments p mtu len fs) (hmore : fs ≠ []) :
    Fragments p mtu 0 ((Ip.firstFragment p len).fillSum o odd :: fs) := by
  have htotal := hp.len_eq
  have hhlen := hp.hlen
  obtain ⟨m, hm⟩ : ∃ m, m = mAdj p.m ((p.ip.hlen + len : Nat) - (p.ip.ipLen.toNat : Int)) := ⟨_, rfl⟩
  have hfirst : Ip.firstFragment p len =
      ⟨{ p.ip with ipLen := BitVec.ofNat 16 (p.ip.hlen + len), ipOff := p.ip.ipOff ||| ipMf }, m⟩ := by
    rw [hm]
    rfl
  have hmbytes : m.bytes = p.m.bytes.take len := by
    rw [hm, bytes_mAdj_tail p.m (by omega)]
    congr 1
    omega
  have hmlength : m.bytes.length = len := by
    rw [hmbytes, List.length_take]
    omega
  have hor := toNat_or_ipMf p.ip.ipOff
  have hclear := toNat_and_add_and_not p.ip.ipOff ipMf
  rw [toNat_and_ipMf] at hclear
  have hlt := p.ip.ipOff.isLt
  have hshort := hp.short
  rw [hfirst]
  constructor
  · refine hp.isFragment o odd ?_ ?_ ?_ ?_ ?_ ?_ (Nat.dvd_zero 8) ?_
    · rw [hmlength, BitVec.toNat_ofNat]
      omega
    · omega
    · omega
    · rw [List.drop_zero, hmlength, hmbytes]
    · exact fun _ => List.ne_nil_of_length_pos (by omega)
    · unfold Header.fragOffset
      omega
    · exact iff_of_true (by omega) (.inl hmore)
  · show Fragments p mtu (0 + m.bytes.length) fs
    rw [hmlength, Nat.zero_add]
    exact hrest

theorem sendit {env : Sender} (hroom : ∀ k, env.room k = true) {mtu : Nat} (hmtu : 28 ≤ mtu) :
    ∃ fs, sendit env mtu p = .ok fs ∧ Fragments p mtu 0 fs ∧ ((∃ f, fs = [f]) ∨ p.m.bytes ≠ []) := by
  have htotal := hp.len_eq
  unfold Ip.sendit
  by_cases hsmall : p.ip.ipLen.toNat ≤ mtu
  · have hmf : p.ip.ipOff.toNat / 8192 % 2 = 1 ↔ [] ≠ ([] : List Packet) ∨ p.ip.mf := by
      rw [← and_ipMf_ne_zero_iff]
      exact ⟨.inr, fun h => h.resolve_left fun hne => hne rfl⟩
    have hwhole : p.m.bytes = (p.m.bytes.drop 0).take p.m.bytes.length := by
      rw [List.drop_zero, List.take_length]
    refine ⟨[p.fillSum env.order (env.odd 0)], by rw [if_pos hsmall], ⟨?_, ?_⟩, .inl ⟨_, rfl⟩⟩
    · exact hp.isFragment env.order (env.odd 0) htotal (by omega) rfl hwhole id rfl (Nat.dvd_zero 8) hmf
    · show 0 + p.m.bytes.length = _
      omega
  · have hdf : ¬ p.ip.ipOff &&& ipDf ≠ 0 := not_not.2 hp.df
    obtain ⟨len, hlen⟩ : ∃ len, len = (mtu - p.ip.hlen) / 8 * 8 := ⟨_, rfl⟩
    have hhlen := hp.hlen
    obtain ⟨fs, hfs, hrest, hmore⟩ := @fragLoop p hp env hroom mtu (p.m.bytes.length - len) 1 len len le_rfl (by omega)
      fun _ => ⟨by omega, by omega, by omega, by omega⟩
    rw [← hhlen] at hfs
    refine ⟨(Ip.firstFragment p len).fillSum env.order (env.odd 0) :: fs, ?_, ?_, .inr (List.ne_nil_of_length_pos (by omega))⟩
    · rw [if_neg hsmall, if_neg hdf, ← hlen]
      show (if len < 8 then _ else _) = _
      rw [if_neg (by omega), hfs]
      rfl
    · exact hp.firstFragment env.order (env.odd 0) (by omega) (by omega) (by omega) (by omega) hrest (hmore.2 (by omega))

end Packet.OptionFree

end Reading.Ip
