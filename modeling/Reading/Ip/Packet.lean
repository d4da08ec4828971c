import Mathlib.Data.BitVec
import Reading.Ip.Cksum

/-!
# IP packets

`struct ip`, and a packet whose header is in its first mbuf. The numbers of a header are in host order; `Header.bytes` are its bytes on the wire. `ip_sum` is the exception: it is written in the order of the machine that computed it, so its two bytes are kept as they are on the wire.
-/

namespace Reading.Ip

open Reading.Kern
open OnesSum

abbrev U16 := BitVec 16
abbrev U32 := BitVec 32

@[ext]
structure Header where
  ipV : BitVec 4 := 4
  ipHl : BitVec 4 := 5
  ipTos : Byte := 0
  ipLen : U16
  ipId : U16 := 0
  ipOff : U16 := 0
  ipTtl : Byte := 0
  ipP : Byte := 0
  ipSum : U16 := 0
  ipSrc : U32 := 0
  ipDst : U32 := 0
  deriving DecidableEq

def ipDf : U16 := 0x4000
def ipMf : U16 := 0x2000

namespace Header

/-- `ip_hl << 2`. -/
def hlen (ip : Header) : Nat := ip.ipHl.toNat * 4

/-- The bytes before and after `ip_sum`. -/
def front (ip : Header) : List Byte :=
  [UInt8.ofNat (ip.ipV.toNat * 16 + ip.ipHl.toNat), ip.ipTos] ++ storeWord .big ip.ipLen.toNat ++
    storeWord .big ip.ipId.toNat ++ storeWord .big ip.ipOff.toNat ++ [ip.ipTtl, ip.ipP]

def addresses (ip : Header) : List Byte :=
  storeWord .big (ip.ipSrc.toNat / 65536) ++ storeWord .big (ip.ipSrc.toNat % 65536) ++
    (storeWord .big (ip.ipDst.toNat / 65536) ++ storeWord .big (ip.ipDst.toNat % 65536))

/-- The header on the wire. -/
def bytes (ip : Header) : List Byte := ip.front ++ storeWord .big ip.ipSum.toNat ++ ip.addresses

/-- `ip->ip_sum = x` on a machine of the given byte order. -/
def setSum (o : Order) (ip : Header) (x : Nat) : Header :=
  { ip with ipSum := BitVec.ofNat 16 (match o with | .big => x | .little => x % 256 * 256 + x / 256) }

theorem length_front (ip : Header) : ip.front.length = 10 := by
  simp [front, length_storeWord]

theorem length_addresses (ip : Header) : ip.addresses.length = 8 := by
  simp [addresses, length_storeWord]

theorem length_bytes (ip : Header) : ip.bytes.length = 20 := by
  simp [bytes, length_front, length_addresses, length_storeWord]

theorem bytes_setSum (o : Order) (ip : Header) {x : Nat} (hx : x ≤ 65535) :
    (ip.setSum o x).bytes = ip.front ++ storeWord o x ++ ip.addresses := by
  cases o with
  | big =>
    have hsum : (ip.setSum .big x).ipSum.toNat = x := by
      show (BitVec.ofNat 16 x).toNat = x
      rw [BitVec.toNat_ofNat]
      omega
    show ip.front ++ storeWord .big (ip.setSum .big x).ipSum.toNat ++ ip.addresses = _
    rw [hsum]
  | little =>
    have hsum : (ip.setSum .little x).ipSum.toNat = x % 256 * 256 + x / 256 := by
      show (BitVec.ofNat 16 (x % 256 * 256 + x / 256)).toNat = _
      rw [BitVec.toNat_ofNat]
      omega
    show ip.front ++ storeWord .big (ip.setSum .little x).ipSum.toNat ++ ip.addresses = _
    rw [hsum]
    have hhigh : (x % 256 * 256 + x / 256) / 256 = x % 256 := by omega
    have hlow : (x % 256 * 256 + x / 256) % 256 = x / 256 := by omega
    simp only [storeWord, hhigh, hlow]

end Header

/-- A packet; `m` is what follows the header, beginning with the rest of the first mbuf. -/
structure Packet where
  ip : Header
  m : Mbuf
  deriving DecidableEq

namespace Packet

/-- The whole chain. -/
def chain (p : Packet) : List (List Byte) := (p.ip.bytes ++ p.m.chain.headD []) :: p.m.chain.tail

/-- `m_pkthdr.len`. -/
def pktLen (p : Packet) : Nat := 20 + p.m.bytes.length

/-- The chain for `in_cksum`, with the parity of the address of each mbuf's data. -/
def pieces (odd : Nat → Bool) (p : Packet) : List Piece := p.chain.mapIdx fun i data => ⟨odd i, data⟩

theorem flatten_chain (p : Packet) : p.chain.flatten = p.ip.bytes ++ p.m.bytes := by
  unfold chain Mbuf.bytes
  cases p.m.chain with
  | nil => simp
  | cons m ms => simp

theorem pieceBytes_pieces (odd : Nat → Bool) (p : Packet) : pieceBytes (p.pieces odd) = p.ip.bytes ++ p.m.bytes := by
  have hdata : (p.pieces odd).map Piece.data = p.chain := by
    refine List.ext_getElem? fun i => ?_
    rw [List.getElem?_map, pieces, List.getElem?_mapIdx, Option.map_map]
    exact Option.map_id_apply
  rw [← flatten_chain, ← hdata, pieceBytes, List.flatMap_def]

/-- `ip->ip_sum = 0; ip->ip_sum = in_cksum(m, hlen)`. -/
def fillSum (o : Order) (odd : Nat → Bool) (p : Packet) : Packet :=
  let zeroed := { p with ip := { p.ip with ipSum := 0 } }
  { p with ip := p.ip.setSum o (inCksum o (zeroed.pieces odd) p.ip.hlen) }

end Packet

/-- Whether a sum of words is the complement of zero does not depend on the byte order. -/
theorem inCksum_eq_zero_iff (o o' : Order) {ms ms' : List Piece} {len : Nat} (hbytes : pieceBytes ms = pieceBytes ms')
    (hlong : (pieceBytes ms).length ≤ 65535) : inCksum o ms len = 0 ↔ inCksum o' ms' len = 0 := by
  have hlong' : (pieceBytes ms').length ≤ 65535 := hbytes ▸ hlong
  rw [inCksum_eq o ms len hlong, inCksum_eq o' ms' len hlong', ← hbytes]
  by_cases hsame : o = o'
  · rw [hsame]
  · have hswap : o' = o.swap := by
      cases o <;> cases o' <;> first | rfl | exact absurd rfl hsame
    obtain ⟨hsum, hsumLe⟩ := sum_represents (words_le o ((pieceBytes ms).take len))
    obtain ⟨hsum', hsumLe'⟩ := sum_represents (words_le o' ((pieceBytes ms).take len))
    rw [sum_words] at hsum hsum'
    have hmod := weigh_swap_mod o ((pieceBytes ms).take len)
    have hmod' := weigh_swap_mod o' ((pieceBytes ms).take len)
    have hzero := (weigh_eq_zero_iff o ((pieceBytes ms).take len)).trans
      (weigh_eq_zero_iff o' ((pieceBytes ms).take len)).symm
    have hback : o'.swap = o := by rw [hswap, Order.swap_swap]
    rw [← hswap] at hmod
    rw [hback] at hmod'
    have hmax := hsum.eq_max_iff hsumLe
    have hmax' := hsum'.eq_max_iff hsumLe'
    clear hsum hsum'
    have hiff : weigh o ((pieceBytes ms).take len) % 65535 = 0 ↔ weigh o' ((pieceBytes ms).take len) % 65535 = 0 :=
      ⟨fun h => by omega, fun h => by omega⟩
    have hfull : OnesSum.sum (words o ((pieceBytes ms).take len)) = 65535 ↔
        OnesSum.sum (words o' ((pieceBytes ms).take len)) = 65535 := by
      rw [hmax, hmax', hiff, Ne, Ne, hzero]
    omega

/-- A header whose sum was filled in has the checksum 0, on every machine and in every chain that holds the same bytes. -/
theorem Packet.fillSum_verifies (o o' : Order) (odd odd' : Nat → Bool) {p r : Packet} (hhlen : p.ip.hlen = 20)
    (hlong : p.pktLen ≤ 65535) (hip : r.ip = (p.fillSum o odd).ip) (hm : r.m.bytes = p.m.bytes) :
    inCksum o' (r.pieces odd') r.ip.hlen = 0 := by
  obtain ⟨zeroed, hzeroed⟩ : ∃ q : Packet, q = { p with ip := { p.ip with ipSum := 0 } } := ⟨_, rfl⟩
  obtain ⟨x, hx⟩ : ∃ x, x = inCksum o (zeroed.pieces odd) 20 := ⟨_, rfl⟩
  have hxle : x ≤ 65535 := by
    rw [hx]
    unfold inCksum
    dsimp only
    omega
  have hfilled : (p.fillSum o odd).ip = p.ip.setSum o x := by
    unfold Packet.fillSum
    rw [hx, hzeroed, hhlen]
  have hrlen : r.ip.hlen = 20 := by
    rw [hip, hfilled]
    exact hhlen
  have hbefore : pieceBytes (zeroed.pieces odd) = p.ip.front ++ [0, 0] ++ (p.ip.addresses ++ p.m.bytes) := by
    rw [Packet.pieceBytes_pieces, hzeroed]
    show p.ip.front ++ storeWord .big 0 ++ p.ip.addresses ++ p.m.bytes = _
    rw [List.append_assoc]
    rfl
  have hafter : pieceBytes (r.pieces odd') = p.ip.front ++ storeWord o x ++ (p.ip.addresses ++ p.m.bytes) := by
    rw [Packet.pieceBytes_pieces, hip, hm, hfilled, Header.bytes_setSum o p.ip hxle, List.append_assoc]
  have hlong' : (pieceBytes (zeroed.pieces odd)).length ≤ 65535 := by
    rw [hbefore]
    simp only [List.length_append, Header.length_front, Header.length_addresses, List.length_cons, List.length_nil]
    unfold Packet.pktLen at hlong
    omega
  have hsum : inCksum o (r.pieces odd') 20 = 0 :=
    inCksum_stored o hlong' hbefore (by rw [Header.length_front]; decide) (by rw [Header.length_front]; decide) (hx ▸ hafter)
  rw [hrlen]
  refine (inCksum_eq_zero_iff o o' rfl ?_).1 hsum
  rw [hafter]
  simp only [List.length_append, Header.length_front, Header.length_addresses, length_storeWord]
  unfold Packet.pktLen at hlong
  omega

end Reading.Ip
