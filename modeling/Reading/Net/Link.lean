import Mathlib.Algebra.Order.BigOperators.Group.List
import Mathlib.Data.List.Perm.Basic
import Reading.Lib.Transition
import Reading.Net.Slcompress

/-!
# A line with header compression

Two ends of a line that neither loses nor reorders what is sent. After every packet the receiver has, for each conversation of the sender, the header the sender has saved for it, without `ip_sum`: the receiver keeps that field zero and computes it anew for each packet it hands on.
-/

namespace Reading.Net

open Reading.Kern (Byte)
open Reading.Ip
open OnesSum

/-- The size of the area for a saved header, `MAX_HDR`. -/
def maxHdr : Nat := 108

/-- A TCP/IP packet with the lengths, the checksum and the reserved bits a packet has to have, whose headers are contiguous and fit into a saved state. -/
structure Input.WellFormed (i : Input) : Prop where
  v : i.p.hdr.ip.ipV = 4
  hl : 5 ≤ i.p.hdr.ip.ipHl.toNat
  ipOpts : i.p.hdr.ipOpts.length = (i.p.hdr.ip.ipHl.toNat - 5) * 4
  p : i.p.hdr.ip.ipP = ipprotoTcp
  off : 5 ≤ i.p.hdr.th.thOff.toNat
  thOpts : i.p.hdr.thOpts.length = (i.p.hdr.th.thOff.toNat - 5) * 4
  len : i.p.hdr.ip.ipLen.toNat = i.p.hdr.hlen + i.p.data.length
  sum : i.p.hdr.ip.ipSum.toNat =
    65535 - OnesSum.sum (words .big (i.p.hdr.clearSum.ip.bytes ++ i.p.hdr.ipOpts))
  reserved : i.p.hdr.th.thX2 = 0 ∧ i.p.hdr.th.thRes = 0
  contiguous : i.p.hdr.hlen ≤ i.mLen
  fits : i.p.hdr.hlen ≤ maxHdr

/-! ### Numbers -/

section Numbers

variable (rest : List Byte) (u : Nat)

theorem decode_long (n : U16) :
    (Cursor.mk (0 :: storeWord .big n.toNat ++ rest) u).decode = (n.toNat, ⟨rest, u + 3⟩) := by
  have hhigh : (UInt8.ofNat (n.toNat / 256)).toNat = n.toNat / 256 := UInt8.toNat_ofNat_of_lt' (by
    show n.toNat / 256 < 256
    have hlt := n.isLt
    omega)
  have hlow : (UInt8.ofNat (n.toNat % 256)).toNat = n.toNat % 256 := UInt8.toNat_ofNat_of_lt' (by
    show n.toNat % 256 < 256
    omega)
  show ((UInt8.ofNat (n.toNat / 256)).toNat * 256 + (UInt8.ofNat (n.toNat % 256)).toNat, Cursor.mk rest (u + 3)) = _
  rw [hhigh, hlow]
  congr 1
  omega

theorem decode_short {n : U16} (hpos : n ≠ 0) (hlt : n.toNat < 256) :
    (Cursor.mk (UInt8.ofNat n.toNat :: rest) u).decode = (n.toNat, ⟨rest, u + 1⟩) := by
  have hvalue : (UInt8.ofNat n.toNat).toNat = n.toNat := UInt8.toNat_ofNat_of_lt' hlt
  have hne : UInt8.ofNat n.toNat ≠ 0 := by
    intro hzero
    rw [hzero] at hvalue
    exact hpos (BitVec.toNat_inj.1 hvalue.symm)
  show (if UInt8.ofNat n.toNat = 0 then _ else ((UInt8.ofNat n.toNat).toNat, Cursor.mk rest (u + 1))) = _
  rw [if_neg hne, hvalue]

theorem decode_encode {n : U16} (hpos : n ≠ 0) :
    (Cursor.mk (encode n ++ rest) u).decode = (n.toNat, ⟨rest, u + (encode n).length⟩) := by
  unfold encode
  by_cases hlong : n.toNat ≥ 256
  · rw [if_pos hlong]
    exact decode_long rest u n
  · rw [if_neg hlong]
    exact decode_short rest u hpos (by omega)

theorem decode_encodez (n : U16) :
    (Cursor.mk (encodez n ++ rest) u).decode = (n.toNat, ⟨rest, u + (encodez n).length⟩) := by
  unfold encodez
  by_cases hlong : n.toNat ≥ 256 ∨ n = 0
  · rw [if_pos hlong]
    exact decode_long rest u n
  · rw [if_neg hlong]
    rw [not_or] at hlong
    exact decode_short rest u hlong.2 (by omega)

theorem decode_field {α : Type} (b : Bool) {bytes : List Byte} {n : Nat}
    (hdecode : b = true → (Cursor.mk (bytes ++ rest) u).decode = (n, ⟨rest, u + bytes.length⟩)) (f : Nat → α) (x : α) :
    (if b then (f (Cursor.mk ((if b then bytes else []) ++ rest) u).decode.1,
        (Cursor.mk ((if b then bytes else []) ++ rest) u).decode.2)
      else (x, Cursor.mk ((if b then bytes else []) ++ rest) u)) =
      (if b then f n else x, ⟨rest, u + (if b then bytes else []).length⟩) := by
  cases b with
  | false => rfl
  | true =>
    simp only [if_true]
    rw [hdecode rfl]

end Numbers

/-! ### The checksum -/

/-- Stored by the machine that computed it, a checksum is the same two bytes for both byte orders. -/
theorem setSum_order (o : Order) (ip : Header) {bytes : List Byte} (hne : weigh .big bytes ≠ 0) :
    ip.setSum o (65535 - OnesSum.sum (words o bytes)) = ip.setSum .big (65535 - OnesSum.sum (words .big bytes)) := by
  cases o with
  | big => rfl
  | little =>
    obtain ⟨⟨hmod, hzero⟩, hle⟩ := sum_represents (words_le .big bytes)
    obtain ⟨⟨hmod', hzero'⟩, hle'⟩ := sum_represents (words_le .little bytes)
    rw [sum_words] at hmod hzero hmod' hzero'
    have hswap : 256 * weigh .big bytes % 65535 = weigh .little bytes % 65535 := weigh_swap_mod .big bytes
    have hne' : weigh .little bytes ≠ 0 := by
      rw [Ne, weigh_eq_zero_iff] at hne ⊢
      exact hne
    obtain ⟨s, hs⟩ : ∃ s, s = OnesSum.sum (words .big bytes) := ⟨_, rfl⟩
    obtain ⟨t, ht⟩ : ∃ t, t = OnesSum.sum (words .little bytes) := ⟨_, rfl⟩
    rw [← hs] at hmod hzero hle ⊢
    rw [← ht] at hmod' hzero' hle' ⊢
    have hcross : 256 * s % 65535 = t % 65535 := by omega
    have hpos : 0 < s := Nat.pos_of_ne_zero fun h => hne (hzero.mp h)
    have hpos' : 0 < t := Nat.pos_of_ne_zero fun h => hne' (hzero'.mp h)
    simp only [Header.setSum, swap_complement hcross hpos hle hpos' hle']

theorem fold_twice {s v : Nat} (h : Represents s v) (hs : s < 2 ^ 24) :
    Represents ((s % 65536 + s / 65536) % 65536 + (s % 65536 + s / 65536) / 65536) v ∧
      (s % 65536 + s / 65536) % 65536 + (s % 65536 + s / 65536) / 65536 ≤ 65535 := by
  obtain ⟨hmod, hzero⟩ := h
  exact ⟨⟨by omega, by omega⟩, by omega⟩

theorem length_words_le (o : Order) (bytes : List Byte) : (words o bytes).length ≤ bytes.length := by
  fun_induction words o bytes with
  | case1 => exact Nat.le_refl 0
  | case2 b => exact Nat.le_refl 1
  | case3 b c bytes ih =>
    rw [List.length_cons, List.length_cons, List.length_cons]
    omega

/-- The checksum that the receiver computes for a well-formed packet is the one it had. -/
theorem Input.WellFormed.sum_recomputed {i : Input} (h : i.WellFormed) (o : Order) :
    recomputeSum o i.p.hdr.clearSum = i.p.hdr := by
  obtain ⟨bytes, hbytes⟩ : ∃ bytes, bytes = i.p.hdr.clearSum.ip.bytes ++ i.p.hdr.ipOpts := ⟨_, rfl⟩
  have hsum := h.sum
  rw [← hbytes] at hsum
  have hlength : bytes.length ≤ 60 := by
    rw [hbytes, List.length_append, Header.length_bytes, h.ipOpts]
    have hlt := i.p.hdr.ip.ipHl.isLt
    omega
  have hsmall : (words o bytes).sum < 2 ^ 24 := by
    have hle : (words o bytes).sum ≤ (words o bytes).length * 65535 :=
      List.sum_le_card_nsmul (words o bytes) 65535 (words_le o bytes)
    have hcount := length_words_le o bytes
    omega
  have hne : weigh .big bytes ≠ 0 := by
    rw [Ne, weigh_eq_zero_iff]
    intro hall
    -- the first byte holds the version
    have hfirst := hall (UInt8.ofNat (i.p.hdr.ip.ipV.toNat * 16 + i.p.hdr.ip.ipHl.toNat)) (by
      rw [hbytes]
      exact List.mem_cons_self)
    have hhl := i.p.hdr.ip.ipHl.isLt
    have hv : i.p.hdr.ip.ipV.toNat = 4 := congrArg BitVec.toNat h.v
    rw [UInt8.toNat_ofNat_of_lt' (by show _ < 256; omega)] at hfirst
    omega
  obtain ⟨hrep, hle⟩ := fold_twice (Represents.refl (words o bytes).sum) hsmall
  obtain ⟨hrep', hle'⟩ := sum_represents (words_le o bytes)
  have hfold := hrep.unique hrep' hle hle'
  obtain ⟨⟨hmodb, hzerob⟩, hleb⟩ := sum_represents (words_le .big bytes)
  have hsame : (recomputeSum o i.p.hdr.clearSum).ip = i.p.hdr.ip := by
    show i.p.hdr.clearSum.ip.setSum o (65535 - (((words o (i.p.hdr.clearSum.ip.bytes ++ i.p.hdr.ipOpts)).sum % 65536 +
      (words o (i.p.hdr.clearSum.ip.bytes ++ i.p.hdr.ipOpts)).sum / 65536) % 65536 +
      ((words o (i.p.hdr.clearSum.ip.bytes ++ i.p.hdr.ipOpts)).sum % 65536 +
      (words o (i.p.hdr.clearSum.ip.bytes ++ i.p.hdr.ipOpts)).sum / 65536) / 65536) % 65536) = _
    rw [← hbytes, hfold, Nat.mod_eq_of_lt (by omega), setSum_order o _ hne, ← hsum]
    show ({ i.p.hdr.ip with ipSum := BitVec.ofNat 16 i.p.hdr.ip.ipSum.toNat } : Header) = i.p.hdr.ip
    rw [BitVec.ofNat_toNat, BitVec.setWidth_eq]
  exact Hdr.ext hsame rfl rfl rfl

/-! ### The changing fields -/

/-- A header that `sl_compress_tcp` saves. -/
def Saved (h : Hdr) : Prop := ∃ i : Input, i.WellFormed ∧ incompressible i = false ∧ i.p.hdr = h

theorem Saved.flags {h : Hdr} (hh : Saved h) :
    h.th.thFlags = { ack := true, push := h.th.thFlags.push, urg := h.th.thFlags.urg } := by
  obtain ⟨i, -, hcompressible, rfl⟩ := hh
  unfold incompressible at hcompressible
  rw [decide_eq_false_iff_not] at hcompressible
  simp only [not_or, Bool.not_eq_true, Bool.not_eq_false] at hcompressible
  generalize i.p.hdr.th.thFlags = f at hcompressible
  obtain ⟨fin, syn, rst, push, ack, urg⟩ := f
  obtain ⟨-, -, rfl, rfl, rfl, rfl⟩ := hcompressible
  rfl

theorem Saved.reserved {h : Hdr} (hh : Saved h) : h.th.thX2 = 0 ∧ h.th.thRes = 0 := by
  obtain ⟨i, hwell, -, rfl⟩ := hh
  exact hwell.reserved

section Fields

variable {old h : Hdr}

theorem fieldChanges_eq_some {ch : Changes} {seq : List Byte} {deltaS deltaA : U32}
    (hchanges : fieldChanges old h = some (ch, seq, deltaS, deltaA)) :
    (h.th.thFlags.urg = false → h.th.thUrp = old.th.thUrp) ∧
      deltaA = h.th.thAck - old.th.thAck ∧ deltaA.toNat ≤ 0xffff ∧
      deltaS = h.th.thSeq - old.th.thSeq ∧ deltaS.toNat ≤ 0xffff ∧
      ch = { newU := h.th.thFlags.urg, newW := h.th.thWin - old.th.thWin ≠ 0, newA := deltaA ≠ 0, newS := deltaS ≠ 0 } ∧
      seq = (if h.th.thFlags.urg then encodez h.th.thUrp else []) ++
        (if decide (h.th.thWin - old.th.thWin ≠ 0) then encode (h.th.thWin - old.th.thWin) else []) ++
        (if decide (deltaA ≠ 0) then encode (deltaA.setWidth 16) else []) ++
        (if decide (deltaS ≠ 0) then encode (deltaS.setWidth 16) else []) := by
  unfold fieldChanges at hchanges
  dsimp only at hchanges
  split at hchanges
  · cases hchanges
  · next hurp =>
    split at hchanges
    · cases hchanges
    · next hack =>
      split at hchanges
      · cases hchanges
      · next hseq =>
        simp only [Option.some.injEq, Prod.mk.injEq] at hchanges
        obtain ⟨rfl, rfl, rfl, rfl⟩ := hchanges
        refine ⟨fun hurg => ?_, rfl, by omega, rfl, by omega, rfl, rfl⟩
        by_contra hne
        exact hurp ⟨by rw [hurg]; simp, hne⟩

theorem setWidth_ne_zero {d : U32} (hd : d ≠ 0) (hle : d.toNat ≤ 0xffff) : d.setWidth 16 ≠ 0 := by
  intro hzero
  have hnat := congrArg BitVec.toNat hzero
  rw [BitVec.toNat_setWidth] at hnat
  refine hd (BitVec.toNat_inj.1 ?_)
  have hrest : d.toNat % 2 ^ 16 = 0 := hnat
  show d.toNat = 0
  omega

theorem add_delta {x y : U32} (hle : (x - y).toNat ≤ 0xffff) :
    (if decide (x - y ≠ 0) then y + BitVec.ofNat 32 ((x - y).setWidth 16).toNat else y) = x := by
  have hnat : ((x - y).setWidth 16).toNat = (x - y).toNat := by
    rw [BitVec.toNat_setWidth]
    omega
  have hback : y + (x - y) = x := by rw [BitVec.add_comm, BitVec.sub_add_cancel]
  by_cases hzero : x - y = 0
  · rw [if_neg (by simpa using hzero), ← BitVec.sub_add_cancel x y, hzero]
    exact (BitVec.zero_add y).symm
  · rw [if_pos (by simpa using hzero), hnat, BitVec.ofNat_toNat, BitVec.setWidth_eq]
    exact hback

theorem add_delta16 {x y : U16} : (if decide (x - y ≠ 0) then y + BitVec.ofNat 16 (x - y).toNat else y) = x := by
  have hback : y + (x - y) = x := by rw [BitVec.add_comm, BitVec.sub_add_cancel]
  rw [BitVec.ofNat_toNat, BitVec.setWidth_eq, hback]
  split
  · rfl
  · next hzero =>
    have hsub : x - y = 0 := by simpa using hzero
    rw [← BitVec.sub_add_cancel x y, hsub]
    exact (BitVec.zero_add y).symm

/-- The receiver's copy of the header of a state, with the fields that are written before the changes are decoded. -/
def received (old h : Hdr) : Rstate where
  csHlen := old.hlen
  csIp := { old.clearSum with th := { old.th with
    thSum := h.th.thSum, thFlags := { old.th.thFlags with push := h.th.thFlags.push } } }

/-- What a packet of the conversation shares with the saved header. -/
structure SameConversation (old h : Hdr) : Prop where
  savedOld : Saved old
  savedNew : Saved h
  serves : h.ip.ipSrc = old.ip.ipSrc ∧ h.ip.ipDst = old.ip.ipDst ∧ h.th.thSport = old.th.thSport ∧
    h.th.thDport = old.th.thDport
  unchanged : unchanged old h = true

namespace SameConversation

variable (hc : SameConversation old h)
include hc

theorem thOff : h.th.thOff = old.th.thOff := by
  have hunchanged := hc.unchanged
  unfold Net.unchanged at hunchanged
  rw [decide_eq_true_eq] at hunchanged
  exact hunchanged.2.2.2.2.2.2.1

theorem hlen : h.hlen = old.hlen := by
  have hunchanged := hc.unchanged
  unfold Net.unchanged at hunchanged
  rw [decide_eq_true_eq] at hunchanged
  unfold Hdr.hlen
  rw [hunchanged.2.1, hc.thOff]

/-- The TCP header of the packet, put together from the saved one and the fields that can change. -/
theorem th_eq {th : Tcphdr} (hseq : th.thSeq = h.th.thSeq) (hack : th.thAck = h.th.thAck)
    (hwin : th.thWin = h.th.thWin) (hurp : th.thUrp = h.th.thUrp) (hsum : th.thSum = h.th.thSum)
    (hflags : th.thFlags = { old.th.thFlags with push := h.th.thFlags.push, urg := h.th.thFlags.urg })
    (hrest : th.thSport = old.th.thSport ∧ th.thDport = old.th.thDport ∧ th.thX2 = old.th.thX2 ∧
      th.thOff = old.th.thOff ∧ th.thRes = old.th.thRes) : th = h.th := by
  obtain ⟨-, -, hsport, hdport⟩ := hc.serves
  obtain ⟨hx2, hres⟩ := hc.savedNew.reserved
  obtain ⟨hx2', hres'⟩ := hc.savedOld.reserved
  obtain ⟨h1, h2, h3, h4, h5⟩ := hrest
  refine Tcphdr.ext (h1.trans hsport.symm) (h2.trans hdport.symm) hseq hack ?_ (h4.trans hc.thOff.symm) ?_ ?_ hwin hsum hurp
  · rw [h3, hx2, hx2']
  · rw [h5, hres, hres']
  · rw [hflags, hc.savedOld.flags, hc.savedNew.flags]

theorem decodeFields_general {ch : Changes} {seq : List Byte} {deltaS deltaA : U32}
    (hchanges : fieldChanges old h = some (ch, seq, deltaS, deltaA)) {changes : Changes} (hch : changes.specials = ch)
    (hI : ch ≠ .specialI) (hD : ch ≠ .specialD) (rest : List Byte) (u : Nat) :
    decodeFields (received old h) changes ⟨seq ++ rest, u⟩ = (h.th, ⟨rest, u + seq.length⟩) := by
  obtain ⟨hurp, rfl, hack, rfl, hseq, hmask, hbytes⟩ := fieldChanges_eq_some hchanges
  have hU : changes.newU = h.th.thFlags.urg := congrArg Changes.newU (hch.trans hmask)
  have hW : changes.newW = decide (h.th.thWin - old.th.thWin ≠ 0) := congrArg Changes.newW (hch.trans hmask)
  have hA : changes.newA = decide (h.th.thAck - old.th.thAck ≠ 0) := congrArg Changes.newA (hch.trans hmask)
  have hS : changes.newS = decide (h.th.thSeq - old.th.thSeq ≠ 0) := congrArg Changes.newS (hch.trans hmask)
  unfold decodeFields
  dsimp only
  rw [if_neg (hch ▸ hI), if_neg (hch ▸ hD), hU, hW, hA, hS, hbytes]
  simp only [List.append_assoc]
  rw [decode_field _ _ _ (fun _ => decode_encodez _ _ _) (fun n => (BitVec.ofNat 16 n : U16))]
  dsimp only
  rw [decode_field _ _ _ (fun hb => decode_encode _ _ (of_decide_eq_true hb))
    (fun n => (received old h).csIp.th.thWin + BitVec.ofNat 16 n)]
  dsimp only
  rw [decode_field _ _ _ (fun hb => decode_encode _ _ (setWidth_ne_zero (of_decide_eq_true hb) hack))
    (fun n => (received old h).csIp.th.thAck + BitVec.ofNat 32 n)]
  dsimp only
  rw [decode_field _ _ _ (fun hb => decode_encode _ _ (setWidth_ne_zero (of_decide_eq_true hb) hseq))
    (fun n => (received old h).csIp.th.thSeq + BitVec.ofNat 32 n)]
  refine Prod.ext (hc.th_eq (add_delta hseq) (add_delta hack) add_delta16 ?_ rfl rfl ⟨rfl, rfl, rfl, rfl, rfl⟩) ?_
  · show (if h.th.thFlags.urg = true then BitVec.ofNat 16 h.th.thUrp.toNat else old.th.thUrp) = h.th.thUrp
    cases hurg : h.th.thFlags.urg with
    | true => rw [if_pos rfl, BitVec.ofNat_toNat, BitVec.setWidth_eq]
    | false => rw [if_neg (by simp), hurp hurg]
  · show Cursor.mk rest _ = Cursor.mk rest _
    simp only [List.length_append]
    congr 1
    omega

/-- The decoder reads back what the switch has made of the changes. The special encodings say nothing about `TH_URG`. -/
theorem decodeFields {ch : Changes} {seq : List Byte} (hswitch : switchChanges old h = some (ch, seq))
    (hurg : ch = .specialI ∨ ch = .specialD → old.th.thFlags.urg = false) {changes : Changes}
    (hch : changes.specials = ch) (rest : List Byte) (u : Nat) :
    decodeFields (received old h) changes ⟨seq ++ rest, u⟩ = (h.th, ⟨rest, u + seq.length⟩) := by
  unfold switchChanges at hswitch
  cases hfields : fieldChanges old h with
  | none =>
    rw [hfields] at hswitch
    cases hswitch
  | some out =>
    obtain ⟨ch', seq', deltaS, deltaA⟩ := out
    obtain ⟨hurp, hdA, -, hdS, -, hmask, -⟩ := fieldChanges_eq_some hfields
    have hseqBack : old.th.thSeq + (h.th.thSeq - old.th.thSeq) = h.th.thSeq := by
      rw [BitVec.add_comm, BitVec.sub_add_cancel]
    have hackBack : old.th.thAck + (h.th.thAck - old.th.thAck) = h.th.thAck := by
      rw [BitVec.add_comm, BitVec.sub_add_cancel]
    -- in the special cases neither the window nor the urgent pointer has changed
    have hsame : ch'.newU = false → ch'.newW = false →
        h.th.thFlags.urg = false ∧ h.th.thUrp = old.th.thUrp ∧ h.th.thWin = old.th.thWin := by
      intro hU hW
      rw [hmask] at hU hW
      have hwin : h.th.thWin - old.th.thWin = 0 := by simpa using hW
      refine ⟨hU, hurp hU, ?_⟩
      rw [← BitVec.sub_add_cancel h.th.thWin old.th.thWin, hwin]
      exact BitVec.zero_add _
    rw [hfields] at hswitch
    dsimp only at hswitch
    split at hswitch
    · next hnone =>
      split at hswitch
      · obtain ⟨rfl, rfl⟩ := Prod.mk.inj (Option.some.inj hswitch)
        refine hc.decodeFields_general hfields hch ?_ ?_ rest u <;> rw [hnone] <;> decide
      · cases hswitch
    · split at hswitch
      · cases hswitch
      · next hspecial =>
        rw [not_or] at hspecial
        split at hswitch
        · next hI =>
          obtain ⟨hI, hequal, hdata⟩ := hI
          obtain ⟨rfl, rfl⟩ := Prod.mk.inj (Option.some.inj hswitch)
          obtain ⟨hnourg, hurpSame, hwinSame⟩ := hsame (by rw [hI]) (by rw [hI])
          unfold Net.decodeFields
          dsimp only
          rw [if_pos hch]
          refine Prod.ext (hc.th_eq ?_ ?_ hwinSame.symm hurpSame.symm rfl ?_ ⟨rfl, rfl, rfl, rfl, rfl⟩) rfl
          · show old.th.thSeq + BitVec.ofInt 32 (old.ip.ipLen.toNat - old.hlen : Int) = _
            rw [← hc.hlen, ← hdata, hdS, hseqBack]
          · show old.th.thAck + BitVec.ofInt 32 (old.ip.ipLen.toNat - old.hlen : Int) = _
            rw [← hc.hlen, ← hdata, hequal, hdA, hackBack]
          · show { old.th.thFlags with push := h.th.thFlags.push } = _
            rw [hnourg, ← hurg (.inl rfl)]
        · split at hswitch
          · next hD =>
            obtain ⟨hD, hdata⟩ := hD
            obtain ⟨rfl, rfl⟩ := Prod.mk.inj (Option.some.inj hswitch)
            obtain ⟨hnourg, hurpSame, hwinSame⟩ := hsame (by rw [hD]) (by rw [hD])
            have hackSame : h.th.thAck - old.th.thAck = 0 := by
              have hA := congrArg Changes.newA (hmask.symm.trans hD)
              rw [hdA] at hA
              simpa using hA
            unfold Net.decodeFields
            dsimp only
            rw [if_neg (by rw [hch]; decide), if_pos hch]
            refine Prod.ext (hc.th_eq ?_ ?_ hwinSame.symm hurpSame.symm rfl ?_ ⟨rfl, rfl, rfl, rfl, rfl⟩) rfl
            · show old.th.thSeq + BitVec.ofInt 32 (old.ip.ipLen.toNat - old.hlen : Int) = _
              rw [← hc.hlen, ← hdata, hdS, hseqBack]
            · show old.th.thAck = _
              rw [← hackBack, hackSame]
              exact (BitVec.add_zero _).symm
            · show { old.th.thFlags with push := h.th.thFlags.push } = _
              rw [hnourg, ← hurg (.inr rfl)]
          · obtain ⟨rfl, rfl⟩ := Prod.mk.inj (Option.some.inj hswitch)
            exact hc.decodeFields_general hfields hch hspecial.1 hspecial.2 rest u

theorem hdr_eq {len : Nat} (hlen : h.ip.ipLen = BitVec.ofNat 16 len) :
    { old.clearSum with
      th := h.th
      ip := { old.clearSum.ip with ipId := h.ip.ipId, ipLen := BitVec.ofNat 16 len } } = h.clearSum := by
  obtain ⟨hsrc, hdst, -, -⟩ := hc.serves
  have hunchanged := hc.unchanged
  unfold Net.unchanged at hunchanged
  rw [decide_eq_true_eq] at hunchanged
  obtain ⟨hv, hhl, htos, hoff, httl, hp, hthoff, hipOpts, hthOpts⟩ := hunchanged
  obtain ⟨i, hi, -, hih⟩ := hc.savedNew
  obtain ⟨j, hj, -, hjold⟩ := hc.savedOld
  have hnil : ∀ {l : List Byte} {n : Nat}, l.length = (n - 5) * 4 → ¬ n > 5 → l = [] := fun hlength hle =>
    List.length_eq_zero_iff.1 (by omega)
  refine Hdr.ext ?_ ?_ rfl ?_
  · exact Header.ext hv.symm hhl.symm htos.symm hlen.symm rfl hoff.symm httl.symm hp.symm rfl hsrc.symm hdst.symm
  · show old.ipOpts = h.ipOpts
    by_cases hlong : h.ip.ipHl.toNat > 5
    · exact (hipOpts hlong).symm
    · have hlong' : ¬ old.ip.ipHl.toNat > 5 := hhl ▸ hlong
      rw [← hih, hnil hi.ipOpts (hih ▸ hlong), ← hjold, hnil hj.ipOpts (hjold ▸ hlong')]
  · show old.thOpts = h.thOpts
    by_cases hlong : h.th.thOff.toNat > 5
    · exact (hthOpts hlong).symm
    · have hlong' : ¬ old.th.thOff.toNat > 5 := hthoff ▸ hlong
      rw [← hih, hnil hi.thOpts (hih ▸ hlong), ← hjold, hnil hj.thOpts (hjold ▸ hlong')]

end SameConversation

theorem switchChanges_specials {ch : Changes} {seq : List Byte} (hswitch : switchChanges old h = some (ch, seq)) :
    ch.specials = ch := by
  unfold switchChanges at hswitch
  cases hfields : fieldChanges old h with
  | none =>
    rw [hfields] at hswitch
    cases hswitch
  | some out =>
    obtain ⟨ch', seq', deltaS, deltaA⟩ := out
    obtain ⟨-, -, -, -, -, hmask, -⟩ := fieldChanges_eq_some hfields
    have hplain : ch'.specials = ch' := by
      rw [hmask]
      rfl
    rw [hfields] at hswitch
    dsimp only at hswitch
    split at hswitch
    · split at hswitch
      · rw [← (Prod.mk.inj (Option.some.inj hswitch)).1, hplain]
      · cases hswitch
    · split at hswitch
      · cases hswitch
      · split at hswitch
        · rw [← (Prod.mk.inj (Option.some.inj hswitch)).1]
          rfl
        · split at hswitch
          · rw [← (Prod.mk.inj (Option.some.inj hswitch)).1]
            rfl
          · rw [← (Prod.mk.inj (Option.some.inj hswitch)).1, hplain]

theorem encodeChanges_eq_some {changes : Changes} {newSeq : List Byte} (hencode : encodeChanges old h = some (changes, newSeq)) :
    unchanged old h = true ∧ ∃ ch seq newI, switchChanges old h = some (ch, seq) ∧
      changes = { ch with newI := newI, push := h.th.thFlags.push } ∧
      newSeq = seq ++ (if newI then encodez (h.ip.ipId - old.ip.ipId) else []) ∧
      (newI = false → h.ip.ipId = old.ip.ipId + 1) := by
  unfold encodeChanges at hencode
  split at hencode
  · next hunchanged =>
    obtain ⟨⟨ch, seq⟩, hswitch, hvalue⟩ := Option.map_eq_some_iff.1 hencode
    simp only [Prod.mk.injEq] at hvalue
    obtain ⟨rfl, rfl⟩ := hvalue
    refine ⟨hunchanged, ch, seq, _, hswitch, rfl, rfl, fun hI => ?_⟩
    rw [decide_eq_false_iff_not, not_not] at hI
    apply BitVec.toNat_inj.1
    have hlt := h.ip.ipId.isLt
    rw [BitVec.toNat_add]
    show _ = (old.ip.ipId.toNat + 1) % 2 ^ 16
    omega
  · cases hencode

theorem word_storeWord (x : U16) (rest : List Byte) (u : Nat) :
    BitVec.ofNat 16 ((Cursor.mk (storeWord .big x.toNat ++ rest) u).word 0) = x ∧
      (Cursor.mk (storeWord .big x.toNat ++ rest) u).advance 2 = ⟨rest, u + 2⟩ := by
  have hlong := decode_long rest u x
  have hword : (Cursor.mk (storeWord .big x.toNat ++ rest) u).word 0 = x.toNat := congrArg Prod.fst hlong
  refine ⟨?_, rfl⟩
  rw [hword, BitVec.ofNat_toNat, BitVec.setWidth_eq]

theorem decodeHeader_of {cs : Rstate} {changes : Changes} {c c' c'' : Cursor} {th : Tcphdr} {id : U16}
    (hfields : decodeFields { cs with csIp := { cs.csIp with th := { cs.csIp.th with
      thSum := BitVec.ofNat 16 (c.word 0), thFlags := { cs.csIp.th.thFlags with push := changes.push } } } }
      changes (c.advance 2) = (th, c'))
    (hid : (if changes.newI then (cs.csIp.ip.ipId + BitVec.ofNat 16 c'.decode.1, c'.decode.2)
      else (cs.csIp.ip.ipId + 1, c')) = (id, c'')) :
    decodeHeader cs changes c = ({ cs.csIp with th := th, ip := { cs.csIp.ip with ipId := id } }, c'') := by
  unfold decodeHeader
  dsimp only
  rw [hfields]
  dsimp only
  rw [hid]

/-- The decoder reads a header back against the receiver's copy of the saved one. -/
theorem decodeHeader_encode (hold : Saved old) (hnew : Saved h)
    (hserves : h.ip.ipSrc = old.ip.ipSrc ∧ h.ip.ipDst = old.ip.ipDst ∧ h.th.thSport = old.th.thSport ∧
      h.th.thDport = old.th.thDport)
    {changes : Changes} {newSeq : List Byte} (hencode : encodeChanges old h = some (changes, newSeq))
    (hurg : changes.specials = .specialI ∨ changes.specials = .specialD → old.th.thFlags.urg = false)
    (cid : Bool) (data : List Byte) (u : Nat) :
    decodeHeader ⟨old.hlen, old.clearSum⟩ { changes with newC := cid }
        ⟨storeWord .big h.th.thSum.toNat ++ (newSeq ++ data), u⟩ =
      ({ old.clearSum with th := h.th, ip := { old.clearSum.ip with ipId := h.ip.ipId } },
        ⟨data, u + 2 + newSeq.length⟩) := by
  obtain ⟨hunchanged, ch, seq, newI, hswitch, rfl, rfl, hnext⟩ := encodeChanges_eq_some hencode
  have hc : SameConversation old h := ⟨hold, hnew, hserves, hunchanged⟩
  have hch : Changes.specials { ch with newC := cid, newI := newI, push := h.th.thFlags.push } = ch :=
    switchChanges_specials hswitch
  obtain ⟨hword, hadvance⟩ := word_storeWord h.th.thSum
    (seq ++ ((if newI then encodez (h.ip.ipId - old.ip.ipId) else []) ++ data)) u
  have hfields := hc.decodeFields hswitch (fun hspecial => hurg (hch.symm ▸ hspecial)) hch
    ((if newI then encodez (h.ip.ipId - old.ip.ipId) else []) ++ data) (u + 2)
  have hid := decode_field data (u + 2 + seq.length) newI
    (fun _ => decode_encodez data (u + 2 + seq.length) (h.ip.ipId - old.ip.ipId))
    (fun n => old.ip.ipId + BitVec.ofNat 16 n) (old.ip.ipId + 1)
  have hidValue : (if newI then old.ip.ipId + BitVec.ofNat 16 (h.ip.ipId - old.ip.ipId).toNat else old.ip.ipId + 1) =
      h.ip.ipId := by
    cases newI with
    | false => exact (hnext rfl).symm
    | true =>
      rw [if_pos rfl, BitVec.ofNat_toNat, BitVec.setWidth_eq, BitVec.add_comm, BitVec.sub_add_cancel]
  rw [hidValue] at hid
  rw [List.length_append, ← Nat.add_assoc, List.append_assoc]
  refine decodeHeader_of ?_ hid
  rw [hadvance, hword]
  exact hfields

/-- The receiver hands on the packet that was compressed, and saves its header. -/
theorem uncompress_encode {i : Input} (hi : i.WellFormed) (hcompressible : incompressible i = false) (hold : Saved old)
    (hserves : i.p.hdr.ip.ipSrc = old.ip.ipSrc ∧ i.p.hdr.ip.ipDst = old.ip.ipDst ∧
      i.p.hdr.th.thSport = old.th.thSport ∧ i.p.hdr.th.thDport = old.th.thDport)
    {changes : Changes} {newSeq : List Byte} (hencode : encodeChanges old i.p.hdr = some (changes, newSeq))
    (hurg : changes.specials = .specialI ∨ changes.specials = .specialD → old.th.thFlags.urg = false)
    (o : Order) {comp : Slcompress} (hcs : comp.rstate comp.lastRecv = some ⟨old.hlen, old.clearSum⟩) (cid : Bool) (u : Nat) :
    uncompress o comp { changes with newC := cid }
        ⟨storeWord .big i.p.hdr.th.thSum.toNat ++ (newSeq ++ i.p.data), u⟩ (u + (2 + newSeq.length + i.p.data.length)) =
      ({ comp with rstate := Function.update comp.rstate comp.lastRecv (some ⟨i.p.hdr.hlen, i.p.hdr.clearSum⟩) },
        some i.p) := by
  have hnew : Saved i.p.hdr := ⟨i, hi, hcompressible, rfl⟩
  have hc : SameConversation old i.p.hdr := ⟨hold, hnew, hserves, (encodeChanges_eq_some hencode).1⟩
  have hheader := decodeHeader_encode hold hnew hserves hencode hurg cid i.p.data u
  have hlen : i.p.hdr.ip.ipLen = BitVec.ofNat 16 (u + (2 + newSeq.length + i.p.data.length) -
      (u + 2 + newSeq.length) + old.hlen) := by
    apply BitVec.toNat_inj.1
    have hlt := i.p.hdr.ip.ipLen.isLt
    have htotal := hi.len
    rw [hc.hlen] at htotal
    rw [BitVec.toNat_ofNat]
    omega
  unfold uncompress
  rw [hcs]
  dsimp only
  rw [hheader]
  dsimp only
  rw [if_neg (by omega), hc.hdr_eq hlen, hi.sum_recomputed, hc.hlen]

end Fields

/-! ### The two ends -/

theorem findState_perm {tstate : List Cstate} (hne : tstate ≠ []) (h : Hdr) :
    ((findState tstate h).1 :: (findState tstate h).2.2).Perm tstate ∧
      ((findState tstate h).2.1 = true → (findState tstate h).1.serves h = true) := by
  unfold findState
  cases hfind : tstate.find? (Cstate.serves h) with
  | none =>
    refine ⟨?_, fun hfalse => nomatch hfalse⟩
    dsimp only
    have hlast : tstate.dropLast ++ [tstate.getLastD { csId := 0 }] = tstate := by
      rw [List.getLastD_eq_getLast?, List.getLast?_eq_some_getLast hne]
      exact List.dropLast_concat_getLast hne
    exact (List.perm_append_singleton _ _).symm.trans (List.Perm.of_eq hlast)
  | some cs =>
    obtain ⟨hserves, before, after, rfl, hbefore⟩ := List.find?_eq_some_iff_append.1 hfind
    refine ⟨?_, fun _ => hserves⟩
    dsimp only
    rw [List.eraseP_append_right _ fun b hb => by simpa using hbefore b hb, List.eraseP_cons_of_pos hserves]
    exact List.perm_middle.symm

/-- What the two ends have in common: for each conversation the receiver has the sender's header, without `ip_sum`. -/
structure Sync (sender receiver : Slcompress) : Prop where
  nonempty : sender.tstate ≠ []
  ids : (sender.tstate.map Cstate.csId).Nodup
  bound : ∀ cs ∈ sender.tstate, cs.csId.toNat < maxStates
  saved : ∀ cs ∈ sender.tstate, ∀ h ∈ cs.csIp, Saved h
  equal : ∀ cs ∈ sender.tstate, ∀ h ∈ cs.csIp, receiver.rstate cs.csId = some ⟨h.hlen, h.clearSum⟩
  last : sender.lastXmit = 255 ∨ (receiver.lastRecv = sender.lastXmit ∧ receiver.toss = false)

theorem sync_init : Sync slCompressInit slCompressInit where
  nonempty := by decide
  ids := by decide
  bound := by decide
  saved := by
    intro cs hcs h hh
    obtain ⟨i, -, rfl⟩ := List.mem_map.1 hcs
    cases hh
  equal := by
    intro cs hcs h hh
    obtain ⟨i, -, rfl⟩ := List.mem_map.1 hcs
    cases hh
  last := .inl rfl

theorem Sync.save {s r r' : Slcompress} (hsync : Sync s r) {h : Hdr} (hh : Saved h)
    (hlast : r'.lastRecv = (findState s.tstate h).1.csId) (htoss : r'.toss = false)
    (hrstate : r'.rstate = Function.update r.rstate (findState s.tstate h).1.csId (some ⟨h.hlen, h.clearSum⟩)) :
    Sync { s with
      tstate := { (findState s.tstate h).1 with csIp := some h } :: (findState s.tstate h).2.2
      lastXmit := (findState s.tstate h).1.csId } r' := by
  obtain ⟨hperm, -⟩ := findState_perm hsync.nonempty h
  obtain ⟨cs, hcs⟩ : ∃ cs, cs = (findState s.tstate h).1 := ⟨_, rfl⟩
  obtain ⟨others, hothers⟩ : ∃ others, others = (findState s.tstate h).2.2 := ⟨_, rfl⟩
  rw [← hcs] at hlast hrstate
  rw [← hcs, ← hothers] at hperm ⊢
  have hmem : ∀ q ∈ others, q ∈ s.tstate := fun q hq => hperm.subset (List.mem_cons_of_mem cs hq)
  have hids : (cs :: others).map Cstate.csId |>.Nodup := (hperm.map Cstate.csId).nodup_iff.2 hsync.ids
  have hother : ∀ q ∈ others, q.csId ≠ cs.csId := fun q hq heq => by
    refine (List.nodup_cons.1 hids).1 ?_
    rw [← heq]
    exact List.mem_map_of_mem hq
  refine ⟨List.cons_ne_nil _ _, hids, fun q hq => ?_, fun q hq g hg => ?_, fun q hq g hg => ?_, .inr ⟨hlast, htoss⟩⟩
  · rcases List.mem_cons.1 hq with rfl | hq
    · exact hsync.bound cs (hperm.subset List.mem_cons_self)
    · exact hsync.bound q (hmem q hq)
  · rcases List.mem_cons.1 hq with rfl | hq
    · obtain rfl : h = g := Option.some.inj hg
      exact hh
    · exact hsync.saved q (hmem q hq) g hg
  · rcases List.mem_cons.1 hq with rfl | hq
    · obtain rfl : h = g := Option.some.inj hg
      rw [hrstate]
      exact Function.update_self _ _ _
    · rw [hrstate, Function.update_of_ne (hother q hq)]
      exact hsync.equal q (hmem q hq) g hg

theorem compression_eq_some {comp : Slcompress} (hne : comp.tstate ≠ []) {h old : Hdr} {changes : Changes}
    {newSeq : List Byte} (hcompression : compression comp h = some (old, changes, newSeq)) :
    (findState comp.tstate h).1.csIp = some old ∧ encodeChanges old h = some (changes, newSeq) ∧
      h.ip.ipSrc = old.ip.ipSrc ∧ h.ip.ipDst = old.ip.ipDst ∧ h.th.thSport = old.th.thSport ∧
      h.th.thDport = old.th.thDport := by
  obtain ⟨-, hserves⟩ := findState_perm hne h
  unfold compression at hcompression
  generalize findState comp.tstate h = out at hcompression hserves ⊢
  obtain ⟨cs, found, others⟩ := out
  dsimp only at hcompression hserves ⊢
  split at hcompression
  · next old' hsaved =>
    obtain ⟨encoded, hencode, hvalue⟩ := Option.map_eq_some_iff.1 hcompression
    obtain ⟨rfl, rfl⟩ := Prod.mk.inj hvalue
    have hserved := hserves rfl
    unfold Cstate.serves at hserved
    rw [hsaved] at hserved
    exact ⟨hsaved, hencode, of_decide_eq_true hserved⟩
  · cases hcompression

/-- The special encodings leave `TH_URG` of the receiver's header as it is, so that the saved header must not have it. -/
def UrgClear (comp : Slcompress) (i : Input) : Prop :=
  match compression comp i.p.hdr with
  | some (old, changes, _) => changes.specials = .specialI ∨ changes.specials = .specialD → old.th.thFlags.urg = false
  | none => True

theorem slUncompressTcp_cons (o : Order) (r : Slcompress) (ch : Changes) (rest : List Byte) :
    slUncompressTcp o r (.compressedTcp (ch.toByte :: rest)) =
      if ch.newC then
        if ((Cursor.mk rest 1).byte 0).toNat ≥ maxStates then ({ r with toss := true }, none)
        else uncompress o { r with toss := false, lastRecv := (Cursor.mk rest 1).byte 0 } ch
          ((Cursor.mk rest 1).advance 1) (rest.length + 1)
      else if r.toss then (r, none)
      else uncompress o r ch ⟨rest, 1⟩ (rest.length + 1) := by
  have hmask : Changes.ofByte ((Cursor.mk (ch.toByte :: rest) 0).byte 0) = ch := Changes.ofByte_toByte ch
  unfold slUncompressTcp
  dsimp only
  rw [hmask]
  rfl

theorem slUncompressTcp_compressed {old : Hdr} {i : Input} (hi : i.WellFormed) (hcompressible : incompressible i = false)
    (hold : Saved old)
    (hserves : i.p.hdr.ip.ipSrc = old.ip.ipSrc ∧ i.p.hdr.ip.ipDst = old.ip.ipDst ∧
      i.p.hdr.th.thSport = old.th.thSport ∧ i.p.hdr.th.thDport = old.th.thDport)
    {changes : Changes} {newSeq : List Byte} (hencode : encodeChanges old i.p.hdr = some (changes, newSeq))
    (hurg : changes.specials = .specialI ∨ changes.specials = .specialD → old.th.thFlags.urg = false)
    (o : Order) {r : Slcompress} {id : Byte} (hid : id.toNat < maxStates)
    (hequal : r.rstate id = some ⟨old.hlen, old.clearSum⟩) {cid : Bool}
    (hlast : cid = false → r.lastRecv = id ∧ r.toss = false) :
    slUncompressTcp o r (.compressedTcp ({ changes with newC := cid }.toByte :: (if cid then [id] else []) ++
        storeWord .big i.p.hdr.th.thSum.toNat ++ newSeq ++ i.p.data)) =
      ({ r with
         lastRecv := id, toss := false
         rstate := Function.update r.rstate id (some ⟨i.p.hdr.hlen, i.p.hdr.clearSum⟩) }, some i.p) := by
  cases cid with
  | true =>
    have hrun := uncompress_encode hi hcompressible hold hserves hencode hurg o
      (show ({ r with toss := false, lastRecv := id } : Slcompress).rstate id = _ from hequal) true 2
    have hlength : (id :: (storeWord .big i.p.hdr.th.thSum.toNat ++ (newSeq ++ i.p.data))).length + 1 =
        2 + (2 + newSeq.length + i.p.data.length) := by
      simp only [List.length_cons, List.length_append, length_storeWord]
      omega
    rw [if_pos rfl, List.append_assoc, List.append_assoc, List.cons_append, List.singleton_append, slUncompressTcp_cons,
      if_pos rfl, hlength]
    exact (if_neg (Nat.not_le.2 hid)).trans hrun
  | false =>
    obtain ⟨hrecv, htoss⟩ := hlast rfl
    have hrun := uncompress_encode hi hcompressible hold hserves hencode hurg o
      (show r.rstate r.lastRecv = _ from hrecv ▸ hequal) false 1
    have hlength : (storeWord .big i.p.hdr.th.thSum.toNat ++ (newSeq ++ i.p.data)).length + 1 =
        1 + (2 + newSeq.length + i.p.data.length) := by
      simp only [List.length_append, length_storeWord]
      omega
    rw [if_neg (by simp), List.append_assoc, List.append_assoc, List.cons_append, List.nil_append, slUncompressTcp_cons,
      if_neg (by simp), htoss, if_neg (by simp), hlength, hrun, hrecv]
    rw [← htoss]

theorem Sync.step {s r : Slcompress} (hsync : Sync s r) {i : Input} (hi : i.WellFormed) (hurg : UrgClear s i) (o : Order) :
    Sync (slCompressTcp s i).1 (slUncompressTcp o r (slCompressTcp s i).2).1 ∧
      (slUncompressTcp o r (slCompressTcp s i).2).2 = some i.p := by
  unfold slCompressTcp
  by_cases hplain : incompressible i = true
  · rw [if_pos hplain]
    exact ⟨hsync, rfl⟩
  · have hcompressible : incompressible i = false := by simpa using hplain
    have hnew : Saved i.p.hdr := ⟨i, hi, hcompressible, rfl⟩
    have hid : (findState s.tstate i.p.hdr).1.csId.toNat < maxStates :=
      hsync.bound _ ((findState_perm hsync.nonempty i.p.hdr).1.subset List.mem_cons_self)
    rw [if_neg hplain]
    dsimp only
    unfold UrgClear at hurg
    cases hcompression : compression s i.p.hdr with
    | none =>
      have hback : ({ i.p.hdr with ip := { i.p.hdr.ip with ipP := ipprotoTcp } } : Hdr) = i.p.hdr := by
        rw [← hi.p]
      obtain ⟨cs, hcs⟩ : ∃ cs, cs = (findState s.tstate i.p.hdr).1 := ⟨_, rfl⟩
      rw [← hcs] at hid
      have hout : slUncompressTcp o r
          (.uncompressedTcp { i.p with hdr := { i.p.hdr with ip := { i.p.hdr.ip with ipP := cs.csId } } }) =
          ({ r with lastRecv := cs.csId, toss := false
                    rstate := Function.update r.rstate cs.csId (some ⟨i.p.hdr.hlen, i.p.hdr.clearSum⟩) }, some i.p) := by
        unfold slUncompressTcp
        dsimp only
        rw [if_neg (Nat.not_le.2 hid), hback]
      dsimp only
      rw [← hcs, hout]
      refine ⟨?_, rfl⟩
      rw [hcs]
      exact hsync.save hnew rfl rfl rfl
    | some out =>
      obtain ⟨old, changes, newSeq⟩ := out
      rw [hcompression] at hurg
      obtain ⟨hsaved, hencode, hserves⟩ := compression_eq_some hsync.nonempty hcompression
      have hmem := (findState_perm hsync.nonempty i.p.hdr).1.subset List.mem_cons_self
      have hold := hsync.saved _ hmem old hsaved
      have hequal := hsync.equal _ hmem old hsaved
      obtain ⟨cs, hcs⟩ : ∃ cs, cs = (findState s.tstate i.p.hdr).1 := ⟨_, rfl⟩
      rw [← hcs] at hid hequal
      obtain ⟨cid, hcid⟩ : ∃ cid, cid = decide (¬ i.compressCid = true ∨ s.lastXmit ≠ cs.csId) := ⟨_, rfl⟩
      -- without a connection number the receiver is at the state that was used last
      have hlast : cid = false → r.lastRecv = cs.csId ∧ r.toss = false := by
        intro hfalse
        rw [hfalse, eq_comm, decide_eq_false_iff_not, not_or, not_not, not_not] at hcid
        rcases hsync.last with hnone | ⟨hrecv, htoss⟩
        · exfalso
          have hid' : (255 : Byte).toNat < maxStates := by
            rw [← hnone, hcid.2]
            exact hid
          exact absurd hid' (by decide)
        · exact ⟨hrecv.trans hcid.2, htoss⟩
      have hout := slUncompressTcp_compressed hi hcompressible hold hserves hencode hurg o hid hequal hlast
      dsimp only
      rw [← hcs]
      rw [hcid] at hout
      simp only [decide_eq_true_eq] at hout
      rw [hout]
      refine ⟨?_, rfl⟩
      rw [hcs]
      exact hsync.save hnew rfl rfl rfl

/-- The line: its two ends, and what has come out of it. -/
structure Link where
  sender : Slcompress := slCompressInit
  receiver : Slcompress := slCompressInit
  delivered : List (Option Pkt) := []

def Link.step (o : Order) (l : Link) (i : Input) : Link :=
  let (sender, frame) := slCompressTcp l.sender i
  let (receiver, p) := slUncompressTcp o l.receiver frame
  { sender := sender, receiver := receiver, delivered := l.delivered ++ [p] }

/-- What comes out of the line is what went in, and each header saved by the sender is saved by the receiver without `ip_sum`. -/
theorem link_round_trip (o : Order) {inputs : List Input}
    (hrun : Transition.Along (Link.step o) (fun l i => i.WellFormed ∧ UrgClear l.sender i) {} inputs) :
    (Transition.run (Link.step o) {} inputs).delivered = inputs.map (fun i => some i.p) ∧
      ∀ cs ∈ (Transition.run (Link.step o) {} inputs).sender.tstate, ∀ h ∈ cs.csIp,
        (Transition.run (Link.step o) {} inputs).receiver.rstate cs.csId = some ⟨h.hlen, h.clearSum⟩ := by
  have hgeneral : ∀ (l : Link), Sync l.sender l.receiver →
      Transition.Along (Link.step o) (fun l i => i.WellFormed ∧ UrgClear l.sender i) l inputs →
      (Transition.run (Link.step o) l inputs).delivered = l.delivered ++ inputs.map (fun i => some i.p) ∧
        Sync (Transition.run (Link.step o) l inputs).sender (Transition.run (Link.step o) l inputs).receiver := by
    clear hrun
    induction inputs with
    | nil => exact fun l hsync _ => ⟨(List.append_nil _).symm, hsync⟩
    | cons i inputs ih =>
      intro l hsync hrun
      obtain ⟨⟨hi, hurg⟩, hrest⟩ := hrun
      obtain ⟨hsync', hout⟩ := hsync.step hi hurg o
      obtain ⟨hdelivered, hlast⟩ := ih (l.step o i) hsync' hrest
      refine ⟨?_, hlast⟩
      rw [Transition.run_cons, hdelivered]
      show l.delivered ++ [(slUncompressTcp o l.receiver (slCompressTcp l.sender i).2).2] ++ _ = _
      rw [hout, List.append_assoc]
      rfl
  obtain ⟨hdelivered, hsync⟩ := hgeneral {} sync_init hrun
  exact ⟨hdelivered, hsync.equal⟩

/-- A packet with four bytes of data. -/
def dataPacket (seq : U32) (id sum : U16) : Input where
  p :=
    { hdr :=
        { ip := { ipLen := 44, ipId := id, ipTtl := 64, ipP := 6, ipSum := sum, ipSrc := 1, ipDst := 2 }
          th := { thSport := 5, thDport := 6, thSeq := seq, thFlags := { ack := true } } }
      data := [7, 7, 7, 7] }
  mLen := 40

theorem dataPacket_wellFormed : (dataPacket 0 1 31433).WellFormed ∧ (dataPacket 4 2 31432).WellFormed :=
  ⟨⟨rfl, by decide, rfl, rfl, by decide, rfl, rfl, by decide, ⟨rfl, rfl⟩, by decide, by decide⟩,
    ⟨rfl, by decide, rfl, rfl, by decide, rfl, rfl, by decide, ⟨rfl, rfl⟩, by decide, by decide⟩⟩

/-- The second packet of a transfer goes over the line in four bytes and its data. -/
theorem link_round_trip_transfer :
    (slCompressTcp (Link.step .little {} (dataPacket 0 1 31433)).sender (dataPacket 4 2 31432)).2 =
        .compressedTcp [0x0f, 0, 0, 7, 7, 7, 7] ∧
      (Transition.run (Link.step .little) {} [dataPacket 0 1 31433, dataPacket 4 2 31432]).delivered =
        [some (dataPacket 0 1 31433).p, some (dataPacket 4 2 31432).p] := by
  refine ⟨by decide, (link_round_trip .little ?_).1⟩
  exact ⟨⟨dataPacket_wellFormed.1, trivial⟩, ⟨dataPacket_wellFormed.2, fun _ => rfl⟩, trivial⟩

/-- The two ends keep different headers for a packet: the receiver's has no checksum. -/
theorem saved_checksums_differ :
    (dataPacket 0 1 31433).WellFormed ∧
      ∃ cs ∈ (Link.step .little {} (dataPacket 0 1 31433)).sender.tstate, ∃ h r, cs.csIp = some h ∧
        (Link.step .little {} (dataPacket 0 1 31433)).receiver.rstate cs.csId = some r ∧ r.csIp ≠ h :=
  ⟨dataPacket_wellFormed.1, ⟨0, some (dataPacket 0 1 31433).p.hdr⟩, by decide, (dataPacket 0 1 31433).p.hdr,
    ⟨40, (dataPacket 0 1 31433).p.hdr.clearSum⟩, rfl, by decide, by decide⟩

end Reading.Net
