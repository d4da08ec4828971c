import Reading.Ip.Optcopy
import Reading.Ip.Cksum

/-!
# The options of a packet

`ip_dooptions` on a header in memory at 0, with its options from 20 on. Every store into the packet is remembered with the option it was made for. What the host knows of addresses and routes is a parameter, as is the time; `size_t` and `long` have 32 bits.
-/

namespace Reading.Ip

open Reading.Kern Reading.Lib
open OnesSum

def ipoptRr : Byte := 7
def ipoptTs : Byte := 68
def ipoptLsrr : Byte := 131
def ipoptSsrr : Byte := 137

def ipoptMinoff : Nat := 4

def ipoptTsTsonly : Nat := 0
def ipoptTsTsandaddr : Nat := 1
def ipoptTsPrespec : Nat := 3

def icmpUnreach : Nat := 3
def icmpUnreachHost : Nat := 1
def icmpUnreachSrcfail : Nat := 5
def icmpParamprob : Nat := 12

/-- `struct in_addr`, in network order. -/
abbrev InAddr := BitVec 32

def InAddr.bytes (a : InAddr) : List Byte := storeWord .big (a.toNat / 65536) ++ storeWord .big (a.toNat % 65536)

theorem InAddr.length_bytes (a : InAddr) : a.bytes.length = 4 := by
  rw [InAddr.bytes, List.length_append, length_storeWord, length_storeWord]

/-- `IN_MULTICAST`. -/
def InAddr.multicast (a : InAddr) : Prop := a &&& 0xf0000000 = 0xe0000000

instance (a : InAddr) : Decidable a.multicast := inferInstanceAs (Decidable (_ = _))

/-- The lookups of `ip_dooptions`: the address of the interface that each finds, if any, and the time. -/
structure Lookups where
  ifaIfwithaddr : InAddr → Option InAddr
  ifaIfwithdstaddr : InAddr → Option InAddr
  ifaIfwithnet : InAddr → Option InAddr
  ipRtaddr : InAddr → Option InAddr
  /-- `ifaof_ifpforaddr` on the interface the packet came in by. -/
  ifaofIfpforaddr : InAddr → Option InAddr
  iptime : BitVec 32

/-- The store of `n` bytes at `pos`, for the option at `cp`. -/
structure Store where
  cp : Nat
  optlen : Nat
  route : Bool := false
  pos : Nat
  n : Nat
  deriving DecidableEq

/-- The store is within the option, or for a source route in `ip_dst`. -/
def Store.Inside (w : Store) : Prop :=
  w.cp ≤ w.pos ∧ w.pos + w.n ≤ w.cp + w.optlen ∨ w.route = true ∧ 16 ≤ w.pos ∧ w.pos + w.n ≤ 20

instance (w : Store) : Decidable w.Inside := inferInstanceAs (Decidable (_ ∨ _))

/-- `ip_srcrt` and `ip_nhops`. -/
structure SrcRt where
  dst : InAddr
  srcopt : List Byte
  ipNhops : Nat

structure DoOpts where
  mem : Nat → Byte
  cp : Nat := 20
  cnt : Int
  /-- The destination the packet came with. -/
  dst : InAddr
  forward : Bool := false
  /-- The type and the code at `bad`. -/
  bad : Option (Nat × Nat) := none
  srcrt : Option SrcRt := none
  stores : List Store := []

def addrAt (mem : Nat → Byte) (i : Nat) : InAddr :=
  (mem i).toBitVec ++ (mem (i + 1)).toBitVec ++ (mem (i + 2)).toBitVec ++ (mem (i + 3)).toBitVec

/-- Memory with `bytes` at `pos`. -/
def setBytes (mem : Nat → Byte) (pos : Nat) (bytes : List Byte) (i : Nat) : Byte :=
  if pos ≤ i then bytes.getD (i - pos) (mem i) else mem i

namespace DoOpts

/-- `cnt -= optlen, cp += optlen`. -/
def advance (s : DoOpts) (optlen : Nat) : DoOpts := { s with cp := s.cp + optlen, cnt := s.cnt - optlen }

/-- `goto bad`. -/
def fail (s : DoOpts) (type code : Nat) : DoOpts := { s with bad := some (type, code) }

/-- Store bytes for the option at `cp`. -/
def store (s : DoOpts) (optlen : Nat) (route : Bool) (pos : Nat) (bytes : List Byte) : DoOpts :=
  { s with
    mem := setBytes s.mem pos bytes
    stores := s.stores ++ [{ cp := s.cp, optlen := optlen, route := route, pos := pos, n := bytes.length }] }

theorem store_cp (s : DoOpts) (optlen : Nat) (route : Bool) (pos : Nat) (bytes : List Byte) :
    (s.store optlen route pos bytes).cp = s.cp := rfl

/-- Add 4 to the pointer of the option. -/
def bump (s : DoOpts) (optlen : Nat) (route : Bool) : DoOpts := s.store optlen route (s.cp + 2) [s.mem (s.cp + 2) + 4]

/-- `save_rte`. -/
def saveRte (s : DoOpts) (optlen : Nat) : DoOpts :=
  if optlen > 48 - (1 + 4) then s
  else
    let nhops := (BitVec.ofNat 32 optlen - 3).toNat / 4
    { s with srcrt := some { dst := addrAt s.mem 12, srcopt := slice s.mem s.cp optlen, ipNhops := nhops } }

end DoOpts

/-- `off > optlen - sizeof(struct in_addr)`, which compares as `size_t`. -/
def roomless (off optlen : Nat) : Prop := BitVec.ofNat 32 off > BitVec.ofNat 32 optlen - 4

instance (off optlen : Nat) : Decidable (roomless off optlen) := inferInstanceAs (Decidable (_ > _))

/-- The source route options. -/
def sourceRoute (h : Lookups) (opt : Byte) (optlen : Nat) (s : DoOpts) : DoOpts ⊕ DoOpts :=
  let off := (s.mem (s.cp + 2)).toNat
  if off < ipoptMinoff then .inr (s.fail icmpParamprob (s.cp + 2))
  else if h.ifaIfwithaddr (addrAt s.mem 16) = none then
    if opt = ipoptSsrr then .inr (s.fail icmpUnreach icmpUnreachSrcfail) else .inl s
  else if roomless (off - 1) optlen then .inl (s.saveRte optlen)
  else
    let hop := addrAt s.mem (s.cp + (off - 1))
    let ia := if opt = ipoptSsrr then (h.ifaIfwithdstaddr hop).or (h.ifaIfwithnet hop) else h.ipRtaddr hop
    match ia with
    | none => .inr (s.fail icmpUnreach icmpUnreachSrcfail)
    | some a =>
      let s := s.store optlen true 16 hop.bytes
      let s := s.store optlen true (s.cp + (off - 1)) a.bytes
      let s := s.bump optlen true
      .inl { s with forward := !decide hop.multicast }

/-- The record route option. -/
def recordRoute (h : Lookups) (optlen : Nat) (s : DoOpts) : DoOpts ⊕ DoOpts :=
  let off := (s.mem (s.cp + 2)).toNat
  if off < ipoptMinoff then .inr (s.fail icmpParamprob (s.cp + 2))
  else if roomless (off - 1) optlen then .inl s
  else
    let dst := addrAt s.mem 16
    match (h.ifaIfwithaddr dst).or (h.ipRtaddr dst) with
    | none => .inr (s.fail icmpUnreach icmpUnreachHost)
    | some a => .inl ((s.store optlen false (s.cp + (off - 1)) a.bytes).bump optlen false)

/-- Store the time where the pointer of the option points. -/
def stamp (h : Lookups) (optlen : Nat) (s : DoOpts) : DoOpts :=
  (s.store optlen false (s.cp + (s.mem (s.cp + 2)).toNat - 1) (InAddr.bytes h.iptime)).bump optlen false

/-- The timestamp option. -/
def timestamp (h : Lookups) (optlen : Nat) (s : DoOpts) : DoOpts ⊕ DoOpts :=
  let len := (s.mem (s.cp + 1)).toNat
  let ptr := (s.mem (s.cp + 2)).toNat
  let flg := (s.mem (s.cp + 3)).toNat % 16
  if len < 5 then .inr (s.fail icmpParamprob s.cp)
  else if ptr > len - 4 then
    -- `++ipt->ipt_oflw`, the high half of the byte
    let s' := s.store optlen false (s.cp + 3) [s.mem (s.cp + 3) + 16]
    if (s'.mem (s.cp + 3)).toNat / 16 = 0 then .inr (s'.fail icmpParamprob s.cp) else .inl s'
  else if flg = ipoptTsTsonly then .inl (stamp h optlen s)
  else if flg = ipoptTsTsandaddr then
    if ptr + 4 + 4 > len then .inr (s.fail icmpParamprob s.cp)
    else match h.ifaofIfpforaddr s.dst with
    | none => .inl s
    | some a => .inl (stamp h optlen ((s.store optlen false (s.cp + ptr - 1) a.bytes).bump optlen false))
  else if flg = ipoptTsPrespec then
    if ptr + 4 + 4 > len then .inr (s.fail icmpParamprob s.cp)
    else if h.ifaIfwithaddr (addrAt s.mem (s.cp + ptr - 1)) = none then .inl s
    else .inl (stamp h optlen (s.bump optlen false))
  else .inr (s.fail icmpParamprob s.cp)

/-- The switch on the kind of the option. -/
def optionSwitch (h : Lookups) (opt : Byte) (optlen : Nat) (s : DoOpts) : DoOpts ⊕ DoOpts :=
  if opt = ipoptLsrr ∨ opt = ipoptSsrr then sourceRoute h opt optlen s
  else if opt = ipoptRr then recordRoute h optlen s
  else if opt = ipoptTs then timestamp h optlen s
  else .inl s

/-- One turn of the loop. -/
def optionTurn (h : Lookups) (s : DoOpts) : DoOpts ⊕ DoOpts :=
  if s.cnt > 0 then
    let opt := s.mem s.cp
    if opt = ipoptEol then .inr s
    else if opt = ipoptNop then .inl (s.advance 1)
    else
      let optlen := (s.mem (s.cp + 1)).toNat
      if optlen = 0 ∨ optlen > s.cnt then .inr (s.fail icmpParamprob (s.cp + 1))
      else (optionSwitch h opt optlen s).map (·.advance optlen) id
  else .inr s

/-- `ip_dooptions` for a header of `hl` words, which does not take more turns than there are bytes. -/
def ipDooptions (h : Lookups) (mem : Nat → Byte) (hl : Nat) : DoOpts ⊕ DoOpts :=
  Machine.runFor (optionTurn h) (hl * 4 + 1) { mem := mem, cnt := (hl * 4 : Nat) - 20, dst := addrAt mem 16 }

/-! ### Options that have room for what is stored -/

/-- The kinds of the options that addresses are recorded in. -/
def isRoute (opt : Byte) : Prop := opt = ipoptLsrr ∨ opt = ipoptSsrr ∨ opt = ipoptRr

theorem not_isRoute_ts : ¬isRoute ipoptTs := by
  unfold isRoute
  decide

/-- What is stored for the option at `cp` fits: a route has room for an address, and the pointer of a timestamp option points behind the part of it that is changed. -/
structure Fits (mem : Nat → Byte) (cp : Nat) : Prop where
  route : isRoute (mem cp) → ipoptMinoff ≤ (mem (cp + 2)).toNat → 4 ≤ (mem (cp + 1)).toNat
  time : mem cp = ipoptTs → (mem (cp + 3)).toNat % 16 = ipoptTsTsonly → 5 ≤ (mem (cp + 1)).toNat →
    (mem (cp + 2)).toNat + 4 ≤ (mem (cp + 1)).toNat → 1 ≤ (mem (cp + 2)).toNat
  address : mem cp = ipoptTs → (mem (cp + 3)).toNat % 16 = ipoptTsTsandaddr →
    (mem (cp + 2)).toNat + 8 ≤ (mem (cp + 1)).toNat → 4 ≤ (mem (cp + 2)).toNat

/-- The option at `cp` is in error, whatever the host knows of addresses. -/
def Rejected (mem : Nat → Byte) (cp : Nat) : Prop :=
  let len := (mem (cp + 1)).toNat
  let ptr := (mem (cp + 2)).toNat
  let flg := (mem (cp + 3)).toNat % 16
  isRoute (mem cp) ∧ ptr < ipoptMinoff ∨
    mem cp = ipoptTs ∧ (len < 5 ∨ ptr + 4 > len ∧ (mem (cp + 3)).toNat / 16 = 15 ∨
      ptr + 4 ≤ len ∧ flg ≠ ipoptTsTsonly ∧ (ptr + 8 > len ∨ flg ≠ ipoptTsTsandaddr ∧ flg ≠ ipoptTsPrespec))

/-- Every option that the loop comes to has room for what is stored for it. -/
inductive Roomy (mem : Nat → Byte) : Nat → Int → Prop
  | ends {cp : Nat} {cnt : Int} : cnt ≤ 0 → Roomy mem cp cnt
  | eol {cp : Nat} {cnt : Int} : mem cp = ipoptEol → Roomy mem cp cnt
  | nop {cp : Nat} {cnt : Int} : mem cp = ipoptNop → Roomy mem (cp + 1) (cnt - 1) → Roomy mem cp cnt
  | badLength {cp : Nat} {cnt : Int} : mem cp ≠ ipoptEol → mem cp ≠ ipoptNop →
      (mem (cp + 1)).toNat = 0 ∨ (mem (cp + 1)).toNat > cnt → Roomy mem cp cnt
  | rejected {cp : Nat} {cnt : Int} : mem cp ≠ ipoptEol → mem cp ≠ ipoptNop → Rejected mem cp → Roomy mem cp cnt
  | option {cp : Nat} {cnt : Int} : mem cp ≠ ipoptEol → mem cp ≠ ipoptNop → Fits mem cp →
      Roomy mem (cp + (mem (cp + 1)).toNat) (cnt - (mem (cp + 1)).toNat) → Roomy mem cp cnt

/-! ### What is stored -/

section Stores

variable {P : Store → Prop} {s t u : DoOpts}

/-- From one state to the other only memory has been stored to, each time as `P` says. -/
structure Grows (P : Store → Prop) (s t : DoOpts) : Prop where
  cp : t.cp = s.cp
  cnt : t.cnt = s.cnt
  dst : t.dst = s.dst
  stores : ∃ new, t.stores = s.stores ++ new ∧ (∀ w ∈ new, P w) ∧
    ∀ i, t.mem i ≠ s.mem i → ∃ w ∈ new, w.pos ≤ i ∧ i < w.pos + w.n

theorem Grows.refl (P : Store → Prop) (s : DoOpts) : Grows P s s where
  cp := rfl
  cnt := rfl
  dst := rfl
  stores := ⟨[], (List.append_nil _).symm, fun _ h => absurd h List.not_mem_nil, fun _ h => absurd rfl h⟩

theorem Grows.trans (h : Grows P s t) (h' : Grows P t u) : Grows P s u where
  cp := h'.cp.trans h.cp
  cnt := h'.cnt.trans h.cnt
  dst := h'.dst.trans h.dst
  stores := by
    obtain ⟨new, hnew, hall, hmem⟩ := h.stores
    obtain ⟨new', hnew', hall', hmem'⟩ := h'.stores
    refine ⟨new ++ new', by rw [hnew', hnew, List.append_assoc], ?_, fun i hi => ?_⟩
    · rw [List.forall_mem_append]
      exact ⟨hall, hall'⟩
    · by_cases hsame : u.mem i = t.mem i
      · obtain ⟨w, hw, hin⟩ := hmem i (hsame ▸ hi)
        exact ⟨w, List.mem_append_left _ hw, hin⟩
      · obtain ⟨w, hw, hin⟩ := hmem' i hsame
        exact ⟨w, List.mem_append_right _ hw, hin⟩

theorem setBytes_of_notMem {mem : Nat → Byte} {pos i : Nat} {bytes : List Byte} (h : i < pos ∨ pos + bytes.length ≤ i) :
    setBytes mem pos bytes i = mem i := by
  unfold setBytes
  split
  · rw [List.getD_eq_getElem?_getD, List.getElem?_eq_none (by omega)]
    rfl
  · rfl

theorem setBytes_of_mem {mem : Nat → Byte} {pos i k : Nat} {bytes : List Byte} {b : Byte} (hi : i = pos + k)
    (h : bytes[k]? = some b) : setBytes mem pos bytes i = b := by
  rw [hi, setBytes, if_pos (Nat.le_add_right _ _), Nat.add_sub_cancel_left, List.getD_eq_getElem?_getD, h]
  rfl

theorem Grows.store {optlen : Nat} {route : Bool} {pos : Nat} {bytes : List Byte}
    (h : P { cp := s.cp, optlen := optlen, route := route, pos := pos, n := bytes.length }) :
    Grows P s (s.store optlen route pos bytes) where
  cp := rfl
  cnt := rfl
  dst := rfl
  stores := by
    refine ⟨_, rfl, by simpa using h, fun i hi => ⟨_, List.mem_singleton.mpr rfl, ?_⟩⟩
    by_contra hout
    refine hi (setBytes_of_notMem ?_)
    simp only [not_and_or, Nat.not_le, Nat.not_lt] at hout
    exact hout

theorem Grows.fail (h : Grows P s t) (type code : Nat) : Grows P s (t.fail type code) := ⟨h.cp, h.cnt, h.dst, h.stores⟩

end Stores

theorem roomless_iff {off optlen : Nat} (hoff : off < 256) (hlen : optlen < 256) :
    roomless off optlen ↔ 4 ≤ optlen ∧ optlen < off + 4 := by
  have hleft : (BitVec.ofNat 32 off).toNat = off := by rw [BitVec.toNat_ofNat]; omega
  have hright : (BitVec.ofNat 32 optlen - 4).toNat = (2 ^ 32 - 4 + optlen) % 2 ^ 32 := by
    rw [BitVec.toNat_sub, BitVec.toNat_ofNat, Nat.mod_eq_of_lt (Nat.lt_trans hlen (by decide))]
    rfl
  rw [roomless, gt_iff_lt, BitVec.lt_def, hleft, hright]
  omega

/-- An option that is in error either way is left as it is, the overflow count of a timestamp apart. -/
theorem Rejected.fits {mem : Nat → Byte} {cp : Nat} (h : Rejected mem cp) : Fits mem cp := by
  rcases h with ⟨hroute, hptr⟩ | ⟨hts, h⟩
  · have hts : mem cp ≠ ipoptTs := fun hts => not_isRoute_ts (hts ▸ hroute)
    exact ⟨fun _ hmin => absurd hptr (Nat.not_lt.mpr hmin), fun h => absurd h hts, fun h => absurd h hts⟩
  · refine ⟨fun hroute => absurd (hts ▸ hroute) not_isRoute_ts, fun _ hflg _ _ => ?_, fun _ hflg _ => ?_⟩
    · omega
    · simp only [ipoptTsTsonly, ipoptTsTsandaddr, ipoptTsPrespec] at *
      omega

/-- What may be stored for the option at `cp`: nothing far before it but the destination, and nothing outside of it if it has room. -/
def Allowed (s : DoOpts) (optlen : Nat) (w : Store) : Prop :=
  w.cp = s.cp ∧ w.optlen = optlen ∧ (s.cp ≤ w.pos + 1 ∨ w.pos = 16) ∧ (Fits s.mem s.cp → w.Inside)

section Turn

variable {h : Lookups} {s : DoOpts} {optlen : Nat}

theorem Grows.allowed {route : Bool} {pos : Nat} {bytes : List Byte} {t : DoOpts} (ht : Grows (Allowed s optlen) s t)
    (hpos : s.cp ≤ pos + 1 ∨ pos = 16)
    (hin : Fits s.mem s.cp → s.cp ≤ pos ∧ pos + bytes.length ≤ s.cp + optlen ∨
      route = true ∧ 16 ≤ pos ∧ pos + bytes.length ≤ 20) :
    Grows (Allowed s optlen) s (t.store optlen route pos bytes) := by
  apply ht.trans
  apply Grows.store
  refine ⟨ht.cp, rfl, hpos, fun hfits => ?_⟩
  unfold Store.Inside
  rw [ht.cp]
  exact hin hfits

/-- The pointer is in every option that has more than two bytes. -/
theorem Grows.bump {route : Bool} {t : DoOpts} (ht : Grows (Allowed s optlen) s t)
    (hlen : Fits s.mem s.cp → 3 ≤ optlen) : Grows (Allowed s optlen) s (t.bump optlen route) := by
  unfold DoOpts.bump
  rw [ht.cp]
  apply ht.allowed (by omega)
  intro hfits
  have := hlen hfits
  simp only [List.length_singleton]
  omega

theorem byte_lt (b : Byte) : b.toNat < 256 := UInt8.toNat_lt b

theorem route_room {b : Byte} (hroom : ¬roomless (b.toNat - 1) optlen) (hlen : optlen < 256)
    (hfits : 4 ≤ optlen) : b.toNat - 1 + 4 ≤ optlen := by
  have hbyte := byte_lt b
  rw [roomless_iff (by omega) hlen] at hroom
  omega

theorem sourceRoute_grows {opt : Byte} (hroute : isRoute (s.mem s.cp)) (hlen : (s.mem (s.cp + 1)).toNat = optlen) :
    Grows (Allowed s optlen) s ((sourceRoute h opt optlen s).elim id id) := by
  have hbyte : optlen < 256 := hlen ▸ byte_lt _
  have hself := Grows.refl (Allowed s optlen) s
  unfold sourceRoute
  by_cases hmin : (s.mem (s.cp + 2)).toNat < ipoptMinoff
  · rw [if_pos hmin]
    exact hself.fail _ _
  rw [if_neg hmin]
  have hfour : Fits s.mem s.cp → 4 ≤ optlen := fun hfits => hlen ▸ hfits.route hroute (Nat.not_lt.mp hmin)
  split
  · split
    · exact hself.fail _ _
    · exact hself
  by_cases hroom : roomless ((s.mem (s.cp + 2)).toNat - 1) optlen
  · rw [if_pos hroom]
    unfold DoOpts.saveRte
    split
    · exact hself
    · exact ⟨rfl, rfl, rfl, hself.stores⟩
  rw [if_neg hroom]
  dsimp only
  split
  · exact hself.fail _ _
  · -- the destination, the address and the pointer
    have hdone : ∀ t : DoOpts, Grows (Allowed s optlen) s t → ∀ forward,
        Grows (Allowed s optlen) s { t with forward := forward } :=
      fun t ht _ => ⟨ht.cp, ht.cnt, ht.dst, ht.stores⟩
    apply hdone
    apply Grows.bump
    · apply Grows.allowed _ (by rw [DoOpts.store_cp]; omega)
      · intro hfits
        have := route_room hroom hbyte (hfour hfits)
        rw [InAddr.length_bytes, DoOpts.store_cp]
        omega
      · apply Grows.allowed hself (.inr rfl)
        exact fun _ => .inr ⟨rfl, Nat.le_refl _, by rw [InAddr.length_bytes]⟩
    · intro hfits
      have := hfour hfits
      omega

theorem recordRoute_grows (hroute : isRoute (s.mem s.cp)) (hlen : (s.mem (s.cp + 1)).toNat = optlen) :
    Grows (Allowed s optlen) s ((recordRoute h optlen s).elim id id) := by
  have hbyte : optlen < 256 := hlen ▸ byte_lt _
  have hself := Grows.refl (Allowed s optlen) s
  unfold recordRoute
  by_cases hmin : (s.mem (s.cp + 2)).toNat < ipoptMinoff
  · rw [if_pos hmin]
    exact hself.fail _ _
  rw [if_neg hmin]
  have hfour : Fits s.mem s.cp → 4 ≤ optlen := fun hfits => hlen ▸ hfits.route hroute (Nat.not_lt.mp hmin)
  by_cases hroom : roomless ((s.mem (s.cp + 2)).toNat - 1) optlen
  · rw [if_pos hroom]
    exact hself
  rw [if_neg hroom]
  dsimp only
  split
  · exact hself.fail _ _
  · apply Grows.bump
    · apply Grows.allowed hself (by omega)
      intro hfits
      have := route_room hroom hbyte (hfour hfits)
      rw [InAddr.length_bytes]
      omega
    · intro hfits
      have := hfour hfits
      omega

theorem stamp_grows {t : DoOpts} (ht : Grows (Allowed s optlen) s t) (hlen : Fits s.mem s.cp → 3 ≤ optlen)
    (hptr : Fits s.mem s.cp → 1 ≤ (t.mem (s.cp + 2)).toNat ∧ (t.mem (s.cp + 2)).toNat + 3 ≤ optlen) :
    Grows (Allowed s optlen) s (stamp h optlen t) := by
  unfold stamp
  apply Grows.bump
  · apply ht.allowed (by rw [ht.cp]; omega)
    intro hfits
    have := hptr hfits
    rw [ht.cp, InAddr.length_bytes]
    omega
  · exact hlen

theorem mem_bump {route : Bool} {t : DoOpts} {cp : Nat} (hcp : t.cp = cp) :
    (t.bump optlen route).mem (cp + 2) = t.mem (cp + 2) + 4 := by
  unfold DoOpts.bump DoOpts.store
  rw [← hcp]
  exact setBytes_of_mem (Nat.add_zero _).symm rfl

theorem toNat_add_four {b : Byte} (h : b.toNat + 4 < 256) : (b + 4).toNat = b.toNat + 4 := by
  rw [UInt8.toNat_add]
  exact Nat.mod_eq_of_lt h

theorem timestamp_grows (hts : s.mem s.cp = ipoptTs) (hlen : (s.mem (s.cp + 1)).toNat = optlen) :
    Grows (Allowed s optlen) s ((timestamp h optlen s).elim id id) := by
  have hbyte : optlen < 256 := hlen ▸ byte_lt _
  have hself := Grows.refl (Allowed s optlen) s
  unfold timestamp
  dsimp only
  rw [hlen]
  by_cases hfive : optlen < 5
  · rw [if_pos hfive]
    exact hself.fail _ _
  rw [if_neg hfive]
  by_cases hover : (s.mem (s.cp + 2)).toNat > optlen - 4
  · -- the overflow count
    rw [if_pos hover]
    have hoflw : Grows (Allowed s optlen) s (s.store optlen false (s.cp + 3) [s.mem (s.cp + 3) + 16]) := by
      apply hself.allowed (by omega)
      intro _
      simp only [List.length_singleton]
      omega
    split
    · exact hoflw.fail _ _
    · exact hoflw
  rw [if_neg hover]
  split
  next honly =>
    apply stamp_grows hself
    · omega
    · intro hfits
      have := hfits.time hts honly (by omega) (by omega)
      omega
  split
  next haddr =>
    split
    · exact hself.fail _ _
    split
    · exact hself
    · -- the address is behind the pointer, which goes on to the time
      next a _ =>
      have hat : Fits s.mem s.cp → 4 ≤ (s.mem (s.cp + 2)).toNat := fun hfits => hfits.address hts haddr (by omega)
      have hstored : Grows (Allowed s optlen) s (s.store optlen false (s.cp + (s.mem (s.cp + 2)).toNat - 1) a.bytes) := by
        apply hself.allowed (by omega)
        intro hfits
        have := hat hfits
        rw [InAddr.length_bytes]
        omega
      apply stamp_grows (hstored.bump _)
      · omega
      · intro hfits
        have := hat hfits
        have hptr : (s.store optlen false (s.cp + (s.mem (s.cp + 2)).toNat - 1) a.bytes).mem (s.cp + 2) = s.mem (s.cp + 2) :=
          setBytes_of_notMem (.inl (by omega))
        rw [mem_bump hstored.cp, hptr, toNat_add_four (by omega)]
        omega
      · omega
  split
  · split
    · exact hself.fail _ _
    split
    · exact hself
    · apply stamp_grows (Grows.bump hself _)
      · omega
      · intro _
        rw [mem_bump rfl, toNat_add_four (by omega)]
        omega
      · omega
  · exact hself.fail _ _

/-- What the turn for an option stores. -/
theorem optionSwitch_grows (hlen : (s.mem (s.cp + 1)).toNat = optlen) :
    Grows (Allowed s optlen) s ((optionSwitch h (s.mem s.cp) optlen s).elim id id) := by
  unfold optionSwitch
  split
  next hsource =>
    apply sourceRoute_grows _ hlen
    unfold isRoute
    tauto
  split
  next hrecord =>
    apply recordRoute_grows _ hlen
    unfold isRoute
    tauto
  split
  next hts => exact timestamp_grows hts hlen
  · exact Grows.refl _ _

theorem optionSwitch_route (hroute : isRoute (s.mem s.cp)) :
    optionSwitch h (s.mem s.cp) optlen s =
      if s.mem s.cp = ipoptRr then recordRoute h optlen s else sourceRoute h (s.mem s.cp) optlen s := by
  unfold optionSwitch
  obtain hopt | hopt | hopt : s.mem s.cp = ipoptLsrr ∨ s.mem s.cp = ipoptSsrr ∨ s.mem s.cp = ipoptRr := hroute <;>
    rw [hopt] <;> rfl

theorem optionSwitch_ts (hts : s.mem s.cp = ipoptTs) : optionSwitch h (s.mem s.cp) optlen s = timestamp h optlen s := by
  unfold optionSwitch
  rw [hts]
  rfl

/-- `++ipt->ipt_oflw` is 0 after 15. -/
theorem oflw_wraps (b : Byte) : (b + 16).toNat / 16 = 0 ↔ b.toNat / 16 = 15 := by
  have := byte_lt b
  rw [UInt8.toNat_add]
  change (b.toNat + 16) % 256 / 16 = 0 ↔ _
  omega

theorem mem_oflw : (s.store optlen false (s.cp + 3) [s.mem (s.cp + 3) + 16]).mem (s.cp + 3) = s.mem (s.cp + 3) + 16 :=
  setBytes_of_mem (Nat.add_zero _).symm rfl

theorem optionSwitch_rejected (hlen : (s.mem (s.cp + 1)).toNat = optlen) (hbad : Rejected s.mem s.cp) :
    ∃ t, optionSwitch h (s.mem s.cp) optlen s = .inr t := by
  rcases hbad with ⟨hroute, hptr⟩ | ⟨hts, hbad⟩
  · rw [optionSwitch_route hroute, recordRoute, sourceRoute, if_pos hptr, if_pos hptr, ite_self]
    exact ⟨_, rfl⟩
  rw [optionSwitch_ts hts, timestamp]
  dsimp only
  rw [hlen] at hbad ⊢
  by_cases hfive : optlen < 5
  · rw [if_pos hfive]
    exact ⟨_, rfl⟩
  rw [if_neg hfive]
  by_cases hover : (s.mem (s.cp + 2)).toNat > optlen - 4
  · rw [if_pos hover, mem_oflw, if_pos ((oflw_wraps _).mpr (by omega))]
    exact ⟨_, rfl⟩
  rw [if_neg hover]
  have honly : (s.mem (s.cp + 3)).toNat % 16 ≠ ipoptTsTsonly := by omega
  rw [if_neg honly]
  by_cases hroom : (s.mem (s.cp + 2)).toNat + 4 + 4 > optlen
  · rw [if_pos hroom, if_pos hroom]
    split
    · exact ⟨_, rfl⟩
    split
    · exact ⟨_, rfl⟩
    · exact ⟨_, rfl⟩
  · rw [if_neg (by omega), if_neg (by omega)]
    exact ⟨_, rfl⟩

end Turn

/-- A host that finds an interface for every address, always of one address. -/
def everywhere : Lookups where
  ifaIfwithaddr := fun _ => some 0xfbfbfbfb
  ifaIfwithdstaddr := fun _ => some 0xfbfbfbfb
  ifaIfwithnet := fun _ => some 0xfbfbfbfb
  ipRtaddr := fun _ => some 0xfbfbfbfb
  ifaofIfpforaddr := fun _ => some 0xfbfbfbfb
  iptime := 0

section Everywhere

variable {s : DoOpts} {optlen : Nat}

theorem everywhere_known (a : InAddr) : everywhere.ifaIfwithaddr a ≠ none := Option.some_ne_none _

theorem sourceRoute_everywhere {opt : Byte} (hmin : ¬(s.mem (s.cp + 2)).toNat < ipoptMinoff) :
    ∃ t, sourceRoute everywhere opt optlen s = .inl t := by
  rw [sourceRoute, if_neg hmin, if_neg (everywhere_known _)]
  split
  · exact ⟨_, rfl⟩
  · unfold everywhere
    dsimp only
    rw [Option.some_or, ite_self]
    exact ⟨_, rfl⟩

theorem recordRoute_everywhere (hmin : ¬(s.mem (s.cp + 2)).toNat < ipoptMinoff) :
    ∃ t, recordRoute everywhere optlen s = .inl t := by
  rw [recordRoute, if_neg hmin]
  split
  · exact ⟨_, rfl⟩
  · exact ⟨_, rfl⟩

theorem optionSwitch_goes_on (hlen : (s.mem (s.cp + 1)).toNat = optlen) (hbad : ¬Rejected s.mem s.cp) :
    ∃ t, optionSwitch everywhere (s.mem s.cp) optlen s = .inl t := by
  by_cases hroute : isRoute (s.mem s.cp)
  · have hmin : ¬(s.mem (s.cp + 2)).toNat < ipoptMinoff := fun hmin => hbad (.inl ⟨hroute, hmin⟩)
    rw [optionSwitch_route hroute]
    split
    · exact recordRoute_everywhere hmin
    · exact sourceRoute_everywhere hmin
  by_cases hts : s.mem s.cp = ipoptTs
  · rw [optionSwitch_ts hts, timestamp]
    dsimp only
    have hgood : ¬(_ ∨ _) := fun h => hbad (.inr ⟨hts, h⟩)
    rw [hlen] at hgood ⊢
    rw [if_neg (by omega)]
    split
    · rw [mem_oflw, if_neg (by rw [oflw_wraps]; omega)]
      exact ⟨_, rfl⟩
    split
    · exact ⟨_, rfl⟩
    split
    · rw [if_neg (by omega)]
      exact ⟨_, rfl⟩
    rw [if_pos (by omega), if_neg (by omega)]
    exact ⟨_, rfl⟩
  · refine ⟨s, ?_⟩
    unfold isRoute at hroute
    rw [optionSwitch, if_neg (by tauto), if_neg (by tauto), if_neg hts]

/-- A route with no room at all looks like one with room everywhere. -/
theorem sourceRoute_outside {opt : Byte} (hcp : 20 ≤ s.cp) (hmin : ¬(s.mem (s.cp + 2)).toNat < ipoptMinoff) (hlen : optlen < 4) :
    ∃ t w, sourceRoute everywhere opt optlen s = .inl t ∧ w ∈ t.stores ∧ ¬w.Inside := by
  have hbyte := byte_lt (s.mem (s.cp + 2))
  have hroom : ¬roomless ((s.mem (s.cp + 2)).toNat - 1) optlen := by
    rw [roomless_iff (by omega) (by omega)]
    omega
  rw [sourceRoute, if_neg hmin, if_neg (everywhere_known _), if_neg hroom]
  unfold everywhere
  dsimp only
  rw [Option.some_or, ite_self]
  refine ⟨_, ⟨s.cp, optlen, true, s.cp + ((s.mem (s.cp + 2)).toNat - 1), 4⟩, rfl, ?_, ?_⟩
  · simp [DoOpts.store, DoOpts.bump, InAddr.length_bytes]
  · unfold Store.Inside
    dsimp only
    omega

theorem recordRoute_outside (hcp : 20 ≤ s.cp) (hmin : ¬(s.mem (s.cp + 2)).toNat < ipoptMinoff) (hlen : optlen < 4) :
    ∃ t w, recordRoute everywhere optlen s = .inl t ∧ w ∈ t.stores ∧ ¬w.Inside := by
  have hbyte := byte_lt (s.mem (s.cp + 2))
  have hroom : ¬roomless ((s.mem (s.cp + 2)).toNat - 1) optlen := by
    rw [roomless_iff (by omega) (by omega)]
    omega
  rw [recordRoute, if_neg hmin, if_neg hroom]
  refine ⟨_, ⟨s.cp, optlen, false, s.cp + ((s.mem (s.cp + 2)).toNat - 1), 4⟩, rfl, ?_, ?_⟩
  · simp [DoOpts.store, DoOpts.bump, InAddr.length_bytes]
  · unfold Store.Inside
    dsimp only
    omega

theorem stamp_outside {h : Lookups} {cp : Nat} (hcp : s.cp = cp) (hpos : 0 < cp)
    (hptr : (s.mem (cp + 2)).toNat = 0 ∨ optlen < (s.mem (cp + 2)).toNat + 3) :
    ∃ w ∈ (stamp h optlen s).stores, ¬w.Inside := by
  subst hcp
  refine ⟨⟨s.cp, optlen, false, s.cp + (s.mem (s.cp + 2)).toNat - 1, 4⟩, ?_, ?_⟩
  · simp [stamp, DoOpts.store, DoOpts.bump, InAddr.length_bytes]
  · unfold Store.Inside
    simp only [Bool.false_eq_true, false_and, or_false]
    omega

/-- An address over the pointer makes it point behind every option. -/
theorem stamp_address_outside {h : Lookups} (hpos : 0 < s.cp) (hptr : (s.mem (s.cp + 2)).toNat < 4) (hlen : optlen < 256) :
    ∃ w ∈ (stamp h optlen ((s.store optlen false (s.cp + (s.mem (s.cp + 2)).toNat - 1)
      (InAddr.bytes 0xfbfbfbfb)).bump optlen false)).stores, ¬w.Inside := by
  have hbytes : ∀ k < 4, (InAddr.bytes 0xfbfbfbfb)[k]? = some 251 := by decide
  have hover : (s.store optlen false (s.cp + (s.mem (s.cp + 2)).toNat - 1) (InAddr.bytes 0xfbfbfbfb)).mem (s.cp + 2) = 251 := by
    apply @setBytes_of_mem s.mem _ _ (3 - (s.mem (s.cp + 2)).toNat)
    · omega
    · exact hbytes _ (by omega)
  refine stamp_outside ?_ hpos (.inr ?_)
  · rfl
  · rw [mem_bump (DoOpts.store_cp ..), hover]
    exact Nat.lt_trans hlen (by decide)

theorem optionSwitch_outside (hcp : 20 ≤ s.cp) (hlen : (s.mem (s.cp + 1)).toNat = optlen) (hfits : ¬Fits s.mem s.cp) :
    ∃ t w, optionSwitch everywhere (s.mem s.cp) optlen s = .inl t ∧ w ∈ t.stores ∧ ¬w.Inside := by
  by_contra hnone
  apply hfits
  have hbyte : optlen < 256 := hlen ▸ byte_lt _
  refine ⟨fun hroute hmin => ?_, fun hts hflg hfive hroom => ?_, fun hts hflg hroom => ?_⟩
  · by_contra hshort
    rw [hlen, Nat.not_le] at hshort
    apply hnone
    rw [optionSwitch_route hroute]
    split
    · exact recordRoute_outside hcp (Nat.not_lt.mpr hmin) hshort
    · exact sourceRoute_outside hcp (Nat.not_lt.mpr hmin) hshort
  · by_contra hzero
    apply hnone
    rw [hlen] at hfive hroom
    rw [optionSwitch_ts hts, timestamp]
    dsimp only
    rw [hlen, if_neg (by omega), if_neg (by omega), if_pos hflg]
    obtain ⟨w, hw, hout⟩ := @stamp_outside s optlen everywhere _ rfl (by omega) (.inl (by omega))
    exact ⟨_, w, rfl, hw, hout⟩
  · by_contra hshort
    apply hnone
    rw [hlen] at hroom
    rw [optionSwitch_ts hts, timestamp]
    dsimp only
    rw [hlen, if_neg (by omega), if_neg (by omega), if_neg (by rw [hflg]; decide), if_pos hflg, if_neg (by omega)]
    obtain ⟨w, hw, hout⟩ := @stamp_address_outside s optlen everywhere (by omega) (Nat.not_le.mp hshort) hbyte
    exact ⟨_, w, rfl, hw, hout⟩

end Everywhere

/-! ### The loop -/

section Loop

variable {h : Lookups} {mem mem' : Nat → Byte} {s : DoOpts}

theorem Fits.congr {cp : Nat} (hsame : ∀ i, cp ≤ i → mem i = mem' i) (hfits : Fits mem cp) : Fits mem' cp := by
  constructor
  · simpa only [hsame _ (Nat.le_refl _), hsame _ (Nat.le_add_right cp _)] using hfits.route
  · simpa only [hsame _ (Nat.le_refl _), hsame _ (Nat.le_add_right cp _)] using hfits.time
  · simpa only [hsame _ (Nat.le_refl _), hsame _ (Nat.le_add_right cp _)] using hfits.address

theorem Rejected.congr {cp : Nat} (hsame : ∀ i, cp ≤ i → mem i = mem' i) (hbad : Rejected mem cp) : Rejected mem' cp := by
  unfold Rejected at *
  simpa only [hsame _ (Nat.le_refl _), hsame _ (Nat.le_add_right cp _)] using hbad

theorem Roomy.congr {cp : Nat} {cnt : Int} (hroomy : Roomy mem cp cnt) (hsame : ∀ i, cp ≤ i → mem i = mem' i) :
    Roomy mem' cp cnt := by
  induction hroomy with
  | ends hcnt => exact .ends hcnt
  | eol heol => exact .eol (hsame _ (Nat.le_refl _) ▸ heol)
  | nop hnop _ ih =>
    exact .nop (hsame _ (Nat.le_refl _) ▸ hnop) (ih fun i hi => hsame i (Nat.le_of_succ_le hi))
  | badLength heol hnop hlen =>
    rw [hsame _ (Nat.le_refl _)] at heol hnop
    rw [hsame _ (Nat.le_add_right _ _)] at hlen
    exact .badLength heol hnop hlen
  | rejected heol hnop hbad =>
    rw [hsame _ (Nat.le_refl _)] at heol hnop
    exact .rejected heol hnop (hbad.congr hsame)
  | option heol hnop hfits _ ih =>
    rw [hsame _ (Nat.le_refl _)] at heol hnop
    rw [hsame _ (Nat.le_add_right _ _)] at ih
    exact .option heol hnop (hfits.congr hsame) (ih fun i hi => hsame i (Nat.le_of_add_right_le hi))

theorem Grows.inside {optlen : Nat} {t : DoOpts} (ht : Grows (Allowed s optlen) s t) (hfits : Fits s.mem s.cp)
    (hall : ∀ w ∈ s.stores, w.Inside) : ∀ w ∈ t.stores, w.Inside := by
  obtain ⟨new, hnew, hallowed, _⟩ := ht.stores
  rw [hnew, List.forall_mem_append]
  exact ⟨hall, fun w hw => (hallowed w hw).2.2.2 hfits⟩

theorem Grows.behind {optlen : Nat} {t : DoOpts} (ht : Grows (Allowed s optlen) s t) (hfits : Fits s.mem s.cp)
    (hcp : 20 ≤ s.cp) : ∀ i, s.cp + optlen ≤ i → s.mem i = t.mem i := by
  intro i hi
  obtain ⟨new, _, hallowed, hmem⟩ := ht.stores
  by_contra hne
  obtain ⟨w, hw, hle, hlt⟩ := hmem i (Ne.symm hne)
  obtain ⟨hwcp, hwlen, -, hin⟩ := hallowed w hw
  have := hin hfits
  unfold Store.Inside at this
  omega

theorem optionTurn_over (hcnt : ¬s.cnt > 0) : optionTurn h s = .inr s := by
  rw [optionTurn, if_neg hcnt]

theorem optionTurn_eol (heol : s.mem s.cp = ipoptEol) : optionTurn h s = .inr s := by
  rw [optionTurn, if_pos heol, ite_self]

theorem optionTurn_nop (hcnt : s.cnt > 0) (hnop : s.mem s.cp = ipoptNop) : optionTurn h s = .inl (s.advance 1) := by
  rw [optionTurn, if_pos hcnt, if_neg (by rw [hnop]; decide), if_pos hnop]

theorem optionTurn_badLength (hcnt : s.cnt > 0) (heol : s.mem s.cp ≠ ipoptEol) (hnop : s.mem s.cp ≠ ipoptNop)
    (hlen : (s.mem (s.cp + 1)).toNat = 0 ∨ (s.mem (s.cp + 1)).toNat > s.cnt) :
    optionTurn h s = .inr (s.fail icmpParamprob (s.cp + 1)) := by
  rw [optionTurn, if_pos hcnt, if_neg heol, if_neg hnop, if_pos hlen]

theorem optionTurn_option (hcnt : s.cnt > 0) (heol : s.mem s.cp ≠ ipoptEol) (hnop : s.mem s.cp ≠ ipoptNop)
    (hlen : ¬((s.mem (s.cp + 1)).toNat = 0 ∨ (s.mem (s.cp + 1)).toNat > s.cnt)) :
    optionTurn h s = (optionSwitch h (s.mem s.cp) (s.mem (s.cp + 1)).toNat s).map
      (·.advance (s.mem (s.cp + 1)).toNat) id := by
  rw [optionTurn, if_pos hcnt, if_neg heol, if_neg hnop, if_neg hlen]

/-- What a turn does: it ends the loop or goes on behind the option, and it has stored what the option allows. -/
theorem optionTurn_cases (h : Lookups) (s : DoOpts) :
    (∃ t, optionTurn h s = .inr t ∧ Grows (Allowed s (s.mem (s.cp + 1)).toNat) s t) ∨
      ∃ t, ∃ n : Nat, optionTurn h s = .inl (t.advance n) ∧ 0 < n ∧ n ≤ s.cnt ∧ Grows (Allowed s (s.mem (s.cp + 1)).toNat) s t := by
  have hself := Grows.refl (Allowed s (s.mem (s.cp + 1)).toNat) s
  by_cases hcnt : s.cnt > 0
  · by_cases heol : s.mem s.cp = ipoptEol
    · exact .inl ⟨s, optionTurn_eol heol, hself⟩
    by_cases hnop : s.mem s.cp = ipoptNop
    · exact .inr ⟨s, 1, optionTurn_nop hcnt hnop, Nat.one_pos, hcnt, hself⟩
    by_cases hlen : (s.mem (s.cp + 1)).toNat = 0 ∨ (s.mem (s.cp + 1)).toNat > s.cnt
    · exact .inl ⟨_, optionTurn_badLength hcnt heol hnop hlen, hself.fail _ _⟩
    have hturn := @optionTurn_option h s hcnt heol hnop hlen
    have hgrows := @optionSwitch_grows h s _ rfl
    cases hswitch : optionSwitch h (s.mem s.cp) (s.mem (s.cp + 1)).toNat s with
    | inl t =>
      rw [hswitch] at hturn hgrows
      exact .inr ⟨t, _, hturn, by omega, by omega, hgrows⟩
    | inr t =>
      rw [hswitch] at hturn hgrows
      exact .inl ⟨t, hturn, hgrows⟩
  · exact .inl ⟨s, optionTurn_over hcnt, hself⟩

theorem optionTurn_log (h : Lookups) (s : DoOpts) : s.stores <+: (Machine.landing (optionTurn h) s).stores := by
  unfold Machine.landing
  rcases optionTurn_cases h s with ⟨t, hturn, hgrows⟩ | ⟨t, n, hturn, -, -, hgrows⟩
  · obtain ⟨new, hnew, -⟩ := hgrows.stores
    rw [hturn]
    exact ⟨new, hnew.symm⟩
  · obtain ⟨new, hnew, -⟩ := hgrows.stores
    rw [hturn]
    exact ⟨new, hnew.symm⟩

theorem Grows.before {optlen : Nat} {t : DoOpts} (ht : Grows (Allowed s optlen) s t) (hcp : 20 ≤ s.cp) {i : Nat} (hi : i < 16) :
    t.mem i = s.mem i := by
  obtain ⟨new, -, hallowed, hmem⟩ := ht.stores
  by_contra hne
  obtain ⟨w, hw, hle, -⟩ := hmem i hne
  have := (hallowed w hw).2.2.1
  omega

/-- The loop ends, and the header before the destination is what it was. -/
theorem optionTurn_ends (h : Lookups) (n : Nat) {s : DoOpts} (hn : s.cnt.toNat < n) (hcp : 20 ≤ s.cp) :
    ∃ t, Machine.runFor (optionTurn h) n s = .inr t ∧ ∀ i < 16, t.mem i = s.mem i := by
  induction n generalizing s with
  | zero => omega
  | succ n ih =>
    rcases optionTurn_cases h s with ⟨t, hturn, hgrows⟩ | ⟨t, k, hturn, hpos, hle, hgrows⟩
    · exact ⟨t, Machine.runFor_stop hturn n, fun i hi => hgrows.before hcp hi⟩
    · have hcnt := hgrows.cnt
      have hcp' := hgrows.cp
      obtain ⟨u, hrun, hfront⟩ := @ih (t.advance k) (by change (t.cnt - k).toNat < n; omega) (by change 20 ≤ t.cp + k; omega)
      refine ⟨u, (Machine.runFor_next hturn n).trans hrun, fun i hi => ?_⟩
      rw [hfront i hi]
      exact hgrows.before hcp hi

theorem Roomy.of_nop {cp : Nat} {cnt : Int} (hroomy : Roomy mem cp cnt) (hcnt : cnt > 0) (hnop : mem cp = ipoptNop) :
    Roomy mem (cp + 1) (cnt - 1) := by
  cases hroomy with
  | ends hover => omega
  | eol heol => exact absurd (hnop.symm.trans heol) (by decide)
  | nop _ hrest => exact hrest
  | badLength _ hne | rejected _ hne | option _ hne => exact absurd hnop hne

theorem Roomy.of_option {cp : Nat} {cnt : Int} (hroomy : Roomy mem cp cnt) (hcnt : cnt > 0) (heol : mem cp ≠ ipoptEol)
    (hnop : mem cp ≠ ipoptNop) (hlen : ¬((mem (cp + 1)).toNat = 0 ∨ (mem (cp + 1)).toNat > cnt)) :
    Fits mem cp ∧ (Rejected mem cp ∨ Roomy mem (cp + (mem (cp + 1)).toNat) (cnt - (mem (cp + 1)).toNat)) := by
  cases hroomy with
  | ends hover => omega
  | eol h => exact absurd h heol
  | nop h => exact absurd h hnop
  | badLength _ _ h => exact absurd h hlen
  | rejected _ _ hbad => exact ⟨hbad.fits, .inl hbad⟩
  | option _ _ hfits hrest => exact ⟨hfits, .inr hrest⟩

/-- With room for all that is stored the loop ends, and every store has been inside its option. -/
theorem inside_of_roomy (n : Nat) {s : DoOpts} (hn : s.cnt.toNat < n) (hcp : 20 ≤ s.cp) (hroomy : Roomy s.mem s.cp s.cnt)
    (hall : ∀ w ∈ s.stores, w.Inside) :
    ∃ t, Machine.runFor (optionTurn h) n s = .inr t ∧ ∀ w ∈ t.stores, w.Inside := by
  induction n generalizing s with
  | zero => omega
  | succ n ih =>
    by_cases hcnt : s.cnt > 0
    · by_cases heol : s.mem s.cp = ipoptEol
      · exact ⟨s, Machine.runFor_stop (optionTurn_eol heol) n, hall⟩
      by_cases hnop : s.mem s.cp = ipoptNop
      · rw [Machine.runFor_next (optionTurn_nop hcnt hnop)]
        apply @ih (s.advance 1) _ (Nat.le_succ_of_le hcp) (hroomy.of_nop hcnt hnop) hall
        change (s.cnt - 1).toNat < n
        omega
      by_cases hlen : (s.mem (s.cp + 1)).toNat = 0 ∨ (s.mem (s.cp + 1)).toNat > s.cnt
      · exact ⟨_, Machine.runFor_stop (optionTurn_badLength hcnt heol hnop hlen) n, hall⟩
      have hturn := @optionTurn_option h s hcnt heol hnop hlen
      have hgrows := @optionSwitch_grows h s _ rfl
      obtain ⟨hfits, hrest⟩ := hroomy.of_option hcnt heol hnop hlen
      cases hswitch : optionSwitch h (s.mem s.cp) (s.mem (s.cp + 1)).toNat s with
      | inr t =>
        rw [hswitch] at hturn hgrows
        exact ⟨t, Machine.runFor_stop hturn n, hgrows.inside hfits hall⟩
      | inl t =>
        have hgood : ¬Rejected s.mem s.cp := fun hbad => by
          obtain ⟨t', ht'⟩ := @optionSwitch_rejected h s _ rfl hbad
          rw [hswitch] at ht'
          cases ht'
        have hrest := hrest.resolve_left hgood
        rw [hswitch] at hturn hgrows
        rw [Machine.runFor_next hturn]
        have hcp' : t.cp = s.cp := hgrows.cp
        have hcnt' : t.cnt = s.cnt := hgrows.cnt
        apply @ih (t.advance _)
        · change (t.cnt - _).toNat < n
          omega
        · change 20 ≤ t.cp + _
          omega
        · change Roomy t.mem (t.cp + _) (t.cnt - _)
          rw [hcp', hcnt']
          exact hrest.congr (hgrows.behind hfits hcp)
        · exact hgrows.inside hfits hall
    · exact ⟨s, Machine.runFor_stop (optionTurn_over hcnt) n, hall⟩

/-- On the host that finds every address, an option without room is stored outside of. -/
theorem roomy_of_inside (n : Nat) {s t : DoOpts} (hrun : Machine.runFor (optionTurn everywhere) n s = .inr t) (hcp : 20 ≤ s.cp)
    (hall : ∀ w ∈ t.stores, w.Inside) : Roomy s.mem s.cp s.cnt := by
  induction n generalizing s with
  | zero => cases hrun
  | succ n ih =>
    by_cases hcnt : s.cnt > 0
    · by_cases heol : s.mem s.cp = ipoptEol
      · exact .eol heol
      by_cases hnop : s.mem s.cp = ipoptNop
      · rw [Machine.runFor_next (optionTurn_nop hcnt hnop)] at hrun
        exact .nop hnop (ih hrun (Nat.le_succ_of_le hcp))
      by_cases hlen : (s.mem (s.cp + 1)).toNat = 0 ∨ (s.mem (s.cp + 1)).toNat > s.cnt
      · exact .badLength heol hnop hlen
      have hturn := @optionTurn_option everywhere s hcnt heol hnop hlen
      by_cases hfits : Fits s.mem s.cp
      · by_cases hbad : Rejected s.mem s.cp
        · exact .rejected heol hnop hbad
        obtain ⟨u, hswitch⟩ := @optionSwitch_goes_on s _ rfl hbad
        have hgrows := @optionSwitch_grows everywhere s _ rfl
        rw [hswitch] at hturn hgrows
        rw [Machine.runFor_next hturn] at hrun
        have hcp' : u.cp = s.cp := hgrows.cp
        have hcnt' : u.cnt = s.cnt := hgrows.cnt
        have hrest : Roomy u.mem (u.cp + _) (u.cnt - _) := ih hrun (by change 20 ≤ u.cp + _; omega)
        rw [hcp', hcnt'] at hrest
        exact .option heol hnop hfits (hrest.congr fun i hi => (hgrows.behind hfits hcp i hi).symm)
      · obtain ⟨u, w, hswitch, hw, hout⟩ := @optionSwitch_outside s _ hcp rfl hfits
        rw [hswitch] at hturn
        rw [Machine.runFor_next hturn] at hrun
        have hlog := Machine.runFor_log (optionTurn_log everywhere) hrun
        exact absurd (hall w (hlog.subset hw)) hout
    · exact .ends (Int.not_lt.mp hcnt)

end Loop

theorem ipDooptions_ends (h : Lookups) (mem : Nat → Byte) (hl : Nat) :
    ∃ t, ipDooptions h mem hl = .inr t ∧ ∀ i < 16, t.mem i = mem i :=
  optionTurn_ends h _ (by dsimp only; omega) (Nat.le_refl _)

/-- `ip_dooptions` ends and stores only inside the options, whatever the host knows of addresses, exactly if the options that it comes to have room. -/
theorem ipDooptions_inside_iff (mem : Nat → Byte) (hl : Nat) :
    (∀ h, ∃ t, ipDooptions h mem hl = .inr t ∧ ∀ w ∈ t.stores, w.Inside) ↔ Roomy mem 20 ((hl * 4 : Nat) - 20) := by
  constructor
  · intro hinside
    obtain ⟨t, hrun, hall⟩ := hinside everywhere
    exact roomy_of_inside _ hrun (Nat.le_refl _) hall
  · intro hroomy h
    apply inside_of_roomy _ _ (Nat.le_refl _) hroomy
    · exact fun w hw => absurd hw List.not_mem_nil
    · dsimp only
      omega

/-- A record route option of three bytes that points behind them. -/
def shortRecordRoute (i : Nat) : Byte :=
  if i = 20 then ipoptRr else if i = 21 then 3 else if i = 22 then 4 else 0

theorem ipDooptions_stores_behind :
    ∃ t w, ipDooptions everywhere shortRecordRoute 6 = .inr t ∧ w ∈ t.stores ∧
      w.cp = 20 ∧ w.optlen = 3 ∧ w.pos = 23 ∧ w.n = 4 ∧ ¬w.Inside := by
  refine ⟨_, ⟨20, 3, false, 23, 4⟩, rfl, ?_⟩
  decide

end Reading.Ip
