import Reading.Lib.Intervals
import Reading.Ip.Reass

/-!
# Overlapping fragments

The fragments of one datagram, with any offsets and lengths. `ip_reass` keeps an offset in bytes as a `short`, so that from 32768 on it is 65536 too low, and so is the sum where a cut moves an offset beyond 32767. Here each fragment has its true place beside it.
-/

namespace Reading.Ip

open Reading.Lib.Interval

/-- The interval of a fragment, as `ip_reass` reads it from the header. -/
def fragOps : Ops Frag := ⟨Frag.ipOff, Frag.ipLen, Frag.trimHead⟩

theorem insertFrag_eq (frags : List Frag) (f : Frag) : insertFrag frags f = fragOps.insert frags f := by
  have hsucc (f : Frag) (frags : List Frag) : trimSucc f frags = fragOps.trimSucc f frags := by
    induction frags with
    | nil => rfl
    | cons q qs ih =>
      rw [trimSucc, Ops.trimSucc, ih]
      rfl
  have hprev (prev? : Option Frag) : trimByPrev prev? f = fragOps.trimByPrev prev? f := by cases prev? <;> rfl
  unfold insertFrag Ops.insert
  simp only [hprev, hsucc]
  rfl

theorem contiguous_eq (next : Int) (frags : List Frag) : contiguous next frags = fragOps.contiguous next frags := by
  induction frags generalizing next with
  | nil => rfl
  | cons q qs ih =>
    rw [contiguous, Ops.contiguous, ih]
    rfl

/-- A fragment with the place of its first byte in the datagram, which the code does not have. -/
structure Placed where
  frag : Frag
  start : Int

namespace Placed

/-- The interval by the header; a cut moves the true place too. -/
def ops : Ops Placed := ⟨fun q => q.frag.ipOff, fun q => q.frag.ipLen, fun q i => ⟨q.frag.trimHead i, q.start + i⟩⟩

theorem hom : Hom ops fragOps Placed.frag where
  off _ := rfl
  len _ := rfl
  trim _ _ := rfl

/-- How much the offset in the header is too low. -/
def lack (q : Placed) : Int := q.start - q.frag.ipOff

/-- A packet at `ip_reass`: its place is 8 times the offset field. -/
def ofPacket (p : Packet) : Placed := ⟨p.asFrag, 8 * (p.ip.ipOff.toNat % 8192 : Nat)⟩

end Placed

/-! ### Cuts -/

theorem toInt_add_ofInt {x : U16} {i : Int} (hlow : -32768 ≤ x.toInt + i) (hhigh : x.toInt + i ≤ 32767) :
    (x + BitVec.ofInt 16 i).toInt = x.toInt + i := by
  rw [BitVec.toInt_add, BitVec.toInt_ofInt, Int.add_bmod_bmod]
  exact Int.bmod_eq_of_le (by omega) (by omega)

theorem toInt_sub_ofInt {x : U16} {i : Int} (hlow : -32768 ≤ x.toInt - i) (hhigh : x.toInt - i ≤ 32767) :
    (x - BitVec.ofInt 16 i).toInt = x.toInt - i := by
  rw [BitVec.toInt_sub, BitVec.toInt_ofInt, Int.sub_bmod_bmod]
  exact Int.bmod_eq_of_le (by omega) (by omega)

theorem toInt_range (x : U16) : -32768 ≤ x.toInt ∧ x.toInt ≤ 32767 :=
  ⟨x.le_toInt, Int.le_of_lt_add_one x.toInt_lt⟩

namespace Placed

variable {q f : Placed} {qs qs' : List Placed}

/-- A cut is what it says unless the place behind it is too high for a `short`. -/
theorem exact_of_le {i : Int} (hpos : 0 < i) (hlt : i < q.frag.ipLen) (hfits : q.frag.ipOff + i ≤ 32767) : ops.Exact q i := by
  have hoff := toInt_range q.frag.ip.ipOff
  have hlen := toInt_range q.frag.ip.ipLen
  unfold Frag.ipOff Frag.ipLen at *
  exact ⟨toInt_add_ofInt (by omega) (by omega), toInt_sub_ofInt (by omega) (by omega)⟩

theorem lack_trim {i : Int} (h : ops.Exact q i) : (ops.trim q i).lack = q.lack := by
  have hoff : (ops.trim q i).frag.ipOff = q.frag.ipOff + i := h.1
  unfold lack
  rw [hoff]
  change q.start + i - _ = _
  omega

/-- The offset in the header is right below 32768, and negative from there on. -/
theorem ofPacket_first (p : Packet) : (ofPacket p).lack = 0 ∨ (ofPacket p).frag.ipOff < 0 := by
  have hshift : (p.ip.ipOff <<< 3).toNat = 8 * (p.ip.ipOff.toNat % 8192) := by
    rw [BitVec.toNat_shiftLeft, Nat.shiftLeft_eq]
    omega
  have hoff : (ofPacket p).frag.ipOff = (p.ip.ipOff <<< 3).toInt := rfl
  have hstart : (ofPacket p).start = 8 * (p.ip.ipOff.toNat % 8192 : Nat) := rfl
  rw [lack, hoff, hstart, BitVec.toInt_eq_toNat_cond, hshift]
  split <;> omega

end Placed

/-! ### What the queue is to be -/

/-- The fragments are in the order of their true places, and none overlaps another. -/
def InOrder (qs : List Placed) : Prop := qs.Pairwise fun a b => a.start < b.start ∧ a.start + a.frag.ipLen ≤ b.start

/-- The fragments cover the places below `n` without a gap, and the last is the last of the datagram. -/
structure Gapless (qs : List Placed) (n : Int) : Prop where
  inside : ∀ q ∈ qs, 0 ≤ q.start ∧ q.start + q.frag.ipLen ≤ n
  covered : ∀ x, 0 ≤ x → x < n → ∃ q ∈ qs, q.start ≤ x ∧ x < q.start + q.frag.ipLen
  last : ∃ q, qs.getLast? = some q ∧ ¬q.frag.mff

def ipMaxpacket : Int := 65535

/-- What `ip_reass` makes of the fragments it holds and another one, with their places. -/
def collect (κ : Key) (room : Bool) (qs : List Placed) (f : Placed) : List Placed × Option Packet :=
  if qs = [] ∧ room = false then (qs, none)
  else
    match Placed.ops.insert qs f with
    | none => (qs, none)
    | some all =>
      match concatFrags { toKey := κ, ipqNext := all.map Placed.frag } with
      | none => (all, none)
      | some d => ([], some d)

theorem absorb_eq (κ : Key) (qs : List Placed) (f : Placed) : absorb κ (qs.map Placed.frag) f.frag =
    ((collect κ true qs f).1.map Placed.frag, (collect κ true qs f).2) := by
  unfold absorb collect
  rw [if_neg (by simp), insertFrag_eq, ← Placed.hom.insert]
  cases Placed.ops.insert qs f with
  | none => rfl
  | some all =>
    simp only [Option.map_some]
    cases concatFrags { toKey := κ, ipqNext := all.map Placed.frag } <;> rfl

theorem ipReass_collect {κ : Key} {ipq : List Ipq} {qs : List Placed} {f : Placed} (room : Bool) (hheld : Held κ ipq (qs.map Placed.frag))
    (hkey : f.frag.ip.key = κ) :
    Held κ (ipReass room ipq f.frag (ipq.find? fun fp => fp.toKey = κ)).1 ((collect κ room qs f).1.map Placed.frag) ∧
      (ipReass room ipq f.frag (ipq.find? fun fp => fp.toKey = κ)).2 = (collect κ room qs f).2 := by
  by_cases hnone : qs = [] ∧ room = false
  · obtain ⟨rfl, rfl⟩ := hnone
    rw [hheld.find?]
    exact ⟨hheld, rfl⟩
  · have hroom : ipReass room ipq f.frag (ipq.find? fun fp => fp.toKey = κ) =
        ipReass true ipq f.frag (ipq.find? fun fp => fp.toKey = κ) := by
      cases room with
      | true => rfl
      | false =>
        rw [hheld.find?, if_neg fun hnil => hnone ⟨List.map_eq_nil_iff.mp hnil, rfl⟩]
        rfl
    have hcollect : collect κ room qs f = collect κ true qs f := by
      rw [collect, if_neg hnone, collect, if_neg (by simp)]
    rw [hroom, hcollect]
    have habsorb := ipReass_held hheld hkey
    rwa [absorb_eq] at habsorb

/-! ### Runs in which no offset is wrong -/

/-- The fragment may be put into the queue: its offset in the header is as wrong as those of the queue, the cuts that are made keep offsets in the range of a `short`, no empty fragment is at its place, and if it is the last of the datagram it ends in the range. -/
structure Steady (qs : List Placed) (f : Placed) : Prop where
  side : ∀ q ∈ qs, q.lack = f.lack
  front : ∀ q ∈ qs, q.frag.ipOff ≤ f.frag.ipOff → f.frag.ipOff < Placed.ops.stop q → Placed.ops.stop q < Placed.ops.stop f →
    Placed.ops.stop q ≤ 32767
  back : ∀ q ∈ qs, f.frag.ipOff < q.frag.ipOff → q.frag.ipOff < Placed.ops.stop f → Placed.ops.stop f < Placed.ops.stop q →
    Placed.ops.stop f ≤ 32767
  apart : ∀ q ∈ qs, q.frag.ipOff = f.frag.ipOff → 0 < q.frag.ipLen
  total : ¬f.frag.mff → Placed.ops.stop f ≤ 32767

/-- What a queue keeps. -/
structure Sound (qs : List Placed) : Prop where
  ordered : Placed.ops.Ordered qs
  len : ∀ q ∈ qs, 0 ≤ q.frag.ipLen
  lack : ∀ q ∈ qs, ∀ r ∈ qs, q.lack = r.lack
  first : ∀ q ∈ qs.head?, q.lack = 0 ∨ q.frag.ipOff < 0
  total : ∀ q ∈ qs, ¬q.frag.mff → Placed.ops.stop q ≤ 32767

theorem sound_nil : Sound [] := ⟨List.Pairwise.nil, nofun, nofun, nofun, nofun⟩

variable {κ : Key} {qs all : List Placed} {f : Placed}

theorem Sound.inOrder (h : Sound qs) : InOrder qs := by
  refine h.ordered.imp_of_mem fun {a b} ha hb hab => ?_
  have hlack := h.lack a ha b hb
  obtain ⟨hoff, hstop⟩ := hab
  change a.frag.ipOff < b.frag.ipOff at hoff
  change a.frag.ipOff + a.frag.ipLen ≤ b.frag.ipOff at hstop
  unfold Placed.lack at hlack
  constructor <;> omega

theorem Steady.exact_front (h : Steady qs f) {q : Placed} (hq : q ∈ qs) (hle : q.frag.ipOff ≤ f.frag.ipOff)
    (hlt : f.frag.ipOff < Placed.ops.stop q) (hcut : Placed.ops.stop q < Placed.ops.stop f) :
    Placed.ops.Exact f (Placed.ops.stop q - f.frag.ipOff) := by
  have hfits := h.front q hq hle hlt hcut
  change _ < f.frag.ipOff + f.frag.ipLen at hcut
  exact Placed.exact_of_le (by omega) (by omega) (by omega)

theorem Steady.exact_back (h : Steady qs f) {q : Placed} (hq : q ∈ qs) (hlt : f.frag.ipOff < q.frag.ipOff)
    (hover : q.frag.ipOff < Placed.ops.stop f) (hcut : Placed.ops.stop f < Placed.ops.stop q) :
    Placed.ops.Exact q (Placed.ops.stop f - q.frag.ipOff) := by
  have hfits := h.back q hq hlt hover hcut
  change _ < q.frag.ipOff + q.frag.ipLen at hcut
  exact Placed.exact_of_le (by omega) (by omega) (by omega)

theorem Sound.insert (h : Sound qs) (hsteady : Steady qs f) (hlen : 0 ≤ f.frag.ipLen) (hfirst : f.lack = 0 ∨ f.frag.ipOff < 0)
    (hins : Placed.ops.insert qs f = some all) : Sound all := by
  obtain ⟨hordered, hlens⟩ := insert_ordered h.ordered h.len hlen hsteady.apart (fun q hq => hsteady.exact_front hq)
    (fun q hq => hsteady.exact_back hq) hins
  have hmem : ∀ x ∈ all, x.lack = f.lack ∧ (¬x.frag.mff → Placed.ops.stop x ≤ 32767) := by
    intro x hx
    rcases mem_insert h.ordered (fun q hq => hsteady.exact_front hq) hins hx with
      hx | rfl | ⟨q, hq, hle, hlt, hcut, rfl⟩ | ⟨q, hq, hlt, hover, hcut, rfl⟩
    · exact ⟨hsteady.side x hx, h.total x hx⟩
    · exact ⟨rfl, hsteady.total⟩
    · have hexact := hsteady.exact_front hq hle hlt hcut
      exact ⟨Placed.lack_trim hexact, fun hmff => hexact.stop.trans_le (hsteady.total hmff)⟩
    · have hexact := hsteady.exact_back hq hlt hover hcut
      exact ⟨(Placed.lack_trim hexact).trans (hsteady.side q hq), fun hmff => hexact.stop.trans_le (h.total q hq hmff)⟩
  refine ⟨hordered, hlens, fun q hq r hr => (hmem q hq).1.trans (hmem r hr).1.symm, fun q hq => ?_, fun q hq => (hmem q hq).2⟩
  rcases insert_head? hins with hhead | hhead
  · exact h.first q (hhead ▸ hq)
  · rw [hhead] at hq
    obtain rfl := Option.some.inj hq
    exact hfirst

/-- What is delivered is complete, and `ip_len` says how long it is. -/
theorem Sound.delivers (h : Sound all) {d : Packet} (hd : concatFrags { toKey := κ, ipqNext := all.map Placed.frag } = some d) :
    ∃ n, Gapless all n ∧ d.ip.ipLen.toInt = n ∧ d.ip.hlen + n ≤ ipMaxpacket := by
  obtain ⟨n, firstFrag, lastFrag, hn, hfirstFrag, hlastFrag, hmff, rfl⟩ := concatFrags_eq_some hd
  rw [contiguous_eq, ← Placed.hom.contiguous] at hn
  obtain ⟨first, hfirst, rfl⟩ : ∃ q, all.head? = some q ∧ q.frag = firstFrag := by simpa using hfirstFrag
  obtain ⟨last, hlast, rfl⟩ : ∃ q, all.getLast? = some q ∧ q.frag = lastFrag := by simpa using hlastFrag
  obtain ⟨hle, hcovered, hinside⟩ := contiguous_covers hn h.len
  have hmax : n ≤ 32767 := contiguous_last hn hlast ▸ h.total last (List.mem_of_getLast? hlast) hmff
  have hzero : first.frag.ipOff = 0 := by
    cases all with
    | nil => cases hfirst
    | cons q qs =>
      obtain rfl := Option.some.inj hfirst
      rw [Ops.contiguous] at hn
      split at hn
      · cases hn
      next hoff => exact not_ne_iff.mp hoff
  have hlack : first.lack = 0 := (h.first first hfirst).resolve_right (by omega)
  have hplace : ∀ q ∈ all, q.start = q.frag.ipOff := by
    intro q hq
    have := (h.lack q hq first (List.mem_of_head? hfirst)).trans hlack
    unfold Placed.lack at this
    omega
  refine ⟨n, ⟨fun q hq => ?_, fun x hx hlt => ?_, last, hlast, hmff⟩, ?_, ?_⟩
  · rw [hplace q hq]
    exact hinside q hq
  · obtain ⟨q, hq, hrange⟩ := hcovered x hx hlt
    refine ⟨q, hq, ?_⟩
    rw [hplace q hq]
    exact hrange
  · change (BitVec.ofInt 16 n).toInt = n
    rw [BitVec.toInt_ofInt]
    exact Int.bmod_eq_of_le (by omega) (by omega)
  · have hhl := first.frag.ip.ipHl.isLt
    change ((first.frag.ip.ipHl.toNat * 4 : Nat) : Int) + n ≤ 65535
    omega

theorem collect_sound (h : Sound qs) (hsteady : Steady qs f) (hlen : 0 ≤ f.frag.ipLen) (hfirst : f.lack = 0 ∨ f.frag.ipOff < 0)
    (room : Bool) : Sound (collect κ room qs f).1 ∧ ∀ d ∈ (collect κ room qs f).2, ∃ all n,
      Placed.ops.insert qs f = some all ∧ InOrder all ∧ Gapless all n ∧ d.ip.ipLen.toInt = n ∧ d.ip.hlen + n ≤ ipMaxpacket := by
  unfold collect
  split
  · exact ⟨h, nofun⟩
  · cases hins : Placed.ops.insert qs f with
    | none => exact ⟨h, nofun⟩
    | some all =>
      have hall := h.insert hsteady hlen hfirst hins
      dsimp only
      cases hconcat : concatFrags { toKey := κ, ipqNext := all.map Placed.frag } with
      | none => exact ⟨hall, nofun⟩
      | some d =>
        refine ⟨sound_nil, fun d' hd' => ?_⟩
        obtain rfl := Option.some.inj hd'
        obtain ⟨n, hn⟩ := hall.delivers hconcat
        exact ⟨all, n, rfl, hall.inOrder, hn⟩

/-- The states of the queues, with the places of the fragments that are held for `κ`, as steady fragments arrive; what is held may be given up, and the other queues may change in any way. -/
inductive Collects (κ : Key) : List Ipq → List Placed → Prop where
  | empty {ipq : List Ipq} : Held κ ipq [] → Collects κ ipq []
  | fragment {ipq : List Ipq} {qs : List Placed} {p : Packet} (room : Bool) : Collects κ ipq qs → p.ip.key = κ →
      p.ip.hlen ≤ p.ip.ipLen.toInt → Steady qs (Placed.ofPacket p) →
      Collects κ (ipReass room ipq p.asFrag (ipq.find? fun fp => fp.toKey = κ)).1 (collect κ room qs (Placed.ofPacket p)).1
  | others {ipq ipq' : List Ipq} {qs : List Placed} : Collects κ ipq qs →
      (ipq'.filter fun fp => fp.toKey = κ) = ipq.filter (fun fp => fp.toKey = κ) → Collects κ ipq' qs

/-- `ipintr` has compared `ip_len` with the length of the header. -/
theorem ofPacket_len {p : Packet} (h : p.ip.hlen ≤ p.ip.ipLen.toInt) : 0 ≤ (Placed.ofPacket p).frag.ipLen := by
  have hlen := toInt_range p.ip.ipLen
  have hsub := @toInt_sub_ofInt p.ip.ipLen p.ip.hlen (by omega) (by omega)
  change 0 ≤ (p.ip.ipLen - BitVec.ofNat 16 p.ip.hlen).toInt
  rw [← BitVec.ofInt_natCast, hsub]
  omega

theorem Collects.sound {ipq : List Ipq} (h : Collects κ ipq qs) : Held κ ipq (qs.map Placed.frag) ∧ Sound qs := by
  induction h with
  | empty hheld => exact ⟨hheld, sound_nil⟩
  | @fragment ipq qs p room _ hkey hlen hsteady ih =>
    obtain ⟨hheld, hsound⟩ := ih
    obtain ⟨hqueue, -⟩ := @ipReass_collect κ ipq qs (Placed.ofPacket p) room hheld hkey
    obtain ⟨hsound', -⟩ := @collect_sound κ qs _ hsound hsteady (ofPacket_len hlen) (Placed.ofPacket_first p) room
    exact ⟨hqueue, hsound'⟩
  | others _ hsame ih => exact ⟨hsame.trans ih.1, ih.2⟩

/-- What is to hold after a call of `ip_reass`: the queue is in order, and what is delivered was complete and has its length in `ip_len`. -/
structure Reassembles (κ : Key) (room : Bool) (qs : List Placed) (f : Placed) (out : List Ipq × Option Packet) : Prop where
  queue : Held κ out.1 ((collect κ room qs f).1.map Placed.frag)
  order : InOrder (collect κ room qs f).1
  delivered : ∀ d ∈ out.2, ∃ all n, Placed.ops.insert qs f = some all ∧ InOrder all ∧ Gapless all n ∧ d.ip.ipLen.toInt = n ∧
    d.ip.hlen + n ≤ ipMaxpacket

theorem steady_reassembles {ipq : List Ipq} (h : Collects κ ipq qs) {p : Packet} (hkey : p.ip.key = κ)
    (hlen : p.ip.hlen ≤ p.ip.ipLen.toInt) (hsteady : Steady qs (Placed.ofPacket p)) (room : Bool) :
    Reassembles κ room qs (Placed.ofPacket p) (ipReass room ipq p.asFrag (ipq.find? fun fp => fp.toKey = κ)) := by
  obtain ⟨hheld, hsound⟩ := h.sound
  obtain ⟨hqueue, hout⟩ := @ipReass_collect κ ipq qs (Placed.ofPacket p) room hheld hkey
  obtain ⟨hsound', hdelivered⟩ := @collect_sound κ qs _ hsound hsteady (ofPacket_len hlen) (Placed.ofPacket_first p) room
  refine ⟨hqueue, hsound'.inOrder, ?_⟩
  change ∀ d ∈ (ipReass room ipq (Placed.ofPacket p).frag _).2, _
  rw [hout]
  exact hdelivered

/-- A fragment with its offset field and its data. -/
def fragmentAt (field : U16) (data : List UInt8) : Packet :=
  { ip := { ipLen := BitVec.ofNat 16 (20 + data.length), ipOff := field }, m := { chain := [data] } }

/-- The bytes of the datagram `0, 1, 2, ..` from place `a` to before `b`. -/
def span (a b : Nat) : List UInt8 := (List.range' a (b - a)).map UInt8.ofNat

/-- The parts of a datagram of 24 bytes, which overlap at both ends of the middle. -/
def middlePart : Packet := fragmentAt (ipMf ||| 1) (span 8 16)
def frontPart : Packet := fragmentAt ipMf (span 0 12)
def backPart : Packet := fragmentAt 1 (span 8 24)

/-- One more fragment, the queues and the places. -/
def receive (s : List Ipq × List Placed) (p : Packet) : List Ipq × List Placed :=
  ((ipReass true s.1 p.asFrag (s.1.find? fun fp => fp.toKey = p.ip.key)).1, (collect p.ip.key true s.2 (Placed.ofPacket p)).1)

/-- The middle has come first, and the front cuts it. -/
def twoParts : List Ipq × List Placed := [middlePart, frontPart].foldl receive ([], [])

theorem collects_nil (κ : Key) : Collects κ [] [] := .empty rfl

theorem collects_twoParts : Collects backPart.ip.key twoParts.1 twoParts.2 :=
  .fragment (p := frontPart) true
    (.fragment (p := middlePart) true (collects_nil _) rfl (by decide) ⟨by decide, by decide, by decide, by decide, by decide⟩)
    rfl (by decide) ⟨by decide, by decide, by decide, by decide, by decide⟩

/-- The back is cut by the front, takes the place of the rest of the middle and completes the datagram. -/
theorem steady_reassembles_twoParts :
    (twoParts.2.map fun q => (q.start, q.frag.ipLen)) = [(0, 12), (12, 4)] ∧
      ((ipReass true twoParts.1 backPart.asFrag (twoParts.1.find? fun fp => fp.toKey = backPart.ip.key)).2.map fun d =>
        (d.ip.ipLen, d.m.bytes)) = some (24, span 0 24) ∧
      Reassembles backPart.ip.key true twoParts.2 (Placed.ofPacket backPart)
        (ipReass true twoParts.1 backPart.asFrag (twoParts.1.find? fun fp => fp.toKey = backPart.ip.key)) :=
  ⟨by decide, by decide, steady_reassembles collects_twoParts rfl (by decide)
    ⟨by decide, by decide, by decide, by decide, by decide⟩ true⟩

/-! ### Fragments on both sides of byte 32768 -/

/-- A fragment with 8 bytes and `MF` set, at the offset. -/
def eightBytes (off : U16) : Packet :=
  { ip := { ipLen := 28, ipOff := ipMf ||| off }, m := { chain := [[0, 0, 0, 0, 0, 0, 0, 0]] } }

/-- The fragment at byte 32768 comes before the one at byte 0. -/
theorem not_in_order : Collects (eightBytes 0).ip.key (ipReass true [] (eightBytes 0).asFrag none).1 [Placed.ofPacket (eightBytes 0)] ∧
    ¬Reassembles (eightBytes 0).ip.key true [Placed.ofPacket (eightBytes 0)] (Placed.ofPacket (eightBytes 4096))
      (ipReass true (ipReass true [] (eightBytes 0).asFrag none).1 (eightBytes 4096).asFrag
        ((ipReass true [] (eightBytes 0).asFrag none).1.find? fun fp => fp.toKey = (eightBytes 0).ip.key)) := by
  constructor
  · exact .fragment true (collects_nil _) rfl (by decide) ⟨nofun, nofun, nofun, nofun, by decide⟩
  · rintro ⟨-, horder, -⟩
    have hlist : (collect (eightBytes 0).ip.key true [Placed.ofPacket (eightBytes 0)] (Placed.ofPacket (eightBytes 4096))).1 =
        [Placed.ofPacket (eightBytes 4096), Placed.ofPacket (eightBytes 0)] := rfl
    rw [hlist, InOrder, List.pairwise_pair] at horder
    exact absurd horder.1 (by decide)

end Reading.Ip
