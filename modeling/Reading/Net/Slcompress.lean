import Reading.Ip.Packet
import Reading.Tcp.Basic

/-!
# TCP/IP header compression

`sl_compress_tcp` and `sl_uncompress_tcp` (sys/net/slcompress.c). A header is the structure that the source lays over its bytes; the words it compares are the fields in them. The circular list of transmit states is the list from the most recently used one, `last_cs->cs_next`, to the oldest, `last_cs`. The area of a state that has never been written is all zero: there is no header in it yet.
-/

namespace Reading.Net

open Reading.Kern (Byte)
open Reading.Ip
open OnesSum

@[ext]
structure Tcphdr where
  thSport : U16 := 0
  thDport : U16 := 0
  thSeq : U32 := 0
  thAck : U32 := 0
  thX2 : BitVec 4 := 0
  thOff : BitVec 4 := 5
  /-- The bits of `th_flags` above `TH_URG`. -/
  thRes : BitVec 2 := 0
  thFlags : Tcp.Flags := {}
  thWin : U16 := 0
  thSum : U16 := 0
  thUrp : U16 := 0
  deriving DecidableEq

/-- A TCP/IP header with the options of both. -/
@[ext]
structure Hdr where
  ip : Header
  ipOpts : List Byte := []
  th : Tcphdr
  thOpts : List Byte := []
  deriving DecidableEq

namespace Hdr

/-- `(ip_hl + th_off) << 2`. -/
def hlen (h : Hdr) : Nat := (h.ip.ipHl.toNat + h.th.thOff.toNat) * 4

/-- A saved header without `ip_sum`. -/
def clearSum (h : Hdr) : Hdr := { h with ip := { h.ip with ipSum := 0 } }

end Hdr

structure Pkt where
  hdr : Hdr
  data : List Byte := []
  deriving DecidableEq

def maxStates : Nat := 16
def ipprotoTcp : Byte := 6

/-- A transmit state; `csIp` is none before the first header is saved. -/
structure Cstate where
  csId : Byte
  csIp : Option Hdr := none
  deriving DecidableEq

/-- A receive state that holds a header. -/
structure Rstate where
  csHlen : Nat
  csIp : Hdr
  deriving DecidableEq

structure Slcompress where
  tstate : List Cstate
  lastXmit : Byte := 255
  lastRecv : Byte := 255
  toss : Bool := true
  rstate : Byte → Option Rstate := fun _ => none

/-- `sl_compress_init`: `tstate[15]` is the first of the list and `tstate[0]` the last. -/
def slCompressInit : Slcompress where
  tstate := (List.range maxStates).reverse.map fun i => { csId := UInt8.ofNat i }

/-! ### `ENCODE` and `DECODE` -/

/-- `ENCODE(n)` for the low 16 bits of `n`. -/
def encode (n : U16) : List Byte :=
  if n.toNat ≥ 256 then 0 :: storeWord .big n.toNat else [UInt8.ofNat n.toNat]

def encodez (n : U16) : List Byte :=
  if n.toNat ≥ 256 ∨ n = 0 then 0 :: storeWord .big n.toNat else [UInt8.ofNat n.toNat]

/-- A pointer into a buffer: what lies from it on, and how far it has moved. -/
structure Cursor where
  cp : List Byte
  used : Nat := 0

namespace Cursor

/-- `cp[i]`. -/
def byte (c : Cursor) (i : Nat) : Byte := c.cp.getD i 0

def advance (c : Cursor) (n : Nat) : Cursor := ⟨c.cp.drop n, c.used + n⟩

/-- `(cp[i] << 8) | cp[i + 1]`. -/
def word (c : Cursor) (i : Nat) : Nat := (c.byte i).toNat * 256 + (c.byte (i + 1)).toNat

/-- The number that `DECODEL`, `DECODES` and `DECODEU` read, and the pointer after it. -/
def decode (c : Cursor) : Nat × Cursor :=
  if c.byte 0 = 0 then (c.word 1, c.advance 3) else ((c.byte 0).toNat, c.advance 1)

end Cursor

/-! ### The change mask -/

/-- `changes`: the bits `NEW_C`, `NEW_I`, `TCP_PUSH_BIT`, `NEW_S`, `NEW_A`, `NEW_W` and `NEW_U`. -/
structure Changes where
  newC : Bool := false
  newI : Bool := false
  push : Bool := false
  newS : Bool := false
  newA : Bool := false
  newW : Bool := false
  newU : Bool := false
  deriving DecidableEq

namespace Changes

def specialI : Changes := { newS := true, newW := true, newU := true }
def specialD : Changes := { newS := true, newA := true, newW := true, newU := true }

/-- `changes & SPECIALS_MASK`. -/
def specials (ch : Changes) : Changes := { newS := ch.newS, newA := ch.newA, newW := ch.newW, newU := ch.newU }

def toByte (ch : Changes) : Byte :=
  UInt8.ofNat (ch.newC.toNat * 0x40 + ch.newI.toNat * 0x20 + ch.push.toNat * 0x10 + ch.newS.toNat * 0x08 +
    ch.newA.toNat * 0x04 + ch.newW.toNat * 0x02 + ch.newU.toNat)

def ofByte (b : Byte) : Changes where
  newC := b &&& 0x40 != 0
  newI := b &&& 0x20 != 0
  push := b &&& 0x10 != 0
  newS := b &&& 0x08 != 0
  newA := b &&& 0x04 != 0
  newW := b &&& 0x02 != 0
  newU := b &&& 0x01 != 0

theorem ofByte_toByte (ch : Changes) : ofByte ch.toByte = ch := by
  obtain ⟨c, i, p, s, a, w, u⟩ := ch
  revert c i p s a w u
  decide +kernel

end Changes

/-! ### `sl_compress_tcp` -/

/-- What `sl_compress_tcp` leaves in the mbuf, with the type it returns. -/
inductive Frame
  | ip (p : Pkt)
  | uncompressedTcp (p : Pkt)
  | compressedTcp (buf : List Byte)
  deriving DecidableEq

/-- A packet for `sl_compress_tcp`, with `m_len` of the mbuf that holds its headers and `compress_cid`. -/
structure Input where
  p : Pkt
  mLen : Nat
  compressCid : Bool := true
  deriving DecidableEq

/-- The state is that of the packet's conversation: the addresses and the word with the ports agree. -/
def Cstate.serves (h : Hdr) (cs : Cstate) : Bool :=
  match cs.csIp with
  | none => h.ip.ipSrc = 0 ∧ h.ip.ipDst = 0 ∧ h.th.thSport = 0 ∧ h.th.thDport = 0
  | some old => h.ip.ipSrc = old.ip.ipSrc ∧ h.ip.ipDst = old.ip.ipDst ∧ h.th.thSport = old.th.thSport ∧
      h.th.thDport = old.th.thDport

/-- The state for a packet, whether it was found, and the states other than it in their order. -/
def findState (tstate : List Cstate) (h : Hdr) : Cstate × Bool × List Cstate :=
  match tstate.find? (Cstate.serves h) with
  | some cs => (cs, true, tstate.eraseP (Cstate.serves h))
  | none => (tstate.getLastD { csId := 0 }, false, tstate.dropLast)

/-- Only what is expected to change has changed. -/
def unchanged (old h : Hdr) : Bool :=
  h.ip.ipV = old.ip.ipV ∧ h.ip.ipHl = old.ip.ipHl ∧ h.ip.ipTos = old.ip.ipTos ∧ h.ip.ipOff = old.ip.ipOff ∧
    h.ip.ipTtl = old.ip.ipTtl ∧ h.ip.ipP = old.ip.ipP ∧ h.th.thOff = old.th.thOff ∧
    (h.ip.ipHl.toNat > 5 → h.ipOpts = old.ipOpts) ∧ (h.th.thOff.toNat > 5 → h.thOpts = old.thOpts)

/-- The changing fields up to `switch (changes)`: `changes`, the bytes in `new_seq`, and the differences of `th_seq` and `th_ack`; none if the packet has to go uncompressed. -/
def fieldChanges (old h : Hdr) : Option (Changes × List Byte × U32 × U32) :=
  let deltaW := h.th.thWin - old.th.thWin
  let deltaA := h.th.thAck - old.th.thAck
  let deltaS := h.th.thSeq - old.th.thSeq
  if ¬ h.th.thFlags.urg ∧ h.th.thUrp ≠ old.th.thUrp then none
  else if deltaA.toNat > 0xffff then none
  else if deltaS.toNat > 0xffff then none
  else
    let changes : Changes := { newU := h.th.thFlags.urg, newW := deltaW ≠ 0, newA := deltaA ≠ 0, newS := deltaS ≠ 0 }
    some (changes,
      (if changes.newU then encodez h.th.thUrp else []) ++ (if changes.newW then encode deltaW else []) ++
        (if changes.newA then encode (deltaA.setWidth 16) else []) ++
        (if changes.newS then encode (deltaS.setWidth 16) else []), deltaS, deltaA)

/-- `switch (changes)`. -/
def switchChanges (old h : Hdr) : Option (Changes × List Byte) :=
  match fieldChanges old h with
  | none => none
  | some (changes, newSeq, deltaS, deltaA) =>
    let oldData := BitVec.ofInt 32 (old.ip.ipLen.toNat - h.hlen : Int)
    if changes = {} then
      if h.ip.ipLen ≠ old.ip.ipLen ∧ old.ip.ipLen.toNat = h.hlen then some (changes, newSeq) else none
    else if changes = .specialI ∨ changes = .specialD then none
    else if changes = { newS := true, newA := true } ∧ deltaS = deltaA ∧ deltaS = oldData then some (.specialI, [])
    else if changes = { newS := true } ∧ deltaS = oldData then some (.specialD, [])
    else some (changes, newSeq)

/-- The whole encoding of a header against the saved one: `changes` without `NEW_C`, and `new_seq`. -/
def encodeChanges (old h : Hdr) : Option (Changes × List Byte) :=
  if unchanged old h then
    (switchChanges old h).map fun (changes, newSeq) =>
      let newI : Bool := (h.ip.ipId.toNat : Int) - old.ip.ipId.toNat ≠ 1
      ({ changes with newI := newI, push := h.th.thFlags.push },
        newSeq ++ if newI then encodez (h.ip.ipId - old.ip.ipId) else [])
  else none

/-- The packet is a fragment, or has not `TH_ACK` alone of the control bits. -/
def incompressible (i : Input) : Bool :=
  i.p.hdr.ip.ipOff &&& 0x3fff ≠ 0 ∨ i.mLen < 40 ∨ i.p.hdr.th.thFlags.syn ∨ i.p.hdr.th.thFlags.fin ∨
    i.p.hdr.th.thFlags.rst ∨ ¬ i.p.hdr.th.thFlags.ack

/-- The encoding with which a packet is sent compressed, and the saved header it is made against. -/
def compression (comp : Slcompress) (h : Hdr) : Option (Hdr × Changes × List Byte) :=
  match findState comp.tstate h with
  | (cs, found, _) =>
    match found, cs.csIp with
    | true, some old => (encodeChanges old h).map fun encoded => (old, encoded)
    | _, _ => none

def slCompressTcp (comp : Slcompress) (i : Input) : Slcompress × Frame :=
  if incompressible i then (comp, .ip i.p)
  else
    let h := i.p.hdr
    let (cs, _, others) := findState comp.tstate h
    let comp' := { comp with tstate := { cs with csIp := some h } :: others, lastXmit := cs.csId }
    match compression comp h with
    | none => (comp', .uncompressedTcp { i.p with hdr := { h with ip := { h.ip with ipP := cs.csId } } })
    | some (_, changes, newSeq) =>
      let cid := ¬ i.compressCid ∨ comp.lastXmit ≠ cs.csId
      (comp', .compressedTcp ({ changes with newC := cid }.toByte :: (if cid then [cs.csId] else []) ++
        storeWord .big h.th.thSum.toNat ++ newSeq ++ i.p.data))

/-! ### `sl_uncompress_tcp` -/

/-- The bytes of the changing fields, decoded into the saved TCP header. -/
def decodeFields (cs : Rstate) (changes : Changes) (c : Cursor) : Tcphdr × Cursor :=
  let th := cs.csIp.th
  let i := BitVec.ofInt 32 (cs.csIp.ip.ipLen.toNat - cs.csHlen : Int)
  if changes.specials = .specialI then ({ th with thAck := th.thAck + i, thSeq := th.thSeq + i }, c)
  else if changes.specials = .specialD then ({ th with thSeq := th.thSeq + i }, c)
  else
    let (urp, c) := if changes.newU then ((BitVec.ofNat 16 c.decode.1 : U16), c.decode.2) else (th.thUrp, c)
    let (win, c) := if changes.newW then (th.thWin + BitVec.ofNat 16 c.decode.1, c.decode.2) else (th.thWin, c)
    let (ack, c) := if changes.newA then (th.thAck + BitVec.ofNat 32 c.decode.1, c.decode.2) else (th.thAck, c)
    let (seq, c) := if changes.newS then (th.thSeq + BitVec.ofNat 32 c.decode.1, c.decode.2) else (th.thSeq, c)
    ({ th with
       thFlags := { th.thFlags with urg := changes.newU }, thUrp := urp, thWin := win, thAck := ack, thSeq := seq }, c)

/-- The IP header checksum, recomputed. -/
def recomputeSum (o : Order) (h : Hdr) : Hdr :=
  let changes := (words o (h.ip.bytes ++ h.ipOpts)).sum
  let changes := changes % 65536 + changes / 65536
  let changes := changes % 65536 + changes / 65536
  { h with ip := h.ip.setSum o (65535 - changes % 65536) }

/-- The saved header with the fields of a compressed one decoded into it; `c` is after the connection number. -/
def decodeHeader (cs : Rstate) (changes : Changes) (c : Cursor) : Hdr × Cursor :=
  let th := { cs.csIp.th with
    thSum := BitVec.ofNat 16 (c.word 0), thFlags := { cs.csIp.th.thFlags with push := changes.push } }
  let (th, c) := decodeFields { cs with csIp := { cs.csIp with th := th } } changes (c.advance 2)
  let (id, c) := if changes.newI then (cs.csIp.ip.ipId + BitVec.ofNat 16 c.decode.1, c.decode.2)
    else (cs.csIp.ip.ipId + 1, c)
  ({ cs.csIp with th := th, ip := { cs.csIp.ip with ipId := id } }, c)

/-- `sl_uncompress_tcp` on a compressed packet of `len` bytes from where the state is known. -/
def uncompress (o : Order) (comp : Slcompress) (changes : Changes) (c : Cursor) (len : Nat) : Slcompress × Option Pkt :=
  match comp.rstate comp.lastRecv with
  | none => (comp, none)
  | some cs =>
    let (h, c) := decodeHeader cs changes c
    if len < c.used then
      ({ comp with toss := true, rstate := Function.update comp.rstate comp.lastRecv (some { cs with csIp := h }) }, none)
    else
      let h := { h with ip := { h.ip with ipLen := BitVec.ofNat 16 (len - c.used + cs.csHlen) } }
      ({ comp with rstate := Function.update comp.rstate comp.lastRecv (some { cs with csIp := h }) },
       some { hdr := recomputeSum o h, data := c.cp })

def slUncompressTcp (o : Order) (comp : Slcompress) : Frame → Slcompress × Option Pkt
  | .ip p => (comp, some p)
  | .uncompressedTcp p =>
    if p.hdr.ip.ipP.toNat ≥ maxStates then ({ comp with toss := true }, none)
    else
      let h := { p.hdr with ip := { p.hdr.ip with ipP := ipprotoTcp } }
      ({ comp with
         lastRecv := p.hdr.ip.ipP, toss := false
         rstate := Function.update comp.rstate p.hdr.ip.ipP (some ⟨h.hlen, h.clearSum⟩) },
       some { p with hdr := h })
  | .compressedTcp buf =>
    let c := Cursor.mk buf 0
    let changes := Changes.ofByte (c.byte 0)
    let c := c.advance 1
    if changes.newC then
      if (c.byte 0).toNat ≥ maxStates then ({ comp with toss := true }, none)
      else uncompress o { comp with toss := false, lastRecv := c.byte 0 } changes (c.advance 1) buf.length
    else if comp.toss then (comp, none)
    else uncompress o comp changes c buf.length

end Reading.Net
