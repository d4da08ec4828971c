import Mathlib.Data.Fintype.Card
import Mathlib.Logic.Function.Basic
import Reading.Kern.Mbuf

/-!
# Socket buffers as they lie in memory

The functions of `uipc_socket2.c` that add data to a socket buffer and take it away, on the mbufs themselves: records are linked by `m_nextpkt` of their first mbufs and the mbufs of a record by `m_next`. Memory is a map from the addresses of a finite type to mbufs, with free cells mapped to `none`. A function returns `none` where the kernel panics, where a null pointer or a freed mbuf is read, and where a loop does not end: no loop can go on for longer than twice the number of cells without reading memory it has freed or going round in a circle, so every loop is given that many rounds.

The live part of the data area of an mbuf is its `data`, and `m_len` is the length of it. For an mbuf with internal storage `off` is the distance of `m_data` from `m_dat`.
-/

namespace Reading.Kern.Sb

/-- Types of mbufs; those that no socket function tells apart are `other`. -/
inductive MType where
  | data
  | header
  | soname
  | control
  | oobdata
  | other (n : Nat)
deriving DecidableEq

/-- An mbuf apart from its links. -/
structure Body where
  data : List Byte
  off : Nat := 0
  mtype : MType := .data
  /-- `ext_size`, when `M_EXT` is set. -/
  ext : Option Nat := none
  /-- `M_EOR`. -/
  eor : Bool := false
  /-- `m_pkthdr.len`, when `M_PKTHDR` is set. -/
  pkthdr : Option Nat := none
deriving DecidableEq

def Body.len (b : Body) : Nat := b.data.length

structure Mbuf (A : Type) where
  next : Option A := none
  nextpkt : Option A := none
  body : Body
deriving DecidableEq

def msize : Nat := 128

def mlen : Nat := 108

structure Sockbuf (A : Type) where
  mb : Option A := none
  cc : Nat := 0
  mbcnt : Nat := 0
  hiwat : Nat := 0
  mbmax : Nat := 0
  lowat : Nat := 0
  /-- `SB_LOCK`. -/
  locked : Bool := false
deriving DecidableEq

structure State (A : Type) where
  mem : A → Option (Mbuf A)
  sb : Sockbuf A

/-- What an mbuf is charged for in `sb_mbcnt`. -/
def Body.charge (b : Body) : Nat := msize + b.ext.getD 0

variable {A : Type}

def sballoc (sb : Sockbuf A) (b : Body) : Sockbuf A :=
  { sb with cc := sb.cc + b.len, mbcnt := sb.mbcnt + b.charge }

def sbfree (sb : Sockbuf A) (b : Body) : Sockbuf A :=
  { sb with cc := sb.cc - b.len, mbcnt := sb.mbcnt - b.charge }

/-- `sbspace`, negative where a limit is exceeded. -/
def sbspace (sb : Sockbuf A) : Int := min ((sb.hiwat : Int) - sb.cc) ((sb.mbmax : Int) - sb.mbcnt)

variable [DecidableEq A]

def State.write (s : State A) (a : A) (m : Mbuf A) : State A := { s with mem := Function.update s.mem a (some m) }

/-- `m_free`. -/
def State.free (s : State A) (a : A) : State A := { s with mem := Function.update s.mem a none }

/-! ### Finding the place -/

/-- `while (n->m_nextpkt) n = n->m_nextpkt`. -/
def lastRecord (mem : A → Option (Mbuf A)) : Nat → A → Option A
  | 0, _ => none
  | fuel + 1, n => do
    let x ← mem n
    match x.nextpkt with
    | none => some n
    | some n => lastRecord mem fuel n

/-- The loop of `sbappend` over the last record: its last mbuf, or nothing when an mbuf of it has `M_EOR`. -/
def lastMbuf (mem : A → Option (Mbuf A)) : Nat → A → Option (Option A)
  | 0, _ => none
  | fuel + 1, n => do
    let x ← mem n
    if x.body.eor then some none
    else match x.next with
    | none => some (some n)
    | some n => lastMbuf mem fuel n

/-! ### Adding data -/

/-- The mbuf `m` can be dropped by `sbcompress`: it is empty, and no end of record is pending or `o`, the next mbuf or else the last one, has its type. -/
def discards (s : State A) (x : Mbuf A) (n : Option A) (eor : Bool) : Option Bool :=
  if x.body.len ≠ 0 then some false
  else if eor = false then some true
  else match x.next.or n with
  | none => some false
  | some o => do
    let y ← s.mem o
    some (decide (y.body.mtype = x.body.mtype))

/-- The data of `m` goes into the free space behind that of `n`. -/
def Body.takes (n m : Body) : Bool :=
  n.ext.isNone && !n.eor && decide (n.off + n.len + m.len < mlen) && decide (n.mtype = m.mtype)

/-- The loop of `sbcompress`. -/
def sbcompressFrom : Nat → State A → Option A → Option A → Bool → Option (State A)
  | _, s, none, n, eor =>
    if eor then
      match n with
      | some n => do
        let y ← s.mem n
        some (s.write n { y with body := { y.body with eor := true } })
      | none => some s
    else some s
  | 0, _, some _, _, _ => none
  | fuel + 1, s, some m, n, eor => do
    let x ← s.mem m
    let eor := eor || x.body.eor
    if ← discards s x n eor then sbcompressFrom fuel (s.free m) x.next n eor
    else match n with
    | some n => do
      let y ← s.mem n
      if y.body.takes x.body then
        let s := s.write n { y with body := { y.body with data := y.body.data ++ x.body.data } }
        let s := { s with sb := { s.sb with cc := s.sb.cc + x.body.len } }
        sbcompressFrom fuel (s.free m) x.next (some n) eor
      else
        let s := s.write n { y with next := some m }
        let s := { s with sb := sballoc s.sb x.body }
        sbcompressFrom fuel (s.write m { x with next := none, body := { x.body with eor := false } }) x.next (some m) eor
    | none =>
      let s := { s with sb := { sballoc s.sb x.body with mb := some m } }
      sbcompressFrom fuel (s.write m { x with next := none, body := { x.body with eor := false } }) x.next (some m) eor

section Fuel

variable [Fintype A]

/-- More rounds than any loop makes that ends. -/
def rounds (A : Type) [Fintype A] : Nat := 2 * Fintype.card A + 2

def sbcompress (s : State A) (m n : Option A) : Option (State A) := sbcompressFrom (rounds A) s m n false

/-- The end of `sbappendrecord` and `sbinsertoob`: the first mbuf is on the queue, the others go behind it. -/
def startRecord (s : State A) (m0 : A) : Option (State A) := do
  let x ← s.mem m0
  match x.next with
  | none => sbcompress (s.write m0 { x with next := none }) none (some m0)
  | some m =>
    if x.body.eor then do
      let s := s.write m0 { x with next := none, body := { x.body with eor := false } }
      let y ← s.mem m
      sbcompress (s.write m { y with body := { y.body with eor := true } }) (some m) (some m0)
    else sbcompress (s.write m0 { x with next := none }) (some m) (some m0)

/-- `sb_mb`, or `m_nextpkt` of the record `n`, is made to point to `m0`. -/
def link (s : State A) (n : Option A) (m0 : Option A) : Option (State A) :=
  match n with
  | none => some { s with sb := { s.sb with mb := m0 } }
  | some n => do
    let y ← s.mem n
    some (s.write n { y with nextpkt := m0 })

/-- The record that a new one goes behind. -/
def lastOf (s : State A) : Option (Option A) :=
  match s.sb.mb with
  | none => some none
  | some p => (lastRecord s.mem (rounds A) p).map some

def sbappendrecord (s : State A) (m0 : Option A) : Option (State A) :=
  match m0 with
  | none => some s
  | some m0 => do
    let last ← lastOf s
    let x ← s.mem m0
    let s ← link { s with sb := sballoc s.sb x.body } last (some m0)
    startRecord s m0

def sbappend (s : State A) (m : Option A) : Option (State A) :=
  match m with
  | none => some s
  | some _ =>
    match s.sb.mb with
    | none => sbcompress s m none
    | some p => do
      let r ← lastRecord s.mem (rounds A) p
      match ← lastMbuf s.mem (rounds A) r with
      | none => sbappendrecord s m
      | some n => sbcompress s m (some n)

/-- The switch of `sbinsertoob`: the train is out-of-band data behind control mbufs. -/
def isOobTrain (mem : A → Option (Mbuf A)) : Nat → A → Option Bool
  | 0, _ => none
  | fuel + 1, m => do
    let x ← mem m
    match x.body.mtype with
    | .oobdata => some true
    | .control =>
      match x.next with
      | some m => isOobTrain mem fuel m
      | none => some false
    | _ => some false

/-- The pointer that `mp` points to: `sb_mb` for `none`, else `m_nextpkt` of a record. -/
def deref (s : State A) : Option A → Option (Option A)
  | none => some s.sb.mb
  | some r => (s.mem r).map Mbuf.nextpkt

/-- The loop of `sbinsertoob`: the place behind all trains of out-of-band data. -/
def oobPlace (s : State A) : Nat → Option A → Option (Option A)
  | 0, _ => none
  | fuel + 1, mp => do
    match ← deref s mp with
    | none => some mp
    | some m =>
      if ← isOobTrain s.mem (rounds A) m then oobPlace s fuel (some m) else some mp

def sbinsertoob (s : State A) (m0 : Option A) : Option (State A) :=
  match m0 with
  | none => some s
  | some m0 => do
    let mp ← oobPlace s (rounds A) none
    let x ← s.mem m0
    let behind ← deref s mp
    let s := { s with sb := sballoc s.sb x.body }
    let s ← link (s.write m0 { x with nextpkt := behind }) mp (some m0)
    startRecord s m0

/-- The sum of `m_len` over a chain, and the last mbuf of it. -/
def chainSpace (mem : A → Option (Mbuf A)) : Nat → Option A → Option (Nat × Option A)
  | _, none => some (0, none)
  | 0, some _ => none
  | fuel + 1, some n => do
    let x ← mem n
    let (space, last) ← chainSpace mem fuel x.next
    some (x.body.len + space, some (last.getD n))

/-- `for (n = m; n; n = n->m_next) sballoc(sb, n)`. -/
def sballocChain : Nat → State A → Option A → Option (State A)
  | _, s, none => some s
  | 0, _, some _ => none
  | fuel + 1, s, some n => do
    let x ← s.mem n
    sballocChain fuel { s with sb := sballoc s.sb x.body } x.next

/-- `m0->m_pkthdr.len`, with the panic on data that has no packet header. -/
def pktLen (s : State A) (m0 : Option A) : Option Nat :=
  match m0 with
  | none => some 0
  | some m0 => (s.mem m0).bind fun x => x.body.pkthdr

/-- Concatenate the data `m0` to the control mbufs, of which `n` is the last. -/
def concatControl (s : State A) (m0 control n : Option A) : Option (State A × Option A) :=
  match n with
  | none => some (s, m0)
  | some n => do
    let y ← s.mem n
    some (s.write n { y with next := m0 }, control)

/-- `sbappendaddr`. `got` is the mbuf that `MGET` finds, if there is one. -/
def sbappendaddr (s : State A) (asa : List Byte) (m0 control : Option A) (got : Option A) : Option (Bool × State A) := do
  let data ← pktLen s m0
  let (space, n) ← chainSpace s.mem (rounds A) control
  if ((asa.length + data + space : Nat) : Int) > sbspace s.sb then some (false, s)
  else if asa.length > mlen then some (false, s)
  else match got with
  | none => some (false, s)
  | some m => do
    let (s, control) ← concatControl s m0 control n
    let s := s.write m { next := control, body := { data := asa, mtype := .soname } }
    let s ← sballocChain (rounds A) s (some m)
    let last ← lastOf s
    let s ← link s last (some m)
    some (true, s)

/-- `sbappendcontrol`. -/
def sbappendcontrol (s : State A) (m0 control : Option A) : Option (Bool × State A) := do
  let (space, n) ← chainSpace s.mem (rounds A) control
  let (data, _) ← chainSpace s.mem (rounds A) m0
  match n with
  | none => none
  | some n =>
    if ((space + data : Nat) : Int) > sbspace s.sb then some (false, s)
    else do
      let y ← s.mem n
      let s := s.write n { y with next := m0 }
      let s ← sballocChain (rounds A) s control
      let last ← lastOf s
      let s ← link s last control
      some (true, s)

/-! ### Taking data away -/

/-- `m_data += len; m_len -= len`. -/
def Body.trim (b : Body) (len : Nat) : Body := { b with data := b.data.drop len, off := b.off + len }

/-- `len` bytes are cut from the front of the mbuf `m`, which is `x`, and from `sb_cc`. -/
def State.trim (s : State A) (m : A) (x : Mbuf A) (len : Nat) : State A :=
  { s.write m { x with body := x.body.trim len } with sb := { s.sb with cc := s.sb.cc - len } }

/-- The first loop of `sbdrop`, with the mbuf it stops at and the record behind. -/
def dropBytes : Nat → State A → Option A → Option A → Nat → Option (State A × Option A × Option A)
  | _, s, m, next, 0 => some (s, m, next)
  | 0, _, _, _, _ + 1 => none
  | fuel + 1, s, none, next, len + 1 => do
    let m ← next
    let x ← s.mem m
    dropBytes fuel s (some m) x.nextpkt (len + 1)
  | fuel + 1, s, some m, next, len + 1 => do
    let x ← s.mem m
    if x.body.len > len + 1 then some (s.trim m x (len + 1), some m, next)
    else
      dropBytes fuel (State.free { s with sb := sbfree s.sb x.body } m) x.next next (len + 1 - x.body.len)

/-- The second loop of `sbdrop`, over the empty mbufs that are left in front. -/
def dropEmpty : Nat → State A → Option A → Option (State A × Option A)
  | _, s, none => some (s, none)
  | 0, _, some _ => none
  | fuel + 1, s, some m => do
    let x ← s.mem m
    if x.body.len = 0 then dropEmpty fuel (State.free { s with sb := sbfree s.sb x.body } m) x.next
    else some (s, some m)

/-- `m ? m->m_nextpkt : 0`. -/
def nextPkt (s : State A) (m : Option A) : Option (Option A) :=
  match m with
  | none => some none
  | some m => (s.mem m).map Mbuf.nextpkt

/-- The end of `sbdrop`: the mbuf `m`, if there is one, begins the queue. -/
def putFirst (s : State A) (m next : Option A) : Option (State A) :=
  match m with
  | some m => do
    let x ← s.mem m
    some { s.write m { x with nextpkt := next } with sb := { s.sb with mb := some m } }
  | none => some { s with sb := { s.sb with mb := next } }

def sbdrop (s : State A) (len : Nat) : Option (State A) := do
  let next ← nextPkt s s.sb.mb
  let (s, m, next) ← dropBytes (rounds A) s s.sb.mb next len
  let (s, m) ← dropEmpty (rounds A) s m
  putFirst s m next

/-- `do { sbfree; MFREE } while (m)`. -/
def freeChain : Nat → State A → Option A → Option (State A)
  | _, s, none => some s
  | 0, _, some _ => none
  | fuel + 1, s, some m => do
    let x ← s.mem m
    freeChain fuel (State.free { s with sb := sbfree s.sb x.body } m) x.next

def sbdroprecord (s : State A) : Option (State A) :=
  match s.sb.mb with
  | none => some s
  | some m => do
    let x ← s.mem m
    freeChain (rounds A) { s with sb := { s.sb with mb := x.nextpkt } } (some m)

/-- `while (sb->sb_mbcnt) sbdrop(sb, (int)sb->sb_cc)`. -/
def flushLoop : Nat → State A → Option (State A)
  | 0, s => if s.sb.mbcnt = 0 then some s else none
  | fuel + 1, s => if s.sb.mbcnt = 0 then some s else (sbdrop s s.sb.cc).bind (flushLoop fuel)

/-- `sbflush`, with its two panics. -/
def sbflush (s : State A) : Option (State A) :=
  if s.sb.locked then none
  else do
    let s ← flushLoop (rounds A) s
    if s.sb.cc ≠ 0 ∨ s.sb.mb ≠ none then none else some s

end Fuel

end Reading.Kern.Sb
