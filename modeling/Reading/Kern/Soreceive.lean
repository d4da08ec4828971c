import Reading.Kern.Sbhistory

/-!
# Receiving from a stream

`soreceive` of `uipc_socket.c` for sockets without out-of-band data whose protocol has neither `PR_ATOMIC` nor `PR_ADDR` (no protocol has the second without the first), called without `MSG_OOB` and `MSG_PEEK`. The receive buffer is the one of `Reading.Kern.Sockbuf`; the protocol puts data into it with `sbappend`, and so there are no control mbufs on it.

A call is a sequence of steps between the points of the code named by `Proc`. At some of these points the priority is low: at the label `restart`, in `uiomove`, and where the process sleeps in `sbwait`. There the protocol may append data, and errors, the state of the socket and the limits of the buffer may change. `uiomove` copies in pieces of any length, so that data may arrive between any two bytes.
-/

namespace Reading.Kern.Sb

open Reading.Lib

variable {A : Type} [DecidableEq A]

def enotconn : Nat := 57

def ewouldblock : Nat := 35

/-- The socket, with `rcv` its receive buffer and the mbufs. -/
structure Socket (A : Type) where
  rcv : State A
  /-- `so_error`. -/
  error : Nat := 0
  /-- `SS_CANTRCVMORE`. -/
  cantrcvmore : Bool := false
  /-- One of `SS_ISCONNECTED` and `SS_ISCONNECTING`. -/
  connected : Bool := true
  /-- `SS_NBIO`. -/
  nbio : Bool := false
  /-- `PR_CONNREQUIRED`. -/
  connrequired : Bool := true

/-- The arguments and local variables that stay over the whole call. -/
structure Receive where
  /-- `uio_resid`. -/
  resid : Nat
  origResid : Nat
  /-- `MSG_WAITALL`. -/
  waitall : Bool
  /-- `MSG_DONTWAIT`. -/
  dontwait : Bool
  /-- The caller takes the mbufs themselves: `mp0` is not null. -/
  mp : Bool
  /-- `MSG_EOR`. -/
  eor : Bool := false
deriving DecidableEq

/-- Where the process is. -/
inductive Proc (A : Type) where
  /-- The last call has returned this error. -/
  | idle (error : Nat)
  | restart (c : Receive)
  /-- In the first `sbwait`. -/
  | sleeping (c : Receive)
  /-- At the head of the main loop. -/
  | loop (c : Receive) (m nextrecord : Option A)
  /-- In `uiomove`, which has copied a part of the `len` bytes. -/
  | moving (c : Receive) (m : A) (nextrecord : Option A) (len : Nat) (copied : List Byte)
  /-- At the head of the loop for `MSG_WAITALL`. -/
  | waitall (c : Receive) (m nextrecord : Option A)
  /-- In the second `sbwait`, where `m` is null. -/
  | sleepingAll (c : Receive) (nextrecord : Option A)
  /-- Behind the main loop. -/
  | finish (c : Receive) (m nextrecord : Option A)
deriving DecidableEq

/-- The priority is low. -/
def Proc.interruptible : Proc A → Bool
  | .idle _ | .restart _ | .sleeping _ | .moving .. | .sleepingAll .. => true
  | .loop .. | .waitall .. | .finish .. => false

/-- A socket and the process that receives from it, with the bytes appended and delivered so far. -/
structure World (A : Type) where
  so : Socket A
  proc : Proc A := .idle 0
  appended : List Byte := []
  delivered : List Byte := []

/-- `sblock`; nobody else holds the lock for which a process could wait. -/
def Socket.lock (so : Socket A) : Option (Socket A) :=
  if so.rcv.sb.locked then none
  else some { so with rcv := { so.rcv with sb := { so.rcv.sb with locked := true } } }

/-- `sbunlock`. -/
def Socket.unlock (so : Socket A) : Socket A := { so with rcv := { so.rcv with sb := { so.rcv.sb with locked := false } } }

/-- The condition under which the process does not take what there is, with `m` the first mbuf. -/
def mustWait (sb : Sockbuf A) (c : Receive) : Option (Mbuf A) → Bool
  | none => true
  | some m =>
    !c.dontwait && decide (sb.cc < c.resid) &&
      (decide (sb.cc < sb.lowat) || c.waitall && decide (c.resid ≤ sb.hiwat)) && m.nextpkt.isNone

/-- The loop over the first record for out-of-band data or an end of record. -/
def hasMark (mem : A → Option (Mbuf A)) : Nat → Option A → Option Bool
  | _, none => some false
  | 0, some _ => none
  | fuel + 1, some m => do
    let x ← mem m
    if x.body.mtype = .oobdata ∨ x.body.eor then some true else hasMark mem fuel x.next

/-- `m ? mem[m] : 0`, without a value where `m` is not in memory. -/
def load (mem : A → Option (Mbuf A)) : Option A → Option (Option (Mbuf A))
  | none => some none
  | some m => (mem m).map some

variable [Fintype A]

/-- What the first half of the code decides. -/
inductive Decision where
  | dontblock
  | release (error : Nat)
  | sleep
deriving DecidableEq

/-- From the test whether to block to the label `dontblock`, with the panic `receive 1`. -/
def decision (so : Socket A) (c : Receive) : Option Decision := do
  let m ← load so.rcv.mem so.rcv.sb.mb
  if mustWait so.rcv.sb c m then
    if m.isNone ∧ so.rcv.sb.cc ≠ 0 then none
    else if so.error ≠ 0 then some (if m.isSome then .dontblock else .release so.error)
    else if so.cantrcvmore then some (if m.isSome then .dontblock else .release 0)
    else if ← hasMark so.rcv.mem (rounds A) so.rcv.sb.mb then some .dontblock
    else if !so.connected && so.connrequired then some (.release enotconn)
    else if c.resid = 0 then some (.release 0)
    else if so.nbio || c.dontwait then some (.release ewouldblock)
    else some .sleep
  else some .dontblock

/-- `so_error` is reported once. -/
def clearError (so : Socket A) : Socket A :=
  if so.rcv.sb.mb.isNone ∧ so.error ≠ 0 then { so with error := 0 } else so

/-- From `restart` on. At `dontblock` the first mbuf, which is not a control mbuf, is given its own link to the next record. -/
def start (w : World A) (c : Receive) : Option (World A) := do
  let so ← w.so.lock
  match ← decision so c with
  | .release error => some { w with so := (clearError so).unlock, proc := .idle error }
  | .sleep => some { w with so := so.unlock, proc := .sleeping c }
  | .dontblock => do
    let m ← so.rcv.sb.mb
    let x ← so.rcv.mem m
    some { w with
      so := { so with rcv := so.rcv.write m { x with nextpkt := x.nextpkt } }
      proc := .loop c (some m) x.nextpkt }

/-- An end of record ends the call. -/
def afterCopy (c : Receive) (m nextrecord : Option A) : Proc A :=
  if c.eor then .finish c m nextrecord else .waitall c m nextrecord

/-- Behind `uiomove`: `m_len` is read again, and the mbuf is freed or what was copied is cut off. -/
def consume (w : World A) (c : Receive) (m : A) (nextrecord : Option A) (len : Nat) (bytes : List Byte) : Option (World A) := do
  let x ← w.so.rcv.mem m
  let w := { w with delivered := w.delivered ++ bytes }
  let c := { c with resid := c.resid - len }
  if len = x.body.len then
    let c := { c with eor := c.eor || x.body.eor }
    let rcv := State.free { w.so.rcv with sb := sbfree w.so.rcv.sb x.body } m
    let rcv := { rcv with sb := { rcv.sb with mb := x.next } }
    let rcv ← match x.next with
      | none => some rcv
      | some n => (rcv.mem n).map fun y => rcv.write n { y with nextpkt := x.nextpkt }
    some { w with
      so := { w.so with rcv := rcv }
      proc := afterCopy c x.next x.nextpkt }
  else
    some { w with
      so := { w.so with rcv := w.so.rcv.trim m x len }
      proc := afterCopy c (some m) nextrecord }

/-- The head of the main loop, with the panic `receive 3`. -/
def loopHead (w : World A) (c : Receive) (m nextrecord : Option A) : Option (World A) :=
  match m with
  | none => some { w with proc := .finish c m nextrecord }
  | some a =>
    if c.resid = 0 then some { w with proc := .finish c m nextrecord }
    else do
      let x ← w.so.rcv.mem a
      if x.body.mtype ≠ .data ∧ x.body.mtype ≠ .header then none
      else
        let len := min c.resid x.body.len
        if c.mp then consume w c a nextrecord len (x.body.data.take len)
        else some { w with proc := .moving c a nextrecord len [] }

/-- The head of the loop for `MSG_WAITALL`. -/
def waitallHead (w : World A) (c : Receive) (m nextrecord : Option A) : World A :=
  if c.waitall ∧ m = none ∧ 0 < c.resid ∧ nextrecord = none ∧ w.so.error = 0 ∧ w.so.cantrcvmore = false then
    { w with proc := .sleepingAll c nextrecord }
  else { w with proc := .loop c m nextrecord }

/-- When the first record is finished the buffer begins with the next one. -/
def dropFirst (so : Socket A) (m nextrecord : Option A) : Socket A :=
  if m = none then { so with rcv := { so.rcv with sb := { so.rcv.sb with mb := nextrecord } } } else so

/-- Behind the main loop. -/
def finish (w : World A) (c : Receive) (m nextrecord : Option A) : World A :=
  let so := dropFirst w.so m nextrecord
  if c.origResid = c.resid ∧ c.origResid ≠ 0 ∧ c.eor = false ∧ so.cantrcvmore = false then
    { w with so := so.unlock, proc := .restart c }
  else { w with so := so.unlock, proc := .idle 0 }

inductive Action (A : Type) where
  /-- The protocol appends a chain. -/
  | append (m : List (A × Body))
  /-- The state of the socket and the limits of the buffer are changed. -/
  | change (error : Nat) (cantrcvmore connected nbio : Bool) (hiwat mbmax lowat : Nat)
  | call (resid : Nat) (waitall dontwait mp : Bool)
  /-- `uiomove` copies so many bytes more, or what is left of `len`. -/
  | copy (n : Nat)
  /-- `sbwait` returns. -/
  | wake (error : Nat)
  /-- The process goes on to the next point. -/
  | go
deriving DecidableEq

/-- The process in `sbwait` is awake again. -/
def wake (w : World A) (error : Nat) : Option (World A) :=
  match w.proc with
  | .sleeping c => some { w with proc := if error ≠ 0 then .idle error else .restart c }
  | .sleepingAll c nextrecord =>
    if error ≠ 0 then some { w with so := w.so.unlock, proc := .idle 0 }
    else do
      let m ← load w.so.rcv.mem w.so.rcv.sb.mb
      some { w with proc := .waitall c w.so.rcv.sb.mb ((m.map Mbuf.nextpkt).getD nextrecord) }
  | _ => some w

def go (w : World A) : Option (World A) :=
  match w.proc with
  | .restart c => start w c
  | .loop c m nextrecord => loopHead w c m nextrecord
  | .moving c m nextrecord len copied => if copied.length = len then consume w c m nextrecord len copied else some w
  | .waitall c m nextrecord => some (waitallHead w c m nextrecord)
  | .finish c m nextrecord => some (finish w c m nextrecord)
  | .idle _ | .sleeping _ | .sleepingAll .. => some w

def copyBytes (w : World A) (n : Nat) : Option (World A) :=
  match w.proc with
  | .moving c m nextrecord len copied => do
    let x ← w.so.rcv.mem m
    let piece := (x.body.data.drop copied.length).take (min n (len - copied.length))
    some { w with proc := .moving c m nextrecord len (copied ++ piece) }
  | _ => some w

/-- One action; nothing happens where the process is not at a point for it. -/
def World.step (w : World A) : Action A → Option (World A)
  | .append m =>
    if w.proc.interruptible then
      (sbappend (fill w.so.rcv m) (headOf m)).map fun rcv =>
        { w with so := { w.so with rcv := rcv }, appended := w.appended ++ bytesOf (bodies m) }
    else some w
  | .change error cantrcvmore connected nbio hiwat mbmax lowat =>
    if w.proc.interruptible then
      some { w with so := { w.so with
        error := error, cantrcvmore := cantrcvmore, connected := connected, nbio := nbio
        rcv := { w.so.rcv with sb := { w.so.rcv.sb with hiwat := hiwat, mbmax := mbmax, lowat := lowat } } } }
    else some w
  | .call resid waitall dontwait mp =>
    match w.proc with
    | .idle _ => some { w with proc := .restart { resid, origResid := resid, waitall, dontwait, mp } }
    | _ => some w
  | .copy n => copyBytes w n
  | .wake error => wake w error
  | .go => go w

end Reading.Kern.Sb
