import Reading.Tcp.Frame

/-!
# The send side of a connection

The first octet of the send buffer is the one that `snd_una` stands for, as long as the connection has data to send. Before that the SYN is outstanding and the buffer is empty; afterwards the buffer is empty for good. The four predicates below are the phases of a connection, seen from its send side:

* `Opening`: the SYN is sent and not acknowledged, and the user cannot send yet;
* `Live`: the buffer holds the stream from position `d` on, `snd_nxt` and `snd_max` are `a` and `b` octets ahead of `snd_una`;
* `Spent`: a socket that was shut down before has been connected again, so that it will never send data;
* `Quiet`: the buffer is empty and nothing will come into it.
-/

namespace Reading.Tcp

open Reading.Kern

structure SndSide where
  tState : TcpState
  iss : TcpSeq
  una : TcpSeq
  nxt : TcpSeq
  max : TcpSeq
  sentfin : Bool
  connected : Bool
  cantsendmore : Bool
  nofdref : Bool
  incomplete : Bool
  acceptconn : Bool
  data : List Byte
  sent : List Seg
  gone : Bool
  underflow : Bool

def Conn.snd (c : Conn) : SndSide where
  tState := c.tp.tState
  iss := c.tp.iss
  una := c.tp.sndUna
  nxt := c.tp.sndNxt
  max := c.tp.sndMax
  sentfin := c.tp.tfSentfin
  connected := c.so.ssIsconnected
  cantsendmore := c.so.ssCantsendmore
  nofdref := c.so.ssNofdref
  incomplete := c.so.soIncomplete
  acceptconn := c.so.soAcceptconn
  data := c.so.soSnd.sbMb
  sent := c.sent
  gone := c.gone
  underflow := decide (c.panicked = some .sbdrop)

/-- The states in which `tcp_output` sends a FIN. -/
def TcpState.sendsFin (t : TcpState) : Prop := t = .finWait1 ∨ t = .closing ∨ t = .lastAck

instance (t : TcpState) : Decidable t.sendsFin := inferInstanceAs (Decidable (_ ∨ _))

/-- The sequence number of the `k`-th octet of data in a segment. -/
def Seg.seqOf (ti : Seg) (k : Nat) : TcpSeq :=
  ti.tiSeq + (if ti.tiFlags.syn then 1 else 0) + BitVec.ofNat 32 k

/-- A segment carries the octet `x` under the sequence number `q`. -/
def Seg.Covers (ti : Seg) (q : TcpSeq) (x : Byte) : Prop :=
  ∃ k, ti.seqOf k = q ∧ ti.m.bytes[k]? = some x

/-- Every octet of data in a segment is the one of the stream that its sequence number stands for. -/
def Seg.Faithful (iss : TcpSeq) (written : List Byte) (ti : Seg) : Prop :=
  ∀ k x, ti.m.bytes[k]? = some x →
    ∃ i, written[i]? = some x ∧ ti.seqOf k = iss + 1 + BitVec.ofNat 32 i

namespace SndSide

/-- The user cannot send. -/
def Mute (s : SndSide) : Prop :=
  s.cantsendmore = true ∨ s.connected = false ∨ s.nofdref = true ∧ s.incomplete = true

structure Quiet (s : SndSide) : Prop where
  empty : s.data = []
  mute : s.Mute
  notOpening : s.tState ≠ .synSent ∧ s.tState ≠ .synReceived
  notEstablished : s.tState ≠ .established
  fin : s.tState.sendsFin ∨ s.sentfin = true → s.cantsendmore = true
  listening : s.tState = .listen → s.acceptconn = true

structure Opening (written : List Byte) (s : SndSide) : Prop where
  empty : s.data = []
  mute : s.Mute
  fresh : written = []
  state : s.tState = .synSent ∨ s.tState = .synReceived
  una : s.una = s.iss
  window : ∃ a b, s.nxt = s.iss + BitVec.ofNat 32 a ∧ s.max = s.iss + BitVec.ofNat 32 b ∧ a ≤ b ∧ b ≤ 1
  fin : s.sentfin = true → s.cantsendmore = true

structure Live (written : List Byte) (s : SndSide) (d a b : Nat) : Prop where
  connected : s.connected = true
  notOpening : s.tState ≠ .synSent ∧ s.tState ≠ .synReceived
  notClosing : s.tState ≠ .finWait2 ∧ s.tState ≠ .timeWait
  fin : s.tState.sendsFin → s.cantsendmore = true
  listening : s.tState = .listen → s.acceptconn = true
  dropped : d ≤ written.length
  data : s.data = written.drop d
  fits : s.data.length + 2 < 2 ^ 31
  una : s.una = s.iss + 1 + BitVec.ofNat 32 d
  nxt : s.nxt = s.una + BitVec.ofNat 32 a
  max : s.max = s.una + BitVec.ofNat 32 b
  ordered : a ≤ b
  bound : s.sentfin = false → b ≤ s.data.length
  finished : s.sentfin = true → b = s.data.length + 1 ∧ s.cantsendmore = true ∧
    s.tState ≠ .established ∧ s.tState ≠ .closeWait
  covered : ∀ j x, j < b → s.data[j]? = some x →
    ∃ ti ∈ s.sent, ti.Covers (s.una + BitVec.ofNat 32 j) x

structure Spent (s : SndSide) : Prop where
  connected : s.connected = true
  state : s.tState = .established
  cantsendmore : s.cantsendmore = true
  empty : s.data = []
  nxt : s.nxt = s.una
  max : s.max = s.una

/-- A connection is in one of the phases, or its control block is gone. -/
inductive Sound (written : List Byte) (s : SndSide) : Prop
  | gone (h : s.gone = true)
  | quiet (h : s.Quiet)
  | opening (h : s.Opening written)
  | live (d a b : Nat) (h : s.Live written d a b)
  | spent (h : s.Spent)

/-- What a step that begins in `o` may have done when it is in `s`: it has sent faithful segments only, and has dropped from the send buffer only octets that were sent and that `ack` acknowledges. -/
structure Progress (written : List Byte) (o : SndSide) (ack : TcpSeq) (s : SndSide) : Prop where
  sound : s.Sound written
  iss : s.iss = o.iss
  sent : ∃ new, s.sent = o.sent ++ new ∧ ∀ ti ∈ new, ti.Faithful o.iss written
  underflow : s.underflow = false
  dropped : ∃ n, s.data = o.data.drop n ∧ ∀ j x, j < n → o.data[j]? = some x →
    seqLT (o.una + BitVec.ofNat 32 j) ack ∧ ∃ ti ∈ o.sent, ti.Covers (o.una + BitVec.ofNat 32 j) x

end SndSide

end Reading.Tcp
