import Reading.Kern.Mbuf

/-!
# Sockets and socket buffers

The part of `struct socket` that TCP reads and writes. A socket buffer is the list of its bytes with the two pairs of limits `sbspace` compares; no record boundary is used on a stream. `sb_mbcnt` counts the mbufs that hold the bytes, which is decided by where data came from and how it was packed, so the functions that change it take the amount as an argument.

The machine stops at a `panic`. `Sockbuf` operations that can panic return `none` there.
-/

namespace Reading.Kern

/-- An unsigned 32-bit quantity, `u_long` or `u_int`. -/
abbrev U32 := BitVec 32

def umin (a b : U32) : U32 := if a < b then a else b

def umax (a b : U32) : U32 := if a > b then a else b

structure Sockbuf where
  sbMb : List Byte := []
  sbHiwat : U32 := 0
  sbMbcnt : U32 := 0
  sbMbmax : U32 := 0
  deriving DecidableEq

/-- `sb_max` as it is initialised. -/
def sbMax : U32 := 256 * 1024

def mclbytes : U32 := 2048

def msize : U32 := 128

namespace Sockbuf

/-- `sb_cc`, the number of bytes in the buffer. -/
def sbCc (sb : Sockbuf) : U32 := BitVec.ofNat 32 sb.sbMb.length

/-- `sbspace`, negative where a limit is exceeded. -/
def sbspace (sb : Sockbuf) : Int :=
  min (sb.sbHiwat - sb.sbCc).toInt (sb.sbMbmax - sb.sbMbcnt).toInt

/-- `sbappend`. -/
def sbappend (sb : Sockbuf) (m : Mbuf) : Sockbuf :=
  { sb with sbMb := sb.sbMb ++ m.bytes, sbMbcnt := sb.sbMbcnt + BitVec.ofNat 32 m.mbcnt }

/-- `sbdrop`: drop `len` bytes from the front; `none` is the panic on a buffer that has fewer. -/
def sbdrop (sb : Sockbuf) (len : Int) (mbcnt : U32) : Option Sockbuf :=
  if len ≤ sb.sbMb.length then
    some { sb with sbMb := sb.sbMb.drop len.toNat, sbMbcnt := sb.sbMbcnt - mbcnt }
  else none

/-- `sbreserve`: a request beyond the limit is refused and changes nothing. -/
def sbreserve (sb : Sockbuf) (cc : U32) : Sockbuf :=
  if cc.toNat > sbMax.toNat * mclbytes.toNat / (msize.toNat + mclbytes.toNat) then sb
  else { sb with sbHiwat := cc, sbMbmax := umin (cc * 2) sbMax }

end Sockbuf

structure Socket where
  ssNofdref : Bool := false
  ssIsconnected : Bool := false
  ssIsconnecting : Bool := false
  ssIsdisconnecting : Bool := false
  ssCantsendmore : Bool := false
  ssCantrcvmore : Bool := false
  ssRcvatmark : Bool := false
  /-- On the queue `so_q0` of a listening socket. -/
  soIncomplete : Bool := false
  soAcceptconn : Bool := false
  soKeepalive : Bool := false
  soLinger : Bool := false
  soOobinline : Bool := false
  /-- The linger interval. -/
  soLingertime : Int := 0
  soError : Int := 0
  soOobmark : U32 := 0
  soSnd : Sockbuf := {}
  soRcv : Sockbuf := {}
  deriving DecidableEq

namespace Socket

def soisconnecting (so : Socket) : Socket :=
  { so with ssIsconnected := false, ssIsdisconnecting := false, ssIsconnecting := true }

/-- A connection on the queue of incomplete ones moves to `so_q`, from where it can be accepted. -/
def soisconnected (so : Socket) : Socket :=
  { so with
    ssIsconnecting := false, ssIsdisconnecting := false, ssIsconnected := true
    soIncomplete := false }

def soisdisconnecting (so : Socket) : Socket :=
  { so with
    ssIsconnecting := false, ssIsdisconnecting := true, ssCantrcvmore := true
    ssCantsendmore := true }

def soisdisconnected (so : Socket) : Socket :=
  { so with
    ssIsconnecting := false, ssIsconnected := false, ssIsdisconnecting := false
    ssCantrcvmore := true, ssCantsendmore := true }

def socantsendmore (so : Socket) : Socket := { so with ssCantsendmore := true }

def socantrcvmore (so : Socket) : Socket := { so with ssCantrcvmore := true }

/-- `soreserve`. -/
def soreserve (so : Socket) (sndcc rcvcc : U32) : Socket :=
  { so with soSnd := so.soSnd.sbreserve sndcc, soRcv := so.soRcv.sbreserve rcvcc }

/-- The socket `sonewconn` makes for a listening one. -/
def sonewconn (head : Socket) : Socket :=
  ({ head with
    ssNofdref := true, soIncomplete := true, soAcceptconn := false, soError := 0, soOobmark := 0
    soSnd := {}, soRcv := {} } : Socket).soreserve head.soSnd.sbHiwat head.soRcv.sbHiwat

/-- `sbflush(&so->so_rcv)`. -/
def flushRcv (so : Socket) : Socket := { so with soRcv := { so.soRcv with sbMb := [], sbMbcnt := 0 } }

end Socket

end Reading.Kern
