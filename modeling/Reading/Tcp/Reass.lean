import Reading.Tcp.Output

/-!
# TCP reassembly

`tcp_reass` and the macro `TCP_REASS`. The reassembly queue is the list of the segments from `seg_next` on, in the order of the queue; a search that stops at a segment splits the list there.
-/

namespace Reading.Tcp

open Reading.Kern

/-- Drop the first `i` bytes of a segment. -/
def Seg.trimHead (ti : Seg) (i : Int) : Seg :=
  { ti with m := mAdj ti.m i, tiLen := ti.tiLen - i.toNat, tiSeq := ti.tiSeq + BitVec.ofInt 32 i }

/-- The segments up to the first that begins after `ti`, and the rest. -/
def splitBefore (ti : Seg) : List Seg → List Seg × List Seg
  | [] => ([], [])
  | q :: qs =>
    if seqGT q.tiSeq ti.tiSeq then ([], q :: qs)
    else
      let (before, after) := splitBefore ti qs
      (q :: before, after)

/-- Trim the incoming segment by what the preceding one provides; `none` if that is all of it. -/
def trimByPrev (prev? : Option Seg) (ti : Seg) : Option Seg :=
  match prev? with
  | none => some ti
  | some q =>
    let i := seqDiff q.after ti.tiSeq
    if i > 0 then if i ≥ ti.tiLen then none else some (ti.trimHead i)
    else some ti

/-- Trim the succeeding segments while `ti` overlaps them, or dequeue those it covers. -/
def trimSucc (ti : Seg) : List Seg → List Seg
  | [] => []
  | q :: qs =>
    let i := seqDiff ti.after q.tiSeq
    if i ≤ 0 then q :: qs
    else if i < q.tiLen then q.trimHead i :: qs
    else trimSucc ti qs

/-- Insert a segment into the queue; `none` if the queue already holds all of it. -/
def insertSeg (segs : List Seg) (ti : Seg) : Option (List Seg) :=
  let (before, after) := splitBefore ti segs
  (trimByPrev before.getLast? ti).map fun ti => before ++ ti :: trimSucc ti after

/-- The result of the loop that presents data: the queue and `rcv_nxt` afterwards, the data taken, and whether the segment taken last carries FIN. -/
structure Presented where
  segs : List Seg
  rcvNxt : TcpSeq
  taken : List Mbuf := []
  fin : Bool := false

/-- The loop that presents data to the user, advancing `rcv_nxt` through completed sequence space. -/
def presentLoop : List Seg → TcpSeq → Bool → Presented
  | [], rcvNxt, fin => { segs := [], rcvNxt := rcvNxt, fin := fin }
  | ti :: segs, rcvNxt, fin =>
    if ti.tiSeq = rcvNxt then
      let rest := presentLoop segs (rcvNxt + BitVec.ofNat 32 ti.tiLen) ti.tiFlags.fin
      { rest with taken := ti.m :: rest.taken }
    else { segs := ti :: segs, rcvNxt := rcvNxt, fin := fin }

/-- The first segment of the queue can be presented. -/
def presentable (tp : Tcpcb) : Prop :=
  tp.tState.haveRcvdSyn ∧
    ∃ ti ∈ tp.segs.head?, ti.tiSeq = tp.rcvNxt ∧ ¬ (tp.tState = .synReceived ∧ ti.tiLen ≠ 0)

instance (tp : Tcpcb) : Decidable (presentable tp) := inferInstanceAs (Decidable (_ ∧ _))

def presented (tp : Tcpcb) : Presented :=
  if presentable tp then presentLoop tp.segs tp.rcvNxt false
  else { segs := tp.segs, rcvNxt := tp.rcvNxt }

/-- From `present` on: the connection and whether a segment with FIN has been taken last. -/
def present (c : Conn) : Conn × Bool :=
  let result := presented c.tp
  ({ c with
     tp := { c.tp with segs := result.segs, rcvNxt := result.rcvNxt }
     so := { c.so with
       soRcv := if c.so.ssCantrcvmore then c.so.soRcv
         else result.taken.foldl Sockbuf.sbappend c.so.soRcv } }, result.fin)

/-- `tcp_reass`; `none` in place of a segment presents what has become presentable. -/
def tcpReass (c : Conn) (ti? : Option Seg) : Conn × Bool :=
  match ti? with
  | none => present c
  | some ti =>
    match insertSeg c.tp.segs ti with
    | none => (c, false)
    | some segs => present { c with tp := { c.tp with segs := segs } }

/-- The macro `TCP_REASS`, which takes the next segment of an established connection past the queue. -/
def tcpReassMacro (c : Conn) (ti : Seg) : Conn × Bool :=
  if ti.tiSeq = c.tp.rcvNxt ∧ c.tp.segs = [] ∧ c.tp.tState = .established then
    ({ c with
       tp := { c.tp with tfDelack := true, rcvNxt := c.tp.rcvNxt + BitVec.ofNat 32 ti.tiLen }
       so := { c.so with soRcv := c.so.soRcv.sbappend ti.m } }, ti.tiFlags.fin)
  else
    let result := tcpReass c (some ti)
    ({ result.1 with tp := { result.1.tp with tfAcknow := true } }, result.2)

/-! ### The next segment of an established connection -/

/-- Two ways to take a segment leave the same `rcv_nxt`, the same receive buffer and the same FIN flag. -/
def SameDelivery (x y : Conn × Bool) : Prop :=
  x.1.tp.rcvNxt = y.1.tp.rcvNxt ∧ x.1.so.soRcv = y.1.so.soRcv ∧ x.2 = y.2

section InOrder

variable {c : Conn} {ti : Seg}

theorem insertSeg_nil (ti : Seg) : insertSeg [] ti = some [ti] := rfl

theorem presented_singleton (hstate : c.tp.tState = .established) (hseq : ti.tiSeq = c.tp.rcvNxt) :
    presented { c.tp with segs := [ti] } =
      { segs := [], rcvNxt := c.tp.rcvNxt + BitVec.ofNat 32 ti.tiLen, taken := [ti.m], fin := ti.tiFlags.fin } := by
  have hpresentable : presentable { c.tp with segs := [ti] } := by
    refine ⟨?_, ti, rfl, hseq, ?_⟩
    · rw [hstate]
      decide
    · rintro ⟨hsyn, -⟩
      rw [hstate] at hsyn
      cases hsyn
  rw [presented, if_pos hpresentable]
  simp only [presentLoop, if_pos hseq]

/-- The queue path takes the segment off the queue at once. -/
theorem tcpReass_next (hstate : c.tp.tState = .established) (hempty : c.tp.segs = []) (hseq : ti.tiSeq = c.tp.rcvNxt) :
    let result := tcpReass c (some ti)
    result.1.tp.rcvNxt = c.tp.rcvNxt + BitVec.ofNat 32 ti.tiLen ∧
      result.1.so.soRcv = (if c.so.ssCantrcvmore then c.so.soRcv else c.so.soRcv.sbappend ti.m) ∧ result.2 = ti.tiFlags.fin := by
  simp only [tcpReass, hempty, insertSeg_nil, present, presented_singleton hstate hseq, List.foldl_cons, List.foldl_nil, and_self]

/-- The macro appends the data whether or not the reader has shut down. -/
theorem tcpReassMacro_next (hstate : c.tp.tState = .established) (hempty : c.tp.segs = []) (hseq : ti.tiSeq = c.tp.rcvNxt) :
    let result := tcpReassMacro c ti
    result.1.tp.rcvNxt = c.tp.rcvNxt + BitVec.ofNat 32 ti.tiLen ∧
      result.1.so.soRcv = c.so.soRcv.sbappend ti.m ∧ result.2 = ti.tiFlags.fin := by
  simp only [tcpReassMacro, if_pos (And.intro hseq (And.intro hempty hstate)), and_self]

theorem sbappend_eq_self_iff (sb : Sockbuf) (m : Mbuf) : sb.sbappend m = sb ↔ m.bytes = [] ∧ BitVec.ofNat 32 m.mbcnt = 0 := by
  constructor
  · intro h
    have hbytes := congrArg Sockbuf.sbMb h
    have hmbcnt := congrArg Sockbuf.sbMbcnt h
    constructor
    · simpa [Sockbuf.sbappend] using hbytes
    · rw [Sockbuf.sbappend] at hmbcnt
      simpa using hmbcnt
  · rintro ⟨hbytes, hmbcnt⟩
    have hzero : sb.sbMbcnt + 0 = sb.sbMbcnt := BitVec.add_zero _
    simp only [Sockbuf.sbappend, hbytes, hmbcnt, List.append_nil, hzero]

/-- The shortcut agrees with the queue path unless data arrives after the reader has shut down: `tcp_reass` then frees it. -/
theorem tcpReassMacro_sameDelivery_iff (hstate : c.tp.tState = .established) (hempty : c.tp.segs = []) (hseq : ti.tiSeq = c.tp.rcvNxt) :
    SameDelivery (tcpReassMacro c ti) (tcpReass c (some ti)) ↔
      (c.so.ssCantrcvmore = true → ti.m.bytes = [] ∧ BitVec.ofNat 32 ti.m.mbcnt = 0) := by
  obtain ⟨hnxt, hrcv, hfin⟩ := tcpReass_next hstate hempty hseq
  obtain ⟨hnxt', hrcv', hfin'⟩ := tcpReassMacro_next hstate hempty hseq
  rw [SameDelivery, hnxt, hrcv, hfin, hnxt', hrcv', hfin']
  cases c.so.ssCantrcvmore with
  | false => simp
  | true => simpa using sbappend_eq_self_iff c.so.soRcv ti.m

end InOrder

theorem tcpReassMacro_sameDelivery_open :
    SameDelivery (tcpReassMacro { tp := { tState := .established }, so := {} } { tiSeq := 0, tiLen := 1, m := { chain := [[7]], mbcnt := 128 } })
      (tcpReass { tp := { tState := .established }, so := {} } (some { tiSeq := 0, tiLen := 1, m := { chain := [[7]], mbcnt := 128 } })) :=
  (tcpReassMacro_sameDelivery_iff rfl rfl rfl).mpr (by decide)

/-- A byte that arrives after the reader has shut down. -/
theorem tcpReassMacro_differs_after_shutdown :
    ¬ ∀ (c : Conn) (ti : Seg), c.tp.tState = .established → c.tp.segs = [] → ti.tiSeq = c.tp.rcvNxt →
      SameDelivery (tcpReassMacro c ti) (tcpReass c (some ti)) := by
  intro h
  have hsame := h { tp := { tState := .established }, so := { ssCantrcvmore := true } }
    { tiSeq := 0, tiLen := 1, m := { chain := [[7]], mbcnt := 128 } } rfl rfl rfl
  have hrcv := hsame.2.1
  revert hrcv
  decide

end Reading.Tcp
