import Reading.Lib.Stream
import Reading.Tcp.Reass

/-!
# The reassembly queue and the stream

A segment of a stream is placed at a position: it carries the octets from there on, under the sequence number that stands for the position. Positions count from the first octet of the stream, so they do not wrap; the sequence numbers of a window of less than `2 ^ 31` octets compare as the positions do. `Queued` says of a reassembly queue that its segments are placed one after the other from a position on.
-/

namespace Reading.Tcp

open Reading.Kern
open Reading.Lib

/-- A stream of octets, the sequence number of its first one, and the first position of the window that all segments lie in. -/
structure Source where
  stream : Nat → Byte
  first : TcpSeq
  lo : Nat := 0

namespace Source

variable (src : Source)

/-- The sequence number of a position. -/
def seqAt (p : Nat) : TcpSeq := src.first + BitVec.ofNat 32 p

/-- The octets of a segment are those of the stream from position `p` on. -/
structure Placed (ti : Seg) (p : Nat) : Prop where
  seq : ti.tiSeq = src.seqAt p
  bytes : ti.m.bytes = slice src.stream p ti.tiLen
  lower : src.lo ≤ p
  upper : p + ti.tiLen < src.lo + 2 ^ 31

/-- The segments of a queue are placed in order from position `n` on, without overlap. -/
def Queued : Nat → List Seg → Prop
  | _, [] => True
  | n, q :: qs =>
    ∃ p, n ≤ p ∧ src.Placed q p ∧ 0 < q.tiLen ∧ q.tiFlags.fin = false ∧ Queued (p + q.tiLen) qs

end Source

variable {src : Source} {ti : Seg} {p n : Nat}

theorem Source.seqDiff_seqAt (src : Source) {a b : Nat} (hab : a < b + 2 ^ 31) (hba : b ≤ a + 2 ^ 31) :
    seqDiff (src.seqAt a) (src.seqAt b) = (a : Int) - b :=
  seqDiff_ofNat src.first hab hba

theorem Source.Placed.after (h : src.Placed ti p) : ti.after = src.seqAt (p + ti.tiLen) := by
  rw [Seg.after, h.seq, Source.seqAt, Source.seqAt, BitVec.add_assoc, BitVec.ofNat_add]

theorem Source.Placed.trimHead (h : src.Placed ti p) {i : Int} (hpos : 0 ≤ i) (hi : i ≤ ti.tiLen) :
    src.Placed (ti.trimHead i) (p + i.toNat) := by
  have hlen : (ti.trimHead i).tiLen = ti.tiLen - i.toNat := rfl
  have hlower := h.lower
  have hupper := h.upper
  refine ⟨?_, ?_, by omega, by omega⟩
  · have hcast : BitVec.ofInt 32 i = BitVec.ofNat 32 i.toNat := by
      rw [← BitVec.ofInt_natCast, Int.toNat_of_nonneg hpos]
    change ti.tiSeq + BitVec.ofInt 32 i = _
    rw [h.seq, hcast, Source.seqAt, Source.seqAt, BitVec.add_assoc, BitVec.ofNat_add]
  · change (mAdj ti.m i).bytes = _
    rw [bytes_mAdj_head _ hpos, h.bytes, drop_slice, hlen]

/-! ### Order in the queue -/

theorem Source.Queued.mem {segs : List Seg} {q : Seg} (h : src.Queued n segs) (hq : q ∈ segs) :
    ∃ p, n ≤ p ∧ src.Placed q p := by
  induction segs generalizing n with
  | nil => cases hq
  | cons a segs ih =>
    obtain ⟨r, hr, ha, -, -, hsegs⟩ := h
    cases hq with
    | head => exact ⟨r, hr, ha⟩
    | tail _ hq =>
      obtain ⟨p, hp, hplaced⟩ := ih hsegs hq
      exact ⟨p, by omega, hplaced⟩

/-- The segments are in the order of their sequence numbers, and each ends before the next begins. -/
theorem Source.Queued.pairwise {segs : List Seg} (h : src.Queued n segs) :
    segs.Pairwise fun a b => seqLT a.tiSeq b.tiSeq ∧ seqLEQ a.after b.tiSeq := by
  induction segs generalizing n with
  | nil => exact List.Pairwise.nil
  | cons a segs ih =>
    obtain ⟨r, -, ha, hpos, -, hsegs⟩ := h
    refine List.Pairwise.cons (fun b hb => ?_) (ih hsegs)
    obtain ⟨p, hp, hplaced⟩ := hsegs.mem hb
    have hupper := hplaced.upper
    have hlower := ha.lower
    have hstart : seqDiff a.tiSeq b.tiSeq = (r : Int) - p := by
      rw [ha.seq, hplaced.seq]
      exact src.seqDiff_seqAt (by omega) (by omega)
    have hend : seqDiff a.after b.tiSeq = ((r + a.tiLen : Nat) : Int) - p := by
      rw [ha.after, hplaced.seq]
      exact src.seqDiff_seqAt (by omega) (by omega)
    unfold seqLT seqLEQ
    constructor <;> omega

/-! ### Insertion -/

theorem Source.Queued.mono {segs : List Seg} {n' : Nat} (h : src.Queued n segs) (hle : n' ≤ n) :
    src.Queued n' segs := by
  cases segs with
  | nil => trivial
  | cons q qs =>
    obtain ⟨p, hp, hrest⟩ := h
    exact ⟨p, by omega, hrest⟩

/-- After the trimming the queue follows the segment. -/
theorem Source.Queued.trimSucc (hti : src.Placed ti p) {segs : List Seg} (h : src.Queued n segs) :
    src.Queued (p + ti.tiLen) (trimSucc ti segs) := by
  induction segs generalizing n with
  | nil => trivial
  | cons q qs ih =>
    obtain ⟨r, -, hq, hpos, hfin, hqs⟩ := h
    have hdiff : seqDiff ti.after q.tiSeq = ((p + ti.tiLen : Nat) : Int) - r := by
      rw [hti.after, hq.seq]
      apply src.seqDiff_seqAt
      · have := hti.upper; have := hq.lower; omega
      · have := hq.upper; have := hti.lower; omega
    unfold Tcp.trimSucc
    by_cases hbefore : seqDiff ti.after q.tiSeq ≤ 0
    · rw [if_pos hbefore]
      exact ⟨r, by omega, hq, hpos, hfin, hqs⟩
    · rw [if_neg hbefore]
      by_cases hpart : seqDiff ti.after q.tiSeq < q.tiLen
      · -- the front of `q` is covered
        rw [if_pos hpart]
        have hlen : (q.trimHead (seqDiff ti.after q.tiSeq)).tiLen =
            q.tiLen - (seqDiff ti.after q.tiSeq).toNat := rfl
        refine ⟨_, ?_, hq.trimHead (by omega) (by omega), by omega, hfin, ?_⟩
        · omega
        · rw [hlen]
          exact hqs.mono (by omega)
      · rw [if_neg hpart]
        exact ih hqs

/-- Insertion after a segment that ends at position `n`, or before all segments. -/
def insertAfter (prev? : Option Seg) (segs : List Seg) (ti : Seg) : Option (List Seg) :=
  let (before, after) := splitBefore ti segs
  (trimByPrev (before.getLast?.or prev?) ti).map fun ti => before ++ ti :: trimSucc ti after

theorem insertAfter_none (segs : List Seg) (ti : Seg) : insertAfter none segs ti = insertSeg segs ti := by
  simp [insertAfter, insertSeg]

theorem insertAfter_cons {prev? : Option Seg} {q : Seg} {qs : List Seg} (hle : ¬ seqGT q.tiSeq ti.tiSeq) :
    insertAfter prev? (q :: qs) ti = (insertAfter (some q) qs ti).map (q :: ·) := by
  unfold insertAfter
  rw [splitBefore, if_neg hle]
  cases hsplit : splitBefore ti qs with
  | mk before after =>
    have hlast : ((q :: before).getLast?).or prev? = before.getLast?.or (some q) := by
      cases before with
      | nil => rfl
      | cons b bs => simp [List.getLast?_eq_some_getLast]
    simp only [hlast, Option.map_map]
    rfl

theorem insertAfter_of_gt {prev? : Option Seg} {q : Seg} {qs : List Seg} (hgt : seqGT q.tiSeq ti.tiSeq) :
    insertAfter prev? (q :: qs) ti =
      (trimByPrev prev? ti).map fun ti => ti :: trimSucc ti (q :: qs) := by
  simp [insertAfter, splitBefore, hgt]

/-- The segment that precedes an insertion ends where the rest of the queue may begin, and does not begin after the inserted one. -/
def Source.Precedes (src : Source) (prev? : Option Seg) (n p : Nat) : Prop :=
  match prev? with
  | none => n ≤ p
  | some q => ∃ r, src.Placed q r ∧ r + q.tiLen = n ∧ r ≤ p

theorem trimByPrev_placed {prev? : Option Seg} {ti' : Seg} (hprev : src.Precedes prev? n p)
    (hti : src.Placed ti p) (hpos : 0 < ti.tiLen) (htrim : trimByPrev prev? ti = some ti') :
    ∃ p', n ≤ p' ∧ src.Placed ti' p' ∧ 0 < ti'.tiLen ∧ ti'.tiFlags = ti.tiFlags := by
  cases prev? with
  | none =>
    obtain rfl : ti = ti' := Option.some.inj htrim
    exact ⟨p, hprev, hti, hpos, rfl⟩
  | some q =>
    obtain ⟨r, hq, hend, hle⟩ := hprev
    have hdiff : seqDiff q.after ti.tiSeq = (n : Int) - p := by
      rw [hq.after, hti.seq, hend]
      apply src.seqDiff_seqAt
      · have := hq.upper; have := hti.lower; omega
      · have := hti.upper; have := hq.lower; omega
    rw [trimByPrev] at htrim
    by_cases hover : seqDiff q.after ti.tiSeq > 0
    · rw [if_pos hover] at htrim
      by_cases hall : seqDiff q.after ti.tiSeq ≥ ti.tiLen
      · rw [if_pos hall] at htrim
        cases htrim
      · rw [if_neg hall] at htrim
        obtain rfl := Option.some.inj htrim
        have hlen : (ti.trimHead (seqDiff q.after ti.tiSeq)).tiLen =
            ti.tiLen - (seqDiff q.after ti.tiSeq).toNat := rfl
        exact ⟨_, by omega, hti.trimHead (by omega) (by omega), by omega, rfl⟩
    · rw [if_neg hover] at htrim
      obtain rfl := Option.some.inj htrim
      exact ⟨p, by omega, hti, hpos, rfl⟩

theorem Source.Queued.insertAfter {prev? : Option Seg} {segs segs' : List Seg}
    (h : src.Queued n segs) (hprev : src.Precedes prev? n p) (hti : src.Placed ti p)
    (hpos : 0 < ti.tiLen) (hfin : ti.tiFlags.fin = false)
    (hins : insertAfter prev? segs ti = some segs') : src.Queued n segs' := by
  induction segs generalizing n prev? segs' with
  | nil =>
    have hnil : Tcp.insertAfter prev? [] ti = (trimByPrev prev? ti).map fun ti => [ti] := by
      simp [Tcp.insertAfter, splitBefore, Tcp.trimSucc]
    rw [hnil, Option.map_eq_some_iff] at hins
    obtain ⟨ti', htrim, rfl⟩ := hins
    obtain ⟨p', hn, hti', hpos', hflags⟩ := trimByPrev_placed hprev hti hpos htrim
    exact ⟨p', hn, hti', hpos', by rwa [hflags], trivial⟩
  | cons q qs ih =>
    obtain ⟨r, hr, hq, hqpos, hqfin, hqs⟩ := h
    by_cases hgt : seqGT q.tiSeq ti.tiSeq
    · rw [insertAfter_of_gt hgt, Option.map_eq_some_iff] at hins
      obtain ⟨ti', htrim, rfl⟩ := hins
      obtain ⟨p', hn, hti', hpos', hflags⟩ := trimByPrev_placed hprev hti hpos htrim
      have hqueue : src.Queued n (q :: qs) := ⟨r, hr, hq, hqpos, hqfin, hqs⟩
      exact ⟨p', hn, hti', hpos', by rwa [hflags], hqueue.trimSucc hti'⟩
    · rw [insertAfter_cons hgt, Option.map_eq_some_iff] at hins
      obtain ⟨segs'', hrest, rfl⟩ := hins
      have hle : r ≤ p := by
        have hdiff : seqDiff q.tiSeq ti.tiSeq = (r : Int) - p := by
          rw [hq.seq, hti.seq]
          apply src.seqDiff_seqAt
          · have := hq.upper; have := hti.lower; omega
          · have := hti.upper; have := hq.lower; omega
        unfold seqGT at hgt
        omega
      have hprev' : src.Precedes (some q) (r + q.tiLen) p := ⟨r, hq, rfl, hle⟩
      exact ⟨r, hr, hq, hqpos, hqfin, ih hqs hprev' hrest⟩

theorem Source.Queued.insertSeg {segs segs' : List Seg} (h : src.Queued n segs) (hn : n ≤ p)
    (hti : src.Placed ti p) (hpos : 0 < ti.tiLen) (hfin : ti.tiFlags.fin = false)
    (hins : insertSeg segs ti = some segs') : src.Queued n segs' := by
  have hprev : src.Precedes none n p := hn
  rw [← insertAfter_none] at hins
  exact h.insertAfter hprev hti hpos hfin hins

/-! ### Presentation -/

theorem foldl_sbappend (taken : List Mbuf) (sb : Sockbuf) :
    (taken.foldl Sockbuf.sbappend sb).sbMb = sb.sbMb ++ (taken.map Mbuf.bytes).flatten := by
  induction taken generalizing sb with
  | nil => simp
  | cons m taken ih =>
    rw [List.foldl_cons, ih]
    simp [Sockbuf.sbappend]

/-- The loop takes the octets from `rcv_nxt` on and leaves a queue that is placed after them. -/
theorem Source.Queued.presentLoop {segs : List Seg} (h : src.Queued n segs)
    (hlo : src.lo ≤ n) (hhi : n < src.lo + 2 ^ 31) :
    ∃ k, n + k < src.lo + 2 ^ 31 ∧ (presentLoop segs (src.seqAt n) false).rcvNxt = src.seqAt (n + k) ∧
      src.Queued (n + k) (presentLoop segs (src.seqAt n) false).segs ∧
      ((presentLoop segs (src.seqAt n) false).taken.map Mbuf.bytes).flatten = slice src.stream n k ∧
      (presentLoop segs (src.seqAt n) false).fin = false := by
  induction segs generalizing n with
  | nil => exact ⟨0, hhi, rfl, trivial, rfl, rfl⟩
  | cons q qs ih =>
    obtain ⟨r, hr, hq, hpos, hfin, hqs⟩ := id h
    unfold Tcp.presentLoop
    by_cases hseq : q.tiSeq = src.seqAt n
    · have hrn : r = n := by
        have hdiff : seqDiff q.tiSeq (src.seqAt n) = (r : Int) - n := by
          rw [hq.seq]
          apply src.seqDiff_seqAt
          · have := hq.upper; omega
          · omega
        rw [hseq, seqDiff_self] at hdiff
        omega
      subst hrn
      have hnext : src.seqAt r + BitVec.ofNat 32 q.tiLen = src.seqAt (r + q.tiLen) := by
        rw [Source.seqAt, Source.seqAt, BitVec.add_assoc, BitVec.ofNat_add]
      obtain ⟨k, hk, hnxt, hqueue, htaken, hlast⟩ := ih hqs (by omega) hq.upper
      rw [if_pos hseq, hnext, hfin]
      refine ⟨q.tiLen + k, by omega, ?_, ?_, ?_, hlast⟩
      · rw [← Nat.add_assoc]
        exact hnxt
      · rw [← Nat.add_assoc]
        exact hqueue
      · rw [List.map_cons, List.flatten_cons, htaken, hq.bytes, slice_append]
    · rw [if_neg hseq]
      exact ⟨0, hhi, rfl, h, rfl, rfl⟩

/-! ### The receive side of a connection -/

structure RcvSide where
  tState : TcpState
  irs : TcpSeq
  rcvNxt : TcpSeq
  segs : List Seg
  cantrcvmore : Bool
  data : List Byte
  deriving DecidableEq

def Conn.rcv (c : Conn) : RcvSide where
  tState := c.tp.tState
  irs := c.tp.irs
  rcvNxt := c.tp.rcvNxt
  segs := c.tp.segs
  cantrcvmore := c.so.ssCantrcvmore
  data := c.so.soRcv.sbMb

/-- An established connection that still receives has taken the octets before position `n`, and its queue holds octets from there on. -/
structure Source.Assembled (src : Source) (n : Nat) (r : RcvSide) : Prop where
  tState : r.tState = .established
  first : src.first = r.irs + 1
  receiving : r.cantrcvmore = false
  rcvNxt : r.rcvNxt = src.seqAt n
  lower : src.lo ≤ n
  upper : n < src.lo + 2 ^ 31
  queued : src.Queued n r.segs

/-- The octets from `n` to `n + k` are appended. -/
def Source.Advanced (src : Source) (n : Nat) (before after : RcvSide) : Prop :=
  ∃ k, src.Assembled (n + k) after ∧ after.data = before.data ++ slice src.stream n k

theorem Source.Assembled.advanced_of_eq {c c' : Conn} (h : src.Assembled n c.rcv) (heq : c'.rcv = c.rcv) :
    src.Advanced n c.rcv c'.rcv := by
  refine ⟨0, ?_, ?_⟩
  · rw [heq]
    exact h
  · rw [heq, slice_zero, List.append_nil]

theorem Source.Assembled.present {c : Conn} (h : src.Assembled n c.rcv) :
    src.Advanced n c.rcv (present c).1.rcv ∧ (present c).2 = false := by
  have hpresented : ∃ k, n + k < src.lo + 2 ^ 31 ∧ (presented c.tp).rcvNxt = src.seqAt (n + k) ∧
      src.Queued (n + k) (presented c.tp).segs ∧
      ((presented c.tp).taken.map Mbuf.bytes).flatten = slice src.stream n k ∧
      (presented c.tp).fin = false := by
    have hrcv : c.tp.rcvNxt = src.seqAt n := h.rcvNxt
    unfold presented
    by_cases hpresentable : presentable c.tp
    · rw [if_pos hpresentable, hrcv]
      exact h.queued.presentLoop h.lower h.upper
    · rw [if_neg hpresentable]
      exact ⟨0, h.upper, hrcv, h.queued, rfl, rfl⟩
  obtain ⟨k, hk, hnxt, hqueue, htaken, hlast⟩ := hpresented
  have hopen : c.so.ssCantrcvmore = false := h.receiving
  refine ⟨⟨k, ⟨h.tState, h.first, h.receiving, hnxt, Nat.le_add_right_of_le h.lower, hk, hqueue⟩, ?_⟩,
    hlast⟩
  change (if c.so.ssCantrcvmore = true then c.so.soRcv else _).sbMb = _
  rw [hopen, if_neg Bool.false_ne_true, foldl_sbappend, htaken]
  rfl

theorem Source.Assembled.tcpReass {c : Conn} (h : src.Assembled n c.rcv) (hn : n ≤ p)
    (hti : src.Placed ti p) (hpos : 0 < ti.tiLen) (hfin : ti.tiFlags.fin = false) :
    src.Advanced n c.rcv (tcpReass c (some ti)).1.rcv ∧ (tcpReass c (some ti)).2 = false := by
  simp only [Tcp.tcpReass]
  cases hins : insertSeg c.tp.segs ti with
  | none => exact ⟨h.advanced_of_eq rfl, rfl⟩
  | some segs =>
    have hqueue : src.Queued n segs := h.queued.insertSeg hn hti hpos hfin hins
    have hassembled : src.Assembled n ({ c with tp := { c.tp with segs := segs } } : Conn).rcv :=
      ⟨h.tState, h.first, h.receiving, h.rcvNxt, h.lower, h.upper, hqueue⟩
    exact hassembled.present

theorem Source.Assembled.tcpReassMacro {c : Conn} (h : src.Assembled n c.rcv) (hn : n ≤ p)
    (hti : src.Placed ti p) (hpos : 0 < ti.tiLen) (hfin : ti.tiFlags.fin = false) :
    src.Advanced n c.rcv (tcpReassMacro c ti).1.rcv ∧ (tcpReassMacro c ti).2 = false := by
  unfold Tcp.tcpReassMacro
  by_cases hnext : ti.tiSeq = c.tp.rcvNxt ∧ c.tp.segs = [] ∧ c.tp.tState = .established
  · rw [if_pos hnext]
    have hpn : p = n := by
      have hdiff : seqDiff ti.tiSeq c.tp.rcvNxt = (p : Int) - n := by
        have hrcv : c.tp.rcvNxt = src.seqAt n := h.rcvNxt
        rw [hti.seq, hrcv]
        apply src.seqDiff_seqAt
        · have := hti.upper; have := h.lower; omega
        · omega
      rw [hnext.1, seqDiff_self] at hdiff
      omega
    subst hpn
    have hrcv : c.tp.rcvNxt + BitVec.ofNat 32 ti.tiLen = src.seqAt (p + ti.tiLen) := by
      rw [← hnext.1]
      exact hti.after
    have hsegs : c.tp.segs = [] := hnext.2.1
    refine ⟨⟨ti.tiLen, ⟨h.tState, h.first, h.receiving, hrcv, Nat.le_add_right_of_le h.lower,
      hti.upper, ?_⟩, ?_⟩, hfin⟩
    · change src.Queued _ c.tp.segs
      rw [hsegs]
      trivial
    · change c.so.soRcv.sbMb ++ ti.m.bytes = _
      rw [hti.bytes]
      rfl
  · rw [if_neg hnext]
    exact h.tcpReass hn hti hpos hfin

end Reading.Tcp
