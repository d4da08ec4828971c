import Reading.Lib.Transition
import Reading.Tcp.Assembly

/-!
# FIN in the reassembly queue

The FIN of a stream is a flag in the header of a segment that ends where the stream ends. `tcp_reass` compares data only: it drops a segment whose octets the preceding one provides, and it takes a queued segment off that a new one covers, and in both cases the header goes with the data. Peers may send the last octets again without FIN or with it, so that the octets stay in the queue and the FIN does not.

`FinSafe` is the condition on the queue and the segment under which this does not happen, and where every call meets it the call that reaches the end of the stream returns the FIN. Positions count from the first octet, so they do not wrap, and all segments are passed within `2 ^ 30` octets of `rcv_nxt`, which is more than any window `rcv_scale` allows.
-/

namespace Reading.Tcp

open Reading.Kern

/-- A stream by the sequence number of its first octet and the position behind its last one. -/
structure Course where
  first : TcpSeq
  last : Nat

namespace Course

variable (cs : Course)

def seqAt (p : Nat) : TcpSeq := cs.first + BitVec.ofNat 32 p

/-- A segment with data or a FIN that covers the octets from `p` on, within reach of the position `n`, and has the FIN only if it ends with the stream. -/
structure Part (n : Nat) (ti : Seg) (p : Nat) : Prop where
  seq : ti.tiSeq = cs.seqAt p
  within : p + ti.tiLen ≤ cs.last
  fin : ti.tiFlags.fin = true → p + ti.tiLen = cs.last
  carries : ti.tiLen ≠ 0 ∨ ti.tiFlags.fin = true
  above : n < p + 2 ^ 30
  below : p + ti.tiLen < n + 2 ^ 30

/-- The segments of a queue follow each other from the position `lo` on. -/
def Ordered (n : Nat) : Nat → List Seg → Prop
  | _, [] => True
  | lo, q :: qs => ∃ p, lo ≤ p ∧ cs.Part n q p ∧ Ordered n (p + q.tiLen) qs

end Course

/-- A segment that carries FIN is among them. -/
def HasFin (segs : List Seg) : Prop := ∃ q ∈ segs, q.tiFlags.fin = true

instance (segs : List Seg) : Decidable (HasFin segs) := inferInstanceAs (Decidable (∃ q ∈ segs, _))

/-- The FIN of the segment does not come with octets that a queued segment without it already ends with, and no queued FIN comes with octets that the segment covers without carrying it. -/
def FinSafe (segs : List Seg) (ti : Seg) : Prop :=
  (ti.tiFlags.fin = true → ti.tiLen ≠ 0 → ¬ HasFin segs → ∀ q ∈ segs, seqLEQ q.tiSeq ti.tiSeq → q.after ≠ ti.after) ∧
    (ti.tiFlags.fin = false → ∀ q ∈ segs, q.tiFlags.fin = true → q.tiLen ≠ 0 → seqGT q.tiSeq ti.tiSeq → q.after ≠ ti.after)

instance (segs : List Seg) (ti : Seg) : Decidable (FinSafe segs ti) := inferInstanceAs (Decidable (_ ∧ _))

variable {cs : Course} {n p r lo : Nat} {ti q : Seg} {segs segs' : List Seg}

theorem Course.seqDiff_seqAt (cs : Course) {a b : Nat} (hab : a < b + 2 ^ 31) (hba : b ≤ a + 2 ^ 31) :
    seqDiff (cs.seqAt a) (cs.seqAt b) = (a : Int) - b :=
  seqDiff_ofNat cs.first hab hba

theorem Course.seqAt_add (cs : Course) (a b : Nat) : cs.seqAt a + BitVec.ofNat 32 b = cs.seqAt (a + b) := by
  rw [Course.seqAt, Course.seqAt, BitVec.add_assoc, BitVec.ofNat_add]

namespace Course.Part

theorem after (h : cs.Part n ti p) : ti.after = cs.seqAt (p + ti.tiLen) := by
  rw [Seg.after, h.seq, Course.seqAt_add]

theorem diff_seq (hq : cs.Part n q r) (hti : cs.Part n ti p) : seqDiff q.tiSeq ti.tiSeq = (r : Int) - p := by
  have := hq.above; have := hq.below; have := hti.above; have := hti.below
  rw [hq.seq, hti.seq]
  exact cs.seqDiff_seqAt (by omega) (by omega)

theorem diff_after (hq : cs.Part n q r) (hti : cs.Part n ti p) :
    seqDiff q.after ti.tiSeq = ((r + q.tiLen : Nat) : Int) - p := by
  have := hq.above; have := hq.below; have := hti.above; have := hti.below
  rw [hq.after, hti.seq]
  exact cs.seqDiff_seqAt (by omega) (by omega)

theorem trimHead (h : cs.Part n ti p) {i : Int} (hpos : 0 ≤ i) (hi : i < ti.tiLen) :
    cs.Part n (ti.trimHead i) (p + i.toNat) := by
  have hlen : (ti.trimHead i).tiLen = ti.tiLen - i.toNat := rfl
  have hflags : (ti.trimHead i).tiFlags = ti.tiFlags := rfl
  have hwithin := h.within
  have habove := h.above
  have hbelow := h.below
  refine ⟨?_, by omega, fun hfin => ?_, .inl (by omega), by omega, by omega⟩
  · have hcast : BitVec.ofInt 32 i = BitVec.ofNat 32 i.toNat := by
      rw [← BitVec.ofInt_natCast, Int.toNat_of_nonneg hpos]
    change ti.tiSeq + BitVec.ofInt 32 i = _
    rw [h.seq, hcast, Course.seqAt_add]
  · have := h.fin (hflags ▸ hfin)
    omega

theorem move (h : cs.Part n ti p) {n' : Nat} (hn' : n ≤ n') (hp : n' ≤ p) : cs.Part n' ti p := by
  have hbelow := h.below
  exact ⟨h.seq, h.within, h.fin, h.carries, by omega, by omega⟩

end Course.Part

namespace Course.Ordered

theorem mono {lo' : Nat} (h : cs.Ordered n lo segs) (hle : lo' ≤ lo) : cs.Ordered n lo' segs := by
  cases segs with
  | nil => trivial
  | cons q qs =>
    obtain ⟨p, hp, hrest⟩ := h
    exact ⟨p, by omega, hrest⟩

theorem mem (h : cs.Ordered n lo segs) (hq : q ∈ segs) : ∃ p, lo ≤ p ∧ cs.Part n q p := by
  induction segs generalizing lo with
  | nil => cases hq
  | cons a segs ih =>
    obtain ⟨r, hr, ha, hsegs⟩ := h
    cases hq with
    | head => exact ⟨r, hr, ha⟩
    | tail _ hq =>
      obtain ⟨p, hp, hpart⟩ := ih hsegs hq
      exact ⟨p, by omega, hpart⟩

theorem move (h : cs.Ordered n lo segs) {n' : Nat} (hn' : n ≤ n') (hlo : n' ≤ lo) : cs.Ordered n' lo segs := by
  induction segs generalizing lo with
  | nil => trivial
  | cons q qs ih =>
    obtain ⟨p, hp, hq, hqs⟩ := h
    exact ⟨p, hp, hq.move hn' (by omega), ih hqs (by omega)⟩

/-- After the trimming the queue follows the segment. -/
theorem trimSucc (hti : cs.Part n ti p) (h : cs.Ordered n lo segs) : cs.Ordered n (p + ti.tiLen) (Tcp.trimSucc ti segs) := by
  induction segs generalizing lo with
  | nil => trivial
  | cons q qs ih =>
    obtain ⟨r, -, hq, hqs⟩ := h
    have hdiff := hti.diff_after hq
    unfold Tcp.trimSucc
    by_cases hbefore : seqDiff ti.after q.tiSeq ≤ 0
    · rw [if_pos hbefore]
      exact ⟨r, by omega, hq, hqs⟩
    · rw [if_neg hbefore]
      by_cases hpart : seqDiff ti.after q.tiSeq < q.tiLen
      · -- the front of `q` is covered
        rw [if_pos hpart]
        have hlen : (q.trimHead (seqDiff ti.after q.tiSeq)).tiLen = q.tiLen - (seqDiff ti.after q.tiSeq).toNat := rfl
        refine ⟨_, ?_, hq.trimHead (by omega) hpart, ?_⟩
        · omega
        · rw [hlen]
          exact hqs.mono (by omega)
      · rw [if_neg hpart]
        exact ih hqs

end Course.Ordered

/-! ### Insertion -/

/-- The segment that precedes an insertion ends at `lo` and does not begin after the inserted one. -/
def Course.Precedes (cs : Course) (n : Nat) (prev? : Option Seg) (lo p : Nat) : Prop :=
  match prev? with
  | none => lo ≤ p
  | some q => ∃ r, cs.Part n q r ∧ r + q.tiLen = lo ∧ r ≤ p

theorem Course.Part.trimByPrev {prev? : Option Seg} {ti' : Seg} (hti : cs.Part n ti p) (hprev : cs.Precedes n prev? lo p)
    (htrim : trimByPrev prev? ti = some ti') :
    ∃ p', lo ≤ p' ∧ cs.Part n ti' p' ∧ p' + ti'.tiLen = p + ti.tiLen ∧ ti'.tiFlags = ti.tiFlags := by
  cases prev? with
  | none =>
    obtain rfl : ti = ti' := Option.some.inj htrim
    exact ⟨p, hprev, hti, rfl, rfl⟩
  | some q =>
    obtain ⟨r, hq, hend, hle⟩ := hprev
    have hdiff := hq.diff_after hti
    rw [Tcp.trimByPrev] at htrim
    by_cases hover : seqDiff q.after ti.tiSeq > 0
    · rw [if_pos hover] at htrim
      by_cases hall : seqDiff q.after ti.tiSeq ≥ ti.tiLen
      · rw [if_pos hall] at htrim
        cases htrim
      · rw [if_neg hall] at htrim
        obtain rfl := Option.some.inj htrim
        have hlen : (ti.trimHead (seqDiff q.after ti.tiSeq)).tiLen = ti.tiLen - (seqDiff q.after ti.tiSeq).toNat := rfl
        exact ⟨_, by omega, hti.trimHead (by omega) (by omega), by omega, rfl⟩
    · rw [if_neg hover] at htrim
      obtain rfl := Option.some.inj htrim
      exact ⟨p, by omega, hti, rfl, rfl⟩

theorem HasFin.trimSucc (h : cs.Ordered n lo segs) (hti : cs.Part n ti p) (hfin : HasFin segs)
    (hsafe : ∀ q ∈ segs, q.tiFlags.fin = true → q.tiLen ≠ 0 → q.after ≠ ti.after) : HasFin (trimSucc ti segs) := by
  induction segs generalizing lo with
  | nil => exact hfin
  | cons q qs ih =>
    obtain ⟨r, -, hq, hqs⟩ := h
    have hdiff := hti.diff_after hq
    obtain ⟨f, hf, hflag⟩ := hfin
    unfold Tcp.trimSucc
    by_cases hbefore : seqDiff ti.after q.tiSeq ≤ 0
    · rw [if_pos hbefore]
      exact ⟨f, hf, hflag⟩
    · rw [if_neg hbefore]
      by_cases hpart : seqDiff ti.after q.tiSeq < q.tiLen
      · rw [if_pos hpart]
        obtain rfl | hf := List.mem_cons.mp hf
        · exact ⟨_, List.mem_cons_self, hflag⟩
        · exact ⟨f, List.mem_cons_of_mem _ hf, hflag⟩
      · rw [if_neg hpart]
        obtain rfl | hf := List.mem_cons.mp hf
        · -- A covered segment with FIN would end where `ti` ends.
          have hend := hq.fin hflag
          have hwithin := hti.within
          have hlen : f.tiLen ≠ 0 := by omega
          have hsame : p + ti.tiLen = r + f.tiLen := by omega
          exact absurd (by rw [hq.after, hti.after, hsame]) (hsafe f List.mem_cons_self hflag hlen)
        · exact ih hqs ⟨f, hf, hflag⟩ fun q hq => hsafe q (List.mem_cons_of_mem _ hq)

/-- An inserted segment that carries FIN, or covers no FIN of the queue. -/
def Covers (segs : List Seg) (ti : Seg) : Prop :=
  ti.tiFlags.fin = true ∨
    HasFin segs ∧ ∀ q ∈ segs, q.tiFlags.fin = true → q.tiLen ≠ 0 → seqGT q.tiSeq ti.tiSeq → q.after ≠ ti.after

theorem Course.Ordered.insertAfter {prev? : Option Seg} (h : cs.Ordered n lo segs) (hprev : cs.Precedes n prev? lo p)
    (hti : cs.Part n ti p) (hins : insertAfter prev? segs ti = some segs') :
    cs.Ordered n lo segs' ∧ (Covers segs ti → HasFin segs') := by
  induction segs generalizing lo prev? segs' with
  | nil =>
    have hnil : Tcp.insertAfter prev? [] ti = (Tcp.trimByPrev prev? ti).map fun ti => [ti] := by
      simp [Tcp.insertAfter, splitBefore, Tcp.trimSucc]
    rw [hnil, Option.map_eq_some_iff] at hins
    obtain ⟨ti', htrim, rfl⟩ := hins
    obtain ⟨p', hlo, hti', -, hflags⟩ := hti.trimByPrev hprev htrim
    refine ⟨⟨p', hlo, hti', trivial⟩, ?_⟩
    rintro (hfin | ⟨⟨q, hq, -⟩, -⟩)
    · exact ⟨ti', List.mem_cons_self, hflags ▸ hfin⟩
    · cases hq
  | cons q qs ih =>
    obtain ⟨r, hr, hq, hqs⟩ := id h
    by_cases hgt : seqGT q.tiSeq ti.tiSeq
    · rw [insertAfter_of_gt hgt, Option.map_eq_some_iff] at hins
      obtain ⟨ti', htrim, rfl⟩ := hins
      obtain ⟨p', hlo, hti', hend, hflags⟩ := hti.trimByPrev hprev htrim
      refine ⟨⟨p', hlo, hti', h.trimSucc hti'⟩, ?_⟩
      rintro (hfin | ⟨hfin, hsafe⟩)
      · exact ⟨ti', List.mem_cons_self, hflags ▸ hfin⟩
      · have hafter : ti'.after = ti.after := by rw [hti'.after, hti.after, hend]
        obtain ⟨f, hf, hflag⟩ := HasFin.trimSucc h hti' hfin fun a ha hflag hlen => by
          rw [hafter]
          refine hsafe a ha hflag hlen ?_
          -- The queue is in order, so what is behind `q` begins after `ti` too.
          obtain ⟨s, hs, hpart⟩ : ∃ s, r ≤ s ∧ cs.Part n a s := by
            obtain rfl | ha := List.mem_cons.mp ha
            · exact ⟨r, le_rfl, hq⟩
            · obtain ⟨s, hs, hpart⟩ := hqs.mem ha
              exact ⟨s, by omega, hpart⟩
          have hqdiff := hq.diff_seq hti
          have hadiff := hpart.diff_seq hti
          unfold seqGT at *
          omega
        exact ⟨f, List.mem_cons_of_mem _ hf, hflag⟩
    · rw [insertAfter_cons hgt, Option.map_eq_some_iff] at hins
      obtain ⟨segs'', hrest, rfl⟩ := hins
      have hle : r ≤ p := by
        have hdiff := hq.diff_seq hti
        unfold seqGT at hgt
        omega
      have hprev' : cs.Precedes n (some q) (r + q.tiLen) p := ⟨r, hq, rfl, hle⟩
      obtain ⟨hordered, hkeeps⟩ := ih hqs hprev' hrest
      refine ⟨⟨r, hr, hq, hordered⟩, ?_⟩
      rintro (hfin | ⟨⟨f, hf, hflag⟩, hsafe⟩)
      · obtain ⟨f, hf, hflag⟩ := hkeeps (.inl hfin)
        exact ⟨f, List.mem_cons_of_mem _ hf, hflag⟩
      · obtain rfl | hf := List.mem_cons.mp hf
        · exact ⟨f, List.mem_cons_self, hflag⟩
        · obtain ⟨f', hf', hflag'⟩ :=
            hkeeps (.inr ⟨⟨f, hf, hflag⟩, fun a ha => hsafe a (List.mem_cons_of_mem _ ha)⟩)
          exact ⟨f', List.mem_cons_of_mem _ hf', hflag'⟩

theorem splitBefore_fst {segs : List Seg} (hq : q ∈ (splitBefore ti segs).1) : q ∈ segs ∧ ¬ seqGT q.tiSeq ti.tiSeq := by
  induction segs with
  | nil => cases hq
  | cons a segs ih =>
    rw [splitBefore] at hq
    split at hq
    case isTrue => cases hq
    case isFalse hle =>
      obtain rfl | hq := List.mem_cons.mp hq
      · exact ⟨List.mem_cons_self, hle⟩
      · exact ⟨List.mem_cons_of_mem _ (ih hq).1, (ih hq).2⟩

/-- A segment that is dropped is provided by one that does not begin after it. -/
theorem insertSeg_eq_none (h : insertSeg segs ti = none) :
    ∃ q ∈ segs, seqLEQ q.tiSeq ti.tiSeq ∧ 0 < seqDiff q.after ti.tiSeq ∧ ti.tiLen ≤ seqDiff q.after ti.tiSeq := by
  have htrim : Tcp.trimByPrev (splitBefore ti segs).1.getLast? ti = none := by simpa [insertSeg] using h
  cases hlast : (splitBefore ti segs).1.getLast? with
  | none =>
    rw [hlast] at htrim
    cases htrim
  | some q =>
    obtain ⟨hq, hle⟩ := splitBefore_fst (List.mem_of_getLast? hlast)
    rw [hlast, Tcp.trimByPrev] at htrim
    refine ⟨q, hq, ?_, ?_⟩
    · unfold seqGT at hle
      unfold seqLEQ
      omega
    · by_cases hover : seqDiff q.after ti.tiSeq > 0
      · rw [if_pos hover] at htrim
        by_cases hall : seqDiff q.after ti.tiSeq ≥ ti.tiLen
        · exact ⟨hover, hall⟩
        · rw [if_neg hall] at htrim
          cases htrim
      · rw [if_neg hover] at htrim
        cases htrim

theorem Course.Ordered.insertSeg (h : cs.Ordered n 0 segs) (hti : cs.Part n ti p) (hins : insertSeg segs ti = some segs') :
    cs.Ordered n 0 segs' ∧ (Covers segs ti → HasFin segs') := by
  have hprev : cs.Precedes n none 0 p := Nat.zero_le p
  rw [← insertAfter_none] at hins
  exact h.insertAfter hprev hti hins

/-- Where the condition holds, the FIN of the queue or of the segment stays in the queue. -/
theorem FinSafe.hasFin (h : FinSafe segs ti) (hordered : cs.Ordered n 0 segs) (hti : cs.Part n ti p)
    (hfin : HasFin segs ∨ ti.tiFlags.fin = true) : HasFin ((insertSeg segs ti).getD segs) := by
  cases hins : insertSeg segs ti with
  | none =>
    by_contra hnone
    have hflag := hfin.resolve_left hnone
    obtain ⟨q, hq, hle, hpos, hall⟩ := insertSeg_eq_none hins
    obtain ⟨r, -, hpart⟩ := hordered.mem hq
    have hdiff := hpart.diff_after hti
    have hend := hti.fin hflag
    have hwithin := hpart.within
    have hsame : r + q.tiLen = p + ti.tiLen := by omega
    exact h.1 hflag (by omega) hnone q hq hle (by rw [hpart.after, hti.after, hsame])
  | some segs' =>
    apply (hordered.insertSeg hti hins).2
    cases hflag : ti.tiFlags.fin with
    | true => exact .inl hflag
    | false => exact .inr ⟨hfin.resolve_right (by simp [hflag]), h.2 hflag⟩

/-! ### Presentation -/

/-- The loop goes on from the position `n`, and if it comes to the end of the stream with a FIN in the queue, the last segment it takes has it. -/
theorem Course.Ordered.presentLoop {m : Nat} (h : cs.Ordered m n segs) (hn : n ≤ cs.last) (hm : m ≤ n)
    (hnear : n < m + 2 ^ 30) (fin : Bool) :
    ∃ k, n + k ≤ cs.last ∧ (k = 0 ∨ n + k < m + 2 ^ 30) ∧ (presentLoop segs (cs.seqAt n) fin).rcvNxt = cs.seqAt (n + k) ∧
      cs.Ordered m (n + k) (presentLoop segs (cs.seqAt n) fin).segs ∧
      (n + k = cs.last → HasFin segs → (presentLoop segs (cs.seqAt n) fin).fin = true) ∧
      (n + k ≠ cs.last → HasFin segs → HasFin (presentLoop segs (cs.seqAt n) fin).segs) := by
  induction segs generalizing n fin with
  | nil => exact ⟨0, hn, .inl rfl, rfl, trivial, fun _ ⟨_, hq, _⟩ => (nomatch hq), fun _ hfin => hfin⟩
  | cons q qs ih =>
    obtain ⟨p, hp, hq, hqs⟩ := id h
    have hwithin := hq.within
    have hbelow := hq.below
    unfold Tcp.presentLoop
    by_cases hseq : q.tiSeq = cs.seqAt n
    · have hpn : p = n := by
        have hdiff : seqDiff q.tiSeq (cs.seqAt n) = (p : Int) - n := by
          rw [hq.seq]
          exact cs.seqDiff_seqAt (by omega) (by omega)
        rw [hseq, seqDiff_self] at hdiff
        omega
      subst hpn
      obtain ⟨k, hk, hfar, hnxt, hqueue, hend, hopen⟩ := ih hqs hwithin (by omega) (by omega) q.tiFlags.fin
      rw [if_pos hseq, Course.seqAt_add]
      have hsum : p + (q.tiLen + k) = p + q.tiLen + k := by omega
      refine ⟨q.tiLen + k, by omega, .inr (by omega), ?_, ?_, ?_, ?_⟩
      · rw [hsum]
        exact hnxt
      · rw [hsum]
        exact hqueue
      · rw [hsum]
        rintro hlast ⟨f, hf, hflag⟩
        obtain rfl | hf := List.mem_cons.mp hf
        · -- Whatever is behind the end of the stream has no octets, so it has the FIN too.
          have hstop := hq.fin hflag
          cases qs with
          | nil => exact hflag
          | cons q' qs' =>
            obtain ⟨p', hp', hq', -⟩ := hqs
            have hwithin' := hq'.within
            exact hend hlast ⟨q', List.mem_cons_self, hq'.carries.resolve_left (by omega)⟩
        · exact hend hlast ⟨f, hf, hflag⟩
      · rw [hsum]
        rintro hlast ⟨f, hf, hflag⟩
        obtain rfl | hf := List.mem_cons.mp hf
        · have hstop := hq.fin hflag
          omega
        · exact hopen hlast ⟨f, hf, hflag⟩
    · rw [if_neg hseq]
      refine ⟨0, hn, .inl rfl, rfl, h, ?_, fun _ hfin => hfin⟩
      intro hlast _
      -- The first segment would begin at the end of the stream.
      have hpn : p = n := by omega
      exact absurd (hpn ▸ hq.seq) hseq

/-! ### Every run of calls -/

/-- A connection between two calls, the position of `rcv_nxt`, and whether a FIN has been passed. -/
structure Intake where
  conn : Conn
  pos : Nat
  passed : Bool := false

/-- `tcp_reass` is called, or the connection changes in some other way that leaves the queue and `rcv_nxt` alone. -/
inductive Turn where
  | reass (ti? : Option Seg)
  | other (c : Conn)

def Intake.step (s : Intake) : Turn → Intake
  | .reass ti? =>
    let c := (tcpReass s.conn ti?).1
    { conn := c, pos := s.pos + (c.tp.rcvNxt - s.conn.tp.rcvNxt).toNat, passed := (ti?.any fun ti => ti.tiFlags.fin) || s.passed }
  | .other c => { s with conn := c }

/-- What the callers of `tcp_reass` pass, and what else happens to a connection. -/
def Course.Fits (cs : Course) (s : Intake) : Turn → Prop
  | .reass none => True
  | .reass (some ti) => ∃ p, cs.Part s.pos ti p
  | .other c => c.tp.segs = s.conn.tp.segs ∧ c.tp.rcvNxt = s.conn.tp.rcvNxt

/-- No FIN is lost in the turn. -/
def SafeTurn (s : Intake) : Turn → Prop
  | .reass (some ti) => FinSafe s.conn.tp.segs ti
  | _ => True

/-- Once a FIN has been passed, the call in which `rcv_nxt` comes to the end of the stream returns it. -/
def Course.ReturnsFin (cs : Course) (s : Intake) : Turn → Prop
  | .reass ti? =>
    (s.step (.reass ti?)).passed = true → s.conn.tp.rcvNxt ≠ cs.seqAt cs.last →
      (tcpReass s.conn ti?).1.tp.rcvNxt = cs.seqAt cs.last → (tcpReass s.conn ti?).2 = true
  | .other _ => True

/-- The queue is in order, and a FIN that has been passed is in it until the stream has been presented. -/
structure Course.Intact (cs : Course) (s : Intake) : Prop where
  rcvNxt : s.conn.tp.rcvNxt = cs.seqAt s.pos
  within : s.pos ≤ cs.last
  ordered : cs.Ordered s.pos 0 s.conn.tp.segs
  near : s.passed = true → cs.last < s.pos + 2 ^ 30
  kept : s.passed = true → s.pos ≠ cs.last → HasFin s.conn.tp.segs

theorem Course.seqAt_sub (cs : Course) (a : Nat) {k : Nat} (hk : k < 2 ^ 32) : (cs.seqAt (a + k) - cs.seqAt a).toNat = k := by
  have hsub : cs.seqAt (a + k) - cs.seqAt a = BitVec.ofNat 32 k := by
    rw [← Course.seqAt_add, BitVec.add_comm, BitVec.add_sub_cancel]
  rw [hsub, BitVec.toNat_ofNat, Nat.mod_eq_of_lt hk]

/-- Two positions that are not far apart have different sequence numbers. -/
theorem Course.eq_of_seqAt (cs : Course) {a b : Nat} (h : cs.seqAt a = cs.seqAt b) (hab : a ≤ b) (hba : b < a + 2 ^ 31) : a = b := by
  have hdiff := cs.seqDiff_seqAt (a := b) (b := a) hba (by omega)
  rw [h, seqDiff_self] at hdiff
  omega

/-- Where a queue can be presented, it begins at `rcv_nxt`. -/
theorem Course.Ordered.from_head {m : Nat} (h : cs.Ordered m 0 segs) (hhead : ∃ q ∈ segs.head?, q.tiSeq = cs.seqAt m) :
    cs.Ordered m m segs := by
  obtain ⟨q, hq, hseq⟩ := hhead
  cases segs with
  | nil => cases hq
  | cons a qs =>
    obtain rfl : a = q := Option.some.inj hq
    obtain ⟨p, -, hpart, hqs⟩ := h
    have habove := hpart.above
    have hbelow := hpart.below
    have hdiff : seqDiff a.tiSeq (cs.seqAt m) = (p : Int) - m := by
      rw [hpart.seq]
      exact cs.seqDiff_seqAt (by omega) (by omega)
    rw [hseq, seqDiff_self] at hdiff
    exact ⟨p, by omega, hpart, hqs⟩

/-- What a presentation has to do once a FIN has been passed. -/
def Course.Delivers (cs : Course) (passed : Bool) (c : Conn) (result : Conn × Bool) : Prop :=
  passed = true → c.tp.rcvNxt ≠ cs.seqAt cs.last → result.1.tp.rcvNxt = cs.seqAt cs.last → result.2 = true

theorem Course.Intact.present {c : Conn} {pos : Nat} {passed : Bool} (h : cs.Intact { conn := c, pos := pos, passed := passed }) :
    cs.Intact { conn := (present c).1, pos := pos + ((Tcp.present c).1.tp.rcvNxt - c.tp.rcvNxt).toNat, passed := passed } ∧
      cs.Delivers passed c (Tcp.present c) := by
  have hnxt : c.tp.rcvNxt = cs.seqAt pos := h.rcvNxt
  have hwithin : pos ≤ cs.last := h.within
  have hsegs : (Tcp.present c).1.tp.segs = (presented c.tp).segs := rfl
  have hrcv : (Tcp.present c).1.tp.rcvNxt = (presented c.tp).rcvNxt := rfl
  have hflag : (Tcp.present c).2 = (presented c.tp).fin := rfl
  by_cases hpresentable : presentable c.tp
  · have hordered : cs.Ordered pos pos c.tp.segs := by
      obtain ⟨-, q, hq, hseq, -⟩ := hpresentable
      exact h.ordered.from_head ⟨q, hq, hseq.trans hnxt⟩
    obtain ⟨k, hk, hfar, hnxt', hordered', hend, hopen⟩ := hordered.presentLoop hwithin le_rfl (by omega) false
    have hloop : presented c.tp = presentLoop c.tp.segs (cs.seqAt pos) false := by rw [presented, if_pos hpresentable, hnxt]
    rw [← hloop] at hnxt' hordered' hend hopen
    have hadvance : ((Tcp.present c).1.tp.rcvNxt - c.tp.rcvNxt).toNat = k := by
      rw [hrcv, hnxt', hnxt]
      exact cs.seqAt_sub pos (by omega)
    rw [hadvance]
    refine ⟨⟨?_, hk, ?_, ?_, ?_⟩, ?_⟩
    · exact hrcv.trans hnxt'
    · exact (hordered'.move (Nat.le_add_right _ _) le_rfl).mono (Nat.zero_le _)
    · intro hpassed
      have hnear : cs.last < pos + 2 ^ 30 := h.near hpassed
      change cs.last < pos + k + 2 ^ 30
      omega
    · intro hpassed (hne : pos + k ≠ cs.last)
      exact hsegs ▸ hopen hne (h.kept hpassed (by dsimp only; omega))
    · intro hpassed hne hlast
      have hnear : cs.last < pos + 2 ^ 30 := h.near hpassed
      have hpos : pos ≠ cs.last := fun heq => hne (heq ▸ hnxt)
      rw [hrcv, hnxt'] at hlast
      rw [hflag]
      exact hend (cs.eq_of_seqAt hlast hk (by omega)) (h.kept hpassed hpos)
  · have hsame : presented c.tp = { segs := c.tp.segs, rcvNxt := c.tp.rcvNxt } := by rw [presented, if_neg hpresentable]
    have hadvance : ((Tcp.present c).1.tp.rcvNxt - c.tp.rcvNxt).toNat = 0 := by
      rw [hrcv, hsame, BitVec.sub_self]
      rfl
    rw [hadvance]
    constructor
    · refine ⟨?_, hwithin, ?_, h.near, ?_⟩
      · change (presented c.tp).rcvNxt = cs.seqAt pos
        rw [hsame, hnxt]
      · change cs.Ordered pos 0 (presented c.tp).segs
        rw [hsame]
        exact h.ordered
      · change passed = true → pos ≠ cs.last → HasFin (presented c.tp).segs
        rw [hsame]
        exact h.kept
    · intro _ hne hlast
      rw [hrcv, hsame] at hlast
      exact absurd hlast hne

/-- The queue with the segment in it, or as it was if the segment is dropped. -/
theorem Course.Intact.queued {s : Intake} (h : cs.Intact s) (hti : cs.Part s.pos ti p) (hsafe : FinSafe s.conn.tp.segs ti) :
    cs.Intact { conn := { s.conn with tp := { s.conn.tp with segs := (insertSeg s.conn.tp.segs ti).getD s.conn.tp.segs } },
                pos := s.pos, passed := ti.tiFlags.fin || s.passed } := by
  refine ⟨h.rcvNxt, h.within, ?_, ?_, ?_⟩
  · dsimp only
    cases hins : insertSeg s.conn.tp.segs ti with
    | none => exact h.ordered
    | some segs' => exact (h.ordered.insertSeg hti hins).1
  · intro hpassed
    obtain hflag | hpassed := Bool.or_eq_true_iff.mp hpassed
    · have hbelow := hti.below
      have hend := hti.fin hflag
      dsimp only
      omega
    · exact h.near hpassed
  · intro hpassed hne
    apply hsafe.hasFin h.ordered hti
    obtain hflag | hpassed := Bool.or_eq_true_iff.mp hpassed
    · exact .inr hflag
    · exact .inl (h.kept hpassed hne)

theorem Course.Intact.step {s : Intake} {turn : Turn} (h : cs.Intact s) (hfits : cs.Fits s turn) (hsafe : SafeTurn s turn) :
    cs.Intact (s.step turn) ∧ cs.ReturnsFin s turn := by
  cases turn with
  | other c =>
    obtain ⟨hsegs, hnxt⟩ := hfits
    exact ⟨⟨hnxt.trans h.rcvNxt, h.within, hsegs ▸ h.ordered, h.near, hsegs ▸ h.kept⟩, trivial⟩
  | reass ti? =>
    cases ti? with
    | none => exact h.present
    | some ti =>
      obtain ⟨p, hti⟩ := hfits
      have hqueued := h.queued hti hsafe
      cases hins : insertSeg s.conn.tp.segs ti with
      | none =>
        have hresult : tcpReass s.conn (some ti) = (s.conn, false) := by simp only [tcpReass, hins]
        rw [hins] at hqueued
        constructor
        · rw [Intake.step, hresult]
          dsimp only
          rw [BitVec.sub_self]
          exact hqueued
        · intro _ hne hlast
          rw [hresult] at hlast
          exact absurd hlast hne
      | some segs' =>
        have hresult : tcpReass s.conn (some ti) = Tcp.present { s.conn with tp := { s.conn.tp with segs := segs' } } := by
          simp only [tcpReass, hins]
        rw [hins] at hqueued
        obtain ⟨hintact, hdelivers⟩ := hqueued.present
        constructor
        · rw [Intake.step, hresult]
          exact hintact
        · rw [Course.ReturnsFin, hresult]
          exact hdelivers

/-- In every run of calls that each lose no FIN, the call that comes to the end of the stream returns it. -/
theorem tcpReass_returns_fin (cs : Course) (c : Conn) (n : Nat) (turns : List Turn) (hstart : c.tp.rcvNxt = cs.seqAt n)
    (hn : n ≤ cs.last) (hempty : c.tp.segs = [])
    (hrun : Transition.Along Intake.step (fun s turn => cs.Fits s turn ∧ SafeTurn s turn) { conn := c, pos := n } turns) :
    Transition.Along Intake.step cs.ReturnsFin { conn := c, pos := n } turns := by
  have hintact : cs.Intact { conn := c, pos := n } := by
    refine ⟨hstart, hn, ?_, fun hpassed => (nomatch hpassed), fun hpassed => (nomatch hpassed)⟩
    rw [hempty]
    trivial
  exact Transition.along_of_invariant _ (fun s turn hturn h => h.step hturn.1 hturn.2) hrun hintact

/-- An established connection that waits for the octet `0`. -/
def finConn : Conn := { tp := { tState := .established }, so := {} }

/-- The last of two octets, and the first one. -/
def lastOctet (fin : Bool) : Seg := { tiSeq := 1, tiLen := 1, tiFlags := { fin := fin }, m := { chain := [[8]] } }
def firstOctet : Seg := { tiSeq := 0, tiLen := 1, m := { chain := [[7]] } }

theorem part_lastOctet {n : Nat} (hn : n ≤ 1) (fin : Bool) : Course.Part { first := 0, last := 2 } n (lastOctet fin) 1 := by
  refine ⟨rfl, le_rfl, fun _ => rfl, .inl Nat.one_ne_zero, by omega, ?_⟩
  change 1 + 1 < n + 2 ^ 30
  omega

theorem part_firstOctet {n : Nat} (hn : n ≤ 1) : Course.Part { first := 0, last := 2 } n firstOctet 0 := by
  refine ⟨by decide, by decide, fun h => (nomatch h), .inl (by decide), by omega, ?_⟩
  change 0 + 1 < n + 2 ^ 30
  omega

/-- The last octet is queued without FIN, and the segment that brings the FIN is dropped with it. -/
theorem tcpReass_drops_fin :
    ¬ ∀ turns, Transition.Along Intake.step (Course.Fits { first := 0, last := 2 }) { conn := finConn, pos := 0 } turns →
      Transition.Along Intake.step (Course.ReturnsFin { first := 0, last := 2 }) { conn := finConn, pos := 0 } turns := by
  intro h
  have hreturns := h [.reass (some (lastOctet false)), .reass (some (lastOctet true)), .reass (some firstOctet)]
    ⟨⟨1, part_lastOctet (by decide) false⟩, ⟨1, part_lastOctet (by decide) true⟩, ⟨0, part_firstOctet (by decide)⟩, trivial⟩
  exact absurd (hreturns.2.2.1 (by decide) (by decide) (by decide)) (by decide)

/-- The FIN comes first, with the last octet, and the first octet completes the stream. -/
theorem tcpReass_returns_fin_twoOctets :
    (tcpReass (tcpReass finConn (some (lastOctet true))).1 (some firstOctet)).2 = true := by
  have hsafe : FinSafe finConn.tp.segs (lastOctet true) := by decide
  have hsafe' : FinSafe (tcpReass finConn (some (lastOctet true))).1.tp.segs firstOctet := by decide
  have hrun := tcpReass_returns_fin { first := 0, last := 2 } finConn 0
    [.reass (some (lastOctet true)), .reass (some firstOctet)] rfl (by decide) rfl
    ⟨⟨⟨1, part_lastOctet (by decide) true⟩, hsafe⟩, ⟨⟨0, part_firstOctet (by decide)⟩, hsafe'⟩, trivial⟩
  exact hrun.2.1 (by decide) (by decide) (by decide)

end Reading.Tcp
