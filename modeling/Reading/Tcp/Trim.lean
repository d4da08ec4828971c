import Reading.Tcp.Input

/-!
# Trimming to the receive window

`tcp_input` cuts what a segment has before `rcv_nxt` and behind the right edge of the window. The positions of a segment are counted from `rcv_nxt` here, so that the window is what lies from `0` up to `rcv_wnd`; they do not wrap as long as the segment lies within `2 ^ 31` octets of `rcv_nxt`. `rcv_wnd` is any 32-bit word, and the difference of the two right edges can wrap where it is large.
-/

namespace Reading.Tcp

open Reading.Kern

namespace Ctx

/-- The position of the first octet, counted from `rcv_nxt`. -/
def start (x : Ctx) : Int := seqDiff x.ti.tiSeq x.c.tp.rcvNxt

/-- The position behind the last octet, which is that of the FIN. -/
def stop (x : Ctx) : Int := x.start + x.ti.tiLen

def InWindow (x : Ctx) (p : Int) : Prop := 0 ≤ p ∧ p < x.c.tp.rcvWnd.toNat

/-- The segment lies within `2 ^ 31` octets of `rcv_nxt`. -/
def Near (x : Ctx) : Prop := -2 ^ 31 < x.start ∧ x.stop < 2 ^ 31

end Ctx

/-- `y` is left of `x` after `front` octets have been cut from its start and `back` from its end. -/
structure Cut (x y : Ctx) (front back : Nat) : Prop where
  rcvNxt : y.c.tp.rcvNxt = x.c.tp.rcvNxt
  rcvWnd : y.c.tp.rcvWnd = x.c.tp.rcvWnd
  flags : y.ti.tiFlags = x.ti.tiFlags
  syn : y.tiflags.syn = x.tiflags.syn
  start : y.start = x.start + front
  len : front + y.ti.tiLen + back = x.ti.tiLen
  bytes : y.ti.m.bytes = (x.ti.m.bytes.drop front).take y.ti.tiLen
  fin : y.tiflags.fin = true → x.tiflags.fin = true ∧ back = 0
  urg : y.tiflags.urg = true → x.tiflags.urg = true ∧
    y.ti.tiSeq + BitVec.ofNat 32 y.ti.tiUrp = x.ti.tiSeq + BitVec.ofNat 32 x.ti.tiUrp

/-- The two blocks that trim. -/
def trimWindow (x : Ctx) : Flow := do trimRight (← trimLeft x)

/-- What a segment passes from the timestamp check to the end of the trimming. -/
def trimInput (env : Env) (x : Ctx) : Flow := do
  let x ← paws env x
  let x ← trimLeft x
  let x ← rcvAfterClose x
  trimRight x

variable {x y z : Ctx}

theorem Cut.stop {front back : Nat} (h : Cut x y front back) : y.stop = x.stop - back := by
  have hstart := h.start
  have hlen := h.len
  unfold Ctx.stop
  omega

theorem Cut.trans {front back front' back' : Nat} (h : Cut x y front back) (h' : Cut y z front' back') :
    Cut x z (front + front') (back + back') where
  rcvNxt := h'.rcvNxt.trans h.rcvNxt
  rcvWnd := h'.rcvWnd.trans h.rcvWnd
  flags := h'.flags.trans h.flags
  syn := h'.syn.trans h.syn
  start := by
    have := h.start
    have := h'.start
    omega
  len := by
    have := h.len
    have := h'.len
    omega
  bytes := by
    have hle : z.ti.tiLen ≤ y.ti.tiLen - front' := by
      have := h'.len
      omega
    rw [h'.bytes, h.bytes, List.drop_take, List.drop_drop, List.take_take, Nat.min_eq_left hle]
  fin hz := by
    obtain ⟨hy, hback'⟩ := h'.fin hz
    obtain ⟨hx, hback⟩ := h.fin hy
    exact ⟨hx, by omega⟩
  urg hz := by
    obtain ⟨hy, heq'⟩ := h'.urg hz
    obtain ⟨hx, heq⟩ := h.urg hy
    exact ⟨hx, heq'.trans heq⟩


theorem tiSeq_eq (x : Ctx) : x.ti.tiSeq = x.c.tp.rcvNxt + BitVec.ofInt 32 x.start := by
  rw [Ctx.start, seqDiff, BitVec.ofInt_toInt, BitVec.add_comm, BitVec.sub_add_cancel]

theorem leftDrop_eq (hlo : -2 ^ 31 < x.start) : seqDiff x.c.tp.rcvNxt x.ti.tiSeq = -x.start := by
  have hhi : x.start < 2 ^ 31 := BitVec.toInt_lt
  have hzero : x.c.tp.rcvNxt = x.c.tp.rcvNxt + BitVec.ofInt 32 0 := by simp
  rw [tiSeq_eq]
  nth_rewrite 1 [hzero]
  rw [seqDiff_at _ (by omega) (by omega)]
  omega

theorem rightDrop_eq (x : Ctx) :
    seqDiff x.ti.after (x.c.tp.rcvNxt + x.c.tp.rcvWnd) = (x.stop - x.c.tp.rcvWnd.toNat).bmod (2 ^ 32) := by
  have hafter : x.ti.after = x.c.tp.rcvNxt + BitVec.ofInt 32 x.stop := by
    rw [Seg.after, tiSeq_eq, Ctx.stop, BitVec.ofInt_add, BitVec.ofInt_natCast, BitVec.add_assoc]
  have hedge : x.c.tp.rcvWnd = BitVec.ofInt 32 (x.c.tp.rcvWnd.toNat : Int) := by
    rw [BitVec.ofInt_natCast, BitVec.ofNat_toNat, BitVec.setWidth_eq]
  rw [hafter]
  nth_rewrite 1 [hedge]
  exact seqDiff_bmod _ _ _

/-! ### The left side -/

/-- The only thing left is a FIN that has been received. -/
def loneFin (x : Ctx) : Ctx :=
  trimFront x.ti.tiLen
    { x with tiflags := { x.tiflags with fin := false }, c := { x.c with tp := { x.c.tp with tfAcknow := true } } }

theorem trimLeft_cases (hsyn : x.tiflags.syn = false) (hlo : -2 ^ 31 < x.start) :
    0 ≤ x.start ∧ trimLeft x = .ok x ∨
    x.start < 0 ∧ 0 < x.stop ∧ trimLeft x = .ok (trimFront (-x.start) x) ∨
    x.start < 0 ∧ x.stop = -1 ∧ x.tiflags.fin = true ∧ trimLeft x = .ok (loneFin x) ∨
    x.start < 0 ∧ x.stop ≤ 0 ∧ ¬ (x.tiflags.fin = true ∧ x.stop = -1) ∧ trimLeft x = .error (.dropafterack, x) := by
  have hdrop := leftDrop_eq hlo
  unfold trimLeft
  by_cases hbefore : seqDiff x.c.tp.rcvNxt x.ti.tiSeq > 0
  · have hnosyn : ¬ x.tiflags.syn = true := by rw [hsyn]; decide
    simp only [if_pos hbefore, trimSyn_of_not_syn hsyn, if_neg hnosyn]
    rw [hdrop] at hbefore ⊢
    by_cases hall : -x.start ≥ x.ti.tiLen
    · rw [if_pos hall]
      by_cases hfin : x.tiflags.fin = true ∧ -x.start = x.ti.tiLen + 1
      · rw [if_pos hfin]
        exact .inr (.inr (.inl ⟨by omega, by unfold Ctx.stop; omega, hfin.1, rfl⟩))
      · rw [if_neg hfin, if_pos (.inl (by omega))]
        refine .inr (.inr (.inr ⟨by omega, by unfold Ctx.stop; omega, fun h => hfin ⟨h.1, ?_⟩, rfl⟩))
        have hstop := h.2
        unfold Ctx.stop at hstop
        omega
    · rw [if_neg hall]
      exact .inr (.inl ⟨by omega, by unfold Ctx.stop; omega, rfl⟩)
  · rw [if_neg hbefore]
    exact .inl ⟨by omega, rfl⟩


/-! ### What is cut -/

theorem start_trimFront {n : Int} (hnonneg : 0 ≤ n) (hle : n ≤ x.ti.tiLen) (hnear : x.Near) :
    (trimFront n x).start = x.start + n := by
  obtain ⟨hlo, hhi⟩ := hnear
  have hstop : x.stop = x.start + x.ti.tiLen := rfl
  have hzero : x.c.tp.rcvNxt = x.c.tp.rcvNxt + BitVec.ofInt 32 0 := by simp
  change seqDiff (x.ti.tiSeq + BitVec.ofInt 32 n) x.c.tp.rcvNxt = _
  rw [tiSeq_eq, BitVec.add_assoc, ← BitVec.ofInt_add]
  nth_rewrite 2 [hzero]
  rw [seqDiff_at _ (by omega) (by omega), Int.sub_zero]

theorem cut_trimFront {n : Int} (hnonneg : 0 ≤ n) (hle : n ≤ x.ti.tiLen) (hnear : x.Near)
    (hbytes : x.ti.m.bytes.length = x.ti.tiLen) : Cut x (trimFront n x) n.toNat 0 where
  rcvNxt := rfl
  rcvWnd := rfl
  flags := rfl
  syn := rfl
  start := by rw [start_trimFront hnonneg hle hnear, Int.toNat_of_nonneg hnonneg]
  len := by
    change n.toNat + (x.ti.tiLen - n.toNat) + 0 = x.ti.tiLen
    omega
  bytes := by
    change (mAdj x.ti.m n).bytes = (x.ti.m.bytes.drop n.toNat).take (x.ti.tiLen - n.toNat)
    rw [bytes_mAdj_head _ hnonneg, ← hbytes, ← List.length_drop, List.take_length]
  fin h := ⟨h, rfl⟩
  urg h := by
    obtain ⟨hurg, hbehind⟩ : x.tiflags.urg = true ∧ (x.ti.tiUrp : Int) > n := by
      simpa [trimFront] using h
    refine ⟨hurg, ?_⟩
    have hurp : (trimFront n x).ti.tiUrp = x.ti.tiUrp - n.toNat := if_pos hbehind
    have hsum : n + ((x.ti.tiUrp - n.toNat : Nat) : Int) = x.ti.tiUrp := by omega
    rw [hurp]
    change x.ti.tiSeq + BitVec.ofInt 32 n + _ = _
    rw [BitVec.add_assoc, ← BitVec.ofInt_natCast, ← BitVec.ofInt_add, hsum, BitVec.ofInt_natCast]

theorem cut_trimBack {n : Int} (hpos : 0 < n) (hle : n ≤ x.ti.tiLen) (hbytes : x.ti.m.bytes.length = x.ti.tiLen) :
    Cut x (trimBack n x) 0 n.toNat where
  rcvNxt := rfl
  rcvWnd := rfl
  flags := rfl
  syn := rfl
  start := (Int.add_zero _).symm
  len := by
    change 0 + (x.ti.tiLen - n.toNat) + n.toNat = x.ti.tiLen
    omega
  bytes := by
    change (mAdj x.ti.m (-n)).bytes = (x.ti.m.bytes.drop 0).take (x.ti.tiLen - n.toNat)
    rw [bytes_mAdj_tail _ (by omega), neg_neg, List.drop_zero, hbytes]
  fin h := absurd h Bool.false_ne_true
  urg h := ⟨h, rfl⟩

/-- Setting flags of the connection, and clearing FIN, cut nothing. -/
theorem Cut.of_eq (hnxt : y.c.tp.rcvNxt = x.c.tp.rcvNxt) (hwnd : y.c.tp.rcvWnd = x.c.tp.rcvWnd)
    (hti : y.ti = x.ti) (hsyn : y.tiflags.syn = x.tiflags.syn) (hurg : y.tiflags.urg = x.tiflags.urg)
    (hfin : y.tiflags.fin = true → x.tiflags.fin = true) (hbytes : x.ti.m.bytes.length = x.ti.tiLen) :
    Cut x y 0 0 where
  rcvNxt := hnxt
  rcvWnd := hwnd
  flags := by rw [hti]
  syn := hsyn
  start := by rw [Ctx.start, hti, hnxt, Int.natCast_zero, Int.add_zero]; rfl
  len := by rw [hti, Nat.zero_add, Nat.add_zero]
  bytes := by rw [hti, List.drop_zero, ← hbytes, List.take_length]
  fin h := ⟨hfin h, rfl⟩
  urg h := ⟨hurg ▸ h, by rw [hti]⟩

theorem Cut.length {front back : Nat} (h : Cut x y front back) (hbytes : x.ti.m.bytes.length = x.ti.tiLen) :
    y.ti.m.bytes.length = y.ti.tiLen := by
  have hlen := h.len
  rw [h.bytes, List.length_take, List.length_drop, hbytes]
  omega

theorem paws_cut {env : Env} (hbytes : x.ti.m.bytes.length = x.ti.tiLen) (h : paws env x = .ok y) :
    Cut x y 0 0 := by
  unfold paws at h
  split at h
  · cases h
    exact .of_eq rfl rfl rfl rfl rfl id hbytes
  · split at h
    · split at h
      · cases h
        exact .of_eq rfl rfl rfl rfl rfl id hbytes
      · cases h
    · cases h
      exact .of_eq rfl rfl rfl rfl rfl id hbytes

/-- On the left everything before `rcv_nxt` is cut and nothing else, or a FIN before it is all that was left. -/
theorem trimLeft_cut (hsyn : x.tiflags.syn = false) (hnear : x.Near)
    (hbytes : x.ti.m.bytes.length = x.ti.tiLen) (h : trimLeft x = .ok y) :
    ∃ front, Cut x y front 0 ∧ (front = 0 ∨ y.start ≤ 0) ∧ (0 ≤ y.start ∨ y.start = -1 ∧ y.ti.tiLen = 0) := by
  have hstop : x.stop = x.start + x.ti.tiLen := rfl
  obtain ⟨hle, heq⟩ | ⟨hlt, hpos, heq⟩ | ⟨hlt, hminus, -, heq⟩ | ⟨-, -, -, heq⟩ := trimLeft_cases hsyn hnear.1 <;>
    rw [heq] at h <;> cases h
  · exact ⟨0, .of_eq rfl rfl rfl rfl rfl id hbytes, .inl rfl, .inl hle⟩
  · have hcut := cut_trimFront (n := -x.start) (by omega) (by omega) hnear hbytes
    have hstart := hcut.start
    exact ⟨_, hcut, .inr (by omega), .inl (by omega)⟩
  · have hclear : Cut x { x with tiflags := { x.tiflags with fin := false }, c := { x.c with tp := { x.c.tp with tfAcknow := true } } } 0 0 :=
      .of_eq rfl rfl rfl rfl rfl (nomatch ·) hbytes
    have hcut : Cut x (loneFin x) (0 + (x.ti.tiLen : Int).toNat) 0 :=
      hclear.trans (cut_trimFront (by omega) (le_refl _) hnear hbytes)
    have hstart := hcut.start
    have hlen := hcut.len
    exact ⟨_, hcut, .inr (by omega), .inr ⟨by omega, by omega⟩⟩

/-! ### The right side -/

/-- What the window and the segment have in common decides, unless the difference of the right edges wraps. -/
theorem trimRight_cases (hsyn : x.tiflags.syn = false) (hlo : -1 ≤ x.start) (hhi : x.stop < 2 ^ 31) :
    x.stop ≤ x.c.tp.rcvWnd.toNat ∧ (x.c.tp.rcvWnd.toNat ≤ x.stop + 2 ^ 31 ∨ x.stop < 0) ∧ trimRight x = .ok x ∨
    x.c.tp.rcvWnd.toNat < x.stop ∧ x.start < x.c.tp.rcvWnd.toNat ∧
      trimRight x = .ok (trimBack (x.stop - x.c.tp.rcvWnd.toNat) x) ∨
    x.c.tp.rcvWnd.toNat = 0 ∧ x.start = 0 ∧ 0 < x.stop ∧
      trimRight x = .ok (trimBack x.stop (x.withTp fun tp => { tp with tfAcknow := true })) ∨
    (x.c.tp.rcvWnd.toNat < x.stop ∧ x.c.tp.rcvWnd.toNat ≤ x.start ∨ x.stop + 2 ^ 31 < x.c.tp.rcvWnd.toNat) ∧
      trimRight x = .error (.dropafterack, x) := by
  have hstop : x.stop = x.start + x.ti.tiLen := rfl
  have hwnd : x.c.tp.rcvWnd.toNat < 2 ^ 32 := x.c.tp.rcvWnd.isLt
  have hdrop := rightDrop_eq x
  have htime : ¬ (x.tiflags.syn = true ∧ x.c.tp.tState = .timeWait ∧ seqGT x.ti.tiSeq x.c.tp.rcvNxt) := by simp [hsyn]
  have hedge : x.c.tp.rcvWnd = 0 ↔ x.c.tp.rcvWnd.toNat = 0 := by
    constructor
    · intro h; rw [h]; rfl
    · intro h; exact BitVec.eq_of_toNat_eq h
  have hfront : x.ti.tiSeq = x.c.tp.rcvNxt ↔ x.start = 0 := by
    constructor
    · intro h; rw [Ctx.start, h, seqDiff_self]
    · intro h
      have hseq := tiSeq_eq x
      rw [h] at hseq
      simpa using hseq
  unfold trimRight
  rw [hdrop]
  by_cases hwrap : x.stop + 2 ^ 31 < x.c.tp.rcvWnd.toNat
  · -- the difference wraps to one above the length
    have hbmod : (x.stop - x.c.tp.rcvWnd.toNat).bmod (2 ^ 32) = x.stop - x.c.tp.rcvWnd.toNat + 2 ^ 32 := by
      rw [Int.bmod_def]
      omega
    rw [hbmod]
    by_cases hzero : x.stop - x.c.tp.rcvWnd.toNat + 2 ^ 32 > 0
    · rw [if_pos hzero, if_pos (by omega), if_neg htime, if_neg]
      · exact .inr (.inr (.inr ⟨.inr hwrap, rfl⟩))
      · rw [hedge]
        omega
    · rw [if_neg hzero]
      exact .inl ⟨by omega, .inr (by omega), rfl⟩
  · have hbmod : (x.stop - x.c.tp.rcvWnd.toNat).bmod (2 ^ 32) = x.stop - x.c.tp.rcvWnd.toNat := by
      rw [Int.bmod_def]
      omega
    rw [hbmod]
    by_cases hafter : x.stop - x.c.tp.rcvWnd.toNat > 0
    · rw [if_pos hafter]
      by_cases hall : x.stop - x.c.tp.rcvWnd.toNat ≥ x.ti.tiLen
      · rw [if_pos hall, if_neg htime]
        by_cases hprobe : x.c.tp.rcvWnd = 0 ∧ x.ti.tiSeq = x.c.tp.rcvNxt
        · rw [if_pos hprobe]
          rw [hedge, hfront] at hprobe
          rw [hprobe.1, Int.natCast_zero, Int.sub_zero]
          exact .inr (.inr (.inl ⟨rfl, hprobe.2, by omega, rfl⟩))
        · rw [if_neg hprobe]
          exact .inr (.inr (.inr ⟨.inl ⟨by omega, by omega⟩, rfl⟩))
      · rw [if_neg hall]
        exact .inr (.inl ⟨by omega, by omega, rfl⟩)
    · rw [if_neg hafter]
      exact .inl ⟨by omega, .inl (by omega), rfl⟩

/-- On the right everything behind the window is cut and nothing else. Of a segment that is cut something is left, unless the window is closed. -/
theorem trimRight_cut (hsyn : x.tiflags.syn = false) (hlo : -1 ≤ x.start) (hhi : x.stop < 2 ^ 31)
    (hbytes : x.ti.m.bytes.length = x.ti.tiLen) (h : trimRight x = .ok y) :
    ∃ back, Cut x y 0 back ∧ (back = 0 ∨ y.stop = x.c.tp.rcvWnd.toNat) ∧ y.stop ≤ x.c.tp.rcvWnd.toNat ∧
      (back ≠ 0 → x.c.tp.rcvWnd.toNat ≠ 0 → y.ti.tiLen ≠ 0) := by
  have hstop : x.stop = x.start + x.ti.tiLen := rfl
  obtain ⟨hle, -, heq⟩ | ⟨hlt, hstart, heq⟩ | ⟨hwnd, hstart, hpos, heq⟩ | ⟨-, heq⟩ := trimRight_cases hsyn hlo hhi <;>
    rw [heq] at h <;> cases h
  · exact ⟨0, .of_eq rfl rfl rfl rfl rfl id hbytes, .inl rfl, hle, fun h => absurd rfl h⟩
  · have hcut := cut_trimBack (n := x.stop - x.c.tp.rcvWnd.toNat) (by omega) (by omega) hbytes
    have hend := hcut.stop
    have hlen := hcut.len
    exact ⟨_, hcut, .inr (by omega), by omega, by omega⟩
  · have hack : Cut x (x.withTp fun tp => { tp with tfAcknow := true }) 0 0 := .of_eq rfl rfl rfl rfl rfl id hbytes
    have hcut := hack.trans (cut_trimBack (n := x.stop) hpos (by change x.stop ≤ x.ti.tiLen; omega) hbytes)
    have hend := hcut.stop
    exact ⟨_, hcut, .inr (by omega), by omega, fun _ h => absurd hwnd h⟩

/-! ### The whole trimming -/

theorem ok_of_bind {flow : Flow} {next : Ctx → Flow} (h : flow >>= next = .ok z) :
    ∃ y, flow = .ok y ∧ next y = .ok z := by
  cases flow with
  | error e => cases h
  | ok y => exact ⟨y, rfl, h⟩

/-- `dodata` hands a FIN to `TCP_REASS`, which reads it from the segment and not from `tiflags`. -/
def Ctx.HandsFin (x : Ctx) : Prop := (x.ti.tiLen ≠ 0 ∨ x.tiflags.fin = true) ∧ x.ti.tiFlags.fin = true

/-- What trimming is to leave: what the segment has in common with the window, octet by octet, a FIN only where nothing was cut from the end, and urgent data where they end. -/
structure Trimmed (x y : Ctx) : Prop where
  rcvNxt : y.c.tp.rcvNxt = x.c.tp.rcvNxt
  octets : ∀ p, y.start ≤ p ∧ p < y.stop ↔ (x.start ≤ p ∧ p < x.stop) ∧ x.InWindow p
  start : x.start ≤ y.start
  bytes : y.ti.m.bytes = (x.ti.m.bytes.drop (y.start - x.start).toNat).take y.ti.tiLen
  length : y.ti.m.bytes.length = y.ti.tiLen
  flag : y.tiflags.fin = true → x.tiflags.fin = true ∧ y.stop = x.stop
  handed : y.HandsFin → y.stop = x.stop
  urg : y.tiflags.urg = true → x.tiflags.urg = true ∧
    y.ti.tiSeq + BitVec.ofNat 32 y.ti.tiUrp = x.ti.tiSeq + BitVec.ofNat 32 x.ti.tiUrp

theorem trimInput_cut {env : Env} (hsyn : x.tiflags.syn = false) (hnear : x.Near) (hbytes : x.ti.m.bytes.length = x.ti.tiLen)
    (h : trimInput env x = .ok y) :
    ∃ front back, Cut x y front back ∧ (front = 0 ∨ y.start ≤ 0) ∧ (0 ≤ y.start ∨ y.start = -1 ∧ y.ti.tiLen = 0) ∧
      (back = 0 ∨ y.stop = x.c.tp.rcvWnd.toNat) ∧ y.stop ≤ x.c.tp.rcvWnd.toNat ∧
      (back ≠ 0 → x.c.tp.rcvWnd.toNat ≠ 0 → y.ti.tiLen ≠ 0) := by
  obtain ⟨a, hpaws, h⟩ := ok_of_bind h
  obtain ⟨b, hleft, h⟩ := ok_of_bind h
  obtain ⟨b', hclose, hright⟩ := ok_of_bind h
  have hsame : b' = b := by
    unfold rcvAfterClose at hclose
    split at hclose <;> cases hclose
    rfl
  subst hsame
  have ha := paws_cut hbytes hpaws
  have hstartA := ha.start
  have hstopA := ha.stop
  have hnearA : a.Near := ⟨by have := hnear.1; omega, by have := hnear.2; omega⟩
  obtain ⟨front, hb, hfront, hlow⟩ := trimLeft_cut (ha.syn.trans hsyn) hnearA (ha.length hbytes) hleft
  have hxb := ha.trans hb
  have hstartB := hxb.start
  have hstopB := hxb.stop
  obtain ⟨back, hy, hback, hhigh, hsome⟩ := trimRight_cut (hxb.syn.trans hsyn) (by omega)
    (by have := hnear.2; omega) (hxb.length hbytes) hright
  have hall := hxb.trans hy
  have hstart := hall.start
  have hstop := hall.stop
  have hlast : b'.stop = b'.start + b'.ti.tiLen := rfl
  have hlen := hy.len
  rw [hxb.rcvWnd] at hback hhigh hsome
  exact ⟨_, _, hall, by omega, by omega, by omega, hhigh, by omega⟩

/-- A segment that is not dropped is trimmed to the window, but the FIN behind it is handed on with the octets in front, if there are any. -/
theorem trimInput_exact_iff (env : Env) (x y : Ctx) (hsyn : x.tiflags.syn = false) (hnear : x.Near)
    (hbytes : x.ti.m.bytes.length = x.ti.tiLen) (h : trimInput env x = .ok y) :
    Trimmed x y ↔ (x.ti.tiFlags.fin = true → x.c.tp.rcvWnd.toNat ≠ 0 → x.stop ≤ x.c.tp.rcvWnd.toNat) := by
  obtain ⟨front, back, hcut, hfront, hlow, hback, hhigh, hsome⟩ := trimInput_cut hsyn hnear hbytes h
  have hstart := hcut.start
  have hstop := hcut.stop
  have hend : y.stop = y.start + y.ti.tiLen := rfl
  have hlast : x.stop = x.start + x.ti.tiLen := rfl
  have hlen := hcut.len
  constructor
  · intro htrimmed hfin hopen
    by_contra hbeyond
    have hhanded : y.HandsFin := ⟨.inl (hsome (by omega) hopen), by rw [hcut.flags, hfin]⟩
    have := htrimmed.handed hhanded
    omega
  · intro hinside
    have hflag : y.tiflags.fin = true → x.tiflags.fin = true ∧ y.stop = x.stop := fun hfin => by
      obtain ⟨hfin, hnone⟩ := hcut.fin hfin
      exact ⟨hfin, by omega⟩
    refine ⟨hcut.rcvNxt, fun p => ?_, by omega, ?_, hcut.length hbytes, hflag, fun hhanded => ?_, hcut.urg⟩
    · unfold Ctx.InWindow
      omega
    · have hfrom : (y.start - x.start).toNat = front := by omega
      rw [hfrom]
      exact hcut.bytes
    · obtain ⟨hcarries, hfin⟩ := hhanded
      rw [hcut.flags] at hfin
      by_cases hclosed : x.c.tp.rcvWnd.toNat = 0
      · obtain hdata | hfin := hcarries
        · omega
        · exact (hflag hfin).2
      · have := hinside hfin hclosed
        omega

/-- Three octets that begin one before the window, of which two are inside. -/
def straddling : Ctx where
  c := { tp := { tState := .established, rcvNxt := 10, rcvWnd := 100, tMaxseg := 512 }, so := {} }
  ti := { tiSeq := 9, tiLen := 3, tiFlags := { ack := true, urg := true, fin := true }, m := { chain := [[7], [8, 9]] }, tiUrp := 3 }
  tiflags := { ack := true, urg := true, fin := true }
  tiwin := 0
  ts := none

theorem trimInput_exact_iff_straddling : ∃ y, trimInput {} straddling = .ok y ∧ y.ti.m.bytes = [8, 9] ∧ Trimmed straddling y :=
  ⟨_, rfl, by decide, (trimInput_exact_iff {} straddling _ rfl ⟨by decide, by decide⟩ (by decide) rfl).mpr (by decide)⟩

/-- Fourteen octets with a FIN for a window of ten, of which two have been received. -/
def overlong : Ctx where
  c := { tp := { tState := .established, rcvNxt := 10, rcvWnd := 10, rcvAdv := 20, tMaxseg := 512 }, so := { soRcv := { sbHiwat := 10 } } }
  ti := { tiSeq := 8, tiLen := 14, tiFlags := { ack := true, fin := true }, m := { chain := [List.replicate 14 7] } }
  tiflags := { ack := true, fin := true }
  tiwin := 0

/-- Two octets are cut from the end, and the FIN behind them is taken with those in front: the connection is in `CLOSE_WAIT`, and `rcv_nxt` is one beyond the window. -/
theorem fin_beyond_window :
    (∃ y, trimInput {} overlong = .ok y ∧ ¬ Trimmed overlong y) ∧
      (tcpInput {} overlong.c overlong.ti).tp.tState = .closeWait ∧ (tcpInput {} overlong.c overlong.ti).tp.rcvNxt = 21 := by
  refine ⟨⟨_, rfl, fun htrimmed => ?_⟩, by decide, by decide⟩
  exact absurd (htrimmed.handed ⟨.inl (by decide), rfl⟩) (by decide)

/-! ### What is new inside the window -/

/-- An octet or the FIN lies inside the window. -/
def Ctx.New (x : Ctx) : Prop :=
  (∃ p, (x.start ≤ p ∧ p < x.stop) ∧ x.InWindow p) ∨ x.tiflags.fin = true ∧ x.InWindow x.stop

theorem Ctx.New.stop_nonneg (h : x.New) : 0 ≤ x.stop := by
  unfold Ctx.New Ctx.InWindow at h
  obtain ⟨p, hp, hwindow⟩ | ⟨-, hwindow⟩ := h
  · omega
  · exact hwindow.1

/-- The segment does not begin behind the window. -/
theorem Ctx.New.start_lt (h : x.New) : x.start < x.c.tp.rcvWnd.toNat ∧ (x.c.tp.rcvWnd.toNat < x.stop → 0 < x.c.tp.rcvWnd.toNat) := by
  have hstop : x.stop = x.start + x.ti.tiLen := rfl
  unfold Ctx.New Ctx.InWindow at h
  obtain ⟨p, hp, hwindow⟩ | ⟨-, hwindow⟩ := h <;> constructor <;> omega

/-- A segment that reaches `rcv_nxt` is cut to what follows it. -/
theorem trimLeft_kept (hsyn : x.tiflags.syn = false) (hnear : x.Near) (h : 0 ≤ x.start ∨ 0 < x.stop) :
    ∃ y, trimLeft x = .ok y ∧ y.start = max 0 x.start ∧ y.stop = x.stop ∧
      y.c.tp.rcvWnd = x.c.tp.rcvWnd ∧ y.tiflags.fin = x.tiflags.fin ∧ y.tiflags.syn = false := by
  have hstop : x.stop = x.start + x.ti.tiLen := rfl
  obtain ⟨hle, heq⟩ | ⟨hlt, hpos, heq⟩ | ⟨hlt, hminus, -, heq⟩ | ⟨hlt, hle, -, heq⟩ := trimLeft_cases hsyn hnear.1
  · exact ⟨x, heq, by omega, rfl, rfl, rfl, hsyn⟩
  · have hstart := start_trimFront (n := -x.start) (by omega) (by omega) hnear
    have hlen : (trimFront (-x.start) x).ti.tiLen = x.ti.tiLen - (-x.start).toNat := rfl
    refine ⟨_, heq, by omega, ?_, rfl, rfl, hsyn⟩
    rw [Ctx.stop, hstart, hlen]
    omega
  · omega
  · omega

/-- Something new is dropped where a FIN at `rcv_nxt` comes with data that have been received, and where the difference of the right edges wraps. -/
theorem trimWindow_drops_iff (hsyn : x.tiflags.syn = false) (hnear : x.Near) (hnew : x.New) :
    (∃ z, trimWindow x = .error (.dropafterack, z)) ↔
      x.start < 0 ∧ x.stop = 0 ∨ x.stop + 2 ^ 31 < x.c.tp.rcvWnd.toNat := by
  have hnonneg := hnew.stop_nonneg
  have hbegin := hnew.start_lt
  by_cases hreach : 0 ≤ x.start ∨ 0 < x.stop
  · obtain ⟨y, heq, hstart, hstop, hwnd, -, hnosyn⟩ := trimLeft_kept hsyn hnear hreach
    have hflow : trimWindow x = trimRight y := by rw [trimWindow, heq]; rfl
    rw [hflow]
    have hcases := trimRight_cases hnosyn (by omega) (by rw [hstop]; exact hnear.2)
    rw [hwnd, hstop] at hcases
    obtain ⟨hle, hwrap, hok⟩ | ⟨hlt, -, hok⟩ | ⟨hzero, -, hpos, hok⟩ | ⟨hwhy, herror⟩ := hcases
    · rw [hok]
      exact iff_of_false (fun ⟨z, hz⟩ => nomatch hz) (by omega)
    · rw [hok]
      exact iff_of_false (fun ⟨z, hz⟩ => nomatch hz) (by omega)
    · omega
    · exact iff_of_true ⟨y, herror⟩ (by omega)
  · obtain ⟨hge, -⟩ | ⟨-, hpos, -⟩ | ⟨-, hminus, -⟩ | ⟨hlt, hle, -, heq⟩ := trimLeft_cases hsyn hnear.1
    · omega
    · omega
    · omega
    · have hflow : trimWindow x = .error (.dropafterack, x) := by rw [trimWindow, heq]; rfl
      exact iff_of_true ⟨x, hflow⟩ (by omega)

/-- A FIN inside the window that is not dropped keeps its flag. -/
theorem trimWindow_keeps_fin (hsyn : x.tiflags.syn = false) (hnear : x.Near) (hfin : x.tiflags.fin = true)
    (hwindow : x.InWindow x.stop) (h : trimWindow x = .ok y) : y.tiflags.fin = true := by
  obtain ⟨hnonneg, hinside⟩ := hwindow
  have hbegin : x.start < x.c.tp.rcvWnd.toNat := (Ctx.New.start_lt (.inr ⟨hfin, hnonneg, hinside⟩)).1
  by_cases hreach : 0 ≤ x.start ∨ 0 < x.stop
  · obtain ⟨z, heq, hstart, hstop, hwnd, hkept, hnosyn⟩ := trimLeft_kept hsyn hnear hreach
    have hflow : trimRight z = .ok y := by rw [← h, trimWindow, heq]; rfl
    have hcases := trimRight_cases hnosyn (by omega) (by rw [hstop]; exact hnear.2)
    rw [hwnd, hstop] at hcases
    obtain ⟨-, -, hok⟩ | ⟨hlt, -⟩ | ⟨hzero, -⟩ | ⟨-, herror⟩ := hcases
    · rw [hok] at hflow
      cases hflow
      rw [hkept, hfin]
    · omega
    · omega
    · rw [herror] at hflow
      cases hflow
  · obtain ⟨hge, -⟩ | ⟨-, hpos, -⟩ | ⟨-, hminus, -⟩ | ⟨-, -, -, heq⟩ := trimLeft_cases hsyn hnear.1
    · omega
    · omega
    · omega
    · rw [trimWindow, heq] at h
      cases h

/-- Exactly when a segment that has something new inside the window is not dropped, and keeps a FIN that lies there. -/
theorem new_kept_iff (x : Ctx) (hsyn : x.tiflags.syn = false) (hnear : x.Near) :
    (x.New → (∀ z, trimWindow x ≠ .error (.dropafterack, z)) ∧
        ∀ y, trimWindow x = .ok y → x.tiflags.fin = true → x.InWindow x.stop → y.tiflags.fin = true) ↔
      ¬ (x.tiflags.fin = true ∧ x.start < 0 ∧ x.stop = 0 ∧ x.c.tp.rcvWnd ≠ 0) ∧
        (x.New → x.c.tp.rcvWnd.toNat ≤ x.stop + 2 ^ 31) := by
  have hedge : x.c.tp.rcvWnd ≠ 0 ↔ 0 < x.c.tp.rcvWnd.toNat := by
    rw [Nat.pos_iff_ne_zero, ne_eq, ne_eq, ← BitVec.toNat_inj]
    rfl
  constructor
  · intro hkept
    constructor
    · rintro ⟨hfin, hbefore, hend, hopen⟩
      have hnew : x.New := .inr ⟨hfin, by omega, by have := hedge.mp hopen; omega⟩
      obtain ⟨z, hz⟩ := (trimWindow_drops_iff hsyn hnear hnew).mpr (.inl ⟨hbefore, hend⟩)
      exact (hkept hnew).1 z hz
    · intro hnew
      by_contra hwrap
      obtain ⟨z, hz⟩ := (trimWindow_drops_iff hsyn hnear hnew).mpr (.inr (by omega))
      exact (hkept hnew).1 z hz
  · rintro ⟨hedgeFin, hwrap⟩ hnew
    constructor
    · intro z hz
      obtain ⟨hbefore, hend⟩ | hfar := (trimWindow_drops_iff hsyn hnear hnew).mp ⟨z, hz⟩
      · -- no octet is new, so it is the FIN
        obtain ⟨p, hp, hinside⟩ | ⟨hfin, hinside⟩ := hnew
        · have := hinside.1
          omega
        · exact hedgeFin ⟨hfin, hbefore, hend, hedge.mpr (by have := hinside.2; omega)⟩
      · have := hwrap hnew
        omega
    · intro y hy hfin hwindow
      exact trimWindow_keeps_fin hsyn hnear hfin hwindow hy

/-- An octet that has been received, with the FIN that follows it. -/
def finAtEdge : Ctx where
  c := { tp := { tState := .established, rcvNxt := 10, rcvWnd := 100, tMaxseg := 512 }, so := {} }
  ti := { tiSeq := 9, tiLen := 1, m := { chain := [[7]] } }
  tiflags := { ack := true, fin := true }
  tiwin := 0
  ts := none

theorem new_dropped : finAtEdge.tiflags.syn = false ∧ finAtEdge.tiflags.rst = false ∧ finAtEdge.Near ∧ finAtEdge.New ∧
    paws {} finAtEdge = .ok finAtEdge ∧ trimWindow finAtEdge = .error (.dropafterack, finAtEdge) := by
  refine ⟨rfl, rfl, ⟨by decide, by decide⟩, .inr ⟨rfl, by decide, by decide⟩, rfl, rfl⟩

theorem new_kept_iff_straddling : straddling.New ∧ ∀ z, trimWindow straddling ≠ .error (.dropafterack, z) := by
  have hstop : straddling.stop = 2 := by decide
  have hnew : straddling.New := .inr ⟨rfl, by decide, by decide⟩
  exact ⟨hnew, ((new_kept_iff straddling rfl ⟨by decide, by decide⟩).mpr
    ⟨fun h => absurd h.2.2.1 (by rw [hstop]; decide), fun _ => by rw [hstop]; decide⟩ hnew).1⟩

end Reading.Tcp
