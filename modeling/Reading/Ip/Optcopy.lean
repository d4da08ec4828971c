import Reading.Kern.Mbuf
import Reading.Lib.Machine
import Reading.Lib.Stream

/-!
# The options of a fragment

`ip_optcopy` writes into the header of a fragment what it keeps of the options of the datagram. Its loop goes on by the length that an option gives for itself, and only cuts off what is more than the options have left. The header is in memory at 0, so that the options begin at 20.
-/

namespace Reading.Ip

open Reading.Kern Reading.Lib

def ipoptEol : Byte := 0
def ipoptNop : Byte := 1

/-- `IPOPT_COPIED`. -/
def ipoptCopied (o : Byte) : Prop := o &&& 0x80 ≠ 0

instance (o : Byte) : Decidable (ipoptCopied o) := inferInstanceAs (Decidable (_ ≠ _))

/-- The two loops of `ip_optcopy`: what has been written behind the new header up to `dp`, and the length counted by the second loop. -/
structure OptCopy where
  cp : Nat
  cnt : Int
  dp : List Byte := []
  optlen : Nat := 0
  padding : Bool := false
  deriving DecidableEq

namespace OptCopy

def write (s : OptCopy) (bytes : List Byte) : OptCopy := { s with dp := s.dp ++ bytes }

/-- `cnt -= optlen, cp += optlen`. -/
def advance (s : OptCopy) (optlen : Nat) : OptCopy := { s with cp := s.cp + optlen, cnt := s.cnt - optlen }

/-- Enter the second loop. -/
def pad (s : OptCopy) : OptCopy := { s with optlen := s.dp.length, padding := true }

end OptCopy

/-- One turn of the loop over the options. -/
def optcopyTurn (mem : Nat → Byte) (s : OptCopy) : OptCopy :=
  if s.cnt > 0 then
    let opt := mem s.cp
    if opt = ipoptEol then s.pad
    else if opt = ipoptNop then (s.write [ipoptNop]).advance 1
    else
      let optlen := (mem (s.cp + 1)).toNat
      let optlen := if optlen > s.cnt then s.cnt.toNat else optlen
      (if ipoptCopied opt then s.write (slice mem s.cp optlen) else s).advance optlen
  else s.pad

/-- One turn of either loop. -/
def optcopyStep (mem : Nat → Byte) (s : OptCopy) : OptCopy ⊕ OptCopy :=
  if s.padding then
    if s.optlen &&& 3 ≠ 0 then .inl { s.write [ipoptEol] with optlen := s.optlen + 1 } else .inr s
  else .inl (optcopyTurn mem s)

/-- `ip_optcopy` for a header of `hl` words, before its loops. -/
def ipOptcopy (hl : Nat) : OptCopy := { cp := 20, cnt := (hl * 4 : Nat) - 20 }

/-! ### The options of a header -/

/-- The options up to the end of the list, the last one as far as it goes. -/
def splitOptions : List Byte → List (List Byte)
  | [] => []
  | opt :: rest =>
    if opt = ipoptEol then []
    else if opt = ipoptNop then [ipoptNop] :: splitOptions rest
    else
      let more := (rest.headD 1).toNat - 1
      (opt :: rest.take more) :: splitOptions (rest.drop more)
  termination_by bytes => bytes.length
  decreasing_by
    · simp
    · simp only [List.length_drop, List.length_cons]
      omega

/-- An option that all fragments have: a NOP, or one with the copied flag. -/
def inFragments (option : List Byte) : Bool := option.head?.any fun opt => opt = ipoptNop ∨ ipoptCopied opt

/-- What a fragment has of the options. -/
def fragmentOptions (bytes : List Byte) : List Byte := ((splitOptions bytes).filter inFragments).flatten

/-- Padded with the end of the list to a multiple of four. -/
def padded (bytes : List Byte) : List Byte := bytes ++ List.replicate ((4 - bytes.length % 4) % 4) ipoptEol

/-- No option has the length 0. The length of an option that begins in the last byte is the byte `next` behind the options. -/
inductive Sized (next : Byte) : List Byte → Prop
  | nil : Sized next []
  | eol (rest : List Byte) : Sized next (ipoptEol :: rest)
  | nop {rest : List Byte} : Sized next rest → Sized next (ipoptNop :: rest)
  | last {opt : Byte} : opt ≠ ipoptEol → opt ≠ ipoptNop → next ≠ 0 → Sized next [opt]
  | option {opt len : Byte} {rest : List Byte} : opt ≠ ipoptEol → opt ≠ ipoptNop → len ≠ 0 →
      Sized next ((len :: rest).drop (len.toNat - 1)) → Sized next (opt :: len :: rest)

section Split

variable {opt len : Byte} {rest : List Byte}

theorem fragmentOptions_eol : fragmentOptions (ipoptEol :: rest) = [] := by
  rw [fragmentOptions, splitOptions, if_pos rfl]
  rfl

theorem fragmentOptions_nop : fragmentOptions (ipoptNop :: rest) = ipoptNop :: fragmentOptions rest := by
  rw [fragmentOptions, splitOptions, if_neg (by decide), if_pos rfl, List.filter_cons_of_pos (by decide)]
  rfl

/-- An option at the end of the list takes what is left, whatever its length is said to be. -/
theorem fragmentOptions_option (d : Byte) (heol : opt ≠ ipoptEol) (hnop : opt ≠ ipoptNop) :
    fragmentOptions (opt :: rest) =
      (if ipoptCopied opt then opt :: rest.take ((rest.headD d).toNat - 1) else []) ++
        fragmentOptions (rest.drop ((rest.headD d).toNat - 1)) := by
  have hmore : ∀ e : Byte, rest.take ((rest.headD 1).toNat - 1) = rest.take ((rest.headD e).toNat - 1) ∧
      rest.drop ((rest.headD 1).toNat - 1) = rest.drop ((rest.headD e).toNat - 1) := by
    intro e
    cases rest with
    | nil => simp
    | cons len rest => exact ⟨rfl, rfl⟩
  rw [← (hmore d).1, ← (hmore d).2, fragmentOptions, splitOptions, if_neg heol, if_neg hnop]
  by_cases hcopied : ipoptCopied opt
  · rw [List.filter_cons_of_pos (by simp [inFragments, hcopied]), if_pos hcopied]
    rfl
  · rw [List.filter_cons_of_neg (by simp [inFragments, hcopied, hnop]), if_neg hcopied]
    rfl

theorem Sized.nop_iff {next : Byte} : Sized next (ipoptNop :: rest) ↔ Sized next rest := by
  refine ⟨fun h => ?_, .nop⟩
  cases h with
  | nop hrest => exact hrest
  | last _ hnop => exact absurd rfl hnop
  | option _ hnop => exact absurd rfl hnop

theorem Sized.option_iff {next : Byte} (heol : opt ≠ ipoptEol) (hnop : opt ≠ ipoptNop) :
    Sized next (opt :: rest) ↔
      rest.headD next ≠ 0 ∧ Sized next (rest.drop ((rest.headD next).toNat - 1)) := by
  constructor
  · intro h
    cases h with
    | eol => exact absurd rfl heol
    | nop => exact absurd rfl hnop
    | last _ _ hnext => exact ⟨hnext, by rw [List.drop_nil]; exact .nil⟩
    | option _ _ hlen hrest => exact ⟨hlen, hrest⟩
  · intro ⟨hlen, hrest⟩
    cases rest with
    | nil => exact .last heol hnop hlen
    | cons len rest => exact .option heol hnop hlen hrest

end Split

theorem padded_of_dvd {bytes : List Byte} (h : bytes.length % 4 = 0) : padded bytes = bytes := by
  rw [padded, h]
  exact List.append_nil _

theorem padded_snoc {bytes : List Byte} (h : bytes.length % 4 ≠ 0) : padded (bytes ++ [ipoptEol]) = padded bytes := by
  have hcount : (4 - bytes.length % 4) % 4 = (4 - (bytes ++ [ipoptEol]).length % 4) % 4 + 1 := by
    rw [List.length_append, List.length_singleton]
    omega
  rw [padded, padded, hcount, List.replicate_succ, List.append_assoc]
  rfl

section Loops

variable {mem : Nat → Byte}

theorem optcopy_pads {s : OptCopy} (hpad : s.padding = true) (hlen : s.optlen = s.dp.length) :
    ∃ n t, Machine.runFor (optcopyStep mem) n s = .inr t ∧ t.dp = padded s.dp ∧ t.optlen = t.dp.length := by
  have hmask : s.optlen &&& 3 = s.dp.length % 4 := by
    rw [hlen]
    exact Nat.and_two_pow_sub_one_eq_mod _ 2
  induction hk : (4 - s.dp.length % 4) % 4 generalizing s with
  | zero =>
    have hzero : s.dp.length % 4 = 0 := by omega
    refine ⟨1, s, Machine.runFor_stop ?_ 0, (padded_of_dvd hzero).symm, hlen⟩
    rw [optcopyStep, if_pos hpad, if_neg (by rw [hmask, hzero]; decide)]
  | succ k ih =>
    have hmore : s.dp.length % 4 ≠ 0 := by omega
    have hstep : optcopyStep mem s = .inl { s.write [ipoptEol] with optlen := s.optlen + 1 } := by
      rw [optcopyStep, if_pos hpad, if_pos (by rwa [hmask])]
    have hnext : (s.write [ipoptEol]).dp.length = s.dp.length + 1 := by simp [OptCopy.write]
    obtain ⟨n, t, hrun, hdp, hret⟩ := @ih { s.write [ipoptEol] with optlen := s.optlen + 1 } hpad
      (by rw [hnext, ← hlen]) (by
        rw [hnext, ← hlen]
        exact Nat.and_two_pow_sub_one_eq_mod _ 2) (by rw [hnext]; omega)
    exact ⟨n + 1, t, (Machine.runFor_next hstep n).trans hrun, hdp.trans (padded_snoc hmore), hret⟩

theorem headD_slice {cp : Nat} {cnt : Int} (hcnt : 0 < cnt) :
    (slice mem (cp + 1) (cnt - 1).toNat).headD (mem (cp + cnt.toNat)) = mem (cp + 1) := by
  by_cases hone : cnt = 1
  · rw [hone]
    rfl
  · rw [slice_pos mem (by omega)]
    rfl

/-- The bytes of an option of the given length, and the options behind it. -/
structure OptionAt (mem : Nat → Byte) (cp : Nat) (cnt : Int) (optlen : Nat) : Prop where
  pos : 0 < optlen
  le : optlen ≤ cnt
  option : slice mem cp optlen = mem cp :: (slice mem (cp + 1) (cnt - 1).toNat).take ((mem (cp + 1)).toNat - 1)
  behind : (slice mem (cp + 1) (cnt - 1).toNat).drop ((mem (cp + 1)).toNat - 1) =
    slice mem (cp + optlen) (cnt - optlen).toNat

theorem optionAt {cp : Nat} {cnt : Int} (hcnt : 0 < cnt) (hlen : mem (cp + 1) ≠ 0) {optlen : Nat}
    (hoptlen : optlen = if (mem (cp + 1)).toNat > cnt then cnt.toNat else (mem (cp + 1)).toNat) :
    OptionAt mem cp cnt optlen := by
  have hpos : (mem (cp + 1)).toNat ≠ 0 := fun h => hlen (UInt8.toNat_inj.mp h)
  by_cases hover : (mem (cp + 1)).toNat > cnt
  · rw [if_pos hover] at hoptlen
    refine ⟨by omega, by omega, ?_, ?_⟩
    · rw [hoptlen, slice_pos mem hcnt, List.take_of_length_le]
      rw [length_slice]
      omega
    · rw [drop_slice, show (cnt - 1).toNat - ((mem (cp + 1)).toNat - 1) = 0 by omega,
        show (cnt - (optlen : Int)).toNat = 0 by omega]
      rfl
  · rw [if_neg hover] at hoptlen
    refine ⟨by omega, by omega, ?_, ?_⟩
    · obtain ⟨more, hmore⟩ : ∃ more, (mem (cp + 1)).toNat = more + 1 := ⟨(mem (cp + 1)).toNat - 1, by omega⟩
      rw [hoptlen, hmore, Nat.add_sub_cancel, take_slice mem _ (by omega)]
      rfl
    · rw [drop_slice, hoptlen, show cp + 1 + ((mem (cp + 1)).toNat - 1) = cp + (mem (cp + 1)).toNat by omega]
      congr 1
      omega

theorem optcopyStep_copying {s : OptCopy} (hcopy : s.padding = false) : optcopyStep mem s = .inl (optcopyTurn mem s) := by
  rw [optcopyStep, hcopy, if_neg Bool.false_ne_true]

theorem optcopyTurn_option {s : OptCopy} (hcnt : 0 < s.cnt) (heol : mem s.cp ≠ ipoptEol) (hnop : mem s.cp ≠ ipoptNop) {optlen : Nat}
    (hlen : optlen = if (mem (s.cp + 1)).toNat > s.cnt then s.cnt.toNat else (mem (s.cp + 1)).toNat) :
    optcopyTurn mem s = { s with
      cp := s.cp + optlen
      cnt := s.cnt - optlen
      dp := s.dp ++ if ipoptCopied (mem s.cp) then slice mem s.cp optlen else [] } := by
  rw [optcopyTurn, if_pos hcnt, if_neg heol, if_neg hnop, hlen]
  by_cases hcopied : ipoptCopied (mem s.cp)
  · simp only [if_pos hcopied, OptCopy.write, OptCopy.advance]
  · simp only [if_neg hcopied, OptCopy.advance, List.append_nil]

theorem fragmentOptions_nil : fragmentOptions [] = [] := by
  rw [fragmentOptions, splitOptions]
  rfl

/-- What `ip_optcopy` is to do from a turn of the first loop on. -/
def Copies (mem : Nat → Byte) (s : OptCopy) : Prop :=
  ∃ n t, Machine.runFor (optcopyStep mem) n s = .inr t ∧
    t.dp = padded (s.dp ++ fragmentOptions (slice mem s.cp s.cnt.toNat)) ∧ t.optlen = t.dp.length

theorem Copies.of_pad {s : OptCopy} (hcopy : s.padding = false) (hturn : optcopyTurn mem s = s.pad)
    (hnone : fragmentOptions (slice mem s.cp s.cnt.toNat) = []) : Copies mem s := by
  obtain ⟨n, t, hrun, hdp, hret⟩ := @optcopy_pads mem s.pad rfl rfl
  have hstep := (optcopyStep_copying hcopy).trans (congrArg Sum.inl hturn)
  refine ⟨n + 1, t, (Machine.runFor_next hstep n).trans hrun, ?_, hret⟩
  rw [hnone, List.append_nil]
  exact hdp

theorem Copies.of_turn {s s' : OptCopy} (hcopy : s.padding = false) (hturn : optcopyTurn mem s = s')
    (hbytes : s.dp ++ fragmentOptions (slice mem s.cp s.cnt.toNat) =
      s'.dp ++ fragmentOptions (slice mem s'.cp s'.cnt.toNat)) (h : Copies mem s') : Copies mem s := by
  obtain ⟨n, t, hrun, hdp, hret⟩ := h
  have hstep := (optcopyStep_copying hcopy).trans (congrArg Sum.inl hturn)
  refine ⟨n + 1, t, (Machine.runFor_next hstep n).trans hrun, ?_, hret⟩
  rw [hbytes]
  exact hdp

theorem Copies.of_over {s : OptCopy} (hcopy : s.padding = false) (hover : ¬ 0 < s.cnt) : Copies mem s := by
  apply Copies.of_pad hcopy
  · rw [optcopyTurn, if_neg hover]
  · rw [Int.toNat_of_nonpos (Int.not_lt.mp hover)]
    exact fragmentOptions_nil

/-- The first loop ends if every option has a length, with what the fragment has of the options. -/
theorem copies_of_sized (k : Nat) {s : OptCopy} (hk : s.cnt.toNat ≤ k) (hcopy : s.padding = false)
    (hsized : Sized (mem (s.cp + s.cnt.toNat)) (slice mem s.cp s.cnt.toNat)) : Copies mem s := by
  induction k generalizing s with
  | zero => exact Copies.of_over hcopy (by omega)
  | succ k ih =>
    by_cases hcnt : 0 < s.cnt
    · have hbytes := slice_pos mem (a := s.cp) hcnt
      by_cases heol : mem s.cp = ipoptEol
      · apply Copies.of_pad hcopy
        · rw [optcopyTurn, if_pos hcnt, if_pos heol]
        · rw [hbytes, heol]
          exact fragmentOptions_eol
      · by_cases hnop : mem s.cp = ipoptNop
        · have hturn : optcopyTurn mem s = (s.write [ipoptNop]).advance 1 := by
            rw [optcopyTurn, if_pos hcnt, if_neg heol, if_pos hnop]
          have hstop : s.cp + 1 + (s.cnt - 1).toNat = s.cp + s.cnt.toNat := by omega
          refine Copies.of_turn hcopy hturn ?_ (ih ?_ hcopy ?_)
          · rw [hbytes, hnop, fragmentOptions_nop]
            exact List.append_cons _ _ _
          · change (s.cnt - 1).toNat ≤ k
            omega
          · change Sized (mem (s.cp + 1 + (s.cnt - 1).toNat)) (slice mem (s.cp + 1) (s.cnt - 1).toNat)
            rw [hbytes, hnop, Sized.nop_iff] at hsized
            rwa [hstop]
        · rw [hbytes, Sized.option_iff heol hnop, headD_slice hcnt] at hsized
          obtain ⟨optlen, hoptlen⟩ : ∃ optlen, optlen = if (mem (s.cp + 1)).toNat > s.cnt then s.cnt.toNat
              else (mem (s.cp + 1)).toNat := ⟨_, rfl⟩
          have hoption := optionAt hcnt hsized.1 hoptlen
          have hle := hoption.le
          have hpos := hoption.pos
          have hstop : s.cp + optlen + (s.cnt - optlen).toNat = s.cp + s.cnt.toNat := by omega
          refine Copies.of_turn hcopy (optcopyTurn_option hcnt heol hnop hoptlen) ?_ (ih ?_ hcopy ?_)
          · rw [hbytes, fragmentOptions_option (mem (s.cp + s.cnt.toNat)) heol hnop, headD_slice hcnt, hoption.behind,
              hoption.option, List.append_assoc]
          · change (s.cnt - optlen).toNat ≤ k
            omega
          · change Sized (mem (s.cp + optlen + (s.cnt - optlen).toNat)) (slice mem (s.cp + optlen) (s.cnt - optlen).toNat)
            rw [hoption.behind] at hsized
            rw [hstop]
            exact hsized.2
    · exact Copies.of_over hcopy hcnt

/-- An option of length 0 is met again and again. -/
theorem sized_of_returns (n : Nat) {s t : OptCopy} (hrun : Machine.runFor (optcopyStep mem) n s = .inr t) (hcopy : s.padding = false) :
    Sized (mem (s.cp + s.cnt.toNat)) (slice mem s.cp s.cnt.toNat) := by
  induction n generalizing s with
  | zero => cases hrun
  | succ n ih =>
    rw [Machine.runFor_next (optcopyStep_copying hcopy)] at hrun
    by_cases hcnt : 0 < s.cnt
    · have hbytes := slice_pos mem (a := s.cp) hcnt
      by_cases heol : mem s.cp = ipoptEol
      · rw [hbytes, heol]
        exact .eol _
      · by_cases hnop : mem s.cp = ipoptNop
        · have hturn : optcopyTurn mem s = (s.write [ipoptNop]).advance 1 := by
            rw [optcopyTurn, if_pos hcnt, if_neg heol, if_pos hnop]
          rw [hturn] at hrun
          have hrest : Sized (mem (s.cp + 1 + (s.cnt - 1).toNat)) (slice mem (s.cp + 1) (s.cnt - 1).toNat) := ih hrun hcopy
          rw [show s.cp + 1 + (s.cnt - 1).toNat = s.cp + s.cnt.toNat by omega] at hrest
          rw [hbytes, hnop]
          exact .nop hrest
        · obtain ⟨optlen, hoptlen⟩ : ∃ optlen, optlen = if (mem (s.cp + 1)).toNat > s.cnt then s.cnt.toNat
              else (mem (s.cp + 1)).toNat := ⟨_, rfl⟩
          rw [optcopyTurn_option hcnt heol hnop hoptlen] at hrun
          have hrest : Sized (mem (s.cp + optlen + (s.cnt - optlen).toNat)) (slice mem (s.cp + optlen) (s.cnt - optlen).toNat) :=
            ih hrun hcopy
          by_cases hlen : mem (s.cp + 1) = 0
          · -- the loop is where it was
            have hzero : optlen = 0 := by
              rw [hoptlen, hlen, if_neg (by simpa using Int.le_of_lt hcnt)]
              rfl
            rw [hzero, Nat.add_zero, Int.natCast_zero, Int.sub_zero] at hrest
            exact hrest
          · have hoption := optionAt hcnt hlen hoptlen
            have hle := hoption.le
            have hpos := hoption.pos
            rw [show s.cp + optlen + (s.cnt - optlen).toNat = s.cp + s.cnt.toNat by omega, ← hoption.behind] at hrest
            rw [hbytes, Sized.option_iff heol hnop, headD_slice hcnt]
            exact ⟨hlen, hrest⟩
    · rw [Int.toNat_of_nonpos (Int.not_lt.mp hcnt)]
      exact .nil

end Loops

/-- `ip_optcopy` returns with the options that are in all fragments, padded, exactly if no option has the length 0. -/
theorem ipOptcopy_copies_iff (mem : Nat → Byte) (hl : Nat) :
    (∃ n t, Machine.runFor (optcopyStep mem) n (ipOptcopy hl) = .inr t ∧
      t.dp = padded (fragmentOptions (slice mem 20 (hl * 4 - 20))) ∧ t.optlen = t.dp.length) ↔
    Sized (mem (20 + (hl * 4 - 20))) (slice mem 20 (hl * 4 - 20)) := by
  have hcnt : ((hl * 4 : Nat) - 20 : Int).toNat = hl * 4 - 20 := by omega
  constructor
  · intro ⟨n, t, hrun, _⟩
    have hsized := sized_of_returns n hrun rfl
    rwa [ipOptcopy, hcnt] at hsized
  · intro hsized
    obtain ⟨n, t, hrun, hdp, hret⟩ := @copies_of_sized mem _ (ipOptcopy hl) (Nat.le_refl _) rfl (by rwa [ipOptcopy, hcnt])
    refine ⟨n, t, hrun, ?_, hret⟩
    rwa [ipOptcopy, hcnt] at hdp

/-- A header of a raw sender, with a record route option that says it has no length. -/
def emptyRecordRoute (i : Nat) : Byte := if i = 20 then 7 else 0

theorem ipOptcopy_loops : ¬∃ n t, Machine.runFor (optcopyStep emptyRecordRoute) n (ipOptcopy 6) = .inr t := by
  rintro ⟨n, t, hrun⟩
  have hsized : Sized (emptyRecordRoute 24) [7, 0, 0, 0] := sized_of_returns n hrun rfl
  exact ((Sized.option_iff (by decide) (by decide)).mp hsized).1 rfl

end Reading.Ip
