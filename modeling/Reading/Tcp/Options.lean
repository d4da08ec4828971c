import Reading.Lib.Machine
import Reading.Lib.Stream
import Reading.Tcp.Input

/-!
# The options of a segment

`tcp_dooptions` on the bytes it is given. An option says how long it is, and the loop does not compare that with `cnt`: where an option is cut off by the end of the list, the loop goes on to read what lies behind the list in memory. The memory from `cp` on is a function, and a state remembers which of its bytes have been read.
-/

namespace Reading.Tcp

open Reading.Kern Reading.Lib

def tcpoptEol : Byte := 0
def tcpoptNop : Byte := 1
def tcpoptMaxseg : Byte := 2
def tcpolenMaxseg : Nat := 4
def tcpoptWindow : Byte := 3
def tcpolenWindow : Nat := 3
def tcpoptTimestamp : Byte := 8
def tcpolenTimestamp : Nat := 10

/-- The bytes at `i`, copied to a `u_short` and brought to host order. -/
def shortAt (mem : Nat → Byte) (i : Nat) : BitVec 16 := (mem i).toBitVec ++ (mem (i + 1)).toBitVec

/-- The bytes at `i`, copied to a `u_long` and brought to host order. -/
def longAt (mem : Nat → Byte) (i : Nat) : U32 := shortAt mem i ++ shortAt mem (i + 2)

/-- The loop of `tcp_dooptions`: the position and what is left of the count, what has been made of the options, and the bytes read. -/
structure OptScan where
  cp : Nat := 0
  cnt : Int
  x : Ctx
  reads : List Nat := []
  deriving DecidableEq

namespace OptScan

def read (s : OptScan) (i n : Nat) : OptScan := { s with reads := s.reads ++ List.range' i n }

def found (env : Env) (s : OptScan) (o : TcpOption) : OptScan := { s with x := dooption env s.x o }

/-- `cnt -= optlen, cp += optlen`. -/
def advance (s : OptScan) (optlen : Nat) : OptScan := { s with cp := s.cp + optlen, cnt := s.cnt - optlen }

end OptScan

/-- The switch on the kind of the option. -/
def optSwitch (env : Env) (mem : Nat → Byte) (opt : Byte) (optlen : Nat) (s : OptScan) : OptScan :=
  if opt = tcpoptMaxseg then
    if optlen ≠ tcpolenMaxseg then s
    else if ¬ s.x.ti.tiFlags.syn then s
    else (s.read (s.cp + 2) 2).found env (.maxseg (shortAt mem (s.cp + 2)))
  else if opt = tcpoptWindow then
    if optlen ≠ tcpolenWindow then s
    else if ¬ s.x.ti.tiFlags.syn then s
    else (s.read (s.cp + 2) 1).found env (.window (mem (s.cp + 2)).toBitVec)
  else if opt = tcpoptTimestamp then
    if optlen ≠ tcpolenTimestamp then s
    else (s.read (s.cp + 2) 8).found env (.timestamp (longAt mem (s.cp + 2)) (longAt mem (s.cp + 6)))
  else s

/-- One turn of the loop. -/
def optTurn (env : Env) (mem : Nat → Byte) (s : OptScan) : OptScan ⊕ OptScan :=
  if s.cnt > 0 then
    let opt := mem s.cp
    if opt = tcpoptEol then .inr (s.read s.cp 1)
    else if opt = tcpoptNop then .inl ((s.read s.cp 1).advance 1)
    else
      let optlen := (mem (s.cp + 1)).toNat
      if optlen ≤ 0 then .inr (s.read s.cp 2)
      else .inl ((optSwitch env mem opt optlen (s.read s.cp 2)).advance optlen)
  else .inr s

/-- `tcp_dooptions`, which does not take more turns than there are bytes. -/
def tcpDooptions (env : Env) (mem : Nat → Byte) (cnt : Nat) (x : Ctx) : OptScan ⊕ OptScan :=
  Machine.runFor (optTurn env mem) (cnt + 1) { cnt := cnt, x := x }

/-! ### Options that are not cut off -/

/-- How many bytes behind its kind and its length are read of an option. -/
def fieldBytes (syn : Bool) (opt : Byte) (optlen : Nat) : Nat :=
  if opt = tcpoptMaxseg then if optlen = tcpolenMaxseg ∧ syn = true then 2 else 0
  else if opt = tcpoptWindow then if optlen = tcpolenWindow ∧ syn = true then 1 else 0
  else if opt = tcpoptTimestamp then if optlen = tcpolenTimestamp then 8 else 0
  else 0

/-- No option that the loop comes to is cut off before the last of its bytes that the loop looks at: it has its length, and its fields if it is of a kind and a length that are looked into. -/
inductive Uncut (syn : Bool) : List Byte → Prop
  | nil : Uncut syn []
  | eol (rest : List Byte) : Uncut syn (tcpoptEol :: rest)
  | nop {rest : List Byte} : Uncut syn rest → Uncut syn (tcpoptNop :: rest)
  | zero {opt : Byte} (rest : List Byte) : opt ≠ tcpoptEol → opt ≠ tcpoptNop → Uncut syn (opt :: 0 :: rest)
  | option {opt len : Byte} {rest : List Byte} : opt ≠ tcpoptEol → opt ≠ tcpoptNop →
      fieldBytes syn opt len.toNat ≤ rest.length → Uncut syn ((opt :: len :: rest).drop len.toNat) →
      Uncut syn (opt :: len :: rest)

namespace Uncut

variable {syn : Bool} {opt len : Byte} {rest : List Byte}

theorem nop_iff : Uncut syn (tcpoptNop :: rest) ↔ Uncut syn rest := by
  refine ⟨fun h => ?_, .nop⟩
  cases h with
  | nop hrest => exact hrest
  | zero _ _ hnop => exact absurd rfl hnop
  | option _ hnop => exact absurd rfl hnop

theorem not_single (heol : opt ≠ tcpoptEol) (hnop : opt ≠ tcpoptNop) : ¬ Uncut syn [opt] := by
  intro h
  cases h with
  | eol => exact heol rfl
  | nop => exact hnop rfl

theorem option_iff (heol : opt ≠ tcpoptEol) (hnop : opt ≠ tcpoptNop) (hlen : len.toNat ≠ 0) :
    Uncut syn (opt :: len :: rest) ↔
      fieldBytes syn opt len.toNat ≤ rest.length ∧ Uncut syn ((opt :: len :: rest).drop len.toNat) := by
  refine ⟨fun h => ?_, fun h => .option heol hnop h.1 h.2⟩
  cases h with
  | eol => exact absurd rfl heol
  | nop => exact absurd rfl hnop
  | zero => exact absurd rfl hlen
  | option _ _ hfields hrest => exact ⟨hfields, hrest⟩

end Uncut

section Reads

variable {env : Env} {mem : Nat → Byte}

theorem dooption_ti (x : Ctx) (o : TcpOption) : (dooption env x o).ti = x.ti := by
  cases o with
  | maxseg mss =>
    simp only [dooption]
    split <;> rfl
  | window shift =>
    simp only [dooption]
    split <;> rfl
  | timestamp val ecr =>
    simp only [dooption]
    split <;> rfl

/-- What the switch reads; it changes neither the position nor the segment. -/
structure Switched (s s' : OptScan) (opt : Byte) (optlen : Nat) : Prop where
  cp : s'.cp = s.cp
  cnt : s'.cnt = s.cnt
  ti : s'.x.ti = s.x.ti
  reads : s'.reads = s.reads ++ List.range' (s.cp + 2) (fieldBytes s.x.ti.tiFlags.syn opt optlen)

theorem optSwitch_spec (opt : Byte) (optlen : Nat) (s : OptScan) :
    Switched s (optSwitch env mem opt optlen s) opt optlen := by
  have hsame : fieldBytes s.x.ti.tiFlags.syn opt optlen = 0 → Switched s s opt optlen := fun h =>
    ⟨rfl, rfl, rfl, by rw [h, List.range'_zero, List.append_nil]⟩
  have hfound : ∀ (n : Nat) (o : TcpOption), fieldBytes s.x.ti.tiFlags.syn opt optlen = n →
      Switched s ((s.read (s.cp + 2) n).found env o) opt optlen := fun n o h =>
    ⟨rfl, rfl, dooption_ti _ _, by rw [h]; rfl⟩
  unfold optSwitch
  split
  · rename_i hkind
    split
    · rename_i hlen
      exact hsame (by rw [fieldBytes, if_pos hkind, if_neg fun h => hlen h.1])
    · rename_i hlen
      split
      · rename_i hsyn
        exact hsame (by rw [fieldBytes, if_pos hkind, if_neg fun h => hsyn h.2])
      · rename_i hsyn
        exact hfound _ _ (by rw [fieldBytes, if_pos hkind, if_pos ⟨not_not.mp hlen, not_not.mp hsyn⟩])
  · rename_i hmss
    split
    · rename_i hkind
      split
      · rename_i hlen
        exact hsame (by rw [fieldBytes, if_neg hmss, if_pos hkind, if_neg fun h => hlen h.1])
      · rename_i hlen
        split
        · rename_i hsyn
          exact hsame (by rw [fieldBytes, if_neg hmss, if_pos hkind, if_neg fun h => hsyn h.2])
        · rename_i hsyn
          refine hfound _ _ ?_
          rw [fieldBytes, if_neg hmss, if_pos hkind, if_pos ⟨not_not.mp hlen, not_not.mp hsyn⟩]
    · rename_i hwin
      split
      · rename_i hkind
        split
        · rename_i hlen
          exact hsame (by rw [fieldBytes, if_neg hmss, if_neg hwin, if_pos hkind, if_neg hlen])
        · rename_i hlen
          refine hfound _ _ ?_
          rw [fieldBytes, if_neg hmss, if_neg hwin, if_pos hkind, if_pos (not_not.mp hlen)]
      · rename_i hts
        exact hsame (by rw [fieldBytes, if_neg hmss, if_neg hwin, if_neg hts])

/-- With its kind and its length, this is what is read of an option. -/
theorem optSwitch_reads (opt : Byte) (optlen : Nat) (s : OptScan) :
    (optSwitch env mem opt optlen (s.read s.cp 2)).reads =
      s.reads ++ List.range' s.cp (2 + fieldBytes s.x.ti.tiFlags.syn opt optlen) := by
  rw [(optSwitch_spec opt optlen _).reads, ← List.range'_append_1, ← List.append_assoc]
  rfl

/-- The ways in which a turn goes. -/
inductive OptTurn (env : Env) (mem : Nat → Byte) (s : OptScan) : OptScan ⊕ OptScan → Prop
  | ends : s.cnt ≤ 0 → OptTurn env mem s (.inr s)
  | eol : 0 < s.cnt → mem s.cp = tcpoptEol → OptTurn env mem s (.inr (s.read s.cp 1))
  | nop : 0 < s.cnt → mem s.cp = tcpoptNop → OptTurn env mem s (.inl ((s.read s.cp 1).advance 1))
  | zero : 0 < s.cnt → mem s.cp ≠ tcpoptEol → mem s.cp ≠ tcpoptNop → mem (s.cp + 1) = 0 →
      OptTurn env mem s (.inr (s.read s.cp 2))
  | option : 0 < s.cnt → mem s.cp ≠ tcpoptEol → mem s.cp ≠ tcpoptNop → (mem (s.cp + 1)).toNat ≠ 0 →
      OptTurn env mem s (.inl ((optSwitch env mem (mem s.cp) (mem (s.cp + 1)).toNat
        (s.read s.cp 2)).advance (mem (s.cp + 1)).toNat))

theorem optTurn_turn (s : OptScan) : OptTurn env mem s (optTurn env mem s) := by
  by_cases hcnt : s.cnt > 0
  · by_cases heol : mem s.cp = tcpoptEol
    · rw [optTurn, if_pos hcnt, if_pos heol]
      exact .eol hcnt heol
    · by_cases hnop : mem s.cp = tcpoptNop
      · rw [optTurn, if_pos hcnt, if_neg heol, if_pos hnop]
        exact .nop hcnt hnop
      · by_cases hzero : (mem (s.cp + 1)).toNat = 0
        · rw [optTurn, if_pos hcnt, if_neg heol, if_neg hnop, if_pos (Nat.le_of_eq hzero)]
          exact .zero hcnt heol hnop (UInt8.toNat_inj.mp hzero)
        · rw [optTurn, if_pos hcnt, if_neg heol, if_neg hnop, if_neg (mt Nat.le_zero.mp hzero)]
          exact .option hcnt heol hnop hzero
  · rw [optTurn, if_neg hcnt]
    exact .ends (Int.not_lt.mp hcnt)

/-- There is one way for a turn to go. -/
theorem OptTurn.eq {s : OptScan} {r : OptScan ⊕ OptScan} (h : OptTurn env mem s r) : optTurn env mem s = r := by
  cases h with
  | ends hcnt => rw [optTurn, if_neg (Int.not_lt.mpr hcnt)]
  | eol hcnt heol => rw [optTurn, if_pos hcnt, if_pos heol]
  | nop hcnt hnop =>
    have heol : mem s.cp ≠ tcpoptEol := by rw [hnop]; decide
    rw [optTurn, if_pos hcnt, if_neg heol, if_pos hnop]
  | zero hcnt heol hnop hzero =>
    have hle : (mem (s.cp + 1)).toNat ≤ 0 := by rw [hzero]; decide
    rw [optTurn, if_pos hcnt, if_neg heol, if_neg hnop, if_pos hle]
  | option hcnt heol hnop hzero =>
    rw [optTurn, if_pos hcnt, if_neg heol, if_neg hnop, if_neg (mt Nat.le_zero.mp hzero)]

/-- A turn only adds to what has been read. -/
theorem optTurn_reads (s : OptScan) : s.reads <+: (Machine.landing (optTurn env mem) s).reads := by
  have hturn := @optTurn_turn env mem s
  unfold Machine.landing
  revert hturn
  generalize optTurn env mem s = r
  intro hturn
  cases hturn with
  | ends => exact List.prefix_refl _
  | eol => exact List.prefix_append _ _
  | nop => exact List.prefix_append _ _
  | zero => exact List.prefix_append _ _
  | option => exact ⟨_, (optSwitch_reads _ _ s).symm⟩

theorem shortAt_agree {mem' : Nat → Byte} {i : Nat} (h : ∀ j ∈ List.range' i 2, mem' j = mem j) :
    shortAt mem' i = shortAt mem i := by
  rw [shortAt, shortAt, h i (by simp), h (i + 1) (by simp [List.mem_range'_1])]

theorem longAt_agree {mem' : Nat → Byte} {i : Nat} (h : ∀ j ∈ List.range' i 4, mem' j = mem j) :
    longAt mem' i = longAt mem i := by
  have hlow : shortAt mem' i = shortAt mem i := shortAt_agree fun j hj => h j (by
    rw [List.mem_range'_1] at hj ⊢
    omega)
  have hhigh : shortAt mem' (i + 2) = shortAt mem (i + 2) := shortAt_agree fun j hj => h j (by
    rw [List.mem_range'_1] at hj ⊢
    omega)
  rw [longAt, longAt, hlow, hhigh]

theorem optSwitch_agree {mem' : Nat → Byte} (opt : Byte) (optlen : Nat) (s : OptScan)
    (h : ∀ i ∈ List.range' (s.cp + 2) (fieldBytes s.x.ti.tiFlags.syn opt optlen), mem' i = mem i) :
    optSwitch env mem' opt optlen s = optSwitch env mem opt optlen s := by
  unfold optSwitch
  by_cases hmss : opt = tcpoptMaxseg
  · rw [if_pos hmss, if_pos hmss]
    by_cases hlen : optlen = tcpolenMaxseg
    · by_cases hsyn : s.x.ti.tiFlags.syn = true
      · rw [fieldBytes, if_pos hmss, if_pos ⟨hlen, hsyn⟩] at h
        rw [shortAt_agree h]
      · rw [if_pos hsyn, if_pos hsyn]
    · rw [if_pos hlen, if_pos hlen]
  · rw [if_neg hmss, if_neg hmss]
    by_cases hwin : opt = tcpoptWindow
    · rw [if_pos hwin, if_pos hwin]
      by_cases hlen : optlen = tcpolenWindow
      · by_cases hsyn : s.x.ti.tiFlags.syn = true
        · rw [fieldBytes, if_neg hmss, if_pos hwin, if_pos ⟨hlen, hsyn⟩] at h
          rw [h (s.cp + 2) (by simp)]
        · rw [if_pos hsyn, if_pos hsyn]
      · rw [if_pos hlen, if_pos hlen]
    · rw [if_neg hwin, if_neg hwin]
      by_cases hts : opt = tcpoptTimestamp
      · rw [if_pos hts, if_pos hts]
        by_cases hlen : optlen = tcpolenTimestamp
        · rw [fieldBytes, if_neg hmss, if_neg hwin, if_pos hts, if_pos hlen] at h
          rw [@longAt_agree mem mem' (s.cp + 2), @longAt_agree mem mem' (s.cp + 6)]
          · intro j hj
            rw [List.mem_range'_1] at hj
            exact h j (List.mem_range'_1.mpr (by omega))
          · intro j hj
            rw [List.mem_range'_1] at hj
            exact h j (List.mem_range'_1.mpr (by omega))
        · rw [if_pos hlen, if_pos hlen]
      · rw [if_neg hts, if_neg hts]

/-- A turn does not depend on bytes that it does not read. -/
theorem optTurn_agree {mem' : Nat → Byte} (s : OptScan)
    (h : ∀ i ∈ (Machine.landing (optTurn env mem) s).reads, mem' i = mem i) :
    optTurn env mem' s = optTurn env mem s := by
  have hturn := @optTurn_turn env mem s
  unfold Machine.landing at h
  revert hturn h
  generalize optTurn env mem s = r
  intro h hturn
  apply OptTurn.eq
  cases hturn with
  | ends hcnt => exact .ends hcnt
  | eol hcnt heol =>
    have hopt : mem' s.cp = mem s.cp := h _ (List.mem_append_right _ (by simp))
    exact .eol hcnt (hopt.trans heol)
  | nop hcnt hnop =>
    have hopt : mem' s.cp = mem s.cp := h _ (List.mem_append_right _ (by simp))
    exact .nop hcnt (hopt.trans hnop)
  | zero hcnt heol hnop hzero =>
    have hopt : mem' s.cp = mem s.cp := h _ (List.mem_append_right _ (by simp))
    have hlen : mem' (s.cp + 1) = mem (s.cp + 1) := h _ (List.mem_append_right _ (by simp [List.mem_range'_1]))
    exact .zero hcnt (hopt ▸ heol) (hopt ▸ hnop) (hlen.trans hzero)
  | option hcnt heol hnop hzero =>
    change ∀ i ∈ (optSwitch env mem (mem s.cp) (mem (s.cp + 1)).toNat (s.read s.cp 2)).reads, _ at h
    rw [optSwitch_reads] at h
    have hread : ∀ i, s.cp ≤ i → i < s.cp + (2 + fieldBytes s.x.ti.tiFlags.syn (mem s.cp) (mem (s.cp + 1)).toNat) →
        mem' i = mem i := fun i hle hlt => h i (List.mem_append_right _ (List.mem_range'_1.mpr ⟨hle, hlt⟩))
    have hopt : mem' s.cp = mem s.cp := hread _ (Nat.le_refl _) (by omega)
    have hlen : mem' (s.cp + 1) = mem (s.cp + 1) := hread _ (by omega) (by omega)
    have hswitch : optSwitch env mem' (mem s.cp) (mem (s.cp + 1)).toNat (s.read s.cp 2) =
        optSwitch env mem (mem s.cp) (mem (s.cp + 1)).toNat (s.read s.cp 2) := optSwitch_agree _ _ _ fun i hi => by
      change i ∈ List.range' (s.cp + 2) (fieldBytes s.x.ti.tiFlags.syn (mem s.cp) (mem (s.cp + 1)).toNat) at hi
      rw [List.mem_range'_1] at hi
      exact hread i (by omega) (by omega)
    have hturn : OptTurn env mem' s _ := .option hcnt (by rwa [hopt]) (by rwa [hopt]) (by rwa [hlen])
    rwa [hopt, hlen, hswitch] at hturn

/-- A block of bytes from the position on is within the list if the list is as long. -/
theorem within_iff {cp n : Nat} {cnt : Int} (hn : 0 < n) :
    (∀ i ∈ List.range' cp n, (i : Int) < cp + cnt) ↔ n ≤ cnt := by
  refine ⟨fun h => ?_, fun h i hi => ?_⟩
  · have hlast := h (cp + n - 1) (List.mem_range'_1.mpr (by omega))
    omega
  · rw [List.mem_range'_1] at hi
    omega

/-- The loop returns, and what it reads from here on is within the list exactly if no option is cut off. -/
theorem optTurns_spec (n : Nat) (s : OptScan) (hn : s.cnt.toNat < n) :
    ∃ t new, Machine.runFor (optTurn env mem) n s = .inr t ∧ t.reads = s.reads ++ new ∧
      (Uncut s.x.ti.tiFlags.syn (slice mem s.cp s.cnt.toNat) ↔ ∀ i ∈ new, (i : Int) < s.cp + s.cnt) := by
  induction n generalizing s with
  | zero => exact absurd hn (Nat.not_lt_zero _)
  | succ n ih =>
    have hstep := @optTurn_turn env mem s
    revert hstep
    cases hr : optTurn env mem s with
    | inr r =>
      intro hstep
      have hstop := Machine.runFor_stop hr n
      cases hstep with
      | ends hcnt =>
        refine ⟨s, [], hstop, (List.append_nil _).symm, ?_⟩
        rw [Int.toNat_of_nonpos hcnt, slice_zero]
        exact ⟨fun _ i hi => absurd hi List.not_mem_nil, fun _ => .nil⟩
      | eol hcnt heol =>
        refine ⟨_, [s.cp], hstop, rfl, ?_⟩
        rw [slice_pos mem hcnt, heol]
        refine ⟨fun _ i hi => ?_, fun _ => .eol _⟩
        rw [List.mem_singleton.mp hi]
        omega
      | zero hcnt heol hnop hzero =>
        refine ⟨_, List.range' s.cp 2, hstop, rfl, ?_⟩
        rw [within_iff (by decide)]
        refine ⟨fun h => ?_, fun h => ?_⟩
        · by_contra hlt
          have hone : (s.cnt - 1).toNat = 0 := by omega
          rw [slice_pos mem hcnt, hone] at h
          exact Uncut.not_single heol hnop h
        · rw [slice_pos mem hcnt, slice_pos mem (by omega), hzero]
          exact .zero _ heol hnop
    | inl s' =>
      intro hstep
      have hrun := Machine.runFor_next hr n
      cases hstep with
      | nop hcnt hnop =>
        obtain ⟨t, new, ht, hreads, hiff⟩ := ih ((s.read s.cp 1).advance 1) (by
          change (s.cnt - 1).toNat < n
          omega)
        refine ⟨t, s.cp :: new, hrun.trans ht, hreads.trans (List.append_assoc _ _ _), ?_⟩
        rw [slice_pos mem hcnt, hnop, Uncut.nop_iff]
        refine hiff.trans ?_
        rw [List.forall_mem_cons, and_iff_right (by omega)]
        change (∀ i ∈ new, (i : Int) < ((s.cp + 1 : Nat) : Int) + (s.cnt - 1)) ↔ _
        rw [show ((s.cp + 1 : Nat) : Int) + (s.cnt - 1) = s.cp + s.cnt by omega]
      | option hcnt heol hnop hzero =>
        have hswitch := @optSwitch_spec env mem (mem s.cp) (mem (s.cp + 1)).toNat (s.read s.cp 2)
        have hread := @optSwitch_reads env mem (mem s.cp) (mem (s.cp + 1)).toNat s
        have hcp : (optSwitch env mem (mem s.cp) (mem (s.cp + 1)).toNat (s.read s.cp 2)).cp = s.cp := hswitch.cp
        have hleft : (optSwitch env mem (mem s.cp) (mem (s.cp + 1)).toNat (s.read s.cp 2)).cnt = s.cnt :=
          hswitch.cnt
        have hti : (optSwitch env mem (mem s.cp) (mem (s.cp + 1)).toNat (s.read s.cp 2)).x.ti = s.x.ti :=
          hswitch.ti
        revert hrun hread hcp hleft hti
        generalize optSwitch env mem (mem s.cp) (mem (s.cp + 1)).toNat (s.read s.cp 2) = u
        intro hrun hread hcp hleft hti
        obtain ⟨t, new, ht, hreads, hiff⟩ := ih (u.advance (mem (s.cp + 1)).toNat) (by
          simp only [OptScan.advance, hleft]
          omega)
        simp only [OptScan.advance, hcp, hleft, hti] at hiff
        refine ⟨t, List.range' s.cp (2 + fieldBytes s.x.ti.tiFlags.syn (mem s.cp) (mem (s.cp + 1)).toNat) ++ new,
          hrun.trans ht, ?_, ?_⟩
        · rw [hreads, ← List.append_assoc, ← hread]
          rfl
        · rw [List.forall_mem_append, within_iff (by omega)]
          have hbound : (∀ i ∈ new, (i : Int) < s.cp + s.cnt) ↔
              Uncut s.x.ti.tiFlags.syn ((slice mem s.cp s.cnt.toNat).drop (mem (s.cp + 1)).toNat) := by
            have hnat : s.cnt.toNat - (mem (s.cp + 1)).toNat = (s.cnt - (mem (s.cp + 1)).toNat).toNat := by omega
            rw [drop_slice, hnat, hiff]
            push_cast
            rw [add_add_sub_cancel]
          rw [hbound]
          by_cases htwo : 2 ≤ s.cnt
          · have hshape : slice mem s.cp s.cnt.toNat =
                mem s.cp :: mem (s.cp + 1) :: slice mem (s.cp + 2) (s.cnt - 1 - 1).toNat := by
              rw [slice_pos mem hcnt, slice_pos mem (by omega)]
            rw [hshape, Uncut.option_iff heol hnop hzero, length_slice]
            exact and_congr_left fun _ => by omega
          · have hone : (s.cnt - 1).toNat = 0 := by omega
            rw [slice_pos mem hcnt, hone, slice_zero]
            refine iff_of_false (Uncut.not_single heol hnop) fun h => ?_
            omega

theorem tcpDooptions_returns (env : Env) (mem : Nat → Byte) (cnt : Nat) (x : Ctx) :
    ∃ s, tcpDooptions env mem cnt x = .inr s := by
  obtain ⟨t, -, ht, -⟩ := @optTurns_spec env mem (cnt + 1) { cnt := cnt, x := x } (by simp)
  exact ⟨t, ht⟩

/-- `tcp_dooptions` stays inside the options: it returns, reads the `cnt` bytes only, and what it makes of them does not depend on what is behind them. -/
def StaysInside (env : Env) (mem : Nat → Byte) (cnt : Nat) (x : Ctx) : Prop :=
  ∃ s, tcpDooptions env mem cnt x = .inr s ∧ (∀ i ∈ s.reads, i < cnt) ∧
    ∀ mem' : Nat → Byte, (∀ i < cnt, mem' i = mem i) → ∃ s', tcpDooptions env mem' cnt x = .inr s' ∧ s'.x = s.x

end Reads

/-- It stays inside the options exactly if no option is cut off. -/
theorem dooptions_inside_iff (env : Env) (mem : Nat → Byte) (cnt : Nat) (x : Ctx) :
    StaysInside env mem cnt x ↔ Uncut x.ti.tiFlags.syn (slice mem 0 cnt) := by
  obtain ⟨t, new, ht, hreads, hiff⟩ := @optTurns_spec env mem (cnt + 1) { cnt := cnt, x := x } (by simp)
  simp only [List.nil_append, Int.toNat_natCast, Nat.cast_zero, zero_add, Nat.cast_lt] at hreads hiff
  rw [hiff, ← hreads]
  refine ⟨fun ⟨s, hs, hinside, _⟩ => ?_, fun hinside => ⟨t, ht, hinside, fun mem' hmem => ?_⟩⟩
  · obtain rfl : s = t := Sum.inr.inj (hs.symm.trans ht)
    exact hinside
  · exact ⟨t, Machine.runFor_agree optTurn_reads optTurn_agree ht fun i hi => hmem i (hinside i hi), rfl⟩

/-- Four bytes of options that end with the kind of a timestamp, and what is behind them in the mbuf. -/
def cutTimestamp (i : Nat) : Byte := ([1, 1, 1, 8, 10, 0, 0, 0, 7, 0, 0, 0, 9] : List Byte).getD i 0

/-- A segment with options, and no timestamp found yet. -/
def unparsed : Ctx where
  c := { tp := { tState := .established }, so := {} }
  ti := { tiSeq := 501 }
  tiflags := {}
  tiwin := 0

theorem dooptions_reads_behind :
    ¬ StaysInside {} cutTimestamp 4 unparsed ∧
      ∃ s, tcpDooptions {} cutTimestamp 4 unparsed = .inr s ∧ s.x.ts = some (7, 9) := by
  have hreads : ∀ s, tcpDooptions {} cutTimestamp 4 unparsed = .inr s → s.reads = List.range 13 ∧ s.x.ts = some (7, 9) := by
    have hrun : (tcpDooptions {} cutTimestamp 4 unparsed).getRight?.map (fun s => (s.reads, s.x.ts)) =
        some (List.range 13, some (7, 9)) := by decide +kernel
    intro s hs
    rw [hs] at hrun
    exact Prod.mk.inj (Option.some.inj hrun)
  obtain ⟨t, ht⟩ := tcpDooptions_returns {} cutTimestamp 4 unparsed
  refine ⟨fun ⟨s, hs, hinside, _⟩ => ?_, t, ht, (hreads t ht).2⟩
  rw [(hreads s hs).1] at hinside
  exact absurd (hinside 4 (by decide)) (by decide)

end Reading.Tcp
