import Reading.Bpf.Filter

/-!
# What `bpf_validate` guarantees

A program that `bpf_validate` accepts ends in a return and its conditional jumps land inside it, so the filter stays inside the program and comes closer to its end with every instruction, as long as the unconditional jumps it executes go forward. `bpf_validate` compares the target of `BPF_JA` with the end of the program only, in signed arithmetic, and it never looks at the index of `BPF_STX` and `BPF_LDX|BPF_MEM`.
-/

namespace Reading.Bpf

open Machine (Visits runFor)

/-! ### Accepted programs -/

section Accepted

variable {f : Program} {pc : Int} {i : Insn}

theorem Program.fetch_eq_some : f.fetch pc = some i ↔ 0 ≤ pc ∧ f.insns[pc.toNat]? = some i := by
  unfold Program.fetch
  by_cases hpc : 0 ≤ pc
  · rw [if_pos hpc]
    exact (and_iff_right hpc).symm
  · rw [if_neg hpc]
    simp [hpc]

theorem Program.lt_length_of_fetch (h : f.fetch pc = some i) : pc < f.insns.length := by
  obtain ⟨hpos, hget⟩ := Program.fetch_eq_some.1 h
  have := (List.getElem?_eq_some_iff.1 hget).1
  omega

theorem Program.exists_fetch (hpos : 0 ≤ pc) (hlt : pc < f.insns.length) : ∃ i, f.fetch pc = some i := by
  have hlen : pc.toNat < f.insns.length := by omega
  exact ⟨_, Program.fetch_eq_some.2 ⟨hpos, List.getElem?_eq_getElem hlen⟩⟩

variable (hvalid : bpfValidate f = true)

include hvalid

theorem checkInsn_of_valid (h : f.fetch pc = some i) : checkInsn f.insns.length i pc.toNat = true := by
  obtain ⟨-, hget⟩ := Program.fetch_eq_some.1 h
  have hall := (Bool.and_eq_true_iff.1 hvalid).1
  have hmem : (i, pc.toNat) ∈ f.insns.zipIdx := List.mk_mem_zipIdx_iff_getElem?.2 hget
  rw [List.all_eq_true] at hall
  exact hall (i, pc.toNat) hmem

/-- The last instruction is of the class of returns. -/
theorem class_of_last (h : f.fetch pc = some i) (hlast : pc + 1 = f.insns.length) : bpfClass i.code = bpfRet := by
  obtain ⟨hpos, hget⟩ := Program.fetch_eq_some.1 h
  have hret := beq_iff_eq.1 (Bool.and_eq_true_iff.1 hvalid).2
  have hidx : pc.toNat = f.insns.length - 1 := by omega
  rw [List.getLast_eq_getElem] at hret
  rw [hidx] at hget
  have hsame := (List.getElem?_eq_some_iff.1 hget).2
  rwa [hsame] at hret

end Accepted

theorem class_ne_ret {op : Opcode} {code : BitVec 16} (h : decode code = some op) (hK : op ≠ .retK)
    (hA : op ≠ .retA) : bpfClass code ≠ bpfRet := by
  rw [← label_of_decode h]
  cases op with
  | retK => exact absurd rfl hK
  | retA => exact absurd rfl hA
  | ld size mode => cases size <;> cases mode <;> decide
  | jump test src => cases test <;> cases src <;> decide
  | alu op src => cases op <;> cases src <;> decide
  | _ => decide

section Checks

variable {i : Insn} {len j : Nat} (hcheck : checkInsn len i j = true)

include hcheck

theorem jump_of_check {test : Test} {src : Operand} (h : decode i.code = some (.jump test src)) :
    j + 1 + i.jt.toNat < len ∧ j + 1 + i.jf.toNat < len := by
  have hcode := label_of_decode h
  have hclass : bpfClass i.code = bpfJmp := by
    rw [← hcode]
    cases test <;> cases src <;> decide
  have hop : bpfOp i.code ≠ bpfJa := by
    rw [← hcode]
    cases test <;> cases src <;> decide
  simp only [checkInsn, hclass, beq_self_eq_true, Bool.true_and, beq_iff_eq, hop, if_false, Bool.and_eq_true,
    Bool.not_eq_true', Bool.or_eq_false_iff, decide_eq_false_iff_not, not_le] at hcheck
  exact hcheck.1.1

theorem ja_of_check (h : decode i.code = some .ja) : (BitVec.ofNat 32 (j + 1) + i.k).toInt < len := by
  have hcode := label_of_decode h
  have hclass : bpfClass i.code = bpfJmp := by
    rw [← hcode]
    decide
  have hop : bpfOp i.code = bpfJa := by
    rw [← hcode]
    decide
  simp only [checkInsn, hclass, hop, beq_self_eq_true, Bool.true_and, if_true, Bool.and_eq_true,
    Bool.not_eq_true', decide_eq_false_iff_not, not_le] at hcheck
  exact hcheck.1.1

theorem mem_of_check (h : decode i.code = some .st ∨ decode i.code = some .ldMem) :
    0 ≤ i.k.toInt ∧ i.k.toInt < memWords := by
  have hclass : (bpfClass i.code == bpfSt || (bpfClass i.code == bpfLd && bpfMode i.code == bpfMem)) = true := by
    rcases h with h | h
    · rw [← label_of_decode h]
      decide
    · rw [← label_of_decode h]
      decide
  simp only [checkInsn, hclass, Bool.true_and, Bool.and_eq_true, Bool.not_eq_true', Bool.or_eq_false_iff,
    decide_eq_false_iff_not, not_le, not_lt] at hcheck
  exact ⟨hcheck.1.2.2, hcheck.1.2.1⟩

theorem div_of_check (h : decode i.code = some (.alu .div .k)) : i.k ≠ 0 := by
  have hcode : i.code = bpfAlu ||| bpfDiv ||| bpfK := (label_of_decode h).symm
  intro hzero
  simp [checkInsn, hcode, hzero] at hcheck

end Checks

/-! ### Where an instruction goes -/

/-- The instruction the state is at, with the case it selects. -/
def State.At (f : Program) (s : State) (i : Insn) (op : Opcode) : Prop :=
  f.fetch s.pc = some i ∧ decode i.code = some op

variable {call : Call} {f : Program} {s s' : State}

theorem Loaded.into_inl {loaded : Loaded} {set : Word → State} (h : (loaded.into set).after = .inl s') :
    ∃ v, loaded.2 = some v ∧ s' = set v := by
  unfold Loaded.into at h
  cases hvalue : loaded.2 with
  | none => simp [hvalue] at h
  | some v =>
    simp only [hvalue] at h
    exact ⟨v, rfl, (Sum.inl.inj h).symm⟩

theorem store_inl {k : Int} {v : Word} (h : (store s k v).after = .inl s') : s'.pc = s.pc + 1 := by
  unfold store at h
  dsimp only at h
  split at h
  · cases h
    show s.pc + 0 + 1 = s.pc + 1
    omega
  · cases h

/-- An instruction after which the filter goes on is a jump to its target or goes on with the next one. -/
theorem execOp_inl {i : Insn} {op : Opcode} (h : (execOp call i s op).after = .inl s') :
    (op = .ja ∧ s'.pc = s.pc + i.k.toInt + 1) ∨
    (∃ test src, op = .jump test src ∧ (s'.pc = s.pc + i.jt.toNat + 1 ∨ s'.pc = s.pc + i.jf.toNat + 1)) ∨
    (op ≠ .retK ∧ op ≠ .retA ∧ s'.pc = s.pc + 1) := by
  have hgoOn : (s.goOn 0).pc = s.pc + 1 := by
    show s.pc + 0 + 1 = s.pc + 1
    omega
  cases op with
  | retK => cases h
  | retA => cases h
  | ja =>
    cases h
    exact .inl ⟨rfl, rfl⟩
  | jump test src =>
    cases h
    refine .inr (.inl ⟨test, src, rfl, ?_⟩)
    by_cases htest : test.holds s.a (src.value i s)
    · left
      simp [State.goOn, htest]
    · right
      simp [State.goOn, htest]
  | ld size mode =>
    obtain ⟨v, -, rfl⟩ := Loaded.into_inl h
    exact .inr (.inr ⟨by simp, by simp, hgoOn⟩)
  | ldxMsh =>
    obtain ⟨v, -, rfl⟩ := Loaded.into_inl h
    exact .inr (.inr ⟨by simp, by simp, hgoOn⟩)
  | st => exact .inr (.inr ⟨by simp, by simp, store_inl h⟩)
  | stx => exact .inr (.inr ⟨by simp, by simp, store_inl h⟩)
  | alu op src =>
    refine .inr (.inr ⟨by simp, by simp, ?_⟩)
    unfold execOp at h
    split at h
    all_goals try contradiction
    · split at h
      · cases h
      · cases h
        exact hgoOn
    · split at h
      · cases h
        exact hgoOn
      · cases h
  | _ =>
    cases h
    exact .inr (.inr ⟨by simp, by simp, hgoOn⟩)

theorem step_inl (h : step call f s = .inl s') :
    ∃ i op, s.At f i op ∧ (execOp call i s op).after = .inl s' := by
  unfold step exec at h
  split at h
  · cases h
  · rename_i i hfetch
    split at h
    · cases h
    · rename_i op hdecode
      exact ⟨i, op, ⟨hfetch, hdecode⟩, h⟩

/-! ### Staying inside the program -/

def State.Inside (f : Program) (s : State) : Prop := 0 ≤ s.pc ∧ s.pc < f.insns.length

/-- Where `BPF_JA` would lead, if the state is at one, is inside the program. -/
def State.LandsInside (f : Program) (s : State) : Prop :=
  ∀ i, s.At f i .ja → 0 ≤ s.pc + i.k.toInt + 1 ∧ s.pc + i.k.toInt + 1 < f.insns.length

/-- `BPF_JA`, if the state is at one, goes forward, and the sum `bpf_validate` checked did not overflow. -/
def State.Forward (f : Program) (s : State) : Prop :=
  ∀ i, s.At f i .ja → 0 ≤ i.k.toInt ∧ s.pc + 1 + i.k.toInt < 2 ^ 31

theorem State.Forward.landsInside (hvalid : bpfValidate f = true) (h : s.Forward f) : s.LandsInside f := by
  intro i hat
  obtain ⟨hpos, hsum⟩ := h i hat
  have hpc := (Program.fetch_eq_some.1 hat.1).1
  have hcheck := ja_of_check (checkInsn_of_valid hvalid hat.1) hat.2
  have hfrom : (BitVec.ofNat 32 (s.pc.toNat + 1)).toInt = s.pc + 1 := by
    rw [BitVec.toInt_ofNat']
    have hnat : ((s.pc.toNat + 1 : Nat) : Int) = s.pc + 1 := by omega
    rw [hnat]
    exact Int.bmod_eq_of_le (by omega) (by omega)
  have htarget : (BitVec.ofNat 32 (s.pc.toNat + 1) + i.k).toInt = s.pc + 1 + i.k.toInt := by
    rw [BitVec.toInt_add, hfrom]
    exact Int.bmod_eq_of_le (by omega) (by omega)
  omega

/-- One instruction of an accepted program keeps the filter inside it, if its `BPF_JA` does. -/
theorem inside_step (hvalid : bpfValidate f = true) (hlands : s.LandsInside f) (hstep : step call f s = .inl s')
    (hinside : s.Inside f) : s'.Inside f := by
  obtain ⟨i, op, hat, hexec⟩ := step_inl hstep
  have hcheck := checkInsn_of_valid hvalid hat.1
  obtain ⟨hpos, hlt⟩ := hinside
  rcases execOp_inl hexec with ⟨rfl, hpc⟩ | ⟨test, src, rfl, hpc⟩ | ⟨hK, hA, hpc⟩
  · have hland := hlands i hat
    exact ⟨by omega, by omega⟩
  · have hjump := jump_of_check hcheck hat.2
    rcases hpc with hpc | hpc
    · exact ⟨by omega, by omega⟩
    · exact ⟨by omega, by omega⟩
  · have hclass := class_ne_ret hat.2 hK hA
    have hnotLast : s.pc + 1 ≠ f.insns.length := fun hlast => hclass (class_of_last hvalid hat.1 hlast)
    exact ⟨by omega, by omega⟩

theorem start_inside (f : Program) (l : Locals) : (start l).Inside f := by
  have hpos := f.pos
  show (0 : Int) ≤ 0 ∧ (0 : Int) < f.insns.length
  omega

theorem inside_of_visits (hvalid : bpfValidate f = true) {l : Locals}
    (hlands : ∀ t, Visits (step call f) (start l) t → t.LandsInside f) {t : State}
    (ht : Visits (step call f) (start l) t) : t.Inside f :=
  ht.invariant (fun u _ hu hstep hinside => inside_step hvalid (hlands u hu) hstep hinside) (start_inside f l)

/-- With forward jumps every instruction brings the filter closer to the end. -/
theorem pc_lt_step (hforward : s.Forward f) (hstep : step call f s = .inl s') :
    s.pc < s'.pc := by
  obtain ⟨i, op, hat, hexec⟩ := step_inl hstep
  rcases execOp_inl hexec with ⟨rfl, hpc⟩ | ⟨test, src, rfl, hpc⟩ | ⟨-, -, hpc⟩
  · have := (hforward i hat).1
    omega
  · omega
  · omega

/-! ### How the filter stops -/

/-- `BPF_STX`, if the state is at one, stays inside `mem`. -/
def State.StoresInside (f : Program) (s : State) : Prop :=
  ∀ i, s.At f i .stx → 0 ≤ i.k.toInt ∧ i.k.toInt < memWords

theorem Loaded.into_inr {loaded : Loaded} {set : Word → State} {r : Stop}
    (h : (loaded.into set).after = .inr r) : r = .ret 0 := by
  unfold Loaded.into at h
  cases hvalue : loaded.2 with
  | none =>
    simp only [hvalue] at h
    exact (Sum.inr.inj h).symm
  | some v => simp [hvalue] at h

theorem store_inr {k : Int} {v : Word} {r : Stop} (hk : 0 ≤ k ∧ k < memWords)
    (h : (store s k v).after = .inr r) : False := by
  unfold store at h
  rw [if_pos hk] at h
  cases h

theorem Arith.apply_isSome {op : Arith} {a v : Word} (h : op = .div → v ≠ 0) :
    ∃ w, op.apply call a v = some w := by
  cases op with
  | div => exact ⟨_, if_neg (h rfl)⟩
  | _ => exact ⟨_, rfl⟩

/-- The cases of the switch end in a return, if the checks of `bpf_validate` hold and a `BPF_STX` stays inside `mem`. -/
theorem execOp_inr {i : Insn} {op : Opcode} {r : Stop} (hdiv : op = .alu .div .k → i.k ≠ 0)
    (hmem : op = .st ∨ op = .stx → 0 ≤ i.k.toInt ∧ i.k.toInt < memWords)
    (h : (execOp call i s op).after = .inr r) : ∃ v, r = .ret v := by
  cases op with
  | retK => exact ⟨_, (Sum.inr.inj h).symm⟩
  | retA => exact ⟨_, (Sum.inr.inj h).symm⟩
  | ld size mode => exact ⟨0, Loaded.into_inr h⟩
  | ldxMsh => exact ⟨0, Loaded.into_inr h⟩
  | st => exact (store_inr (hmem (.inl rfl)) h).elim
  | stx => exact (store_inr (hmem (.inr rfl)) h).elim
  | alu op src =>
    by_cases hdivX : op = .div ∧ src = .x
    · obtain ⟨rfl, rfl⟩ := hdivX
      simp only [execOp] at h
      split at h
      · exact ⟨0, (Sum.inr.inj h).symm⟩
      · cases h
    · obtain ⟨w, hw⟩ : ∃ w, op.apply call s.a (src.value i s) = some w := by
        apply Arith.apply_isSome
        rintro rfl
        cases src with
        | k => exact hdiv rfl
        | x => exact absurd ⟨rfl, rfl⟩ hdivX
      unfold execOp at h
      split at h
      all_goals try contradiction
      · rename_i hop
        cases hop
        exact absurd ⟨rfl, rfl⟩ hdivX
      · rename_i hop
        cases hop
        rw [hw] at h
        cases h
  | _ => cases h

theorem step_inr (hvalid : bpfValidate f = true) (hstores : s.StoresInside f) (hinside : s.Inside f) {r : Stop}
    (h : step call f s = .inr r) : ∃ v, r = .ret v := by
  obtain ⟨i, hfetch⟩ := Program.exists_fetch hinside.1 hinside.2
  have hcheck := checkInsn_of_valid hvalid hfetch
  unfold step exec at h
  simp only [hfetch] at h
  cases hdecode : decode i.code with
  | none =>
    simp only [hdecode] at h
    exact ⟨0, (Sum.inr.inj h).symm⟩
  | some op =>
    simp only [hdecode] at h
    refine execOp_inr (fun hop => div_of_check hcheck (hop ▸ hdecode)) (fun hop => ?_) h
    rcases hop with rfl | rfl
    · exact mem_of_check hcheck (.inl hdecode)
    · exact hstores i ⟨hfetch, hdecode⟩

/-- An accepted program whose executed `BPF_JA` go forward and whose executed `BPF_STX` stay inside `mem` returns a value after at most as many instructions as it has, and the filter stays inside it. -/
theorem bpfFilter_returns (hvalid : bpfValidate f = true) (call : Call) (l : Locals)
    (hforward : ∀ t, Visits (step call f) (start l) t → t.Forward f)
    (hstores : ∀ t, Visits (step call f) (start l) t → t.StoresInside f) :
    (∃ v, bpfFilter call (some f) l f.insns.length = .inr (.ret v)) ∧
      ∀ t, Visits (step call f) (start l) t → t.Inside f := by
  have hinside : ∀ t, Visits (step call f) (start l) t → t.Inside f := fun t ht =>
    inside_of_visits hvalid (fun u hu => (hforward u hu).landsInside hvalid) ht
  have hpos : ∀ t, Visits (step call f) (start l) t → 0 < (f.insns.length - t.pc).toNat := by
    intro t ht
    obtain ⟨-, hlt⟩ := hinside t ht
    omega
  have hless : ∀ t t', Visits (step call f) (start l) t → step call f t = .inl t' →
      (f.insns.length - t'.pc).toNat < (f.insns.length - t.pc).toNat := by
    intro t t' ht hstep
    have hlt := pc_lt_step (hforward t ht) hstep
    have hgap := hpos t ht
    omega
  obtain ⟨t, r, ht, hstop, hrun⟩ := Machine.stops_of_measure
    (fun t : State => (f.insns.length - t.pc).toNat) hpos hless (by
      show ((f.insns.length : Int) - 0).toNat ≤ f.insns.length
      omega)
  obtain ⟨v, rfl⟩ := step_inr hvalid (hstores t ht) (hinside t ht) hstop
  exact ⟨⟨v, hrun⟩, hinside⟩

/-! ### Conditions on the program text -/

/-- Every `BPF_JA` of the program goes forward. -/
def Program.JumpsForward (f : Program) : Prop :=
  ∀ q ∈ f.insns.zipIdx, decode q.1.code = some .ja → 0 ≤ q.1.k.toInt ∧ (q.2 : Int) + 1 + q.1.k.toInt < 2 ^ 31

/-- Every scratch memory index of the program is in range. -/
def Program.MemInside (f : Program) : Prop :=
  ∀ i ∈ f.insns, decode i.code ∈ [some .st, some .stx, some .ldMem, some .ldxMem] →
    0 ≤ i.k.toInt ∧ i.k.toInt < memWords

instance (f : Program) : Decidable f.JumpsForward := by unfold Program.JumpsForward; infer_instance

instance (f : Program) : Decidable f.MemInside := by unfold Program.MemInside; infer_instance

theorem Program.JumpsForward.forward (h : f.JumpsForward) (s : State) : s.Forward f := by
  intro i hat
  obtain ⟨hpos, hget⟩ := Program.fetch_eq_some.1 hat.1
  have hjump := h (i, s.pc.toNat) (List.mk_mem_zipIdx_iff_getElem?.2 hget) hat.2
  dsimp only at hjump
  omega

theorem Program.MemInside.storesInside (h : f.MemInside) (s : State) : s.StoresInside f := by
  intro i hat
  obtain ⟨-, hget⟩ := Program.fetch_eq_some.1 hat.1
  refine h i (List.mem_of_getElem? hget) ?_
  rw [hat.2]
  decide

/-- A call with nothing in memory but zeros. -/
def blankCall (wirelen buflen : Word) : Call where
  p := fun _ => 0
  m := ⟨0, fun _ => 0⟩
  next := []
  wirelen := wirelen
  buflen := buflen
  lshOver := fun a _ => a
  rshOver := fun a _ => a

def blankLocals : Locals where
  a := 0
  x := 0
  mem := fun _ => 0

/-- Loads a word, keeps it in `mem` and jumps over a return. -/
def keepWord : Program where
  insns := [⟨Opcode.label (.ld .w .abs), 0, 0, 0⟩, ⟨Opcode.label .tax, 0, 0, 0⟩, ⟨Opcode.label .stx, 0, 0, 3⟩,
    ⟨Opcode.label .ja, 0, 0, 1⟩, ⟨Opcode.label .retK, 0, 0, 0⟩, ⟨Opcode.label .retK, 0, 0, 7⟩]
  pos := by decide
  fits := by decide

theorem bpfFilter_returns_keepWord :
    bpfValidate keepWord = true ∧ ∃ v, bpfFilter (blankCall 4 4) (some keepWord) blankLocals 6 = .inr (.ret v) := by
  have hvalid : bpfValidate keepWord = true := by decide
  have hjumps : keepWord.JumpsForward := by decide
  have hmem : keepWord.MemInside := by decide
  exact ⟨hvalid, (bpfFilter_returns hvalid (blankCall 4 4) blankLocals (fun t _ => hjumps.forward t)
    (fun t _ => hmem.storesInside t)).1⟩

/-- A jump to itself, and a return after it. -/
def spin : Program where
  insns := [⟨Opcode.label .ja, 0, 0, -1⟩, ⟨Opcode.label .retK, 0, 0, 0⟩]
  pos := by decide
  fits := by decide

theorem spin_never_stops :
    bpfValidate spin = true ∧ ∀ fuel, ∃ s, bpfFilter (blankCall 4 4) (some spin) blankLocals fuel = .inl s := by
  refine ⟨by decide, fun fuel => ?_⟩
  have hstep : step (blankCall 4 4) spin (start blankLocals) = .inl (start blankLocals) := rfl
  have hspin : runFor (step (blankCall 4 4) spin) fuel (start blankLocals) = .inl (start blankLocals) := by
    induction fuel with
    | zero => rfl
    | succ fuel ih => rw [Machine.runFor_next hstep, ih]
  exact ⟨start blankLocals, hspin⟩

/-! ### Bounds of the accesses -/

/-- In `mem`, or among the `buflen` bytes of a contiguous packet. -/
def Access.InRange (buflen : Word) : Access → Prop
  | .scratch i => 0 ≤ i ∧ i < memWords
  | .packet off => off < buflen
  | .chain => False

/-- The end of the load is past 2^32, and its remainder passes the test against `buflen`. -/
def Size.Wraps (size : Size) (k buflen : Word) : Prop :=
  match size with
  | .w => 2 ^ 32 - 4 ≤ k.toNat ∧ k + 4 ≤ buflen
  | .h => 2 ^ 32 - 2 ≤ k.toNat ∧ k + 2 ≤ buflen
  | .b => False

/-- The instruction is not one of those that leave `mem`, the packet or the program. -/
def Opcode.Bounded (call : Call) (f : Program) (s : State) (i : Insn) : Opcode → Prop
  | .stx | .ldxMem => 0 ≤ i.k.toInt ∧ i.k.toInt < memWords
  | .ld size mode => call.buflen ≠ 0 ∧ ¬ size.Wraps (mode.offset i s) call.buflen
  | .ldxMsh => call.buflen ≠ 0
  | .ja => 0 ≤ s.pc + i.k.toInt + 1 ∧ s.pc + i.k.toInt + 1 < f.insns.length
  | _ => True

def State.Bounded (call : Call) (f : Program) (s : State) : Prop :=
  ∀ i op, s.At f i op → op.Bounded call f s i

/-- The common shape of the packet loads: what is past `buflen` is refused, or looked for in a chain when `buflen` is 0. -/
theorem checked_inRange {buflen : Word} {long P : Prop} [Decidable long] {touched : List Access}
    {chained flat : Option Word} (hlong : long → P)
    (hflat : ¬ long → ((∀ a ∈ touched, a.InRange buflen) ↔ buflen ≠ 0 ∧ P)) :
    (∀ a ∈ (if long then if buflen ≠ 0 then ([], none) else ([Access.chain], chained)
      else (touched, flat) : Loaded).1, a.InRange buflen) ↔ buflen ≠ 0 ∧ P := by
  by_cases h : long
  · rw [if_pos h]
    by_cases hzero : buflen = 0
    · simp [hzero, Access.InRange]
    · rw [if_pos hzero]
      exact iff_of_true (fun a ha => by cases ha) ⟨hzero, hlong h⟩
  · rw [if_neg h]
    exact hflat h

theorem load_inRange (size : Size) (mode : Mode) (k : Word) :
    (∀ a ∈ (load call size mode k).1, a.InRange call.buflen) ↔ call.buflen ≠ 0 ∧ ¬ size.Wraps k call.buflen := by
  cases size with
  | w =>
    refine checked_inRange (fun hlong hwraps => BitVec.not_le.2 hlong hwraps.2) fun hshort => ?_
    simp only [List.forall_mem_cons, List.not_mem_nil, false_implies, implies_true, and_true, Access.InRange,
      Size.Wraps]
    bv_omega
  | h =>
    refine checked_inRange (fun hlong hwraps => BitVec.not_le.2 hlong hwraps.2) fun hshort => ?_
    simp only [List.forall_mem_cons, List.not_mem_nil, false_implies, implies_true, and_true, Access.InRange,
      Size.Wraps]
    bv_omega
  | b =>
    refine checked_inRange (fun _ hwraps => hwraps) fun hshort => ?_
    simp only [List.forall_mem_cons, List.not_mem_nil, false_implies, implies_true, and_true, Access.InRange,
      Size.Wraps, not_false_eq_true]
    bv_omega

theorem loadMsh_inRange (k : Word) :
    (∀ a ∈ (loadMsh call k).1, a.InRange call.buflen) ↔ call.buflen ≠ 0 := by
  refine (checked_inRange (P := True) (fun _ => trivial) fun hshort => ?_).trans (and_iff_left trivial)
  simp only [List.forall_mem_cons, List.not_mem_nil, false_implies, implies_true, and_true, Access.InRange]
  bv_omega

/-- The accesses of one instruction that passed the checks of `bpf_validate`, `BPF_JA` apart. -/
theorem execOp_inRange {i : Insn} {op : Opcode}
    (hmem : op = .st ∨ op = .ldMem → 0 ≤ i.k.toInt ∧ i.k.toInt < memWords) (hja : op ≠ .ja) :
    (∀ a ∈ (execOp call i s op).touched, a.InRange call.buflen) ↔ op.Bounded call f s i := by
  have hscratch : ∀ k : Int, (∀ a ∈ [Access.scratch k], a.InRange call.buflen) ↔ 0 ≤ k ∧ k < memWords := by
    intro k
    simp [Access.InRange]
  cases op with
  | ja => exact absurd rfl hja
  | ld size mode => exact load_inRange size mode _
  | ldxMsh => exact loadMsh_inRange _
  | stx => exact hscratch _
  | ldxMem => exact hscratch _
  | st => exact (hscratch _).trans (iff_true_intro (hmem (.inl rfl)))
  | ldMem => exact (hscratch _).trans (iff_true_intro (hmem (.inr rfl)))
  | alu op src =>
    refine iff_of_true (fun a ha => ?_) trivial
    unfold execOp at ha
    split at ha
    all_goals try contradiction
    · split at ha <;> cases ha
    · split at ha <;> cases ha
  | _ => exact iff_of_true (fun a ha => by cases ha) trivial

theorem exec_at {i : Insn} {op : Opcode} (h : s.At f i op) : exec call f s = execOp call i s op := by
  unfold exec
  simp only [h.1, h.2]

/-- The accesses of the filter on an accepted program stay in range, and the filter inside the program, exactly when every executed instruction is bounded. -/
theorem accesses_inRange_iff (hvalid : bpfValidate f = true) (call : Call) (l : Locals) :
    (∀ t, Visits (step call f) (start l) t →
      t.Inside f ∧ ∀ a ∈ (exec call f t).touched, a.InRange call.buflen) ↔
    ∀ t, Visits (step call f) (start l) t → t.Bounded call f := by
  constructor
  · intro hsafe t ht i op hat
    by_cases hja : op = .ja
    · subst hja
      -- the target of the jump is the next state visited
      have hstep : step call f t = .inl (t.goOn i.k.toInt) := congrArg Effect.after (exec_at hat)
      exact (hsafe _ (ht.snoc hstep)).1
    · have hcheck := checkInsn_of_valid hvalid hat.1
      refine (execOp_inRange (fun hop => ?_) hja).1 ?_
      · refine mem_of_check hcheck (hop.imp ?_ ?_)
        · rintro rfl
          exact hat.2
        · rintro rfl
          exact hat.2
      · rw [← exec_at hat]
        exact (hsafe t ht).2
  · intro hbounded t ht
    have hinside : t.Inside f := inside_of_visits hvalid (fun u hu i hat => hbounded u hu i _ hat) ht
    refine ⟨hinside, ?_⟩
    obtain ⟨i, hfetch⟩ := Program.exists_fetch hinside.1 hinside.2
    cases hdecode : decode i.code with
    | none =>
      have hexec : exec call f t = { after := .inr (.ret 0) } := by
        unfold exec
        simp only [hfetch, hdecode]
      rw [hexec]
      exact fun a ha => by cases ha
    | some op =>
      have hat : t.At f i op := ⟨hfetch, hdecode⟩
      rw [exec_at hat]
      by_cases hja : op = .ja
      · subst hja
        exact fun a ha => by cases ha
      · have hcheck := checkInsn_of_valid hvalid hfetch
        refine (execOp_inRange (fun hop => ?_) hja).2 (hbounded t ht i op hat)
        refine mem_of_check hcheck (hop.imp ?_ ?_)
        · rintro rfl
          exact hdecode
        · rintro rfl
          exact hdecode

theorem accesses_inRange_keepWord :
    bpfValidate keepWord = true ∧ ∀ t, Visits (step (blankCall 4 4) keepWord) (start blankLocals) t →
      t.Inside keepWord ∧ ∀ a ∈ (exec (blankCall 4 4) keepWord t).touched, a.InRange 4 := by
  have hvalid : bpfValidate keepWord = true := by decide
  refine ⟨hvalid, (accesses_inRange_iff hvalid (blankCall 4 4) blankLocals).2 fun t _ i op hat => ?_⟩
  obtain ⟨hpc, hget⟩ := Program.fetch_eq_some.1 hat.1
  have hlt := Program.lt_length_of_fetch hat.1
  have hlen : keepWord.insns.length = 6 := rfl
  have hdecode := hat.2
  obtain hcase | hcase | hcase | hcase | hcase | hcase : t.pc = 0 ∨ t.pc = 1 ∨ t.pc = 2 ∨ t.pc = 3 ∨ t.pc = 4 ∨
      t.pc = 5 := by omega
  all_goals
    rw [hcase] at hget
    cases hget
    cases hdecode
  · exact ⟨by decide, fun hwraps => absurd (show 2 ^ 32 - 4 ≤ (0 : Word).toNat from hwraps.1) (by decide)⟩
  · trivial
  · exact ⟨by decide, by decide⟩
  · simp [Opcode.Bounded, hcase, hlen]
  · trivial
  · trivial

/-- A store past the end of `mem`. -/
def strayStore : Program where
  insns := [⟨Opcode.label .stx, 0, 0, 16⟩, ⟨Opcode.label .retK, 0, 0, 0⟩]
  pos := by decide
  fits := by decide

/-- A word load four bytes before the packet. -/
def loadBefore : Program where
  insns := [⟨Opcode.label (.ld .w .abs), 0, 0, -4⟩, ⟨Opcode.label .retA, 0, 0, 0⟩]
  pos := by decide
  fits := by decide

theorem accesses_out_of_range :
    (bpfValidate strayStore = true ∧ .scratch 16 ∈ (exec (blankCall 4 4) strayStore (start blankLocals)).touched ∧
      ¬ (Access.scratch 16).InRange 4) ∧
    (bpfValidate loadBefore = true ∧ .packet (-4) ∈ (exec (blankCall 4 4) loadBefore (start blankLocals)).touched ∧
      ¬ (Access.packet (-4)).InRange 4) := by
  refine ⟨⟨by decide, ?_, ?_⟩, ⟨by decide, ?_, ?_⟩⟩
  · decide
  · exact fun h => absurd h.2 (by decide)
  · decide
  · exact fun h => absurd (show (-4 : Word) < 4 from h) (by decide)

end Reading.Bpf
