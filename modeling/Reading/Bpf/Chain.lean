import Reading.Bpf.Validate

/-!
# The filter on a chain of mbufs

`bpf_filter` called with a chain of mbufs has its own code for each load. The theorem compares it with the call on the same bytes in one piece: the two run alike as long as no load meets one of the cases in which the code for chains goes wrong. A load that lies in one mbuf is right, and so is one that begins with the first byte of an mbuf and ends in the next one; otherwise `m_xword` and `m_xhalf` index the mbuf twice.
-/

namespace Reading.Bpf

open Machine (Visits runFor)

def Mbuf.bytes (m : Mbuf) : List Byte := (List.range m.mLen).map fun j : Nat => m.mtod j

def chainBytes (m : Mbuf) (next : List Mbuf) : List Byte := m.bytes ++ next.flatMap Mbuf.bytes

@[simp] theorem Mbuf.length_bytes (m : Mbuf) : m.bytes.length = m.mLen := by
  simp [Mbuf.bytes]

theorem chainBytes_cons (m m' : Mbuf) (next : List Mbuf) :
    chainBytes m (m' :: next) = m.bytes ++ chainBytes m' next := rfl

theorem getElem?_chainBytes (m : Mbuf) (next : List Mbuf) {j : Nat} (h : j < m.mLen) :
    (chainBytes m next)[j]? = some (m.mtod j) := by
  unfold chainBytes
  rw [List.getElem?_append_left (by simpa using h)]
  simp [Mbuf.bytes, h]

/-- The chain from the mbuf that an offset falls into, and the offset there. -/
theorem mindex_some {m : Mbuf} {next : List Mbuf} {k : Int} {m' : Mbuf} {next' : List Mbuf} {k' : Int}
    (hpos : 0 ≤ k) (h : mindex m next k = some (m', next', k')) :
    0 ≤ k' ∧ k' < m'.mLen ∧ ∃ before, chainBytes m next = before ++ chainBytes m' next' ∧ k = before.length + k' := by
  induction next generalizing m k with
  | nil =>
    unfold mindex at h
    split at h
    · cases h
    · cases h
      exact ⟨hpos, by omega, [], rfl, by simp⟩
  | cons m₁ next ih =>
    unfold mindex at h
    split at h
    · obtain ⟨hk, hlt, before, hbytes, hoff⟩ := ih (by omega) h
      refine ⟨hk, hlt, m.bytes ++ before, ?_, ?_⟩
      · rw [chainBytes_cons, hbytes, List.append_assoc]
      · simp only [List.length_append, Mbuf.length_bytes, Nat.cast_add]
        omega
    · cases h
      exact ⟨hpos, by omega, [], rfl, by simp⟩

theorem mindex_none {m : Mbuf} {next : List Mbuf} {k : Int} (h : mindex m next k = none) :
    ((chainBytes m next).length : Int) ≤ k := by
  induction next generalizing m k with
  | nil =>
    unfold mindex at h
    split at h
    · simp only [chainBytes, List.flatMap_nil, List.append_nil, Mbuf.length_bytes]
      omega
    · cases h
  | cons m₁ next ih =>
    unfold mindex at h
    split at h
    · have hle := ih h
      rw [chainBytes_cons, List.length_append, Mbuf.length_bytes]
      push_cast
      omega
    · cases h

/-- Two calls with the same packet, once in one piece and once as a chain of mbufs, on the same machine. -/
structure Cut (packet : List Byte) (flat chain : Call) : Prop where
  buflen : flat.buflen.toNat = packet.length
  flatBytes : ∀ j, j < packet.length → packet[j]? = some (flat.p (BitVec.ofNat 32 j))
  chained : chain.buflen = 0
  bytes : chainBytes chain.m chain.next = packet
  wirelen : chain.wirelen = flat.wirelen
  lshOver : chain.lshOver = flat.lshOver
  rshOver : chain.rshOver = flat.rshOver

/-- The `n` bytes at an offset lie in one mbuf, or begin with the first byte of an mbuf and end in the one after it. -/
def Within (call : Call) (n : Nat) (k : Int) : Prop :=
  ∃ m next k', mindex call.m call.next k = some (m, next, k') ∧
    (k' + n ≤ m.mLen ∨ k' = 0 ∧ ∃ m0 rest, next = m0 :: rest ∧ n ≤ m.mLen + m0.mLen)

section Loads

variable {packet : List Byte} {flat chain : Call} (hcut : Cut packet flat chain) {k : Word}

theorem toInt_eq_toNat (hpos : 0 ≤ k.toInt) : k.toInt = k.toNat ∧ k.toNat < 2 ^ 31 := by
  have hlt := BitVec.toInt_pos_iff.1 hpos
  exact ⟨BitVec.toInt_eq_toNat_of_lt hlt, by omega⟩

include hcut

theorem Cut.buflen_ne (hne : packet ≠ []) : flat.buflen ≠ 0 := by
  intro hzero
  have hlen := hcut.buflen
  rw [hzero] at hlen
  exact hne (List.length_eq_zero_iff.1 hlen.symm)

/-- The byte `j` past an offset that both calls find in an mbuf. -/
theorem Cut.mtod_eq {m : Mbuf} {next : List Mbuf} {k' : Int} (hpos : 0 ≤ k.toInt)
    (hindex : mindex chain.m chain.next k.toInt = some (m, next, k')) {j i : Nat} {b : Byte}
    (hbyte : (chainBytes m next)[i]? = some b) (hi : (i : Int) = k' + j) :
    b = flat.p (k + BitVec.ofNat 32 j) := by
  obtain ⟨hk, -, before, hbytes, hoff⟩ := mindex_some hpos hindex
  have htoNat := (toInt_eq_toNat hpos).1
  have hpacket : packet[k.toNat + j]? = some b := by
    rw [← hcut.bytes, hbytes, List.getElem?_append_right (by omega)]
    have hidx : k.toNat + j - before.length = i := by omega
    rw [hidx, hbyte]
  have hlt : k.toNat + j < packet.length := (List.getElem?_eq_some_iff.1 hpacket).1
  rw [hcut.flatBytes _ hlt, BitVec.ofNat_add, BitVec.ofNat_toNat, BitVec.setWidth_eq] at hpacket
  exact (Option.some.inj hpacket).symm

theorem Cut.head_eq {m : Mbuf} {next : List Mbuf} {k' : Int} (hpos : 0 ≤ k.toInt)
    (hindex : mindex chain.m chain.next k.toInt = some (m, next, k')) (j : Nat) (h : k' + j < m.mLen) :
    m.mtod (k' + j) = flat.p (k + BitVec.ofNat 32 j) := by
  have hk := (mindex_some hpos hindex).1
  have hcast : (((k' + j).toNat : Nat) : Int) = k' + j := by omega
  have hget := getElem?_chainBytes m next (j := (k' + j).toNat) (by omega)
  rw [hcast] at hget
  exact hcut.mtod_eq hpos hindex hget hcast

theorem Cut.next_eq {m m0 : Mbuf} {rest : List Mbuf} {k' : Int} (hpos : 0 ≤ k.toInt)
    (hindex : mindex chain.m chain.next k.toInt = some (m, m0 :: rest, k')) (j i : Nat)
    (hi : (m.mLen : Int) + i = k' + j) (h : i < m0.mLen) :
    m0.mtod i = flat.p (k + BitVec.ofNat 32 j) := by
  have hget : (chainBytes m (m0 :: rest))[m.mLen + i]? = some (m0.mtod i) := by
    rw [chainBytes_cons, List.getElem?_append_right (by simp)]
    simpa using getElem?_chainBytes m0 rest h
  exact hcut.mtod_eq hpos hindex hget (by push_cast; exact hi)

/-- The bytes from an mbuf on are those of the packet from there on. -/
theorem Cut.length_eq {m : Mbuf} {next : List Mbuf} {k' : Int} (hpos : 0 ≤ k.toInt)
    (hindex : mindex chain.m chain.next k.toInt = some (m, next, k')) :
    (packet.length : Int) - k.toNat = (chainBytes m next).length - k' := by
  obtain ⟨hk, -, before, hbytes, hoff⟩ := mindex_some hpos hindex
  have htoNat := (toInt_eq_toNat hpos).1
  rw [← hcut.bytes, hbytes, List.length_append]
  push_cast
  omega

theorem Cut.mXword_within (hpos : 0 ≤ k.toInt) (hwithin : Within chain 4 k.toInt) :
    mXword chain.m chain.next k.toInt =
      (word (flat.p k) (flat.p (k + 1)) (flat.p (k + 2)) (flat.p (k + 3)), false) := by
  obtain ⟨m, next, k', hindex, hplace⟩ := hwithin
  obtain ⟨hk, hlt, -⟩ := mindex_some hpos hindex
  have hzero : flat.p (k + BitVec.ofNat 32 0) = flat.p k := by simp
  have hhead := hcut.head_eq hpos hindex
  unfold mXword
  simp only [hindex]
  by_cases hlong : (m.mLen : Int) - k' ≥ 4
  · rw [if_pos hlong]
    have h₀ := hhead 0 (by omega)
    have h₁ := hhead 1 (by omega)
    have h₂ := hhead 2 (by omega)
    have h₃ := hhead 3 (by omega)
    rw [hzero] at h₀
    exact congrArg (·, false) (congr (congr (congr (congrArg word h₀) h₁) h₂) h₃)
  · rw [if_neg hlong]
    obtain ⟨rfl, m0, rest, rfl, htwo⟩ := hplace.resolve_left (by omega)
    have hnext := hcut.next_eq hpos hindex
    have hfour : ¬ (m0.mLen : Int) + m.mLen - 0 < 4 := by omega
    have h₀ := hhead 0 (by omega)
    rw [hzero] at h₀
    simp only [if_neg hfour]
    obtain hone | htwo | hthree : m.mLen = 1 ∨ m.mLen = 2 ∨ m.mLen = 3 := by omega
    · have h₁ := hnext 1 0 (by omega) (by omega)
      have h₂ := hnext 2 1 (by omega) (by omega)
      have h₃ := hnext 3 2 (by omega) (by omega)
      rw [if_pos (by omega)]
      exact congrArg (·, false) (congr (congr (congr (congrArg word h₀) h₁) h₂) h₃)
    · have h₁ := hhead 1 (by omega)
      have h₂ := hnext 2 0 (by omega) (by omega)
      have h₃ := hnext 3 1 (by omega) (by omega)
      rw [if_neg (by omega), if_pos (by omega)]
      exact congrArg (·, false) (congr (congr (congr (congrArg word h₀) h₁) h₂) h₃)
    · have h₁ := hhead 1 (by omega)
      have h₂ := hhead 2 (by omega)
      have h₃ := hnext 3 0 (by omega) (by omega)
      rw [if_neg (by omega), if_neg (by omega)]
      exact congrArg (·, false) (congr (congr (congr (congrArg word h₀) h₁) h₂) h₃)

theorem Cut.mXword_past (hpos : 0 ≤ k.toInt) (hpast : packet.length < k.toNat + 4) :
    (mXword chain.m chain.next k.toInt).2 = true := by
  unfold mXword
  split
  · rfl
  · rename_i m next k' hindex
    have hlen := hcut.length_eq hpos hindex
    have hshort : ¬ (m.mLen : Int) - k' ≥ 4 := by
      simp only [chainBytes, List.length_append, Mbuf.length_bytes] at hlen
      push_cast at hlen
      omega
    simp only [if_neg hshort]
    split
    · rfl
    · rename_i m0 rest
      have hfew : (m0.mLen : Int) + m.mLen - k' < 4 := by
        simp only [chainBytes, List.length_append, Mbuf.length_bytes, List.flatMap_cons] at hlen
        push_cast at hlen
        omega
      rw [if_pos hfew]

theorem Cut.mXhalf_within (hpos : 0 ≤ k.toInt) (hwithin : Within chain 2 k.toInt) :
    mXhalf chain.m chain.next k.toInt = (half (flat.p k) (flat.p (k + 1)), false) := by
  obtain ⟨m, next, k', hindex, hplace⟩ := hwithin
  obtain ⟨hk, hlt, -⟩ := mindex_some hpos hindex
  have hhead := hcut.head_eq hpos hindex
  have h₀ := hhead 0 (by omega)
  rw [show k + BitVec.ofNat 32 0 = k by simp] at h₀
  unfold mXhalf
  simp only [hindex]
  by_cases hlong : (m.mLen : Int) - k' ≥ 2
  · rw [if_pos hlong]
    exact congrArg (·, false) (congr (congrArg half h₀) (hhead 1 (by omega)))
  · rw [if_neg hlong]
    obtain ⟨rfl, m0, rest, rfl, htwo⟩ := hplace.resolve_left (by omega)
    exact congrArg (·, false) (congr (congrArg half h₀) (hcut.next_eq hpos hindex 1 0 (by omega) (by omega)))

/-- Past the end of the packet `m_xhalf` reports an error, unless another mbuf follows the last byte. -/
theorem Cut.mXhalf_past (hpos : 0 ≤ k.toInt) (hpast : packet.length < k.toNat + 2)
    (hlast : ∀ m next k', mindex chain.m chain.next k.toInt = some (m, next, k') → next = []) :
    (mXhalf chain.m chain.next k.toInt).2 = true := by
  unfold mXhalf
  split
  · rfl
  · rename_i m next k' hindex
    have hlen := hcut.length_eq hpos hindex
    obtain rfl := hlast m next k' hindex
    have hshort : ¬ (m.mLen : Int) - k' ≥ 2 := by
      simp only [chainBytes, List.length_append, Mbuf.length_bytes] at hlen
      push_cast at hlen
      omega
    simp only [if_neg hshort]

/-- The mbuf byte at an offset, or the end of the chain, as the flat call sees it. -/
theorem Cut.byte_eq (hpos : 0 ≤ k.toInt) :
    (mindex chain.m chain.next k.toInt).map (fun q => q.1.mtod q.2.2) =
      if packet.length ≤ k.toNat then none else some (flat.p k) := by
  have htoNat := (toInt_eq_toNat hpos).1
  cases hindex : mindex chain.m chain.next k.toInt with
  | none =>
    have hle := mindex_none hindex
    rw [hcut.bytes] at hle
    rw [if_pos (by omega)]
    rfl
  | some q =>
    obtain ⟨m, next, k'⟩ := q
    obtain ⟨hk, hlt, -⟩ := mindex_some hpos hindex
    have hlen := hcut.length_eq hpos hindex
    have hinside : ¬ packet.length ≤ k.toNat := by
      simp only [chainBytes, List.length_append, Mbuf.length_bytes] at hlen
      push_cast at hlen
      omega
    have h₀ := hcut.head_eq hpos hindex 0 (by omega)
    rw [show k + BitVec.ofNat 32 0 = k by simp, show k' + ((0 : Nat) : Int) = k' by simp] at h₀
    rw [if_neg hinside]
    exact congrArg some h₀

/-- The cases in which a load goes wrong on the chain, all of them to be avoided: no bytes at all, an offset that is negative as an `int`, bytes spread over mbufs in another way than `Within` says, a half word past the end that is not noticed, a byte whose sign is extended. -/
def Size.Agrees (packet : List Byte) (chain : Call) (mode : Mode) (k : Word) (size : Size) : Prop :=
  packet ≠ [] ∧ 0 ≤ k.toInt ∧
    match size, mode with
    | .w, _ => k.toNat + 4 ≤ packet.length → Within chain 4 k.toInt
    | .h, .abs => k.toNat + 2 ≤ packet.length ∧ Within chain 2 k.toInt
    | .h, .ind =>
      (k.toNat + 2 ≤ packet.length → Within chain 2 k.toInt) ∧
      (packet.length < k.toNat + 2 → ∀ m next k', mindex chain.m chain.next k.toInt = some (m, next, k') → next = [])
    | .b, .abs => True
    | .b, .ind => ∀ b, packet[k.toNat]? = some b → b.msb = false

theorem Cut.loadWord_eq {mode : Mode} (hagrees : Size.w.Agrees packet chain mode k) :
    (loadWord chain k).2 = (loadWord flat k).2 := by
  obtain ⟨hne, hpos, hwithin⟩ := hagrees
  have hlen := hcut.buflen
  have hnat := (toInt_eq_toNat hpos).2
  have hchain : k + 4 > chain.buflen := by
    rw [hcut.chained]
    bv_omega
  unfold loadWord
  rw [if_pos hchain, if_neg (not_not.2 hcut.chained)]
  by_cases hfits : k.toNat + 4 ≤ packet.length
  · have hflat : ¬ k + 4 > flat.buflen := by bv_omega
    rw [if_neg hflat, hcut.mXword_within hpos (hwithin hfits)]
    rfl
  · have hflat : k + 4 > flat.buflen := by bv_omega
    rw [if_pos hflat, if_pos (hcut.buflen_ne hne)]
    exact if_pos (hcut.mXword_past hpos (by omega))

theorem Cut.loadHalf_eq {mode : Mode} (hagrees : Size.h.Agrees packet chain mode k) :
    (loadHalf chain mode k).2 = (loadHalf flat mode k).2 := by
  obtain ⟨hne, hpos, hwithin⟩ := hagrees
  have hlen := hcut.buflen
  have hnat := (toInt_eq_toNat hpos).2
  have hchain : k + 2 > chain.buflen := by
    rw [hcut.chained]
    bv_omega
  unfold loadHalf
  rw [if_pos hchain, if_neg (not_not.2 hcut.chained)]
  by_cases hfits : k.toNat + 2 ≤ packet.length
  · have hflat : ¬ k + 2 > flat.buflen := by bv_omega
    rw [if_neg hflat]
    cases mode with
    | abs =>
      rw [hcut.mXhalf_within hpos hwithin.2]
    | ind =>
      rw [hcut.mXhalf_within hpos (hwithin.1 hfits)]
      rfl
  · have hflat : k + 2 > flat.buflen := by bv_omega
    rw [if_pos hflat, if_pos (hcut.buflen_ne hne)]
    cases mode with
    | abs => exact absurd hwithin.1 hfits
    | ind => exact if_pos (hcut.mXhalf_past hpos (by omega) (hwithin.2 (by omega)))

/-- The shape of the byte loads, which differ in what they make of the byte on the chain. -/
theorem Cut.byte_load (hne : packet ≠ []) (hpos : 0 ≤ k.toInt) (chained flatly : Byte → Word)
    (hsame : k.toNat < packet.length → chained (flat.p k) = flatly (flat.p k)) :
    (mindex chain.m chain.next k.toInt).map (fun q => chained (q.1.mtod q.2.2)) =
      (if k ≥ flat.buflen then if flat.buflen ≠ 0 then ([], none) else ([Access.chain], none)
        else ([Access.packet k], some (flatly (flat.p k))) : Loaded).2 := by
  have hlen := hcut.buflen
  have hbyte := congrArg (Option.map chained) (hcut.byte_eq hpos)
  rw [Option.map_map] at hbyte
  refine hbyte.trans ?_
  by_cases hpast : packet.length ≤ k.toNat
  · have hflat : k ≥ flat.buflen := by bv_omega
    rw [if_pos hpast, if_pos hflat, if_pos (hcut.buflen_ne hne)]
    rfl
  · have hflat : ¬ k ≥ flat.buflen := by bv_omega
    rw [if_neg hpast, if_neg hflat]
    exact congrArg some (hsame (by omega))

theorem Cut.loadByte_eq {mode : Mode} (hagrees : Size.b.Agrees packet chain mode k) :
    (loadByte chain mode k).2 = (loadByte flat mode k).2 := by
  obtain ⟨hne, hpos, hsign⟩ := hagrees
  have hchain : k ≥ chain.buflen := by
    rw [hcut.chained]
    bv_omega
  have hzero := hcut.buflen_ne hne
  unfold loadByte
  rw [if_pos hchain, if_neg (not_not.2 hcut.chained)]
  cases mode with
  | abs =>
    refine (hcut.byte_load hne hpos (fun b => b.setWidth 32) (fun b => b.setWidth 32)
      fun _ => rfl).trans ?_
    simp only [if_pos hzero]
  | ind =>
    refine (hcut.byte_load hne hpos (fun b => b.signExtend 32) (fun b => b.setWidth 32)
      fun hlt => ?_).trans ?_
    · have hb := hcut.flatBytes k.toNat hlt
      rw [BitVec.ofNat_toNat, BitVec.setWidth_eq] at hb
      exact BitVec.signExtend_eq_setWidth_of_msb_false (hsign _ hb)
    · simp only [if_pos hzero]

theorem Cut.loadMsh_eq (hne : packet ≠ []) (hpos : 0 ≤ k.toInt) : (loadMsh chain k).2 = (loadMsh flat k).2 := by
  have hchain : k ≥ chain.buflen := by
    rw [hcut.chained]
    bv_omega
  have hzero := hcut.buflen_ne hne
  unfold loadMsh
  rw [if_pos hchain, if_neg (not_not.2 hcut.chained)]
  refine (hcut.byte_load hne hpos (fun b => (b.signExtend 32 &&& 0xf) <<< 2)
    (fun b => (b.setWidth 32 &&& 0xf) <<< 2) fun _ => ?_).trans ?_
  · have hlow : ∀ b : Byte, b.signExtend 32 &&& 0xf = b.setWidth 32 &&& 0xf := by decide
    exact congrArg (fun w : Word => w <<< 2) (hlow (flat.p k))
  · simp only [if_pos hzero]

end Loads

/-! ### The two calls -/

/-- The instruction is not a load that goes wrong on the chain. -/
def Opcode.Agrees (packet : List Byte) (chain : Call) (s : State) (i : Insn) : Opcode → Prop
  | .ld size mode => size.Agrees packet chain mode (mode.offset i s)
  | .ldxMsh => packet ≠ [] ∧ 0 ≤ i.k.toInt
  | _ => True

def State.Agrees (packet : List Byte) (chain : Call) (f : Program) (s : State) : Prop :=
  ∀ i op, s.At f i op → op.Agrees packet chain s i

section Runs

variable {packet : List Byte} {flat chain : Call} (hcut : Cut packet flat chain) {f : Program}

include hcut

theorem Cut.load_eq {size : Size} {mode : Mode} {k : Word} (h : size.Agrees packet chain mode k) :
    (load chain size mode k).2 = (load flat size mode k).2 := by
  cases size with
  | w => exact hcut.loadWord_eq h
  | h => exact hcut.loadHalf_eq h
  | b => exact hcut.loadByte_eq h

theorem Cut.apply_eq (op : Arith) (a v : Word) : op.apply chain a v = op.apply flat a v := by
  cases op with
  | lsh => simp only [Arith.apply, hcut.lshOver]
  | rsh => simp only [Arith.apply, hcut.rshOver]
  | _ => rfl

theorem Cut.execOp_eq {i : Insn} {s : State} {op : Opcode} (h : op.Agrees packet chain s i) :
    (execOp flat i s op).after = (execOp chain i s op).after := by
  cases op with
  | ld size mode =>
    simp only [execOp, Loaded.into]
    rw [hcut.load_eq h]
  | ldxMsh =>
    simp only [execOp, Loaded.into]
    rw [hcut.loadMsh_eq h.1 h.2]
  | ldLen => simp only [execOp, hcut.wirelen]
  | ldxLen => simp only [execOp, hcut.wirelen]
  | alu op src =>
    cases op with
    | div =>
      cases src with
      | k => simp only [execOp, hcut.apply_eq]
      | x => rfl
    | _ => simp only [execOp, hcut.apply_eq]
  | _ => rfl

theorem Cut.step_eq {s : State} (h : s.Agrees packet chain f) : step flat f s = step chain f s := by
  unfold step exec
  cases hfetch : f.fetch s.pc with
  | none => rfl
  | some i =>
    dsimp only
    cases hdecode : decode i.code with
    | none => rfl
    | some op => exact hcut.execOp_eq (h i op ⟨hfetch, hdecode⟩)

/-- An accepted program returns the same value on the chain and on the flat packet, as long as no load the flat run executes goes wrong on the chain. -/
theorem bpfFilter_chain_eq_flat (hvalid : bpfValidate f = true) (hmem : f.MemInside) (hjumps : f.JumpsForward)
    (l : Locals) (hagrees : ∀ t, Visits (step flat f) (start l) t → t.Agrees packet chain f) :
    ∃ v, bpfFilter flat (some f) l f.insns.length = .inr (.ret v) ∧
      bpfFilter chain (some f) l f.insns.length = .inr (.ret v) := by
  obtain ⟨⟨v, hflat⟩, -⟩ := bpfFilter_returns hvalid flat l (fun t _ => hjumps.forward t)
    (fun t _ => hmem.storesInside t)
  have hsame := Machine.runFor_congr (fun t ht => hcut.step_eq (hagrees t ht)) f.insns.length
  exact ⟨v, hflat, hsame.symm.trans hflat⟩

end Runs

def Mbuf.ofBytes (bytes : List Byte) : Mbuf where
  mLen := bytes.length
  mtod := fun i => bytes.getD i.toNat 0

def flatCall (bytes : List Byte) : Call :=
  { blankCall (BitVec.ofNat 32 bytes.length) (BitVec.ofNat 32 bytes.length) with
    p := fun off => bytes.getD off.toNat 0 }

def chainCall (len : Nat) (m : Mbuf) (next : List Mbuf) : Call :=
  { blankCall (BitVec.ofNat 32 len) 0 with m := m, next := next }

theorem cut_flatCall {bytes : List Byte} {m : Mbuf} {next : List Mbuf} (hlen : bytes.length < 2 ^ 32)
    (hbytes : chainBytes m next = bytes) : Cut bytes (flatCall bytes) (chainCall bytes.length m next) where
  buflen := by
    show (BitVec.ofNat 32 bytes.length).toNat = bytes.length
    rw [BitVec.toNat_ofNat, Nat.mod_eq_of_lt hlen]
  flatBytes := by
    intro j hj
    show bytes[j]? = some (bytes.getD (BitVec.ofNat 32 j).toNat 0)
    rw [BitVec.toNat_ofNat, Nat.mod_eq_of_lt (by omega), List.getD_eq_getElem?_getD, List.getElem?_eq_getElem hj]
    rfl
  chained := rfl
  bytes := hbytes
  wirelen := rfl
  lshOver := rfl
  rshOver := rfl

/-- Returns the word at offset 0. -/
def firstWord : Program where
  insns := [⟨Opcode.label (.ld .w .abs), 0, 0, 0⟩, ⟨Opcode.label .retA, 0, 0, 0⟩]
  pos := by decide
  fits := by decide

theorem bpfFilter_chain_eq_flat_firstWord :
    ∃ v, bpfFilter (flatCall [1, 2, 3, 4]) (some firstWord) blankLocals 2 = .inr (.ret v) ∧
      bpfFilter (chainCall 4 (.ofBytes [1]) [.ofBytes [2, 3, 4]]) (some firstWord) blankLocals 2 = .inr (.ret v) := by
  have hcut : Cut [1, 2, 3, 4] (flatCall [1, 2, 3, 4]) (chainCall 4 (.ofBytes [1]) [.ofBytes [2, 3, 4]]) :=
    cut_flatCall (by decide) (by decide)
  refine bpfFilter_chain_eq_flat hcut (f := firstWord) (by decide) (by decide) (by decide) blankLocals
    fun t _ i op hat => ?_
  obtain ⟨hpc, hget⟩ := Program.fetch_eq_some.1 hat.1
  have hlt := Program.lt_length_of_fetch hat.1
  have hlen : firstWord.insns.length = 2 := rfl
  have hdecode := hat.2
  obtain hcase | hcase : t.pc = 0 ∨ t.pc = 1 := by omega
  all_goals
    rw [hcase] at hget
    cases hget
    cases hdecode
  · refine ⟨by decide, show (0 : Int) ≤ (0 : Word).toInt by decide, fun _ => ?_⟩
    exact ⟨.ofBytes [1], [.ofBytes [2, 3, 4]], 0, rfl, .inr ⟨rfl, .ofBytes [2, 3, 4], [], rfl, by decide⟩⟩
  · trivial

/-- Returns the byte at offset `X = 0`. -/
def firstByte : Program where
  insns := [⟨Opcode.label .ldxImm, 0, 0, 0⟩, ⟨Opcode.label (.ld .b .ind), 0, 0, 0⟩, ⟨Opcode.label .retA, 0, 0, 0⟩]
  pos := by decide
  fits := by decide

theorem bpfFilter_chain_ne_flat :
    (bpfValidate firstByte = true ∧ firstByte.MemInside ∧ firstByte.JumpsForward ∧
      Cut [0x80] (flatCall [0x80]) (chainCall 1 (.ofBytes [0x80]) []) ∧
      bpfFilter (flatCall [0x80]) (some firstByte) blankLocals 3 = .inr (.ret 0x80) ∧
      bpfFilter (chainCall 1 (.ofBytes [0x80]) []) (some firstByte) blankLocals 3 = .inr (.ret 0xffffff80)) ∧
    (bpfValidate firstWord = true ∧ firstWord.MemInside ∧ firstWord.JumpsForward ∧
      Cut [1, 2, 3, 4] (flatCall [1, 2, 3, 4]) (chainCall 4 (.ofBytes [1]) [.ofBytes [2], .ofBytes [3, 4]]) ∧
      bpfFilter (flatCall [1, 2, 3, 4]) (some firstWord) blankLocals 2 = .inr (.ret 0x01020304) ∧
      bpfFilter (chainCall 4 (.ofBytes [1]) [.ofBytes [2], .ofBytes [3, 4]]) (some firstWord) blankLocals 2 =
        .inr (.ret 0)) :=
  ⟨⟨by decide, by decide, by decide, cut_flatCall (by decide) (by decide), rfl, rfl⟩,
    ⟨by decide, by decide, by decide, cut_flatCall (by decide) (by decide), rfl, rfl⟩⟩

end Reading.Bpf
