import Mathlib.Data.BitVec
import Reading.Lib.Machine

/-!
# The packet filter

`bpf_filter` (sys/net/bpf_filter.c) with the instruction encodings of sys/net/bpf.h, compiled with `KERNEL`, and `bpf_validate`. `long`, `int` and pointers have 32 bits and `char` is signed, as on the machines of the tree.

The filter reads memory at addresses it computes, so the model says what lies at every address: `p` gives the byte at any offset from the packet pointer, and an mbuf gives the byte at any offset from its data. Which of these bytes belong to the packet is for the theorems to say. Each instruction also reports the accesses it makes. The locals `A`, `X` and `mem` are not initialised; the model takes their contents as arguments.
-/

namespace Reading.Bpf

abbrev Byte := BitVec 8

abbrev Word := BitVec 32

/-! ### Encodings -/

def bpfLd : BitVec 16 := 0x00
def bpfLdx : BitVec 16 := 0x01
def bpfSt : BitVec 16 := 0x02
def bpfStx : BitVec 16 := 0x03
def bpfAlu : BitVec 16 := 0x04
def bpfJmp : BitVec 16 := 0x05
def bpfRet : BitVec 16 := 0x06
def bpfMisc : BitVec 16 := 0x07

def bpfW : BitVec 16 := 0x00
def bpfH : BitVec 16 := 0x08
def bpfB : BitVec 16 := 0x10

def bpfImm : BitVec 16 := 0x00
def bpfAbs : BitVec 16 := 0x20
def bpfInd : BitVec 16 := 0x40
def bpfMem : BitVec 16 := 0x60
def bpfLen : BitVec 16 := 0x80
def bpfMsh : BitVec 16 := 0xa0

def bpfAdd : BitVec 16 := 0x00
def bpfSub : BitVec 16 := 0x10
def bpfMul : BitVec 16 := 0x20
def bpfDiv : BitVec 16 := 0x30
def bpfOr : BitVec 16 := 0x40
def bpfAnd : BitVec 16 := 0x50
def bpfLsh : BitVec 16 := 0x60
def bpfRsh : BitVec 16 := 0x70
def bpfNeg : BitVec 16 := 0x80

def bpfJa : BitVec 16 := 0x00
def bpfJeq : BitVec 16 := 0x10
def bpfJgt : BitVec 16 := 0x20
def bpfJge : BitVec 16 := 0x30
def bpfJset : BitVec 16 := 0x40

def bpfK : BitVec 16 := 0x00
def bpfX : BitVec 16 := 0x08
def bpfA : BitVec 16 := 0x10

def bpfTax : BitVec 16 := 0x00
def bpfTxa : BitVec 16 := 0x80

def bpfClass (code : BitVec 16) : BitVec 16 := code &&& 0x07

def bpfOp (code : BitVec 16) : BitVec 16 := code &&& 0xf0

def bpfMode (code : BitVec 16) : BitVec 16 := code &&& 0xe0

/-- `BPF_MEMWORDS`. -/
def memWords : Int := 16

inductive Size
  | w | h | b
  deriving DecidableEq

inductive Mode
  | abs | ind
  deriving DecidableEq

inductive Operand
  | k | x
  deriving DecidableEq

inductive Arith
  | add | sub | mul | div | and | or | lsh | rsh
  deriving DecidableEq

inductive Test
  | jgt | jge | jeq | jset
  deriving DecidableEq

/-- The cases of the switch in `bpf_filter`. -/
inductive Opcode
  | retK
  | retA
  | ld (size : Size) (mode : Mode)
  | ldLen
  | ldxLen
  | ldxMsh
  | ldImm
  | ldxImm
  | ldMem
  | ldxMem
  | st
  | stx
  | ja
  | jump (test : Test) (src : Operand)
  | alu (op : Arith) (src : Operand)
  | neg
  | tax
  | txa
  deriving DecidableEq

def Size.bits : Size → BitVec 16
  | .w => bpfW
  | .h => bpfH
  | .b => bpfB

def Mode.bits : Mode → BitVec 16
  | .abs => bpfAbs
  | .ind => bpfInd

def Operand.bits : Operand → BitVec 16
  | .k => bpfK
  | .x => bpfX

def Arith.bits : Arith → BitVec 16
  | .add => bpfAdd
  | .sub => bpfSub
  | .mul => bpfMul
  | .div => bpfDiv
  | .and => bpfAnd
  | .or => bpfOr
  | .lsh => bpfLsh
  | .rsh => bpfRsh

def Test.bits : Test → BitVec 16
  | .jgt => bpfJgt
  | .jge => bpfJge
  | .jeq => bpfJeq
  | .jset => bpfJset

/-- The case label of an opcode. -/
def Opcode.label : Opcode → BitVec 16
  | .retK => bpfRet ||| bpfK
  | .retA => bpfRet ||| bpfA
  | .ld size mode => bpfLd ||| size.bits ||| mode.bits
  | .ldLen => bpfLd ||| bpfW ||| bpfLen
  | .ldxLen => bpfLdx ||| bpfW ||| bpfLen
  | .ldxMsh => bpfLdx ||| bpfMsh ||| bpfB
  | .ldImm => bpfLd ||| bpfImm
  | .ldxImm => bpfLdx ||| bpfImm
  | .ldMem => bpfLd ||| bpfMem
  | .ldxMem => bpfLdx ||| bpfMem
  | .st => bpfSt
  | .stx => bpfStx
  | .ja => bpfJmp ||| bpfJa
  | .jump test src => bpfJmp ||| test.bits ||| src.bits
  | .alu op src => bpfAlu ||| op.bits ||| src.bits
  | .neg => bpfAlu ||| bpfNeg
  | .tax => bpfMisc ||| bpfTax
  | .txa => bpfMisc ||| bpfTxa

def operands : List Operand := [.k, .x]

def opcodes : List Opcode :=
  [Opcode.retK, .retA, .ldLen, .ldxLen, .ldxMsh, .ldImm, .ldxImm, .ldMem, .ldxMem, .st, .stx, .ja, .neg, .tax, .txa] ++
  ([Size.w, .h, .b].flatMap fun size => [Mode.abs, .ind].map fun mode => Opcode.ld size mode) ++
  ([Test.jgt, .jge, .jeq, .jset].flatMap fun test => operands.map fun src => Opcode.jump test src) ++
  ([Arith.add, .sub, .mul, .div, .and, .or, .lsh, .rsh].flatMap fun op => operands.map fun src => Opcode.alu op src)

/-- The case a code selects; a code without a case goes to `default`. -/
def decode (code : BitVec 16) : Option Opcode := opcodes.find? fun op => op.label == code

theorem label_of_decode {code : BitVec 16} {op : Opcode} (h : decode code = some op) : op.label = code := by
  have hsome := List.find?_some h
  exact beq_iff_eq.1 hsome

/-- No two cases have the same label. -/
theorem decode_label (op : Opcode) : decode op.label = some op := by
  cases op with
  | ld size mode => cases size <;> cases mode <;> decide
  | jump test src => cases test <;> cases src <;> decide
  | alu op src => cases op <;> cases src <;> decide
  | _ => decide

/-- `struct bpf_insn`. -/
structure Insn where
  code : BitVec 16
  jt : Byte := 0
  jf : Byte := 0
  k : Word
  deriving DecidableEq

/-- A program that has an instruction and that lies in the address space, 8 bytes an instruction. -/
structure Program where
  insns : List Insn
  pos : 0 < insns.length
  fits : 8 * insns.length < 2 ^ 32

/-- The instruction `pc` points to, when it points into the program. -/
def Program.fetch (f : Program) (pc : Int) : Option Insn :=
  if 0 ≤ pc then f.insns[pc.toNat]? else none

/-! ### `bpf_validate` -/

/-- The checks of one turn of the loop, for the instruction `p` at index `i`. -/
def checkInsn (len : Nat) (p : Insn) (i : Nat) : Bool :=
  !(bpfClass p.code == bpfJmp &&
      if bpfOp p.code == bpfJa then (BitVec.ofNat 32 (i + 1) + p.k).toInt ≥ len
      else i + 1 + p.jt.toNat ≥ len || i + 1 + p.jf.toNat ≥ len) &&
  !((bpfClass p.code == bpfSt || (bpfClass p.code == bpfLd && bpfMode p.code == bpfMem)) &&
      (p.k.toInt ≥ memWords || p.k.toInt < 0)) &&
  !(p.code == bpfAlu ||| bpfDiv ||| bpfK && p.k == 0)

def bpfValidate (f : Program) : Bool :=
  (f.insns.zipIdx.all fun q => checkInsn f.insns.length q.1 q.2) &&
    bpfClass (f.insns.getLast (List.ne_nil_of_length_pos f.pos)).code == bpfRet

/-! ### Packets -/

/-- An mbuf: its length and the byte at each offset from `mtod(m, u_char *)`. -/
structure Mbuf where
  mLen : Nat
  mtod : Int → Byte

/-- The arguments of a call of `bpf_filter`, and what C leaves to the machine in a shift by 32 or more. The packet pointer is given both as it is read as bytes, at an offset modulo 2^32, and as it is read as a pointer to an mbuf. -/
structure Call where
  p : Word → Byte
  m : Mbuf
  next : List Mbuf
  wirelen : Word
  buflen : Word
  lshOver : Word → Word → Word
  rshOver : Word → Word → Word

/-- `MINDEX`, and the loops `m_xword` and `m_xhalf` begin with: the mbuf that offset `k` falls into, those after it, and the offset there. -/
def mindex (m : Mbuf) : List Mbuf → Int → Option (Mbuf × List Mbuf × Int)
  | [], k => if k ≥ m.mLen then none else some (m, [], k)
  | m' :: next, k => if k ≥ m.mLen then mindex m' next (k - m.mLen) else some (m, m' :: next, k)

def word (b₀ b₁ b₂ b₃ : Byte) : Word :=
  b₀.setWidth 32 <<< 24 ||| b₁.setWidth 32 <<< 16 ||| b₂.setWidth 32 <<< 8 ||| b₃.setWidth 32

def half (b₀ b₁ : Byte) : Word := b₀.setWidth 32 <<< 8 ||| b₁.setWidth 32

/-- `m_xword`: the value and the error flag. -/
def mXword (m : Mbuf) (next : List Mbuf) (k : Int) : Word × Bool :=
  match mindex m next k with
  | none => (0, true)
  | some (m, next, k) =>
    let cp (i : Int) := m.mtod (k + i)
    if m.mLen - k ≥ 4 then (word (cp 0) (cp 1) (cp 2) (cp 3), false)
    else
      match next with
      | [] => (0, true)
      | m0 :: _ =>
        if m0.mLen + m.mLen - k < 4 then (0, true)
        else
          let np := m0.mtod
          -- cp already points at offset k, and is indexed by k again
          if m.mLen - k = 1 then (word (cp k) (np 0) (np 1) (np 2), false)
          else if m.mLen - k = 2 then (word (cp k) (cp (k + 1)) (np 0) (np 1), false)
          else (word (cp k) (cp (k + 1)) (cp (k + 2)) (np 0), false)

/-- `m_xhalf`. -/
def mXhalf (m : Mbuf) (next : List Mbuf) (k : Int) : Word × Bool :=
  match mindex m next k with
  | none => (0, true)
  | some (m, next, k) =>
    let cp (i : Int) := m.mtod (k + i)
    if m.mLen - k ≥ 2 then (half (cp 0) (cp 1), false)
    else
      match next with
      | [] => (0, true)
      | m0 :: _ => (half (cp k) (m0.mtod 0), false)

/-! ### Instructions -/

/-- An access of an instruction: a word of `mem`, a byte at an offset from `p`, or a chain of mbufs at `p`. -/
inductive Access
  | scratch (i : Int)
  | packet (off : Word)
  | chain
  deriving DecidableEq

/-- How the filter ends: with a value, or in one of the ways C gives no meaning to: at an instruction outside the program, in a division by zero, or with a store outside `mem`, which lies among the filter's own variables. -/
inductive Stop
  | ret (v : Word)
  | outside
  | divide
  | stray
  deriving DecidableEq

/-- `A`, `X` and `mem`, with whatever words lie around it. -/
structure Locals where
  a : Word
  x : Word
  mem : Int → Word

structure State extends Locals where
  pc : Int

structure Effect where
  touched : List Access := []
  after : State ⊕ Stop

/-- The packet loads: the accesses, and the value unless the filter returns 0. -/
abbrev Loaded := List Access × Option Word

def loadWord (call : Call) (k : Word) : Loaded :=
  if k + 4 > call.buflen then
    if call.buflen ≠ 0 then ([], none)
    else
      let (v, merr) := mXword call.m call.next k.toInt
      ([.chain], if merr then none else some v)
  else
    ([.packet k, .packet (k + 1), .packet (k + 2), .packet (k + 3)],
      some (word (call.p k) (call.p (k + 1)) (call.p (k + 2)) (call.p (k + 3))))

def loadHalf (call : Call) (mode : Mode) (k : Word) : Loaded :=
  if k + 2 > call.buflen then
    if call.buflen ≠ 0 then ([], none)
    else
      let (v, merr) := mXhalf call.m call.next k.toInt
      ([.chain],
        match mode with
        | .abs => some v -- merr is not looked at
        | .ind => if merr then none else some v)
  else ([.packet k, .packet (k + 1)], some (half (call.p k) (call.p (k + 1))))

def loadByte (call : Call) (mode : Mode) (k : Word) : Loaded :=
  if k ≥ call.buflen then
    if call.buflen ≠ 0 then ([], none)
    else
      ([.chain], (mindex call.m call.next k.toInt).map fun (m, _, k) =>
        match mode with
        | .abs => (m.mtod k).setWidth 32
        | .ind => (m.mtod k).signExtend 32)
  else ([.packet k], some ((call.p k).setWidth 32))

/-- The byte of `BPF_LDX|BPF_MSH|BPF_B`, of which the low four bits are used. -/
def loadMsh (call : Call) (k : Word) : Loaded :=
  if k ≥ call.buflen then
    if call.buflen ≠ 0 then ([], none)
    else
      ([.chain], (mindex call.m call.next k.toInt).map fun (m, _, k) =>
        ((m.mtod k).signExtend 32 &&& 0xf) <<< 2)
  else ([.packet k], some (((call.p k).setWidth 32 &&& 0xf) <<< 2))

def load (call : Call) (size : Size) (mode : Mode) (k : Word) : Loaded :=
  match size with
  | .w => loadWord call k
  | .h => loadHalf call mode k
  | .b => loadByte call mode k

def Test.holds (test : Test) (a v : Word) : Bool :=
  match test with
  | .jgt => a > v
  | .jge => a ≥ v
  | .jeq => a == v
  | .jset => a &&& v != 0

/-- `A op= v`; none is a division by zero. -/
def Arith.apply (call : Call) (op : Arith) (a v : Word) : Option Word :=
  match op with
  | .add => some (a + v)
  | .sub => some (a - v)
  | .mul => some (a * v)
  | .div => if v = 0 then none else some (a / v)
  | .and => some (a &&& v)
  | .or => some (a ||| v)
  | .lsh => some (if v < 32 then a <<< v else call.lshOver a v)
  | .rsh => some (if v < 32 then a >>> v else call.rshOver a v)

def State.goOn (s : State) (offset : Int) : State := { s with pc := s.pc + offset + 1 }

def Locals.store (l : Locals) (i : Int) (v : Word) : Locals :=
  { l with mem := fun j => if j = i then v else l.mem j }

/-- `mem[k] = v`. -/
def store (s : State) (k : Int) (v : Word) : Effect where
  touched := [.scratch k]
  after := if 0 ≤ k ∧ k < memWords then .inl { s.goOn 0 with toLocals := s.toLocals.store k v } else .inr .stray

/-- The rest of a load, which sets a register or returns 0. -/
def Loaded.into (loaded : Loaded) (set : Word → State) : Effect where
  touched := loaded.1
  after :=
    match loaded.2 with
    | some v => .inl (set v)
    | none => .inr (.ret 0)

def Operand.value (src : Operand) (i : Insn) (s : State) : Word :=
  match src with
  | .k => i.k
  | .x => s.x

/-- The packet offset `k` of a load. -/
def Mode.offset (mode : Mode) (i : Insn) (s : State) : Word :=
  match mode with
  | .abs => i.k
  | .ind => s.x + i.k

/-- The body of one case of the switch. -/
def execOp (call : Call) (i : Insn) (s : State) : Opcode → Effect
  | .retK => { after := .inr (.ret i.k) }
  | .retA => { after := .inr (.ret s.a) }
  | .ld size mode => (load call size mode (mode.offset i s)).into fun v => { s.goOn 0 with a := v }
  | .ldLen => { after := .inl { s.goOn 0 with a := call.wirelen } }
  | .ldxLen => { after := .inl { s.goOn 0 with x := call.wirelen } }
  | .ldxMsh => (loadMsh call i.k).into fun v => { s.goOn 0 with x := v }
  | .ldImm => { after := .inl { s.goOn 0 with a := i.k } }
  | .ldxImm => { after := .inl { s.goOn 0 with x := i.k } }
  | .ldMem => { touched := [.scratch i.k.toInt], after := .inl { s.goOn 0 with a := s.mem i.k.toInt } }
  | .ldxMem => { touched := [.scratch i.k.toInt], after := .inl { s.goOn 0 with x := s.mem i.k.toInt } }
  | .st => store s i.k.toInt s.a
  | .stx => store s i.k.toInt s.x
  | .ja => { after := .inl (s.goOn i.k.toInt) }
  | .jump test src => { after := .inl (s.goOn (if test.holds s.a (src.value i s) then i.jt.toNat else i.jf.toNat)) }
  | .alu .div .x =>
    if s.x = 0 then { after := .inr (.ret 0) }
    else { after := .inl { s.goOn 0 with a := s.a / s.x } }
  | .alu op src =>
    match op.apply call s.a (src.value i s) with
    | some v => { after := .inl { s.goOn 0 with a := v } }
    | none => { after := .inr .divide }
  | .neg => { after := .inl { s.goOn 0 with a := -s.a } }
  | .tax => { after := .inl { s.goOn 0 with x := s.a } }
  | .txa => { after := .inl { s.goOn 0 with a := s.x } }

/-- One turn of the loop. -/
def exec (call : Call) (f : Program) (s : State) : Effect :=
  match f.fetch s.pc with
  | none => { after := .inr .outside }
  | some i =>
    match decode i.code with
    | none => { after := .inr (.ret 0) }
    | some op => execOp call i s op

def step (call : Call) (f : Program) (s : State) : State ⊕ Stop := (exec call f s).after

def start (l : Locals) : State := { l with pc := 0 }

/-- `bpf_filter`, stopped after `fuel` instructions; no filter means accept all. -/
def bpfFilter (call : Call) (f : Option Program) (l : Locals) (fuel : Nat) : State ⊕ Stop :=
  match f with
  | none => .inr (.ret (-1))
  | some f => Machine.runFor (step call f) fuel (start l)

end Reading.Bpf
