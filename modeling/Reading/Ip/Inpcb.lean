import Mathlib.Algebra.Group.Nat.Defs
import Mathlib.Data.List.Nodup
import Mathlib.Logic.Function.Iterate

/-!
# Internet protocol control blocks

`in_pcb.c`: a list of control blocks, how a local address and port are bound to one, and how it is connected. Addresses and ports are in the byte order of the host. What the functions ask of the interfaces and of the routing tables is the environment of a call.

`in_pcbconnect` looks for a connection of the same name before it has `in_pcbbind` choose the local port. A run in which the port is then chosen without regard to connected control blocks can give two of them one name; in every other run the names of connections differ.
-/

namespace Reading.Ip.Pcb

abbrev Addr := BitVec 32

abbrev Port := BitVec 16

def inaddrAny : Addr := 0

def inaddrBroadcast : Addr := 0xffffffff

/-- `IN_MULTICAST`. -/
def inMulticast (a : Addr) : Bool := a &&& 0xf0000000 == 0xe0000000

/-- The options and the state of a socket that the functions read. -/
structure Socket where
  reuseaddr : Bool := false
  reuseport : Bool := false
  acceptconn : Bool := false
  /-- `SS_NOFDREF`. -/
  nofdref : Bool := false
deriving DecidableEq

structure Inpcb (A : Type) where
  id : A
  laddr : Addr := inaddrAny
  lport : Port := 0
  faddr : Addr := inaddrAny
  fport : Port := 0
  so : Socket := {}
deriving DecidableEq

/-- A list of control blocks with the port that was chosen last, `head->inp_lport`. -/
structure Pcbs (A : Type) where
  lport : Port := 0
  list : List (Inpcb A) := []
deriving DecidableEq

structure SockaddrIn where
  /-- `m_len` of the mbuf. -/
  len : Nat := 16
  family : Nat := 2
  addr : Addr
  port : Port
deriving DecidableEq

structure Env where
  /-- `PR_CONNREQUIRED`. -/
  connrequired : Bool := false
  /-- The address of `in_ifaddr`, if there is an interface. -/
  inIfaddr : Option Addr := none
  /-- `ia_broadaddr` of it, if it supports broadcast. -/
  broadaddr : Option Addr := none
  ifaIfwithaddr : Addr → Bool := fun _ => false
  suser : Bool := false
  /-- The address of a route that does not go to the loopback interface. -/
  route : Option Addr := none
  ifaIfwithdstaddr : Addr → Option Addr := fun _ => none
  ifaIfwithnet : Addr → Option Addr := fun _ => none
  /-- The address of the interface that is set for multicast, if one is set. -/
  multicastIf : Option (Option Addr) := none

inductive Errno where
  | einval
  | eaddrnotavail
  | eacces
  | eaddrinuse
  | eafnosupport
deriving DecidableEq

variable {A : Type}

/-! ### Lookup -/

/-- How an address of a control block agrees with the one looked for: exactly, as a wildcard, or not at all. -/
def wildcardAddr (own given : Addr) (portsAgree : Bool) : Option Nat :=
  if own ≠ inaddrAny then
    if given = inaddrAny then some 1
    else if own ≠ given ∨ portsAgree = false then none
    else some 0
  else if given ≠ inaddrAny then some 1
  else some 0

def wildcard (inp : Inpcb A) (faddr : Addr) (fport : Port) (laddr : Addr) : Option Nat := do
  let l ← wildcardAddr inp.laddr laddr true
  let f ← wildcardAddr inp.faddr faddr (inp.fport == fport)
  some (l + f)

def inPcblookupFrom (faddr : Addr) (fport : Port) (laddr : Addr) (lport : Port) (flag : Bool) :
    List (Inpcb A) → Option (Inpcb A) → Nat → Option (Inpcb A)
  | [], found, _ => found
  | inp :: rest, found, matchwild =>
    if inp.lport ≠ lport then inPcblookupFrom faddr fport laddr lport flag rest found matchwild
    else match wildcard inp faddr fport laddr with
    | none => inPcblookupFrom faddr fport laddr lport flag rest found matchwild
    | some w =>
      if w ≠ 0 ∧ flag = false then inPcblookupFrom faddr fport laddr lport flag rest found matchwild
      else if w < matchwild then if w = 0 then some inp else inPcblookupFrom faddr fport laddr lport flag rest (some inp) w
      else inPcblookupFrom faddr fport laddr lport flag rest found matchwild

/-- `in_pcblookup`, with or without `INPLOOKUP_WILDCARD`. -/
def inPcblookup (st : Pcbs A) (faddr : Addr) (fport : Port) (laddr : Addr) (lport : Port) (flag : Bool) : Option (Inpcb A) :=
  inPcblookupFrom faddr fport laddr lport flag st.list none 3

/-! ### Binding -/

variable [DecidableEq A]

def Pcbs.modify (st : Pcbs A) (id : A) (f : Inpcb A → Inpcb A) : Pcbs A :=
  { st with list := st.list.map fun inp => if inp.id = id then f inp else inp }

def ipportReserved : Nat := 1024

def ipportUserreserved : Nat := 5000

/-- The next port to try. -/
def nextPort (p : Port) : Port :=
  if p.toNat < ipportReserved ∨ (p + 1).toNat > ipportUserreserved then BitVec.ofNat 16 ipportReserved else p + 1

/-- The loop that chooses a port. It is back where it began before it has gone round as often as there are ports, and goes on for ever if all that it tries are taken. -/
def choosePort (taken : Port → Bool) : Nat → Port → Option Port
  | 0, _ => none
  | fuel + 1, p => if taken (nextPort p) then choosePort taken fuel (nextPort p) else some (nextPort p)

/-- The search for the address to bind regards every control block of the port. -/
def wild (env : Env) (so : Socket) : Bool := !(so.reuseaddr || so.reuseport) && !(env.connrequired && so.acceptconn)

/-- The address and port of the argument of `in_pcbbind`, if they may be used. -/
def bindName (env : Env) (st : Pcbs A) (inp : Inpcb A) (sin : SockaddrIn) : Except Errno (Addr × Port) :=
  if sin.len ≠ 16 then .error .einval
  else if inMulticast sin.addr = false ∧ sin.addr ≠ inaddrAny ∧ env.ifaIfwithaddr sin.addr = false then .error .eaddrnotavail
  else if sin.port = 0 then .ok (sin.addr, 0)
  else if sin.port.toNat < ipportReserved ∧ env.suser = false then .error .eacces
  else
    let multicast := inMulticast sin.addr && inp.so.reuseaddr
    match inPcblookup st inaddrAny 0 sin.addr sin.port (wild env inp.so) with
    | none => .ok (sin.addr, sin.port)
    | some t =>
      if (inp.so.reuseport || multicast) && t.so.reuseport || multicast && t.so.reuseaddr then .ok (sin.addr, sin.port)
      else .error .eaddrinuse

/-- `in_pcbbind`; no result where the search for a port does not end. -/
def inPcbbind (env : Env) (st : Pcbs A) (inp : Inpcb A) (nam : Option SockaddrIn) : Option (Pcbs A × Option Errno) :=
  if env.inIfaddr = none then some (st, some .eaddrnotavail)
  else if inp.lport ≠ 0 ∨ inp.laddr ≠ inaddrAny then some (st, some .einval)
  else match (nam.elim (.ok (inp.laddr, 0)) (bindName env st inp) : Except Errno (Addr × Port)) with
  | .error e => some (st, some e)
  | .ok (laddr, lport) =>
    let st := st.modify inp.id fun p => { p with laddr := laddr }
    if lport ≠ 0 then some (st.modify inp.id fun p => { p with lport := lport }, none)
    else do
      let lport ← choosePort (fun p => (inPcblookup st inaddrAny 0 laddr p (wild env inp.so)).isSome) (2 ^ 16) st.lport
      some ({ st with lport := lport }.modify inp.id fun p => { p with lport := lport }, none)

/-! ### Connecting -/

/-- The destination, where the two special addresses stand for ones of the primary interface. -/
def destination (env : Env) (addr : Addr) : Addr :=
  match env.inIfaddr with
  | none => addr
  | some primary =>
    if addr = inaddrAny then primary
    else if addr = inaddrBroadcast then env.broadaddr.getD addr
    else addr

/-- The address of the interface by which the destination is reached. -/
def sourceAddr (env : Env) (dst : Addr) : Option Addr := do
  let ia ← env.route.or ((env.ifaIfwithdstaddr dst).or ((env.ifaIfwithnet dst).or env.inIfaddr))
  if inMulticast dst then env.multicastIf.getD (some ia) else some ia

def inPcbconnect (env : Env) (st : Pcbs A) (inp : Inpcb A) (sin : SockaddrIn) : Option (Pcbs A × Option Errno) :=
  if sin.len ≠ 16 then some (st, some .einval)
  else if sin.family ≠ 2 then some (st, some .eafnosupport)
  else if sin.port = 0 then some (st, some .eaddrnotavail)
  else
    let faddr := destination env sin.addr
    match if inp.laddr = inaddrAny then sourceAddr env faddr else some inp.laddr with
    | none => some (st, some .eaddrnotavail)
    | some laddr =>
      if (inPcblookup st faddr sin.port laddr inp.lport false).isSome then some (st, some .eaddrinuse)
      else
        let bound :=
          if inp.laddr = inaddrAny ∧ inp.lport = 0 then (inPcbbind env st inp none).map Prod.fst else some st
        bound.map fun st => (st.modify inp.id fun p => { p with laddr := laddr, faddr := faddr, fport := sin.port }, none)

def inPcballoc (st : Pcbs A) (id : A) (so : Socket) : Pcbs A := { st with list := { id := id, so := so } :: st.list }

def inPcbdetach (st : Pcbs A) (id : A) : Pcbs A := { st with list := st.list.filter fun inp => inp.id ≠ id }

def inPcbdisconnect (st : Pcbs A) (inp : Inpcb A) : Pcbs A :=
  let st := st.modify inp.id fun p => { p with faddr := inaddrAny, fport := 0 }
  if inp.so.nofdref then inPcbdetach st inp.id else st

/-! ### Runs -/

inductive Op (A : Type) where
  | alloc (id : A) (so : Socket)
  /-- The options or the state of the socket are changed. -/
  | setopt (id : A) (so : Socket)
  | bind (env : Env) (id : A) (nam : Option SockaddrIn)
  | connect (env : Env) (id : A) (sin : SockaddrIn)
  | disconnect (id : A)
  | detach (id : A)

def Pcbs.find (st : Pcbs A) (id : A) : Option (Inpcb A) := st.list.find? fun inp => inp.id = id

/-- A call for a control block that is there; memory that is allocated was free. -/
def step (st : Pcbs A) : Op A → Option (Pcbs A)
  | .alloc id so => some (if (st.find id).isSome then st else inPcballoc st id so)
  | .setopt id so => some (st.modify id fun inp => { inp with so := so })
  | .bind env id nam => (st.find id).elim (some st) fun inp => (inPcbbind env st inp nam).map Prod.fst
  | .connect env id sin => (st.find id).elim (some st) fun inp => (inPcbconnect env st inp sin).map Prod.fst
  | .disconnect id => some ((st.find id).elim st (inPcbdisconnect st))
  | .detach id => some (inPcbdetach st id)

/-- The name of a connection. -/
def Inpcb.name (inp : Inpcb A) : Addr × Port × Addr × Port := (inp.laddr, inp.lport, inp.faddr, inp.fport)

/-- No two control blocks with a foreign address have one name. -/
def Unique (st : Pcbs A) : Prop :=
  st.list.Pairwise fun p q => p.faddr ≠ inaddrAny → q.faddr ≠ inaddrAny → p.name ≠ q.name

def UniqueAlong : Pcbs A → List (Op A) → Prop
  | st, [] => Unique st
  | st, op :: ops => Unique st ∧ ∀ st', step st op = some st' → UniqueAlong st' ops

/-- A control block is connected to the place. -/
def Pcbs.Reaches (st : Pcbs A) (faddr : Addr) (fport : Port) : Prop :=
  ∃ q ∈ st.list, q.faddr ≠ inaddrAny ∧ q.faddr = faddr ∧ q.fport = fport

/-- Where `in_pcbconnect` has the port chosen, the choice is made, and regards all control blocks or none is connected to the same place. -/
def Op.Clear (st : Pcbs A) : Op A → Prop
  | .connect env id sin => ∀ inp, st.find id = some inp → inp.laddr = inaddrAny → inp.lport = 0 →
    env.inIfaddr ≠ none ∧ (wild env inp.so = true ∨ ¬st.Reaches (destination env sin.addr) sin.port)
  | _ => True

def ClearAlong : Pcbs A → List (Op A) → Prop
  | _, [] => True
  | st, op :: ops => op.Clear st ∧ ∀ st', step st op = some st' → ClearAlong st' ops

/-! ### What a lookup finds -/

section Lookup

omit [DecidableEq A]

variable {faddr laddr : Addr} {fport lport : Port} {flag : Bool}

theorem wildcardAddr_le {own given : Addr} {portsAgree : Bool} {w : Nat} (h : wildcardAddr own given portsAgree = some w) : w ≤ 1 := by
  rw [wildcardAddr] at h
  split_ifs at h <;> cases h <;> decide

theorem wildcard_lt {inp : Inpcb A} {w : Nat} (h : wildcard inp faddr fport laddr = some w) : w < 3 := by
  obtain ⟨l, hl, h⟩ := Option.bind_eq_some_iff.mp h
  obtain ⟨f, hf, h⟩ := Option.bind_eq_some_iff.mp h
  cases h
  have hle := wildcardAddr_le hl
  have hle' := wildcardAddr_le hf
  omega

theorem inPcblookupFrom_some (list : List (Inpcb A)) (found : Inpcb A) (matchwild : Nat) :
    (inPcblookupFrom faddr fport laddr lport flag list (some found) matchwild).isSome := by
  induction list generalizing found matchwild with
  | nil => rfl
  | cons inp rest ih =>
    rw [inPcblookupFrom]
    split
    · exact ih found matchwild
    · split
      · exact ih found matchwild
      · split_ifs
        · exact ih found matchwild
        · rfl
        · exact ih inp _
        · exact ih found matchwild

/-- What is not found does not match, or is found by a wildcard where none may be used. -/
theorem inPcblookup_eq_none {st : Pcbs A} (h : inPcblookup st faddr fport laddr lport flag = none) :
    ∀ inp ∈ st.list, inp.lport = lport → ∀ w, wildcard inp faddr fport laddr = some w → w ≠ 0 ∧ flag = false := by
  rw [inPcblookup] at h
  generalize st.list = list at h
  induction list with
  | nil =>
    intro inp hinp
    exact absurd hinp List.not_mem_nil
  | cons p rest ih =>
    rw [inPcblookupFrom] at h
    intro inp hinp hport w hw
    split at h
    · rename_i hother
      rcases List.mem_cons.mp hinp with rfl | hinp
      · exact absurd hport hother
      · exact ih h inp hinp hport w hw
    · split at h
      · rename_i hnone
        rcases List.mem_cons.mp hinp with rfl | hinp
        · rw [hw] at hnone
          cases hnone
        · exact ih h inp hinp hport w hw
      · rename_i v hv
        split at h
        · rename_i hskip
          rcases List.mem_cons.mp hinp with rfl | hinp
          · rw [hw] at hv
            cases hv
            exact hskip
          · exact ih h inp hinp hport w hw
        · rw [if_pos (wildcard_lt hv)] at h
          split at h
          · cases h
          · have hsome := @inPcblookupFrom_some A faddr laddr fport lport flag rest p v
            rw [h] at hsome
            cases hsome

theorem wildcardAddr_self (a : Addr) : wildcardAddr a a true = some 0 := by
  rw [wildcardAddr]
  split_ifs <;> simp_all

theorem wildcard_name {inp : Inpcb A} : wildcard inp inp.faddr inp.fport inp.laddr = some 0 := by
  simp only [wildcard, BEq.rfl, wildcardAddr_self]
  rfl

theorem wildcard_any (inp : Inpcb A) : ∃ w, wildcard inp inaddrAny 0 inaddrAny = some w := by
  have hany : ∀ own portsAgree, ∃ w, wildcardAddr own inaddrAny portsAgree = some w := by
    intro own portsAgree
    by_cases hown : own = inaddrAny
    · exact ⟨0, by simp [wildcardAddr, hown]⟩
    · exact ⟨1, by simp [wildcardAddr, hown]⟩
  obtain ⟨l, hl⟩ := hany inp.laddr true
  obtain ⟨f, hf⟩ := hany inp.faddr (inp.fport == 0)
  refine ⟨l + f, ?_⟩
  rw [wildcard, hl, Option.bind_eq_bind, Option.bind_some, hf]
  rfl

/-- No connection has the name that was looked for. -/
theorem name_ne_of_lookup {st : Pcbs A} (h : inPcblookup st faddr fport laddr lport false = none) {inp : Inpcb A} (hinp : inp ∈ st.list) :
    inp.name ≠ (laddr, lport, faddr, fport) := by
  rintro hname
  obtain ⟨rfl, rfl, rfl, rfl⟩ : inp.laddr = laddr ∧ inp.lport = lport ∧ inp.faddr = faddr ∧ inp.fport = fport := by
    simpa [Inpcb.name] using hname
  exact (inPcblookup_eq_none h inp hinp rfl 0 wildcard_name).1 rfl

theorem lport_ne_of_lookup {st : Pcbs A} (h : inPcblookup st inaddrAny 0 inaddrAny lport true = none) {inp : Inpcb A}
    (hinp : inp ∈ st.list) : inp.lport ≠ lport := by
  intro hport
  obtain ⟨w, hw⟩ := wildcard_any inp
  exact absurd (inPcblookup_eq_none h inp hinp hport w hw).2 (by decide)

end Lookup

/-! ### The chosen port -/

section Port

def InRange (p : Port) : Prop := p.toNat ≤ ipportUserreserved

theorem nextPort_range {p : Port} (h : InRange p) : ipportReserved ≤ (nextPort p).toNat ∧ InRange (nextPort p) := by
  rw [nextPort]
  split
  · constructor
    · decide
    · rw [InRange]
      decide
  · rename_i hrange
    rw [InRange] at h ⊢
    simp only [ipportReserved, ipportUserreserved] at *
    bv_omega

theorem choosePort_spec {taken : Port → Bool} {fuel : Nat} {p q : Port} (hp : InRange p) (h : choosePort taken fuel p = some q) :
    taken q = false ∧ q ≠ 0 ∧ InRange q := by
  induction fuel generalizing p with
  | zero => cases h
  | succ fuel ih =>
    obtain ⟨hlow, hrange⟩ := nextPort_range hp
    rw [choosePort] at h
    split at h
    · exact ih hrange h
    · rename_i hfree
      cases h
      refine ⟨by simpa using hfree, ?_, hrange⟩
      intro hzero
      rw [hzero] at hlow
      exact absurd hlow (by decide)

theorem choosePort_eq_none_iff {taken : Port → Bool} {fuel : Nat} {p : Port} :
    choosePort taken fuel p = none ↔ ∀ k < fuel, taken (nextPort^[k + 1] p) = true := by
  induction fuel generalizing p with
  | zero => exact iff_of_true rfl fun k hk => absurd hk (Nat.not_lt_zero k)
  | succ fuel ih =>
    rw [choosePort]
    by_cases htaken : taken (nextPort p) = true
    · rw [if_pos htaken, ih]
      constructor
      · intro h k hk
        cases k with
        | zero => exact htaken
        | succ k =>
          rw [Function.iterate_succ_apply]
          exact h k (Nat.lt_of_succ_lt_succ hk)
      · intro h k hk
        have hnext := h (k + 1) (Nat.succ_lt_succ hk)
        rwa [Function.iterate_succ_apply] at hnext
    · rw [if_neg htaken]
      exact iff_of_false (nofun) fun h => htaken (h 0 (Nat.succ_pos fuel))

/-- A port that the search may choose. -/
def Ephemeral (p : Port) : Prop := ipportReserved ≤ p.toNat ∧ p.toNat ≤ ipportUserreserved

theorem nextPort_ephemeral {p : Port} (hp : p ≠ 65535) : Ephemeral (nextPort p) := by
  rw [nextPort]
  split
  · exact ⟨by decide, by decide⟩
  next h =>
    have hvalues : ipportReserved = 1024 ∧ ipportUserreserved = 5000 := ⟨rfl, rfl⟩
    rw [Ephemeral]
    bv_omega

theorem nextPort_succ {p : Port} (hlow : ipportReserved ≤ p.toNat) (hhigh : p.toNat < ipportUserreserved) :
    nextPort p = p + 1 := by
  have hvalues : ipportReserved = 1024 ∧ ipportUserreserved = 5000 := ⟨rfl, rfl⟩
  rw [nextPort, if_neg]
  bv_omega

theorem iterate_nextPort {p : Port} {k : Nat} (hlow : ipportReserved ≤ p.toNat) (hhigh : p.toNat + k ≤ ipportUserreserved) :
    nextPort^[k] p = BitVec.ofNat 16 (p.toNat + k) := by
  induction k with
  | zero => rw [Nat.add_zero, BitVec.ofNat_toNat, BitVec.setWidth_eq]; rfl
  | succ k ih =>
    have hvalues : ipportReserved = 1024 ∧ ipportUserreserved = 5000 := ⟨rfl, rfl⟩
    have hnat : (BitVec.ofNat 16 (p.toNat + k)).toNat = p.toNat + k := by
      rw [BitVec.toNat_ofNat]
      exact Nat.mod_eq_of_lt (by omega)
    rw [Function.iterate_succ_apply', ih (by omega), nextPort_succ (by omega) (by omega), ← BitVec.toNat_inj, BitVec.toNat_add, hnat,
      BitVec.toNat_ofNat]
    rfl

theorem iterate_nextPort_reaches {p q : Port} (hp : Ephemeral p) (hq : Ephemeral q) : ∃ k < 3977, nextPort^[k] p = q := by
  have hvalues : ipportReserved = 1024 ∧ ipportUserreserved = 5000 := ⟨rfl, rfl⟩
  obtain ⟨hplow, hphigh⟩ := hp
  obtain ⟨hqlow, hqhigh⟩ := hq
  have hof (r : Port) : BitVec.ofNat 16 r.toNat = r := by
    rw [BitVec.ofNat_toNat, BitVec.setWidth_eq]
  by_cases hle : p.toNat ≤ q.toNat
  · refine ⟨q.toNat - p.toNat, by omega, ?_⟩
    rw [iterate_nextPort hplow (by omega), Nat.add_sub_cancel' hle, hof]
  · -- up to the last port, to the first one, and up again
    refine ⟨(q.toNat - 1024) + 1 + (5000 - p.toNat), by omega, ?_⟩
    have hlast : nextPort (BitVec.ofNat 16 5000) = BitVec.ofNat 16 1024 := by decide
    rw [Function.iterate_add_apply, iterate_nextPort hplow (by omega), Nat.add_sub_cancel' (by omega), Function.iterate_succ_apply, hlast,
      iterate_nextPort (by decide) (by change 1024 + _ ≤ 5000; omega)]
    change BitVec.ofNat 16 (1024 + (q.toNat - 1024)) = q
    rw [Nat.add_sub_cancel' (by omega), hof]

end Port

/-! ### The invariant -/

/-- Connections have different names, and a connection that has neither address nor port of its own does not exist. -/
structure Inv (st : Pcbs A) : Prop where
  nodup : (st.list.map Inpcb.id).Nodup
  unique : ∀ p ∈ st.list, ∀ q ∈ st.list, p.id ≠ q.id → p.faddr ≠ inaddrAny → q.faddr ≠ inaddrAny → p.name ≠ q.name
  bound : ∀ p ∈ st.list, p.faddr ≠ inaddrAny → p.lport ≠ 0 ∨ p.laddr ≠ inaddrAny
  range : InRange st.lport

section Inv

variable {st st' : Pcbs A} {id : A} {inp : Inpcb A} {f g : Inpcb A → Inpcb A}

omit [DecidableEq A] in
theorem Inv.pairwise (h : Inv st) : Unique st := by
  have hids : st.list.Pairwise fun p q => p.id ≠ q.id := List.pairwise_map.mp h.nodup
  exact hids.imp_of_mem fun hp hq hne => h.unique _ hp _ hq hne

omit [DecidableEq A] in
theorem Inv.of_list (h : Inv st) (hlist : st'.list = st.list) (hrange : InRange st'.lport) : Inv st' := by
  refine ⟨?_, ?_, ?_, hrange⟩
  · rw [hlist]
    exact h.nodup
  · rw [hlist]
    exact h.unique
  · rw [hlist]
    exact h.bound

theorem find_spec (h : st.find id = some inp) : inp ∈ st.list ∧ inp.id = id := by
  refine ⟨List.mem_of_find?_eq_some h, ?_⟩
  have hid := List.find?_some h
  simpa using hid

theorem list_modify : (st.modify id f).list = st.list.map fun inp => if inp.id = id then f inp else inp := rfl

theorem map_id_modify (hid : ∀ p, (f p).id = p.id) : (st.modify id f).list.map Inpcb.id = st.list.map Inpcb.id := by
  rw [list_modify, List.map_map]
  apply List.map_congr_left
  intro p _
  rw [Function.comp_apply]
  split
  · exact hid p
  · rfl

theorem modify_modify (hid : ∀ p, (f p).id = p.id) : ((st.modify id f).modify id g).list = (st.modify id fun p => g (f p)).list := by
  rw [list_modify, list_modify, list_modify, List.map_map]
  apply List.map_congr_left
  intro p _
  rw [Function.comp_apply]
  split
  · rename_i heq
    rw [if_pos ((hid p).trans heq)]
  · rfl

theorem Inv.mem_modify (h : Inv st) (hfind : st.find id = some inp) {p : Inpcb A} (hp : p ∈ (st.modify id f).list) :
    p = f inp ∨ p ∈ st.list ∧ p.id ≠ id := by
  obtain ⟨q, hq, rfl⟩ := List.mem_map.mp hp
  obtain ⟨hinp, hid⟩ := find_spec hfind
  split
  · rename_i heq
    left
    rw [List.inj_on_of_nodup_map h.nodup hq hinp (heq.trans hid.symm)]
  · rename_i hne
    exact .inr ⟨hq, hne⟩

theorem Inv.modify (h : Inv st) (hfind : st.find id = some inp) (hid : ∀ p, (f p).id = p.id)
    (hunique : (f inp).faddr ≠ inaddrAny → ∀ q ∈ st.list, q.id ≠ id → (f inp).name ≠ q.name)
    (hbound : (f inp).faddr ≠ inaddrAny → (f inp).lport ≠ 0 ∨ (f inp).laddr ≠ inaddrAny) : Inv (st.modify id f) := by
  have hself : (f inp).id = id := (hid inp).trans (find_spec hfind).2
  refine ⟨?_, ?_, ?_, h.range⟩
  · rw [map_id_modify hid]
    exact h.nodup
  · intro p hp q hq hne hpf hqf
    obtain rfl | ⟨hp, hpid⟩ := h.mem_modify hfind hp
    · obtain rfl | ⟨hq, hqid⟩ := h.mem_modify hfind hq
      · exact absurd rfl hne
      · exact hunique hpf q hq hqid
    · obtain rfl | ⟨hq, hqid⟩ := h.mem_modify hfind hq
      · exact (hunique hqf p hp hpid).symm
      · exact h.unique p hp q hq hne hpf hqf
  · intro p hp
    obtain rfl | ⟨hp, -⟩ := h.mem_modify hfind hp
    · exact hbound
    · exact h.bound p hp

theorem Inv.modify_name (h : Inv st) (hid : ∀ p, (f p).id = p.id) (hname : ∀ p, (f p).name = p.name) : Inv (st.modify id f) := by
  have hmem : ∀ p ∈ (st.modify id f).list, ∃ q ∈ st.list, p.id = q.id ∧ p.name = q.name := by
    intro p hp
    obtain ⟨q, hq, rfl⟩ := List.mem_map.mp hp
    refine ⟨q, hq, ?_⟩
    split
    · exact ⟨hid q, hname q⟩
    · exact ⟨rfl, rfl⟩
  have hparts : ∀ {p q : Inpcb A}, p.name = q.name → p.laddr = q.laddr ∧ p.lport = q.lport ∧ p.faddr = q.faddr := by
    intro p q heq
    simp only [Inpcb.name, Prod.mk.injEq] at heq
    exact ⟨heq.1, heq.2.1, heq.2.2.1⟩
  refine ⟨?_, ?_, ?_, h.range⟩
  · rw [map_id_modify hid]
    exact h.nodup
  · intro p hp q hq hne hpf hqf
    obtain ⟨p', hp', hpid, hpname⟩ := hmem p hp
    obtain ⟨q', hq', hqid, hqname⟩ := hmem q hq
    rw [hpid, hqid] at hne
    rw [(hparts hpname).2.2] at hpf
    rw [(hparts hqname).2.2] at hqf
    rw [hpname, hqname]
    exact h.unique p' hp' q' hq' hne hpf hqf
  · intro p hp hpf
    obtain ⟨p', hp', -, hpname⟩ := hmem p hp
    obtain ⟨hl, hport, hf⟩ := hparts hpname
    rw [hf] at hpf
    rw [hl, hport]
    exact h.bound p' hp' hpf

theorem Inv.detach (h : Inv st) (id : A) : Inv (inPcbdetach st id) := by
  have hmem : ∀ p ∈ (inPcbdetach st id).list, p ∈ st.list := fun p hp => List.mem_of_mem_filter hp
  refine ⟨?_, ?_, fun p hp => h.bound p (hmem p hp), h.range⟩
  · exact h.nodup.sublist (List.filter_sublist.map _)
  · intro p hp q hq
    exact h.unique p (hmem p hp) q (hmem q hq)

theorem Inv.alloc (h : Inv st) (hnew : st.find id = none) (so : Socket) : Inv (inPcballoc st id so) := by
  have hfresh : ∀ p ∈ st.list, p.id ≠ id := by
    intro p hp
    simpa using List.find?_eq_none.mp hnew p hp
  refine ⟨?_, ?_, ?_, h.range⟩
  · refine List.nodup_cons.mpr ⟨?_, h.nodup⟩
    intro hmem
    obtain ⟨p, hp, heq⟩ := List.mem_map.mp hmem
    exact hfresh p hp heq
  · intro p hp q hq hne hpf hqf
    rcases List.mem_cons.mp hp with rfl | hp
    · exact absurd rfl hpf
    · rcases List.mem_cons.mp hq with rfl | hq
      · exact absurd rfl hqf
      · exact h.unique p hp q hq hne hpf hqf
  · intro p hp hpf
    rcases List.mem_cons.mp hp with rfl | hp
    · exact absurd rfl hpf
    · exact h.bound p hp hpf

/-- What `in_pcbbind` leaves: the list as it was, or an address and a port for a control block that had neither. -/
theorem inPcbbind_list {env : Env} {nam : Option SockaddrIn} {e : Option Errno} (hrange : InRange st.lport)
    (h : inPcbbind env st inp nam = some (st', e)) :
    InRange st'.lport ∧ (st'.list = st.list ∨ inp.lport = 0 ∧ inp.laddr = inaddrAny ∧
      ∃ laddr lport, st'.list = (st.modify inp.id fun p => { p with laddr := laddr, lport := lport }).list) := by
  rw [inPcbbind] at h
  split at h
  · cases h
    exact ⟨hrange, .inl rfl⟩
  split at h
  · cases h
    exact ⟨hrange, .inl rfl⟩
  rename_i hnot
  have hfree : inp.lport = 0 ∧ inp.laddr = inaddrAny := by simpa using hnot
  split at h
  · cases h
    exact ⟨hrange, .inl rfl⟩
  · rename_i laddr lport _
    dsimp only at h
    split at h
    · cases h
      refine ⟨hrange, .inr ⟨hfree.1, hfree.2, laddr, lport, ?_⟩⟩
      exact modify_modify fun _ => rfl
    · obtain ⟨port, hport, h⟩ := Option.bind_eq_some_iff.mp h
      cases h
      refine ⟨(choosePort_spec hrange hport).2.2, .inr ⟨hfree.1, hfree.2, laddr, port, ?_⟩⟩
      exact modify_modify fun _ => rfl

theorem inPcbbind_chosen {env : Env} (hinv : Inv st) (hlport : inp.lport = 0) (hladdr : inp.laddr = inaddrAny)
    (hif : env.inIfaddr ≠ none) {e : Option Errno} (h : inPcbbind env st inp none = some (st', e)) :
    ∃ lport, st'.list = (st.modify inp.id fun p => { p with laddr := inaddrAny, lport := lport }).list ∧ InRange st'.lport ∧ lport ≠ 0 ∧
      (wild env inp.so = true → ∀ q ∈ st.list, q.id ≠ inp.id → q.lport ≠ lport) := by
  simp only [inPcbbind, hif, if_false, hlport, hladdr, ne_eq, not_true_eq_false, or_self, Option.elim_none] at h
  obtain ⟨port, hport, h⟩ := Option.bind_eq_some_iff.mp h
  cases h
  obtain ⟨hfree, hzero, hrange⟩ := choosePort_spec hinv.range hport
  refine ⟨port, modify_modify fun _ => rfl, hrange, hzero, ?_⟩
  intro hwild q hq hne
  rw [hwild] at hfree
  apply lport_ne_of_lookup (by simpa using hfree)
  rw [list_modify]
  refine List.mem_map.mpr ⟨q, hq, ?_⟩
  rw [if_neg hne]

theorem Inv.bind {env : Env} {nam : Option SockaddrIn} {e : Option Errno} (h : Inv st) (hfind : st.find id = some inp)
    (hbind : inPcbbind env st inp nam = some (st', e)) : Inv st' := by
  obtain ⟨hrange, hsame | ⟨hlport, hladdr, laddr, lport, hlist⟩⟩ := inPcbbind_list h.range hbind
  · exact h.of_list hsame hrange
  · obtain ⟨hinp, rfl⟩ := find_spec hfind
    -- Without address and port it is not connected.
    have hfaddr : inp.faddr = inaddrAny := by
      by_contra hfaddr
      obtain hport | haddr := h.bound inp hinp hfaddr
      · exact hport hlport
      · exact haddr hladdr
    have hmodify := h.modify (f := fun p => { p with laddr := laddr, lport := lport }) hfind (fun _ => rfl)
      (fun hne => absurd hfaddr hne) (fun hne => absurd hfaddr hne)
    exact hmodify.of_list hlist hrange

theorem Inv.connect {env : Env} {sin : SockaddrIn} {e : Option Errno} (h : Inv st) (hfind : st.find id = some inp)
    (hclear : inp.laddr = inaddrAny → inp.lport = 0 →
      env.inIfaddr ≠ none ∧ (wild env inp.so = true ∨ ¬st.Reaches (destination env sin.addr) sin.port))
    (hconnect : inPcbconnect env st inp sin = some (st', e)) : Inv st' := by
  obtain ⟨hinp, rfl⟩ := find_spec hfind
  rw [inPcbconnect] at hconnect
  split at hconnect
  · cases hconnect
    exact h
  split at hconnect
  · cases hconnect
    exact h
  split at hconnect
  · cases hconnect
    exact h
  dsimp only at hconnect
  split at hconnect
  · cases hconnect
    exact h
  rename_i laddr hladdr
  split at hconnect
  · cases hconnect
    exact h
  rename_i hlookup
  have hlookup : inPcblookup st (destination env sin.addr) sin.port laddr inp.lport false = none := by simpa using hlookup
  split at hconnect
  · -- The port is chosen now: no other control block has it, or none is connected to the same place.
    rename_i hunbound
    obtain ⟨hif, hchosen⟩ := hclear hunbound.1 hunbound.2
    obtain ⟨st₁, hmap, hst'⟩ := Option.map_eq_some_iff.mp hconnect
    cases hst'
    obtain ⟨⟨st₂, e⟩, hbind, rfl⟩ := Option.map_eq_some_iff.mp hmap
    obtain ⟨lport, hlist, hrange, hzero, hother⟩ := inPcbbind_chosen h hunbound.2 hunbound.1 hif hbind
    have hmodify := h.modify
      (f := fun p => { p with lport := lport, laddr := laddr, faddr := destination env sin.addr, fport := sin.port }) hfind (fun _ => rfl)
      (fun hconnected q hq hne hname => by
        simp only [Inpcb.name, Prod.mk.injEq] at hname
        obtain ⟨-, hport, hfaddr, hfport⟩ := hname
        obtain hwild | hnone := hchosen
        · exact hother hwild q hq hne hport.symm
        · exact hnone ⟨q, hq, hfaddr ▸ hconnected, hfaddr.symm, hfport.symm⟩)
      (fun _ => .inl hzero)
    refine hmodify.of_list ?_ hrange
    rw [list_modify, hlist]
    exact modify_modify fun _ => rfl
  · rename_i hbound
    cases hconnect
    refine h.modify hfind (fun _ => rfl) ?_ ?_
    · intro _ q hq _ hname
      exact name_ne_of_lookup hlookup hq hname.symm
    · intro _
      dsimp only
      by_cases hport : inp.lport = 0
      · right
        have hne : inp.laddr ≠ inaddrAny := fun hany => hbound ⟨hany, hport⟩
        rw [if_neg hne] at hladdr
        cases hladdr
        exact hne
      · exact .inl hport

theorem Inv.disconnect (h : Inv st) (hfind : st.find id = some inp) : Inv (inPcbdisconnect st inp) := by
  obtain ⟨-, rfl⟩ := find_spec hfind
  have hmodify := h.modify (f := fun p => { p with faddr := inaddrAny, fport := 0 }) hfind (fun _ => rfl)
    (fun hne => absurd rfl hne) (fun hne => absurd rfl hne)
  rw [inPcbdisconnect]
  split
  · exact hmodify.detach _
  · exact hmodify

/-- One call keeps the names of connections apart. -/
theorem Inv.step (h : Inv st) {op : Op A} (hclear : op.Clear st) (hstep : step st op = some st') : Inv st' := by
  cases op with
  | alloc id so =>
    cases hstep
    split
    · exact h
    · rename_i hnew
      exact h.alloc (by simpa using hnew) so
  | setopt id so =>
    cases hstep
    exact h.modify_name (fun _ => rfl) fun _ => rfl
  | bind env id nam =>
    cases hfind : st.find id with
    | none =>
      rw [Pcb.step, hfind] at hstep
      cases hstep
      exact h
    | some inp =>
      rw [Pcb.step, hfind] at hstep
      obtain ⟨⟨st', e⟩, hbind, rfl⟩ := Option.map_eq_some_iff.mp hstep
      exact h.bind hfind hbind
  | connect env id sin =>
    cases hfind : st.find id with
    | none =>
      rw [Pcb.step, hfind] at hstep
      cases hstep
      exact h
    | some inp =>
      rw [Pcb.step, hfind] at hstep
      obtain ⟨⟨st', e⟩, hconnect, rfl⟩ := Option.map_eq_some_iff.mp hstep
      exact h.connect hfind (hclear inp hfind) hconnect
  | disconnect id =>
    cases hstep
    cases hfind : st.find id with
    | none => exact h
    | some inp => exact h.disconnect hfind
  | detach id =>
    cases hstep
    exact h.detach id

theorem Inv.uniqueAlong (h : Inv st) {ops : List (Op A)} (hclear : ClearAlong st ops) : UniqueAlong st ops := by
  induction ops generalizing st with
  | nil => exact h.pairwise
  | cons op ops ih => exact ⟨h.pairwise, fun st' hstep => ih (h.step hclear.1 hstep) (hclear.2 st' hstep)⟩

end Inv

/-- In every run in which no port is chosen for a connection without regard to the connections there are, connections have different names. -/
theorem connections_unique (ops : List (Op A)) (hclear : ClearAlong {} ops) : UniqueAlong {} ops := by
  have hempty : Inv ({} : Pcbs A) := by
    refine ⟨List.nodup_nil, ?_, ?_, ?_⟩
    · intro p hp
      exact absurd hp List.not_mem_nil
    · intro p hp
      exact absurd hp List.not_mem_nil
    · exact Nat.zero_le _
  exact hempty.uniqueAlong hclear

/-- A host with one interface. -/
def oneInterface : Env := { inIfaddr := some 0x0a000001 }

theorem connections_unique_two :
    UniqueAlong ({} : Pcbs Nat)
      [.alloc 0 {}, .connect oneInterface 0 { addr := 0x0a000002, port := 80 }, .alloc 1 { reuseaddr := true },
        .bind oneInterface 1 (some { addr := 0, port := 2000 }), .connect oneInterface 1 { addr := 0x0a000002, port := 80 }] := by
  apply connections_unique
  refine ⟨trivial, fun st₁ h₁ => ⟨?_, fun st₂ h₂ => ⟨trivial, fun st₃ h₃ => ⟨trivial, fun st₄ h₄ => ⟨?_, fun _ _ => trivial⟩⟩⟩⟩⟩
  · cases h₁
    intro inp hinp _ _
    cases hinp
    exact ⟨by decide, .inl (by decide)⟩
  · have hst₄ : some st₄ = some { lport := 1024, list := [
        { id := 1, lport := 2000, so := { reuseaddr := true } },
        { id := 0, laddr := 0x0a000001, lport := 1024, faddr := 0x0a000002, fport := 80 }] } := by
      rw [← h₄]
      cases h₁
      obtain rfl : st₂ = _ := Option.some.inj h₂.symm
      cases h₃
      decide
    cases hst₄
    intro inp hinp _ hport
    cases hinp
    exact absurd hport (by decide)

theorem UniqueAlong.run {st st' : Pcbs A} {ops : List (Op A)} (h : UniqueAlong st ops) (hrun : ops.foldlM step st = some st') :
    Unique st' := by
  induction ops generalizing st with
  | nil =>
    cases hrun
    exact h
  | cons op ops ih =>
    obtain ⟨st₁, hstep, hrest⟩ := Option.bind_eq_some_iff.mp hrun
    exact ih (h.2 st₁ hstep) hrest

/-- Port 1024 is bound and connected, and then chosen for a connection to the same place. -/
theorem connections_not_unique : ¬ ∀ ops : List (Op Nat), UniqueAlong {} ops := by
  intro h
  have hrun := @UniqueAlong.run Nat _ {} { lport := 1024, list := [
      { id := 1, laddr := 0x0a000001, lport := 1024, faddr := 0x0a000002, fport := 80, so := { reuseaddr := true } },
      { id := 0, laddr := 0x0a000001, lport := 1024, faddr := 0x0a000002, fport := 80 }] } _
    (h [.alloc 0 {}, .bind oneInterface 0 (some { addr := 0, port := 1024 }),
      .connect oneInterface 0 { addr := 0x0a000002, port := 80 }, .alloc 1 { reuseaddr := true },
      .connect oneInterface 1 { addr := 0x0a000002, port := 80 }]) (by decide)
  rw [Unique, List.pairwise_cons] at hrun
  exact hrun.1 _ (List.mem_singleton.mpr rfl) (by decide) (by decide) rfl

/-! ### Whether a port is found -/

section Search

variable {env : Env} {st : Pcbs A} {inp : Inpcb A} {nam : Option SockaddrIn} {laddr : Addr}

/-- The lookup of the search finds no control block for the port. -/
def Unused (env : Env) (st : Pcbs A) (inp : Inpcb A) (laddr : Addr) (p : Port) : Prop :=
  inPcblookup (st.modify inp.id fun q => { q with laddr := laddr }) inaddrAny 0 laddr p (wild env inp.so) = none

/-- A request for a control block without address and port that asks for no port comes to the search. -/
structure Asks (env : Env) (st : Pcbs A) (inp : Inpcb A) (nam : Option SockaddrIn) (laddr : Addr) : Prop where
  inIfaddr : env.inIfaddr ≠ none
  unbound : inp.lport = 0 ∧ inp.laddr = inaddrAny
  name : (nam.elim (.ok (inp.laddr, 0)) (bindName env st inp) : Except Errno (Addr × Port)) = .ok (laddr, 0)

/-- The call comes back, with a port of the range that is not used, or with an error if there is none. -/
def Chooses (env : Env) (st : Pcbs A) (inp : Inpcb A) (nam : Option SockaddrIn) (laddr : Addr) : Prop :=
  ∃ st' e, inPcbbind env st inp nam = some (st', e) ∧
    (e = none → Ephemeral st'.lport ∧ Unused env st inp laddr st'.lport ∧ ∀ q ∈ st'.list, q.id = inp.id → q.lport = st'.lport) ∧
    (e ≠ none → ∀ p, Ephemeral p → ¬Unused env st inp laddr p)

/-- Whether the search regards a port as taken. -/
def taken (env : Env) (st : Pcbs A) (inp : Inpcb A) (laddr : Addr) (p : Port) : Bool :=
  (inPcblookup (st.modify inp.id fun q => { q with laddr := laddr }) inaddrAny 0 laddr p (wild env inp.so)).isSome

theorem taken_eq_false_iff {p : Port} : taken env st inp laddr p = false ↔ Unused env st inp laddr p := by
  rw [taken, Option.isSome_eq_false_iff, Option.isNone_iff_eq_none, Unused]

theorem inPcbbind_asks (h : Asks env st inp nam laddr) :
    inPcbbind env st inp nam = (choosePort (taken env st inp laddr) (2 ^ 16) st.lport).map fun port =>
      (Pcbs.modify { st.modify inp.id (fun q => { q with laddr := laddr }) with lport := port } inp.id fun q => { q with lport := port },
        none) := by
  have hname := h.name
  rw [inPcbbind, if_neg h.inIfaddr, if_neg (by simp [h.unbound])]
  split
  next e heq =>
    rw [hname] at heq
    cases heq
  next laddr' lport heq =>
    rw [hname] at heq
    cases heq
    dsimp only
    rw [if_neg (by decide)]
    change (choosePort (taken env st inp laddr) (2 ^ 16) st.lport).bind _ = _
    cases choosePort (taken env st inp laddr) (2 ^ 16) st.lport <;> rfl

theorem choosePort_unused {taken : Port → Bool} {fuel : Nat} {p q : Port} (h : choosePort taken fuel p = some q) : taken q = false := by
  induction fuel generalizing p with
  | zero => cases h
  | succ fuel ih =>
    rw [choosePort] at h
    split at h
    · exact ih h
    next hfree =>
      cases h
      exact Bool.not_eq_true _ ▸ hfree

/-- From a port that is not the last of all, the search does not leave the range. -/
theorem choosePort_ephemeral {taken : Port → Bool} {fuel : Nat} {p q : Port} (hp : p ≠ 65535) (h : choosePort taken fuel p = some q) :
    Ephemeral q := by
  induction fuel generalizing p with
  | zero => cases h
  | succ fuel ih =>
    have hnext := nextPort_ephemeral hp
    rw [choosePort] at h
    split at h
    · refine ih ?_ h
      intro hlast
      rw [hlast] at hnext
      exact absurd hnext.2 (by decide)
    · cases h
      exact hnext

theorem choosePort_first (taken : Port → Bool) (p : Port) : choosePort taken (2 ^ 16) p =
    if taken (nextPort p) then choosePort taken (2 ^ 16 - 1) (nextPort p) else some (nextPort p) := rfl

theorem choosePort_finds {taken : Port → Bool} {p q : Port} (hq : Ephemeral q) (hfree : taken q = false) :
    ∃ r, choosePort taken (2 ^ 16) p = some r := by
  apply Option.ne_none_iff_exists'.mp
  rw [Ne, choosePort_eq_none_iff]
  intro hall
  obtain ⟨k, hk, hreach⟩ : ∃ k < 2 ^ 16, nextPort^[k + 1] p = q := by
    by_cases hp : p = 65535
    · obtain ⟨k, hk, hreach⟩ := iterate_nextPort_reaches (@nextPort_ephemeral (nextPort p) (by rw [hp]; decide)) hq
      exact ⟨k + 1, by omega, by rw [Function.iterate_add_apply, Function.iterate_succ_apply]; exact hreach⟩
    · obtain ⟨k, hk, hreach⟩ := iterate_nextPort_reaches (nextPort_ephemeral hp) hq
      exact ⟨k, by omega, by rw [Function.iterate_succ_apply]; exact hreach⟩
  rw [← hreach, hall k hk] at hfree
  cases hfree

theorem choosePort_forever {taken : Port → Bool} {p : Port} (h : choosePort taken (2 ^ 16) p = none) (fuel : Nat) :
    choosePort taken fuel p = none := by
  have hfull (q : Port) (hq : Ephemeral q) : taken q = true := by
    by_contra hfree
    obtain ⟨r, hr⟩ := @choosePort_finds taken p q hq (Bool.not_eq_true _ ▸ hfree)
    rw [h] at hr
    cases hr
  have hstay (q : Port) (hq : Ephemeral q) (k : Nat) : Ephemeral (nextPort^[k] q) := by
    induction k with
    | zero => exact hq
    | succ k ih =>
      rw [Function.iterate_succ_apply']
      apply nextPort_ephemeral
      intro hlast
      rw [hlast] at ih
      exact absurd ih.2 (by decide)
  rw [choosePort_eq_none_iff] at h ⊢
  intro k _
  cases k with
  | zero => exact h 0 (by decide)
  | succ k =>
    by_cases hp : p = 65535
    · have hsecond : Ephemeral (nextPort (nextPort p)) := nextPort_ephemeral (by rw [hp]; decide)
      exact hfull _ (hstay _ hsecond k)
    · exact hfull _ (hstay _ (nextPort_ephemeral hp) (k + 1))

/-- A control block without a foreign address uses port 0 until it has one of its own. -/
theorem not_unused_zero (hfind : inp ∈ st.list) (hport : inp.lport = 0) (hfaddr : inp.faddr = inaddrAny) :
    ¬Unused env st inp laddr 0 := by
  intro hunused
  have hmem : { inp with laddr := laddr } ∈ (st.modify inp.id fun q => { q with laddr := laddr }).list := by
    rw [list_modify]
    exact List.mem_map.mpr ⟨inp, hfind, if_pos rfl⟩
  have hself : wildcard { inp with laddr := laddr } inaddrAny 0 laddr = some 0 := by
    have hforeign : wildcardAddr inaddrAny inaddrAny (inp.fport == 0) = some 0 := by simp [wildcardAddr]
    rw [wildcard, wildcardAddr_self, Option.bind_eq_bind, Option.bind_some, hfaddr, hforeign]
    rfl
  exact (inPcblookup_eq_none hunused _ hmem hport 0 hself).1 rfl

theorem Chooses.unused (hchooses : Chooses env st inp nam laddr) (h : Asks env st inp nam laddr) :
    ∃ p, Ephemeral p ∧ Unused env st inp laddr p ∧ choosePort (taken env st inp laddr) (2 ^ 16) st.lport = some p := by
  obtain ⟨st', e, hbind, hnone, -⟩ := hchooses
  rw [inPcbbind_asks h] at hbind
  obtain ⟨port, hport, heq⟩ := Option.map_eq_some_iff.mp hbind
  obtain ⟨rfl, rfl⟩ := Prod.mk.inj heq
  obtain ⟨hrange, hfree, -⟩ := hnone rfl
  exact ⟨port, hrange, hfree, hport⟩

/-- A port is found if and only if one of the range is not used; behind the last port of all comes port 0, which must be used then. -/
theorem chooses_iff (h : Asks env st inp nam laddr) :
    Chooses env st inp nam laddr ↔
      (∃ p, Ephemeral p ∧ Unused env st inp laddr p) ∧ (st.lport = 65535 → ¬Unused env st inp laddr 0) := by
  constructor
  · intro hchooses
    obtain ⟨port, hrange, hfree, hport⟩ := hchooses.unused h
    refine ⟨⟨port, hrange, hfree⟩, ?_⟩
    intro hlast hzero
    have hfirst : nextPort st.lport = 0 := by
      rw [hlast]
      decide
    rw [choosePort_first, hfirst, if_neg (by rw [taken_eq_false_iff.mpr hzero]; exact Bool.false_ne_true)] at hport
    obtain rfl := Option.some.inj hport
    exact absurd hrange.1 (by decide)
  · rintro ⟨⟨p, hp, hfree⟩, hlast⟩
    obtain ⟨port, hport⟩ := @choosePort_finds (taken env st inp laddr) st.lport p hp (taken_eq_false_iff.mpr hfree)
    refine ⟨_, none, by rw [inPcbbind_asks h, hport]; rfl, fun _ => ⟨?_, ?_, ?_⟩, fun hne => absurd rfl hne⟩
    · change Ephemeral port
      by_cases hfirst : st.lport = 65535
      · have hzero : nextPort st.lport = 0 := by
          rw [hfirst]
          decide
        have htaken : taken env st inp laddr 0 = true := by
          rw [← Bool.not_eq_false, taken_eq_false_iff]
          exact hlast hfirst
        rw [choosePort_first, hzero, if_pos htaken] at hport
        exact choosePort_ephemeral (by decide) hport
      · exact choosePort_ephemeral hfirst hport
    · exact taken_eq_false_iff.mp (choosePort_unused hport)
    · intro q hq hid
      obtain ⟨q', -, rfl⟩ := List.mem_map.mp hq
      dsimp only at hid ⊢
      split at hid
      next heq => rw [if_pos heq]; rfl
      next hne => exact absurd hid hne

end Search

theorem asks_any (st : Pcbs Nat) : Asks oneInterface st { id := 0 } none inaddrAny := ⟨nofun, ⟨rfl, rfl⟩, rfl⟩

/-- The first three ports of the range are bound. -/
def threeBound : Pcbs Nat where
  list := { id := 0 } :: [1024, 1025, 1026].map fun port => { id := port, lport := BitVec.ofNat 16 port }

theorem chooses_iff_threeBound : taken oneInterface threeBound { id := 0 } inaddrAny 1024 = true ∧
    choosePort (taken oneInterface threeBound { id := 0 } inaddrAny) 8 threeBound.lport = some 1027 ∧
    Chooses oneInterface threeBound { id := 0 } none inaddrAny :=
  ⟨by decide, by decide, (chooses_iff (asks_any threeBound)).mpr
    ⟨⟨1027, ⟨by decide, by decide⟩, taken_eq_false_iff.mp (by decide)⟩, fun hlast => absurd hlast (by decide)⟩⟩

/-- A control block for every port of the range, besides one without a port. -/
def allBound : Pcbs Nat where
  list := { id := 0 } :: (List.range 3977).map fun k => { id := k + 1, lport := BitVec.ofNat 16 (1024 + k) }

theorem not_unused_allBound {p : Port} (hp : Ephemeral p) : ¬Unused oneInterface allBound { id := 0 } inaddrAny p := by
  intro hunused
  have hvalues : ipportReserved = 1024 ∧ ipportUserreserved = 5000 := ⟨rfl, rfl⟩
  have hlow := hp.1
  have hhigh := hp.2
  have hmem : ({ id := p.toNat - 1024 + 1, lport := p } : Inpcb Nat) ∈ allBound.list := by
    apply List.mem_cons_of_mem
    refine List.mem_map.mpr ⟨p.toNat - 1024, List.mem_range.mpr (by omega), ?_⟩
    rw [Nat.add_sub_cancel' (by omega), BitVec.ofNat_toNat, BitVec.setWidth_eq]
  have hkept : ({ id := p.toNat - 1024 + 1, lport := p } : Inpcb Nat) ∈
      (allBound.modify 0 fun q => { q with laddr := inaddrAny }).list := by
    rw [list_modify]
    exact List.mem_map.mpr ⟨_, hmem, if_neg (Nat.succ_ne_zero _)⟩
  exact lport_ne_of_lookup hunused hkept rfl

/-- With all ports bound the search does not come to an end. -/
theorem search_forever :
    Asks oneInterface allBound { id := 0 } none inaddrAny ∧ ¬Chooses oneInterface allBound { id := 0 } none inaddrAny ∧
      ∀ fuel, choosePort (taken oneInterface allBound { id := 0 } inaddrAny) fuel allBound.lport = none := by
  refine ⟨asks_any allBound, ?_, ?_⟩
  · intro hchooses
    obtain ⟨p, hp, hunused, -⟩ := hchooses.unused (asks_any allBound)
    exact not_unused_allBound hp hunused
  · apply choosePort_forever
    cases hport : choosePort (taken oneInterface allBound { id := 0 } inaddrAny) (2 ^ 16) allBound.lport with
    | none => rfl
    | some p =>
      have hfree := taken_eq_false_iff.mp (choosePort_unused hport)
      exact absurd hfree (not_unused_allBound (choosePort_ephemeral (by decide) hport))

end Reading.Ip.Pcb
