import Reading.Ip.Fragment

/-!
# IP reassembly

`ipintr` for one packet, and `ip_reass`. The reassembly queues are the list from `ipq.next` on, and the fragments of a queue the list from `ipq_next` on; a search that stops at a fragment splits the list there. In a queue `ip_len` counts the data of a fragment, `ip_off` is its offset in bytes, both as a `short`, and the low bit of `ip_tos` is `ipf_mff`.

`m_cat` may move the data of an mbuf into the one before it; the chains are only linked here. `ip_dooptions` and the search for the address among those of the interfaces are parameters.
-/

namespace Reading.Ip

open Reading.Kern
open OnesSum

/-- What the fragments of a datagram share. -/
structure Key where
  ipqP : Byte
  ipqId : U16
  ipqSrc : U32
  ipqDst : U32
  deriving DecidableEq

def Header.key (ip : Header) : Key := ⟨ip.ipP, ip.ipId, ip.ipSrc, ip.ipDst⟩

/-- A fragment in a queue: its header with the options that follow it, and its data. -/
structure Frag where
  ip : Header
  opts : List Byte := []
  m : Mbuf
  deriving DecidableEq

def ipfragttl : Nat := 60

structure Ipq extends Key where
  ipqTtl : Nat := ipfragttl
  ipqNext : List Frag
  deriving DecidableEq

namespace Frag

def ipLen (f : Frag) : Int := f.ip.ipLen.toInt
def ipOff (f : Frag) : Int := f.ip.ipOff.toInt

/-- `ipf_mff & 1`. -/
def mff (f : Frag) : Prop := f.ip.ipTos &&& 1 ≠ 0

instance (f : Frag) : Decidable f.mff := inferInstanceAs (Decidable (_ ≠ _))

/-- Drop the first `i` bytes. -/
def trimHead (f : Frag) (i : Int) : Frag :=
  { f with
    m := mAdj f.m i
    ip := { f.ip with ipOff := f.ip.ipOff + BitVec.ofInt 16 i, ipLen := f.ip.ipLen - BitVec.ofInt 16 i } }

end Frag

/-- Trim the incoming fragment by what the preceding one provides; `none` if that is all of it. -/
def trimByPrev (prev? : Option Frag) (f : Frag) : Option Frag :=
  match prev? with
  | none => some f
  | some q =>
    let i := q.ipOff + q.ipLen - f.ipOff
    if i > 0 then if i ≥ f.ipLen then none else some (f.trimHead i)
    else some f

/-- Trim the succeeding fragments while `f` overlaps them, or dequeue those it covers. -/
def trimSucc (f : Frag) : List Frag → List Frag
  | [] => []
  | q :: qs =>
    if f.ipOff + f.ipLen > q.ipOff then
      let i := f.ipOff + f.ipLen - q.ipOff
      if i < q.ipLen then q.trimHead i :: qs
      else trimSucc f qs
    else q :: qs

/-- Stick a fragment in its place; `none` if the queue already holds all of it. -/
def insertFrag (frags : List Frag) (f : Frag) : Option (List Frag) :=
  let before := frags.takeWhile fun q => ¬ q.ipOff > f.ipOff
  let after := frags.dropWhile fun q => ¬ q.ipOff > f.ipOff
  (trimByPrev before.getLast? f).map fun f => before ++ f :: trimSucc f after

/-- The loop that checks for complete reassembly: `next` at its end. -/
def contiguous : Int → List Frag → Option Int
  | next, [] => some next
  | next, q :: qs => if q.ipOff ≠ next then none else contiguous (next + q.ipLen) qs

/-- Make the header with its options visible in front of a chain. -/
def showHeader (opts : List Byte) : List (List Byte) → List (List Byte)
  | [] => [opts]
  | m :: ms => (opts ++ m) :: ms

/-- Concatenate the fragments of a queue that is complete. -/
def concatFrags (fp : Ipq) : Option Packet := do
  let next ← contiguous 0 fp.ipqNext
  let last ← fp.ipqNext.getLast?
  if last.mff then none
  else
    let first ← fp.ipqNext.head?
    some
      { ip := { first.ip with
          ipLen := BitVec.ofInt 16 next, ipTos := first.ip.ipTos &&& ~~~1, ipSrc := fp.ipqSrc, ipDst := fp.ipqDst }
        m := { chain := showHeader first.opts (fp.ipqNext.flatMap fun f => f.m.chain) } }

/-- Put `new` in the place of the queue with the given key. -/
def replaceQ (key : Key) (new : Option Ipq) : List Ipq → List Ipq
  | [] => []
  | q :: qs => if q.toKey = key then new.toList ++ qs else q :: replaceQ key new qs

/-- Check for complete reassembly: what becomes of the queue, and the datagram. -/
def afterInsert (fp : Ipq) : Option Ipq × Option Packet :=
  match concatFrags fp with
  | none => (some fp, none)
  | some d => (none, some d)

/-- `ip_reass`; `room` says whether there is an mbuf for a new queue. -/
def ipReass (room : Bool) (ipq : List Ipq) (f : Frag) (fp : Option Ipq) : List Ipq × Option Packet :=
  match fp with
  | none =>
    if room then
      let (fp, d) := afterInsert { toKey := f.ip.key, ipqNext := [f] }
      (fp.toList ++ ipq, d)
    else (ipq, none)
  | some fp =>
    match insertFrag fp.ipqNext f with
    | none => (ipq, none)
    | some frags =>
      let (new, d) := afterInsert { fp with ipqNext := frags }
      (replaceQ fp.toKey new ipq, d)

structure Host where
  order : Order
  /-- The address is one of ours. -/
  ours : U32 → Bool
  /-- `none` if `ip_dooptions` returns 1. -/
  ipDooptions : Packet → Option Packet

/-- A packet on `ipintrq`, with the parity of the addresses of its mbufs, `M_EXT` of the first of them, and whether mbufs are available when it is processed. -/
structure Arrival where
  p : Packet
  odd : Nat → Bool
  ext : Bool := false
  room : Bool := true

/-- The part of `ipintr` up to `ours`. -/
def accept (host : Host) (a : Arrival) : Option Packet :=
  let hlen := a.p.ip.hlen
  let len := a.p.ip.ipLen.toInt
  if a.p.ip.ipV ≠ 4 then none
  else if hlen < 20 then none
  else if a.p.pktLen < hlen then none
  else if inCksum host.order (a.p.pieces a.odd) hlen ≠ 0 then none
  else if len < hlen then none
  else if a.p.pktLen < len then none
  else
    let m := if a.p.pktLen > len then mAdj a.p.m (len - a.p.pktLen) else a.p.m
    let p : Packet := ⟨{ a.p.ip with ipSum := 0 }, m⟩
    (if hlen > 20 then host.ipDooptions p else some p).filter fun p => host.ours p.ip.ipDst

/-- The header as `ip_reass` finds it. -/
def Header.asFrag (ip : Header) : Header :=
  { ip with
    ipLen := ip.ipLen - BitVec.ofNat 16 ip.hlen
    ipTos := if ip.ipOff &&& ipMf ≠ 0 then (ip.ipTos &&& ~~~1) ||| 1 else ip.ipTos &&& ~~~1
    ipOff := ip.ipOff <<< 3 }

/-- `m->m_data += hlen`: the header with its options is no part of the data. -/
def Packet.asFrag (p : Packet) : Frag where
  ip := p.ip.asFrag
  opts := p.m.bytes.take (p.ip.hlen - 20)
  m := { p.m with chain := adjHead p.m.chain (p.ip.hlen - 20) }

/-- From `ours` on. -/
def reassemble (a : Arrival) (ipq : List Ipq) (p : Packet) : List Ipq × Option Packet :=
  if p.ip.ipOff &&& ~~~ipDf ≠ 0 then
    if a.ext ∧ ¬ a.room then (ipq, none)
    else
      let fp := ipq.find? fun fp => fp.toKey = p.ip.key
      if p.asFrag.mff ∨ p.ip.asFrag.ipOff ≠ 0 then ipReass a.room ipq p.asFrag fp
      else (replaceQ p.ip.key none ipq, some { p with ip := p.ip.asFrag })
  else (ipq, some { p with ip := { p.ip with ipLen := p.ip.ipLen - BitVec.ofNat 16 p.ip.hlen } })

/-- `ipintr` for one packet: the queues, and the datagram passed to the protocol. -/
def ipintr (host : Host) (ipq : List Ipq) (a : Arrival) : List Ipq × Option Packet :=
  match accept host a with
  | none => (ipq, none)
  | some p => reassemble a ipq p

/-- The datagrams passed to the protocols as packets arrive. -/
def deliveries (host : Host) : List Ipq → List Arrival → List Packet
  | _, [] => []
  | ipq, a :: arrivals => (ipintr host ipq a).2.toList ++ deliveries host (ipintr host ipq a).1 arrivals

/-! ### The fragments of a queue -/

theorem trimByPrev_eq {prev? : Option Frag} {f f' : Frag} (h : trimByPrev prev? f = some f') :
    f' = f ∨ ∃ i, 0 < i ∧ i < f.ipLen ∧ f' = f.trimHead i := by
  unfold trimByPrev at h
  cases prev? with
  | none => exact .inl (Option.some.inj h).symm
  | some q =>
    dsimp only at h
    split at h
    · split at h
      · cases h
      · exact .inr ⟨_, by omega, by omega, (Option.some.inj h).symm⟩
    · exact .inl (Option.some.inj h).symm

theorem mem_trimSucc {f q : Frag} {qs : List Frag} (h : q ∈ trimSucc f qs) :
    q ∈ qs ∨ ∃ r ∈ qs, ∃ i, 0 < i ∧ i < r.ipLen ∧ q = r.trimHead i := by
  induction qs with
  | nil => cases h
  | cons r rs ih =>
    unfold trimSucc at h
    dsimp only at h
    split at h
    · split at h
      · rcases List.mem_cons.1 h with rfl | hmem
        · exact .inr ⟨r, List.mem_cons_self, _, by omega, by omega, rfl⟩
        · exact .inl (List.mem_cons_of_mem r hmem)
      · rcases ih h with hmem | ⟨x, hx, htrim⟩
        · exact .inl (List.mem_cons_of_mem r hmem)
        · exact .inr ⟨x, List.mem_cons_of_mem r hx, htrim⟩
    · exact .inl h

theorem insertFrag_forall {P : Frag → Prop} (htrim : ∀ f i, P f → 0 < i → i < f.ipLen → P (f.trimHead i))
    {frags frags' : List Frag} {f : Frag} (hfrags : ∀ q ∈ frags, P q) (hf : P f)
    (h : insertFrag frags f = some frags') : ∀ q ∈ frags', P q := by
  unfold insertFrag at h
  obtain ⟨f', hf', hvalue⟩ := Option.map_eq_some_iff.1 h
  have hnew : P f' := by
    rcases trimByPrev_eq hf' with rfl | ⟨i, hpos, hlt, rfl⟩
    · exact hf
    · exact htrim f i hf hpos hlt
  intro q hq
  rw [← hvalue, List.mem_append, List.mem_cons] at hq
  rcases hq with hbefore | rfl | hafter
  · exact hfrags q (List.takeWhile_subset _ hbefore)
  · exact hnew
  · rcases mem_trimSucc hafter with hmem | ⟨r, hr, i, hpos, hlt, rfl⟩
    · exact hfrags q (List.dropWhile_subset _ hmem)
    · exact htrim r i (hfrags r (List.dropWhile_subset _ hr)) hpos hlt

theorem insertFrag_ne_nil {frags frags' : List Frag} {f : Frag} (h : insertFrag frags f = some frags') : frags' ≠ [] := by
  unfold insertFrag at h
  obtain ⟨f', -, hvalue⟩ := Option.map_eq_some_iff.1 h
  rw [← hvalue]
  exact List.append_ne_nil_of_right_ne_nil _ (List.cons_ne_nil _ _)

/-- The place of a fragment between those that do not begin after it and those that do. -/
theorem split_at_frag {before after : List Frag} {f : Frag} (hbefore : ∀ q ∈ before, q.ipOff ≤ f.ipOff)
    (hafter : ∀ q ∈ after, f.ipOff < q.ipOff) :
    (before ++ after).takeWhile (fun q => ¬ q.ipOff > f.ipOff) = before ∧
      (before ++ after).dropWhile (fun q => ¬ q.ipOff > f.ipOff) = after := by
  have hpass : ∀ q ∈ before, decide (¬ q.ipOff > f.ipOff) = true := fun q hq =>
    decide_eq_true (by have := hbefore q hq; omega)
  rw [List.takeWhile_append_of_pos hpass, List.dropWhile_append_of_pos hpass]
  cases after with
  | nil => exact ⟨List.append_nil before, rfl⟩
  | cons q qs =>
    have hstop : ¬ decide (¬ q.ipOff > f.ipOff) = true := by
      have hlt := hafter q List.mem_cons_self
      rw [decide_eq_true_eq]
      omega
    rw [List.takeWhile_cons, List.dropWhile_cons, if_neg hstop, if_neg hstop]
    exact ⟨List.append_nil before, rfl⟩

theorem insertFrag_new {before after : List Frag} {f : Frag} (hlen : 0 < f.ipLen)
    (hbefore : ∀ q ∈ before, q.ipOff ≤ f.ipOff ∧ q.ipOff + q.ipLen ≤ f.ipOff)
    (hafter : ∀ q ∈ after, f.ipOff + f.ipLen ≤ q.ipOff) :
    insertFrag (before ++ after) f = some (before ++ f :: after) := by
  obtain ⟨htake, hdrop⟩ := @split_at_frag before after f (fun q hq => (hbefore q hq).1)
    (fun q hq => by have := hafter q hq; omega)
  have hprev : trimByPrev before.getLast? f = some f := by
    cases hlast : before.getLast? with
    | none => rfl
    | some q =>
      have hq := (hbefore q (List.mem_of_getLast? hlast)).2
      unfold trimByPrev
      dsimp only
      rw [if_neg (by omega)]
  have hsucc : trimSucc f after = after := by
    cases after with
    | nil => rfl
    | cons q qs =>
      have hq := hafter q List.mem_cons_self
      unfold trimSucc
      rw [if_neg (by omega)]
  unfold insertFrag
  dsimp only
  rw [htake, hdrop, hprev, Option.map_some, hsucc]

theorem insertFrag_duplicate {before after : List Frag} {q f : Frag} (hlen : 0 < f.ipLen)
    (hbefore : ∀ r ∈ before, r.ipOff ≤ f.ipOff) (hoff : q.ipOff = f.ipOff) (hsame : q.ipLen = f.ipLen)
    (hafter : ∀ r ∈ after, f.ipOff < r.ipOff) : insertFrag (before ++ q :: after) f = none := by
  have hbefore' : ∀ r ∈ before ++ [q], r.ipOff ≤ f.ipOff := by
    intro r hr
    rcases List.mem_append.1 hr with hr | hr
    · exact hbefore r hr
    · rw [List.mem_singleton.1 hr, hoff]
  obtain ⟨htake, hdrop⟩ := split_at_frag hbefore' hafter
  have hlist : before ++ q :: after = before ++ [q] ++ after := by simp
  have hprev : trimByPrev (some q) f = none := by
    unfold trimByPrev
    dsimp only
    rw [if_pos (by omega), if_pos (by omega)]
  unfold insertFrag
  dsimp only
  rw [hlist, htake, List.getLast?_concat, hprev, Option.map_none]

/-! ### The queues -/

theorem mem_replaceQ {key : Key} {new : Option Ipq} {ipq : List Ipq} {fp : Ipq} (h : fp ∈ replaceQ key new ipq) :
    fp ∈ new ∨ fp ∈ ipq := by
  induction ipq with
  | nil => exact .inr h
  | cons q qs ih =>
    unfold replaceQ at h
    split at h
    · rcases List.mem_append.1 h with hnew | hmem
      · exact .inl (Option.mem_toList.1 hnew)
      · exact .inr (List.mem_cons_of_mem q hmem)
    · rcases List.mem_cons.1 h with rfl | hmem
      · exact .inr List.mem_cons_self
      · exact (ih hmem).imp_right (List.mem_cons_of_mem q)

variable {κ : Key} {ipq : List Ipq}

theorem filter_replaceQ_of_ne {key : Key} (hne : key ≠ κ) {new : Option Ipq} (hnew : ∀ fp ∈ new, fp.toKey = key) :
    (replaceQ key new ipq).filter (fun fp => fp.toKey = κ) = ipq.filter fun fp => fp.toKey = κ := by
  induction ipq with
  | nil => rfl
  | cons q qs ih =>
    unfold replaceQ
    split
    · next hkey =>
      have hq : ¬ decide (q.toKey = κ) = true := by
        rw [decide_eq_true_eq, hkey]
        exact hne
      have hnone : new.toList.filter (fun fp => fp.toKey = κ) = [] := by
        rw [List.filter_eq_nil_iff]
        intro fp hfp
        rw [decide_eq_true_eq, hnew fp (Option.mem_toList.1 hfp)]
        exact hne
      rw [List.filter_append, hnone, List.nil_append, List.filter_cons, if_neg hq]
    · rw [List.filter_cons, List.filter_cons, ih]

theorem filter_replaceQ_self {new : Option Ipq} (hnew : ∀ fp ∈ new, fp.toKey = κ) {fp : Ipq} {rest : List Ipq}
    (h : ipq.filter (fun fp => fp.toKey = κ) = fp :: rest) :
    (replaceQ κ new ipq).filter (fun fp => fp.toKey = κ) = new.toList ++ rest := by
  have hall : new.toList.filter (fun fp => fp.toKey = κ) = new.toList := by
    rw [List.filter_eq_self]
    intro fp hfp
    exact decide_eq_true (hnew fp (Option.mem_toList.1 hfp))
  induction ipq with
  | nil => cases h
  | cons q qs ih =>
    unfold replaceQ
    by_cases hkey : q.toKey = κ
    · rw [if_pos hkey, List.filter_append, hall]
      rw [List.filter_cons, if_pos (decide_eq_true hkey)] at h
      rw [(List.cons.inj h).2]
    · have hq : ¬ decide (q.toKey = κ) = true := by simpa using hkey
      rw [List.filter_cons, if_neg hq] at h
      rw [if_neg hkey, List.filter_cons, if_neg hq, ih h]

/-- The fragments held for a datagram are those of its one queue; with none there is no queue. -/
def Held (κ : Key) (ipq : List Ipq) (frags : List Frag) : Prop :=
  (ipq.filter fun fp => fp.toKey = κ) = if frags = [] then [] else [{ toKey := κ, ipqNext := frags }]

theorem Held.find? {frags : List Frag} (h : Held κ ipq frags) :
    (ipq.find? fun fp => fp.toKey = κ) = if frags = [] then none else some { toKey := κ, ipqNext := frags } := by
  rw [← List.head?_filter, h]
  split <;> rfl

/-- What `ip_reass` makes of the fragments it holds and another one. -/
def absorb (κ : Key) (frags : List Frag) (f : Frag) : List Frag × Option Packet :=
  match insertFrag frags f with
  | none => (frags, none)
  | some frags =>
    match concatFrags { toKey := κ, ipqNext := frags } with
    | none => (frags, none)
    | some d => ([], some d)

theorem afterInsert_fst (fp : Ipq) : ∀ new ∈ (afterInsert fp).1, new = fp := by
  intro new hnew
  unfold afterInsert at hnew
  cases h : concatFrags fp with
  | none =>
    rw [h] at hnew
    exact (Option.some.inj hnew).symm
  | some d =>
    rw [h] at hnew
    cases hnew

/-- The check after an insertion, as `absorb` has it. -/
theorem afterInsert_held {frags : List Frag} (hne : frags ≠ []) :
    let out := match concatFrags { toKey := κ, ipqNext := frags } with
      | none => (frags, none)
      | some d => (([] : List Frag), some d)
    (afterInsert { toKey := κ, ipqNext := frags }).2 = out.2 ∧
      (afterInsert { toKey := κ, ipqNext := frags }).1.toList = if out.1 = [] then [] else [{ toKey := κ, ipqNext := out.1 }] := by
  unfold afterInsert
  cases concatFrags { toKey := κ, ipqNext := frags } with
  | none =>
    refine ⟨rfl, ?_⟩
    rw [if_neg hne]
    rfl
  | some d => exact ⟨rfl, rfl⟩

theorem ipReass_held {frags : List Frag} {f : Frag} (hheld : Held κ ipq frags) (hkey : f.ip.key = κ) :
    Held κ (ipReass true ipq f (ipq.find? fun fp => fp.toKey = κ)).1 (absorb κ frags f).1 ∧
      (ipReass true ipq f (ipq.find? fun fp => fp.toKey = κ)).2 = (absorb κ frags f).2 := by
  rw [hheld.find?]
  by_cases hempty : frags = []
  · subst hempty
    have hinsert : insertFrag [] f = some [f] := rfl
    obtain ⟨hout, hlist⟩ := @afterInsert_held κ [f] (List.cons_ne_nil f [])
    unfold absorb ipReass
    rw [if_pos rfl, hinsert]
    dsimp only
    rw [if_pos rfl, hkey]
    refine ⟨?_, hout⟩
    have hsame : (afterInsert { toKey := κ, ipqNext := [f] }).1.toList.filter (fun fp => fp.toKey = κ) =
        (afterInsert { toKey := κ, ipqNext := [f] }).1.toList := by
      rw [List.filter_eq_self]
      intro fp hfp
      rw [afterInsert_fst _ fp (Option.mem_toList.1 hfp)]
      exact decide_eq_true rfl
    unfold Held
    rw [List.filter_append, hsame, hheld, if_pos rfl, List.append_nil]
    exact hlist
  · unfold absorb ipReass
    rw [if_neg hempty]
    dsimp only
    cases hinsert : insertFrag frags f with
    | none => exact ⟨hheld, rfl⟩
    | some all =>
      obtain ⟨hout, hlist⟩ := @afterInsert_held κ all (insertFrag_ne_nil hinsert)
      refine ⟨?_, hout⟩
      have hkeys : ∀ fp ∈ (afterInsert { toKey := κ, ipqNext := all }).1, fp.toKey = κ := fun fp hfp => by
        rw [afterInsert_fst _ fp hfp]
      have hview := hheld
      unfold Held at hview
      rw [if_neg hempty] at hview
      unfold Held
      dsimp only
      rw [filter_replaceQ_self hkeys hview, List.append_nil]
      exact hlist

/-- A queue is complete when its fragments follow one another and the last is not marked. -/
theorem concatFrags_eq_some {fp : Ipq} {d : Packet} (h : concatFrags fp = some d) :
    ∃ next first last, contiguous 0 fp.ipqNext = some next ∧ fp.ipqNext.head? = some first ∧
      fp.ipqNext.getLast? = some last ∧ ¬ last.mff ∧
      d = { ip := { first.ip with
              ipLen := BitVec.ofInt 16 next, ipTos := first.ip.ipTos &&& ~~~1, ipSrc := fp.ipqSrc, ipDst := fp.ipqDst }
            m := { chain := showHeader first.opts (fp.ipqNext.flatMap fun f => f.m.chain) } } := by
  unfold concatFrags at h
  obtain ⟨next, hnext, h⟩ := Option.bind_eq_some_iff.1 h
  obtain ⟨last, hlast, h⟩ := Option.bind_eq_some_iff.1 h
  by_cases hmff : last.mff
  · rw [if_pos hmff] at h
    cases h
  · rw [if_neg hmff] at h
    obtain ⟨first, hfirst, h⟩ := Option.bind_eq_some_iff.1 h
    exact ⟨next, first, last, hnext, hfirst, hlast, hmff, (Option.some.inj h).symm⟩

/-- The fragments of a queue have its identification and protocol. -/
def Ipq.Keyed (fp : Ipq) : Prop := ∀ f ∈ fp.ipqNext, f.ip.ipId = fp.ipqId ∧ f.ip.ipP = fp.ipqP

theorem Ipq.Keyed.concatFrags {fp : Ipq} (h : fp.Keyed) {d : Packet} (hd : concatFrags fp = some d) :
    d.ip.key = fp.toKey := by
  obtain ⟨next, first, last, -, hfirst, -, -, rfl⟩ := concatFrags_eq_some hd
  obtain ⟨hid, hp⟩ := h first (List.mem_of_head? hfirst)
  show Key.mk first.ip.ipP first.ip.ipId fp.ipqSrc fp.ipqDst = fp.toKey
  rw [hid, hp]

theorem afterInsert_key {fp : Ipq} (h : fp.Keyed) : ∀ d ∈ (afterInsert fp).2, d.ip.key = fp.toKey := by
  intro d hd
  unfold afterInsert at hd
  cases hconcat : Ip.concatFrags fp with
  | none =>
    rw [hconcat] at hd
    cases hd
  | some d' =>
    rw [hconcat] at hd
    obtain rfl : d' = d := Option.some.inj hd
    exact h.concatFrags hconcat

/-- A step for the datagram `key`: what comes out belongs to it, and only its queue has changed. -/
structure OnlyFor (key : Key) (ipq : List Ipq) (out : List Ipq × Option Packet) : Prop where
  keyed : ∀ fp ∈ out.1, fp.Keyed
  delivered : ∀ d ∈ out.2, d.ip.key = key
  other : ∀ κ, key ≠ κ → out.1.filter (fun fp => fp.toKey = κ) = ipq.filter fun fp => fp.toKey = κ

theorem OnlyFor.refl {key : Key} (hkeyed : ∀ fp ∈ ipq, fp.Keyed) : OnlyFor key ipq (ipq, none) where
  keyed := hkeyed
  delivered d hd := by cases hd
  other κ _ := rfl

theorem OnlyFor.replaceQ {key : Key} (hkeyed : ∀ fp ∈ ipq, fp.Keyed) {new : Option Ipq} {d : Option Packet}
    (hnew : ∀ fp ∈ new, fp.toKey = key ∧ fp.Keyed) (hd : ∀ d' ∈ d, d'.ip.key = key) :
    OnlyFor key ipq (replaceQ key new ipq, d) where
  keyed fp hfp := by
    rcases mem_replaceQ hfp with hmem | hmem
    · exact (hnew fp hmem).2
    · exact hkeyed fp hmem
  delivered := hd
  other κ hne := filter_replaceQ_of_ne hne fun fp hfp => (hnew fp hfp).1

theorem OnlyFor.ipReass (hkeyed : ∀ fp ∈ ipq, fp.Keyed) (room : Bool) (f : Frag) :
    OnlyFor f.ip.key ipq (ipReass room ipq f (ipq.find? fun fp => fp.toKey = f.ip.key)) := by
  unfold Ip.ipReass
  cases hfind : ipq.find? fun fp => fp.toKey = f.ip.key with
  | none =>
    cases room with
    | false => exact .refl hkeyed
    | true =>
      obtain ⟨fp, hfp⟩ : ∃ fp : Ipq, fp = { toKey := f.ip.key, ipqNext := [f] } := ⟨_, rfl⟩
      have hnew : fp.Keyed := by
        intro q hq
        rw [hfp] at hq ⊢
        rw [List.mem_singleton.1 hq]
        exact ⟨rfl, rfl⟩
      dsimp only
      rw [if_pos rfl, ← hfp]
      refine ⟨fun q hq => ?_, fun d hd => ?_, fun κ hne => ?_⟩
      · rcases List.mem_append.1 hq with hq | hq
        · rw [afterInsert_fst fp q (Option.mem_toList.1 hq)]
          exact hnew
        · exact hkeyed q hq
      · rw [afterInsert_key hnew d hd, hfp]
      · have hnone : (afterInsert fp).1.toList.filter (fun fp => fp.toKey = κ) = [] := by
          rw [List.filter_eq_nil_iff]
          intro q hq
          rw [afterInsert_fst fp q (Option.mem_toList.1 hq), decide_eq_true_eq, hfp]
          exact hne
        rw [List.filter_append, hnone, List.nil_append]
  | some fp =>
    have hmem := List.mem_of_find?_eq_some hfind
    have hkey : fp.toKey = f.ip.key := by simpa using List.find?_some hfind
    dsimp only
    cases hinsert : insertFrag fp.ipqNext f with
    | none => exact .refl hkeyed
    | some frags =>
      have hnew : Ipq.Keyed { fp with ipqNext := frags } := by
        refine insertFrag_forall (fun _ _ h _ _ => h) (hkeyed fp hmem) ?_ hinsert
        rw [hkey]
        exact ⟨rfl, rfl⟩
      dsimp only
      rw [hkey]
      refine .replaceQ hkeyed (fun q hq => ?_) fun d hd => ?_
      · rw [afterInsert_fst _ q hq]
        exact ⟨rfl, hkey ▸ hnew⟩
      · rw [afterInsert_key (hkey ▸ hnew) d hd]

/-- A packet that reached `ours`. -/
theorem OnlyFor.reassemble (hkeyed : ∀ fp ∈ ipq, fp.Keyed) (a : Arrival) (p : Packet) :
    OnlyFor p.ip.key ipq (reassemble a ipq p) := by
  unfold Ip.reassemble
  split
  · split
    · exact .refl hkeyed
    · dsimp only
      split
      · exact .ipReass hkeyed a.room p.asFrag
      · refine .replaceQ hkeyed (fun fp hfp => nomatch hfp) fun d hd => ?_
        obtain rfl := Option.some.inj hd
        rfl
  · refine ⟨hkeyed, fun d hd => ?_, fun κ _ => rfl⟩
    obtain rfl := Option.some.inj hd
    rfl

end Reading.Ip
