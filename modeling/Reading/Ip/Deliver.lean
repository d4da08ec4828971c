import Reading.Lib.Intervals
import Reading.Ip.Intr
import Reading.Kern.Split

/-!
# The mbufs of a datagram that is reassembled

`ipintr` on mbufs up to the call of `pr_input`. The length of the header that is passed there is that of the packet that has arrived last, and the header that is delivered is the one of the fragment at byte 0.

Where `m_len` would become negative the rest is not followed, and there is no result.
-/

namespace Reading.Ip

open Reading.Kern Reading.Lib.Interval
open Cl (Mb Pool bytes)

/-- A fragment in its mbufs: its header, the bytes of the first mbuf from the header up to `m_data`, and the mbufs from there on. -/
structure MFrag (C : Type) where
  ip : Header
  before : List Byte
  m : Mb C
  ms : List (Mb C)

structure MIpq (C : Type) extends Key where
  ipqTtl : Nat := ipfragttl
  ipqNext : List (MFrag C)

variable {C : Type} [DecidableEq C]

namespace MFrag

def ipOff (f : MFrag C) : Int := f.ip.ipOff.toInt
def ipLen (f : MFrag C) : Int := f.ip.ipLen.toInt

/-- `ipf_mff & 1`. -/
def mff (f : MFrag C) : Prop := f.ip.ipTos &&& 1 ≠ 0

instance (f : MFrag C) : Decidable f.mff := inferInstanceAs (Decidable (_ ≠ _))

/-- Drop the first `i` bytes. `m_data` moves away from the header unless the first mbuf has no more than these. -/
def trimHead (f : MFrag C) (i : Int) : MFrag C :=
  match Cl.mAdj (f.m :: f.ms) i with
  | none | some [] => f
  | some (m :: ms) =>
    { ip := { f.ip with ipOff := f.ip.ipOff + BitVec.ofInt 16 i, ipLen := f.ip.ipLen - BitVec.ofInt 16 i }
      before := if i < f.m.len then f.before ++ f.m.data.take i.toNat else f.before
      m := m
      ms := ms }

def ops : Ops (MFrag C) := ⟨ipOff, ipLen, trimHead⟩

def free (p : Pool C) (f : MFrag C) : Pool C := Cl.mFreem p (f.m :: f.ms)

/-- Trim the succeeding fragments while `f` overlaps them, or dequeue those it covers. -/
def trimSucc (f : MFrag C) : Pool C → List (MFrag C) → Pool C × List (MFrag C)
  | p, [] => (p, [])
  | p, q :: qs =>
    if f.ipOff + f.ipLen > q.ipOff then
      let i := f.ipOff + f.ipLen - q.ipOff
      if i < q.ipLen then (p, q.trimHead i :: qs) else trimSucc f (q.free p) qs
    else (p, q :: qs)

/-- Stick a fragment in its place, or drop it if the queue already holds all of it. -/
def insert (p : Pool C) (frags : List (MFrag C)) (f : MFrag C) : Pool C × Option (List (MFrag C)) :=
  let before := frags.takeWhile fun q => ¬ q.ipOff > f.ipOff
  let after := frags.dropWhile fun q => ¬ q.ipOff > f.ipOff
  match ops.trimByPrev before.getLast? f with
  | none => (f.free p, none)
  | some f =>
    let (p, after) := trimSucc f p after
    (p, some (before ++ f :: after))

/-- `m_cat` for the fragments behind the first. -/
def catAll : Pool C → List (Mb C) → List (MFrag C) → Option (Pool C × List (Mb C))
  | p, ms, [] => some (p, ms)
  | p, ms, q :: qs => do
    let (p, ms) ← Cl.mCat p ms (q.m :: q.ms)
    catAll p ms qs

/-- Make the header visible: the `ip_hl << 2` bytes before `m_data`. -/
def showHeader (ip : Header) (before : List Byte) (m : Mb C) : Mb C :=
  let before := ip.bytes ++ before.drop 20
  { m with data := before.drop (before.length - ip.hlen) ++ m.data, off := m.off - ip.hlen }

/-- Concatenate the fragments, whose first is `f`, and modify its header. -/
def concat (p : Pool C) (κ : Key) (next : Int) (f : MFrag C) (frags : List (MFrag C)) : Option (Pool C × Mb C × List (Mb C)) := do
  let (p, ms) ← Cl.mCat p [f.m] f.ms
  let (p, ms) ← catAll p ms frags
  match ms with
  | [] => none
  | m :: ms =>
    let m := showHeader { f.ip with
      ipLen := BitVec.ofInt 16 next, ipTos := f.ip.ipTos &&& ~~~1, ipSrc := κ.ipqSrc, ipDst := κ.ipqDst } f.before m
    some (p, { m with pkthdr := m.pkthdr.map fun h => { h with len := (bytes (m :: ms)).length } }, ms)

end MFrag

/-! ### `ip_reass` and `ipintr` -/

/-- Put `new` in the place of the queue with the given key. -/
def replaceMq (key : Key) (new : Option (MIpq C)) : List (MIpq C) → List (MIpq C)
  | [] => []
  | q :: qs => if q.toKey = key then new.toList ++ qs else q :: replaceMq key new qs

/-- Where a call ends: the queues, and the length of the header and the mbufs that are passed to the protocol. -/
structure Outcome (C : Type) where
  pool : Pool C
  ipq : List (MIpq C)
  out : Option (Nat × Mb C × List (Mb C)) := none

/-- The check for complete reassembly, with the queue that has the fragments, given how the queues are with it and without it. -/
def checkComplete (hlen : Nat) (p : Pool C) (fp : MIpq C) (place : Option (MIpq C) → List (MIpq C)) : Option (Outcome C) :=
  match MFrag.ops.contiguous 0 fp.ipqNext, fp.ipqNext with
  | some next, f :: frags =>
    if (frags.getLast?.getD f).mff then some { pool := p, ipq := place (some fp) }
    else do
      let (p, m, ms) ← MFrag.concat p fp.toKey next f frags
      some { pool := p, ipq := place none, out := some (hlen, m, ms) }
  | _, _ => some { pool := p, ipq := place (some fp) }

/-- `ip_reass`, for a header that is in the first mbuf. -/
def ipReassM (room : Bool) (hlen : Nat) (p : Pool C) (ipq : List (MIpq C)) (f : MFrag C) (fp : Option (MIpq C)) : Option (Outcome C) :=
  match fp with
  | none =>
    if room then checkComplete hlen p { toKey := f.ip.key, ipqNext := [f] } fun fp => fp.toList ++ ipq
    else some { pool := f.free p, ipq := ipq }
  | some fp =>
    match MFrag.insert p fp.ipqNext f with
    | (p, none) => some { pool := p, ipq := ipq }
    | (p, some frags) => checkComplete hlen p { fp with ipqNext := frags } fun fp' => replaceMq fp.toKey fp' ipq

/-- `ip_freef`. -/
def freeQueue (p : Pool C) (fp : Option (MIpq C)) : Pool C :=
  fp.elim p fun fp => fp.ipqNext.foldl (fun p f => f.free p) p

/-- The header is changed where it is. -/
def setHeader (ip : Header) (m : Mb C) : Mb C := { m with data := ip.bytes ++ m.data.drop 20 }

/-- `ipintr` for one packet. -/
def ipintrM (k : Kernel) (p : Pool C) (ipq : List (MIpq C)) (a : Inbound C) : Option (Outcome C) :=
  match received k p a with
  | .error none => none
  | .error (some p) => some { pool := p, ipq := ipq }
  | .ok (hlen, p, m, ms) =>
    let ip := Header.ofBytes m.data
    if ip.ipOff &&& ~~~ipDf ≠ 0 then
      let fp := ipq.find? fun fp => fp.toKey = ip.key
      let m := setHeader ip.asFrag m
      if ip.asFrag.ipTos &&& 1 ≠ 0 ∨ ip.asFrag.ipOff ≠ 0 then
        if m.len < hlen then none
        else ipReassM a.forQueue hlen p ipq { ip := ip.asFrag, before := m.data.take hlen, m := stripHeader hlen m, ms := ms } fp
      else some { pool := freeQueue p fp, ipq := replaceMq ip.key none ipq, out := some (hlen, m, ms) }
    else some { pool := p, ipq := ipq, out := some (hlen, setHeader { ip with ipLen := ip.ipLen - BitVec.ofNat 16 hlen } m, ms) }

/-! ### The header of the datagram -/

section Header

variable {p p' : Pool C} {f q : MFrag C} {frags all : List (MFrag C)} {ipq : List (MIpq C)} {hlen : Nat} {o : Outcome C}

/-- All of the header is in front of `m_data`. -/
structure MFrag.Shown (f : MFrag C) : Prop where
  fixed : 20 ≤ f.ip.hlen
  before : f.before.length = f.ip.hlen

omit [DecidableEq C] in
/-- The header is in the first mbuf, and the length is its own. -/
def HasHeader (hlen : Nat) (m : Mb C) : Prop := (Header.ofBytes m.data).hlen = hlen ∧ hlen ≤ m.len

omit [DecidableEq C] in
theorem hasHeader_bytes (ip : Header) (m : Mb C) (rest : List Byte) (hdata : m.data = ip.bytes ++ rest) (hlen : ip.hlen ≤ 20 + rest.length) :
    HasHeader ip.hlen m := by
  refine ⟨?_, ?_⟩
  · rw [hdata, Header.ofBytes_bytes]
  · rw [Mb.len, hdata, List.length_append, Header.length_bytes]
    exact hlen

theorem MFrag.trimSucc_snd (f : MFrag C) (p : Pool C) (frags : List (MFrag C)) : (trimSucc f p frags).2 = ops.trimSucc f frags := by
  induction frags generalizing p with
  | nil => rfl
  | cons q qs ih =>
    change _ = if f.ipOff + f.ipLen > q.ipOff then
      (if f.ipOff + f.ipLen - q.ipOff < q.ipLen then q.trimHead (f.ipOff + f.ipLen - q.ipOff) :: qs else ops.trimSucc f qs)
      else q :: qs
    rw [trimSucc]
    by_cases hover : f.ipOff + f.ipLen > q.ipOff
    · rw [if_pos hover, if_pos hover]
      by_cases hcut : f.ipOff + f.ipLen - q.ipOff < q.ipLen
      · rw [if_pos hcut, if_pos hcut]
      · rw [if_neg hcut, if_neg hcut, ih]
    · rw [if_neg hover, if_neg hover]

theorem MFrag.insert_snd (p : Pool C) (frags : List (MFrag C)) (f : MFrag C) : (insert p frags f).2 = ops.insert frags f := by
  unfold insert Ops.insert
  dsimp only
  change _ = Option.map _ (ops.trimByPrev (frags.takeWhile fun q => ¬ q.ipOff > f.ipOff).getLast? f)
  cases ops.trimByPrev (frags.takeWhile fun q => ¬ q.ipOff > f.ipOff).getLast? f with
  | none => rfl
  | some f' =>
    dsimp only
    rw [Option.map_some, ← trimSucc_snd f' p]
    rfl

/-- The header that is shown is that of the first fragment. -/
theorem MFrag.Shown.concat (h : f.Shown) {κ : Key} {next : Int} {m : Mb C} {ms : List (Mb C)}
    (hconcat : MFrag.concat p κ next f frags = some (p', m, ms)) : HasHeader f.ip.hlen m := by
  unfold MFrag.concat at hconcat
  obtain ⟨⟨p₁, ms₁⟩, -, hconcat⟩ := Option.bind_eq_some_iff.mp hconcat
  obtain ⟨⟨p₂, ms₂⟩, -, hconcat⟩ := Option.bind_eq_some_iff.mp hconcat
  cases ms₂ with
  | nil => cases hconcat
  | cons m₂ ms₂ =>
    obtain ⟨-, hm⟩ := Prod.mk.inj (Option.some.inj hconcat)
    obtain ⟨rfl, -⟩ := Prod.mk.inj hm
    obtain ⟨ip, hip⟩ : ∃ ip : Header, ip = { f.ip with
      ipLen := BitVec.ofInt 16 next, ipTos := f.ip.ipTos &&& ~~~1, ipSrc := κ.ipqSrc, ipDst := κ.ipqDst } := ⟨_, rfl⟩
    have hhlen : ip.hlen = f.ip.hlen := by rw [hip]; rfl
    have hfixed := h.fixed
    have hlength : (ip.bytes ++ f.before.drop 20).length = ip.hlen := by
      rw [List.length_append, Header.length_bytes, List.length_drop, h.before, hhlen]
      omega
    rw [← hhlen]
    apply hasHeader_bytes ip _ (f.before.drop 20 ++ m₂.data)
    · change (showHeader _ f.before m₂).data = _
      rw [← hip, showHeader]
      dsimp only
      rw [hlength, Nat.sub_self, List.drop_zero, List.append_assoc]
    · rw [List.length_append, List.length_drop, h.before, hhlen]
      omega

/-- The first fragment of every queue has its header in front of it: it has never been cut. -/
def AllShown (ipq : List (MIpq C)) : Prop := ∀ fp ∈ ipq, ∀ q ∈ fp.ipqNext.head?, q.Shown

omit [DecidableEq C] in
theorem AllShown.replaceMq {key : Key} {new : Option (MIpq C)} (h : AllShown ipq) (hnew : AllShown new.toList) :
    AllShown (replaceMq key new ipq) := by
  induction ipq with
  | nil => exact nofun
  | cons q qs ih =>
    have hqs : AllShown qs := fun fp hfp => h fp (List.mem_cons_of_mem _ hfp)
    rw [Ip.replaceMq]
    split
    · intro fp hfp
      rcases List.mem_append.mp hfp with hfp | hfp
      · exact hnew fp hfp
      · exact hqs fp hfp
    · intro fp hfp
      rcases List.mem_cons.mp hfp with rfl | hfp
      · exact h fp List.mem_cons_self
      · exact ih hqs fp hfp

/-- The fragments are a whole datagram. -/
def MFrag.Complete (frags : List (MFrag C)) : Prop :=
  (MFrag.ops.contiguous 0 frags).isSome ∧ ∀ q ∈ frags.getLast?, ¬ q.mff

/-- A datagram is delivered with the header of the first fragment of its queue, which is at byte 0. -/
theorem checkComplete_spec {fp : MIpq C} {place : Option (MIpq C) → List (MIpq C)} (hfp : ∀ q ∈ fp.ipqNext.head?, q.Shown)
    (hplace : ∀ new : Option (MIpq C), AllShown new.toList → AllShown (place new)) (h : checkComplete hlen p fp place = some o) :
    AllShown o.ipq ∧ ∀ out ∈ o.out, out.1 = hlen ∧ MFrag.Complete fp.ipqNext ∧
      ∃ q ∈ fp.ipqNext.head?, q.ipOff = 0 ∧ HasHeader q.ip.hlen out.2.1 := by
  have hkept : AllShown (place (some fp)) := hplace _ fun x hx => List.mem_singleton.mp hx ▸ hfp
  unfold checkComplete at h
  split at h
  next next f frags hcontiguous hfrags =>
    split at h
    · cases h
      exact ⟨hkept, nofun⟩
    next hmff =>
      obtain ⟨⟨p₁, m, ms⟩, hconcat, h⟩ := Option.bind_eq_some_iff.mp h
      cases h
      rw [hfrags] at hfp hcontiguous ⊢
      refine ⟨hplace none nofun, fun out hout => ?_⟩
      obtain rfl := Option.some.inj hout
      have hlast : ∀ q ∈ (f :: frags).getLast?, ¬ q.mff := by
        intro q hq
        rw [List.getLast?_cons] at hq
        obtain rfl := Option.some.inj hq
        exact hmff
      refine ⟨rfl, ⟨Option.isSome_iff_exists.mpr ⟨next, hcontiguous⟩, hlast⟩, f, rfl, ?_, (hfp f rfl).concat hconcat⟩
      rw [Ops.contiguous] at hcontiguous
      split at hcontiguous
      · cases hcontiguous
      next hzero => exact not_ne_iff.mp hzero
  · cases h
    exact ⟨hkept, nofun⟩

/-- `f` completes the datagram of the queue. -/
def MIpq.CompletedBy (fp : MIpq C) (f : MFrag C) : Prop := ∃ all, MFrag.ops.insert fp.ipqNext f = some all ∧ MFrag.Complete all

/-- `ip_reass` passes the right length on if the first fragment of a queue that is completed, should it be at byte 0, has a header as long as that of the new one. -/
theorem ipReassM_spec {fp : Option (MIpq C)} {room : Bool} (hall : AllShown ipq) (hfp : ∀ x ∈ fp, x ∈ ipq) (hf : f.Shown)
    (hlenf : f.ip.hlen = hlen) (hsame : ∀ x ∈ fp, x.CompletedBy f → ∀ q ∈ x.ipqNext.head?, q.ipOff = 0 → q.ip.hlen = hlen)
    (h : ipReassM room hlen p ipq f fp = some o) : AllShown o.ipq ∧ ∀ out ∈ o.out, HasHeader out.1 out.2.1 := by
  unfold ipReassM at h
  cases fp with
  | none =>
    dsimp only at h
    split at h
    · obtain ⟨hkept, hout⟩ := checkComplete_spec (fun q hq => by obtain rfl := Option.some.inj hq; exact hf)
        (fun new hnew x hx => (List.mem_append.mp hx).elim (hnew x) (hall x)) h
      refine ⟨hkept, fun out hmem => ?_⟩
      obtain ⟨hfst, -, q, hq, -, hheader⟩ := hout out hmem
      obtain rfl := Option.some.inj hq
      rwa [hfst, ← hlenf]
    · cases h
      exact ⟨hall, fun _ h => absurd h (Option.not_mem_none _)⟩
  | some fp =>
    dsimp only at h
    have hhead := hall fp (hfp fp rfl)
    split at h
    · cases h
      exact ⟨hall, nofun⟩
    next p₁ all hinsert =>
      have hins : MFrag.ops.insert fp.ipqNext f = some all := by rw [← MFrag.insert_snd p, hinsert]
      have hfirst := insert_head? hins
      have hshown : ∀ q ∈ all.head?, q.Shown := by
        intro q hq
        rcases hfirst with hold | hnew
        · exact hhead q (hold ▸ hq)
        · obtain rfl := Option.some.inj (hnew.symm.trans hq)
          exact hf
      obtain ⟨hkept, hout⟩ := checkComplete_spec hshown (fun new hnew => hall.replaceMq hnew) h
      refine ⟨hkept, fun out hmem => ?_⟩
      obtain ⟨hfst, hcomplete, q, hq, hzero, hheader⟩ := hout out hmem
      have hlenq : q.ip.hlen = hlen := by
        rcases hfirst with hold | hnew
        · exact hsame fp rfl ⟨all, hins, hcomplete⟩ q (hold ▸ hq) hzero
        · obtain rfl := Option.some.inj (hnew.symm.trans hq)
          exact hlenf
      rwa [hfst, ← hlenq]

end Header

/-! ### Runs -/

section Runs

variable (k : Kernel)

/-- The fragment that `ipintr` gives to `ip_reass`. -/
def MFrag.received (hlen : Nat) (m : Mb C) (ms : List (Mb C)) : MFrag C :=
  let ip := (Header.ofBytes m.data).asFrag
  { ip := ip, before := (setHeader ip m).data.take hlen, m := stripHeader hlen (setHeader ip m), ms := ms }

/-- The packet may be given to `ipintr`: if it is a fragment all of its header gets into the first mbuf, and if it completes a datagram the first fragment of the queue has a header of that length if it is at byte 0. -/
structure Uniform (p : Pool C) (ipq : List (MIpq C)) (a : Inbound C) : Prop where
  shallow : ∀ hlen p' m ms, received k p a = .ok (hlen, p', m, ms) → (Header.ofBytes m.data).ipOff &&& ~~~ipDf ≠ 0 →
    a.Shallow k.maxProtohdr
  same : ∀ hlen p' m ms, received k p a = .ok (hlen, p', m, ms) → ∀ fp, (ipq.find? fun fp => fp.toKey = (Header.ofBytes m.data).key) = some fp →
    fp.CompletedBy (.received hlen m ms) → ∀ q ∈ fp.ipqNext.head?, q.ipOff = 0 → q.ip.hlen = hlen

/-- The queues as packets arrive; any of them may be given up. -/
inductive Arrivals : Pool C → List (MIpq C) → Prop where
  | start (p : Pool C) : Arrivals p []
  | packet {p : Pool C} {ipq : List (MIpq C)} {a : Inbound C} {o : Outcome C} : Arrivals p ipq → a.Sound → Uniform k p ipq a →
      ipintrM k p ipq a = some o → Arrivals o.pool o.ipq
  | other {p p' : Pool C} {ipq ipq' : List (MIpq C)} : Arrivals p ipq → ipq' ⊆ ipq → Arrivals p' ipq'

variable {k}

theorem ipintrM_spec {p : Pool C} {ipq : List (MIpq C)} {a : Inbound C} {o : Outcome C} (hall : AllShown ipq) (ha : a.Sound)
    (huniform : Uniform k p ipq a) (h : ipintrM k p ipq a = some o) :
    AllShown o.ipq ∧ ∀ out ∈ o.out, HasHeader out.1 out.2.1 := by
  unfold ipintrM at h
  split at h
  · cases h
  · cases h
    exact ⟨hall, nofun⟩
  next hlen p₁ m ms hok =>
  obtain ⟨-, hmin, hhl, hfixed, -, hfragment, hwhole⟩ := received_spec ha hok
  obtain ⟨ip, hip⟩ : ∃ ip, ip = Header.ofBytes m.data := ⟨_, rfl⟩
  rw [← hip] at hhl hfragment hwhole
  dsimp only at h
  rw [← hip] at h
  have hset (ip' : Header) : (setHeader ip' m).len = m.len := by
    rw [setHeader, Mb.len, List.length_append, Header.length_bytes, List.length_drop]
    change 20 + (m.len - 20) = m.len
    omega
  have hheader (ip' : Header) (hlen' : ip'.hlen = hlen) (hle : hlen ≤ m.len) : HasHeader hlen (setHeader ip' m) := by
    rw [← hlen']
    refine hasHeader_bytes ip' _ (m.data.drop 20) rfl ?_
    rw [List.length_drop, hlen']
    exact hle.trans (by change m.len ≤ 20 + (m.len - 20); omega)
  split at h
  next hoff =>
    have hle := (hfragment hoff).mpr (huniform.shallow hlen p₁ m ms hok (hip ▸ hoff))
    split at h
    · split at h
      · cases h
      · refine ipReassM_spec hall (fun x hx => List.mem_of_find?_eq_some hx) ⟨?_, ?_⟩ hhl ?_ h
        · exact hmin.trans_eq hhl.symm
        · change ((setHeader _ m).data.take hlen).length = ip.hlen
          rw [List.length_take, hhl]
          exact Nat.min_eq_left (hle.trans_eq (hset _).symm)
        · intro fp hfp hcompleted
          refine huniform.same hlen p₁ m ms hok fp (hip ▸ hfp) ?_
          rwa [MFrag.received, ← hip]
    · cases h
      refine ⟨hall.replaceMq fun _ h => absurd h List.not_mem_nil, fun out hout => ?_⟩
      obtain rfl := Option.some.inj hout
      exact hheader _ hhl hle
  next hoff =>
    cases h
    refine ⟨hall, fun out hout => ?_⟩
    obtain rfl := Option.some.inj hout
    exact hheader _ hhl (hwhole (not_ne_iff.mp hoff))

theorem Arrivals.allShown {p : Pool C} {ipq : List (MIpq C)} (h : Arrivals k p ipq) : AllShown ipq := by
  induction h with
  | start p => exact nofun
  | packet _ ha huniform hstep ih => exact (ipintrM_spec ih ha huniform hstep).1
  | other _ hsub ih => exact fun fp hfp => ih fp (hsub hfp)

/-- In every run of such packets the length that is passed to the protocol is that of the header that is delivered, which is in the first mbuf. -/
theorem passes_header_length {p : Pool C} {ipq : List (MIpq C)} (h : Arrivals k p ipq) {a : Inbound C} (ha : a.Sound)
    (huniform : Uniform k p ipq a) {o : Outcome C} (hstep : ipintrM k p ipq a = some o) {hlen : Nat} {m : Mb C} {ms : List (Mb C)}
    (hout : o.out = some (hlen, m, ms)) : (Header.ofBytes m.data).hlen = hlen ∧ hlen ≤ m.len := by
  obtain ⟨-, hheader⟩ := ipintrM_spec h.allShown ha huniform hstep
  exact hheader (hlen, m, ms) hout

end Runs

/-! ### Two fragments -/

/-- A fragment of 8 bytes in an mbuf, with the first byte of its header, its options, offset and checksum. -/
def smallFragment (first : Byte) (options off sum : List Byte) : Inbound Nat where
  ms := [{
    data := [first, 0, 0, 28 + UInt8.ofNat options.length, 0, 1] ++ off ++ [64, 17] ++ sum ++ [10, 0, 0, 1, 10, 0, 0, 2] ++ options ++
      List.replicate 8 0
    off := Cl.mlen - Cl.mhlen
    pkthdr := some { rcvif := 1, len := 28 + options.length } }]
  odd := fun _ => false

/-- The last fragment of the datagram, at byte 8. -/
def lastFragment : Inbound Nat := smallFragment 0x45 [] [0, 1] [0x66, 0xcd]

theorem arrivals_first {a : Inbound Nat} (ha : a.Sound) (hext : ∀ x ∈ a.ms.head?, x.ext = none) {o : Outcome Nat}
    (ho : ipintrM kernel {} [] a = some o) : Arrivals kernel o.pool o.ipq := by
  refine .packet (.start {}) ha ⟨fun _ _ _ _ _ _ x hx hcluster => ?_, fun hlen p' m ms _ fp hfp => ?_⟩ ho
  · rw [hext x hx] at hcluster
    cases hcluster
  · cases hfp

theorem exists_two {a b : Inbound Nat} {q : Outcome Nat → Outcome Nat → Bool}
    (h : ((ipintrM kernel {} [] a).bind fun o => (ipintrM kernel o.pool o.ipq b).map (q o)) = some true) :
    ∃ o o', ipintrM kernel {} [] a = some o ∧ ipintrM kernel o.pool o.ipq b = some o' ∧ q o o' = true := by
  obtain ⟨o, ho, h⟩ := Option.bind_eq_some_iff.mp h
  obtain ⟨o', ho', hq⟩ := Option.map_eq_some_iff.mp h
  exact ⟨o, o', ho, ho', hq⟩

theorem passes_header_length_two : ∃ (o o' : Outcome Nat) (hlen : Nat) (m : Mb Nat) (ms : List (Mb Nat)), Arrivals kernel o.pool o.ipq ∧
    ipintrM kernel o.pool o.ipq lastFragment = some o' ∧ o'.out = some (hlen, m, ms) ∧
    (Header.ofBytes m.data).hlen = hlen ∧ hlen ≤ m.len := by
  obtain ⟨o, o', ho, ho', hcheck⟩ := @exists_two (smallFragment 0x45 [] [0x20, 0] [0x46, 0xce]) lastFragment
    (fun o o' => o'.out.isSome && o.ipq.all fun fp => fp.ipqNext.all fun q => q.ip.hlen = 20) (by decide +kernel)
  obtain ⟨hsome, hall⟩ := Bool.and_eq_true_iff.mp hcheck
  obtain ⟨⟨hlen, m, ms⟩, hout⟩ := Option.isSome_iff_exists.mp hsome
  have harrivals := arrivals_first ⟨_, _, _, rfl, rfl, rfl⟩ (fun x hx => by obtain rfl := Option.some.inj hx; rfl) ho
  have hsound : lastFragment.Sound := ⟨_, _, _, rfl, rfl, rfl⟩
  refine ⟨o, o', hlen, m, ms, harrivals, ho', hout, passes_header_length harrivals hsound ⟨fun _ _ _ _ _ _ x hx hcluster => ?_, ?_⟩ ho' hout⟩
  · obtain rfl := Option.some.inj hx
    cases hcluster
  · intro hlen p' m ms hok fp hfp _ q hq _
    have hlast : hlen = 20 := (received_spec hsound hok).1
    have hfp' := List.all_eq_true.mp hall fp (List.mem_of_find?_eq_some hfp)
    rw [hlast]
    exact of_decide_eq_true (List.all_eq_true.mp hfp' q (List.mem_of_head? hq))

/-- The fragment with the options comes first: a header of 24 bytes is delivered with the length 20 of the other one. -/
theorem passes_other_length : ∃ (o o' : Outcome Nat) (m : Mb Nat) (ms : List (Mb Nat)), Arrivals kernel o.pool o.ipq ∧ lastFragment.Sound ∧
    ipintrM kernel o.pool o.ipq lastFragment = some o' ∧ o'.out = some (20, m, ms) ∧ (Header.ofBytes m.data).hlen = 24 := by
  obtain ⟨o, o', ho, ho', hcheck⟩ := @exists_two (smallFragment 0x46 [1, 1, 1, 0] [0x20, 0] [0x43, 0xc9]) lastFragment
    (fun _ o' => o'.out.any fun out => out.1 = 20 ∧ (Header.ofBytes out.2.1.data).hlen = 24) (by decide +kernel)
  obtain ⟨⟨hlen, m, ms⟩, hout, hlens⟩ := (Option.any_eq_true _ _).mp hcheck
  obtain ⟨rfl, hother⟩ := of_decide_eq_true hlens
  exact ⟨o, o', m, ms, arrivals_first ⟨_, _, _, rfl, rfl, rfl⟩ (fun x hx => by obtain rfl := Option.some.inj hx; rfl) ho,
    ⟨_, _, _, rfl, rfl, rfl⟩, ho', hout, hother⟩

end Reading.Ip
