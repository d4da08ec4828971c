import Mathlib.Algebra.GroupWithZero.Nat
import Reading.Kern.Sockbuf
import Reading.Lib.Segment

/-!
# What the socket buffer functions do to the queue

The mbufs of a socket buffer, read along the links, are a list of records, and a record is a list of addressed bodies that is not empty. `Holds s q` says that the socket buffer of the state `s` holds the queue `q`: the links are those of `q`, no mbuf is linked twice, and the counters are the sums over `q`. Every function is shown to end, to keep this, and to do to the queue what a function on lists says.
-/

namespace Reading.Kern.Sb

open Reading.Lib

variable {A : Type} [DecidableEq A]

section Memory

variable (s : State A) (a : A) (m : Mbuf A)

@[simp] theorem write_sb : (s.write a m).sb = s.sb := rfl
@[simp] theorem free_sb : (s.free a).sb = s.sb := rfl
@[simp] theorem write_mem_self : (s.write a m).mem a = some m := Function.update_self ..

theorem write_mem_of_ne {a b : A} (h : b ≠ a) : (s.write a m).mem b = s.mem b := Function.update_of_ne h ..

theorem free_mem_of_ne {a b : A} (h : b ≠ a) : (s.free a).mem b = s.mem b := Function.update_of_ne h ..

end Memory

/-- The mbufs from `p` on, linked by `m_next`, up to `q`. -/
abbrev ChainSeg (mem : A → Option (Mbuf A)) (p : Option A) (cells : List (A × Body)) (q : Option A) : Prop :=
  Seg Mbuf.next Mbuf.body mem p cells q

/-- The sum of `m_len`. -/
def lens (bodies : List Body) : Nat := (bodies.map Body.len).sum

/-- The sum of `MSIZE` and `ext_size`. -/
def charges (bodies : List Body) : Nat := (bodies.map Body.charge).sum

/-- The bodies of the cells. -/
def bodies (cells : List (A × Body)) : List Body := cells.map Prod.snd

section Sums

omit [DecidableEq A]

variable (b : Body) (bs bs' : List Body) (cell : A × Body) (cells cells' : List (A × Body))

@[simp] theorem lens_nil : lens [] = 0 := rfl
@[simp] theorem lens_cons : lens (b :: bs) = b.len + lens bs := by simp [lens]
@[simp] theorem lens_append : lens (bs ++ bs') = lens bs + lens bs' := by simp [lens]
@[simp] theorem charges_nil : charges [] = 0 := rfl
@[simp] theorem charges_cons : charges (b :: bs) = b.charge + charges bs := by simp [charges]
@[simp] theorem charges_append : charges (bs ++ bs') = charges bs + charges bs' := by simp [charges]
@[simp] theorem bodies_nil : bodies ([] : List (A × Body)) = [] := rfl
@[simp] theorem bodies_cons : bodies (cell :: cells) = cell.2 :: bodies cells := rfl
@[simp] theorem bodies_append : bodies (cells ++ cells') = bodies cells ++ bodies cells' := List.map_append

end Sums

/-! ### `sbcompress` on lists -/

/-- The mbufs that `sbcompress` makes of `n` and the chain behind it. -/
def packed (n : Body) : List Body → Bool → List Body
  | [], eor => [{ n with eor := n.eor || eor }]
  | m :: ms, eor =>
    let eor := eor || m.eor
    if m.len = 0 ∧ (eor = false ∨ (ms.head?.getD n).mtype = m.mtype) then packed n ms eor
    else if n.takes m then packed { n with data := n.data ++ m.data } ms eor
    else n :: packed { m with eor := false } ms eor

/-- The same with no mbuf to begin with. -/
def packedAnew : List Body → Bool → List Body
  | [], _ => []
  | m :: ms, eor =>
    let eor := eor || m.eor
    if m.len = 0 ∧ (eor = false ∨ ms.head?.map Body.mtype = some m.mtype) then packedAnew ms eor
    else packed { m with eor := false } ms eor

/-- The bytes of a chain. -/
def bytesOf (bs : List Body) : List Byte := bs.flatMap Body.data

@[simp] theorem bytesOf_nil : bytesOf [] = [] := rfl

@[simp] theorem bytesOf_cons (b : Body) (bs : List Body) : bytesOf (b :: bs) = b.data ++ bytesOf bs := List.flatMap_cons

@[simp] theorem bytesOf_append (bs bs' : List Body) : bytesOf (bs ++ bs') = bytesOf bs ++ bytesOf bs' :=
  List.flatMap_append

theorem lens_eq_length (bs : List Body) : lens bs = (bytesOf bs).length := by
  induction bs with
  | nil => rfl
  | cons b bs ih => simp [ih, Body.len]

/-- No byte is lost, changed or moved. -/
theorem bytesOf_packed (n : Body) (ms : List Body) (eor : Bool) : bytesOf (packed n ms eor) = n.data ++ bytesOf ms := by
  induction ms generalizing n eor with
  | nil => simp [packed]
  | cons m ms ih =>
    rw [packed]
    split
    · rename_i hdiscard
      have hempty : m.data = [] := List.length_eq_zero_iff.mp hdiscard.1
      simp [ih, hempty]
    · split
      · simp [ih]
      · simp [ih]

theorem bytesOf_packedAnew (ms : List Body) (eor : Bool) : bytesOf (packedAnew ms eor) = bytesOf ms := by
  induction ms generalizing eor with
  | nil => rfl
  | cons m ms ih =>
    rw [packedAnew]
    split
    · rename_i hdiscard
      have hempty : m.data = [] := List.length_eq_zero_iff.mp hdiscard.1
      simp [ih, hempty]
    · simp [bytesOf_packed]

/-- The first mbuf stays, with the storage it has. -/
theorem packed_head (n : Body) (ms : List Body) (eor : Bool) :
    ∃ b rest, packed n ms eor = b :: rest ∧ b.charge = n.charge := by
  induction ms generalizing n eor with
  | nil => exact ⟨_, [], rfl, rfl⟩
  | cons m ms ih =>
    rw [packed]
    split
    · exact ih n _
    · split
      · exact ih { n with data := n.data ++ m.data } _
      · exact ⟨n, _, rfl, rfl⟩

/-- The first mbuf keeps its bytes. -/
theorem packed_data {n b : Body} {ms rest : List Body} {eor : Bool} (h : packed n ms eor = b :: rest) : n.data <+: b.data := by
  induction ms generalizing n eor with
  | nil =>
    obtain ⟨rfl, -⟩ := List.cons.inj h
    exact List.prefix_rfl
  | cons m ms ih =>
    rw [packed] at h
    split at h
    · exact ih h
    · split at h
      · exact (List.prefix_append n.data m.data).trans (ih h)
      · obtain ⟨rfl, -⟩ := List.cons.inj h
        exact List.prefix_rfl

section Compress

variable {s : State A} {m : Option A} {ms : List (A × Body)}

omit [DecidableEq A] in
theorem discards_some {a : A} {y x : Mbuf A} (hn : s.mem a = some y) (hrest : ChainSeg s.mem x.next ms none) (eor : Bool) :
    discards s x (some a) eor = some (decide (x.body.len = 0 ∧
      (eor = false ∨ ((bodies ms).head?.getD y.body).mtype = x.body.mtype))) := by
  rw [discards]
  by_cases hlen : x.body.len = 0
  · cases eor with
    | false => simp [hlen]
    | true =>
      cases ms with
      | nil =>
        have hnext : x.next = none := hrest
        simp [hlen, hnext, hn]
      | cons cell ms =>
        obtain ⟨hp, z, hz, hview, _⟩ := hrest
        simp [hlen, hp, hz, hview]
  · simp [hlen]

omit [DecidableEq A] in
theorem discards_none {x : Mbuf A} (hrest : ChainSeg s.mem x.next ms none) (eor : Bool) :
    discards s x none eor = some (decide (x.body.len = 0 ∧
      (eor = false ∨ (bodies ms).head?.map Body.mtype = some x.body.mtype))) := by
  rw [discards]
  by_cases hlen : x.body.len = 0
  · cases eor with
    | false => simp [hlen]
    | true =>
      cases ms with
      | nil =>
        have hnext : x.next = none := hrest
        simp [hlen, hnext]
      | cons cell ms =>
        obtain ⟨hp, z, hz, hview, _⟩ := hrest
        simp [hlen, hp, hz, hview]
  · simp [hlen]

/-- What `sbcompress` leaves behind the mbuf at `a`, which was `y`, out of the chain `ms`. -/
structure Compressed (s s' : State A) (a : A) (y : Mbuf A) (ms : List (A × Body)) (result : List Body) : Prop where
  exists_cells : ∃ (y' : Mbuf A) (cells : List (A × Body)), s'.mem a = some y' ∧ y'.nextpkt = y.nextpkt ∧
    ChainSeg s'.mem y'.next cells none ∧ y'.body :: bodies cells = result ∧ (addrs cells).Sublist (addrs ms) ∧
    s'.sb = { s.sb with cc := s.sb.cc + lens (bodies ms), mbcnt := s.sb.mbcnt + charges (bodies cells) }
  frame : ∀ b, b ∉ a :: addrs ms → s'.mem b = s.mem b

omit [DecidableEq A] in
theorem Compressed.locked {s' : State A} {a : A} {y : Mbuf A} {result : List Body} (h : Compressed s s' a y ms result) :
    s'.sb.locked = s.sb.locked := by
  obtain ⟨_, _, _, _, _, _, _, hsb⟩ := h.exists_cells
  rw [hsb]

theorem compressFrom_spec (fuel : Nat) {a : A} {y : Mbuf A} (hn : s.mem a = some y) (hend : y.next = none)
    (hm : ChainSeg s.mem m ms none) (hnodup : (a :: addrs ms).Nodup) (hfuel : ms.length ≤ fuel) (eor : Bool) :
    ∃ s', sbcompressFrom fuel s m (some a) eor = some s' ∧
      Compressed s s' a y ms (packed y.body (bodies ms) eor) := by
  induction ms generalizing s m a y fuel eor with
  | nil =>
    obtain rfl : m = none := hm
    cases eor with
    | false =>
      refine ⟨s, by simp [sbcompressFrom], ⟨y, [], hn, rfl, hend, by simp [packed], .refl _, by simp⟩, fun b _ => rfl⟩
    | true =>
      refine ⟨s.write a { y with body := { y.body with eor := true } }, by simp [sbcompressFrom, hn],
        ⟨{ y with body := { y.body with eor := true } }, [], by simp [State.write], rfl, hend, by simp [packed],
          .refl _, by simp [State.write]⟩, fun b hb => ?_⟩
      simp only [addrs_nil, List.mem_singleton] at hb
      simp [State.write, hb]
  | cons cell ms ih =>
    obtain ⟨c, body⟩ := cell
    obtain ⟨rfl, x, hx, rfl, hrest⟩ := hm
    obtain ⟨fuel, rfl⟩ : ∃ k, fuel = k + 1 := ⟨fuel - 1, by simp at hfuel; omega⟩
    simp only [addrs_cons, List.nodup_cons, List.mem_cons, not_or] at hnodup
    obtain ⟨⟨hac, ha⟩, hc, hms⟩ := hnodup
    have hfuel' : ms.length ≤ fuel := by simpa using hfuel
    have hca : c ≠ a := Ne.symm hac
    rw [sbcompressFrom]
    simp only [hx, Option.bind_eq_bind, Option.bind_some, discards_some hn hrest, bodies_cons, packed, decide_eq_true_eq]
    by_cases hdiscard : x.body.len = 0 ∧
        ((eor || x.body.eor) = false ∨ ((bodies ms).head?.getD y.body).mtype = x.body.mtype)
    · -- the mbuf is empty and is freed
      simp only [if_pos hdiscard]
      obtain ⟨s', hs', ⟨y', cells, hy', hpkt, hseg, hbodies, hsub, hsb⟩, hframe⟩ :=
        @ih (s.free c) x.next fuel a y (by simp [State.free, hac, hn]) hend (hrest.update hc none)
          (by simp [ha, hms]) hfuel' (eor || x.body.eor)
      refine ⟨s', hs', ⟨y', cells, hy', hpkt, hseg, hbodies, hsub.cons c, ?_⟩, fun b hb => ?_⟩
      · rw [hsb]
        simp [State.free, hdiscard.1]
      · simp only [addrs_cons, List.mem_cons, not_or] at hb
        rw [hframe b (by simp [hb])]
        simp [State.free, hb.2.1]
    · simp only [if_neg hdiscard, hn, Option.bind_some]
      by_cases htakes : y.body.takes x.body = true
      · -- its data goes into the last mbuf
        simp only [if_pos htakes]
        obtain ⟨s', hs', ⟨y', cells, hy', hpkt, hseg, hbodies, hsub, hsb⟩, hframe⟩ :=
          @ih (State.free { s.write a { y with body := { y.body with data := y.body.data ++ x.body.data } } with
              sb := { s.sb with cc := s.sb.cc + x.body.len } } c) x.next fuel a
            { y with body := { y.body with data := y.body.data ++ x.body.data } }
            (by simp [State.free, State.write, hac]) hend ((hrest.update ha _).update hc none) (by simp [ha, hms]) hfuel'
            (eor || x.body.eor)
        refine ⟨s', hs', ⟨y', cells, hy', hpkt, hseg, hbodies, hsub.cons c, ?_⟩, fun b hb => ?_⟩
        · rw [hsb]
          simp [State.free, Nat.add_assoc]
        · simp only [addrs_cons, List.mem_cons, not_or] at hb
          rw [hframe b (by simp [hb])]
          simp [State.free, State.write, hb.1, hb.2.1]
      · -- it is linked behind the last mbuf and becomes the last one
        simp only [if_neg htakes]
        obtain ⟨s', hs', ⟨y', cells, hy', hpkt, hseg, hbodies, hsub, hsb⟩, hframe⟩ :=
          @ih (State.write { s.write a { y with next := some c } with sb := sballoc s.sb x.body } c
              { x with next := none, body := { x.body with eor := false } }) x.next fuel c
            { x with next := none, body := { x.body with eor := false } }
            (by simp [State.write]) rfl ((hrest.update ha _).update hc _) (by simp [hc, hms]) hfuel' (eor || x.body.eor)
        have ha' : s'.mem a = some { y with next := some c } := by
          rw [hframe a (by simp [hac, ha])]
          simp [State.write, hac]
        refine ⟨s', hs', ⟨{ y with next := some c }, (c, y'.body) :: cells, ha', rfl, ⟨rfl, y', hy', rfl, hseg⟩, ?_,
          hsub.cons_cons c, ?_⟩, fun b hb => ?_⟩
        · rw [← hbodies]
          rfl
        · rw [hsb]
          obtain ⟨b, rest, hpacked, hcharge⟩ := packed_head { x.body with eor := false } (bodies ms) (eor || x.body.eor)
          rw [hpacked] at hbodies
          cases hbodies
          have hsame : y'.body.charge = x.body.charge := hcharge
          simp [State.write, sballoc, hsame, Nat.add_assoc]
        · simp only [addrs_cons, List.mem_cons, not_or] at hb
          rw [hframe b (by simp [hb])]
          simp [State.write, hb.1, hb.2.1]

/-- Compressing into an empty socket buffer. -/
theorem compressAnew_spec (fuel : Nat) (hempty : s.sb.mb = none) (hm : ChainSeg s.mem m ms none)
    (hpkt : ∀ a x, a ∈ addrs ms → s.mem a = some x → x.nextpkt = none) (hnodup : (addrs ms).Nodup)
    (hfuel : ms.length ≤ fuel) (eor : Bool) :
    ∃ s' cells, sbcompressFrom fuel s m none eor = some s' ∧ ChainSeg s'.mem s'.sb.mb cells none ∧
      (∀ a, s'.sb.mb = some a → ∃ x, s'.mem a = some x ∧ x.nextpkt = none) ∧
      bodies cells = packedAnew (bodies ms) eor ∧ (addrs cells).Sublist (addrs ms) ∧
      s'.sb = { s.sb with
        mb := s'.sb.mb, cc := s.sb.cc + lens (bodies ms), mbcnt := s.sb.mbcnt + charges (bodies cells) } := by
  induction ms generalizing s m fuel eor with
  | nil =>
    obtain rfl : m = none := hm
    refine ⟨s, [], by simp [sbcompressFrom], hempty, ?_, rfl, .refl _, by simp⟩
    rw [hempty]
    intro a ha
    cases ha
  | cons cell ms ih =>
    obtain ⟨c, body⟩ := cell
    obtain ⟨rfl, x, hx, rfl, hrest⟩ := hm
    obtain ⟨fuel, rfl⟩ : ∃ k, fuel = k + 1 := ⟨fuel - 1, by simp at hfuel; omega⟩
    simp only [addrs_cons, List.nodup_cons] at hnodup
    obtain ⟨hc, hms⟩ := hnodup
    have hfuel' : ms.length ≤ fuel := by simpa using hfuel
    have hxpkt : x.nextpkt = none := hpkt c x (by simp) hx
    rw [sbcompressFrom]
    simp only [hx, Option.bind_eq_bind, Option.bind_some, discards_none hrest, bodies_cons, packedAnew, decide_eq_true_eq]
    by_cases hdiscard : x.body.len = 0 ∧
        ((eor || x.body.eor) = false ∨ (bodies ms).head?.map Body.mtype = some x.body.mtype)
    · simp only [if_pos hdiscard]
      have hpkt' : ∀ a z, a ∈ addrs ms → (s.free c).mem a = some z → z.nextpkt = none := by
        intro a z ha hz
        have hne : a ≠ c := by
          rintro rfl
          exact hc ha
        simp only [State.free, Function.update_of_ne hne] at hz
        exact hpkt a z (by simp [ha]) hz
      obtain ⟨s', cells, hs', hseg, hhead, hbodies, hsub, hsb⟩ :=
        @ih (s.free c) x.next fuel hempty (hrest.update hc none) hpkt' hms hfuel' (eor || x.body.eor)
      refine ⟨s', cells, hs', hseg, hhead, hbodies, hsub.cons c, ?_⟩
      rw [hsb]
      simp [State.free, hdiscard.1]
    · -- the first mbuf that is kept becomes the queue
      simp only [if_neg hdiscard]
      obtain ⟨s', hs', ⟨y', cells, hy', hy'pkt, hseg, hbodies, hsub, hsb⟩, _⟩ :=
        @compressFrom_spec A _ (State.write { s with sb := { sballoc s.sb x.body with mb := some c } } c
            { x with next := none, body := { x.body with eor := false } }) x.next ms fuel c
          { x with next := none, body := { x.body with eor := false } } (by simp [State.write]) rfl
          (hrest.update hc _) (by simp [hc, hms]) hfuel' (eor || x.body.eor)
      have hmb : s'.sb.mb = some c := by rw [hsb]; rfl
      refine ⟨s', (c, y'.body) :: cells, hs', ⟨hmb, y', hy', rfl, hseg⟩, ?_, hbodies, hsub.cons_cons c, ?_⟩
      · rw [hmb]
        intro a ha
        cases ha
        exact ⟨y', hy', hy'pkt.trans hxpkt⟩
      · obtain ⟨b, rest, hpacked, hcharge⟩ := packed_head { x.body with eor := false } (bodies ms) (eor || x.body.eor)
        rw [hpacked] at hbodies
        cases hbodies
        have hsame : y'.body.charge = x.body.charge := hcharge
        rw [hsb]
        simp [State.write, sballoc, hsame, Nat.add_assoc]

end Compress

/-! ### Records -/

/-- A record: its first mbuf, which is linked from the record before it, and the others. -/
abbrev Record (A : Type) := (A × Body) × List (A × Body)

def Record.cells (r : Record A) : List (A × Body) := r.1 :: r.2

/-- The mbufs of all records. -/
def cellsOf (q : List (Record A)) : List (A × Body) := q.flatMap Record.cells

/-- The records from `p` on, linked by `m_nextpkt`, up to `r`. -/
structure QueueSeg (mem : A → Option (Mbuf A)) (p : Option A) (q : List (Record A)) (r : Option A) : Prop where
  heads : Seg Mbuf.nextpkt Mbuf.body mem p (q.map Prod.fst) r
  chains : ∀ rec ∈ q, ChainSeg mem (some rec.1.1) rec.cells none

/-- The socket buffer of `s` holds the records `q`. -/
structure Holds (s : State A) (q : List (Record A)) : Prop where
  queue : QueueSeg s.mem s.sb.mb q none
  nodup : (addrs (cellsOf q)).Nodup
  cc : s.sb.cc = lens (bodies (cellsOf q))
  mbcnt : s.sb.mbcnt = charges (bodies (cellsOf q))

section Queues

omit [DecidableEq A]

variable {mem mem' : A → Option (Mbuf A)} {p r : Option A} {q q' : List (Record A)} {rec : Record A}

@[simp] theorem cellsOf_nil : cellsOf ([] : List (Record A)) = [] := rfl

@[simp] theorem cellsOf_cons : cellsOf (rec :: q) = rec.cells ++ cellsOf q := List.flatMap_cons

@[simp] theorem cellsOf_append : cellsOf (q ++ q') = cellsOf q ++ cellsOf q' := List.flatMap_append

theorem mem_addrs_cells (h : rec ∈ q) {a : A} (ha : a ∈ addrs rec.cells) : a ∈ addrs (cellsOf q) := by
  obtain ⟨cell, hcell, rfl⟩ := List.mem_map.mp ha
  exact List.mem_map_of_mem (List.mem_flatMap.mpr ⟨rec, h, hcell⟩)

theorem mem_addrs_heads {a : A} (ha : a ∈ addrs (q.map Prod.fst)) : a ∈ addrs (cellsOf q) := by
  obtain ⟨cell, hcell, rfl⟩ := List.mem_map.mp ha
  obtain ⟨rec, hrec, rfl⟩ := List.mem_map.mp hcell
  exact mem_addrs_cells hrec (by simp [Record.cells])

theorem queueSeg_nil : QueueSeg mem p [] r ↔ p = r := ⟨fun h => h.heads, fun h => ⟨h, fun _ hrec => nomatch hrec⟩⟩

theorem queueSeg_append : QueueSeg mem p (q ++ q') r ↔ ∃ o, QueueSeg mem p q o ∧ QueueSeg mem o q' r := by
  constructor
  · rintro ⟨hheads, hchains⟩
    rw [List.map_append, seg_append] at hheads
    obtain ⟨o, hq, hq'⟩ := hheads
    exact ⟨o, ⟨hq, fun rec hrec => hchains rec (List.mem_append_left _ hrec)⟩,
      ⟨hq', fun rec hrec => hchains rec (List.mem_append_right _ hrec)⟩⟩
  · rintro ⟨o, hq, hq'⟩
    refine ⟨?_, fun rec hrec => ?_⟩
    · rw [List.map_append]
      exact hq.heads.append hq'.heads
    · rcases List.mem_append.mp hrec with hrec | hrec
      · exact hq.chains rec hrec
      · exact hq'.chains rec hrec

/-- A queue that begins with a record, told by the first mbuf of it. -/
theorem queueSeg_cons : QueueSeg mem p (rec :: q) r ↔
    ∃ x, p = some rec.1.1 ∧ mem rec.1.1 = some x ∧ x.body = rec.1.2 ∧ ChainSeg mem x.next rec.2 none ∧
      QueueSeg mem x.nextpkt q r := by
  constructor
  · rintro ⟨⟨hp, x, hx, hbody, hheads⟩, hchains⟩
    obtain ⟨_, x', hx', _, hrest⟩ := hchains rec List.mem_cons_self
    rw [hx] at hx'
    cases hx'
    exact ⟨x, hp, hx, hbody, hrest, hheads, fun rec' hrec' => hchains rec' (List.mem_cons_of_mem _ hrec')⟩
  · rintro ⟨x, hp, hx, hbody, hrest, hq⟩
    refine ⟨⟨hp, x, hx, hbody, hq.heads⟩, fun rec' hrec' => ?_⟩
    rcases List.mem_cons.mp hrec' with rfl | hin
    · exact ⟨rfl, x, hx, hbody, hrest⟩
    · exact hq.chains rec' hin

theorem QueueSeg.frame (h : QueueSeg mem p q r) (hmem : ∀ a ∈ addrs (cellsOf q), mem' a = mem a) :
    QueueSeg mem' p q r :=
  ⟨h.heads.frame fun a ha => hmem a (mem_addrs_heads ha),
    fun rec hrec => (h.chains rec hrec).frame fun a ha => hmem a (mem_addrs_cells hrec ha)⟩

/-- Every mbuf of the queue is in memory. -/
theorem QueueSeg.exists_mem (h : QueueSeg mem p q r) {a : A} (ha : a ∈ addrs (cellsOf q)) : ∃ x, mem a = some x := by
  obtain ⟨cell, hcell, rfl⟩ := List.mem_map.mp ha
  obtain ⟨rec, hrec, hin⟩ := List.mem_flatMap.mp hcell
  obtain ⟨x, hx, _⟩ := (h.chains rec hrec).exists_mem hin
  exact ⟨x, hx⟩

/-- The address of the last record's first mbuf. -/
def lastHead (q : List (Record A)) : Option A := q.getLast?.map fun rec => rec.1.1

theorem lastRecord_spec {fuel : Nat} {a : A} {b : Body} {heads : List (A × Body)} {p : A}
    (h : Seg Mbuf.nextpkt Mbuf.body mem (some p) (heads ++ [(a, b)]) none) (hfuel : heads.length < fuel) :
    lastRecord mem fuel p = some a := by
  induction heads generalizing p fuel with
  | nil =>
    obtain ⟨hp, x, hx, _, hend⟩ := h
    cases hp
    obtain ⟨fuel, rfl⟩ : ∃ k, fuel = k + 1 := ⟨fuel - 1, by omega⟩
    have hend : x.nextpkt = none := hend
    simp [lastRecord, hx, hend]
  | cons head heads ih =>
    obtain ⟨hp, x, hx, _, hrest⟩ := h
    cases hp
    obtain ⟨fuel, rfl⟩ : ∃ k, fuel = k + 1 := ⟨fuel - 1, by omega⟩
    have hnext : ∃ p', x.nextpkt = some p' := by
      cases heads with
      | nil => exact ⟨a, hrest.1⟩
      | cons head' heads => exact ⟨head'.1, hrest.1⟩
    obtain ⟨p', hp'⟩ := hnext
    rw [hp'] at hrest
    have hlast := @ih fuel p' hrest (by simp at hfuel; omega)
    simp [lastRecord, hx, hp', hlast]

/-- An mbuf of the record has `M_EOR`. -/
def ended (bs : List Body) : Bool := bs.any Body.eor

theorem lastMbuf_spec {fuel : Nat} {a : A} {b : Body} {cells : List (A × Body)} {p : A}
    (h : ChainSeg mem (some p) (cells ++ [(a, b)]) none) (hfuel : cells.length < fuel) :
    lastMbuf mem fuel p = some (if ended (bodies (cells ++ [(a, b)])) then none else some a) := by
  induction cells generalizing p fuel with
  | nil =>
    obtain ⟨hp, x, hx, hbody, hend⟩ := h
    cases hp
    obtain ⟨fuel, rfl⟩ : ∃ k, fuel = k + 1 := ⟨fuel - 1, by omega⟩
    have hend : x.next = none := hend
    have hbody : x.body = b := hbody
    cases heor : b.eor <;> simp [lastMbuf, hx, hend, hbody, ended, heor]
  | cons cell cells ih =>
    obtain ⟨hp, x, hx, hbody, hrest⟩ := h
    cases hp
    obtain ⟨fuel, rfl⟩ : ∃ k, fuel = k + 1 := ⟨fuel - 1, by omega⟩
    have hnext : ∃ p', x.next = some p' := by
      cases cells with
      | nil => exact ⟨a, hrest.1⟩
      | cons cell' cells => exact ⟨cell'.1, hrest.1⟩
    obtain ⟨p', hp'⟩ := hnext
    rw [hp'] at hrest
    have hlast := @ih fuel p' hrest (by simp at hfuel; omega)
    cases heor : cell.2.eor
    · simp [lastMbuf, hx, hp', hlast, hbody, ended, heor]
    · simp [lastMbuf, hx, hbody, ended, heor]

end Queues

/-! ### Putting a record on the queue -/

section Insert

variable {s : State A} {q q₁ q₂ : List (Record A)} {a : A} {x : Mbuf A} {ms : List (A × Body)}

omit [DecidableEq A] in
theorem length_le_cells (q : List (Record A)) : q.length ≤ (cellsOf q).length := by
  induction q with
  | nil => simp
  | cons rec q ih =>
    simp [Record.cells]
    omega

/-- Following the link behind the last record, or the one that begins the queue. -/
theorem link_spec {o : Option A} (h : QueueSeg s.mem s.sb.mb q o) (hnodup : (addrs (cellsOf q)).Nodup) (p : Option A) :
    ∃ s', link s (lastHead q) p = some s' ∧ QueueSeg s'.mem s'.sb.mb q p ∧
      (∀ a, a ∉ addrs (cellsOf q) → s'.mem a = s.mem a) ∧ s'.sb = { s.sb with mb := s'.sb.mb } := by
  rcases List.eq_nil_or_concat q with rfl | ⟨init, rec, rfl⟩
  · refine ⟨{ s with sb := { s.sb with mb := p } }, rfl, queueSeg_nil.mpr rfl, fun _ _ => rfl, rfl⟩
  · rw [List.concat_eq_append] at *
    obtain ⟨o', hinit, hlast⟩ := queueSeg_append.mp h
    obtain ⟨y, rfl, hy, hbody, hchain, _⟩ := queueSeg_cons.mp hlast
    rw [cellsOf_append, addrs_append, List.nodup_append] at hnodup
    have hhead : rec.1.1 ∈ addrs (cellsOf [rec]) := by simp [Record.cells]
    have hout : rec.1.1 ∉ addrs (cellsOf init) := fun hin => hnodup.2.2 _ hin _ hhead rfl
    refine ⟨s.write rec.1.1 { y with nextpkt := p }, by simp [link, lastHead, hy], ?_, fun b hb => ?_, rfl⟩
    · refine queueSeg_append.mpr ⟨some rec.1.1, hinit.frame fun b hb => ?_, ?_⟩
      · rw [write_mem_of_ne]
        rintro rfl
        exact hout hb
      · refine queueSeg_cons.mpr ⟨{ y with nextpkt := p }, rfl, by simp [State.write], hbody, ?_, queueSeg_nil.mpr rfl⟩
        exact hchain.rewrite hy rfl rfl
    · rw [write_mem_of_ne]
      rintro rfl
      exact hb (by simp [Record.cells])

/-- The mbufs of a new record: the first is on the queue when the others are compressed behind it. -/
def started (b : Body) : List Body → List Body
  | [] => [b]
  | m :: ms =>
    if b.eor then packed { b with eor := false } ({ m with eor := true } :: ms) false else packed b (m :: ms) false

theorem bytesOf_started (b : Body) (ms : List Body) : bytesOf (started b ms) = b.data ++ bytesOf ms := by
  cases ms with
  | nil => simp [started]
  | cons m ms =>
    rw [started]
    split <;> simp [bytesOf_packed]

theorem started_head (b : Body) (ms : List Body) : ∃ b' rest, started b ms = b' :: rest ∧ b'.charge = b.charge := by
  cases ms with
  | nil => exact ⟨b, [], rfl, rfl⟩
  | cons m ms =>
    rw [started]
    split
    · exact packed_head { b with eor := false } _ _
    · exact packed_head b _ _

variable [Fintype A]

theorem compress_spec (hx : s.mem a = some x) (hend : x.next = none) {m : Option A} (hm : ChainSeg s.mem m ms none)
    (hnodup : (a :: addrs ms).Nodup) :
    ∃ s', sbcompress s m (some a) = some s' ∧ Compressed s s' a x ms (packed x.body (bodies ms) false) := by
  have hlen : ms.length ≤ Fintype.card A := length_le_card (List.nodup_cons.mp hnodup).2
  exact compressFrom_spec (rounds A) hx hend hm hnodup (by rw [rounds]; omega) false

theorem startRecord_spec (hx : s.mem a = some x) (hms : ChainSeg s.mem x.next ms none) (hnodup : (a :: addrs ms).Nodup) :
    ∃ s', startRecord s a = some s' ∧ Compressed s s' a x ms (started x.body (bodies ms)) := by
  have ha := (List.nodup_cons.mp hnodup).1
  cases ms with
  | nil =>
    have hnext : x.next = none := hms
    obtain ⟨s', hs', ⟨y', cells, hy', hpkt, hseg, hbodies, hsub, hsb⟩, hframe⟩ :=
      @compress_spec A _ (s.write a { x with next := none }) a { x with next := none } [] _ (by simp) rfl none rfl (by simp)
    refine ⟨s', by simp [startRecord, hx, hnext, hs'], ⟨y', cells, hy', hpkt, hseg, ?_, hsub, hsb⟩, fun b hb => ?_⟩
    · rw [hbodies]
      simp [started, packed]
    · rw [hframe b hb]
      simp only [addrs_nil, List.mem_singleton] at hb
      simp [State.write, hb]
  | cons cell ms =>
    obtain ⟨c, body⟩ := cell
    obtain ⟨hnext, y, hy, rfl, hrest⟩ := hms
    simp only [addrs_cons, List.nodup_cons, List.mem_cons, not_or] at hnodup
    obtain ⟨⟨hac, ham⟩, hc, hms⟩ := hnodup
    have hca : c ≠ a := Ne.symm hac
    cases heor : x.body.eor with
    | true =>
      -- the end of the record is handed on to the second mbuf
      obtain ⟨s', hs', ⟨y', cells, hy', hpkt, hseg, hbodies, hsub, hsb⟩, hframe⟩ :=
        @compress_spec A _ ((s.write a { x with next := none, body := { x.body with eor := false } }).write c
            { y with body := { y.body with eor := true } }) a { x with next := none, body := { x.body with eor := false } }
          ((c, { y.body with eor := true }) :: ms) _ (by simp [State.write, hac]) rfl (some c)
          ⟨rfl, { y with body := { y.body with eor := true } }, by simp [State.write], rfl, (hrest.update ham _).update hc _⟩
          (by simp [hac, ham, hc, hms])
      refine ⟨s', ?_, ⟨y', cells, hy', hpkt, hseg, ?_, hsub, ?_⟩, fun b hb => ?_⟩
      · rw [← hs']
        simp [startRecord, hx, hnext, heor, State.write, hca, hy]
      · rw [hbodies]
        simp [started, heor]
      · rw [hsb]
        simp [State.write, Body.len]
      · rw [hframe b hb]
        simp only [addrs_cons, List.mem_cons, not_or] at hb
        simp [State.write, hb.1, hb.2.1]
    | false =>
      obtain ⟨s', hs', ⟨y', cells, hy', hpkt, hseg, hbodies, hsub, hsb⟩, hframe⟩ :=
        @compress_spec A _ (s.write a { x with next := none }) a { x with next := none } ((c, y.body) :: ms) _
          (by simp [State.write]) rfl (some c)
          ⟨rfl, y, by simp [State.write, hca, hy], rfl, hrest.update ham _⟩ (by simp [hac, ham, hc, hms])
      refine ⟨s', ?_, ⟨y', cells, hy', hpkt, hseg, ?_, hsub, ?_⟩, fun b hb => ?_⟩
      · rw [← hs']
        simp [startRecord, hx, hnext, heor]
      · rw [hbodies]
        simp [started, heor]
      · rw [hsb]
        rfl
      · rw [hframe b hb]
        simp only [addrs_cons, List.mem_cons, not_or] at hb
        simp [State.write, hb.1]

omit [Fintype A] in
omit [DecidableEq A] in
/-- A record whose first mbuf is on the queue, between `q₁` and `q₂`, and counted. -/
theorem holds_insert {s' : State A} {result : List Body} (hq₁ : QueueSeg s.mem s.sb.mb q₁ (some a))
    (hq₂ : QueueSeg s.mem x.nextpkt q₂ none) (hnodup : (addrs (cellsOf (q₁ ++ q₂)) ++ a :: addrs ms).Nodup)
    (hcc : s.sb.cc = lens (bodies (cellsOf (q₁ ++ q₂))) + x.body.len)
    (hmbcnt : s.sb.mbcnt = charges (bodies (cellsOf (q₁ ++ q₂))) + x.body.charge)
    (hc : Compressed s s' a x ms result) (hbytes : bytesOf result = x.body.data ++ bytesOf (bodies ms))
    (hfirst : ∃ b rest, result = b :: rest ∧ b.charge = x.body.charge) :
    ∃ r : Record A, Holds s' (q₁ ++ r :: q₂) ∧ bodies r.cells = result := by
  obtain ⟨⟨y, cells, hy, hpkt, hseg, hbodies, hsub, hsb⟩, hframe⟩ := hc
  have hlens : lens result = x.body.len + lens (bodies ms) := by
    rw [lens_eq_length, lens_eq_length, hbytes, List.length_append]
    rfl
  obtain ⟨b, rest, hresult, hcharge⟩ := hfirst
  have hsplit : y.body = b ∧ bodies cells = rest := by
    rw [hresult] at hbodies
    exact List.cons.inj hbodies
  rw [List.nodup_append] at hnodup
  obtain ⟨hold, hnew, hdisjoint⟩ := hnodup
  have hkept : ∀ c ∈ addrs (cellsOf (q₁ ++ q₂)), s'.mem c = s.mem c :=
    fun c hc => hframe c fun hin => hdisjoint c hc c hin rfl
  have hcells : (addrs (Record.cells ((a, y.body), cells))).Sublist (a :: addrs ms) := by
    simpa [Record.cells] using hsub
  refine ⟨((a, y.body), cells), ⟨?_, ?_, ?_, ?_⟩, hbodies⟩
  · rw [show s'.sb.mb = s.sb.mb by rw [hsb]]
    refine queueSeg_append.mpr ⟨some a, hq₁.frame fun c hc => hkept c (by simp [hc]), ?_⟩
    refine queueSeg_cons.mpr ⟨y, rfl, hy, rfl, hseg, ?_⟩
    rw [hpkt]
    exact hq₂.frame fun c hc => hkept c (by simp [hc])
  · simp only [cellsOf_append, cellsOf_cons, addrs_append] at hold hdisjoint ⊢
    have hrec := hcells.nodup hnew
    rw [List.nodup_append] at hold
    refine List.nodup_append.mpr ⟨hold.1, List.nodup_append.mpr ⟨hrec, hold.2.1, fun c hc d hd => ?_⟩, fun c hc d hd => ?_⟩
    · exact Ne.symm (hdisjoint d (List.mem_append_right _ hd) c (hcells.subset hc))
    · rcases List.mem_append.mp hd with hd | hd
      · exact hdisjoint c (List.mem_append_left _ hc) d (hcells.subset hd)
      · exact hold.2.2 c hc d hd
  · have hlens' := hlens
    rw [hresult, lens_cons, ← hsplit.1, ← hsplit.2] at hlens'
    rw [hsb]
    simp only [hcc, cellsOf_append, cellsOf_cons, bodies_append, lens_append, Record.cells, bodies_cons, lens_cons]
    omega
  · have hsame : y.body.charge = x.body.charge := by rw [hsplit.1, hcharge]
    rw [hsb]
    simp only [hmbcnt, cellsOf_append, cellsOf_cons, bodies_append, charges_append, Record.cells, bodies_cons, charges_cons]
    omega

omit [DecidableEq A] in
theorem lastOf_spec (h : QueueSeg s.mem s.sb.mb q none) (hnodup : (addrs (cellsOf q)).Nodup) :
    lastOf s = some (lastHead q) := by
  rw [lastOf]
  rcases List.eq_nil_or_concat q with rfl | ⟨init, rec, rfl⟩
  · have hmb : s.sb.mb = none := queueSeg_nil.mp h
    simp [hmb, lastHead]
  · rw [List.concat_eq_append] at *
    have hlen : (cellsOf (init ++ [rec])).length ≤ Fintype.card A := length_le_card hnodup
    have hrec := length_le_cells (init ++ [rec])
    simp only [List.length_append, List.length_singleton] at hrec
    have hheads := h.heads
    rw [List.map_append, List.map_singleton] at hheads
    cases hmb : s.sb.mb with
    | none =>
      rw [hmb] at hheads
      have := hheads.eq_nil
      simp at this
    | some p =>
      rw [hmb] at hheads
      have hlast := lastRecord_spec hheads (show (init.map Prod.fst).length < rounds A by
        rw [List.length_map, rounds]
        omega)
      simp [hlast, lastHead]

/-- A chain that the caller hands over: its mbufs are linked and on no queue. -/
structure Fresh (s : State A) (m : Option A) (ms : List (A × Body)) (q : List (Record A)) : Prop where
  chain : ChainSeg s.mem m ms none
  pkt : ∀ a x, a ∈ addrs ms → s.mem a = some x → x.nextpkt = none
  nodup : (addrs (cellsOf q) ++ addrs ms).Nodup

theorem sbappendrecord_spec {b : Body} (h : Holds s q) (hm : Fresh s (some a) ((a, b) :: ms) q) :
    ∃ s' r, sbappendrecord s (some a) = some s' ∧ Holds s' (q ++ [r]) ∧ s'.sb.locked = s.sb.locked ∧
      bodies r.cells = started b (bodies ms) := by
  obtain ⟨_, x, hx, rfl, hrest⟩ := hm.chain
  have hpkt : x.nextpkt = none := hm.pkt a x (by simp) hx
  have hnodup := hm.nodup
  rw [addrs_cons, List.nodup_append] at hnodup
  obtain ⟨hold, hnew, hdisjoint⟩ := hnodup
  have hout : ∀ c ∈ a :: addrs ms, c ∉ addrs (cellsOf q) := fun c hc hin => hdisjoint c hin c hc rfl
  obtain ⟨s₁, hlink, hq, hframe, hsb⟩ := @link_spec A _ { s with sb := sballoc s.sb x.body } q none h.queue hold (some a)
  have hx₁ : s₁.mem a = some x := by rw [hframe a (hout a (by simp)), hx]
  have hrest₁ : ChainSeg s₁.mem x.next ms none := hrest.frame fun c hc => hframe c (hout c (by simp [hc]))
  obtain ⟨s', hstart, hcompressed⟩ := startRecord_spec hx₁ hrest₁ hnew
  have hcc : s₁.sb.cc = lens (bodies (cellsOf q)) + x.body.len := by
    rw [hsb]
    simp [sballoc, h.cc]
  have hmbcnt : s₁.sb.mbcnt = charges (bodies (cellsOf q)) + x.body.charge := by
    rw [hsb]
    simp [sballoc, h.mbcnt]
  have hq₂ : QueueSeg s₁.mem x.nextpkt [] none := queueSeg_nil.mpr hpkt
  obtain ⟨r, hholds, hr⟩ := @holds_insert A s₁ q [] a x ms s' (started x.body (bodies ms)) hq hq₂
    (by simpa using hm.nodup) (by simpa using hcc) (by simpa using hmbcnt) hcompressed (bytesOf_started _ _) (started_head _ _)
  have hlocked : s'.sb.locked = s.sb.locked := by
    rw [hcompressed.locked, hsb]
    rfl
  refine ⟨s', r, ?_, hholds, hlocked, hr⟩
  simp [sbappendrecord, lastOf_spec h.queue h.nodup, hx, hlink, hstart]

end Insert

/-! ### `sbappend` -/

/-- The chain compressed behind the mbufs of a record. -/
def packedBehind (r ms : List Body) : List Body :=
  match r.getLast? with
  | none => packedAnew ms false
  | some n => r.dropLast ++ packed n ms false

/-- `sbappend` on lists. -/
def appendList (q : List (List Body)) : List Body → List (List Body)
  | [] => q
  | m :: ms =>
    match q.getLast? with
    | none => if packedAnew (m :: ms) false = [] then [] else [packedAnew (m :: ms) false]
    | some r => if ended r then q ++ [started m ms] else q.dropLast ++ [packedBehind r (m :: ms)]

/-- The bodies of each record. -/
def recordBodies (q : List (Record A)) : List (List Body) := q.map fun r => bodies r.cells

section Append

variable {s : State A} {q init : List (Record A)} {rec : Record A} {m : Option A} {ms : List (A × Body)}

/-- The first mbuf of `q` is the first one of `q'` too, and its bytes are in front. -/
def Grown (q q' : List (Record A)) : Prop :=
  ∀ a b rest, cellsOf q = (a, b) :: rest → ∃ b' rest', cellsOf q' = (a, b') :: rest' ∧ b.data <+: b'.data

omit [DecidableEq A] in
theorem Grown.append (q q' : List (Record A)) : Grown q (q ++ q') := by
  intro a b rest hcells
  exact ⟨b, rest ++ cellsOf q', by rw [cellsOf_append, hcells, List.cons_append], List.prefix_rfl⟩

omit [DecidableEq A] in
theorem Grown.of_nil (q' : List (Record A)) : Grown [] q' := by
  intro a b rest hcells
  rw [cellsOf_nil] at hcells
  cases hcells

omit [DecidableEq A] in
theorem Grown.of_snoc {q q' : List (Record A)} {pre cells : List (A × Body)} {n : A} {b b' : Body}
    (hq : cellsOf q = pre ++ [(n, b)]) (hq' : cellsOf q' = pre ++ (n, b') :: cells) (hdata : b.data <+: b'.data) :
    Grown q q' := by
  intro a c rest hcells
  rw [hq] at hcells
  cases pre with
  | nil =>
    obtain ⟨hfirst, -⟩ := List.cons.inj hcells
    cases hfirst
    exact ⟨b', cells, hq', hdata⟩
  | cons cell pre =>
    obtain ⟨rfl, -⟩ := List.cons.inj hcells
    exact ⟨c, pre ++ (n, b') :: cells, hq', List.prefix_rfl⟩

omit [DecidableEq A] in
/-- The last mbuf of a record. -/
theorem cells_snoc (rec : Record A) : ∃ pre n, rec.cells = pre ++ [n] := by
  rcases List.eq_nil_or_concat rec.cells with hnil | ⟨pre, n, hcells⟩
  · simp [Record.cells] at hnil
  · exact ⟨pre, n, by rw [hcells, List.concat_eq_append]⟩

omit [DecidableEq A] in
/-- Replacing the last mbuf of the last record by what `sbcompress` leaves in its place. -/
theorem queueSeg_grow {s' : State A} {a : A} {y y' : Mbuf A} {b : Body} {pre cells : List (A × Body)}
    (hq : QueueSeg s.mem s.sb.mb (init ++ [rec]) none) (hmb : s'.sb.mb = s.sb.mb) (hcells : rec.cells = pre ++ [(a, b)])
    (hnodup : (addrs (cellsOf (init ++ [rec]))).Nodup) (hy : s.mem a = some y) (hy' : s'.mem a = some y')
    (hpkt : y'.nextpkt = y.nextpkt) (hseg : ChainSeg s'.mem y'.next cells none)
    (hframe : ∀ c ∈ addrs (cellsOf (init ++ [rec])), c ≠ a → s'.mem c = s.mem c) :
    ∃ r : Record A, QueueSeg s'.mem s'.sb.mb (init ++ [r]) none ∧ r.cells = pre ++ (a, y'.body) :: cells := by
  obtain ⟨o, hinit, hlast⟩ := queueSeg_append.mp hq
  obtain ⟨x, rfl, hx, hbody, hchain, hnone⟩ := queueSeg_cons.mp hlast
  have hnone : x.nextpkt = none := queueSeg_nil.mp hnone
  simp only [cellsOf_append, cellsOf_cons, cellsOf_nil, List.append_nil, hcells, addrs_append, addrs_cons, addrs_nil]
    at hnodup hframe
  obtain ⟨_, hrec, hdisjoint⟩ := List.nodup_append.mp hnodup
  obtain ⟨_, _, hpre⟩ := List.nodup_append.mp hrec
  have hinit' : QueueSeg s'.mem s'.sb.mb init (some rec.1.1) := by
    rw [hmb]
    refine hinit.frame fun c hc => hframe c (by simp [hc]) ?_
    rintro rfl
    exact hdisjoint c hc c (by simp) rfl
  cases pre with
  | nil =>
    -- the last mbuf is the first one of its record
    obtain ⟨hhead, hrest⟩ := List.cons.inj (show rec.1 :: rec.2 = (a, b) :: [] from hcells)
    rw [hhead] at hinit' hx
    rw [hy] at hx
    cases hx
    refine ⟨((a, y'.body), cells), queueSeg_append.mpr ⟨some a, hinit', queueSeg_cons.mpr ⟨y', rfl, hy', rfl, hseg, ?_⟩⟩, rfl⟩
    exact queueSeg_nil.mpr (hpkt.trans hnone)
  | cons head pre =>
    obtain ⟨hhead, hrest⟩ := List.cons.inj (show rec.1 :: rec.2 = head :: (pre ++ [(a, b)]) from hcells)
    subst hhead
    have hne : rec.1.1 ≠ a := hpre rec.1.1 (by simp) a (by simp)
    rw [hrest] at hchain
    have hbefore := (seg_snoc.mp hchain).1
    refine ⟨(rec.1, pre ++ (a, y'.body) :: cells), queueSeg_append.mpr ⟨some rec.1.1, hinit', ?_⟩, rfl⟩
    refine queueSeg_cons.mpr ⟨x, rfl, ?_, hbody, ?_, queueSeg_nil.mpr hnone⟩
    · rw [hframe rec.1.1 (by simp) hne, hx]
    · refine (hbefore.frame fun c hc => hframe c (by simp [hc]) ?_).append ⟨rfl, y', hy', rfl, hseg⟩
      rintro rfl
      exact hpre c (by simp [hc]) c (by simp) rfl

variable [Fintype A]

/-- An empty socket buffer takes what is left of the chain as its first record. -/
theorem sbappend_empty {a : A} {x : Body} (h : Holds s []) (hm : Fresh s (some a) ((a, x) :: ms) []) :
    ∃ s' q', sbappend s (some a) = some s' ∧ Holds s' q' ∧ s'.sb.locked = s.sb.locked ∧
      recordBodies q' = appendList [] (bodies ((a, x) :: ms)) := by
  have hmb : s.sb.mb = none := queueSeg_nil.mp h.queue
  have hnodup := (List.nodup_append.mp hm.nodup).2.1
  have hlen : ((a, x) :: ms).length ≤ rounds A := by
    have hcard := length_le_card hnodup
    rw [rounds]
    omega
  obtain ⟨s', cells, hs', hseg, hhead, hbodies, hsub, hsb⟩ := compressAnew_spec (rounds A) hmb hm.chain hm.pkt hnodup hlen false
  have hbytes : lens (bodies cells) = lens (bodies ((a, x) :: ms)) := by
    rw [hbodies, lens_eq_length, bytesOf_packedAnew, ← lens_eq_length]
  have hcc := h.cc
  have hmbcnt := h.mbcnt
  simp only [cellsOf_nil, bodies_nil, lens_nil, charges_nil] at hcc hmbcnt
  have happend : sbappend s (some a) = some s' := by
    rw [sbappend, hmb]
    exact hs'
  have hlocked : s'.sb.locked = s.sb.locked := by rw [hsb]
  cases cells with
  | nil =>
    refine ⟨s', [], happend, ⟨queueSeg_nil.mpr hseg, by simp, ?_, ?_⟩, hlocked, ?_⟩
    · rw [hsb]
      simp only [hcc, Nat.zero_add, ← hbytes, bodies_nil]
      rfl
    · rw [hsb]
      simp [hmbcnt]
    · rw [bodies_nil] at hbodies
      simp only [recordBodies, appendList, List.map_nil, List.getLast?_nil, bodies_cons] at hbodies ⊢
      rw [if_pos hbodies.symm]
  | cons head rest =>
    obtain ⟨hp, y, hy, hbody, hrest'⟩ := hseg
    obtain ⟨z, hz, hzpkt⟩ := hhead head.1 hp
    rw [hy] at hz
    cases hz
    refine ⟨s', [(head, rest)], happend, ⟨?_, ?_, ?_, ?_⟩, hlocked, ?_⟩
    · exact queueSeg_cons.mpr ⟨y, hp, hy, hbody, hrest', queueSeg_nil.mpr hzpkt⟩
    · simpa [Record.cells] using hsub.nodup hnodup
    · rw [hsb]
      simp only [hcc, Nat.zero_add, ← hbytes, cellsOf_cons, cellsOf_nil, List.append_nil]
      rfl
    · rw [hsb]
      simp [hmbcnt, Record.cells]
    · rw [bodies_cons] at hbodies
      simp only [recordBodies, appendList, List.map_singleton, List.getLast?_nil, Record.cells, bodies_cons] at hbodies ⊢
      rw [← hbodies]
      simp

/-- On a queue with a last record the end of its last mbuf decides. -/
theorem sbappend_eq {pre : List (A × Body)} {n : A} {b : Body} (h : Holds s (init ++ [rec])) (hcells : rec.cells = pre ++ [(n, b)])
    (a : A) : sbappend s (some a) =
      if ended (bodies rec.cells) then sbappendrecord s (some a) else sbcompress s (some a) (some n) := by
  have hcard : (cellsOf (init ++ [rec])).length ≤ Fintype.card A := length_le_card h.nodup
  have hpre : pre.length < rounds A := by
    simp only [cellsOf_append, cellsOf_cons, cellsOf_nil, List.length_append, hcells, List.length_cons] at hcard
    rw [rounds]
    omega
  have hchain := h.queue.chains rec (by simp)
  rw [hcells] at hchain
  have hmbuf := lastMbuf_spec hchain hpre
  have hlast := lastOf_spec h.queue h.nodup
  cases hmb : s.sb.mb with
  | none => simp [lastOf, hmb, lastHead] at hlast
  | some p =>
    have hrecord : lastRecord s.mem (rounds A) p = some rec.1.1 := by simpa [lastOf, hmb, lastHead] using hlast
    cases hended : ended (bodies rec.cells) <;> simp [sbappend, hmb, hrecord, hmbuf, ← hcells, hended]

/-- The chain goes behind the last mbuf of the last record. -/
theorem sbcompress_last {a n : A} {x bn : Body} {pre : List (A × Body)} (h : Holds s (init ++ [rec]))
    (hm : Fresh s (some a) ((a, x) :: ms) (init ++ [rec])) (hcells : rec.cells = pre ++ [(n, bn)]) :
    ∃ s' r, sbcompress s (some a) (some n) = some s' ∧ Holds s' (init ++ [r]) ∧ s'.sb.locked = s.sb.locked ∧
      Grown (init ++ [rec]) (init ++ [r]) ∧ bodies r.cells = packedBehind (bodies rec.cells) (bodies ((a, x) :: ms)) := by
  have hnodup := List.nodup_append.mp hm.nodup
  have hchain := h.queue.chains rec (by simp)
  rw [hcells] at hchain
  obtain ⟨_, y, hy, hybody, hyend⟩ := seg_snoc.mp hchain
  have hybody : y.body = bn := hybody
  subst hybody
  have hin : n ∈ addrs (cellsOf (init ++ [rec])) := mem_addrs_cells (show rec ∈ init ++ [rec] by simp) (by simp [hcells])
  have hfresh : (n :: addrs ((a, x) :: ms)).Nodup := List.nodup_cons.mpr ⟨fun hn => hnodup.2.2 n hin n hn rfl, hnodup.2.1⟩
  obtain ⟨s', hs', ⟨y', cells, hy', hpkt, hseg, hbodies, hsub, hsb⟩, hframe⟩ := compress_spec hy hyend hm.chain hfresh
  have hkept : ∀ c ∈ addrs (cellsOf (init ++ [rec])), c ≠ n → s'.mem c = s.mem c := by
    intro c hc hne
    refine hframe c ?_
    rw [List.mem_cons, not_or]
    exact ⟨hne, fun hc' => hnodup.2.2 c hc c hc' rfl⟩
  obtain ⟨r, hqueue, hr⟩ := queueSeg_grow h.queue (by rw [hsb]) hcells h.nodup hy hy' hpkt hseg hkept
  have hbytes : lens (y'.body :: bodies cells) = y.body.len + lens (bodies ((a, x) :: ms)) := by
    rw [hbodies, lens_eq_length, bytesOf_packed, List.length_append, ← lens_eq_length]
    rfl
  obtain ⟨b, rest, hpacked, hcharge⟩ := packed_head y.body (bodies ((a, x) :: ms)) false
  have hfirst : y'.body = b := (List.cons.inj (hbodies.trans hpacked)).1
  have hgrown : Grown (init ++ [rec]) (init ++ [r]) := by
    refine @Grown.of_snoc A _ _ (cellsOf init ++ pre) cells n y.body y'.body ?_ ?_ ?_
    · simp [hcells]
    · simp [hr]
    · rw [hfirst]
      exact packed_data hpacked
  have hcc := h.cc
  have hmbcnt := h.mbcnt
  have hold := h.nodup
  simp only [cellsOf_append, cellsOf_cons, cellsOf_nil, List.append_nil, hcells, bodies_append, bodies_cons,
    bodies_nil, lens_append, lens_cons, lens_nil, charges_append, charges_cons, charges_nil, addrs_append,
    addrs_cons, addrs_nil] at hcc hmbcnt hold hbytes
  refine ⟨s', r, hs', ⟨hqueue, ?_, ?_, ?_⟩, by rw [hsb], hgrown, ?_⟩
  · have hdisjoint := hnodup.2.2
    simp only [cellsOf_append, cellsOf_cons, cellsOf_nil, List.append_nil, hcells, hr, addrs_append, addrs_cons,
      addrs_nil] at hdisjoint ⊢
    rw [← List.append_assoc, show addrs (cellsOf init) ++ addrs pre ++ n :: addrs cells
      = (addrs (cellsOf init) ++ (addrs pre ++ [n])) ++ addrs cells by simp]
    refine List.nodup_append.mpr ⟨hold, hsub.nodup hnodup.2.1, fun c hc d hd => hdisjoint c hc d (hsub.subset hd)⟩
  · rw [hsb]
    simp only [cellsOf_append, cellsOf_cons, cellsOf_nil, List.append_nil, hr, bodies_append, bodies_cons,
      lens_append, lens_cons, hcc]
    omega
  · have hsame : y'.body.charge = y.body.charge := by rw [hfirst, hcharge]
    rw [hsb]
    simp only [cellsOf_append, cellsOf_cons, cellsOf_nil, List.append_nil, hr, bodies_append, bodies_cons,
      charges_append, charges_cons, hmbcnt]
    omega
  · rw [bodies_cons] at hbodies
    simp [hr, packedBehind, hcells, hbodies]

theorem sbappend_spec (h : Holds s q) (hm : Fresh s m ms q) :
    ∃ s' q', sbappend s m = some s' ∧ Holds s' q' ∧ s'.sb.locked = s.sb.locked ∧ Grown q q' ∧
      recordBodies q' = appendList (recordBodies q) (bodies ms) := by
  cases ms with
  | nil =>
    obtain rfl : m = none := hm.chain
    exact ⟨s, q, rfl, h, rfl, by simpa using Grown.append q [], rfl⟩
  | cons cell ms =>
    obtain ⟨a, b⟩ := cell
    obtain ⟨rfl, x, hx, rfl, hrest⟩ := hm.chain
    rcases List.eq_nil_or_concat q with rfl | ⟨init, rec, rfl⟩
    · obtain ⟨s', q', hs', hholds, hlocked, hq'⟩ := sbappend_empty h hm
      exact ⟨s', q', hs', hholds, hlocked, Grown.of_nil q', hq'⟩
    · rw [List.concat_eq_append] at *
      have hlast : (recordBodies (init ++ [rec])).getLast? = some (bodies rec.cells) := by simp [recordBodies]
      have hdrop : (recordBodies (init ++ [rec])).dropLast = recordBodies init := by simp [recordBodies]
      obtain ⟨pre, ⟨n, bn⟩, hcells⟩ := cells_snoc rec
      cases hended : ended (bodies rec.cells) with
      | true =>
        obtain ⟨s', r, hs', hholds, hlocked, hr⟩ := sbappendrecord_spec h hm
        refine ⟨s', init ++ [rec] ++ [r], ?_, hholds, hlocked, Grown.append _ _, ?_⟩
        · rw [sbappend_eq h hcells, if_pos hended, hs']
        · simp only [appendList, bodies_cons, hlast, hended, if_true]
          simp [recordBodies, hr]
      | false =>
        obtain ⟨s', r, hs', hholds, hlocked, hgrown, hr⟩ := sbcompress_last h hm hcells
        refine ⟨s', init ++ [r], ?_, hholds, hlocked, hgrown, ?_⟩
        · rw [sbappend_eq h hcells, hended, if_neg Bool.false_ne_true, hs']
        · rw [bodies_cons, appendList, hlast]
          dsimp only
          rw [hended, if_neg Bool.false_ne_true, hdrop]
          rw [bodies_cons] at hr
          simp [recordBodies, hr]

end Append

/-! ### `sbinsertoob` -/

/-- The record is out-of-band data behind control mbufs. -/
def oobTrain : List Body → Bool
  | [] => false
  | b :: bs =>
    match b.mtype with
    | .oobdata => true
    | .control => oobTrain bs
    | _ => false

/-- The number of records in front that `sbinsertoob` passes. -/
def oobCount (q : List (List Body)) : Nat := (q.takeWhile oobTrain).length

section Oob

variable {s : State A} {q q₁ q₂ : List (Record A)}

omit [DecidableEq A] in
theorem isOobTrain_spec {mem : A → Option (Mbuf A)} {fuel : Nat} {p : A} {cells : List (A × Body)}
    (h : ChainSeg mem (some p) cells none) (hfuel : cells.length ≤ fuel) :
    isOobTrain mem fuel p = some (oobTrain (bodies cells)) := by
  induction cells generalizing p fuel with
  | nil => exact nomatch (show some p = none from h)
  | cons cell cells ih =>
    obtain ⟨hp, x, hx, hbody, hrest⟩ := h
    cases hp
    have hbody : x.body = cell.2 := hbody
    obtain ⟨fuel, rfl⟩ : ∃ k, fuel = k + 1 := ⟨fuel - 1, by simp at hfuel; omega⟩
    have htrain (t : MType) (ht : cell.2.mtype = t) (hcontrol : t ≠ .control) :
        isOobTrain mem (fuel + 1) cell.1 = some (oobTrain (bodies (cell :: cells))) := by
      cases t <;> simp_all [isOobTrain, oobTrain]
    by_cases hcontrol : cell.2.mtype = .control
    · cases hnext : x.next with
      | none =>
        rw [hnext] at hrest
        simp [isOobTrain, hx, hbody, hcontrol, hnext, oobTrain, hrest.eq_nil]
      | some p' =>
        rw [hnext] at hrest
        have hrest' := @ih fuel p' hrest (by simpa using hfuel)
        simp [isOobTrain, hx, hbody, hcontrol, hnext, oobTrain, hrest']
    · exact htrain _ rfl hcontrol

omit [DecidableEq A] in
theorem deref_spec {o : Option A} (h : QueueSeg s.mem s.sb.mb q o) : deref s (lastHead q) = some o := by
  rcases List.eq_nil_or_concat q with rfl | ⟨init, rec, rfl⟩
  · have hmb : s.sb.mb = o := queueSeg_nil.mp h
    simp [lastHead, deref, hmb]
  · rw [List.concat_eq_append] at *
    obtain ⟨_, _, hlast⟩ := queueSeg_append.mp h
    obtain ⟨y, _, hy, _, _, hnone⟩ := queueSeg_cons.mp hlast
    have hpkt : y.nextpkt = o := queueSeg_nil.mp hnone
    simp [lastHead, deref, hy, hpkt]

variable [Fintype A]

omit [DecidableEq A] in
theorem oobPlace_spec {fuel : Nat} (h : QueueSeg s.mem s.sb.mb (q₁ ++ q₂) none) (hnodup : (addrs (cellsOf (q₁ ++ q₂))).Nodup)
    (hfuel : q₂.length < fuel) :
    oobPlace s fuel (lastHead q₁) = some (lastHead (q₁ ++ q₂.take (oobCount (recordBodies q₂)))) := by
  induction q₂ generalizing q₁ fuel with
  | nil =>
    obtain ⟨fuel, rfl⟩ : ∃ k, fuel = k + 1 := ⟨fuel - 1, by omega⟩
    obtain ⟨o, hq₁, hnil⟩ := queueSeg_append.mp h
    obtain rfl : o = none := queueSeg_nil.mp hnil
    simp [oobPlace, deref_spec hq₁]
  | cons rec q₂ ih =>
    obtain ⟨fuel, rfl⟩ : ∃ k, fuel = k + 1 := ⟨fuel - 1, by omega⟩
    obtain ⟨o, hq₁, hrest⟩ := queueSeg_append.mp h
    obtain ⟨y, rfl, hy, _, _, _⟩ := queueSeg_cons.mp hrest
    have hcard : (cellsOf (q₁ ++ rec :: q₂)).length ≤ Fintype.card A := length_le_card hnodup
    have hcells : rec.cells.length ≤ rounds A := by
      simp only [cellsOf_append, cellsOf_cons, List.length_append] at hcard
      rw [rounds]
      omega
    have htrain := isOobTrain_spec (hrest.chains rec List.mem_cons_self) hcells
    have hcount : oobCount (recordBodies (rec :: q₂))
        = if oobTrain (bodies rec.cells) then oobCount (recordBodies q₂) + 1 else 0 := by
      simp only [oobCount, recordBodies, List.map_cons, List.takeWhile_cons]
      split <;> simp
    cases hoob : oobTrain (bodies rec.cells) with
    | false => simp [oobPlace, deref_spec hq₁, htrain, hoob, hcount]
    | true =>
      have hpass := @ih (q₁ ++ [rec]) fuel (by simpa using h) (by simpa using hnodup) (by simp at hfuel; omega)
      rw [show lastHead (q₁ ++ [rec]) = some rec.1.1 by simp [lastHead]] at hpass
      simp [oobPlace, deref_spec hq₁, htrain, hoob, hcount, hpass]

theorem sbinsertoob_spec {a : A} {b : Body} {ms : List (A × Body)} (h : Holds s q) (hm : Fresh s (some a) ((a, b) :: ms) q) :
    ∃ s' r, sbinsertoob s (some a) = some s' ∧
      Holds s' (q.take (oobCount (recordBodies q)) ++ r :: q.drop (oobCount (recordBodies q))) ∧
      s'.sb.locked = s.sb.locked ∧ bodies r.cells = started b (bodies ms) := by
  obtain ⟨_, x, hx, rfl, hrest⟩ := hm.chain
  have hcard : (cellsOf q).length ≤ Fintype.card A := length_le_card h.nodup
  have hrecords := length_le_cells q
  have hplace := @oobPlace_spec A s [] q _ (rounds A) h.queue h.nodup (by rw [rounds]; omega)
  rw [List.nil_append, show lastHead ([] : List (Record A)) = none from rfl] at hplace
  generalize oobCount (recordBodies q) = k at hplace
  have hq := List.take_append_drop k q
  obtain ⟨o, hq₁, hq₂⟩ := queueSeg_append.mp (hq.symm ▸ h.queue)
  have hnodup := hm.nodup
  rw [addrs_cons, List.nodup_append] at hnodup
  obtain ⟨hold, hnew, hdisjoint⟩ := hnodup
  have hsplit : addrs (cellsOf q) = addrs (cellsOf (q.take k)) ++ addrs (cellsOf (q.drop k)) := by
    rw [← addrs_append, ← cellsOf_append, hq]
  rw [hsplit, List.nodup_append] at hold
  have hout : ∀ c ∈ a :: addrs ms, c ∉ addrs (cellsOf (q.take k)) ∧ c ∉ addrs (cellsOf (q.drop k)) := by
    intro c hc
    rw [hsplit] at hdisjoint
    exact ⟨fun hin => hdisjoint c (List.mem_append_left _ hin) c hc rfl,
      fun hin => hdisjoint c (List.mem_append_right _ hin) c hc rfl⟩
  -- the new record is made to point to what comes behind it, and then the record before to the new one
  have hwrite : ∀ c, c ≠ a → (State.write { s with sb := sballoc s.sb x.body } a { x with nextpkt := o }).mem c = s.mem c :=
    fun c hc => write_mem_of_ne _ _ hc
  have hq₁' : QueueSeg (State.write { s with sb := sballoc s.sb x.body } a { x with nextpkt := o }).mem s.sb.mb
      (q.take k) o := by
    refine hq₁.frame fun c hc => hwrite c ?_
    rintro rfl
    exact (hout c (by simp)).1 hc
  obtain ⟨s₁, hlink, hq₁'', hframe, hsb⟩ := @link_spec A _
    (State.write { s with sb := sballoc s.sb x.body } a { x with nextpkt := o }) (q.take k) o hq₁' hold.1 (some a)
  have hx₁ : s₁.mem a = some { x with nextpkt := o } := by
    rw [hframe a (hout a (by simp)).1, write_mem_self]
  have hrest₁ : ChainSeg s₁.mem x.next ms none := by
    refine hrest.frame fun c hc => ?_
    rw [hframe c (hout c (by simp [hc])).1, hwrite]
    rintro rfl
    exact (List.nodup_cons.mp hnew).1 hc
  have hq₂' : QueueSeg s₁.mem o (q.drop k) none := by
    refine hq₂.frame fun c hc => ?_
    have hca : c ≠ a := by
      rintro rfl
      exact (hout c (by simp)).2 hc
    rw [hframe c fun hin => hold.2.2 c hin c hc rfl, hwrite c hca]
  obtain ⟨s', hstart, hcompressed⟩ := startRecord_spec hx₁ hrest₁ hnew
  have hcc : s₁.sb.cc = lens (bodies (cellsOf q)) + x.body.len := by
    rw [hsb]
    simp [sballoc, h.cc]
  have hmbcnt : s₁.sb.mbcnt = charges (bodies (cellsOf q)) + x.body.charge := by
    rw [hsb]
    simp [sballoc, h.mbcnt]
  obtain ⟨r, hholds, hr⟩ := holds_insert hq₁'' hq₂' (by rw [hq]; exact hm.nodup) (by rw [hq]; exact hcc)
    (by rw [hq]; exact hmbcnt) hcompressed (bytesOf_started _ _) (started_head _ _)
  have hlocked : s'.sb.locked = s.sb.locked := by
    rw [hcompressed.locked, hsb]
    rfl
  refine ⟨s', r, ?_, hholds, hlocked, hr⟩
  simp [sbinsertoob, hplace, hx, deref_spec hq₁, hlink, hstart]

end Oob

/-! ### `sbappendaddr` and `sbappendcontrol` -/

section Push

variable {s : State A} {q : List (Record A)} {p : Option A} {cells cells' : List (A × Body)}

omit [DecidableEq A] in
theorem chainSpace_spec {mem : A → Option (Mbuf A)} {fuel : Nat} (h : ChainSeg mem p cells none)
    (hfuel : cells.length ≤ fuel) :
    chainSpace mem fuel p = some (lens (bodies cells), cells.getLast?.map Prod.fst) := by
  induction cells generalizing p fuel with
  | nil =>
    obtain rfl : p = none := h
    simp [chainSpace]
  | cons cell cells ih =>
    obtain ⟨rfl, x, hx, hbody, hrest⟩ := h
    obtain ⟨fuel, rfl⟩ : ∃ k, fuel = k + 1 := ⟨fuel - 1, by simp at hfuel; omega⟩
    have hspace := ih hrest (by simpa using hfuel)
    have hbody : x.body = cell.2 := hbody
    rw [chainSpace, hx]
    simp only [Option.bind_eq_bind, Option.bind_some, hspace, hbody]
    cases hcells : cells.getLast? with
    | none => simp [List.getLast?_cons, hcells]
    | some last => simp [List.getLast?_cons, hcells]

omit [DecidableEq A] in
theorem sballocChain_spec {fuel : Nat} (h : ChainSeg s.mem p cells none) (hfuel : cells.length ≤ fuel) :
    sballocChain fuel s p = some { s with
      sb := { s.sb with cc := s.sb.cc + lens (bodies cells), mbcnt := s.sb.mbcnt + charges (bodies cells) } } := by
  induction cells generalizing s p fuel with
  | nil =>
    obtain rfl : p = none := h
    simp [sballocChain]
  | cons cell cells ih =>
    obtain ⟨rfl, x, hx, hbody, hrest⟩ := h
    obtain ⟨fuel, rfl⟩ : ∃ k, fuel = k + 1 := ⟨fuel - 1, by simp at hfuel; omega⟩
    have halloc := @ih { s with sb := sballoc s.sb x.body } x.next fuel hrest (by simpa using hfuel)
    have hbody : x.body = cell.2 := hbody
    rw [sballocChain, hx]
    simp only [Option.bind_eq_bind, Option.bind_some, halloc]
    simp [sballoc, hbody, Nat.add_assoc]

/-- The last mbuf of a chain is made to point to another chain. -/
theorem join_spec {pre : List (A × Body)} {n : A} {b : Body} {y : Mbuf A} {m : Option A}
    (h : ChainSeg s.mem p (pre ++ [(n, b)]) none) (hy : s.mem n = some y) (hm : ChainSeg s.mem m cells none)
    (hnodup : (addrs (pre ++ [(n, b)]) ++ addrs cells).Nodup) :
    ChainSeg (s.write n { y with next := m }).mem p (pre ++ [(n, b)] ++ cells) none := by
  rw [addrs_append, List.nodup_append, List.nodup_append] at hnodup
  obtain ⟨⟨_, _, hpre⟩, _, hcells⟩ := hnodup
  obtain ⟨hbefore, y', hy', hbody, _⟩ := seg_snoc.mp h
  rw [hy] at hy'
  cases hy'
  refine Seg.append (seg_snoc.mpr ⟨hbefore.update ?_ _, { y with next := m }, write_mem_self .., hbody, rfl⟩)
    (hm.update ?_ _)
  · intro hin
    exact hpre n hin n (by simp) rfl
  · intro hin
    exact hcells n (by simp) n hin rfl

variable [Fintype A]

/-- A chain that is on no queue is counted and becomes the last record. -/
theorem push_spec {a : A} {b : Body} (h : Holds s q) (hm : Fresh s (some a) ((a, b) :: cells) q) :
    ∃ s' s₁, sballocChain (rounds A) s (some a) = some s₁ ∧ lastOf s₁ = some (lastHead q) ∧
      link s₁ (lastHead q) (some a) = some s' ∧ Holds s' (q ++ [((a, b), cells)]) ∧ s'.sb.locked = s.sb.locked := by
  have hnodup := List.nodup_append.mp hm.nodup
  have hlen : ((a, b) :: cells).length ≤ Fintype.card A := length_le_card hnodup.2.1
  have halloc := sballocChain_spec hm.chain (show ((a, b) :: cells).length ≤ rounds A by rw [rounds]; omega)
  obtain ⟨s', hlink, hq, hframe, hsb⟩ := @link_spec A _
    { s with sb := { s.sb with
        cc := s.sb.cc + lens (bodies ((a, b) :: cells)), mbcnt := s.sb.mbcnt + charges (bodies ((a, b) :: cells)) } }
    q none h.queue h.nodup (some a)
  refine ⟨s', _, halloc, lastOf_spec h.queue h.nodup, hlink, ⟨?_, ?_, ?_, ?_⟩, by rw [hsb]⟩
  · have hkept : ∀ c ∈ addrs ((a, b) :: cells), s'.mem c = s.mem c :=
      fun c hc => hframe c fun hin => hnodup.2.2 c hin c hc rfl
    obtain ⟨_, x, hx, hbody, hrest⟩ := hm.chain
    refine queueSeg_append.mpr ⟨some a, hq, queueSeg_cons.mpr ⟨x, rfl, ?_, hbody, ?_, ?_⟩⟩
    · rw [hkept a (by simp), hx]
    · exact hrest.frame fun c hc => hkept c (by simp [hc])
    · exact queueSeg_nil.mpr (hm.pkt a x (by simp) hx)
  · simpa [Record.cells] using hm.nodup
  · rw [hsb]
    simp [h.cc, Record.cells]
  · rw [hsb]
    simp [h.mbcnt, Record.cells]

omit [Fintype A] [DecidableEq A] in
theorem Holds.frame {s' : State A} (h : Holds s q) (hsb : s'.sb = s.sb)
    (hmem : ∀ a ∈ addrs (cellsOf q), s'.mem a = s.mem a) : Holds s' q := by
  refine ⟨?_, h.nodup, by rw [hsb, h.cc], by rw [hsb, h.mbcnt]⟩
  rw [hsb]
  exact h.queue.frame hmem

/-- Two chains that are handed over together. -/
structure FreshPair (s : State A) (control m0 : Option A) (cs ms : List (A × Body)) (q : List (Record A)) : Prop where
  control : ChainSeg s.mem control cs none
  data : ChainSeg s.mem m0 ms none
  pkt : ∀ a x, a ∈ addrs (cs ++ ms) → s.mem a = some x → x.nextpkt = none
  nodup : (addrs (cellsOf q) ++ addrs (cs ++ ms)).Nodup

omit [Fintype A] in
/-- The data is put behind the control mbufs. -/
theorem FreshPair.join {control m0 : Option A} {pre ms : List (A × Body)} {n : A} {b : Body} {y : Mbuf A}
    (h : FreshPair s control m0 (pre ++ [(n, b)]) ms q) (hy : s.mem n = some y) (hq : Holds s q) :
    Holds (s.write n { y with next := m0 }) q ∧
      Fresh (s.write n { y with next := m0 }) control (pre ++ [(n, b)] ++ ms) q := by
  have hnodup := List.nodup_append.mp h.nodup
  refine ⟨hq.frame rfl fun c hc => write_mem_of_ne _ _ ?_, join_spec h.control hy h.data ?_, fun a x ha hx => ?_, h.nodup⟩
  · rintro rfl
    exact hnodup.2.2 c hc c (by simp) rfl
  · rw [← addrs_append]
    exact hnodup.2.1
  · by_cases han : a = n
    · subst han
      rw [write_mem_self] at hx
      cases hx
      exact h.pkt a y ha hy
    · rw [write_mem_of_ne _ _ han] at hx
      exact h.pkt a x ha hx

omit [DecidableEq A] in
theorem FreshPair.length_le {control m0 : Option A} {cs ms : List (A × Body)} (h : FreshPair s control m0 cs ms q) :
    cs.length ≤ rounds A ∧ ms.length ≤ rounds A := by
  have hlen : (cs ++ ms).length ≤ Fintype.card A := length_le_card (List.nodup_append.mp h.nodup).2.1
  rw [List.length_append] at hlen
  constructor <;> rw [rounds] <;> omega

theorem sbappendcontrol_spec {control m0 : Option A} {cs ms : List (A × Body)} (h : Holds s q)
    (hm : FreshPair s control m0 cs ms q) (hcs : cs ≠ []) :
    ∃ s' ok q', sbappendcontrol s m0 control = some (ok, s') ∧ Holds s' q' ∧
      s'.sb.locked = s.sb.locked ∧ recordBodies q' = if ok then recordBodies q ++ [bodies cs ++ bodies ms] else recordBodies q := by
  obtain ⟨hlen, hlen'⟩ := hm.length_le
  have hspace := chainSpace_spec hm.control hlen
  have hdata := chainSpace_spec hm.data hlen'
  rcases List.eq_nil_or_concat cs with rfl | ⟨pre, ⟨n, b⟩, rfl⟩
  · exact absurd rfl hcs
  · rw [List.concat_eq_append] at *
    simp only [List.getLast?_append, List.getLast?_singleton, Option.some_or, Option.map_some] at hspace
    obtain ⟨_, y, hy, hbody, _⟩ := seg_snoc.mp hm.control
    by_cases hroom : ((lens (bodies (pre ++ [(n, b)])) + lens (bodies ms) : Nat) : Int) > sbspace s.sb
    · refine ⟨s, false, q, ?_, h, rfl, rfl⟩
      simp only [sbappendcontrol, hspace, hdata, Option.bind_eq_bind, Option.bind_some, if_pos hroom]
    · obtain ⟨hq, hfresh⟩ := hm.join hy h
      obtain ⟨⟨a, b₀⟩, rest, hcells⟩ : ∃ cell rest, pre ++ [(n, b)] ++ ms = cell :: rest := by
        cases pre with
        | nil => exact ⟨_, _, rfl⟩
        | cons cell pre => exact ⟨_, _, rfl⟩
      have hcontrol : control = some a := by
        have hchain := hfresh.chain
        rw [hcells] at hchain
        exact hchain.1
      rw [hcells, hcontrol] at hfresh
      obtain ⟨s', s₁, halloc, hlast, hlink, hholds, hlocked⟩ := push_spec hq hfresh
      refine ⟨s', true, q ++ [((a, b₀), rest)], ?_, hholds, hlocked, ?_⟩
      · rw [hcontrol] at hspace ⊢
        simp only [sbappendcontrol, hspace, hdata, Option.bind_eq_bind, Option.bind_some, if_neg hroom, hy, halloc, hlast,
          hlink]
      · rw [← bodies_append, hcells]
        simp [recordBodies, Record.cells]

/-- The mbuf that holds the address. -/
def sonameBody (asa : List Byte) : Body := { data := asa, mtype := .soname }

theorem sbappendaddr_spec {control m0 got : Option A} {cs ms : List (A × Body)} (asa : List Byte) (h : Holds s q)
    (hm : FreshPair s control m0 cs ms q) (hhdr : ∀ m, m0 = some m → ∃ x n, s.mem m = some x ∧ x.body.pkthdr = some n)
    (hgot : ∀ g, got = some g → s.mem g = none) :
    ∃ s' ok q', sbappendaddr s asa m0 control got = some (ok, s') ∧ Holds s' q' ∧
      s'.sb.locked = s.sb.locked ∧ recordBodies q' = if ok then recordBodies q ++ [sonameBody asa :: (bodies cs ++ bodies ms)] else recordBodies q := by
  obtain ⟨hlen, _⟩ := hm.length_le
  have hspace := chainSpace_spec hm.control hlen
  obtain ⟨data, hdata⟩ : ∃ data, pktLen s m0 = some data := by
    cases m0 with
    | none => exact ⟨0, rfl⟩
    | some m =>
      obtain ⟨x, n, hx, hn⟩ := hhdr m rfl
      exact ⟨n, by simp [pktLen, hx, hn]⟩
  have hrefused (hno : sbappendaddr s asa m0 control got = some (false, s)) :
      ∃ s' ok q', sbappendaddr s asa m0 control got = some (ok, s') ∧ Holds s' q' ∧
        s'.sb.locked = s.sb.locked ∧ recordBodies q' = if ok then recordBodies q ++ [sonameBody asa :: (bodies cs ++ bodies ms)] else recordBodies q :=
    ⟨s, false, q, hno, h, rfl, rfl⟩
  by_cases hroom : ((asa.length + data + lens (bodies cs) : Nat) : Int) > sbspace s.sb
  · apply hrefused
    simp only [sbappendaddr, hdata, hspace, Option.bind_eq_bind, Option.bind_some, if_pos hroom]
  by_cases hsize : asa.length > mlen
  · apply hrefused
    simp only [sbappendaddr, hdata, hspace, Option.bind_eq_bind, Option.bind_some, if_neg hroom, if_pos hsize]
  cases hgot' : got with
  | none =>
    rw [hgot'] at hrefused
    apply hrefused
    simp only [sbappendaddr, hdata, hspace, Option.bind_eq_bind, Option.bind_some, if_neg hroom, if_neg hsize]
  | some g =>
    have hfree := hgot g hgot'
    have hnodup := List.nodup_append.mp hm.nodup
    -- the chains joined, with the state and the head of the joined chain
    obtain ⟨s₁, head, hjoin, hq, hfresh, hg₁, hsb₁⟩ : ∃ s₁ head,
        concatControl s m0 control (cs.getLast?.map Prod.fst) = some (s₁, head) ∧
        Holds s₁ q ∧ Fresh s₁ head (cs ++ ms) q ∧ s₁.mem g = none ∧ s₁.sb = s.sb := by
      rcases List.eq_nil_or_concat cs with rfl | ⟨pre, ⟨n, b⟩, rfl⟩
      · exact ⟨s, m0, rfl, h, ⟨hm.data, hm.pkt, hm.nodup⟩, hfree, rfl⟩
      · rw [List.concat_eq_append] at *
        obtain ⟨_, y, hy, _, _⟩ := seg_snoc.mp hm.control
        obtain ⟨hq, hfresh⟩ := hm.join hy h
        refine ⟨s.write n { y with next := m0 }, control, by simp [concatControl, hy], hq, hfresh, ?_, rfl⟩
        rw [write_mem_of_ne, hfree]
        rintro rfl
        rw [hfree] at hy
        cases hy
    have hgq : g ∉ addrs (cellsOf q) := by
      intro hin
      obtain ⟨x, hx⟩ := hq.queue.exists_mem hin
      rw [hg₁] at hx
      cases hx
    have hgc : g ∉ addrs (cs ++ ms) := by
      intro hin
      obtain ⟨cell, hcell, rfl⟩ := List.mem_map.mp hin
      obtain ⟨x, hx, _⟩ := hfresh.chain.exists_mem hcell
      rw [hg₁] at hx
      cases hx
    have hq₂ : Holds (s₁.write g { next := head, body := sonameBody asa }) q := by
      refine hq.frame rfl fun c hc => write_mem_of_ne _ _ ?_
      rintro rfl
      exact hgq hc
    have hfresh₂ : Fresh (s₁.write g { next := head, body := sonameBody asa }) (some g)
        ((g, sonameBody asa) :: (cs ++ ms)) q := by
      refine ⟨⟨rfl, _, write_mem_self .., rfl, hfresh.chain.update hgc _⟩, fun a x ha hx => ?_, ?_⟩
      · by_cases hag : a = g
        · subst hag
          rw [write_mem_self] at hx
          cases hx
          rfl
        · rw [write_mem_of_ne _ _ hag] at hx
          refine hfresh.pkt a x ?_ hx
          rw [addrs_cons] at ha
          exact (List.mem_cons.mp ha).resolve_left hag
      · rw [addrs_cons]
        refine List.nodup_append.mpr ⟨hnodup.1, List.nodup_cons.mpr ⟨hgc, hnodup.2.1⟩, fun c hc d hd => ?_⟩
        rcases List.mem_cons.mp hd with rfl | hd
        · rintro rfl
          exact hgq hc
        · exact hnodup.2.2 c hc d hd
    obtain ⟨s', s₃, halloc, hlast, hlink, hholds, hlocked⟩ := push_spec hq₂ hfresh₂
    refine ⟨s', true, q ++ [((g, sonameBody asa), cs ++ ms)], ?_, hholds, by rw [hlocked, write_sb, hsb₁], ?_⟩
    · rw [sonameBody] at halloc
      simp only [sbappendaddr, hdata, hspace, Option.bind_eq_bind, Option.bind_some, if_neg hroom, if_neg hsize, hjoin,
        halloc, hlast, hlink]
    · simp [recordBodies, Record.cells]

end Push

/-! ### `sbdrop` -/

/-- What is left of a record without its first `n` bytes; no empty mbuf stays in front. -/
def dropRecord (n : Nat) : List Body → List Body
  | [] => []
  | b :: bs =>
    if b.len ≤ n then dropRecord (n - b.len) bs else b.trim n :: bs

/-- `sbdrop` on lists: a record goes with its last byte. -/
def dropList (n : Nat) : List (List Body) → List (List Body)
  | [] => []
  | r :: rs =>
    if n < lens r then dropRecord n r :: rs else if n = lens r then rs else dropList (n - lens r) rs

theorem dropList_cons_le {n : Nat} {b : Body} {r : List Body} {rs : List (List Body)} (h : b.len ≤ n) :
    dropList n ((b :: r) :: rs) = dropList (n - b.len) (r :: rs) := by
  simp only [dropList, lens_cons, dropRecord, if_pos h]
  rcases Nat.lt_trichotomy n (b.len + lens r) with hlt | heq | hgt
  · rw [if_pos hlt, if_pos (show n - b.len < lens r by omega)]
  · rw [if_neg (show ¬ n < b.len + lens r by omega), if_pos heq, if_neg (show ¬ n - b.len < lens r by omega),
      if_pos (show n - b.len = lens r by omega)]
  · rw [if_neg (show ¬ n < b.len + lens r by omega), if_neg (show n ≠ b.len + lens r by omega),
      if_neg (show ¬ n - b.len < lens r by omega), if_neg (show n - b.len ≠ lens r by omega), Nat.sub_sub]

theorem dropList_cons_lt {n : Nat} {b : Body} {r : List Body} {rs : List (List Body)} (h : n < b.len) :
    dropList n ((b :: r) :: rs) = (b.trim n :: r) :: rs := by
  rw [dropList, lens_cons, if_pos (by omega), dropRecord, if_neg (by omega)]

theorem dropList_nil_cons {n : Nat} (rs : List (List Body)) (h : 0 < n) : dropList n ([] :: rs) = dropList n rs := by
  rw [dropList, lens_nil, if_neg (by omega), if_neg (by omega), Nat.sub_zero]

/-- The first record is taken apart: what is left of it is the chain `c`, and `q` is behind it. -/
structure Parts (s : State A) (m next : Option A) (c : List (A × Body)) (q : List (Record A)) : Prop where
  chain : ChainSeg s.mem m c none
  queue : QueueSeg s.mem next q none
  nodup : (addrs c ++ addrs (cellsOf q)).Nodup
  cc : s.sb.cc = lens (bodies c) + lens (bodies (cellsOf q))
  mbcnt : s.sb.mbcnt = charges (bodies c) + charges (bodies (cellsOf q))

section Drop

variable {s : State A} {q : List (Record A)} {m next : Option A} {c : List (A × Body)} {a : A} {b : Body}

/-- `sbfree` and `MFREE` of the mbuf in front. -/
theorem Parts.free {x : Mbuf A} (h : Parts s (some a) next ((a, x.body) :: c) q) (hx : s.mem a = some x) :
    Parts (State.free { s with sb := sbfree s.sb x.body } a) x.next next c q := by
  obtain ⟨_, x', hx', _, hrest⟩ := h.chain
  rw [hx] at hx'
  cases hx'
  have hnodup := h.nodup
  rw [addrs_cons, List.cons_append, List.nodup_cons, List.mem_append, not_or] at hnodup
  refine ⟨hrest.update hnodup.1.1 none, h.queue.frame fun d hd => free_mem_of_ne _ ?_, hnodup.2, ?_, ?_⟩
  · rintro rfl
    exact hnodup.1.2 hd
  · have hcc := h.cc
    simp only [bodies_cons, lens_cons] at hcc
    simp only [free_sb, sbfree, hcc]
    omega
  · have hmbcnt := h.mbcnt
    simp only [bodies_cons, charges_cons] at hmbcnt
    simp only [free_sb, sbfree, hmbcnt]
    omega

/-- Bytes are cut from the mbuf in front. -/
theorem Parts.trim {x : Mbuf A} (h : Parts s (some a) next ((a, x.body) :: c) q) (hx : s.mem a = some x) {len : Nat}
    (hlen : len ≤ x.body.len) : Parts (s.trim a x len) (some a) next ((a, x.body.trim len) :: c) q := by
  obtain ⟨_, x', hx', _, hrest⟩ := h.chain
  rw [hx] at hx'
  cases hx'
  have hnodup := h.nodup
  rw [addrs_cons, List.cons_append, List.nodup_cons, List.mem_append, not_or] at hnodup
  refine ⟨⟨rfl, _, write_mem_self .., rfl, hrest.update hnodup.1.1 _⟩, h.queue.frame fun d hd => write_mem_of_ne _ _ ?_,
    h.nodup, ?_, ?_⟩
  · rintro rfl
    exact hnodup.1.2 hd
  · have hcc := h.cc
    simp only [bodies_cons, lens_cons, Body.len] at hcc hlen
    simp only [State.trim, bodies_cons, lens_cons, hcc, Body.len, Body.trim, List.length_drop]
    omega
  · have hmbcnt := h.mbcnt
    simpa [State.trim, Body.trim, Body.charge] using hmbcnt

theorem dropBytes_spec (fuel : Nat) {len : Nat} (h : Parts s m next c q)
    (hlen : len ≤ lens (bodies c) + lens (bodies (cellsOf q)))
    (hfuel : c.length + (cellsOf q).length + q.length ≤ fuel) :
    ∃ s' m' next' c' q', dropBytes fuel s m next len = some (s', m', next') ∧ Parts s' m' next' c' q' ∧
      s'.sb = { s.sb with cc := s'.sb.cc, mbcnt := s'.sb.mbcnt } ∧
      dropList 0 (bodies c' :: recordBodies q') = dropList len (bodies c :: recordBodies q) := by
  induction fuel generalizing s m next c q len with
  | zero =>
    have hc : c = [] := List.length_eq_zero_iff.mp (by omega)
    have hq : q = [] := List.length_eq_zero_iff.mp (by omega)
    subst hc hq
    obtain rfl : len = 0 := by simpa using hlen
    exact ⟨s, m, next, [], [], by simp [dropBytes], h, rfl, rfl⟩
  | succ fuel ih =>
    cases len with
    | zero => exact ⟨s, m, next, c, q, by simp [dropBytes], h, rfl, rfl⟩
    | succ len =>
      cases c with
      | nil =>
        -- the record is used up, the next one begins
        obtain rfl : m = none := h.chain
        cases q with
        | nil => simp at hlen
        | cons rec q =>
          obtain ⟨x, rfl, hx, hbody, _, hq⟩ := queueSeg_cons.mp h.queue
          have hparts : Parts s (some rec.1.1) x.nextpkt rec.cells q := by
            refine ⟨h.queue.chains rec List.mem_cons_self, hq, ?_, ?_, ?_⟩
            · simpa using h.nodup
            · simpa using h.cc
            · simpa using h.mbcnt
          have hrest : len + 1 ≤ lens (bodies rec.cells) + lens (bodies (cellsOf q)) := by simpa using hlen
          obtain ⟨s', m', next', c', q', hs', hparts', hsb, hdrop⟩ := ih hparts hrest (by simp at hfuel; omega)
          refine ⟨s', m', next', c', q', ?_, hparts', hsb, ?_⟩
          · simp [dropBytes, hx, hs']
          · rw [hdrop, bodies_nil, dropList_nil_cons _ (by omega)]
            rfl
      | cons cell c =>
        obtain ⟨a, b⟩ := cell
        obtain ⟨rfl, x, hx, rfl, hrest⟩ := h.chain
        by_cases hmore : x.body.len > len + 1
        · -- the mbuf has more bytes than are dropped
          refine ⟨s.trim a x (len + 1), some a, next, (a, x.body.trim (len + 1)) :: c, q, by simp [dropBytes, hx, hmore],
            h.trim hx (by omega), rfl, ?_⟩
          simp only [bodies_cons]
          rw [dropList_cons_lt hmore, dropList_cons_lt]
          · simp [Body.trim]
          · simp only [Body.len, Body.trim, List.length_drop] at hmore ⊢
            omega
        · obtain ⟨s', m', next', c', q', hs', hparts', hsb, hdrop⟩ :=
            @ih _ q x.next next c (len + 1 - x.body.len) (h.free hx) (by simp at hlen; omega) (by simp at hfuel; omega)
          refine ⟨s', m', next', c', q', ?_, hparts', hsb.trans rfl, ?_⟩
          · simp [dropBytes, hx, hmore, hs']
          · have hle : x.body.len ≤ len + 1 := by omega
            rw [hdrop, bodies_cons, dropList_cons_le hle]

theorem dropEmpty_spec (fuel : Nat) (h : Parts s m next c q) (hfuel : c.length ≤ fuel) :
    ∃ s' m' c', dropEmpty fuel s m = some (s', m') ∧ Parts s' m' next c' q ∧
      s'.sb = { s.sb with cc := s'.sb.cc, mbcnt := s'.sb.mbcnt } ∧
      dropList 0 (bodies c :: recordBodies q) = if c' = [] then recordBodies q else bodies c' :: recordBodies q := by
  induction c generalizing s m fuel with
  | nil =>
    obtain rfl : m = none := h.chain
    exact ⟨s, none, [], by simp [dropEmpty], h, rfl, by simp [dropList]⟩
  | cons cell c ih =>
    obtain ⟨a, b⟩ := cell
    obtain ⟨rfl, x, hx, rfl, hrest⟩ := h.chain
    obtain ⟨fuel, rfl⟩ : ∃ k, fuel = k + 1 := ⟨fuel - 1, by simp at hfuel; omega⟩
    by_cases hzero : x.body.len = 0
    · obtain ⟨s', m', c', hs', hparts, hsb, hdrop⟩ := ih fuel (h.free hx) (by simpa using hfuel)
      refine ⟨s', m', c', by simp [dropEmpty, hx, hzero, hs'], hparts, hsb.trans rfl, ?_⟩
      have hle : x.body.len ≤ 0 := by omega
      rw [← hdrop, bodies_cons, dropList_cons_le hle, Nat.zero_sub]
    · refine ⟨s, some a, (a, x.body) :: c, by simp [dropEmpty, hx, hzero], h, rfl, ?_⟩
      have hlt : 0 < x.body.len := by omega
      rw [bodies_cons, dropList_cons_lt hlt]
      simp [Body.trim]

/-- A chain in front of a queue is linked to it again. -/
theorem Parts.close (h : Parts s m next c q) :
    ∃ s' q', putFirst s m next = some s' ∧ Holds s' q' ∧ s'.sb = { s.sb with mb := s'.sb.mb } ∧
      recordBodies q' = if c = [] then recordBodies q else bodies c :: recordBodies q := by
  cases c with
  | nil =>
    obtain rfl : m = none := h.chain
    refine ⟨_, q, rfl, ⟨h.queue, ?_, ?_, ?_⟩, rfl, by simp⟩
    · simpa using h.nodup
    · simpa using h.cc
    · simpa using h.mbcnt
  | cons cell c =>
    obtain ⟨rfl, x, hx, hbody, hrest⟩ := h.chain
    have hnodup := h.nodup
    rw [addrs_cons, List.cons_append, List.nodup_cons, List.mem_append, not_or] at hnodup
    refine ⟨{ s.write cell.1 { x with nextpkt := next } with sb := { s.sb with mb := some cell.1 } }, (cell, c) :: q,
      by simp [putFirst, hx], ⟨?_, ?_, ?_, ?_⟩, rfl, by simp [recordBodies, Record.cells]⟩
    · refine queueSeg_cons.mpr ⟨{ x with nextpkt := next }, rfl, write_mem_self .., hbody, hrest.update hnodup.1.1 _, ?_⟩
      refine h.queue.frame fun d hd => write_mem_of_ne _ _ ?_
      rintro rfl
      exact hnodup.1.2 hd
    · simpa [Record.cells] using h.nodup
    · simpa [Record.cells, Nat.add_assoc] using h.cc
    · simpa [Record.cells, Nat.add_assoc] using h.mbcnt

variable [Fintype A]

theorem sbdrop_spec {len : Nat} (h : Holds s q) (hlen : len ≤ s.sb.cc) :
    ∃ s' q', sbdrop s len = some s' ∧ Holds s' q' ∧ s'.sb.locked = s.sb.locked ∧
      recordBodies q' = dropList len (recordBodies q) := by
  have hcard : (cellsOf q).length ≤ Fintype.card A := length_le_card h.nodup
  have hrecords := length_le_cells q
  obtain ⟨next, c, rest, hnext, hparts, hmeasure, hdrop⟩ : ∃ next c rest,
      nextPkt s s.sb.mb = some next ∧ Parts s s.sb.mb next c rest ∧
      c.length + (cellsOf rest).length + rest.length ≤ rounds A ∧
      dropList len (bodies c :: recordBodies rest) = dropList len (recordBodies q) := by
    cases q with
    | nil =>
      have hmb : s.sb.mb = none := queueSeg_nil.mp h.queue
      have hzero : len = 0 := by
        have hcc := h.cc
        simp at hcc
        omega
      refine ⟨none, [], [], by rw [hmb]; rfl, ⟨hmb, queueSeg_nil.mpr rfl, by simp, ?_, ?_⟩, by simp, ?_⟩
      · simpa using h.cc
      · simpa using h.mbcnt
      · simp [hzero, recordBodies, dropList]
    | cons rec q =>
      obtain ⟨x, hmb, hx, _, _, hq⟩ := queueSeg_cons.mp h.queue
      refine ⟨x.nextpkt, rec.cells, q, by simp [nextPkt, hmb, hx], ⟨?_, hq, ?_, ?_, ?_⟩, ?_, rfl⟩
      · rw [hmb]
        exact h.queue.chains rec List.mem_cons_self
      · simpa using h.nodup
      · simpa using h.cc
      · simpa using h.mbcnt
      · simp only [cellsOf_cons, List.length_append, List.length_cons] at hcard hrecords
        rw [rounds]
        omega
  obtain ⟨s₁, m₁, next₁, c₁, q₁, hbytes, hparts₁, hsb₁, hdrop₁⟩ :=
    @dropBytes_spec A _ s rest s.sb.mb next c (rounds A) len hparts (by rw [← hparts.cc]; exact hlen) hmeasure
  have hc₁ : c₁.length ≤ Fintype.card A := length_le_card (List.nodup_append.mp hparts₁.nodup).1
  obtain ⟨s₂, m₂, c₂, hempty, hparts₂, hsb₂, hdrop₂⟩ := dropEmpty_spec (rounds A) hparts₁ (by rw [rounds]; omega)
  obtain ⟨s', q', hclose, hholds, hsb, hq'⟩ := hparts₂.close
  refine ⟨s', q', ?_, hholds, ?_, ?_⟩
  · simp only [sbdrop, hnext, Option.bind_eq_bind, Option.bind_some, hbytes, hempty, hclose]
  · rw [hsb, hsb₂, hsb₁]
  · rw [hq', ← hdrop₂, hdrop₁, hdrop]

omit [Fintype A] in
theorem freeChain_spec (fuel : Nat) (h : Parts s m next c q) (hfuel : c.length ≤ fuel) :
    ∃ s', freeChain fuel s m = some s' ∧ Parts s' none next [] q ∧
      s'.sb = { s.sb with cc := s'.sb.cc, mbcnt := s'.sb.mbcnt } := by
  induction c generalizing s m fuel with
  | nil =>
    obtain rfl : m = none := h.chain
    exact ⟨s, by simp [freeChain], h, rfl⟩
  | cons cell c ih =>
    obtain ⟨a, b⟩ := cell
    obtain ⟨rfl, x, hx, rfl, hrest⟩ := h.chain
    obtain ⟨fuel, rfl⟩ : ∃ k, fuel = k + 1 := ⟨fuel - 1, by simp at hfuel; omega⟩
    obtain ⟨s', hs', hparts, hsb⟩ := ih fuel (h.free hx) (by simpa using hfuel)
    exact ⟨s', by simp [freeChain, hx, hs'], hparts, hsb.trans rfl⟩

theorem sbdroprecord_spec (h : Holds s q) :
    ∃ s' q', sbdroprecord s = some s' ∧ Holds s' q' ∧ s'.sb.locked = s.sb.locked ∧
      recordBodies q' = (recordBodies q).tail := by
  cases q with
  | nil =>
    have hmb : s.sb.mb = none := queueSeg_nil.mp h.queue
    exact ⟨s, [], by simp [sbdroprecord, hmb], h, rfl, rfl⟩
  | cons rec q =>
    obtain ⟨x, hmb, hx, _, _, hq⟩ := queueSeg_cons.mp h.queue
    have hparts : Parts { s with sb := { s.sb with mb := x.nextpkt } } (some rec.1.1) x.nextpkt rec.cells q := by
      refine ⟨h.queue.chains rec List.mem_cons_self, hq, ?_, ?_, ?_⟩
      · simpa using h.nodup
      · simpa using h.cc
      · simpa using h.mbcnt
    have hcard : (cellsOf (rec :: q)).length ≤ Fintype.card A := length_le_card h.nodup
    obtain ⟨s', hs', hparts', hsb⟩ := freeChain_spec (rounds A) hparts (by
      rw [cellsOf_cons, List.length_append] at hcard
      rw [rounds]
      omega)
    have hmb' : s'.sb.mb = x.nextpkt := by rw [hsb]
    refine ⟨s', q, by simp [sbdroprecord, hmb, hx, hs'], ⟨?_, ?_, ?_, ?_⟩, by rw [hsb], rfl⟩
    · rw [hmb']
      exact hparts'.queue
    · simpa using hparts'.nodup
    · simpa using hparts'.cc
    · simpa using hparts'.mbcnt

omit [DecidableEq A] [Fintype A] in
/-- Every mbuf is charged for, so nothing is charged only for an empty queue. -/
theorem Holds.eq_nil_of_mbcnt (h : Holds s q) (hzero : s.sb.mbcnt = 0) : q = [] := by
  cases q with
  | nil => rfl
  | cons rec q =>
    have hmbcnt := h.mbcnt
    simp only [cellsOf_cons, Record.cells, List.cons_append, bodies_cons, charges_cons, Body.charge, msize] at hmbcnt
    omega

theorem length_dropList_lens (r : List Body) (rs : List (List Body)) {n : Nat} (h : lens r ≤ n) :
    (dropList n (r :: rs)).length ≤ rs.length := by
  induction rs generalizing r n with
  | nil =>
    rw [dropList, if_neg (by omega)]
    split <;> simp [dropList]
  | cons r' rs ih =>
    rw [dropList, if_neg (by omega)]
    split
    · exact le_rfl
    · by_cases hmore : lens r' ≤ n - lens r
      · exact (ih r' hmore).trans (by simp)
      · rw [dropList, if_pos (by omega)]
        simp

theorem flushLoop_spec (fuel : Nat) (h : Holds s q) (hfuel : q.length ≤ fuel) :
    ∃ s', flushLoop fuel s = some s' ∧ Holds s' [] ∧ s'.sb.locked = s.sb.locked := by
  induction fuel generalizing s q with
  | zero =>
    obtain rfl : q = [] := List.length_eq_zero_iff.mp (by omega)
    have hzero : s.sb.mbcnt = 0 := by simpa using h.mbcnt
    exact ⟨s, by simp [flushLoop, hzero], h, rfl⟩
  | succ fuel ih =>
    by_cases hzero : s.sb.mbcnt = 0
    · obtain rfl := h.eq_nil_of_mbcnt hzero
      exact ⟨s, by simp [flushLoop, hzero], h, rfl⟩
    · -- the first record goes with its last byte, at the latest
      cases q with
      | nil => exact absurd (by simpa using h.mbcnt) hzero
      | cons rec q =>
        obtain ⟨s₁, q₁, hdrop, hholds, hlocked, hq₁⟩ := sbdrop_spec h (le_refl s.sb.cc)
        have hfirst : lens (bodies rec.cells) ≤ s.sb.cc := by
          rw [h.cc, cellsOf_cons, bodies_append, lens_append]
          omega
        have hshorter := length_dropList_lens (bodies rec.cells) (recordBodies q) hfirst
        have hlength : q₁.length ≤ fuel := by
          have hmap : (recordBodies q₁).length = q₁.length := List.length_map _
          rw [hq₁] at hmap
          simp only [recordBodies, List.map_cons, List.length_map] at hmap hshorter
          simp only [List.length_cons] at hfuel
          omega
        obtain ⟨s', hs', hholds', hlocked'⟩ := ih hholds hlength
        exact ⟨s', by simp [flushLoop, hzero, hdrop, hs'], hholds', hlocked'.trans hlocked⟩

theorem sbflush_spec (h : Holds s q) (hunlocked : s.sb.locked = false) :
    ∃ s', sbflush s = some s' ∧ Holds s' [] ∧ s'.sb.locked = s.sb.locked := by
  have hcard : (cellsOf q).length ≤ Fintype.card A := length_le_card h.nodup
  have hrecords := length_le_cells q
  obtain ⟨s', hs', hholds, hlocked⟩ := flushLoop_spec (rounds A) h (by rw [rounds]; omega)
  have hcc : s'.sb.cc = 0 := by simpa using hholds.cc
  have hmb : s'.sb.mb = none := queueSeg_nil.mp hholds.queue
  exact ⟨s', by simp [sbflush, hunlocked, hs', hcc, hmb], hholds, hlocked⟩

end Drop

end Reading.Kern.Sb
