import Reading.Kern.Soreceive

/-!
# What is received is what was appended

In every state that calls of `soreceive` and appends by the protocol can lead to, the bytes delivered and the bytes left in the buffer are together the bytes appended, and `sb_cc` counts those that are left. Between two points of the code where the priority is low the first record may be taken apart, with `sb_mb` null and the local variable `nextrecord` the only pointer to the rest; `front` is the pointer to the data in each state.
-/

namespace Reading.Kern.Sb

open Reading.Lib

variable {A : Type} [DecidableEq A]

/-- An mbuf of the types that a stream consists of. -/
def Body.IsData (b : Body) : Prop := b.mtype = .data ∨ b.mtype = .header

instance (b : Body) : Decidable b.IsData := inferInstanceAs (Decidable (_ ∨ _))

/-! ### Appending to a list of records -/

section Lists

variable {n : Body} {ms r : List Body} {q : List (List Body)} {eor : Bool}

theorem isData_packed (hn : n.IsData) (hms : ∀ m ∈ ms, m.IsData) : ∀ b ∈ packed n ms eor, b.IsData := by
  induction ms generalizing n eor with
  | nil =>
    intro b hb
    obtain rfl := List.mem_singleton.mp hb
    exact hn
  | cons m ms ih =>
    have hrest : ∀ m ∈ ms, m.IsData := fun m hm => hms m (List.mem_cons_of_mem _ hm)
    rw [packed]
    split
    · exact ih hn hrest
    · split
      · exact @ih { n with data := n.data ++ m.data } _ hn hrest
      · intro b hb
        rcases List.mem_cons.mp hb with rfl | hb
        · exact hn
        · exact @ih { m with eor := false } _ (hms m List.mem_cons_self) hrest b hb

theorem isData_packedAnew (hms : ∀ m ∈ ms, m.IsData) : ∀ b ∈ packedAnew ms eor, b.IsData := by
  induction ms generalizing eor with
  | nil => exact fun b hb => nomatch hb
  | cons m ms ih =>
    have hrest : ∀ m ∈ ms, m.IsData := fun m hm => hms m (List.mem_cons_of_mem _ hm)
    rw [packedAnew]
    split
    · exact ih hrest
    · exact @isData_packed { m with eor := false } _ _ (hms m List.mem_cons_self) hrest

theorem isData_started (hn : n.IsData) (hms : ∀ m ∈ ms, m.IsData) : ∀ b ∈ started n ms, b.IsData := by
  cases ms with
  | nil => simpa [started] using hn
  | cons m ms =>
    rw [started]
    split
    · refine @isData_packed { n with eor := false } _ _ hn fun b hb => ?_
      rcases List.mem_cons.mp hb with rfl | hb
      · exact hms m List.mem_cons_self
      · exact hms b (List.mem_cons_of_mem _ hb)
    · exact isData_packed hn hms

theorem isData_packedBehind (hr : ∀ b ∈ r, b.IsData) (hms : ∀ m ∈ ms, m.IsData) : ∀ b ∈ packedBehind r ms, b.IsData := by
  rw [packedBehind]
  cases hlast : r.getLast? with
  | none => exact isData_packedAnew hms
  | some n =>
    intro b hb
    rcases List.mem_append.mp hb with hb | hb
    · exact hr b (List.dropLast_subset r hb)
    · exact isData_packed (hr n (List.mem_of_getLast? hlast)) hms b hb

theorem isData_appendList (hq : ∀ b ∈ q.flatten, b.IsData) (hms : ∀ m ∈ ms, m.IsData) :
    ∀ b ∈ (appendList q ms).flatten, b.IsData := by
  cases ms with
  | nil => exact hq
  | cons m ms =>
    rcases List.eq_nil_or_concat q with rfl | ⟨init, r, rfl⟩
    · simp only [appendList, List.getLast?_nil]
      split
      · exact hq
      · simpa using isData_packedAnew hms
    · rw [List.concat_eq_append] at *
      simp only [List.flatten_append, List.mem_append] at hq
      have hr : ∀ b ∈ r, b.IsData := fun b hb => hq b (.inr (by simpa using hb))
      simp only [appendList, List.getLast?_append, List.getLast?_singleton, Option.some_or]
      intro b hb
      split at hb
      · simp only [List.flatten_append, List.mem_append] at hb
        rcases hb with hb | hb
        · exact hq b hb
        · refine isData_started (hms m List.mem_cons_self) (fun m hm => hms m (List.mem_cons_of_mem _ hm)) b ?_
          simpa using hb
      · simp only [List.dropLast_concat, List.flatten_append, List.mem_append] at hb
        rcases hb with hb | hb
        · exact hq b (.inl hb)
        · exact isData_packedBehind hr hms b (by simpa using hb)

theorem bytesOf_packedBehind : bytesOf (packedBehind r ms) = bytesOf r ++ bytesOf ms := by
  rcases List.eq_nil_or_concat r with rfl | ⟨init, n, rfl⟩
  · simp [packedBehind, bytesOf_packedAnew]
  · simp [packedBehind, bytesOf_packed]

theorem bytesOf_appendList : bytesOf (appendList q ms).flatten = bytesOf q.flatten ++ bytesOf ms := by
  cases ms with
  | nil => simp [appendList]
  | cons m ms =>
    rcases List.eq_nil_or_concat q with rfl | ⟨init, r, rfl⟩
    · simp only [appendList, List.getLast?_nil]
      have hbytes := bytesOf_packedAnew (m :: ms) false
      split
      · rename_i hempty
        rw [hempty] at hbytes
        simpa using hbytes
      · simpa using hbytes
    · simp only [appendList, List.concat_eq_append, List.getLast?_append, List.getLast?_singleton, Option.some_or]
      split
      · simp [bytesOf_started]
      · simp [bytesOf_packedBehind]

end Lists

omit [DecidableEq A] in
theorem flatten_recordBodies (q : List (Record A)) : (recordBodies q).flatten = bodies (cellsOf q) := by
  induction q with
  | nil => rfl
  | cons r q ih =>
    rw [recordBodies, List.map_cons, List.flatten_cons, cellsOf_cons, bodies_append, ← ih]
    rfl

/-! ### The front of the queue -/

section Front

variable {s : State A} {q : List (Record A)} {a : A}

omit [DecidableEq A] in
theorem Holds.eq_nil (h : Holds s q) (hmb : s.sb.mb = none) : q = [] := by
  have hqueue := h.queue
  rw [hmb] at hqueue
  cases q with
  | nil => rfl
  | cons r q =>
    obtain ⟨_, hp, _⟩ := queueSeg_cons.mp hqueue
    exact nomatch hp

omit [DecidableEq A] in
/-- The first record taken apart. -/
theorem Holds.parts (h : Holds s q) (hmb : s.sb.mb = some a) :
    ∃ x c rest, s.mem a = some x ∧ q = ((a, x.body), c) :: rest ∧ Parts s (some a) x.nextpkt ((a, x.body) :: c) rest := by
  have hqueue := h.queue
  rw [hmb] at hqueue
  cases q with
  | nil => exact nomatch queueSeg_nil.mp hqueue
  | cons r rest =>
    obtain ⟨⟨a', b⟩, c⟩ := r
    obtain ⟨x, hp, hx, hbody, hchain, hrest⟩ := queueSeg_cons.mp hqueue
    obtain rfl : a = a' := Option.some.inj hp
    have hbody : x.body = b := hbody
    subst hbody
    refine ⟨x, c, rest, hx, rfl, ⟨rfl, x, hx, rfl, hchain⟩, hrest, ?_, ?_, ?_⟩
    · simpa [Record.cells] using h.nodup
    · simpa [Record.cells, Nat.add_assoc] using h.cc
    · simpa [Record.cells, Nat.add_assoc] using h.mbcnt

omit [DecidableEq A] in
theorem Holds.first {b : Body} {rest : List (A × Body)} (h : Holds s q) (hcells : cellsOf q = (a, b) :: rest) :
    ∃ x, s.sb.mb = some a ∧ s.mem a = some x ∧ x.body = b := by
  cases q with
  | nil => exact nomatch hcells
  | cons r q =>
    obtain ⟨x, hp, hx, hbody, -⟩ := queueSeg_cons.mp h.queue
    obtain ⟨hr, -⟩ := List.cons.inj (show r.1 :: (r.2 ++ cellsOf q) = (a, b) :: rest from hcells)
    rw [hr] at hp hx hbody
    exact ⟨x, hp, hx, hbody⟩

theorem write_self {m : Mbuf A} (hm : s.mem a = some m) : s.write a m = s := by
  rw [State.write, ← hm, Function.update_eq_self]

omit [DecidableEq A] in
/-- The loop over the first record ends. -/
theorem hasMark_spec {mem : A → Option (Mbuf A)} {fuel : Nat} {p : Option A} {c : List (A × Body)} (h : ChainSeg mem p c none)
    (hfuel : c.length ≤ fuel) : ∃ mark, hasMark mem fuel p = some mark := by
  induction c generalizing p fuel with
  | nil =>
    obtain rfl : p = none := h
    exact ⟨false, by rw [hasMark]⟩
  | cons cell c ih =>
    obtain ⟨rfl, x, hx, -, hrest⟩ := h
    obtain ⟨fuel, rfl⟩ : ∃ k, fuel = k + 1 := ⟨fuel - 1, by simp at hfuel; omega⟩
    by_cases hmark : x.body.mtype = .oobdata ∨ x.body.eor = true
    · exact ⟨true, by simp [hasMark, hx, hmark]⟩
    · obtain ⟨mark, hloop⟩ := ih hrest (by simpa using hfuel)
      exact ⟨mark, by simp [hasMark, hx, hmark, hloop]⟩

end Front

/-! ### The invariant -/

/-- The pointer to the data that is left. -/
def front (w : World A) : Option A :=
  match w.proc with
  | .loop _ none nextrecord | .waitall _ none nextrecord | .finish _ none nextrecord => nextrecord
  | _ => w.so.rcv.sb.mb

/-- The buffer with its data beginning at `p`. -/
def State.startAt (s : State A) (p : Option A) : State A := { s with sb := { s.sb with mb := p } }

/-- The first mbuf is linked as it should be already. -/
theorem putFirst_self {s : State A} {a : A} {x : Mbuf A} (hx : s.mem a = some x) :
    putFirst s (some a) x.nextpkt = some (s.startAt (some a)) := by
  have hwrite : s.write a { x with nextpkt := x.nextpkt } = s := write_self hx
  simp [putFirst, hx, hwrite, State.startAt]

/-- What holds of the local variables. -/
def Proc.Agrees (rcv : State A) : Proc A → Prop
  | .idle _ | .restart _ | .sleeping _ => rcv.sb.locked = false
  | .loop _ m _ | .waitall _ m _ | .finish _ m _ => rcv.sb.locked = true ∧ rcv.sb.mb = m
  | .moving _ m _ len copied =>
    rcv.sb.locked = true ∧ rcv.sb.mb = some m ∧ copied.length ≤ len ∧
      ∃ x, rcv.mem m = some x ∧ len ≤ x.body.len ∧ copied <+: x.body.data
  | .sleepingAll _ nextrecord => rcv.sb.locked = true ∧ nextrecord = none

/-- The data that is left is in `q`. -/
structure Keeps (w : World A) (q : List (Record A)) : Prop where
  holds : Holds (w.so.rcv.startAt (front w)) q
  isData : ∀ b ∈ bodies (cellsOf q), b.IsData
  fifo : w.delivered ++ bytesOf (bodies (cellsOf q)) = w.appended
  agrees : w.proc.Agrees w.so.rcv

section Steps

variable {w : World A} {q : List (Record A)} {c : Receive} {m nextrecord : Option A}

omit [DecidableEq A] in
theorem front_of_interruptible (h : w.proc.interruptible = true) : front w = w.so.rcv.sb.mb := by
  rw [front]
  cases hproc : w.proc <;> rw [hproc] at h <;> first | rfl | cases h

omit [DecidableEq A] in
theorem front_afterCopy (h : w.proc = afterCopy c m nextrecord) :
    front w = if m = none then nextrecord else w.so.rcv.sb.mb := by
  rw [front, h, afterCopy]
  cases c.eor <;> cases m <;> rfl

omit [DecidableEq A] in
theorem agrees_afterCopy {rcv : State A} (hlocked : rcv.sb.locked = true) (hmb : rcv.sb.mb = m) :
    (afterCopy c m nextrecord).Agrees rcv := by
  rw [afterCopy]
  cases c.eor <;> exact ⟨hlocked, hmb⟩

/-- The first record is put together again from what is left of it. -/
theorem Parts.keeps {s : State A} {p next : Option A} {cells : List (A × Body)} (h : Parts s p next cells q)
    (hput : putFirst s p next = some (w.so.rcv.startAt (front w)))
    (hdata : ∀ b ∈ bodies cells ++ bodies (cellsOf q), b.IsData)
    (hfifo : w.delivered ++ bytesOf (bodies cells ++ bodies (cellsOf q)) = w.appended) (hagrees : w.proc.Agrees w.so.rcv) :
    ∃ q', Keeps w q' := by
  obtain ⟨s', q', hs', hholds, -, hbodies⟩ := h.close
  rw [hput] at hs'
  cases hs'
  have hleft : bodies (cellsOf q') = bodies cells ++ bodies (cellsOf q) := by
    rw [← flatten_recordBodies, hbodies, ← flatten_recordBodies q]
    split
    · rename_i hempty
      rw [hempty, bodies_nil, List.nil_append]
    · rw [List.flatten_cons]
  exact ⟨q', hholds, by rwa [hleft], by rwa [hleft], hagrees⟩

variable [Fintype A]

omit [Fintype A] in
/-- The bytes that were copied leave the buffer, however it has grown meanwhile. -/
theorem consume_spec {a : A} {x : Mbuf A} {len : Nat} (hholds : Holds w.so.rcv q) (hmb : w.so.rcv.sb.mb = some a)
    (hlocked : w.so.rcv.sb.locked = true) (hdata : ∀ b ∈ bodies (cellsOf q), b.IsData)
    (hfifo : w.delivered ++ bytesOf (bodies (cellsOf q)) = w.appended) (hx : w.so.rcv.mem a = some x)
    (hlen : len ≤ x.body.len) :
    ∃ w' q', consume w c a nextrecord len (x.body.data.take len) = some w' ∧ Keeps w' q' := by
  obtain ⟨x', cells, rest, hx', rfl, hparts⟩ := hholds.parts hmb
  rw [hx] at hx'
  cases hx'
  simp only [cellsOf_cons, Record.cells, List.cons_append, bodies_cons, bodies_append, bytesOf_cons] at hdata hfifo
  rw [← List.append_assoc] at hfifo
  by_cases hwhole : len = x.body.len
  · -- the mbuf is freed
    have hall : x.body.data.take len = x.body.data := by
      rw [hwhole]
      exact List.take_length
    have hfree := hparts.free hx
    have hrest : ∀ b ∈ bodies cells ++ bodies (cellsOf rest), b.IsData := fun b hb => hdata b (List.mem_cons_of_mem _ hb)
    rw [← hall] at hfifo
    cases hnext : x.next with
    | none =>
      rw [hnext] at hfree
      obtain ⟨q', hq'⟩ := @Parts.keeps A _
        { w with
          so := { w.so with rcv := State.startAt (State.free { w.so.rcv with sb := sbfree w.so.rcv.sb x.body } a) none }
          proc := afterCopy { c with resid := c.resid - len, eor := c.eor || x.body.eor } none x.nextpkt
          delivered := w.delivered ++ x.body.data.take len } _ _ _ _ _ hfree
        (by rw [putFirst, front_afterCopy rfl]; rfl) hrest hfifo (agrees_afterCopy hlocked rfl)
      refine ⟨_, q', ?_, hq'⟩
      simp [consume, hx, hwhole, hnext, State.startAt]
    | some n =>
      rw [hnext] at hfree
      obtain ⟨y, hy⟩ : ∃ y, (State.free { w.so.rcv with sb := sbfree w.so.rcv.sb x.body } a).mem n = some y := by
        cases cells with
        | nil =>
          have hchain := hfree.chain
          cases hchain
        | cons cell cells =>
          obtain ⟨hn, y, hy, -⟩ := hfree.chain
          cases hn
          exact ⟨y, hy⟩
      obtain ⟨q', hq'⟩ := @Parts.keeps A _
        { w with
          so := { w.so with
            rcv := State.write (State.startAt (State.free { w.so.rcv with sb := sbfree w.so.rcv.sb x.body } a) (some n)) n
              { y with nextpkt := x.nextpkt } }
          proc := afterCopy { c with resid := c.resid - len, eor := c.eor || x.body.eor } (some n) x.nextpkt
          delivered := w.delivered ++ x.body.data.take len } _ _ _ _ _ hfree
        (by rw [putFirst, front_afterCopy rfl, hy]; rfl) hrest hfifo (agrees_afterCopy hlocked rfl)
      refine ⟨_, q', ?_, hq'⟩
      simp [consume, hx, hwhole, hnext, State.startAt, hy]
  · -- what was copied is cut off
    have htrim := hparts.trim hx hlen
    have hcut : (x.body.trim len).data = x.body.data.drop len := rfl
    have hfirst : (w.so.rcv.trim a x len).mem a = some { x with body := x.body.trim len } := write_mem_self ..
    have hleft : ∀ b ∈ bodies ((a, x.body.trim len) :: cells) ++ bodies (cellsOf rest), b.IsData := by
      intro b hb
      rcases List.mem_cons.mp hb with rfl | hb
      · exact hdata x.body List.mem_cons_self
      · exact hdata b (List.mem_cons_of_mem _ hb)
    have hbytes : w.delivered ++ x.body.data.take len
        ++ bytesOf (bodies ((a, x.body.trim len) :: cells) ++ bodies (cellsOf rest)) = w.appended := by
      simp only [bodies_cons, List.cons_append, bytesOf_cons, hcut]
      rw [← List.append_assoc, List.append_assoc w.delivered, List.take_append_drop, hfifo]
    obtain ⟨q', hq'⟩ := @Parts.keeps A _
      { w with
        so := { w.so with rcv := w.so.rcv.trim a x len }
        proc := afterCopy { c with resid := c.resid - len } (some a) nextrecord
        delivered := w.delivered ++ x.body.data.take len } _ _ _ _ _ htrim
      (by
        rw [front_afterCopy rfl, if_neg (by simp), show (w.so.rcv.trim a x len).sb.mb = some a from hmb]
        exact @putFirst_self A _ _ a { x with body := x.body.trim len } hfirst) hleft hbytes (agrees_afterCopy hlocked hmb)
    refine ⟨_, q', ?_, hq'⟩
    simp [consume, hx, hwhole]

theorem exists_ite {D : Type} {P : D → Prop} {c : Prop} [Decidable c] {x y : Option D} (hx : ∃ d, x = some d ∧ P d)
    (hy : ∃ d, y = some d ∧ P d) : ∃ d, (if c then x else y) = some d ∧ P d := by
  split
  · exact hx
  · exact hy

omit [DecidableEq A] in
/-- Neither of the two panics is reached, and at `dontblock` there is an mbuf. -/
theorem decision_spec {so : Socket A} (h : Holds so.rcv q) :
    ∃ d, decision so c = some d ∧ (d = .dontblock → so.rcv.sb.mb.isSome) := by
  have hcard : (cellsOf q).length ≤ Fintype.card A := length_le_card h.nodup
  cases hmb : so.rcv.sb.mb with
  | none =>
    have hcc : so.rcv.sb.cc = 0 := by
      have hcc := h.cc
      rwa [h.eq_nil hmb] at hcc
    simp only [decision, hmb, load, mustWait, hcc, hasMark, Option.bind_eq_bind, Option.bind_some, Option.isSome_none,
      ne_eq, not_true, and_false, if_false, if_true, Bool.false_eq_true]
    repeat' apply exists_ite
    all_goals exact ⟨_, rfl, nofun⟩
  | some a =>
    obtain ⟨x, cells, rest, hx, rfl, hparts⟩ := h.parts hmb
    have hlen : ((a, x.body) :: cells).length ≤ rounds A := by
      simp only [cellsOf_cons, Record.cells, List.length_append, List.length_cons] at hcard ⊢
      rw [rounds]
      omega
    obtain ⟨mark, hmark⟩ := hasMark_spec hparts.chain hlen
    simp only [decision, hmb, load, hx, hmark, Option.map_some, Option.bind_eq_bind, Option.bind_some, Option.isSome_some,
      Option.isNone_some, Bool.false_eq_true, false_and, if_false, if_true, implies_true]
    repeat' apply exists_ite
    all_goals exact ⟨_, rfl, trivial⟩

omit [DecidableEq A] [Fintype A] in
/-- Changes that leave the queue and its counters alone. -/
theorem Keeps.move {w' : World A} (h : Keeps w q) (hmem : w'.so.rcv.mem = w.so.rcv.mem) (hfront : front w' = front w)
    (hcc : w'.so.rcv.sb.cc = w.so.rcv.sb.cc) (hmbcnt : w'.so.rcv.sb.mbcnt = w.so.rcv.sb.mbcnt)
    (hdelivered : w'.delivered = w.delivered) (happended : w'.appended = w.appended)
    (hagrees : w'.proc.Agrees w'.so.rcv) : Keeps w' q := by
  refine ⟨⟨?_, h.holds.nodup, hcc.trans h.holds.cc, hmbcnt.trans h.holds.mbcnt⟩, h.isData, ?_, hagrees⟩
  · have hqueue := h.holds.queue
    simp only [State.startAt] at hqueue ⊢
    rwa [hmem, hfront]
  · rw [hdelivered, happended, h.fifo]

omit [DecidableEq A] [Fintype A] in
theorem Keeps.holds_rcv (h : Keeps w q) (hfront : front w = w.so.rcv.sb.mb) : Holds w.so.rcv q := by
  have hholds := h.holds
  rwa [hfront] at hholds

omit [DecidableEq A] [Fintype A] in
theorem Holds.startAt (h : Holds w.so.rcv q) (hfront : front w = w.so.rcv.sb.mb) : Holds (w.so.rcv.startAt (front w)) q := by
  rw [hfront]
  exact h

omit [DecidableEq A] [Fintype A] in
theorem clearError_rcv (so : Socket A) : (clearError so).rcv = so.rcv := by
  rw [clearError]
  split <;> rfl

theorem start_spec (h : Keeps w q) (hproc : w.proc = .restart c) : ∃ w', start w c = some w' ∧ Keeps w' q := by
  have hfront : front w = w.so.rcv.sb.mb := front_of_interruptible (by rw [hproc]; rfl)
  have hunlocked : w.so.rcv.sb.locked = false := by
    have hagrees := h.agrees
    rwa [hproc] at hagrees
  obtain ⟨so, hlock, hmem, hsb⟩ : ∃ so, w.so.lock = some so ∧ so.rcv.mem = w.so.rcv.mem ∧
      so.rcv.sb = { w.so.rcv.sb with locked := true } := ⟨_, if_neg (by simp [hunlocked]), rfl, rfl⟩
  have hmb : so.rcv.sb.mb = front w := by rw [hsb, hfront]
  have hcc : so.rcv.sb.cc = w.so.rcv.sb.cc := by rw [hsb]
  have hmbcnt : so.rcv.sb.mbcnt = w.so.rcv.sb.mbcnt := by rw [hsb]
  have hholds : Holds so.rcv q := by
    have hrcv := h.holds_rcv hfront
    refine ⟨?_, hrcv.nodup, hcc.trans hrcv.cc, hmbcnt.trans hrcv.mbcnt⟩
    rw [hmem, hmb, hfront]
    exact hrcv.queue
  obtain ⟨d, hd, hsome⟩ := decision_spec (c := c) hholds
  simp only [start, hlock, Option.bind_eq_bind, Option.bind_some, hd]
  cases d with
  | release error =>
    have hrcv : (clearError so).unlock.rcv = so.unlock.rcv := by
      rw [Socket.unlock, clearError_rcv]
      rfl
    refine ⟨_, rfl, h.move ?_ ?_ ?_ ?_ rfl rfl ?_⟩
    · exact (congrArg State.mem hrcv).trans hmem
    · exact (congrArg (fun s => s.sb.mb) hrcv).trans hmb
    · exact (congrArg (fun s => s.sb.cc) hrcv).trans hcc
    · exact (congrArg (fun s => s.sb.mbcnt) hrcv).trans hmbcnt
    · rfl
  | sleep => exact ⟨_, rfl, h.move hmem hmb hcc hmbcnt rfl rfl rfl⟩
  | dontblock =>
    obtain ⟨a, ha⟩ := Option.isSome_iff_exists.mp (hsome rfl)
    obtain ⟨x, -, -, hx, -, -⟩ := hholds.parts ha
    have hwrite : so.rcv.write a { x with nextpkt := x.nextpkt } = so.rcv := write_self hx
    simp only [ha, hx, Option.bind_some, hwrite]
    exact ⟨_, rfl, h.move hmem hmb hcc hmbcnt rfl rfl ⟨by rw [hsb], ha⟩⟩

omit [Fintype A] in
theorem loopHead_spec (h : Keeps w q) (hproc : w.proc = .loop c m nextrecord) :
    ∃ w' q', loopHead w c m nextrecord = some w' ∧ Keeps w' q' := by
  obtain ⟨hlocked, hmb⟩ : w.so.rcv.sb.locked = true ∧ w.so.rcv.sb.mb = m := by
    have hagrees := h.agrees
    rwa [hproc] at hagrees
  cases m with
  | none => exact ⟨_, q, rfl, h.move rfl (by rw [front, front, hproc]) rfl rfl rfl rfl ⟨hlocked, hmb⟩⟩
  | some a =>
    have hfront : front w = w.so.rcv.sb.mb := by rw [front, hproc]
    have hholds := h.holds_rcv hfront
    obtain ⟨x, cells, rest, hx, hq, -⟩ := hholds.parts hmb
    have htype : ¬ (x.body.mtype ≠ .data ∧ x.body.mtype ≠ .header) := by
      have hdata := h.isData x.body (by simp [hq, Record.cells])
      rcases hdata with hdata | hdata <;> simp [hdata]
    simp only [loopHead, hx, Option.bind_eq_bind, Option.bind_some, if_neg htype]
    split
    · exact ⟨_, q, rfl, h.move rfl hfront.symm rfl rfl rfl rfl ⟨hlocked, hmb⟩⟩
    · split
      · exact consume_spec hholds hmb hlocked h.isData h.fifo hx (Nat.min_le_right _ _)
      · refine ⟨_, q, rfl, h.move rfl hfront.symm rfl rfl rfl rfl ⟨hlocked, hmb, Nat.zero_le _, x, hx, ?_, List.nil_prefix⟩⟩
        exact Nat.min_le_right _ _

omit [DecidableEq A] [Fintype A] in
theorem waitallHead_spec (h : Keeps w q) (hproc : w.proc = .waitall c m nextrecord) :
    Keeps (waitallHead w c m nextrecord) q := by
  obtain ⟨hlocked, hmb⟩ : w.so.rcv.sb.locked = true ∧ w.so.rcv.sb.mb = m := by
    have hagrees := h.agrees
    rwa [hproc] at hagrees
  rw [waitallHead]
  split
  · rename_i hwait
    obtain ⟨-, rfl, -, rfl, -, -⟩ := hwait
    exact h.move rfl (by rw [front, front, hproc, hmb]) rfl rfl rfl rfl ⟨hlocked, rfl⟩
  · refine h.move rfl ?_ rfl rfl rfl rfl ⟨hlocked, hmb⟩
    rw [front, front, hproc]
    cases m <;> rfl

omit [DecidableEq A] [Fintype A] in
theorem finish_spec (h : Keeps w q) (hproc : w.proc = .finish c m nextrecord) : Keeps (finish w c m nextrecord) q := by
  have hrcv : (dropFirst w.so m nextrecord).rcv = w.so.rcv.startAt (front w) := by
    rw [dropFirst, front, hproc]
    cases m with
    | none => rfl
    | some a => rfl
  have hmem := congrArg State.mem hrcv
  have hfront := congrArg (fun s => s.sb.mb) hrcv
  have hcc := congrArg (fun s => s.sb.cc) hrcv
  have hmbcnt := congrArg (fun s => s.sb.mbcnt) hrcv
  rw [finish]
  split
  · exact h.move hmem hfront hcc hmbcnt rfl rfl rfl
  · exact h.move hmem hfront hcc hmbcnt rfl rfl rfl

omit [DecidableEq A] [Fintype A] in
theorem wake_spec (h : Keeps w q) (error : Nat) : ∃ w', wake w error = some w' ∧ Keeps w' q := by
  rw [wake]
  cases hproc : w.proc with
  | sleeping c =>
    have hagrees := h.agrees
    rw [hproc] at hagrees
    have hfront : front w = w.so.rcv.sb.mb := by rw [front, hproc]
    simp only
    by_cases herror : error ≠ 0
    · rw [if_pos herror]
      exact ⟨_, rfl, h.move rfl hfront.symm rfl rfl rfl rfl hagrees⟩
    · rw [if_neg herror]
      exact ⟨_, rfl, h.move rfl hfront.symm rfl rfl rfl rfl hagrees⟩
  | sleepingAll c nextrecord =>
    obtain ⟨hlocked, rfl⟩ : w.so.rcv.sb.locked = true ∧ nextrecord = none := by
      have hagrees := h.agrees
      rwa [hproc] at hagrees
    have hfront : front w = w.so.rcv.sb.mb := by rw [front, hproc]
    simp only
    split
    · exact ⟨_, rfl, h.move rfl hfront.symm rfl rfl rfl rfl rfl⟩
    · cases hmb : w.so.rcv.sb.mb with
      | none =>
        refine ⟨_, rfl, h.move rfl ?_ rfl rfl rfl rfl ⟨hlocked, hmb⟩⟩
        rw [hfront, hmb]
        rfl
      | some a =>
        obtain ⟨x, -, -, hx, -, -⟩ := (h.holds_rcv hfront).parts hmb
        simp only [load, hx, Option.map_some, Option.bind_eq_bind, Option.bind_some]
        refine ⟨_, rfl, h.move rfl ?_ rfl rfl rfl rfl ⟨hlocked, hmb⟩⟩
        rw [hfront]
        rfl
  | idle _ | restart _ | loop _ _ _ | moving _ _ _ _ _ | waitall _ _ _ | finish _ _ _ => exact ⟨w, rfl, h⟩

omit [DecidableEq A] [Fintype A] in
theorem copyBytes_spec (h : Keeps w q) (n : Nat) : ∃ w', copyBytes w n = some w' ∧ Keeps w' q := by
  rw [copyBytes]
  cases hproc : w.proc with
  | moving c a nextrecord len copied =>
    have hagrees := h.agrees
    rw [hproc] at hagrees
    obtain ⟨hlocked, hmb, hle, x, hx, hlen, hprefix⟩ := hagrees
    have hfront : front w = w.so.rcv.sb.mb := by rw [front, hproc]
    simp only [hx, Option.bind_eq_bind, Option.bind_some]
    refine ⟨_, rfl, h.move rfl hfront.symm rfl rfl rfl rfl ⟨hlocked, hmb, ?_, x, hx, hlen, ?_⟩⟩
    · have hpiece := List.length_take_le (min n (len - copied.length)) (x.body.data.drop copied.length)
      rw [List.length_append]
      omega
    · obtain ⟨rest, hrest⟩ := hprefix
      rw [← hrest, List.drop_left]
      exact (List.prefix_append_right_inj copied).mpr (List.take_prefix _ _)
  | idle _ | restart _ | sleeping _ | sleepingAll _ _ | loop _ _ _ | waitall _ _ _ | finish _ _ _ => exact ⟨w, rfl, h⟩

theorem go_spec (h : Keeps w q) : ∃ w' q', go w = some w' ∧ Keeps w' q' := by
  rw [go]
  cases hproc : w.proc with
  | restart c =>
    obtain ⟨w', hw', hkeeps⟩ := start_spec h hproc
    exact ⟨w', q, hw', hkeeps⟩
  | loop c m nextrecord => exact loopHead_spec h hproc
  | moving c a nextrecord len copied =>
    have hagrees := h.agrees
    rw [hproc] at hagrees
    obtain ⟨hlocked, hmb, hle, x, hx, hlen, hprefix⟩ := hagrees
    have hfront : front w = w.so.rcv.sb.mb := by rw [front, hproc]
    simp only
    split
    · rename_i hdone
      have hcopied : copied = x.body.data.take len := by rw [← hdone, ← List.prefix_iff_eq_take.mp hprefix]
      rw [hcopied]
      exact consume_spec (h.holds_rcv hfront) hmb hlocked h.isData h.fifo hx hlen
    · exact ⟨w, q, rfl, h⟩
  | waitall c m nextrecord => exact ⟨_, q, rfl, waitallHead_spec h hproc⟩
  | finish c m nextrecord => exact ⟨_, q, rfl, finish_spec h hproc⟩
  | idle _ | sleeping _ | sleepingAll _ _ => exact ⟨w, q, rfl, h⟩

theorem append_spec {chain : List (A × Body)} (h : Keeps w q) (hint : w.proc.interruptible = true)
    (havail : Available w.so.rcv chain) (hdata : ∀ b ∈ bodies chain, b.IsData) :
    ∃ w' q', w.step (.append chain) = some w' ∧ Keeps w' q' := by
  have hholds := h.holds_rcv (front_of_interruptible hint)
  obtain ⟨s', q', hs', hholds', hlocked, hgrown, hq'⟩ := sbappend_spec (hholds.fill havail) (hholds.fresh havail)
  have hleft : bodies (cellsOf q') = (appendList (recordBodies q) (bodies chain)).flatten := by
    rw [← flatten_recordBodies, hq']
  have hlocked : s'.sb.locked = w.so.rcv.sb.locked := by rw [hlocked, fill_sb]
  refine ⟨{ w with so := { w.so with rcv := s' }, appended := w.appended ++ bytesOf (bodies chain) }, q', ?_, ?_, ?_, ?_, ?_⟩
  · simp [World.step, hint, hs']
  · exact hholds'.startAt (front_of_interruptible hint)
  · rw [hleft]
    refine isData_appendList ?_ hdata
    rw [flatten_recordBodies]
    exact h.isData
  · rw [hleft, bytesOf_appendList, flatten_recordBodies, ← List.append_assoc, h.fifo]
  · have hagrees := h.agrees
    change w.proc.Agrees s'
    cases hproc : w.proc with
    | idle error | restart c | sleeping c =>
      rw [hproc] at hagrees
      exact hlocked.trans hagrees
    | loop c m nextrecord | waitall c m nextrecord | finish c m nextrecord =>
      rw [hproc] at hint
      cases hint
    | sleepingAll c nextrecord =>
      rw [hproc] at hagrees
      exact ⟨hlocked.trans hagrees.1, hagrees.2⟩
    | moving c a nextrecord len copied =>
      -- the mbuf is still the first one, with more bytes at its end
      rw [hproc] at hagrees
      obtain ⟨hlock, hmb, hle, x, hx, hlen, hprefix⟩ := hagrees
      obtain ⟨x', cells, rest, hx', rfl, -⟩ := hholds.parts hmb
      rw [hx] at hx'
      cases hx'
      obtain ⟨b', rest', hcells, hdata⟩ := hgrown a x.body (cells ++ cellsOf rest) (by simp [Record.cells])
      obtain ⟨y, hmb', hy, hbody⟩ := hholds'.first hcells
      rw [← hbody] at hdata
      exact ⟨hlocked.trans hlock, hmb', hle, y, hy, hlen.trans hdata.length_le, hprefix.trans hdata⟩

/-- The protocol appends chains of free mbufs, filled with the data of a stream. -/
def Action.Allowed (w : World A) : Action A → Prop
  | .append chain => Available w.so.rcv chain ∧ ∀ b ∈ bodies chain, b.IsData
  | _ => True

theorem step_spec (h : Keeps w q) {action : Action A} (hallowed : action.Allowed w) :
    ∃ w' q', w.step action = some w' ∧ Keeps w' q' := by
  cases action with
  | append chain =>
    cases hint : w.proc.interruptible with
    | true => exact append_spec h hint hallowed.1 hallowed.2
    | false => exact ⟨w, q, by simp [World.step, hint], h⟩
  | change error cantrcvmore connected nbio hiwat mbmax lowat =>
    rw [World.step]
    split
    · rename_i hint
      have hfront := front_of_interruptible hint
      refine ⟨_, q, rfl, h.move rfl ?_ rfl rfl rfl rfl ?_⟩
      · exact (front_of_interruptible hint).trans hfront.symm
      · have hagrees := h.agrees
        change w.proc.Agrees _
        cases hproc : w.proc <;> rw [hproc] at hagrees <;> exact hagrees
    · exact ⟨w, q, rfl, h⟩
  | call resid waitall dontwait mp =>
    rw [World.step]
    cases hproc : w.proc with
    | idle error =>
      have hagrees := h.agrees
      rw [hproc] at hagrees
      exact ⟨_, q, rfl, h.move rfl (front_of_interruptible (by rw [hproc]; rfl)).symm rfl rfl rfl rfl hagrees⟩
    | restart _ | sleeping _ | sleepingAll _ _ | loop _ _ _ | moving _ _ _ _ _ | waitall _ _ _ | finish _ _ _ =>
      exact ⟨w, q, rfl, h⟩
  | copy n =>
    obtain ⟨w', hw', hkeeps⟩ := copyBytes_spec h n
    exact ⟨w', q, hw', hkeeps⟩
  | wake error =>
    obtain ⟨w', hw', hkeeps⟩ := wake_spec h error
    exact ⟨w', q, hw', hkeeps⟩
  | go => exact go_spec h

/-- Every action is allowed in the state it is taken in. -/
def AllowedRun (w : World A) : List (Action A) → Prop
  | [] => True
  | action :: actions => action.Allowed w ∧ ∀ w' ∈ w.step action, AllowedRun w' actions

instance (w : World A) : ∀ action : Action A, Decidable (action.Allowed w)
  | .append _ => inferInstanceAs (Decidable (_ ∧ _))
  | .change .. | .call .. | .copy _ | .wake _ | .go => isTrue trivial

instance decidableAllowedRun : ∀ (w : World A) (actions : List (Action A)), Decidable (AllowedRun w actions)
  | _, [] => isTrue trivial
  | w, action :: actions =>
    have : DecidablePred fun w' => AllowedRun w' actions := fun w' => decidableAllowedRun w' actions
    inferInstanceAs (Decidable (action.Allowed w ∧ ∀ w' ∈ w.step action, AllowedRun w' actions))

theorem run_spec (h : Keeps w q) {actions : List (Action A)} (hrun : AllowedRun w actions) :
    ∃ w' q', actions.foldlM World.step w = some w' ∧ Keeps w' q' := by
  induction actions generalizing w q with
  | nil => exact ⟨w, q, rfl, h⟩
  | cons action actions ih =>
    obtain ⟨w₁, q₁, hstep, hkeeps⟩ := step_spec h hrun.1
    obtain ⟨w', q', hw', hkeeps'⟩ := ih hkeeps (hrun.2 w₁ hstep)
    refine ⟨w', q', ?_, hkeeps'⟩
    rw [List.foldlM_cons, hstep]
    exact hw'

/-- An idle socket with an empty receive buffer. -/
def World.initial (mem : A → Option (Mbuf A)) (hiwat mbmax lowat : Nat) (connrequired : Bool) : World A :=
  { so := { rcv := { mem := mem, sb := { hiwat := hiwat, mbmax := mbmax, lowat := lowat } }, connrequired := connrequired } }

/-- However calls of `soreceive` and appends are interleaved, no panic is reached, the bytes delivered followed by those left in the buffer are those appended, and `sb_cc` is the sum of the lengths of the mbufs left. -/
theorem soreceive_fifo (mem : A → Option (Mbuf A)) (hiwat mbmax lowat : Nat) (connrequired : Bool) (actions : List (Action A))
    (hrun : AllowedRun (World.initial mem hiwat mbmax lowat connrequired) actions) :
    ∃ w q, actions.foldlM World.step (World.initial mem hiwat mbmax lowat connrequired) = some w ∧
      QueueSeg w.so.rcv.mem (front w) q none ∧ (addrs (cellsOf q)).Nodup ∧
      w.delivered ++ bytesOf (bodies (cellsOf q)) = w.appended ∧ w.so.rcv.sb.cc = lens (bodies (cellsOf q)) := by
  have hinit : Keeps (World.initial mem hiwat mbmax lowat connrequired) ([] : List (Record A)) :=
    ⟨⟨queueSeg_nil.mpr rfl, by simp, rfl, rfl⟩, (fun b hb => nomatch hb), rfl, rfl⟩
  obtain ⟨w, q, hw, hkeeps⟩ := run_spec hinit hrun
  exact ⟨w, q, hw, hkeeps.holds.queue, hkeeps.holds.nodup, hkeeps.fifo, hkeeps.holds.cc⟩

end Steps

local instance threeMbufs : NeZero 3 := ⟨by decide⟩

/-- A byte arrives in the mbuf that is being copied, and the last bytes while the process sleeps. -/
def interruptedCall : List (Action (Fin 3)) :=
  [.append [(0, { data := [1, 2, 3] })], .call 5 true false false, .go, .go, .copy 1, .append [(1, { data := [4] })], .copy 9,
    .go, .go, .go, .copy 1, .go, .go, .append [(2, { data := [5, 6] })], .wake 0, .go, .go, .copy 1, .go, .go, .go, .go]

theorem soreceive_fifo_interruptedCall :
    ((interruptedCall.foldlM World.step (World.initial (fun _ => none) 4 1000 1 true)).map
        fun w => (w.proc, w.delivered, w.so.rcv.sb.cc)) = some (.idle 0, [1, 2, 3, 4, 5], 1) ∧
      ∃ w q, interruptedCall.foldlM World.step (World.initial (fun _ => none) 4 1000 1 true) = some w ∧
        QueueSeg w.so.rcv.mem (front w) q none ∧ (addrs (cellsOf q)).Nodup ∧
        w.delivered ++ bytesOf (bodies (cellsOf q)) = w.appended ∧ w.so.rcv.sb.cc = lens (bodies (cellsOf q)) :=
  ⟨by decide, soreceive_fifo (fun _ => none) 4 1000 1 true interruptedCall (by decide)⟩

end Reading.Kern.Sb
