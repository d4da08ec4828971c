import Reading.Kern.Sbqueue

/-!
# Histories of a socket buffer

What a socket buffer is for, told without mbufs: a list of records, each a list of bytes with a mark behind the byte at which the record ends, if it does. The calls on a socket buffer are calls on that list. `sbappend` goes on with the last record unless it is marked, `sbdrop` takes bytes from the front and records with their last byte, and the place of out-of-band data is behind the trains of out-of-band data that are in front.

A run is a list of calls, each with the mbufs that the caller has filled for it, and after every well-formed run the socket buffer holds a queue whose records are those of the abstract list.
-/

namespace Reading.Kern.Sb

open Reading.Lib

/-! ### Abstract records -/

@[ext]
structure ByteRecord where
  bytes : List Byte
  /-- The number of bytes up to the last end of record. -/
  mark : Option Nat
deriving DecidableEq

/-- A record of bytes that ends behind them or not at all. -/
def ByteRecord.of (bytes : List Byte) (ended : Bool) : ByteRecord where
  bytes := bytes
  mark := if ended then some bytes.length else none

def ByteRecord.drop (r : ByteRecord) (n : Nat) : ByteRecord where
  bytes := r.bytes.drop n
  mark := (r.mark.filter fun k => n < k).map fun k => k - n

/-- The calls on the list of records. -/
inductive RecordOp where
  | skip
  | append (bytes : List Byte) (ended : Bool)
  | insert (place : Nat) (r : ByteRecord)
  | push (r : ByteRecord)
  | drop (n : Nat)
  | dropRecord
  | flush

def dropFront (n : Nat) : List ByteRecord → List ByteRecord
  | [] => []
  | r :: rs =>
    if n < r.bytes.length then r.drop n :: rs
    else if n = r.bytes.length then rs
    else dropFront (n - r.bytes.length) rs

def appendLast (bytes : List Byte) (ended : Bool) (rs : List ByteRecord) : List ByteRecord :=
  match rs.getLast? with
  | none => if bytes = [] ∧ ended = false then [] else [.of bytes ended]
  | some r => if r.mark.isSome then rs ++ [.of bytes ended] else rs.dropLast ++ [.of (r.bytes ++ bytes) ended]

def recordStep (rs : List ByteRecord) : RecordOp → List ByteRecord
  | .skip => rs
  | .append bytes ended => appendLast bytes ended rs
  | .insert k r => rs.take k ++ r :: rs.drop k
  | .push r => rs ++ [r]
  | .drop n => dropFront n rs
  | .dropRecord => rs.tail
  | .flush => []

/-! ### The abstract record of a chain -/

def markOf : List Body → Option Nat
  | [] => none
  | b :: bs =>
    match markOf bs with
    | some k => some (b.len + k)
    | none => if b.eor then some b.len else none

/-- What is left of a record when its mbufs are forgotten. -/
def byteRecord (r : List Body) : ByteRecord where
  bytes := bytesOf r
  mark := markOf r

theorem isSome_markOf (r : List Body) : (markOf r).isSome = ended r := by
  induction r with
  | nil => rfl
  | cons b bs ih =>
    rw [markOf, ended, List.any_cons]
    rw [ended] at ih
    rw [← ih]
    cases markOf bs with
    | none => cases b.eor <;> rfl
    | some k => simp

theorem markOf_eq_none {r : List Body} (h : ended r = false) : markOf r = none := by
  rw [← Option.not_isSome_iff_eq_none, isSome_markOf, h]
  simp

theorem markOf_append_some {r r' : List Body} {k : Nat} (h : markOf r' = some k) : markOf (r ++ r') = some (lens r + k) := by
  induction r with
  | nil => simpa using h
  | cons b bs ih =>
    rw [List.cons_append, markOf, ih]
    simp [Nat.add_assoc]

theorem ended_append (r r' : List Body) : ended (r ++ r') = (ended r || ended r') := List.any_append

theorem ended_cons (b : Body) (bs : List Body) : ended (b :: bs) = (b.eor || ended bs) := List.any_cons

/-- The mark of a compressed chain is at its end. -/
theorem markOf_packed {n : Body} (hn : n.eor = false) (ms : List Body) (eor : Bool) :
    markOf (packed n ms eor) = if eor || ended ms then some (n.len + lens ms) else none := by
  induction ms generalizing n eor with
  | nil =>
    cases eor with
    | false => simp [packed, markOf, hn, ended]
    | true => simp [packed, markOf, hn, Body.len]
  | cons m ms ih =>
    rw [packed, ended_cons, ← Bool.or_assoc]
    split
    · rename_i hdiscard
      rw [ih hn, lens_cons, hdiscard.1, Nat.zero_add]
    · split
      · rw [ih (by exact hn)]
        simp [Body.len, Nat.add_assoc]
      · rw [markOf, ih rfl]
        cases (eor || m.eor || ended ms) with
        | false => simp [hn]
        | true => simp [Body.len]

theorem markOf_packedAnew (ms : List Body) (eor : Bool) (hkept : packedAnew ms eor ≠ []) :
    markOf (packedAnew ms eor) = if eor || ended ms then some (lens ms) else none := by
  induction ms generalizing eor with
  | nil => exact absurd rfl hkept
  | cons m ms ih =>
    rw [packedAnew] at hkept ⊢
    rw [ended_cons, ← Bool.or_assoc]
    split
    · rename_i hdiscard
      rw [if_pos hdiscard] at hkept
      rw [ih _ hkept, lens_cons, hdiscard.1, Nat.zero_add]
    · rw [markOf_packed rfl]
      rfl

theorem packed_ne_nil (n : Body) (ms : List Body) (eor : Bool) : packed n ms eor ≠ [] := by
  obtain ⟨b, rest, h, _⟩ := packed_head n ms eor
  rw [h]
  simp

/-- Nothing is left of a chain only when it has no byte and does not end a record. -/
theorem packedAnew_eq_nil (ms : List Body) (eor : Bool) :
    packedAnew ms eor = [] ↔ bytesOf ms = [] ∧ (ms = [] ∨ (eor || ended ms) = false) := by
  induction ms generalizing eor with
  | nil => simp [packedAnew]
  | cons m ms ih =>
    rw [packedAnew, ended_cons, ← Bool.or_assoc]
    split
    · rename_i hdiscard
      have hempty : m.data = [] := List.length_eq_zero_iff.mp hdiscard.1
      rw [ih, bytesOf_cons, hempty, List.nil_append]
      refine and_congr_right fun _ => ?_
      cases ms with
      | nil =>
        rcases hdiscard.2 with heor | htype
        · simp [heor, ended]
        · simp at htype
      | cons m' ms => simp
    · rename_i hkeep
      refine iff_of_false (packed_ne_nil _ _ _) ?_
      rintro ⟨hbytes, heor⟩
      rw [bytesOf_cons, List.append_eq_nil_iff] at hbytes
      refine hkeep ⟨by rw [Body.len, hbytes.1]; rfl, .inl ?_⟩
      rcases heor with hcons | heor
      · cases hcons
      · exact (Bool.or_eq_false_iff.mp heor).1

theorem byteRecord_started (b : Body) (ms : List Body) :
    byteRecord (started b ms) = .of (bytesOf (b :: ms)) (ended (b :: ms)) := by
  have hbytes : (bytesOf (b :: ms)).length = b.len + lens ms := by
    rw [← lens_eq_length, lens_cons]
  ext1
  · exact bytesOf_started b ms
  · rw [ByteRecord.of, hbytes]
    change markOf (started b ms) = _
    cases ms with
    | nil => cases heor : b.eor <;> simp [started, markOf, ended, heor]
    | cons m ms =>
      rw [started, ended_cons]
      split
      · rename_i heor
        rw [markOf_packed rfl, ended_cons]
        simp [heor, Body.len]
      · rename_i heor
        rw [markOf_packed (by simpa using heor)]
        simp [heor]

theorem byteRecord_packedBehind {r : List Body} (hr : r ≠ []) (hended : ended r = false) (ms : List Body) :
    byteRecord (packedBehind r ms) = .of (bytesOf r ++ bytesOf ms) (ended ms) := by
  rcases List.eq_nil_or_concat r with rfl | ⟨init, n, rfl⟩
  · exact absurd rfl hr
  · rw [List.concat_eq_append] at *
    rw [ended_append, Bool.or_eq_false_iff] at hended
    have hn : n.eor = false := by simpa [ended] using hended.2
    have hpacked : packedBehind (init ++ [n]) ms = init ++ packed n ms false := by simp [packedBehind]
    rw [hpacked]
    ext1
    · simp [byteRecord, ByteRecord.of, bytesOf_packed]
    · change markOf (init ++ packed n ms false) = _
      have hmark := markOf_packed hn ms false
      rw [Bool.false_or] at hmark
      cases hms : ended ms with
      | false =>
        rw [hms] at hmark
        have hnone : ended (init ++ packed n ms false) = false := by
          rw [ended_append, hended.1, Bool.false_or, ← isSome_markOf, hmark]
          rfl
        rw [markOf_eq_none hnone]
        rfl
      | true =>
        rw [hms] at hmark
        rw [markOf_append_some hmark]
        simp only [ByteRecord.of, if_true, bytesOf_append, List.length_append, ← lens_eq_length, lens_cons, lens_nil]
        congr 1
        omega

theorem map_appendList (q : List (List Body)) (hq : ∀ r ∈ q, r ≠ []) (m : Body) (ms : List Body) :
    (appendList q (m :: ms)).map byteRecord = appendLast (bytesOf (m :: ms)) (ended (m :: ms)) (q.map byteRecord) := by
  rcases List.eq_nil_or_concat q with rfl | ⟨init, r, rfl⟩
  · rw [appendList, List.getLast?_nil]
    simp only [List.map_nil, appendLast, List.getLast?_nil]
    have hnil := packedAnew_eq_nil (m :: ms) false
    simp only [Bool.false_or, reduceCtorEq, false_or] at hnil
    by_cases hkept : packedAnew (m :: ms) false = []
    · rw [if_pos hkept, if_pos (hnil.mp hkept)]
      rfl
    · rw [if_neg hkept, if_neg fun h => hkept (hnil.mpr h), List.map_singleton]
      congr 1
      ext1
      · exact bytesOf_packedAnew _ _
      · have hmark := markOf_packedAnew _ _ hkept
        rw [Bool.false_or] at hmark
        exact hmark.trans (by rw [lens_eq_length]; rfl)
  · rw [List.concat_eq_append] at *
    have hr : r ≠ [] := hq r (by simp)
    have hmark : (byteRecord r).mark.isSome = ended r := isSome_markOf r
    have hlast : ((init ++ [r]).map byteRecord).getLast? = some (byteRecord r) := by simp
    have hdrop : ((init ++ [r]).map byteRecord).dropLast = init.map byteRecord := by simp
    rw [appendLast, hlast, hdrop, appendList]
    simp only [List.getLast?_append, List.getLast?_singleton, Option.some_or, hmark]
    cases hended : ended r with
    | true => simp [byteRecord_started]
    | false =>
      simp only [Bool.false_eq_true, if_false, List.dropLast_concat, List.map_append, List.map_singleton,
        byteRecord_packedBehind hr hended]
      rfl

theorem byteRecord_dropRecord (n : Nat) (r : List Body) : byteRecord (dropRecord n r) = (byteRecord r).drop n := by
  induction r generalizing n with
  | nil => simp [dropRecord, byteRecord, ByteRecord.drop, markOf]
  | cons b bs ih =>
    rw [dropRecord]
    split
    · rename_i hle
      rw [ih]
      have hle' : b.data.length ≤ n := hle
      ext1
      · simp [byteRecord, ByteRecord.drop, List.drop_append, List.drop_eq_nil_of_le hle', Body.len]
      · simp only [byteRecord, ByteRecord.drop, markOf]
        cases hmark : markOf bs with
        | none =>
          cases b.eor with
          | false => simp
          | true => simp [Option.filter, hle]
        | some k =>
          by_cases hk : n - b.len < k
          · have hk' : n < b.len + k := by omega
            simp [Option.filter, hk, hk']
            omega
          · have hk' : ¬ n < b.len + k := by omega
            simp [Option.filter, hk, hk']
    · rename_i hlt
      have hlt' : n < b.data.length := Nat.lt_of_not_le hlt
      ext1
      · simp [byteRecord, ByteRecord.drop, Body.trim, List.drop_append_of_le_length (Nat.le_of_lt hlt')]
      · simp only [byteRecord, ByteRecord.drop, markOf]
        cases hmark : markOf bs with
        | none =>
          cases heor : b.eor with
          | false => simp [Body.trim, heor]
          | true => simp [Body.trim, heor, Option.filter, hlt', Body.len]
        | some k =>
          have hk : n < b.data.length + k := by omega
          simp [Body.trim, Option.filter, hk, Body.len]
          omega

theorem map_dropList (n : Nat) (q : List (List Body)) : (dropList n q).map byteRecord = dropFront n (q.map byteRecord) := by
  induction q generalizing n with
  | nil => rfl
  | cons r rs ih =>
    have hlen : (byteRecord r).bytes.length = lens r := (lens_eq_length r).symm
    rw [dropList, List.map_cons, dropFront, hlen]
    split
    · rw [List.map_cons, byteRecord_dropRecord]
    · split
      · rfl
      · exact ih _

/-! ### Calls -/

section Calls

variable {A : Type} [DecidableEq A]

/-- The pointer to a chain. -/
def headOf (cells : List (A × Body)) : Option A := cells.head?.map Prod.fst

/-- The caller fills mbufs and links them to a chain. -/
def fill (s : State A) : List (A × Body) → State A
  | [] => s
  | (a, b) :: cells => (fill s cells).write a { next := headOf cells, body := b }

/-- A call, with the mbufs the caller has filled for it. For `sbappendaddr`, `got` is the mbuf that `MGET` finds. -/
inductive Call (A : Type) where
  | sbappend (m : List (A × Body))
  | sbappendrecord (m0 : List (A × Body))
  | sbinsertoob (m0 : List (A × Body))
  | sbappendaddr (asa : List Byte) (m0 control : List (A × Body)) (got : Option A)
  | sbappendcontrol (m0 control : List (A × Body))
  | sbdrop (len : Nat)
  | sbdroprecord
  | sbflush

/-- The mbufs are different free ones. -/
def Available (s : State A) (cells : List (A × Body)) : Prop :=
  (addrs cells).Nodup ∧ ∀ a ∈ addrs cells, s.mem a = none

instance (s : State A) (cells : List (A × Body)) : Decidable (Available s cells) := inferInstanceAs (Decidable (_ ∧ _))

/-- The chains of a call are well formed, and no more bytes are dropped than there are. -/
def Call.WellFormed (s : State A) : Call A → Prop
  | .sbappend m => Available s m
  | .sbappendrecord m0 => Available s m0
  | .sbinsertoob m0 => Available s m0
  | .sbappendaddr _ m0 control got =>
    Available s (control ++ m0) ∧ (∀ cell ∈ m0.head?, cell.2.pkthdr.isSome) ∧
      ∀ g ∈ got, s.mem g = none ∧ g ∉ addrs (control ++ m0)
  | .sbappendcontrol m0 control => Available s (control ++ m0) ∧ control ≠ []
  | .sbdrop len => len ≤ s.sb.cc
  | .sbdroprecord => True
  | .sbflush => True

variable [Fintype A]

/-- The call, with what it returns where it returns something. -/
def Call.run (s : State A) : Call A → Option (Bool × State A)
  | .sbappend m => (Sb.sbappend (fill s m) (headOf m)).map (true, ·)
  | .sbappendrecord m0 => (Sb.sbappendrecord (fill s m0) (headOf m0)).map (true, ·)
  | .sbinsertoob m0 => (Sb.sbinsertoob (fill s m0) (headOf m0)).map (true, ·)
  | .sbappendaddr asa m0 control got =>
    Sb.sbappendaddr (fill (fill s m0) control) asa (headOf m0) (headOf control) got
  | .sbappendcontrol m0 control => Sb.sbappendcontrol (fill (fill s m0) control) (headOf m0) (headOf control)
  | .sbdrop len => (Sb.sbdrop s len).map (true, ·)
  | .sbdroprecord => (Sb.sbdroprecord s).map (true, ·)
  | .sbflush => (Sb.sbflush s).map (true, ·)

/-- The mbufs of a chain as they are read from memory. -/
def chainOf (mem : A → Option (Mbuf A)) : Nat → Option A → List Body
  | fuel + 1, some a =>
    match mem a with
    | some x => x.body :: chainOf mem fuel x.next
    | none => []
  | _, _ => []

/-- The records as they are read from memory. -/
def queueOf (mem : A → Option (Mbuf A)) : Nat → Option A → List (List Body)
  | fuel + 1, some a =>
    match mem a with
    | some x => chainOf mem (rounds A) (some a) :: queueOf mem fuel x.nextpkt
    | none => []
  | _, _ => []

/-- The call on the list of records: a null chain and a refused one do nothing, and out-of-band data goes behind the trains of it that are in front of the queue. -/
def Call.recordOp (s : State A) (done : Bool) : Call A → RecordOp
  | .sbappend [] => .skip
  | .sbappend (m :: ms) => .append (bytesOf (bodies (m :: ms))) (ended (bodies (m :: ms)))
  | .sbappendrecord [] => .skip
  | .sbappendrecord (m :: ms) => .push (.of (bytesOf (bodies (m :: ms))) (ended (bodies (m :: ms))))
  | .sbinsertoob [] => .skip
  | .sbinsertoob (m :: ms) =>
    .insert (oobCount (queueOf s.mem (rounds A) s.sb.mb)) (.of (bytesOf (bodies (m :: ms))) (ended (bodies (m :: ms))))
  | .sbappendaddr asa m0 control _ =>
    if done then .push (byteRecord (sonameBody asa :: (bodies control ++ bodies m0))) else .skip
  | .sbappendcontrol m0 control => if done then .push (byteRecord (bodies control ++ bodies m0)) else .skip
  | .sbdrop len => .drop len
  | .sbdroprecord => .dropRecord
  | .sbflush => .flush

section Steps

omit [Fintype A]

variable {s : State A} {q : List (Record A)} {cells : List (A × Body)}

theorem fill_mem_of_notMem {a : A} (ha : a ∉ addrs cells) : (fill s cells).mem a = s.mem a := by
  induction cells with
  | nil => rfl
  | cons cell cells ih =>
    rw [addrs_cons, List.mem_cons, not_or] at ha
    rw [fill, write_mem_of_ne _ _ ha.1, ih ha.2]

theorem fill_sb (s : State A) (cells : List (A × Body)) : (fill s cells).sb = s.sb := by
  induction cells with
  | nil => rfl
  | cons cell cells ih => rw [fill, write_sb, ih]

theorem fill_chain (hnodup : (addrs cells).Nodup) : ChainSeg (fill s cells).mem (headOf cells) cells none := by
  induction cells with
  | nil => rfl
  | cons cell cells ih =>
    rw [addrs_cons, List.nodup_cons] at hnodup
    exact ⟨rfl, _, write_mem_self .., rfl, (ih hnodup.2).update hnodup.1 _⟩

theorem fill_pkt {a : A} {x : Mbuf A} (ha : a ∈ addrs cells) (hx : (fill s cells).mem a = some x) : x.nextpkt = none := by
  induction cells with
  | nil => cases ha
  | cons cell cells ih =>
    by_cases heq : a = cell.1
    · subst heq
      rw [fill, write_mem_self] at hx
      cases hx
      rfl
    · rw [fill, write_mem_of_ne _ _ heq] at hx
      exact ih ((List.mem_cons.mp ha).resolve_left heq) hx

omit [DecidableEq A] in
theorem Holds.notMem_of_free (h : Holds s q) {a : A} (ha : s.mem a = none) : a ∉ addrs (cellsOf q) := by
  intro hin
  obtain ⟨x, hx⟩ := h.queue.exists_mem hin
  rw [ha] at hx
  cases hx

/-- Filling free mbufs does not touch the queue. -/
theorem Holds.fill (h : Holds s q) (havail : Available s cells) : Holds (fill s cells) q := by
  refine h.frame (fill_sb s cells) fun a ha => fill_mem_of_notMem fun hin => ?_
  exact h.notMem_of_free (havail.2 a hin) ha

omit [DecidableEq A] in
theorem Holds.nodup_append (h : Holds s q) (havail : Available s cells) : (addrs (cellsOf q) ++ addrs cells).Nodup := by
  refine List.nodup_append.mpr ⟨h.nodup, havail.1, fun a ha b hb => ?_⟩
  rintro rfl
  exact h.notMem_of_free (havail.2 a hb) ha

theorem Holds.fresh (h : Holds s q) (havail : Available s cells) : Fresh (Sb.fill s cells) (headOf cells) cells q :=
  ⟨fill_chain havail.1, fun _ _ ha hx => fill_pkt ha hx, h.nodup_append havail⟩

/-- Two chains in different mbufs are filled one after the other. -/
theorem Holds.freshPair {m0 control : List (A × Body)} (h : Holds s q) (havail : Available s (control ++ m0)) :
    Holds (Sb.fill (Sb.fill s m0) control) q ∧
      FreshPair (Sb.fill (Sb.fill s m0) control) (headOf control) (headOf m0) control m0 q := by
  have hnodup := havail.1
  rw [addrs_append, List.nodup_append] at hnodup
  obtain ⟨hc, hm, hdisjoint⟩ := hnodup
  have hfree : ∀ a ∈ addrs control ++ addrs m0, s.mem a = none := by
    rw [← addrs_append]
    exact havail.2
  have hm0 : Available s m0 := ⟨hm, fun a ha => hfree a (List.mem_append_right _ ha)⟩
  have hcontrol : Available (Sb.fill s m0) control := by
    refine ⟨hc, fun a ha => ?_⟩
    rw [fill_mem_of_notMem fun hin => hdisjoint a ha a hin rfl]
    exact hfree a (List.mem_append_left _ ha)
  have hchain : ChainSeg (Sb.fill s m0).mem (headOf m0) m0 none := fill_chain hm
  refine ⟨(h.fill hm0).fill hcontrol, fill_chain hc, hchain.frame fun a ha => ?_, fun a x ha hx => ?_,
    h.nodup_append havail⟩
  · exact fill_mem_of_notMem fun hin => hdisjoint a hin a ha rfl
  · rw [addrs_append] at ha
    by_cases hin : a ∈ addrs control
    · exact fill_pkt hin hx
    · rw [fill_mem_of_notMem hin] at hx
      exact fill_pkt ((List.mem_append.mp ha).resolve_left hin) hx

omit [DecidableEq A] in
theorem records_ne_nil (q : List (Record A)) : ∀ r ∈ recordBodies q, r ≠ [] := by
  intro r hr
  obtain ⟨rec, _, rfl⟩ := List.mem_map.mp hr
  simp [Record.cells]

omit [DecidableEq A] in
theorem chainOf_eq {mem : A → Option (Mbuf A)} {fuel : Nat} {p : Option A} (h : ChainSeg mem p cells none)
    (hfuel : cells.length ≤ fuel) : chainOf mem fuel p = bodies cells := by
  induction cells generalizing p fuel with
  | nil =>
    obtain rfl : p = none := h
    cases fuel <;> rfl
  | cons cell cells ih =>
    obtain ⟨rfl, x, hx, hbody, hrest⟩ := h
    obtain ⟨fuel, rfl⟩ : ∃ k, fuel = k + 1 := ⟨fuel - 1, by simp at hfuel; omega⟩
    have hbody : x.body = cell.2 := hbody
    simp only [chainOf, hx, hbody, ih hrest (by simpa using hfuel), bodies_cons]

variable [Fintype A]

omit [DecidableEq A] in
theorem queueOf_eq {mem : A → Option (Mbuf A)} {fuel : Nat} {p : Option A} (h : QueueSeg mem p q none)
    (hnodup : (addrs (cellsOf q)).Nodup) (hfuel : q.length ≤ fuel) : queueOf mem fuel p = recordBodies q := by
  induction q generalizing p fuel with
  | nil =>
    obtain rfl : p = none := queueSeg_nil.mp h
    cases fuel <;> rfl
  | cons rec q ih =>
    obtain ⟨x, rfl, hx, _, _, hq⟩ := queueSeg_cons.mp h
    obtain ⟨fuel, rfl⟩ : ∃ k, fuel = k + 1 := ⟨fuel - 1, by simp at hfuel; omega⟩
    have hcard : (cellsOf (rec :: q)).length ≤ Fintype.card A := length_le_card hnodup
    rw [cellsOf_cons, List.length_append] at hcard
    rw [cellsOf_cons, addrs_append, List.nodup_append] at hnodup
    have hchain := chainOf_eq (h.chains rec List.mem_cons_self) (show rec.cells.length ≤ rounds A by rw [rounds]; omega)
    simp only [queueOf, hx, hchain, ih hq hnodup.2.1 (by simpa using hfuel)]
    rfl

end Steps

/-- One call on a socket buffer that holds a queue. -/
theorem Call.run_spec {s : State A} {q : List (Record A)} (h : Holds s q) (hunlocked : s.sb.locked = false) (call : Call A)
    (hcall : call.WellFormed s) :
    ∃ done s' q', call.run s = some (done, s') ∧ Holds s' q' ∧ s'.sb.locked = false ∧
      (recordBodies q').map byteRecord = recordStep ((recordBodies q).map byteRecord) (call.recordOp s done) := by
  have hkept : ∀ cells, (fill s cells).sb.locked = false := fun cells => by rw [fill_sb, hunlocked]
  cases call with
  | sbappend m =>
    obtain ⟨s', q', hs', hholds, hlocked, _, hq'⟩ := sbappend_spec (h.fill hcall) (h.fresh hcall)
    refine ⟨true, s', q', by rw [Call.run, hs']; rfl, hholds, hlocked.trans (hkept m), ?_⟩
    rw [hq']
    cases m with
    | nil => rfl
    | cons cell m =>
      rw [bodies_cons, map_appendList _ (records_ne_nil q)]
      rfl
  | sbappendrecord m0 =>
    cases m0 with
    | nil => exact ⟨true, s, q, rfl, h, hunlocked, rfl⟩
    | cons cell m0 =>
      obtain ⟨s', r, hs', hholds, hlocked, hr⟩ := sbappendrecord_spec (h.fill hcall) (h.fresh hcall)
      refine ⟨true, s', q ++ [r], ?_, hholds, hlocked.trans (hkept _), ?_⟩
      · rw [Call.run, show headOf (cell :: m0) = some cell.1 from rfl, hs']
        rfl
      · simp only [recordBodies, List.map_append, List.map_singleton, hr, byteRecord_started]
        rfl
  | sbinsertoob m0 =>
    cases m0 with
    | nil => exact ⟨true, s, q, rfl, h, hunlocked, rfl⟩
    | cons cell m0 =>
      obtain ⟨s', r, hs', hholds, hlocked, hr⟩ := sbinsertoob_spec (h.fill hcall) (h.fresh hcall)
      have hcard : (cellsOf q).length ≤ Fintype.card A := length_le_card h.nodup
      have hrecords := length_le_cells q
      have hread := queueOf_eq h.queue h.nodup (show q.length ≤ rounds A by rw [rounds]; omega)
      refine ⟨true, s', _, ?_, hholds, hlocked.trans (hkept _), ?_⟩
      · rw [Call.run, show headOf (cell :: m0) = some cell.1 from rfl, hs']
        rfl
      · simp only [Call.recordOp, recordStep, hread]
        simp only [recordBodies, List.map_append, List.map_cons, hr, byteRecord_started, List.map_take, List.map_drop]
        rfl
  | sbappendaddr asa m0 control got =>
    obtain ⟨havail, hhdr, hgot⟩ := hcall
    obtain ⟨hholds, hpair⟩ := h.freshPair havail
    have hhdr' : ∀ m, headOf m0 = some m →
        ∃ x n, (fill (fill s m0) control).mem m = some x ∧ x.body.pkthdr = some n := by
      intro m hm
      cases m0 with
      | nil => cases hm
      | cons cell m0 =>
        cases hm
        obtain ⟨_, x, hx, hbody, _⟩ := hpair.data
        have hbody : x.body = cell.2 := hbody
        obtain ⟨n, hn⟩ := Option.isSome_iff_exists.mp (hhdr cell rfl)
        exact ⟨x, n, hx, by rw [hbody, hn]⟩
    have hgot' : ∀ g, got = some g → (fill (fill s m0) control).mem g = none := by
      intro g hg
      obtain ⟨hfree, hout⟩ := hgot g hg
      rw [addrs_append, List.mem_append, not_or] at hout
      rw [fill_mem_of_notMem hout.1, fill_mem_of_notMem hout.2, hfree]
    obtain ⟨s', done, q', hs', hq, hlocked, hq'⟩ := sbappendaddr_spec asa hholds hpair hhdr' hgot'
    refine ⟨done, s', q', hs', hq, by rw [hlocked, fill_sb, hkept], ?_⟩
    rw [hq']
    cases done with
    | false => rfl
    | true =>
      simp only [if_true, List.map_append, List.map_singleton]
      rfl
  | sbappendcontrol m0 control =>
    obtain ⟨havail, hcontrol⟩ := hcall
    obtain ⟨hholds, hpair⟩ := h.freshPair havail
    obtain ⟨s', done, q', hs', hq, hlocked, hq'⟩ := sbappendcontrol_spec hholds hpair hcontrol
    refine ⟨done, s', q', hs', hq, by rw [hlocked, fill_sb, hkept], ?_⟩
    rw [hq']
    cases done with
    | false => rfl
    | true =>
      simp only [if_true, List.map_append, List.map_singleton]
      rfl
  | sbdrop len =>
    obtain ⟨s', q', hs', hholds, hlocked, hq'⟩ := sbdrop_spec h hcall
    refine ⟨true, s', q', by rw [Call.run, hs']; rfl, hholds, hlocked.trans hunlocked, ?_⟩
    rw [hq', map_dropList]
    rfl
  | sbdroprecord =>
    obtain ⟨s', q', hs', hholds, hlocked, hq'⟩ := sbdroprecord_spec h
    refine ⟨true, s', q', by rw [Call.run, hs']; rfl, hholds, hlocked.trans hunlocked, ?_⟩
    rw [hq', List.map_tail]
    rfl
  | sbflush =>
    obtain ⟨s', hs', hholds, hlocked⟩ := sbflush_spec h hunlocked
    exact ⟨true, s', [], by rw [Call.run, hs']; rfl, hholds, hlocked.trans hunlocked, rfl⟩

end Calls

end Reading.Kern.Sb
