import Reading.Kern.Listen

/-!
# Pending connections

The calls that move a socket into, between and out of the queues of a listening socket, each with what it does to the queues as lists, and the runs made of them. `sofree` always finds a pending socket on one of the two queues of its head.
-/

namespace Reading.Kern.Listen

open Reading.Lib

variable {A : Type} [DecidableEq A] [Fintype A] {mem : Mem A} {Q : Queues A} {head so : A} {q : Bool}

/-- The queues after a socket has left them. -/
def Queues.without (Q : Queues A) (so : A) : Queues A := fun q a => (Q q a).erase so

omit [Fintype A] in
theorem without_of_notMem (h : ∀ q a, so ∉ Q q a) : Q.without so = Q := by
  funext q a
  exact List.erase_of_not_mem (h q a)

omit [Fintype A] in
/-- A pending socket is on one queue only. -/
theorem Inv.set_erase (h : Inv mem Q) (hso : so ∈ Q q head) : Q.set q head ((Q q head).erase so) = Q.without so := by
  funext q' a
  rw [Queues.set, Queues.without]
  split
  · rename_i hpair
    rw [hpair.1, hpair.2]
  · rename_i hpair
    have hheadfree := (h.referenced head (h.head q head so hso)).2
    have hne : (q', a) ≠ (q, head) := fun heq => hpair (Prod.ext_iff.mp heq)
    exact (List.erase_of_not_mem (h.cell_notMem hheadfree (.inr hso) hne)).symm

omit [DecidableEq A] [Fintype A] in
theorem Inv.lenOf_eq (h : Inv mem Q) (q : Bool) (a : A) : lenOf q mem a = (Q q a).length := by
  cases hlistening : listening mem a with
  | true => exact h.len q a (h.referenced a hlistening).2
  | false =>
    rw [h.plain q a hlistening, h.queue_eq_nil hlistening q]
    rfl

omit [DecidableEq A] [Fintype A] in
theorem listening_eq_false_of_unreferenced (h : Inv mem Q) (hunref : unreferenced mem so = true) : listening mem so = false := by
  by_contra hlistening
  rw [(h.referenced so (by simpa using hlistening)).1] at hunref
  cases hunref

/-! ### The calls -/

/-- The panic of `sofree` is not reached. -/
theorem dequeue_spec (h : Inv mem Q) (hso : so ∈ Q q head) :
    ∃ mem', dequeue mem so = .ok mem' ∧ Inv mem' (Q.without so) ∧ statusOf mem' = statusOf mem ∧ headOf mem' so = none := by
  obtain ⟨mem', hfound, hinv, hstatus, hnone, -⟩ := soqremque_found h hso
  rw [h.set_erase hso] at hinv
  refine ⟨mem', ?_, hinv, hstatus, hnone⟩
  cases q with
  | false =>
    rw [dequeue, hfound]
    rfl
  | true =>
    have habsent := soqremque_absent h (h.member true head so hso).1 (h.once true head so hso)
    rw [Bool.not_true] at habsent
    rw [dequeue, habsent]
    simp only [defined, bind, Except.bind, Bool.false_eq_true, if_false, hfound, if_true]

theorem sofree_kept {s : Sock A} (hs : mem so = some s) (hkept : (s.pcb || !s.nofdref) = true) : sofree mem so = .ok mem := by
  simp only [sofree, hs, defined, bind, Except.bind, hkept, if_true]

/-- A socket without a reference leaves its queue and is freed. -/
theorem sofree_freed {s : Sock A} (h : Inv mem Q) (hs : mem so = some s) (hpcb : s.pcb = false) (hnofdref : s.nofdref = true) :
    ∃ mem', sofree mem so = .ok mem' ∧ Inv mem' (Q.without so) ∧ ∀ b, b ≠ so → statusOf mem' b = statusOf mem b := by
  have hunref : unreferenced mem so = true := by simp [unreferenced, statusOf, hs, hnofdref]
  have hempty := h.queue_eq_nil (listening_eq_false_of_unreferenced h hunref)
  have hother : ∀ (mem' : Mem A) b, b ≠ so → statusOf (Function.update mem' so none) b = statusOf mem' b := by
    intro mem' b hb
    rw [statusOf, Function.update_of_ne hb, statusOf]
  cases hhead : s.soHead with
  | none =>
    have hnone : headOf mem so = none := by rw [headOf, hs, Option.bind_some, hhead]
    refine ⟨Function.update mem so none, ?_, ?_, hother mem⟩
    · simp [sofree, hs, defined, bind, Except.bind, hpcb, hnofdref, hhead]
    · rw [without_of_notMem (h.notMem hnone)]
      exact h.free hnone hempty
  | some head =>
    have hpending : headOf mem so = some head := by rw [headOf, hs, Option.bind_some, hhead]
    obtain ⟨q, hmem⟩ := h.pending so head hpending
    obtain ⟨mem', hdequeue, hinv, hstatus, hnone⟩ := dequeue_spec h hmem
    refine ⟨Function.update mem' so none, ?_, hinv.free hnone ?_, ?_⟩
    · simp [sofree, hs, defined, bind, Except.bind, hpcb, hnofdref, hhead, hdequeue]
    · intro q'
      rw [Queues.without, hempty q']
      rfl
    · intro b hb
      rw [hother mem' b hb, hstatus]

/-- The control block is given up. -/
def Mem.release (mem : Mem A) (so : A) : Mem A := mem.modify so fun s => { s with pcb := false }

omit [Fintype A] in
theorem Inv.release {s : Sock A} (h : Inv mem Q) (hs : mem so = some s) : Inv (mem.release so) Q := by
  apply h.modify hs
  · intro s
    exact ⟨rfl, fun q => rfl, fun q => rfl⟩
  · intro hpending
    obtain ⟨a, ha⟩ := Option.isSome_iff_exists.mp hpending
    obtain ⟨q, hmem⟩ := h.pending so a (by rw [headOf, hs, Option.bind_some, ha])
    have hunref := (h.member q a so hmem).2.2
    simpa [unreferenced, statusOf, hs] using hunref
  · exact id
  · intro hlistening
    obtain ⟨href, hnone⟩ := h.referenced so (by simpa [listening, statusOf, hs] using hlistening)
    constructor
    · simpa [unreferenced, statusOf, hs] using href
    · simpa [headOf, hs] using hnone

omit [Fintype A] in
theorem statusOf_release : statusOf (mem.release so) = statusOf mem := statusOf_modify fun _ => ⟨rfl, rfl, rfl⟩

theorem detach_eq (hso : (mem so).isSome) : detach mem so = sofree (mem.release so) so := by
  rw [detach, write_of_isSome hso]
  rfl

theorem detach_spec (h : Inv mem Q) (hso : (mem so).isSome) :
    ∃ mem' Q', detach mem so = .ok mem' ∧ Inv mem' Q' ∧ (∀ b, b ≠ so → statusOf mem' b = statusOf mem b) ∧
      (unreferenced mem so = true → Q' = Q.without so) := by
  obtain ⟨s, hs⟩ := Option.isSome_iff_exists.mp hso
  have hreleased : mem.release so so = some { s with pcb := false } := modify_self hs
  have hinv := h.release hs
  rw [detach_eq hso]
  cases hnofdref : s.nofdref with
  | false =>
    refine ⟨mem.release so, Q, sofree_kept hreleased (by simp [hnofdref]), hinv, ?_, ?_⟩
    · intro b _
      rw [statusOf_release]
    · intro hunref
      simp [unreferenced, statusOf, hs, hnofdref] at hunref
  | true =>
    obtain ⟨mem', hfree, hinv', hstatus⟩ := sofree_freed hinv hreleased rfl hnofdref
    refine ⟨mem', Q.without so, hfree, hinv', ?_, fun _ => rfl⟩
    intro b hb
    rw [hstatus b hb, statusOf_release]

/-- A loop of `soclose` empties a queue and leaves the other one as it is. -/
theorem abortAll_spec (fuel : Nat) : ∀ {mem : Mem A} {Q : Queues A}, Inv mem Q → listening mem head = true → (Q q head).length < fuel →
    ∃ mem' Q', abortAll q head fuel mem = .ok mem' ∧ Inv mem' Q' ∧ statusOf mem' head = statusOf mem head ∧ Q' q head = [] ∧
      Q' (!q) head = Q (!q) head := by
  induction fuel with
  | zero => exact fun _ _ hfuel => absurd hfuel (Nat.not_lt_zero _)
  | succ fuel ih =>
    intro mem Q h hhead hfuel
    have hchain := h.chain q head (h.referenced head hhead).2
    rw [abortAll]
    cases hlist : Q q head with
    | nil =>
      rw [hlist] at hchain
      rw [show links q mem head = none from hchain]
      exact ⟨mem, Q, rfl, h, rfl, hlist, rfl⟩
    | cons so rest =>
      rw [hlist] at hchain hfuel
      rw [show links q mem head = some so from hchain.1]
      have hmem : so ∈ Q q head := by
        rw [hlist]
        exact List.mem_cons_self
      obtain ⟨hpending, -, hunref⟩ := h.member q head so hmem
      obtain ⟨mem', Q', hdetach, hinv, hstatus, hQ'⟩ := detach_spec h (isSome_of_headOf hpending)
      have hne : head ≠ so := by
        rintro rfl
        rw [(h.referenced head hhead).2] at hpending
        cases hpending
      have hQ' := hQ' hunref
      have hrest : Q' q head = rest := by rw [hQ', Queues.without, hlist, List.erase_cons_head]
      have hother : Q' (!q) head = Q (!q) head := by
        rw [hQ', Queues.without]
        exact List.erase_of_not_mem (h.once q head so hmem)
      have hlistening : listening mem' head = true := by rw [listening, hstatus head hne, ← listening, hhead]
      obtain ⟨mem'', Q'', habort, hinv', hstatus', hnil, hother'⟩ := ih hinv hlistening (by
        rw [hrest]
        exact Nat.lt_of_succ_lt_succ hfuel)
      refine ⟨mem'', Q'', ?_, hinv', hstatus'.trans (hstatus head hne), hnil, hother'.trans hother⟩
      simp only [hdetach, bind, Except.bind]
      exact habort

omit [DecidableEq A] in
theorem Inv.length_lt (h : Inv mem Q) (hhead : headOf mem head = none) (q : Bool) : (Q q head).length < Fintype.card A + 1 :=
  Nat.lt_succ_of_le (h.chain q head hhead).length_le

/-- A listening socket is freed after the sockets that wait for it. -/
theorem soclose_listening {s : Sock A} (h : Inv mem Q) (hs : mem so = some s) (haccept : s.acceptconn = true) (keeps : Bool) :
    ∃ mem' Q', soclose mem so keeps = .ok mem' ∧ Inv mem' Q' := by
  have hlistening : listening mem so = true := by simp [listening, statusOf, hs, haccept]
  obtain ⟨mem₁, Q₁, habort₁, h₁, hstatus₁, hempty₁, -⟩ :=
    @abortAll_spec A _ _ so false _ _ _ h hlistening (h.length_lt (h.referenced so hlistening).2 false)
  have hlistening₁ : listening mem₁ so = true := by rw [listening, hstatus₁, ← listening, hlistening]
  obtain ⟨mem₂, Q₂, habort₂, h₂, hstatus₂, hempty₂, hother⟩ :=
    @abortAll_spec A _ _ so true _ _ _ h₁ hlistening₁ (h₁.length_lt (h₁.referenced so hlistening₁).2 true)
  have hlistening₂ : listening mem₂ so = true := by rw [listening, hstatus₂, ← listening, hlistening₁]
  obtain ⟨t, ht⟩ := Option.isSome_iff_exists.mp (isSome_of_listening hlistening₂)
  have hnone := (h₂.referenced so hlistening₂).2
  have hthead : t.soHead = none := by rwa [headOf, ht] at hnone
  have htaccept : t.acceptconn = true := by simpa [listening, statusOf, ht] using hlistening₂
  have hempty : ∀ q, Q₂ q so = [] := by
    intro q
    cases q with
    | false => exact hother.trans hempty₁
    | true => exact hempty₂
  refine ⟨Function.update mem₂ so none, Q₂, ?_, h₂.free hnone hempty⟩
  simp only [soclose, hs, defined, bind, Except.bind, haccept, if_true, habort₁, habort₂, write_of_isSome (isSome_of_listening hlistening₂),
    sofree, modify_self ht, htaccept, Bool.not_true, Bool.and_false, Bool.or_self, hthead, Option.isSome_none, Bool.false_eq_true, if_false]
  congr 1
  funext b
  rw [Function.update_apply, Function.update_apply]
  split
  · rfl
  · rename_i hb
    exact modify_of_ne hb

theorem soclose_spec (h : Inv mem Q) (hso : (mem so).isSome) (keeps : Bool) : ∃ mem' Q', soclose mem so keeps = .ok mem' ∧ Inv mem' Q' := by
  obtain ⟨s, hs⟩ := Option.isSome_iff_exists.mp hso
  cases haccept : s.acceptconn with
  | true => exact soclose_listening h hs haccept keeps
  | false =>
    let f : Sock A → Sock A := fun s => { s with pcb := s.pcb && keeps && !s.acceptconn, nofdref := true }
    have hinv : Inv (mem.modify so f) Q := by
      apply h.modify hs
      · intro s
        exact ⟨rfl, fun q => rfl, fun q => rfl⟩
      · exact fun _ => rfl
      · exact id
      · intro hlistening
        rw [show (f s).acceptconn = s.acceptconn from rfl, haccept] at hlistening
        cases hlistening
    have hclose : soclose mem so keeps = sofree (mem.modify so f) so := by
      simp only [soclose, hs, defined, bind, Except.bind, haccept, Bool.false_eq_true, if_false, write_of_isSome hso]
      rfl
    have hself : mem.modify so f so = some (f s) := modify_self hs
    rw [hclose]
    cases hpcb : (f s).pcb with
    | true => exact ⟨_, Q, sofree_kept hself (by simp [hpcb]), hinv⟩
    | false =>
      obtain ⟨mem', hfree, hinv', -⟩ := sofree_freed hinv hself hpcb rfl
      exact ⟨mem', _, hfree, hinv'⟩

/-- The number of sockets that wait for a socket. -/
def waiting (mem : Mem A) (a : A) : Nat := lenOf true mem a + lenOf false mem a

omit [DecidableEq A] [Fintype A] in
theorem Inv.waiting_eq (h : Inv mem Q) (a : A) : waiting mem a = (Q true a).length + (Q false a).length := by
  rw [waiting, h.lenOf_eq, h.lenOf_eq]

/-- `so_qlimit`. -/
def limitOf (mem : Mem A) (a : A) : Nat := (statusOf mem a).elim 0 Status.soQlimit

/-- A new connection is put at the end of its queue if there is room and the protocol takes it. -/
theorem sonewconn1_cases (h : Inv mem Q) (hhead : listening mem head = true) (hso : mem so = none) (connstatus attach : Bool) :
    sonewconn1 mem head connstatus so attach = .ok mem ∨
      ∃ mem' Q', sonewconn1 mem head connstatus so attach = .ok mem' ∧ Inv mem' Q' ∧
        (Q' = Q ∨ Q' = Q.set connstatus head (Q connstatus head ++ [so]) ∧ waiting mem head ≤ 3 * limitOf mem head / 2) := by
  obtain ⟨s, hs⟩ := Option.isSome_iff_exists.mp (isSome_of_listening hhead)
  by_cases hroom : s.soQlen + s.soQ0len > 3 * s.soQlimit / 2
  · left
    simp [sonewconn1, hs, defined, bind, Except.bind, hroom]
  right
  have hwaiting : waiting mem head ≤ 3 * limitOf mem head / 2 := by
    have hle := Nat.le_of_not_lt hroom
    simpa [waiting, lenOf, limitOf, statusOf, hs, Sock.len] using hle
  have hne : head ≠ so := by
    rintro rfl
    rw [hs] at hso
    cases hso
  let fresh : Sock A := { nofdref := true }
  have halloc : Inv (Function.update mem so (some fresh)) Q :=
    h.alloc hso rfl (fun q => by cases q <;> rfl) (fun q => by cases q <;> rfl) rfl
  have hself : Function.update mem so (some fresh) so = some fresh := Function.update_self _ _ _
  have hlistening : listening (Function.update mem so (some fresh)) head = true := by
    rw [listening, statusOf, Function.update_of_ne hne]
    exact hhead
  have hnofree : ∀ q a, so ∉ Q q a := by
    apply h.notMem
    rw [headOf, hso]
    rfl
  obtain ⟨mem₁, hins, h₁, hstatus, hsome⟩ := soqinsque_spec halloc hlistening (by rw [hself]; rfl) (by simp [headOf, fresh])
    (by simp [unreferenced, statusOf, fresh]) (by simp [listening, statusOf, fresh]) connstatus
  have hsome₁ : (mem₁ so).isSome := by rw [hsome so, hself]; rfl
  obtain ⟨t, ht⟩ := Option.isSome_iff_exists.mp hsome₁
  have htstatus : t.acceptconn = false ∧ t.nofdref = true := by
    have hsame := congrFun hstatus so
    simp only [statusOf, ht, hself, Option.map_some, Option.some.injEq, Status.mk.injEq] at hsame
    exact ⟨hsame.1, hsame.2.1⟩
  cases attach with
  | true =>
    refine ⟨mem₁.modify so fun s => { s with pcb := true }, _, ?_, h₁.modify ht ?_ ?_ ?_ ?_, .inr ⟨rfl, hwaiting⟩⟩
    · simp [sonewconn1, hs, defined, bind, Except.bind, hroom, hins, fresh, write_of_isSome hsome₁]
    · intro s
      exact ⟨rfl, fun q => rfl, fun q => rfl⟩
    · exact fun _ => htstatus.2
    · exact id
    · intro haccept
      rw [htstatus.1] at haccept
      cases haccept
  | false =>
    have hmem : so ∈ Q.set connstatus head (Q connstatus head ++ [so]) connstatus head := by simp
    obtain ⟨mem₂, hrem, h₂, hstatus₂, hnone, -⟩ := soqremque_found h₁ hmem
    have hback : (Q.set connstatus head (Q connstatus head ++ [so])).set connstatus head
        ((Q.set connstatus head (Q connstatus head ++ [so]) connstatus head).erase so) = Q := by
      funext q' a
      rw [Queues.set]
      split
      · rename_i hpair
        rw [set_self, hpair.1, hpair.2, List.erase_append_right _ (hnofree _ _), List.erase_cons_head, List.append_nil]
      · rename_i hpair
        exact if_neg hpair
    rw [hback] at h₂
    refine ⟨Function.update mem₂ so none, Q, ?_, h₂.free hnone ?_, .inl rfl⟩
    · simp [sonewconn1, hs, defined, bind, Except.bind, hroom, hins, fresh, hrem]
    · apply h.queue_eq_nil
      simp [listening, statusOf, hso]

theorem soisconnected_spec (h : Inv mem Q) (hso : (mem so).isSome) : ∃ mem' Q', soisconnected mem so = .ok mem' ∧ Inv mem' Q' := by
  obtain ⟨s, hs⟩ := Option.isSome_iff_exists.mp hso
  cases hhead : s.soHead with
  | none =>
    refine ⟨mem, Q, ?_, h⟩
    simp [soisconnected, hs, defined, bind, Except.bind, hhead]
  | some head =>
    have hpending : headOf mem so = some head := by rw [headOf, hs, Option.bind_some, hhead]
    by_cases hmem : so ∈ Q false head
    · obtain ⟨mem₁, hrem, h₁, hstatus, hnone, hsome⟩ := soqremque_found h hmem
      have hlistening : ∀ a, listening mem₁ a = listening mem a := fun a => by rw [listening, hstatus, listening]
      have hunref : unreferenced mem₁ so = true := by
        rw [unreferenced, hstatus]
        exact (h.member false head so hmem).2.2
      obtain ⟨mem₂, hins, h₂, -, -⟩ := soqinsque_spec h₁ ((hlistening head).trans (h.head false head so hmem)) hsome hnone hunref
        ((hlistening so).trans (h.listening_eq_false hpending)) true
      refine ⟨mem₂, _, ?_, h₂⟩
      simp [soisconnected, hs, defined, bind, Except.bind, hhead, hrem, hins]
    · refine ⟨mem, Q, ?_, h⟩
      simp [soisconnected, hs, defined, bind, Except.bind, hhead, soqremque_absent h hpending hmem]

theorem accept_spec (h : Inv mem Q) (hhead : listening mem head = true) : ∃ mem' Q', Listen.accept mem head = .ok mem' ∧ Inv mem' Q' := by
  have hchain := h.chain true head (h.referenced head hhead).2
  cases hlist : Q true head with
  | nil =>
    rw [hlist] at hchain
    refine ⟨mem, Q, ?_, h⟩
    rw [Listen.accept, show links true mem head = none from hchain]
  | cons so rest =>
    rw [hlist] at hchain
    have hmem : so ∈ Q true head := by
      rw [hlist]
      exact List.mem_cons_self
    obtain ⟨mem₁, hrem, h₁, hstatus, hnone, hsome⟩ := soqremque_found h hmem
    obtain ⟨t, ht⟩ := Option.isSome_iff_exists.mp hsome
    have hthead : t.soHead = none := by rwa [headOf, ht] at hnone
    refine ⟨mem₁.modify so fun s => { s with nofdref := false }, _, ?_, h₁.modify ht ?_ ?_ ?_ ?_⟩
    · rw [Listen.accept, show links true mem head = some so from hchain.1]
      simp [hrem, defined, bind, Except.bind, write_of_isSome hsome]
    · intro s
      exact ⟨rfl, fun q => rfl, fun q => rfl⟩
    · intro hpending
      rw [hthead] at hpending
      cases hpending
    · exact id
    · exact fun _ => ⟨rfl, hthead⟩

omit [Fintype A] in
theorem solisten_spec (h : Inv mem Q) {s : Sock A} (hs : mem so = some s) (href : s.nofdref = false) (backlog : Int) :
    ∃ mem' Q', solisten mem so backlog = .ok mem' ∧ Inv mem' Q' := by
  have hhead : s.soHead = none := by
    by_contra hpending
    obtain ⟨a, ha⟩ := Option.ne_none_iff_exists'.mp hpending
    obtain ⟨q, hmem⟩ := h.pending so a (by rw [headOf, hs, Option.bind_some, ha])
    have hunref := (h.member q a so hmem).2.2
    simp [unreferenced, statusOf, hs, href] at hunref
  refine ⟨mem.modify so fun s => { s with
    acceptconn := s.acceptconn || s.soQ.isNone, soQlimit := (min (max backlog 0) 5).toNat }, Q, ?_, h.modify hs ?_ ?_ ?_ ?_⟩
  · rw [solisten, write_of_isSome (Option.isSome_iff_exists.mpr ⟨s, hs⟩)]
    rfl
  · intro s
    exact ⟨rfl, fun q => rfl, fun q => rfl⟩
  · intro hpending
    rw [hhead] at hpending
    cases hpending
  · intro haccept
    simp [haccept]
  · exact fun _ => ⟨href, hhead⟩

/-! ### Runs -/

/-- Every call keeps the queues. -/
theorem step_spec (h : Inv mem Q) (a : Act A) : ∃ mem' Q', step mem a = .ok mem' ∧ Inv mem' Q' := by
  rw [step]
  by_cases henabled : a.enabled mem = true
  · rw [if_pos henabled]
    cases a with
    | create so =>
      exact ⟨_, Q, rfl, h.alloc (by simpa [Act.enabled] using henabled) rfl (fun q => by cases q <;> rfl) (fun q => by cases q <;> rfl) rfl⟩
    | listen so backlog =>
      obtain ⟨s, hs, href⟩ := (Option.any_eq_true _ _).mp henabled
      exact solisten_spec h hs (by simpa using href) backlog
    | newconn head connstatus so attach =>
      simp only [Act.enabled, Bool.and_eq_true, Option.isNone_iff_eq_none] at henabled
      have hhead : listening mem head = true := by
        obtain ⟨s, hs, haccept⟩ := (Option.any_eq_true _ _).mp henabled.1
        simp [listening, statusOf, hs, haccept]
      obtain hsame | ⟨mem', Q', hnew, hinv, -⟩ := sonewconn1_cases h hhead henabled.2 connstatus attach
      · exact ⟨mem, Q, hsame, h⟩
      · exact ⟨mem', Q', hnew, hinv⟩
    | connected so => exact soisconnected_spec h henabled
    | accept head =>
      obtain ⟨s, hs, haccept⟩ := (Option.any_eq_true _ _).mp henabled
      exact accept_spec h (by simpa [listening, statusOf, hs] using (Bool.and_eq_true_iff.mp haccept).2)
    | detach so =>
      obtain ⟨mem', Q', hdetach, hinv, -⟩ := detach_spec h henabled
      exact ⟨mem', Q', hdetach, hinv⟩
    | close so keeps =>
      obtain ⟨s, hs, -⟩ := (Option.any_eq_true _ _).mp henabled
      exact soclose_spec h (Option.isSome_iff_exists.mpr ⟨s, hs⟩) keeps
  · rw [if_neg henabled]
    exact ⟨mem, Q, rfl, h⟩

/-- The calls are made one after the other, with no socket at first. -/
def run (acts : List (Act A)) : Except Fault (Mem A) := acts.foldlM step fun _ => none

omit [DecidableEq A] [Fintype A] in
theorem inv_empty : Inv (fun _ => none : Mem A) fun _ _ => [] := by
  constructor <;> simp [headOf, links, listening, statusOf, lenOf, Links]

theorem run_spec (acts : List (Act A)) : ∃ mem Q, run acts = .ok mem ∧ Inv mem Q := by
  have hall : ∀ (acts : List (Act A)) (mem : Mem A) (Q : Queues A), Inv mem Q → ∃ mem' Q', acts.foldlM step mem = .ok mem' ∧ Inv mem' Q' := by
    intro acts
    induction acts with
    | nil => exact fun mem Q h => ⟨mem, Q, rfl, h⟩
    | cons a acts ih =>
      intro mem Q h
      obtain ⟨mem₁, Q₁, hstep, h₁⟩ := step_spec h a
      obtain ⟨mem', Q', hrun, h'⟩ := ih mem₁ Q₁ h₁
      refine ⟨mem', Q', ?_, h'⟩
      rw [List.foldlM_cons, hstep]
      exact hrun
  exact hall acts _ _ inv_empty

/-- The two lists of a head that is not pending itself: the counters are their lengths, and the sockets on them are those that name the head, each once. -/
def Consistent (mem : Mem A) : Prop :=
  (∀ head h, mem head = some h → h.soHead = none → ∃ l₀ l,
    Links (links false mem) h.soQ0 l₀ none ∧ Links (links true mem) h.soQ l none ∧ h.soQ0len = l₀.length ∧ h.soQlen = l.length ∧
      (l₀ ++ l).Nodup ∧ ∀ so, so ∈ l₀ ++ l ↔ headOf mem so = some head) ∧
  ∀ so head, headOf mem so = some head → ∃ h, mem head = some h ∧ h.soHead = none ∧ h.acceptconn = true

omit [DecidableEq A] [Fintype A] in
theorem Inv.consistent (h : Inv mem Q) : Consistent mem := by
  constructor
  · intro head s hs hnone
    have hhead : headOf mem head = none := by rw [headOf, hs, Option.bind_some, hnone]
    have hchain : ∀ q, Links (links q mem) (s.link q) (Q q head) none := by
      intro q
      have hchain := h.chain q head hhead
      rwa [links, hs, Option.bind_some] at hchain
    have hlen : ∀ q, s.len q = (Q q head).length := by
      intro q
      have hlen := h.len q head hhead
      rwa [lenOf, hs, Option.elim_some] at hlen
    refine ⟨Q false head, Q true head, hchain false, hchain true, hlen false, hlen true, ?_, ?_⟩
    · apply List.Nodup.append (hchain false).nodup (hchain true).nodup
      intro so hso hso'
      exact h.once false head so hso hso'
    · intro so
      rw [List.mem_append]
      constructor
      · rintro (hso | hso)
        · exact (h.member false head so hso).1
        · exact (h.member true head so hso).1
      · intro hpending
        obtain ⟨q, hso⟩ := h.pending so head hpending
        cases q with
        | false => exact .inl hso
        | true => exact .inr hso
  · intro so head hpending
    obtain ⟨q, hso⟩ := h.pending so head hpending
    have hlistening := h.head q head so hso
    obtain ⟨s, hs⟩ := Option.isSome_iff_exists.mp (isSome_of_listening hlistening)
    refine ⟨s, hs, ?_, ?_⟩
    · simpa [headOf, hs] using (h.referenced head hlistening).2
    · simpa [listening, statusOf, hs] using hlistening

/-- What a new connection adds stays within the limit, for every socket. -/
theorem Inv.waiting_le (h : Inv mem Q) {mem' : Mem A} {connstatus attach : Bool} (hhead : listening mem head = true) (hso : mem so = none)
    (hnew : sonewconn1 mem head connstatus so attach = .ok mem') (a : A) :
    waiting mem' a ≤ waiting mem a ∨ a = head ∧ waiting mem' a ≤ 3 * limitOf mem a / 2 + 1 := by
  obtain hsame | ⟨mem₁, Q', hnew', hinv, hQ'⟩ := sonewconn1_cases h hhead hso connstatus attach
  · rw [hnew] at hsame
    cases hsame
    exact .inl le_rfl
  rw [hnew] at hnew'
  cases hnew'
  obtain rfl | ⟨rfl, hroom⟩ := hQ'
  · left
    rw [hinv.waiting_eq, h.waiting_eq]
  · by_cases heq : a = head
    · right
      subst heq
      rw [h.waiting_eq] at hroom
      refine ⟨rfl, ?_⟩
      rw [hinv.waiting_eq]
      cases connstatus <;> simp [Queues.set] <;> omega
    · left
      rw [hinv.waiting_eq, h.waiting_eq]
      simp [Queues.set, heq]

/-- No run ends in the panic of `sofree`, and after every run the queues of all listening sockets are consistent and a new connection is queued within the limit. -/
theorem listen_queues_consistent (acts : List (Act A)) :
    ∃ mem, run acts = .ok mem ∧ Consistent mem ∧
      ∀ head connstatus so attach mem', (Act.newconn head connstatus so attach).enabled mem = true →
        sonewconn1 mem head connstatus so attach = .ok mem' →
        ∀ a, waiting mem' a ≤ waiting mem a ∨ a = head ∧ waiting mem' a ≤ 3 * limitOf mem a / 2 + 1 := by
  obtain ⟨mem, Q, hrun, h⟩ := run_spec acts
  refine ⟨mem, hrun, h.consistent, ?_⟩
  intro head connstatus so attach mem' henabled hnew a
  simp only [Act.enabled, Bool.and_eq_true, Option.isNone_iff_eq_none] at henabled
  obtain ⟨s, hs, haccept⟩ := (Option.any_eq_true _ _).mp henabled.1
  exact h.waiting_le (by simp [listening, statusOf, hs, haccept]) henabled.2 hnew a

end Reading.Kern.Listen
