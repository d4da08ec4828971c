import Reading.Lib.Transition

/-!
# The lock of a socket buffer

`sblock` and `sbunlock` (`socketvar.h`) with `sb_lock` (`uipc_socket2.c`), and the threads that use them on one buffer: `sosend`, `soreceive` and `sorflush` (`uipc_socket.c`). Of these only the places around the lock are kept; what they do in between is a choice of the environment, and so is when a thread runs. A thread may be interrupted by others at every place, which is more often than in the kernel, where a thread gives up the processor only to sleep.
-/

namespace Reading.Kern.Lock

open Reading.Transition

/-- `sb_flags`. -/
structure Flags where
  lock : Bool := false
  want : Bool := false
  wait : Bool := false
  noIntr : Bool := false
deriving DecidableEq

def Flags.toNat (f : Flags) : Nat := f.lock.toNat + 2 * f.want.toNat + 4 * f.wait.toNat + 64 * f.noIntr.toNat

def EWOULDBLOCK : Nat := 35

/-- An expression that may sleep: its value, or that the thread sleeps, with a signal caught or not. -/
inductive Eval where
  | value (v : Nat) (flags : Flags)
  | asleep (catch' : Bool) (flags : Flags)
deriving DecidableEq

/-- One round of the loop of `sb_lock`. -/
def sbLockRound (f : Flags) : Eval :=
  if f.lock then .asleep (!f.noIntr) { f with want := true } else .value 0 { f with lock := true }

/-- The conditional expression in `sblock`. -/
def sblockCond (f : Flags) (waitok : Bool) : Eval :=
  if f.lock then
    if waitok then sbLockRound f else .value EWOULDBLOCK f
  else .value { f with lock := true }.toNat { f with lock := true }

/-- The value of `sblock` once the conditional has one: the comma binds weaker, and `0` stands behind it. -/
def sblockValue (_cond : Nat) : Nat := 0

/-- The threads that `sbunlock` wakes may run in any case, and test the flag again. -/
def sbunlock (f : Flags) : Flags := { f with lock := false, want := false }

inductive Routine where
  | sosend (dontwait : Bool)
  | soreceive (dontwait : Bool)
  | sorflush
deriving DecidableEq

/-- The argument of `sblock`. -/
def Routine.waitok : Routine → Bool
  | .sosend dontwait | .soreceive dontwait => !dontwait
  | .sorflush => true

inductive Place where
  | out
  /-- Before `sblock`. -/
  | restart
  /-- In the sleep of `sb_lock`. -/
  | lockSleep (catch' : Bool)
  /-- Between `sblock` and `sbunlock`. Whether the thread has set the flag itself is not known to it. -/
  | inside (own : Bool)
  /-- In `sbwait`, with the buffer unlocked. -/
  | sbwait
deriving DecidableEq

variable {ι : Type} [DecidableEq ι]

structure Sys (ι : Type) where
  flags : Flags
  place : ι → Place
  routine : ι → Routine

def Sys.set (s : Sys ι) (i : ι) (flags : Flags) (place : Place) : Sys ι :=
  { s with flags := flags, place := Function.update s.place i place }

/-- Behind `sblock`: an error ends `sosend` and `soreceive`, and `sorflush` does not look at it. -/
def Sys.behind (s : Sys ι) (i : ι) (flags : Flags) (value : Nat) (own : Bool) : Sys ι :=
  if value ≠ 0 ∧ s.routine i ≠ .sorflush then s.set i flags .out else s.set i flags (.inside own)

/-- The evaluation of `sblock` goes on. -/
def Sys.sblock (s : Sys ι) (i : ι) (e : Eval) : Sys ι :=
  match e with
  | .value v flags => s.behind i flags (sblockValue v) (!s.flags.lock && flags.lock)
  | .asleep c flags => s.set i flags (.lockSleep c)

inductive Act where
  | enter (r : Routine)
  | sblock
  /-- `tsleep` returns 0 in `sb_lock`. -/
  | wake
  /-- `tsleep` returns an error in `sb_lock`. -/
  | interrupt (error : Nat)
  /-- The buffer is unlocked and the function left. -/
  | leave
  /-- The buffer is unlocked and the function begins again. -/
  | again
  /-- The buffer is unlocked and waited for. -/
  | wait
  /-- `sbwait` comes back, with an error or without. -/
  | resume (error : Nat)
deriving DecidableEq

/-- A thread takes a step. An action that is not possible at its place changes nothing. -/
def step (s : Sys ι) (a : ι × Act) : Sys ι :=
  let i := a.1
  match a.2, s.place i with
  | .enter r, .out =>
    { s.set i { s.flags with noIntr := s.flags.noIntr || decide (r = .sorflush) } .restart with
      routine := Function.update s.routine i r }
  | .sblock, .restart => s.sblock i (sblockCond s.flags (s.routine i).waitok)
  | .wake, .lockSleep _ => s.sblock i (sbLockRound s.flags)
  | .interrupt error, .lockSleep true => if error = 0 then s else s.behind i s.flags (sblockValue error) false
  | .leave, .inside _ =>
    -- `sorflush` clears the whole buffer behind `sbunlock`.
    s.set i (if s.routine i = .sorflush then {} else sbunlock s.flags) .out
  | .again, .inside _ => if s.routine i = .sorflush then s else s.set i (sbunlock s.flags) .restart
  | .wait, .inside _ => if s.routine i = .sorflush then s else s.set i { sbunlock s.flags with wait := true } .sbwait
  | .resume error, .sbwait => s.set i s.flags (if error = 0 then .restart else .out)
  | _, _ => s

/-- The sleep in `sb_lock` ends with an error. -/
def Act.fails : Act → Bool
  | .interrupt error => error ≠ 0
  | _ => false

/-- The lock is refused: it is held and the thread may not wait, or the sleep for it ends with an error. -/
def Refused (s : Sys ι) (a : ι × Act) : Prop :=
  (a.2 = .sblock ∧ s.place a.1 = .restart ∧ s.flags.lock = true ∧ (s.routine a.1).waitok = false) ∨
    (s.place a.1 = .lockSleep true ∧ a.2.fails = true)

instance (s : Sys ι) (a : ι × Act) : Decidable (Refused s a) := inferInstanceAs (Decidable (_ ∨ _))

/-- `sblock` has returned 0 only to threads that set the flag, and at most one thread is behind it. -/
structure Excludes (s : Sys ι) : Prop where
  own : ∀ i own, s.place i = .inside own → own = true
  one : ∀ i j own own', s.place i = .inside own → s.place j = .inside own' → i = j

/-! ### One step -/

variable {s : Sys ι} {i j : ι} {flags : Flags} {own : Bool}

theorem place_set (s : Sys ι) (i : ι) (flags : Flags) (place : Place) (j : ι) :
    (s.set i flags place).place j = if j = i then place else s.place j := by
  exact Function.update_apply s.place i place j

/-- As the macro is written, every thread comes to the other side. -/
theorem behind_sblockValue (s : Sys ι) (i : ι) (flags : Flags) (v : Nat) (own : Bool) :
    s.behind i flags (sblockValue v) own = s.set i flags (.inside own) := by
  rw [Sys.behind, sblockValue, if_neg (by simp)]

theorem sblock_free (hfree : s.flags.lock = false) (waitok : Bool) :
    s.sblock i (sblockCond s.flags waitok) = s.set i { s.flags with lock := true } (.inside true) := by
  rw [sblockCond, if_neg (by simp [hfree]), Sys.sblock, behind_sblockValue]
  simp [hfree]

theorem sblock_sleeps (hlock : s.flags.lock = true) :
    s.sblock i (sblockCond s.flags true) = s.set i { s.flags with want := true } (.lockSleep (!s.flags.noIntr)) := by
  rw [sblockCond, if_pos hlock, if_pos rfl, sbLockRound, if_pos hlock, Sys.sblock]

theorem sblock_refused (hlock : s.flags.lock = true) :
    s.sblock i (sblockCond s.flags false) = s.set i s.flags (.inside false) := by
  rw [sblockCond, if_pos hlock, if_neg (by simp), Sys.sblock, behind_sblockValue]
  simp [hlock]

theorem wake_free (hfree : s.flags.lock = false) :
    s.sblock i (sbLockRound s.flags) = s.set i { s.flags with lock := true } (.inside true) := by
  rw [sbLockRound, if_neg (by simp [hfree]), Sys.sblock, behind_sblockValue]
  simp [hfree]

theorem wake_sleeps (hlock : s.flags.lock = true) :
    s.sblock i (sbLockRound s.flags) = s.set i { s.flags with want := true } (.lockSleep (!s.flags.noIntr)) := by
  rw [sbLockRound, if_pos hlock, Sys.sblock]

/-- A thread that is refused goes on all the same. -/
theorem step_refused {a : ι × Act} (h : Refused s a) : (step s a).place a.1 = .inside false := by
  obtain ⟨i, act⟩ := a
  obtain ⟨hact, hplace, hlock, hwait⟩ | ⟨hplace, hfails⟩ := h
  · simp only at hact hplace hwait
    subst hact
    simp only [step, hplace, hwait]
    rw [sblock_refused hlock, place_set, if_pos rfl]
  · simp only at hplace hfails
    cases act with
    | interrupt error =>
      have herror : error ≠ 0 := of_decide_eq_true hfails
      simp only [step, hplace, if_neg herror]
      rw [behind_sblockValue, place_set, if_pos rfl]
    | enter | sblock | wake | leave | again | wait | resume => exact absurd hfails (by simp [Act.fails])

/-- The flag is set exactly while the one thread that set it is inside. -/
structure Held (s : Sys ι) : Prop where
  excludes : Excludes s
  locked : ∀ i own, s.place i = .inside own → s.flags.lock = true

/-- A step of a thread that does not come inside and leaves the flag to the others. -/
theorem Held.set_out (h : Held s) {place : Place} (hplace : ∀ own, place ≠ .inside own)
    (hlock : (∃ own, s.place i = .inside own) ∨ flags.lock = s.flags.lock) : Held (s.set i flags place) := by
  have hother : ∀ j own, (s.set i flags place).place j = .inside own → j ≠ i ∧ s.place j = .inside own := by
    intro j own hj
    rw [place_set] at hj
    split at hj
    · exact absurd hj (hplace own)
    · rename_i hne
      exact ⟨hne, hj⟩
  refine ⟨⟨fun j own hj => h.excludes.own j own (hother j own hj).2, fun j k own own' hj hk =>
    h.excludes.one j k own own' (hother j own hj).2 (hother k own' hk).2⟩, fun j own hj => ?_⟩
  obtain ⟨hne, hinside⟩ := hother j own hj
  obtain ⟨own', hi⟩ | heq := hlock
  · exact absurd (h.excludes.one j i own own' hinside hi) hne
  · exact heq.trans (h.locked j own hinside)

/-- A thread that finds the flag clear sets it. -/
theorem Held.set_inside (h : Held s) (hfree : s.flags.lock = false) (hlock : flags.lock = true) :
    Held (s.set i flags (.inside true)) := by
  have hnone : ∀ j own, s.place j ≠ .inside own := by
    intro j own hj
    rw [h.locked j own hj] at hfree
    exact absurd hfree (by simp)
  have honly : ∀ j own, (s.set i flags (.inside true)).place j = .inside own → j = i ∧ own = true := by
    intro j own hj
    rw [place_set] at hj
    split at hj
    · rename_i heq
      exact ⟨heq, (Place.inside.inj hj).symm⟩
    · exact absurd hj (hnone j own)
  exact ⟨⟨fun j own hj => (honly j own hj).2, fun j k own own' hj hk => (honly j own hj).1.trans (honly k own' hk).1.symm⟩,
    fun _ _ _ => hlock⟩

theorem held_step (h : Held s) {a : ι × Act} (ha : ¬ Refused s a) : Held (step s a) := by
  obtain ⟨i, act⟩ := a
  simp only [step]
  split
  · rename_i r hplace
    have hset : Held (s.set i { s.flags with noIntr := s.flags.noIntr || decide (r = .sorflush) } .restart) :=
      h.set_out (by simp) (.inr rfl)
    exact ⟨⟨hset.excludes.own, hset.excludes.one⟩, hset.locked⟩
  · rename_i hplace
    cases hlock : s.flags.lock with
    | false =>
      rw [sblock_free hlock]
      exact h.set_inside hlock rfl
    | true =>
      have hwait : (s.routine i).waitok = true := by
        by_contra hwait
        exact ha (.inl ⟨rfl, hplace, hlock, by simpa using hwait⟩)
      rw [hwait, sblock_sleeps hlock]
      exact h.set_out (by simp) (.inr rfl)
  · rename_i c hplace
    cases hlock : s.flags.lock with
    | false =>
      rw [wake_free hlock]
      exact h.set_inside hlock rfl
    | true =>
      rw [wake_sleeps hlock]
      exact h.set_out (by simp) (.inr rfl)
  · rename_i error hplace
    split
    · exact h
    · rename_i herror
      exact absurd (.inr ⟨hplace, decide_eq_true herror⟩) ha
  · rename_i own hplace
    exact h.set_out (by simp) (.inl ⟨own, hplace⟩)
  · rename_i own hplace
    split
    · exact h
    · exact h.set_out (by simp) (.inl ⟨own, hplace⟩)
  · rename_i own hplace
    split
    · exact h
    · exact h.set_out (by simp) (.inl ⟨own, hplace⟩)
  · rename_i error hplace
    refine h.set_out ?_ (.inr rfl)
    intro own
    split <;> simp
  · exact h

/-! ### Runs -/

/-- No thread has called `sblock` yet. -/
def Start (s : Sys ι) : Prop := s.flags.lock = false ∧ ∀ i, s.place i = .out

omit [DecidableEq ι] in
theorem held_start (h : Start s) : Held s := by
  have hnone : ∀ j own, s.place j ≠ .inside own := by simp [h.2]
  exact ⟨⟨fun j own hj => absurd hj (hnone j own), fun j _ own _ hj => absurd hj (hnone j own)⟩, fun j own hj => absurd hj (hnone j own)⟩

theorem along_take {P : Sys ι → ι × Act → Prop} {actions : List (ι × Act)} (h : Along step P s actions) (n : Nat) :
    Along step P s (actions.take n) := by
  rw [← List.take_append_drop n actions, along_append] at h
  exact h.1

/-- In every run of any number of threads: the lock excludes throughout exactly if no thread is ever refused. -/
theorem sblock_excludes_iff (hstart : Start s) (actions : List (ι × Act)) :
    (∀ n, Excludes (run step s (actions.take n))) ↔ Along step (fun s a => ¬ Refused s a) s actions := by
  constructor
  · clear hstart
    intro hall
    induction actions generalizing s with
    | nil => trivial
    | cons a actions ih =>
      refine ⟨fun hrefused => ?_, ih fun n => hall (n + 1)⟩
      have hown := (hall 1).own a.1 false (step_refused hrefused)
      exact absurd hown (by simp)
  · intro hgranted n
    exact (run_invariant step (fun _ _ ha h => held_step h ha) (along_take hgranted n) (held_start hstart)).excludes

/-- Two threads in turn. -/
theorem sblock_excludes_inTurn : Start (⟨{}, fun _ => .out, fun _ => .sorflush⟩ : Sys Bool) ∧
    ∀ n, Excludes (run step (⟨{}, fun _ => .out, fun _ => .sorflush⟩ : Sys Bool)
      ([(true, Act.enter (.soreceive false)), (true, .sblock), (false, .enter .sorflush), (false, .sblock), (true, .leave),
        (false, .wake), (false, .leave)].take n)) :=
  ⟨⟨rfl, fun _ => rfl⟩, (sblock_excludes_iff ⟨rfl, fun _ => rfl⟩ _).mpr (by decide)⟩

/-- A reader that may not wait finds the buffer locked, and is inside beside the other one. -/
theorem sblock_admits_second :
    let s := run step (⟨{}, fun _ => .out, fun _ => .sorflush⟩ : Sys Bool)
      [(true, Act.enter (.soreceive false)), (true, .sblock), (false, .enter (.soreceive true)), (false, .sblock)]
    s.place true = .inside true ∧ s.place false = .inside false ∧ ¬ Excludes s := by
  refine ⟨rfl, rfl, fun h => ?_⟩
  exact absurd (h.own false false rfl) (by simp)

end Reading.Kern.Lock
