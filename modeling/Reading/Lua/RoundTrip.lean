import Reading.Lua.Undump

/-!
# What is dumped can be loaded

Every writer of the format has its reader. The reader of a whole function also counts its depth, wants line numbers and scopes that are not negative, and runs the checker on the code it gets.
-/

namespace Reading.Lua

open Reading.Lib.Codec

section Items

variable (m : Machine) (name : String)

/-- A string whose length with the final `\0` is a `size_t`, or none at all. -/
def StringFits : Option TString → Prop
  | none => True
  | some s => s.length + 1 < 256 ^ m.sizeofSizeT

theorem reads_block (s : List UInt8) : Reads (loadBlock name s.length) s s := reads_take _ s

theorem reads_word (n x : Nat) : Reads (loadBlock name n) [m.word n x].flatten (m.word n x) := by
  have h := reads_block name (m.word n x)
  rw [Machine.length_word] at h
  rw [List.flatten_singleton]
  exact h

theorem reads_char (y : UInt8) : Reads (loadChar name) (dumpChar y).flatten y :=
  (reads_block name [y]).bind_nil (Reads.pure y)

theorem reads_int {x : BitVec 32} (h : 0 ≤ x.toInt) : Reads (loadInt m name) (dumpInt m x).flatten x := by
  have hword : m.ofWord (m.word sizeofInt x.toNat) = x.toNat := m.ofWord_word x.isLt
  rw [loadInt]
  refine (reads_word m name sizeofInt x.toNat).bind_nil ?_
  simp only [hword, BitVec.ofNat_toNat, BitVec.setWidth_eq]
  rw [if_neg (by omega)]
  exact Reads.pure x

theorem toNat_length {n : Nat} (h : n < 2 ^ 31) : (BitVec.ofNat 32 n).toNat = n := by
  rw [BitVec.toNat_ofNat]
  omega

theorem reads_length {n : Nat} (h : n < 2 ^ 31) : Reads (loadInt m name) (dumpInt m n).flatten n := by
  apply reads_int
  have hnat := toNat_length h
  have hint : (BitVec.ofNat 32 n).toInt = (BitVec.ofNat 32 n).toNat := BitVec.toInt_eq_toNat_of_lt (by omega)
  exact hint ▸ Int.natCast_nonneg _

theorem reads_number (x : BitVec 64) : Reads (loadNumber m name) (dumpNumber m x).flatten x := by
  have hword : m.ofWord (m.word sizeofLuaNumber x.toNat) = x.toNat := m.ofWord_word x.isLt
  rw [loadNumber]
  refine (reads_word m name sizeofLuaNumber x.toNat).bind_nil ?_
  rw [hword, BitVec.ofNat_toNat, BitVec.setWidth_eq]
  exact Reads.pure x

theorem reads_string {s : Option TString} (h : StringFits m s) :
    Reads (loadString m name) (dumpString m s).flatten s := by
  rw [loadString]
  cases s with
  | none =>
    have hword : m.ofWord (m.word m.sizeofSizeT 0) = 0 := m.ofWord_word (Nat.pow_pos (by decide))
    refine (reads_word m name m.sizeofSizeT 0).bind_nil ?_
    simp only [hword]
    exact Reads.pure none
  | some s =>
    have hword : m.ofWord (m.word m.sizeofSizeT (s.length + 1)) = s.length + 1 := m.ofWord_word h
    rw [dumpString, ← List.singleton_append, List.flatten_append, List.flatten_singleton (l := s ++ [0])]
    refine (reads_word m name m.sizeofSizeT (s.length + 1)).bind ?_
    simp only [hword, Nat.succ_ne_zero, if_false]
    have hblock := reads_block name (s ++ [0])
    rw [List.length_append] at hblock
    refine hblock.bind_nil ?_
    rw [Nat.add_sub_cancel, List.take_left]
    exact Reads.pure (some s)

/-- A counted array, item by item. -/
theorem reads_counted {α γ : Type} {load : Load γ} {dump : α → Blocks} {read : α → γ} {xs : List α}
    (hlen : xs.length < 2 ^ 31) (h : ∀ x ∈ xs, Reads load (dump x).flatten (read x)) :
    Reads (loadCounted m name load) (dumpCounted m xs dump).flatten (xs.map read) := by
  have hall := Reads.many xs h
  have hflat : (xs.flatMap dump).flatten = xs.flatMap fun x => (dump x).flatten := by
    rw [List.flatMap_def, List.flatten_flatten, List.map_map]
    rfl
  rw [loadCounted, dumpCounted, List.flatten_append, hflat]
  refine (reads_length m name hlen).bind ?_
  have hn : ((xs.length : Nat) : BitVec 32).toNat = xs.length := toNat_length hlen
  rw [hn]
  exact hall

theorem reads_counted_self {α : Type} {load : Load α} {dump : α → Blocks} {xs : List α} (hlen : xs.length < 2 ^ 31)
    (h : ∀ x ∈ xs, Reads load (dump x).flatten x) :
    Reads (loadCounted m name load) (dumpCounted m xs dump).flatten xs := by
  have hall : Reads _ _ (xs.map fun x => x) := reads_counted m name hlen h
  rw [List.map_id'] at hall
  exact hall

theorem reads_vector {xs : List (BitVec 32)} (hlen : xs.length < 2 ^ 31) :
    Reads (loadVector m name 4) (dumpVector m xs 4).flatten xs := by
  have hone : ∀ x ∈ xs, Reads ((fun b => BitVec.ofNat 32 (m.ofWord b)) <$> loadBlock name 4) (m.word 4 x.toNat) x := by
    intro x _
    have hread := (reads_word m name 4 x.toNat).map fun b => BitVec.ofNat 32 (m.ofWord b)
    have hword : m.ofWord (m.word 4 x.toNat) = x.toNat := m.ofWord_word x.isLt
    rw [hword, BitVec.ofNat_toNat, BitVec.setWidth_eq, List.flatten_singleton] at hread
    exact hread
  have hall : Reads _ _ (xs.map fun x => x) := Reads.many xs hone
  rw [List.map_id'] at hall
  rw [loadVector, loadCounted, dumpVector, List.flatten_append, List.flatten_singleton]
  refine (reads_length m name hlen).bind ?_
  have hn : ((xs.length : Nat) : BitVec 32).toNat = xs.length := toNat_length hlen
  rw [hn]
  exact hall

def ConstantFits : Constant → Prop
  | .string s => StringFits m s
  | _ => True

theorem reads_constant {c : Constant} (h : ConstantFits m c) :
    Reads (loadConstant m name) (dumpConstant m c).flatten c := by
  cases c with
  | nil => exact (reads_char name luaTnil).bind_nil (Reads.pure _)
  | boolean b =>
    rw [dumpConstant, List.flatten_append]
    refine (reads_char name luaTboolean).bind ((reads_char name _).bind_nil ?_)
    cases b with
    | true => exact Reads.pure _
    | false => exact Reads.pure _
  | number n =>
    rw [dumpConstant, List.flatten_append]
    exact (reads_char name luaTnumber).bind ((reads_number m name n).bind_nil (Reads.pure _))
  | string s =>
    rw [dumpConstant, List.flatten_append]
    exact (reads_char name luaTstring).bind ((reads_string m name h).bind_nil (Reads.pure _))

/-- The scope of a local variable, as the loader wants it. -/
def LocVarFits (v : LocVar) : Prop := StringFits m v.varname ∧ 0 ≤ v.startpc.toInt ∧ 0 ≤ v.endpc.toInt

theorem reads_locvar {v : LocVar} (h : LocVarFits m v) : Reads (loadLocvar m name) (dumpLocvar m v).flatten v := by
  obtain ⟨hname, hstart, hend⟩ := h
  rw [dumpLocvar, List.append_assoc, List.flatten_append, List.flatten_append]
  exact (reads_string m name hname).bind
    ((reads_int m name hstart).bind ((reads_int m name hend).bind_nil (Reads.pure v)))

end Items

/-! ### Functions -/

/-- What `C`'s types grant: every size is an `int`, and every string has its length in a `size_t`. -/
structure Fits (m : Machine) (f : Proto) : Prop where
  sizek : f.k.length < 2 ^ 31
  sizecode : f.code.length < 2 ^ 31
  sizep : f.p.length < 2 ^ 31
  sizelineinfo : f.lineinfo.length < 2 ^ 31
  sizelocvars : f.locvars.length < 2 ^ 31
  sizeupvalues : f.upvalues.length < 2 ^ 31
  source : StringFits m f.source
  constants : ∀ c ∈ f.k, ConstantFits m c
  varnames : ∀ v ∈ f.locvars, StringFits m v.varname
  upvalues : ∀ s ∈ f.upvalues, StringFits m s

/-- What the loader wants of a function besides. The scopes of local variables matter only where they are written. -/
structure Dumpable (m : Machine) (strip : Bool) (f : Proto) : Prop extends Fits m f where
  checked : luaGCheckcode f = true
  named : f.source ≠ none
  linedefined_nonneg : 0 ≤ f.linedefined.toInt
  lastlinedefined_nonneg : 0 ≤ f.lastlinedefined.toInt
  scopes_nonneg : strip = false → ∀ v ∈ f.locvars, 0 ≤ v.startpc.toInt ∧ 0 ≤ v.endpc.toInt

/-- What is loaded of a dumped function. -/
def kept (strip : Bool) (f : Proto) : Proto := if strip then f.stripped (some noSource) else f

/-- The source that a function is read with, if its parent's is `q`. -/
def keptSource (strip : Bool) (f : Proto) : Option TString := if strip then some noSource else f.source

section Functions

variable {m : Machine} (name : String) {strip : Bool}

theorem dumpFunctions_eq (source : Option TString) (gs : List Proto) :
    dumpFunctions m strip source gs = gs.flatMap (dumpFunction m strip source) := by
  induction gs with
  | nil => rfl
  | cons g gs ih => rw [dumpFunctions, ih, List.flatMap_cons]

/-- The bytes of a function, field by field. -/
theorem flatten_dumpFunction (parent : Option TString) (f : Proto) :
    (dumpFunction m strip parent f).flatten =
      (dumpString m (if f.source = parent ∨ strip then none else f.source)).flatten
        ++ ((dumpInt m f.linedefined).flatten
        ++ ((dumpInt m f.lastlinedefined).flatten
        ++ ((dumpChar f.nups).flatten
        ++ ((dumpChar f.numparams).flatten
        ++ ((dumpChar f.isVararg).flatten
        ++ ((dumpChar f.maxstacksize).flatten
        ++ ((dumpVector m f.code sizeofInstruction).flatten
        ++ ((dumpConstants m f.k).flatten
        ++ ((dumpCounted m f.p (dumpFunction m strip f.source)).flatten
        ++ (dumpDebug m strip f.lineinfo f.locvars f.upvalues).flatten))))))))) := by
  cases f
  rw [dumpFunction, dumpFunctions_eq, dumpCounted]
  simp only [List.flatten_append, List.append_assoc]

theorem flatten_dumpDebug (lineinfo : List (BitVec 32)) (locvars : List LocVar) (upvalues : List (Option TString)) :
    (dumpDebug m strip lineinfo locvars upvalues).flatten =
      (dumpVector m (if strip then [] else lineinfo) sizeofInt).flatten
        ++ ((dumpCounted m (if strip then [] else locvars) (dumpLocvar m)).flatten
        ++ (dumpCounted m (if strip then [] else upvalues) (dumpString m)).flatten) := by
  rw [dumpDebug, List.flatten_append, List.flatten_append, List.append_assoc]

theorem kept_eq (strip : Bool) (f : Proto) :
    kept strip f =
      { f with
        p := f.p.map (kept strip)
        lineinfo := if strip then [] else f.lineinfo
        locvars := if strip then [] else f.locvars
        upvalues := if strip then [] else f.upvalues
        source := keptSource strip f } := by
  cases strip with
  | true => exact Proto.stripped_eq _ f
  | false =>
    have hid : f.p.map (kept false) = f.p := List.map_id' f.p
    rw [hid]
    cases f
    rfl

theorem Dumpable.checked_kept {f : Proto} (h : Dumpable m strip f) : luaGCheckcode (kept strip f) = true := by
  cases strip with
  | true => exact luaGCheckcode_stripped _ h.checked
  | false => exact h.checked

theorem length_kept {α : Type} {xs : List α} (strip : Bool) (h : xs.length < 2 ^ 31) :
    (if strip then [] else xs).length < 2 ^ 31 := by
  cases strip with
  | true => exact Nat.pow_pos (by decide)
  | false => exact h

theorem Dumpable.locvars_kept {f : Proto} (h : Dumpable m strip f) {v : LocVar}
    (hv : v ∈ if strip then [] else f.locvars) : LocVarFits m v := by
  cases strip with
  | true => cases hv
  | false => exact ⟨h.varnames v hv, h.scopes_nonneg rfl v hv⟩

theorem Dumpable.upvalues_kept {f : Proto} (h : Dumpable m strip f) {s : Option TString}
    (hs : s ∈ if strip then [] else f.upvalues) : StringFits m s := by
  cases strip with
  | true => cases hs
  | false => exact h.upvalues s hs

/-- Whether its source is written or left to the parent, a function gets it back. -/
theorem reads_source {f : Proto} {parent q : Option TString} (h : Dumpable m strip f)
    (hq : strip = true → q = some noSource) (hparent : strip = false → parent = none ∨ parent = q) :
    ∃ s, Reads (loadString m name) (dumpString m (if f.source = parent ∨ strip then none else f.source)).flatten s ∧
      s.or q = keptSource strip f := by
  by_cases hleft : f.source = parent ∨ strip = true
  · rw [if_pos hleft]
    refine ⟨none, reads_string m name trivial, ?_⟩
    cases strip with
    | true => exact hq rfl
    | false =>
      have hsource : f.source = parent := hleft.resolve_right (by decide)
      rcases hparent rfl with hnone | hsame
      · exact absurd (hsource.trans hnone) h.named
      · exact (hsource.trans hsame).symm
  · rw [if_neg hleft]
    refine ⟨f.source, reads_string m name h.source, ?_⟩
    have hstrip : strip = false := by
      cases strip with
      | true => exact absurd (Or.inr rfl) hleft
      | false => rfl
    obtain ⟨s, hs⟩ := Option.ne_none_iff_exists'.1 h.named
    rw [keptSource, hstrip, hs]
    rfl

theorem reads_function {n : Nat} {f : Proto} {parent q : Option TString} (hnest : f.Nests n)
    (hall : f.All (Dumpable m strip)) (hq : strip = true → q = some noSource)
    (hparent : strip = false → parent = none ∨ parent = q) :
    Reads (loadFunction m name n q) (dumpFunction m strip parent f).flatten (kept strip f) := by
  induction n generalizing f parent q with
  | zero => exact hnest.elim
  | succ n ih =>
    have h := hall.here
    obtain ⟨s, hsource, hs⟩ := reads_source name h hq hparent
    -- the functions inside are read with the source that this one was given
    have hinside : ∀ g ∈ f.p, Reads (loadFunction m name n (keptSource strip f))
        (dumpFunction m strip f.source g).flatten (kept strip g) := by
      intro g hg
      apply ih (hnest g hg) (hall.inside hg)
      · intro hstrip
        rw [keptSource, if_pos hstrip]
      · intro hstrip
        right
        rw [keptSource, hstrip]
        rfl
    rw [loadFunction, flatten_dumpFunction, flatten_dumpDebug]
    refine hsource.bind ?_
    rw [hs]
    refine (reads_int m name h.linedefined_nonneg).bind ?_
    refine (reads_int m name h.lastlinedefined_nonneg).bind ?_
    refine (reads_char name f.nups).bind ?_
    refine (reads_char name f.numparams).bind ?_
    refine (reads_char name f.isVararg).bind ?_
    refine (reads_char name f.maxstacksize).bind ?_
    refine (reads_vector m name h.sizecode).bind ?_
    refine (reads_counted_self m name h.sizek fun c hc => reads_constant m name (h.constants c hc)).bind ?_
    refine (reads_counted m name h.sizep hinside).bind ?_
    refine (reads_vector m name (length_kept strip h.sizelineinfo)).bind ?_
    have hlocvars := reads_counted_self m name (length_kept strip h.sizelocvars) fun v hv =>
      reads_locvar m name (h.locvars_kept hv)
    have hupvalues := reads_counted_self m name (length_kept strip h.sizeupvalues) fun s hs =>
      reads_string m name (h.upvalues_kept hs)
    refine hlocvars.bind (hupvalues.bind_nil ?_)
    rw [← kept_eq, if_pos h.checked_kept]
    exact Reads.pure (kept strip f)

theorem reads_header : Reads (loadHeader m name) (luaUHeader m) () := by
  rw [loadHeader]
  refine (reads_block name (luaUHeader m)).bind_nil ?_
  rw [if_neg (not_not_intro rfl)]
  exact Reads.pure ()

end Functions

/-! ### Chunks -/

theorem foldl_collect (bs : Blocks) (written : List UInt8) :
    bs.foldl (dumpBlock collect) (0, written) = (0, written ++ bs.flatten) := by
  induction bs generalizing written with
  | nil => rw [List.flatten_nil, List.append_nil, List.foldl_nil]
  | cons b bs ih => rw [List.foldl_cons, List.flatten_cons, ← List.append_assoc, ← ih, dumpBlock, if_pos rfl, collect]

/-- A tree that the loader wants is loaded as it was dumped, and what follows it is left. -/
theorem undump_dump (m : Machine) (nCcalls : Nat) (name : String) (strip : Bool) {f : Proto}
    (hnest : f.Nests (luaiMaxccalls - nCcalls)) (hall : f.All (Dumpable m strip)) (rest : List UInt8) :
    (luaUDump m f collect [] strip).1 = 0 ∧
      (luaUUndump m nCcalls name).run ((luaUDump m f collect [] strip).2 ++ rest) =
        .ok (if strip then f.stripped (some noSource) else f, rest) := by
  rw [luaUDump, foldl_collect]
  refine ⟨rfl, ?_⟩
  have hbody : Reads (loadFunction m (chunkName name) (luaiMaxccalls - nCcalls) (some noSource))
      (dumpFunction m strip none f).flatten (kept strip f) :=
    reads_function (chunkName name) hnest hall (fun _ => rfl) fun _ => Or.inl rfl
  exact (reads_header (chunkName name)).bind hbody rest

/-- A function that returns at once, with functions inside it and local variables as given. -/
def smallProto (p : List Proto) (locvars : List LocVar) : Proto :=
  { k := []
    code := [0x0080001e]
    p := p
    lineinfo := []
    locvars := locvars
    upvalues := []
    source := some [0x40]
    linedefined := 0
    lastlinedefined := 0
    nups := 0
    numparams := 0
    isVararg := 0
    maxstacksize := 2 }

def smallMachine : Machine := ⟨false, 4⟩

/-- `function () return x end`, for a local variable `x` of the function around it. -/
def getterProto : Proto :=
  { smallProto [] [] with
    code := [0x00000004, 0x0100001e, 0x0080001e]
    lineinfo := [2, 2, 2]
    upvalues := [some [0x78]]
    linedefined := 2
    lastlinedefined := 2
    nups := 1 }

/-- A chunk that returns such a function, with a constant of each kind. -/
def closureProto : Proto :=
  { smallProto [getterProto] [⟨some [0x78], 1, 4⟩] with
    k := [.string (some [0x68, 0x69]), .number 0x3ff0000000000000, .boolean true, .nil]
    code := [0x00000001, 0x00000064, 0x00000000, 0x0100005e, 0x0080001e]
    lineinfo := [1, 2, 2, 2, 3]
    isVararg := 2 }

theorem getterProto_dumpable (strip : Bool) : Dumpable smallMachine strip getterProto where
  sizek := by decide
  sizecode := by decide
  sizep := by decide
  sizelineinfo := by decide
  sizelocvars := by decide
  sizeupvalues := by decide
  source := show 1 + 1 < 256 ^ 4 by decide
  constants := fun _ hc => by cases hc
  varnames := fun _ hv => by cases hv
  upvalues := by
    intro s hs
    rw [List.mem_singleton.1 hs]
    exact show 1 + 1 < 256 ^ 4 by decide
  checked := by decide
  named := Option.some_ne_none _
  linedefined_nonneg := by decide
  lastlinedefined_nonneg := by decide
  scopes_nonneg := fun _ _ hv => by cases hv

theorem closureProto_dumpable (strip : Bool) : Dumpable smallMachine strip closureProto where
  sizek := by decide
  sizecode := by decide
  sizep := by decide
  sizelineinfo := by decide
  sizelocvars := by decide
  sizeupvalues := by decide
  source := show 1 + 1 < 256 ^ 4 by decide
  constants := by
    intro c hc
    simp only [closureProto, List.mem_cons, List.not_mem_nil, or_false] at hc
    rcases hc with rfl | rfl | rfl | rfl
    · exact show 2 + 1 < 256 ^ 4 by decide
    · exact trivial
    · exact trivial
    · exact trivial
  varnames := by
    intro v hv
    rw [List.mem_singleton.1 hv]
    exact show 1 + 1 < 256 ^ 4 by decide
  upvalues := fun _ hs => by cases hs
  checked := by decide
  named := Option.some_ne_none _
  linedefined_nonneg := by decide
  lastlinedefined_nonneg := by decide
  scopes_nonneg := by
    intro _ v hv
    rw [List.mem_singleton.1 hv]
    decide

/-- A function inside a function comes back, with the names and lines and without them. -/
theorem undump_dump_closure :
    ((luaUDump smallMachine closureProto collect [] false).1 = 0 ∧
      (luaUUndump smallMachine 198 "=x").run ((luaUDump smallMachine closureProto collect [] false).2 ++ [7]) =
        .ok (closureProto, [7])) ∧
    ((luaUDump smallMachine closureProto collect [] true).1 = 0 ∧
      (luaUUndump smallMachine 198 "=x").run ((luaUDump smallMachine closureProto collect [] true).2 ++ [7]) =
        .ok (closureProto.stripped (some noSource), [7])) := by
  have hall (strip : Bool) : closureProto.All (Dumpable smallMachine strip) := by
    refine .mk (closureProto_dumpable strip) fun g hg => ?_
    rw [List.mem_singleton.1 hg]
    exact .of_leaf rfl (getterProto_dumpable strip)
  have hnest : closureProto.Nests (luaiMaxccalls - 198) := by
    intro g hg
    rw [List.mem_singleton.1 hg]
    intro g hg
    cases hg
  exact ⟨undump_dump smallMachine 198 "=x" false hnest (hall false) [7],
    undump_dump smallMachine 198 "=x" true hnest (hall true) [7]⟩

/-- A function that the checker accepts and the line numbers of which are not negative. -/
def Accepted (f : Proto) : Prop :=
  luaGCheckcode f = true ∧ f.source ≠ none ∧ 0 ≤ f.linedefined.toInt ∧ 0 ≤ f.lastlinedefined.toInt

/-- The checker does not look at the scopes of local variables, and a chunk may be loaded from deep within `C` calls. -/
theorem accepted_not_loaded :
    ((smallProto [] [⟨none, -1, 0⟩]).Nests 1 ∧ (smallProto [] [⟨none, -1, 0⟩]).All Accepted ∧
      (luaUUndump smallMachine 0 "=x").run
          (luaUDump smallMachine (smallProto [] [⟨none, -1, 0⟩]) collect [] false).2 =
        .error (thrown "x" "bad integer")) ∧
    ((smallProto [smallProto [] []] []).Nests 2 ∧ (smallProto [smallProto [] []] []).All Accepted ∧
      (luaUUndump smallMachine 199 "=x").run
          (luaUDump smallMachine (smallProto [smallProto [] []] []) collect [] false).2 =
        .error (thrown "x" "code too deep")) := by
  refine ⟨⟨?_, ?_, rfl⟩, ⟨?_, ?_, rfl⟩⟩
  · intro g hg
    cases hg
  · exact .of_leaf rfl ⟨by decide, Option.some_ne_none _, Int.le_refl 0, Int.le_refl 0⟩
  · intro g hg
    rw [List.mem_singleton.1 hg]
    intro g hg
    cases hg
  · refine .mk ⟨by decide, Option.some_ne_none _, Int.le_refl 0, Int.le_refl 0⟩ fun g hg => ?_
    rw [List.mem_singleton.1 hg]
    exact .of_leaf rfl ⟨by decide, Option.some_ne_none _, Int.le_refl 0, Int.le_refl 0⟩

end Reading.Lua
