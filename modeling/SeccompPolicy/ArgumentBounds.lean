import SeccompPolicy.Prologue

/-!
# The accesses to the arguments of a check and to their types

Source: `GetArgumentsInfo` and `GenPtracePrologue` of `code_gen.cpp`, `SyscallCheck::CodeGen` of
`policy.cpp`.

The code reads an array of six strings, a `std::string` and a `vector` without looking at their
sizes. `Lifter` reads a type past the row of the table as empty, and a character of an empty type
as none. Here the two functions fail at the first access that is out of bounds:

* `info.arg_types[i]` for the seventh declared name and any behind it;
* `t[t.size()-1]` of a type that the table gives no text for, from the first name behind the row
  on;
* `args[i]` in the prologue, for a check that declares fewer names than the row has types, when it
  is used.

Nothing compares the arguments of a check with the row of its system call. `SyscallCheck.Fits`
says that every declared argument stands where the row has a type.

## Results

* `read_ok`, `read_error`: one round of the loop of `GetArgumentsInfo`, for an argument with a
  type and without.
* `readPrologue_ok`: the prologue reads in bounds, since only declared variables are used.
* `readArguments_fits`: for a check that fits nothing is read out of bounds, and the results are
  those of `Lifter`.
* `readArguments_iff`: for every check that reaches `SyscallCheck::CodeGen` the accesses are in
  bounds exactly when it fits.
* `acceptFour_outOfBounds`: `accept` with a fourth argument.
-/

namespace SeccompPolicy

/-- An access out of bounds: to `info.arg_types[i]`, to a character of a type, to `args[i]`. -/
inductive OutOfBounds where
  | argTypes (i : Nat)
  | typeChar (type : String) (pos : Nat)
  | args (i : Nat)
  deriving DecidableEq, Repr

/-- `info.arg_types[i]`, one of six. Those the table gives no text for are empty. -/
def SyscallInfo.argTypeAt (info : SyscallInfo) (i : Nat) : Except OutOfBounds String :=
  if i < 6 then .ok (info.argTypes.getD i "") else .error (.argTypes i)

/-- `t[pos]`. At its size a `std::string` has a null character. -/
def charAt (t : List Char) (pos : Nat) : Except OutOfBounds Char :=
  if pos ≤ t.length then .ok (t.getD pos (Char.ofNat 0)) else .error (.typeChar (String.ofList t) pos)

/-- `args[i]`. -/
def argAt (args : List String) (i : Nat) : Except OutOfBounds String :=
  match args[i]? with
  | some x => .ok x
  | none => .error (.args i)

/-- `t.size() - 1`, a `size_t`. -/
def lastPos (t : List Char) : Nat := (t.length + (2 ^ 64 - 1)) % 2 ^ 64

/-- `t` behind `if (t[0] == ' ')`. -/
def readDeclaredType (type : String) : Except OutOfBounds String := do
  let t := eraseConst type.length type.toList
  let c ← charAt t 0
  return String.ofList (if c = ' ' then t.tail else t)

/-- The classification. The last character is read for a type without `char *`. -/
def readClass (syscall : String) (index : Nat) (type : String) : Except OutOfBounds ArgClass :=
  if type.toList.tails.any fun s => "char *".toList.isPrefixOf s then
    return if syscall = "read" ∨ syscall = "write" then
      .mem ("GET_ARG(" ++ (index + 1).repr ++ ")") else .string
  else do
    let c ← charAt type.toList (lastPos type.toList)
    return if c = '*' then .mem ("sizeof(" ++ String.ofList type.toList.dropLast ++ ")") else .word

/-- One round of the loop of `GetArgumentsInfo`. -/
def ArgumentsInfo.read (info : SyscallInfo) (args : List String) (a : ArgumentsInfo) (i : Nat) :
    Except OutOfBounds ArgumentsInfo := do
  let x ← argAt args i
  let type ← info.argTypeAt i
  let t ← readDeclaredType type
  let a := { a with argIndex := (x, i) :: a.argIndex, argTypes := (x, t) :: a.argTypes }
  match ← readClass info.name i t with
  | .string => return { a with stringArgs := x :: a.stringArgs }
  | .mem size => return { a with memArgsSize := (x, size) :: a.memArgsSize }
  | .word => return a

/-- `GetArgumentsInfo`. -/
def readArgumentsInfo (info : SyscallInfo) (args : List String) : Except OutOfBounds ArgumentsInfo :=
  (List.range args.length).foldlM (ArgumentsInfo.read info args) ⟨[], [], [], []⟩

/-- `GenPtracePrologue`, with what `GetArgumentsInfo` has given the lifter. -/
def readPrologue (info : SyscallInfo) (args : List String) (blocks : List BasicBlock)
    (a : ArgumentsInfo) : Except OutOfBounds (List CStmt) := do
  let used := argsLoaded info args blocks
  let declarations ← used.mapM fun i => do
    let x ← argAt args i
    return .line (.declare (a.typeOf x) x)
  let loads ← used.mapM fun i => do
    let x ← argAt args i
    return .line (a.extract x i)
  return declarations ++ .label (info.name ++ "_start") :: loads

/-- `syscall_infos[SyscallNameToNr(syscall_)]`. -/
def SyscallCheck.syscallInfo (c : SyscallCheck) : SyscallInfo :=
  syscallInfos.getD (syscallNameToNr c.syscall).toNat ⟨0, "", 0, []⟩

/-- The blocks of `ptrace_bbs_` after `ColorCode`. -/
def ptraceBlocksOf (cfg : List BasicBlock) (o : HashOrder) : List BasicBlock :=
  (colorCode cfg o).1.filterMap fun e => cfg[e.1]?

/-- What the code generator reads of the arguments of a check and of their types: the prologue, or
the first access out of bounds. -/
def SyscallCheck.readArguments (c : SyscallCheck) (cfg : List BasicBlock) (o : HashOrder) :
    Except OutOfBounds (List CStmt) := do
  let a ← readArgumentsInfo c.syscallInfo c.args
  readPrologue c.syscallInfo c.args (ptraceBlocksOf cfg o) a

/-- Every declared argument stands where the row of the table has a type. -/
def SyscallCheck.Fits (c : SyscallCheck) : Prop :=
  ∀ i < c.args.length, c.syscallInfo.argTypes.getD i "" ≠ ""

instance (c : SyscallCheck) : Decidable c.Fits :=
  inferInstanceAs (Decidable (∀ i < c.args.length, c.syscallInfo.argTypes.getD i "" ≠ ""))

/-! ## One access -/

theorem argAt_ok {args : List String} {i : Nat} (h : i < args.length) :
    argAt args i = .ok (args.getD i "") := by
  rw [argAt, List.getElem?_eq_getElem h, List.getD_eq_getElem?_getD, List.getElem?_eq_getElem h]
  rfl

theorem charAt_ok {t : List Char} {pos : Nat} (h : pos ≤ t.length) :
    charAt t pos = .ok (t.getD pos (Char.ofNat 0)) := if_pos h

theorem charAt_last {t : List Char} (hne : t ≠ []) (hlt : t.length < 2 ^ 64) :
    charAt t (lastPos t) = .ok (t.getLast hne) := by
  have hpos := List.length_pos_iff.mpr hne
  have hlast : lastPos t = t.length - 1 := by
    unfold lastPos
    omega
  rw [hlast, charAt_ok (Nat.sub_le _ _), List.getD_eq_getElem?_getD,
    List.getElem?_eq_getElem (Nat.sub_lt hpos Nat.one_pos), Option.getD_some,
    List.getLast_eq_getElem]

/-- The character behind the last one of nothing is not there. -/
theorem charAt_nil_last : charAt [] (lastPos []) = .error (.typeChar "" (2 ^ 64 - 1)) := rfl

theorem readDeclaredType_ok (type : String) : readDeclaredType type = .ok (declaredType type) := by
  unfold readDeclaredType declaredType
  simp only [charAt_ok (Nat.zero_le _)]
  show Except.ok _ = Except.ok _
  cases eraseConst type.length type.toList with
  | nil => rfl
  | cons c t => simp

theorem readClass_ok (syscall : String) (index : Nat) {type : String} (hne : type ≠ "")
    (hlt : type.length < 2 ^ 64) :
    readClass syscall index type = .ok (classify syscall index type) := by
  have hne' : type.toList ≠ [] := fun h => hne (String.toList_eq_nil_iff.mp h)
  unfold readClass classify
  split
  · split <;> rfl
  · rw [charAt_last hne' hlt, List.getLast?_eq_some_getLast hne']
    simp only [Option.some.injEq]
    show Except.ok _ = Except.ok _
    rfl

theorem readClass_empty (syscall : String) (index : Nat) :
    readClass syscall index "" = .error (.typeChar "" (2 ^ 64 - 1)) := by
  unfold readClass
  split
  · rename_i h
    exact absurd h (by decide)
  · have hnil : "".toList = [] := rfl
    rw [hnil, charAt_nil_last]
    rfl

/-! ## The loops -/

section

variable {α β ε : Type*}

theorem foldlM_ok {f : β → α → Except ε β} {g : β → α → β} {xs : List α}
    (h : ∀ x ∈ xs, ∀ b, f b x = .ok (g b x)) (b : β) : xs.foldlM f b = .ok (xs.foldl g b) := by
  induction xs generalizing b with
  | nil => rfl
  | cons x xs ih =>
    rw [List.foldlM_cons, h x List.mem_cons_self]
    exact ih (fun y hy => h y (List.mem_cons_of_mem x hy)) (g b x)

/-- A loop that ends well has done every round well. -/
theorem ok_of_foldlM {f : β → α → Except ε β} {xs : List α} {b c : β}
    (h : xs.foldlM f b = .ok c) : ∀ x ∈ xs, ∃ b₁ b₂, f b₁ x = .ok b₂ := by
  induction xs generalizing b with
  | nil => exact fun x hx => absurd hx List.not_mem_nil
  | cons x xs ih =>
    rw [List.foldlM_cons] at h
    cases hx : f b x with
    | error e =>
      rw [hx] at h
      cases h
    | ok b₁ =>
      rw [hx] at h
      intro y hy
      rcases List.mem_cons.mp hy with rfl | hy
      · exact ⟨b, b₁, hx⟩
      · exact ih h y hy

theorem mapM_ok {f : α → Except ε β} {g : α → β} {xs : List α} (h : ∀ x ∈ xs, f x = .ok (g x)) :
    xs.mapM f = .ok (xs.map g) := by
  induction xs with
  | nil => rfl
  | cons x xs ih =>
    rw [List.mapM_cons, h x List.mem_cons_self]
    show (xs.mapM f >>= _) = _
    rw [ih fun y hy => h y (List.mem_cons_of_mem x hy)]
    rfl

end

/-! ## The types of the table -/

theorem eraseConst_length (fuel : Nat) (t : List Char) : (eraseConst fuel t).length ≤ t.length := by
  induction fuel generalizing t with
  | zero => exact Nat.le_refl _
  | succ fuel ih =>
    unfold eraseConst
    split
    · exact Nat.le_refl _
    · refine (ih _).trans ?_
      simp only [List.length_append, List.length_take, List.length_drop]
      omega

/-- Without its `const`, and without a blank in front, a type is shorter; of two characters one is
left. -/
theorem declaredType_length {type : String}
    (h : 2 ≤ (eraseConst type.toList.length type.toList).length) :
    declaredType type ≠ "" ∧ (declaredType type).length ≤ type.toList.length := by
  have hle := eraseConst_length type.toList.length type.toList
  have hlen : (declaredType type).length ≤ type.toList.length ∧ 1 ≤ (declaredType type).length := by
    unfold declaredType
    rw [String.length_toList] at h hle ⊢
    simp only [String.length_ofList]
    split
    · rw [List.length_tail]
      omega
    · omega
  refine ⟨fun hempty => ?_, hlen.1⟩
  rw [hempty] at hlen
  exact absurd hlen.2 (by decide)

/-- The types of the table are short, and have two characters besides `const`. -/
theorem syscallInfos_types : ∀ info ∈ syscallInfos, ∀ t ∈ info.argTypes, t.toList ≠ [] →
    2 ≤ (eraseConst t.toList.length t.toList).length ∧ t.toList.length < 64 := by decide +kernel

theorem syscallInfos_declared {info : SyscallInfo} (hinfo : info ∈ syscallInfos) {t : String}
    (ht : t ∈ info.argTypes) (hne : t ≠ "") :
    declaredType t ≠ "" ∧ (declaredType t).length < 2 ^ 64 := by
  obtain ⟨htwo, hlt⟩ := syscallInfos_types info hinfo t ht fun h => hne (String.toList_eq_nil_iff.mp h)
  obtain ⟨hdecl, hle⟩ := declaredType_length htwo
  exact ⟨hdecl, by omega⟩

/-! ## The rounds -/

section

variable {info : SyscallInfo} {args : List String} {i : Nat}

theorem argType_mem (h : info.argTypes.getD i "" ≠ "") :
    i < info.argTypes.length ∧ info.argTypes.getD i "" ∈ info.argTypes := by
  rw [List.getD_eq_getElem?_getD] at h ⊢
  cases hi : info.argTypes[i]? with
  | none => rw [hi] at h; exact absurd rfl h
  | some t => exact ⟨(List.getElem?_eq_some_iff.mp hi).1, List.mem_of_getElem? hi⟩

/-- **A round for an argument that has a type** reads in bounds. -/
theorem read_ok (hinfo : info ∈ syscallInfos) (hi : i < args.length)
    (htype : info.argTypes.getD i "" ≠ "") (a : ArgumentsInfo) :
    a.read info args i = .ok (a.add info (args.getD i "", i)) := by
  obtain ⟨hlt, hmem⟩ := argType_mem htype
  obtain ⟨hnum, hsix⟩ := syscallInfos_argTypes info hinfo
  obtain ⟨hne, hlen⟩ := syscallInfos_declared hinfo hmem htype
  have hat : info.argTypeAt i = .ok (info.argTypes.getD i "") := if_pos (by omega)
  have hclass := readClass_ok info.name i hne hlen
  unfold ArgumentsInfo.read ArgumentsInfo.add
  rw [argAt_ok hi, hat]
  simp only [bind, Except.bind, readDeclaredType_ok, hclass]
  cases classify info.name i (declaredType (info.argTypes.getD i "")) <;> rfl

/-- **A round for an argument without a type** reads out of bounds: there is no such type, or it has
no last character. -/
theorem read_error (htype : info.argTypes.getD i "" = "") (a a' : ArgumentsInfo) :
    a.read info args i ≠ .ok a' := by
  unfold ArgumentsInfo.read SyscallInfo.argTypeAt
  cases argAt args i with
  | error e => simp [bind, Except.bind]
  | ok x =>
    by_cases hi : i < 6
    · rw [if_pos hi, htype]
      have hempty : declaredType "" = "" := rfl
      simp [bind, Except.bind, readDeclaredType_ok, hempty, readClass_empty]
    · rw [if_neg hi]
      simp [bind, Except.bind]

theorem zipIdx_eq_map_range (args : List String) :
    args.zipIdx = (List.range args.length).map fun i => (args.getD i "", i) := by
  refine List.ext_getElem (by simp) fun i h₁ h₂ => ?_
  have hi : i < args.length := by simpa using h₁
  simp [List.getElem?_eq_getElem hi]

theorem readArgumentsInfo_ok (hinfo : info ∈ syscallInfos)
    (hfits : ∀ i < args.length, info.argTypes.getD i "" ≠ "") :
    readArgumentsInfo info args = .ok (getArgumentsInfo info args) := by
  unfold readArgumentsInfo getArgumentsInfo
  rw [zipIdx_eq_map_range, List.foldl_map]
  refine foldlM_ok (fun i hi a => ?_) _
  have hi := List.mem_range.mp hi
  exact read_ok hinfo hi (hfits i hi) a

theorem fits_of_readArgumentsInfo {a : ArgumentsInfo} (h : readArgumentsInfo info args = .ok a) :
    ∀ i < args.length, info.argTypes.getD i "" ≠ "" := by
  intro i hi htype
  obtain ⟨b₁, b₂, hround⟩ := ok_of_foldlM h i (List.mem_range.mpr hi)
  exact read_error htype b₁ b₂ hround

/-- **The prologue reads in bounds** when the variables of the ptrace blocks are arguments. -/
theorem readPrologue_ok {blocks : List BasicBlock}
    (hvars : ∀ B ∈ blocks, ∀ i ∈ B.insts, ∀ x ∈ i.variables, x ∈ args) :
    readPrologue info args blocks (getArgumentsInfo info args) =
      .ok (genPtracePrologue info args blocks) := by
  have hused : ∀ i ∈ argsLoaded info args blocks, i < args.length := by
    intro i hi
    have hmem := of_decide_eq_true (List.mem_filter.mp hi).2
    obtain ⟨x, hx, rfl⟩ := List.mem_map.mp hmem
    obtain ⟨B, hB, hx⟩ := List.mem_flatMap.mp hx
    obtain ⟨j, hj, hx⟩ := List.mem_flatMap.mp hx
    have hmem := hvars B hB j hj x (reads_subset_variables (argsUsed_eq_reads j ▸ hx))
    exact argIndex_lt (List.ne_nil_of_mem hmem) x
  unfold readPrologue genPtracePrologue
  simp only
  rw [mapM_ok (g := fun i => .line (.declare ((getArgumentsInfo info args).typeOf (args.getD i ""))
      (args.getD i ""))) fun i hi => by rw [argAt_ok (hused i hi)]; rfl,
    mapM_ok (g := fun i => .line ((getArgumentsInfo info args).extract (args.getD i "") i))
      fun i hi => by rw [argAt_ok (hused i hi)]; rfl]
  rfl

end

/-! ## The checks that reach the code generator -/

section

variable {c : SyscallCheck} {m m' : CodeGenMgr} {cfg : List BasicBlock}

theorem row_mem (hknown : Known c.syscall) : c.syscallInfo ∈ syscallInfos := by
  obtain ⟨n, hn, hlt⟩ := hknown.lt
  have hlen : n < syscallInfos.length := by
    have := congrArg List.length syscallInfos_nr
    rw [List.length_map, List.length_range] at this
    omega
  rw [SyscallCheck.syscallInfo, hn, Int.toNat_natCast, List.getD_eq_getElem?_getD,
    List.getElem?_eq_getElem hlen]
  exact List.getElem_mem hlen

/-- A check that `IRGen` lets pass has only arguments as variables of its ptrace blocks. -/
theorem irGen_variables (hir : c.irGen m = some (cfg, m')) (o : HashOrder) :
    ∀ B ∈ ptraceBlocksOf cfg o, ∀ i ∈ B.insts, ∀ x ∈ i.variables, x ∈ c.args := by
  unfold SyscallCheck.irGen at hir
  simp only at hir
  split at hir
  · rename_i huse
    obtain ⟨rfl, -⟩ := Prod.mk.inj (Option.some.inj hir)
    intro B hB i hi x hx
    obtain ⟨e, -, he⟩ := List.mem_filterMap.mp hB
    exact checkVariableUse_eq_true.mp huse x
      ((checkCFG_variables (List.mem_of_getElem? he) hi).1 x hx)
  · cases hir

/-- For a check that fits, the two functions read in bounds, and give what the model of the lifter
gives. -/
theorem readArguments_fits (hir : c.irGen m = some (cfg, m')) (hknown : Known c.syscall)
    (hfits : c.Fits) (o : HashOrder) : c.readArguments cfg o =
      .ok (genPtracePrologue c.syscallInfo c.args (ptraceBlocksOf cfg o)) := by
  unfold SyscallCheck.readArguments
  rw [readArgumentsInfo_ok (row_mem hknown) hfits]
  exact readPrologue_ok (irGen_variables hir o)

/-- **The accesses are in bounds exactly for the checks that fit.** For every check that reaches
`SyscallCheck::CodeGen`, `GetArgumentsInfo` and `GenPtracePrologue` access `info.arg_types[i]`, the
characters of the types and `args[i]` in bounds if and only if the row of the system call has a type
for each declared argument. -/
theorem readArguments_iff (hir : c.irGen m = some (cfg, m')) (hknown : Known c.syscall)
    (o : HashOrder) : (∃ prologue, c.readArguments cfg o = .ok prologue) ↔ c.Fits := by
  constructor
  · rintro ⟨prologue, h⟩
    unfold SyscallCheck.readArguments at h
    cases ha : readArgumentsInfo c.syscallInfo c.args with
    | error e =>
      rw [ha] at h
      cases h
    | ok a => exact fits_of_readArgumentsInfo ha
  · exact fun hfits => ⟨_, readArguments_fits hir hknown hfits o⟩

end

/-- `if (safetoreada_addr(addr)) { allow; } else { deny; }`, for `accept` with the given arguments. -/
def acceptCheck (args : List String) : SyscallCheck :=
  ⟨"accept", args, [.ifElse (.inv "safetoreada_addr" ["addr"]) (.perm .ALLOW) (.perm .DENY)],
    by decide⟩

theorem acceptThree_read : ∃ cfg m', (acceptCheck ["sockfd", "addr", "addrlen"]).irGen {} =
    some (cfg, m') ∧ ∃ prologue, (acceptCheck ["sockfd", "addr", "addrlen"]).readArguments cfg
      .insertion = .ok prologue := by
  refine ⟨_, _, rfl, ?_⟩
  exact (@readArguments_iff (acceptCheck ["sockfd", "addr", "addrlen"]) {} _ _ rfl (by decide)
    .insertion).mpr (by decide)

/-- With a fourth argument the check is compiled, and the last character of an empty type is read. -/
theorem acceptFour_outOfBounds : ∃ cfg m',
    (acceptCheck ["sockfd", "addr", "addrlen", "flags"]).irGen {} = some (cfg, m') ∧
    Known (acceptCheck ["sockfd", "addr", "addrlen", "flags"]).syscall ∧
    (compile [.check (acceptCheck ["sockfd", "addr", "addrlen", "flags"])]
      fun _ => .insertion).isSome = true ∧
    (acceptCheck ["sockfd", "addr", "addrlen", "flags"]).readArguments cfg .insertion =
      .error (.typeChar "" (2 ^ 64 - 1)) := by
  refine ⟨_, _, rfl, by decide, by decide, ?_⟩
  rfl

end SeccompPolicy
