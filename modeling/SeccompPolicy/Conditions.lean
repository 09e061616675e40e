import SeccompPolicy.Lib.CInt
import SeccompPolicy.Lifter

/-!
# One condition, two evaluators

Source: the branch of `BPFCodeGen` and the prologue of `GenPtracePrologue` in `code_gen.cpp`, the
types of `syscalls.cpp`, `LiftInst` of `IR_lifter.cpp`.

The filter compares the low word of an argument, unsigned. The monitor compares a C variable of
the type the table gives the argument, after the conversions of C. Both are made from the same
comparison of the source, so this module takes the smallest body that shows the difference,
`if (x OP c) { allow; } else { deny; }` (`sourceIf`), and asks for which values of the argument
both say the same.

* The filter's side runs the program of the body, `conditionProgram`.
* The monitor's side takes the prologue line that `GenPtracePrologue` writes for the argument, in
  its type, and evaluates the lifted condition over the C integers of `Lib.CInt`
  (`MonitorDecides`).
* `AgreesWhen` is the answer, by the type and the register: a table of equations and bounds on its
  two words.

## Results

* `getArgumentsInfo_entries`, `prologueEnv_loads`: an argument named once gets the type of its row
  and the value of its register.
* `filterDecides_iff`: the filter compares the low words, unsigned.
* `condition_agrees_iff`: for every row of the table, every scalar type and every value of the
  register, filter and monitor agree exactly when `AgreesWhen` holds.
* `readCount_agrees`, `readCount_differs`: `count` of `read` below and above `2 ^ 32`.

Out of scope: arguments of pointer and structure types, which the monitor copies.
-/

namespace SeccompPolicy

open ClassicBpf SmallStep CInt StructuredCode

/-! ## The variables of the monitor -/

/-- The integer types of the table that have a conversion here. -/
def scalarType? : String → Option IntType
  | "int" => some .int
  | "unsigned int" => some .unsignedInt
  | "long" => some .long
  | "unsigned long" => some .unsignedLong
  | "size_t" => some .unsignedLong
  | _ => none

/-- The integer variables after a line of the prologue. `GET_ARG(i)` is the register. -/
def CLine.load (arguments : Nat → BitVec 64) (env : String → Option Value) :
    CLine → String → Option Value
  | .declare t x => Function.update env x ((scalarType? t).map fun T => ⟨T, 0⟩)
  | .getArg _ x i =>
    Function.update env x ((env x).map fun v => ⟨v.type, v.type.wrap (arguments i).toNat⟩)
  | .copyOutString x _ | .copyOutMem x _ _ => Function.update env x none
  | _ => env

/-- The integer variables after the prologue. -/
def prologueEnv (text : List CStmt) (arguments : Nat → BitVec 64) : String → Option Value :=
  (codeLines text).foldl (CLine.load arguments) fun _ => none

/-- The value of an operand that is a variable or a constant. -/
def CExpr.leaf? (env : String → Option Value) : CExpr → Option Value
  | .var x => env x
  | .num n => some ⟨.int, n⟩
  | _ => none

/-- The relation a comparison operator is on integers. -/
def OpCode.onInt : OpCode → Int → Int → Bool
  | .EQ, x, y => decide (x = y)
  | .NE, x, y => decide (x ≠ y)
  | .GT, x, y => decide (y < x)
  | .GE, x, y => decide (y ≤ x)
  | .LT, x, y => decide (x < y)
  | .LE, x, y => decide (x ≤ y)
  | _, _, _ => false

/-- Whether a lifted condition between variables and constants holds. -/
def CCond.holds (env : String → Option Value) (c : CCond) : Option Bool :=
  match c.left.leaf? env, c.right.leaf? env with
  | some a, some b => some (compare c.op.onInt a b)
  | _, _ => none

/-! ## What `GetArgumentsInfo` says of one argument -/

/-- Type, string and buffer entry of a name. -/
def ArgumentsInfo.entries (a : ArgumentsInfo) (x : String) : Option String × Prop × Option String :=
  (a.argTypes.lookup x, x ∈ a.stringArgs, a.memArgsSize.lookup x)

theorem ArgumentsInfo.add_of_ne (info : SyscallInfo) (a : ArgumentsInfo) {e : String × Nat}
    {x : String} (he : e.1 ≠ x) : (a.add info e).entries x = a.entries x := by
  have hbeq : (x == e.1) = false := by simpa using Ne.symm he
  simp only [ArgumentsInfo.add, ArgumentsInfo.entries]
  generalize declaredType (info.argTypes.getD e.2 "") = t
  generalize classify info.name e.2 t = c
  cases c <;> simp [List.lookup_cons, hbeq, Ne.symm he]

theorem ArgumentsInfo.foldl_of_ne (info : SyscallInfo) (es : List (String × Nat))
    (a : ArgumentsInfo) {x : String} (h : ∀ e ∈ es, e.1 ≠ x) :
    (es.foldl (ArgumentsInfo.add info) a).entries x = a.entries x := by
  induction es generalizing a with
  | nil => rfl
  | cons e es ih =>
    rw [List.foldl_cons, ih _ fun e' he' => h e' (List.mem_cons_of_mem e he'),
      ArgumentsInfo.add_of_ne info a (h e List.mem_cons_self)]

theorem scalarType?_declared {t : String} {T : IntType} (h : scalarType? t = some T)
    (syscall : String) (i : Nat) : declaredType t = t ∧ classify syscall i t = .word := by
  have hcases : t = "int" ∨ t = "unsigned int" ∨ t = "long" ∨ t = "unsigned long" ∨
      t = "size_t" := by
    unfold scalarType? at h
    split at h <;> simp at h ⊢
  rcases hcases with rfl | rfl | rfl | rfl | rfl <;> exact ⟨by decide, rfl⟩

/-- A name with one position has the entries of that position. -/
theorem getArgumentsInfo_entries {info : SyscallInfo} {args : List String} {x : String} {k : Nat}
    (hx : ∀ j, args[j]? = some x ↔ j = k) {T : IntType}
    (hT : scalarType? (info.argTypes.getD k "") = some T) :
    (getArgumentsInfo info args).entries x = (some (info.argTypes.getD k ""), False, none) := by
  obtain ⟨htype, hclass⟩ := scalarType?_declared hT info.name k
  have hmem : (x, k) ∈ args.zipIdx := by
    rw [List.mem_zipIdx_iff_getElem?]
    exact (hx k).mpr rfl
  obtain ⟨pre, post, hsplit⟩ := List.append_of_mem hmem
  -- every other entry of the list has another name
  have hnd : args.zipIdx.Nodup := by
    refine List.Nodup.of_map Prod.snd ?_
    rw [List.zipIdx_map_snd]
    exact List.nodup_range'
  have hother : ∀ e ∈ pre ++ post, e.1 ≠ x := by
    rintro ⟨y, j⟩ he rfl
    have hj : (y, j) ∈ args.zipIdx := by
      rw [hsplit]
      rcases List.mem_append.mp he with h | h <;> simp [h]
    obtain rfl := (hx j).mp (List.mem_zipIdx_iff_getElem?.mp hj)
    rw [hsplit, List.nodup_middle, List.nodup_cons] at hnd
    exact hnd.1 he
  unfold getArgumentsInfo
  rw [hsplit, List.foldl_append, List.foldl_cons,
    ArgumentsInfo.foldl_of_ne info post _ fun e he => hother e (List.mem_append_right _ he)]
  have hpre := ArgumentsInfo.foldl_of_ne info pre ⟨[], [], [], []⟩ fun e he =>
    hother e (List.mem_append_left _ he)
  generalize pre.foldl (ArgumentsInfo.add info) ⟨[], [], [], []⟩ = a at hpre
  simp only [ArgumentsInfo.entries, List.lookup_nil, List.not_mem_nil, Prod.mk.injEq] at hpre
  unfold ArgumentsInfo.add ArgumentsInfo.entries
  simp only [htype, hclass, List.lookup_cons_self, hpre]

/-! ## The value the prologue loads -/

/-- A line for another name leaves the variable as it is. -/
theorem CLine.load_of_ne {arguments : Nat → BitVec 64} {env : String → Option Value} {x y : String}
    (h : x ≠ y) (a : ArgumentsInfo) (t : String) (i : Nat) :
    (CLine.declare t y).load arguments env x = env x ∧
      (a.extract y i).load arguments env x = env x := by
  refine ⟨Function.update_of_ne h _ _, ?_⟩
  unfold ArgumentsInfo.extract
  split_ifs
  · exact Function.update_of_ne h _ _
  · cases a.memArgsSize.lookup y <;> exact Function.update_of_ne h _ _

/-- Lines of which one, for number `k`, is about the variable `x`. -/
theorem foldl_load_eq {arguments : Nat → BitVec 64} {x : String} {k : Nat} {line : Nat → CLine}
    {F : Option Value → Option Value} {used : List Nat}
    (hother : ∀ i ∈ used, i ≠ k → ∀ env, (line i).load arguments env x = env x)
    (hk : ∀ env, (line k).load arguments env x = F (env x)) (hnd : used.Nodup) (hmem : k ∈ used)
    (env : String → Option Value) :
    (used.map line).foldl (CLine.load arguments) env x = F (env x) := by
  have key : ∀ (l : List Nat), (∀ i ∈ l, i ∈ used) → k ∉ l → ∀ env,
      (l.map line).foldl (CLine.load arguments) env x = env x := by
    intro l
    induction l with
    | nil => exact fun _ _ _ => rfl
    | cons i l ih =>
      intro hl hkl env
      rw [List.mem_cons, not_or] at hkl
      rw [List.map_cons, List.foldl_cons, ih (fun j hj => hl j (List.mem_cons_of_mem i hj)) hkl.2,
        hother i (hl i List.mem_cons_self) (Ne.symm hkl.1)]
  obtain ⟨pre, post, hsplit⟩ := List.append_of_mem hmem
  rw [hsplit, List.nodup_middle, List.nodup_cons, List.mem_append, not_or] at hnd
  have hpre := key pre (fun i hi => by simp [hsplit, hi]) hnd.1.1
  have hpost := key post (fun i hi => by simp [hsplit, hi]) hnd.1.2
  rw [hsplit, List.map_append, List.map_cons, List.foldl_append, List.foldl_cons, hpost, hk, hpre]

/-- **The prologue gives an argument the type of the table and the register's value.** -/
theorem prologueEnv_loads {info : SyscallInfo} {args : List String} {blocks : List BasicBlock}
    {x : String} {k : Nat} (hx : ∀ j, args[j]? = some x ↔ j = k) {T : IntType}
    (hT : scalarType? (info.argTypes.getD k "") = some T) (hk : k < info.numArgs)
    (hused : k ∈ argsUsed args blocks) (arguments : Nat → BitVec 64) :
    prologueEnv (genPtracePrologue info args blocks) arguments x =
      some ⟨T, T.wrap (arguments k).toNat⟩ := by
  have hxk : args[k]? = some x := (hx k).mpr rfl
  have hentries := getArgumentsInfo_entries hx hT
  unfold prologueEnv genPtracePrologue argsLoaded
  generalize getArgumentsInfo info args = a at hentries
  simp only [ArgumentsInfo.entries, Prod.mk.injEq, eq_iff_iff, iff_false] at hentries
  obtain ⟨htype, hstring, hmem⟩ := hentries
  generalize hU : (List.range info.numArgs).filter (fun i => decide (i ∈ argsUsed args blocks)) =
    used
  have hname : args.getD k "" = x := by
    rw [List.getD_eq_getElem?_getD, hxk, Option.getD_some]
  have hne : ∀ i ∈ used, i ≠ k → x ≠ args.getD i "" := by
    intro i hi hik he
    rw [← hU, List.mem_filter, decide_eq_true_eq] at hi
    obtain ⟨y, -, rfl⟩ := List.mem_map.mp hi.2
    have hlt := argIndex_lt (List.ne_nil_of_mem (List.mem_of_getElem? hxk)) y
    refine hik ((hx _).mp ?_)
    rw [he, List.getD_eq_getElem?_getD, List.getElem?_eq_getElem hlt, Option.getD_some]
  have hnd : used.Nodup := hU ▸ List.nodup_range.filter _
  have hin : k ∈ used := by
    rw [← hU, List.mem_filter, decide_eq_true_eq]
    exact ⟨List.mem_range.mpr hk, hused⟩
  have hdeclare : ∀ env : String → Option Value,
      (CLine.declare (a.typeOf (args.getD k "")) (args.getD k "")).load
        arguments env x = some ⟨T, 0⟩ := by
    intro env
    rw [hname, ArgumentsInfo.typeOf, htype, Option.getD_some]
    simp only [CLine.load, Function.update_self, hT, Option.map_some]
  have hextract : ∀ env : String → Option Value,
      (a.extract (args.getD k "") k).load arguments env x =
        (env x).map fun v => ⟨v.type, v.type.wrap (arguments k).toNat⟩ := by
    intro env
    rw [hname, ArgumentsInfo.extract, if_neg hstring, hmem]
    simp only [CLine.load, Function.update_self]
  have hdeclared := @foldl_load_eq arguments x k
    (fun i => .declare (a.typeOf (args.getD i "")) (args.getD i ""))
    (fun _ => some ⟨T, 0⟩) used
    (fun i hi hik env => (CLine.load_of_ne (hne i hi hik) a _ i).1) hdeclare hnd hin fun _ => none
  simp only [codeLines_append, codeLines_map, codeLines, Stmt.lines, List.nil_append]
  rw [List.foldl_append,
    foldl_load_eq (fun i hi hik env => (CLine.load_of_ne (hne i hi hik) a "" i).2) hextract hnd hin]
  simp only [hdeclared, Option.map_some]

/-! ## The filter's comparison -/

/-- `if (x OP c) { allow; } else { deny; }` -/
def sourceIf (op : OpCode) (x : String) (c : Int) : Stmt :=
  .ifElse (.op2 op (.ref x) (.value c)) (.perm .ALLOW) (.perm .DENY)

/-- The filter made from a list ends with `r`: it allows for true and kills for false. -/
def FilterDecides (gl : RetGlobals) (args : List String) (bpfIR : List Instruction)
    (d : SeccompData) (r : Bool) : Prop :=
  ∃ fs, bpfCodeGen gl args bpfIR = some fs ∧ ∀ s : State,
    Halts (step (program (bpfTransformLabels fs)) d) (0, s)
      (some (if r then SECCOMP_RET_ALLOW else SECCOMP_RET_KILL_PROCESS))

/-- The operators of the comparison. -/
def IsTested (op : OpCode) : Prop := op = .EQ ∨ op = .NE ∨ op = .GT ∨ op = .GE

/-- The program made from it, for argument number `k`. -/
def conditionProgram (op : OpCode) (k : Nat) (c : Int) : List Insn :=
  [⟨0x20, BitVec.ofNat 32 (16 + 8 * k), some 0, some 0⟩,
    ⟨opcodeVal [.JMP, bpfOpcode op, .K], BitVec.ofInt 32 c, some (if op = .NE then 1 else 0),
      some (if op = .NE then 0 else 1)⟩,
    ⟨0x06, SECCOMP_RET_ALLOW, some 0, some 0⟩, ⟨0x06, SECCOMP_RET_KILL_PROCESS, some 0, some 0⟩]

theorem sourceIf_program {op : OpCode} (hop : IsTested op) (x : String) (c : Int) (gl : RetGlobals)
    (args : List String) (syscall : String) (m : CodeGenMgr) : ∃ fs,
    bpfCodeGen gl args (.label syscall :: ((sourceIf op x c).irGen m).code) = some fs ∧
      program (bpfTransformLabels fs) = conditionProgram op (argIndex args x) c := by
  have h21 : labelText (m.labelCnt + 2) ≠ labelText (m.labelCnt + 1) := by
    rw [ne_eq, labelText_inj]
    omega
  have h31 : labelText (m.labelCnt + 3) ≠ labelText (m.labelCnt + 1) := by
    rw [ne_eq, labelText_inj]
    omega
  have h32 : labelText (m.labelCnt + 3) ≠ labelText (m.labelCnt + 2) := by
    rw [ne_eq, labelText_inj]
    omega
  have hfs : bpfCodeGen gl args (.label syscall :: ((sourceIf op x c).irGen m).code) = some
      [.stmt [.LD, .W, .ABS] (.argOffset (argIndex args x)),
        .jump [.JMP, bpfOpcode op, .K] (.int c)
          (.label (if op = .NE then labelText (m.labelCnt + 2) else labelText (m.labelCnt + 1)))
          (.label (if op = .NE then labelText (m.labelCnt + 1) else labelText (m.labelCnt + 2))),
        .label (labelText (m.labelCnt + 1)), .stmt [.RET, .K] .retAllow,
        .label (labelText (m.labelCnt + 2)), .stmt [.RET, .K] .retKillProcess,
        .label (labelText (m.labelCnt + 3))] := by
    rcases hop with rfl | rfl | rfl | rfl <;> rfl
  refine ⟨_, hfs, ?_⟩
  rcases hop with rfl | rfl | rfl | rfl <;>
    simp [program, bpfTransformLabels, transformFrom, BPFFilter.isLabel, BPFFilter.resolve,
      Target.resolve, label2pc, BPFFilter.insn, Target.offset, KField.val, h21, h31, h32,
      opcodeVal, BPFConst.val, bpfOpcode, conditionProgram]

/-- The comparison skips one instruction when it fails. -/
theorem conditionProgram_test {op : OpCode} (hop : IsTested op) (c : Int) (d : SeccompData)
    (s : State) : exec d ⟨opcodeVal [.JMP, bpfOpcode op, .K], BitVec.ofInt 32 c,
      some (if op = .NE then 1 else 0), some (if op = .NE then 0 else 1)⟩ s =
    .skip (some ((if words32.cmp op s.A (BitVec.ofInt 32 c) then 0 else 1 : Nat) : Int)) := by
  rcases hop with rfl | rfl | rfl | rfl
  · refine (exec_jeq d _ _ _ s).trans ?_
    by_cases h : s.A = BitVec.ofInt 32 c <;> simp [words32, h]
  · refine (exec_jeq d _ _ _ s).trans ?_
    by_cases h : s.A = BitVec.ofInt 32 c <;> simp [words32, h]
  · refine (exec_jgt d _ _ _ s).trans ?_
    by_cases h : BitVec.ofInt 32 c < s.A <;> simp [words32, BitVec.ult, ← BitVec.lt_def, h]
  · refine (exec_jge d _ _ _ s).trans ?_
    by_cases h : BitVec.ofInt 32 c ≤ s.A <;> simp [words32, BitVec.ule, ← BitVec.le_def, h]

theorem conditionProgram_run {op : OpCode} (hop : IsTested op) {k : Nat} (hk : k < 6) (c : Int)
    (d : SeccompData) (s : State) : Halts (step (conditionProgram op k c) d) (0, s) (some
      (if words32.cmp op ((d.arg k).setWidth 32) (BitVec.ofInt 32 c) then SECCOMP_RET_ALLOW
        else SECCOMP_RET_KILL_PROCESS)) := by
  have hload : exec d ⟨0x20, BitVec.ofNat 32 (16 + 8 * k), some 0, some 0⟩ s =
      .next { s with A := (d.arg k).setWidth 32 } :=
    exec_load (load_argument d hk) _ _ s
  refine (halts_of_inl (step_next rfl hload)).mpr ?_
  refine (halts_of_inl (step_skip rfl (conditionProgram_test hop c d _))).mpr ?_
  simp only
  split_ifs
  · exact (halts_of_inr (step_ret rfl rfl)).mpr rfl
  · exact (halts_of_inr (step_ret rfl rfl)).mpr rfl

/-- **The filter compares the low words**, unsigned. -/
theorem filterDecides_iff {op : OpCode} (hop : IsTested op) {x : String} {args : List String}
    (hk : argIndex args x < 6) (c : Int) (gl : RetGlobals) (syscall : String) (m : CodeGenMgr)
    (d : SeccompData) (r : Bool) :
    FilterDecides gl args (.label syscall :: ((sourceIf op x c).irGen m).code) d r ↔
      words32.cmp op ((d.arg (argIndex args x)).setWidth 32) (BitVec.ofInt 32 c) = r := by
  obtain ⟨fs, hfs, hprog⟩ := sourceIf_program hop x c gl args syscall m
  have hrun := conditionProgram_run hop hk c d
  constructor
  · rintro ⟨fs', hfs', hr⟩
    obtain rfl := Option.some.inj (hfs.symm.trans hfs')
    rw [hprog] at hr
    have := Option.some.inj ((hrun {}).unique (hr {}))
    have hne : SECCOMP_RET_ALLOW ≠ SECCOMP_RET_KILL_PROCESS := by decide
    cases r <;>
      cases hcmp : words32.cmp op ((d.arg (argIndex args x)).setWidth 32) (BitVec.ofInt 32 c) <;>
      simp [hcmp, hne, hne.symm] at this ⊢
  · rintro rfl
    exact ⟨fs, hfs, hprog ▸ hrun⟩

/-- On numbers. -/
theorem words32_cmp {op : OpCode} (hop : IsTested op) (v : BitVec 64) {c : Int} (h0 : 0 ≤ c)
    (hc : c < 2 ^ 31) : words32.cmp op (v.setWidth 32) (BitVec.ofInt 32 c) =
      op.onInt (v.toNat % 2 ^ 32 : Nat) c := by
  obtain ⟨n, rfl⟩ := Int.eq_ofNat_of_zero_le h0
  have hn : n % 4294967296 = n := Nat.mod_eq_of_lt (by omega)
  rcases hop with rfl | rfl | rfl | rfl
  · simp only [words32, OpCode.onInt, BitVec.ofInt_natCast, Nat.cast_inj]
    rw [Bool.eq_iff_iff, beq_iff_eq, ← BitVec.toNat_inj]
    simp [hn]
  · simp only [words32, OpCode.onInt, BitVec.ofInt_natCast, ne_eq, Nat.cast_inj]
    rw [Bool.eq_iff_iff, bne_iff_ne, ne_eq, ← BitVec.toNat_inj]
    simp [hn]
  · simp only [words32, OpCode.onInt, BitVec.ofInt_natCast, Nat.cast_lt]
    simp [BitVec.ult, hn]
  · simp only [words32, OpCode.onInt, BitVec.ofInt_natCast, Nat.cast_le]
    simp [BitVec.ule, hn]

/-! ## The two results -/

/-- The lifted condition has the result `r`, after the prologue of a check with these ptrace
blocks. -/
def MonitorDecides (info : SyscallInfo) (args : List String) (blocks : List BasicBlock)
    (cond : CCond) (arguments : Nat → BitVec 64) (r : Bool) : Prop :=
  cond.holds (prologueEnv (genPtracePrologue info args blocks) arguments) = some r

/-- The branch of the comparison, as it is lifted. -/
theorem sourceIf_lift {op : OpCode} (hop : IsTested op) {x : String} {c : Int} {m : CodeGenMgr}
    {i : Instruction} (hi : i ∈ ((sourceIf op x c).irGen m).code) {cond : CCond} {t f : String}
    (hlift : i.lift = some (.if_ cond t f)) :
    cond = ⟨op, .var x, .num c⟩ ∧ i.argsUsed = [x] := by
  have hcode : ((sourceIf op x c).irGen m).code =
      [.branch op (.mem x) (.imm c) (labelText (m.labelCnt + 1)) (labelText (m.labelCnt + 2)),
        .label (labelText (m.labelCnt + 1)), .ret m.nextId PermType.ALLOW.val,
        .branch .INVALID .null .null (labelText (m.labelCnt + 3)) "",
        .label (labelText (m.labelCnt + 2)), .ret (m.nextId + 1) PermType.DENY.val,
        .label (labelText (m.labelCnt + 3))] := by
    rcases hop with rfl | rfl | rfl | rfl <;> rfl
  have hne : op ≠ .INVALID := by
    rcases hop with rfl | rfl | rfl | rfl <;> decide
  rw [hcode] at hi
  simp only [List.mem_cons, List.not_mem_nil, or_false] at hi
  rcases hi with rfl | rfl | rfl | rfl | rfl | rfl | rfl
  · simp only [Instruction.lift, if_neg hne, Option.some.injEq, PtraceCode.if_.injEq] at hlift
    exact ⟨hlift.1.symm, rfl⟩
  all_goals cases hlift

/-- When the results agree, by the type and the register. -/
def AgreesWhen (op : OpCode) (c : Int) (v : BitVec 64) : IntType → Prop
  | .unsignedInt => True
  | .int => op = .EQ ∨ op = .NE ∨ v.toNat % 2 ^ 32 < 2 ^ 31
  | .unsignedLong => v.toNat < 2 ^ 32 ∨
    if op = .GT then c < (v.toNat % 2 ^ 32 : Nat) else if op = .GE then c ≤ (v.toNat % 2 ^ 32 : Nat)
    else c ≠ (v.toNat % 2 ^ 32 : Nat)
  | .long => v.toNat < 2 ^ 32 ∨
    if op = .GT then (c < (v.toNat % 2 ^ 32 : Nat) ↔ v.toNat < 2 ^ 63)
    else if op = .GE then (c ≤ (v.toNat % 2 ^ 32 : Nat) ↔ v.toNat < 2 ^ 63)
    else c ≠ (v.toNat % 2 ^ 32 : Nat)

theorem onInt_agrees_iff {op : OpCode} (hop : IsTested op) (T : IntType) {c : Int} (h0 : 0 ≤ c)
    (hc : c < 2 ^ 31) (v : BitVec 64) :
    op.onInt (v.toNat % 2 ^ 32 : Nat) c = op.onInt (T.wrap v.toNat) c ↔ AgreesWhen op c v T := by
  have hv : (v.toNat : Int) < 2 ^ 64 := by exact_mod_cast v.isLt
  have hv0 : (0 : Int) ≤ v.toNat := Int.natCast_nonneg _
  have hlow : ((v.toNat % 2 ^ 32 : Nat) : Int) = (v.toNat : Int) % 2 ^ 32 := by push_cast; rfl
  have hnat : v.toNat % 2 ^ 32 < 2 ^ 31 ↔ (v.toNat : Int) % 2 ^ 32 < 2 ^ 31 := by omega
  have hhigh : v.toNat < 2 ^ 32 ↔ (v.toNat : Int) < 2 ^ 32 := by omega
  have hsign : v.toNat < 2 ^ 63 ↔ (v.toNat : Int) < 2 ^ 63 := by omega
  cases T with
  | unsignedInt =>
    rw [hlow, IntType.wrap_unsignedInt]
    simp [AgreesWhen]
  | int =>
    rw [IntType.wrap_int, AgreesWhen, hlow, hnat]
    rcases hop with rfl | rfl | rfl | rfl <;>
      simp only [OpCode.onInt, decide_eq_decide, true_or, or_true, iff_true, reduceCtorEq, false_or] <;>
      split_ifs <;> omega
  | unsignedLong =>
    rw [IntType.wrap_unsignedLong hv0 hv, AgreesWhen, hlow, hhigh]
    rcases hop with rfl | rfl | rfl | rfl <;>
      simp only [OpCode.onInt, decide_eq_decide, reduceCtorEq, if_true, if_false] <;> omega
  | long =>
    rw [IntType.wrap_long hv0 hv, AgreesWhen, hlow, hhigh, hsign]
    rcases hop with rfl | rfl | rfl | rfl <;>
      simp only [OpCode.onInt, decide_eq_decide, reduceCtorEq, if_true, if_false] <;>
      split_ifs <;> omega

/-- **When filter and monitor agree on `x OP c`.** `x` names argument `k` of a system call of the
table and no other, the type of the argument is an integer type, and the branch is in a ptrace
block; then the two results are the same exactly when `AgreesWhen` holds of the register. -/
theorem condition_agrees_iff {info : SyscallInfo} (hinfo : info ∈ syscallInfos)
    {args : List String} {x : String} {k : Nat} (hx : ∀ j, args[j]? = some x ↔ j = k)
    {t : String} (ht : info.argTypes[k]? = some t) {T : IntType} (hT : scalarType? t = some T)
    {op : OpCode} (hop : IsTested op) {c : Int} (h0 : 0 ≤ c) (hc : c < 2 ^ 31)
    (gl : RetGlobals) (m : CodeGenMgr) {blocks : List BasicBlock} {B : BasicBlock}
    (hB : B ∈ blocks) {i : Instruction} (hiB : i ∈ B.insts)
    (hi : i ∈ ((sourceIf op x c).irGen m).code) {cond : CCond} {l l' : String}
    (hlift : i.lift = some (.if_ cond l l')) (d : SeccompData) :
    (∃ r, FilterDecides gl args (.label info.name :: ((sourceIf op x c).irGen m).code) d r ∧
      MonitorDecides info args blocks cond d.arg r) ↔
      AgreesWhen op c (d.arg k) T := by
  obtain ⟨hnum, hsix⟩ := syscallInfos_argTypes info hinfo
  have hk : k < info.numArgs := hnum ▸ (List.getElem?_eq_some_iff.mp ht).1
  have hindex := argIndex_eq hx
  obtain ⟨rfl, hargs⟩ := sourceIf_lift hop hi hlift
  have hused : k ∈ argsUsed args blocks := by
    refine List.mem_map.mpr ⟨x, List.mem_flatMap.mpr ⟨B, hB, List.mem_flatMap.mpr ⟨i, hiB, ?_⟩⟩,
      hindex⟩
    rw [hargs]
    exact List.mem_singleton_self x
  have htype : scalarType? (info.argTypes.getD k "") = some T := by
    rw [List.getD_eq_getElem?_getD, ht, Option.getD_some, hT]
  have hload := prologueEnv_loads hx htype hk hused d.arg
  have hmonitor : ∀ r, MonitorDecides info args blocks ⟨op, .var x, .num c⟩ d.arg r ↔
      op.onInt (T.wrap (d.arg k).toNat) c = r := by
    intro r
    unfold MonitorDecides CCond.holds
    simp only [CExpr.leaf?, hload, Option.some.injEq]
    rw [compare_int _ T (T.wrap_wrap _) h0 hc]
  have hfilter := fun r => @filterDecides_iff op hop x args (by omega) c gl info.name m d r
  rw [← onInt_agrees_iff hop T h0 hc]
  simp only [hfilter, hmonitor, hindex, words32_cmp hop _ h0 hc]
  constructor
  · rintro ⟨r, hr, hr'⟩
    exact hr.trans hr'.symm
  · exact fun h => ⟨_, rfl, h.symm⟩

/-- A `read` of `count` bytes. -/
def readOf (count : BitVec 64) : SeccompData :=
  ⟨0, auditArchX86_64, 0, fun i => if i = 2 then count else 0⟩

/-- The body `if (count > 4096) { allow; } else { deny; }`. -/
def countAbove : List Instruction := ((sourceIf .GT "count" 4096).irGen {}).code

/-- The row of `read`. -/
def readInfo : SyscallInfo := ⟨0, "read", 3, ["unsigned int", "char *", "size_t"]⟩

/-- With the high word zero the two agree. -/
theorem readCount_agrees : ∃ r,
    FilterDecides (.initial 0) ["fd", "buf", "count"] (.label "read" :: countAbove) (readOf 8192) r ∧
      MonitorDecides readInfo ["fd", "buf", "count"] (buildCFG countAbove "read")
        ⟨.GT, .var "count", .num 4096⟩ (readOf 8192).arg r := by
  have hx : ∀ j, ["fd", "buf", "count"][j]? = some "count" ↔ j = 2 := by
    intro j
    match j with
    | 0 | 1 | 2 => simp
    | j + 3 => simp
  have hroot : { label := "read", insts := countAbove.take 1, children := [1, 2] } ∈
      buildCFG countAbove "read" := List.mem_of_getElem? (i := 0) rfl
  exact (@condition_agrees_iff readInfo List.mem_cons_self _ _ _ hx _ rfl _ rfl _
    (.inr (.inr (.inl rfl))) _ (by decide) (by decide) (.initial 0) {} _ _ hroot _
    List.mem_cons_self List.mem_cons_self _ _ _ rfl (readOf 8192)).mpr (.inl (by decide))

/-- With `count` above `2 ^ 32` the filter sees `1` and denies, the monitor allows. -/
theorem readCount_differs : ¬ ∃ r,
    FilterDecides (.initial 0) ["fd", "buf", "count"] (.label "read" :: countAbove)
      (readOf 4294967297) r ∧
      MonitorDecides readInfo ["fd", "buf", "count"] (buildCFG countAbove "read")
        ⟨.GT, .var "count", .num 4096⟩ (readOf 4294967297).arg r := by
  rintro ⟨r, hf, hm⟩
  have hfilter := (@filterDecides_iff .GT (.inr (.inr (.inl rfl))) "count" ["fd", "buf", "count"]
    (by decide) 4096 _ "read" {} _ r).mp hf
  have hmonitor : CCond.holds (prologueEnv (genPtracePrologue readInfo ["fd", "buf", "count"]
    (buildCFG countAbove "read")) (readOf 4294967297).arg) ⟨.GT, .var "count", .num 4096⟩ =
      some true := by decide
  obtain rfl := Option.some.inj (hmonitor.symm.trans hm)
  exact absurd hfilter (by decide)

end SeccompPolicy
