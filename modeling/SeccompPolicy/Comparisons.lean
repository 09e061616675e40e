import SeccompPolicy.Arithmetic

/-!
# What the filter compares

Source: the conditional branches of `BPFCodeGen` in `code_gen.cpp`, with `bpf_opcodes` and
`NeedSwapTarget`.

The six comparisons are three jumps, with the targets exchanged for `<`, `<=` and `!=`. Three
things come out of that which the source does not say:

* exchanging the targets gives `<=` for `<` and `<` for `<=`, since `bpf_opcodes` has `BPF_JGT`
  for `<` and `BPF_JGE` for `<=`;
* with an arithmetic result as its second operand and none as its first, the branch compares the
  second operand with the first;
* an argument as the operand that is not in `A` is not loaded: `BPF_ABS` is a bit of the jump's
  opcode, and its offset in `seccomp_data` is compared with, by another jump (`testUnderAbs`).

`ComparesRight` says for which values of the operands each combination is right all the same.

## Results

* `chosenTarget_k`, `chosenTarget_abs`, `chosenTarget_x`: the target chosen, by the three ways of
  addressing.
* `branchTo_genBranch`: where the filters of a branch lead, by which of its operands are results.
* `branchTest_iff`: what the branch sees is what the source says, under `ComparesRight`.
* `branch_iff`: a branch leads where the comparison of its operands' values says exactly when
  `ComparesRight` holds of them, or both targets are the same.
* `modeOne_taken`, `modeBelowOne_taken`: `mode == 1` and `mode < 1`, on the call with that mode;
  both are taken.
-/

namespace SeccompPolicy

open ClassicBpf

/-- The target a comparison chooses. -/
def chosenTarget (d : SeccompData) (op : List BPFConst) (k : KField) (jt jf : String) (s : State) :
    Option String :=
  match exec d ⟨opcodeVal op, k.val, some 0, some 1⟩ s with
  | .skip (some 0) => some jt
  | .skip (some 1) => some jf
  | _ => none

/-- Where the filters of a branch lead: computations, and the comparison at their end. -/
def branchTo (d : SeccompData) : List BPFFilter → State → Option String
  | [.jump op k (.label jt) (.label jf)], s => chosenTarget d op k jt jf s
  | f :: fs, s =>
    match exec d f.insn s with
    | .next s' => branchTo d fs s'
    | _ => none
  | [], _ => none

/-- An argument, a constant or an arithmetic result. -/
def IRValue.isOperand : IRValue → Bool
  | .mem _ | .imm _ | .arith .. => true
  | _ => false

/-- The value of an operand; that of an arithmetic result is in the given register. -/
def IRValue.operandValue (args : List String) (d : SeccompData) (reg : Word) : IRValue → Word
  | .mem x => SeccompData.words args d x
  | .imm n => BitVec.ofInt 32 n
  | _ => reg

/-- What a comparison with the word `k` sees of the word `a` in `A`. -/
def OpCode.test (op : OpCode) (a k : Word) : Bool :=
  match op with
  | .EQ => decide (a = k)
  | .NE => !decide (a = k)
  | .GT => BitVec.ult k a
  | .LT => !BitVec.ult k a
  | .GE => BitVec.ule k a
  | .LE => !BitVec.ule k a
  | _ => false

/-- The comparison whose jump an opcode becomes with `BPF_ABS` in it. -/
def OpCode.testUnderAbs : OpCode → OpCode
  | .EQ => .GE
  | .NE => .LE
  | op => op

/-- The comparison with an argument's offset `c` agrees with the one of `u` and `v`. -/
def AgreesOnOffset (op : OpCode) (a c u v : Word) : Prop :=
  match op with
  | .EQ | .NE => c ≤ a ↔ u = v
  | .GT => c < a ↔ v < u
  | .LT => a ≤ c ↔ u < v
  | .GE => c ≤ a ↔ v ≤ u
  | .LE => a < c ↔ u ≤ v
  | _ => True

/-- The branch compares its operands' values `u` and `v` as the source says. -/
def ComparesRight (args : List String) (op : OpCode) (a b : IRValue) (u v : Word) : Prop :=
  match a, b with
  -- `A` holds the first operand
  | _, .mem y => AgreesOnOffset op u (KField.argOffset (argIndex args y)).val u v
  | _, .imm _ => op = .LT ∨ op = .LE → u ≠ v
  -- `A` holds the second operand
  | .mem x, _ => AgreesOnOffset op v (KField.argOffset (argIndex args x)).val u v
  | _, _ => op = .EQ ∨ op = .NE ∨ (op = .GT ∨ op = .GE) ∧ u = v

/-! ## The jumps -/

/-- `jt` and `jf` for a comparison with these targets. -/
theorem chosenTarget_eq {d : SeccompData} {o : List BPFConst} {k : KField} {t f : String}
    {s : State} {op : OpCode} {c : Bool}
    (h : exec d ⟨opcodeVal o, k.val, some 0, some 1⟩ s =
      .skip (if needSwapTarget op != c then some 0 else some 1)) :
    chosenTarget d o k (if needSwapTarget op then f else t) (if needSwapTarget op then t else f) s =
      some (if c then t else f) := by
  rw [chosenTarget, h]
  cases c <;> cases needSwapTarget op <;> rfl

/-- `BPF_JMP` with a constant. -/
theorem exec_test {op : OpCode} (hop : op.isCmp = true) (d : SeccompData) (k : Word) (s : State) :
    exec d ⟨opcodeVal [.JMP, bpfOpcode op, .K], k, some 0, some 1⟩ s =
      .skip (if needSwapTarget op != op.test s.A k then some 0 else some 1) := by
  cases op <;> simp [OpCode.isCmp] at hop <;>
    simp [exec, jump, opcodeVal, bpfOpcode, BPFConst.val, OpCode.test, needSwapTarget]

theorem chosenTarget_k {op : OpCode} (hop : op.isCmp = true) (d : SeccompData) (k : KField)
    (t f : String) (s : State) :
    chosenTarget d [.JMP, bpfOpcode op, .K] k (if needSwapTarget op then f else t)
      (if needSwapTarget op then t else f) s = some (if op.test s.A k.val then t else f) :=
  chosenTarget_eq (exec_test hop d k.val s)

/-- With an argument: the jump of another comparison, with the same order of targets. -/
theorem chosenTarget_abs {op : OpCode} (hop : op.isCmp = true) (d : SeccompData) (k : KField)
    (t f : String) (s : State) :
    chosenTarget d [.JMP, bpfOpcode op, .ABS] k (if needSwapTarget op then f else t)
      (if needSwapTarget op then t else f) s =
      some (if op.testUnderAbs.test s.A k.val then t else f) := by
  have hcmp : op.testUnderAbs.isCmp = true := by
    cases op <;> first | rfl | exact hop
  have hswap : needSwapTarget op = needSwapTarget op.testUnderAbs := by
    cases op <;> rfl
  have hcode : opcodeVal [.JMP, bpfOpcode op, .ABS] =
      opcodeVal [.JMP, bpfOpcode op.testUnderAbs, .K] := by
    revert hop
    cases op <;> decide
  exact chosenTarget_eq (by rw [hcode, hswap]; exact exec_test hcmp d k.val s)

/-- With `X`. -/
theorem chosenTarget_x {op : OpCode} (hop : op.isCmp = true) (d : SeccompData) (k : KField)
    (t f : String) (s : State) :
    chosenTarget d [.JMP, .X, bpfOpcode op] k (if needSwapTarget op then f else t)
      (if needSwapTarget op then t else f) s = some (if op.test s.A s.X then t else f) := by
  refine chosenTarget_eq ?_
  cases op <;> simp [OpCode.isCmp] at hop <;>
    simp [exec, jump, opcodeVal, bpfOpcode, BPFConst.val, OpCode.test, needSwapTarget]

/-! ## The branch -/

variable {args : List String} {d : SeccompData}

/-- What a comparison with an argument or a constant sees of the word in `A`. -/
def IRValue.test (args : List String) (op : OpCode) (a : Word) : IRValue → Bool
  | .mem x => op.testUnderAbs.test a (KField.argOffset (argIndex args x)).val
  | .imm n => op.test a (BitVec.ofInt 32 n)
  | _ => false

/-- What a branch sees of its operands' values: the operand that is not in `A` is compared with. -/
def branchTest (args : List String) (op : OpCode) (a b : IRValue) (u v : Word) : Bool :=
  if b.isInstruction then if a.isInstruction then op.test v u else a.test args op v
  else b.test args op u

theorem branchTo_append (fs : List BPFFilter) (f : BPFFilter) (s : State) :
    branchTo d (fs ++ [f]) s = (runStmts d fs s).bind (branchTo d [f]) := by
  induction fs generalizing s with
  | nil => rfl
  | cons g fs ih =>
    have hne : fs ++ [f] ≠ [] := by simp
    rw [List.cons_append, branchTo, runStmts]
    · cases exec d g.insn s <;> first | exact ih _ | rfl
    · rintro o k jt jf rfl h
      exact hne h

/-- The comparison with an operand that is no arithmetic result. -/
theorem branchTo_test {op : OpCode} (hop : op.isCmp = true) {v : IRValue}
    (hv : v.isOperand = true) (hi : v.isInstruction = false) (t f : String) (s : State) :
    branchTo d [.jump [.JMP, bpfOpcode op, getAddressMode v] (genKField args v)
      (.label (if needSwapTarget op then f else t))
      (.label (if needSwapTarget op then t else f))] s =
      some (if v.test args op s.A then t else f) := by
  cases v with
  | mem x => exact chosenTarget_abs hop d _ t f s
  | imm n => exact chosenTarget_k hop d _ t f s
  | null => cases hv
  | arith id op a b => cases hi
  | call id f ps => cases hi

/-- An operand that is no arithmetic result is loaded. -/
theorem runStmts_operand (hargs : ∀ y, argIndex args y < 6) {v : IRValue}
    (hv : v.isOperand = true) (hi : v.isInstruction = false) (reg : Word) (s : State) :
    runStmts d (loadArgumentOrInt args v) s =
      some { s with A := v.operandValue args d reg } := by
  cases v with
  | mem x => exact runStmts_loadArg (hargs x) d [] s
  | imm n => rfl
  | null => cases hv
  | arith id op a b => cases hi
  | call id f ps => cases hi

/-- **Where a branch leads**, by which of its operands are arithmetic results. -/
theorem branchTo_genBranch (hargs : ∀ y, argIndex args y < 6) {op : OpCode} (hop : op.isCmp = true)
    {a b : IRValue} (ha : a.isOperand = true) (hb : b.isOperand = true) {m0 : IRValue}
    (hm : a.isInstruction = true → b.isInstruction = true → m0 = a) (t f : String) (s : State) :
    ((genBranch args m0 op a b t f).bind fun g => branchTo d g.1 s) =
      some (if branchTest args op a b
        (a.operandValue args d (if b.isInstruction then s.M 0 else s.A))
        (b.operandValue args d s.A) then t else f) := by
  have hnull : ¬ (a = .null ∨ b = .null) := by
    rintro (rfl | rfl)
    · cases ha
    · cases hb
  have hreg : ∀ {v : IRValue}, v.isInstruction = true → ∀ reg, v.operandValue args d reg = reg := by
    intro v hv reg
    cases v <;> first | rfl | cases hv
  unfold genBranch branchTest
  simp only [if_neg hnull]
  cases hai : a.isInstruction with
  | true =>
    cases hbi : b.isInstruction with
    | true =>
      simp only [hm hai hbi, hreg hai, hreg hbi, and_self, true_or, if_true, Option.bind_some]
      exact chosenTarget_x hop d _ t f _
    | false =>
      simp only [hreg hai, Bool.false_eq_true, and_false, if_false, if_true, Option.bind_some]
      exact branchTo_test hop hb hbi t f s
  | false =>
    cases hbi : b.isInstruction with
    | true =>
      simp only [hreg hbi, Bool.false_eq_true, false_and, if_false, if_true, Option.bind_some]
      exact branchTo_test hop ha hai t f s
    | false =>
      simp only [Bool.false_eq_true, and_self, if_false, Option.bind_some]
      rw [branchTo_append, runStmts_operand hargs ha hai s.A, Option.bind_some]
      exact branchTo_test hop hb hbi t f _

/-! ## When it is right -/

/-- A comparison with an argument's offset. -/
theorem agreesOnOffset_iff {op : OpCode} (hop : op.isCmp = true) (a c u v : Word) :
    op.testUnderAbs.test a c = words32.cmp op u v ↔ AgreesOnOffset op a c u v := by
  rw [Bool.eq_iff_iff]
  cases op <;> simp [OpCode.isCmp] at hop <;>
    simp [OpCode.testUnderAbs, OpCode.test, words32, AgreesOnOffset, BitVec.ult_eq_decide_lt,
      BitVec.ule_eq_decide_le]
  all_goals bv_omega

theorem test_iff {op : OpCode} (hop : op.isCmp = true) (u v : Word) :
    op.test u v = words32.cmp op u v ↔ (op = .LT ∨ op = .LE → u ≠ v) := by
  rw [Bool.eq_iff_iff]
  cases op <;> simp [OpCode.isCmp] at hop <;>
    simp [OpCode.test, words32, BitVec.ult_eq_decide_lt, BitVec.ule_eq_decide_le]
  all_goals bv_omega

theorem test_swapped_iff {op : OpCode} (hop : op.isCmp = true) (u v : Word) :
    op.test v u = words32.cmp op u v ↔ op = .EQ ∨ op = .NE ∨ (op = .GT ∨ op = .GE) ∧ u = v := by
  rw [Bool.eq_iff_iff]
  cases op <;> simp [OpCode.isCmp] at hop <;>
    simp [OpCode.test, words32, BitVec.ult_eq_decide_lt, BitVec.ule_eq_decide_le]
  all_goals bv_omega

/-- What the branch sees is what the source says, under `ComparesRight`. -/
theorem branchTest_iff {op : OpCode} (hop : op.isCmp = true) {a b : IRValue}
    (ha : a.isOperand = true) (hb : b.isOperand = true) {x y : Word} :
    branchTest args op a b (a.operandValue args d x) (b.operandValue args d y) =
      words32.cmp op (a.operandValue args d x) (b.operandValue args d y) ↔
    ComparesRight args op a b (a.operandValue args d x) (b.operandValue args d y) := by
  cases b with
  | mem z => exact agreesOnOffset_iff hop _ _ _ _
  | imm n => exact test_iff hop _ _
  | null => cases hb
  | call id f ps => cases hb
  | arith id o p q =>
    cases a with
    | mem z => exact agreesOnOffset_iff hop _ _ _ _
    | imm n => exact test_swapped_iff hop _ _
    | null => cases ha
    | call id f ps => cases ha
    | arith id o p q => exact test_swapped_iff hop _ _

theorem ite_eq_ite_iff (c c' : Bool) (t f : String) :
    some (if c then t else f) = some (if c' then t else f) ↔ t = f ∨ c = c' := by
  cases c <;> cases c' <;> simp [eq_comm]

/-- **A branch leads where the comparison of its operands' values says exactly when
`ComparesRight` holds of them**, or both targets are the same. -/
theorem branch_iff (gl : RetGlobals) {args : List String} (hargs : args.length ≤ 6) {op : OpCode}
    (hop : op.isCmp = true) {a b : IRValue} (ha : a.isOperand = true) (hb : b.isOperand = true)
    {r : BPFRegs} (hm : a.isInstruction = true → b.isInstruction = true → r.m0Val = a)
    {d : SeccompData} {s : State} {u v : Word}
    (hu : a.operandValue args d (if b.isInstruction then s.M 0 else s.A) = u)
    (hv : b.operandValue args d s.A = v) (t f : String) :
    ((genInst gl args r (.branch op a b t f)).bind fun g => branchTo d g.1 s) =
      some (if words32.cmp op u v then t else f) ↔ t = f ∨ ComparesRight args op a b u v := by
  have hne : op ≠ .INVALID := by
    rintro rfl
    cases hop
  have hto := branchTo_genBranch (d := d) (argIndex_lt_six hargs) hop ha hb hm t f s
  subst hu hv
  rw [← branchTest_iff hop ha hb, ← ite_eq_ite_iff, ← hto, genInst, if_neg hne, Option.bind_map]
  rfl

/-- `mode == 1`, on the call with that mode. -/
theorem modeOne_taken : ((genInst (.initial 1) openArgs {}
      (.branch .EQ (.mem "mode") (.imm 1) "L1" "L2")).bind fun g => branchTo openCall g.1 {}) =
    some "L1" :=
  (branch_iff (.initial 1) (show openArgs.length ≤ 6 by decide) rfl rfl rfl (by decide) rfl rfl "L1"
    "L2").mpr (.inr (by simp [ComparesRight]))

/-- `mode < 1`, on the same call: the branch is taken, the comparison fails. -/
theorem modeBelowOne_taken : words32.cmp .LT (SeccompData.words openArgs openCall "mode") 1 = false ∧
    ((genInst (.initial 1) openArgs {}
      (.branch .LT (.mem "mode") (.imm 1) "L1" "L2")).bind fun g => branchTo openCall g.1 {}) =
    some "L1" :=
  ⟨rfl, rfl⟩

end SeccompPolicy
