import SeccompPolicy.BpfFilter
import SeccompPolicy.Targets

/-!
# From the list to the filter: `BPFCodeGen`

Source: `bpf_opcodes`, `NeedSwapTarget`, `GenK_Field`, `LoadArgumentOrInt`, `GetAddressMode` and
`BPFCodeGen` of `code_gen.cpp`.

One loop over the filter's instruction list. `A_val` and `M0_val` say which instruction's result
the accumulator and the first scratch word hold; they are an accumulator of the recursion
(`BPFRegs`). The cases are functions of their own (`spill`, `genArith`, `genBranch`, `genReturn`),
and `genInst` is one round.

What the source does and one might not expect is kept:

* the filter of an unconditional branch is built and never pushed;
* the opcode of a spill is `BPF_ST |  BPF_W`, and nothing is pushed for a call or an assignment;
* unary minus is a `BPF_TAX`, which as a whole statement is a load of `0`, another load of `0`,
  and a subtraction of `X`;
* an argument as the second operand is addressed with `BPF_ABS`, inside an opcode of `BPF_ALU` or
  `BPF_JMP`.

An assertion that fails and a null operand stop the compiler: the model has no result then
(`none`).

## Results

* `mem_genInst`: what the filters of one instruction can be (`FilterOf`).
* `genFilters_split`, `mem_genFilters`: the filters of a list, in parts and one by one.
* `genFilters_labels`: they have the labels of the list, in its order.
* `bpfCodeGen_closed`: when no target of the list is in front, the body of a check is a closed
  segment once its labels are resolved.
-/

namespace SeccompPolicy

open ClassicBpf

/-- `bpf_opcodes`. -/
def bpfOpcode : OpCode → BPFConst
  | .UMINUS => .ERROR | .PLUS => .ADD | .MINUS => .SUB | .MULT => .MUL | .DIV => .DIV | .MOD => .MOD
  | .EQ => .JEQ | .NE => .JEQ | .GT => .JGT | .LT => .JGT | .GE => .JGE | .LE => .JGE
  | .AND => .ERROR | .OR => .ERROR | .NOT => .ERROR
  | .BITNOT => .NEG | .BITAND => .AND | .BITOR => .OR | .BITXOR => .XOR
  | .SHL => .LSH | .SHR => .RSH
  | .INVALID => .INVALID

/-- `NeedSwapTarget`. -/
def needSwapTarget (jmpType : OpCode) : Bool :=
  decide (jmpType = .LE ∨ jmpType = .LT ∨ jmpType = .NE)

/-- `arg_index`: the last position of a name; the map gives `0` for one it does not hold. -/
def argIndex (args : List String) (name : String) : Nat :=
  ((args.zipIdx.filter fun e => e.1 = name).getLast?.map Prod.snd).getD 0

theorem argIndex_lt {args : List String} (h : args ≠ []) (x : String) :
    argIndex args x < args.length := by
  unfold argIndex
  cases hl : (args.zipIdx.filter fun e => e.1 = x).getLast? with
  | none => exact List.length_pos_iff.mpr h
  | some e =>
    have he := (List.mem_filter.mp (List.mem_of_getLast? hl)).1
    have hget := List.mem_zipIdx_iff_getElem?.mp he
    exact (List.getElem?_eq_some_iff.mp hget).1

/-- A name with one position has that position as its index. -/
theorem argIndex_eq {args : List String} {x : String} {k : Nat}
    (hx : ∀ j, args[j]? = some x ↔ j = k) : argIndex args x = k := by
  unfold argIndex
  cases hl : (args.zipIdx.filter fun e => e.1 = x).getLast? with
  | none =>
    have hmem : (x, k) ∈ args.zipIdx := List.mem_zipIdx_iff_getElem?.mpr ((hx k).mpr rfl)
    have hnil := List.getLast?_eq_none_iff.mp hl
    have : (x, k) ∈ args.zipIdx.filter fun e => e.1 = x := List.mem_filter.mpr ⟨hmem, by simp⟩
    rw [hnil] at this
    exact absurd this List.not_mem_nil
  | some e =>
    obtain ⟨he, hname⟩ := List.mem_filter.mp (List.mem_of_getLast? hl)
    obtain rfl : e.1 = x := by simpa using hname
    exact (hx e.2).mp (List.mem_zipIdx_iff_getElem?.mp he)

/-- `GenK_Field`. -/
def genKField (args : List String) : IRValue → KField
  | .imm n => .int n
  | .mem x => .argOffset (argIndex args x)
  | _ => .empty

/-- `LoadArgumentOrInt`. -/
def loadArgumentOrInt (args : List String) : IRValue → List BPFFilter
  | .mem x => [.stmt [.LD, .W, .ABS] (.argOffset (argIndex args x))]
  | .imm n => [.stmt [.LD, .W, .K] (.int n)]
  | _ => []

/-- `GetAddressMode`. -/
def getAddressMode : IRValue → BPFConst
  | .mem _ => .ABS
  | .imm _ => .K
  | _ => .ERR

/-- `A_val` and `M0_val`. -/
structure BPFRegs where
  aVal : IRValue := .null
  m0Val : IRValue := .null

/-- The start of the arithmetic case: a value in `A` that is no operand is moved to `M0`. -/
def spill (r : BPFRegs) (op1 op2 : IRValue) : List BPFFilter × BPFRegs :=
  if r.aVal ≠ .null ∧ r.aVal ≠ op1 ∧ r.aVal ≠ op2 then
    ([.stmt [.ST, .W] (.int 0)], ⟨.null, r.aVal⟩)
  else ([], r)

/-- The arithmetic case, after the spill: the filters, and `M0_val`. -/
def genArith (args : List String) (m0Val : IRValue) (op : OpCode) (op1 op2 : IRValue) :
    Option (List BPFFilter × IRValue) :=
  if op1 = .null then none
  else if op2 = .null then
    let load := if op1.isInstruction then [] else loadArgumentOrInt args op1
    some (load ++ (if op = .UMINUS then
      [.stmt [.TAX] .empty, .stmt [.LD, .W, .K] (.int 0), .stmt [.ALU, .SUB, .X] .empty]
    else [.stmt [.ALU, bpfOpcode op] .empty]), m0Val)
  else if op1.isInstruction ∧ op2.isInstruction then
    if op1 = m0Val ∨ op2 = m0Val then
      some ([.stmt [.LDX, .MEM, .W] (.int 0), .stmt [.ALU, .X, bpfOpcode op] .empty], .null)
    else none
  else if op2.isInstruction then
    some ([.stmt [.ALU, bpfOpcode op, getAddressMode op1] (genKField args op1)], m0Val)
  else if op1.isInstruction then
    some ([.stmt [.ALU, bpfOpcode op, getAddressMode op2] (genKField args op2)], m0Val)
  else
    some (loadArgumentOrInt args op1 ++
      [.stmt [.ALU, bpfOpcode op, getAddressMode op2] (genKField args op2)], m0Val)

/-- The conditional branches: the filters, and `M0_val`. -/
def genBranch (args : List String) (m0Val : IRValue) (op : OpCode) (op1 op2 : IRValue)
    (trueTarget falseTarget : String) : Option (List BPFFilter × IRValue) :=
  let jt := if needSwapTarget op then falseTarget else trueTarget
  let jf := if needSwapTarget op then trueTarget else falseTarget
  if op1 = .null ∨ op2 = .null then none
  else if op1.isInstruction ∧ op2.isInstruction then
    if op1 = m0Val ∨ op2 = m0Val then
      some ([.stmt [.LDX, .MEM, .W] (.int 0),
        .jump [.JMP, .X, bpfOpcode op] (.int 0) (.label jt) (.label jf)], .null)
    else none
  else if op2.isInstruction then
    some ([.jump [.JMP, bpfOpcode op, getAddressMode op1] (genKField args op1)
      (.label jt) (.label jf)], m0Val)
  else if op1.isInstruction then
    some ([.jump [.JMP, bpfOpcode op, getAddressMode op2] (genKField args op2)
      (.label jt) (.label jf)], m0Val)
  else
    some (loadArgumentOrInt args op1 ++
      [.jump [.JMP, bpfOpcode op, getAddressMode op2] (genKField args op2)
        (.label jt) (.label jf)], m0Val)

/-- `bpfret_to_ret_data[ret]`, which is `0` for a return that has no entry. -/
def RetGlobals.dataOf (gl : RetGlobals) (ret : Nat) : Nat := (gl.bpfretToRetData.lookup ret).getD 0

/-- The return case. -/
def genReturn (gl : RetGlobals) (id : Nat) (rval : Int) : List BPFFilter :=
  if rval = PermType.ALLOW.val then [.stmt [.RET, .K] .retAllow]
  else if rval = PermType.DENY.val then [.stmt [.RET, .K] .retKillProcess]
  else if rval = RET_TO_PTRACE then [.stmt [.RET, .K] (.retTrace (gl.dataOf id))]
  else []

/-- One round of the loop of `BPFCodeGen`. The filter of an unconditional branch is built and never
pushed. -/
def genInst (gl : RetGlobals) (args : List String) (r : BPFRegs) :
    Instruction → Option (List BPFFilter × BPFRegs)
  | .arith id op op1 op2 =>
    let sp := spill r op1 op2
    (genArith args sp.2.m0Val op op1 op2).map fun g =>
      (sp.1 ++ g.1, ⟨.arith id op op1 op2, g.2⟩)
  | .branch op op1 op2 t f =>
    if op = .INVALID then some ([], ⟨.null, r.m0Val⟩)
    else (genBranch args r.m0Val op op1 op2 t f).map fun g => (g.1, ⟨.null, g.2⟩)
  | .ret id rval => some (genReturn gl id rval, r)
  | .label l => some ([.label l], r)
  | .call .. | .store .. => some ([], r)

/-- The loop of `BPFCodeGen`. -/
def genFilters (gl : RetGlobals) (args : List String) : BPFRegs → List Instruction →
    Option (List BPFFilter)
  | _, [] => some []
  | r, i :: code =>
    match genInst gl args r i with
    | none => none
    | some g => (genFilters gl args g.2 code).map fun fs => g.1 ++ fs

/-- `BPFCodeGen`: the start label is skipped. -/
def bpfCodeGen (gl : RetGlobals) (args : List String) (bpfIR : List Instruction) :
    Option (List BPFFilter) :=
  genFilters gl args {} bpfIR.tail

/-! ## The filters of one instruction -/

/-- The opcode of a computation: no jump and no return. -/
def IsPlain (op : List BPFConst) : Prop :=
  opcodeVal op &&& 0x07 ≠ 0x05 ∧ opcodeVal op &&& 0x07 ≠ 0x06

/-- The opcode of a comparison that skips by `jt` or `jf`. -/
def IsTest (op : List BPFConst) : Prop :=
  .JA ∉ op ∧ opcodeVal op ≠ 0x05 ∧ opcodeVal op &&& 0x07 ≠ 0x06

instance : DecidablePred IsPlain := fun _ => inferInstanceAs (Decidable (_ ∧ _))

instance : DecidablePred IsTest := fun _ => inferInstanceAs (Decidable (_ ∧ _))

/-- The `k` text of a computation or a comparison: a number, an argument or none. -/
def KField.IsOperand : KField → Prop
  | .empty | .int _ | .argOffset _ => True
  | _ => False

/-- The filter computes. -/
inductive BPFFilter.Computes : BPFFilter → Prop
  | stmt {op : List BPFConst} {k : KField} : IsPlain op → k.IsOperand → Computes (.stmt op k)

/-- What each instruction can give. -/
inductive FilterOf (gl : RetGlobals) : Instruction → BPFFilter → Prop
  | label (l : String) : FilterOf gl (.label l) (.label l)
  | plain {i : Instruction} {f : BPFFilter} : f.Computes → FilterOf gl i f
  | ret {id : Nat} {rval : Int} {f : BPFFilter} : f ∈ genReturn gl id rval →
    FilterOf gl (.ret id rval) f
  | test {op : OpCode} {a b : IRValue} {t f jt jf : String} {o : List BPFConst} {k : KField} :
    IsTest o → k.IsOperand → jt ∈ (Instruction.branch op a b t f).targets →
    jf ∈ (Instruction.branch op a b t f).targets →
    FilterOf gl (.branch op a b t f) (.jump o k (.label jt) (.label jf))

theorem getAddressMode_cases (v : IRValue) :
    getAddressMode v = .ABS ∨ getAddressMode v = .K ∨ getAddressMode v = .ERR := by
  cases v <;> simp [getAddressMode]

theorem isPlain_alu (op : OpCode) (v : IRValue) :
    IsPlain [.ALU, bpfOpcode op, getAddressMode v] := by
  rcases getAddressMode_cases v with h | h | h <;> rw [h] <;> cases op <;> decide

theorem isPlain_aluX (op : OpCode) : IsPlain [.ALU, .X, bpfOpcode op] := by
  cases op <;> decide

theorem isPlain_alu1 (op : OpCode) : IsPlain [.ALU, bpfOpcode op] := by
  cases op <;> decide

theorem isTest_jmp {op : OpCode} (hop : op.isCmp = true) (v : IRValue) :
    IsTest [.JMP, bpfOpcode op, getAddressMode v] := by
  rcases getAddressMode_cases v with h | h | h <;> rw [h] <;> cases op <;>
    first | decide | cases hop

theorem isTest_jmpX (op : OpCode) : IsTest [.JMP, .X, bpfOpcode op] := by
  cases op <;> decide

theorem genKField_isOperand (args : List String) (v : IRValue) : (genKField args v).IsOperand := by
  cases v <;> trivial

theorem mem_loadArgumentOrInt {args : List String} {v : IRValue} {f : BPFFilter}
    (hf : f ∈ loadArgumentOrInt args v) : f.Computes := by
  cases v with
  | mem x =>
    obtain rfl := List.mem_singleton.mp hf
    exact .stmt (by decide) trivial
  | imm n =>
    obtain rfl := List.mem_singleton.mp hf
    exact .stmt (by decide) trivial
  | _ => exact absurd hf List.not_mem_nil

theorem mem_spill {r : BPFRegs} {op1 op2 : IRValue} {f : BPFFilter}
    (hf : f ∈ (spill r op1 op2).1) : f.Computes := by
  unfold spill at hf
  split at hf
  · obtain rfl := List.mem_singleton.mp hf
    exact .stmt (by decide) trivial
  · exact absurd hf List.not_mem_nil

/-- Arithmetic gives computations. -/
theorem mem_genArith {args : List String} {m0 : IRValue} {op : OpCode} {op1 op2 : IRValue}
    {g : List BPFFilter × IRValue} (hg : genArith args m0 op op1 op2 = some g) {f : BPFFilter}
    (hf : f ∈ g.1) : f.Computes := by
  unfold genArith at hg
  split_ifs at hg <;> obtain rfl := Option.some.inj hg <;>
    simp only [List.mem_append, List.mem_cons, List.not_mem_nil, or_false, false_or] at hf
  · rcases hf with rfl | rfl | rfl <;> exact .stmt (by decide) trivial
  · subst hf
    exact .stmt (isPlain_alu1 op) trivial
  · rcases hf with hf | rfl | rfl | rfl
    · exact mem_loadArgumentOrInt hf
    all_goals exact .stmt (by decide) trivial
  · rcases hf with hf | rfl
    · exact mem_loadArgumentOrInt hf
    · exact .stmt (isPlain_alu1 op) trivial
  · rcases hf with rfl | rfl
    · exact .stmt (by decide) trivial
    · exact .stmt (isPlain_aluX op) trivial
  · subst hf
    exact .stmt (isPlain_alu op op1) (genKField_isOperand args op1)
  · subst hf
    exact .stmt (isPlain_alu op op2) (genKField_isOperand args op2)
  · rcases hf with hf | rfl
    · exact mem_loadArgumentOrInt hf
    · exact .stmt (isPlain_alu op op2) (genKField_isOperand args op2)

/-- A conditional branch gives computations, and a comparison between its targets. -/
theorem mem_genBranch {gl : RetGlobals} {args : List String} {m0 : IRValue} {op : OpCode}
    {op1 op2 : IRValue} {t f : String} {g : List BPFFilter × IRValue} (hop : op.isCmp = true)
    (hg : genBranch args m0 op op1 op2 t f = some g) {x : BPFFilter} (hx : x ∈ g.1) :
    FilterOf gl (.branch op op1 op2 t f) x := by
  have htargets : (Instruction.branch op op1 op2 t f).targets = [t, f] := by
    have : op ≠ .INVALID := by rintro rfl; cases hop
    simp [Instruction.targets, this]
  have hjt : (if needSwapTarget op then f else t) ∈
      (Instruction.branch op op1 op2 t f).targets := by
    rw [htargets]
    split <;> simp
  have hjf : (if needSwapTarget op then t else f) ∈
      (Instruction.branch op op1 op2 t f).targets := by
    rw [htargets]
    split <;> simp
  unfold genBranch at hg
  simp only at hg
  split at hg
  · cases hg
  split at hg
  · split at hg
    · obtain rfl := Option.some.inj hg
      simp only [List.mem_cons, List.not_mem_nil, or_false] at hx
      rcases hx with rfl | rfl
      · exact .plain (.stmt (by decide) trivial)
      · exact .test (isTest_jmpX op) trivial hjt hjf
    · cases hg
  split at hg
  · obtain rfl := Option.some.inj hg
    obtain rfl := List.mem_singleton.mp hx
    exact .test (isTest_jmp hop op1) (genKField_isOperand args op1) hjt hjf
  split at hg
  · obtain rfl := Option.some.inj hg
    obtain rfl := List.mem_singleton.mp hx
    exact .test (isTest_jmp hop op2) (genKField_isOperand args op2) hjt hjf
  · obtain rfl := Option.some.inj hg
    rcases List.mem_append.mp hx with hx | hx
    · exact .plain (mem_loadArgumentOrInt hx)
    · obtain rfl := List.mem_singleton.mp hx
      exact .test (isTest_jmp hop op2) (genKField_isOperand args op2) hjt hjf

/-- **The filters of one instruction.** -/
theorem mem_genInst {gl : RetGlobals} {args : List String} {r : BPFRegs} {i : Instruction}
    (hi : i.Compares) {g : List BPFFilter × BPFRegs} (hg : genInst gl args r i = some g)
    {f : BPFFilter} (hf : f ∈ g.1) : FilterOf gl i f := by
  cases i with
  | label l =>
    obtain rfl := Option.some.inj hg
    obtain rfl := List.mem_singleton.mp hf
    exact .label l
  | ret id rval =>
    obtain rfl := Option.some.inj hg
    exact .ret hf
  | call id f ps =>
    obtain rfl := Option.some.inj hg
    exact absurd hf List.not_mem_nil
  | store a b =>
    obtain rfl := Option.some.inj hg
    exact absurd hf List.not_mem_nil
  | arith id op a b =>
    obtain ⟨ga, hga, rfl⟩ := Option.map_eq_some_iff.mp hg
    rcases List.mem_append.mp hf with hf | hf
    · exact .plain (mem_spill hf)
    · exact .plain (mem_genArith hga hf)
  | branch op a b t f' =>
    simp only [genInst] at hg
    split at hg
    · obtain rfl := Option.some.inj hg
      exact absurd hf List.not_mem_nil
    · rename_i hop
      obtain ⟨gb, hgb, rfl⟩ := Option.map_eq_some_iff.mp hg
      exact mem_genBranch (hi.resolve_left hop) hgb hf

/-! ## The filters of a list -/

theorem genReturn_stmt {gl : RetGlobals} {id : Nat} {rval : Int} {f : BPFFilter}
    (hf : f ∈ genReturn gl id rval) : ∃ k, f = .stmt [.RET, .K] k := by
  unfold genReturn at hf
  split_ifs at hf
  all_goals first
    | exact ⟨_, List.mem_singleton.mp hf⟩
    | exact absurd hf List.not_mem_nil

theorem FilterOf.eq_label {gl : RetGlobals} {i : Instruction} {l : String}
    (h : FilterOf gl i (.label l)) : i = .label l := by
  cases h with
  | label => rfl
  | ret hf =>
    obtain ⟨k, hk⟩ := genReturn_stmt hf
    cases hk
  | plain hf => cases hf

theorem FilterOf.targets {gl : RetGlobals} {i : Instruction} {f : BPFFilter} (h : FilterOf gl i f) :
    ∀ l ∈ f.targets, l ∈ i.targets := by
  intro l hl
  cases h with
  | label l' => exact absurd hl List.not_mem_nil
  | plain hf =>
    cases hf
    exact absurd hl List.not_mem_nil
  | ret hf =>
    obtain ⟨k, rfl⟩ := genReturn_stmt hf
    exact absurd hl List.not_mem_nil
  | @test _ _ _ _ _ jt jf _ k _ hk hjt hjf =>
    have hlab : l = jt ∨ l = jf := by
      cases k with
      | label l' => exact hk.elim
      | _ => simpa [BPFFilter.targets] using hl
    rcases hlab with rfl | rfl
    · exact hjt
    · exact hjf

theorem FilterOf.jumps {gl : RetGlobals} {i : Instruction} {f : BPFFilter} (h : FilterOf gl i f) :
    f.Jumps := by
  cases h with
  | label l => exact .label l
  | plain hf =>
    cases hf with
    | stmt ho _ => exact .stmt _ ho.1
  | ret hf =>
    obtain ⟨k, rfl⟩ := genReturn_stmt hf
    exact .stmt k (by decide)
  | test ho _ _ _ => exact .jump _ _ _ ho.1 ho.2.1

theorem genInst_labels {gl : RetGlobals} {args : List String} {r : BPFRegs} {i : Instruction}
    (hi : i.Compares) {g : List BPFFilter × BPFRegs} (hg : genInst gl args r i = some g) :
    filterLabels g.1 = i.label?.toList := by
  cases i with
  | label l =>
    obtain rfl := Option.some.inj hg
    rfl
  | _ =>
    refine List.eq_nil_iff_forall_not_mem.mpr fun l hl => ?_
    exact Instruction.noConfusion (mem_genInst hi hg (mem_filterLabels.mp hl)).eq_label

theorem genFilters_cons {gl : RetGlobals} {args : List String} {r : BPFRegs} {i : Instruction}
    {code : List Instruction} {fs : List BPFFilter}
    (h : genFilters gl args r (i :: code) = some fs) : ∃ g fs', genInst gl args r i = some g ∧
      genFilters gl args g.2 code = some fs' ∧ fs = g.1 ++ fs' := by
  unfold genFilters at h
  cases hg : genInst gl args r i with
  | none => simp [hg] at h
  | some g =>
    simp only [hg] at h
    obtain ⟨fs', hfs', rfl⟩ := Option.map_eq_some_iff.mp h
    exact ⟨g, fs', rfl, hfs', rfl⟩

/-- The filters of a list in two parts. -/
theorem genFilters_split {gl : RetGlobals} {args : List String} {code code' : List Instruction}
    {r : BPFRegs} {fs : List BPFFilter} (h : genFilters gl args r (code ++ code') = some fs) :
    ∃ f₁ r' f₂, genFilters gl args r code = some f₁ ∧ genFilters gl args r' code' = some f₂ ∧
      fs = f₁ ++ f₂ := by
  induction code generalizing r fs with
  | nil => exact ⟨[], r, fs, rfl, h, rfl⟩
  | cons i code ih =>
    obtain ⟨g, fs', hg, hfs', rfl⟩ := genFilters_cons h
    obtain ⟨f₁, r', f₂, h₁, h₂, rfl⟩ := ih hfs'
    exact ⟨g.1 ++ f₁, r', f₂, by simp only [genFilters, hg, h₁, Option.map_some], h₂,
      (List.append_assoc ..).symm⟩

theorem genFilters_labels {gl : RetGlobals} {args : List String} {code : List Instruction}
    {r : BPFRegs} {fs : List BPFFilter} (hc : ∀ i ∈ code, i.Compares)
    (h : genFilters gl args r code = some fs) : filterLabels fs = irLabels code := by
  induction code generalizing r fs with
  | nil =>
    obtain rfl := Option.some.inj h
    rfl
  | cons i code ih =>
    obtain ⟨g, fs', hg, hfs', rfl⟩ := genFilters_cons h
    rw [filterLabels_append, genInst_labels (hc i List.mem_cons_self) hg, irLabels_cons,
      ih (fun j hj => hc j (List.mem_cons_of_mem i hj)) hfs']

/-- **Every filter is one of an instruction of the list.** -/
theorem mem_genFilters {gl : RetGlobals} {args : List String} {code : List Instruction}
    {r : BPFRegs} {fs : List BPFFilter} (hc : ∀ i ∈ code, i.Compares)
    (h : genFilters gl args r code = some fs) {f : BPFFilter} (hf : f ∈ fs) :
    ∃ i ∈ code, FilterOf gl i f := by
  induction code generalizing r fs with
  | nil =>
    obtain rfl := Option.some.inj h
    exact absurd hf List.not_mem_nil
  | cons i code ih =>
    obtain ⟨g, fs', hg, hfs', rfl⟩ := genFilters_cons h
    rcases List.mem_append.mp hf with hf | hf
    · exact ⟨i, List.mem_cons_self, mem_genInst (hc i List.mem_cons_self) hg hf⟩
    · obtain ⟨j, hj, hjf⟩ := ih (fun j hj => hc j (List.mem_cons_of_mem i hj)) hfs' hf
      exact ⟨j, List.mem_cons_of_mem i hj, hjf⟩

theorem genFilters_forward {gl : RetGlobals} {args : List String} {code : List Instruction}
    {r : BPFRegs} {fs : List BPFFilter} (hc : ∀ i ∈ code, i.Compares) (hb : NoBackward code)
    (h : genFilters gl args r code = some fs) : ForwardFilters fs := by
  induction code generalizing r fs with
  | nil =>
    obtain rfl := Option.some.inj h
    exact List.Pairwise.nil
  | cons i code ih =>
    obtain ⟨g, fs', hg, hfs', rfl⟩ := genFilters_cons h
    have hc' := fun j hj => hc j (List.mem_cons_of_mem i hj)
    obtain ⟨hi, hb'⟩ := List.pairwise_cons.mp hb
    have hlabel : ∀ l, .label l ∈ g.1 → g.1 = [.label l] ∧ i.label? = some l := by
      intro l hl
      obtain rfl := (mem_genInst (hc i List.mem_cons_self) hg hl).eq_label
      obtain rfl := Option.some.inj hg
      exact ⟨rfl, rfl⟩
    refine List.pairwise_append.mpr ⟨?_, ih hc' hb' hfs', ?_⟩
    · by_cases hlab : ∃ l, .label l ∈ g.1
      · obtain ⟨l, hl⟩ := hlab
        rw [(hlabel l hl).1]
        exact List.pairwise_singleton _ _
      · exact List.pairwise_of_forall_mem_list fun f hf _ _ l hl =>
          absurd ⟨l, hl ▸ hf⟩ hlab
    · rintro f hf f' hf' l rfl hl
      obtain ⟨j, hj, hjf⟩ := mem_genFilters hc' hfs' hf'
      exact hi j hj l (hlabel l hf).2 (hjf.targets l hl)

/-- **The body of a check is a closed segment** once its labels are resolved. -/
theorem bpfCodeGen_closed {gl : RetGlobals} {args : List String} {bpfIR : List Instruction}
    {fs : List BPFFilter} (hc : ∀ i ∈ bpfIR, i.Compares) (hb : NoBackward bpfIR)
    (h : bpfCodeGen gl args bpfIR = some fs) : Closed (program (bpfTransformLabels fs)) := by
  have hc' : ∀ i ∈ bpfIR.tail, i.Compares := fun i hi => hc i (List.mem_of_mem_tail hi)
  refine closed_of_forward (genFilters_forward hc' (hb.sublist (List.tail_sublist _)) h)
    fun f hf => ?_
  obtain ⟨i, -, hif⟩ := mem_genFilters hc' h hf
  exact hif.jumps

end SeccompPolicy
