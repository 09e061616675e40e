import SeccompPolicy.FilterText
import SeccompPolicy.FrontEnd
import SeccompPolicy.JumpFields
import SeccompPolicy.SourceToFilter

/-!
# The filter that is written

From the text of a policy to the text of its filter: `main` of `driver.cpp`,
`PolicyManager::BPFCodeGen` of `policy.cpp`.

What the parser builds has an operator with as many operands as it takes, and such code gives
filters whose opcodes the headers name. So every line that is printed compiles, but for its jumps:
a label that is not defined is left as a name, and a distance that does not fit is cut to a byte
by C without a message.

* `Operators` and `BPFFilter.Named` carry the first half through the passes, the cut and
  `BPFCodeGen`.
* `Output.LabelsDefined` and `Output.FieldsFit` are the second half. The reader of the text does
  not depend on them: what it reads has bytes in its fields in any case (`readFilter_bytes`),
  which gives the converse.

## Results

* `all_operators`, `checkIR_operators`: arithmetic has its operators, in the list of a body and in
  the filter's list.
* `finalFilters_named`: every filter can be written.
* `readFilter_program`: the written filter is the program, when every label is defined and every
  jump fits.
* `writtenFilter_iff`: for every policy text the compiler accepts it is the program exactly then.
* `openClose_written`: the text of a policy, and its filter.
-/

namespace SeccompPolicy

open ClassicBpf

/-- The lines `PolicyManager::BPFCodeGen` writes. -/
def Output.filterText (out : Output) : String :=
  SeccompPolicy.filterText (bpfTransformLabels out.finalFilters)

/-! ## Operators -/

/-- Arithmetic is a minus with one operand, or an operator of two numbers. -/
def Instruction.HasOperator : Instruction → Prop
  | .arith _ op _ b => op = .UMINUS ∧ b = .null ∨ op.isBinaryArith = true
  | _ => True

/-- All instructions of the list have their operators. -/
def Operators (code : List Instruction) : Prop := ∀ i ∈ code, i.HasOperator

theorem operators_nil : Operators [] := List.forall_mem_nil _

theorem operators_single {i : Instruction} (hi : i.HasOperator) : Operators [i] :=
  List.forall_mem_singleton.mpr hi

theorem operators_label (l : String) : Operators [.label l] := operators_single trivial

theorem Operators.append {c c' : List Instruction} (h : Operators c) (h' : Operators c') :
    Operators (c ++ c') := List.forall_mem_append.mpr ⟨h, h'⟩

theorem operators_compare {op : OpCode} {l r : CodeGenMgr → Gen} (hl : ∀ m, Operators (l m).code)
    (hr : ∀ m, Operators (r m).code) (m : CodeGenMgr) : Operators (genCompare op l r m).code :=
  ((hl m).append (hr _)).append (operators_single trivial)

theorem operators_branchCode {e : Expr} {gen : CodeGenMgr → Gen} (h : ∀ m, Operators (gen m).code)
    (m : CodeGenMgr) : Operators (genBranchCode e gen m).code := by
  unfold genBranchCode
  split
  · exact h m
  · exact operators_compare h (fun _ => operators_nil) m

/-- Expressions of the parser have their operators, by induction over the expression. -/
theorem expr_operators (e : Expr) (he : e.isParsed = true) : ∀ m, Operators (e.irGen m).code := by
  induction e with
  | ref x => exact fun _ => operators_nil
  | value n => exact fun _ => operators_nil
  | inv f ps => exact fun _ => operators_single trivial
  | op1 op e ih =>
    simp only [Expr.isParsed, Bool.and_eq_true, decide_eq_true_eq] at he
    obtain ⟨rfl | rfl, he⟩ := he
    · exact fun m => operators_branchCode (ih he) _
    · intro m
      rw [irGen_uminus]
      exact (ih he m).append (operators_single (.inl ⟨rfl, rfl⟩))
  | op2 op l r ihl ihr =>
    simp only [Expr.isParsed, Bool.and_eq_true, decide_eq_true_eq] at he
    obtain ⟨⟨hop, hl⟩, hr⟩ := he
    have hl := ihl hl
    have hr := ihr hr
    intro m
    by_cases hcmp : op.isCmp = true
    · rw [irGen_cmp hcmp]
      exact operators_compare hl hr m
    · by_cases hbin : op.isBinaryArith = true
      · rw [irGen_binary hbin]
        exact ((hl m).append (hr _)).append (operators_single (.inr hbin))
      · have hand : op = .AND ∨ op = .OR := by
          revert hop hcmp hbin
          cases op <;> decide
        rcases hand with rfl | rfl
        · exact ((operators_branchCode hl _).append (operators_label _)).append
            (operators_branchCode hr _)
        · exact ((operators_branchCode hl _).append (operators_label _)).append
            (operators_branchCode hr _)

theorem genIfHead_operators {c : Expr} (hc : c.isParsed = true) (m : CodeGenMgr) :
    Operators (genIfHead c m).code :=
  (operators_branchCode (expr_operators c hc) _).append (operators_single trivial)

mutual

theorem stmt_operators : ∀ (s : Stmt) (_ : s.isParsed = true) (m : CodeGenMgr),
    Operators (s.irGen m).code
  | .empty, _, m => by simp only [Stmt.irGen]; exact operators_nil
  | .perm p, _, m => by simp only [Stmt.irGen]; exact operators_single trivial
  | .ifThen c t, hs, m => by
    obtain ⟨hc, ht⟩ := Bool.and_eq_true_iff.mp hs
    simp only [Stmt.irGen]
    exact ((genIfHead_operators hc m).append (stmt_operators t ht _)).append
      (operators_single trivial)
  | .ifElse c t e, hs, m => by
    obtain ⟨hct, he⟩ := Bool.and_eq_true_iff.mp hs
    obtain ⟨hc, ht⟩ := Bool.and_eq_true_iff.mp hct
    have hjump : ∀ l l', Operators [.branch .INVALID .null .null l "", .label l'] := fun l l' =>
      (operators_single (i := .branch .INVALID .null .null l "") trivial).append
        (operators_single (i := .label l') trivial)
    simp only [Stmt.irGen]
    exact ((((genIfHead_operators hc m).append (stmt_operators t ht _)).append
      (hjump _ _)).append (stmt_operators e he _)).append (operators_single trivial)
  | .assign x e, hs, m => by
    simp only [Stmt.irGen]
    exact (expr_operators e hs m).append (operators_single trivial)
  | .compound ss, hs, m => by
    simp only [Stmt.irGen]
    exact all_operators ss hs m

/-- **What the parser builds has its operators.** -/
theorem all_operators : ∀ (ss : List Stmt) (_ : allParsed ss = true) (m : CodeGenMgr),
    Operators (irGenAll ss m).code
  | [], _, m => by simp only [irGenAll]; exact operators_nil
  | s :: ss, h, m => by
    obtain ⟨hs, hss⟩ := Bool.and_eq_true_iff.mp h
    simp only [irGenAll]
    exact (stmt_operators s hs m).append (all_operators ss hss _)

end

/-- The passes and the cut of the CFG keep the operators. -/
theorem checkIR_operators {ss : List Stmt} (h : allParsed ss = true) (m : CodeGenMgr)
    (syscall : String) (o : HashOrder) (gl : RetGlobals) :
    Operators (checkIR ss m syscall o gl).1 := by
  refine genBPFIR_forall (fun i hi => ?_) trivial fun i hi => ?_
  · cases i with
    | ret id rval => trivial
    | _ => cases hi
  · obtain ⟨j, hj, rfl⟩ := List.mem_map.mp ((eliminateDeadCode_sublist _).subset hi)
    have hop := all_operators ss h m j ((eraseLabels_sublist none _).subset hj)
    cases j <;> exact hop

/-! ## The filters -/

instance decidableNamedOpcode (op : List BPFConst) : Decidable (NamedOpcode op) :=
  decidable_of_iff (op ≠ [] ∧ ∀ c ∈ op, c.isNamed = true)
    ⟨fun h => ⟨h.1, h.2⟩, fun h => ⟨h.ne, h.named⟩⟩

/-- The filter can be written: its opcode has a name, and its `k` is no label. -/
inductive BPFFilter.Named : BPFFilter → Prop
  | label (l : String) : Named (.label l)
  | stmt {op : List BPFConst} {k : KField} : NamedOpcode op → k.isLabel = false → Named (.stmt op k)
  | jump {op : List BPFConst} {k : KField} (jt jf : Target) : .JA ∉ op → NamedOpcode op →
    k.isLabel = false → Named (.jump op k jt jf)

theorem getAddressMode_named {v : IRValue} (hv : v ≠ .null) (hi : ¬ v.isInstruction = true) :
    getAddressMode v = .ABS ∨ getAddressMode v = .K := by
  cases v <;> first | exact .inl rfl | exact .inr rfl | exact absurd rfl hv | exact absurd rfl hi

/-- The opcodes of arithmetic have names. -/
theorem named_alu {op : OpCode} (hop : op.isBinaryArith = true) :
    NamedOpcode [.ALU, bpfOpcode op] ∧ NamedOpcode [.ALU, .X, bpfOpcode op] := by
  cases op <;> first | decide | cases hop

theorem named_aluMode {op : OpCode} (hop : op.isBinaryArith = true) {v : IRValue} (hv : v ≠ .null)
    (hi : ¬ v.isInstruction = true) : NamedOpcode [.ALU, bpfOpcode op, getAddressMode v] := by
  rcases getAddressMode_named hv hi with h | h <;> rw [h] <;> cases op <;>
    first | decide | cases hop

/-- The opcodes of comparisons have names, and are not that of an unconditional jump. -/
theorem named_jmpMode {op : OpCode} (hop : op.isCmp = true) {v : IRValue} (hv : v ≠ .null)
    (hi : ¬ v.isInstruction = true) : NamedOpcode [.JMP, bpfOpcode op, getAddressMode v] ∧
      .JA ∉ [BPFConst.JMP, bpfOpcode op, getAddressMode v] := by
  rcases getAddressMode_named hv hi with h | h <;> rw [h] <;> cases op <;>
    first | decide | cases hop

theorem named_jmpX {op : OpCode} (hop : op.isCmp = true) :
    NamedOpcode [.JMP, .X, bpfOpcode op] ∧ .JA ∉ [BPFConst.JMP, .X, bpfOpcode op] := by
  cases op <;> first | decide | cases hop

theorem genKField_isLabel (args : List String) (v : IRValue) : (genKField args v).isLabel = false := by
  cases v <;> rfl

theorem loadArgumentOrInt_named {args : List String} {v : IRValue} :
    ∀ f ∈ loadArgumentOrInt args v, f.Named := by
  cases v with
  | mem x => exact List.forall_mem_singleton.mpr (.stmt (by decide) rfl)
  | imm n => exact List.forall_mem_singleton.mpr (.stmt (by decide) rfl)
  | _ => exact List.forall_mem_nil _

theorem spill_named (r : BPFRegs) (a b : IRValue) : ∀ f ∈ (spill r a b).1, f.Named := by
  unfold spill
  split
  · exact List.forall_mem_singleton.mpr (.stmt (by decide) rfl)
  · exact List.forall_mem_nil _

/-- The filters of an operator can be written. -/
theorem genArith_named {args : List String} {m0 : IRValue} {op : OpCode} {a b : IRValue}
    (hop : op = .UMINUS ∧ b = .null ∨ op.isBinaryArith = true) {g : List BPFFilter × IRValue}
    (hg : genArith args m0 op a b = some g) : ∀ f ∈ g.1, f.Named := by
  have hnil : ∀ f ∈ ([] : List BPFFilter), f.Named := List.forall_mem_nil _
  have hneg : ∀ f ∈ [BPFFilter.stmt [.TAX] .empty, .stmt [.LD, .W, .K] (.int 0),
      .stmt [.ALU, .SUB, .X] .empty], f.Named := by
    simp only [List.forall_mem_cons]
    exact ⟨.stmt (by decide) rfl, .stmt (by decide) rfl, .stmt (by decide) rfl, hnil⟩
  have hone : op ≠ .UMINUS → ∀ f ∈ [BPFFilter.stmt [.ALU, bpfOpcode op] .empty], f.Named :=
    fun hu => List.forall_mem_singleton.mpr
      (.stmt (named_alu (hop.resolve_left fun h => hu h.1)).1 rfl)
  have htwo : b ≠ .null → ∀ v : IRValue, v ≠ .null → ¬ v.isInstruction = true →
      (BPFFilter.stmt [.ALU, bpfOpcode op, getAddressMode v] (genKField args v)).Named :=
    fun hb v hv hi => .stmt (named_aluMode (hop.resolve_left fun h => hb h.2) hv hi)
      (genKField_isLabel args v)
  unfold genArith at hg
  split_ifs at hg with ha hb hai hu hu hab hm hbi hai <;> obtain rfl := Option.some.inj hg
  · exact hneg
  · exact hone hu
  · exact List.forall_mem_append.mpr ⟨loadArgumentOrInt_named, hneg⟩
  · exact List.forall_mem_append.mpr ⟨loadArgumentOrInt_named, hone ‹_›⟩
  · simp only [List.forall_mem_cons]
    exact ⟨.stmt (by decide) rfl,
      .stmt (named_alu (hop.resolve_left fun h => hb h.2)).2 rfl, hnil⟩
  · exact List.forall_mem_singleton.mpr (htwo hb a ha fun hai => hab ⟨hai, hbi⟩)
  · exact List.forall_mem_singleton.mpr (htwo hb b hb hbi)
  · exact List.forall_mem_append.mpr
      ⟨loadArgumentOrInt_named, List.forall_mem_singleton.mpr (htwo hb b hb hbi)⟩

/-- The filters of a branch can be written. -/
theorem genBranch_named {args : List String} {m0 : IRValue} {op : OpCode} {a b : IRValue}
    (hop : op.isCmp = true) {t f : String} {g : List BPFFilter × IRValue}
    (hg : genBranch args m0 op a b t f = some g) : ∀ f ∈ g.1, f.Named := by
  have hmode : ∀ v : IRValue, v ≠ .null → ¬ v.isInstruction = true → ∀ jt jf : Target,
      (BPFFilter.jump [.JMP, bpfOpcode op, getAddressMode v] (genKField args v) jt jf).Named :=
    fun v hv hi jt jf => .jump jt jf (named_jmpMode hop hv hi).2 (named_jmpMode hop hv hi).1
      (genKField_isLabel args v)
  unfold genBranch at hg
  simp only at hg
  split at hg
  · cases hg
  rename_i hn
  obtain ⟨ha, hb⟩ := not_or.mp hn
  split at hg
  · split at hg
    · obtain rfl := Option.some.inj hg
      simp only [List.forall_mem_cons]
      exact ⟨.stmt (by decide) rfl, .jump _ _ (named_jmpX hop).2 (named_jmpX hop).1 rfl,
        List.forall_mem_nil _⟩
    · cases hg
  rename_i hab
  split at hg
  · rename_i hbi
    obtain rfl := Option.some.inj hg
    exact List.forall_mem_singleton.mpr (hmode a ha (fun hai => hab ⟨hai, hbi⟩) _ _)
  rename_i hbi
  split at hg
  · obtain rfl := Option.some.inj hg
    exact List.forall_mem_singleton.mpr (hmode b hb hbi _ _)
  · obtain rfl := Option.some.inj hg
    exact List.forall_mem_append.mpr ⟨loadArgumentOrInt_named,
      List.forall_mem_singleton.mpr (hmode b hb hbi _ _)⟩

theorem genReturn_named (gl : RetGlobals) (id : Nat) (rval : Int) :
    ∀ f ∈ genReturn gl id rval, f.Named := by
  unfold genReturn
  split_ifs
  · exact List.forall_mem_singleton.mpr (.stmt (by decide) rfl)
  · exact List.forall_mem_singleton.mpr (.stmt (by decide) rfl)
  · exact List.forall_mem_singleton.mpr (.stmt (by decide) rfl)
  · exact List.forall_mem_nil _

theorem genInst_named {gl : RetGlobals} {args : List String} {r : BPFRegs} {i : Instruction}
    (hc : i.Compares) (ho : i.HasOperator) {g : List BPFFilter × BPFRegs}
    (hg : genInst gl args r i = some g) : ∀ f ∈ g.1, f.Named := by
  cases i with
  | label l =>
    obtain rfl := Option.some.inj hg
    exact List.forall_mem_singleton.mpr (.label l)
  | ret id rval =>
    obtain rfl := Option.some.inj hg
    exact genReturn_named gl id rval
  | call id f ps =>
    obtain rfl := Option.some.inj hg
    exact List.forall_mem_nil _
  | store a b =>
    obtain rfl := Option.some.inj hg
    exact List.forall_mem_nil _
  | arith id op a b =>
    obtain ⟨ga, hga, rfl⟩ := Option.map_eq_some_iff.mp hg
    exact List.forall_mem_append.mpr ⟨spill_named r a b, genArith_named ho hga⟩
  | branch op a b t f =>
    simp only [genInst] at hg
    split at hg
    · obtain rfl := Option.some.inj hg
      exact List.forall_mem_nil _
    · rename_i hop
      obtain ⟨gb, hgb, rfl⟩ := Option.map_eq_some_iff.mp hg
      exact genBranch_named (hc.resolve_left hop) hgb

/-- **The filters of a list can be written**, when its instructions compare and have their
operators. -/
theorem genFilters_named {gl : RetGlobals} {args : List String} {code : List Instruction}
    {r : BPFRegs} {fs : List BPFFilter} (hc : ∀ i ∈ code, i.Compares) (ho : Operators code)
    (h : genFilters gl args r code = some fs) : ∀ f ∈ fs, f.Named := by
  induction code generalizing r fs with
  | nil =>
    obtain rfl := Option.some.inj h
    exact List.forall_mem_nil _
  | cons i code ih =>
    obtain ⟨g, fs', hg, hfs', rfl⟩ := genFilters_cons h
    refine List.forall_mem_append.mpr ⟨?_, ih (fun j hj => hc j (List.mem_cons_of_mem i hj))
      (fun j hj => ho j (List.mem_cons_of_mem i hj)) hfs'⟩
    exact genInst_named (hc i List.mem_cons_self) (ho i List.mem_cons_self) hg

theorem CompiledCheck.From.bpfFilters_named {m : CodeGenMgr} {o : HashOrder} {gl : RetGlobals}
    {c : CompiledCheck} (hc : c.From m o gl) (hp : allParsed c.check.stmts = true) :
    ∀ f ∈ c.bpfFilters, f.Named := by
  obtain ⟨rest, hrest, hcmp, hgen⟩ := hc.filters'
  have hop := checkIR_operators hp m c.syscall o gl
  rw [← hc.bpfIR, hrest] at hop
  exact genFilters_named hcmp (fun i hi => hop i (List.mem_cons_of_mem _ hi)) hgen

/-- The filters of the checks can be written, with the comparisons in front of them. -/
theorem Compiled.checksFilters_named {m : CodeGenMgr} {gl gl' : RetGlobals}
    {cs : List CompiledCheck} (h : Compiled m gl cs gl')
    (hp : ∀ c ∈ cs, allParsed c.check.stmts = true) (d : String) :
    ∀ f ∈ checksFilters d cs, f.Named := by
  refine forall_checksFilters .label ?_ (fun c hc => ?_) d
  · exact fun nr l => .jump _ _ (by decide) (by decide) rfl
  · obtain ⟨m₁, o, gl₁, hfrom, -, -⟩ := h.from_mem hc
    exact hfrom.bpfFilters_named (hp c hc)

theorem footerFilters_named (deny : Bool) : ∀ f ∈ footerFilters deny, f.Named :=
  forall_footerFilters .label (.stmt (by decide) rfl) (.stmt (by decide) rfl) deny

theorem headerFilters_named (first : String) : ∀ f ∈ headerFilters first, f.Named := by
  simp only [headerFilters, List.forall_mem_cons]
  exact ⟨.stmt (by decide) rfl, .jump _ _ (by decide) (by decide) rfl, .stmt (by decide) rfl,
    .jump _ _ (by decide) (by decide) rfl, .stmt (by decide) rfl, List.forall_mem_nil _⟩

/-- **Every filter can be written**, when the bodies come from the parser. -/
theorem finalFilters_named {out : Output} {m : CodeGenMgr} {gl gl' : RetGlobals}
    (h : Compiled m gl out.checks gl') (hp : ∀ c ∈ out.checks, allParsed c.check.stmts = true) :
    ∀ f ∈ out.finalFilters, f.Named :=
  forall_finalFilters headerFilters_named (h.checksFilters_named hp _) (footerFilters_named _)

/-! ## The jump fields -/

/-- The field holds a byte. -/
def InByte (field : Option Int) : Prop := ∃ n, field = some n ∧ 0 ≤ n ∧ n ≤ 255

/-- Every label that a filter names is defined. -/
def Output.LabelsDefined (out : Output) : Prop :=
  ∀ f ∈ out.finalFilters, ∀ l ∈ f.targets, l ∈ filterLabels out.finalFilters

theorem inByte_mod (n : Int) : InByte (some (n % 256)) :=
  ⟨n % 256, rfl, by omega, by omega⟩

/-- What is read from a text has bytes in its fields. -/
theorem initialiserInsn_bytes {e : CSyntax.Tree} {i : Insn} (h : initialiserInsn e = some i) :
    InByte i.jt ∧ InByte i.jf := by
  have hzero : InByte (some 0) := inByte_mod 0
  unfold initialiserInsn at h
  split at h
  · split at h
    · obtain ⟨c, -, h⟩ := Option.bind_eq_some_iff.mp h
      obtain ⟨k, -, rfl⟩ := Option.map_eq_some_iff.mp h
      exact ⟨hzero, hzero⟩
    · cases h
  · split at h
    · obtain ⟨c, -, h⟩ := Option.bind_eq_some_iff.mp h
      obtain ⟨k, -, h⟩ := Option.bind_eq_some_iff.mp h
      obtain ⟨a, -, h⟩ := Option.bind_eq_some_iff.mp h
      obtain ⟨b, -, rfl⟩ := Option.map_eq_some_iff.mp h
      exact ⟨inByte_mod a, inByte_mod b⟩
    · cases h
  · cases h

theorem initialiserInsns_bytes {es : List CSyntax.Tree} {code : List Insn}
    (h : initialiserInsns es = some code) : ∀ i ∈ code, InByte i.jt ∧ InByte i.jf := by
  induction es generalizing code with
  | nil =>
    obtain rfl := Option.some.inj h
    exact List.forall_mem_nil _
  | cons e es ih =>
    obtain ⟨i, hi, h⟩ := Option.bind_eq_some_iff.mp h
    obtain ⟨code', hcode, rfl⟩ := Option.map_eq_some_iff.mp h
    exact List.forall_mem_cons.mpr ⟨initialiserInsn_bytes hi, ih hcode⟩

/-- What is read from any text has bytes in its jump fields: C converts the value of an
initialiser. -/
theorem readFilter_bytes {text : List Char} {code : List Insn} (h : readFilter text = some code) :
    ∀ i ∈ code, InByte i.jt ∧ InByte i.jf := by
  obtain ⟨ts, -, h⟩ := Option.bind_eq_some_iff.mp h
  obtain ⟨es, -, h⟩ := Option.bind_eq_some_iff.mp h
  exact initialiserInsns_bytes h

/-- A target whose offset is a byte has a place. -/
theorem InByte.label {ρ : String → Option Nat} {pc : Nat} {l : String}
    (h : InByte ((Target.label l).resolve ρ pc).offset) : ρ l ≠ none := by
  intro hnone
  obtain ⟨n, hn, -⟩ := h
  simp only [Target.resolve, hnone] at hn
  cases hn

/-- A target with a place is an offset. -/
theorem Target.resolve_placed {ρ : String → Option Nat} (pc : Nat) {t : Target}
    (h : ∀ l, t = .label l → ρ l ≠ none) : ∃ n, t.resolve ρ pc = .num n := by
  cases t with
  | num n => exact ⟨n, rfl⟩
  | label l =>
    cases hp : ρ l with
    | none => exact absurd hp (h l rfl)
    | some p => exact ⟨(p : Int) - pc - 1, by simp only [Target.resolve, hp]⟩

/-- A named filter names the labels in its two jump fields. -/
theorem mem_targets_named {op : List BPFConst} {k : KField} {jt jf : Target} {l : String}
    (hk : k.isLabel = false) : l ∈ (BPFFilter.jump op k jt jf).targets ↔
      jt = .label l ∨ jf = .label l := by
  cases k with
  | label l' => cases hk
  | _ => cases jt <;> cases jf <;> simp [BPFFilter.targets, eq_comm]

/-- The filter compiles when the labels it names have a place and its offsets are bytes. -/
theorem BPFFilter.Named.compiles {f : BPFFilter} (h : f.Named) (hf : f.isLabel = false)
    {ρ : String → Option Nat} {pc : Nat} (hlabels : ∀ l ∈ f.targets, ρ l ≠ none)
    (hfit : ∀ op k jt jf, f.resolve ρ pc = .jump op k jt jf →
      ∀ n, jt = .num n ∨ jf = .num n → 0 ≤ n ∧ n ≤ 255) : (f.resolve ρ pc).Compiles := by
  cases h with
  | label l => cases hf
  | stmt hop hk => exact .stmt hop hk
  | jump jt jf hja hop hk =>
    obtain ⟨a, ha⟩ := Target.resolve_placed pc fun l hl => hlabels l ((mem_targets_named hk).mpr (.inl hl))
    obtain ⟨b, hb⟩ := Target.resolve_placed pc fun l hl => hlabels l ((mem_targets_named hk).mpr (.inr hl))
    simp only [BPFFilter.resolve, if_neg hja, ha, hb] at hfit ⊢
    exact .jump hop hk (hfit _ _ _ _ rfl a (.inl rfl)) (hfit _ _ _ _ rfl b (.inr rfl))

/-- The labels of a filter with bytes in its fields have a place. -/
theorem BPFFilter.Named.labels {f : BPFFilter} (h : f.Named) {ρ : String → Option Nat} {pc : Nat}
    (hbytes : InByte (f.resolve ρ pc).insn.jt ∧ InByte (f.resolve ρ pc).insn.jf) :
    ∀ l ∈ f.targets, ρ l ≠ none := by
  intro l hl
  cases h with
  | label l' => exact absurd hl List.not_mem_nil
  | stmt hop hk => exact absurd hl List.not_mem_nil
  | jump jt jf hja hop hk =>
    simp only [BPFFilter.resolve, if_neg hja] at hbytes
    rcases (mem_targets_named hk).mp hl with rfl | rfl
    · exact hbytes.1.label
    · exact hbytes.2.label

/-! ## The text -/

section

variable {text : List Char} {policys : List Policy} {orders : Nat → HashOrder} {out : Output}

/-- The filters of a policy that was parsed can be written. -/
theorem parsed_named (hfront : frontEnd text = some policys)
    (h : compile policys orders = some out) : ∀ f ∈ out.finalFilters, f.Named := by
  obtain ⟨ls, ts, -, hts, hps⟩ := (frontEnd_iff text policys).mp hfront
  obtain ⟨⟨N, hcomp⟩, hchecks, -⟩ := compile_spec h
  exact finalFilters_named hcomp fun c hc =>
    hps.programRule.isParsed c.check (hchecks ▸ List.mem_map_of_mem hc)

/-- **The written filter is the program**, when every label is defined and every jump fits. -/
theorem readFilter_program (hfront : frontEnd text = some policys)
    (h : compile policys orders = some out) (hlabels : out.LabelsDefined) (hfit : out.FieldsFit) :
    readFilter out.filterText.toList = some out.program := by
  refine filterText_program fun f hf => ?_
  obtain ⟨k, hk⟩ := List.getElem?_of_mem hf
  obtain ⟨xs, g, ys, hsplit, hg, -, rfl⟩ := transformFrom_getElem hk
  have hmem : g ∈ out.finalFilters := hsplit ▸ List.mem_append_right xs List.mem_cons_self
  refine (parsed_named hfront h g hmem).compiles hg (fun l hl hnone => ?_)
    fun op k jt jf he => hfit op k jt jf (he ▸ hf)
  exact label2pc_eq_none.mp hnone (hlabels g hmem l hl)

/-- **When the written filter is the program**: for every policy text the compiler accepts, exactly
when every label that a jump names is defined and every distance fits its field. -/
theorem writtenFilter_iff (hfront : frontEnd text = some policys)
    (h : compile policys orders = some out) :
    readFilter out.filterText.toList = some out.program ↔ out.LabelsDefined ∧ out.FieldsFit := by
  refine ⟨fun hread => ⟨fun f hf l hl => ?_, fun op k jt jf hj n hn => ?_⟩,
    fun hboth => readFilter_program hfront h hboth.1 hboth.2⟩
  · have hlab : f.isLabel = false := by
      cases f with
      | label l' => exact absurd hl List.not_mem_nil
      | _ => rfl
    obtain ⟨xs, ys, hsplit⟩ := List.append_of_mem hf
    have hplace := transformFrom_place (fun l => label2pc l out.finalFilters) 0 xs hlab ys
    rw [← hsplit] at hplace
    have hbytes := readFilter_bytes hread _ (List.mem_map_of_mem (List.mem_of_getElem? hplace))
    have hdefined := (parsed_named hfront h f hf).labels hbytes l hl
    by_contra hnot
    exact hdefined (label2pc_eq_none.mpr hnot)
  · obtain ⟨⟨a, ha, hale⟩, b, hb, hble⟩ := readFilter_bytes hread _ (List.mem_map_of_mem hj)
    rcases hn with rfl | rfl
    · obtain rfl := Option.some.inj ha
      exact hale
    · obtain rfl := Option.some.inj hb
      exact hble

end

/-- A text of `openClose`. -/
def openCloseText : List Char :=
  "allow all; def open(x, y, z): if (x > 5) { deny; } def close(y): deny;".toList

theorem openCloseText_parsed : frontEnd openCloseText = some openClose := by
  have hlex : yylex openCloseText = some [.ALLOW, .ALL, .SEMICOLON, .DEF, .ID "open", .LPAREN,
      .ID "x", .COMMA, .ID "y", .COMMA, .ID "z", .RPAREN, .COLON, .IF, .LPAREN, .ID "x", .GT,
      .UINT 5, .RPAREN, .LBRACE, .DENY, .SEMICOLON, .RBRACE, .DEF, .ID "close", .LPAREN, .ID "y",
      .RPAREN, .COLON, .DENY, .SEMICOLON] := by decide +kernel
  rw [frontEnd, hlex]
  rfl

/-- The filter of that text. -/
theorem openClose_written : ∃ text out, frontEnd text = some openClose ∧
    compile openClose (fun _ => .insertion) = some out ∧
    readFilter out.filterText.toList = some out.program := by
  refine ⟨openCloseText, _, openCloseText_parsed, rfl,
    (@writtenFilter_iff openCloseText openClose (fun _ => .insertion) _ openCloseText_parsed
      rfl).mpr ⟨?_, ?_⟩⟩
  · unfold Output.LabelsDefined
    decide
  · exact @fieldsFit_of_distance openClose (fun _ => .insertion) _ rfl (by decide) (by decide)

end SeccompPolicy
