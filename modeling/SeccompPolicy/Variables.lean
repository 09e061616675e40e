import SeccompPolicy.GenCode
import SeccompPolicy.Targets

/-!
# The variables of a body, and the names looked up for it

Source: `CheckVariableUse` of `IR_gen.cpp`; the lookups in `arg_index` of `code_gen.cpp` and
`IR_lifter.cpp`.

`CheckVariableUse` reads the list, not the tree. Every variable of a tree that the parser builds
is an operand of some instruction, or the value of the expression itself, which the instruction it
is generated for then has as its operand; and there are no others. So the check accepts exactly
the bodies that mention declared arguments only.

The later functions look names up in `arg_index` with `operator[]`, which makes an entry `0` for a
missing key and reports nothing. `bpfLookups`, `prologueLookups` and `liftLookups` are the names
they look up, function by function.

## Results

* `expr_variables`, `stmt_variables`, `all_variables`: the variables of the generated list are
  those of the tree.
* `checkVariableUse_mentions`: the check on the list is the check on the tree.
* `eliminated_variables`: the passes add no variable.
* `checkVariableUse_iff_mentions`: the check accepts a body exactly when every variable of its
  tree is an argument; and then every name that the later functions look up is one.
* `flagsAndMode`: a body with all kinds of uses.
-/

namespace SeccompPolicy

/-! ## Trees and what they mention -/

/-- The trees of the parser: one operand for `!` and the unary minus, two for the other operators. -/
def Expr.isParsed : Expr → Bool
  | .ref _ | .value _ | .inv _ _ => true
  | .op1 op e => decide (op = .NOT ∨ op = .UMINUS) && e.isParsed
  | .op2 op l r => decide (op ≠ .NOT ∧ op ≠ .UMINUS ∧ op ≠ .INVALID) && l.isParsed && r.isParsed

/-- The variables of an expression. -/
def Expr.mentions : Expr → List String
  | .ref x => [x]
  | .value _ => []
  | .inv _ params => params
  | .op1 _ e => e.mentions
  | .op2 _ l r => l.mentions ++ r.mentions

mutual

/-- The expressions of a statement are trees of the parser. -/
def Stmt.isParsed : Stmt → Bool
  | .empty | .perm _ => true
  | .ifThen c t => c.isParsed && t.isParsed
  | .ifElse c t e => c.isParsed && t.isParsed && e.isParsed
  | .assign _ e => e.isParsed
  | .compound ss => allParsed ss

def allParsed : List Stmt → Bool
  | [] => true
  | s :: ss => s.isParsed && allParsed ss

end

mutual

/-- The variables of a statement: those it reads, passes to a helper, or assigns. -/
def Stmt.mentions : Stmt → List String
  | .empty | .perm _ => []
  | .ifThen c t => c.mentions ++ t.mentions
  | .ifElse c t e => c.mentions ++ t.mentions ++ e.mentions
  | .assign x e => x :: e.mentions
  | .compound ss => allMentions ss

def allMentions : List Stmt → List String
  | [] => []
  | s :: ss => s.mentions ++ allMentions ss

end

/-! ## The variables of the list -/

/-- The variables `CheckVariableUse` sees. -/
def codeVariables (code : List Instruction) : List String := code.flatMap Instruction.variables

theorem mem_codeVariables_append {x : String} {c c' : List Instruction} :
    x ∈ codeVariables (c ++ c') ↔ x ∈ codeVariables c ∨ x ∈ codeVariables c' := by
  rw [codeVariables, List.flatMap_append, List.mem_append]
  rfl

theorem variables_label (l : String) : codeVariables [.label l] = [] := rfl

theorem mem_variables_operands {x : String} (a b : IRValue) :
    x ∈ ([a, b].filterMap fun | .mem x => some x | _ => none) ↔
      a.mem? = some x ∨ b.mem? = some x := by
  cases a <;> cases b <;> simp [IRValue.mem?, eq_comm]

theorem mem_variables_branch {x : String} {op : OpCode} {a b : IRValue} {t f : String} :
    x ∈ codeVariables [.branch op a b t f] ↔ a.mem? = some x ∨ b.mem? = some x := by
  rw [codeVariables, List.flatMap_singleton]
  exact mem_variables_operands a b

theorem mem_variables_arith {x : String} {id : Nat} {op : OpCode} {a b : IRValue} :
    x ∈ codeVariables [.arith id op a b] ↔ a.mem? = some x ∨ b.mem? = some x := by
  rw [codeVariables, List.flatMap_singleton]
  exact mem_variables_operands a b

theorem mem_variables_store {x : String} {a b : IRValue} :
    x ∈ codeVariables [.store a b] ↔ a.mem? = some x ∨ b.mem? = some x := by
  rw [codeVariables, List.flatMap_singleton]
  exact mem_variables_operands a b

/-- The variables of what an expression appends, and the one it is. -/
def Gen.Names (g : Gen) (x : String) : Prop := x ∈ codeVariables g.code ∨ g.val.mem? = some x

/-- An expression that ends in a branch has no value. -/
theorem irGen_val_of_isBooleanOp {e : Expr} (he : e.isBooleanOp = true) (m : CodeGenMgr) :
    (e.irGen m).val = .null := by
  cases e with
  | op1 op e => cases op <;> first | rfl | exact absurd he Bool.false_ne_true
  | op2 op l r => cases op <;> first | rfl | exact absurd he Bool.false_ne_true
  | _ => exact absurd he Bool.false_ne_true

theorem genCompare_variables {op : OpCode} {l r : CodeGenMgr → Gen} (m : CodeGenMgr) (x : String) :
    x ∈ codeVariables (genCompare op l r m).code ↔ (l m).Names x ∨ (r (l m).mgr).Names x := by
  simp only [genCompare, mem_codeVariables_append, mem_variables_branch, Gen.Names]
  tauto

/-- The branch of a condition names what the condition does. -/
theorem branchGen_variables {e : Expr} {xs : List String}
    (h : ∀ m x, (e.irGen m).Names x ↔ x ∈ xs) (m : CodeGenMgr) (x : String) :
    x ∈ codeVariables (e.branchGen m).code ↔ x ∈ xs := by
  rw [Expr.branchGen, genBranchCode]
  split
  · rename_i hbool
    rw [← h m x, Gen.Names, irGen_val_of_isBooleanOp hbool]
    exact (or_iff_left (by simp [IRValue.mem?])).symm
  · rw [genCompare_variables, h m x]
    exact or_iff_left (by simp [Gen.Names, codeVariables, IRValue.mem?])

/-- **The variables of an expression** are those its code and its value name. -/
theorem expr_variables (e : Expr) (he : e.isParsed = true) (m : CodeGenMgr) (x : String) :
    (e.irGen m).Names x ↔ x ∈ e.mentions := by
  induction e generalizing m x with
  | ref y => simp [Expr.irGen, Gen.Names, codeVariables, IRValue.mem?, Expr.mentions, eq_comm]
  | value n => simp [Expr.irGen, Gen.Names, codeVariables, IRValue.mem?, Expr.mentions]
  | inv f params =>
    simp [Expr.irGen, Gen.Names, codeVariables, Instruction.variables, IRValue.mem?, Expr.mentions]
  | op1 op e ih =>
    simp only [Expr.isParsed, Bool.and_eq_true, decide_eq_true_eq] at he
    obtain ⟨rfl | rfl, he⟩ := he
    · have h := branchGen_variables (ih he)
      simp only [Expr.irGen, if_true, genNot, Gen.Names, IRValue.mem?, reduceCtorEq, or_false]
      exact h _ x
    · rw [irGen_uminus]
      simp only [genMinus, Gen.Names, mem_codeVariables_append, mem_variables_arith, IRValue.mem?,
        reduceCtorEq, or_false]
      exact ih he m x
  | op2 op l r ihl ihr =>
    simp only [Expr.isParsed, Bool.and_eq_true, decide_eq_true_eq] at he
    obtain ⟨⟨hop, hl⟩, hr⟩ := he
    have hbl := branchGen_variables (ihl hl)
    have hbr := branchGen_variables (ihr hr)
    rw [Expr.mentions, List.mem_append]
    by_cases hcmp : op.isCmp = true
    · rw [irGen_cmp hcmp, Gen.Names, genCompare_variables]
      simp only [genCompare, IRValue.mem?, reduceCtorEq, or_false]
      exact or_congr (ihl hl m x) (ihr hr _ x)
    · by_cases hbin : op.isBinaryArith = true
      · rw [irGen_binary hbin]
        simp only [genBinary, Gen.Names, mem_codeVariables_append, mem_variables_arith,
          IRValue.mem?, reduceCtorEq, or_false]
        rw [← ihl hl m x, ← ihr hr (l.irGen m).mgr x, Gen.Names, Gen.Names]
        tauto
      · have hand : op = .AND ∨ op = .OR := by
          revert hop hcmp hbin
          cases op <;> decide
        rcases hand with rfl | rfl
        · simp only [Expr.irGen, if_true, genAnd, Gen.Names, mem_codeVariables_append,
            variables_label, IRValue.mem?, reduceCtorEq, or_false, List.not_mem_nil]
          exact or_congr (hbl _ x) (hbr _ x)
        · simp only [Expr.irGen, reduceCtorEq, if_false, if_true, genOr, Gen.Names,
            mem_codeVariables_append, variables_label, IRValue.mem?, or_false, List.not_mem_nil]
          exact or_congr (hbl _ x) (hbr _ x)

theorem genIfHead_variables {c : Expr} (hc : c.isParsed = true) (m : CodeGenMgr) (x : String) :
    x ∈ codeVariables (genIfHead c m).code ↔ x ∈ c.mentions := by
  simp only [genIfHead, mem_codeVariables_append, variables_label, List.not_mem_nil, or_false]
  exact branchGen_variables (expr_variables c hc) _ x

mutual

/-- The variables of a statement. -/
theorem stmt_variables : ∀ (s : Stmt) (_ : s.isParsed = true) (m : CodeGenMgr) (x : String),
    x ∈ codeVariables (s.irGen m).code ↔ x ∈ s.mentions
  | .empty, _, _, _ => Iff.rfl
  | .perm _, _, _, _ => Iff.rfl
  | .ifThen c t, hs, m, x => by
    obtain ⟨hc, ht⟩ := Bool.and_eq_true_iff.mp hs
    simp only [Stmt.irGen, Stmt.mentions, mem_codeVariables_append, variables_label,
      List.mem_append, List.not_mem_nil, or_false]
    exact or_congr (genIfHead_variables hc m x) (stmt_variables t ht _ x)
  | .ifElse c t e, hs, m, x => by
    obtain ⟨hct, he⟩ := Bool.and_eq_true_iff.mp hs
    obtain ⟨hc, ht⟩ := Bool.and_eq_true_iff.mp hct
    have hjump : ∀ out l, codeVariables [.branch .INVALID .null .null out "", .label l] = [] :=
      fun _ _ => rfl
    simp only [Stmt.irGen, Stmt.mentions, mem_codeVariables_append, variables_label, hjump,
      List.mem_append, List.not_mem_nil, or_false]
    exact or_congr (or_congr (genIfHead_variables hc m x) (stmt_variables t ht _ x))
      (stmt_variables e he _ x)
  | .assign y e, hs, m, x => by
    simp only [Stmt.irGen, Stmt.mentions, mem_codeVariables_append, mem_variables_store,
      List.mem_cons, IRValue.mem?, Option.some.injEq]
    rw [← expr_variables e hs m x, Gen.Names, eq_comm]
    tauto
  | .compound ss, hs, m, x => all_variables ss hs m x

/-- The variables of a list of statements. -/
theorem all_variables : ∀ (ss : List Stmt) (_ : allParsed ss = true) (m : CodeGenMgr) (x : String),
    x ∈ codeVariables (irGenAll ss m).code ↔ x ∈ allMentions ss
  | [], _, _, _ => Iff.rfl
  | s :: ss, h, m, x => by
    obtain ⟨hs, hss⟩ := Bool.and_eq_true_iff.mp h
    simp only [irGenAll, allMentions, mem_codeVariables_append, List.mem_append]
    exact or_congr (stmt_variables s hs m x) (all_variables ss hss _ x)

end

theorem checkVariableUse_eq_true {code : List Instruction} {args : List String} :
    checkVariableUse code args = true ↔ ∀ x ∈ codeVariables code, x ∈ args := by
  simp only [checkVariableUse, codeVariables, List.all_eq_true, decide_eq_true_eq, List.mem_flatMap]
  exact ⟨fun h x ⟨i, hi, hx⟩ => h i hi x hx, fun h i hi x hx => h x ⟨i, hi, hx⟩⟩

/-- The check on the list is the check on the tree. -/
theorem checkVariableUse_mentions {ss : List Stmt} (hss : allParsed ss = true) (m : CodeGenMgr)
    (args : List String) : checkVariableUse (irGenAll ss m).code args = true ↔
      ∀ x ∈ allMentions ss, x ∈ args := by
  rw [checkVariableUse_eq_true]
  exact forall_congr' fun x => imp_congr_left (all_variables ss hss m x)

/-! ## Lookups in `arg_index` -/

/-- The names `BPFCodeGen` looks up, in `GenK_Field` and `LoadArgumentOrInt`. -/
def bpfLookups (bpfIR : List Instruction) : List String :=
  bpfIR.flatMap fun
    | .arith _ _ a b | .branch _ a b _ _ => a.mem?.toList ++ b.mem?.toList
    | _ => []

/-- The names `GenPtracePrologue` looks up: those of `args_used`, and the destinations of stores for
`args_assigned`. -/
def prologueLookups (blocks : List BasicBlock) : List String :=
  blocks.flatMap fun B => B.insts.flatMap fun i =>
    i.argsUsed ++ match i with
      | .store _ dst => [dst.dst]
      | _ => []

/-- The names `GenBasicBlockCode` looks up: those assigned. -/
def liftLookups (codeBlocks : List (String × List PtraceCode)) : List String :=
  codeBlocks.flatMap fun e => e.2.flatMap fun
    | .assign dst _ => [dst]
    | _ => []

/-! ## No missing key -/

/-- What the passes leave is generated, but for the labels of branches, and names variables that
`CheckVariableUse` has seen. -/
theorem eliminated_variables {ss : List Stmt} {m : CodeGenMgr} {i : Instruction}
    (hi : i ∈ eliminateDeadCode (mergedIR ss m)) :
    (∀ x ∈ i.variables, x ∈ codeVariables (irGenAll ss m).code) ∧
      ∀ src dst, i = .store src dst → ∃ x, dst = .mem x := by
  obtain ⟨j, hj, rfl⟩ := List.mem_map.mp ((eliminateDeadCode_sublist _).subset hi)
  have hj := (eraseLabels_sublist none _).subset hj
  refine ⟨fun x hx => List.mem_flatMap.mpr ⟨j, hj, by cases j <;> exact hx⟩, fun src dst he => ?_⟩
  have hgen := all_generated ss m j hj
  cases hgen with
  | store src' x => exact ⟨x, by cases he; rfl⟩
  | _ => cases he

theorem checkCFG_variables {ss : List Stmt} {m : CodeGenMgr} {syscall : String} {B : BasicBlock}
    (hB : B ∈ checkCFG ss m syscall) {i : Instruction} (hi : i ∈ B.insts) :
    (∀ x ∈ i.variables, x ∈ codeVariables (irGenAll ss m).code) ∧
      ∀ src dst, i = .store src dst → ∃ x, dst = .mem x := by
  have hflat : i ∈ flatten (checkCFG ss m syscall) :=
    List.mem_flatMap.mpr ⟨B, hB, List.mem_cons_of_mem _ hi⟩
  rw [checkCFG, flatten_buildCFG] at hflat
  rcases List.mem_cons.mp hflat with rfl | hmem
  · exact ⟨fun x hx => absurd hx List.not_mem_nil, fun _ _ he => by cases he⟩
  · exact eliminated_variables hmem

/-- The instructions of the filter's list that name variables are those of the CFG. -/
theorem checkIR_variables {ss : List Stmt} {m : CodeGenMgr} {syscall : String} {o : HashOrder}
    {gl : RetGlobals} {i : Instruction} (hi : i ∈ (checkIR ss m syscall o gl).1) :
    ∀ x ∈ i.variables, x ∈ codeVariables (irGenAll ss m).code := by
  by_cases hret : i.isReturn = true
  · cases i with
    | ret id rval => exact fun x hx => absurd hx List.not_mem_nil
    | _ => exact absurd hret Bool.false_ne_true
  · have hmem : i ∈ flatten (checkCFG ss m syscall) :=
      (genBPFIR_kept _ gl).subset (List.mem_filter.mpr ⟨hi, by simpa using hret⟩)
    rw [checkCFG, flatten_buildCFG] at hmem
    rcases List.mem_cons.mp hmem with rfl | hmem
    · exact fun x hx => absurd hx List.not_mem_nil
    · exact (eliminated_variables hmem).1

theorem bpfLookups_subset {code : List Instruction} {x : String} (h : x ∈ bpfLookups code) :
    ∃ i ∈ code, x ∈ i.variables := by
  obtain ⟨i, hi, hx⟩ := List.mem_flatMap.mp h
  refine ⟨i, hi, ?_⟩
  cases i with
  | arith id op a b => exact (mem_variables_operands a b).mpr (by simpa using hx)
  | branch op a b t f => exact (mem_variables_operands a b).mpr (by simpa using hx)
  | _ => exact absurd hx List.not_mem_nil

theorem prologueLookups_subset {blocks : List BasicBlock} {x : String}
    (hstore : ∀ B ∈ blocks, ∀ i ∈ B.insts, ∀ src dst, i = .store src dst → ∃ y, dst = .mem y)
    (h : x ∈ prologueLookups blocks) : ∃ B ∈ blocks, ∃ i ∈ B.insts, x ∈ i.variables := by
  obtain ⟨B, hB, hx⟩ := List.mem_flatMap.mp h
  obtain ⟨i, hi, hx⟩ := List.mem_flatMap.mp hx
  refine ⟨B, hB, i, hi, ?_⟩
  rcases List.mem_append.mp hx with hx | hx
  · cases i with
    | call id f args => exact hx
    | store src dst =>
      exact (mem_variables_operands src dst).mpr
        (.inl (by simpa [Instruction.argsUsed] using hx))
    | arith id op a b =>
      exact (mem_variables_operands a b).mpr (by simpa [Instruction.argsUsed] using hx)
    | branch op a b t f =>
      exact (mem_variables_operands a b).mpr (by simpa [Instruction.argsUsed] using hx)
    | _ => exact absurd hx List.not_mem_nil
  · cases i with
    | store src dst =>
      obtain ⟨y, rfl⟩ := hstore B hB _ hi src dst rfl
      obtain rfl := List.mem_singleton.mp hx
      exact (mem_variables_operands src _).mpr (.inr rfl)
    | _ => exact absurd hx List.not_mem_nil

theorem liftLookups_subset {g : List BasicBlock} {blocks : PtraceBasicBlock} {x : String}
    (hstore : ∀ B ∈ g, ∀ i ∈ B.insts, ∀ src dst, i = .store src dst → ∃ y, dst = .mem y)
    (h : x ∈ liftLookups (genPtraceCode g blocks)) : ∃ B ∈ g, ∃ i ∈ B.insts, x ∈ i.variables := by
  obtain ⟨e, he, hx⟩ := List.mem_flatMap.mp h
  obtain ⟨p, hp, hx⟩ := List.mem_flatMap.mp hx
  obtain ⟨⟨B, b⟩, hB, rfl⟩ := List.mem_map.mp he
  have hmem : B ∈ g :=
    (List.mem_zipIdx' (List.mem_filter.mp (List.mem_filter.mp hB).1).1).2 ▸ List.getElem_mem _
  obtain ⟨i, hi, hlift⟩ := List.mem_filterMap.mp hp
  refine ⟨B, hmem, i, hi, ?_⟩
  obtain ⟨a, b, t, f, rfl, rfl⟩ | ⟨op, a, b, t, f, -, rfl, rfl⟩ | ⟨src, dst, rfl, rfl⟩ |
    ⟨id, rval, rfl, hp⟩ := Instruction.lift_cases hlift
  · exact absurd hx List.not_mem_nil
  · exact absurd hx List.not_mem_nil
  · obtain ⟨y, rfl⟩ := hstore B hmem _ hi src dst rfl
    obtain rfl := List.mem_singleton.mp hx
    exact (mem_variables_operands src _).mpr (.inr rfl)
  · rcases hp with rfl | rfl | rfl <;> exact absurd hx List.not_mem_nil

/-- **`CheckVariableUse` is exact.** It accepts a body exactly when every variable of its tree is an
argument; and then every name that the later functions look up is a key of `arg_index`, which holds
the arguments. -/
theorem checkVariableUse_iff_mentions {ss : List Stmt} (hss : allParsed ss = true) (m : CodeGenMgr)
    (args : List String) (syscall : String) (o : HashOrder) (gl : RetGlobals) :
    (checkVariableUse (irGenAll ss m).code args = true ↔ ∀ x ∈ allMentions ss, x ∈ args) ∧
    (checkVariableUse (irGenAll ss m).code args = true →
      let g := checkCFG ss m syscall
      let blocks := (colorCode g o).1
      (∀ x ∈ bpfLookups (checkIR ss m syscall o gl).1, x ∈ args) ∧
        (∀ x ∈ prologueLookups (blocks.filterMap fun e => g[e.1]?), x ∈ args) ∧
        ∀ x ∈ liftLookups (genPtraceCode g blocks), x ∈ args) := by
  refine ⟨checkVariableUse_mentions hss m args, fun h => ?_⟩
  have hargs := checkVariableUse_eq_true.mp h
  intro g blocks
  have hblocks : ∀ B ∈ blocks.filterMap fun e => g[e.1]?, B ∈ g := fun B hB => by
    obtain ⟨e, -, he⟩ := List.mem_filterMap.mp hB
    exact List.mem_of_getElem? he
  have hstore : ∀ B ∈ g, ∀ i ∈ B.insts, ∀ src dst, i = .store src dst → ∃ y, dst = .mem y :=
    fun B hB i hi => (checkCFG_variables hB hi).2
  refine ⟨fun x hx => ?_, fun x hx => ?_, fun x hx => ?_⟩
  · obtain ⟨i, hi, hx⟩ := bpfLookups_subset hx
    exact hargs x (checkIR_variables hi x hx)
  · obtain ⟨B, hB, i, hi, hx⟩ := prologueLookups_subset (fun B hB => hstore B (hblocks B hB)) hx
    exact hargs x ((checkCFG_variables (hblocks B hB) hi).1 x hx)
  · obtain ⟨B, hB, i, hi, hx⟩ := liftLookups_subset hstore hx
    exact hargs x ((checkCFG_variables hB hi).1 x hx)

/-- `if (!(flags == -mode)) flags = f(mode);` -/
def flagsAndMode : List Stmt :=
  [.ifThen (.op1 .NOT (.op2 .EQ (.ref "flags") (.op1 .UMINUS (.ref "mode"))))
    (.assign "flags" (.inv "f" ["mode"]))]

theorem checkVariableUse_flagsAndMode :
    checkVariableUse (irGenAll flagsAndMode {}).code ["flags", "mode"] = true ∧
      ∀ x ∈ bpfLookups (checkIR flagsAndMode {} "open" .insertion (.initial 0)).1,
        x ∈ ["flags", "mode"] := by
  obtain ⟨hiff, hkeys⟩ := @checkVariableUse_iff_mentions flagsAndMode rfl {}
    ["flags", "mode"] "open" .insertion (.initial 0)
  have h := hiff.mpr (by decide)
  exact ⟨h, (hkeys h).1⟩

end SeccompPolicy
