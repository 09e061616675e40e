import SeccompPolicy.Linking
import SeccompPolicy.SuppliedTrees
import SeccompPolicy.Tracer
import SeccompPolicy.Variables

/-!
# The prologue of a check and the variables of its text

Source: `GenPtracePrologue` of `code_gen.cpp`, `IRLifter::GenBasicBlockCode` of `IR_lifter.cpp`.

`GenPtracePrologue` collects the arguments to declare from the instructions of the ptrace blocks;
`GenCode` prints the trees of branches and stores. A tree that is printed has its instructions in
the block of the branch or the store (`suppliedBlock`), so every argument that the text reads has
been collected. An argument that the text only assigns has not: the second set the prologue
builds, `args_assigned`, is never used.

`PrologueComplete` is what the C compiler and the reader ask for: every name of the text is
declared once, in front of the start label, and each that is read is initialised behind it from
the argument of its own position.

## Results

* `genCode_names`, `assigned_genCode`: the names in the text of a check are those of its lifted
  blocks, and all their assignments are in it.
* `compile_variables`: the variables of a compiled check are its arguments.
* `reads_of_expr`, `assigns_iff`: what is lifted and what the blocks hold agree.
* `prologue_complete_iff`: for a compiled check with ptrace code, at most `num_args` arguments of
  different names and no null operand lifted, the prologue is complete exactly when every argument
  that is assigned is read.
* `swappedFlags_complete`, `noFlags_undeclared`: `flags = 0; allow;` assigns a variable that
  nothing declares.
-/

namespace SeccompPolicy

open StructuredCode Forest

/-! ## The names in a text -/

/-- The variable a line assigns. -/
def CLine.assigned? : CLine → Option String
  | .assign _ x _ => some x
  | _ => none

/-- The variables the lines of a text assign. -/
def textAssigned (text : List CStmt) : List String := (codeLines text).filterMap CLine.assigned?

/-- The variable a line declares. -/
def CLine.declared? : CLine → Option String
  | .declare _ x => some x
  | _ => none

/-- The variables the lines of a text declare. -/
def textDeclared (text : List CStmt) : List String := (codeLines text).filterMap CLine.declared?

/-- The variable a line initialises from `GET_ARG`, and the number of the argument. -/
def CLine.getArg? : CLine → Option (String × Nat)
  | .copyOutString x i | .copyOutMem x i _ | .getArg _ x i => some (x, i)
  | _ => none

/-- The variables a text initialises from `GET_ARG`. -/
def textGetArgs (text : List CStmt) : List (String × Nat) :=
  (codeLines text).filterMap CLine.getArg?

/-- The names in a text: read or assigned. -/
def textNames (text : List CStmt) : List String := textReads text ++ textAssigned text

/-- The expressions of a `PtraceCode`. -/
def PtraceCode.exprs : PtraceCode → List CExpr
  | .if_ c _ _ => [c.left, c.right]
  | .assign _ e => [e]
  | _ => []

/-- The variable a `PtraceCode` assigns. -/
def PtraceCode.dst? : PtraceCode → Option String
  | .assign x _ => some x
  | _ => Option.none

/-- The names in a `PtraceCode`. -/
def PtraceCode.names (p : PtraceCode) : List String :=
  p.dst?.toList ++ p.exprs.flatMap CExpr.vars

theorem mem_textNames_append {x : String} {a b : List CStmt} :
    x ∈ textNames (a ++ b) ↔ x ∈ textNames a ∨ x ∈ textNames b := by
  simp only [textNames, textReads, textAssigned, codeLines_append, codeConds_append,
    List.flatMap_append, List.filterMap_append, List.mem_append]
  tauto

theorem mem_textNames_flatMap {β : Type*} {x : String} (ys : List β) (g : β → List CStmt) :
    x ∈ textNames (ys.flatMap g) ↔ ∃ y ∈ ys, x ∈ textNames (g y) := by
  induction ys with
  | nil => simp [textNames, textReads, textAssigned, codeLines, codeConds]
  | cons y ys ih =>
    simp only [List.flatMap_cons, mem_textNames_append, ih, List.mem_cons, exists_eq_or_imp]

namespace IRLifter

variable {L : IRLifter}

theorem reads_copyBack {x y : String} {e : CExpr} (h : y ∈ (L.copyBack x e).reads) :
    y = x ∨ y ∈ e.vars := by
  obtain ⟨i, hc | ⟨size, hc⟩ | hc⟩ := L.copyBack_cases x e <;> rw [hc] at h
  · exact .inl (List.mem_singleton.mp h)
  · exact .inl (List.mem_singleton.mp h)
  · exact .inr h

theorem assigned?_copyBack (x : String) (e : CExpr) : (L.copyBack x e).assigned? = none := by
  obtain ⟨i, h | ⟨size, h⟩ | h⟩ := L.copyBack_cases x e <;> rw [h] <;> rfl

/-- The names in the text of a `PtraceCode`: its own, and those of its arms. -/
theorem names_genPtrace {arm : String → List CStmt × List String} {p : PtraceCode} {x : String}
    (hx : x ∈ textNames (L.genPtrace arm p).1) :
    x ∈ p.names ∨ ∃ t ∈ p.armTargets, x ∈ textNames (arm t).1 := by
  cases p with
  | if_ c t f =>
    simp only [genPtrace, textNames, textReads, textAssigned, codeLines, codeConds, Stmt.lines,
      Stmt.conds, List.append_nil, List.flatMap_append, List.flatMap_cons, List.filterMap_append,
      List.mem_append] at hx
    simp only [PtraceCode.names, PtraceCode.dst?, PtraceCode.exprs, PtraceCode.armTargets,
      textNames, textReads, textAssigned, List.mem_append, List.flatMap_cons, List.flatMap_nil,
      Option.toList_none, List.nil_append, List.append_nil, List.mem_cons, List.not_mem_nil,
      or_false, exists_eq_or_imp, exists_eq_left]
    tauto
  | assign y e =>
    refine .inl (List.mem_append.mpr ?_)
    simp only [genPtrace, textNames, textReads, textAssigned, codeLines, codeConds, Stmt.lines,
      Stmt.conds, List.append_nil, List.flatMap_cons, List.flatMap_nil, List.mem_append,
      List.singleton_append, List.mem_filterMap] at hx
    rcases hx with (hx | hx) | ⟨line, hline, hx⟩
    · exact .inr (by simpa [PtraceCode.exprs, CLine.reads] using hx)
    · rcases reads_copyBack hx with rfl | hx
      · exact .inl List.mem_cons_self
      · exact .inr (by simpa [PtraceCode.exprs] using hx)
    · rcases List.mem_cons.mp hline with rfl | hline
      · obtain rfl := Option.some.inj hx
        exact .inl List.mem_cons_self
      · obtain rfl := List.mem_singleton.mp hline
        rw [assigned?_copyBack] at hx
        cases hx
  | _ => exact absurd hx List.not_mem_nil

/-- A name in the text is a name of a lifted block. -/
def FromBlocks (L : IRLifter) (text : List CStmt) : Prop :=
  ∀ x ∈ textNames text, ∃ e ∈ L.codeBlocks, ∃ p ∈ e.2, x ∈ p.names

theorem genBasicBlockCode_names (depth : Nat) (label : String) :
    L.FromBlocks (L.genBasicBlockCode depth label).1 := by
  induction depth generalizing label with
  | zero => exact fun x hx => absurd hx List.not_mem_nil
  | succ depth ih =>
    intro x hx
    have harm : ∀ t, L.FromBlocks (L.arm depth t).1 := by
      intro t
      unfold arm
      split
      · exact ih t
      · exact fun x hx => absurd hx List.not_mem_nil
    simp only [genBasicBlockCode, mem_textNames_append, List.flatMap_map,
      mem_textNames_flatMap] at hx
    rcases hx with hx | ⟨p, hp, hx⟩
    · unfold genLabel at hx
      split at hx <;> exact absurd hx List.not_mem_nil
    · rcases names_genPtrace hx with hx | ⟨t, -, hx⟩
      · exact ⟨_, mem_codeBlocks_of_code hp, p, hp, hx⟩
      · exact harm t x hx

/-- **The names in the text of a check** are names of its lifted blocks. -/
theorem genCode_names : L.FromBlocks L.genCode := by
  refine L.genRounds_keep (P := fun acc => L.FromBlocks acc.1) (fun acc label h x hx => ?_)
    L.codeBlocks fun x hx => absurd hx List.not_mem_nil
  rcases mem_textNames_append.mp hx with hx | hx
  · exact h x hx
  · exact genBasicBlockCode_names _ _ x hx

/-- The assignments of the blocks used so far are in the text. -/
def Assigns (L : IRLifter) (acc : List CStmt × List String) : Prop :=
  ∀ l ∈ acc.2, ∀ p ∈ L.code l, ∀ x ∈ p.dst?, x ∈ textAssigned acc.1

theorem textAssigned_append (a b : List CStmt) :
    textAssigned (a ++ b) = textAssigned a ++ textAssigned b := by
  rw [textAssigned, codeLines_append, List.filterMap_append]
  rfl

theorem mem_textAssigned_flatMap {β : Type*} {x : String} {ys : List β} {g : β → List CStmt} {y : β}
    (hy : y ∈ ys) (hx : x ∈ textAssigned (g y)) : x ∈ textAssigned (ys.flatMap g) := by
  obtain ⟨pre, post, rfl⟩ := List.append_of_mem hy
  simp only [List.flatMap_append, List.flatMap_cons, textAssigned_append, List.mem_append]
  exact .inr (.inl hx)

theorem genBasicBlockCode_assigns (depth : Nat) (label : String) :
    L.Assigns (L.genBasicBlockCode depth label) := by
  induction depth generalizing label with
  | zero => exact fun l hl => absurd hl List.not_mem_nil
  | succ depth ih =>
    have harm : ∀ t, L.Assigns (L.arm depth t) := by
      intro t
      unfold arm
      split
      · exact ih t
      · exact fun l hl => absurd hl List.not_mem_nil
    intro l hl p hp x hx
    simp only [genBasicBlockCode, textAssigned_append, List.mem_append]
    refine .inr ?_
    rw [List.flatMap_map]
    simp only [genBasicBlockCode, List.mem_cons, List.flatMap_map, List.mem_flatMap] at hl
    rcases hl with rfl | ⟨q, hq, hl⟩
    · refine mem_textAssigned_flatMap hp ?_
      cases p with
      | assign y e => exact Option.some.inj hx ▸ List.mem_cons_self
      | _ => cases hx
    · refine mem_textAssigned_flatMap hq ?_
      cases q with
      | if_ c t f =>
        have hlines : textAssigned (L.genPtrace (L.arm depth) (.if_ c t f)).1 =
            textAssigned (L.arm depth t).1 ++ textAssigned (L.arm depth f).1 := by
          simp [genPtrace, textAssigned, codeLines, Stmt.lines]
        rw [hlines, List.mem_append]
        exact (List.mem_append.mp hl).imp (fun hl => harm t l hl p hp x hx)
          fun hl => harm f l hl p hp x hx
      | _ => exact absurd hl List.not_mem_nil

/-- **The assignments of all lifted blocks are in the text.** -/
theorem assigned_genCode (hnd : L.blockOrder.Nodup) {e : String × List PtraceCode}
    (he : e ∈ L.codeBlocks) {p : PtraceCode} (hp : p ∈ e.2) {x : String} (hx : x ∈ p.dst?) :
    x ∈ textAssigned L.genCode := by
  have hassigns : L.Assigns (L.codeBlocks.foldl L.genRound ([], [])) := by
    refine L.genRounds_keep (P := L.Assigns) (fun acc label h l hl p hp x hx => ?_) L.codeBlocks
      fun l hl => absurd hl List.not_mem_nil
    rw [textAssigned_append, List.mem_append]
    exact (List.mem_append.mp hl).imp (fun hl => h l hl p hp x hx)
      fun hl => genBasicBlockCode_assigns _ _ l hl p hp x hx
  have horder : e.1 ∈ L.blockOrder := List.mem_map_of_mem he
  have hused : e.1 ∈ L.printed :=
    L.printed_eq ▸ mem_foldl_visit (List.length_pos_of_mem horder).ne' (.inr horder)
  refine hassigns e.1 hused p ?_ x hx
  rw [code_of_mem hnd he]
  exact hp

end IRLifter

/-! ## What the ptrace blocks read -/

/-- The variables an instruction reads: its operands, and the arguments of a helper. -/
def Instruction.reads : Instruction → List String
  | .call _ _ args => args
  | i => i.operands.filterMap IRValue.mem?

theorem argsUsed_eq_reads (i : Instruction) : i.argsUsed = i.reads := by
  have hpair : ∀ a b : IRValue, a.mem?.toList ++ b.mem?.toList = [a, b].filterMap IRValue.mem? := by
    intro a b
    cases a <;> cases b <;> rfl
  cases i with
  | arith id op a b => exact hpair a b
  | branch op a b t f => exact hpair a b
  | store a b => cases a <;> rfl
  | _ => rfl

theorem reads_subset_variables {i : Instruction} {x : String} (hx : x ∈ i.reads) :
    x ∈ i.variables := by
  cases i with
  | call id f args => exact hx
  | arith id op a b | branch op a b t f =>
    obtain ⟨v, hv, hmem⟩ := List.mem_filterMap.mp hx
    simp only [Instruction.operands, List.mem_cons, List.not_mem_nil, or_false] at hv
    refine (mem_variables_operands a b).mpr ?_
    rcases hv with rfl | rfl
    · exact .inl hmem
    · exact .inr hmem
  | store a b =>
    obtain ⟨v, hv, hmem⟩ := List.mem_filterMap.mp hx
    obtain rfl := List.mem_singleton.mp hv
    exact (mem_variables_operands v b).mpr (.inl hmem)
  | _ => exact absurd hx List.not_mem_nil

/-- An argument that an instruction of a ptrace block reads. -/
def CompiledCheck.Reads (c : CompiledCheck) (x : String) : Prop :=
  ∃ B ∈ c.ptraceBlocks, ∃ i ∈ B.insts, x ∈ i.reads

/-- An argument that a lifted block assigns. -/
def CompiledCheck.Assigns (c : CompiledCheck) (x : String) : Prop :=
  ∃ b B src, c.cfg[b]? = some B ∧ Lifted c.cfg c.ptraceBbs b ∧ .store src (.mem x) ∈ B.insts

/-- `LiftExpr` has been given no null pointer, through which it would read. -/
def CExpr.isLifted : CExpr → Bool
  | .unknown => false
  | .neg e => e.isLifted
  | .bin _ l r => l.isLifted && r.isLifted
  | _ => true

theorem liftExpr_isLifted (v : IRValue) : (liftExpr v).isLifted = v.whole := by
  induction v with
  | arith id op a b iha ihb =>
    by_cases hop : op = .UMINUS
    · simp [liftExpr, hop, CExpr.isLifted, IRValue.whole, iha]
    · simp [liftExpr, hop, CExpr.isLifted, IRValue.whole, iha, ihb]
  | _ => rfl

/-- No null operand is lifted for the check. -/
def CompiledCheck.Lifts (c : CompiledCheck) : Prop :=
  ∀ e ∈ c.lifter.codeBlocks, ∀ p ∈ e.2, ∀ x ∈ p.exprs, x.isLifted = true

instance (c : CompiledCheck) (x : String) : Decidable (c.Reads x) :=
  inferInstanceAs (Decidable (∃ B ∈ c.ptraceBlocks, ∃ i ∈ B.insts, x ∈ i.reads))

instance (c : CompiledCheck) : Decidable c.Lifts :=
  inferInstanceAs (Decidable (∀ e ∈ c.lifter.codeBlocks, ∀ p ∈ e.2, ∀ x ∈ p.exprs, _ = true))

/-- The prologue declares every name of the text once, before the start label, and initialises each
that is read from the argument of its own position, behind it. -/
def CompiledCheck.PrologueComplete (c : CompiledCheck) : Prop :=
  ∃ before after, genPtracePrologue c.syscallInfo c.check.args c.ptraceBlocks =
      before ++ .label (c.syscallInfo.name ++ "_start") :: after ∧
    (∀ x ∈ textNames c.lifter.genCode,
      (textDeclared before).count x = 1 ∧ x ∉ textDeclared after) ∧
    ∀ x ∈ textReads c.lifter.genCode, ∃ i, c.check.args[i]? = some x ∧
      ∀ j, (x, j) ∈ textGetArgs after ↔ j = i

/-! ## Checks that have been compiled -/

theorem irGenChecks_accepts {cs : List SyscallCheck} {m m' : CodeGenMgr}
    {cfgs : List (SyscallCheck × List BasicBlock)} (h : irGenChecks cs m = some (cfgs, m')) :
    ∀ e ∈ cfgs, ∃ m₁, e.2 = checkCFG e.1.stmts m₁ e.1.syscall ∧
      checkVariableUse (irGenAll e.1.stmts m₁).code e.1.args = true := by
  induction cs generalizing m cfgs with
  | nil =>
    cases h
    exact fun e he => absurd he List.not_mem_nil
  | cons c cs ih =>
    obtain ⟨rest, huse, hrest, he⟩ := irGenChecks_cons h
    cases he
    intro e he
    rcases List.mem_cons.mp he with rfl | he
    · exact ⟨m, rfl, huse⟩
    · exact ih hrest e he

theorem codeGenChecks_cfg {orders : Nat → HashOrder} {cfgs : List (SyscallCheck × List BasicBlock)}
    {i : Nat} {gl gl' : RetGlobals} {ccs : List CompiledCheck}
    (h : codeGenChecks orders i cfgs gl = some (ccs, gl')) :
    ∀ c ∈ ccs, (c.check, c.cfg) ∈ cfgs := by
  induction cfgs generalizing i gl ccs with
  | nil =>
    cases h
    exact fun c hc => absurd hc List.not_mem_nil
  | cons e cfgs ih =>
    obtain ⟨cc, gl₁, rest, hcc, hrest, he⟩ := codeGenChecks_cons h
    cases he
    have hfirst : (cc.check, cc.cfg) = e := by
      unfold SyscallCheck.codeGen at hcc
      split at hcc
      · cases hcc
      · obtain ⟨fs, -, he⟩ := Option.map_eq_some_iff.mp hcc
        cases he
        rfl
    intro c hc
    rcases List.mem_cons.mp hc with rfl | hc
    · exact hfirst ▸ List.mem_cons_self
    · exact List.mem_cons_of_mem e (ih hrest c hc)

/-- **The variables of a compiled check** are its arguments. -/
theorem compile_variables {policys : List Policy} {orders : Nat → HashOrder} {out : Output}
    (h : compile policys orders = some out) {c : CompiledCheck} (hc : c ∈ out.checks) :
    ∃ m, c.cfg = checkCFG c.check.stmts m c.syscall ∧
      ∀ B ∈ c.cfg, ∀ i ∈ B.insts, ∀ x ∈ i.variables, x ∈ c.check.args := by
  unfold compile at h
  split at h
  · cases h
  · rename_i cfgs m hir
    obtain ⟨r, hr, rfl⟩ := Option.map_eq_some_iff.mp h
    obtain ⟨m₁, hcfg, huse⟩ := irGenChecks_accepts hir _ (codeGenChecks_cfg hr c hc)
    have hcfg : c.cfg = checkCFG c.check.stmts m₁ c.syscall := hcfg
    refine ⟨m₁, hcfg, fun B hB i hi x hx => ?_⟩
    rw [hcfg] at hB
    exact checkVariableUse_eq_true.mp huse x ((checkCFG_variables hB hi).1 x hx)

/-! ## The two traversals agree -/

section

variable {c : CompiledCheck}

/-- Lifted code is that of a ptrace block. -/
theorem codeBlocks_block {e : String × List PtraceCode} (he : e ∈ c.lifter.codeBlocks) :
    ∃ b B, e = B.lift ∧ c.cfg[b]? = some B ∧ Lifted c.cfg c.ptraceBbs b ∧ B ∈ c.ptraceBlocks := by
  have he : e ∈ genPtraceCode c.cfg c.ptraceBbs := he
  obtain ⟨⟨B, b⟩, hmem, rfl⟩ := List.mem_map.mp (genPtraceCode_eq ▸ he)
  obtain ⟨hB, hlifted⟩ := mem_liftedBlocks.mp hmem
  obtain ⟨k, hk, rfl⟩ := List.mem_map.mp (of_decide_eq_true hlifted.1)
  exact ⟨_, B, rfl, hB, hlifted, List.mem_filterMap.mpr ⟨k, hk, hB⟩⟩

/-- The expressions that are lifted for an instruction are those of its operands. -/
theorem lift_exprs {i : Instruction} {p : PtraceCode} (h : i.lift = some p) :
    p.exprs = [] ∨ p.exprs = i.operands.map liftExpr := by
  obtain ⟨a, b, t, f, rfl, rfl⟩ | ⟨op, a, b, t, f, -, rfl, rfl⟩ | ⟨src, dst, rfl, rfl⟩ |
    ⟨id, rval, rfl, hp⟩ := Instruction.lift_cases h
  · exact .inl rfl
  · exact .inr rfl
  · exact .inr rfl
  · rcases hp with rfl | rfl | rfl <;> exact .inl rfl

/-- Typed checks are lifted without null operands. -/
theorem lifts_of_wellTyped {m : CodeGenMgr} (hcfg : c.cfg = checkCFG c.check.stmts m c.syscall)
    (hwt : allWellTyped c.check.stmts = true) : c.Lifts := by
  intro e he p hp x hx
  obtain ⟨b, B, rfl, hB, -, -⟩ := codeBlocks_block he
  obtain ⟨i, hi, hlift⟩ := List.mem_filterMap.mp hp
  have hwhole : LiftsWhole i :=
    checkCFG_lifts hwt m c.syscall B (hcfg ▸ List.mem_of_getElem? hB) i hi
  obtain ⟨_, _, _, _, -, rfl⟩ | ⟨op, a, b, t, f, hop, rfl, rfl⟩ | ⟨src, dst, rfl, rfl⟩ |
    ⟨_, _, -, hp⟩ := Instruction.lift_cases hlift
  · exact absurd hx List.not_mem_nil
  · have hdirect : (Instruction.branch op a b t f).isDirectJMP = false := decide_eq_false hop
    obtain ⟨v, hv, rfl⟩ := List.mem_map.mp (show x ∈ [a, b].map liftExpr from hx)
    exact liftExpr_isLifted v ▸ hwhole rfl hdirect v hv
  · obtain rfl := List.mem_singleton.mp hx
    exact liftExpr_isLifted src ▸ hwhole rfl rfl src List.mem_cons_self
  · rcases hp with rfl | rfl | rfl <;> exact absurd hx List.not_mem_nil

/-- A variable in a lifted expression is one that an instruction of the block reads. -/
theorem reads_of_expr {m : CodeGenMgr} (hcfg : c.cfg = checkCFG c.check.stmts m c.syscall)
    (hlifts : c.Lifts) {e : String × List PtraceCode} (he : e ∈ c.lifter.codeBlocks) {p : PtraceCode}
    (hp : p ∈ e.2) {ce : CExpr} (hce : ce ∈ p.exprs) {x : String} (hx : x ∈ ce.vars) :
    c.Reads x := by
  obtain ⟨b, B, rfl, hB, -, hptrace⟩ := codeBlocks_block he
  obtain ⟨i, hi, hlift⟩ := List.mem_filterMap.mp hp
  have hexprs : p.exprs = i.operands.map liftExpr :=
    (lift_exprs hlift).resolve_left (List.ne_nil_of_mem hce)
  have hwhole : ∀ v ∈ i.operands, v.whole = true := fun v hv =>
    liftExpr_isLifted v ▸ hlifts _ he p hp _ (hexprs ▸ List.mem_map_of_mem hv)
  obtain ⟨v, hv, rfl⟩ := List.mem_map.mp (hexprs ▸ hce)
  rcases mem_vars_liftExpr hx with hmem | ⟨w, hw, j, hj, hxj⟩
  · refine ⟨B, hptrace, i, hi, ?_⟩
    cases i with
    | call id f args => exact absurd hv List.not_mem_nil
    | _ => exact List.mem_filterMap.mpr ⟨v, hv, hmem⟩
  · have hBcfg : B ∈ checkCFG c.check.stmts m c.syscall := hcfg ▸ List.mem_of_getElem? hB
    obtain ⟨j', hj', hw'⟩ := suppliedBlock hBcfg hi hwhole hv hw
    obtain rfl := result?_inj hj hw'
    exact ⟨B, hptrace, j, hj', argsUsed_eq_reads j ▸ hxj⟩

/-- An assignment that is lifted is a store of a lifted block, and back. -/
theorem assigns_iff {x : String}
    (hstore : ∀ B ∈ c.cfg, ∀ i ∈ B.insts, ∀ src dst, i = .store src dst → ∃ y, dst = .mem y) :
    c.Assigns x ↔ ∃ e ∈ c.lifter.codeBlocks, ∃ p ∈ e.2, x ∈ p.dst? := by
  constructor
  · rintro ⟨b, B, src, hB, hlifted, hmem⟩
    refine ⟨B.lift, ?_, .assign x (liftExpr src), List.mem_filterMap.mpr ⟨_, hmem, rfl⟩, rfl⟩
    show B.lift ∈ genPtraceCode c.cfg c.ptraceBbs
    rw [genPtraceCode_eq]
    exact List.mem_map_of_mem (f := fun e : BasicBlock × Nat => e.1.lift)
      (mem_liftedBlocks.mpr ⟨hB, hlifted⟩)
  · rintro ⟨e, he, p, hp, hx⟩
    obtain ⟨b, B, rfl, hB, hlifted, -⟩ := codeBlocks_block he
    obtain ⟨i, hi, hlift⟩ := List.mem_filterMap.mp hp
    obtain ⟨_, _, _, _, -, rfl⟩ | ⟨_, _, _, _, _, -, -, rfl⟩ | ⟨src, dst, rfl, rfl⟩ |
      ⟨_, _, -, hp⟩ := Instruction.lift_cases hlift
    · cases hx
    · cases hx
    · obtain ⟨y, rfl⟩ := hstore B (List.mem_of_getElem? hB) _ hi src dst rfl
      obtain rfl := Option.some.inj hx
      exact ⟨b, B, src, hB, hlifted, hi⟩
    · rcases hp with rfl | rfl | rfl <;> cases hx

end

/-! ## The prologue -/

section

variable {c : CompiledCheck} (hnd : c.check.args.Nodup)
include hnd

theorem argIndex_of_nodup {x : String} {k : Nat} (hx : c.check.args[k]? = some x) :
    argIndex c.check.args x = k := by
  refine argIndex_eq fun j => ⟨fun hj => ?_, fun hj => hj ▸ hx⟩
  have hlt := (List.getElem?_eq_some_iff.mp hj).1
  exact (List.getElem?_inj hlt hnd).mp (hj.trans hx.symm)

variable (hargs : ∀ x, c.Reads x → x ∈ c.check.args)
  (hlen : c.check.args.length ≤ c.syscallInfo.numArgs)
include hargs hlen

/-- The arguments that are loaded: those that are read, by their positions. -/
theorem mem_loadedArgs {i : Nat} :
    i ∈ c.loadedArgs ↔ ∃ x, c.check.args[i]? = some x ∧ c.Reads x := by
  have hused : i ∈ argsUsed c.check.args c.ptraceBlocks ↔
      ∃ x, c.Reads x ∧ argIndex c.check.args x = i := by
    simp only [argsUsed, List.mem_map, List.mem_flatMap, argsUsed_eq_reads]
    exact Iff.rfl
  rw [CompiledCheck.loadedArgs, argsLoaded, List.mem_filter, decide_eq_true_eq, List.mem_range,
    hused]
  constructor
  · rintro ⟨-, x, hx, rfl⟩
    obtain ⟨k, hk⟩ := List.mem_iff_getElem?.mp (hargs x hx)
    exact ⟨x, by rw [argIndex_of_nodup hnd hk, hk], hx⟩
  · rintro ⟨x, hk, hx⟩
    have hlt := (List.getElem?_eq_some_iff.mp hk).1
    exact ⟨Nat.lt_of_lt_of_le hlt hlen, x, hx, argIndex_of_nodup hnd hk⟩

theorem argName_loaded {i : Nat} (hi : i ∈ c.loadedArgs) :
    c.check.args[i]? = some (c.argName i) ∧ c.Reads (c.argName i) := by
  obtain ⟨x, hx, hreads⟩ := (mem_loadedArgs hnd hargs hlen).mp hi
  have hname : c.argName i = x := by
    rw [CompiledCheck.argName, List.getD_eq_getElem?_getD, hx]
    rfl
  exact ⟨hname ▸ hx, hname ▸ hreads⟩

/-- The names of the loaded arguments are those that are read, each once. -/
theorem loadedNames_nodup : (c.loadedArgs.map c.argName).Nodup := by
  refine List.Nodup.map_on (fun i hi j hj he => ?_) (List.nodup_range.filter _)
  rw [← argIndex_of_nodup hnd (argName_loaded hnd hargs hlen hi).1, he,
    argIndex_of_nodup hnd (argName_loaded hnd hargs hlen hj).1]

theorem mem_loadedNames {x : String} : x ∈ c.loadedArgs.map c.argName ↔ c.Reads x := by
  constructor
  · intro hx
    obtain ⟨i, hi, rfl⟩ := List.mem_map.mp hx
    exact (argName_loaded hnd hargs hlen hi).2
  · intro hx
    obtain ⟨k, hk⟩ := List.mem_iff_getElem?.mp (hargs x hx)
    refine List.mem_map.mpr ⟨k, (mem_loadedArgs hnd hargs hlen).mpr ⟨x, hk, hx⟩, ?_⟩
    rw [CompiledCheck.argName, List.getD_eq_getElem?_getD, hk]
    rfl

end

/-- The declarations in front of the start label. -/
def CompiledCheck.declarations (c : CompiledCheck) : List CStmt :=
  c.loadedArgs.map fun i => .line (.declare (c.lifter.info.typeOf (c.argName i)) (c.argName i))

theorem lines_map {β : Type*} (f : β → CLine) (ys : List β) :
    codeLines (ys.map fun y => (.line (f y) : CStmt)) = ys.map f := by
  induction ys with
  | nil => rfl
  | cons y ys ih => simp only [List.map_cons, codeLines, Stmt.lines, ih, List.singleton_append]

theorem textDeclared_declarations (c : CompiledCheck) :
    textDeclared c.declarations = c.loadedArgs.map c.argName := by
  rw [textDeclared, CompiledCheck.declarations, lines_map, List.filterMap_map]
  exact List.filterMap_eq_map (f := c.argName) ▸ rfl

theorem extract_getArg? (a : ArgumentsInfo) (x : String) (i : Nat) :
    (a.extract x i).getArg? = some (x, i) ∧ (a.extract x i).declared? = none := by
  unfold ArgumentsInfo.extract
  split
  · exact ⟨rfl, rfl⟩
  · cases a.memArgsSize.lookup x <;> exact ⟨rfl, rfl⟩

theorem textDeclared_loads (c : CompiledCheck) : textDeclared c.loads = [] := by
  rw [textDeclared, CompiledCheck.loads, lines_map, List.filterMap_map, List.filterMap_eq_nil_iff]
  exact fun i _ => (extract_getArg? _ _ i).2

theorem textGetArgs_loads (c : CompiledCheck) :
    textGetArgs c.loads = c.loadedArgs.map fun i => (c.argName i, i) := by
  rw [textGetArgs, CompiledCheck.loads, lines_map, List.filterMap_map, ← List.filterMap_eq_map]
  exact List.filterMap_congr fun i _ => (extract_getArg? _ _ i).1

/-- The prologue falls into the declarations and the loads in one way. -/
theorem prologue_split {c : CompiledCheck} {before after : List CStmt}
    (h : genPtracePrologue c.syscallInfo c.check.args c.ptraceBlocks =
      before ++ .label (c.syscallInfo.name ++ "_start") :: after) :
    before = c.declarations ∧ after = c.loads := by
  have hlines : ∀ (f : Nat → CLine) (l : String),
      (.label l : CStmt) ∉ c.loadedArgs.map fun i => .line (f i) := by
    intro f l hmem
    obtain ⟨i, -, he⟩ := List.mem_map.mp hmem
    cases he
  have heq : c.declarations ++ .label (c.syscallInfo.name ++ "_start") :: c.loads =
      before ++ .label (c.syscallInfo.name ++ "_start") :: after := h
  obtain ⟨hbefore, -, hafter⟩ :=
    (List.append_cons_inj_of_notMem (hlines _ _) (hlines _ _)).mp heq
  exact ⟨hbefore.symm, hafter.symm⟩

/-- **The prologue is complete exactly when every argument that is assigned is read.** A compiled
check with ptrace code and at most `num_args` arguments of different names, for which no null
operand is lifted, has a prologue that declares all names of its text and loads those that are
read if and only if some ptrace block reads every argument that a lifted block assigns. -/
theorem prologue_complete_iff {policys : List Policy} {orders : Nat → HashOrder} {out : Output}
    (hout : compile policys orders = some out) {c : CompiledCheck} (hc : c ∈ out.handlers)
    (hlen : c.check.args.length ≤ c.syscallInfo.numArgs) (hnd : c.check.args.Nodup)
    (hlifts : c.Lifts) : c.PrologueComplete ↔ ∀ x, c.Assigns x → c.Reads x := by
  have hcheck : c ∈ out.checks := (List.mem_filter.mp hc).1
  obtain ⟨m, hcfg, hvars⟩ := compile_variables hout hcheck
  obtain ⟨⟨n, hcomp⟩, -⟩ := compile_spec hout
  obtain ⟨_, _, _, hfrom, -⟩ := hcomp.from_mem hcheck
  have hargs : ∀ x, c.Reads x → x ∈ c.check.args := by
    rintro x ⟨B, hB, i, hi, hx⟩
    obtain ⟨e, -, he⟩ := List.mem_filterMap.mp hB
    exact hvars B (List.mem_of_getElem? he) i hi x (reads_subset_variables hx)
  have hstore : ∀ B ∈ c.cfg, ∀ i ∈ B.insts, ∀ src dst, i = .store src dst → ∃ y, dst = .mem y :=
    fun B hB i hi => (checkCFG_variables (hcfg ▸ hB) hi).2
  constructor
  · rintro ⟨before, after, hsplit, hdeclared, -⟩ x hx
    obtain ⟨rfl, -⟩ := prologue_split hsplit
    obtain ⟨e, he, p, hp, hdst⟩ := (assigns_iff hstore).mp hx
    have htext : x ∈ textAssigned c.lifter.genCode :=
      IRLifter.assigned_genCode (L := c.lifter) (genPtraceCode_nodup hfrom.blockLabels_nodup) he hp
        hdst
    have hone := (hdeclared x (List.mem_append_right _ htext)).1
    rw [textDeclared_declarations] at hone
    exact (mem_loadedNames hnd hargs hlen).mp (List.count_pos_iff.mp (hone ▸ Nat.one_pos))
  · intro hassigned
    have hreads : ∀ x ∈ textNames c.lifter.genCode, c.Reads x := by
      intro x hx
      obtain ⟨e, he, p, hp, hx⟩ := IRLifter.genCode_names x hx
      rcases List.mem_append.mp hx with hdst | hx
      · exact hassigned x ((assigns_iff hstore).mpr ⟨e, he, p, hp, Option.mem_toList.mp hdst⟩)
      · obtain ⟨ce, hce, hx⟩ := List.mem_flatMap.mp hx
        exact reads_of_expr hcfg hlifts he hp hce hx
    refine ⟨c.declarations, c.loads, rfl, fun x hx => ⟨?_, ?_⟩, fun x hx => ?_⟩
    · rw [textDeclared_declarations]
      exact List.count_eq_one_of_mem (loadedNames_nodup hnd hargs hlen)
        ((mem_loadedNames hnd hargs hlen).mpr (hreads x hx))
    · rw [textDeclared_loads]
      exact List.not_mem_nil
    · have hread := hreads x (List.mem_append_left _ hx)
      obtain ⟨k, hk⟩ := List.mem_iff_getElem?.mp (hargs x hread)
      refine ⟨k, hk, fun j => ?_⟩
      rw [textGetArgs_loads, List.mem_map]
      constructor
      · rintro ⟨i, hi, he⟩
        obtain ⟨rfl, rfl⟩ := Prod.mk.inj he
        have hname := (argName_loaded hnd hargs hlen hi).1
        exact (argIndex_of_nodup hnd hname).symm.trans (argIndex_of_nodup hnd hk)
      · rintro rfl
        have hmem := (mem_loadedArgs hnd hargs hlen).mpr ⟨x, hk, hread⟩
        have hname := (argName_loaded hnd hargs hlen hmem).1
        exact ⟨j, hmem, by rw [Option.some.inj (hname.symm.trans hk)]⟩

/-- `mode = flags; flags = f(mode); allow;` reads what it assigns. -/
def swappedFlags : List Policy :=
  [.check ⟨"open", ["name", "flags", "mode"],
    [.assign "mode" (.ref "flags"), .assign "flags" (.inv "f" ["mode"]), .perm .ALLOW], open_named⟩]

theorem swappedFlags_complete : ∃ out, compile swappedFlags (fun _ => .insertion) = some out ∧
    ∃ c ∈ out.handlers, c.PrologueComplete := by
  refine ⟨_, rfl, _, List.mem_cons_self, ?_⟩
  refine (@prologue_complete_iff swappedFlags (fun _ => .insertion) _ rfl _ List.mem_cons_self
    (by decide) (by decide) (@lifts_of_wellTyped _ {} rfl (by decide))).mpr ?_
  rintro x ⟨b, B, src, hB, -, hmem⟩
  have hread : ∀ B ∈ checkCFG [.assign "mode" (.ref "flags"), .assign "flags" (.inv "f" ["mode"]),
      .perm .ALLOW] {} "open", ∀ i ∈ B.insts, ∀ y ∈ i.variables, y ∈ ["flags", "mode"] := by decide
  have hx := hread B (List.mem_of_getElem? hB) _ hmem x
    ((mem_variables_operands src _).mpr (.inr rfl))
  simp only [List.mem_cons, List.not_mem_nil, or_false] at hx
  rcases hx with rfl | rfl <;> decide

/-- `flags = 0; allow;` assigns an argument that nothing reads. -/
def noFlags : List Policy :=
  [.check ⟨"open", ["name", "flags", "mode"], [.assign "flags" (.value 0), .perm .ALLOW], open_named⟩]

/-- The text assigns `flags`, and the prologue declares nothing. -/
theorem noFlags_undeclared : ∃ out, compile noFlags (fun _ => .insertion) = some out ∧
    ∃ c ∈ out.handlers, c.check.args.length ≤ c.syscallInfo.numArgs ∧ c.check.args.Nodup ∧
      c.Lifts ∧ ¬ c.PrologueComplete := by
  refine ⟨_, rfl, _, List.mem_cons_self, by decide, by decide, by decide, ?_⟩
  rintro ⟨before, after, hsplit, hdeclared, -⟩
  obtain ⟨rfl, -⟩ := prologue_split hsplit
  exact absurd (hdeclared "flags" (by decide)).1 (by decide)

end SeccompPolicy
