import SeccompPolicy.ArgumentBounds
import SeccompPolicy.ScratchMonitor
import SeccompPolicy.Variables

/-!
# Which policies are compiled, and to what

`main` (`driver.cpp`) compiles the policy it has parsed with `PolicyManager::IRGen` and
`PolicyManager::CodeGen` (`policy.cpp`), which print a message and exit in two cases: a name that is not
in the table, and a variable that is not declared. Besides, `BPFCodeGen` (`code_gen.cpp`) runs into an
assertion or a missing case on results it has lost and on calls and assignments, and
`GetArgumentsInfo` reads out of bounds when a check declares more arguments than the row of its system
call has types for (`ArgumentBounds`).

## Results

* `compile_isSome_iff`: where the bodies type-check, the trees fit the one scratch word, no block with
  a call or an assignment leaks into the filter and the declared arguments fit the row, the two messages
  are the only way to fail.
* `compile_orders`: `GetPtraceOnlyBB` reads its candidates in the order of a hash map; whatever the
  orders are, the compiler writes the same files.

Out of scope: what happens behind an assertion or an access out of bounds.
-/

namespace SeccompPolicy

/-! ## The filter's list is free of calls and assignments -/

/-- No block with a call or an assignment leaks into the filter, whatever numbers and labels the
check starts from. The root is handed over as a whole. -/
def SyscallCheck.Confined (c : SyscallCheck) : Prop :=
  ∀ (m : CodeGenMgr) (b : Nat) (B : BasicBlock), (checkCFG c.stmts m c.syscall)[b]? = some B →
    B.requiresPtrace = true → b = 0 ∨ ¬ Leaks (checkCFG c.stmts m c.syscall) b

theorem SyscallCheck.Confined.pure {c : SyscallCheck} (hc : c.Confined) (m : CodeGenMgr)
    (o : HashOrder) (gl : RetGlobals) : Pure (checkIR c.stmts m c.syscall o gl).1 := by
  have hg : Acyclic (checkCFG c.stmts m c.syscall) := buildCFG_acyclic _ _
  obtain ⟨root, hroot, -⟩ : ∃ root, (checkCFG c.stmts m c.syscall)[0]? = some root ∧
      root.label = c.syscall := buildCFG_root _ _
  unfold checkIR
  rw [genBPFIR_of_root hroot]
  by_cases hstub : (colorCode (checkCFG c.stmts m c.syscall) o).2.count 0 = true
  · rw [if_pos hstub]
    simp [Pure, stub, Instruction.requiresPtrace]
  · rw [if_neg hstub, genBlocks_pure]
    intro k B hB hcount
    rw [Nat.zero_add] at hcount
    refine Bool.eq_false_iff.mpr fun hreq => ?_
    have honly : ¬ PtraceOnly (checkCFG c.stmts m c.syscall) k := by
      rw [← mem_getPtraceOnlyBB hg o, hcount]
      exact Bool.false_ne_true
    rcases hc m k B hB hreq with rfl | hleak
    · exact honly ((ptraceOnly_root hg hB).mpr hreq)
    · exact hleak ((leaks_iff hg hB).mpr honly)

/-! ## Bodies without actions -/

theorem Pure.append {c c' : List Instruction} (h : Pure c) (h' : Pure c') : Pure (c ++ c') :=
  fun i hi => (List.mem_append.mp hi).elim (h i) (h' i)

theorem pure_nil : Pure [] := fun _ h => absurd h List.not_mem_nil

theorem pure_single {i : Instruction} (hi : i.requiresPtrace = false) : Pure [i] := fun _ h =>
  List.mem_singleton.mp h ▸ hi

/-- Code that is free of calls and assignments wherever it is generated. -/
def PureGen (gen : CodeGenMgr → Gen) : Prop := ∀ m, Pure (gen m).code

theorem pureGen_compare {op : OpCode} {l r : CodeGenMgr → Gen} (hl : PureGen l) (hr : PureGen r) :
    PureGen (genCompare op l r) := fun m => ((hl m).append (hr _)).append (pure_single rfl)

theorem pureGen_branchCode {e : Expr} {gen : CodeGenMgr → Gen} (h : PureGen gen) :
    PureGen (genBranchCode e gen) := by
  intro m
  unfold genBranchCode
  split
  · exact h m
  · exact pureGen_compare h (fun _ => pure_nil) m

/-- An expression without calls generates none. -/
theorem expr_pure (e : Expr) (hc : e.callFree = true) : PureGen e.irGen := by
  induction e with
  | ref x => exact fun _ => pure_nil
  | value n => exact fun _ => pure_nil
  | inv f ps => cases hc
  | op1 op e ih =>
    have ih := ih hc
    intro m
    simp only [Expr.irGen]
    split_ifs
    · exact pureGen_branchCode ih _
    · exact (ih m).append (pure_single rfl)
    · exact pure_nil
  | op2 op l r ihl ihr =>
    obtain ⟨hlc, hrc⟩ := Bool.and_eq_true_iff.mp hc
    have hl := ihl hlc
    have hr := ihr hrc
    intro m
    simp only [Expr.irGen]
    split_ifs
    · exact ((pureGen_branchCode hl _).append (pure_single rfl)).append (pureGen_branchCode hr _)
    · exact ((pureGen_branchCode hl _).append (pure_single rfl)).append (pureGen_branchCode hr _)
    · exact pureGen_branchCode hl _
    · exact pureGen_compare hl hr m
    · exact (hl m).append (pure_single rfl)
    · exact pure_nil
    · exact ((hl m).append (hr _)).append (pure_single rfl)

theorem genIfHead_pure {c : Expr} (hc : c.callFree = true) : PureGen (genIfHead c) := fun _ =>
  (pureGen_branchCode (expr_pure c hc) _).append (pure_single rfl)

mutual

/-- The statement calls no helper and assigns nothing. -/
def Stmt.actionFree : Stmt → Bool
  | .empty | .perm _ => true
  | .ifThen c t => c.callFree && t.actionFree
  | .ifElse c t e => c.callFree && t.actionFree && e.actionFree
  | .assign _ _ => false
  | .compound ss => allActionFree ss

/-- No statement of the list does. -/
def allActionFree : List Stmt → Bool
  | [] => true
  | s :: ss => s.actionFree && allActionFree ss

end

mutual

theorem stmt_pure : ∀ (s : Stmt) (_ : s.actionFree = true), PureGen s.irGen
  | .empty, _, m => by simp only [Stmt.irGen]; exact pure_nil
  | .perm p, _, m => by simp only [Stmt.irGen]; exact pure_single rfl
  | .ifThen c t, h, m => by
    simp only [Stmt.actionFree, Bool.and_eq_true] at h
    simp only [Stmt.irGen]
    exact ((genIfHead_pure h.1 m).append (stmt_pure t h.2 _)).append (pure_single rfl)
  | .ifElse c t e, h, m => by
    simp only [Stmt.actionFree, Bool.and_eq_true] at h
    have hjump : ∀ l l', Pure [.branch .INVALID .null .null l "", .label l'] := fun l l' =>
      (pure_single (i := .branch .INVALID .null .null l "") rfl).append (pure_single rfl)
    simp only [Stmt.irGen]
    exact ((((genIfHead_pure h.1.1 m).append (stmt_pure t h.1.2 _)).append (hjump _ _)).append
      (stmt_pure e h.2 _)).append (pure_single rfl)
  | .assign x e, h, m => by cases h
  | .compound ss, h, m => by simp only [Stmt.irGen]; exact all_pure ss h m

theorem all_pure : ∀ (ss : List Stmt) (_ : allActionFree ss = true), PureGen (irGenAll ss)
  | [], _, m => by simp only [irGenAll]; exact pure_nil
  | s :: ss, h, m => by
    simp only [allActionFree, Bool.and_eq_true] at h
    simp only [irGenAll]
    exact (stmt_pure s h.1 m).append (all_pure ss h.2 _)

end

/-- The monitor of calls and assignments. -/
def pureMonitor : Monitor Unit where
  start := ()
  after _ _ := ()
  Admits _ i := i.requiresPtrace = false
  after_label _ _ := rfl
  admits_label _ _ := rfl
  after_rename _ _ _ := rfl
  admits_rename _ _ i := by cases i <;> exact Iff.rfl
  after_isDirectJMP _ _ _ _ := rfl

/-- The monitor of calls and assignments accepts the lists without any. -/
theorem pureMonitor_accepts {code : List Instruction} : pureMonitor.Accepts () code ↔ Pure code := by
  induction code with
  | nil => exact iff_of_true trivial pure_nil
  | cons i code ih => exact (and_congr_right fun _ => ih).trans List.forall_mem_cons.symm

/-- A body without actions has nothing to leak. -/
theorem confined_of_actionFree {c : SyscallCheck} (h : allActionFree c.stmts = true) :
    c.Confined := by
  intro m b B hB hreq
  have hblocks := Monitor.accepts_checkCFG (M := pureMonitor)
    (pureMonitor_accepts.mpr (all_pure c.stmts h m)) c.syscall
  have hpure := pureMonitor_accepts.mp (hblocks B (List.mem_of_getElem? hB))
  obtain ⟨i, hi, hi'⟩ := List.any_eq_true.mp hreq
  exact absurd ((hpure i hi).symm.trans hi') Bool.false_ne_true

/-! ## The trees of a body that type-checks are the parser's -/

/-- A number has the operators that numbers have. -/
theorem parsed_of_arith {e : Expr} (he : e.isArith = true) : e.isParsed = true := by
  induction e with
  | ref x => rfl
  | value n => rfl
  | inv f ps => rfl
  | op1 op e ih =>
    simp only [Expr.isArith, Bool.and_eq_true, decide_eq_true_eq] at he
    simp [Expr.isParsed, he.1, ih he.2]
  | op2 op l r ihl ihr =>
    simp only [Expr.isArith, Bool.and_eq_true] at he
    have hop : op ≠ .NOT ∧ op ≠ .UMINUS ∧ op ≠ .INVALID := by
      refine ⟨?_, ?_, ?_⟩ <;> rintro rfl <;> cases he.1.1
    simp [Expr.isParsed, hop, ihl he.1.2, ihr he.2]

/-- And so has a condition. -/
theorem parsed_of_cond {e : Expr} (he : e.isCond = true) : e.isParsed = true := by
  induction e with
  | ref x => rfl
  | value n => rfl
  | inv f ps => rfl
  | op1 op e ih =>
    simp only [Expr.isCond] at he
    split_ifs at he with hop
    · simp [Expr.isParsed, hop, ih he]
    · exact parsed_of_arith (by simpa [Expr.isArith] using he)
  | op2 op l r ihl ihr =>
    simp only [Expr.isCond] at he
    split_ifs at he with hop
    · obtain ⟨hl, hr⟩ := Bool.and_eq_true_iff.mp he
      rcases hop with rfl | rfl <;> simp [Expr.isParsed, ihl hl, ihr hr]
    · simp only [Bool.and_eq_true, Bool.or_eq_true] at he
      have hop : op ≠ .NOT ∧ op ≠ .UMINUS ∧ op ≠ .INVALID := by
        refine ⟨?_, ?_, ?_⟩ <;> rintro rfl <;> rcases he.1.1 with h | h <;> cases h
      simp [Expr.isParsed, hop, parsed_of_arith he.1.2, parsed_of_arith he.2]

mutual

theorem stmt_parsed : ∀ (s : Stmt) (_ : s.wellTyped = true), s.isParsed = true
  | .empty, _ => rfl
  | .perm _, _ => rfl
  | .ifThen c t, h => by
    simp only [Stmt.wellTyped, Bool.and_eq_true] at h
    simp [Stmt.isParsed, parsed_of_cond h.1, stmt_parsed t h.2]
  | .ifElse c t e, h => by
    simp only [Stmt.wellTyped, Bool.and_eq_true] at h
    simp [Stmt.isParsed, parsed_of_cond h.1.1, stmt_parsed t h.1.2, stmt_parsed e h.2]
  | .assign x e, h => parsed_of_arith h
  | .compound ss, h => all_parsed ss h

/-- Bodies that type-check are built like the parser's. -/
theorem all_parsed : ∀ (ss : List Stmt) (_ : allWellTyped ss = true), allParsed ss = true
  | [], _ => rfl
  | s :: ss, h => by
    simp only [allWellTyped, Bool.and_eq_true] at h
    simp [allParsed, stmt_parsed s h.1, all_parsed ss h.2]

end

/-! ## The two loops -/

/-- A check that type-checks, whose trees fit, whose filter is left alone by calls and assignments,
and whose arguments, at most six, have a type in the row of the system call. -/
structure SyscallCheck.Generable (c : SyscallCheck) : Prop where
  wellTyped : allWellTyped c.stmts = true
  fit : allFit c.stmts = true
  confined : c.Confined
  args : Known c.syscall → c.Fits

/-- `IRGen` runs through when every variable is declared. -/
theorem irGenChecks_isSome_iff {cs : List SyscallCheck} (hcs : ∀ c ∈ cs, allParsed c.stmts = true)
    (m : CodeGenMgr) : (irGenChecks cs m).isSome = true ↔
      ∀ c ∈ cs, ∀ x ∈ allMentions c.stmts, x ∈ c.args := by
  induction cs generalizing m with
  | nil => simp [irGenChecks]
  | cons c cs ih =>
    have ih := ih (fun c hc => hcs c (List.mem_cons_of_mem _ hc)) (irGenAll c.stmts m).mgr
    have huse := checkVariableUse_mentions (hcs c List.mem_cons_self) m c.args
    rw [List.forall_mem_cons, ← ih, ← huse]
    simp only [irGenChecks, SyscallCheck.irGen]
    by_cases h : checkVariableUse (irGenAll c.stmts m).code c.args = true
    · simp [h]
    · simp [h]

/-- It leaves each check with its CFG. -/
theorem irGenChecks_spec {cs : List SyscallCheck} {m : CodeGenMgr}
    {r : List (SyscallCheck × List BasicBlock) × CodeGenMgr} (h : irGenChecks cs m = some r) :
    r.1.map Prod.fst = cs ∧ ∀ e ∈ r.1, ∃ m, e.2 = checkCFG e.1.stmts m e.1.syscall := by
  induction cs generalizing m r with
  | nil =>
    obtain rfl := Option.some.inj h
    exact ⟨rfl, fun e he => absurd he List.not_mem_nil⟩
  | cons c cs ih =>
    obtain ⟨rest, -, hrest, rfl⟩ := irGenChecks_cons h
    obtain ⟨hmap, hcfg⟩ := ih hrest
    refine ⟨by rw [List.map_cons, hmap], fun e he => ?_⟩
    rcases List.mem_cons.mp he with rfl | he
    · exact ⟨m, rfl⟩
    · exact hcfg e he

/-- `CodeGen` of a check runs through when its name is known. -/
theorem codeGen_isSome_iff {c : SyscallCheck} (hc : c.Generable) (m : CodeGenMgr) (o : HashOrder)
    (gl : RetGlobals) :
    (c.codeGen (checkCFG c.stmts m c.syscall) o gl).isSome = true ↔ Known c.syscall := by
  unfold SyscallCheck.codeGen
  obtain ⟨fs, hfs⟩ := bpfCodeGen_isSome hc.wellTyped hc.fit m c.syscall o gl
    (checkIR c.stmts m c.syscall o gl).2 c.args (hc.confined.pure m o gl)
  unfold checkIR at hfs
  by_cases hknown : syscallNameToNr c.syscall = -1
  · simp [hknown, Known]
  · simp [hknown, Known, hfs]

/-- The loop of `CodeGen` runs through when all names are known. -/
theorem codeGenChecks_isSome_iff {orders : Nat → HashOrder}
    {es : List (SyscallCheck × List BasicBlock)} (hes : ∀ e ∈ es, e.1.Generable ∧
      ∃ m, e.2 = checkCFG e.1.stmts m e.1.syscall) (i : Nat) (gl : RetGlobals) :
    (codeGenChecks orders i es gl).isSome = true ↔ ∀ e ∈ es, Known e.1.syscall := by
  induction es generalizing i gl with
  | nil => simp [codeGenChecks]
  | cons e es ih =>
    have ih := ih (fun e he => hes e (List.mem_cons_of_mem _ he)) (i + 1)
    obtain ⟨hgen, m, hcfg⟩ := hes e List.mem_cons_self
    have hone := codeGen_isSome_iff hgen m (orders i) gl
    rw [← hcfg] at hone
    rw [List.forall_mem_cons, ← hone]
    cases h : e.1.codeGen e.2 (orders i) gl with
    | none => simp [codeGenChecks, h]
    | some p =>
      simp only [codeGenChecks, h, Option.isSome_map, Option.isSome_some, true_and]
      exact ih p.2

/-- **Which policies are compiled.** Where every check type-checks, its trees fit the scratch word,
its calls and assignments stay out of the filter and its arguments fit the row of the system call, the
compiler accepts the policy exactly when every name is in the table and every variable is declared. -/
theorem compile_isSome_iff {policys : List Policy} (orders : Nat → HashOrder)
    (hgen : ∀ c ∈ policys.filterMap Policy.check?, c.Generable) :
    (compile policys orders).isSome = true ↔ ∀ c ∈ policys.filterMap Policy.check?,
      Known c.syscall ∧ ∀ x ∈ allMentions c.stmts, x ∈ c.args := by
  have huse := irGenChecks_isSome_iff (fun c hc => all_parsed c.stmts (hgen c hc).wellTyped) {}
  rw [forall₂_and, ← huse]
  unfold compile
  cases h : irGenChecks (policys.filterMap Policy.check?) {} with
  | none => simp
  | some r =>
    obtain ⟨hmap, hcfg⟩ := irGenChecks_spec h
    have hes : ∀ e ∈ r.1, e.1.Generable ∧ ∃ m, e.2 = checkCFG e.1.stmts m e.1.syscall :=
      fun e he => ⟨hgen e.1 (hmap ▸ List.mem_map_of_mem he), hcfg e he⟩
    have hknown := @codeGenChecks_isSome_iff orders r.1 hes 0 (.initial r.2.nextId)
    rw [← hmap, List.forall_mem_map, Option.isSome_some, and_iff_left rfl, ← hknown]
    simp only [Option.isSome_map]

/-- `if ((flags & 3) == 1 || mode >= flags + 8) { deny; } allow;` -/
def maskedFlags : SyscallCheck where
  syscall := "open"
  args := openArgs
  stmts := [.ifThen (.op2 .OR (.op2 .EQ (.op2 .BITAND (.ref "flags") (.value 3)) (.value 1))
      (.op2 .GE (.ref "mode") (.op2 .PLUS (.ref "flags") (.value 8)))) (.compound [.perm .DENY]),
    .perm .ALLOW]
  named := open_named

theorem maskedFlags_generable : maskedFlags.Generable :=
  ⟨rfl, rfl, confined_of_actionFree rfl, fun _ => by decide⟩

/-- `open` is checked. -/
theorem maskedFlags_compiled :
    (compile [.defaultDeny, .check maskedFlags] (fun _ => .insertion)).isSome = true := by
  refine (compile_isSome_iff _ fun c hc => ?_).mpr fun c hc => ?_
  · obtain rfl := List.mem_singleton.mp hc
    exact maskedFlags_generable
  · obtain rfl := List.mem_singleton.mp hc
    exact ⟨by decide, by decide⟩

/-! ## The orders of the hash maps -/

/-- A list of blocks is read as a map: for membership, and for the starts of its keys. -/
theorem genBlocks_congr {only only' : PtraceBasicBlock}
    (hcount : ∀ b, only.count b = only'.count b)
    (hstart : ∀ b, only.count b = true → only.start b = only'.start b) (Bs : List BasicBlock)
    (b : Nat) (targets : List Nat) (gl : RetGlobals) :
    genBlocks only b Bs targets gl = genBlocks only' b Bs targets gl := by
  have hcounts : only.count = only'.count := funext hcount
  induction Bs generalizing b targets gl with
  | nil => rfl
  | cons B Bs ih =>
    unfold genBlocks
    by_cases hb : only'.count b = true
    · have hst := hstart b ((hcount b).trans hb)
      simp only [hcounts, hb, hst, ih]
    · simp only [hcounts, hb, ih]
      rfl

/-- **The filter's list does not depend on the order.** -/
theorem genBPFIR_orders (g : List BasicBlock) (o o' : HashOrder) (gl : RetGlobals) :
    genBPFIR g (colorCode g o).2 gl = genBPFIR g (colorCode g o').2 gl := by
  have hset := (getPtraceOnlyBB_isLeast g (colorBlocks g) o).unique
    (getPtraceOnlyBB_isLeast g (colorBlocks g) o')
  have hiff : ∀ b, (colorCode g o).2.count b = true ↔ (colorCode g o').2.count b = true :=
    fun b => Set.ext_iff.mp hset b
  have hcount : ∀ b, (colorCode g o).2.count b = (colorCode g o').2.count b := fun b =>
    Bool.eq_iff_iff.mpr (hiff b)
  have hstart : ∀ b, (colorCode g o).2.count b = true →
      (colorCode g o).2.start b = (colorCode g o').2.start b := fun b hb => by
    rw [ptraceOnly_start o hb, ptraceOnly_start o' ((hiff b).mp hb)]
    rfl
  cases g with
  | nil => rfl
  | cons root Bs =>
    simp only [genBPFIR]
    rw [hcount 0, genBlocks_congr hcount hstart]

/-- What is read of a compiled check when the files are written. -/
def CompiledCheck.written (c : CompiledCheck) : CompiledCheck := { c with ptraceOnlyBbs := [] }

/-- What is read of the compiled policy when the files are written. -/
def Output.written (out : Output) : Output :=
  { out with checks := out.checks.map CompiledCheck.written }

/-- One check: what is written does not depend on the order of its hash map. -/
theorem codeGen_orders (c : SyscallCheck) (cfg : List BasicBlock) (o o' : HashOrder)
    (gl : RetGlobals) : (c.codeGen cfg o gl).map (Prod.map CompiledCheck.written id) =
      (c.codeGen cfg o' gl).map (Prod.map CompiledCheck.written id) := by
  unfold SyscallCheck.codeGen
  split
  · rfl
  · simp only [genBPFIR_orders cfg o o', Option.map_map]
    rfl

/-- All checks, whatever orders they have. -/
theorem codeGenChecks_orders (orders orders' : Nat → HashOrder)
    (es : List (SyscallCheck × List BasicBlock)) (i : Nat) (gl : RetGlobals) :
    (codeGenChecks orders i es gl).map (Prod.map (List.map CompiledCheck.written) id) =
      (codeGenChecks orders' i es gl).map (Prod.map (List.map CompiledCheck.written) id) := by
  induction es generalizing i gl with
  | nil => rfl
  | cons e es ih =>
    have hone := codeGen_orders e.1 e.2 (orders i) (orders' i) gl
    have hcons : ∀ (cc : CompiledCheck) (X : Option (List CompiledCheck × RetGlobals)),
        (X.map fun r => (cc :: r.1, r.2)).map (Prod.map (List.map CompiledCheck.written) id) =
          (X.map (Prod.map (List.map CompiledCheck.written) id)).map fun r =>
            (cc.written :: r.1, r.2) := by
      intro cc X
      cases X <;> rfl
    simp only [codeGenChecks]
    cases h : e.1.codeGen e.2 (orders i) gl with
    | none =>
      rw [h] at hone
      cases h' : e.1.codeGen e.2 (orders' i) gl with
      | none => rfl
      | some p' =>
        rw [h'] at hone
        cases hone
    | some p =>
      rw [h] at hone
      cases h' : e.1.codeGen e.2 (orders' i) gl with
      | none =>
        rw [h'] at hone
        cases hone
      | some p' =>
        rw [h'] at hone
        obtain ⟨hcc, hgl⟩ := Prod.mk.inj (Option.some.inj hone)
        have hgl : p.2 = p'.2 := hgl
        simp only [hcons, hcc, hgl, ih]

theorem nextLabel_written (default : String) (cs : List CompiledCheck) :
    nextLabel default (cs.map CompiledCheck.written) = nextLabel default cs := by
  cases cs <;> rfl

/-- The filters are read off what is written. -/
theorem checksFilters_written (default : String) (cs : List CompiledCheck) :
    checksFilters default (cs.map CompiledCheck.written) = checksFilters default cs := by
  induction cs with
  | nil => rfl
  | cons c cs ih =>
    rw [List.map_cons, checksFilters, checksFilters, ih, nextLabel_written]
    rfl

/-- The seccomp program is made of what is read. -/
theorem written_program (out : Output) : out.written.program = out.program := by
  unfold Output.program Output.finalFilters
  cases h : out.checks with
  | nil => simp [Output.written, h]
  | cons c cs =>
    have hchecks : out.written.checks = c.written :: cs.map CompiledCheck.written := by
      rw [Output.written, h, List.map_cons]
    have hfilters := checksFilters_written (defaultLabel out.defaultDeny) (c :: cs)
    rw [List.map_cons] at hfilters
    simp only [hchecks]
    rw [show out.written.defaultDeny = out.defaultDeny from rfl, hfilters]
    rfl

/-- Two families of orders: both fail, or what is written is the same. -/
theorem compile_written (policys : List Policy) (orders orders' : Nat → HashOrder) :
    (compile policys orders).map Output.written = (compile policys orders').map Output.written := by
  unfold compile
  split
  · rfl
  · have hwritten : ∀ X : Option (List CompiledCheck × RetGlobals),
        (X.map fun r => (⟨r.1, r.2, !policys.any Policy.isDefaultAllow⟩ : Output)).map
            Output.written =
          (X.map (Prod.map (List.map CompiledCheck.written) id)).map fun r =>
            ⟨r.1, r.2, !policys.any Policy.isDefaultAllow⟩ := by
      intro X
      cases X <;> rfl
    rw [hwritten, hwritten, codeGenChecks_orders orders orders']

/-- **The compiler writes the same files** whatever the orders of the hash maps are: the same
program, and all else that the files are made of. -/
theorem compile_orders (policys : List Policy) (orders orders' : Nat → HashOrder) :
    (compile policys orders).map Output.written = (compile policys orders').map Output.written ∧
      (compile policys orders).map Output.program =
        (compile policys orders').map Output.program := by
  have hwritten := compile_written policys orders orders'
  have hprogram : ∀ o, (compile policys o).map Output.program =
      ((compile policys o).map Output.written).map Output.program := by
    intro o
    rw [Option.map_map]
    exact congrArg (Option.map · _) (funext fun out => (written_program out).symm)
  exact ⟨hwritten, by rw [hprogram, hprogram, hwritten]⟩

end SeccompPolicy
