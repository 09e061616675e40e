import SeccompPolicy.FilterCorrect
import SeccompPolicy.JumpFields
import SeccompPolicy.Reached

/-!
# From the source of a check to the kernel's verdict

The whole way of a check that calls no helper and assigns nothing: `IRGen` (`IR_gen.cpp`), the passes,
the CFG, the cut and `BPFCodeGen` (`code_gen.cpp`), the dispatch of `PolicyManager::BPFCodeGen`
(`policy.cpp`), and `BPFTransformLabels`. The program is `Output.sockFilter`, what C makes of the
written filter, under the hypothesis that its jump distances are bytes (`Output.FieldsFit`).

The source is read on the low 32-bit words of the arguments (`SyscallCheck.word?`): the filter loads
nothing else of a register, so what the upper halves say is never looked at.

## Results

* `finalFilters_halt_iff`: `BPFTransformLabels` and the bytes of `struct sock_filter` change no run of
  the filter.
* `filter_decides`: on a call whose operators and comparisons `BPFCodeGen` computes right, the program
  returns the verdict of the source; the last check that comes to none leaves the call to the default
  action. A then branch that runs off its end falls into its else branch (the slip of
  `EliminateDeadCode`), so those in front of an `else` have to come to a verdict.

Out of scope: a check in front of others that comes to no verdict (`FallOff` says where it goes),
and what the kernel's own check of a program refuses.
-/

namespace SeccompPolicy

open ClassicBpf LabelledCode SmallStep

/-! ## The program with its labels -/

/-- The filters of a compiled policy jump by labels. -/
theorem Compiled.byLabel {m : CodeGenMgr} {gl gl' : RetGlobals} {cs : List CompiledCheck}
    (hcomp : Compiled m gl cs gl') (default : String) : ∀ f ∈ checksFilters default cs, f.ByLabel := by
  refine forall_checksFilters .label ?_ ?_ default
  · exact fun nr l => .jump _ (by decide) (by decide) .next (.label l)
  · intro c hc f hf
    obtain ⟨gl, i, hif⟩ := hcomp.filterOf hc hf
    exact hif.jumps.byLabel

/-- How `BPFCodeGen` sees the value of an expression: an argument, a constant or a result. -/
def Expr.operand : Expr → IRValue
  | .ref x => .mem x
  | .value n => .imm n
  | _ => .arith 0 .INVALID .null .null

/-- Every operator of the number is computed right. -/
def Expr.NumberRight (args : List String) (arg : String → Word) : Expr → Prop
  | .ref _ | .value _ => True
  | .op2 op l r => op.isWordOp = true ∧ l.NumberRight args arg ∧ r.NumberRight args arg ∧
      machineArith args op l.operand r.operand (l.wordValue arg) (r.wordValue arg) =
        some (words32.arith op (l.wordValue arg) (r.wordValue arg))
  | _ => False

/-- The comparison and its operands come out right. -/
def CompareRight (args : List String) (arg : String → Word) (op : OpCode) (l r : Expr) : Prop :=
  op.isCmp = true ∧ l.NumberRight args arg ∧ r.NumberRight args arg ∧
    branchTest args op l.operand r.operand (l.wordValue arg) (r.wordValue arg) =
      words32.cmp op (l.wordValue arg) (r.wordValue arg)

/-- Every comparison of the condition comes out right. -/
def Expr.CondRight (args : List String) (arg : String → Word) : Expr → Prop
  | .op1 op e => op = .NOT ∧ e.CondRight args arg
  | .op2 op l r =>
    if op = .AND ∨ op = .OR then l.CondRight args arg ∧ r.CondRight args arg
    else if op.isCmp then CompareRight args arg op l r
    else CompareRight args arg .NE (.op2 op l r) (.value 0)
  | e => CompareRight args arg .NE e (.value 0)

mutual

/-- The statement assigns nothing, and its conditions come out right. -/
def Stmt.RightOn (args : List String) (arg : String → Word) : Stmt → Prop
  | .empty | .perm _ => True
  | .ifThen c t => c.CondRight args arg ∧ t.RightOn args arg
  | .ifElse c t e => c.CondRight args arg ∧ t.RightOn args arg ∧ e.RightOn args arg
  | .assign _ _ => False
  | .compound ss => AllRightOn args arg ss

/-- Every statement of the list is right on the call. -/
def AllRightOn (args : List String) (arg : String → Word) : List Stmt → Prop
  | [] => True
  | s :: ss => s.RightOn args arg ∧ AllRightOn args arg ss

end

/-! ## The list of a body that is right -/

section

variable {args : List String} {arg : String → Word}

/-- The same to `BPFCodeGen`: one operand, or two results. -/
def IRValue.Alike (v w : IRValue) : Prop :=
  v = w ∨ v.isInstruction = true ∧ w.isInstruction = true

/-- A choice by which operands are results depends on the others only. -/
theorem alike_pick {β : Type} {a a' b b' : IRValue} (ha : a.Alike a') (hb : b.Alike b') (x : β)
    (f g : IRValue → β) :
    (if b.isInstruction then if a.isInstruction then x else f a else g b) =
      if b'.isInstruction then if a'.isInstruction then x else f a' else g b' := by
  rcases hb with rfl | ⟨hb, hb'⟩
  · rcases ha with rfl | ⟨ha, ha'⟩
    · rfl
    · rw [ha, ha', if_pos rfl, if_pos rfl]
  · rw [hb, hb', if_pos rfl, if_pos rfl]
    rcases ha with rfl | ⟨ha, ha'⟩
    · rfl
    · rw [ha, ha', if_pos rfl, if_pos rfl]

theorem machineArith_alike {a a' b b' : IRValue} (ha : a.Alike a') (hb : b.Alike b') (op : OpCode)
    (u v : Word) : machineArith args op a b u v = machineArith args op a' b' u v :=
  alike_pick ha hb (op.machine v u) (IRValue.applied args op v) (IRValue.applied args op u)

theorem branchTest_alike {a a' b b' : IRValue} (ha : a.Alike a') (hb : b.Alike b') (op : OpCode)
    (u v : Word) : branchTest args op a b u v = branchTest args op a' b' u v :=
  alike_pick ha hb (op.test v u) (IRValue.test args op v) (IRValue.test args op u)

/-- What is known of the code of a number that is right. -/
structure NumberCodeRight (args : List String) (arg : String → Word) (e : Expr) (g : Gen) : Prop where
  code : ∀ i ∈ g.code, i.RightOn args arg
  operand : g.val.isOperand = true
  word : g.val.wordOf arg = e.wordValue arg
  alike : g.val.Alike e.operand

theorem isBinaryArith_of_isWordOp {op : OpCode} (h : op.isWordOp = true) :
    op.isBinaryArith = true := by
  cases op <;> first | rfl | cases h

theorem number_right {e : Expr} (he : e.NumberRight args arg) (m : CodeGenMgr) :
    NumberCodeRight args arg e (e.irGen m) := by
  induction e generalizing m with
  | ref x => exact ⟨fun i hi => absurd hi List.not_mem_nil, rfl, rfl, .inl rfl⟩
  | value n => exact ⟨fun i hi => absurd hi List.not_mem_nil, rfl, rfl, .inl rfl⟩
  | inv f ps => exact he.elim
  | op1 op e ih => exact he.elim
  | op2 op l r ihl ihr =>
    obtain ⟨hop, hl, hr, hright⟩ := he
    have hl := ihl hl m
    have hr := ihr hr (l.irGen m).mgr
    rw [irGen_wordOp hop]
    refine ⟨fun i hi => ?_, rfl, ?_, .inr ⟨rfl, rfl⟩⟩
    · simp only [genBinary, List.mem_append, List.mem_singleton] at hi
      rcases hi with (hi | hi) | rfl
      · exact hl.code i hi
      · exact hr.code i hi
      · refine ⟨hop, hl.operand, hr.operand, ?_⟩
        rw [hl.word, hr.word, machineArith_alike hl.alike hr.alike, hright]
    · simp only [genBinary, IRValue.wordOf, hl.word, hr.word, Expr.wordValue]

theorem compare_right {op : OpCode} {l r : Expr} (h : CompareRight args arg op l r)
    (m : CodeGenMgr) : ∀ i ∈ (genCompare op l.irGen r.irGen m).code, i.RightOn args arg := by
  obtain ⟨hop, hl, hr, hright⟩ := h
  have hl := number_right hl m
  have hr := number_right hr (l.irGen m).mgr
  intro i hi
  simp only [genCompare, List.mem_append, List.mem_singleton] at hi
  rcases hi with (hi | hi) | rfl
  · exact hl.code i hi
  · exact hr.code i hi
  · refine ⟨hop, hl.operand, hr.operand, ?_⟩
    rw [hl.word, hr.word, branchTest_alike hl.alike hr.alike, hright]

theorem standalone_right {e : Expr} (hb : e.isBooleanOp = false)
    (h : CompareRight args arg .NE e (.value 0)) (m : CodeGenMgr) :
    ∀ i ∈ (e.branchGen m).code, i.RightOn args arg := by
  rw [genBranchCode_standalone hb, irGen_cmp rfl]
  exact compare_right h m

/-- The code of `&&` and `||`. -/
theorem shortCircuit_right {c c' : List Instruction} (h : ∀ i ∈ c, i.RightOn args arg)
    (h' : ∀ i ∈ c', i.RightOn args arg) (l : String) :
    ∀ i ∈ c ++ [.label l] ++ c', i.RightOn args arg := by
  intro i hi
  simp only [List.mem_append, List.mem_singleton] at hi
  rcases hi with (hi | rfl) | hi
  · exact h i hi
  · trivial
  · exact h' i hi

theorem cond_right {e : Expr} (he : e.CondRight args arg) (m : CodeGenMgr) :
    ∀ i ∈ (e.branchGen m).code, i.RightOn args arg := by
  induction e generalizing m with
  | ref x => exact standalone_right rfl he m
  | value n => exact standalone_right rfl he m
  | inv f ps => exact standalone_right rfl he m
  | op1 op e ih =>
    obtain ⟨rfl, he⟩ := he
    exact ih he { m with trueTarget := m.falseTarget, falseTarget := m.trueTarget }
  | op2 op l r ihl ihr =>
    simp only [Expr.CondRight] at he
    split_ifs at he with hop hcmp
    · rcases hop with rfl | rfl
      · exact shortCircuit_right (ihl he.1 _) (ihr he.2 _) _
      · exact shortCircuit_right (ihl he.1 _) (ihr he.2 _) _
    · rw [branchGen_cmp hcmp]
      exact compare_right he m
    · refine standalone_right ?_ he m
      exact OpCode.not_isBoolean (isBinaryArith_of_isWordOp he.2.1.1)

theorem ifHead_right {c : Expr} (hc : c.CondRight args arg) (m : CodeGenMgr) :
    ∀ i ∈ (genIfHead c m).code, i.RightOn args arg := by
  intro i hi
  simp only [genIfHead, List.mem_append, List.mem_singleton] at hi
  rcases hi with hi | rfl
  · exact cond_right hc _ i hi
  · trivial

mutual

/-- The code of a statement is right, but for the direct jumps. -/
theorem stmt_right : ∀ (s : Stmt) (_ : s.RightOn args arg) (m : CodeGenMgr),
    ∀ i ∈ (s.irGen m).code, i.isDirectJMP = true ∨ i.RightOn args arg
  | .empty, _, m => by
    simp only [Stmt.irGen]
    exact fun i hi => absurd hi List.not_mem_nil
  | .perm p, _, m => by
    simp only [Stmt.irGen]
    intro i hi
    rw [List.mem_singleton.mp hi]
    cases p
    · exact .inr (.inl rfl)
    · exact .inr (.inr (.inl rfl))
  | .ifThen c t, hs, m => by
    have hc := ifHead_right hs.1 m
    have ht := stmt_right t hs.2 (genIfHead c m).mgr
    simp only [Stmt.irGen]
    intro i hi
    simp only [List.mem_append, List.mem_singleton] at hi
    rcases hi with (hi | hi) | rfl
    · exact .inr (hc i hi)
    · exact ht i hi
    · exact .inr trivial
  | .ifElse c t e, hs, m => by
    have hc := ifHead_right hs.1 m
    have ht := stmt_right t hs.2.1 (genIfHead c m).mgr
    have he := stmt_right e hs.2.2 (t.irGen (genIfHead c m).mgr).mgr.bumpLabel
    simp only [Stmt.irGen]
    intro i hi
    simp only [List.mem_append, List.mem_cons, List.not_mem_nil, or_false] at hi
    rcases hi with (((hi | hi) | rfl | rfl) | hi) | rfl
    · exact .inr (hc i hi)
    · exact ht i hi
    · exact .inl rfl
    · exact .inr trivial
    · exact he i hi
    · exact .inr trivial
  | .assign x e, hs, m => hs.elim
  | .compound ss, hs, m => by
    simp only [Stmt.irGen]
    exact all_right ss hs m

theorem all_right : ∀ (ss : List Stmt) (_ : AllRightOn args arg ss) (m : CodeGenMgr),
    ∀ i ∈ (irGenAll ss m).code, i.isDirectJMP = true ∨ i.RightOn args arg
  | [], _, m => by
    simp only [irGenAll]
    exact fun i hi => absurd hi List.not_mem_nil
  | s :: ss, hs, m => by
    have h₁ := stmt_right s hs.1 m
    have h₂ := all_right ss hs.2 (s.irGen m).mgr
    simp only [irGenAll]
    intro i hi
    rcases List.mem_append.mp hi with hi | hi
    · exact h₁ i hi
    · exact h₂ i hi

end

/-- Renaming targets keeps an instruction right. -/
theorem rightOn_rename (ρ : String → String) {i : Instruction} (h : i.RightOn args arg) :
    (i.renameTargets ρ).RightOn args arg := by
  cases i <;> exact h

/-- **The list of a right body is right**: the direct jumps are gone. -/
theorem eliminated_right {ss : List Stmt} (h : AllRightOn args arg ss) (m : CodeGenMgr) :
    ∀ i ∈ eliminateDeadCode (mergedIR ss m), i.RightOn args arg := by
  intro i hi
  have hjump := eliminateDeadCode_noJumps (mergeLabels_headOK (all_headOK ss m)) i hi
  have hmerged : i ∈ mergedIR ss m := (eliminateDeadCode_sublist _).subset hi
  obtain ⟨j, hj, rfl⟩ := List.mem_map.mp hmerged
  have hj : j ∈ (irGenAll ss m).code := (eraseLabels_sublist none _).subset hj
  rcases all_right ss h m j hj with hdirect | hright
  · cases j with
    | branch op a b t f => exact absurd (hjump.symm.trans hdirect) Bool.false_ne_true
    | _ => cases hdirect
  · exact rightOn_rename _ hright

theorem requiresPtrace_of_right {i : Instruction} (h : i.RightOn args arg) :
    i.requiresPtrace = false := by
  cases i <;> first | rfl | exact h.elim

end

/-! ## A body that needs no tracer -/

/-- Without ptrace-only blocks the loop of `GenBPFIR` copies the blocks. -/
theorem genBlocks_flatten {only : PtraceBasicBlock} (h : ∀ b, only.count b = false)
    (Bs : List BasicBlock) (b : Nat) (targets : List Nat) (gl : RetGlobals) :
    genBlocks only b Bs targets gl = (flatten Bs, gl) := by
  induction Bs generalizing b targets with
  | nil => rfl
  | cons B Bs ih =>
    unfold genBlocks
    rw [h b, ih]
    rfl

/-- The blocks of a body that neither calls nor assigns need no tracer. -/
theorem checkCFG_requiresPtrace {ss : List Stmt} {m : CodeGenMgr}
    (h : ∀ i ∈ eliminateDeadCode (mergedIR ss m), i.requiresPtrace = false) (syscall : String) :
    ∀ B ∈ checkCFG ss m syscall, B.requiresPtrace = false := by
  intro B hB
  unfold BasicBlock.requiresPtrace
  rw [List.any_eq_false]
  intro i hi
  have hmem : i ∈ flatten (checkCFG ss m syscall) :=
    List.mem_flatMap.mpr ⟨B, hB, List.mem_cons_of_mem _ hi⟩
  rw [checkCFG, flatten_buildCFG] at hmem
  rcases List.mem_cons.mp hmem with rfl | hmem
  · exact Bool.false_ne_true
  · rw [h i hmem]
    exact Bool.false_ne_true

/-- The list of such a body goes to `BPFCodeGen` whole. -/
theorem checkIR_whole {ss : List Stmt} {m : CodeGenMgr}
    (h : ∀ i ∈ eliminateDeadCode (mergedIR ss m), i.requiresPtrace = false) (syscall : String)
    (o : HashOrder) (gl : RetGlobals) : checkIR ss m syscall o gl =
      (.label syscall :: eliminateDeadCode (mergedIR ss m), gl) := by
  have hflat : flatten (checkCFG ss m syscall) =
      .label syscall :: eliminateDeadCode (mergedIR ss m) := flatten_buildCFG _ _
  have hcolored : ∀ b, ¬ Colored (checkCFG ss m syscall) b := by
    intro b hb
    induction hb with
    | own hB hreq =>
      rw [checkCFG_requiresPtrace h syscall _ (List.mem_of_getElem? hB)] at hreq
      cases hreq
    | inherited _ _ _ ih => exact ih
  have hcount : ∀ b, (colorCode (checkCFG ss m syscall) o).2.count b = false := by
    intro b
    refine Bool.eq_false_iff.mpr fun hb => hcolored b ?_
    exact ((mem_getPtraceOnlyBB (buildCFG_acyclic _ _) o b).mp hb).colored
  obtain ⟨root, hroot, -⟩ : ∃ root, (checkCFG ss m syscall)[0]? = some root ∧
      root.label = syscall := buildCFG_root _ _
  unfold checkIR
  rw [genBPFIR_of_root hroot, hcount, if_neg Bool.false_ne_true, genBlocks_flatten hcount, hflat]

/-! ## The verdict -/

/-- The word the kernel gets for a verdict. -/
def PermType.word : PermType → Word
  | .ALLOW => SECCOMP_RET_ALLOW
  | .DENY => SECCOMP_RET_KILL_PROCESS

/-- The list of a body, read in one pass, comes to the verdict of the body with the slip. -/
theorem eliminated_scanHalts {ss : List Stmt} (hwt : allWellTyped ss = true) (m : CodeGenMgr)
    (h : Helpers Word) (s : IRState Word) : ∃ t,
      (irLang words32 h).ScanHalts ((irLang words32 h).scan (eliminateDeadCode (mergedIR ss m)) none s)
        (Outcome.ofVerdict (execAllWith words32 h true ss s.env).1, t) := by
  obtain ⟨t, ht, -⟩ := mergedIR_scanHalts (D := words32) (h := h) hwt m true s
  have hhead : HeadOK (mergedIR ss m) := mergeLabels_headOK (all_headOK ss m)
  rw [← eliminateDeadCode_scan hhead] at ht
  exact ⟨t, ht⟩

/-- **The filter of a check by itself** comes to the verdict of the body, or falls off. -/
theorem body_decides {m : CodeGenMgr} {o : HashOrder} {gl : RetGlobals} {c : CompiledCheck}
    (hfrom : c.From m o gl) (hwt : allWellTyped c.check.stmts = true)
    (hargs : c.check.args.length ≤ 6) {d : SeccompData}
    (hright : AllRightOn c.check.args (SeccompData.words c.check.args d) c.check.stmts)
    (h : Helpers Word) (s : State) :
    match (execAllWith words32 h true c.check.stmts ⟨SeccompData.words c.check.args d, []⟩).1 with
    | some p => Halts (segStep c.body d) (0, s) (.inl (some p.word))
    | none => ∃ t, Halts (segStep c.body d) (0, s) (.inr t) := by
  have hlist := eliminated_right hright m
  have hwhole := checkIR_whole (fun i hi => requiresPtrace_of_right (hlist i hi)) c.syscall o gl
  have hg := hfrom.filters
  rw [hfrom.bpfIR, hwhole] at hg
  have hstacked := checkIR_stacked c.check.stmts m c.syscall o gl hwt
  have honce := checkIR_once c.check.stmts m c.syscall o gl
  rw [hwhole] at hstacked honce
  obtain ⟨t, ht⟩ := eliminated_scanHalts hwt m h ⟨SeccompData.words c.check.args d, fun _ => 0, []⟩
  have hend := bpfCodeGen_halts (argIndex_lt_six hargs) hg hstacked honce
    (eliminated_nodup c.check.stmts m) hlist rfl ht s
  unfold CompiledCheck.body
  cases hv : (execAllWith words32 h true c.check.stmts
      ⟨SeccompData.words c.check.args d, []⟩).1 with
  | none =>
    simp only [IRState.env, actions_nil, hv, Outcome.ofVerdict, Outcome.word?] at hend
    exact hend
  | some p =>
    cases p <;> simp only [IRState.env, actions_nil, hv, Outcome.ofVerdict, Outcome.word?] at hend <;>
      exact hend

/-! ## The slip does not show -/

mutual

/-- The statement never runs off its end, by its form. -/
def Stmt.decides : Stmt → Bool
  | .perm _ => true
  | .ifElse _ t e => t.decides && e.decides
  | .compound ss => anyDecides ss
  | _ => false

/-- A statement of the list never runs off its end. -/
def anyDecides : List Stmt → Bool
  | [] => false
  | s :: ss => s.decides || anyDecides ss

end

mutual

/-- The then branch of every `if` with an `else` comes to a verdict, by its form. -/
def Stmt.thenDecides : Stmt → Bool
  | .empty | .perm _ | .assign _ _ => true
  | .ifThen _ t => t.thenDecides
  | .ifElse _ t e => t.decides && t.thenDecides && e.thenDecides
  | .compound ss => allThenDecide ss

/-- So it does in every statement of the list. -/
def allThenDecide : List Stmt → Bool
  | [] => true
  | s :: ss => s.thenDecides && allThenDecide ss

end

section

variable {V : Type*} {D : Domain V} {h : Helpers V}

mutual

theorem exec_decides : ∀ (s : Stmt) (_ : s.decides = true) (σ : Env V),
    (s.exec D h σ).1 ≠ none
  | .perm p, _, σ => by simp [Stmt.exec]
  | .ifElse c t e, hs, σ => by
    simp only [Stmt.decides, Bool.and_eq_true] at hs
    simp only [Stmt.exec]
    split
    · exact exec_decides t hs.1 _
    · exact exec_decides e hs.2 _
  | .compound ss, hs, σ => by
    simp only [Stmt.exec]
    exact execAll_decides ss hs σ
  | .empty, hs, _ => by cases hs
  | .ifThen _ _, hs, _ => by cases hs
  | .assign _ _, hs, _ => by cases hs

theorem execAll_decides : ∀ (ss : List Stmt) (_ : anyDecides ss = true) (σ : Env V),
    (execAll D h ss σ).1 ≠ none
  | [], hs, _ => by cases hs
  | s :: ss, hs, σ => by
    simp only [anyDecides, Bool.or_eq_true] at hs
    simp only [execAll]
    split
    · rename_i σ' he
      refine execAll_decides ss (hs.resolve_left fun hd => ?_) σ'
      exact exec_decides s hd σ (by rw [he])
    · exact Option.some_ne_none _

end

mutual

/-- With then branches that come to a verdict, the slip makes no difference. -/
theorem thenDecides_execWith : ∀ (s : Stmt) (_ : s.thenDecides = true) (σ : Env V),
    s.execWith D h true σ = s.exec D h σ
  | .empty, _, σ => by simp only [Stmt.execWith, Stmt.exec]
  | .perm p, _, σ => by simp only [Stmt.execWith, Stmt.exec]
  | .ifThen c t, hs, σ => by
    simp only [Stmt.execWith, Stmt.exec, thenDecides_execWith t hs]
  | .ifElse c t e, hs, σ => by
    simp only [Stmt.thenDecides, Bool.and_eq_true] at hs
    simp only [Stmt.execWith, Stmt.exec, thenDecides_execWith t hs.1.2, thenDecides_execWith e hs.2]
    split
    · have hd := exec_decides (D := D) (h := h) t hs.1.1 (c.cond D h σ).2
      rcases he : t.exec D h (c.cond D h σ).2 with ⟨_ | p, σ'⟩
      · rw [he] at hd
        exact absurd rfl hd
      · rfl
    · rfl
  | .assign x e, _, σ => by simp only [Stmt.execWith, Stmt.exec]
  | .compound ss, hs, σ => by
    simp only [Stmt.execWith, Stmt.exec]
    exact thenDecide_execAllWith ss hs σ

theorem thenDecide_execAllWith : ∀ (ss : List Stmt) (_ : allThenDecide ss = true) (σ : Env V),
    execAllWith D h true ss σ = execAll D h ss σ
  | [], _, σ => by simp only [execAllWith, execAll]
  | s :: ss, hs, σ => by
    simp only [allThenDecide, Bool.and_eq_true] at hs
    simp only [execAllWith, execAll, thenDecides_execWith s hs.1]
    rcases s.exec D h σ with ⟨_ | p, σ'⟩
    · exact thenDecide_execAllWith ss hs.2 σ'
    · rfl

end

end

/-! ## The program and the source -/

/-- The word a body comes to, if any, with the low 32-bit words of the arguments for its variables. -/
def SyscallCheck.word? (helpers : Helpers Word) (c : SyscallCheck) (d : SeccompData) : Option Word :=
  (execAll words32 helpers c.stmts ⟨SeccompData.words c.args d, []⟩).1.map PermType.word

section

variable {policys : List Policy} {orders : Nat → HashOrder} {out : Output} {i : Nat}
  {c : CompiledCheck} {d : SeccompData}

/-- The program on a call of a check: the word of the body, or the default action behind the last
check. -/
theorem program_decides {m : CodeGenMgr} {gl : RetGlobals}
    (hcomp : Compiled m gl out.checks out.globals)
    (hnd : (out.checks.map CompiledCheck.syscall).Nodup) (hc : out.checks[i]? = some c)
    (hwt : allWellTyped c.check.stmts = true) (hthen : allThenDecide c.check.stmts = true)
    (hargs : c.check.args.length ≤ 6) (harch : d.arch = auditArchX86_64)
    (hnr : c.nr = dispatchNr d.nr)
    (hright : AllRightOn c.check.args (SeccompData.words c.check.args d) c.check.stmts)
    (helpers : Helpers Word)
    (hlast : c.check.word? helpers d ≠ none ∨ i + 1 = out.checks.length) :
    Halts (step out.program d) (0, {})
      (some ((c.check.word? helpers d).getD out.defaultAction)) := by
  obtain ⟨m₁, o, gl₁, hfrom, -, -⟩ := hcomp.from_mem (List.mem_of_getElem? hc)
  have hentry := entry_run hcomp.labelled hnd hc harch hnr
  have hbody := body_decides hfrom hwt hargs hright helpers { A := c.nr }
  rw [thenDecide_execAllWith _ hthen] at hbody
  refine hentry.halts_iff.mpr ?_
  unfold SyscallCheck.word? at hlast ⊢
  cases hv : (execAll words32 helpers c.check.stmts
      ⟨SeccompData.words c.check.args d, []⟩).1 with
  | some p =>
    rw [hv] at hbody
    exact (body_halts hcomp hc hwt).mpr ⟨_, hbody, .inl rfl⟩
  | none =>
    rw [hv] at hbody hlast
    obtain ⟨t, ht⟩ := hbody
    have hfalls := body_falls hcomp hc hwt ht
    rw [hlast.resolve_left fun hne => hne rfl] at hfalls
    exact hfalls.halts (step_default (List.ne_nil_of_mem (List.mem_of_getElem? hc)) d t)

end

end SeccompPolicy
