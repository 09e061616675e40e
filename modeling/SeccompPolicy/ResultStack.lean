import SeccompPolicy.Monitor
import SeccompPolicy.ScratchRuns

/-!
# Results are used in the order of a stack

`BPFCodeGen` has two places for results, `A` and the first scratch word, and no record of which
result is needed when. It relies on `IRGen`: an instruction uses the results that were computed
last and not used yet.

`stackMonitor` says so of a list, with the unused results since the last label as its state; it is
a monitor in the sense of `Monitor`. `ResultsOnce` says that no result is computed under a number
that is taken, so that a result can be told by its number.

Both hold of what `IRGen` emits, and the passes and the cut of the CFG keep them. For the cut this
needs that a stub, which stands in for a block, may stand anywhere.

## Results

* `cond_induct`: what holds of the code of a comparison of two numbers, and is kept by `!`, `&&`
  and `||`, holds of the code of every condition.
* `number_stacks`, `cond_stacked`, `all_stacked`: generated code uses results as a stack.
* `all_numbered`: and numbers them one by one.
* `checkIR_stacked`, `checkIR_once`: the list `BPFCodeGen` gets.
-/

namespace SeccompPolicy

/-! ## Induction over conditions -/

/-- What holds of the code of a comparison of two numbers, and is kept by `!`, `&&` and `||`, holds
of the code of every condition. -/
theorem cond_induct {P : (CodeGenMgr → Gen) → Prop}
    (compare : ∀ (op : OpCode) (l r : Expr), op.isCmp = true → l.isArith = true → r.isArith = true →
      P (genCompare op l.irGen r.irGen))
    (not : ∀ gen, P gen → P (genNot gen)) (and : ∀ gen gen', P gen → P gen' → P (genAnd gen gen'))
    (or : ∀ gen gen', P gen → P gen' → P (genOr gen gen')) (e : Expr) (he : e.isCond = true) :
    P e.branchGen := by
  have standalone : ∀ e : Expr, e.isArith = true → e.isBooleanOp = false → P e.branchGen := by
    intro e he hb
    have hgen : e.branchGen = genCompare .NE e.irGen (Expr.value 0).irGen := by
      funext m
      rw [genBranchCode_standalone hb, irGen_cmp rfl]
    rw [hgen]
    exact compare .NE e (.value 0) rfl he rfl
  induction e with
  | ref x => exact standalone _ rfl rfl
  | value n => exact standalone _ rfl rfl
  | inv f ps => exact standalone _ rfl rfl
  | op1 op e ih =>
    simp only [Expr.isCond] at he
    split_ifs at he with hop
    · subst hop
      exact not _ (ih he)
    · simp only [Bool.and_eq_true, decide_eq_true_eq] at he
      obtain ⟨rfl, he⟩ := he
      exact standalone _ (by simpa [Expr.isArith] using he) rfl
  | op2 op l r ihl ihr =>
    simp only [Expr.isCond] at he
    split_ifs at he with hop
    · rw [Bool.and_eq_true] at he
      rcases hop with rfl | rfl
      · exact and _ _ (ihl he.1) (ihr he.2)
      · exact or _ _ (ihl he.1) (ihr he.2)
    · simp only [Bool.and_eq_true, Bool.or_eq_true] at he
      obtain ⟨⟨hc, hl⟩, hr⟩ := he
      rcases hc with hc | hc
      · rw [branchGen_cmp hc]
        exact compare op l r hc hl hr
      · refine standalone _ (by simp only [Expr.isArith, hc, hl, hr, Bool.and_self]) ?_
        exact OpCode.not_isBoolean hc

/-! ## The stack of results -/

/-- The results an instruction uses, the last one first. -/
def Instruction.used (i : Instruction) : List IRValue :=
  if i.isDirectJMP then [] else (i.operands.filter IRValue.isInstruction).reverse

/-- The unused results behind an instruction. -/
def stackAfter (st : List IRValue) : Instruction → List IRValue
  | .label _ => []
  | i => i.result?.toList ++ st.drop i.used.length

/-- The monitor of the stack. -/
def stackMonitor : Monitor (List IRValue) where
  start := []
  after := stackAfter
  Admits st i := i.used <+: st
  after_label _ _ := rfl
  admits_label _ _ := List.nil_prefix
  after_rename _ _ i := by cases i <;> rfl
  admits_rename _ _ i := by cases i <;> exact Iff.rfl
  after_isDirectJMP _ i _ hi := by
    cases i with
    | branch op a b t f => simp [stackAfter, Instruction.result?, Instruction.used, hi]
    | _ => cases hi

/-- The value of an expression, when it is a result. -/
def IRValue.asResult (v : IRValue) : List IRValue := [v].filter IRValue.isInstruction

/-- The results two operands use, the last one first. -/
theorem used_pair (v w : IRValue) :
    ([v, w].filter IRValue.isInstruction).reverse = w.asResult ++ v.asResult := by
  cases hv : v.isInstruction <;> cases hw : w.isInstruction <;>
    simp [IRValue.asResult, hv, hw]

/-- The code of a number leaves its result on the stack. -/
def StacksNumber (gen : CodeGenMgr → Gen) : Prop := ∀ m st,
  stackMonitor.Accepts st (gen m).code ∧
    (gen m).code.foldl stackAfter st = (gen m).val.asResult ++ st

/-- The code can stand behind any results. -/
def Stacked (code : List Instruction) : Prop := ∀ st, stackMonitor.Accepts st code

theorem Stacked.append {c c' : List Instruction} (h : Stacked c) (h' : Stacked c') :
    Stacked (c ++ c') := fun st => Monitor.accepts_append.mpr ⟨h st, h' _⟩

theorem stacked_nil : Stacked [] := fun _ => trivial

/-- An instruction that uses no results. -/
theorem stacked_single {i : Instruction} (hi : i.used = []) : Stacked [i] := fun _ =>
  ⟨by show i.used <+: _; rw [hi]; exact List.nil_prefix, trivial⟩

theorem stacked_label (l : String) : Stacked [.label l] := stacked_single rfl

theorem stacksNumber_leaf {v : IRValue} (hv : v.isInstruction = false) :
    StacksNumber fun m => ⟨v, [], m⟩ := fun m st => ⟨trivial, by simp [IRValue.asResult, hv]⟩

/-- Behind the code of two operands both are on the stack. -/
theorem StacksNumber.pair {l r : CodeGenMgr → Gen} (hl : StacksNumber l) (hr : StacksNumber r)
    (m : CodeGenMgr) (st : List IRValue) :
    stackMonitor.Accepts st ((l m).code ++ (r (l m).mgr).code) ∧
      ((l m).code ++ (r (l m).mgr).code).foldl stackAfter st =
        (r (l m).mgr).val.asResult ++ (l m).val.asResult ++ st := by
  obtain ⟨hacc, hend⟩ := hl m st
  obtain ⟨hacc', hend'⟩ := hr (l m).mgr ((l m).code.foldl stackAfter st)
  refine ⟨Monitor.accepts_append.mpr ⟨hacc, hacc'⟩, ?_⟩
  rw [List.foldl_append, hend', hend, List.append_assoc]

/-- A binary operator takes both results from the stack and puts its own there. -/
theorem stacksNumber_binary {op : OpCode} {l r : CodeGenMgr → Gen} (hl : StacksNumber l)
    (hr : StacksNumber r) : StacksNumber (genBinary op l r) := by
  intro m st
  obtain ⟨hacc, hend⟩ := hl.pair hr m st
  have hused : ∀ id, (Instruction.arith id op (l m).val (r (l m).mgr).val).used =
      (r (l m).mgr).val.asResult ++ (l m).val.asResult := fun id => used_pair _ _
  refine ⟨Monitor.accepts_append.mpr ⟨hacc, ?_, trivial⟩, ?_⟩
  · rw [show stackMonitor.after = stackAfter from rfl, hend]
    show Instruction.used _ <+: _
    rw [hused]
    exact List.prefix_append _ _
  · simp only [genBinary, List.foldl_concat, hend]
    rw [stackAfter, hused, List.drop_left]
    · rfl
    · exact fun l h => by cases h

theorem stacksNumber_minus {a : CodeGenMgr → Gen} (ha : StacksNumber a) :
    StacksNumber (genMinus a) := by
  intro m st
  obtain ⟨hacc, hend⟩ := ha m st
  have hused : ∀ id, (Instruction.arith id .UMINUS (a m).val .null).used = (a m).val.asResult :=
    fun id => used_pair _ _
  refine ⟨Monitor.accepts_append.mpr ⟨hacc, ?_, trivial⟩, ?_⟩
  · rw [show stackMonitor.after = stackAfter from rfl, hend]
    show Instruction.used _ <+: _
    rw [hused]
    exact List.prefix_append _ _
  · simp only [genMinus, List.foldl_concat, hend]
    rw [stackAfter, hused, List.drop_left]
    · rfl
    · exact fun l h => by cases h

/-- **The code of a number** leaves its result on the stack. By induction over the expression. -/
theorem number_stacks (e : Expr) (he : e.isArith = true) : StacksNumber e.irGen := by
  induction e with
  | ref x => exact stacksNumber_leaf rfl
  | value n => exact stacksNumber_leaf rfl
  | inv f ps => exact fun m st => ⟨⟨List.nil_prefix, trivial⟩, rfl⟩
  | op1 op e ih =>
    simp only [Expr.isArith, Bool.and_eq_true, decide_eq_true_eq] at he
    obtain ⟨rfl, he⟩ := he
    exact stacksNumber_minus (ih he)
  | op2 op l r ihl ihr =>
    simp only [Expr.isArith, Bool.and_eq_true] at he
    have hgen : (Expr.op2 op l r).irGen = genBinary op l.irGen r.irGen := by
      funext m
      exact irGen_binary he.1.1 l r m
    rw [hgen]
    exact stacksNumber_binary (ihl he.1.2) (ihr he.2)

/-- A comparison takes both results and leaves none. -/
theorem stacked_compare {op : OpCode} {l r : CodeGenMgr → Gen} (hl : StacksNumber l)
    (hr : StacksNumber r) (m : CodeGenMgr) : Stacked (genCompare op l r m).code := by
  intro st
  obtain ⟨hacc, hend⟩ := hl.pair hr m st
  refine Monitor.accepts_append.mpr ⟨hacc, ?_, trivial⟩
  rw [show stackMonitor.after = stackAfter from rfl, hend]
  show Instruction.used _ <+: _
  unfold Instruction.used
  split
  · exact List.nil_prefix
  · rw [Instruction.operands, used_pair]
    exact List.prefix_append _ _

/-- Conditions. -/
theorem cond_stacked {e : Expr} (he : e.isCond = true) (m : CodeGenMgr) :
    Stacked (e.branchGen m).code := by
  refine cond_induct (P := fun gen => ∀ m, Stacked (gen m).code) ?_ ?_ ?_ ?_ e he m
  · exact fun op l r _ hl hr => stacked_compare (number_stacks l hl) (number_stacks r hr)
  · exact fun gen hgen m => hgen _
  · exact fun gen gen' hgen hgen' m => ((hgen _).append (stacked_label _)).append (hgen' _)
  · exact fun gen gen' hgen hgen' m => ((hgen _).append (stacked_label _)).append (hgen' _)

theorem genIfHead_stacked {c : Expr} (hc : c.isCond = true) (m : CodeGenMgr) :
    Stacked (genIfHead c m).code := (cond_stacked hc _).append (stacked_label _)

theorem assign_stacked {e : Expr} (he : e.isArith = true) (x : String) (m : CodeGenMgr) :
    Stacked ((e.irGen m).code ++ [.store (e.irGen m).val (.mem x)]) := by
  intro st
  obtain ⟨hacc, hend⟩ := number_stacks e he m st
  refine Monitor.accepts_append.mpr ⟨hacc, ?_, trivial⟩
  have hused : (Instruction.store (e.irGen m).val (.mem x)).used = (e.irGen m).val.asResult := by
    simp only [Instruction.used, Instruction.isDirectJMP, Bool.false_eq_true, if_false,
      Instruction.operands, IRValue.asResult]
    cases hv : (e.irGen m).val.isInstruction <;> simp [hv]
  rw [show stackMonitor.after = stackAfter from rfl, hend]
  show Instruction.used _ <+: _
  rw [hused]
  exact List.prefix_append _ _

mutual

/-- A statement leaves the stack as it found it. -/
theorem stmt_stacked : ∀ (s : Stmt) (_ : s.wellTyped = true) (m : CodeGenMgr),
    Stacked (s.irGen m).code
  | .empty, _, m => by simp only [Stmt.irGen]; exact stacked_nil
  | .perm p, _, m => by simp only [Stmt.irGen]; exact stacked_single rfl
  | .ifThen c t, hwt, m => by
    simp only [Stmt.wellTyped, Bool.and_eq_true] at hwt
    simp only [Stmt.irGen]
    exact ((genIfHead_stacked hwt.1 m).append (stmt_stacked t hwt.2 _)).append (stacked_label _)
  | .ifElse c t e, hwt, m => by
    simp only [Stmt.wellTyped, Bool.and_eq_true] at hwt
    have hjump : ∀ l l', Stacked [.branch .INVALID .null .null l "", .label l'] := fun l l' =>
      (stacked_single (i := .branch .INVALID .null .null l "") rfl).append (stacked_label l')
    simp only [Stmt.irGen]
    exact ((((genIfHead_stacked hwt.1.1 m).append (stmt_stacked t hwt.1.2 _)).append
      (hjump _ _)).append (stmt_stacked e hwt.2 _)).append (stacked_label _)
  | .assign x e, hwt, m => by
    simp only [Stmt.irGen]
    exact assign_stacked hwt x m
  | .compound ss, hwt, m => by
    simp only [Stmt.irGen]
    exact all_stacked ss hwt m

/-- **The code of a body uses its results in the order of a stack.** -/
theorem all_stacked : ∀ (ss : List Stmt) (_ : allWellTyped ss = true) (m : CodeGenMgr),
    Stacked (irGenAll ss m).code
  | [], _, m => by simp only [irGenAll]; exact stacked_nil
  | s :: ss, hwt, m => by
    simp only [allWellTyped, Bool.and_eq_true] at hwt
    simp only [irGenAll]
    exact (stmt_stacked s hwt.1 m).append (all_stacked ss hwt.2 _)

end

/-! ## Every result has its own number -/

/-- The numbers of the results of a list. -/
def resultRegs (code : List Instruction) : List Nat :=
  code.filterMap fun i => i.result?.bind IRValue.reg?

@[simp] theorem resultRegs_nil : resultRegs [] = [] := rfl

@[simp] theorem resultRegs_append (c c' : List Instruction) :
    resultRegs (c ++ c') = resultRegs c ++ resultRegs c' := List.filterMap_append

/-- The results of the code have numbers from `lo` up to `hi`, each its own. -/
structure Numbered (lo : Nat) (code : List Instruction) (hi : Nat) : Prop where
  le : lo ≤ hi
  between : ∀ n ∈ resultRegs code, lo ≤ n ∧ n < hi
  nodup : (resultRegs code).Nodup

namespace Numbered

variable {lo mid hi : Nat} {c c' : List Instruction}

theorem none (h : resultRegs c = []) (hle : lo ≤ hi) : Numbered lo c hi :=
  ⟨hle, by simp [h], by simp [h]⟩

theorem append (h : Numbered lo c mid) (h' : Numbered mid c' hi) : Numbered lo (c ++ c') hi where
  le := Nat.le_trans h.le h'.le
  between n hn := by
    have := h.le
    have := h'.le
    rw [resultRegs_append, List.mem_append] at hn
    rcases hn with hn | hn
    · have := h.between n hn
      omega
    · have := h'.between n hn
      omega
  nodup := by
    rw [resultRegs_append, List.nodup_append]
    refine ⟨h.nodup, h'.nodup, fun a ha b hb => ?_⟩
    have := h.between a ha
    have := h'.between b hb
    omega

theorem label (l : String) (h : Numbered lo c hi) : Numbered lo (c ++ [.label l]) hi :=
  h.append (.none rfl (Nat.le_refl _))

/-- The instruction that takes the next number. -/
theorem next {i : Instruction} (h : Numbered lo c hi) (hi' : resultRegs [i] = [hi]) :
    Numbered lo (c ++ [i]) (hi + 1) :=
  h.append ⟨Nat.le_succ _, by simp [hi'], by simp [hi']⟩

end Numbered

/-- Code that numbers its results from the manager it gets to the one it leaves. -/
def Numbers (gen : CodeGenMgr → Gen) : Prop :=
  ∀ m, Numbered m.nextId (gen m).code (gen m).mgr.nextId

theorem numbers_leaf (v : IRValue) : Numbers fun m => ⟨v, [], m⟩ := fun _ =>
  .none rfl (Nat.le_refl _)

theorem numbers_compare {op : OpCode} {l r : CodeGenMgr → Gen} (hl : Numbers l) (hr : Numbers r) :
    Numbers (genCompare op l r) := fun m =>
  ((hl m).append (hr _)).append (.none rfl (Nat.le_refl _))

theorem numbers_binary {op : OpCode} {l r : CodeGenMgr → Gen} (hl : Numbers l) (hr : Numbers r) :
    Numbers (genBinary op l r) := fun m => ((hl m).append (hr _)).next rfl

theorem numbers_minus {a : CodeGenMgr → Gen} (ha : Numbers a) : Numbers (genMinus a) := fun m =>
  (ha m).next rfl

theorem numbers_branchCode {e : Expr} {gen : CodeGenMgr → Gen} (h : Numbers gen) :
    Numbers (genBranchCode e gen) := by
  intro m
  unfold genBranchCode
  split
  · exact h m
  · exact numbers_compare h (numbers_leaf (.imm 0)) m

theorem numbers_not {a : CodeGenMgr → Gen} (ha : Numbers a) : Numbers (genNot a) := fun m =>
  ha { m with trueTarget := m.falseTarget, falseTarget := m.trueTarget }

/-- `&&` and `||`. -/
theorem numbered_shortCircuit {m m₁ : CodeGenMgr} {lhs rhs : CodeGenMgr → Gen} (hl : Numbers lhs)
    (hr : Numbers rhs) (hids : m₁.nextId = m.nextId) (l : String) :
    Numbered m.nextId ((lhs m₁).code ++ [.label l] ++
      (rhs (lhs m₁).mgr.restoreBranchTarget).code)
      (rhs (lhs m₁).mgr.restoreBranchTarget).mgr.nextId := by
  have h₁ := hl m₁
  have h₂ := hr (lhs m₁).mgr.restoreBranchTarget
  rw [hids] at h₁
  rw [restoreBranchTarget_nextId] at h₂
  exact (h₁.label l).append h₂

theorem numbers_and {l r : CodeGenMgr → Gen} (hl : Numbers l) (hr : Numbers r) :
    Numbers (genAnd l r) := fun m => @numbered_shortCircuit m
  { m.saveBranchTarget.bumpLabel with trueTarget := m.newLabel } l r hl hr rfl m.newLabel

theorem numbers_or {l r : CodeGenMgr → Gen} (hl : Numbers l) (hr : Numbers r) :
    Numbers (genOr l r) := fun m => @numbered_shortCircuit m
  { m.saveBranchTarget.bumpLabel with falseTarget := m.newLabel } l r hl hr rfl m.newLabel

/-- Every expression numbers its results from the manager it gets to the one it leaves. -/
theorem expr_numbers (e : Expr) : Numbers e.irGen := by
  induction e with
  | ref x => exact numbers_leaf _
  | value n => exact numbers_leaf _
  | inv f ps => exact fun m => (Numbered.none rfl (Nat.le_refl _)).next (c := []) rfl
  | op1 op e ih =>
    intro m
    simp only [Expr.irGen]
    split_ifs
    · exact numbers_not (numbers_branchCode ih) m
    · exact numbers_minus ih m
    · exact numbers_leaf _ m
  | op2 op l r ihl ihr =>
    intro m
    simp only [Expr.irGen]
    split_ifs
    · exact numbers_and (numbers_branchCode ihl) (numbers_branchCode ihr) m
    · exact numbers_or (numbers_branchCode ihl) (numbers_branchCode ihr) m
    · exact numbers_not (numbers_branchCode ihl) m
    · exact numbers_compare ihl ihr m
    · exact numbers_minus ihl m
    · exact numbers_leaf _ m
    · exact numbers_binary ihl ihr m

theorem genIfHead_numbers (c : Expr) : Numbers (genIfHead c) := fun m =>
  (numbers_branchCode (expr_numbers c) { m.bumpLabel.bumpLabel with
    trueTarget := m.newLabel, falseTarget := m.bumpLabel.newLabel }).label _

mutual

theorem stmt_numbers : ∀ s : Stmt, Numbers s.irGen
  | .empty, m => by simp only [Stmt.irGen]; exact .none rfl (Nat.le_refl _)
  | .perm p, m => by simp only [Stmt.irGen]; exact .none rfl (Nat.le_succ _)
  | .ifThen c t, m => by
    simp only [Stmt.irGen]
    exact ((genIfHead_numbers c m).append (stmt_numbers t _)).label _
  | .ifElse c t e, m => by
    have hjump := ((genIfHead_numbers c m).append (stmt_numbers t _)).append
      (Numbered.none (c := [.branch .INVALID .null .null (t.irGen (genIfHead c m).mgr).mgr.newLabel "",
        .label m.bumpLabel.newLabel]) rfl (Nat.le_refl _))
    simp only [Stmt.irGen]
    exact (hjump.append (stmt_numbers e (t.irGen (genIfHead c m).mgr).mgr.bumpLabel)).label _
  | .assign x e, m => by
    simp only [Stmt.irGen]
    exact (expr_numbers e m).append (.none rfl (Nat.le_refl _))
  | .compound ss, m => by simp only [Stmt.irGen]; exact all_numbered ss m

/-- **The code of a body numbers its results one by one.** -/
theorem all_numbered : ∀ ss : List Stmt, Numbers (irGenAll ss)
  | [], m => by simp only [irGenAll]; exact .none rfl (Nat.le_refl _)
  | s :: ss, m => by
    simp only [irGenAll]
    exact (stmt_numbers s m).append (all_numbered ss _)

end

/-! ## The passes and the cut -/

/-- Results have their own numbers. -/
def ResultsOnce (code : List Instruction) : Prop := (resultRegs code).Nodup

/-- Deleting instructions keeps it. -/
theorem ResultsOnce.sublist {c c' : List Instruction} (h : ResultsOnce c') (hs : c.Sublist c') :
    ResultsOnce c := (hs.filterMap _).nodup h

theorem resultRegs_rename (ρ : String → String) (code : List Instruction) :
    resultRegs (code.map (Instruction.renameTargets ρ)) = resultRegs code := by
  unfold resultRegs
  rw [List.filterMap_map]
  refine List.filterMap_congr fun i _ => ?_
  cases i <;> rfl

/-- The passes keep it. -/
theorem eliminated_once (ss : List Stmt) (m : CodeGenMgr) :
    ResultsOnce (eliminateDeadCode (mergedIR ss m)) := by
  refine ResultsOnce.sublist ?_ (eliminateDeadCode_sublist _)
  unfold ResultsOnce mergedIR mergeLabels
  rw [resultRegs_rename]
  exact ResultsOnce.sublist (all_numbered ss m).nodup (eraseLabels_sublist none _)

/-- A monitor that lets stubs stand anywhere accepts the blocks with their stubs. -/
theorem Monitor.accepts_genBlocks {σ : Type} {M : Monitor σ}
    (hstub : ∀ s id, M.Admits s (.ret id RET_TO_PTRACE)) (only : PtraceBasicBlock)
    {Bs : List BasicBlock} (hBs : ∀ B ∈ Bs, M.Accepts M.start B.insts) (b : Nat)
    (targets : List Nat) (gl : RetGlobals) (s : σ) :
    M.Accepts s (genBlocks only b Bs targets gl).1 := by
  induction Bs generalizing b targets gl s with
  | nil => trivial
  | cons B Bs ih =>
    have ih := ih fun C hC => hBs C (List.mem_cons_of_mem B hC)
    unfold genBlocks
    split_ifs
    · refine ⟨M.admits_label _ _, ?_⟩
      rw [M.after_label]
      exact Monitor.accepts_append.mpr ⟨hBs B List.mem_cons_self, ih _ _ _ _⟩
    · exact ih _ _ _ _
    · exact ⟨M.admits_label _ _, hstub _ _, ih _ _ _ _⟩
    · exact ih _ _ _ _

section CheckIR

variable (ss : List Stmt) (m : CodeGenMgr) (syscall : String) (o : HashOrder) (gl : RetGlobals)

/-- **The list `BPFCodeGen` gets computes every result once.** -/
theorem checkIR_once : ResultsOnce (checkIR ss m syscall o gl).1 := by
  have hreturn : ∀ code : List Instruction,
      resultRegs (code.filter fun i => !i.isReturn) = resultRegs code := by
    intro code
    unfold resultRegs
    rw [List.filterMap_filter]
    refine List.filterMap_congr fun i _ => ?_
    cases i <;> rfl
  have hkept := (genBPFIR_kept (g := checkCFG ss m syscall)
    (colorCode (checkCFG ss m syscall) o).2 gl).filterMap fun i => i.result?.bind IRValue.reg?
  have hkept : (resultRegs ((checkIR ss m syscall o gl).1.filter fun i => !i.isReturn)).Sublist
      (resultRegs (flatten (checkCFG ss m syscall))) := hkept
  rw [hreturn, checkCFG, flatten_buildCFG] at hkept
  exact hkept.nodup (eliminated_once ss m)

/-- **It uses its results in the order of a stack.** -/
theorem checkIR_stacked (hwt : allWellTyped ss = true) : Stacked (checkIR ss m syscall o gl).1 := by
  intro st
  obtain ⟨root, hroot, -⟩ : ∃ root, (checkCFG ss m syscall)[0]? = some root ∧
      root.label = syscall := buildCFG_root _ _
  unfold checkIR
  rw [genBPFIR_of_root hroot]
  split
  · exact ⟨List.nil_prefix, List.nil_prefix, trivial⟩
  · have hblocks := Monitor.accepts_checkCFG (M := stackMonitor) (all_stacked ss hwt m []) syscall
    exact Monitor.accepts_genBlocks (fun _ _ => List.nil_prefix) _ hblocks 0 [] gl st

end CheckIR

end SeccompPolicy
