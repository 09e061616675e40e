import SeccompPolicy.CText
import SeccompPolicy.Monitor
import SeccompPolicy.Operands

/-!
# The trees of a block

Source: `LiftExpr` and `LiftBasicBlock` of `IR_lifter.cpp`, the loop of `GenPtracePrologue` in
`code_gen.cpp`.

`LiftExpr` goes down the tree below an operand, by pointers; `GenPtracePrologue` and the colouring
go through the instructions of the blocks. That both see the same variables is not said anywhere
in the source. `suppliedBlock` says it: the instructions of a tree that has no null operand stand
in the block of the instruction whose operand it is.

A null operand comes from a boolean expression where a number is meant; `LiftExpr` would read
through it. `IRValue.whole` says that a tree has none.

## Results

* `expr_supplies`, `all_accepts`: generated code is supplied, whatever its types; `supplyMonitor`
  is a monitor, so the passes keep it.
* `mem_vars_liftExpr`: a name in the C expression of an operand is a name of an instruction of the
  block.
* `checkCFG_lifts`: in the CFG of a body that type-checks all lifted trees are whole.
-/

namespace SeccompPolicy

/-! ## The instructions of a tree -/

/-- No null operand in the tree of a value: nothing that `LiftExpr` would read through. -/
def IRValue.whole : IRValue → Bool
  | .null => false
  | .arith _ op a b => a.whole && (decide (op = .UMINUS) || b.whole)
  | _ => true

/-- The instructions of a tree. -/
def IRValue.parts : IRValue → List IRValue
  | .arith id op a b => .arith id op a b :: (a.parts ++ b.parts)
  | .call id f args => [.call id f args]
  | _ => []

/-- The results since the last label. -/
def resultsAfter (A : List IRValue) : Instruction → List IRValue
  | .label _ => []
  | i => i.result?.toList ++ A

/-- An instruction whose operands are whole has their trees in front of it, behind the last label. -/
def TreesSupplied (A : List IRValue) (i : Instruction) : Prop :=
  (∀ v ∈ i.operands, v.whole = true) → ∀ v ∈ i.operands, ∀ w ∈ v.parts, w ∈ A

/-- The monitor of supplied trees. -/
def supplyMonitor : Monitor (List IRValue) where
  start := []
  after := resultsAfter
  Admits := TreesSupplied
  after_label _ _ := rfl
  admits_label _ _ _ v hv := absurd hv List.not_mem_nil
  after_rename _ _ i := by cases i <;> rfl
  admits_rename _ _ i := by cases i <;> exact Iff.rfl
  after_isDirectJMP _ i _ hi := by cases i <;> first | rfl | cases hi

/-- The code of an expression is supplied from any results, and keeps them when its value is
whole. -/
structure Supplies (gen : CodeGenMgr → Gen) : Prop where
  accepts : ∀ m A, supplyMonitor.Accepts A (gen m).code
  keeps : ∀ m A, (gen m).val.whole = true →
    (∀ w ∈ A, w ∈ (gen m).code.foldl resultsAfter A) ∧
      ∀ w ∈ (gen m).val.parts, w ∈ (gen m).code.foldl resultsAfter A

theorem supplies_value (v : IRValue) (hv : v.parts = []) : Supplies fun m => ⟨v, [], m⟩ :=
  ⟨fun _ _ => trivial, fun _ _ _ => ⟨fun _ hw => hw, fun w hw => by
    rw [hv] at hw
    exact absurd hw List.not_mem_nil⟩⟩

/-- An expression that ends in a branch has no value. -/
theorem Supplies.of_null {gen : CodeGenMgr → Gen}
    (h : ∀ m A, supplyMonitor.Accepts A (gen m).code) (hv : ∀ m, (gen m).val = .null) :
    Supplies gen :=
  ⟨h, fun m A hw => by rw [hv] at hw; cases hw⟩

/-- Two operands one after the other: both trees are there. -/
theorem Supplies.operands {l r : CodeGenMgr → Gen} (hl : Supplies l) (hr : Supplies r)
    (m : CodeGenMgr) (A : List IRValue) :
    supplyMonitor.Accepts A ((l m).code ++ (r (l m).mgr).code) ∧
      ((l m).val.whole = true → (r (l m).mgr).val.whole = true →
        (∀ w ∈ A, w ∈ ((l m).code ++ (r (l m).mgr).code).foldl resultsAfter A) ∧
        ∀ w ∈ (l m).val.parts ++ (r (l m).mgr).val.parts,
          w ∈ ((l m).code ++ (r (l m).mgr).code).foldl resultsAfter A) := by
  refine ⟨Monitor.accepts_append.mpr ⟨hl.accepts m A, hr.accepts _ _⟩, fun hwl hwr => ?_⟩
  rw [List.foldl_append]
  obtain ⟨hkeep, hparts⟩ := hl.keeps m A hwl
  obtain ⟨hkeep', hparts'⟩ := hr.keeps (l m).mgr ((l m).code.foldl resultsAfter A) hwr
  refine ⟨fun w hw => hkeep' w (hkeep w hw), fun w hw => ?_⟩
  rcases List.mem_append.mp hw with hw | hw
  · exact hkeep' w (hparts w hw)
  · exact hparts' w hw

theorem supplies_compare (op : OpCode) {l r : CodeGenMgr → Gen} (hl : Supplies l)
    (hr : Supplies r) : Supplies (genCompare op l r) := by
  refine .of_null (fun m A => ?_) fun _ => rfl
  obtain ⟨hacc, hparts⟩ := hl.operands hr m A
  refine Monitor.accepts_append.mpr ⟨hacc, fun hw v hv w hwp => ?_, trivial⟩
  have hboth := hparts (hw _ List.mem_cons_self)
    (hw _ (List.mem_cons_of_mem _ List.mem_cons_self))
  simp only [Instruction.operands, List.mem_cons, List.not_mem_nil, or_false] at hv
  rcases hv with rfl | rfl
  · exact hboth.2 w (List.mem_append_left _ hwp)
  · exact hboth.2 w (List.mem_append_right _ hwp)

/-- The tree of a binary operator is its own instruction and those of its operands. -/
theorem supplies_binary {op : OpCode} (hop : op ≠ .UMINUS) {l r : CodeGenMgr → Gen}
    (hl : Supplies l) (hr : Supplies r) : Supplies (genBinary op l r) := by
  refine ⟨fun m A => ?_, fun m A hw => ?_⟩
  · obtain ⟨hacc, hparts⟩ := hl.operands hr m A
    refine Monitor.accepts_append.mpr ⟨hacc, fun hw v hv w hwp => ?_, trivial⟩
    have hboth := hparts (hw _ List.mem_cons_self)
      (hw _ (List.mem_cons_of_mem _ List.mem_cons_self))
    simp only [Instruction.operands, List.mem_cons, List.not_mem_nil, or_false] at hv
    rcases hv with rfl | rfl
    · exact hboth.2 w (List.mem_append_left _ hwp)
    · exact hboth.2 w (List.mem_append_right _ hwp)
  · obtain ⟨-, hparts⟩ := hl.operands hr m A
    simp only [genBinary, IRValue.whole, decide_eq_false hop, Bool.false_or,
      Bool.and_eq_true] at hw
    obtain ⟨hkeep, hboth⟩ := hparts hw.1 hw.2
    simp only [genBinary, List.foldl_concat]
    refine ⟨fun w hw => List.mem_cons_of_mem _ (hkeep w hw), fun w hw => ?_⟩
    rcases List.mem_cons.mp hw with rfl | hw
    · exact List.mem_cons_self
    · exact List.mem_cons_of_mem _ (hboth w hw)

theorem supplies_minus {a : CodeGenMgr → Gen} (ha : Supplies a) : Supplies (genMinus a) := by
  refine ⟨fun m A => ?_, fun m A hw => ?_⟩
  · refine Monitor.accepts_append.mpr ⟨ha.accepts m A, fun hw => ?_, trivial⟩
    -- the second operand is null
    exact absurd (hw .null (List.mem_cons_of_mem _ List.mem_cons_self)) Bool.false_ne_true
  · simp only [genMinus, IRValue.whole, decide_true, Bool.true_or, Bool.and_true] at hw
    obtain ⟨hkeep, hparts⟩ := ha.keeps m A hw
    simp only [genMinus, List.foldl_concat]
    refine ⟨fun w hw => List.mem_cons_of_mem _ (hkeep w hw), fun w hw => ?_⟩
    rcases List.mem_cons.mp hw with rfl | hw
    · exact List.mem_cons_self
    · refine List.mem_cons_of_mem _ (hparts w ?_)
      exact (List.mem_append.mp hw).resolve_right List.not_mem_nil

/-- A condition is supplied, whether it branches by itself or is compared with `0`. -/
theorem supplies_branchCode {e : Expr} {gen : CodeGenMgr → Gen} (h : Supplies gen) (m : CodeGenMgr)
    (A : List IRValue) : supplyMonitor.Accepts A (genBranchCode e gen m).code := by
  rw [genBranchCode]
  split
  · exact h.accepts m A
  · exact (supplies_compare .NE h (supplies_value (.imm 0) rfl)).accepts m A

theorem accepts_label (A : List IRValue) (l : String) : supplyMonitor.Accepts A [.label l] :=
  ⟨supplyMonitor.admits_label A l, trivial⟩

/-- **Every expression is supplied.** -/
theorem expr_supplies (e : Expr) : Supplies e.irGen := by
  induction e with
  | ref x => exact supplies_value _ rfl
  | value n => exact supplies_value _ rfl
  | inv f ps =>
    refine ⟨fun m A => ⟨fun _ v hv => absurd hv List.not_mem_nil, trivial⟩, fun m A _ => ?_⟩
    exact ⟨fun w hw => List.mem_cons_of_mem _ hw, fun w hw =>
      List.mem_singleton.mp hw ▸ List.mem_cons_self⟩
  | op1 op e ih =>
    by_cases hnot : op = .NOT
    · subst hnot
      exact .of_null (fun m A => supplies_branchCode ih _ A) fun _ => rfl
    · by_cases hminus : op = .UMINUS
      · subst hminus
        exact supplies_minus ih
      · have hgen : (Expr.op1 op e).irGen = fun m => ⟨.null, [], m⟩ := by
          funext m
          simp [Expr.irGen, hnot, hminus]
        rw [hgen]
        exact supplies_value _ rfl
  | op2 op l r ihl ihr =>
    by_cases hand : op = .AND
    · subst hand
      refine .of_null (fun m A => ?_) fun _ => rfl
      exact Monitor.accepts_append.mpr ⟨Monitor.accepts_append.mpr
        ⟨supplies_branchCode ihl _ A, accepts_label _ _⟩, supplies_branchCode ihr _ _⟩
    · by_cases hor : op = .OR
      · subst hor
        refine .of_null (fun m A => ?_) fun _ => rfl
        exact Monitor.accepts_append.mpr ⟨Monitor.accepts_append.mpr
          ⟨supplies_branchCode ihl _ A, accepts_label _ _⟩, supplies_branchCode ihr _ _⟩
      · by_cases hcmp : op.isCmp = true
        · have hgen : (Expr.op2 op l r).irGen = genCompare op l.irGen r.irGen := by
            funext m
            exact irGen_cmp hcmp l r m
          rw [hgen]
          exact supplies_compare op ihl ihr
        · by_cases hbin : op.isBinaryArith = true
          · have hgen : (Expr.op2 op l r).irGen = genBinary op l.irGen r.irGen := by
              funext m
              exact irGen_binary hbin l r m
            have hne : op ≠ .UMINUS := by
              rintro rfl
              cases hbin
            rw [hgen]
            exact supplies_binary hne ihl ihr
          · have hrest : op = .NOT ∨ op = .UMINUS ∨ op = .INVALID := by
              revert hand hor hcmp hbin
              cases op <;> decide
            rcases hrest with rfl | rfl | rfl
            · exact .of_null (fun m A => supplies_branchCode ihl _ A) fun _ => rfl
            · exact supplies_minus ihl
            · exact supplies_value _ rfl

theorem genIfHead_accepts (c : Expr) (m : CodeGenMgr) (A : List IRValue) :
    supplyMonitor.Accepts A (genIfHead c m).code :=
  Monitor.accepts_append.mpr ⟨supplies_branchCode (expr_supplies c) _ A, accepts_label _ _⟩

mutual

theorem stmt_accepts : ∀ (s : Stmt) (m : CodeGenMgr) (A : List IRValue),
    supplyMonitor.Accepts A (s.irGen m).code
  | .empty, _, _ => trivial
  | .perm _, _, _ => ⟨fun _ v hv => absurd hv List.not_mem_nil, trivial⟩
  | .ifThen c t, m, A =>
    Monitor.accepts_append.mpr ⟨Monitor.accepts_append.mpr ⟨genIfHead_accepts c m A,
      stmt_accepts t _ _⟩, accepts_label _ _⟩
  | .ifElse c t e, m, A => by
    have hjump : ∀ A out l,
        supplyMonitor.Accepts A [.branch .INVALID .null .null out "", .label l] := fun A out l =>
      ⟨fun hw => absurd (hw .null List.mem_cons_self) Bool.false_ne_true, accepts_label _ _⟩
    exact Monitor.accepts_append.mpr ⟨Monitor.accepts_append.mpr ⟨Monitor.accepts_append.mpr
      ⟨Monitor.accepts_append.mpr ⟨genIfHead_accepts c m A, stmt_accepts t _ _⟩, hjump _ _ _⟩,
        stmt_accepts e _ _⟩, accepts_label _ _⟩
  | .assign x e, m, A => by
    refine Monitor.accepts_append.mpr ⟨(expr_supplies e).accepts m A, fun hw v hv w hwp => ?_,
      trivial⟩
    obtain rfl := List.mem_singleton.mp hv
    exact ((expr_supplies e).keeps m A (hw _ List.mem_cons_self)).2 w hwp
  | .compound ss, m, A => all_accepts ss m A

/-- **The code of a body supplies its trees.** -/
theorem all_accepts : ∀ (ss : List Stmt) (m : CodeGenMgr) (A : List IRValue),
    supplyMonitor.Accepts A (irGenAll ss m).code
  | [], _, _ => trivial
  | s :: ss, m, A => Monitor.accepts_append.mpr ⟨stmt_accepts s m A, all_accepts ss _ _⟩

end

/-- A result since the last label is a result of the code. -/
theorem mem_resultsAfter {code : List Instruction} {A : List IRValue} {w : IRValue}
    (hw : w ∈ code.foldl resultsAfter A) : w ∈ A ∨ ∃ j ∈ code, w ∈ j.result? := by
  induction code generalizing A with
  | nil => exact .inl hw
  | cons i code ih =>
    rcases ih hw with hw | ⟨j, hj, hw⟩
    · cases i with
      | label l => exact absurd hw List.not_mem_nil
      | _ =>
        rcases List.mem_append.mp hw with hw | hw
        · exact .inr ⟨_, List.mem_cons_self, Option.mem_toList.mp hw⟩
        · exact .inl hw
    · exact .inr ⟨j, List.mem_cons_of_mem i hj, hw⟩

/-- **The trees of a block are its instructions.** -/
theorem suppliedBlock {ss : List Stmt} {m : CodeGenMgr} {syscall : String} {B : BasicBlock}
    (hB : B ∈ checkCFG ss m syscall) {i : Instruction} (hi : i ∈ B.insts)
    (hw : ∀ v ∈ i.operands, v.whole = true) {v w : IRValue} (hv : v ∈ i.operands)
    (hwp : w ∈ v.parts) : ∃ j ∈ B.insts, w ∈ j.result? := by
  have hacc : supplyMonitor.Accepts [] B.insts :=
    Monitor.accepts_checkCFG (M := supplyMonitor) (all_accepts ss m []) syscall B hB
  obtain ⟨pre, post, hsplit⟩ := List.append_of_mem hi
  rw [hsplit, Monitor.accepts_append] at hacc
  obtain ⟨j, hj, hres⟩ := (mem_resultsAfter (hacc.2.1 hw v hv w hwp)).resolve_left List.not_mem_nil
  exact ⟨j, hsplit ▸ List.mem_append_left _ hj, hres⟩

/-- A name in the C expression of a value is an operand of one of its instructions, or the value. -/
theorem mem_vars_liftExpr {v : IRValue} {x : String} (hx : x ∈ (liftExpr v).vars) :
    v.mem? = some x ∨ ∃ w ∈ v.parts, ∃ j : Instruction, w ∈ j.result? ∧ x ∈ j.argsUsed := by
  have hmem : ∀ {v : IRValue}, v.mem? = some x → x ∈ v.mem?.toList := fun h =>
    Option.mem_toList.mpr h
  induction v with
  | null => exact absurd hx List.not_mem_nil
  | imm n => exact absurd hx List.not_mem_nil
  | mem y => exact .inl (congrArg some (List.mem_singleton.mp hx).symm)
  | call id f args => exact .inr ⟨_, List.mem_singleton.mpr rfl, .call id f args, rfl, hx⟩
  | arith id op a b iha ihb =>
    have hside : x ∈ (liftExpr a).vars ∨ x ∈ (liftExpr b).vars := by
      simp only [liftExpr] at hx
      split at hx
      · exact .inl hx
      · exact List.mem_append.mp hx
    refine .inr ?_
    rcases hside with hx | hx
    · rcases iha hx with ha | ⟨w, hw, hj⟩
      · exact ⟨_, List.mem_cons_self, .arith id op a b, rfl, List.mem_append_left _ (hmem ha)⟩
      · exact ⟨w, List.mem_cons_of_mem _ (List.mem_append_left _ hw), hj⟩
    · rcases ihb hx with hb | ⟨w, hw, hj⟩
      · exact ⟨_, List.mem_cons_self, .arith id op a b, rfl, List.mem_append_right _ (hmem hb)⟩
      · exact ⟨w, List.mem_cons_of_mem _ (List.mem_append_right _ hw), hj⟩

theorem result?_inj {i j : Instruction} {w : IRValue} (hi : w ∈ i.result?) (hj : w ∈ j.result?) :
    i = j := by
  cases i <;> cases j <;> cases hi <;> cases hj <;> rfl

/-! ## Trees without null operands -/

/-- The trees that are lifted for the instruction are whole. -/
def LiftsWhole (i : Instruction) : Prop :=
  i.result? = none → i.isDirectJMP = false → ∀ v ∈ i.operands, v.whole = true

/-- The monitor of whole trees, which keeps nothing. -/
def wholeMonitor : Monitor Unit where
  start := ()
  after _ _ := ()
  Admits _ := LiftsWhole
  after_label _ _ := rfl
  admits_label _ _ _ _ _ hv := absurd hv List.not_mem_nil
  after_rename _ _ _ := rfl
  admits_rename _ _ i := by cases i <;> exact Iff.rfl
  after_isDirectJMP _ _ _ _ := rfl

theorem accepts_whole {code : List Instruction} :
    wholeMonitor.Accepts () code ↔ ∀ i ∈ code, LiftsWhole i := by
  induction code with
  | nil => exact iff_of_true trivial fun i hi => absurd hi List.not_mem_nil
  | cons i code ih =>
    rw [List.forall_mem_cons, Monitor.Accepts]
    exact and_congr_right fun _ => ih

theorem liftsWhole_append {code code' : List Instruction} :
    (∀ i ∈ code ++ code', LiftsWhole i) ↔
      (∀ i ∈ code, LiftsWhole i) ∧ ∀ i ∈ code', LiftsWhole i := by
  simp only [List.mem_append, or_imp, forall_and]

theorem liftsWhole_single {i : Instruction} (h : LiftsWhole i) : ∀ j ∈ [i], LiftsWhole j :=
  fun j hj => by rwa [List.mem_singleton.mp hj]

theorem liftsWhole_label (l : String) : ∀ j ∈ [Instruction.label l], LiftsWhole j :=
  liftsWhole_single fun _ _ _ hv => absurd hv List.not_mem_nil

/-- A number has a whole tree, and nothing in its code is lifted. -/
theorem arith_lifts (e : Expr) (he : e.isArith = true) (m : CodeGenMgr) :
    (e.irGen m).val.whole = true ∧ ∀ i ∈ (e.irGen m).code, LiftsWhole i := by
  have hresult : ∀ id op a b, ∀ j ∈ [Instruction.arith id op a b], LiftsWhole j :=
    fun id op a b => liftsWhole_single fun h => by cases h
  induction e generalizing m with
  | ref x => exact ⟨rfl, fun i hi => absurd hi List.not_mem_nil⟩
  | value n => exact ⟨rfl, fun i hi => absurd hi List.not_mem_nil⟩
  | inv f ps => exact ⟨rfl, liftsWhole_single fun h => by cases h⟩
  | op1 op e ih =>
    simp only [Expr.isArith, Bool.and_eq_true, decide_eq_true_eq] at he
    obtain ⟨rfl, he⟩ := he
    obtain ⟨hval, hcode⟩ := ih he m
    rw [irGen_uminus]
    exact ⟨by simp [genMinus, IRValue.whole, hval],
      liftsWhole_append.mpr ⟨hcode, hresult _ _ _ _⟩⟩
  | op2 op l r ihl ihr =>
    simp only [Expr.isArith, Bool.and_eq_true] at he
    obtain ⟨⟨hop, hl⟩, hr⟩ := he
    obtain ⟨hval, hcode⟩ := ihl hl m
    obtain ⟨hval', hcode'⟩ := ihr hr (l.irGen m).mgr
    rw [irGen_binary hop]
    exact ⟨by simp [genBinary, IRValue.whole, hval, hval'],
      liftsWhole_append.mpr ⟨liftsWhole_append.mpr ⟨hcode, hcode'⟩, hresult _ _ _ _⟩⟩

/-- The trees of a comparison of numbers are whole. -/
theorem compare_lifts (op : OpCode) {l r : Expr} (hl : l.isArith = true) (hr : r.isArith = true)
    (m : CodeGenMgr) : ∀ i ∈ (genCompare op l.irGen r.irGen m).code, LiftsWhole i := by
  obtain ⟨hval, hcode⟩ := arith_lifts l hl m
  obtain ⟨hval', hcode'⟩ := arith_lifts r hr (l.irGen m).mgr
  refine liftsWhole_append.mpr ⟨liftsWhole_append.mpr ⟨hcode, hcode'⟩,
    liftsWhole_single fun _ _ v hv => ?_⟩
  simp only [Instruction.operands, List.mem_cons, List.not_mem_nil, or_false] at hv
  rcases hv with rfl | rfl
  · exact hval
  · exact hval'

/-- And those of a condition. By induction over the condition. -/
theorem cond_lifts (e : Expr) (he : e.isCond = true) (m : CodeGenMgr) :
    ∀ i ∈ (e.branchGen m).code, LiftsWhole i := by
  have standalone : ∀ e : Expr, e.isArith = true → e.isBooleanOp = false → ∀ m,
      ∀ i ∈ (e.branchGen m).code, LiftsWhole i := by
    intro e he hb m
    rw [genBranchCode_standalone hb, irGen_cmp rfl]
    exact compare_lifts .NE he rfl m
  induction e generalizing m with
  | ref x => exact standalone _ rfl rfl m
  | value n => exact standalone _ rfl rfl m
  | inv f ps => exact standalone _ rfl rfl m
  | op1 op e ih =>
    simp only [Expr.isCond] at he
    split_ifs at he with hop
    · subst hop
      exact ih he { m with trueTarget := m.falseTarget, falseTarget := m.trueTarget }
    · simp only [Bool.and_eq_true, decide_eq_true_eq] at he
      obtain ⟨rfl, he⟩ := he
      exact standalone _ (by simpa [Expr.isArith] using he) rfl m
  | op2 op l r ihl ihr =>
    simp only [Expr.isCond] at he
    split_ifs at he with hop
    · obtain ⟨hl, hr⟩ := Bool.and_eq_true_iff.mp he
      rcases hop with rfl | rfl <;>
        exact liftsWhole_append.mpr ⟨liftsWhole_append.mpr ⟨ihl hl _, liftsWhole_label _⟩, ihr hr _⟩
    · simp only [Bool.and_eq_true, Bool.or_eq_true] at he
      obtain ⟨⟨hop | hop, hl⟩, hr⟩ := he
      · rw [branchGen_cmp hop]
        exact compare_lifts op hl hr m
      · refine standalone _ (by simp [Expr.isArith, hop, hl, hr]) ?_ m
        exact OpCode.not_isBoolean hop

theorem genIfHead_lifts {c : Expr} (hc : c.isCond = true) (m : CodeGenMgr) :
    ∀ i ∈ (genIfHead c m).code, LiftsWhole i :=
  liftsWhole_append.mpr ⟨cond_lifts c hc _, liftsWhole_label _⟩

mutual

theorem stmt_lifts : ∀ (s : Stmt) (_ : s.wellTyped = true) (m : CodeGenMgr),
    ∀ i ∈ (s.irGen m).code, LiftsWhole i
  | .empty, _, _ => fun i hi => absurd hi List.not_mem_nil
  | .perm _, _, _ => liftsWhole_single fun _ _ v hv => absurd hv List.not_mem_nil
  | .ifThen c t, hwt, m => by
    obtain ⟨hc, ht⟩ := Bool.and_eq_true_iff.mp hwt
    exact liftsWhole_append.mpr ⟨liftsWhole_append.mpr ⟨genIfHead_lifts hc m, stmt_lifts t ht _⟩,
      liftsWhole_label _⟩
  | .ifElse c t e, hwt, m => by
    obtain ⟨hct, he⟩ := Bool.and_eq_true_iff.mp hwt
    obtain ⟨hc, ht⟩ := Bool.and_eq_true_iff.mp hct
    have hjump : ∀ out l, ∀ i ∈ [Instruction.branch .INVALID .null .null out "", .label l],
        LiftsWhole i := fun out l => by
      refine List.forall_mem_cons.mpr ⟨fun _ hj => ?_, liftsWhole_label l⟩
      cases hj
    exact liftsWhole_append.mpr ⟨liftsWhole_append.mpr ⟨liftsWhole_append.mpr
      ⟨liftsWhole_append.mpr ⟨genIfHead_lifts hc m, stmt_lifts t ht _⟩, hjump _ _⟩,
        stmt_lifts e he _⟩, liftsWhole_label _⟩
  | .assign x e, hwt, m => by
    obtain ⟨hval, hcode⟩ := arith_lifts e hwt m
    refine liftsWhole_append.mpr ⟨hcode, liftsWhole_single fun _ _ v hv => ?_⟩
    exact List.mem_singleton.mp hv ▸ hval
  | .compound ss, hwt, m => all_lifts ss hwt m

/-- **The code of a body that type-checks has whole trees.** -/
theorem all_lifts : ∀ (ss : List Stmt) (_ : allWellTyped ss = true) (m : CodeGenMgr),
    ∀ i ∈ (irGenAll ss m).code, LiftsWhole i
  | [], _, _ => fun i hi => absurd hi List.not_mem_nil
  | s :: ss, hwt, m => by
    obtain ⟨hs, hss⟩ := Bool.and_eq_true_iff.mp hwt
    exact liftsWhole_append.mpr ⟨stmt_lifts s hs m, all_lifts ss hss _⟩

end

/-- **In typed bodies all lifted trees are whole.** -/
theorem checkCFG_lifts {ss : List Stmt} (hwt : allWellTyped ss = true) (m : CodeGenMgr)
    (syscall : String) : ∀ B ∈ checkCFG ss m syscall, ∀ i ∈ B.insts, LiftsWhole i := fun B hB =>
  accepts_whole.mp (Monitor.accepts_checkCFG (M := wholeMonitor)
    (accepts_whole.mpr (all_lifts ss hwt m)) syscall B hB)

end SeccompPolicy
