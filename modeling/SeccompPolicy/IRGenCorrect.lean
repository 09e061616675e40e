import SeccompPolicy.IRGenLabels

/-!
# `IRGen` is correct

The list generated for a type-checking body does what the source does: the same helper calls on
the same values in the same order, the same assignments, the same verdict, and it runs off its end
exactly when the source does.

The proof reads the list in one pass (`LabelledCode.Lang.scan`), so that code can be put together
from its parts without a program counter:

* code for a number leaves its value readable in the value `IRGen` returns (`arith_scan`);
* code for a condition leaves by the true or the false target, whatever the save/restore stack
  holds (`cond_scan`), because targets chosen outside are older than every label inside;
* code for a statement passes control to whatever follows it (`stmt_scan`).

`stmt_scan` is proved for the list with its direct jumps kept and with them removed (`dropJumps`).
Without them a then branch that runs off its end goes on into its else branch, which is the
meaning `execAllWith true`; `DeadCode` needs that half.

## Results

* `arith_scan`: what the code of a number computes, with no older register touched.
* `cond_scan`: the code of a condition looks for the target its truth selects. The induction is on
  the condition, for every manager whose targets are older than the code; `!` swaps them, `&&` and
  `||` replace one of them by a new label.
* `stmt_scan`, `all_scan`: statements and lists of statements.
* `irGen_runs`: the list runs to an end, it is the end of the source, and there is no other.

The tests are the bodies under `tests/`; `lexerTest_runs` runs `tests/lexer_test.j`.
-/

namespace SeccompPolicy

open LabelledCode

variable {V : Type*} {D : Domain V} {h : Helpers V}

/-! ## Numbers -/

/-- Every instruction the value refers to has a number below `n`. -/
def IRValue.Below (n : Nat) : IRValue → Prop
  | .arith id _ _ _ => id < n
  | .call id _ _ => id < n
  | _ => True

theorem IRValue.Below.mono {v : IRValue} {n n' : Nat} (hv : v.Below n) (hn : n ≤ n') :
    v.Below n' := by
  cases v with
  | arith id op a b => exact Nat.lt_of_lt_of_le hv hn
  | call id f ps => exact Nat.lt_of_lt_of_le hv hn
  | _ => exact trivial

/-- A value keeps its reading while the arguments and the older registers stay. -/
theorem IRState.read_congr {s s' : IRState V} {v : IRValue} {n : Nat} (hv : v.Below n)
    (hargs : s'.args = s.args) (hregs : ∀ id, id < n → s'.regs id = s.regs id) :
    s'.read D v = s.read D v := by
  cases v with
  | mem x => simp only [IRState.read, hargs]
  | arith id op a b => exact hregs id hv
  | call id f ps => exact hregs id hv
  | _ => rfl

/-- Evaluating a number changes no argument. -/
theorem Expr.eval_args (e : Expr) (σ : Env V) : (e.eval D h σ).2.args = σ.args := by
  induction e generalizing σ with
  | op1 op e ih => simpa only [Expr.eval] using ih σ
  | op2 op l r ihl ihr =>
    simp only [Expr.eval]
    rw [ihr, ihl]
  | _ => rfl

/-- The code for a number defines no label, leaves the manager but for the allocations, and
refers to instructions it has allocated. -/
structure NumberCode (m : CodeGenMgr) (g : Gen) : Prop where
  labels : irLabels g.code = []
  mgr : g.mgr = { m with nextId := g.mgr.nextId }
  ids : m.nextId ≤ g.mgr.nextId
  below : g.val.Below g.mgr.nextId

theorem NumberCode.targets {m : CodeGenMgr} {g : Gen} (hg : NumberCode m g) :
    g.mgr.trueTarget = m.trueTarget ∧ g.mgr.falseTarget = m.falseTarget := by
  rw [hg.mgr]
  exact ⟨rfl, rfl⟩

/-- By induction over the expression. -/
theorem arith_number (e : Expr) (he : e.isArith = true) (m : CodeGenMgr) :
    NumberCode m (e.irGen m) := by
  induction e generalizing m with
  | ref x => exact ⟨rfl, rfl, Nat.le_refl _, trivial⟩
  | value n => exact ⟨rfl, rfl, Nat.le_refl _, trivial⟩
  | inv f ps => exact ⟨rfl, rfl, Nat.le_succ _, Nat.lt_succ_self _⟩
  | op1 op e ih =>
    simp only [Expr.isArith, Bool.and_eq_true, decide_eq_true_eq] at he
    obtain ⟨rfl, he⟩ := he
    have hg := ih he m
    rw [irGen_uminus]
    refine ⟨?_, ?_, Nat.le_trans hg.ids (Nat.le_succ _), Nat.lt_succ_self _⟩
    · simp only [genMinus, irLabels_append, hg.labels]
      rfl
    · simp only [genMinus, CodeGenMgr.alloc]
      rw [hg.mgr]
  | op2 op l r ihl ihr =>
    simp only [Expr.isArith, Bool.and_eq_true] at he
    obtain ⟨⟨hop, hl⟩, hr⟩ := he
    have hgl := ihl hl m
    have hgr := ihr hr (l.irGen m).mgr
    rw [irGen_binary hop]
    refine ⟨?_, ?_, Nat.le_trans hgl.ids (Nat.le_trans hgr.ids (Nat.le_succ _)),
      Nat.lt_succ_self _⟩
    · simp only [genBinary, irLabels_append, hgl.labels, hgr.labels]
      rfl
    · simp only [genBinary, CodeGenMgr.alloc]
      rw [hgr.mgr, hgl.mgr]

/-- What running the code of a number must achieve from `s`. -/
def Computes (D : Domain V) (h : Helpers V) (g : Gen) (n : Nat) (r : V × Env V) (s : IRState V) :
    Prop :=
  ∃ s', (irLang D h).scan g.code none s = .ok (none, s') ∧ s'.env = r.2 ∧
    s'.read D g.val = r.1 ∧ ∀ id, id < n → s'.regs id = s.regs id

theorem IRState.setReg_regs_ne {s : IRState V} {id id' : Nat} {v : V} (hne : id' ≠ id) :
    (s.setReg id v).regs id' = s.regs id' := by
  simp [IRState.setReg, hne]

theorem IRState.read_setReg (s : IRState V) (id : Nat) (op : OpCode) (a b : IRValue) (v : V) :
    (s.setReg id v).read D (.arith id op a b) = v := by
  simp [IRState.setReg, IRState.read]

/-- **The code of a number computes it**: from any state it falls through with the helper calls
of the evaluation done, the value readable, and no older register touched. -/
theorem arith_scan (e : Expr) (he : e.isArith = true) (m : CodeGenMgr) (s : IRState V) :
    Computes D h (e.irGen m) m.nextId (e.eval D h s.env) s := by
  induction e generalizing m s with
  | ref x => exact ⟨s, rfl, rfl, rfl, fun _ _ => rfl⟩
  | value n => exact ⟨s, rfl, rfl, rfl, fun _ _ => rfl⟩
  | inv f ps =>
    refine ⟨s.callHelper h m.nextId f ps, ?_, ?_, ?_, ?_⟩
    · simp only [Expr.irGen]
      exact Lang.scan_next (irLang D h) rfl []
    · simp [IRState.callHelper, IRState.env, IRState.record, IRState.setReg, Expr.eval, Env.call]
    · simp [IRState.callHelper, IRState.read, IRState.setReg, Expr.eval, Env.call, Expr.irGen,
        IRState.env]
    · intro id hid
      exact IRState.setReg_regs_ne (by omega)
  | op1 op e ih =>
    simp only [Expr.isArith, Bool.and_eq_true, decide_eq_true_eq] at he
    obtain ⟨rfl, he⟩ := he
    obtain ⟨s', hs, henv, hval, hregs⟩ := ih he m s
    have hids := (arith_number e he m).ids
    rw [irGen_uminus]
    refine ⟨s'.setReg (e.irGen m).mgr.nextId (D.neg (s'.read D (e.irGen m).val)), ?_, ?_, ?_, ?_⟩
    · simp only [genMinus]
      rw [Lang.scan_append_ok _ hs]
      exact Lang.scan_next _ rfl []
    · simpa only [IRState.env_setReg, Expr.eval] using henv
    · simp only [genMinus, IRState.read_setReg, Expr.eval, hval]
    · intro id hid
      rw [IRState.setReg_regs_ne (by omega), hregs id hid]
  | op2 op l r ihl ihr =>
    simp only [Expr.isArith, Bool.and_eq_true] at he
    obtain ⟨⟨hop, hl⟩, hr⟩ := he
    obtain ⟨s₁, hs₁, henv₁, hval₁, hregs₁⟩ := ihl hl m s
    obtain ⟨s₂, hs₂, henv₂, hval₂, hregs₂⟩ := ihr hr (l.irGen m).mgr s₁
    have hnl := arith_number l hl m
    have hnr := arith_number r hr (l.irGen m).mgr
    have hids := hnl.ids
    have hids' := hnr.ids
    -- the left operand is still readable after the right one has run
    have hargs : s₂.args = s₁.args := by
      have := congrArg Env.args henv₂
      rwa [Expr.eval_args] at this
    have hleft : s₂.read D (l.irGen m).val = (l.eval D h s.env).1 := by
      rw [IRState.read_congr hnl.below hargs hregs₂, hval₁]
    have hop' : op ≠ .UMINUS := by
      rintro rfl
      simp [OpCode.isBinaryArith] at hop
    rw [irGen_binary hop]
    refine ⟨s₂.setReg (r.irGen (l.irGen m).mgr).mgr.nextId
      (D.arith op (l.eval D h s.env).1 (r.eval D h (l.eval D h s.env).2).1), ?_, ?_, ?_, ?_⟩
    · simp only [genBinary]
      rw [List.append_assoc, Lang.scan_append_ok _ hs₁, Lang.scan_append_ok _ hs₂]
      refine Lang.scan_next _ ?_ []
      simp only [irLang, irAct, IRState.compute, if_neg hop', hleft, hval₂, henv₁]
    · simp only [IRState.env_setReg, Expr.eval, henv₂, henv₁]
    · simp only [genBinary, IRState.read_setReg, Expr.eval]
    · intro id hid
      rw [IRState.setReg_regs_ne (by omega), hregs₂ id (by omega), hregs₁ id hid]

/-! ## Conditions -/

/-- A condition's code ends by looking for the target its truth selects. -/
def Selects (D : Domain V) (h : Helpers V) (m : CodeGenMgr) (g : Gen) (r : Bool × Env V)
    (s : IRState V) : Prop :=
  ∃ s', (irLang D h).scan g.code none s =
    .ok (some (if r.1 then m.trueTarget else m.falseTarget), s') ∧ s'.env = r.2

/-- The code of a comparison selects the target of its truth. -/
theorem compare_scan {op : OpCode} (hop : op ≠ .INVALID) {l r : Expr} (hl : l.isArith = true)
    (hr : r.isArith = true) (m : CodeGenMgr) (s : IRState V) :
    Selects D h m (genCompare op l.irGen r.irGen m)
      (D.cmp op (l.eval D h s.env).1 (r.eval D h (l.eval D h s.env).2).1,
        (r.eval D h (l.eval D h s.env).2).2) s := by
  obtain ⟨s₁, hs₁, henv₁, hval₁, -⟩ := arith_scan (D := D) (h := h) l hl m s
  obtain ⟨s₂, hs₂, henv₂, hval₂, hregs₂⟩ :=
    arith_scan (D := D) (h := h) r hr (l.irGen m).mgr s₁
  have hnl := arith_number l hl m
  have hnr := arith_number r hr (l.irGen m).mgr
  have hargs : s₂.args = s₁.args := by
    have := congrArg Env.args henv₂
    rwa [Expr.eval_args] at this
  have hleft : s₂.read D (l.irGen m).val = (l.eval D h s.env).1 := by
    rw [IRState.read_congr hnl.below hargs hregs₂, hval₁]
  rw [henv₁] at henv₂ hval₂
  refine ⟨s₂.record (.test op (l.eval D h s.env).1 (r.eval D h (l.eval D h s.env).2).1), ?_, ?_⟩
  · simp only [genCompare]
    rw [List.append_assoc, Lang.scan_append_ok _ hs₁, Lang.scan_append_ok _ hs₂,
      hnr.targets.1, hnr.targets.2, hnl.targets.1, hnl.targets.2]
    refine Lang.scan_jump _ ?_ []
    simp only [irLang, irAct, if_neg hop, hleft, hval₂]
  · rw [IRState.env_test, henv₂]

/-- A stand-alone number used as a condition. -/
theorem nonzero_scan {e : Expr} (he : e.isArith = true) (m : CodeGenMgr) (s : IRState V) :
    Selects D h m (genCompare .NE e.irGen (fun m => ⟨.imm 0, [], m⟩) m)
      (e.nonzero D h s.env) s := by
  have hv : (Expr.value 0).irGen = fun m => ⟨.imm 0, [], m⟩ := by
    funext m
    simp [Expr.irGen]
  have := compare_scan (D := D) (h := h) (show OpCode.NE ≠ .INVALID by decide) he (r := .value 0) rfl m s
  rwa [hv] at this

/-- Entering the label a scan looks for. -/
theorem scan_label (l : String) (code : List Instruction) (s : IRState V) :
    (irLang D h).scan (.label l :: code) (some l) s =
      (irLang D h).scan code none (s.record (.enter l)) := by
  rw [Lang.scan_found _ (show (irLang D h).label? (.label l) = some l from rfl)]
  exact Lang.scan_next _ rfl code

/-- A label passed in execution. -/
theorem scan_label_exec (l : String) (code : List Instruction) (s : IRState V) :
    (irLang D h).scan (.label l :: code) none s =
      (irLang D h).scan code none (s.record (.enter l)) :=
  Lang.scan_next _ rfl code

theorem scan_label_pass {l l' : String} (hne : l' ≠ l) (code : List Instruction) (s : IRState V) :
    (irLang D h).scan (.label l :: code) (some l') s = (irLang D h).scan code (some l') s :=
  Lang.scan_pass _ (fun e => hne (Option.some.inj e).symm) code s

/-- After a save, the operand's code and a restore, the targets are the saved ones. -/
theorem restore_targets {gen : CodeGenMgr → Gen} (hgen : GenEmits gen) {m n : CodeGenMgr}
    (hsaved : n.savedBranchTarget = (m.trueTarget, m.falseTarget) :: m.savedBranchTarget)
    (hcnt : m.labelCnt ≤ n.labelCnt) :
    (gen n).mgr.restoreBranchTarget.trueTarget = m.trueTarget ∧
      (gen n).mgr.restoreBranchTarget.falseTarget = m.falseTarget ∧
      m.labelCnt ≤ (gen n).mgr.restoreBranchTarget.labelCnt := by
  have hs := (hgen n).saved.trans hsaved
  simp only [CodeGenMgr.restoreBranchTarget, hs, true_and]
  exact Nat.le_trans hcnt (hgen n).cnt

/-- The code of a condition, as the code of its parent condition sees it. -/
def CondCode (D : Domain V) (h : Helpers V) (e : Expr) : Prop :=
  ∀ (m : CodeGenMgr) (s : IRState V), Old m.labelCnt m.trueTarget → Old m.labelCnt m.falseTarget →
    Selects D h m (e.branchGen m) (e.cond D h s.env) s

/-- `!` swaps the targets, and the negated condition selects the other one. -/
theorem condCode_not {e : Expr} (he : CondCode D h e) : CondCode D h (.op1 .NOT e) := by
  intro m s ht hf
  obtain ⟨s', hs', henv'⟩ := he { m with trueTarget := m.falseTarget, falseTarget := m.trueTarget }
    s hf ht
  refine ⟨s', ?_, by simpa only [Expr.cond, if_true] using henv'⟩
  have hcode : (Expr.op1 .NOT e).branchGen m = genNot e.branchGen m := rfl
  rw [hcode]
  refine hs'.trans ?_
  simp only [Expr.cond, if_true]
  cases (e.cond D h s.env).1 <;> rfl

/-- `&&`: when the left operand is true the scan finds the label in front of the right one;
otherwise it passes both by. -/
theorem condCode_and {l r : Expr} (hl : CondCode D h l) (hr : CondCode D h r) :
    CondCode D h (.op2 .AND l r) := by
  intro m s ht hf
  set m₁ : CodeGenMgr := { m.saveBranchTarget.bumpLabel with trueTarget := m.newLabel } with hm₁
  have hcode : ((Expr.op2 .AND l r).branchGen m).code = (l.branchGen m₁).code ++
      [.label m.newLabel] ++ (r.branchGen (l.branchGen m₁).mgr.restoreBranchTarget).code := rfl
  obtain ⟨hT, hF, hcnt⟩ := restore_targets (branchGen_emits l) (m := m) (n := m₁) rfl
    (Nat.le_succ _)
  obtain ⟨s₁, hs₁, henv₁⟩ := hl m₁ s (old_labelText (Nat.le_refl _))
    (hf.mono (Nat.le_succ m.labelCnt))
  unfold Selects
  rw [hcode, List.append_assoc, Lang.scan_append_ok _ hs₁]
  simp only [Expr.cond, if_true]
  cases ha : (l.cond D h s.env).1 with
  | true =>
    obtain ⟨s₂, hs₂, henv₂⟩ := hr (l.branchGen m₁).mgr.restoreBranchTarget
      (s₁.record (.enter m.newLabel)) (by rw [hT]; exact ht.mono hcnt)
      (by rw [hF]; exact hf.mono hcnt)
    rw [IRState.env_enter, henv₁] at hs₂ henv₂
    rw [hT, hF] at hs₂
    refine ⟨s₂, ?_, henv₂⟩
    simp only [if_true, List.singleton_append]
    exact (scan_label m.newLabel _ s₁).trans hs₂
  | false =>
    refine ⟨s₁, ?_, henv₁⟩
    have hne : m.falseTarget ≠ m.newLabel := hf _ (Nat.lt_succ_self _)
    simp only [Bool.false_eq_true, if_false, List.singleton_append, ha]
    refine (scan_label_pass hne _ s₁).trans (Lang.scan_skip _ ?_ s₁)
    exact (branchGen_emits r _).not_mem (hf.mono hcnt)

/-- `||`: the same with the false target. -/
theorem condCode_or {l r : Expr} (hl : CondCode D h l) (hr : CondCode D h r) :
    CondCode D h (.op2 .OR l r) := by
  intro m s ht hf
  set m₁ : CodeGenMgr := { m.saveBranchTarget.bumpLabel with falseTarget := m.newLabel } with hm₁
  have hcode : ((Expr.op2 .OR l r).branchGen m).code = (l.branchGen m₁).code ++
      [.label m.newLabel] ++ (r.branchGen (l.branchGen m₁).mgr.restoreBranchTarget).code := rfl
  obtain ⟨hT, hF, hcnt⟩ := restore_targets (branchGen_emits l) (m := m) (n := m₁) rfl
    (Nat.le_succ _)
  obtain ⟨s₁, hs₁, henv₁⟩ := hl m₁ s (ht.mono (Nat.le_succ m.labelCnt))
    (old_labelText (Nat.le_refl _))
  unfold Selects
  rw [hcode, List.append_assoc, Lang.scan_append_ok _ hs₁]
  simp only [Expr.cond, reduceCtorEq, if_false, if_true]
  cases ha : (l.cond D h s.env).1 with
  | false =>
    obtain ⟨s₂, hs₂, henv₂⟩ := hr (l.branchGen m₁).mgr.restoreBranchTarget
      (s₁.record (.enter m.newLabel)) (by rw [hT]; exact ht.mono hcnt)
      (by rw [hF]; exact hf.mono hcnt)
    rw [IRState.env_enter, henv₁] at hs₂ henv₂
    rw [hT, hF] at hs₂
    refine ⟨s₂, ?_, henv₂⟩
    simp only [Bool.false_eq_true, if_false, List.singleton_append]
    exact (scan_label m.newLabel _ s₁).trans hs₂
  | true =>
    refine ⟨s₁, ?_, henv₁⟩
    have hne : m.trueTarget ≠ m.newLabel := ht _ (Nat.lt_succ_self _)
    simp only [if_true, List.singleton_append, ha]
    refine (scan_label_pass hne _ s₁).trans (Lang.scan_skip _ ?_ s₁)
    exact (branchGen_emits r _).not_mem (ht.mono hcnt)

/-- **The code of a condition leaves by the target its truth selects**, when both targets are
older than the code. -/
theorem cond_scan (e : Expr) (he : e.isCond = true) : CondCode D h e := by
  induction e with
  | ref x => exact fun m s _ _ => nonzero_scan rfl m s
  | value n => exact fun m s _ _ => nonzero_scan rfl m s
  | inv f ps => exact fun m s _ _ => nonzero_scan rfl m s
  | op1 op e ih =>
    simp only [Expr.isCond] at he
    split_ifs at he with hop
    · subst hop
      exact condCode_not (ih he)
    · simp only [Bool.and_eq_true, decide_eq_true_eq] at he
      obtain ⟨rfl, he⟩ := he
      intro m s _ _
      exact nonzero_scan (e := .op1 .UMINUS e) (by simpa [Expr.isArith] using he) m s
  | op2 op l r ihl ihr =>
    simp only [Expr.isCond] at he
    split_ifs at he with hop
    · rw [Bool.and_eq_true] at he
      rcases hop with rfl | rfl
      · exact condCode_and (ihl he.1) (ihr he.2)
      · exact condCode_or (ihl he.1) (ihr he.2)
    · simp only [Bool.and_eq_true] at he
      obtain ⟨⟨hc, hl⟩, hr⟩ := he
      rw [not_or] at hop
      intro m s _ _
      by_cases hcmp : op.isCmp = true
      · have hne : op ≠ .INVALID := by rintro rfl; simp [OpCode.isCmp] at hcmp
        have hcode : (Expr.op2 op l r).branchGen m = genCompare op l.irGen r.irGen m := by
          rw [← irGen_cmp hcmp]
          refine if_pos ?_
          cases op <;> first | rfl | simp [OpCode.isCmp] at hcmp
        rw [hcode]
        simpa only [Expr.cond, if_neg hop.1, if_neg hop.2, if_pos hcmp] using
          compare_scan (D := D) (h := h) hne hl hr m s
      · have hbin : op.isBinaryArith = true := by simpa [hcmp] using hc
        have hcode : (Expr.op2 op l r).branchGen m =
            genCompare .NE (Expr.op2 op l r).irGen (fun m => ⟨.imm 0, [], m⟩) m := by
          exact if_neg (by simp [Expr.isBooleanOp, OpCode.not_isBoolean hbin])
        rw [hcode]
        simpa only [Expr.cond, if_neg hop.1, if_neg hop.2, if_neg hcmp] using
          nonzero_scan (D := D) (h := h) (e := .op2 op l r)
            (by simp only [Expr.isArith, hbin, hl, hr, Bool.and_self]) m s

/-! ## Statements -/

/-- The code without its direct jumps, when `falls`. -/
def dropJumps (falls : Bool) (code : List Instruction) : List Instruction :=
  if falls then code.filter fun i => !i.isDirectJMP else code

@[simp] theorem dropJumps_false (code : List Instruction) : dropJumps false code = code := rfl

@[simp] theorem dropJumps_append (falls : Bool) (c c' : List Instruction) :
    dropJumps falls (c ++ c') = dropJumps falls c ++ dropJumps falls c' := by
  cases falls <;> simp [dropJumps]

@[simp] theorem dropJumps_nil (falls : Bool) : dropJumps falls [] = [] := by
  cases falls <;> rfl

theorem dropJumps_cons {i : Instruction} (hi : i.isDirectJMP = false) (falls : Bool)
    (c : List Instruction) : dropJumps falls (i :: c) = i :: dropJumps falls c := by
  cases falls <;> simp [dropJumps, hi]

/-- No direct jump in the code. -/
def NoJumps (code : List Instruction) : Prop := ∀ i ∈ code, i.isDirectJMP = false

theorem NoJumps.dropJumps_eq {code : List Instruction} (h : NoJumps code) (falls : Bool) :
    dropJumps falls code = code := by
  cases falls with
  | false => rfl
  | true => exact List.filter_eq_self.mpr fun i hi => by simp [h i hi]

theorem noJumps_append {c c' : List Instruction} (h : NoJumps c) (h' : NoJumps c') :
    NoJumps (c ++ c') := fun i hi => (List.mem_append.mp hi).elim (h i) (h' i)

theorem noJumps_single {i : Instruction} (h : i.isDirectJMP = false) : NoJumps [i] :=
  fun _ hj => List.mem_singleton.mp hj ▸ h

/-- A direct jump is no label. -/
theorem irLabels_dropJumps (falls : Bool) (code : List Instruction) :
    irLabels (dropJumps falls code) = irLabels code := by
  cases falls with
  | false => rfl
  | true =>
    induction code with
    | nil => rfl
    | cons i code ih =>
      by_cases hi : i.isDirectJMP = true
      · have hlab : i.label? = none := by
          cases i <;> first | rfl | exact absurd hi (by simp [Instruction.isDirectJMP])
        have : dropJumps true (i :: code) = dropJumps true code := by simp [dropJumps, hi]
        rw [this, ih, irLabels_cons, hlab]
        rfl
      · rw [dropJumps_cons (by simpa using hi), irLabels_cons, irLabels_cons, ih]

theorem compare_noJumps {op : OpCode} (hop : op ≠ .INVALID) {l r : CodeGenMgr → Gen}
    (hl : ∀ m, NoJumps (l m).code) (hr : ∀ m, NoJumps (r m).code) (m : CodeGenMgr) :
    NoJumps (genCompare op l r m).code :=
  noJumps_append (noJumps_append (hl _) (hr _))
    (noJumps_single (by simp [Instruction.isDirectJMP, hop]))

theorem branchCode_noJumps {e : Expr} (h : ∀ m, NoJumps (e.irGen m).code) (m : CodeGenMgr) :
    NoJumps (e.branchGen m).code := by
  simp only [Expr.branchGen, genBranchCode]
  split
  · exact h m
  · exact compare_noJumps (by decide) h (fun _ _ hi => absurd hi List.not_mem_nil) m

/-- Expressions generate no direct jump. -/
theorem expr_noJumps (e : Expr) (m : CodeGenMgr) : NoJumps (e.irGen m).code := by
  induction e generalizing m with
  | ref x => exact fun _ hi => absurd hi List.not_mem_nil
  | value n => exact fun _ hi => absurd hi List.not_mem_nil
  | inv f ps => exact noJumps_single rfl
  | op1 op e ih =>
    simp only [Expr.irGen]
    split_ifs
    · exact branchCode_noJumps ih _
    · exact noJumps_append (ih m) (noJumps_single rfl)
    · exact fun _ hi => absurd hi List.not_mem_nil
  | op2 op l r ihl ihr =>
    simp only [Expr.irGen]
    split_ifs with _ _ _ hcmp
    · exact noJumps_append (noJumps_append (branchCode_noJumps ihl _) (noJumps_single rfl))
        (branchCode_noJumps ihr _)
    · exact noJumps_append (noJumps_append (branchCode_noJumps ihl _) (noJumps_single rfl))
        (branchCode_noJumps ihr _)
    · exact branchCode_noJumps ihl _
    · exact compare_noJumps (by rintro rfl; simp [OpCode.isCmp] at hcmp) ihl ihr m
    · exact noJumps_append (ihl m) (noJumps_single rfl)
    · exact fun _ hi => absurd hi List.not_mem_nil
    · exact noJumps_append (noJumps_append (ihl _) (ihr _)) (noJumps_single rfl)

theorem genIfHead_noJumps (c : Expr) (m : CodeGenMgr) : NoJumps (genIfHead c m).code :=
  noJumps_append (branchCode_noJumps (expr_noJumps c) _) (noJumps_single rfl)

variable (D h)

mutual

/-- `Stmt.exec`, where with `falls` a then branch that runs off its end goes on into its else
branch: what a body means once the jumps over its else branches are gone. -/
def Stmt.execWith (falls : Bool) : Stmt → Env V → Option PermType × Env V
  | .empty, σ => (none, σ)
  | .perm p, σ => (some p, σ)
  | .ifThen c t, σ => let a := c.cond D h σ; if a.1 then t.execWith falls a.2 else (none, a.2)
  | .ifElse c t e, σ =>
    let a := c.cond D h σ
    if a.1 then
      match t.execWith falls a.2 with
      | (none, σ') => if falls then e.execWith falls σ' else (none, σ')
      | (some p, σ') => (some p, σ')
    else e.execWith falls a.2
  | .assign x e, σ => let a := e.eval D h σ; (none, a.2.assign x a.1)
  | .compound ss, σ => execAllWith falls ss σ

/-- `execAll`, over `Stmt.execWith`. -/
def execAllWith (falls : Bool) : List Stmt → Env V → Option PermType × Env V
  | [], σ => (none, σ)
  | s :: ss, σ =>
    match s.execWith falls σ with
    | (none, σ') => execAllWith falls ss σ'
    | (some p, σ') => (some p, σ')

end

mutual

/-- With the jumps in place this is the meaning of the source. -/
theorem execWith_false : ∀ (s : Stmt) (σ : Env V), s.execWith D h false σ = s.exec D h σ
  | .empty, σ => by simp only [Stmt.execWith, Stmt.exec]
  | .perm p, σ => by simp only [Stmt.execWith, Stmt.exec]
  | .ifThen c t, σ => by simp only [Stmt.execWith, Stmt.exec, execWith_false t]
  | .ifElse c t e, σ => by
    simp only [Stmt.execWith, Stmt.exec, execWith_false t, execWith_false e]
    split
    · rcases t.exec D h (c.cond D h σ).2 with ⟨_ | p, σ'⟩ <;> rfl
    · rfl
  | .assign x e, σ => by simp only [Stmt.execWith, Stmt.exec]
  | .compound ss, σ => by simp only [Stmt.execWith, Stmt.exec, execAllWith_false ss]

/-- The same of a list of statements. -/
theorem execAllWith_false : ∀ (ss : List Stmt) (σ : Env V),
    execAllWith D h false ss σ = execAll D h ss σ
  | [], σ => by simp only [execAllWith, execAll]
  | s :: ss, σ => by
    simp only [execAllWith, execAll, execWith_false s]
    rcases s.exec D h σ with ⟨_ | p, σ'⟩
    · exact execAllWith_false ss σ'
    · rfl

end

variable {D h}

/-- A scan agrees with a source result: control passes on when the source runs off its end, and
the verdict is the source's otherwise. -/
def Agrees (r : Except (Outcome × IRState V) (Option String × IRState V))
    (e : Option PermType × Env V) : Prop :=
  match e with
  | (none, σ) => ∃ s, r = .ok (none, s) ∧ s.env = σ
  | (some p, σ) => ∃ s, r = .error (.verdict p, s) ∧ s.env = σ

/-- Code after code: the second part runs when the first falls through. -/
theorem agrees_append {c d : List Instruction} {s : IRState V} {e : Option PermType × Env V}
    {k : Env V → Option PermType × Env V}
    (hc : Agrees ((irLang D h).scan c none s) e)
    (hk : ∀ s', s'.env = e.2 → Agrees ((irLang D h).scan d none s') (k e.2)) :
    Agrees ((irLang D h).scan (c ++ d) none s)
      (match e with
        | (none, σ') => k σ'
        | (some p, σ') => (some p, σ')) := by
  obtain ⟨_ | p, σ⟩ := e
  · obtain ⟨s', hs, henv⟩ := hc
    rw [Lang.scan_append_ok _ hs]
    exact hk s' henv
  · obtain ⟨s', hs, henv⟩ := hc
    exact ⟨s', Lang.scan_append_error _ hs _, henv⟩

/-- Code after code, when the second part only passes control on. -/
theorem agrees_append_pass {c c' : List Instruction} {s : IRState V} {e : Option PermType × Env V}
    (hc : Agrees ((irLang D h).scan c none s) e)
    (hk : ∀ s', s'.env = e.2 → Agrees ((irLang D h).scan c' none s') (none, e.2)) :
    Agrees ((irLang D h).scan (c ++ c') none s) e := by
  have := agrees_append (k := fun σ => (none, σ)) hc hk
  obtain ⟨_ | p, σ⟩ := e <;> exact this

/-- The head of an `if` passes control to what follows when the condition is true, and looks for
the false label otherwise. -/
theorem genIfHead_scan {c : Expr} (hc : c.isCond = true) (m : CodeGenMgr) (s : IRState V) :
    ∃ s', (irLang D h).scan (genIfHead c m).code none s =
      .ok (if (c.cond D h s.env).1 then none else some m.bumpLabel.newLabel, s') ∧
      s'.env = (c.cond D h s.env).2 := by
  obtain ⟨s₁, hs₁, henv₁⟩ := cond_scan (D := D) (h := h) c hc
    { m.bumpLabel.bumpLabel with trueTarget := m.newLabel, falseTarget := m.bumpLabel.newLabel } s
    (old_labelText (Nat.le_succ _)) (old_labelText (Nat.le_refl _))
  simp only [genIfHead]
  rw [Lang.scan_append_ok _ hs₁]
  cases (c.cond D h s.env).1 with
  | true => exact ⟨s₁.record (.enter m.newLabel), scan_label _ [] s₁, by simpa using henv₁⟩
  | false =>
    refine ⟨s₁, scan_label_pass (fun e => ?_) [] s₁, henv₁⟩
    have := labelText_inj.mp e
    simp only [CodeGenMgr.bumpLabel] at this
    omega

/-- The code of a statement does what the statement does, from any manager and in any state. -/
def Stmt.Scans (D : Domain V) (h : Helpers V) (falls : Bool) (st : Stmt) : Prop :=
  ∀ (m : CodeGenMgr) (s : IRState V),
    Agrees ((irLang D h).scan (dropJumps falls (st.irGen m).code) none s)
      (st.execWith D h falls s.env)

/-- A conditional without `else`. -/
theorem ifThen_scan {falls : Bool} {c : Expr} {t : Stmt} (hc : c.isCond = true)
    (ht : t.Scans D h falls) : (Stmt.ifThen c t).Scans D h falls := by
  intro m s
  obtain ⟨-, hcnt, -⟩ := genIfHead_emits c m
  have hold := old_labelText hcnt
  obtain ⟨s₁, hs₁, henv₁⟩ := genIfHead_scan (D := D) (h := h) hc m s
  simp only [Stmt.irGen, Stmt.execWith, dropJumps_append, (genIfHead_noJumps c m).dropJumps_eq,
    (noJumps_single (i := .label m.bumpLabel.newLabel) rfl).dropJumps_eq]
  rw [List.append_assoc, Lang.scan_append_ok _ hs₁]
  cases (c.cond D h s.env).1 with
  | true =>
    have ht := ht (genIfHead c m).mgr s₁
    rw [henv₁] at ht
    exact agrees_append_pass ht fun s' hs' =>
      ⟨s'.record (.enter m.bumpLabel.newLabel), scan_label_exec _ [] s', by simpa using hs'⟩
  | false =>
    simp only [Bool.false_eq_true, if_false]
    rw [Lang.scan_append_ok _ (Lang.scan_skip _ (s := s₁) (l := m.bumpLabel.newLabel) ?_)]
    · exact ⟨s₁.record (.enter m.bumpLabel.newLabel), scan_label _ [] s₁, by simpa using henv₁⟩
    · rw [irLang_labels, irLabels_dropJumps]
      exact (stmt_emits t _).not_mem hold

/-- The code of an `if`-`else`, in its parts. -/
theorem dropJumps_ifElse (falls : Bool) (c : Expr) (t e : Stmt) (m : CodeGenMgr) :
    dropJumps falls ((Stmt.ifElse c t e).irGen m).code =
      (genIfHead c m).code ++ (dropJumps falls (t.irGen (genIfHead c m).mgr).code ++
        (dropJumps falls
            [.branch .INVALID .null .null (t.irGen (genIfHead c m).mgr).mgr.newLabel ""] ++
          .label m.bumpLabel.newLabel ::
            (dropJumps falls (e.irGen (t.irGen (genIfHead c m).mgr).mgr.bumpLabel).code ++
              [.label (t.irGen (genIfHead c m).mgr).mgr.newLabel]))) := by
  simp only [Stmt.irGen, dropJumps_append, (genIfHead_noJumps c m).dropJumps_eq, List.append_assoc]
  rw [show ([.branch .INVALID .null .null (t.irGen (genIfHead c m).mgr).mgr.newLabel "",
      .label m.bumpLabel.newLabel] : List Instruction) =
    [.branch .INVALID .null .null (t.irGen (genIfHead c m).mgr).mgr.newLabel ""] ++
      [.label m.bumpLabel.newLabel] from rfl, dropJumps_append, List.append_assoc,
    (noJumps_single (i := .label m.bumpLabel.newLabel) rfl).dropJumps_eq,
    (noJumps_single (i := .label (t.irGen (genIfHead c m).mgr).mgr.newLabel) rfl).dropJumps_eq]
  rfl

/-- From the false label on: the `else` branch, then the out label. -/
theorem elseTail_scan {falls : Bool} {e : Stmt} (he : e.Scans D h falls) (m : CodeGenMgr)
    (out : String) (s : IRState V) :
    Agrees ((irLang D h).scan (dropJumps falls (e.irGen m).code ++ [.label out]) none s)
      (e.execWith D h falls s.env) :=
  agrees_append_pass (he m s) fun s' hs' =>
    ⟨s'.record (.enter out), scan_label_exec _ [] s', by simpa using hs'⟩

/-- Behind the `then` branch: the jump skips the `else` branch, or is gone. -/
theorem thenTail_scan {falls : Bool} {e : Stmt} (he : e.Scans D h falls) {m : CodeGenMgr}
    {f out : String} (hne : out ≠ f) (hout : out ∉ irLabels (e.irGen m).code) (s : IRState V) :
    Agrees ((irLang D h).scan (dropJumps falls [.branch .INVALID .null .null out ""] ++
        .label f :: (dropJumps falls (e.irGen m).code ++ [.label out])) none s)
      (if falls then e.execWith D h falls s.env else (none, s.env)) := by
  cases falls with
  | true =>
    -- the jump is gone: control enters the else branch
    have hj : dropJumps true [.branch .INVALID .null .null out ""] = [] := rfl
    rw [hj, List.nil_append, scan_label_exec]
    simpa using elseTail_scan he m out (s.record (.enter f))
  | false =>
    have hskip : out ∉ (irLang D h).labels (dropJumps false (e.irGen m).code) := by
      rwa [irLang_labels, irLabels_dropJumps]
    rw [dropJumps_false, List.singleton_append,
      Lang.scan_jump _ (s := s) (l := out) rfl, scan_label_pass hne,
      Lang.scan_append_ok _ (Lang.scan_skip _ (s := s) hskip), scan_label]
    exact ⟨s.record (.enter out), rfl, by simp⟩

/-- A conditional with `else`, with its jump kept or removed. -/
theorem ifElse_scan {falls : Bool} {c : Expr} {t e : Stmt} (hc : c.isCond = true)
    (ht : t.Scans D h falls) (he : e.Scans D h falls) : (Stmt.ifElse c t e).Scans D h falls := by
  intro m s
  obtain ⟨-, hcnt, -⟩ := genIfHead_emits c m
  have hte := stmt_emits t (genIfHead c m).mgr
  have hcntt := hte.cnt
  obtain ⟨s₁, hs₁, henv₁⟩ := genIfHead_scan (D := D) (h := h) hc m s
  rw [dropJumps_ifElse, Lang.scan_append_ok _ hs₁]
  simp only [Stmt.execWith]
  cases (c.cond D h s.env).1 with
  | false =>
    simp only [Bool.false_eq_true, if_false]
    rw [Lang.scan_append_ok _ (Lang.scan_skip _ (s := s₁) (l := m.bumpLabel.newLabel) ?_),
      Lang.scan_append_ok _ (Lang.scan_skip _ (s := s₁) (l := m.bumpLabel.newLabel) ?_), scan_label]
    · have := elseTail_scan he (t.irGen (genIfHead c m).mgr).mgr.bumpLabel
        (t.irGen (genIfHead c m).mgr).mgr.newLabel (s₁.record (.enter m.bumpLabel.newLabel))
      rwa [IRState.env_enter, henv₁] at this
    · rw [irLang_labels, irLabels_dropJumps]
      simp [irLabels, Instruction.label?]
    · rw [irLang_labels, irLabels_dropJumps]
      exact hte.not_mem (old_labelText hcnt)
  | true =>
    simp only [if_true]
    have hne : (t.irGen (genIfHead c m).mgr).mgr.newLabel ≠ m.bumpLabel.newLabel := fun e => by
      have := labelText_inj.mp e
      simp only [CodeGenMgr.bumpLabel] at this
      omega
    have hout := (stmt_emits e (t.irGen (genIfHead c m).mgr).mgr.bumpLabel).not_mem
      (old_labelText (Nat.le_refl _))
    have ht := ht (genIfHead c m).mgr s₁
    rw [henv₁] at ht
    have := agrees_append (k := fun σ => if falls then e.execWith D h falls σ else (none, σ)) ht
      fun s' hs' => hs' ▸ thenTail_scan he hne hout s'
    rcases hr : t.execWith D h falls (c.cond D h s.env).2 with ⟨_ | p, σ⟩ <;> rw [hr] at this <;>
      exact this

mutual

/-- **The code of a statement does what the statement does.** -/
theorem stmt_scan (falls : Bool) : ∀ (st : Stmt) (_ : st.wellTyped = true), st.Scans D h falls
  | .empty, _ => by
    intro m s
    simp only [Stmt.irGen, dropJumps_nil, Stmt.execWith]
    exact ⟨s, rfl, rfl⟩
  | .perm p, _ => by
    intro m s
    simp only [Stmt.irGen, Stmt.execWith]
    rw [dropJumps_cons rfl, dropJumps_nil]
    refine ⟨s, Lang.scan_stop _ ?_ [], rfl⟩
    cases p <;> rfl
  | .ifThen c t, hwt => by
    simp only [Stmt.wellTyped, Bool.and_eq_true] at hwt
    exact ifThen_scan hwt.1 (stmt_scan falls t hwt.2)
  | .ifElse c t e, hwt => by
    simp only [Stmt.wellTyped, Bool.and_eq_true] at hwt
    exact ifElse_scan hwt.1.1 (stmt_scan falls t hwt.1.2) (stmt_scan falls e hwt.2)
  | .assign x e, hwt => by
    intro m s
    simp only [Stmt.wellTyped] at hwt
    obtain ⟨s', hs', henv', hval', -⟩ := arith_scan (D := D) (h := h) e hwt m s
    simp only [Stmt.irGen, Stmt.execWith, dropJumps_append, NoJumps.dropJumps_eq (expr_noJumps e m),
      NoJumps.dropJumps_eq (noJumps_single (i := .store (e.irGen m).val (.mem x)) rfl)]
    rw [Lang.scan_append_ok _ hs']
    refine ⟨s'.assign x (s'.read D (e.irGen m).val), Lang.scan_next _ rfl [], ?_⟩
    rw [IRState.env_assign, henv', hval']
  | .compound ss, hwt => by
    intro m s
    simp only [Stmt.wellTyped] at hwt
    simp only [Stmt.irGen, Stmt.execWith]
    exact all_scan falls ss hwt m s

/-- The code of a list of statements does what the list does. -/
theorem all_scan (falls : Bool) : ∀ (ss : List Stmt) (_ : allWellTyped ss = true) (m : CodeGenMgr)
    (s : IRState V), Agrees ((irLang D h).scan (dropJumps falls (irGenAll ss m).code) none s)
      (execAllWith D h falls ss s.env)
  | [], _, m, s => by
    simp only [irGenAll, dropJumps_nil, execAllWith]
    exact ⟨s, rfl, rfl⟩
  | st :: ss, hwt, m, s => by
    simp only [allWellTyped, Bool.and_eq_true] at hwt
    simp only [irGenAll, execAllWith, dropJumps_append]
    exact agrees_append (stmt_scan falls st hwt.1 m s) fun s' hs' =>
      hs' ▸ all_scan falls ss hwt.2 _ s'

end

/-- A scan that agrees with a source result halts with it. -/
theorem Agrees.halts {code : List Instruction} (hnd : (irLabels code).Nodup) {s : IRState V}
    {e : Option PermType × Env V} (ha : Agrees ((irLang D h).scan code none s) e) :
    ∃ s', Runs D h code s (Outcome.ofVerdict e.1, s') ∧ s'.env = e.2 := by
  obtain ⟨_ | p, σ⟩ := e <;> obtain ⟨s', hs', henv⟩ := ha <;>
    exact ⟨s', Lang.halts_of_scan (irLang D h) hnd (by rw [hs']; rfl), henv⟩

/-- **AST to IR is correct.** The list `IRGen` builds for a type-checking body, from any state of
the manager, runs to its end; it does the helper calls and assignments of the source, and ends in
the verdict of the source or runs off its end with it. -/
theorem irGen_runs (ss : List Stmt) (hwt : allWellTyped ss = true) (m : CodeGenMgr)
    (D : Domain V) (h : Helpers V) (s : IRState V) :
    (∃ r, Runs D h (irGenAll ss m).code s r) ∧
      ∀ r, Runs D h (irGenAll ss m).code s r →
        r.1 = Outcome.ofVerdict (execAll D h ss s.env).1 ∧ r.2.env = (execAll D h ss s.env).2 := by
  have hscan := all_scan (D := D) (h := h) false ss hwt m s
  rw [dropJumps_false, execAllWith_false] at hscan
  obtain ⟨s', hrun, henv⟩ := hscan.halts (all_emits ss m).nodup
  refine ⟨⟨_, hrun⟩, fun r hr => ?_⟩
  rw [hr.unique hrun]
  exact ⟨rfl, henv⟩

/-- The body of `tests/lexer_test.j`: nested branches, short-circuit conditions, an assignment. -/
def lexerTest : List Stmt :=
  [.ifElse (.op2 .AND (.ref "mode") (.inv "isreadonly" ["flags"]))
    (.ifElse (.op1 .NOT (.op2 .OR (.op2 .BITAND (.ref "flags") (.value 1))
        (.inv "safetoread" ["name"])))
      (.perm .ALLOW)
      (.ifElse (.op2 .EQ (.ref "mode") (.value 3))
        (.compound [.assign "name" (.inv "maketempcopy" ["name"]), .perm .ALLOW])
        (.compound [.perm .DENY])))
    (.compound [.perm .ALLOW])]

/-- `tests/lexer_test.j`, every argument `3` and every helper returning `1`: the call to
`isreadonly`, then the assignment of `maketempcopy(name)`, then `allow`. -/
theorem lexerTest_runs : ∃ r,
    Runs words32 (fun _ _ _ => 1) (irGenAll lexerTest {}).code ⟨fun _ => 3, fun _ => 0, []⟩ r ∧
      r.1 = .verdict .ALLOW ∧ actions r.2.log =
        [.call "isreadonly" [3], .call "maketempcopy" [3], .assign "name" 1] := by
  obtain ⟨⟨r, hr⟩, hall⟩ := irGen_runs lexerTest (by decide) {} words32 (fun _ _ _ => 1)
    ⟨fun _ => 3, fun _ => 0, []⟩
  obtain ⟨ho, henv⟩ := hall r hr
  exact ⟨r, hr, ho, congrArg Env.acts henv⟩

end SeccompPolicy
