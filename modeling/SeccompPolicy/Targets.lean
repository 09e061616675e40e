import SeccompPolicy.BpfIR

/-!
# The branches of generated code

`IRGen` and the passes give code that branches to labels of its own only, and never back
(`Branches`). That is what `BuildCFG` needs to give a CFG in topological order, and what classic
BPF needs at all: its jumps go forward.

The induction over the tree follows the label counter: `Branches` says of a piece of code, made
between two managers, that it branches to a given set of targets and to labels taken in between. A
condition is made with the targets of its manager (`IsTarget`); `&&` and `||` replace one of them
for their left operand.

Both halves need typing. A comparison that stands where a number is needed branches to targets
that are old by then, and may be behind it (`JumpFields` has such a policy).

## Results

* `all_generated`: the instructions `IRGen` makes; conditional branches compare and returns return
  a verdict.
* `all_branches`: the code of a body that type-checks.
* `mergeLabels_defined`: `MergeLabels` renames a target to the label kept of its run, whatever the
  types.
* `eliminated_branches`: the list `BuildCFG` gets.
* `checkIR_head`, `checkIR_labels`, `checkIR_branches`: the list the filter is made from starts
  with the syscall name; its other labels are labels of the body, each once; and it branches to
  these, and never back.
-/

namespace SeccompPolicy

/-- A conditional branch compares. -/
def Instruction.Compares : Instruction → Prop
  | .branch op _ _ _ _ => op = .INVALID ∨ op.isCmp = true
  | _ => True

/-- What `IRGen` gives: conditional branches compare, returns return a verdict. -/
def Instruction.FromSource : Instruction → Prop
  | .branch op _ _ _ _ => op = .INVALID ∨ op.isCmp = true
  | .ret _ rval => rval = PermType.ALLOW.val ∨ rval = PermType.DENY.val
  | _ => True

theorem Instruction.FromSource.compares {i : Instruction} (h : i.FromSource) : i.Compares := by
  cases i <;> first | exact h | trivial

/-- No instruction of the list branches to a label in front of it. -/
def NoBackward (code : List Instruction) : Prop :=
  code.Pairwise fun i j => ∀ l, i.label? = some l → l ∉ j.targets

theorem mem_irLabels {l : String} {code : List Instruction} :
    l ∈ irLabels code ↔ ∃ i ∈ code, i.label? = some l := List.mem_filterMap

theorem noBackward_append {c c' : List Instruction} : NoBackward (c ++ c') ↔
    NoBackward c ∧ NoBackward c' ∧ ∀ l ∈ irLabels c, ∀ j ∈ c', l ∉ j.targets := by
  unfold NoBackward
  rw [List.pairwise_append]
  refine and_congr_right fun _ => and_congr_right fun _ => ?_
  constructor
  · intro h l hl j hj
    obtain ⟨i, hi, hil⟩ := mem_irLabels.mp hl
    exact h i hi j hj l hil
  · exact fun h i hi j hj l hil => h l (mem_irLabels.mpr ⟨i, hi, hil⟩) j hj

theorem noBackward_single (i : Instruction) : NoBackward [i] := List.pairwise_singleton _ _

theorem Instruction.mem_branch_targets {op : OpCode} {a b : IRValue} {t f l : String}
    (h : l ∈ (Instruction.branch op a b t f).targets) : l = t ∨ l = f := by
  simp only [Instruction.targets] at h
  split at h
  · exact .inl (List.mem_singleton.mp h)
  · simpa using h

/-! ## The instructions of generated code -/

/-- What `IRGen` makes. -/
inductive Instruction.Generated : Instruction → Prop
  | arith (id : Nat) (op : OpCode) (a b : IRValue) : Generated (.arith id op a b)
  | call (id : Nat) (callee : String) (args : List String) : Generated (.call id callee args)
  | store (src : IRValue) (x : String) : Generated (.store src (.mem x))
  | ret (id : Nat) (p : PermType) : Generated (.ret id p.val)
  | jump (t : String) : Generated (.branch .INVALID .null .null t "")
  | compare {op : OpCode} (a b : IRValue) (t f : String) : op.isCmp = true →
      Generated (.branch op a b t f)
  | label (l : String) : Generated (.label l)

/-- Generated instructions have the forms of the source. -/
theorem Instruction.Generated.fromSource {i : Instruction} (h : i.Generated) : i.FromSource := by
  cases h with
  | ret id p => cases p <;> simp [Instruction.FromSource]
  | jump t => exact .inl rfl
  | compare a b t f hop => exact .inr hop
  | _ => trivial

/-- `GenBranchCode` makes what `IRGen` makes: the expression's own code, or a comparison with `0`.
-/
theorem genBranchCode_generated {e : Expr} (h : ∀ m, ∀ i ∈ (e.irGen m).code, i.Generated)
    (m : CodeGenMgr) : ∀ i ∈ (e.branchGen m).code, i.Generated := by
  simp only [Expr.branchGen, genBranchCode]
  split
  · exact h m
  · intro i hi
    simp only [genCompare, List.append_nil, List.mem_append, List.mem_singleton] at hi
    rcases hi with hi | rfl
    · exact h m i hi
    · exact .compare _ _ _ _ rfl

/-- By induction over the expression, for any manager; no typing is needed. -/
theorem expr_generated (e : Expr) (m : CodeGenMgr) : ∀ i ∈ (e.irGen m).code, i.Generated := by
  induction e generalizing m with
  | ref x => exact fun i hi => absurd hi List.not_mem_nil
  | value n => exact fun i hi => absurd hi List.not_mem_nil
  | inv f ps =>
    intro i hi
    obtain rfl := List.mem_singleton.mp hi
    exact .call _ _ _
  | op1 op e ih =>
    simp only [Expr.irGen]
    split_ifs
    · exact genBranchCode_generated ih _
    · intro i hi
      simp only [genMinus, List.mem_append, List.mem_singleton] at hi
      rcases hi with hi | rfl
      · exact ih m i hi
      · exact .arith _ _ _ _
    · exact fun i hi => absurd hi List.not_mem_nil
  | op2 op l r ihl ihr =>
    have hand : ∀ (m₁ m₂ : CodeGenMgr) (t : String), ∀ i ∈ (l.branchGen m₁).code ++ [.label t] ++
        (r.branchGen m₂).code, i.Generated := by
      intro m₁ m₂ t i hi
      simp only [List.mem_append, List.mem_singleton] at hi
      rcases hi with (hi | rfl) | hi
      · exact genBranchCode_generated ihl _ i hi
      · exact .label _
      · exact genBranchCode_generated ihr _ i hi
    simp only [Expr.irGen]
    split_ifs with h1 h2 h3 h4 h5 h6
    · exact hand _ _ _
    · exact hand _ _ _
    · exact genBranchCode_generated ihl _
    · intro i hi
      simp only [genCompare, List.mem_append, List.mem_singleton] at hi
      rcases hi with (hi | hi) | rfl
      · exact ihl _ i hi
      · exact ihr _ i hi
      · exact .compare _ _ _ _ h4
    · intro i hi
      simp only [genMinus, List.mem_append, List.mem_singleton] at hi
      rcases hi with hi | rfl
      · exact ihl m i hi
      · exact .arith _ _ _ _
    · exact fun i hi => absurd hi List.not_mem_nil
    · intro i hi
      simp only [genBinary, List.mem_append, List.mem_singleton] at hi
      rcases hi with (hi | hi) | rfl
      · exact ihl _ i hi
      · exact ihr _ i hi
      · exact .arith _ _ _ _

theorem genIfHead_generated (c : Expr) (m : CodeGenMgr) :
    ∀ i ∈ (genIfHead c m).code, i.Generated := by
  intro i hi
  simp only [genIfHead, List.mem_append, List.mem_singleton] at hi
  rcases hi with hi | rfl
  · exact genBranchCode_generated (expr_generated c) _ i hi
  · exact .label _

mutual

/-- Statements add returns, stores, labels and the jump over an else branch. -/
theorem stmt_generated : ∀ (s : Stmt) (m : CodeGenMgr), ∀ i ∈ (s.irGen m).code, i.Generated
  | .empty, m => by simp [Stmt.irGen]
  | .perm p, m => by
    intro i hi
    obtain rfl := List.mem_singleton.mp hi
    exact .ret _ p
  | .ifThen c t, m => by
    intro i hi
    simp only [Stmt.irGen, List.mem_append, List.mem_singleton] at hi
    rcases hi with (hi | hi) | rfl
    · exact genIfHead_generated c m i hi
    · exact stmt_generated t _ i hi
    · exact .label _
  | .ifElse c t e, m => by
    intro i hi
    simp only [Stmt.irGen, List.mem_append, List.mem_cons, List.not_mem_nil, or_false] at hi
    rcases hi with (((hi | hi) | (rfl | rfl)) | hi) | rfl
    · exact genIfHead_generated c m i hi
    · exact stmt_generated t _ i hi
    · exact .jump _
    · exact .label _
    · exact stmt_generated e _ i hi
    · exact .label _
  | .assign x e, m => by
    intro i hi
    simp only [Stmt.irGen, List.mem_append, List.mem_singleton] at hi
    rcases hi with hi | rfl
    · exact expr_generated e m i hi
    · exact .store _ _
  | .compound ss, m => by simpa only [Stmt.irGen] using all_generated ss m

theorem all_generated : ∀ (ss : List Stmt) (m : CodeGenMgr), ∀ i ∈ (irGenAll ss m).code, i.Generated
  | [], m => by simp [irGenAll]
  | s :: ss, m => by
    intro i hi
    simp only [irGenAll, List.mem_append] at hi
    rcases hi with hi | hi
    · exact stmt_generated s m i hi
    · exact all_generated ss _ i hi

end

/-- The instructions of a body have the forms of the source. -/
theorem all_fromSource (ss : List Stmt) (m : CodeGenMgr) :
    ∀ i ∈ (irGenAll ss m).code, i.FromSource := fun i hi => (all_generated ss m i hi).fromSource

/-! ## Branches of the code of a body -/

/-- The code made between two managers branches to `S` and to labels taken in between, and never
back. -/
structure Branches (S : String → Prop) (m : CodeGenMgr) (code : List Instruction)
    (m' : CodeGenMgr) : Prop where
  targets : ∀ i ∈ code, ∀ t ∈ i.targets, S t ∨ Fresh m.labelCnt m'.labelCnt t
  forward : NoBackward code

namespace Branches

variable {S S' : String → Prop} {m m₁ m₂ : CodeGenMgr} {c c' : List Instruction}

/-- Code without branches. -/
theorem of_none (h : ∀ i ∈ c, i.targets = []) : Branches S m c m₁ where
  targets i hi t ht := by
    rw [h i hi] at ht
    exact absurd ht List.not_mem_nil
  forward := List.pairwise_of_forall_mem_list fun i _ j hj l _ hl => by
    rw [h j hj] at hl
    exact absurd hl List.not_mem_nil

/-- Two pieces, the second of which branches to nothing the first defines. -/
theorem append (h : Branches S m c m₁) (h' : Branches S' m₁ c' m₂) (he : Emits m c m₁)
    (hcnt : m₁.labelCnt ≤ m₂.labelCnt) (hS : ∀ t, S' t → S t ∨ Fresh m.labelCnt m₂.labelCnt t)
    (hS' : ∀ t, S' t → t ∉ irLabels c) : Branches S m (c ++ c') m₂ where
  targets i hi t ht := by
    rcases List.mem_append.mp hi with hi | hi
    · exact (h.targets i hi t ht).imp_right fun hf => hf.mono (Nat.le_refl _) hcnt
    · rcases h'.targets i hi t ht with hs | hf
      · exact hS t hs
      · exact .inr (hf.mono he.cnt (Nat.le_refl _))
  forward := by
    refine noBackward_append.mpr ⟨h.forward, h'.forward, fun l hl j hj ht => ?_⟩
    rcases h'.targets j hj l ht with hs | hf
    · exact hS' l hs hl
    · exact (he.fresh l hl).disjoint hf (Nat.le_refl _)

/-- Code from a later manager, whose targets are among more. -/
theorem weaken (h : Branches S m₁ c m₂) (hcnt : m.labelCnt ≤ m₁.labelCnt)
    (hS : ∀ t, S t → S' t ∨ Fresh m.labelCnt m₂.labelCnt t) : Branches S' m c m₂ where
  targets i hi t ht := (h.targets i hi t ht).elim (hS t)
    fun hf => .inr (hf.mono hcnt (Nat.le_refl _))
  forward := h.forward

/-- A label behind the code. -/
theorem addLabel (h : Branches S m c m₂) (l : String) : Branches S m (c ++ [.label l]) m₂ where
  targets i hi t ht := by
    rcases List.mem_append.mp hi with hi | hi
    · exact h.targets i hi t ht
    · obtain rfl := List.mem_singleton.mp hi
      exact absurd ht List.not_mem_nil
  forward := by
    refine noBackward_append.mpr ⟨h.forward, noBackward_single _, fun _ _ j hj ht => ?_⟩
    obtain rfl := List.mem_singleton.mp hj
    exact absurd ht List.not_mem_nil

end Branches

/-- The targets of a manager. -/
def CodeGenMgr.IsTarget (m : CodeGenMgr) (t : String) : Prop := t = m.trueTarget ∨ t = m.falseTarget

/-- The code of a number branches nowhere: the boolean operators are the only ones that branch. -/
theorem number_targets (e : Expr) (he : e.isArith = true) (m : CodeGenMgr) :
    ∀ i ∈ (e.irGen m).code, i.targets = [] := by
  induction e generalizing m with
  | ref x => exact fun i hi => absurd hi List.not_mem_nil
  | value n => exact fun i hi => absurd hi List.not_mem_nil
  | inv f ps =>
    intro i hi
    obtain rfl := List.mem_singleton.mp hi
    rfl
  | op1 op e ih =>
    simp only [Expr.isArith, Bool.and_eq_true, decide_eq_true_eq] at he
    obtain ⟨rfl, he⟩ := he
    intro i hi
    rw [irGen_uminus] at hi
    simp only [genMinus, List.mem_append, List.mem_singleton] at hi
    rcases hi with hi | rfl
    · exact ih he m i hi
    · rfl
  | op2 op l r ihl ihr =>
    simp only [Expr.isArith, Bool.and_eq_true] at he
    obtain ⟨⟨hop, hl⟩, hr⟩ := he
    intro i hi
    rw [irGen_binary hop] at hi
    simp only [genBinary, List.mem_append, List.mem_singleton] at hi
    rcases hi with (hi | hi) | rfl
    · exact ihl hl _ i hi
    · exact ihr hr _ i hi
    · rfl

/-- The code of a condition, as the code of its parent condition sees it. -/
def CondBranches (gen : CodeGenMgr → Gen) : Prop :=
  ∀ m : CodeGenMgr, Old m.labelCnt m.trueTarget → Old m.labelCnt m.falseTarget →
    Branches m.IsTarget m (gen m).code (gen m).mgr

/-- The one branch of a comparison goes to the targets of the manager it is made with. -/
theorem compare_branches {op : OpCode} {l r : Expr} (hl : l.isArith = true)
    (hr : r.isArith = true) : CondBranches (genCompare op l.irGen r.irGen) := by
  intro m _ _
  have hgl := (arith_number l hl m).targets
  have hgr := (arith_number r hr (l.irGen m).mgr).targets
  have hnone : ∀ i ∈ (l.irGen m).code ++ (r.irGen (l.irGen m).mgr).code, i.targets = [] := by
    intro i hi
    rcases List.mem_append.mp hi with hi | hi
    · exact number_targets l hl m i hi
    · exact number_targets r hr _ i hi
  have hlab : irLabels ((l.irGen m).code ++ (r.irGen (l.irGen m).mgr).code) = [] := by
    rw [irLabels_append, (arith_number l hl m).labels, (arith_number r hr _).labels]
    rfl
  simp only [genCompare]
  constructor
  · intro i hi t ht
    rcases List.mem_append.mp hi with hi | hi
    · rw [hnone i hi] at ht
      exact absurd ht List.not_mem_nil
    · obtain rfl := List.mem_singleton.mp hi
      rw [hgr.1, hgl.1, hgr.2, hgl.2] at ht
      exact .inl (Instruction.mem_branch_targets ht)
  · refine noBackward_append.mpr ⟨(@Branches.of_none (fun _ => False) m m _ hnone).forward,
      noBackward_single _, fun l hl => ?_⟩
    rw [hlab] at hl
    exact absurd hl List.not_mem_nil

/-- The shape `AND` and `OR` share. `m₁` is the manager the left operand gets: one label more, the
targets saved, and one of them replaced by that label. -/
theorem shortCircuit_branches {l r : Expr} (hl : CondBranches l.branchGen)
    (hr : CondBranches r.branchGen) {m m₁ : CodeGenMgr} (ht : Old m.labelCnt m.trueTarget)
    (hf : Old m.labelCnt m.falseTarget) (hcnt : m₁.labelCnt = m.labelCnt + 1)
    (hsaved : m₁.savedBranchTarget = (m.trueTarget, m.falseTarget) :: m.savedBranchTarget)
    (htargets : ∀ t, m₁.IsTarget t → m.IsTarget t ∨ t = m.newLabel) :
    Branches m.IsTarget m ((l.branchGen m₁).code ++ [.label m.newLabel] ++
      (r.branchGen (l.branchGen m₁).mgr.restoreBranchTarget).code)
      (r.branchGen (l.branchGen m₁).mgr.restoreBranchTarget).mgr := by
  obtain ⟨hT, hF, hcnt'⟩ := restore_targets (branchGen_emits l) (m := m) (n := m₁) hsaved
    (by omega)
  have hold : ∀ t, m.IsTarget t → Old m.labelCnt t := by
    rintro t (rfl | rfl)
    · exact ht
    · exact hf
  have hlab : Old m₁.labelCnt m.newLabel := old_labelText (by omega)
  have hold₁ : ∀ t, m₁.IsTarget t → Old m₁.labelCnt t := by
    intro t h
    rcases htargets t h with h | rfl
    · exact (hold t h).mono (by omega)
    · exact hlab
  have hel := branchGen_emits l m₁
  have her := branchGen_emits r (l.branchGen m₁).mgr.restoreBranchTarget
  have hrest : (l.branchGen m₁).mgr.restoreBranchTarget.labelCnt = (l.branchGen m₁).mgr.labelCnt := by
    simp only [CodeGenMgr.restoreBranchTarget, hel.saved.trans hsaved]
  have hL := hl m₁ (hold₁ _ (.inl rfl)) (hold₁ _ (.inr rfl))
  have hR := hr (l.branchGen m₁).mgr.restoreBranchTarget (by rw [hT]; exact ht.mono hcnt')
    (by rw [hF]; exact hf.mono hcnt')
  have hRt : ∀ t, (l.branchGen m₁).mgr.restoreBranchTarget.IsTarget t → m.IsTarget t := by
    intro t h
    unfold CodeGenMgr.IsTarget at h ⊢
    rwa [hT, hF] at h
  have hcl := hel.cnt
  have hcr := her.cnt
  have hnew : Fresh m.labelCnt (r.branchGen (l.branchGen m₁).mgr.restoreBranchTarget).mgr.labelCnt
      m.newLabel := ⟨m.labelCnt + 1, Nat.lt_succ_self _, by omega, rfl⟩
  constructor
  · intro i hi t hti
    rw [List.append_assoc, List.mem_append, List.mem_append, List.mem_singleton] at hi
    rcases hi with hi | rfl | hi
    · rcases hL.targets i hi t hti with h | h
      · rcases htargets t h with h | rfl
        · exact .inl h
        · exact .inr hnew
      · exact .inr (h.mono (by omega) (by omega))
    · exact absurd hti List.not_mem_nil
    · rcases hR.targets i hi t hti with h | h
      · exact .inl (hRt t h)
      · exact .inr (h.mono (by omega) (Nat.le_refl _))
  · refine noBackward_append.mpr ⟨(hL.addLabel m.newLabel).forward, hR.forward, ?_⟩
    intro x hx j hj hxt
    rw [irLabels_append, irLabels_label, List.mem_append, List.mem_singleton] at hx
    have hx : Fresh m.labelCnt (l.branchGen m₁).mgr.labelCnt x := by
      rcases hx with hx | rfl
      · exact (hel.fresh x hx).mono (by omega) (Nat.le_refl _)
      · exact ⟨m.labelCnt + 1, Nat.lt_succ_self _, by omega, rfl⟩
    rcases hR.targets j hj x hxt with h | h
    · exact (hold x (hRt x h)).not_fresh hx
    · exact hx.disjoint h (by omega)

/-- A comparison branches by itself. -/
theorem branchGen_cmp {op : OpCode} (hc : op.isCmp = true) (l r : Expr) :
    (Expr.op2 op l r).branchGen = genCompare op l.irGen r.irGen := by
  funext m
  have hbool : (Expr.op2 op l r).isBooleanOp = true := by
    cases op <;> first | rfl | cases hc
  rw [Expr.branchGen, genBranchCode, if_pos hbool, irGen_cmp hc]

/-- **Conditions** branch to the targets of their manager and to labels of their own. The
induction is over the condition; `!` swaps the targets, `&&` and `||` are `shortCircuit_branches`.
-/
theorem cond_branches (e : Expr) (he : e.isCond = true) : CondBranches e.branchGen := by
  have standalone : ∀ e : Expr, e.isArith = true → e.isBooleanOp = false →
      CondBranches e.branchGen := by
    intro e he hb m ht hf
    rw [genBranchCode_standalone hb, irGen_cmp rfl]
    exact compare_branches he rfl m ht hf
  induction e with
  | ref x => exact standalone _ rfl rfl
  | value n => exact standalone _ rfl rfl
  | inv f ps => exact standalone _ rfl rfl
  | op1 op e ih =>
    simp only [Expr.isCond] at he
    split_ifs at he with hop
    · subst hop
      intro m ht hf
      have h := ih he { m with trueTarget := m.falseTarget, falseTarget := m.trueTarget } hf ht
      exact h.weaken (Nat.le_refl _) fun t ht => .inl ht.symm
    · simp only [Bool.and_eq_true, decide_eq_true_eq] at he
      obtain ⟨rfl, he⟩ := he
      exact standalone _ (by simpa [Expr.isArith] using he) rfl
  | op2 op l r ihl ihr =>
    simp only [Expr.isCond] at he
    split_ifs at he with hop
    · rw [Bool.and_eq_true] at he
      rcases hop with rfl | rfl
      · exact fun m ht hf => shortCircuit_branches (ihl he.1) (ihr he.2) ht hf rfl rfl
          fun t h => h.elim .inr fun h => .inl (.inr h)
      · exact fun m ht hf => shortCircuit_branches (ihl he.1) (ihr he.2) ht hf rfl rfl
          fun t h => h.elim (fun h => .inl (.inl h)) .inr
    · simp only [Bool.and_eq_true, Bool.or_eq_true] at he
      obtain ⟨⟨hc, hl⟩, hr⟩ := he
      rcases hc with hc | hc
      · rw [branchGen_cmp hc]
        exact compare_branches hl hr
      · refine standalone _ (by simp only [Expr.isArith, hc, hl, hr, Bool.and_self]) ?_
        exact OpCode.not_isBoolean hc

/-- No target is left open. -/
abbrev NoTarget : String → Prop := fun _ => False

/-- The head of an `if` leaves its false label open, which the statement defines behind it. -/
theorem genIfHead_branches {c : Expr} (hc : c.isCond = true) (m : CodeGenMgr) :
    Branches NoTarget m (genIfHead c m).code (genIfHead c m).mgr := by
  obtain ⟨-, hcnt, -⟩ := genIfHead_emits c m
  have h := cond_branches c hc { m.bumpLabel.bumpLabel with
    trueTarget := m.newLabel, falseTarget := m.bumpLabel.newLabel }
    (old_labelText (Nat.le_succ _)) (old_labelText (Nat.le_refl _))
  refine (h.weaken (Nat.le_add_right _ 2) ?_).addLabel m.newLabel
  have hcnt : m.labelCnt + 2 ≤ (c.branchGen { m.bumpLabel.bumpLabel with
      trueTarget := m.newLabel, falseTarget := m.bumpLabel.newLabel }).mgr.labelCnt := hcnt
  rintro t (rfl | rfl)
  · exact .inr ⟨m.labelCnt + 1, Nat.lt_succ_self _, by omega, rfl⟩
  · exact .inr ⟨m.labelCnt + 2, by omega, by omega, rfl⟩

/-- The code of an `if` with an else branch, from the code up to the end of the then branch and
the code of the else branch. -/
theorem ifElse_branches {m m₁ m₂ : CodeGenMgr} {c c' : List Instruction}
    (h : Branches NoTarget m c m₁) (hc : Emits m c m₁) (h' : Branches NoTarget m₁.bumpLabel c' m₂)
    (hcnt : m₁.labelCnt + 1 ≤ m₂.labelCnt) {n : Nat} (hn : m.labelCnt < n) (hn' : n ≤ m₁.labelCnt) :
    Branches NoTarget m (c ++ [.branch .INVALID .null .null m₁.newLabel "", .label (labelText n)] ++
      c' ++ [.label m₁.newLabel]) m₂ := by
  have hle := hc.cnt
  refine Branches.addLabel ⟨fun i hi t ht => .inr ?_, ?_⟩ _
  · simp only [List.mem_append, List.mem_cons, List.not_mem_nil, or_false] at hi
    rcases hi with (hi | rfl | rfl) | hi
    · exact ((h.targets i hi t ht).resolve_left id).mono (Nat.le_refl _) (by omega)
    · obtain rfl := List.mem_singleton.mp ht
      exact ⟨m₁.labelCnt + 1, by omega, hcnt, rfl⟩
    · exact absurd ht List.not_mem_nil
    · exact ((h'.targets i hi t ht).resolve_left id).mono (Nat.le_succ_of_le hle) (Nat.le_refl _)
  · have hjump : NoBackward
        [.branch .INVALID .null .null m₁.newLabel "", .label (labelText n)] := by
      refine List.pairwise_pair.mpr fun l hl => ?_
      cases hl
    refine noBackward_append.mpr ⟨noBackward_append.mpr ⟨h.forward, hjump, ?_⟩, h'.forward, ?_⟩
    · intro l hl j hj hlj
      simp only [List.mem_cons, List.not_mem_nil, or_false] at hj
      rcases hj with rfl | rfl
      · obtain rfl := List.mem_singleton.mp hlj
        exact (hc.fresh _ hl).disjoint ⟨m₁.labelCnt + 1, Nat.lt_succ_self _, Nat.le_refl _, rfl⟩
          (Nat.le_refl _)
      · exact absurd hlj List.not_mem_nil
    · intro l hl j hj hlj
      have hl : Fresh m.labelCnt m₁.labelCnt l := by
        rw [irLabels_append, List.mem_append] at hl
        rcases hl with hl | hl
        · exact hc.fresh l hl
        · obtain rfl := List.mem_singleton.mp hl
          exact ⟨n, hn, hn', rfl⟩
      exact hl.disjoint ((h'.targets j hj l hlj).resolve_left id) (Nat.le_succ _)

mutual

/-- **Statements** branch to labels of their own only. -/
theorem stmt_branches : ∀ (s : Stmt) (_ : s.wellTyped = true) (m : CodeGenMgr),
    Branches NoTarget m (s.irGen m).code (s.irGen m).mgr
  | .empty, _, m => by
    simp only [Stmt.irGen]
    exact .of_none fun i hi => absurd hi List.not_mem_nil
  | .perm p, _, m => by
    simp only [Stmt.irGen]
    refine .of_none fun i hi => ?_
    obtain rfl := List.mem_singleton.mp hi
    rfl
  | .ifThen c t, hwt, m => by
    simp only [Stmt.wellTyped, Bool.and_eq_true] at hwt
    have ht := stmt_branches t hwt.2 (genIfHead c m).mgr
    have hte := stmt_emits t (genIfHead c m).mgr
    simp only [Stmt.irGen]
    exact ((genIfHead_branches hwt.1 m).append ht (genIfHead_emits c m).1 hte.cnt
      (fun _ h => h.elim) (fun _ h => h.elim)).addLabel _
  | .ifElse c t e, hwt, m => by
    simp only [Stmt.wellTyped, Bool.and_eq_true] at hwt
    obtain ⟨hc, -, -⟩ := genIfHead_emits c m
    have ht := stmt_branches t hwt.1.2 (genIfHead c m).mgr
    have hte := stmt_emits t (genIfHead c m).mgr
    have he := stmt_branches e hwt.2 (t.irGen (genIfHead c m).mgr).mgr.bumpLabel
    have hee := stmt_emits e (t.irGen (genIfHead c m).mgr).mgr.bumpLabel
    have hct := hc.cnt
    have htc := hte.cnt
    have hec : (t.irGen (genIfHead c m).mgr).mgr.labelCnt + 1 ≤ _ := hee.cnt
    have hthen := (genIfHead_branches hwt.1.1 m).append ht hc htc (fun _ h => h.elim)
      (fun _ h => h.elim)
    simp only [Stmt.irGen]
    exact ifElse_branches hthen (hc.append hte) he hec (n := m.labelCnt + 2) (by omega)
      (by have := (genIfHead_emits c m).2.1; omega)
  | .assign x e, hwt, m => by
    simp only [Stmt.irGen]
    refine .of_none fun i hi => ?_
    rcases List.mem_append.mp hi with hi | hi
    · exact number_targets e hwt m i hi
    · obtain rfl := List.mem_singleton.mp hi
      rfl
  | .compound ss, hwt, m => by
    simp only [Stmt.irGen]
    exact all_branches ss hwt m

/-- Bodies branch to labels of their own only, and never back. -/
theorem all_branches : ∀ (ss : List Stmt) (_ : allWellTyped ss = true) (m : CodeGenMgr),
    Branches NoTarget m (irGenAll ss m).code (irGenAll ss m).mgr
  | [], _, m => by
    simp only [irGenAll]
    exact .of_none fun i hi => absurd hi List.not_mem_nil
  | s :: ss, hwt, m => by
    simp only [allWellTyped, Bool.and_eq_true] at hwt
    simp only [irGenAll]
    exact (stmt_branches s hwt.1 m).append (all_branches ss hwt.2 _) (stmt_emits s m)
      (all_emits ss _).cnt (fun _ h => h.elim) (fun _ h => h.elim)

end

/-! ## The passes -/

/-- Renaming the targets of an instruction renames what it branches to. -/
theorem targets_renameTargets (ρ : String → String) (i : Instruction) :
    (i.renameTargets ρ).targets = i.targets.map ρ := by
  cases i with
  | branch op a b t f =>
    simp only [Instruction.renameTargets, Instruction.targets]
    split <;> rfl
  | _ => rfl

/-- `MergeLabels` renames a target to the label kept of its run, so it leaves no target undefined. -/
theorem mergeLabels_defined {code : List Instruction} (hnd : (irLabels code).Nodup)
    (hdef : ∀ i ∈ code, ∀ t ∈ i.targets, t ∈ irLabels code) :
    ∀ i ∈ mergeLabels code, ∀ t ∈ i.targets, t ∈ irLabels (mergeLabels code) := by
  have hr := newLabelOf_respects code none hnd fun _ _ => rfl
  intro i hi t ht
  obtain ⟨j, hj, rfl⟩ := List.mem_map.mp hi
  rw [targets_renameTargets] at ht
  obtain ⟨t₀, ht₀, rfl⟩ := List.mem_map.mp ht
  have hmem := hdef j ((eraseLabels_sublist none code).subset hj) t₀ ht₀
  unfold mergeLabels
  rw [irLabels_rename]
  exact (respects_kept code none hr hmem).resolve_left (by simp)

/-- What comes behind the labels a list starts with does not branch to them. -/
theorem lead_not_target {l : String} {code : List Instruction} (hb : NoBackward code)
    (hl : l ∈ leadLabels code) {j : Instruction} (hj : j ∈ code) : l ∉ j.targets := by
  induction code with
  | nil => exact absurd hj List.not_mem_nil
  | cons i code ih =>
    cases i with
    | label l₀ =>
      obtain ⟨hhead, hb⟩ := List.pairwise_cons.mp hb
      rcases List.mem_cons.mp hj with rfl | hjc
      · exact List.not_mem_nil
      · rcases List.mem_cons.mp hl with rfl | hl
        · exact hhead j hjc l rfl
        · exact ih hb hl hjc
    | _ => exact absurd hl List.not_mem_nil

/-- The kept labels are no targets of what follows, once the targets are renamed. -/
theorem eraseLabels_forward {ρ : String → String} (code : List Instruction) (prev : Option String)
    (hb : NoBackward code) (hnd : (irLabels code).Nodup) (hr : Respects ρ prev code)
    (hout : ∀ j ∈ code, ∀ t ∈ j.targets, t ∉ irLabels code → ρ t = t) :
    (eraseLabels prev code).1.Pairwise
      fun i j => ∀ l, i.label? = some l → l ∉ j.targets.map ρ := by
  induction code generalizing prev with
  | nil => cases prev <;> exact List.Pairwise.nil
  | cons i code ih =>
    obtain ⟨hhead, hb'⟩ := List.pairwise_cons.mp hb
    rw [irLabels_cons] at hnd
    -- a target that is no label of the rest is no label of the list
    have hout' : ∀ j ∈ code, ∀ t ∈ j.targets, t ∉ irLabels code → ρ t = t := by
      intro j hj t ht hm
      refine hout j (List.mem_cons_of_mem i hj) t ht ?_
      rw [irLabels_cons, List.mem_append, Option.mem_toList]
      rintro (hi | hm')
      · exact hhead j hj t hi ht
      · exact hm hm'
    by_cases hi : i.label? = none
    · rw [hi] at hnd
      simp only [eraseLabels_of_none hi]
      refine List.pairwise_cons.mpr ⟨fun _ _ l hl => ?_, ih none hb' hnd (respects_of_none hi hr) hout'⟩
      rw [hi] at hl
      cases hl
    · cases i with
      | label l₀ =>
        obtain ⟨hl₀, hnd⟩ := List.nodup_cons.mp hnd
        cases prev with
        | some p => exact ih (some p) hb' hnd hr.2 hout'
        | none =>
          refine List.pairwise_cons.mpr ⟨?_, ih (some l₀) hb' hnd hr.2 hout'⟩
          rintro j hj l hl hm
          obtain rfl := Option.some.inj hl
          obtain ⟨t, ht, hρ⟩ := List.mem_map.mp hm
          have hj : j ∈ code := (eraseLabels_sublist (some l₀) code).subset hj
          by_cases htc : t ∈ irLabels code
          · rcases respects_mem code (some l₀) hr.2 htc with ⟨-, hlead⟩ | hmem
            · exact lead_not_target hb' hlead hj ht
            · exact hl₀ (hρ ▸ hmem)
          · have := hout' j hj t ht htc
            exact hhead j hj l₀ rfl (by rwa [← hρ, this])
      | _ => exact absurd rfl hi

/-- What the map of `MergeLabels` has as values. -/
theorem eraseLabels_values (code : List Instruction) (prev : Option String) :
    ∀ e ∈ (eraseLabels prev code).2, e.2 ∈ irLabels code ∨ prev = some e.2 := by
  induction code generalizing prev with
  | nil => cases prev <;> exact fun e he => absurd he List.not_mem_nil
  | cons i code ih =>
    intro e he
    rw [irLabels_cons, List.mem_append]
    by_cases hi : i.label? = none
    · simp only [eraseLabels_of_none hi] at he
      rcases ih none e he with h | h
      · exact .inl (.inr h)
      · cases h
    · cases i with
      | label l₀ =>
        cases prev with
        | none =>
          rcases ih (some l₀) e he with h | h
          · exact .inl (.inr h)
          · exact .inl (.inl (by simpa [Instruction.label?, eq_comm] using h))
        | some p =>
          simp only [eraseLabels, List.mem_append, List.mem_singleton] at he
          rcases he with he | rfl
          · rcases ih (some p) e he with h | h
            · exact .inl (.inr h)
            · exact .inr h
          · exact .inr rfl
      | _ => exact absurd rfl hi

/-- A label is renamed to a value of the map, or stays. -/
theorem newLabelOf_cases (M : List (String × String)) (l : String) :
    newLabelOf M l = l ∨ ∃ e ∈ M, newLabelOf M l = e.2 := by
  unfold newLabelOf
  cases h : M.lookup l with
  | none => exact .inl rfl
  | some p =>
    obtain ⟨pre, post, rfl, -⟩ := List.lookup_eq_some_iff.mp h
    exact .inr ⟨(l, p), by simp, rfl⟩

/-- `MergeLabels` keeps the branch discipline. -/
theorem mergeLabels_branches {m m' : CodeGenMgr} {code : List Instruction}
    (h : Branches NoTarget m code m') (he : Emits m code m') :
    Branches NoTarget m (mergeLabels code) m' where
  targets i hi t ht := by
    obtain ⟨j, hj, rfl⟩ := List.mem_map.mp hi
    rw [targets_renameTargets] at ht
    obtain ⟨t₀, ht₀, rfl⟩ := List.mem_map.mp ht
    rcases newLabelOf_cases (eraseLabels none code).2 t₀ with hl | ⟨e, hm, hl⟩ <;> rw [hl]
    · exact h.targets j ((eraseLabels_sublist none code).subset hj) t₀ ht₀
    · exact .inr (he.fresh _ ((eraseLabels_values code none e hm).resolve_right (by simp)))
  forward := by
    refine List.pairwise_map.mpr ?_
    have hr := newLabelOf_respects code none he.nodup fun _ _ => rfl
    refine (eraseLabels_forward code none h.forward he.nodup hr fun _ _ t _ ht =>
      newLabelOf_of_none (eraseLabels_keys none code ht)).imp fun {i j} hij l hl => ?_
    rw [targets_renameTargets]
    refine hij l ?_
    cases i <;> exact hl

/-- Deleting instructions keeps the discipline of the branches that stay. -/
theorem Branches.sublist {S : String → Prop} {m m' : CodeGenMgr} {c c' : List Instruction}
    (h : Branches S m c m') (hs : c'.Sublist c) : Branches S m c' m' :=
  ⟨fun i hi => h.targets i (hs.subset hi), List.Pairwise.sublist hs h.forward⟩

/-- The list `BuildCFG` gets branches to its own labels only, and never back. -/
theorem eliminated_branches {ss : List Stmt} (hwt : allWellTyped ss = true) (m : CodeGenMgr) :
    Branches NoTarget m (eliminateDeadCode (mergedIR ss m)) (irGenAll ss m).mgr :=
  (mergeLabels_branches (all_branches ss hwt m) (all_emits ss m)).sublist
    (eliminateDeadCode_sublist _)

/-- The passes make no new instructions but for the targets they rename. -/
theorem eliminated_fromSource (ss : List Stmt) (m : CodeGenMgr) :
    ∀ i ∈ eliminateDeadCode (mergedIR ss m), i.FromSource := by
  intro i hi
  obtain ⟨j, hj, rfl⟩ := List.mem_map.mp ((eliminateDeadCode_sublist _).subset hi)
  have := all_fromSource ss m j ((eraseLabels_sublist none _).subset hj)
  cases j <;> exact this

/-- The labels `BuildCFG` finds are labels of the body. -/
theorem eliminated_labels (ss : List Stmt) (m : CodeGenMgr) :
    ∀ l ∈ irLabels (eliminateDeadCode (mergedIR ss m)),
      Fresh m.labelCnt (irGenAll ss m).mgr.labelCnt l := fun l hl =>
  (all_emits ss m).fresh l ((irLabels_mergeLabels _).subset
    (((eliminateDeadCode_sublist _).filterMap _).subset hl))

/-! ## The CFG and the filter's list -/

/-- Without its returns the filter's list is a part of the blocks. -/
theorem genBlocks_kept (only : PtraceBasicBlock) (Bs : List BasicBlock) (b : Nat)
    (targets : List Nat) (gl : RetGlobals) :
    ((genBlocks only b Bs targets gl).1.filter fun i => !i.isReturn).Sublist (flatten Bs) := by
  induction Bs generalizing b targets gl with
  | nil => exact .slnil
  | cons B Bs ih =>
    unfold genBlocks
    have hskip : ∀ {xs : List Instruction}, xs.Sublist (flatten Bs) →
        xs.Sublist (flatten (B :: Bs)) := fun h => h.trans (List.sublist_append_right _ _)
    split_ifs
    · simp only [List.filter_cons, List.filter_append, Instruction.isReturn, Bool.not_false, if_true]
      exact (List.filter_sublist.append (ih _ _ _)).cons_cons _
    · exact hskip (ih _ _ _)
    · simp only [stub, List.cons_append, List.nil_append, List.filter_cons, Instruction.isReturn,
        Bool.not_false, if_true, Bool.not_true, Bool.false_eq_true, if_false]
      exact ((ih _ _ _).trans (List.sublist_append_right _ _)).cons_cons _
    · exact hskip (ih _ _ _)

/-- Without returns, the filter's list is a part of the CFG written out. -/
theorem genBPFIR_kept {g : List BasicBlock} (only : PtraceBasicBlock) (gl : RetGlobals) :
    ((genBPFIR g only gl).1.filter fun i => !i.isReturn).Sublist (flatten g) := by
  cases g with
  | nil => exact .slnil
  | cons root Bs =>
    simp only [genBPFIR]
    split
    · exact (List.nil_sublist _).cons_cons _
    · exact genBlocks_kept only (root :: Bs) 0 [] gl

/-- The filter's list starts with the label of the root. -/
theorem genBPFIR_head {g : List BasicBlock} {root : BasicBlock} (hg : g[0]? = some root)
    (only : PtraceBasicBlock) (gl : RetGlobals) :
    ∃ rest, (genBPFIR g only gl).1 = .label root.label :: rest := by
  rw [genBPFIR_of_root hg]
  split
  · exact ⟨_, rfl⟩
  · rename_i hc
    cases g with
    | nil => simp at hg
    | cons B Bs =>
      obtain rfl := Option.some.inj hg
      unfold genBlocks
      rw [if_pos (by simpa using hc)]
      exact ⟨_, rfl⟩

theorem irLabels_filter_return (code : List Instruction) :
    irLabels (code.filter fun i => !i.isReturn) = irLabels code := by
  induction code with
  | nil => rfl
  | cons i code ih =>
    rw [irLabels_cons]
    cases hr : i.isReturn with
    | false => rw [List.filter_cons_of_pos (by rw [hr]; rfl), irLabels_cons, ih]
    | true =>
      rw [List.filter_cons_of_neg (by rw [hr]; decide), ih]
      cases i <;> first | rfl | cases hr

/-- A property of the instructions of the body holds in the filter's list, if returns have it. -/
theorem genBPFIR_forall {code : List Instruction} {name : String} {only : PtraceBasicBlock}
    {gl : RetGlobals} {P : Instruction → Prop} (hret : ∀ i, i.isReturn = true → P i)
    (hlabel : P (.label name)) (hcode : ∀ i ∈ code, P i) :
    ∀ i ∈ (genBPFIR (buildCFG code name) only gl).1, P i := by
  intro i hi
  cases hr : i.isReturn with
  | true => exact hret i hr
  | false =>
    have hm : i ∈ flatten (buildCFG code name) :=
      (genBPFIR_kept only gl).subset (List.mem_filter.mpr ⟨hi, by rw [hr]; rfl⟩)
    rw [flatten_buildCFG] at hm
    rcases List.mem_cons.mp hm with rfl | hm
    · exact hlabel
    · exact hcode i hm

/-- The first block is the root, under the syscall name. -/
theorem buildCFG_root (code : List Instruction) (name : String) :
    ∃ root, (buildCFG code name)[0]? = some root ∧ root.label = name := by
  have h := flatten_buildCFG code name
  cases hg : buildCFG code name with
  | nil =>
    rw [hg] at h
    cases h
  | cons B Bs =>
    rw [hg] at h
    simp only [flatten, List.flatMap_cons, List.cons_append, List.cons.injEq,
      Instruction.label.injEq] at h
    exact ⟨B, rfl, h.1⟩

/-- The list a check's filters are made from. -/
def checkIR (ss : List Stmt) (m : CodeGenMgr) (syscall : String) (o : HashOrder) (gl : RetGlobals) :
    List Instruction × RetGlobals :=
  genBPFIR (checkCFG ss m syscall) (colorCode (checkCFG ss m syscall) o).2 gl

section CheckIR

variable (ss : List Stmt) (m : CodeGenMgr) (syscall : String) (o : HashOrder) (gl : RetGlobals)

theorem checkIR_compares : ∀ i ∈ (checkIR ss m syscall o gl).1, i.Compares :=
  genBPFIR_forall (fun i _ => by cases i <;> trivial) trivial
    fun i hi => (eliminated_fromSource ss m i hi).compares

/-- **The filter's list starts with the syscall name**, the label `BPFCodeGen` skips. -/
theorem checkIR_head : ∃ rest, (checkIR ss m syscall o gl).1 = .label syscall :: rest := by
  obtain ⟨root, hroot, hname⟩ := buildCFG_root (eliminateDeadCode (mergedIR ss m)) syscall
  exact hname ▸ genBPFIR_head hroot _ gl

/-- **The labels behind the first** are labels of the body, each once. -/
theorem checkIR_labels : (irLabels (checkIR ss m syscall o gl).1.tail).Sublist
    (irLabels (eliminateDeadCode (mergedIR ss m))) := by
  obtain ⟨rest, hrest⟩ := checkIR_head ss m syscall o gl
  have h := (genBPFIR_kept (g := checkCFG ss m syscall)
    (colorCode (checkCFG ss m syscall) o).2 gl).filterMap Instruction.label?
  have h : (irLabels ((checkIR ss m syscall o gl).1.filter fun i => !i.isReturn)).Sublist
      (irLabels (flatten (checkCFG ss m syscall))) := h
  rw [irLabels_filter_return, checkCFG, flatten_buildCFG, hrest, irLabels_cons, irLabels_cons] at h
  rw [hrest]
  exact List.cons_sublist_cons.mp h

/-- The other labels were taken while the body was generated. -/
theorem checkIR_fresh : ∀ l ∈ irLabels (checkIR ss m syscall o gl).1.tail,
    Fresh m.labelCnt (irGenAll ss m).mgr.labelCnt l := fun l hl =>
  eliminated_labels ss m l ((checkIR_labels ss m syscall o gl).subset hl)

/-- **The filter's list branches to labels of the body, and never back.** -/
theorem checkIR_branches (hwt : allWellTyped ss = true) (hs : ∀ n, syscall ≠ labelText n) :
    Branches NoTarget m (checkIR ss m syscall o gl).1 (irGenAll ss m).mgr := by
  have hb := eliminated_branches hwt m
  refine ⟨genBPFIR_forall (fun i hi t ht => ?_) (fun t ht => absurd ht List.not_mem_nil)
    hb.targets, ?_⟩
  · cases i <;> first | exact absurd ht List.not_mem_nil | cases hi
  · have hflat : NoBackward (flatten (checkCFG ss m syscall)) := by
      rw [checkCFG, flatten_buildCFG]
      refine List.pairwise_cons.mpr ⟨fun j hj l hl ht => ?_, hb.forward⟩
      obtain rfl := Option.some.inj hl
      obtain ⟨n, -, -, hn⟩ := (hb.targets j hj syscall ht).resolve_left id
      exact hs n hn
    have hkept := List.pairwise_filter.mp (hflat.sublist (genBPFIR_kept (g := checkCFG ss m syscall)
      (colorCode (checkCFG ss m syscall) o).2 gl))
    refine hkept.imp fun {i j} hij l hl => ?_
    have hi : (!i.isReturn) = true := by cases i <;> first | rfl | cases hl
    cases hj : j.isReturn with
    | false => exact hij hi (by rw [hj]; rfl) l hl
    | true => cases j <;> first | exact List.not_mem_nil | cases hj

end CheckIR

end SeccompPolicy
