import SeccompPolicy.Policy

/-!
# Labels stay well formed

Source: `CodeGenMgr::NewLabel` of `IR_gen.h`, the `IRGen` methods of `ast.cpp`, `MergeLabels` and
`EliminateDeadCode` of `IR_gen.cpp`, and `PolicyManager::IRGen` of `policy.cpp`, which compiles
all bodies with one manager.

Every label the manager hands out while a body is generated is defined in its code (`Covers`), and
the branches of the code go to such labels only (`Branches`): so each of them goes to a label that
is defined once, behind it (`WellLabelled`).

The two passes keep this: `MergeLabels` by renaming a target to a label it keeps,
`EliminateDeadCode` because a label a kept branch names has been noted as reachable and is not
purged.

## Results

* `all_covers`, `generated_wellLabelled`: the list of a body behind `IRGen`.
* `mergeLabels_wellLabelled`, `eliminateDeadCode_wellLabelled`: the passes.
* `sharedMgr_disjoint`: the labels of two bodies come from ranges of the counter that do not meet.
* `irGenChecks_shared`: the checks of a policy are compiled so.
* `pipeline_wellLabelled`: in every list of every body, for any sequence of bodies compiled with
  one manager, the labels are distinct, and a branch goes to labels defined once, behind it.
-/

namespace SeccompPolicy

/-- The labels are distinct, and every branch goes to labels defined behind it. -/
structure WellLabelled (code : List Instruction) : Prop where
  once : (irLabels code).Nodup
  forward : ForwardTargets code

theorem ForwardTargets.mem {code : List Instruction} (h : ForwardTargets code) {j : Instruction}
    (hj : j ∈ code) {t : String} (ht : t ∈ j.targets) : t ∈ irLabels code := by
  obtain ⟨pre, post, rfl⟩ := List.append_of_mem hj
  rw [irLabels_append, irLabels_cons]
  exact List.mem_append_right _ (List.mem_append_right _ (h.split t ht))

/-- A target is defined exactly once, and behind the branch. -/
theorem WellLabelled.defined {pre post : List Instruction} {i : Instruction}
    (h : WellLabelled (pre ++ i :: post)) {t : String} (ht : t ∈ i.targets) :
    t ∈ irLabels post ∧ (irLabels (pre ++ i :: post)).count t = 1 := by
  refine ⟨h.forward.split t ht, List.count_eq_one_of_mem h.once ?_⟩
  exact h.forward.mem (List.mem_append_right _ List.mem_cons_self) ht

theorem WellLabelled.noBackward {code : List Instruction} (h : WellLabelled code) :
    NoBackward code := by
  induction code with
  | nil => exact List.Pairwise.nil
  | cons i code ih =>
    have hnd := h.once
    rw [irLabels_cons] at hnd
    refine List.pairwise_cons.mpr ⟨fun j hj l hl ht => ?_, ih ⟨hnd.of_append_right, h.forward.2⟩⟩
    rw [hl] at hnd
    exact (List.nodup_cons.mp hnd).1 (h.forward.2.mem hj ht)

/-- Branches that do not go back, to labels of the list, go forward. -/
theorem forwardTargets_of_noBackward {code : List Instruction} (hb : NoBackward code)
    (ht : ∀ i ∈ code, ∀ t ∈ i.targets, t ∈ irLabels code) : ForwardTargets code := by
  induction code with
  | nil => trivial
  | cons i code ih =>
    obtain ⟨hhead, hb⟩ := List.pairwise_cons.mp hb
    have hmem : ∀ j ∈ i :: code, ∀ t ∈ j.targets, i.label? = some t ∨ t ∈ irLabels code := by
      intro j hj t htj
      have := ht j hj t htj
      rwa [irLabels_cons, List.mem_append, Option.mem_toList] at this
    refine ⟨fun t hti => (hmem i List.mem_cons_self t hti).resolve_left fun hl => ?_,
      ih hb fun j hj t htj => (hmem j (List.mem_cons_of_mem i hj) t htj).resolve_left fun hl => ?_⟩
    · cases i <;> first | exact absurd hti List.not_mem_nil | cases hl
    · exact hhead j hj t hl htj

/-! ## The labels handed out are defined -/

/-- The code defines every label with a number above `a` and up to `b`. -/
def Covers (a b : Nat) (code : List Instruction) : Prop :=
  ∀ n, a < n → n ≤ b → labelText n ∈ irLabels code

namespace Covers

variable {a b d : Nat} {c c' : List Instruction}

theorem of_le (h : b ≤ a) : Covers a b c := fun n h₁ h₂ => by omega

theorem mono (h : Covers a b c) (hs : irLabels c ⊆ irLabels c') : Covers a b c' :=
  fun n h₁ h₂ => hs (h n h₁ h₂)

theorem append (h : Covers a b c) (h' : Covers b d c') : Covers a d (c ++ c') := by
  intro n h₁ h₂
  rw [irLabels_append, List.mem_append]
  by_cases hn : n ≤ b
  · exact .inl (h n h₁ hn)
  · exact .inr (h' n (by omega) h₂)

/-- Code that goes on without a label. -/
theorem extend (h : Covers a b c) : Covers a b (c ++ c') :=
  h.mono (by rw [irLabels_append]; exact List.subset_append_left _ _)

/-- One more label, taken before the others. -/
theorem cons (h : Covers (a + 1) b c) (ha : labelText (a + 1) ∈ irLabels c) : Covers a b c := by
  intro n h₁ h₂
  by_cases hn : n = a + 1
  · exact hn ▸ ha
  · exact h n (by omega) h₂

end Covers

/-- The code defines every label taken from the manager while it is made. -/
def GenCovers (gen : CodeGenMgr → Gen) : Prop :=
  ∀ m, Covers m.labelCnt (gen m).mgr.labelCnt (gen m).code

theorem genCovers_compare {op : OpCode} {l r : CodeGenMgr → Gen} (hl : GenCovers l)
    (hr : GenCovers r) : GenCovers (genCompare op l r) := fun m => ((hl m).append (hr _)).extend

theorem genCovers_binary {op : OpCode} {l r : CodeGenMgr → Gen} (hl : GenCovers l)
    (hr : GenCovers r) : GenCovers (genBinary op l r) := fun m => ((hl m).append (hr _)).extend

theorem genCovers_minus {a : CodeGenMgr → Gen} (ha : GenCovers a) : GenCovers (genMinus a) :=
  fun m => (ha m).extend

theorem genCovers_value (v : IRValue) : GenCovers fun m => ⟨v, [], m⟩ :=
  fun _ => .of_le (Nat.le_refl _)

theorem genCovers_branchCode {e : Expr} {gen : CodeGenMgr → Gen} (h : GenCovers gen) :
    GenCovers (genBranchCode e gen) := by
  intro m
  unfold genBranchCode
  split
  · exact h m
  · exact genCovers_compare h (genCovers_value (.imm 0)) m

theorem genCovers_not {a : CodeGenMgr → Gen} (ha : GenCovers a) : GenCovers (genNot a) :=
  fun m => ha { m with trueTarget := m.falseTarget, falseTarget := m.trueTarget }

@[simp] theorem restoreBranchTarget_labelCnt (m : CodeGenMgr) :
    m.restoreBranchTarget.labelCnt = m.labelCnt := by
  unfold CodeGenMgr.restoreBranchTarget
  split <;> rfl

/-- The shape `AND` and `OR` share: the label taken stands between the operands. -/
theorem covers_shortCircuit {m m₁ : CodeGenMgr} {lhs rhs : CodeGenMgr → Gen} (hl : GenCovers lhs)
    (hr : GenCovers rhs) (hcnt : m₁.labelCnt = m.labelCnt + 1) :
    Covers m.labelCnt (rhs (lhs m₁).mgr.restoreBranchTarget).mgr.labelCnt
      ((lhs m₁).code ++ [.label m.newLabel] ++
        (rhs (lhs m₁).mgr.restoreBranchTarget).code) := by
  have h1 := hl m₁
  have h2 := hr (lhs m₁).mgr.restoreBranchTarget
  rw [hcnt] at h1
  rw [restoreBranchTarget_labelCnt] at h2
  refine Covers.cons (h1.extend.append h2) ?_
  simp [CodeGenMgr.newLabel, irLabels_cons, Instruction.label?]

theorem expr_covers (e : Expr) : GenCovers e.irGen := by
  induction e with
  | ref x => exact genCovers_value (.mem x)
  | value n => exact genCovers_value (.imm n)
  | inv f ps => exact fun m => .of_le (Nat.le_refl _)
  | op1 op e ih =>
    intro m
    simp only [Expr.irGen]
    split_ifs
    · exact genCovers_not (genCovers_branchCode ih) m
    · exact genCovers_minus ih m
    · exact genCovers_value .null m
  | op2 op l r ihl ihr =>
    intro m
    simp only [Expr.irGen]
    split_ifs
    · exact covers_shortCircuit (genCovers_branchCode ihl) (genCovers_branchCode ihr) rfl
    · exact covers_shortCircuit (genCovers_branchCode ihl) (genCovers_branchCode ihr) rfl
    · exact genCovers_not (genCovers_branchCode ihl) m
    · exact genCovers_compare ihl ihr m
    · exact genCovers_minus ihl m
    · exact genCovers_value .null m
    · exact genCovers_binary ihl ihr m

/-- The head of an `if` leaves its second label to the statement. -/
theorem genIfHead_covers (c : Expr) (m : CodeGenMgr) :
    Covers (m.labelCnt + 2) (genIfHead c m).mgr.labelCnt (genIfHead c m).code ∧
      labelText (m.labelCnt + 1) ∈ irLabels (genIfHead c m).code := by
  have h := genCovers_branchCode (expr_covers c) (e := c) { m.bumpLabel.bumpLabel with
    trueTarget := m.newLabel, falseTarget := m.bumpLabel.newLabel }
  refine ⟨h.extend, ?_⟩
  simp [genIfHead, CodeGenMgr.newLabel]

mutual

theorem stmt_covers : ∀ s : Stmt, GenCovers s.irGen
  | .empty, m => by simp only [Stmt.irGen]; exact .of_le (Nat.le_refl _)
  | .perm p, m => by simp only [Stmt.irGen]; exact .of_le (Nat.le_refl _)
  | .ifThen c t, m => by
    obtain ⟨hc, hmem⟩ := genIfHead_covers c m
    have ht := stmt_covers t (genIfHead c m).mgr
    simp only [Stmt.irGen]
    refine Covers.cons (Covers.cons (hc.append ht).extend ?_) ?_
    · simp [CodeGenMgr.newLabel, CodeGenMgr.bumpLabel]
    · simp [hmem]
  | .ifElse c t e, m => by
    obtain ⟨hc, hmem⟩ := genIfHead_covers c m
    have ht := stmt_covers t (genIfHead c m).mgr
    have he := stmt_covers e (t.irGen (genIfHead c m).mgr).mgr.bumpLabel
    simp only [Stmt.irGen]
    -- the label behind the else branch is taken between the branches
    have hout : Covers (t.irGen (genIfHead c m).mgr).mgr.labelCnt
        (e.irGen (t.irGen (genIfHead c m).mgr).mgr.bumpLabel).mgr.labelCnt
        ((e.irGen (t.irGen (genIfHead c m).mgr).mgr.bumpLabel).code ++
          [.label (t.irGen (genIfHead c m).mgr).mgr.newLabel]) :=
      Covers.cons he.extend (by simp [CodeGenMgr.newLabel])
    rw [List.append_assoc _ _ [Instruction.label _]]
    refine Covers.cons (Covers.cons ((hc.append ht).extend.append hout) ?_) ?_
    · simp [CodeGenMgr.newLabel, CodeGenMgr.bumpLabel, irLabels_cons, Instruction.label?]
    · simp [hmem]
  | .assign x e, m => by
    simp only [Stmt.irGen]
    exact (expr_covers e m).extend
  | .compound ss, m => by simp only [Stmt.irGen]; exact all_covers ss m

theorem all_covers : ∀ ss : List Stmt, GenCovers (irGenAll ss)
  | [], m => by simp only [irGenAll]; exact .of_le (Nat.le_refl _)
  | s :: ss, m => by
    simp only [irGenAll]
    exact (stmt_covers s m).append (all_covers ss _)

end

theorem generated_wellLabelled {ss : List Stmt} (hwt : allWellTyped ss = true) (m : CodeGenMgr) :
    WellLabelled (irGenAll ss m).code := by
  have hb := all_branches ss hwt m
  refine ⟨(all_emits ss m).nodup, forwardTargets_of_noBackward hb.forward fun i hi t ht => ?_⟩
  obtain ⟨n, h₁, h₂, rfl⟩ := (hb.targets i hi t ht).resolve_left id
  exact all_covers ss m n h₁ h₂

/-! ## The passes -/

/-- `MergeLabels` renames a target to the label kept of its run. -/
theorem mergeLabels_wellLabelled {code : List Instruction} (h : WellLabelled code) :
    WellLabelled (mergeLabels code) := by
  have hr := newLabelOf_respects code none h.once fun _ _ => rfl
  refine ⟨(irLabels_mergeLabels code).nodup h.once, forwardTargets_of_noBackward ?_ ?_⟩
  · refine List.pairwise_map.mpr ((eraseLabels_forward code none h.noBackward h.once hr
      fun _ _ t _ ht => newLabelOf_of_none (eraseLabels_keys none code ht)).imp ?_)
    intro i j hij l hl
    rw [targets_renameTargets]
    refine hij l ?_
    cases i <;> exact hl
  · exact mergeLabels_defined h.once fun i hi t ht => h.forward.mem hi ht

/-- The first loop of `EliminateDeadCode` deletes no label. -/
theorem irLabels_eliminateAfterReturn (prev : Option Instruction) (code : List Instruction) :
    irLabels (eliminateAfterReturn prev code) = irLabels code := by
  induction code generalizing prev with
  | nil => cases prev <;> rfl
  | cons i code ih =>
    cases prev with
    | none => simp only [eliminateAfterReturn, irLabels_cons, ih]
    | some p =>
      simp only [eliminateAfterReturn]
      split
      · rename_i hdel
        rw [Bool.and_eq_true] at hdel
        have hi : i.label? = none := by cases i <;> first | rfl | cases hdel.2
        rw [ih, irLabels_cons, hi]
        rfl
      · simp only [irLabels_cons, ih]

theorem eliminateAfterReturn_forward (prev : Option Instruction) {code : List Instruction}
    (h : ForwardTargets code) : ForwardTargets (eliminateAfterReturn prev code) := by
  induction code generalizing prev with
  | nil => cases prev <;> trivial
  | cons i code ih =>
    have kept : ForwardTargets (i :: eliminateAfterReturn (some i) code) := by
      refine ⟨?_, ih (some i) h.2⟩
      rw [irLabels_eliminateAfterReturn]
      exact h.1
    cases prev with
    | none => exact kept
    | some p =>
      simp only [eliminateAfterReturn]
      split
      · exact ih (some p) h.2
      · exact kept

/-- A label that has been noted as reachable is not purged. -/
theorem eliminateDeadCodeImpl_keeps (code : List Instruction) (R : List String)
    (prev : Option Instruction) (purging : Bool) {l : String} (hR : l ∈ R)
    (hl : l ∈ irLabels code) : l ∈ irLabels (eliminateDeadCodeImpl R prev purging code).1 := by
  induction code generalizing R prev purging with
  | nil => exact absurd hl List.not_mem_nil
  | cons i code ih =>
    rw [irLabels_cons, List.mem_append, Option.mem_toList] at hl
    unfold eliminateDeadCodeImpl
    split
    · rename_i hp
      refine ih R (some i) true hR (hl.resolve_left fun hi => ?_)
      cases i with
      | label l₀ =>
        obtain rfl := Option.some.inj hi
        simp [purgingAt, hR] at hp
      | _ => cases hi
    · rw [irLabels_cons, List.mem_append, Option.mem_toList]
      exact hl.imp_right (ih _ (some i) false (List.mem_append_right _ hR))

theorem eliminateDeadCodeImpl_forward (R : List String) (prev : Option Instruction)
    (purging : Bool) {code : List Instruction} (h : ForwardTargets code) :
    ForwardTargets (eliminateDeadCodeImpl R prev purging code).1 := by
  induction code generalizing R prev purging with
  | nil => trivial
  | cons i code ih =>
    unfold eliminateDeadCodeImpl
    split
    · exact ih R (some i) true h.2
    · refine ⟨fun t ht => ?_, ih _ (some i) false h.2⟩
      have hboth := Instruction.targets_subset_bothTargets ht
      exact eliminateDeadCodeImpl_keeps code _ (some i) false (List.mem_append_left _ hboth)
        (h.1 t ht)

theorem eliminateLoop_forward (fuel : Nat) {code : List Instruction} (h : ForwardTargets code) :
    ForwardTargets (eliminateLoop fuel code) :=
  eliminateLoop_keeps (fun _ => eliminateDeadCodeImpl_forward [] none false) fuel h

/-- `EliminateDeadCode` keeps every label a kept branch names. -/
theorem eliminateDeadCode_wellLabelled {code : List Instruction} (h : WellLabelled code) :
    WellLabelled (eliminateDeadCode code) :=
  ⟨((eliminateDeadCode_sublist code).filterMap _).nodup h.once,
    eliminateLoop_forward _ (eliminateAfterReturn_forward none h.forward)⟩

/-! ## The pipeline -/

/-- The lists of a body: after `IRGen`, after `MergeLabels`, after `EliminateDeadCode`. -/
def stages (ss : List Stmt) (m : CodeGenMgr) : List (List Instruction) :=
  [(irGenAll ss m).code, mergedIR ss m, eliminateDeadCode (mergedIR ss m)]

/-- Bodies compiled one after the other from one manager, each with the manager as it finds it. -/
def sharedMgr : List (List Stmt) → CodeGenMgr → List (List Stmt × CodeGenMgr)
  | [], _ => []
  | ss :: bodies, m => (ss, m) :: sharedMgr bodies (irGenAll ss m).mgr

/-- `PolicyManager::IRGen` compiles the bodies of the checks so. -/
theorem irGenChecks_shared {cs : List SyscallCheck} {m m' : CodeGenMgr}
    {r : List (SyscallCheck × List BasicBlock)} (h : irGenChecks cs m = some (r, m')) :
    r = List.zipWith (fun c e => (c, checkCFG e.1 e.2 c.syscall)) cs
      (sharedMgr (cs.map SyscallCheck.stmts) m) := by
  induction cs generalizing m r with
  | nil =>
    obtain ⟨rfl, -⟩ := Prod.mk.inj (Option.some.inj h)
    rfl
  | cons c cs ih =>
    obtain ⟨rest, -, hrest, he⟩ := irGenChecks_cons h
    cases he
    rw [ih hrest]
    rfl

theorem sharedMgr_typed {bodies : List (List Stmt)} (hwt : ∀ ss ∈ bodies, allWellTyped ss = true)
    {m : CodeGenMgr} {e : List Stmt × CodeGenMgr} (he : e ∈ sharedMgr bodies m) :
    allWellTyped e.1 = true ∧ m.labelCnt ≤ e.2.labelCnt := by
  induction bodies generalizing m with
  | nil => exact absurd he List.not_mem_nil
  | cons ss bodies ih =>
    rcases List.mem_cons.mp he with rfl | he
    · exact ⟨hwt ss List.mem_cons_self, Nat.le_refl _⟩
    · obtain ⟨ht, hle⟩ := ih (fun ss hss => hwt ss (List.mem_cons_of_mem _ hss)) he
      exact ⟨ht, Nat.le_trans (all_emits ss m).cnt hle⟩

theorem stages_wellLabelled {ss : List Stmt} (hwt : allWellTyped ss = true) (m : CodeGenMgr) :
    ∀ code ∈ stages ss m, WellLabelled code := by
  have hgen := generated_wellLabelled hwt m
  have hmerged := mergeLabels_wellLabelled hgen
  intro code hcode
  simp only [stages, List.mem_cons, List.not_mem_nil, or_false] at hcode
  rcases hcode with rfl | rfl | rfl
  · exact hgen
  · exact hmerged
  · exact eliminateDeadCode_wellLabelled hmerged

theorem stages_fresh (ss : List Stmt) (m : CodeGenMgr) : ∀ code ∈ stages ss m, ∀ l ∈ irLabels code,
    Fresh m.labelCnt (irGenAll ss m).mgr.labelCnt l := by
  intro code hcode l hl
  refine (all_emits ss m).fresh l ?_
  simp only [stages, List.mem_cons, List.not_mem_nil, or_false] at hcode
  rcases hcode with rfl | rfl | rfl
  · exact hl
  · exact (irLabels_mergeLabels _).subset hl
  · exact (irLabels_mergeLabels _).subset
      (((eliminateDeadCode_sublist _).filterMap _).subset hl)

/-- The labels of two bodies come from ranges of the counter that do not meet. -/
theorem sharedMgr_disjoint (bodies : List (List Stmt)) (m : CodeGenMgr)
    (hwt : ∀ ss ∈ bodies, allWellTyped ss = true) :
    (sharedMgr bodies m).Pairwise fun e e' => ∀ code ∈ stages e.1 e.2, ∀ code' ∈ stages e'.1 e'.2,
      List.Disjoint (irLabels code) (irLabels code') := by
  induction bodies generalizing m with
  | nil => exact List.Pairwise.nil
  | cons ss bodies ih =>
    have hwt' : ∀ ss ∈ bodies, allWellTyped ss = true := fun s hs => hwt s (List.mem_cons_of_mem _ hs)
    refine List.pairwise_cons.mpr ⟨fun e he code hcode code' hcode' l hl hl' => ?_, ih _ hwt'⟩
    exact (stages_fresh ss m code hcode l hl).disjoint (stages_fresh e.1 e.2 code' hcode' l hl')
      (sharedMgr_typed hwt' he).2

/-- **Labels are well formed all through the pipeline**, for any sequence of bodies compiled with one
manager: in every list of every body the labels are distinct, and a branch goes to labels defined
once, behind it; no label is in two bodies; and so the CFG of every body is in topological order. -/
theorem pipeline_wellLabelled (bodies : List (List Stmt)) (m : CodeGenMgr)
    (hwt : ∀ ss ∈ bodies, allWellTyped ss = true) :
    (∀ e ∈ sharedMgr bodies m, ∀ code ∈ stages e.1 e.2, WellLabelled code) ∧
    ((sharedMgr bodies m).Pairwise fun e e' => ∀ code ∈ stages e.1 e.2,
      ∀ code' ∈ stages e'.1 e'.2, List.Disjoint (irLabels code) (irLabels code')) ∧
    ∀ e ∈ sharedMgr bodies m, ∀ syscall, Topological (checkCFG e.1 e.2 syscall) := by
  refine ⟨fun e he => ?_, sharedMgr_disjoint bodies m hwt, fun e he syscall => ?_⟩
  · exact stages_wellLabelled (sharedMgr_typed hwt he).1 e.2
  · have h := stages_wellLabelled (sharedMgr_typed hwt he).1 e.2
      (eliminateDeadCode (mergedIR e.1 e.2)) (by simp [stages])
    exact buildCFG_topological syscall h.forward

/-- A body that denies when `flags` is 1. -/
def guardedAllow : List Stmt :=
  [.ifThen (.op2 .EQ (.ref "flags") (.value 1)) (.perm .DENY), .perm .ALLOW]

/-- Two bodies, each with an `if` in it. -/
def guardedBodies : List (List Stmt) :=
  [guardedAllow, [.ifElse (.op2 .AND (.ref "x") (.ref "y")) (.perm .ALLOW) (.perm .DENY)]]

theorem guardedBodies_wellLabelled : WellLabelled (eliminateDeadCode (mergedIR guardedAllow {})) :=
  (pipeline_wellLabelled guardedBodies {} (by decide)).1 (guardedAllow, {}) List.mem_cons_self _
    (by simp [stages])

end SeccompPolicy
