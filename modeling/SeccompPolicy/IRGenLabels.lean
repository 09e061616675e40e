import SeccompPolicy.IRGen

/-!
# The labels of generated code

`IRGen` keeps the label discipline of `Emits` from any manager: the label counter and the
allocation counter only grow, the stack of saved targets comes back as it was, and the labels
defined are distinct and newer than the manager. No typing is needed: the discipline does not
depend on what the operands are.

One lemma per case of `OpNode::IRGen`, each about the `IRGen` of its operands as a parameter.
`AND` and `OR` are one lemma, `emits_shortCircuit`: a label is taken with the targets saved, the
first operand is generated, the targets are restored, and the label stands in front of the second
operand.

## Results

* `expr_emits`, `branchGen_emits`: expressions, by themselves and through `GenBranchCode`.
* `genIfHead_emits`: the head of a conditional defines its first label; the second is taken, but
  not defined yet.
* `stmt_emits`, `all_emits`: statements and bodies.
-/

namespace SeccompPolicy

/-- `IRGen` of an expression keeps the label discipline from any manager. -/
def GenEmits (gen : CodeGenMgr → Gen) : Prop := ∀ m, Emits m (gen m).code (gen m).mgr

theorem genEmits_compare {op : OpCode} {l r : CodeGenMgr → Gen} (hl : GenEmits l)
    (hr : GenEmits r) : GenEmits (genCompare op l r) := fun m =>
  ((hl m).append (hr _)).append (.single rfl rfl (Nat.le_refl _) rfl)

theorem genEmits_binary {op : OpCode} {l r : CodeGenMgr → Gen} (hl : GenEmits l)
    (hr : GenEmits r) : GenEmits (genBinary op l r) := fun m =>
  ((hl m).append (hr _)).append (.single rfl rfl (Nat.le_succ _) rfl)

theorem genEmits_minus {a : CodeGenMgr → Gen} (ha : GenEmits a) : GenEmits (genMinus a) := fun m =>
  (ha m).append (.single rfl rfl (Nat.le_succ _) rfl)

theorem genEmits_branchCode {e : Expr} {gen : CodeGenMgr → Gen} (h : GenEmits gen) :
    GenEmits (genBranchCode e gen) := by
  intro m
  unfold genBranchCode
  split
  · exact h m
  · exact genEmits_compare h (fun m => Emits.nil m) m

theorem genEmits_not {a : CodeGenMgr → Gen} (ha : GenEmits a) : GenEmits (genNot a) := fun m =>
  (ha { m with trueTarget := m.falseTarget, falseTarget := m.trueTarget }).weaken
    (Nat.le_refl _) (Nat.le_refl _) rfl

/-- The shape `AND` and `OR` share: a label is taken with the targets saved, the first operand is
generated, the targets are restored, and the label stands before the second operand. -/
theorem emits_shortCircuit {m m₁ : CodeGenMgr} {lhs rhs : CodeGenMgr → Gen} (hl : GenEmits lhs)
    (hr : GenEmits rhs) (hcnt : m₁.labelCnt = m.labelCnt + 1) (hids : m₁.nextId = m.nextId)
    (hsaved : m₁.savedBranchTarget = (m.trueTarget, m.falseTarget) :: m.savedBranchTarget) :
    Emits m ((lhs m₁).code ++ [.label m.newLabel] ++
      (rhs (lhs m₁).mgr.restoreBranchTarget).code) (rhs (lhs m₁).mgr.restoreBranchTarget).mgr := by
  have h1 := hl m₁
  have hsv := h1.saved.trans hsaved
  have hc : m.labelCnt + 1 ≤ (lhs m₁).mgr.labelCnt := hcnt ▸ h1.cnt
  have h2 : Emits m ((lhs m₁).code ++ [.label m.newLabel]) (lhs m₁).mgr.restoreBranchTarget := by
    refine Emits.addLabel ?_ (Nat.lt_succ_self _) ?_
      (h1.not_mem (old_labelText (hcnt ▸ Nat.le_refl _)))
    · exact
        { cnt := by simp only [CodeGenMgr.restoreBranchTarget, hsv]; omega
          ids := by simp only [CodeGenMgr.restoreBranchTarget, hsv]; exact hids ▸ h1.ids
          saved := by simp only [CodeGenMgr.restoreBranchTarget, hsv]
          fresh := fun l hl => by
            simp only [CodeGenMgr.restoreBranchTarget, hsv]
            exact (h1.fresh l hl).mono (by omega) (Nat.le_refl _)
          nodup := h1.nodup }
    · simp only [CodeGenMgr.restoreBranchTarget, hsv]
      exact hc
  exact h2.append (hr _)

theorem genEmits_and {l r : CodeGenMgr → Gen} (hl : GenEmits l) (hr : GenEmits r) :
    GenEmits (genAnd l r) := fun _ => emits_shortCircuit hl hr rfl rfl rfl

theorem genEmits_or {l r : CodeGenMgr → Gen} (hl : GenEmits l) (hr : GenEmits r) :
    GenEmits (genOr l r) := fun _ => emits_shortCircuit hl hr rfl rfl rfl

theorem expr_emits (e : Expr) : GenEmits e.irGen := by
  induction e with
  | ref x => exact fun m => Emits.nil m
  | value n => exact fun m => Emits.nil m
  | inv f params => exact fun m => .single rfl rfl (Nat.le_succ _) rfl
  | op1 op e ih =>
    intro m
    simp only [Expr.irGen]
    split_ifs
    · exact genEmits_not (genEmits_branchCode ih) m
    · exact genEmits_minus ih m
    · exact Emits.nil m
  | op2 op l r ihl ihr =>
    intro m
    simp only [Expr.irGen]
    split_ifs
    · exact genEmits_and (genEmits_branchCode ihl) (genEmits_branchCode ihr) m
    · exact genEmits_or (genEmits_branchCode ihl) (genEmits_branchCode ihr) m
    · exact genEmits_not (genEmits_branchCode ihl) m
    · exact genEmits_compare ihl ihr m
    · exact genEmits_minus ihl m
    · exact Emits.nil m
    · exact genEmits_binary ihl ihr m

theorem branchGen_emits (e : Expr) : GenEmits e.branchGen := genEmits_branchCode (expr_emits e)

/-- The head of an `if` defines its true label; its false label is taken but still undefined. -/
theorem genIfHead_emits (c : Expr) (m : CodeGenMgr) :
    Emits m (genIfHead c m).code (genIfHead c m).mgr ∧
      m.labelCnt + 2 ≤ (genIfHead c m).mgr.labelCnt ∧
      m.bumpLabel.newLabel ∉ irLabels (genIfHead c m).code := by
  have h := branchGen_emits c { m.bumpLabel.bumpLabel with
    trueTarget := m.newLabel, falseTarget := m.bumpLabel.newLabel }
  have hcnt : m.labelCnt + 2 ≤ (genIfHead c m).mgr.labelCnt := h.cnt
  refine ⟨Emits.addLabel (m := m) (n := m.labelCnt + 1)
    (h.weaken (Nat.le_add_right _ 2) (Nat.le_refl _) rfl) (Nat.lt_succ_self _)
    (Nat.le_trans (Nat.le_succ _) h.cnt) ?_,
    hcnt, ?_⟩
  · exact h.not_mem (old_labelText (Nat.le_succ _))
  · show labelText (m.labelCnt + 2) ∉ irLabels (_ ++ [.label (labelText (m.labelCnt + 1))])
    rw [irLabels_append, irLabels_label, List.mem_append, List.mem_singleton, labelText_inj]
    rintro (hm | hm)
    · exact h.not_mem (old_labelText (Nat.le_refl _)) hm
    · omega

mutual

theorem stmt_emits : ∀ (s : Stmt) (m : CodeGenMgr), Emits m (s.irGen m).code (s.irGen m).mgr
  | .empty, m => by simp only [Stmt.irGen]; exact .nil m
  | .perm p, m => by simp only [Stmt.irGen]; exact .single rfl rfl (Nat.le_succ _) rfl
  | .ifThen c t, m => by
    obtain ⟨hc, hcnt, hnot⟩ := genIfHead_emits c m
    have ht := stmt_emits t (genIfHead c m).mgr
    simp only [Stmt.irGen]
    refine Emits.addLabel (n := m.labelCnt + 2) (hc.append ht) (by omega)
      (Nat.le_trans hcnt ht.cnt) ?_
    rw [irLabels_append, List.mem_append]
    rintro (hm | hm)
    · exact hnot hm
    · exact ht.not_mem (old_labelText hcnt) hm
  | .ifElse c t e, m => by
    obtain ⟨hc, hcnt, hnot⟩ := genIfHead_emits c m
    have ht := stmt_emits t (genIfHead c m).mgr
    have he := stmt_emits e (t.irGen (genIfHead c m).mgr).mgr.bumpLabel
    have htc := ht.cnt
    simp only [Stmt.irGen]
    -- the jump, then the false label
    have hj : Emits m ((genIfHead c m).code ++ (t.irGen (genIfHead c m).mgr).code ++
        [.branch .INVALID .null .null (t.irGen (genIfHead c m).mgr).mgr.newLabel ""])
        (t.irGen (genIfHead c m).mgr).mgr :=
      (hc.append ht).append (.single rfl rfl (Nat.le_refl _) rfl)
    have hf := Emits.addLabel (n := m.labelCnt + 2) hj (by omega) (Nat.le_trans hcnt htc) (by
      rw [irLabels_append, irLabels_append, List.mem_append, List.mem_append]
      rintro ((hm | hm) | hm)
      · exact hnot hm
      · exact ht.not_mem (old_labelText hcnt) hm
      · simp [irLabels, Instruction.label?] at hm)
    have hb := hf.append (he.weaken (Nat.le_succ _) (Nat.le_refl _) rfl)
    have hout := Emits.addLabel (n := (t.irGen (genIfHead c m).mgr).mgr.labelCnt + 1) hb (by omega)
      he.cnt (by
      rw [irLabels_append, List.mem_append]
      rintro (hm | hm)
      · obtain ⟨n, -, hn, hn'⟩ := hf.fresh _ hm
        have := labelText_inj.mp hn'
        omega
      · exact he.not_mem (old_labelText (Nat.le_refl _)) hm)
    simpa [CodeGenMgr.newLabel, CodeGenMgr.bumpLabel] using hout
  | .assign x e, m => by
    simp only [Stmt.irGen]
    exact (expr_emits e m).append (.single rfl rfl (Nat.le_refl _) rfl)
  | .compound ss, m => by simp only [Stmt.irGen]; exact all_emits ss m

theorem all_emits : ∀ (ss : List Stmt) (m : CodeGenMgr), Emits m (irGenAll ss m).code (irGenAll ss m).mgr
  | [], m => by simp only [irGenAll]; exact .nil m
  | s :: ss, m => by
    simp only [irGenAll]
    exact (stmt_emits s m).append (all_emits ss _)

end

end SeccompPolicy
