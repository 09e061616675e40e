import SeccompPolicy.Monitor
import SeccompPolicy.Purge
import SeccompPolicy.WellLabelled

/-!
# Operands are computed in their block

An operand that is an instruction is read from its register by the IR, from `A` or the scratch
word by the filter, and is printed as a tree by `LiftExpr`. The three are the same only if the
register was set in the same block, with no assignment in between, and not set again.

`Fed` says this of a list, from the last label on (`Segment`); and it says that nothing but a
label stands behind a conditional branch. A `Segment` is what has been passed since the last
label: the results that are in registers, or a branch, or a return, behind which anything may
stand.

`IRGen` gives such lists. `Segment.monitor` is a monitor, so the passes keep them so.

## Results

* `number_feeds`, `cond_fed`, `all_fed`: generated code is fed.
* `eliminated_endsBlocks`: behind the passes nothing stands behind a branch or a return but a
  label, which is the hypothesis of `buildCFG_exact` and `purge_exact`.
* `checkCFG_fed`: the operands of a block are computed in the block.
-/

namespace SeccompPolicy

/-- What has been passed since the last label: the results that are in registers, since the last
assignment; or a conditional branch; or a return. -/
inductive Segment where
  | running (results : List IRValue)
  | branched
  | returned

/-- The operands an instruction reads. -/
def Instruction.operands : Instruction → List IRValue
  | .arith _ _ a b | .branch _ a b _ _ => [a, b]
  | .store src _ => [src]
  | _ => []

/-- The result an instruction puts in a register. -/
def Instruction.result? : Instruction → Option IRValue
  | .arith id op a b => some (.arith id op a b)
  | .call id f args => some (.call id f args)
  | _ => none

/-- A store goes to a variable. -/
def Instruction.StoresMem : Instruction → Prop
  | .store _ dst => ∃ x, dst = .mem x
  | _ => True

/-- The register of a result. -/
def IRValue.reg? : IRValue → Option Nat
  | .arith id _ _ _ | .call id _ _ => some id
  | _ => none

namespace Segment

/-- Behind one more instruction. -/
def after : Segment → Instruction → Segment
  | _, .label _ => .running []
  | .running A, .arith id op a b => .running (.arith id op a b :: A)
  | .running A, .call id f args => .running (.call id f args :: A)
  | .running _, .store _ _ => .running []
  | .running A, .branch op _ _ _ _ => if op = .INVALID then .running A else .branched
  | .running _, .ret _ _ => .returned
  | s, _ => s

/-- The instruction may stand here. -/
def Admits : Segment → Instruction → Prop
  | _, .label _ => True
  | .running A, i => (∀ v ∈ i.operands, v.reg? = none ∨ v ∈ A) ∧
      (∀ w ∈ i.result?, ∀ v ∈ A, v.reg? ≠ w.reg?) ∧ i.StoresMem
  | .branched, _ => False
  | .returned, _ => True

/-- Where a statement can start. -/
def IsStart (s : Segment) : Prop := s = .running [] ∨ s = .returned

theorem admits_label (s : Segment) (l : String) : s.Admits (.label l) := by cases s <;> trivial

/-- An instruction without a result needs its operands. -/
theorem admits_running {A : List IRValue} {i : Instruction} (hr : i.result? = none)
    (hmem : i.StoresMem) (h : ∀ v ∈ i.operands, v.reg? = none ∨ v ∈ A) :
    (running A).Admits i := by
  have hnew : ∀ w ∈ i.result?, ∀ v ∈ A, v.reg? ≠ w.reg? := by
    rw [hr]
    exact fun w hw => by cases hw
  cases i <;> first | exact ⟨h, hnew, hmem⟩ | trivial

theorem after_label (s : Segment) (l : String) : s.after (.label l) = .running [] := by
  cases s <;> rfl

theorem after_returned {i : Instruction} (hi : i.label? = none) :
    Segment.returned.after i = .returned := by
  cases i <;> first | rfl | cases hi

theorem admits_returned (i : Instruction) : Segment.returned.Admits i := by cases i <;> trivial

theorem not_admits_branched {i : Instruction} (hi : i.label? = none) :
    ¬ Segment.branched.Admits i := by
  cases i <;> first | exact id | cases hi

theorem after_isDirectJMP {s : Segment} {i : Instruction} (h : s.Admits i)
    (hi : i.isDirectJMP = true) : s.after i = s := by
  cases i <;> cases s <;>
    first | exact h.elim | rfl | exact if_pos (of_decide_eq_true hi) | cases hi

theorem after_rename (s : Segment) (ρ : String → String) (i : Instruction) :
    s.after (i.renameTargets ρ) = s.after i := by
  cases i <;> cases s <;> rfl

theorem admits_rename (s : Segment) (ρ : String → String) (i : Instruction) :
    s.Admits (i.renameTargets ρ) ↔ s.Admits i := by
  cases i <;> cases s <;> rfl

end Segment

/-- Every instruction of the list may stand where it stands. -/
def Fed : Segment → List Instruction → Prop
  | _, [] => True
  | s, i :: code => s.Admits i ∧ Fed (s.after i) code

section

variable {s : Segment} {c c' : List Instruction}

theorem fed_append : Fed s (c ++ c') ↔ Fed s c ∧ Fed (c.foldl Segment.after s) c' := by
  induction c generalizing s with
  | nil => exact (and_iff_right trivial).symm
  | cons i c ih => rw [List.cons_append, Fed, Fed, ih, List.foldl_cons, and_assoc]

/-- Behind a return anything may stand, up to the next label. -/
theorem fed_returned (h : ∀ i ∈ c, i.label? = none) :
    Fed .returned c ∧ c.foldl Segment.after .returned = .returned := by
  induction c with
  | nil => exact ⟨trivial, rfl⟩
  | cons i c ih =>
    obtain ⟨hfed, hend⟩ := ih fun j hj => h j (List.mem_cons_of_mem i hj)
    have hi := Segment.after_returned (h i List.mem_cons_self)
    rw [Fed, List.foldl_cons, hi]
    exact ⟨⟨Segment.admits_returned i, hfed⟩, hend⟩

theorem label?_none (h : irLabels c = []) : ∀ i ∈ c, i.label? = none :=
  List.filterMap_eq_nil_iff.mp h

end

/-! ## Generated code -/

/-- The code of a number: its value is computed behind it, and all results are older than the manager
it leaves. -/
structure FeedsNumber (A : List IRValue) (g : Gen) (A' : List IRValue) : Prop where
  fed : Fed (.running A) g.code
  ends : g.code.foldl Segment.after (.running A) = .running A'
  keeps : ∀ v ∈ A, v ∈ A'
  value : g.val.reg? = none ∨ g.val ∈ A'
  old : ∀ v ∈ A', v.Below g.mgr.nextId

theorem reg?_ne {v : IRValue} {n : Nat} (h : v.Below n) : v.reg? ≠ some n := by
  cases v with
  | arith id op a b => exact fun e => Nat.lt_irrefl n (Option.some.inj e ▸ h)
  | call id f args => exact fun e => Nat.lt_irrefl n (Option.some.inj e ▸ h)
  | _ => exact fun e => by cases e

theorem reg?_keeps {A A' : List IRValue} {v : IRValue} (h : v.reg? = none ∨ v ∈ A)
    (hA : ∀ w ∈ A, w ∈ A') : v.reg? = none ∨ v ∈ A' := h.imp_right (hA v)

/-- One more result, in a new register. -/
theorem FeedsNumber.snoc {A A' : List IRValue} {code : List Instruction} {m : CodeGenMgr}
    {i : Instruction} {w : IRValue} (hfed : Fed (.running A) code)
    (hends : code.foldl Segment.after (.running A) = .running A') (hkeeps : ∀ v ∈ A, v ∈ A')
    (hold : ∀ v ∈ A', v.Below m.nextId) (hw : i.result? = some w) (hreg : w.reg? = some m.nextId)
    (hafter : Segment.after (.running A') i = .running (w :: A'))
    (hops : ∀ v ∈ i.operands, v.reg? = none ∨ v ∈ A') :
    FeedsNumber A ⟨w, code ++ [i], m.alloc⟩ (w :: A') where
  fed := by
    refine fed_append.mpr ⟨hfed, ?_, trivial⟩
    rw [hends]
    have hnew : ∀ u ∈ i.result?, ∀ v ∈ A', v.reg? ≠ u.reg? := by
      intro u hu v hv
      obtain rfl := Option.some.inj (hw.symm.trans hu)
      rw [hreg]
      exact reg?_ne (hold v hv)
    cases i <;> first | exact ⟨hops, hnew, trivial⟩ | cases hw
  ends := by rw [List.foldl_append, hends, List.foldl_cons, List.foldl_nil, hafter]
  keeps v hv := List.mem_cons_of_mem w (hkeeps v hv)
  value := .inr List.mem_cons_self
  old v hv := by
    rcases List.mem_cons.mp hv with rfl | hv
    · cases v <;> first | exact Option.some.inj hreg ▸ Nat.lt_succ_self _ | trivial
    · exact (hold v hv).mono (Nat.le_succ _)

/-- **The code of a number** is fed, and computes its value behind itself. -/
theorem number_feeds (e : Expr) (he : e.isArith = true) (m : CodeGenMgr) (A : List IRValue)
    (hA : ∀ v ∈ A, v.Below m.nextId) : ∃ A', FeedsNumber A (e.irGen m) A' := by
  induction e generalizing m A with
  | ref x => exact ⟨A, trivial, rfl, fun v hv => hv, .inl rfl, hA⟩
  | value n => exact ⟨A, trivial, rfl, fun v hv => hv, .inl rfl, hA⟩
  | inv f ps =>
    exact ⟨_, @FeedsNumber.snoc A A [] m (.call m.nextId f ps) _ trivial rfl (fun v hv => hv) hA rfl
      rfl rfl fun v hv => absurd hv List.not_mem_nil⟩
  | op1 op e ih =>
    simp only [Expr.isArith, Bool.and_eq_true, decide_eq_true_eq] at he
    obtain ⟨rfl, he⟩ := he
    obtain ⟨A', h⟩ := ih he m A hA
    refine ⟨_, FeedsNumber.snoc (i := .arith _ .UMINUS (e.irGen m).val .null) h.fed h.ends h.keeps
      h.old rfl rfl rfl fun v hv => ?_⟩
    simp only [Instruction.operands, List.mem_cons, List.not_mem_nil, or_false] at hv
    rcases hv with rfl | rfl
    · exact h.value
    · exact .inl rfl
  | op2 op l r ihl ihr =>
    simp only [Expr.isArith, Bool.and_eq_true] at he
    obtain ⟨⟨hop, hl⟩, hr⟩ := he
    obtain ⟨A₁, h₁⟩ := ihl hl m A hA
    obtain ⟨A₂, h₂⟩ := ihr hr (l.irGen m).mgr A₁ h₁.old
    rw [irGen_binary hop]
    have hends : ((l.irGen m).code ++ (r.irGen (l.irGen m).mgr).code).foldl Segment.after
        (.running A) = .running A₂ := by rw [List.foldl_append, h₁.ends, h₂.ends]
    refine ⟨_, FeedsNumber.snoc (i := .arith _ op (l.irGen m).val (r.irGen (l.irGen m).mgr).val)
      (fed_append.mpr ⟨h₁.fed, by rw [h₁.ends]; exact h₂.fed⟩) hends
      (fun v hv => h₂.keeps v (h₁.keeps v hv)) h₂.old rfl rfl rfl fun v hv => ?_⟩
    simp only [Instruction.operands, List.mem_cons, List.not_mem_nil, or_false] at hv
    rcases hv with rfl | rfl
    · exact reg?_keeps h₁.value h₂.keeps
    · exact h₂.value

/-- The code of a condition. What follows it is a label. -/
def FedCond (gen : CodeGenMgr → Gen) : Prop :=
  ∀ (m : CodeGenMgr) (s : Segment), s.IsStart → Fed s (gen m).code

/-- A comparison reads both of its operands. -/
theorem compare_fed {op : OpCode} {l r : Expr} (hl : l.isArith = true) (hr : r.isArith = true) :
    FedCond (genCompare op l.irGen r.irGen) := by
  rintro m s (rfl | rfl)
  · obtain ⟨A₁, h₁⟩ := number_feeds l hl m [] fun v hv => absurd hv List.not_mem_nil
    obtain ⟨A₂, h₂⟩ := number_feeds r hr (l.irGen m).mgr A₁ h₁.old
    refine fed_append.mpr ⟨fed_append.mpr ⟨h₁.fed, by rw [h₁.ends]; exact h₂.fed⟩, ?_, trivial⟩
    rw [List.foldl_append, h₁.ends, h₂.ends]
    refine Segment.admits_running rfl trivial fun v hv => ?_
    simp only [Instruction.operands, List.mem_cons, List.not_mem_nil, or_false] at hv
    rcases hv with rfl | rfl
    · exact reg?_keeps h₁.value h₂.keeps
    · exact h₂.value
  · refine (fed_returned (label?_none ?_)).1
    simp only [genCompare, irLabels_append, (arith_number l hl m).labels,
      (arith_number r hr (l.irGen m).mgr).labels]
    rfl

/-- The shape `AND` and `OR` share. -/
theorem shortCircuit_fed {l r : CodeGenMgr → Gen} (hl : FedCond l) (hr : FedCond r) (label : String)
    (m m' : CodeGenMgr) {s : Segment} (hs : s.IsStart) :
    Fed s ((l m).code ++ [.label label] ++ (r m').code) := by
  refine fed_append.mpr ⟨fed_append.mpr ⟨hl m s hs, Segment.admits_label _ _, trivial⟩, hr m' _ ?_⟩
  rw [List.foldl_append, List.foldl_cons, List.foldl_nil, Segment.after_label]
  exact .inl rfl

/-- Conditions, by induction over the condition. -/
theorem cond_fed (e : Expr) (he : e.isCond = true) : FedCond e.branchGen := by
  have standalone : ∀ e : Expr, e.isArith = true → e.isBooleanOp = false → FedCond e.branchGen := by
    intro e he hb m s hs
    rw [genBranchCode_standalone hb, irGen_cmp rfl]
    exact compare_fed he rfl m s hs
  induction e with
  | ref x => exact standalone _ rfl rfl
  | value n => exact standalone _ rfl rfl
  | inv f ps => exact standalone _ rfl rfl
  | op1 op e ih =>
    simp only [Expr.isCond] at he
    split_ifs at he with hop
    · subst hop
      exact fun m s hs => ih he { m with trueTarget := m.falseTarget, falseTarget := m.trueTarget } s hs
    · simp only [Bool.and_eq_true, decide_eq_true_eq] at he
      obtain ⟨rfl, he⟩ := he
      exact standalone _ (by simpa [Expr.isArith] using he) rfl
  | op2 op l r ihl ihr =>
    simp only [Expr.isCond] at he
    split_ifs at he with hop
    · rw [Bool.and_eq_true] at he
      rcases hop with rfl | rfl
      · exact fun m s hs => shortCircuit_fed (ihl he.1) (ihr he.2) _ _ _ hs
      · exact fun m s hs => shortCircuit_fed (ihl he.1) (ihr he.2) _ _ _ hs
    · simp only [Bool.and_eq_true, Bool.or_eq_true] at he
      obtain ⟨⟨hc, hl⟩, hr⟩ := he
      rcases hc with hc | hc
      · rw [branchGen_cmp hc]
        exact compare_fed hl hr
      · refine standalone _ (by simp only [Expr.isArith, hc, hl, hr, Bool.and_self]) ?_
        exact OpCode.not_isBoolean hc

theorem genIfHead_fed {c : Expr} (hc : c.isCond = true) (m : CodeGenMgr) {s : Segment}
    (hs : s.IsStart) : Fed s (genIfHead c m).code ∧
      (genIfHead c m).code.foldl Segment.after s = .running [] := by
  refine ⟨fed_append.mpr ⟨cond_fed c hc _ s hs, Segment.admits_label _ _, trivial⟩, ?_⟩
  simp only [genIfHead]
  rw [List.foldl_append, List.foldl_cons, List.foldl_nil, Segment.after_label]

/-- The code of a statement leads from a start to a start. -/
def FedCode (code : List Instruction) : Prop :=
  ∀ s : Segment, s.IsStart → Fed s code ∧ (code.foldl Segment.after s).IsStart

theorem FedCode.append {c c' : List Instruction} (h : FedCode c) (h' : FedCode c') :
    FedCode (c ++ c') := by
  intro s hs
  obtain ⟨hfed, hstart⟩ := h s hs
  obtain ⟨hfed', hstart'⟩ := h' _ hstart
  rw [List.foldl_append]
  exact ⟨fed_append.mpr ⟨hfed, hfed'⟩, hstart'⟩

theorem FedCode.label (l : String) : FedCode [.label l] := fun s _ =>
  ⟨⟨Segment.admits_label s l, trivial⟩, .inl (Segment.after_label s l)⟩

theorem FedCode.jump (t f : String) : FedCode [.branch .INVALID .null .null t f] := by
  rintro s (rfl | rfl)
  · refine ⟨⟨Segment.admits_running rfl trivial fun v hv => .inl ?_, trivial⟩, .inl rfl⟩
    simp only [Instruction.operands, List.mem_cons, List.not_mem_nil, or_false, or_self] at hv
    exact hv ▸ rfl
  · exact ⟨⟨trivial, trivial⟩, .inr rfl⟩

theorem genIfHead_fedCode {c : Expr} (hc : c.isCond = true) (m : CodeGenMgr) :
    FedCode (genIfHead c m).code := fun _ hs =>
  ⟨(genIfHead_fed hc m hs).1, .inl (genIfHead_fed hc m hs).2⟩

theorem assign_fed {e : Expr} (he : e.isArith = true) (x : String) (m : CodeGenMgr) :
    FedCode ((e.irGen m).code ++ [.store (e.irGen m).val (.mem x)]) := by
  rintro s (rfl | rfl)
  · obtain ⟨A, h⟩ := number_feeds e he m [] fun v hv => absurd hv List.not_mem_nil
    rw [List.foldl_append, h.ends]
    refine ⟨fed_append.mpr ⟨h.fed, ?_, trivial⟩, .inl rfl⟩
    rw [h.ends]
    refine Segment.admits_running rfl ⟨x, rfl⟩ fun v hv => ?_
    obtain rfl := List.mem_singleton.mp hv
    exact h.value
  · have hnone : irLabels ((e.irGen m).code ++ [.store (e.irGen m).val (.mem x)]) = [] := by
      rw [irLabels_append, (arith_number e he m).labels]
      rfl
    obtain ⟨hfed, hend⟩ := fed_returned (label?_none hnone)
    exact ⟨hfed, .inr hend⟩

mutual

/-- Statements lead from a start to a start. -/
theorem stmt_fed : ∀ (st : Stmt) (_ : st.wellTyped = true) (m : CodeGenMgr), FedCode (st.irGen m).code
  | .empty, _, m => by
    simp only [Stmt.irGen]
    exact fun s hs => ⟨trivial, hs⟩
  | .perm p, _, m => by
    simp only [Stmt.irGen]
    rintro s (rfl | rfl)
    · exact ⟨⟨Segment.admits_running rfl trivial fun v hv => absurd hv List.not_mem_nil, trivial⟩,
        .inr rfl⟩
    · exact ⟨⟨trivial, trivial⟩, .inr rfl⟩
  | .ifThen c t, hwt, m => by
    simp only [Stmt.wellTyped, Bool.and_eq_true] at hwt
    simp only [Stmt.irGen]
    exact ((genIfHead_fedCode hwt.1 m).append (stmt_fed t hwt.2 _)).append (.label _)
  | .ifElse c t e, hwt, m => by
    simp only [Stmt.wellTyped, Bool.and_eq_true] at hwt
    simp only [Stmt.irGen]
    exact ((((genIfHead_fedCode hwt.1.1 m).append (stmt_fed t hwt.1.2 _)).append
      ((FedCode.jump _ _).append (.label _))).append (stmt_fed e hwt.2 _)).append (.label _)
  | .assign x e, hwt, m => by
    simp only [Stmt.irGen]
    exact assign_fed hwt x m
  | .compound ss, hwt, m => by
    simp only [Stmt.irGen]
    exact all_fed ss hwt m

/-- **The code of a body is fed.** -/
theorem all_fed : ∀ (ss : List Stmt) (_ : allWellTyped ss = true) (m : CodeGenMgr),
    FedCode (irGenAll ss m).code
  | [], _, m => by
    simp only [irGenAll]
    exact fun s hs => ⟨trivial, hs⟩
  | s :: ss, hwt, m => by
    simp only [allWellTyped, Bool.and_eq_true] at hwt
    simp only [irGenAll]
    exact (stmt_fed s hwt.1 m).append (all_fed ss hwt.2 _)

end

/-! ## The passes -/

/-- `Fed`, as a monitor. -/
def Segment.monitor : Monitor Segment where
  start := .running []
  after := Segment.after
  Admits := Segment.Admits
  after_label := Segment.after_label
  admits_label := Segment.admits_label
  after_rename := Segment.after_rename
  admits_rename := Segment.admits_rename
  after_isDirectJMP _ _ := Segment.after_isDirectJMP

/-- What is fed is what the monitor accepts. -/
theorem fed_iff_accepts {s : Segment} {code : List Instruction} :
    Fed s code ↔ Segment.monitor.Accepts s code := by
  induction code generalizing s with
  | nil => exact Iff.rfl
  | cons i code ih => exact and_congr_right fun _ => ih

theorem merged_fed {ss : List Stmt} (hwt : allWellTyped ss = true) (m : CodeGenMgr) :
    Fed (.running []) (mergedIR ss m) :=
  fed_iff_accepts.mpr (Monitor.accepts_merged
    (fed_iff_accepts.mp (all_fed ss hwt m (.running []) (.inl rfl)).1))

/-! ## The end of a block -/

/-- Only a return, or a branch, is followed by the end of the block. -/
theorem Segment.after_last {s : Segment} {i : Instruction} (h : s.Admits i)
    (hi : i.isLabel ≠ true → s ≠ .returned ∧ i.isDirectJMP ≠ true) :
    (i.isReturn = true ↔ s.after i = .returned) ∧ (i.isBranch = true → s.after i = .branched) := by
  by_cases hl : i.isLabel = true
  · cases i with
    | label l => simp [Segment.after_label, Instruction.isReturn, Instruction.isBranch]
    | _ => cases hl
  · obtain ⟨hs, hj⟩ := hi hl
    cases s with
    | returned => exact absurd rfl hs
    | branched =>
      exact absurd h (Segment.not_admits_branched (by cases i <;> first | rfl | exact absurd rfl hl))
    | running A =>
      cases i <;> simp_all [Segment.after, Instruction.isReturn, Instruction.isBranch,
        Instruction.isDirectJMP]

/-- What is left after the first loop goes on with a label behind a branch or a return. -/
theorem endsBlocks_eliminateAfterReturn (code : List Instruction) (p : Instruction) {s : Segment}
    (h : Fed s code) (hr : p.isReturn = true ↔ s = .returned)
    (hb : p.isBranch = true → s = .branched) :
    EndsBlocks (p :: eliminateAfterReturn (some p) code) := by
  induction code generalizing p s with
  | nil => exact List.isChain_singleton p
  | cons i code ih =>
    rw [eliminateAfterReturn]
    split
    · rename_i hdel
      simp only [Bool.and_eq_true, Bool.or_eq_true, Bool.not_eq_true'] at hdel
      obtain ⟨hret | hj, hl⟩ := hdel
      · obtain rfl := hr.mp hret
        have hrest := h.2
        rw [Segment.after_returned (by cases i <;> first | rfl | cases hl)] at hrest
        exact ih p hrest hr hb
      · have hrest := h.2
        rw [Segment.after_isDirectJMP h.1 hj] at hrest
        exact ih p hrest hr hb
    · rename_i hkept
      simp only [Bool.and_eq_true, Bool.or_eq_true, Bool.not_eq_true', not_and,
        Bool.not_eq_false] at hkept
      have hlabel : (p.isBranch || p.isReturn) = true → i.isLabel = true := by
        intro hp
        rcases Bool.or_eq_true_iff.mp hp with hp | hp
        · obtain rfl := hb hp
          by_contra hl
          exact Segment.not_admits_branched (by cases i <;> first | rfl | exact absurd rfl hl) h.1
        · exact hkept (.inl hp)
      have hnext := Segment.after_last (i := i) h.1 fun hl =>
        ⟨fun hs => hl (hkept (.inl (hr.mpr hs))), fun hj => hl (hkept (.inr hj))⟩
      exact List.isChain_cons_cons.mpr ⟨hlabel, ih i h.2 hnext.1 hnext.2⟩

/-- The rounds keep it. -/
theorem endsBlocks_eliminateLoop (fuel : Nat) {code : List Instruction} (h : EndsBlocks code) :
    EndsBlocks (eliminateLoop fuel code) :=
  eliminateLoop_keeps (fun _ => endsBlocks_round) fuel h

/-- After the first loop nothing stands behind a branch or a return but a label. -/
theorem afterReturn_endsBlocks {ss : List Stmt} (hwt : allWellTyped ss = true) (m : CodeGenMgr) :
    EndsBlocks (eliminateAfterReturn none (mergedIR ss m)) := by
  have hfed := merged_fed hwt m
  have hhead : HeadOK (mergedIR ss m) := mergeLabels_headOK (all_headOK ss m)
  generalize mergedIR ss m = code at hfed hhead
  cases code with
  | nil => exact List.isChain_nil
  | cons i code =>
    obtain ⟨hr, hb⟩ := Segment.after_last hfed.1 fun _ =>
      ⟨Segment.noConfusion, ne_true_of_eq_false (hhead i rfl)⟩
    exact endsBlocks_eliminateAfterReturn code i hfed.2 hr hb

/-- **Nothing stands behind a branch or a return** but a label. -/
theorem eliminated_endsBlocks {ss : List Stmt} (hwt : allWellTyped ss = true) (m : CodeGenMgr) :
    EndsBlocks (eliminateDeadCode (mergedIR ss m)) :=
  endsBlocks_eliminateLoop _ (afterReturn_endsBlocks hwt m)

/-- **The operands of a block are computed in the block.** -/
theorem checkCFG_fed {ss : List Stmt} (hwt : allWellTyped ss = true) (m : CodeGenMgr)
    (syscall : String) : ∀ B ∈ checkCFG ss m syscall, Fed (.running []) B.insts := fun B hB =>
  fed_iff_accepts.mpr (Monitor.accepts_checkCFG
    (fed_iff_accepts.mp (all_fed ss hwt m (.running []) (.inl rfl)).1) syscall B hB)

end SeccompPolicy
