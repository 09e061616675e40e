import SeccompPolicy.IR
import Std.Data.String.ToNat

/-!
# From the tree to the list: `IRGen`

Source: `CodeGenMgr` of `IR_gen.h`, `GenBranchCode` and the `IRGen` methods of `ast.cpp`.

An `IRGen` of the source appends to the list it is given and may change the manager. Here it
returns its value, the instructions it appends and the new manager (`Gen`), which is the same
because no method looks at the list.

* `NewLabel` is split into the label it returns (`newLabel`) and the manager it leaves
  (`bumpLabel`).
* `new` of an instruction is `alloc`, which numbers it.
* `GenBranchCode` and `IRGen` call each other on the same expression; `genBranchCode` is given the
  `IRGen` of its expression, so that both are structural in the expression.
* The cases of `OpNode::IRGen` are functions of their own (`genCompare`, `genAnd`, `genOr`,
  `genNot`, `genBinary`, `genMinus`), each given the code of its operands. `NOT` swaps the targets
  of the manager and does not swap them back, as in the source.
* `IfNode::IRGen` is `genIfHead` (two labels, the condition, the label of the then branch) and
  what follows it with and without an else branch.

The second half of the module is the label discipline that every piece of generated code keeps
(`Emits`): label and allocation numbers only grow, the stack of saved targets comes back as it
was, and the labels defined are distinct and newer than the manager. `IRGenLabels` proves it of
all of `IRGen`.
-/

namespace SeccompPolicy

/-- `CodeGenMgr`. `nextId` numbers the instructions allocated so far. -/
structure CodeGenMgr where
  labelCnt : Nat := 0
  savedBranchTarget : List (String × String) := []
  trueTarget : String := ""
  falseTarget : String := ""
  nextId : Nat := 0
  deriving DecidableEq, Repr

/-- The text of label number `n`. -/
def labelText (n : Nat) : String := "L" ++ n.repr

namespace CodeGenMgr

/-- `NewLabel`: the label returned. -/
def newLabel (m : CodeGenMgr) : String := labelText (m.labelCnt + 1)

/-- `NewLabel`: the manager it leaves. -/
def bumpLabel (m : CodeGenMgr) : CodeGenMgr := { m with labelCnt := m.labelCnt + 1 }

/-- `SaveBranchTarget`. -/
def saveBranchTarget (m : CodeGenMgr) : CodeGenMgr :=
  { m with savedBranchTarget := (m.trueTarget, m.falseTarget) :: m.savedBranchTarget }

/-- `RestoreBranchTarget`. Every call follows its own `SaveBranchTarget`. -/
def restoreBranchTarget (m : CodeGenMgr) : CodeGenMgr :=
  match m.savedBranchTarget with
  | [] => m
  | (t, f) :: saved => { m with trueTarget := t, falseTarget := f, savedBranchTarget := saved }

/-- `new` of an instruction. -/
def alloc (m : CodeGenMgr) : CodeGenMgr := { m with nextId := m.nextId + 1 }

end CodeGenMgr

/-- What an `IRGen` call returns, appends and leaves behind. -/
structure Gen where
  val : IRValue
  code : List Instruction
  mgr : CodeGenMgr

/-- The comparison case of `OpNode::IRGen`, given the `IRGen` of both operands. -/
def genCompare (op : OpCode) (lhs rhs : CodeGenMgr → Gen) (m : CodeGenMgr) : Gen :=
  let a := lhs m
  let b := rhs a.mgr
  ⟨.null, a.code ++ b.code ++ [.branch op a.val b.val b.mgr.trueTarget b.mgr.falseTarget], b.mgr⟩

/-- The binary arithmetic case of `OpNode::IRGen`. -/
def genBinary (op : OpCode) (lhs rhs : CodeGenMgr → Gen) (m : CodeGenMgr) : Gen :=
  let a := lhs m
  let b := rhs a.mgr
  let id := b.mgr.nextId
  ⟨.arith id op a.val b.val, a.code ++ b.code ++ [.arith id op a.val b.val], b.mgr.alloc⟩

/-- The `UMINUS` case of `OpNode::IRGen`. -/
def genMinus (arg : CodeGenMgr → Gen) (m : CodeGenMgr) : Gen :=
  let a := arg m
  let id := a.mgr.nextId
  ⟨.arith id .UMINUS a.val .null, a.code ++ [.arith id .UMINUS a.val .null], a.mgr.alloc⟩

/-- Is the expression an `OpNode` whose `IRGen` ends in a branch? -/
def Expr.isBooleanOp : Expr → Bool
  | .op1 op _ => op.isBoolean
  | .op2 op _ _ => op.isBoolean
  | _ => false

/-- `GenBranchCode`: the expression's own `IRGen` when it branches, else that of `expr != 0`. -/
def genBranchCode (e : Expr) (gen : CodeGenMgr → Gen) (m : CodeGenMgr) : Gen :=
  if e.isBooleanOp then gen m else genCompare .NE gen (fun m => ⟨.imm 0, [], m⟩) m

/-- The `NOT` case of `OpNode::IRGen`: the targets are swapped and stay so. -/
def genNot (arg : CodeGenMgr → Gen) (m : CodeGenMgr) : Gen :=
  { arg { m with trueTarget := m.falseTarget, falseTarget := m.trueTarget } with val := .null }

/-- The `AND` case of `OpNode::IRGen`. -/
def genAnd (lhs rhs : CodeGenMgr → Gen) (m : CodeGenMgr) : Gen :=
  let trueLabel := m.newLabel
  let a := lhs { m.saveBranchTarget.bumpLabel with trueTarget := trueLabel }
  let b := rhs a.mgr.restoreBranchTarget
  ⟨.null, a.code ++ [.label trueLabel] ++ b.code, b.mgr⟩

/-- The `OR` case of `OpNode::IRGen`. -/
def genOr (lhs rhs : CodeGenMgr → Gen) (m : CodeGenMgr) : Gen :=
  let falseLabel := m.newLabel
  let a := lhs { m.saveBranchTarget.bumpLabel with falseTarget := falseLabel }
  let b := rhs a.mgr.restoreBranchTarget
  ⟨.null, a.code ++ [.label falseLabel] ++ b.code, b.mgr⟩

/-- The `IRGen` of an expression. An `OpNode` of one operand is `!` or unary minus; the parser
gives every other operator two. -/
def Expr.irGen : Expr → CodeGenMgr → Gen
  | .ref x, m => ⟨.mem x, [], m⟩
  | .value n, m => ⟨.imm n, [], m⟩
  | .inv f params, m => ⟨.call m.nextId f params, [.call m.nextId f params], m.alloc⟩
  | .op1 op e, m =>
    if op = .NOT then genNot (genBranchCode e e.irGen) m
    else if op = .UMINUS then genMinus e.irGen m
    else ⟨.null, [], m⟩
  | .op2 op l r, m =>
    if op = .AND then genAnd (genBranchCode l l.irGen) (genBranchCode r r.irGen) m
    else if op = .OR then genOr (genBranchCode l l.irGen) (genBranchCode r r.irGen) m
    else if op = .NOT then genNot (genBranchCode l l.irGen) m
    else if op.isCmp then genCompare op l.irGen r.irGen m
    else if op = .UMINUS then genMinus l.irGen m
    else if op = .INVALID then ⟨.null, [], m⟩
    else genBinary op l.irGen r.irGen m

theorem irGen_uminus (e : Expr) (m : CodeGenMgr) :
    (Expr.op1 .UMINUS e).irGen m = genMinus e.irGen m := rfl

theorem irGen_cmp {op : OpCode} (hop : op.isCmp = true) (l r : Expr) (m : CodeGenMgr) :
    (Expr.op2 op l r).irGen m = genCompare op l.irGen r.irGen m := by
  cases op <;> first | rfl | simp [OpCode.isCmp] at hop

theorem irGen_binary {op : OpCode} (hop : op.isBinaryArith = true) (l r : Expr) (m : CodeGenMgr) :
    (Expr.op2 op l r).irGen m = genBinary op l.irGen r.irGen m := by
  cases op <;> first | rfl | simp [OpCode.isBinaryArith, OpCode.isBoolean, OpCode.ctorIdx] at hop

/-- `expr->IRGen` on the way through `GenBranchCode`. -/
abbrev Expr.branchGen (e : Expr) : CodeGenMgr → Gen := genBranchCode e e.irGen

/-- A stand-alone condition is generated as `expr != 0`. -/
theorem genBranchCode_standalone {e : Expr} (he : e.isBooleanOp = false) (m : CodeGenMgr) :
    e.branchGen m = (Expr.op2 .NE e (.value 0)).irGen m := by
  simp [Expr.branchGen, genBranchCode, he, Expr.irGen, OpCode.isCmp]

/-- The head of `IfNode::IRGen`: two labels, the condition, the label of the then branch. -/
def genIfHead (cond : Expr) (m : CodeGenMgr) : Gen :=
  let t := m.newLabel
  let f := m.bumpLabel.newLabel
  let c := cond.branchGen { m.bumpLabel.bumpLabel with trueTarget := t, falseTarget := f }
  ⟨.null, c.code ++ [.label t], c.mgr⟩

mutual

/-- The `IRGen` of a statement. -/
def Stmt.irGen : Stmt → CodeGenMgr → Gen
  | .empty, m => ⟨.null, [], m⟩
  | .perm p, m => ⟨.null, [.ret m.nextId p.val], m.alloc⟩
  | .ifThen cond t, m =>
    let c := genIfHead cond m
    let a := t.irGen c.mgr
    ⟨.null, c.code ++ a.code ++ [.label m.bumpLabel.newLabel], a.mgr⟩
  | .ifElse cond t e, m =>
    let c := genIfHead cond m
    let a := t.irGen c.mgr
    let out := a.mgr.newLabel
    let b := e.irGen a.mgr.bumpLabel
    ⟨.null, c.code ++ a.code ++ [.branch .INVALID .null .null out "", .label m.bumpLabel.newLabel]
      ++ b.code ++ [.label out], b.mgr⟩
  | .assign x e, m =>
    let a := e.irGen m
    ⟨.null, a.code ++ [.store a.val (.mem x)], a.mgr⟩
  | .compound ss, m => irGenAll ss m

/-- The loop of `CompoundStmtNode::IRGen`. -/
def irGenAll : List Stmt → CodeGenMgr → Gen
  | [], m => ⟨.null, [], m⟩
  | s :: ss, m =>
    let a := s.irGen m
    let b := irGenAll ss a.mgr
    ⟨.null, a.code ++ b.code, b.mgr⟩

end

/-! ## Labels -/

theorem labelText_inj {a b : Nat} : labelText a = labelText b ↔ a = b := by
  unfold labelText
  rw [String.append_right_inj, Nat.repr_inj]

/-- The label of a number above `a` and up to `b`. -/
def Fresh (a b : Nat) (l : String) : Prop := ∃ n, a < n ∧ n ≤ b ∧ l = labelText n

/-- No label with a number above `a`. -/
def Old (a : Nat) (l : String) : Prop := ∀ n, a < n → l ≠ labelText n

theorem old_labelText {a n : Nat} (h : n ≤ a) : Old a (labelText n) := by
  intro k hk e
  have := labelText_inj.mp e
  omega

theorem Old.mono {a b : Nat} {l : String} (h : Old a l) (hab : a ≤ b) : Old b l :=
  fun n hn => h n (by omega)

theorem Fresh.mono {a a' b b' : Nat} {l : String} (h : Fresh a b l) (ha : a' ≤ a) (hb : b ≤ b') :
    Fresh a' b' l := by
  obtain ⟨n, h1, h2, h3⟩ := h
  exact ⟨n, by omega, by omega, h3⟩

theorem Old.not_fresh {a b : Nat} {l : String} (h : Old a l) : ¬ Fresh a b l :=
  fun ⟨n, h1, _, h3⟩ => h n h1 h3

theorem Fresh.disjoint {a b c d : Nat} {l : String} (h : Fresh a b l) (h' : Fresh c d l)
    (hbc : b ≤ c) : False := by
  obtain ⟨n, h1, h2, rfl⟩ := h
  obtain ⟨k, h4, h5, h6⟩ := h'
  have := labelText_inj.mp h6
  omega

/-- What generating code does to the manager and which labels it defines: numbers only grow, the
stack of saved targets comes back, and the labels are new and distinct. -/
structure Emits (m : CodeGenMgr) (code : List Instruction) (m' : CodeGenMgr) : Prop where
  cnt : m.labelCnt ≤ m'.labelCnt
  ids : m.nextId ≤ m'.nextId
  saved : m'.savedBranchTarget = m.savedBranchTarget
  fresh : ∀ l ∈ irLabels code, Fresh m.labelCnt m'.labelCnt l
  nodup : (irLabels code).Nodup

namespace Emits

variable {m m₁ m₂ : CodeGenMgr} {c c' : List Instruction}

theorem nil (m : CodeGenMgr) : Emits m [] m where
  cnt := Nat.le_refl _
  ids := Nat.le_refl _
  saved := rfl
  fresh := by simp
  nodup := List.nodup_nil

theorem append (h : Emits m c m₁) (h' : Emits m₁ c' m₂) : Emits m (c ++ c') m₂ where
  cnt := Nat.le_trans h.cnt h'.cnt
  ids := Nat.le_trans h.ids h'.ids
  saved := h'.saved.trans h.saved
  fresh l hl := by
    rw [irLabels_append, List.mem_append] at hl
    rcases hl with hl | hl
    · exact (h.fresh l hl).mono (Nat.le_refl _) h'.cnt
    · exact (h'.fresh l hl).mono h.cnt (Nat.le_refl _)
  nodup := by
    rw [irLabels_append]
    refine List.nodup_append.mpr ⟨h.nodup, h'.nodup, fun a ha b hb e => ?_⟩
    exact (h.fresh a ha).disjoint (e ▸ h'.fresh b hb) (Nat.le_refl _)

/-- One instruction that defines no label. -/
theorem single {i : Instruction} (hi : i.label? = none) (hcnt : m₁.labelCnt = m.labelCnt)
    (hids : m.nextId ≤ m₁.nextId) (hsaved : m₁.savedBranchTarget = m.savedBranchTarget) :
    Emits m [i] m₁ where
  cnt := Nat.le_of_eq hcnt.symm
  ids := hids
  saved := hsaved
  fresh := by simp [irLabels, hi]
  nodup := by simp [irLabels, hi]

/-- Code from a later manager. -/
theorem weaken (h : Emits m₁ c m₂) (hcnt : m.labelCnt ≤ m₁.labelCnt) (hids : m.nextId ≤ m₁.nextId)
    (hsaved : m₁.savedBranchTarget = m.savedBranchTarget) : Emits m c m₂ where
  cnt := Nat.le_trans hcnt h.cnt
  ids := Nat.le_trans hids h.ids
  saved := h.saved.trans hsaved
  fresh l hl := (h.fresh l hl).mono hcnt (Nat.le_refl _)
  nodup := h.nodup

/-- A label the code does not define yet. -/
theorem addLabel (h : Emits m c m₂) {n : Nat} (hn : m.labelCnt < n) (hn' : n ≤ m₂.labelCnt)
    (hnot : labelText n ∉ irLabels c) : Emits m (c ++ [.label (labelText n)]) m₂ where
  cnt := h.cnt
  ids := h.ids
  saved := h.saved
  fresh l hl := by
    rw [irLabels_append, List.mem_append, irLabels_label, List.mem_singleton] at hl
    rcases hl with hl | rfl
    · exact h.fresh l hl
    · exact ⟨n, hn, hn', rfl⟩
  nodup := by
    rw [irLabels_append, irLabels_label]
    refine List.nodup_append.mpr ⟨h.nodup, List.nodup_singleton _, fun a ha b hb e => ?_⟩
    rw [List.mem_singleton.mp hb] at e
    exact hnot (e ▸ ha)

/-- A label of an earlier number is not defined. -/
theorem not_mem (h : Emits m c m₂) {l : String} (hl : Old m.labelCnt l) : l ∉ irLabels c :=
  fun hm => hl.not_fresh (h.fresh l hm)

end Emits

end SeccompPolicy
