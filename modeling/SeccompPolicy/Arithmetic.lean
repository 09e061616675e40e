import SeccompPolicy.BpfCodeGen

/-!
# What the filter computes for arithmetic

Source: the arithmetic case of `BPFCodeGen` in `code_gen.cpp`.

`BPFCodeGen` keeps the last result in `A` and moves an older one to the first scratch word.
`Expr.emitted` evaluates a tree the way the emitted opcodes do, which differs from the source in
three places:

* with an operator node as its second operand the code computes `second OP first`;
* an argument as the operand that is not in `A` is addressed with `BPF_ABS`, which in an opcode of
  `BPF_ALU` is a bit of the operation, so that another operation is applied to the argument's
  offset (`underAbs`);
* unary minus negates what `X` holds: `BPF_TAX` as a whole statement is a load of `0` into `A`.

The words of the arguments are the low halves of the registers (`SeccompData.words`): the filter
loads four bytes at `8*i` and never the upper four.

## Results

* `tree_emits`: the filters of a tree compute `Expr.emitted`, when the compiler does not stop. The
  induction is on the tree; `ComputesTree` says for a subtree which registers it needs and leaves,
  and has one lemma for each shape of node.
* `arithmetic_iff`: the code of a tree leaves its value in `A` exactly when the tree, evaluated as
  its opcodes say, has that value. Both directions, for every call and every state of the machine.
* `emitted_of_rightConstants`, `rightConstants_computed`: a chain of operators with constants on
  its right is computed as the source says.
* `maskedMode_computed`, `negatedFlags_differs`: `(mode + 2) & 3`, and `-flags & 1` of the
  source's tests.

Trees with a helper call are not the filter's business: the block that computes them is the
tracer's.
-/

namespace SeccompPolicy

open ClassicBpf

/-! ## Running filters -/

/-- Running statements one after the other; none when one of them does not go on. -/
def runStmts (d : SeccompData) : List BPFFilter → State → Option State
  | [], s => some s
  | f :: fs, s =>
    match exec d f.insn s with
    | .next s' => runStmts d fs s'
    | _ => none

theorem runStmts_append (d : SeccompData) (fs gs : List BPFFilter) (s : State) :
    runStmts d (fs ++ gs) s = (runStmts d fs s).bind (runStmts d gs) := by
  induction fs generalizing s with
  | nil => rfl
  | cons f fs ih =>
    rw [List.cons_append, runStmts, runStmts]
    cases exec d f.insn s <;> first | exact ih _ | rfl

/-- The ten binary operators of numbers. -/
def OpCode.isWordOp : OpCode → Bool
  | .PLUS | .MINUS | .MULT | .DIV | .MOD | .BITAND | .BITOR | .BITXOR | .SHL | .SHR => true
  | _ => false

/-- What the machine computes for an operator, if it goes on. -/
def OpCode.machine (op : OpCode) (a b : Word) : Option Word :=
  match op with
  | .PLUS => some (a + b)
  | .MINUS => some (a - b)
  | .MULT => some (a * b)
  | .DIV => if b = 0 then none else some (a / b)
  | .MOD => if b = 0 then none else some (a % b)
  | .BITAND => some (a &&& b)
  | .BITOR => some (a ||| b)
  | .BITXOR => some (a ^^^ b)
  | .SHL => some (a <<< (b &&& 31))
  | .SHR => some (a >>> (b &&& 31))
  | _ => none

/-- The operator whose opcode an opcode becomes with `BPF_ABS` in it. -/
def OpCode.underAbs : OpCode → Option OpCode
  | .PLUS | .MULT => some .MULT
  | .MINUS | .DIV => some .DIV
  | .BITOR | .SHL => some .SHL
  | .BITAND | .SHR => some .SHR
  | .BITXOR => some .BITXOR
  | _ => none

/-- `BPF_ALU` with a constant. -/
theorem runStmts_aluK {op : OpCode} (hop : op.isWordOp = true) (d : SeccompData) (k : KField)
    (fs : List BPFFilter) (s : State) :
    runStmts d (.stmt [.ALU, bpfOpcode op, .K] k :: fs) s =
      (op.machine s.A k.val).bind fun w => runStmts d fs { s with A := w } := by
  rw [runStmts, BPFFilter.insn]
  cases op <;> simp only [OpCode.isWordOp, Bool.false_eq_true] at hop <;>
    simp [exec, alu, opcodeVal, bpfOpcode, BPFConst.val, OpCode.machine]
  all_goals split_ifs <;> rfl

/-- `BPF_ALU` with an argument: the opcode is that of another operation on a constant. -/
theorem runStmts_aluAbs {op : OpCode} (hop : op.isWordOp = true) (d : SeccompData) (k : KField)
    (fs : List BPFFilter) (s : State) :
    runStmts d (.stmt [.ALU, bpfOpcode op, .ABS] k :: fs) s =
      (op.underAbs.bind fun op => op.machine s.A k.val).bind fun w =>
        runStmts d fs { s with A := w } := by
  rw [runStmts, BPFFilter.insn]
  cases op <;> simp only [OpCode.isWordOp, Bool.false_eq_true] at hop <;>
    simp [exec, alu, opcodeVal, bpfOpcode, BPFConst.val, OpCode.machine, OpCode.underAbs]
  all_goals split_ifs <;> rfl

/-- `BPF_ALU` with `X`. -/
theorem runStmts_aluX {op : OpCode} (hop : op.isWordOp = true) (d : SeccompData)
    (fs : List BPFFilter) (s : State) :
    runStmts d (.stmt [.ALU, .X, bpfOpcode op] .empty :: fs) s =
      (op.machine s.A s.X).bind fun w => runStmts d fs { s with A := w } := by
  rw [runStmts, BPFFilter.insn]
  cases op <;> simp only [OpCode.isWordOp, Bool.false_eq_true] at hop <;>
    simp [exec, alu, opcodeVal, bpfOpcode, BPFConst.val, OpCode.machine]
  all_goals split_ifs <;> rfl

theorem argIndex_lt_six {args : List String} (h : args.length ≤ 6) (x : String) :
    argIndex args x < 6 := by
  cases args with
  | nil => exact Nat.zero_lt_succ 5
  | cons a args => exact Nat.lt_of_lt_of_le (argIndex_lt (List.cons_ne_nil a args) x) h

/-- The words of the arguments, as the filter loads them: of each register the low 32 bits. The upper
half of an argument is never looked at. -/
def SeccompData.words (args : List String) (d : SeccompData) (x : String) : Word :=
  (d.arg (argIndex args x)).setWidth 32

theorem runStmts_loadArg {args : List String} {x : String} (hx : argIndex args x < 6)
    (d : SeccompData) (fs : List BPFFilter) (s : State) :
    runStmts d (.stmt [.LD, .W, .ABS] (.argOffset (argIndex args x)) :: fs) s =
      runStmts d fs { s with A := SeccompData.words args d x } := by
  have hexec : exec d (BPFFilter.stmt [.LD, .W, .ABS] (.argOffset (argIndex args x))).insn s =
      .next { s with A := SeccompData.words args d x } :=
    exec_load (load_argument d hx) _ _ s
  rw [runStmts, hexec]

/-! ## The tree as the filter evaluates it -/

/-- A number without helper calls. -/
def Expr.isTree : Expr → Bool
  | .ref _ | .value _ => true
  | .op1 op e => decide (op = .UMINUS) && e.isTree
  | .op2 op l r => op.isWordOp && l.isTree && r.isTree
  | .inv _ _ => false

/-- An argument or a constant. -/
def Expr.isLeaf : Expr → Bool
  | .ref _ | .value _ => true
  | _ => false

/-- Both operands of a node in the tree are operator nodes. -/
def Expr.joins : Expr → Bool
  | .op1 _ e => e.joins
  | .op2 _ l r => (!l.isLeaf && !r.isLeaf) || l.joins || r.joins
  | _ => false

/-- The value of a tree, in words of 32 bits. -/
def Expr.wordValue (arg : String → Word) : Expr → Word
  | .ref x => arg x
  | .value n => BitVec.ofInt 32 n
  | .op1 _ e => -e.wordValue arg
  | .op2 op l r => words32.arith op (l.wordValue arg) (r.wordValue arg)
  | .inv _ _ => 0

/-- It is the value the source gives it. -/
theorem eval_tree (h : Helpers Word) (e : Expr) (he : e.isTree = true) (σ : Env Word) :
    e.eval words32 h σ = (e.wordValue σ.args, σ) := by
  induction e with
  | ref x => rfl
  | value n => rfl
  | inv f ps => cases he
  | op1 op e ih =>
    simp only [Expr.isTree, Bool.and_eq_true] at he
    simp only [Expr.eval, ih he.2, Expr.wordValue]
    rfl
  | op2 op l r ihl ihr =>
    simp only [Expr.isTree, Bool.and_eq_true] at he
    simp only [Expr.eval, ihl he.1.2, ihr he.2, Expr.wordValue]

/-- An operator applied to `A` and a leaf. -/
def leafOperand (args : List String) (op : OpCode) (a : Word) : Expr → Option Word
  | .ref x => op.underAbs.bind fun op => op.machine a (KField.argOffset (argIndex args x)).val
  | .value n => op.machine a (BitVec.ofInt 32 n)
  | _ => none

/-- What the emitted code leaves in `A` and in `X`, which holds `X` before; none when it stops. -/
def Expr.emitted (args : List String) (arg : String → Word) : Expr → Word → Option (Word × Word)
  | .ref x, X => some (arg x, X)
  | .value n, X => some (BitVec.ofInt 32 n, X)
  | .op1 _ e, X => (e.emitted args arg X).map fun q => (-q.2, q.2)
  | .op2 op l r, X =>
    if r.isLeaf then
      (l.emitted args arg X).bind fun q => (leafOperand args op q.1 r).map fun w => (w, q.2)
    else if l.isLeaf then
      (r.emitted args arg X).bind fun q => (leafOperand args op q.1 l).map fun w => (w, q.2)
    else
      (l.emitted args arg X).bind fun q => (r.emitted args arg q.2).bind fun q' =>
        (op.machine q'.1 q.1).map fun w => (w, q.1)
  | .inv _ _, _ => none

/-! ## The loop with its registers -/

/-- The loop of `BPFCodeGen`, with `A_val` and `M0_val` at its end. -/
def genFiltersTo (gl : RetGlobals) (args : List String) : BPFRegs → List Instruction →
    Option (List BPFFilter × BPFRegs)
  | r, [] => some ([], r)
  | r, i :: code =>
    (genInst gl args r i).bind fun g => (genFiltersTo gl args g.2 code).map fun q =>
      (g.1 ++ q.1, q.2)

theorem genFilters_eq (gl : RetGlobals) (args : List String) (r : BPFRegs)
    (code : List Instruction) :
    genFilters gl args r code = (genFiltersTo gl args r code).map Prod.fst := by
  induction code generalizing r with
  | nil => rfl
  | cons i code ih =>
    rw [genFilters, genFiltersTo]
    cases genInst gl args r i with
    | none => rfl
    | some g =>
      simp only [Option.bind_some, ih, Option.map_map]
      rfl

theorem genFiltersTo_append {gl : RetGlobals} {args : List String} {code code' : List Instruction}
    {r r' : BPFRegs} {fs : List BPFFilter}
    (h : genFiltersTo gl args r (code ++ code') = some (fs, r')) : ∃ f₁ r₁ f₂,
      genFiltersTo gl args r code = some (f₁, r₁) ∧
      genFiltersTo gl args r₁ code' = some (f₂, r') ∧ fs = f₁ ++ f₂ := by
  induction code generalizing r fs with
  | nil => exact ⟨[], r, fs, rfl, h, rfl⟩
  | cons i code ih =>
    obtain ⟨g, hg, h⟩ := Option.bind_eq_some_iff.mp h
    obtain ⟨⟨q, rq⟩, hq, he⟩ := Option.map_eq_some_iff.mp h
    obtain ⟨rfl, rfl⟩ := Prod.mk.inj he
    obtain ⟨f₁, r₁, f₂, h₁, h₂, rfl⟩ := ih hq
    refine ⟨g.1 ++ f₁, r₁, f₂, ?_, h₂, (List.append_assoc ..).symm⟩
    rw [genFiltersTo, hg, Option.bind_some, h₁]
    rfl

theorem genFiltersTo_single {gl : RetGlobals} {args : List String} {i : Instruction}
    {r r' : BPFRegs} {fs : List BPFFilter} (h : genFiltersTo gl args r [i] = some (fs, r')) :
    genInst gl args r i = some (fs, r') := by
  obtain ⟨g, hg, h⟩ := Option.bind_eq_some_iff.mp h
  obtain ⟨q, hq, he⟩ := Option.map_eq_some_iff.mp h
  obtain rfl := Option.some.inj hq
  obtain ⟨rfl, rfl⟩ := Prod.mk.inj he
  rw [hg, List.append_nil]

/-! ## One node -/

/-- The `IRValue` of a leaf. -/
def Expr.leafVal : Expr → IRValue
  | .ref x => .mem x
  | .value n => .imm n
  | _ => .null

theorem leafVal_spec {e : Expr} (he : e.isLeaf = true) :
    e.leafVal.isInstruction = false ∧ e.leafVal ≠ .null := by
  cases e <;> first | exact ⟨rfl, IRValue.noConfusion⟩ | simp [Expr.isLeaf] at he

theorem irGen_wordOp {op : OpCode} (hop : op.isWordOp = true) (l r : Expr) (m : CodeGenMgr) :
    (Expr.op2 op l r).irGen m = genBinary op l.irGen r.irGen m :=
  irGen_binary (by cases op <;> first | rfl | cases hop) l r m

/-- The value of an operator node is the instruction that computes it. -/
theorem irGen_tree {e : Expr} (he : e.isTree = true) (hl : e.isLeaf = false) (m : CodeGenMgr) :
    (e.irGen m).val.isInstruction = true ∧ (e.irGen m).val ≠ .null := by
  cases e with
  | ref x => cases hl
  | value n => cases hl
  | inv f ps => cases he
  | op1 op e =>
    simp only [Expr.isTree, Bool.and_eq_true, decide_eq_true_eq] at he
    obtain ⟨rfl, -⟩ := he
    exact ⟨rfl, IRValue.noConfusion⟩
  | op2 op l r =>
    simp only [Expr.isTree, Bool.and_eq_true] at he
    rw [irGen_wordOp he.1.1]
    exact ⟨rfl, IRValue.noConfusion⟩

theorem emitted_leaf {e : Expr} (he : e.isLeaf = true) (args : List String) (arg : String → Word)
    (X : Word) : e.emitted args arg X = some (e.wordValue arg, X) := by
  cases e <;> first | rfl | cases he

theorem joins_leaf {e : Expr} (he : e.isLeaf = true) : e.joins = false := by
  cases e <;> first | rfl | cases he

/-- `A_val` and `M0_val` when an older result has been moved away. -/
def BPFRegs.spilled (r : BPFRegs) : BPFRegs := if r.aVal = .null then r else ⟨.null, r.aVal⟩

/-- The first scratch word then. -/
def BPFRegs.scratch (r : BPFRegs) (s : State) : Word := if r.aVal = .null then s.M 0 else s.A

/-- `A_val` names an instruction, if anything. -/
def BPFRegs.Holds (r : BPFRegs) : Prop := r.aVal = .null ∨ r.aVal.isInstruction = true

/-- The filters compute the tree in `A`, from the registers `r` on, and leave `m0` in `M0_val`. -/
structure ComputesTree (args : List String) (d : SeccompData) (e : Expr) (r : BPFRegs)
    (fs : List BPFFilter) (m0 : IRValue) : Prop where
  m0Val : m0 = if e.joins then .null else r.spilled.m0Val
  runs : ∀ s, (runStmts d fs s).map (fun t => (t.A, t.X)) =
    e.emitted args (SeccompData.words args d) s.X
  scratch : ∀ s t, runStmts d fs s = some t → e.joins = false → t.M 0 = r.scratch s

section Node

variable {args : List String} {d : SeccompData} {e l x : Expr} {op : OpCode} {r r₁ : BPFRegs}
  {fs gs : List BPFFilter} {m0 : IRValue}

/-- A leaf as the operand that is not in `A`. -/
theorem runStmts_leaf (hop : op.isWordOp = true) (hx : x.isLeaf = true) (fs : List BPFFilter)
    (s : State) : runStmts d (.stmt [.ALU, bpfOpcode op, getAddressMode x.leafVal]
      (genKField args x.leafVal) :: fs) s =
      (leafOperand args op s.A x).bind fun w => runStmts d fs { s with A := w } := by
  cases x with
  | ref y => exact runStmts_aluAbs hop d _ fs s
  | value n => exact runStmts_aluK hop d _ fs s
  | _ => cases hx

/-- A leaf is loaded into `A`. -/
theorem runStmts_load (hargs : ∀ y, argIndex args y < 6) (hx : x.isLeaf = true)
    (fs : List BPFFilter) (s : State) : runStmts d (loadArgumentOrInt args x.leafVal ++ fs) s =
      runStmts d fs { s with A := x.wordValue (SeccompData.words args d) } := by
  cases x with
  | ref y => exact runStmts_loadArg (hargs y) d fs s
  | value n => rfl
  | _ => cases hx

/-- `BPF_TAX` is no instruction of its own: its number is that of a load of `0` into `A`. -/
theorem runStmts_minus (s : State) : runStmts d [.stmt [.TAX] .empty,
      .stmt [.LD, .W, .K] (.int 0), .stmt [.ALU, .SUB, .X] .empty] s =
    some { s with A := -s.X } := by
  simp [runStmts, BPFFilter.insn, exec, alu, opcodeVal, BPFConst.val, KField.val]

/-- Unary minus negates `X`. -/
theorem ComputesTree.minus (h : ComputesTree args d e r fs m0) :
    ComputesTree args d (.op1 op e) r (fs ++ [.stmt [.TAX] .empty, .stmt [.LD, .W, .K] (.int 0),
      .stmt [.ALU, .SUB, .X] .empty]) m0 where
  m0Val := h.m0Val
  runs s := by
    rw [runStmts_append, Expr.emitted, ← h.runs s]
    cases runStmts d fs s with
    | none => rfl
    | some t => rw [Option.bind_some, runStmts_minus]; rfl
  scratch s t ht hj := by
    rw [runStmts_append] at ht
    obtain ⟨t₁, ht₁, ht⟩ := Option.bind_eq_some_iff.mp ht
    rw [runStmts_minus] at ht
    obtain rfl := Option.some.inj ht
    exact h.scratch s t₁ ht₁ hj

/-- The tree in `A`, and a leaf: the leaf is taken as the second operand. -/
theorem ComputesTree.withLeaf (hop : op.isWordOp = true) (h : ComputesTree args d e r fs m0)
    (hx : x.isLeaf = true) {node : Expr} (hjoins : node.joins = e.joins)
    (hnode : ∀ X, node.emitted args (SeccompData.words args d) X =
      (e.emitted args (SeccompData.words args d) X).bind fun q =>
        (leafOperand args op q.1 x).map fun w => (w, q.2)) :
    ComputesTree args d node r (fs ++ [.stmt [.ALU, bpfOpcode op, getAddressMode x.leafVal]
      (genKField args x.leafVal)]) m0 where
  m0Val := by rw [hjoins]; exact h.m0Val
  runs s := by
    rw [runStmts_append, hnode, ← h.runs s]
    cases runStmts d fs s with
    | none => rfl
    | some t =>
      rw [Option.bind_some, runStmts_leaf hop hx, Option.map_some, Option.bind_some]
      cases leafOperand args op t.A x <;> rfl
  scratch s t ht hj := by
    rw [runStmts_append] at ht
    obtain ⟨t₁, ht₁, ht⟩ := Option.bind_eq_some_iff.mp ht
    rw [runStmts_leaf hop hx] at ht
    obtain ⟨w, -, ht⟩ := Option.bind_eq_some_iff.mp ht
    obtain rfl := Option.some.inj ht
    exact h.scratch s t₁ ht₁ (hjoins ▸ hj)

/-- Two operator nodes: the second one is in `A`, the first one comes back from the scratch word. -/
theorem ComputesTree.join (hop : op.isWordOp = true) (hl : ComputesTree args d l r fs m0)
    {m0' : IRValue} (hx : ComputesTree args d x r₁ gs m0') (haVal : r₁.aVal ≠ .null)
    (hleaf : l.isLeaf = false ∧ x.isLeaf = false) (hj : x.joins = false) :
    ComputesTree args d (.op2 op l x) r (fs ++ gs ++ [.stmt [.LDX, .MEM, .W] (.int 0),
      .stmt [.ALU, .X, bpfOpcode op] .empty]) .null where
  m0Val := by simp [Expr.joins, hleaf]
  runs s := by
    rw [runStmts_append, runStmts_append, Expr.emitted, hleaf.1, hleaf.2]
    simp only [Bool.false_eq_true, if_false]
    rw [← hl.runs s]
    cases h₁ : runStmts d fs s with
    | none => rfl
    | some t =>
      simp only [Option.bind_some, Option.map_some]
      rw [← hx.runs t]
      cases h₂ : runStmts d gs t with
      | none => rfl
      | some t' =>
        have hM : t'.M 0 = t.A := by
          rw [hx.scratch t t' h₂ hj, BPFRegs.scratch, if_neg haVal]
        have hload : ∀ fs, runStmts d (.stmt [.LDX, .MEM, .W] (.int 0) :: fs) t' =
            runStmts d fs { t' with X := t.A } := by
          intro fs
          rw [← hM]
          rfl
        simp only [Option.bind_some, Option.map_some]
        rw [hload, runStmts_aluX hop]
        cases op.machine t'.A t.A <;> rfl
  scratch s t _ hj' := by simp [Expr.joins, hleaf] at hj'

/-- A leaf loaded after an older result has been moved away. -/
theorem ComputesTree.leaf (hargs : ∀ y, argIndex args y < 6) (hr : r.Holds) (hx : x.isLeaf = true)
    {v : IRValue} (hv : v.isInstruction = false) :
    ComputesTree args d x r ((spill r x.leafVal v).1 ++ loadArgumentOrInt args x.leafVal)
      (spill r x.leafVal v).2.m0Val := by
  have hload := runStmts_load (d := d) hargs hx []
  simp only [List.append_nil] at hload
  rcases hr with hr | hr
  · have hspill : spill r x.leafVal v = ([], r) := if_neg fun h => h.1 hr
    rw [hspill, List.nil_append]
    refine ⟨?_, fun s => ?_, fun s t ht _ => ?_⟩
    · rw [joins_leaf hx, BPFRegs.spilled, if_pos hr]
      rfl
    · rw [hload, emitted_leaf hx]
      rfl
    · rw [hload] at ht
      obtain rfl := Option.some.inj ht
      rw [BPFRegs.scratch, if_pos hr]
  · have hnull : r.aVal ≠ .null := by
      intro h
      rw [h] at hr
      cases hr
    have hne : ∀ w : IRValue, w.isInstruction = false → r.aVal ≠ w := by
      rintro w hw rfl
      rw [hr] at hw
      cases hw
    have hspill : spill r x.leafVal v = ([.stmt [.ST, .W] (.int 0)], ⟨.null, r.aVal⟩) :=
      if_pos ⟨hnull, hne _ (leafVal_spec hx).1, hne _ hv⟩
    have hstore : ∀ fs s, runStmts d (.stmt [.ST, .W] (.int 0) :: fs) s =
        runStmts d fs { s with M := Function.update s.M 0 s.A } := fun fs s => rfl
    rw [hspill, List.singleton_append]
    refine ⟨?_, fun s => ?_, fun s t ht _ => ?_⟩
    · rw [joins_leaf hx, BPFRegs.spilled, if_neg hnull]
      rfl
    · rw [hstore, hload, emitted_leaf hx]
      rfl
    · rw [hstore, hload] at ht
      obtain rfl := Option.some.inj ht
      rw [BPFRegs.scratch, if_neg hnull]
      exact Function.update_self 0 s.A s.M

/-! ## The whole tree -/

variable {gl : RetGlobals} {m : CodeGenMgr} {r' : BPFRegs}

theorem spill_left {v w : IRValue} (h : r.aVal = v) : spill r v w = ([], r) :=
  if_neg fun hne => hne.2.1 h

theorem spill_right {v w : IRValue} (h : r.aVal = w) : spill r v w = ([], r) :=
  if_neg fun hne => hne.2.2 h

theorem genInst_arith {id : Nat} {v w : IRValue}
    (h : genInst gl args r (.arith id op v w) = some (fs, r')) : ∃ g,
      genArith args (spill r v w).2.m0Val op v w = some g ∧ fs = (spill r v w).1 ++ g.1 ∧
      r' = ⟨.arith id op v w, g.2⟩ := by
  obtain ⟨g, hg, he⟩ := Option.map_eq_some_iff.mp h
  obtain ⟨rfl, rfl⟩ := Prod.mk.inj he
  exact ⟨g, hg, rfl, rfl⟩

/-- After the code of an operand: a leaf has none; a tree is in `A`. -/
structure Operand (gl : RetGlobals) (args : List String) (d : SeccompData) (e : Expr)
    (v : IRValue) (r r' : BPFRegs) (fs : List BPFFilter) : Prop where
  leaf : e.isLeaf = true → v = e.leafVal ∧ fs = [] ∧ r' = r
  tree : e.isLeaf = false → v.isInstruction = true ∧ r'.aVal = v ∧
    ComputesTree args d e r fs r'.m0Val

theorem Operand.holds {v : IRValue} (h : Operand gl args d e v r r' fs) (hr : r.Holds) :
    r'.Holds := by
  cases he : e.isLeaf with
  | true => rw [(h.leaf he).2.2]; exact hr
  | false =>
    obtain ⟨hv, haVal, -⟩ := h.tree he
    exact .inr (haVal ▸ hv)

/-- Unary minus of an operand. -/
theorem Operand.minus (hargs : ∀ y, argIndex args y < 6) (hr : r.Holds) {v : IRValue}
    (h : Operand gl args d e v r r₁ fs) {id : Nat}
    (hg : genInst gl args r₁ (.arith id .UMINUS v .null) = some (gs, r')) :
    ComputesTree args d (.op1 .UMINUS e) r (fs ++ gs) r'.m0Val := by
  obtain ⟨g, hga, rfl, rfl⟩ := genInst_arith hg
  clear hg
  cases he : e.isLeaf with
  | true =>
    obtain ⟨rfl, rfl, rfl⟩ := h.leaf he
    obtain ⟨hv, hnull⟩ := leafVal_spec he
    simp only [genArith, hnull, hv, if_false, if_true, Bool.false_eq_true] at hga
    obtain rfl := Option.some.inj hga
    rw [List.nil_append, ← List.append_assoc]
    exact (ComputesTree.leaf hargs hr he rfl).minus
  | false =>
    obtain ⟨hv, haVal, hc⟩ := h.tree he
    have hnull : v ≠ .null := by
      rintro rfl
      cases hv
    simp only [genArith, hnull, hv, if_false, if_true, List.nil_append] at hga
    obtain rfl := Option.some.inj hga
    rw [spill_left haVal]
    exact hc.minus

/-- A binary operator, by which of its operands are leaves. -/
theorem Operand.binary (hargs : ∀ y, argIndex args y < 6) (hr : r.Holds) (hop : op.isWordOp = true)
    {v w : IRValue} {fs' : List BPFFilter} {r₂ : BPFRegs} (hl : Operand gl args d l v r r₁ fs)
    (hx : Operand gl args d x w r₁ r₂ fs') {id : Nat}
    (hg : genInst gl args r₂ (.arith id op v w) = some (gs, r')) :
    ComputesTree args d (.op2 op l x) r (fs ++ fs' ++ gs) r'.m0Val := by
  obtain ⟨g, hga, rfl, rfl⟩ := genInst_arith hg
  clear hg
  have hnull : ∀ {v : IRValue}, v.isInstruction = true → v ≠ .null := by
    rintro _ hv rfl
    cases hv
  cases hxl : x.isLeaf with
  | true =>
    -- the second operand is named by the instruction, the first one is in `A`
    obtain ⟨rfl, rfl, rfl⟩ := hx.leaf hxl
    obtain ⟨hw, hwnull⟩ := leafVal_spec hxl
    have hnode : ∀ X, (Expr.op2 op l x).emitted args (SeccompData.words args d) X =
        (l.emitted args (SeccompData.words args d) X).bind fun q =>
          (leafOperand args op q.1 x).map fun w => (w, q.2) := fun X => by
      rw [Expr.emitted, if_pos hxl]
    have hjoins : (Expr.op2 op l x).joins = l.joins := by simp [Expr.joins, hxl, joins_leaf hxl]
    cases hll : l.isLeaf with
    | true =>
      obtain ⟨rfl, rfl, rfl⟩ := hl.leaf hll
      obtain ⟨hv, hvnull⟩ := leafVal_spec hll
      simp only [genArith, hvnull, hwnull, hv, hw, if_false, Bool.false_eq_true, and_self] at hga
      obtain rfl := Option.some.inj hga
      rw [List.append_nil, List.nil_append, ← List.append_assoc]
      exact (ComputesTree.leaf hargs hr hll hw).withLeaf hop hxl hjoins hnode
    | false =>
      obtain ⟨hv, haVal, hc⟩ := hl.tree hll
      simp only [genArith, hnull hv, hwnull, hv, hw, if_false, Bool.false_eq_true, and_false,
        if_true] at hga
      obtain rfl := Option.some.inj hga
      rw [spill_left haVal, List.append_nil]
      exact hc.withLeaf hop hxl hjoins hnode
  | false =>
    obtain ⟨hw, haVal, hc⟩ := hx.tree hxl
    rw [spill_right haVal] at hga ⊢
    cases hll : l.isLeaf with
    | true =>
      -- the operands are swapped
      obtain ⟨rfl, rfl, rfl⟩ := hl.leaf hll
      obtain ⟨hv, hvnull⟩ := leafVal_spec hll
      simp only [genArith, hvnull, hnull hw, hv, hw, if_false, Bool.false_eq_true, false_and,
        if_true] at hga
      obtain rfl := Option.some.inj hga
      refine hc.withLeaf hop hll (by simp [Expr.joins, hll, joins_leaf hll]) fun X => ?_
      rw [Expr.emitted, if_neg (by simp [hxl]), if_pos hll]
    | false =>
      obtain ⟨hv, hlVal, hlc⟩ := hl.tree hll
      have haNull : r₁.aVal ≠ .null := hlVal ▸ hnull hv
      have hm0 := hc.m0Val
      rw [BPFRegs.spilled, if_neg haNull] at hm0
      cases hj : x.joins with
      | true =>
        -- the scratch word holds neither operand: the compiler stops
        rw [if_pos hj] at hm0
        simp [genArith, hnull hv, hnull hw, hv, hw, hm0] at hga
      | false =>
        rw [if_neg (by simp [hj]), hlVal] at hm0
        simp only [genArith, hnull hv, hnull hw, hv, hw, hm0, if_false, if_true, and_self,
          true_or] at hga
        obtain rfl := Option.some.inj hga
        exact hlc.join hop hc haNull ⟨hll, hxl⟩ hj

/-- **The filters of a tree compute `Expr.emitted`**, when the compiler does not stop. -/
theorem tree_emits (hargs : ∀ y, argIndex args y < 6) (he : e.isTree = true) (hr : r.Holds)
    (hg : genFiltersTo gl args r (e.irGen m).code = some (fs, r')) :
    Operand gl args d e (e.irGen m).val r r' fs := by
  induction e generalizing m r r' fs with
  | inv f ps => cases he
  | ref y =>
    obtain ⟨rfl, rfl⟩ := Prod.mk.inj (Option.some.inj hg)
    exact ⟨fun _ => ⟨rfl, rfl, rfl⟩, fun h => by cases h⟩
  | value n =>
    obtain ⟨rfl, rfl⟩ := Prod.mk.inj (Option.some.inj hg)
    exact ⟨fun _ => ⟨rfl, rfl, rfl⟩, fun h => by cases h⟩
  | op1 op e ih =>
    obtain ⟨hval, -⟩ := irGen_tree he rfl m
    simp only [Expr.isTree, Bool.and_eq_true, decide_eq_true_eq] at he
    obtain ⟨rfl, he⟩ := he
    obtain ⟨f₁, r₁, f₂, h₁, h₂, rfl⟩ := genFiltersTo_append hg
    have hinst := genFiltersTo_single h₂
    obtain ⟨g, -, -, rfl⟩ := genInst_arith hinst
    exact ⟨fun h => (Bool.false_ne_true h).elim, fun _ => ⟨hval, rfl,
      (ih he hr h₁).minus hargs hr hinst⟩⟩
  | op2 op l x ihl ihx =>
    obtain ⟨hval, -⟩ := irGen_tree he rfl m
    simp only [Expr.isTree, Bool.and_eq_true] at he
    rw [irGen_wordOp he.1.1] at hg hval ⊢
    obtain ⟨f₁₂, r₂, f₃, h₁₂, h₃, rfl⟩ := genFiltersTo_append hg
    obtain ⟨f₁, r₁, f₂, h₁, h₂, rfl⟩ := genFiltersTo_append h₁₂
    have hl := ihl (m := m) he.1.2 hr h₁
    have hinst := genFiltersTo_single h₃
    obtain ⟨g, -, -, rfl⟩ := genInst_arith hinst
    exact ⟨fun h => (Bool.false_ne_true h).elim, fun _ => ⟨hval, rfl,
      hl.binary hargs hr he.1.1 (ihx he.2 (hl.holds hr) h₂) hinst⟩⟩

end Node

/-- What is in `A` after the code of a tree, from `A` and `X` on: a leaf has no code. -/
def Expr.leftInA (args : List String) (arg : String → Word) (e : Expr) (A X : Word) :
    Option Word :=
  if e.isLeaf then some A else (e.emitted args arg X).map Prod.fst

/-- What the code of a tree leaves in `A`. -/
theorem runStmts_tree {gl : RetGlobals} {args : List String} (hargs : args.length ≤ 6) {e : Expr}
    (he : e.isTree = true) {m : CodeGenMgr} {l : String} {fs : List BPFFilter}
    (hg : bpfCodeGen gl args (.label l :: (e.irGen m).code) = some fs) (d : SeccompData)
    (s : State) :
    (runStmts d fs s).map (·.A) = e.leftInA args (SeccompData.words args d) s.A s.X := by
  rw [bpfCodeGen, List.tail_cons, genFilters_eq] at hg
  obtain ⟨⟨fs, r'⟩, hg', rfl⟩ := Option.map_eq_some_iff.mp hg
  have hop := tree_emits (d := d) (argIndex_lt_six hargs) he (.inl rfl) hg'
  rw [Expr.leftInA]
  cases hl : e.isLeaf with
  | true =>
    rw [(hop.leaf hl).2.1]
    rfl
  | false =>
    have hruns := (hop.tree hl).2.2.runs s
    rw [if_neg Bool.false_ne_true, ← hruns, Option.map_map]
    rfl

/-- **The code of a tree leaves its value in `A` exactly when the tree, evaluated as its opcodes
say, has that value.** -/
theorem arithmetic_iff {gl : RetGlobals} {args : List String} (hargs : args.length ≤ 6) {e : Expr}
    (he : e.isTree = true) {m : CodeGenMgr} {l : String} {fs : List BPFFilter}
    (hg : bpfCodeGen gl args (.label l :: (e.irGen m).code) = some fs) (d : SeccompData)
    (s : State) :
    (∃ s', runStmts d fs s = some s' ∧ s'.A = e.wordValue (SeccompData.words args d)) ↔
      e.leftInA args (SeccompData.words args d) s.A s.X =
        some (e.wordValue (SeccompData.words args d)) := by
  rw [← runStmts_tree hargs he hg, Option.map_eq_some_iff]

/-- The arguments of `open`, and the tree `(mode + 2) & 3`. -/
def openArgs : List String := ["name", "flags", "mode"]

def maskedMode : Expr := .op2 .BITAND (.op2 .PLUS (.ref "mode") (.value 2)) (.value 3)

/-- A call of `open` with `flags` and `mode` one. -/
def openCall : SeccompData := ⟨2, 0xc000003e, 0, fun i => if i = 0 then 0 else 1⟩

theorem maskedMode_computed : ∃ s', runStmts openCall [.stmt [.LD, .W, .ABS] (.argOffset 2),
      .stmt [.ALU, .ADD, .K] (.int 2), .stmt [.ALU, .AND, .K] (.int 3)] {} = some s' ∧
    s'.A = maskedMode.wordValue (SeccompData.words openArgs openCall) :=
  have hcode : bpfCodeGen (.initial 1) openArgs (.label "open" :: (maskedMode.irGen {}).code) =
      some _ := rfl
  (arithmetic_iff (by decide) rfl hcode openCall {}).mpr rfl

/-- `-flags & 1`, as in the source's tests. -/
def negatedFlags : Expr := .op2 .BITAND (.op1 .UMINUS (.ref "flags")) (.value 1)

/-- With `flags` one the tree is one; the code leaves zero. -/
theorem negatedFlags_differs : negatedFlags.wordValue (SeccompData.words openArgs openCall) = 1 ∧
    ∃ fs s', bpfCodeGen (.initial 1) openArgs (.label "open" :: (negatedFlags.irGen {}).code) =
        some fs ∧
      runStmts openCall fs {} = some s' ∧ s'.A = 0 :=
  ⟨rfl, _, _, rfl, rfl, rfl⟩

/-! ## Trees that are computed right -/

/-- The operator with this constant stays within the machine's division and shifts. -/
def OpCode.admits (op : OpCode) (n : Int) : Bool :=
  match op with
  | .DIV | .MOD => decide (BitVec.ofInt 32 n ≠ 0)
  | .SHL | .SHR => decide (BitVec.ofInt 32 n < 32)
  | _ => true

/-- A chain of operators on an argument or a constant, each with a constant on its right. -/
def Expr.rightConstants : Expr → Bool
  | .ref _ | .value _ => true
  | .op2 op l (.value n) => op.isWordOp && op.admits n && l.rightConstants
  | _ => false

theorem and_thirtyOne {b : Word} (hb : b < 32) : b &&& 31 = b := by
  refine BitVec.eq_of_toNat_eq ?_
  rw [BitVec.toNat_and]
  exact (Nat.and_two_pow_sub_one_eq_mod b.toNat 5).trans (Nat.mod_eq_of_lt hb)

theorem machine_admits {op : OpCode} (hop : op.isWordOp = true) {n : Int} (hn : op.admits n = true)
    (a : Word) :
    op.machine a (BitVec.ofInt 32 n) = some (words32.arith op a (BitVec.ofInt 32 n)) := by
  cases op <;> first | rfl | cases hop
  all_goals simp only [OpCode.admits, decide_eq_true_eq] at hn
  · exact if_neg hn
  · exact if_neg hn
  all_goals simp only [OpCode.machine, words32, and_thirtyOne hn]

/-- **A chain with constants on the right is computed as the source says.** -/
theorem emitted_of_rightConstants {args : List String} {arg : String → Word} {e : Expr}
    (he : e.rightConstants = true) (X : Word) :
    e.emitted args arg X = some (e.wordValue arg, X) := by
  induction e with
  | ref x => rfl
  | value n => rfl
  | inv f ps => cases he
  | op1 op e => cases he
  | op2 op l x ih _ =>
    cases x with
    | value n =>
      simp only [Expr.rightConstants, Bool.and_eq_true] at he
      have hx : (Expr.value n).isLeaf = true := rfl
      rw [Expr.emitted, if_pos hx, ih he.2, Option.bind_some, leafOperand,
        machine_admits he.1.1 he.1.2]
      rfl
    | _ => simp [Expr.rightConstants] at he

/-- The code of such a chain. -/
theorem rightConstants_computed {gl : RetGlobals} {args : List String} (hargs : args.length ≤ 6)
    {e : Expr} (ht : e.isTree = true) (hl : e.isLeaf = false) (he : e.rightConstants = true)
    {m : CodeGenMgr} {l : String} {fs : List BPFFilter}
    (hg : bpfCodeGen gl args (.label l :: (e.irGen m).code) = some fs) (d : SeccompData)
    (s : State) : (runStmts d fs s).map (·.A) = some (e.wordValue (SeccompData.words args d)) := by
  rw [runStmts_tree hargs ht hg, Expr.leftInA, if_neg (by simp [hl]), emitted_of_rightConstants he]
  rfl

end SeccompPolicy
