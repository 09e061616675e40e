import SeccompPolicy.Assignments
import SeccompPolicy.BpfIRCorrect
import SeccompPolicy.Linking
import SeccompPolicy.Operands
import SeccompPolicy.Printed

/-!
# The lifted code against the CFG

Source: `IRLifter::GenCode` and `IRLifter::GenBasicBlockCode` of `IR_lifter.cpp`.

`GenPtraceCode` counts the branches to a block, not the blocks that fall through to it. A block in
an arm of an `if` that ends without a branch goes on behind the `if`, with the next block of the
top level, wherever the CFG has its next block.

So there are two ways on past the end of a block: that of the CFG (`inOrder`) and that of the text
(`printedNext`, computed from the lifted blocks). `cfgStepBy` executes a CFG with either. The
variables are those of the C code: values are converted to the type of the variable they are
assigned to, and a helper is a function of its arguments (`typedAct`, over a `Runtime`).

## Results

* `inst_next`, `inst_branch`: one instruction of a block and the text printed for it.
* `run_block`, `block_together`: the run of a block and of the text of what is left of it. The
  induction is on the blocks behind, then on the instructions.
* `From.text_iff`: from the label of an interface point the text does what the CFG does when
  control past the end of a block goes to the block printed next.
* `genCode_simulates_iff`: the text does what the CFG does exactly when, at the first fall-through
  of the run that does not lead there, it makes no difference from then on.
* `PrintedInOrder.falls`: a condition on the check alone under which all fall-through is as it is
  printed.
* `clearFlags_simulated`, `test2_not_simulated`: two conditions in one, and `tests/test2.j`, whose
  text ends behind the first `if`.
-/

namespace SeccompPolicy

open StructuredCode SmallStep
open LabelledCode (Act)

variable {V M : Type*}

/-! ## Tests and assignments -/

/-- A test or an assignment. -/
def Event.isDecision : Event V → Bool
  | .test _ _ _ | .act (.assign _ _) => true
  | _ => false

/-- The tests and the assignments of a log, in order. -/
def decisions (log : List (Event V)) : List (Event V) := log.filter Event.isDecision

@[simp] theorem decisions_append (l l' : List (Event V)) :
    decisions (l ++ l') = decisions l ++ decisions l' := List.filter_append l l'

@[simp] theorem decisions_enter (l : String) : decisions ([.enter l] : List (Event V)) = [] := rfl

@[simp] theorem decisions_call (f : String) (vs : List V) : decisions [.act (.call f vs)] = [] := rfl

/-! ## The CFG, with typed variables -/

/-- What an instruction does when the variables are those of the C code: helpers are functions of
their arguments, and a value is converted to the type of the variable it is assigned to. -/
def typedAct (R : Runtime V M) (type : String → String) :
    Instruction → IRState V → Act String (IRState V) (Outcome × IRState V)
  | .store src (.mem x), s => .next (s.assign x (R.convert (type x) (s.read R.D src)))
  | i, s => irAct R.D (fun _ => R.helper) i s

/-- Where a conversion changes nothing this is what the instruction does. -/
theorem typedAct_eq {R : Runtime V M} (h : ∀ t v, R.convert t v = v) (type : String → String)
    (i : Instruction) (s : IRState V) :
    typedAct R type i s = irAct R.D (fun _ => R.helper) i s := by
  cases i with
  | store src dst => cases dst <;> simp [typedAct, irAct, h]
  | _ => rfl

/-- An instruction control falls out of is no branch and no return. -/
theorem typedAct_next_stays {R : Runtime V M} {type : String → String} {i : Instruction}
    {s s' : IRState V} (ha : typedAct R type i s = .next s') : (i.isBranch || i.isReturn) = false := by
  cases i with
  | store src dst => rfl
  | _ => exact irAct_next_stays (D := R.D) (h := fun _ => R.helper) ha

/-- One step of the execution of a CFG: past the end of a block, control goes where `falls` says. -/
def cfgStepBy (act : Instruction → IRState V → Act String (IRState V) (Outcome × IRState V))
    (falls : Nat → Option Nat) (g : List BasicBlock) (c : CFGConfig V) :
    CFGConfig V ⊕ (Outcome × IRState V) :=
  match g[c.block]? with
  | none => .inr (.stuck, c.st)
  | some B =>
    match B.insts[c.pc]? with
    | none =>
      match falls c.block with
      | some k => .inl (enterBlock g k c.st)
      | none => .inr (.runOff, c.st)
    | some i =>
      match act i c.st with
      | .next s => .inl ⟨c.block, c.pc + 1, s⟩
      | .jump t s =>
        match childAt g B t with
        | some k => .inl (enterBlock g k s)
        | none => .inr (.stuck, s)
      | .stop r => .inr r

/-- The next block, when it is a child. -/
def inOrder (g : List BasicBlock) (b : Nat) : Option Nat :=
  g[b]?.bind fun B => if b + 1 ∈ B.children then some (b + 1) else none

/-- With the fall-through of the CFG this is its execution. -/
theorem cfgStepBy_inOrder (D : Domain V) (h : Helpers V) (g : List BasicBlock) (c : CFGConfig V) :
    cfgStepBy (irAct D h) (inOrder g) g c = cfgStep D h g c := by
  unfold cfgStepBy cfgStep
  cases hB : g[c.block]? with
  | none => rfl
  | some B =>
    have hfalls : inOrder g c.block =
        if c.block + 1 ∈ B.children then some (c.block + 1) else none := by
      rw [inOrder, hB, Option.bind_some]
    simp only [hfalls]
    cases B.insts[c.pc]? with
    | none => by_cases hc : c.block + 1 ∈ B.children <;> simp [hc]
    | some i => rfl

section

variable {act : Instruction → IRState V → Act String (IRState V) (Outcome × IRState V)}
  {falls : Nat → Option Nat} {g : List BasicBlock} {b pc k : Nat} {B : BasicBlock}
  {i : Instruction} {s s' : IRState V}

theorem cfgStepBy_next (hB : g[b]? = some B) (hi : B.insts[pc]? = some i)
    (ha : act i s = .next s') : cfgStepBy act falls g ⟨b, pc, s⟩ = .inl ⟨b, pc + 1, s'⟩ := by
  simp only [cfgStepBy, hB, hi, ha]

theorem cfgStepBy_jump {t : String} (hB : g[b]? = some B) (hi : B.insts[pc]? = some i)
    (ha : act i s = .jump t s') (hk : childAt g B t = some k) :
    cfgStepBy act falls g ⟨b, pc, s⟩ = .inl (enterBlock g k s') := by
  simp only [cfgStepBy, hB, hi, ha, hk]

theorem cfgStepBy_stop {r : Outcome × IRState V} (hB : g[b]? = some B) (hi : B.insts[pc]? = some i)
    (ha : act i s = .stop r) : cfgStepBy act falls g ⟨b, pc, s⟩ = .inr r := by
  simp only [cfgStepBy, hB, hi, ha]

theorem cfgStepBy_fall (hB : g[b]? = some B) (hi : B.insts[pc]? = none) (hk : falls b = some k) :
    cfgStepBy act falls g ⟨b, pc, s⟩ = .inl (enterBlock g k s) := by
  simp only [cfgStepBy, hB, hi, hk]

theorem cfgStepBy_off (hB : g[b]? = some B) (hi : B.insts[pc]? = none) (hk : falls b = none) :
    cfgStepBy act falls g ⟨b, pc, s⟩ = .inr (.runOff, s) := by
  simp only [cfgStepBy, hB, hi, hk]

end

/-! ## Runs -/

namespace CompiledCheck

variable (c : CompiledCheck)

/-- The block the text goes on with past the end of a block: the next one of the top level. -/
def printedNext (b : Nat) : Option Nat :=
  c.cfg[b]?.bind fun B => (c.lifter.printedAfter B.label).head?.bind fun l =>
    c.cfg.findIdx? fun C => decide (C.label = l)

/-- A step of the CFG over the variables of the C code. -/
def stepBy (R : Runtime V M) (falls : Nat → Option Nat) :
    CFGConfig V → CFGConfig V ⊕ (Outcome × IRState V) :=
  cfgStepBy (typedAct R c.lifter.info.typeOf) falls c.cfg

/-- From a configuration the CFG comes to `o`, with tests and assignments `ds` in all. -/
def CfgRuns (R : Runtime V M) (falls : Nat → Option Nat) (x : CFGConfig V) (o : Outcome)
    (ds : List (Event V)) : Prop :=
  ∃ s, Halts (c.stepBy R falls) x (o, s) ∧ decisions s.log = ds

/-- From label `l` the text comes to `o`, with tests and assignments `ds`. -/
def TextRuns (R : Runtime V M) (l : String) (σ : CState V M) (o : Outcome) (ds : List (Event V)) :
    Prop :=
  ∃ r τ, find l c.lifter.genCode = some r ∧
    Halts ((cLang R l).step c.lifter.genCode) (r, { σ with log := [] }) (o, τ) ∧
    decisions τ.log = ds

variable {c} {R : Runtime V M} {o o' : Outcome} {ds ds' : List (Event V)}

theorem CfgRuns.unique {falls : Nat → Option Nat} {x : CFGConfig V} (h : c.CfgRuns R falls x o ds)
    (h' : c.CfgRuns R falls x o' ds') : o = o' ∧ ds = ds' := by
  obtain ⟨s, hs, rfl⟩ := h
  obtain ⟨s', hs', rfl⟩ := h'
  cases hs.unique hs'
  exact ⟨rfl, rfl⟩

theorem TextRuns.unique {l : String} {σ : CState V M} (h : c.TextRuns R l σ o ds)
    (h' : c.TextRuns R l σ o' ds') : o = o' ∧ ds = ds' := by
  obtain ⟨r, τ, hr, hτ, rfl⟩ := h
  obtain ⟨r', τ', hr', hτ', rfl⟩ := h'
  cases hr.symm.trans hr'
  cases hτ.unique hτ'
  exact ⟨rfl, rfl⟩

end CompiledCheck

/-- The start of a block, with the values of the C variables. -/
def CState.startOf (σ : CState V M) (b : Nat) (regs : Nat → V) : CFGConfig V :=
  ⟨b, 0, ⟨σ.vars, regs, []⟩⟩

/-! ## Inside a block -/

section Block

variable (R : Runtime V M)

/-- The variables have the same values, and the same has been tested and assigned. -/
structure Matches (s : IRState V) (σ : CState V M) : Prop where
  args : s.args = σ.vars
  log : decisions s.log = decisions σ.log

/-- The registers hold the values of the expressions printed for them. -/
def Holds (A : List IRValue) (s : IRState V) (σ : CState V M) : Prop :=
  ∀ v ∈ A, s.read R.D v = (liftExpr v).eval R σ.vars

variable {R} {s : IRState V} {σ : CState V M} {A : List IRValue}

/-- An operand is what is printed for it. -/
theorem read_eq (hm : Matches s σ) (hh : Holds R A s σ) {v : IRValue}
    (hv : v.reg? = none ∨ v ∈ A) : s.read R.D v = (liftExpr v).eval R σ.vars := by
  rcases hv with hv | hv
  · cases v with
    | mem x => exact congrFun hm.args x
    | imm n => rfl
    | null => rfl
    | _ => cases hv
  · exact hh v hv

theorem read_setReg {v : IRValue} {id : Nat} (hv : v.reg? ≠ some id) (x : V) :
    (s.setReg id x).read R.D v = s.read R.D v := by
  cases v with
  | arith id' op a b => exact Function.update_of_ne (fun h => hv (congrArg some h)) _ _
  | call id' f args => exact Function.update_of_ne (fun h => hv (congrArg some h)) _ _
  | _ => rfl

/-- One more result. -/
theorem Holds.cons (hh : Holds R A s σ) {w : IRValue} {id : Nat} (hid : w.reg? = some id)
    (hnew : ∀ v ∈ A, v.reg? ≠ w.reg?) {x : V} (hx : x = (liftExpr w).eval R σ.vars) :
    Holds R (w :: A) (s.setReg id x) σ := by
  intro v hv
  rcases List.mem_cons.mp hv with rfl | hv
  · rw [← hx]
    cases v <;> first | cases hid; exact Function.update_self _ _ _ | cases hid
  · rw [read_setReg (hid ▸ hnew v hv)]
    exact hh v hv

theorem compute_eq (hm : Matches s σ) (hh : Holds R A s σ) (id : Nat) (op : OpCode)
    {a b : IRValue} (ha : a.reg? = none ∨ a ∈ A) (hb : b.reg? = none ∨ b ∈ A) :
    s.compute R.D op a b = (liftExpr (.arith id op a b)).eval R σ.vars := by
  simp only [IRState.compute, liftExpr, read_eq hm hh ha, read_eq hm hh hb]
  split <;> rfl

theorem Matches.setReg (hm : Matches s σ) (id : Nat) (x : V) : Matches (s.setReg id x) σ :=
  ⟨hm.args, hm.log⟩

theorem Matches.enter (hm : Matches s σ) (l : String) : Matches (s.record (.enter l)) σ := by
  refine ⟨hm.args, ?_⟩
  rw [IRState.record, decisions_append, decisions_enter, List.append_nil, hm.log]

/-- What stands in a block. -/
structure Instruction.InBlock (i : Instruction) : Prop where
  noLabel : i.label? = none
  noJump : i.isDirectJMP = false
  source : i.FromSource

variable {c : CompiledCheck} {l : String}

/-- The copy back changes no variable. -/
theorem copyBack_act (L : IRLifter) (x : String) (e : CExpr) (σ : CState V M) :
    ∃ σ', (L.copyBack x e).act R l σ = .next σ' ∧ σ'.vars = σ.vars ∧ σ'.log = σ.log := by
  obtain ⟨i, h | ⟨size, h⟩ | h⟩ := L.copyBack_cases x e <;> rw [h] <;> exact ⟨_, rfl, rfl, rfl⟩

/-- **An instruction that goes on**: the text catches up with it. -/
theorem inst_next {i : Instruction} (hi : i.InBlock) (hleaves : i.leaves = false)
    (hadm : (Segment.running A).Admits i) (hm : Matches s σ) (hh : Holds R A s σ)
    (text rest : List CStmt) (L : IRLifter) : ∃ s' σ' A',
      typedAct R L.info.typeOf i s = .next s' ∧ (Segment.running A).after i = .running A' ∧
      Reaches ((cLang R l).step text) (L.codeText i.lift.toList ++ rest, σ) (rest, σ') ∧
      Matches s' σ' ∧ Holds R A' s' σ' := by
  cases i with
  | arith id op a b =>
    obtain ⟨hops, hnew, -⟩ := hadm
    have hval := compute_eq hm hh id op (hops a (by simp [Instruction.operands]))
      (hops b (by simp [Instruction.operands]))
    exact ⟨_, σ, _, rfl, rfl, .refl, hm.setReg _ _, hh.cons rfl (hnew _ rfl) hval⟩
  | call id f args =>
    obtain ⟨-, hnew, -⟩ := hadm
    have hm' : Matches (s.record (.act (.call f (args.map s.args)))) σ := by
      refine ⟨hm.args, ?_⟩
      rw [IRState.record, decisions_append, decisions_call, List.append_nil, hm.log]
    have hh' : Holds R A (s.record (.act (.call f (args.map s.args)))) σ := hh
    exact ⟨_, σ, _, rfl, rfl, .refl, hm'.setReg _ _, hh'.cons rfl (hnew _ rfl)
      (by rw [hm.args]; rfl)⟩
  | store src dst =>
    obtain ⟨hops, -, x, rfl⟩ := hadm
    have hval := read_eq hm hh (hops src (List.mem_singleton_self _))
    -- the assignment, and the line that brings it to the tracee
    obtain ⟨σ', hact, hvars, hlog⟩ := copyBack_act (R := R) (l := l) L x (liftExpr src)
      ((σ.set x (R.convert (L.info.typeOf x) (s.read R.D src))).record
        (.act (.assign x (R.convert (L.info.typeOf x) (s.read R.D src)))))
    have hassign : CLine.act R l (.assign (L.info.typeOf x) x (liftExpr src)) σ =
        .next ((σ.set x (R.convert (L.info.typeOf x) (s.read R.D src))).record
          (.act (.assign x (R.convert (L.info.typeOf x) (s.read R.D src))))) := by
      rw [hval]
      rfl
    refine ⟨_, σ', [], rfl, rfl, .head (step_next hassign) (.single (step_next hact)), ⟨?_, ?_⟩,
      fun v hv => absurd hv List.not_mem_nil⟩
    · rw [hvars]
      exact congrArg (Function.update · x _) hm.args
    · rw [hlog]
      exact (decisions_append _ _).trans
        ((congrArg (· ++ _) hm.log).trans (decisions_append _ _).symm)
  | branch op a b t f => cases hleaves
  | ret id rval => cases hleaves
  | label l => cases hi.noLabel

/-- A branch goes on with the arm of its target. -/
theorem step_if (text K : List CStmt) (cond : CCond) (t f : String) {L : IRLifter}
    {σ : CState V M} : (cLang R l).step text (L.codeText [.if_ cond t f] ++ K, σ) =
      .inl ((L.arm L.blockOrder.length (if (cond.test R σ).1 then t else f)).1 ++ K,
        (cond.test R σ).2) := by
  have hcode : L.codeText [.if_ cond t f] ++ K =
      .branch cond (L.arm L.blockOrder.length t).1 (L.arm L.blockOrder.length f).1 :: K := rfl
  rw [hcode, Lang.step]
  by_cases h : (cond.test R σ).1 = true
  · have h' : ((cLang R l).test cond σ).1 = true := h
    rw [if_pos h, if_pos h']
    rfl
  · have h' : ¬ ((cLang R l).test cond σ).1 = true := h
    rw [if_neg h, if_neg h']
    rfl

/-- **A branch**: text and CFG go on with the same target. -/
theorem inst_branch {op : OpCode} {a b : IRValue} {t f : String} (hop : op ≠ .INVALID)
    (hadm : (Segment.running A).Admits (.branch op a b t f)) (hm : Matches s σ) (hh : Holds R A s σ)
    (text K : List CStmt) (L : IRLifter) : ∃ u s' σ', (u = t ∨ u = f) ∧
      typedAct R L.info.typeOf (.branch op a b t f) s = .jump u s' ∧
      (cLang R l).step text (L.codeText (Instruction.branch op a b t f).lift.toList ++ K, σ) =
        .inl ((L.arm L.blockOrder.length u).1 ++ K, σ') ∧ Matches s' σ' := by
  obtain ⟨hops, -, -⟩ := hadm
  have ha := read_eq hm hh (hops a (by simp [Instruction.operands]))
  have hb := read_eq hm hh (hops b (by simp [Instruction.operands]))
  have hlift : (Instruction.branch op a b t f).lift = some (.if_ ⟨op, liftExpr a, liftExpr b⟩ t f) :=
    if_neg hop
  refine ⟨if R.D.cmp op (s.read R.D a) (s.read R.D b) then t else f,
    s.record (.test op (s.read R.D a) (s.read R.D b)),
    σ.record (.test op (s.read R.D a) (s.read R.D b)), by split <;> simp, ?_, ?_, hm.args, ?_⟩
  · simp only [typedAct, irAct, if_neg hop]
  · rw [ha, hb, hlift]
    exact step_if text K ⟨op, liftExpr a, liftExpr b⟩ t f
  · rw [IRState.record, CState.record, decisions_append, decisions_append, hm.log]

end Block

/-! ## The text between two blocks -/

section Text

variable {R : Runtime V M} {L : IRLifter} {l : String}

/-- The text of a block comes to its place. -/
theorem blockText_reaches (hL : L.Ordered) {x : String} (hx : x ∈ L.blockOrder) (text : List CStmt)
    (σ : CState V M) : Reaches ((cLang R l).step text) (L.blockText x ++ L.textAfter x, σ)
      (L.place x, σ) := by
  rw [IRLifter.blockText_eq hL hx, List.append_assoc, IRLifter.genLabel]
  split
  · exact .single rfl
  · exact .refl

/-- **An arm comes to the place of its block**, which is further behind: fewer blocks of the top level
are left, or the block itself is later. -/
theorem arm_reaches (hL : L.Ordered) (hlast : L.BranchesLast) {x y : String} {p : PtraceCode}
    (hp : p ∈ L.code y) (hx : x ∈ p.armTargets) (σ : CState V M) :
    Reaches ((cLang R l).step L.genCode)
      ((L.arm L.blockOrder.length x).1 ++ L.textAfter y, σ) (L.place x, σ) ∧
    ((L.printedAfter x).length < (L.printedAfter y).length ∨
      (L.printedAfter x).length = (L.printedAfter y).length ∧
        L.blockOrder.length - L.blockOrder.idxOf x < L.blockOrder.length - L.blockOrder.idxOf y) := by
  have htarget := IRLifter.mem_targets_of_arm hx
  obtain ⟨hmem, hlt⟩ := IRLifter.target_behind hL hp htarget
  by_cases hone : L.blockRefCnt x = 1
  · have hin := IRLifter.mem_inlined.mpr ⟨⟨p, hp, hx⟩, hone⟩
    have hidx := List.idxOf_lt_length_iff.mpr hmem
    rw [IRLifter.arm_inlined hone, ← IRLifter.textAfter_inlined hL hin]
    exact ⟨blockText_reaches hL hmem _ σ,
      .inr ⟨congrArg List.length (hL.isForest.behind_kid hin), by omega⟩⟩
  · have hy := List.mem_map_of_mem (f := Prod.fst) (IRLifter.mem_codeBlocks_of_code hp)
    obtain ⟨mid, hmid⟩ :=
      hL.isForest.behind_later hy (IRLifter.mem_roots_of_two hL hmem hone) hlt
    have hpos : 0 < L.blockRefCnt x := List.count_pos_iff.mpr
      (List.mem_flatMap.mpr ⟨_, IRLifter.mem_codeBlocks_of_code hp,
        List.mem_flatMap.mpr ⟨p, hp, htarget⟩⟩)
    have hfind := IRLifter.find_block hL hlast hmem (.inr (by omega))
    rw [IRLifter.arm_goto hone]
    refine ⟨.single (step_jump rfl hfind), .inl ?_⟩
    simp only [IRLifter.printedAfter, hmid, List.length_append, List.length_cons]
    omega

end Text

/-! ## The blocks of a check -/

namespace CompiledCheck.From

variable {m : CodeGenMgr} {o : HashOrder} {gl : RetGlobals} {c : CompiledCheck}

theorem block_fed (hc : c.From m o gl) (hwt : allWellTyped c.check.stmts = true) {B : BasicBlock}
    (hB : B ∈ c.cfg) : Fed (.running []) B.insts := by
  rw [hc.cfg] at hB
  exact checkCFG_fed hwt m c.syscall B hB

theorem block_inst (hc : c.From m o gl) (hwt : allWellTyped c.check.stmts = true) {B : BasicBlock}
    (hB : B ∈ c.cfg) {i : Instruction} (hi : i ∈ B.insts) : i.InBlock where
  noLabel := (hc.isCFG hwt).noLabel B hB i hi
  noJump := hc.noJump hB hi
  source := by
    rcases List.mem_cons.mp (hc.mem_list hB hi) with rfl | hi
    · trivial
    · exact eliminated_fromSource c.check.stmts m i hi

/-- Nothing stands behind a branch or a return of a block. -/
theorem block_ends (hc : c.From m o gl) (hwt : allWellTyped c.check.stmts = true) {B : BasicBlock}
    (hB : B ∈ c.cfg) {pre post : List Instruction} {i : Instruction}
    (hsplit : B.insts = pre ++ i :: post) (hi : (i.isBranch || i.isReturn) = true) : post = [] := by
  cases post with
  | nil => rfl
  | cons j post =>
    have hends : EndsBlocks (flatten c.cfg) := by
      rw [hc.cfg, checkCFG, flatten_buildCFG]
      refine List.isChain_cons.mpr ⟨fun _ _ hl => absurd hl Bool.false_ne_true, ?_⟩
      exact eliminated_endsBlocks hwt m
    obtain ⟨g₁, g₂, hg⟩ := List.append_of_mem hB
    have hflat : flatten c.cfg =
        (flatten g₁ ++ .label B.label :: pre) ++ i :: j :: (post ++ flatten g₂) := by
      simp [hg, flatten, hsplit]
    rw [hflat] at hends
    have hlabel := (List.isChain_append_cons_cons.mp hends).2.1 hi
    have hnone := (hc.block_inst hwt hB (i := j) (by simp [hsplit])).noLabel
    cases j with
    | label l => cases hnone
    | _ => cases hlabel

theorem branchesLast (hc : c.From m o gl) (hwt : allWellTyped c.check.stmts = true) :
    c.lifter.BranchesLast := by
  intro e he pre p post hsplit hp
  obtain ⟨⟨B, b⟩, hmem, rfl⟩ : ∃ x ∈ liftedBlocks c.cfg c.ptraceBbs, x.1.lift = e :=
    List.mem_map.mp he
  have hB := List.mem_of_getElem? (mem_liftedBlocks.mp hmem).1
  obtain ⟨xs, ys, hins, -, hys⟩ := List.filterMap_eq_append_iff.mp hsplit
  obtain ⟨zs, i, ws, rfl, -, hlift, rfl⟩ := List.filterMap_eq_cons_iff.mp hys
  have hi : i.isBranch = true := by
    obtain ⟨t, ht⟩ := List.exists_mem_of_ne_nil _ hp
    exact Instruction.isBranch_of_targets
      (Instruction.lift_targets hlift (IRLifter.mem_targets_of_arm ht))
  have hins : B.insts = (xs ++ zs) ++ i :: ws := hins.trans (List.append_assoc ..).symm
  obtain rfl := hc.block_ends hwt hB hins (by rw [hi]; rfl)
  rfl

/-- The lifted code of a block. -/
theorem lifted_code (hc : c.From m o gl) (hwt : allWellTyped c.check.stmts = true) {b : Nat}
    {B : BasicBlock} (hB : c.cfg[b]? = some B) (hl : Lifted c.cfg c.ptraceBbs b) :
    B.label ∈ c.lifter.blockOrder ∧
      c.lifter.code B.label = B.insts.filterMap Instruction.lift := by
  have hmem : B.lift ∈ c.lifter.codeBlocks :=
    List.mem_map.mpr ⟨(B, b), mem_liftedBlocks.mpr ⟨hB, hl⟩, rfl⟩
  exact ⟨List.mem_map_of_mem (f := Prod.fst) hmem, IRLifter.code_of_mem (hc.ordered hwt).nodup hmem⟩

/-- A lifted branch goes to a lifted child. -/
theorem lifted_target (hc : c.From m o gl) (hwt : allWellTyped c.check.stmts = true) {b : Nat}
    {B : BasicBlock} (hB : c.cfg[b]? = some B) (hl : Lifted c.cfg c.ptraceBbs b) {i : Instruction}
    (hi : i ∈ B.insts) {t : String} (ht : t ∈ i.targets) :
    ∃ k C, childAt c.cfg B t = some k ∧ c.cfg[k]? = some C ∧ C.label = t ∧
      Lifted c.cfg c.ptraceBbs k := by
  have hg := hc.isCFG hwt
  obtain ⟨k, C, hk, -, hC, hlabel⟩ := childAt_of_target hg hB hi ht
  rw [hc.bbs] at hl ⊢
  obtain ⟨k', C', -, hC', hlabel', hl'⟩ := lifted_child hg o hB hl hi ht
  obtain rfl := hg.label_inj hC hC' (hlabel.trans hlabel'.symm)
  exact ⟨k, C, hk, hC, hlabel, hl'⟩

end CompiledCheck.From

/-! ## The text against the blocks as they are printed -/

section Together

variable (c : CompiledCheck) (R : Runtime V M) (l : String)

/-- The text and the CFG, with control past the end of a block going to the block printed next, come
to the same end, with the same tests and assignments. -/
def Together (x : List CStmt × CState V M) (y : CFGConfig V) : Prop :=
  EndTogether ((cLang R l).step c.lifter.genCode) (c.stepBy R c.printedNext)
    (fun r r' => r.1 = r'.1 ∧ decisions r.2.log = decisions r'.2.log) x y

variable {c R l} {b : Nat} {B : BasicBlock} {K : List CStmt}

theorem enterBlock_eq {g : List BasicBlock} {k : Nat} {C : BasicBlock} (hC : g[k]? = some C)
    (s : IRState V) : enterBlock g k s = ⟨k, 0, s.record (.enter C.label)⟩ := by
  rw [enterBlock, hC]
  rfl

/-- Behind a conditional branch the block ends. -/
theorem fed_branched {is : List Instruction} (h : Fed .branched is)
    (hin : ∀ i ∈ is, i.label? = none) : is = [] := by
  cases is with
  | nil => rfl
  | cons i is => exact absurd h.1 (Segment.not_admits_branched (hin i List.mem_cons_self))

/-- **The run of a block**: the text of what is left of it, and then `K`. -/
theorem run_block (hB : c.cfg[b]? = some B) (hin : ∀ i ∈ B.insts, i.InBlock)
    (hfall : ∀ s σ, Matches s σ → Together c R l (K, σ) ⟨b, B.insts.length, s⟩)
    (hjump : ∀ op a b' t f, .branch op a b' t f ∈ B.insts → op ≠ .INVALID → ∀ u, u = t ∨ u = f →
      ∃ k, childAt c.cfg B u = some k ∧ ∀ s σ, Matches s σ →
        Together c R l ((c.lifter.arm c.lifter.blockOrder.length u).1 ++ K, σ)
          (enterBlock c.cfg k s))
    (is : List Instruction) (done : List Instruction) (hsplit : B.insts = done ++ is)
    {A : List IRValue} (hfed : Fed (.running A) is) {s : IRState V} {σ : CState V M}
    (hm : Matches s σ) (hh : Holds R A s σ) :
    Together c R l (c.lifter.codeText (is.filterMap Instruction.lift) ++ K, σ)
      ⟨b, done.length, s⟩ := by
  induction is generalizing done A s σ with
  | nil =>
    rw [List.append_nil] at hsplit
    exact hsplit ▸ hfall s σ hm
  | cons i is ih =>
    have hmem : i ∈ B.insts := by simp [hsplit]
    have hi : B.insts[done.length]? = some i := by simp [hsplit]
    have hcode : c.lifter.codeText ((i :: is).filterMap Instruction.lift) ++ K =
        c.lifter.codeText i.lift.toList ++
          (c.lifter.codeText (is.filterMap Instruction.lift) ++ K) := by
      rw [← List.append_assoc, ← IRLifter.codeText_append]
      cases hl : i.lift <;> simp [hl]
    by_cases hleaves : i.leaves = false
    · obtain ⟨s', σ', A', hact, hafter, htext, hm', hh'⟩ := inst_next (l := l) (hin i hmem) hleaves
        hfed.1 hm hh c.lifter.genCode (c.lifter.codeText (is.filterMap Instruction.lift) ++ K) c.lifter
      have hrest := hfed.2
      rw [hafter] at hrest
      have hnext := ih (done ++ [i]) (by simp [hsplit]) hrest hm' hh'
      rw [List.length_append, List.length_singleton] at hnext
      rw [hcode]
      exact hnext.reaches htext (.single (cfgStepBy_next hB hi hact))
    · cases i with
      | branch op a b' t f =>
        have hop : op ≠ .INVALID := by
          simpa [Instruction.isDirectJMP] using (hin _ hmem).noJump
        have hrest := hfed.2
        rw [Segment.after, if_neg hop] at hrest
        obtain rfl := fed_branched hrest fun j hj => (hin j (by simp [hsplit, hj])).noLabel
        obtain ⟨u, s', σ', hu, hact, htext, hm'⟩ := inst_branch (l := l) hop hfed.1 hm hh
          c.lifter.genCode K c.lifter
        obtain ⟨k, hk, hnext⟩ := hjump op a b' t f hmem hop u hu
        rw [hcode, List.filterMap_nil, IRLifter.codeText_nil, List.nil_append]
        exact (hnext s' σ' hm').reaches (.single htext) (.single (cfgStepBy_jump hB hi hact hk))
      | ret id rval =>
        rcases (hin _ hmem).source with rfl | rfl
        · exact .stop rfl (cfgStepBy_stop hB hi rfl) ⟨rfl, hm.log.symm⟩
        · exact .stop rfl (cfgStepBy_stop hB hi rfl) ⟨rfl, hm.log.symm⟩
      | _ => exact absurd rfl hleaves

variable {m : CodeGenMgr} {o : HashOrder} {gl : RetGlobals}

/-- The step past the end of a block to the block printed next. -/
theorem printedNext_eq (hc : c.From m o gl) (hwt : allWellTyped c.check.stmts = true)
    (hB : c.cfg[b]? = some B) : (c.lifter.printedAfter B.label = [] ∧ c.printedNext b = none) ∨
    ∃ k C rs, c.cfg[k]? = some C ∧ c.lifter.printedAfter B.label = C.label :: rs ∧
      c.printedNext b = some k ∧ Lifted c.cfg c.ptraceBbs k := by
  have hnext : c.printedNext b = (c.lifter.printedAfter B.label).head?.bind fun x =>
      c.cfg.findIdx? fun C => decide (C.label = x) := by
    rw [CompiledCheck.printedNext, hB, Option.bind_some]
  cases hafter : c.lifter.printedAfter B.label with
  | nil =>
    rw [hafter] at hnext
    exact .inl ⟨rfl, hnext⟩
  | cons r rs =>
    rw [hafter] at hnext
    obtain ⟨hr, -⟩ := IRLifter.textAfter_cons (hc.ordered hwt) hafter
    obtain ⟨k, C, hC, rfl, hl⟩ := mem_genPtraceCode.mp hr
    refine .inr ⟨k, C, rs, hC, rfl, ?_, hl⟩
    rw [hnext, List.head?_cons, Option.bind_some]
    obtain ⟨hk, rfl⟩ := List.getElem?_eq_some_iff.mp hC
    rw [List.findIdx?_eq_some_iff_getElem]
    refine ⟨hk, decide_eq_true rfl, fun j hj => ?_⟩
    rw [decide_eq_true_eq]
    intro he
    have := (hc.isCFG hwt).label_inj (List.getElem?_eq_getElem (by omega)) hC he
    omega

/-- **The text of a lifted block** does what the block does. -/
theorem block_together (hc : c.From m o gl) (hwt : allWellTyped c.check.stmts = true)
    (hB : c.cfg[b]? = some B) (hl : Lifted c.cfg c.ptraceBbs b) {s : IRState V} {σ : CState V M}
    (hm : Matches s σ) : Together c R l (c.lifter.place B.label, σ) ⟨b, 0, s⟩ := by
  have hord := hc.ordered hwt
  -- the blocks of the top level that are left, and then the blocks of the order
  generalize hn : (c.lifter.printedAfter B.label).length = n
  induction n using Nat.strongRecOn generalizing b B s σ with
  | ind n outer =>
    generalize hk : c.lifter.blockOrder.length - c.lifter.blockOrder.idxOf B.label = k
    induction k using Nat.strongRecOn generalizing b B s σ with
    | ind k inner =>
      subst hn hk
      obtain ⟨-, hcode⟩ := hc.lifted_code hwt hB hl
      have hBmem := List.mem_of_getElem? hB
      rw [IRLifter.place, hcode]
      refine run_block hB (fun i hi => hc.block_inst hwt hBmem hi) ?_ ?_ B.insts [] rfl
        (hc.block_fed hwt hBmem) hm fun v hv => absurd hv List.not_mem_nil
      · -- past the end of the block
        intro s σ hm
        have hend : B.insts[B.insts.length]? = none := List.getElem?_eq_none (Nat.le_refl _)
        rcases printedNext_eq hc hwt hB with ⟨hafter, hnext⟩ | ⟨k, C, rs, hC, hafter, hnext, hl'⟩
        · rw [IRLifter.textAfter, hafter]
          exact .stop rfl (cfgStepBy_off hB hend hnext) ⟨rfl, hm.log.symm⟩
        · obtain ⟨hr, htext⟩ := IRLifter.textAfter_cons hord hafter
          have hlen : (c.lifter.printedAfter C.label).length <
              (c.lifter.printedAfter B.label).length := by
            rw [hafter, IRLifter.printedAfter, (hord.isForest.behind_cons hafter).2]
            exact Nat.lt_succ_self _
          have hrun := outer _ hlen hC hl' (hm.enter C.label) rfl
          rw [htext]
          refine hrun.reaches (blockText_reaches hord hr _ σ) (.single ?_)
          exact (cfgStepBy_fall hB hend hnext).trans (congrArg Sum.inl (enterBlock_eq hC s))
      · -- to a target
        intro op a b' t f hi hop u hu
        have hlift : .if_ ⟨op, liftExpr a, liftExpr b'⟩ t f ∈ c.lifter.code B.label :=
          hcode ▸ List.mem_filterMap.mpr ⟨_, hi, if_neg hop⟩
        have htarget : u ∈ (Instruction.branch op a b' t f).targets := by
          simpa [Instruction.targets, hop] using hu
        obtain ⟨k, C, hk, hC, rfl, hl'⟩ := hc.lifted_target hwt hB hl hi htarget
        refine ⟨k, hk, fun s σ hm => ?_⟩
        obtain ⟨htext, hfurther⟩ := arm_reaches (R := R) (l := l) hord (hc.branchesLast hwt) hlift
          (by simpa [PtraceCode.armTargets] using hu) σ
        rw [enterBlock_eq hC]
        rcases hfurther with hlen | ⟨hlen, hidx⟩
        · exact (outer _ hlen hC hl' (hm.enter C.label) rfl).reaches htext .refl
        · exact (inner _ hidx hC hl' (hm.enter C.label) hlen rfl).reaches htext .refl

end Together

/-! ## The text against the CFG -/

namespace CompiledCheck

variable (c : CompiledCheck) (R : Runtime V M)

/-- From a block the CFG comes to the same end as the text from its label, with the same tests and
assignments. -/
def Simulates (b : Nat) (l : String) (σ : CState V M) (regs : Nat → V) : Prop :=
  ∃ o ds, c.CfgRuns R (inOrder c.cfg) (σ.startOf b regs) o ds ∧ c.TextRuns R l σ o ds

/-- When control passes the end of the block here, it goes to the block printed next. -/
def FallsAsPrinted (x : CFGConfig V) : Prop :=
  ∀ B, c.cfg[x.block]? = some B → B.insts[x.pc]? = none →
    inOrder c.cfg x.block = c.printedNext x.block

/-- From here on it makes no difference whether control past the end of a block goes to the next
block of the CFG or to the block printed next. -/
def Indifferent (x : CFGConfig V) : Prop :=
  ∃ o ds, c.CfgRuns R (inOrder c.cfg) x o ds ∧ c.CfgRuns R c.printedNext x o ds

variable {c R}

theorem stepBy_eq {x : CFGConfig V} (h : c.FallsAsPrinted x) :
    c.stepBy R (inOrder c.cfg) x = c.stepBy R c.printedNext x := by
  unfold stepBy cfgStepBy
  cases hB : c.cfg[x.block]? with
  | none => rfl
  | some B =>
    cases hi : B.insts[x.pc]? with
    | none => simp only [hi, h B hB hi]
    | some => simp only [hi]

theorem indifferent_iff {x : CFGConfig V} : c.Indifferent R x ↔
    EndTogether (c.stepBy R (inOrder c.cfg)) (c.stepBy R c.printedNext)
      (fun r r' => r.1 = r'.1 ∧ decisions r.2.log = decisions r'.2.log) x x := by
  constructor
  · rintro ⟨o, _, ⟨s, hs, rfl⟩, s', hs', hd⟩
    exact ⟨(o, s), (o, s'), hs, hs', rfl, hd.symm⟩
  · rintro ⟨⟨o, s⟩, ⟨_, s'⟩, hs, hs', rfl, hd⟩
    exact ⟨o, _, ⟨s, hs, rfl⟩, s', hs', hd.symm⟩

/-- Every block that falls through falls to the block printed next. -/
def PrintedInOrder (c : CompiledCheck) : Prop :=
  ∀ e ∈ c.cfg.zipIdx, e.1.leaves = false → inOrder c.cfg e.2 = c.printedNext e.2

instance (c : CompiledCheck) : Decidable c.PrintedInOrder :=
  inferInstanceAs (Decidable (∀ e ∈ c.cfg.zipIdx, _))

/-- What has been passed in the block does not leave it. -/
def Inside (c : CompiledCheck) (x : CFGConfig V) : Prop :=
  ∀ B, c.cfg[x.block]? = some B → ∃ done rest, B.insts = done ++ rest ∧ done.length = x.pc ∧
    ∀ i ∈ done, (i.isBranch || i.isReturn) = false

theorem inside_start (b : Nat) (s : IRState V) : c.Inside ⟨b, 0, s⟩ := fun B _ =>
  ⟨[], B.insts, rfl, rfl, fun _ hi => absurd hi List.not_mem_nil⟩

theorem inside_step {falls : Nat → Option Nat} {x y : CFGConfig V} (hx : c.Inside x)
    (h : c.stepBy R falls x = .inl y) : c.Inside y := by
  unfold stepBy cfgStepBy at h
  cases hB : c.cfg[x.block]? with
  | none => simp [hB] at h
  | some B =>
    obtain ⟨done, rest, hins, hlen, hdone⟩ := hx B hB
    cases hi : B.insts[x.pc]? with
    | none =>
      simp only [hB, hi] at h
      cases hf : falls x.block with
      | none => simp [hf] at h
      | some k =>
        simp only [hf] at h
        exact Sum.inl.inj h ▸ inside_start k _
    | some i =>
      simp only [hB, hi] at h
      cases ha : typedAct R c.lifter.info.typeOf i x.st with
      | next s =>
        simp only [ha] at h
        obtain rfl := Sum.inl.inj h
        intro B' hB'
        obtain rfl := Option.some.inj (hB.symm.trans hB')
        obtain ⟨rest, rfl⟩ : ∃ rest', rest = i :: rest' := by
          rw [hins, ← hlen, List.getElem?_append_right (Nat.le_refl _), Nat.sub_self] at hi
          cases rest with
          | nil => cases hi
          | cons j rest => exact ⟨rest, by rw [Option.some.inj hi]⟩
        refine ⟨done ++ [i], rest, by simp [hins], by simp [hlen], fun j hj => ?_⟩
        rcases List.mem_append.mp hj with hj | hj
        · exact hdone j hj
        · exact List.mem_singleton.mp hj ▸ typedAct_next_stays ha
      | jump t s =>
        simp only [ha] at h
        cases hk : childAt c.cfg B t with
        | none => simp [hk] at h
        | some k =>
          simp only [hk] at h
          exact Sum.inl.inj h ▸ inside_start k _
      | stop r => simp [ha] at h

/-- Then all fall-through is as it is printed. -/
theorem PrintedInOrder.falls (h : c.PrintedInOrder) {falls : Nat → Option Nat} {b : Nat}
    {s : IRState V} {x : CFGConfig V} (hx : Reaches (c.stepBy R falls) ⟨b, 0, s⟩ x) :
    c.FallsAsPrinted x := by
  have hin : c.Inside x := by
    induction hx with
    | refl => exact inside_start b s
    | tail _ hs ih => exact inside_step ih hs
  intro B hB hi
  obtain ⟨done, rest, hins, hlen, hdone⟩ := hin B hB
  obtain rfl : rest = [] := by
    rw [List.getElem?_eq_none_iff, hins, List.length_append, hlen] at hi
    exact List.length_eq_zero_iff.mp (by omega)
  rw [List.append_nil] at hins
  refine h (B, x.block) (List.mk_mem_zipIdx_iff_getElem?.mpr hB) ?_
  rw [BasicBlock.leaves, hins]
  cases hl : done.getLast? with
  | none => rfl
  | some i => exact hdone i (List.mem_of_getLast? hl)

section

variable {m : CodeGenMgr} {o : HashOrder} {gl : RetGlobals} {b : Nat} {B : BasicBlock}

/-- **The text is the CFG as it is printed.** From the label of an interface point the text does what
the CFG does when control past the end of a block goes to the block printed next. -/
theorem From.text_iff (hc : c.From m o gl) (hwt : allWellTyped c.check.stmts = true)
    (hB : c.cfg[b]? = some B) (hl : Lifted c.cfg c.ptraceBbs b)
    (hpoint : B.label ∈ c.interfacePoints) (σ : CState V M) (regs : Nat → V) :
    (∃ r, Halts (c.stepBy R c.printedNext) (σ.startOf b regs) r) ∧
    ∀ out ds, c.TextRuns R B.label σ out ds ↔
      c.CfgRuns R c.printedNext (σ.startOf b regs) out ds := by
  have hmem := (hc.lifted_code hwt hB hl).1
  have hfind := IRLifter.find_block (hc.ordered hwt) (hc.branchesLast hwt) hmem (.inl hpoint)
  have hm : Matches (⟨σ.vars, regs, []⟩ : IRState V) { σ with log := [] } := ⟨rfl, rfl⟩
  obtain ⟨⟨o₁, τ⟩, ⟨_, s⟩, hτ, hs, rfl, hd⟩ :=
    block_together (l := B.label) (R := R) hc hwt hB hl hm
  have htext : c.TextRuns R B.label σ o₁ (decisions s.log) := ⟨_, τ, hfind, hτ, hd⟩
  have hcfg : c.CfgRuns R c.printedNext (σ.startOf b regs) o₁ (decisions s.log) := ⟨s, hs, rfl⟩
  refine ⟨⟨_, hs⟩, fun out ds => ⟨fun h => ?_, fun h => ?_⟩⟩
  · obtain ⟨rfl, rfl⟩ := h.unique htext
    exact hcfg
  · obtain ⟨rfl, rfl⟩ := h.unique hcfg
    exact htext

end

end CompiledCheck

/-- **When the text simulates the CFG.** Of a check whose ptrace blocks all start at their first
instruction: from an interface point, and from any values of the variables, the text makes the tests
and assignments of the CFG and comes to its verdict exactly when, at the first fall-through of the
CFG's run that does not lead to the block printed next, it makes no difference from there on. -/
theorem genCode_simulates_iff {policys : List Policy} {orders : Nat → HashOrder} {out : Output}
    (hout : compile policys orders = some out) {c : CompiledCheck} (hc : c ∈ out.checks)
    (hwt : allWellTyped c.check.stmts = true) (hstart : StartsAtFirst c.cfg c.ptraceBbs) {b : Nat}
    {B : BasicBlock} (hB : c.cfg[b]? = some B) (hb : c.ptraceBbs.count b = true)
    (hpoint : B.label ∈ c.interfacePoints) (R : Runtime V M) (σ : CState V M) (regs : Nat → V) :
    c.Simulates R b B.label σ regs ↔
      ∀ x, ReachesVia (c.stepBy R (inOrder c.cfg)) c.FallsAsPrinted (σ.startOf b regs) x →
        ¬ c.FallsAsPrinted x → c.Indifferent R x := by
  obtain ⟨⟨_, hcomp⟩, -, -⟩ := compile_spec hout
  obtain ⟨_, _, _, hfrom, -⟩ := hcomp.from_mem hc
  have hl : Lifted c.cfg c.ptraceBbs b := ⟨hb, B, hB, hstart.start hB hb⟩
  obtain ⟨⟨_, hhalts⟩, htext⟩ := hfrom.text_iff (R := R) hwt hB hl hpoint σ regs
  have hsame : c.Simulates R b B.label σ regs ↔ c.Indifferent R (σ.startOf b regs) :=
    exists_congr fun o => exists_congr fun ds => and_congr_right fun _ => htext o ds
  rw [hsame, CompiledCheck.indifferent_iff,
    endTogether_iff (P := c.FallsAsPrinted) (fun x hx => CompiledCheck.stepBy_eq hx)
      (fun r => ⟨rfl, rfl⟩) hhalts]
  simp only [CompiledCheck.indifferent_iff]

/-- Two conditions, and a verdict behind them: the end of the `if` has two references. -/
def clearFlags : List Policy :=
  [.defaultDeny, .check ⟨"open", ["name", "flags", "mode"],
    [.ifThen (.op2 .EQ (.ref "name") (.inv "legalname" []))
      (.compound [.ifThen (.op2 .GT (.ref "flags") (.value 0))
        (.compound [.assign "flags" (.value 0)])]), .perm .ALLOW], open_named⟩]

theorem clearFlags_simulated : ∃ out c B, compile clearFlags (fun _ => .insertion) = some out ∧
    c ∈ out.checks ∧ c.cfg[0]? = some B ∧
    c.Simulates intRuntime 0 B.label ⟨fun _ => 0, fun _ => 0, (), false, []⟩ fun _ => 0 := by
  refine ⟨_, _, _, rfl, List.mem_cons_self, rfl, ?_⟩
  refine (@genCode_simulates_iff _ _ clearFlags (fun _ => .insertion) _ rfl _
    List.mem_cons_self (by decide) (by decide) 0 _ rfl rfl (by decide) intRuntime _ _).mpr fun x hx hno => ?_
  refine absurd (CompiledCheck.PrintedInOrder.falls ?_ hx.reaches) hno
  decide

/-- `tests/test2.j`: an `if` without `else`, and statements behind it. -/
def test2 : List Policy :=
  [.defaultDeny, .check ⟨"open", ["name", "flags", "mode"],
    [.ifThen (.op2 .EQ (.ref "name") (.inv "legalname" []))
      (.compound [.assign "flags" (.op2 .BITAND (.ref "flags") (.value 16))]),
      .assign "name" (.inv "alloc_name" []),
      .ifThen (.op2 .BITAND (.ref "flags") (.value 16)) (.compound [.perm .DENY]), .perm .ALLOW],
    open_named⟩]

set_option maxRecDepth 2000 in
/-- With a legal name the text ends behind the first `if`, and the CFG goes on to a verdict. -/
theorem test2_not_simulated : (∀ c ∈ test2.filterMap Policy.check?, allWellTyped c.stmts = true) ∧
    ∃ out c B, compile test2 (fun _ => .insertion) = some out ∧ c ∈ out.checks ∧
      StartsAtFirst c.cfg c.ptraceBbs ∧ c.cfg[0]? = some B ∧ c.ptraceBbs.count 0 = true ∧
      B.label ∈ c.interfacePoints ∧
      ¬ c.Simulates intRuntime 0 B.label ⟨fun _ => 0, fun _ => 0, (), false, []⟩ fun _ => 0 := by
  refine ⟨by decide, _, _, _, rfl, List.mem_cons_self, by decide, rfl, rfl, by decide, ?_⟩
  rintro ⟨o, ds, hcfg, htext⟩
  have hallow := hcfg.unique ⟨_, ⟨20, rfl⟩, rfl⟩
  have hoff := htext.unique ⟨_, _, rfl, ⟨10, rfl⟩, rfl⟩
  cases hallow.1.symm.trans hoff.1

end SeccompPolicy
