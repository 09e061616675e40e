import SeccompPolicy.Ast
import SeccompPolicy.Lib.LabelledCode

/-!
# The intermediate representation and its meaning

Source: `IRValue`, `Instruction` and their subclasses in `IR.h`, `IsDirectJMP` of `IR_gen.cpp`.

A C++ `IRValue *` is a Lean `IRValue`: a null pointer, a `Memory`, an `Immediate`, or the
instruction pointed to, with its operands. Two instructions built by two `new` are different
pointers even when they look alike, so each carries the number of its allocation (`id`); equal
pointers are equal values here. The casts of the source that rely on `isa` are pattern matches.

An instruction list is labelled code of `Lib.LabelledCode`: `irLang` gives the effect of each
instruction, and `Runs` is the run of a list from its first instruction.

* A comparison jumps to its true or false target; a branch with opcode `INVALID` jumps to the true
  one.
* An arithmetic instruction and a call set the register named by their allocation, a store sets an
  argument.
* `ReturnInst` ends the run: with a verdict, or at a `RET_TO_PTRACE`.
* What has no meaning (a jump to a label that is not there, a store to something that is no
  variable, a return of another number) is the outcome `stuck`, so that a theorem on outcomes also
  says that this does not happen. A null operand reads as `0`; the code of a body that type-checks
  has none.

A run records the labels it passes, the comparisons it makes and the actions (`Event`). The
theorems on lists compare actions and verdicts; labels and comparisons are there for the tracer,
whose order of blocks they show.

Left out: the register number `dst_reg_`, the instruction pointer `ip_` and the back pointer
`bb_`, which are only printed.
-/

namespace SeccompPolicy

open LabelledCode SmallStep

/-- `IRValue *`. -/
inductive IRValue where
  | null
  | mem (name : String)
  | imm (val : Int)
  | arith (id : Nat) (opcode : OpCode) (op1 op2 : IRValue)
  | call (id : Nat) (callee : String) (args : List String)
  deriving DecidableEq, Repr

/-- `isa<Instruction>(v)`. -/
def IRValue.isInstruction : IRValue → Bool
  | .arith .. | .call .. => true
  | _ => false

/-- The instructions a list holds. `ret` holds the value of its `Immediate<int>` operand. -/
inductive Instruction where
  | arith (id : Nat) (opcode : OpCode) (op1 op2 : IRValue)
  | call (id : Nat) (callee : String) (args : List String)
  | store (src dst : IRValue)
  | ret (id : Nat) (rval : Int)
  | branch (opcode : OpCode) (op1 op2 : IRValue) (trueTarget falseTarget : String)
  | label (label : String)
  deriving DecidableEq, Repr

namespace Instruction

/-- `isa<LabelInst>(i)`. -/
def isLabel : Instruction → Bool
  | .label _ => true
  | _ => false

/-- `isa<ReturnInst>(i)`. -/
def isReturn : Instruction → Bool
  | .ret .. => true
  | _ => false

/-- `isa<BranchInst>(i)`. -/
def isBranch : Instruction → Bool
  | .branch .. => true
  | _ => false

/-- `IsDirectJMP`: a branch whose opcode is `INVALID` (`IsUncondBranch`). -/
def isDirectJMP : Instruction → Bool
  | .branch op _ _ _ _ => op = .INVALID
  | _ => false

/-- The label an instruction defines. -/
def label? : Instruction → Option String
  | .label l => some l
  | _ => none

/-- The targets control can be passed to: the true one, and the false one of a conditional. -/
def targets : Instruction → List String
  | .branch op _ _ t f => if op = .INVALID then [t] else [t, f]
  | _ => []

end Instruction

/-- `RET_TO_PTRACE`. -/
def RET_TO_PTRACE : Int := 3

/-- The `Immediate` of `allow` and `deny`: the value of the enumerator. -/
def PermType.val : PermType → Int
  | .ALLOW => 0
  | .DENY => 1

/-! ## Meaning -/

/-- How a run ends: with a verdict, at a `RET_TO_PTRACE` (with the `ReturnInst` it came from),
past the last instruction, or at something that has no meaning (a jump to no label, a store to no
variable, a return of another value). -/
inductive Outcome where
  | verdict (p : PermType)
  | toPtrace (ret : Nat)
  | runOff
  | stuck
  deriving DecidableEq, Repr

/-- The outcome of a source body: its verdict, or running off its end. -/
def Outcome.ofVerdict : Option PermType → Outcome
  | some p => .verdict p
  | none => .runOff

theorem Outcome.ofVerdict_inj {a b : Option PermType}
    (h : Outcome.ofVerdict a = Outcome.ofVerdict b) : a = b := by
  cases a <;> cases b <;> simp_all [Outcome.ofVerdict]

/-- What a run records: labels passed, comparisons made, actions. -/
inductive Event (V : Type*) where
  | enter (label : String)
  | test (op : OpCode) (x y : V)
  | act (a : Action V)
  deriving DecidableEq

variable {V : Type*}

/-- The action an event is, if it is one. -/
def Event.action? : Event V → Option (Action V)
  | .act a => some a
  | _ => none

/-- The actions of a log, in order. -/
def actions (log : List (Event V)) : List (Action V) := log.filterMap Event.action?

@[simp] theorem actions_nil : actions ([] : List (Event V)) = [] := rfl

@[simp] theorem actions_append (l l' : List (Event V)) :
    actions (l ++ l') = actions l ++ actions l' := List.filterMap_append

@[simp] theorem actions_enter (l : String) : actions ([.enter l] : List (Event V)) = [] := rfl

@[simp] theorem actions_test (op : OpCode) (x y : V) : actions [.test op x y] = [] := rfl

@[simp] theorem actions_act (a : Action V) : actions [.act a] = [a] := rfl

/-- Arguments, registers (by the instruction that sets them), and what has been recorded. -/
structure IRState (V : Type*) where
  args : String → V
  regs : Nat → V
  log : List (Event V)

/-- The state as the source sees it. -/
def IRState.env (s : IRState V) : Env V := ⟨s.args, actions s.log⟩

/-- The state with one more event. -/
def IRState.record (s : IRState V) (e : Event V) : IRState V := { s with log := s.log ++ [e] }

/-- The state with the result of instruction `id`. -/
def IRState.setReg (s : IRState V) (id : Nat) (v : V) : IRState V :=
  { s with regs := Function.update s.regs id v }

/-- The state after `x = v`. -/
def IRState.assign (s : IRState V) (x : String) (v : V) : IRState V :=
  { s.record (.act (.assign x v)) with args := Function.update s.args x v }

@[simp] theorem IRState.env_setReg (s : IRState V) (id : Nat) (v : V) :
    (s.setReg id v).env = s.env := rfl

@[simp] theorem IRState.env_enter (s : IRState V) (l : String) :
    (s.record (.enter l)).env = s.env := by
  simp [IRState.env, IRState.record]

@[simp] theorem IRState.env_test (s : IRState V) (op : OpCode) (x y : V) :
    (s.record (.test op x y)).env = s.env := by
  simp [IRState.env, IRState.record]

@[simp] theorem IRState.env_assign (s : IRState V) (x : String) (v : V) :
    (s.assign x v).env = s.env.assign x v := by
  simp [IRState.env, IRState.assign, IRState.record, Env.assign]

@[simp] theorem IRState.regs_record (s : IRState V) (e : Event V) : (s.record e).regs = s.regs := rfl

variable (D : Domain V) (h : Helpers V)

/-- The value of an operand. A null operand has none; typed code never reads one. -/
def IRState.read (s : IRState V) : IRValue → V
  | .null => D.imm 0
  | .mem x => s.args x
  | .imm n => D.imm n
  | .arith id _ _ _ => s.regs id
  | .call id _ _ => s.regs id

/-- The value an `ArithmeticInst` computes. -/
def IRState.compute (s : IRState V) (op : OpCode) (op1 op2 : IRValue) : V :=
  if op = .UMINUS then D.neg (s.read D op1) else D.arith op (s.read D op1) (s.read D op2)

/-- A helper call: the result goes to the register, the call to the log. -/
def IRState.callHelper (s : IRState V) (id : Nat) (f : String) (params : List String) :
    IRState V :=
  let vs := params.map s.args
  (s.record (.act (.call f vs))).setReg id (h s.env.acts f vs)

/-- The outcome of returning `rval` from the `ReturnInst` number `id`. -/
def retOutcome (id : Nat) (rval : Int) : Outcome :=
  if rval = PermType.ALLOW.val then .verdict .ALLOW
  else if rval = PermType.DENY.val then .verdict .DENY
  else if rval = RET_TO_PTRACE then .toPtrace id
  else .stuck

/-- The effect of one instruction. -/
def irAct : Instruction → IRState V → Act String (IRState V) (Outcome × IRState V)
  | .arith id op a b, s => .next (s.setReg id (s.compute D op a b))
  | .call id f params, s => .next (s.callHelper h id f params)
  | .store src dst, s =>
    match dst with
    | .mem x => .next (s.assign x (s.read D src))
    | _ => .stop (.stuck, s)
  | .ret id rval, s => .stop (retOutcome id rval, s)
  | .branch op a b t f, s =>
    if op = .INVALID then .jump t s
    else
      let x := s.read D a
      let y := s.read D b
      .jump (if D.cmp op x y then t else f) (s.record (.test op x y))
  | .label l, s => .next (s.record (.enter l))

variable {D h} in
/-- An instruction jumps to a target of its. -/
theorem irAct_jump_targets {i : Instruction} {s s' : IRState V} {t : String}
    (ha : irAct D h i s = .jump t s') : t ∈ i.targets := by
  cases i with
  | branch op a b tt ff =>
    simp only [irAct] at ha
    by_cases hop : op = .INVALID
    · rw [if_pos hop] at ha
      simp only [Act.jump.injEq] at ha
      simp [Instruction.targets, hop, ha.1]
    · rw [if_neg hop] at ha
      simp only [Act.jump.injEq] at ha
      rw [← ha.1]
      simp only [Instruction.targets, if_neg hop]
      split <;> simp
  | store src dst =>
    simp only [irAct] at ha
    split at ha <;> simp at ha
  | _ => simp [irAct] at ha

/-- Instruction lists as labelled code. -/
def irLang : Lang Instruction String (IRState V) (Outcome × IRState V) where
  label? := Instruction.label?
  act := irAct D h
  finish s := (.runOff, s)
  dangling _ s := (.stuck, s)

/-- The labels of an instruction list. -/
def irLabels (code : List Instruction) : List String := code.filterMap Instruction.label?

@[simp] theorem irLang_labels (code : List Instruction) :
    (irLang D h).labels code = irLabels code := rfl

@[simp] theorem irLabels_append (c c' : List Instruction) :
    irLabels (c ++ c') = irLabels c ++ irLabels c' := List.filterMap_append

@[simp] theorem irLabels_nil : irLabels [] = [] := rfl

@[simp] theorem irLabels_label (l : String) : irLabels [.label l] = [l] := rfl

theorem irLabels_cons (i : Instruction) (code : List Instruction) :
    irLabels (i :: code) = i.label?.toList ++ irLabels code := by
  unfold irLabels
  cases hi : i.label? <;> simp [hi]

/-- **Interpreting a list** from its first instruction ends with outcome and state `r`. -/
def Runs (code : List Instruction) (s : IRState V) (r : Outcome × IRState V) : Prop :=
  Halts ((irLang D h).step code) (0, s) r

end SeccompPolicy
