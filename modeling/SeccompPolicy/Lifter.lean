import SeccompPolicy.BpfCodeGen
import SeccompPolicy.Lib.StructuredCode
import SeccompPolicy.Syscalls

/-!
# C code of the tracer: expressions, statements, and the prologue of a check

Source: `PtraceCode` of `IR_lifter.h`, `LiftExpr`, `__LiftInst` and `LiftBasicBlock` of
`IR_lifter.cpp`, `GetArgumentsInfo` and `GenPtracePrologue` of `code_gen.cpp`.

* `LiftExpr` prints an operand as a C expression; every operator is in parentheses, so the text is
  the tree `CExpr`. The text itself is in `LiftText`.
* `__LiftInst` makes a `PtraceCode` of a branch, a store or a return; `LiftBasicBlock` hands it
  nothing else. A return of another value than a verdict's leaves the type unset; nothing is
  printed for it then.
* The generated code is structured code (`CStmt`, over `Lib.StructuredCode`): lines, labels and
  conditionals with two arms. Its layout and its indentation are left out. A line keeps the type
  of the variable it assigns, because C converts.
* `GetArgumentsInfo` reads the types of a check's arguments from the table, takes `const` out of
  them and sorts the arguments into strings, objects and scalars. `GenPtracePrologue` declares and
  loads the arguments its ptrace blocks use. Later entries of a map stand in front of earlier
  ones.

Here `arg_types[i]` past the end of the array is an empty type; `ArgumentBounds` has the functions
with their reads checked, and says for which checks no such read happens.
-/

namespace SeccompPolicy

/-- A C expression. `unknown` is the text `<unknown>`. -/
inductive CExpr where
  | var (name : String)
  | num (n : Int)
  | neg (e : CExpr)
  | bin (op : OpCode) (l r : CExpr)
  | call (callee : String) (args : List String)
  | unknown
  deriving DecidableEq, Repr

/-- `LiftExpr`. -/
def liftExpr : IRValue → CExpr
  | .arith _ op op1 op2 =>
    if op = .UMINUS then .neg (liftExpr op1) else .bin op (liftExpr op1) (liftExpr op2)
  | .imm n => .num n
  | .mem x => .var x
  | .call _ f args => .call f args
  | .null => .unknown

/-- The condition of a lifted branch. -/
structure CCond where
  op : OpCode
  left : CExpr
  right : CExpr
  deriving DecidableEq, Repr

/-- `PtraceCode`. The type is empty for a return of another value than a verdict's; nothing is
printed for it. -/
inductive PtraceCode where
  | if_ (cond : CCond) (trueTarget falseTarget : String)
  | goto (trueTarget : String)
  | allow
  | deny
  | assign (dst : String) (expr : CExpr)
  | none
  deriving DecidableEq, Repr

/-- `IRValue::String` of a store's destination. -/
def IRValue.dst : IRValue → String
  | .mem x => x
  | _ => ""

/-- `LiftBasicBlock` for one instruction: only branches, stores and returns are lifted. -/
def Instruction.lift : Instruction → Option PtraceCode
  | .branch op op1 op2 t f =>
    if op = .INVALID then some (.goto t) else some (.if_ ⟨op, liftExpr op1, liftExpr op2⟩ t f)
  | .store src dst => some (.assign dst.dst (liftExpr src))
  | .ret _ rval =>
    if rval = PermType.ALLOW.val then some .allow
    else if rval = PermType.DENY.val then some .deny
    else some .none
  | _ => none

/-- **What is lifted**: a jump, a conditional branch, a store or a return. -/
theorem Instruction.lift_cases {i : Instruction} {p : PtraceCode} (h : i.lift = some p) :
    (∃ a b t f, i = .branch .INVALID a b t f ∧ p = .goto t) ∨
    (∃ op a b t f, op ≠ .INVALID ∧ i = .branch op a b t f ∧
      p = .if_ ⟨op, liftExpr a, liftExpr b⟩ t f) ∨
    (∃ src dst, i = .store src dst ∧ p = .assign dst.dst (liftExpr src)) ∨
    ∃ id rval, i = .ret id rval ∧ (p = .allow ∨ p = .deny ∨ p = .none) := by
  cases i with
  | branch op a b t f =>
    by_cases hop : op = .INVALID
    · subst hop
      exact .inl ⟨a, b, t, f, rfl, (Option.some.inj h).symm⟩
    · simp only [Instruction.lift, if_neg hop, Option.some.injEq] at h
      exact .inr (.inl ⟨op, a, b, t, f, hop, rfl, h.symm⟩)
  | store src dst => exact .inr (.inr (.inl ⟨src, dst, rfl, (Option.some.inj h).symm⟩))
  | ret id rval =>
    simp only [Instruction.lift] at h
    refine .inr (.inr (.inr ⟨id, rval, rfl, ?_⟩))
    split_ifs at h <;> obtain rfl := Option.some.inj h <;> simp
  | _ => cases h

/-- A line of C. What is assigned is converted to the type of the variable, which is kept with the
line; a copy of memory is assigned as it is. -/
inductive CLine where
  | declare (type name : String)
  | copyOutString (name : String) (index : Nat)
  | copyOutMem (name : String) (index : Nat) (size : String)
  | getArg (type name : String) (index : Nat)
  | gotoTable
  | goto (label : String)
  | allow
  | deny
  | assign (type dst : String) (expr : CExpr)
  | copyBackString (name : String) (index : Nat)
  | copyBackMem (name : String) (index : Nat) (size : String)
  | setArg (index : Nat) (expr : CExpr)
  deriving DecidableEq, Repr

/-- The text: lines, labels and `if`s with two arms. -/
abbrev CStmt := StructuredCode.Stmt String CCond CLine

/-! ## `GetArgumentsInfo` -/

/-- `t.erase(pos, 5)` at every `const`, from the left. -/
def eraseConst : Nat → List Char → List Char
  | 0, t => t
  | fuel + 1, t =>
    match t.tails.findIdx? fun s => "const".toList.isPrefixOf s with
    | none => t
    | some pos => eraseConst fuel (t.take pos ++ t.drop (pos + 5))

/-- The type a variable is declared with: the one of the table without `const` and without the
blank in front. -/
def declaredType (type : String) : String :=
  let t := eraseConst type.length type.toList
  String.ofList (if t.head? = some ' ' then t.tail else t)

/-- What an argument is to the lifter. -/
inductive ArgClass where
  | string
  | mem (size : String)
  | word
  deriving DecidableEq, Repr

/-- The classification in the loop of `GetArgumentsInfo`, by the declared type. -/
def classify (syscall : String) (index : Nat) (type : String) : ArgClass :=
  if type.toList.tails.any fun s => "char *".toList.isPrefixOf s then
    if syscall = "read" ∨ syscall = "write" then .mem ("GET_ARG(" ++ (index + 1).repr ++ ")")
    else .string
  else if type.toList.getLast? = some '*' then
    .mem ("sizeof(" ++ String.ofList type.toList.dropLast ++ ")")
  else .word

/-- What `GetArgumentsInfo` hands to the lifter. -/
structure ArgumentsInfo where
  stringArgs : List String
  memArgsSize : List (String × String)
  argTypes : List (String × String)
  argIndex : List (String × Nat)
  deriving DecidableEq, Repr

/-- One round of the loop. A later entry of a map stands in front of an earlier one. -/
def ArgumentsInfo.add (info : SyscallInfo) (a : ArgumentsInfo) (e : String × Nat) : ArgumentsInfo :=
  let t := declaredType (info.argTypes.getD e.2 "")
  let a := { a with argIndex := e :: a.argIndex, argTypes := (e.1, t) :: a.argTypes }
  match classify info.name e.2 t with
  | .string => { a with stringArgs := e.1 :: a.stringArgs }
  | .mem size => { a with memArgsSize := (e.1, size) :: a.memArgsSize }
  | .word => a

/-- `GetArgumentsInfo`. -/
def getArgumentsInfo (info : SyscallInfo) (args : List String) : ArgumentsInfo :=
  args.zipIdx.foldl (ArgumentsInfo.add info) ⟨[], [], [], []⟩

/-! ## `GenPtracePrologue` -/

/-- The memory an operand is. -/
def IRValue.mem? : IRValue → Option String
  | .mem x => some x
  | _ => none

/-- The names an instruction of a ptrace block puts in `args_used`. -/
def Instruction.argsUsed : Instruction → List String
  | .call _ _ args => args
  | .store src _ => src.mem?.toList
  | .arith _ _ op1 op2 | .branch _ op1 op2 _ _ => op1.mem?.toList ++ op2.mem?.toList
  | _ => []

/-- `args_used`, from the instructions of the ptrace blocks. -/
def argsUsed (args : List String) (blocks : List BasicBlock) : List Nat :=
  (blocks.flatMap fun B => B.insts.flatMap Instruction.argsUsed).map (argIndex args)

/-- `arg_types_->at(x)`. -/
def ArgumentsInfo.typeOf (a : ArgumentsInfo) (x : String) : String := (a.argTypes.lookup x).getD ""

/-- The line that loads an argument. -/
def ArgumentsInfo.extract (a : ArgumentsInfo) (x : String) (i : Nat) : CLine :=
  if x ∈ a.stringArgs then .copyOutString x i
  else
    match a.memArgsSize.lookup x with
    | some size => .copyOutMem x i size
    | none => .getArg (a.typeOf x) x i

/-- The arguments `GenPtracePrologue` declares and loads. -/
def argsLoaded (info : SyscallInfo) (args : List String) (blocks : List BasicBlock) : List Nat :=
  (List.range info.numArgs).filter fun i => decide (i ∈ argsUsed args blocks)

/-- `GenPtracePrologue`: the declarations, the start label, the loads. -/
def genPtracePrologue (info : SyscallInfo) (args : List String) (blocks : List BasicBlock) :
    List CStmt :=
  let a := getArgumentsInfo info args
  let used := argsLoaded info args blocks
  let name := fun i => args.getD i ""
  used.map (fun i => .line (.declare (a.typeOf (name i)) (name i))) ++
    .label (info.name ++ "_start") :: used.map fun i => .line (a.extract (name i) i)

end SeccompPolicy
