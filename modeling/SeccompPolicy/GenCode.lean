import SeccompPolicy.Handshake
import SeccompPolicy.Lifter

/-!
# The text of a check: `IRLifter::GenCode`

Source: `IRLifter` of `IR_lifter.h`, `IRLifter::GenCode` and `IRLifter::GenBasicBlockCode` of
`IR_lifter.cpp`, `GenPtraceCode` of `code_gen.cpp`.

`GenPtraceCode` lifts the ptrace blocks in the order of the CFG; a block that does not start at
its first instruction is reported ("unsupported case") and left out. `GenCode` prints each block
that is not printed yet, and `GenBasicBlockCode` prints a block that one branch refers to inside
the arm of that branch, and a `goto` otherwise.

The maps of the lifter are functions of the lifted blocks: `code_blocks_` is a list in
`block_order_`, `block_ref_cnt_[label]` counts the references to the label, `used_` is passed
along and returned. `GenBasicBlockCode` calls itself on the block of an arm; the model gives it a
depth. Branches go forward, so that the number of blocks is enough (`genBasicBlockCode_depth` in
`Printed`).
-/

namespace SeccompPolicy

open StructuredCode

/-- The labels a `PtraceCode` refers to. -/
def PtraceCode.targets : PtraceCode → List String
  | .if_ _ t f => [t, f]
  | .goto t => [t]
  | _ => []

/-- `IRLifter`, when the blocks are lifted. `codeBlocks` is `code_blocks_`, in `block_order_`. -/
structure IRLifter where
  codeBlocks : List (String × List PtraceCode)
  interfacePoints : List String
  info : ArgumentsInfo

/-- `LiftBasicBlock`. -/
def BasicBlock.lift (B : BasicBlock) : String × List PtraceCode :=
  (B.label, B.insts.filterMap Instruction.lift)

/-- `GenPtraceCode`: a block that does not start at its first instruction is not lifted. -/
def genPtraceCode (g : List BasicBlock) (blocks : PtraceBasicBlock) :
    List (String × List PtraceCode) :=
  ((g.zipIdx.filter fun e => blocks.count e.2).filter fun e =>
    decide (blocks.start e.2 = e.1.firstInst)).map fun e => e.1.lift

namespace IRLifter

variable (L : IRLifter)

/-- `code_blocks_[label]`. The pointer is null for a block that is not lifted. -/
def code (label : String) : List PtraceCode := (L.codeBlocks.lookup label).getD []

/-- `block_ref_cnt_[label]`: how often the lifted code refers to the label. -/
def blockRefCnt (label : String) : Nat :=
  (L.codeBlocks.flatMap fun e => e.2.flatMap PtraceCode.targets).count label

/-- The line after an assignment, which brings the new value to the tracee. -/
def copyBack (dst : String) (expr : CExpr) : CLine :=
  let i := (L.info.argIndex.lookup dst).getD 0
  if dst ∈ L.info.stringArgs then .copyBackString dst i
  else
    match L.info.memArgsSize.lookup dst with
    | some size => .copyBackMem dst i size
    | none => .setArg i expr

/-- The text of one `PtraceCode`, and the blocks used for it. `arm` is what a branch that refers to
a label prints. -/
def genPtrace (arm : String → List CStmt × List String) : PtraceCode → List CStmt × List String
  | .if_ cond t f => ([.branch cond (arm t).1 (arm f).1], (arm t).2 ++ (arm f).2)
  | .goto t => ([.line (.goto t)], [])
  | .allow => ([.line .allow], [])
  | .deny => ([.line .deny], [])
  | .assign dst expr =>
    ([.line (.assign (L.info.typeOf dst) dst expr), .line (L.copyBack dst expr)], [])
  | .none => ([], [])

/-- The label, when a jump can go to it. -/
def genLabel (label : String) : List CStmt :=
  if label ∈ L.interfacePoints ∨ 1 < L.blockRefCnt label then [.label label] else []

/-- `GenBasicBlockCode`: the text of a block, and the blocks marked `used_`. The branches of the
compiler go forward, so a depth of as many blocks as there are is enough
(`IRLifter.genCode_perm`). -/
def genBasicBlockCode : Nat → String → List CStmt × List String
  | 0, _ => ([], [])
  | depth + 1, label =>
    let arm := fun t =>
      if L.blockRefCnt t = 1 then genBasicBlockCode depth t else ([.line (.goto t)], [])
    let parts := (L.code label).map (L.genPtrace arm)
    (L.genLabel label ++ parts.flatMap Prod.fst, label :: parts.flatMap Prod.snd)

/-- One round of the loop of `GenCode`: the text so far, and `used_`. -/
def genRound (acc : List CStmt × List String) (e : String × List PtraceCode) :
    List CStmt × List String :=
  if e.1 ∈ acc.2 then acc
  else
    let r := L.genBasicBlockCode L.codeBlocks.length e.1
    (acc.1 ++ r.1, acc.2 ++ r.2)

/-- `GenCode`. -/
def genCode : List CStmt := (L.codeBlocks.foldl L.genRound ([], [])).1

end IRLifter

/-- `syscall_infos[SyscallNameToNr(syscall_)]`. -/
def CompiledCheck.syscallInfo (c : CompiledCheck) : SyscallInfo :=
  syscallInfos.getD (syscallNameToNr c.syscall).toNat ⟨0, "", 0, []⟩

/-- The blocks of `ptrace_bbs_`. -/
def CompiledCheck.ptraceBlocks (c : CompiledCheck) : List BasicBlock :=
  c.ptraceBbs.filterMap fun e => c.cfg[e.1]?

/-- `lifter_`. -/
def CompiledCheck.lifter (c : CompiledCheck) : IRLifter where
  codeBlocks := genPtraceCode c.cfg c.ptraceBbs
  interfacePoints := c.interfacePoints
  info := getArgumentsInfo c.syscallInfo c.check.args

end SeccompPolicy
