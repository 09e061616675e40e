import SeccompPolicy.BpfCodeGen
import SeccompPolicy.Syscalls

/-!
# A whole policy: `PolicyManager`

Source: `Policy`, `SyscallCheck` and `PolicyManager` of `policy.h` and `policy.cpp`; for the
written filter also `code_template/seccomp_template.c`.

`IRGen` runs over all checks, then `CodeGen`: the label and allocation counters are threaded
through the first loop, the globals of the stubs through the second. `BPFCodeGen` puts the filters
of the checks behind a comparison each; `BPFTransformLabels` resolves the result.

* `compile` is the two stages of the driver. It has no result where the compiler exits or stops:
  an undeclared variable, an unknown name, an assertion of `BPFCodeGen`. A family of `HashOrder`s
  stands for the hash map of each check's colouring.
* `Compiled` is the specification of the two loops: what a check is compiled to depends on where
  the counters and the globals stood, and nothing else.
* `Output.finalFilters` is `final_filters` as `BPFTransformLabels` gets it, `Output.program` what
  it leaves, with exact distances, and `Output.sockFilter` what C stores of that in a
  `struct sock_filter`: the low byte of each distance. `WrittenFilter` reads the same program back
  from the text.

The number of declared arguments is not bounded here, as it is not in the source:
`GetArgumentsInfo` reads `arg_types[i]` for every name. `ArgumentBounds` has the functions that
read with their bounds checked; theorems on acceptance ask for checks that fit.

## Results

* `compile_spec`: what `compile` computes.
* `irGenChecks_cons`, `codeGenChecks_cons`: one round of each loop.

Out of scope: the output files, the debug output, and a policy without checks, for which no filter
is written.
-/

namespace SeccompPolicy

open ClassicBpf

/-- `SyscallCheck`, as the parser builds it. A `TOK_ID` is not empty. -/
structure SyscallCheck where
  syscall : String
  args : List String
  stmts : List Stmt
  named : syscall ≠ ""

theorem open_named : "open" ≠ "" := by decide

theorem close_named : "close" ≠ "" := by decide

/-- `Policy`. -/
inductive Policy where
  | check (c : SyscallCheck)
  | ext (syscall extender : String)
  | defaultDeny
  | defaultAllow

/-- The check a policy is, if it is one. -/
def Policy.check? : Policy → Option SyscallCheck
  | .check c => some c
  | _ => none

/-- `p->Type() == Policy::DEFAULT_ALLOW`. -/
def Policy.isDefaultAllow : Policy → Bool
  | .defaultAllow => true
  | _ => false

/-- What `CodeGen` leaves in a check. -/
structure CompiledCheck where
  check : SyscallCheck
  cfg : List BasicBlock
  ptraceBbs : PtraceBasicBlock
  ptraceOnlyBbs : PtraceBasicBlock
  bpfIR : List Instruction
  interfacePoints : List String
  bpfFilters : List BPFFilter

/-- The name of the system call. -/
abbrev CompiledCheck.syscall (c : CompiledCheck) : String := c.check.syscall

/-! ## The two loops -/

/-- `SyscallCheck::IRGen`: the CFG. The compiler exits when a variable is not declared. -/
def SyscallCheck.irGen (c : SyscallCheck) (m : CodeGenMgr) : Option (List BasicBlock × CodeGenMgr) :=
  let g := irGenAll c.stmts m
  if checkVariableUse g.code c.args then some (checkCFG c.stmts m c.syscall, g.mgr) else none

/-- `PolicyManager::IRGen`. -/
def irGenChecks : List SyscallCheck → CodeGenMgr →
    Option (List (SyscallCheck × List BasicBlock) × CodeGenMgr)
  | [], m => some ([], m)
  | c :: cs, m =>
    match c.irGen m with
    | none => none
    | some (cfg, m') => (irGenChecks cs m').map fun r => ((c, cfg) :: r.1, r.2)

/-- `local_labels`. -/
def localLabels (g : List BasicBlock) (blocks : PtraceBasicBlock) : List String :=
  blocks.filterMap fun e => g[e.1]?.map BasicBlock.label

/-- `interface_points_`: the labels of `ret_data_to_label` so far that are the check's own. -/
def interfaceLabels (g : List BasicBlock) (blocks : PtraceBasicBlock) (gl : RetGlobals) :
    List String :=
  gl.retDataToLabel.filter fun l => decide (l ∈ localLabels g blocks)

/-- `SyscallCheck::CodeGen`, without the lifter's text. `o` is the order of the hash map of the colouring.
`PolicyManager::CodeGen` exits before it when the name is unknown. -/
def SyscallCheck.codeGen (c : SyscallCheck) (cfg : List BasicBlock) (o : HashOrder)
    (gl : RetGlobals) : Option (CompiledCheck × RetGlobals) :=
  if syscallNameToNr c.syscall = -1 then none
  else
    let colors := colorCode cfg o
    let ir := genBPFIR cfg colors.2 gl
    (bpfCodeGen ir.2 c.args ir.1).map fun fs =>
      (⟨c, cfg, colors.1, colors.2, ir.1, interfaceLabels cfg colors.1 ir.2, fs⟩, ir.2)

/-- The loop of `PolicyManager::CodeGen`, from check number `i` on. -/
def codeGenChecks (orders : Nat → HashOrder) : Nat → List (SyscallCheck × List BasicBlock) →
    RetGlobals → Option (List CompiledCheck × RetGlobals)
  | _, [], gl => some ([], gl)
  | i, (c, cfg) :: cs, gl =>
    match c.codeGen cfg (orders i) gl with
    | none => none
    | some (cc, gl') => (codeGenChecks orders (i + 1) cs gl').map fun r => (cc :: r.1, r.2)

/-- The compiled policy: the checks, the globals at the end, and `default_deny`. -/
structure Output where
  checks : List CompiledCheck
  globals : RetGlobals
  defaultDeny : Bool

/-- `IRGen` and `CodeGen` of the driver. The number of arguments is not looked at: what `GetArgumentsInfo`
does with more of them than a row has types is in `ArgumentBounds`. -/
def compile (policys : List Policy) (orders : Nat → HashOrder) : Option Output :=
  match irGenChecks (policys.filterMap Policy.check?) {} with
  | none => none
  | some (cs, m) =>
    (codeGenChecks orders 0 cs (.initial m.nextId)).map fun r =>
      ⟨r.1, r.2, !policys.any Policy.isDefaultAllow⟩

/-! ## `PolicyManager::BPFCodeGen` -/

/-- `default_label`. -/
def defaultLabel (deny : Bool) : String := if deny then "__deny" else "__allow"

/-- The checks of the architecture and the number, in front of all. -/
def headerFilters (first : String) : List BPFFilter :=
  [.stmt [.LD, .W, .ABS] .archOffset,
    .jump [.JMP, .JEQ, .K] .tArch (.num 0) (.label "__deny"),
    .stmt [.LD, .W, .ABS] .nrOffset,
    .jump [.JMP, .JGT, .K] .upperNrLimit (.num 0) (.label first),
    .stmt [.ALU, .AND, .K] .notX32Bit]

/-- The label, the comparison and the filters of a check. -/
def CompiledCheck.filters (c : CompiledCheck) (nextLabel : String) : List BPFFilter :=
  .label c.syscall ::
    .jump [.JMP, .JEQ, .K] (.int (syscallNameToNr c.syscall)) (.num 0) (.label nextLabel) ::
      c.bpfFilters

/-- `next_label`, from the checks that are left. -/
def nextLabel (default : String) : List CompiledCheck → String
  | [] => default
  | c :: _ => c.syscall

/-- The loop of `BPFCodeGen` over the checks. -/
def checksFilters (default : String) : List CompiledCheck → List BPFFilter
  | [] => []
  | c :: cs => c.filters (nextLabel default cs) ++ checksFilters default cs

/-- The default label and the two actions. -/
def footerFilters (deny : Bool) : List BPFFilter :=
  .label (defaultLabel deny) ::
    ((if deny then [] else [.stmt [.RET, .K] .retAllow, .label "__deny"]) ++
      [.stmt [.RET, .K] .retKillProcess])

/-- `final_filters` before `BPFTransformLabels`. -/
def Output.finalFilters (out : Output) : List BPFFilter :=
  match out.checks with
  | [] => []
  | c :: cs => headerFilters c.syscall ++
      (checksFilters (defaultLabel out.defaultDeny) (c :: cs) ++ footerFilters out.defaultDeny)

/-- The seccomp program, with the distances `BPFTransformLabels` writes as exact integers. What the
kernel gets is `sockFilter`. -/
def Output.program (out : Output) : List Insn :=
  SeccompPolicy.program (bpfTransformLabels out.finalFilters)

/-- The program as C reads it from the written filter: `BPF_JUMP` stores `jt` and `jf` in the unsigned
bytes of `struct sock_filter`, so that of each distance the low byte is left. -/
def Output.sockFilter (out : Output) : List Insn := out.program.map Insn.stored

/-! ## What the loops compute -/

/-- A check compiled from a manager and from globals. -/
structure CompiledCheck.From (m : CodeGenMgr) (o : HashOrder) (gl : RetGlobals)
    (c : CompiledCheck) : Prop where
  known : Known c.syscall
  cfg : c.cfg = checkCFG c.check.stmts m c.syscall
  bbs : c.ptraceBbs = (colorCode c.cfg o).1
  onlyBbs : c.ptraceOnlyBbs = (colorCode c.cfg o).2
  bpfIR : c.bpfIR = (checkIR c.check.stmts m c.syscall o gl).1
  interface : c.interfacePoints =
    interfaceLabels c.cfg c.ptraceBbs (checkIR c.check.stmts m c.syscall o gl).2
  filters : bpfCodeGen (checkIR c.check.stmts m c.syscall o gl).2 c.check.args c.bpfIR =
    some c.bpfFilters

/-- The checks of a policy, each compiled from where the one before left off. -/
inductive Compiled : CodeGenMgr → RetGlobals → List CompiledCheck → RetGlobals → Prop
  | nil (m : CodeGenMgr) (gl : RetGlobals) : Compiled m gl [] gl
  | cons {m : CodeGenMgr} {gl gl' : RetGlobals} {c : CompiledCheck} {cs : List CompiledCheck}
    (o : HashOrder) : c.From m o gl →
    Compiled (irGenAll c.check.stmts m).mgr (checkIR c.check.stmts m c.syscall o gl).2 cs gl' →
    Compiled m gl (c :: cs) gl'

theorem codeGen_from {c : SyscallCheck} {m : CodeGenMgr} {o : HashOrder} {gl gl' : RetGlobals}
    {cc : CompiledCheck}
    (h : c.codeGen (checkCFG c.stmts m c.syscall) o gl = some (cc, gl')) :
    cc.check = c ∧ cc.From m o gl ∧ gl' = (checkIR c.stmts m c.syscall o gl).2 := by
  unfold SyscallCheck.codeGen at h
  split at h
  · cases h
  · rename_i hknown
    obtain ⟨fs, hfs, he⟩ := Option.map_eq_some_iff.mp h
    cases he
    exact ⟨rfl, ⟨hknown, rfl, rfl, rfl, rfl, rfl, hfs⟩, rfl⟩

/-- One round of `PolicyManager::IRGen`. -/
theorem irGenChecks_cons {c : SyscallCheck} {cs : List SyscallCheck} {m : CodeGenMgr}
    {r : List (SyscallCheck × List BasicBlock) × CodeGenMgr} (h : irGenChecks (c :: cs) m = some r) :
    ∃ rest, checkVariableUse (irGenAll c.stmts m).code c.args = true ∧
      irGenChecks cs (irGenAll c.stmts m).mgr = some rest ∧
      r = ((c, checkCFG c.stmts m c.syscall) :: rest.1, rest.2) := by
  unfold irGenChecks SyscallCheck.irGen at h
  by_cases huse : checkVariableUse (irGenAll c.stmts m).code c.args = true
  · simp only [huse, if_true] at h
    obtain ⟨rest, hrest, he⟩ := Option.map_eq_some_iff.mp h
    exact ⟨rest, huse, hrest, he.symm⟩
  · simp [huse] at h

/-- One round of the loop of `PolicyManager::CodeGen`. -/
theorem codeGenChecks_cons {orders : Nat → HashOrder} {e : SyscallCheck × List BasicBlock}
    {es : List (SyscallCheck × List BasicBlock)} {i : Nat} {gl : RetGlobals}
    {r : List CompiledCheck × RetGlobals} (h : codeGenChecks orders i (e :: es) gl = some r) :
    ∃ cc gl₁ rest, e.1.codeGen e.2 (orders i) gl = some (cc, gl₁) ∧
      codeGenChecks orders (i + 1) es gl₁ = some rest ∧ r = (cc :: rest.1, rest.2) := by
  unfold codeGenChecks at h
  cases hcc : e.1.codeGen e.2 (orders i) gl with
  | none => simp [hcc] at h
  | some p =>
    simp only [hcc] at h
    obtain ⟨rest, hrest, he⟩ := Option.map_eq_some_iff.mp h
    exact ⟨p.1, p.2, rest, rfl, hrest, he.symm⟩

theorem compiled_of_loops {orders : Nat → HashOrder} {cs : List SyscallCheck}
    {cfgs : List (SyscallCheck × List BasicBlock)} {m m' : CodeGenMgr} {i : Nat}
    {gl gl' : RetGlobals} {ccs : List CompiledCheck} (hir : irGenChecks cs m = some (cfgs, m'))
    (hcg : codeGenChecks orders i cfgs gl = some (ccs, gl')) :
    Compiled m gl ccs gl' ∧ ccs.map CompiledCheck.check = cs := by
  induction cs generalizing cfgs m i gl ccs with
  | nil =>
    cases hir
    cases hcg
    exact ⟨.nil _ _, rfl⟩
  | cons c cs ih =>
    obtain ⟨rest, -, hrest, he⟩ := irGenChecks_cons hir
    cases he
    obtain ⟨cc, gl₁, rest', hcc, hrest', he⟩ := codeGenChecks_cons hcg
    cases he
    obtain ⟨rfl, hfrom, rfl⟩ := codeGen_from hcc
    obtain ⟨hcomp, hmap⟩ := ih hrest hrest'
    exact ⟨.cons _ hfrom hcomp, by rw [List.map_cons, hmap]⟩

/-- **What `compile` computes.** -/
theorem compile_spec {policys : List Policy} {orders : Nat → HashOrder} {out : Output}
    (h : compile policys orders = some out) :
    (∃ n, Compiled {} (.initial n) out.checks out.globals) ∧
      out.checks.map CompiledCheck.check = policys.filterMap Policy.check? ∧
      out.defaultDeny = !policys.any Policy.isDefaultAllow := by
  unfold compile at h
  split at h
  · cases h
  · rename_i cs m hir
    obtain ⟨r, hr, rfl⟩ := Option.map_eq_some_iff.mp h
    obtain ⟨hcomp, hmap⟩ := compiled_of_loops hir hr
    exact ⟨⟨_, hcomp⟩, hmap, rfl⟩

end SeccompPolicy
