import SeccompPolicy.ExactChecks
import SeccompPolicy.Linking
import SeccompPolicy.WrittenFilter

/-!
# What a policy means

The meaning of a policy on a call: another architecture is killed; a call with the number of a check
gets the verdict of its body; every other call, and one whose body comes to no verdict, gets the
default action (`policyWord`). The bodies are read on the low 32-bit words of the arguments, which is
all that the filter looks at (`SeccompData.words`): a comparison of a 64-bit argument is not one of the
register.

## Results

* `foreign_killed`, `unlisted_default`: calls of another architecture, and of no check.
* `policy_compiled`: for a policy of exact checks the seccomp program returns on every call what the
  policy means.
* `policy_written`: so does the program that C reads in the written text, when the filter is not too
  long for its jumps. The whole way is covered, from the text of the policy (`lexer.l`, `parser.y++`)
  to the text of the filter (`StringfyBPF_Filter`, `policy.cpp`).

Out of scope: checks that call helpers or assign (`HandOver`), checks with `%`, whose filter the
kernel does not load, and several checks of one name (`Dispatch`).
-/

namespace SeccompPolicy

open ClassicBpf SmallStep

/-! ## The meaning -/

/-- The number of the system call. -/
def SyscallCheck.nr (c : SyscallCheck) : Word := BitVec.ofInt 32 (syscallNameToNr c.syscall)

/-- The default action of a policy. -/
def defaultWord (policys : List Policy) : Word :=
  if policys.any Policy.isDefaultAllow then SECCOMP_RET_ALLOW else SECCOMP_RET_KILL_PROCESS

/-- **The meaning of a policy** on a call: its number as the filter compares it (`dispatchNr`), and the
low 32-bit words of its arguments for the variables of a body. -/
def policyWord (helpers : Helpers Word) (policys : List Policy) (d : SeccompData) : Word :=
  if d.arch = auditArchX86_64 then
    (((policys.filterMap Policy.check?).find? fun c => decide (c.nr = dispatchNr d.nr)).bind
      fun c => c.word? helpers d).getD (defaultWord policys)
  else SECCOMP_RET_KILL_PROCESS

/-! ## The program -/

section

variable {out : Output}

/-- A call of another architecture is killed. -/
theorem foreign_killed (hne : out.checks ≠ []) {d : SeccompData} (harch : d.arch ≠ auditArchX86_64) :
    Halts (step out.program d) (0, {}) (some SECCOMP_RET_KILL_PROCESS) := by
  obtain ⟨front, hF, -⟩ := finalFilters_ends hne
  have h0 := @program_getElem out [] _ _ rfl hF
  have h1 : out.program[1]? = some (BPFFilter.jump [.JMP, .JEQ, .K] .tArch (.num 0)
      (.num out.denyDistance)).insn := by
    rw [Output.program, program, List.getElem?_map, archCheck_field hne]
    rfl
  obtain ⟨front', hlast, hplace⟩ := finalFilters_last hne
  have h2 := program_getElem rfl hlast
  rw [hplace, show out.denyDistance + 2 = 1 + 1 + out.denyDistance by omega] at h2
  have s0 : step out.program d (0, {}) = .inl (1, { A := d.arch }) := step_next h0 rfl
  have s1 : step out.program d (1, { A := d.arch }) =
      .inl (1 + 1 + out.denyDistance, { A := d.arch }) :=
    step_skip h1 ((exec_jeq d auditArchX86_64 (some 0) _ _).trans (if_neg harch ▸ rfl))
  exact (Reaches.head s0 (.single s1)).halts (step_ret h2 rfl)

/-- A call of no check is left to the default action. -/
theorem unlisted_default (hL : Labelled out.checks) (hne : out.checks ≠ []) {d : SeccompData}
    (harch : d.arch = auditArchX86_64)
    (hnone : ∀ c ∈ out.checks, c.nr ≠ dispatchNr d.nr) :
    Halts (step out.program d) (0, {}) (some out.defaultAction) := by
  have hhead := header_run hL hne harch
  obtain ⟨hentry, -, -⟩ := entry_spec hne d.nr
  obtain ⟨j, -, hj, hrun, hstop, -, -⟩ :=
    dispatch_run hL d { A := dispatchNr d.nr } (Nat.le_of_lt hentry)
  have hend : j = out.checks.length := by
    refine Nat.le_antisymm hj (Nat.le_of_not_lt fun hlt => ?_)
    have hc := List.getElem?_eq_getElem hlt
    exact hnone _ (List.mem_of_getElem? hc) (hstop _ hc).symm
  rw [hend] at hrun
  exact (hhead.trans hrun).reaches.halts (step_default hne d _)

end

/-! ## The whole policy -/

/-- All checks are exact, their names differ, and only the last one may come to no verdict. -/
structure ExactPolicy (cs : List SyscallCheck) : Prop where
  ne : cs ≠ []
  nodup : (cs.map SyscallCheck.syscall).Nodup
  exact : ∀ c ∈ cs, c.Exact
  decides : ∀ c ∈ cs.dropLast, ∀ helpers d, c.word? helpers d ≠ none

section

variable {policys : List Policy} {orders : Nat → HashOrder} {out : Output}

/-- The default action is written as its word. -/
theorem defaultWord_compiled (h : compile policys orders = some out) :
    defaultWord policys = out.defaultAction := by
  obtain ⟨-, -, hdeny⟩ := compile_spec h
  rw [defaultWord, Output.defaultAction, hdeny]
  cases policys.any Policy.isDefaultAllow <;> rfl

/-- Of the checks that are compiled, each in front of the last one comes to a verdict. -/
theorem ExactPolicy.decides_or_last {cs : List CompiledCheck}
    (hexact : ExactPolicy (cs.map CompiledCheck.check)) {i : Nat} {c : CompiledCheck}
    (hc : cs[i]? = some c) (helpers : Helpers Word) (d : SeccompData) :
    c.check.word? helpers d ≠ none ∨ i + 1 = cs.length := by
  by_cases hlast : i + 1 = cs.length
  · exact .inr hlast
  · refine .inl (hexact.decides _ ?_ helpers d)
    have hlt := (List.getElem?_eq_some_iff.mp hc).1
    rw [← List.map_dropLast]
    refine List.mem_map_of_mem (List.mem_of_getElem? (i := i) ?_)
    rw [List.getElem?_dropLast, if_pos (by omega), hc]

/-- **A policy of exact checks is compiled as it is written**: on every call the seccomp program, its
distances exact, returns what the policy means. -/
theorem policy_compiled (h : compile policys orders = some out)
    (hexact : ExactPolicy (policys.filterMap Policy.check?)) (helpers : Helpers Word)
    (d : SeccompData) :
    Halts (step out.program d) (0, {}) (some (policyWord helpers policys d)) := by
  obtain ⟨⟨N, hcomp⟩, hchecks, -⟩ := compile_spec h
  unfold policyWord
  rw [← hchecks] at hexact ⊢
  have hne : out.checks ≠ [] := fun hnil => hexact.ne (by rw [hnil]; rfl)
  have hnd : (out.checks.map CompiledCheck.syscall).Nodup := by
    have hnodup := hexact.nodup
    rwa [List.map_map] at hnodup
  split
  · rename_i harch
    rw [List.find?_map, defaultWord_compiled h]
    cases hfind : out.checks.find? ((fun c => decide (c.nr = dispatchNr d.nr)) ∘ CompiledCheck.check) with
    | none =>
      refine unlisted_default hcomp.labelled hne harch fun c hc hnr => ?_
      have := List.find?_eq_none.mp hfind c hc
      exact this (decide_eq_true hnr)
    | some c =>
      obtain ⟨i, hi⟩ := List.mem_iff_getElem?.mp (List.mem_of_find?_eq_some hfind)
      have hfound := List.find?_some hfind
      have hnr : c.nr = dispatchNr d.nr := of_decide_eq_true hfound
      have hmem : c.check ∈ out.checks.map CompiledCheck.check :=
        List.mem_map_of_mem (List.mem_of_getElem? hi)
      exact listed_decides hcomp hnd hi (hexact.exact _ hmem) (hexact.decides_or_last hi helpers d)
        harch hnr
  · rename_i harch
    exact foreign_killed hne harch

/-! ## The written policy -/

/-- Exact checks need no tracer, so that all their labels are in the filter. -/
theorem exact_labels (h : compile policys orders = some out)
    (hexact : ∀ c ∈ policys.filterMap Policy.check?, c.Exact) : out.LabelsDefined := by
  obtain ⟨⟨N, hcomp⟩, hchecks, -⟩ := compile_spec h
  refine finalFilters_targets fun c hc => ?_
  obtain ⟨m, o, gl, hfrom, -, -⟩ := hcomp.from_mem hc
  have hstmts := (hexact c.check (hchecks ▸ List.mem_map_of_mem hc)).stmts
  obtain ⟨hright, hwt⟩ := all_exact c.check.args (fun _ => 0) _ hstmts
  have hlist := eliminated_right hright m
  refine hfrom.body_targets hwt (enterable_of_blocks fun B hB hreq => ?_)
  have hnone := checkCFG_requiresPtrace (fun i hi => requiresPtrace_of_right (hlist i hi)) c.syscall
  rw [hnone B (hfrom.cfg ▸ hB)] at hreq
  cases hreq

/-- **From the text of a policy to the text of its filter**: when the checks are exact and the
filter is not too long for its jumps, the program that C reads in the written text returns on every
call what the policy means on the low words of the arguments. -/
theorem policy_written {text : List Char} (hfront : frontEnd text = some policys)
    (h : compile policys orders = some out)
    (hexact : ExactPolicy (policys.filterMap Policy.check?)) (hle : out.denyDistance ≤ 255)
    (helpers : Helpers Word) : ∃ code, readFilter out.filterText.toList = some code ∧
      ∀ d, Halts (step code d) (0, {}) (some (policyWord helpers policys d)) := by
  have hwt : ∀ c ∈ policys.filterMap Policy.check?, allWellTyped c.stmts = true := fun c hc =>
    (all_exact c.args (fun _ => 0) _ (hexact.exact c hc).stmts).2
  exact ⟨out.program, readFilter_program hfront h (exact_labels h hexact.exact)
    (fieldsFit_of_distance h hwt hle), policy_compiled h hexact helpers⟩

end

/-- The text of `closeOpen`, with the check that may come to no verdict at its end. -/
def closeOpenText : List Char :=
  "allow all; def close(y): deny; def open(x): if (x > 5) { deny; }".toList

theorem closeOpen_parsed : frontEnd closeOpenText = some closeOpen := by
  have hlex : yylex closeOpenText = some [.ALLOW, .ALL, .SEMICOLON, .DEF, .ID "close", .LPAREN,
      .ID "y", .RPAREN, .COLON, .DENY, .SEMICOLON, .DEF, .ID "open", .LPAREN, .ID "x", .RPAREN,
      .COLON, .IF, .LPAREN, .ID "x", .GT, .UINT 5, .RPAREN, .LBRACE, .DENY, .SEMICOLON, .RBRACE] := by
    decide +kernel
  rw [frontEnd, hlex]
  rfl

theorem closeOpen_exact : ExactPolicy (closeOpen.filterMap Policy.check?) where
  ne := List.cons_ne_nil _ _
  nodup := by decide
  exact := List.forall_mem_cons.mpr ⟨⟨by decide, by decide⟩,
    List.forall_mem_singleton.mpr ⟨by decide, by decide⟩⟩
  decides := by
    intro c hc helpers d hnone
    obtain rfl := List.mem_singleton.mp hc
    exact execAll_decides [.perm .DENY] rfl _ (Option.map_eq_none_iff.mp hnone)

/-- The written filter of that text lets `open` of `3` pass and kills `open` of `7`. -/
theorem closeOpen_written : ∃ out code, compile closeOpen (fun _ => .insertion) = some out ∧
    readFilter out.filterText.toList = some code ∧
    Halts (step code (openOf 3)) (0, {}) (some SECCOMP_RET_ALLOW) ∧
    Halts (step code (openOf 7)) (0, {}) (some SECCOMP_RET_KILL_PROCESS) := by
  obtain ⟨out, hout⟩ : ∃ out, compile closeOpen (fun _ => .insertion) = some out := ⟨_, rfl⟩
  have hle : out.denyDistance ≤ 255 := by
    obtain rfl := Option.some.inj hout
    decide
  obtain ⟨code, hcode, hall⟩ := policy_written closeOpen_parsed hout closeOpen_exact hle
    fun _ _ _ => 0
  exact ⟨out, code, hout, hcode, hall (openOf 3), hall (openOf 7)⟩

end SeccompPolicy
