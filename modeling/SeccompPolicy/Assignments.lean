import SeccompPolicy.CText

/-!
# What an assignment delivers

Source: the `PTRACE_ASSIGN` case of `IRLifter::GenBasicBlockCode` in `IR_lifter.cpp`; `SET_ARG` of
the ptrace template.

An assignment `v = e` of an argument that is no pointer is printed as two statements, `v = e` and
`SET_ARG(i, e)`: the expression stands in both. The second evaluation sees the new `v` and calls
the helpers again.

`CExpr.run` evaluates an expression with helpers whose results may depend on what has happened,
and records their calls; a conversion to the type of `v` stands in the first statement alone.
`Delivers` is what the source means by the assignment: both places hold the value `e` had, and its
calls were made once.

## Results

* `run_liftExpr`: the lifted expression is the source's.
* `eval_calls`: an evaluation makes the calls of the expression.
* `linesOf_assign`: the lines of an assignment to an argument that is no pointer.
* `assignment_iff`: both statements deliver the value of `e` exactly when `e` calls no helper, the
  conversion to the type of the variable keeps its value, and evaluating `e` once more with the
  new value gives it again.
* `maskFlags_delivered`, `incrementFlags_doubled`: `flags = flags & 16` is delivered;
  `flags = flags + 1` leaves `18` in the variable and `19` in the argument.

C leaves the order in which operands are evaluated open; `CExpr.run` takes that of the source
language, from left to right.
-/

namespace SeccompPolicy

open StructuredCode

variable {V M : Type*}

/-! ## Expressions with effects -/

section Run

variable (D : Domain V) (h : Helpers V)

/-- The value of an expression, and the calls made. C leaves the order of operands open; here it is
the source's. -/
def CExpr.run : CExpr → Env V → V × Env V
  | .var x, σ => (σ.args x, σ)
  | .num n, σ => (D.imm n, σ)
  | .neg e, σ => let a := e.run σ; (D.neg a.1, a.2)
  | .bin op l r, σ => let a := l.run σ; let b := r.run a.2; (D.arith op a.1 b.1, b.2)
  | .call f args, σ => σ.call h f args
  | .unknown, σ => (D.imm 0, σ)

/-- **The lifted expression is the source's.** -/
theorem run_liftExpr {e : Expr} (he : e.isArith = true) (m : CodeGenMgr) (σ : Env V) :
    (liftExpr (e.irGen m).val).run D h σ = e.eval D h σ := by
  induction e generalizing m σ with
  | ref x => rfl
  | value n => rfl
  | inv f ps => rfl
  | op1 op e ih =>
    simp only [Expr.isArith, Bool.and_eq_true, decide_eq_true_eq] at he
    obtain ⟨rfl, he⟩ := he
    rw [irGen_uminus, genMinus]
    simp only [liftExpr, if_true, CExpr.run, Expr.eval, ih he]
  | op2 op l r ihl ihr =>
    simp only [Expr.isArith, Bool.and_eq_true] at he
    obtain ⟨⟨hop, hl⟩, hr⟩ := he
    have hne : op ≠ .UMINUS := by
      rintro rfl
      simp [OpCode.isBinaryArith] at hop
    rw [irGen_binary hop, genBinary]
    simp only [liftExpr, if_neg hne, CExpr.run, Expr.eval, ihl hl, ihr hr]

/-- The number of helper calls in an expression. -/
def Expr.callCount : Expr → Nat
  | .ref _ | .value _ => 0
  | .inv _ _ => 1
  | .op1 _ e => e.callCount
  | .op2 _ l r => l.callCount + r.callCount

/-- The helper calls among actions. -/
def helperCalls (as : List (Action V)) : List (String × List V) :=
  as.filterMap fun
    | .call f vs => some (f, vs)
    | .assign _ _ => none

variable {D h}

@[simp] theorem helperCalls_append (as bs : List (Action V)) :
    helperCalls (as ++ bs) = helperCalls as ++ helperCalls bs := List.filterMap_append

@[simp] theorem helperCalls_assign (x : String) (v : V) (σ : Env V) :
    helperCalls (σ.assign x v).acts = helperCalls σ.acts := by
  rw [Env.assign, helperCalls_append]
  exact List.append_nil _

/-- An evaluation makes the calls of the expression. -/
theorem eval_calls (e : Expr) (σ : Env V) : ∃ cs, cs.length = e.callCount ∧
    helperCalls (e.eval D h σ).2.acts = helperCalls σ.acts ++ cs := by
  induction e generalizing σ with
  | ref x => exact ⟨[], rfl, (List.append_nil _).symm⟩
  | value n => exact ⟨[], rfl, (List.append_nil _).symm⟩
  | inv f ps => exact ⟨[(f, ps.map σ.args)], rfl, helperCalls_append ..⟩
  | op1 op e ih => exact ih σ
  | op2 op l r ihl ihr =>
    obtain ⟨cs, hcs, hl⟩ := ihl σ
    obtain ⟨cs', hcs', hr⟩ := ihr (l.eval D h σ).2
    exact ⟨cs ++ cs', by simp [Expr.callCount, hcs, hcs'], by
      simp only [Expr.eval, hr, hl, List.append_assoc]⟩

/-- Without calls nothing happens. -/
theorem eval_callFree {e : Expr} (he : e.callCount = 0) (σ : Env V) : (e.eval D h σ).2 = σ := by
  induction e generalizing σ with
  | ref x => rfl
  | value n => rfl
  | inv f ps => cases he
  | op1 op e ih => exact ih he σ
  | op2 op l r ihl ihr =>
    obtain ⟨hl, hr⟩ := Nat.add_eq_zero_iff.mp he
    simp only [Expr.eval, ihl hl, ihr hr]

end Run

/-! ## The two statements -/

variable (R : Runtime V M) (h : Helpers V)

/-- The variables with what has happened, and `arguments`. -/
structure CFrame (V : Type*) where
  env : Env V
  arguments : Nat → BitVec 64

/-- An assignment to a variable, and `SET_ARG`. -/
def CLine.perform : CLine → CFrame V → CFrame V
  | .assign t x e, φ =>
    let a := e.run R.D h φ.env
    { φ with env := a.2.assign x (R.convert t a.1) }
  | .setArg i e, φ =>
    let a := e.run R.D h φ.env
    ⟨a.2, Function.update φ.arguments i (R.toWord a.1)⟩
  | _, φ => φ

/-- The lines printed for the code of a statement without branches. -/
def IRLifter.linesOf (L : IRLifter) (code : List Instruction) : List CLine :=
  (code.filterMap Instruction.lift).flatMap fun p =>
    codeLines (L.genPtrace (fun _ => ([], [])) p).1

/-- After the lines of `x = e` the variable and the argument hold the value `e` had, and its helper
calls were made once. -/
structure Delivers (L : IRLifter) (x : String) (e : Expr) (φ φ' : CFrame V) : Prop where
  variable_ : R.toWord (φ'.env.args x) = R.toWord (e.eval R.D h φ.env).1
  argument : φ'.arguments ((L.info.argIndex.lookup x).getD 0) = R.toWord (e.eval R.D h φ.env).1
  once : helperCalls φ'.env.acts = helperCalls (e.eval R.D h φ.env).2.acts

/-- Computations and calls are not lifted. -/
theorem number_lift {e : Expr} (he : e.isArith = true) (m : CodeGenMgr) :
    (e.irGen m).code.filterMap Instruction.lift = [] := by
  induction e generalizing m with
  | ref x => rfl
  | value n => rfl
  | inv f ps => rfl
  | op1 op e ih =>
    simp only [Expr.isArith, Bool.and_eq_true, decide_eq_true_eq] at he
    obtain ⟨rfl, he⟩ := he
    rw [irGen_uminus, genMinus, List.filterMap_append, ih he]
    rfl
  | op2 op l r ihl ihr =>
    simp only [Expr.isArith, Bool.and_eq_true] at he
    rw [irGen_binary he.1.1, genBinary, List.filterMap_append, List.filterMap_append, ihl he.1.2,
      ihr he.2]
    rfl

/-- The lines of an assignment to an argument that is no pointer. -/
theorem linesOf_assign (L : IRLifter) {x : String} (hstring : x ∉ L.info.stringArgs)
    (hmem : L.info.memArgsSize.lookup x = none) {e : Expr} (he : e.isArith = true)
    (m : CodeGenMgr) :
    L.linesOf ((Stmt.assign x e).irGen m).code =
      [.assign (L.info.typeOf x) x (liftExpr (e.irGen m).val),
        .setArg ((L.info.argIndex.lookup x).getD 0) (liftExpr (e.irGen m).val)] := by
  have hback : ∀ c, L.copyBack x c = .setArg ((L.info.argIndex.lookup x).getD 0) c := by
    intro c
    rw [IRLifter.copyBack, if_neg hstring, hmem]
  rw [Stmt.irGen, IRLifter.linesOf, List.filterMap_append, number_lift he, List.nil_append]
  exact congrArg (fun c => [_, c]) (hback _)

/-- **Both statements deliver the value of `e` exactly when** `e` calls no helper, the conversion to
the type of `x` keeps its value, and so does evaluating it once more with that value in `x`. -/
theorem assignment_iff (R : Runtime V M) (h : Helpers V) (L : IRLifter) {x : String}
    (hstring : x ∉ L.info.stringArgs) (hmem : L.info.memArgsSize.lookup x = none) {e : Expr}
    (he : e.isArith = true) (m : CodeGenMgr) (φ : CFrame V) :
    Delivers R h L x e φ ((L.linesOf ((Stmt.assign x e).irGen m).code).foldl
        (fun φ i => i.perform R h φ) φ) ↔
      e.callCount = 0 ∧
      R.toWord (R.convert (L.info.typeOf x) (e.eval R.D h φ.env).1) =
        R.toWord (e.eval R.D h φ.env).1 ∧
      R.toWord (e.eval R.D h (φ.env.assign x
          (R.convert (L.info.typeOf x) (e.eval R.D h φ.env).1))).1 =
        R.toWord (e.eval R.D h φ.env).1 := by
  rw [linesOf_assign L hstring hmem he]
  simp only [List.foldl_cons, List.foldl_nil, CLine.perform, run_liftExpr R.D h he]
  constructor
  · rintro ⟨hvar, harg, honce⟩
    have hcalls : e.callCount = 0 := by
      obtain ⟨cs, hlen, hcs⟩ := eval_calls (D := R.D) (h := h) e
        ((e.eval R.D h φ.env).2.assign x
          (R.convert (L.info.typeOf x) (e.eval R.D h φ.env).1))
      rw [hcs, helperCalls_assign] at honce
      rw [← hlen, List.append_right_eq_self.mp honce]
      rfl
    have hpure := fun σ => eval_callFree (D := R.D) (h := h) hcalls σ
    refine ⟨hcalls, ?_, ?_⟩
    · simpa only [hpure, Env.assign, Function.update_self] using hvar
    · simpa only [hpure, Function.update_self] using harg
  · rintro ⟨hcalls, hconv, hagain⟩
    have hpure := fun σ => eval_callFree (D := R.D) (h := h) hcalls σ
    refine ⟨?_, ?_, ?_⟩
    · simpa only [hpure, Env.assign, Function.update_self] using hconv
    · simpa only [hpure, Function.update_self] using hagain
    · simp only [hpure, helperCalls_assign]

/-- The lifter of `open`, whose second argument is an `int`. -/
def openLifter : IRLifter :=
  ⟨[], [], getArgumentsInfo (syscallInfos.getD 2 ⟨0, "", 0, []⟩) ["name", "flags", "mode"]⟩

/-- Words of 32 bits as values of `int`. -/
def intRuntime : Runtime (BitVec 32) Unit where
  D := words32
  helper _ _ := 0
  convert _ v := v
  ofWord w := w.setWidth 32
  toWord v := v.signExtend 64
  copyOutString _ _ := 0
  copyOutMem _ _ _ _ := 0
  copyBackString _ _ m := m
  copyBackMem _ _ _ _ m := m

/-- `flags` is `17` at the start. -/
def flagsFrame : CFrame (BitVec 32) := ⟨⟨fun _ => 17, []⟩, fun _ => 17⟩

/-- `flags = flags & 16`, as in the source's tests. -/
def maskFlags : Expr := .op2 .BITAND (.ref "flags") (.value 16)

theorem maskFlags_delivered : Delivers intRuntime (fun _ _ _ => 0) openLifter "flags" maskFlags
    flagsFrame ((openLifter.linesOf ((Stmt.assign "flags" maskFlags).irGen {}).code).foldl
      (fun φ i => i.perform intRuntime (fun _ _ _ => 0) φ) flagsFrame) :=
  (assignment_iff intRuntime _ openLifter (by decide) (by decide) rfl {} flagsFrame).mpr
    ⟨rfl, rfl, rfl⟩

/-- `flags = flags + 1` leaves `18` in the variable and `19` in the argument. -/
theorem incrementFlags_doubled : ¬ Delivers intRuntime (fun _ _ _ => 0) openLifter "flags"
    (.op2 .PLUS (.ref "flags") (.value 1)) flagsFrame
    ((openLifter.linesOf ((Stmt.assign "flags" (.op2 .PLUS (.ref "flags") (.value 1))).irGen
      {}).code).foldl (fun φ i => i.perform intRuntime (fun _ _ _ => 0) φ) flagsFrame) := by
  rintro ⟨-, harg, -⟩
  exact absurd harg (by decide)

end SeccompPolicy
