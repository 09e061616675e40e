import Mathlib.Logic.Function.Basic

/-!
# The policy language: syntax trees and their meaning

Source: the nodes of `ast.h` (`OpNode`, `RefExprNode`, `ValueNode`, `InvocationNode`, and the
statement nodes) and the table `opInfo` of `ast.cpp`.

* `Expr` and `Stmt` are the trees the parser builds. An `OpNode` holds one operand or two (`op1`,
  `op2`); which operators have two is up to the parser, so the type allows `op1 .ADD` and
  `op2 .NOT`, and the typing discipline leaves them out.
* `isArith` and `isCond` are that discipline: an arithmetic expression has no comparison, `&&`,
  `||` or `!` in it, a condition is built by these from comparisons of numbers and from numbers.
  The source has no check of this kind: `IRGen` hands a null operand on when an expression does
  not keep to it.
* The source meaning is what a reader of `README.md` expects: operands are evaluated from left to
  right, `&&` and `||` stop at the first operand that decides, a number used as a condition is
  compared with `0`, statements are executed in order up to the first verdict, and a body may run
  off its end.

The meaning is over an arbitrary type `V` of machine words (`Domain V`) and an arbitrary helper
behaviour, which may depend on everything that happened before the call (`Helpers V`). What a body
does to the outside is its list of `Action`s. `words32` is the domain of the filter, 32 bits
without a sign.

Out of scope: the positions in the file that every node carries, and the printing of trees.
-/

namespace SeccompPolicy

/-- `OpNode::OpCode`, in the order of the source. -/
inductive OpCode where
  | UMINUS | PLUS | MINUS | MULT | DIV | MOD
  | EQ | NE | GT | LT | GE | LE
  | AND | OR | NOT
  | BITNOT | BITAND | BITOR | BITXOR
  | SHL | SHR
  | INVALID
  deriving DecidableEq, Repr

/-- `opInfo[op].name_`. -/
def OpCode.name : OpCode → String
  | .UMINUS => "-" | .PLUS => "+" | .MINUS => "-" | .MULT => "*" | .DIV => "/" | .MOD => "%"
  | .EQ => "==" | .NE => "!=" | .GT => ">" | .LT => "<" | .GE => ">=" | .LE => "<="
  | .AND => "&&" | .OR => "||" | .NOT => "!"
  | .BITNOT => "~" | .BITAND => "&" | .BITOR => "|" | .BITXOR => "^"
  | .SHL => "<<" | .SHR => ">>"
  | .INVALID => "invalid"

/-- The six comparison operators. -/
def OpCode.isCmp : OpCode → Bool
  | .EQ | .NE | .GT | .LT | .GE | .LE => true
  | _ => false

/-- The test of `GenBranchCode`: `op >= EQ && op <= NOT`. -/
def OpCode.isBoolean (op : OpCode) : Bool :=
  decide (OpCode.EQ.ctorIdx ≤ op.ctorIdx) && decide (op.ctorIdx ≤ OpCode.NOT.ctorIdx)

/-- The operators of `expr op expr` that yield a number. -/
def OpCode.isBinaryArith (op : OpCode) : Bool :=
  !op.isBoolean && decide (op ≠ .UMINUS) && decide (op ≠ .INVALID)

theorem OpCode.not_isBoolean {op : OpCode} (h : op.isBinaryArith = true) :
    op.isBoolean = false := by
  simp only [OpCode.isBinaryArith, Bool.and_eq_true, Bool.not_eq_true'] at h
  exact h.1.1

/-- `ExprNode`. An `OpNode` holds one operand (`op1`) or two (`op2`). -/
inductive Expr where
  | ref (name : String)
  | op1 (opcode : OpCode) (arg : Expr)
  | op2 (opcode : OpCode) (lhs rhs : Expr)
  | value (ival : Int)
  | inv (func : String) (params : List String)
  deriving DecidableEq, Repr

/-- `PermNode::PermType`. -/
inductive PermType where
  | ALLOW | DENY
  deriving DecidableEq, Repr

/-- `StmtNode`. `ifThen` is an `IfNode` without an else branch; `empty` is the statement `;`. -/
inductive Stmt where
  | empty
  | perm (type : PermType)
  | ifThen (cond : Expr) (then_ : Stmt)
  | ifElse (cond : Expr) (then_ else_ : Stmt)
  | assign (arg : String) (expr : Expr)
  | compound (stmts : List Stmt)

/-! ## Typing -/

/-- A number: no comparison, `&&`, `||` or `!` anywhere in it. -/
def Expr.isArith : Expr → Bool
  | .ref _ | .value _ | .inv _ _ => true
  | .op1 op e => op = .UMINUS && e.isArith
  | .op2 op l r => op.isBinaryArith && l.isArith && r.isArith

/-- A condition: boolean operators over comparisons of numbers and over numbers. -/
def Expr.isCond : Expr → Bool
  | .ref _ | .value _ | .inv _ _ => true
  | .op1 op e => if op = .NOT then e.isCond else op = .UMINUS && e.isArith
  | .op2 op l r =>
    if op = .AND ∨ op = .OR then l.isCond && r.isCond
    else (op.isCmp || op.isBinaryArith) && l.isArith && r.isArith

mutual

/-- The statement type-checks: conditions are conditions, assigned expressions are numbers. -/
def Stmt.wellTyped : Stmt → Bool
  | .empty | .perm _ => true
  | .ifThen c t => c.isCond && t.wellTyped
  | .ifElse c t e => c.isCond && t.wellTyped && e.wellTyped
  | .assign _ e => e.isArith
  | .compound ss => allWellTyped ss

/-- Every statement of the list type-checks. -/
def allWellTyped : List Stmt → Bool
  | [] => true
  | s :: ss => s.wellTyped && allWellTyped ss

end

/-! ## What a program does -/

/-- The words the code computes with: constants, unary minus, the arithmetic and the
comparison operators. -/
structure Domain (V : Type*) where
  imm : Int → V
  neg : V → V
  arith : OpCode → V → V → V
  cmp : OpCode → V → V → Bool

/-- The words of the filter: 32 bits, unsigned. -/
def words32 : Domain (BitVec 32) where
  imm := BitVec.ofInt 32
  neg x := -x
  arith op x y :=
    match op with
    | .PLUS => x + y | .MINUS => x - y | .MULT => x * y | .DIV => x / y | .MOD => x % y
    | .BITAND => x &&& y | .BITOR => x ||| y | .BITXOR => x ^^^ y
    | .SHL => x <<< y | .SHR => x >>> y
    | _ => x
  cmp op x y :=
    match op with
    | .EQ => x == y | .NE => x != y
    | .GT => BitVec.ult y x | .LT => BitVec.ult x y
    | .GE => BitVec.ule y x | .LE => BitVec.ule x y
    | _ => false

/-- What is seen of a check from outside: helper calls and argument assignments. -/
inductive Action (V : Type*) where
  | call (func : String) (args : List V)
  | assign (name : String) (val : V)
  deriving DecidableEq

/-- A helper behaviour: the result of a call may depend on all actions before it. -/
abbrev Helpers (V : Type*) := List (Action V) → String → List V → V

/-- The values of the arguments, and the actions so far. -/
structure Env (V : Type*) where
  args : String → V
  acts : List (Action V)

variable {V : Type*}

/-- A helper call on the current values of its parameters. -/
def Env.call (h : Helpers V) (f : String) (params : List String) (σ : Env V) : V × Env V :=
  let vs := params.map σ.args
  (h σ.acts f vs, { σ with acts := σ.acts ++ [.call f vs] })

/-- An assignment. -/
def Env.assign (x : String) (v : V) (σ : Env V) : Env V :=
  ⟨Function.update σ.args x v, σ.acts ++ [.assign x v]⟩

variable (D : Domain V) (h : Helpers V)

/-- The value of a number, operands left to right. -/
def Expr.eval : Expr → Env V → V × Env V
  | .ref x, σ => (σ.args x, σ)
  | .value n, σ => (D.imm n, σ)
  | .inv f params, σ => σ.call h f params
  | .op1 _ e, σ => let a := e.eval σ; (D.neg a.1, a.2)
  | .op2 op l r, σ => let a := l.eval σ; let b := r.eval a.2; (D.arith op a.1 b.1, b.2)

/-- A number used as a condition: it is compared with `0`. -/
def Expr.nonzero (e : Expr) (σ : Env V) : Bool × Env V :=
  let a := e.eval D h σ
  (D.cmp .NE a.1 (D.imm 0), a.2)

/-- The truth of a condition, with short-circuit `&&` and `||`. -/
def Expr.cond : Expr → Env V → Bool × Env V
  | .op1 op e, σ =>
    if op = .NOT then let a := e.cond σ; (!a.1, a.2) else (Expr.op1 op e).nonzero D h σ
  | .op2 op l r, σ =>
    if op = .AND then let a := l.cond σ; if a.1 then r.cond a.2 else a
    else if op = .OR then let a := l.cond σ; if a.1 then a else r.cond a.2
    else if op.isCmp then
      let a := l.eval D h σ; let b := r.eval D h a.2; (D.cmp op a.1 b.1, b.2)
    else (Expr.op2 op l r).nonzero D h σ
  | .ref x, σ => (Expr.ref x).nonzero D h σ
  | .value n, σ => (Expr.value n).nonzero D h σ
  | .inv f params, σ => (Expr.inv f params).nonzero D h σ

mutual

/-- Executing a statement: `some v` when it allows or denies, `none` when it runs off its end. -/
def Stmt.exec : Stmt → Env V → Option PermType × Env V
  | .empty, σ => (none, σ)
  | .perm p, σ => (some p, σ)
  | .ifThen c t, σ => let a := c.cond D h σ; if a.1 then t.exec a.2 else (none, a.2)
  | .ifElse c t e, σ => let a := c.cond D h σ; if a.1 then t.exec a.2 else e.exec a.2
  | .assign x e, σ => let a := e.eval D h σ; (none, a.2.assign x a.1)
  | .compound ss, σ => execAll ss σ

/-- Executing statements in order, up to the first verdict. -/
def execAll : List Stmt → Env V → Option PermType × Env V
  | [], σ => (none, σ)
  | s :: ss, σ =>
    match s.exec σ with
    | (none, σ') => execAll ss σ'
    | (some p, σ') => (some p, σ')

end

end SeccompPolicy
