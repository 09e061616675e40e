import SeccompPolicy.Grammar
import SeccompPolicy.Lib.OperatorStack
import SeccompPolicy.Lib.Reader

/-!
# The parser

Source: `parser.y++`, as bison documents it.

The parser that bison makes of `parser.y++`, on texts it finds no error in. It shifts a token or
reduces by a production, whatever the stack and the next token say; its conflicts are resolved by
the declarations of precedence (`resolve`), and an `else` is shifted. The stack is kept by what
can be on it:

* the operators that pend in an expression, and the parentheses around it (`ExprAt`);
* the conditionals and braces around a statement (`Frame`, `StmtAt`);
* the policies before (`ProgramAt`).

The tables of the automaton are not written out: which token can follow is read off these. Each
level has a step on a token and an end, and falls back on the level around it when its own text is
complete.

A syntax error is reported, and then `main` compiles nothing. So recovery by the `error`
productions is left out: the parser stops at the first token it can do nothing with, and says
whether a comparison of a comparison was the reason. The limit bison's skeleton sets to its stack
(`YYMAXDEPTH`) is left out too.

What the parser accepts is the subject of `ExprTexts`, `ParserCorrect` and `ParserConflicts`.
-/

namespace SeccompPolicy

open CInt OperatorStack Reader

/-- What bison reports as a syntax error: a token that fits nowhere, or a comparison of a comparison,
which the precedence declarations forbid. -/
inductive SyntaxError where
  | unexpected
  | nonassoc
  deriving DecidableEq, Repr

/-! ## Precedence -/

/-- How operators of one level associate. -/
inductive Assoc where
  | left
  | right
  | nonassoc
  | precedence
  deriving DecidableEq, Repr

/-- The line of an operator among the declarations, `%nonassoc "="` being the first, and what it
declares. The line of `UMINUS` is that of `%prec NEG`. -/
def OpCode.precedence : OpCode → Nat × Assoc
  | .OR => (2, .left)
  | .AND => (3, .left)
  | .NOT => (4, .right)
  | .EQ | .NE | .LE | .GE | .LT | .GT => (5, .nonassoc)
  | .BITOR | .BITXOR => (6, .left)
  | .BITAND => (7, .left)
  | .BITNOT => (8, .right)
  | .SHL | .SHR => (9, .left)
  | .PLUS | .MINUS => (10, .left)
  | .MULT | .DIV | .MOD => (11, .left)
  | .UMINUS => (12, .precedence)
  | .INVALID => (0, .nonassoc)

/-- The operator of a rule. -/
def ruleOp : Rule OpCode OpCode → OpCode
  | .binary o => o
  | .unary p => p

/-- A conflict goes to the higher of rule and operator, and on one level as the level associates. -/
def resolve (rule : Rule OpCode OpCode) (o : OpCode) : Resolution :=
  if (ruleOp rule).precedence.1 < o.precedence.1 then .shift
  else if o.precedence.1 < (ruleOp rule).precedence.1 then .reduce
  else
    match o.precedence.2 with
    | .left => .reduce
    | .right | .precedence => .shift
    | .nonassoc => .error

/-- The rules of `arith_expr`. -/
def arithExpr : Grammar Tok Expr OpCode OpCode where
  binary? := Tok.infix?
  unary? := Tok.prefix?
  binaryNode := .op2
  unaryNode := .op1
  resolve := resolve

/-- The operators that pend. -/
abbrev Ops := List (Pending Expr OpCode OpCode)

/-! ## Argument lists -/

/-- Where the parser is in `arg_list`. -/
inductive ArgsAt where
  | first
  | name (xs : List String)
  | comma (xs : List String)
  deriving DecidableEq, Repr

/-- A token of an argument list. -/
def ArgsAt.step : ArgsAt → Tok → Except SyntaxError ArgsAt
  | .first, .ID x => .ok (.name [x])
  | .name xs, .COMMA => .ok (.comma xs)
  | .comma xs, .ID x => .ok (.name (xs ++ [x]))
  | _, _ => .error .unexpected

/-- The list, when it can end here. -/
def ArgsAt.finish : ArgsAt → Except SyntaxError (List String)
  | .first => .ok []
  | .name xs => .ok xs
  | .comma _ => .error .unexpected

/-! ## Expressions -/

/-- Where the parser is in `expr`: before an operand, behind one, which may be the name of a helper,
or in the arguments of a helper. `outer` has what pends around each parenthesis. -/
inductive ExprAt where
  | operand (ops : Ops) (outer : List Ops)
  | value (e : Expr) (callee : Option String) (ops : Ops) (outer : List Ops)
  | args (f : String) (a : ArgsAt) (ops : Ops) (outer : List Ops)

/-- A token where an operand is due. -/
def operandStep (ops : Ops) (outer : List Ops) : Tok → Except SyntaxError ExprAt
  | .ID x => .ok (.value (.ref x) (some x) ops outer)
  | .UINT n => .ok (.value (.value (IntType.int.wrap (IntType.unsignedInt.wrap n))) none ops outer)
  | .LPAREN => .ok (.operand [] (ops :: outer))
  | t =>
    match t.prefix? with
    | some p => .ok (.operand (.unary p :: ops) outer)
    | none => .error .unexpected

/-- A token behind an operand. -/
def valueStep (e : Expr) (callee : Option String) (ops : Ops) (outer : List Ops) :
    Tok → Except SyntaxError ExprAt
  | .LPAREN =>
    match callee with
    | some f => .ok (.args f .first ops outer)
    | none => .error .unexpected
  | .RPAREN =>
    match outer with
    | ops' :: outer => .ok (.value (arithExpr.reduceAll ops e) none ops' outer)
    | [] => .error .unexpected
  | t =>
    match t.infix? with
    | some o =>
      match arithExpr.reduceOn o ops e with
      | some (ops', l) => .ok (.operand (.binary l o :: ops') outer)
      | none => .error .nonassoc
    | none => .error .unexpected

/-- A token in the arguments of a helper. -/
def argsStep (f : String) (a : ArgsAt) (ops : Ops) (outer : List Ops) :
    Tok → Except SyntaxError ExprAt
  | .RPAREN => a.finish.map fun xs => .value (.inv f xs) none ops outer
  | t => (a.step t).map fun a => .args f a ops outer

/-- A token of an expression. -/
def ExprAt.step : ExprAt → Tok → Except SyntaxError ExprAt
  | .operand ops outer, t => operandStep ops outer t
  | .value e callee ops outer, t => valueStep e callee ops outer t
  | .args f a ops outer, t => argsStep f a ops outer t

/-- The expression, when it can end here. -/
def ExprAt.finish : ExprAt → Option Expr
  | .value e _ ops [] => some (arithExpr.reduceAll ops e)
  | _ => none

/-! ## Statements -/

/-- What a statement can be in: a conditional before its body, a conditional before its `else` body,
or the statements of a check or of braces. -/
inductive Frame where
  | ifThen (c : Expr)
  | ifElse (c : Expr) (t : Stmt)
  | stmts (ss : List Stmt)

/-- Where the parser is in the body of a check: before a statement, behind one, or in one. -/
inductive StmtAt where
  | statement (fs : List Frame)
  | done (s : Stmt) (fs : List Frame)
  | perm (p : PermType) (fs : List Frame)
  | named (x : String) (fs : List Frame)
  | assign (x : String) (e : ExprAt) (fs : List Frame)
  | ifOpen (fs : List Frame)
  | cond (e : ExprAt) (fs : List Frame)

/-- The conditionals that end with a statement are reduced. -/
def unwind : Stmt → List Frame → List Frame
  | s, .stmts ss :: fs => .stmts (ss ++ [s]) :: fs
  | s, .ifThen c :: fs => unwind (.ifThen c s) fs
  | s, .ifElse c t :: fs => unwind (.ifElse c t s) fs
  | _, [] => []

/-- An `else` is shifted onto the innermost conditional that has none. -/
def attach : Stmt → List Frame → Except SyntaxError (List Frame)
  | s, .ifThen c :: fs => .ok (.ifElse c s :: fs)
  | s, .ifElse c t :: fs => attach (.ifElse c t s) fs
  | _, _ => .error .unexpected

/-- The first token of a statement or of an `if_body`, or the end of braces. -/
def beginStep (fs : List Frame) : Tok → Except SyntaxError StmtAt
  | .SEMICOLON => .ok (.done .empty fs)
  | .ALLOW => .ok (.perm .ALLOW fs)
  | .DENY => .ok (.perm .DENY fs)
  | .ID x => .ok (.named x fs)
  | .IF => .ok (.ifOpen fs)
  | .LBRACE =>
    match fs with
    | .ifThen _ :: _ | .ifElse _ _ :: _ => .ok (.statement (.stmts [] :: fs))
    | _ => .error .unexpected
  | .RBRACE =>
    match fs with
    | .stmts ss :: f :: fs => .ok (.done (.compound ss) (f :: fs))
    | _ => .error .unexpected
  | _ => .error .unexpected

/-- A token of the expression of an assignment, or the end of it. -/
def assignStep (x : String) (e : ExprAt) (fs : List Frame) : Tok → Except SyntaxError StmtAt
  | .SEMICOLON =>
    match e.finish with
    | some e => .ok (.done (.assign x e) fs)
    | none => .error .unexpected
  | t => (e.step t).map fun e => .assign x e fs

/-- A token of the condition of a conditional, or the end of it. -/
def condStep (e : ExprAt) (fs : List Frame) (t : Tok) : Except SyntaxError StmtAt :=
  match t, e.finish with
  | .RPAREN, some c => .ok (.statement (.ifThen c :: fs))
  | t, _ => (e.step t).map fun e => .cond e fs

/-- A token in the body of a check. -/
def StmtAt.step : StmtAt → Tok → Except SyntaxError StmtAt
  | .statement fs, t => beginStep fs t
  | .done s fs, t => if t = .ELSE then (attach s fs).map .statement else beginStep (unwind s fs) t
  | .perm p fs, t => if t = .SEMICOLON then .ok (.done (.perm p) fs) else .error .unexpected
  | .named x fs, t =>
    if t = .ASSIGN then .ok (.assign x (.operand [] []) fs) else .error .unexpected
  | .assign x e fs, t => assignStep x e fs t
  | .ifOpen fs, t => if t = .LPAREN then .ok (.cond (.operand [] []) fs) else .error .unexpected
  | .cond e fs, t => condStep e fs t

/-- The statements of the check, when its body can end here. -/
def StmtAt.finish : StmtAt → Except SyntaxError (List Stmt)
  | .statement [.stmts ss] => .ok ss
  | .done s fs =>
    match unwind s fs with
    | [.stmts ss] => .ok ss
    | _ => .error .unexpected
  | _ => .error .unexpected

/-! ## Programs -/

/-- The name of a system call, as the lexer gives it. -/
abbrev SyscallName := { f : String // f ≠ "" }

/-- Where the parser is in `program`; `ps` are the policies the manager has. -/
inductive ProgramAt where
  | start
  | all (p : Policy)
  | semicolon (p : Policy)
  | policies (ps : List Policy)
  | checkName (ps : List Policy)
  | checkOpen (ps : List Policy) (f : SyscallName)
  | checkArgs (ps : List Policy) (f : SyscallName) (a : ArgsAt)
  | checkColon (ps : List Policy) (f : SyscallName) (xs : List String)
  | checkBody (ps : List Policy) (f : SyscallName) (xs : List String) (b : StmtAt)
  | extName (ps : List Policy)
  | extColon (ps : List Policy) (f : String)
  | extArg (ps : List Policy) (f : String)

/-- The first token of a policy. -/
def policyStep (ps : List Policy) : Tok → Except SyntaxError ProgramAt
  | .DEF => .ok (.checkName ps)
  | .EXTEND => .ok (.extName ps)
  | _ => .error .unexpected

/-- `$1->SetStmts($2)`. -/
def checkPolicy (f : SyscallName) (xs : List String) (ss : List Stmt) : Policy :=
  .check ⟨f, xs, ss, f.2⟩

/-- A token of a program. -/
def ProgramAt.step : ProgramAt → Tok → Except SyntaxError ProgramAt
  | .start, .ALLOW => .ok (.all .defaultAllow)
  | .start, .DENY => .ok (.all .defaultDeny)
  | .start, t => policyStep [.defaultDeny] t
  | .all p, .ALL => .ok (.semicolon p)
  | .semicolon p, .SEMICOLON => .ok (.policies [p])
  | .policies ps, t => policyStep ps t
  | .checkName ps, .ID f => if hf : f ≠ "" then .ok (.checkOpen ps ⟨f, hf⟩) else .error .unexpected
  | .checkOpen ps f, .LPAREN => .ok (.checkArgs ps f .first)
  | .checkArgs ps f a, .RPAREN => a.finish.map fun xs => .checkColon ps f xs
  | .checkArgs ps f a, t => (a.step t).map fun a => .checkArgs ps f a
  | .checkColon ps f xs, .COLON => .ok (.checkBody ps f xs (.statement [.stmts []]))
  | .checkBody ps f xs b, t =>
    if t = .DEF ∨ t = .EXTEND then
      b.finish.bind fun ss => policyStep (ps ++ [checkPolicy f xs ss]) t
    else (b.step t).map fun b => .checkBody ps f xs b
  | .extName ps, .ID f => .ok (.extColon ps f)
  | .extColon ps f, .COLON => .ok (.extArg ps f)
  | .extArg ps f, .ID x => .ok (.policies (ps ++ [.ext f x]))
  | _, _ => .error .unexpected

/-- The policies, when the text can end here. -/
def ProgramAt.finish : ProgramAt → Except SyntaxError (List Policy)
  | .start => .ok [.defaultDeny]
  | .policies ps => .ok ps
  | .checkBody ps f xs b => b.finish.map fun ss => ps ++ [checkPolicy f xs ss]
  | _ => .error .unexpected

/-- `yyparse`, up to the first error: the grammar of `parser.y++` with its conflicts resolved as bison
documents it, by the precedence of the rule and of the token, by associativity where these are equal,
and for `else` by shifting. The limit that the skeleton sets to the depth of its stack is left out. -/
def yyparse (ts : List Tok) : Except SyntaxError (List Policy) :=
  (reads ProgramAt.step .start ts).bind ProgramAt.finish

end SeccompPolicy
