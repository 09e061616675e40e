import SeccompPolicy.Lib.CInt
import SeccompPolicy.Policy
import SeccompPolicy.Variables

/-!
# The grammar, and operands that are missing

Source: the productions of `parser.y++` that report no error, with the trees their actions build;
the `IRGen` methods of `ast.cpp`.

Precedence is left out: a text may have several derivations here, one of which is that of the
parser (`ParserCorrect`). The grammar has one nonterminal for expressions, so that a comparison,
`&&`, `||` or `!` can stand where a number is needed. `IRGen` then has no value to give:
`OpNode::IRGen` returns a null pointer, the instruction that wanted an operand is made without it,
and nothing reports it.

`Complete` says of a list that every instruction has the operands its kind needs, and
`Expr.isArith` and `Expr.isCond` turn out to be what decides it.

## Results

* `ProgramRule.isParsed`: the trees of the grammar have one operand for `!` and the unary minus,
  and two for the other operators.
* `expr_complete`, `stmt_complete`: a list is complete exactly when the tree type-checks, both
  directions by induction over the tree.
* `irGenChecks_eq_none`: `IRGen` exits exactly when a variable is not declared.
* `program_operands_iff`: a program of the grammar leaves no instruction without its operands,
  unless it is rejected, exactly when all its bodies type-check.
* `operands_missing`: `flags = (flags == 1);` stores what is not there.
-/

namespace SeccompPolicy

open CInt

/-! ## Tokens -/

/-- The tokens, with the values of `TOK_ID` and `TOK_UINT`. -/
inductive Tok where
  | COLON | SEMICOLON | COMMA | LPAREN | RPAREN | LBRACE | RBRACE
  | PLUS | MINUS | MULT | DIV | ASSIGN | AND | OR | NOT | GT | LT | EQ | NE | GE | LE | MOD
  | BITAND | BITOR | BITNOT | BITXOR | SHL | SHR
  | IF | ELSE | ALLOW | DENY | EXTEND | ALL | DEF
  | ID (cVal : String)
  | UINT (uVal : Nat)
  deriving DecidableEq, Repr

/-- The operator of `expr token expr`. -/
def Tok.infix? : Tok → Option OpCode
  | .EQ => some .EQ | .GE => some .GE | .LE => some .LE | .NE => some .NE | .GT => some .GT
  | .LT => some .LT | .AND => some .AND | .OR => some .OR
  | .PLUS => some .PLUS | .MINUS => some .MINUS | .MULT => some .MULT | .DIV => some .DIV
  | .MOD => some .MOD
  | .BITNOT => some .BITNOT | .BITAND => some .BITAND | .BITOR => some .BITOR
  | .BITXOR => some .BITXOR | .SHL => some .SHL | .SHR => some .SHR
  | _ => none

/-- The operator of `token expr`. -/
def Tok.prefix? : Tok → Option OpCode
  | .NOT => some .NOT
  | .MINUS => some .UMINUS
  | _ => none

/-! ## Productions -/

/-- `non_empty_arg_list`. -/
inductive NonEmptyArgList : List Tok → List String → Prop
  | one (x : String) : NonEmptyArgList [.ID x] [x]
  | snoc {ts : List Tok} {xs : List String} (x : String) : NonEmptyArgList ts xs →
      NonEmptyArgList (ts ++ [.COMMA, .ID x]) (xs ++ [x])

/-- `arg_list`. -/
inductive ArgList : List Tok → List String → Prop
  | empty : ArgList [] []
  | some {ts : List Tok} {xs : List String} : NonEmptyArgList ts xs → ArgList ts xs

/-- `expr`, with `arith_expr` and `invocation_expr`. -/
inductive ExprRule : List Tok → Expr → Prop
  | infix_ {t : Tok} {op : OpCode} {ls rs : List Tok} {l r : Expr} : t.infix? = some op →
      ExprRule ls l → ExprRule rs r → ExprRule (ls ++ t :: rs) (.op2 op l r)
  | prefix_ {t : Tok} {op : OpCode} {ts : List Tok} {e : Expr} : t.prefix? = some op →
      ExprRule ts e → ExprRule (t :: ts) (.op1 op e)
  | invocation {ts : List Tok} {xs : List String} (f : String) : ArgList ts xs →
      ExprRule (.ID f :: .LPAREN :: ts ++ [.RPAREN]) (.inv f xs)
  | paren {ts : List Tok} {e : Expr} : ExprRule ts e →
      ExprRule (.LPAREN :: ts ++ [.RPAREN]) e
  | id (x : String) : ExprRule [.ID x] (.ref x)
  | uint (n : Nat) : ExprRule [.UINT n] (.value (IntType.int.wrap (IntType.unsignedInt.wrap n)))

mutual

/-- `statement`, with `assignment_stmt`, `perm_stmt` and `if_stmt`. -/
inductive StmtRule : List Tok → Stmt → Prop
  | semicolon : StmtRule [.SEMICOLON] .empty
  | assign {ts : List Tok} {e : Expr} (x : String) : ExprRule ts e →
      StmtRule (.ID x :: .ASSIGN :: ts ++ [.SEMICOLON]) (.assign x e)
  | allow : StmtRule [.ALLOW, .SEMICOLON] (.perm .ALLOW)
  | deny : StmtRule [.DENY, .SEMICOLON] (.perm .DENY)
  | ifThen {cs ts : List Tok} {c : Expr} {t : Stmt} : ExprRule cs c → BodyRule ts t →
      StmtRule (.IF :: .LPAREN :: cs ++ .RPAREN :: ts) (.ifThen c t)
  | ifElse {cs ts es : List Tok} {c : Expr} {t e : Stmt} : ExprRule cs c → BodyRule ts t →
      BodyRule es e → StmtRule (.IF :: .LPAREN :: cs ++ .RPAREN :: ts ++ .ELSE :: es) (.ifElse c t e)

/-- `if_body`. -/
inductive BodyRule : List Tok → Stmt → Prop
  | braces {ts : List Tok} {ss : List Stmt} : StmtsRule ts ss →
      BodyRule (.LBRACE :: ts ++ [.RBRACE]) (.compound ss)
  | statement {ts : List Tok} {s : Stmt} : StmtRule ts s → BodyRule ts s

/-- `stmts`. -/
inductive StmtsRule : List Tok → List Stmt → Prop
  | empty : StmtsRule [] []
  | snoc {ts us : List Tok} {ss : List Stmt} {s : Stmt} : StmtsRule ts ss → StmtRule us s →
      StmtsRule (ts ++ us) (ss ++ [s])

end

/-- `pocliy`: a check or an extension. -/
inductive PolicyRule : List Tok → Policy → Prop
  | check {as ts : List Tok} {xs : List String} {ss : List Stmt} (f : String) (hf : f ≠ "") :
      ArgList as xs → StmtsRule ts ss →
      PolicyRule (.DEF :: .ID f :: .LPAREN :: as ++ .RPAREN :: .COLON :: ts) (.check ⟨f, xs, ss, hf⟩)
  | ext (f x : String) : PolicyRule [.EXTEND, .ID f, .COLON, .ID x] (.ext f x)

/-- `default_pocliy`. -/
inductive DefaultRule : List Tok → Policy → Prop
  | empty : DefaultRule [] .defaultDeny
  | allow : DefaultRule [.ALLOW, .ALL, .SEMICOLON] .defaultAllow
  | deny : DefaultRule [.DENY, .ALL, .SEMICOLON] .defaultDeny

/-- `program`: the policies the manager has at the end. -/
inductive ProgramRule : List Tok → List Policy → Prop
  | default {ts : List Tok} {p : Policy} : DefaultRule ts p → ProgramRule ts [p]
  | snoc {ts us : List Tok} {ps : List Policy} {p : Policy} : ProgramRule ts ps →
      PolicyRule us p → ProgramRule (ts ++ us) (ps ++ [p])

/-! ## The trees of the parser -/

theorem ExprRule.isParsed {ts : List Tok} {e : Expr} (h : ExprRule ts e) : e.isParsed = true := by
  induction h with
  | @infix_ t op _ _ _ _ hop _ _ ihl ihr =>
    have hop : op ≠ .NOT ∧ op ≠ .UMINUS ∧ op ≠ .INVALID := by
      cases t <;> cases hop <;> decide
    rw [Expr.isParsed, ihl, ihr, decide_eq_true hop]
    rfl
  | @prefix_ t op _ _ hop _ ih =>
    have hop : op = .NOT ∨ op = .UMINUS := by
      cases t <;> cases hop <;> decide
    rw [Expr.isParsed, ih, decide_eq_true hop]
    rfl
  | paren _ ih => exact ih
  | _ => rfl

theorem allParsed_append {ss ss' : List Stmt} :
    allParsed (ss ++ ss') = (allParsed ss && allParsed ss') := by
  induction ss with
  | nil => rfl
  | cons s ss ih => rw [List.cons_append, allParsed, ih, allParsed, Bool.and_assoc]

mutual

theorem StmtRule.isParsed : ∀ {ts : List Tok} {s : Stmt}, StmtRule ts s → s.isParsed = true
  | _, _, .semicolon => rfl
  | _, _, .assign _ he => he.isParsed
  | _, _, .allow => rfl
  | _, _, .deny => rfl
  | _, _, .ifThen hc ht => Bool.and_eq_true_iff.mpr ⟨hc.isParsed, ht.isParsed⟩
  | _, _, .ifElse hc ht he =>
    Bool.and_eq_true_iff.mpr ⟨Bool.and_eq_true_iff.mpr ⟨hc.isParsed, ht.isParsed⟩, he.isParsed⟩

theorem BodyRule.isParsed : ∀ {ts : List Tok} {s : Stmt}, BodyRule ts s → s.isParsed = true
  | _, _, .braces hss => hss.isParsed
  | _, _, .statement hs => hs.isParsed

theorem StmtsRule.isParsed : ∀ {ts : List Tok} {ss : List Stmt}, StmtsRule ts ss →
    allParsed ss = true
  | _, _, .empty => rfl
  | _, _, .snoc hss hs => by
    rw [allParsed_append, hss.isParsed, allParsed, hs.isParsed]
    rfl

end

/-- The checks of a program have bodies that are trees of the parser. -/
theorem ProgramRule.isParsed {ts : List Tok} {ps : List Policy} (h : ProgramRule ts ps) :
    ∀ c ∈ ps.filterMap Policy.check?, allParsed c.stmts = true := by
  induction h with
  | default hp =>
    intro c hc
    cases hp <;> exact absurd hc List.not_mem_nil
  | snoc _ hp ih =>
    intro c hc
    rw [List.filterMap_append, List.mem_append] at hc
    rcases hc with hc | hc
    · exact ih c hc
    · cases hp with
      | check f hf _ hss =>
        obtain rfl := List.mem_singleton.mp hc
        exact hss.isParsed
      | ext f x => exact absurd hc List.not_mem_nil

/-! ## Operands -/

/-- The operands an instruction of its kind has are there. -/
def Instruction.HasOperands : Instruction → Prop
  | .branch op a b _ _ => op = .INVALID ∨ a ≠ .null ∧ b ≠ .null
  | .arith _ op a b => a ≠ .null ∧ (op = .UMINUS ∨ b ≠ .null)
  | .store src dst => src ≠ .null ∧ dst ≠ .null
  | _ => True

/-- All instructions of the list have their operands. -/
def Complete (code : List Instruction) : Prop := ∀ i ∈ code, i.HasOperands

theorem complete_append {c c' : List Instruction} :
    Complete (c ++ c') ↔ Complete c ∧ Complete c' := List.forall_mem_append

theorem complete_single {i : Instruction} : Complete [i] ↔ i.HasOperands := List.forall_mem_singleton

/-- The expression is a number that is there. -/
def Gen.GivesNumber (g : Gen) : Prop := Complete g.code ∧ g.val ≠ .null

theorem genCompare_complete {op : OpCode} (hop : op.isCmp = true) {l r : CodeGenMgr → Gen}
    (m : CodeGenMgr) : Complete (genCompare op l r m).code ↔
      (l m).GivesNumber ∧ (r (l m).mgr).GivesNumber := by
  have hne : op ≠ .INVALID := by
    rintro rfl
    exact absurd hop Bool.false_ne_true
  simp only [genCompare, complete_append, complete_single, Instruction.HasOperands, hne, false_or,
    Gen.GivesNumber]
  tauto

/-- A condition that is no boolean operator has to be a number. -/
theorem branchGen_complete {e : Expr} (he : e.isBooleanOp = false) {m : CodeGenMgr} :
    Complete (e.branchGen m).code ↔ (e.irGen m).GivesNumber := by
  rw [Expr.branchGen, genBranchCode, if_neg (ne_true_of_eq_false he), genCompare_complete rfl]
  exact and_iff_left ⟨fun i hi => absurd hi List.not_mem_nil, IRValue.noConfusion⟩

/-- **Which expressions are complete.** As numbers: those without a boolean operator. As conditions:
those with boolean operators over comparisons of numbers and over numbers. -/
structure CompleteByType (e : Expr) : Prop where
  number : ∀ m, (e.irGen m).GivesNumber ↔ e.isArith = true
  cond : ∀ m, Complete (e.branchGen m).code ↔ e.isCond = true

/-- What is no boolean operator is a condition as far as it is a number. -/
theorem CompleteByType.of_number {e : Expr} (hb : e.isBooleanOp = false) (hc : e.isCond = e.isArith)
    (h : ∀ m, (e.irGen m).GivesNumber ↔ e.isArith = true) : CompleteByType e :=
  ⟨h, fun m => by rw [branchGen_complete hb, hc, h m]⟩

/-- What ends in a branch gives no number. -/
theorem CompleteByType.of_branch {e : Expr} (hb : e.isBooleanOp = true) (ha : e.isArith = false)
    (h : ∀ m, Complete (e.irGen m).code ↔ e.isCond = true) : CompleteByType e := by
  refine ⟨fun m => ?_, fun m => ?_⟩
  · rw [ha]
    exact iff_of_false (fun hn => hn.2 (irGen_val_of_isBooleanOp hb m)) Bool.false_ne_true
  · rw [Expr.branchGen, genBranchCode, if_pos hb, h m]

theorem CompleteByType.compare {op : OpCode} (hop : op.isCmp = true) {l r : Expr}
    (hl : CompleteByType l) (hr : CompleteByType r) : CompleteByType (.op2 op l r) := by
  have hflags : (Expr.op2 op l r).isBooleanOp = true ∧ (Expr.op2 op l r).isArith = false ∧
      (Expr.op2 op l r).isCond = (l.isArith && r.isArith) := by
    revert hop
    cases op <;> first | exact fun _ => ⟨rfl, rfl, rfl⟩ | exact fun h => nomatch h
  refine .of_branch hflags.1 hflags.2.1 fun m => ?_
  rw [irGen_cmp hop, genCompare_complete hop, hl.number, hr.number, hflags.2.2, Bool.and_eq_true]

theorem CompleteByType.binary {op : OpCode} (hop : op.isBinaryArith = true) {l r : Expr}
    (hl : CompleteByType l) (hr : CompleteByType r) : CompleteByType (.op2 op l r) := by
  have hne : op ≠ .UMINUS := by
    rintro rfl
    cases hop
  have hflags : (Expr.op2 op l r).isBooleanOp = false ∧
      (Expr.op2 op l r).isArith = (l.isArith && r.isArith) ∧
      (Expr.op2 op l r).isCond = (l.isArith && r.isArith) := by
    revert hop
    cases op <;> first | exact fun _ => ⟨rfl, rfl, rfl⟩ | exact fun h => nomatch h
  refine .of_number hflags.1 (hflags.2.2.trans hflags.2.1.symm) fun m => ?_
  rw [irGen_binary hop, hflags.2.1, Bool.and_eq_true, ← hl.number m,
    ← hr.number (l.irGen m).mgr]
  simp only [genBinary, Gen.GivesNumber, complete_append, complete_single,
    Instruction.HasOperands, hne, false_or]
  constructor
  · rintro ⟨⟨⟨hcl, hcr⟩, hvl, hvr⟩, -⟩
    exact ⟨⟨hcl, hvl⟩, hcr, hvr⟩
  · rintro ⟨⟨hcl, hvl⟩, hcr, hvr⟩
    exact ⟨⟨⟨hcl, hcr⟩, hvl, hvr⟩, IRValue.noConfusion⟩

theorem expr_complete (e : Expr) (he : e.isParsed = true) : CompleteByType e := by
  induction e with
  | ref x =>
    exact .of_number rfl rfl fun m =>
      iff_of_true ⟨fun i hi => absurd hi List.not_mem_nil, IRValue.noConfusion⟩ rfl
  | value n =>
    exact .of_number rfl rfl fun m =>
      iff_of_true ⟨fun i hi => absurd hi List.not_mem_nil, IRValue.noConfusion⟩ rfl
  | inv f params =>
    exact .of_number rfl rfl fun m =>
      iff_of_true ⟨complete_single.mpr trivial, IRValue.noConfusion⟩ rfl
  | op1 op e ih =>
    simp only [Expr.isParsed, Bool.and_eq_true, decide_eq_true_eq] at he
    obtain ⟨rfl | rfl, he⟩ := he
    · exact .of_branch rfl rfl fun m => (ih he).cond _
    · refine .of_number rfl rfl fun m => ?_
      rw [irGen_uminus]
      simp only [genMinus, Gen.GivesNumber, complete_append, complete_single,
        Instruction.HasOperands, true_or, and_true, Expr.isArith, decide_true, Bool.true_and]
      exact (and_iff_left IRValue.noConfusion).trans ((ih he).number m)
  | op2 op l r ihl ihr =>
    simp only [Expr.isParsed, Bool.and_eq_true, decide_eq_true_eq] at he
    obtain ⟨⟨hop, hl⟩, hr⟩ := he
    by_cases hcmp : op.isCmp = true
    · exact .compare hcmp (ihl hl) (ihr hr)
    · by_cases hbin : op.isBinaryArith = true
      · exact .binary hbin (ihl hl) (ihr hr)
      · have hand : op = .AND ∨ op = .OR := by
          revert hop hcmp hbin
          cases op <;> decide
        have hlabel : ∀ t, Complete [.label t] := fun t => complete_single.mpr trivial
        rcases hand with rfl | rfl
        · refine .of_branch rfl rfl fun m => ?_
          simp only [Expr.irGen, if_true, genAnd, complete_append, hlabel, and_true]
          rw [(ihl hl).cond, (ihr hr).cond]
          exact Bool.and_eq_true_iff.symm
        · refine .of_branch rfl rfl fun m => ?_
          simp only [Expr.irGen, reduceCtorEq, if_false, if_true, genOr, complete_append, hlabel,
            and_true]
          rw [(ihl hl).cond, (ihr hr).cond]
          exact Bool.and_eq_true_iff.symm

theorem genIfHead_complete {c : Expr} (hc : c.isParsed = true) (m : CodeGenMgr) :
    Complete (genIfHead c m).code ↔ c.isCond = true := by
  rw [genIfHead, complete_append, (expr_complete c hc).cond]
  exact and_iff_left (complete_single.mpr trivial)

mutual

/-- A statement is complete when it type-checks. -/
theorem stmt_complete : ∀ (s : Stmt) (_ : s.isParsed = true) (m : CodeGenMgr),
    Complete (s.irGen m).code ↔ s.wellTyped = true
  | .empty, _, _ => iff_of_true (fun i hi => absurd hi List.not_mem_nil) rfl
  | .perm _, _, _ => iff_of_true (complete_single.mpr trivial) rfl
  | .ifThen c t, hs, m => by
    obtain ⟨hc, ht⟩ := Bool.and_eq_true_iff.mp hs
    simp only [Stmt.irGen, complete_append, Stmt.wellTyped, Bool.and_eq_true]
    rw [genIfHead_complete hc, stmt_complete t ht]
    exact and_iff_left (complete_single.mpr trivial)
  | .ifElse c t e, hs, m => by
    obtain ⟨hct, he⟩ := Bool.and_eq_true_iff.mp hs
    obtain ⟨hc, ht⟩ := Bool.and_eq_true_iff.mp hct
    have hjump : ∀ out l, Complete [.branch .INVALID .null .null out "", .label l] := by
      intro out l i hi
      simp only [List.mem_cons, List.not_mem_nil, or_false] at hi
      obtain rfl | rfl := hi
      · exact .inl rfl
      · trivial
    have hlabel : ∀ l, Complete [.label l] := fun l => complete_single.mpr trivial
    simp only [Stmt.irGen, complete_append, Stmt.wellTyped, Bool.and_eq_true, hjump, hlabel,
      and_true]
    rw [genIfHead_complete hc, stmt_complete t ht, stmt_complete e he]
  | .assign x e, hs, m => by
    rw [Stmt.irGen, complete_append, complete_single, Stmt.wellTyped, ← (expr_complete e hs).number m]
    exact and_congr_right fun _ => and_iff_left IRValue.noConfusion
  | .compound ss, hs, m => all_complete ss hs m

/-- A list of statements is complete when it type-checks. -/
theorem all_complete : ∀ (ss : List Stmt) (_ : allParsed ss = true) (m : CodeGenMgr),
    Complete (irGenAll ss m).code ↔ allWellTyped ss = true
  | [], _, _ => iff_of_true (fun i hi => absurd hi List.not_mem_nil) rfl
  | s :: ss, h, m => by
    obtain ⟨hs, hss⟩ := Bool.and_eq_true_iff.mp h
    rw [irGenAll, complete_append, stmt_complete s hs, all_complete ss hss, allWellTyped,
      Bool.and_eq_true]

end

/-! ## Programs -/

/-- The lists `PolicyManager::IRGen` makes, up to the check that `CheckVariableUse` exits at. -/
def generatedCode : List SyscallCheck → CodeGenMgr → List (List Instruction)
  | [], _ => []
  | c :: cs, m =>
    let g := irGenAll c.stmts m
    g.code :: if checkVariableUse g.code c.args then generatedCode cs g.mgr else []

/-- Every instruction has its operands, or `IRGen` exits. -/
def OperandsChecked (ps : List Policy) : Prop :=
  (∀ code ∈ generatedCode (ps.filterMap Policy.check?) {}, Complete code) ∨
    irGenChecks (ps.filterMap Policy.check?) {} = none

/-- Some check mentions a variable that is no argument. -/
def MentionsUndeclared (cs : List SyscallCheck) : Prop :=
  ∃ c ∈ cs, ∃ x ∈ allMentions c.stmts, x ∉ c.args

theorem mentionsUndeclared_cons {c : SyscallCheck} {cs : List SyscallCheck} :
    MentionsUndeclared (c :: cs) ↔ (¬ ∀ x ∈ allMentions c.stmts, x ∈ c.args) ∨
      MentionsUndeclared cs := by
  simp only [MentionsUndeclared, List.mem_cons, exists_eq_or_imp, not_forall, exists_prop]

/-- `IRGen` exits exactly when a variable is not declared. -/
theorem irGenChecks_eq_none {cs : List SyscallCheck}
    (hcs : ∀ c ∈ cs, allParsed c.stmts = true) (m : CodeGenMgr) :
    irGenChecks cs m = none ↔ MentionsUndeclared cs := by
  induction cs generalizing m with
  | nil =>
    refine iff_of_false (by simp [irGenChecks]) ?_
    rintro ⟨c, hc, -⟩
    exact absurd hc List.not_mem_nil
  | cons c cs ih =>
    obtain ⟨hc, hcs⟩ := List.forall_mem_cons.mp hcs
    rw [mentionsUndeclared_cons, ← checkVariableUse_mentions hc m, irGenChecks,
      SyscallCheck.irGen]
    by_cases huse : checkVariableUse (irGenAll c.stmts m).code c.args = true
    · simp only [huse, if_true, Option.map_eq_none_iff, not_true_eq_false, false_or]
      exact ih hcs _
    · simp [huse]

/-- When `IRGen` goes through, the instructions have their operands exactly when all bodies
type-check. -/
theorem generatedCode_complete {cs : List SyscallCheck}
    (hcs : ∀ c ∈ cs, allParsed c.stmts = true) (hdecl : ¬ MentionsUndeclared cs) (m : CodeGenMgr) :
    (∀ code ∈ generatedCode cs m, Complete code) ↔ ∀ c ∈ cs, allWellTyped c.stmts = true := by
  induction cs generalizing m with
  | nil => simp [generatedCode]
  | cons c cs ih =>
    obtain ⟨hc, hcs⟩ := List.forall_mem_cons.mp hcs
    rw [mentionsUndeclared_cons, ← checkVariableUse_mentions hc m, not_or, not_not] at hdecl
    obtain ⟨huse, hdecl⟩ := hdecl
    rw [generatedCode, if_pos huse, List.forall_mem_cons, List.forall_mem_cons,
      all_complete c.stmts hc m, ih hcs hdecl]

/-- **Missing operands.** A program of the grammar never leaves an instruction without its operands,
unless it is rejected, exactly when all bodies type-check or some check mentions a variable that is
no argument. -/
theorem program_operands_iff {ts : List Tok} {ps : List Policy} (h : ProgramRule ts ps) :
    OperandsChecked ps ↔
      (∀ c ∈ ps.filterMap Policy.check?, allWellTyped c.stmts = true) ∨
        MentionsUndeclared (ps.filterMap Policy.check?) := by
  rw [OperandsChecked, irGenChecks_eq_none h.isParsed]
  by_cases hdecl : MentionsUndeclared (ps.filterMap Policy.check?)
  · exact iff_of_true (.inr hdecl) (.inr hdecl)
  · rw [or_iff_left hdecl, or_iff_left hdecl, generatedCode_complete h.isParsed hdecl]

/-- `def open(flags): flags = flags + 1; allow;` -/
theorem programRule_open : ProgramRule
    [.DEF, .ID "open", .LPAREN, .ID "flags", .RPAREN, .COLON,
      .ID "flags", .ASSIGN, .ID "flags", .PLUS, .UINT 1, .SEMICOLON, .ALLOW, .SEMICOLON]
    [.defaultDeny, .check ⟨"open", ["flags"],
      [.assign "flags" (.op2 .PLUS (.ref "flags") (.value 1)), .perm .ALLOW], by decide⟩] :=
  .snoc (.default .empty) (.check "open" (by decide) (.some (.one "flags"))
    (.snoc (.snoc .empty (.assign "flags" (.infix_ rfl (.id "flags") (.uint 1)))) .allow))

theorem program_operands_open : OperandsChecked
    [.defaultDeny, .check ⟨"open", ["flags"],
      [.assign "flags" (.op2 .PLUS (.ref "flags") (.value 1)), .perm .ALLOW], by decide⟩] :=
  (program_operands_iff programRule_open).mpr (.inl (by decide))

/-- `def open(flags): flags = (flags == 1); allow;` stores what is not there. -/
theorem programRule_comparison : ProgramRule
    [.DEF, .ID "open", .LPAREN, .ID "flags", .RPAREN, .COLON,
      .ID "flags", .ASSIGN, .LPAREN, .ID "flags", .EQ, .UINT 1, .RPAREN, .SEMICOLON,
      .ALLOW, .SEMICOLON]
    [.defaultDeny, .check ⟨"open", ["flags"],
      [.assign "flags" (.op2 .EQ (.ref "flags") (.value 1)), .perm .ALLOW], by decide⟩] :=
  .snoc (.default .empty) (.check "open" (by decide) (.some (.one "flags"))
    (.snoc (.snoc .empty (.assign "flags" (.paren (.infix_ rfl (.id "flags") (.uint 1))))) .allow))

theorem operands_missing : ¬ ∀ ts ps, ProgramRule ts ps → OperandsChecked ps := by
  intro h
  rcases h _ _ programRule_comparison with hcode | hnone
  · have hstore := hcode _ (List.mem_cons_self ..) (.store .null (.mem "flags")) (by decide)
    exact hstore.1 rfl
  · exact absurd hnone (by decide)

end SeccompPolicy
