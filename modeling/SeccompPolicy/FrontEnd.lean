import SeccompPolicy.Lexer

/-!
# The front end

Source: `main` of `driver.cpp`, which runs `yyparse` and stops at `errCount()`.

Lexer and parser together. What comes out for some text are exactly the policies of a certain
form: one default first; expressions with the operators of the grammar, and constants of `int`;
braces only as the body of a conditional; and no conditional without `else` at the end of a body
that has one. Whatever has this form is compiled for some text, so nothing else may be assumed of
what the compiler gets: in particular not that a body type-checks.

The form is `Writable`, a predicate on trees. For the direction from the form to a text the tree
is spelt with all its parentheses, so that no precedence comes in, and the spelling is read by the
lexer token by token.

## Results

* `ProgramText.writable`: what is read has the form. One lemma for each nonterminal of the
  grammar.
* `operand_exists`, `stmt_exists`, `program_exists`: what has the form has tokens.
* `frontEnd_range`: the programs that come out of the front end are those of the form, and no
  others.

Out of scope: command line options and input files.
-/

namespace SeccompPolicy

open CInt OperatorStack Reader Scanner

/-- `yyparse()` and `errCount()`: the policies of a text without an error. -/
def frontEnd (text : List Char) : Option (List Policy) :=
  (yylex text).bind fun ts => (yyparse ts).toOption

/-- The front end accepts a text when the lexer finds tokens and the parser a program in them. -/
theorem frontEnd_iff (text : List Char) (ps : List Policy) : frontEnd text = some ps ↔
    ∃ ls ts, Scans lexRules text ls ∧ tokens? ls = some ts ∧ ProgramText ts ps := by
  constructor
  · intro h
    obtain ⟨ts, hts, hparse⟩ := Option.bind_eq_some_iff.mp h
    obtain ⟨ls, hls, hts⟩ := Option.bind_eq_some_iff.mp hts
    refine ⟨ls, ts, scan_iff.mp hls, hts, (yyparse_iff ts ps).mp ?_⟩
    cases hp : yyparse ts with
    | ok ps' =>
      rw [hp] at hparse
      exact congrArg Except.ok (Option.some.inj hparse)
    | error err =>
      rw [hp] at hparse
      cases hparse
  · rintro ⟨ls, ts, hls, hts, hps⟩
    rw [frontEnd, yylex, scan_iff.mpr hls, Option.bind_some, hts, Option.bind_some,
      (yyparse_iff ts ps).mpr hps]
    rfl

/-! ## The form of a program -/

/-- Names, constants and operators are those of a text. -/
def Expr.Writable : Expr → Prop
  | .ref x => IsName x
  | .value n => -2 ^ 31 ≤ n ∧ n < 2 ^ 31
  | .inv f xs => IsName f ∧ ∀ x ∈ xs, IsName x
  | .op1 op e => (op = .NOT ∨ op = .UMINUS) ∧ e.Writable
  | .op2 op l r => (op ≠ .NOT ∧ op ≠ .UMINUS ∧ op ≠ .INVALID) ∧ l.Writable ∧ r.Writable

/-- An `else` behind the statement would belong to it. -/
def Stmt.takesElse : Stmt → Bool
  | .ifThen _ _ => true
  | .ifElse _ _ e => e.takesElse
  | _ => false

mutual

/-- The statement is that of a text; braces only as the body of a conditional. -/
def Stmt.Writable (body : Bool) : Stmt → Prop
  | .empty | .perm _ => True
  | .assign x e => IsName x ∧ e.Writable
  | .ifThen c t => c.Writable ∧ t.Writable true
  | .ifElse c t e => c.Writable ∧ t.Writable true ∧ t.takesElse = false ∧ e.Writable true
  | .compound ss => body = true ∧ AllWritable ss

def AllWritable : List Stmt → Prop
  | [] => True
  | s :: ss => s.Writable false ∧ AllWritable ss

end

/-- The policy is that of a text. -/
def Policy.Writable : Policy → Prop
  | .check c => IsName c.syscall ∧ (∀ x ∈ c.args, IsName x) ∧ AllWritable c.stmts
  | .ext f x => IsName f ∧ IsName x
  | .defaultDeny | .defaultAllow => False

/-- The program is that of a text. -/
def Writable (ps : List Policy) : Prop :=
  ∃ d qs, ps = d :: qs ∧ (d = .defaultAllow ∨ d = .defaultDeny) ∧ ∀ q ∈ qs, q.Writable

/-- A list of statements has the form when each of them has. -/
theorem allWritable_iff (ss : List Stmt) : AllWritable ss ↔ ∀ s ∈ ss, s.Writable false := by
  induction ss with
  | nil => simp [AllWritable]
  | cons s ss ih => rw [AllWritable, ih, List.forall_mem_cons]

/-! ## What is read has the form -/

/-- All tokens are those of the lexer. -/
def AllValid (ts : List Tok) : Prop := ∀ t ∈ ts, t.Valid

theorem allValid_nil : AllValid [] := fun _ ht => absurd ht List.not_mem_nil

theorem allValid_append {ts us : List Tok} : AllValid (ts ++ us) ↔ AllValid ts ∧ AllValid us :=
  List.forall_mem_append

theorem allValid_cons {t : Tok} {ts : List Tok} : AllValid (t :: ts) ↔ t.Valid ∧ AllValid ts :=
  List.forall_mem_cons

theorem nonEmptyArgList_writable {ts : List Tok} {xs : List String} (h : NonEmptyArgList ts xs)
    (hv : AllValid ts) : ∀ x ∈ xs, IsName x := by
  induction h with
  | one x =>
    intro y hy
    rw [List.mem_singleton.mp hy]
    exact hv (.ID x) List.mem_cons_self
  | snoc x _ ih =>
    obtain ⟨hts, hx⟩ := allValid_append.mp hv
    intro y hy
    rcases List.mem_append.mp hy with hy | hy
    · exact ih hts y hy
    · rw [List.mem_singleton.mp hy]
      exact hx (.ID x) (by simp)

theorem argList_writable {ts : List Tok} {xs : List String} (h : ArgList ts xs)
    (hv : AllValid ts) : ∀ x ∈ xs, IsName x := by
  cases h with
  | empty => exact fun x hx => absurd hx List.not_mem_nil
  | some h => exact nonEmptyArgList_writable h hv

/-- Names are identifiers and constants are casts of numerals, as the lexer gives them. -/
theorem exprRule_writable {ts : List Tok} {e : Expr} (h : ExprRule ts e) (hv : AllValid ts) :
    e.Writable := by
  induction h with
  | @infix_ t op ls rs l r hop _ _ ihl ihr =>
    obtain ⟨hls, hrs⟩ := allValid_append.mp hv
    refine ⟨?_, ihl hls, ihr (allValid_cons.mp hrs).2⟩
    cases t <;> cases hop <;> decide
  | @prefix_ t op ts e hop _ ih =>
    refine ⟨?_, ih (allValid_cons.mp hv).2⟩
    cases t <;> cases hop <;> decide
  | invocation f hxs =>
    obtain ⟨hf, hts⟩ := allValid_cons.mp hv
    exact ⟨hf, argList_writable hxs (allValid_append.mp (allValid_cons.mp hts).2).1⟩
  | paren _ ih => exact ih (allValid_append.mp (allValid_cons.mp hv).2).1
  | id x => exact hv (.ID x) List.mem_cons_self
  | uint n =>
    show -2 ^ 31 ≤ IntType.int.wrap (IntType.unsignedInt.wrap n) ∧ _
    rw [IntType.wrap_int]
    split <;> omega

mutual

/-- The index of the text is whether an `else` would belong to the statement. -/
theorem StmtText.writable : ∀ {ts : List Tok} {s : Stmt} {o : Bool}, StmtText ts s o →
    AllValid ts → s.Writable false ∧ s.takesElse = o
  | _, _, _, .semicolon, _ => ⟨trivial, rfl⟩
  | _, _, _, .assign x he, hv =>
    ⟨⟨hv (.ID x) List.mem_cons_self, exprRule_writable he.exprRule
      (allValid_append.mp (allValid_cons.mp (allValid_cons.mp hv).2).2).1⟩, rfl⟩
  | _, _, _, .allow, _ => ⟨trivial, rfl⟩
  | _, _, _, .deny, _ => ⟨trivial, rfl⟩
  | _, _, _, .ifThen hc ht, hv => by
    obtain ⟨hcs, hts⟩ := allValid_append.mp (allValid_cons.mp (allValid_cons.mp hv).2).2
    exact ⟨⟨exprRule_writable hc.exprRule hcs, (ht.writable (allValid_cons.mp hts).2).1⟩, rfl⟩
  | _, _, _, .ifElse hc ht he, hv => by
    obtain ⟨hhead, hes⟩ := allValid_append.mp hv
    obtain ⟨hcs, hts⟩ := allValid_append.mp (allValid_cons.mp (allValid_cons.mp hhead).2).2
    obtain ⟨ht, helse⟩ := ht.writable (allValid_cons.mp hts).2
    obtain ⟨he, ho⟩ := he.writable (allValid_cons.mp hes).2
    exact ⟨⟨exprRule_writable hc.exprRule hcs, ht, helse, he⟩, ho⟩

theorem BodyText.writable : ∀ {ts : List Tok} {s : Stmt} {o : Bool}, BodyText ts s o →
    AllValid ts → s.Writable true ∧ s.takesElse = o
  | _, _, _, .braces hss, hv =>
    ⟨⟨rfl, (allWritable_iff _).mpr (hss.writable (allValid_append.mp (allValid_cons.mp hv).2).1)⟩, rfl⟩
  | _, s, _, .statement hs, hv => by
    obtain ⟨hw, ho⟩ := hs.writable hv
    refine ⟨?_, ho⟩
    cases s with
    | compound ss => exact absurd hw.1 Bool.false_ne_true
    | _ => exact hw

theorem StmtsText.writable : ∀ {ts : List Tok} {ss : List Stmt}, StmtsText ts ss →
    AllValid ts → ∀ s ∈ ss, s.Writable false
  | _, _, .empty, _ => fun s hs => absurd hs List.not_mem_nil
  | _, _, .snoc hss hs, hv => by
    obtain ⟨hts, hus⟩ := allValid_append.mp hv
    intro s' hs'
    rcases List.mem_append.mp hs' with hs' | hs'
    · exact hss.writable hts s' hs'
    · rw [List.mem_singleton.mp hs']
      exact (hs.writable hus).1

end

theorem PolicyText.writable {ts : List Tok} {p : Policy} (h : PolicyText ts p) (hv : AllValid ts) :
    p.Writable := by
  cases h with
  | @check as ts xs ss f has hss =>
    obtain ⟨hhead, hts⟩ := allValid_append.mp hv
    obtain ⟨-, hf, -, has'⟩ : _ ∧ _ ∧ _ ∧ AllValid as := by
      simpa only [allValid_cons] using hhead
    exact ⟨hf, argList_writable has has', (allWritable_iff ss).mpr
      (hss.writable (allValid_cons.mp (allValid_cons.mp hts).2).2)⟩
  | ext f x => exact ⟨hv (.ID f) (by simp), hv (.ID x) (by simp)⟩

/-- **What is parsed has the form.** -/
theorem ProgramText.writable {ts : List Tok} {ps : List Policy} (h : ProgramText ts ps)
    (hv : AllValid ts) : Writable ps := by
  induction h with
  | @default ts p hp =>
    refine ⟨p, [], rfl, ?_, fun q hq => absurd hq List.not_mem_nil⟩
    cases hp with
    | allow => exact .inl rfl
    | empty => exact .inr rfl
    | deny => exact .inr rfl
  | snoc _ hp ih =>
    obtain ⟨hts, hus⟩ := allValid_append.mp hv
    obtain ⟨d, qs, rfl, hd, hqs⟩ := ih hts
    refine ⟨d, qs ++ [_], rfl, hd, fun q hq => ?_⟩
    rcases List.mem_append.mp hq with hq | hq
    · exact hqs q hq
    · rw [List.mem_singleton.mp hq]
      exact hp.writable hus

/-! ## What has the form is read -/

theorem nonEmptyArgList_exists {xs : List String} (hne : xs ≠ []) (h : ∀ x ∈ xs, IsName x) :
    ∃ ts, NonEmptyArgList ts xs ∧ AllValid ts := by
  induction xs using List.reverseRecOn with
  | nil => exact absurd rfl hne
  | append_singleton xs x ih =>
    have hx : Tok.Valid (.ID x) := h x (by simp)
    by_cases hxs : xs = []
    · subst hxs
      exact ⟨[.ID x], .one x, allValid_cons.mpr ⟨hx, allValid_nil⟩⟩
    · obtain ⟨ts, hts, hv⟩ := ih hxs fun y hy => h y (List.mem_append_left _ hy)
      refine ⟨ts ++ [.COMMA, .ID x], .snoc x hts, allValid_append.mpr ⟨hv, ?_⟩⟩
      exact allValid_cons.mpr ⟨trivial, allValid_cons.mpr ⟨hx, allValid_nil⟩⟩

theorem argList_exists {xs : List String} (h : ∀ x ∈ xs, IsName x) :
    ∃ ts, ArgList ts xs ∧ AllValid ts := by
  by_cases hxs : xs = []
  · subst hxs
    exact ⟨[], .empty, allValid_nil⟩
  · obtain ⟨ts, hts, hv⟩ := nonEmptyArgList_exists hxs h
    exact ⟨ts, .some hts, hv⟩

/-- A constant of `int` is the cast of a numeral. -/
theorem wrap_numeral {n : Int} (hlo : -2 ^ 31 ≤ n) (hhi : n < 2 ^ 31) :
    ∃ m : Nat, m < 2 ^ 32 ∧ IntType.int.wrap (IntType.unsignedInt.wrap m) = n := by
  refine ⟨(n % 2 ^ 32).toNat, by omega, ?_⟩
  rw [IntType.wrap_int, IntType.wrap_unsignedInt]
  split <;> omega

/-- Every binary operator has a token of its own. -/
theorem infix_exists {op : OpCode} (h : op ≠ .NOT ∧ op ≠ .UMINUS ∧ op ≠ .INVALID) :
    ∃ t : Tok, t.infix? = some op ∧ t.Valid := by
  cases op with
  | NOT => exact absurd rfl h.1
  | UMINUS => exact absurd rfl h.2.1
  | INVALID => exact absurd rfl h.2.2
  | PLUS => exact ⟨.PLUS, rfl, trivial⟩
  | MINUS => exact ⟨.MINUS, rfl, trivial⟩
  | MULT => exact ⟨.MULT, rfl, trivial⟩
  | DIV => exact ⟨.DIV, rfl, trivial⟩
  | MOD => exact ⟨.MOD, rfl, trivial⟩
  | EQ => exact ⟨.EQ, rfl, trivial⟩
  | NE => exact ⟨.NE, rfl, trivial⟩
  | GT => exact ⟨.GT, rfl, trivial⟩
  | LT => exact ⟨.LT, rfl, trivial⟩
  | GE => exact ⟨.GE, rfl, trivial⟩
  | LE => exact ⟨.LE, rfl, trivial⟩
  | AND => exact ⟨.AND, rfl, trivial⟩
  | OR => exact ⟨.OR, rfl, trivial⟩
  | BITNOT => exact ⟨.BITNOT, rfl, trivial⟩
  | BITAND => exact ⟨.BITAND, rfl, trivial⟩
  | BITOR => exact ⟨.BITOR, rfl, trivial⟩
  | BITXOR => exact ⟨.BITXOR, rfl, trivial⟩
  | SHL => exact ⟨.SHL, rfl, trivial⟩
  | SHR => exact ⟨.SHR, rfl, trivial⟩

/-- Parentheses around a phrase make an operand, with no conflicts left. -/
theorem paren_exists {ts : List Tok} {e : Expr} (h : ExprText ts e) (hv : AllValid ts) :
    ∃ us, OperandText us e ∧ AllValid us := by
  obtain ⟨os, ρs, h⟩ := h
  refine ⟨.LPAREN :: ts ++ [.RPAREN], .paren h, ?_⟩
  exact allValid_append.mpr ⟨allValid_cons.mpr ⟨trivial, hv⟩,
    allValid_cons.mpr ⟨trivial, allValid_nil⟩⟩

/-- An expression is written with all its parentheses. -/
theorem operand_exists {e : Expr} (h : e.Writable) : ∃ ts, OperandText ts e ∧ AllValid ts := by
  induction e with
  | ref x => exact ⟨[.ID x], .id x, allValid_cons.mpr ⟨h, allValid_nil⟩⟩
  | value n =>
    obtain ⟨m, hm, hwrap⟩ := wrap_numeral h.1 h.2
    refine ⟨[.UINT m], ?_, allValid_cons.mpr ⟨hm, allValid_nil⟩⟩
    rw [← hwrap]
    exact .uint m
  | inv f xs =>
    obtain ⟨ts, hts, hv⟩ := argList_exists h.2
    refine ⟨.ID f :: .LPAREN :: ts ++ [.RPAREN], .invocation f hts, ?_⟩
    exact allValid_append.mpr ⟨allValid_cons.mpr ⟨h.1, allValid_cons.mpr ⟨trivial, hv⟩⟩,
      allValid_cons.mpr ⟨trivial, allValid_nil⟩⟩
  | op1 op e ih =>
    obtain ⟨ts, hts, hv⟩ := ih h.2
    obtain ⟨t, ht, hvalid⟩ : ∃ t : Tok, t.prefix? = some op ∧ t.Valid := by
      rcases h.1 with rfl | rfl
      · exact ⟨.NOT, rfl, trivial⟩
      · exact ⟨.MINUS, rfl, trivial⟩
    exact paren_exists ⟨_, _, .unary ht (.operand hts) fun o ho => absurd ho List.not_mem_nil⟩
      (allValid_cons.mpr ⟨hvalid, hv⟩)
  | op2 op l r ihl ihr =>
    obtain ⟨hop, hl, hr⟩ := h
    obtain ⟨ls, hls, hvl⟩ := ihl hl
    obtain ⟨rs, hrs, hvr⟩ := ihr hr
    obtain ⟨t, ht, hvalid⟩ := infix_exists hop
    exact paren_exists ⟨_, _, .binary ht (.operand hls) (.operand hrs)
      (fun ρ hρ => absurd hρ List.not_mem_nil) fun o ho => absurd ho List.not_mem_nil⟩
      (allValid_append.mpr ⟨hvl, allValid_cons.mpr ⟨hvalid, hvr⟩⟩)

theorem expr_exists {e : Expr} (h : e.Writable) : ∃ ts, ExprText ts e ∧ AllValid ts := by
  obtain ⟨ts, hts, hv⟩ := operand_exists h
  exact ⟨ts, ⟨_, _, .operand hts⟩, hv⟩

/-- Statements one after the other. -/
theorem stmts_exists {ss : List Stmt}
    (h : ∀ s ∈ ss, ∃ ts, StmtText ts s s.takesElse ∧ AllValid ts) :
    ∃ ts, StmtsText ts ss ∧ AllValid ts := by
  induction ss using List.reverseRecOn with
  | nil => exact ⟨[], .empty, allValid_nil⟩
  | append_singleton ss s ih =>
    obtain ⟨ts, hts, hv⟩ := ih fun s' hs' => h s' (List.mem_append_left _ hs')
    obtain ⟨us, hus, hv'⟩ := h s (by simp)
    exact ⟨ts ++ us, .snoc hts hus, allValid_append.mpr ⟨hv, hv'⟩⟩

/-- The condition of a conditional and its parentheses. -/
theorem cond_valid {cs : List Tok} (h : AllValid cs) :
    AllValid (.IF :: .LPAREN :: cs ++ [.RPAREN]) :=
  allValid_append.mpr ⟨allValid_cons.mpr ⟨trivial, allValid_cons.mpr ⟨trivial, h⟩⟩,
    allValid_cons.mpr ⟨trivial, allValid_nil⟩⟩

/-- A conditional without `else` is written as its parts are. -/
theorem ifThen_exists {c : Expr} {t : Stmt} (hc : c.Writable)
    (ht : ∃ ts, BodyText ts t t.takesElse ∧ AllValid ts) :
    ∃ ts, StmtText ts (.ifThen c t) true ∧ AllValid ts := by
  obtain ⟨cs, hcs, hvc⟩ := expr_exists hc
  obtain ⟨ts, hts, hvt⟩ := ht
  refine ⟨_, .ifThen hcs hts, ?_⟩
  rw [List.append_cons]
  exact allValid_append.mpr ⟨cond_valid hvc, hvt⟩

/-- A conditional with `else` is written as its parts are, if its first body takes none. -/
theorem ifElse_exists {c : Expr} {t e : Stmt} (hc : c.Writable)
    (ht : ∃ ts, BodyText ts t t.takesElse ∧ AllValid ts) (helse : t.takesElse = false)
    (he : ∃ ts, BodyText ts e e.takesElse ∧ AllValid ts) :
    ∃ ts, StmtText ts (.ifElse c t e) e.takesElse ∧ AllValid ts := by
  obtain ⟨cs, hcs, hvc⟩ := expr_exists hc
  obtain ⟨ts, hts, hvt⟩ := ht
  obtain ⟨es, hes, hve⟩ := he
  rw [helse] at hts
  refine ⟨_, .ifElse hcs hts hes, allValid_append.mpr ⟨?_, allValid_cons.mpr ⟨trivial, hve⟩⟩⟩
  rw [List.append_cons]
  exact allValid_append.mpr ⟨cond_valid hvc, hvt⟩

/-- A statement where one is due, or a body. -/
def PlaceText (body : Bool) (ts : List Tok) (s : Stmt) (o : Bool) : Prop :=
  match body with
  | true => BodyText ts s o
  | false => StmtText ts s o

theorem PlaceText.of_stmt {body : Bool} {ts : List Tok} {s : Stmt} {o : Bool}
    (h : StmtText ts s o) : PlaceText body ts s o := by
  cases body with
  | true => exact .statement h
  | false => exact h

mutual

/-- By induction over the statement, where one is due and as a body. -/
theorem stmt_exists : ∀ (s : Stmt) (body : Bool), s.Writable body →
    ∃ ts, PlaceText body ts s s.takesElse ∧ AllValid ts
  | .empty, _, _ => ⟨_, .of_stmt .semicolon, by simp [AllValid, Tok.Valid]⟩
  | .perm .ALLOW, _, _ => ⟨_, .of_stmt .allow, by simp [AllValid, Tok.Valid]⟩
  | .perm .DENY, _, _ => ⟨_, .of_stmt .deny, by simp [AllValid, Tok.Valid]⟩
  | .assign x e, _, h => by
    obtain ⟨ts, hts, hv⟩ := expr_exists h.2
    refine ⟨_, .of_stmt (.assign x hts), allValid_append.mpr ⟨allValid_cons.mpr ⟨h.1, ?_⟩, ?_⟩⟩
    · exact allValid_cons.mpr ⟨trivial, hv⟩
    · exact allValid_cons.mpr ⟨trivial, allValid_nil⟩
  | .ifThen c t, _, h => by
    obtain ⟨ts, hts, hv⟩ := ifThen_exists h.1 (stmt_exists t true h.2)
    exact ⟨ts, .of_stmt hts, hv⟩
  | .ifElse c t e, _, h => by
    obtain ⟨ts, hts, hv⟩ := ifElse_exists h.1 (stmt_exists t true h.2.1) h.2.2.1
      (stmt_exists e true h.2.2.2)
    exact ⟨ts, .of_stmt hts, hv⟩
  | .compound ss, body, h => by
    obtain ⟨rfl, hss⟩ := h
    obtain ⟨ts, hts, hv⟩ := stmts_exists (all_exists ss hss)
    refine ⟨_, .braces hts, allValid_append.mpr ⟨allValid_cons.mpr ⟨trivial, hv⟩, ?_⟩⟩
    exact allValid_cons.mpr ⟨trivial, allValid_nil⟩

theorem all_exists : ∀ (ss : List Stmt), AllWritable ss →
    ∀ s ∈ ss, ∃ ts, StmtText ts s s.takesElse ∧ AllValid ts
  | [], _ => fun _ hs => absurd hs List.not_mem_nil
  | s :: ss, h => List.forall_mem_cons.mpr ⟨stmt_exists s false h.1, all_exists ss h.2⟩

end

/-- A policy of the form has tokens. -/
theorem policy_exists {p : Policy} (h : p.Writable) : ∃ ts, PolicyText ts p ∧ AllValid ts := by
  cases p with
  | check c =>
    obtain ⟨hf, hxs, hss⟩ := h
    obtain ⟨as, has, hva⟩ := argList_exists hxs
    obtain ⟨ts, hts, hv⟩ := stmts_exists (all_exists c.stmts hss)
    refine ⟨_, .check ⟨c.syscall, c.named⟩ has hts, allValid_append.mpr ⟨?_, ?_⟩⟩
    · exact allValid_cons.mpr ⟨trivial, allValid_cons.mpr ⟨hf, allValid_cons.mpr ⟨trivial, hva⟩⟩⟩
    · exact allValid_cons.mpr ⟨trivial, allValid_cons.mpr ⟨trivial, hv⟩⟩
  | ext f x =>
    refine ⟨_, .ext f x, fun t ht => ?_⟩
    simp only [List.mem_cons, List.not_mem_nil, or_false] at ht
    rcases ht with rfl | rfl | rfl | rfl
    · trivial
    · exact h.1
    · trivial
    · exact h.2
  | _ => exact h.elim

/-- **What has the form has tokens**, with no conflicts in them. -/
theorem program_exists {ps : List Policy} (h : Writable ps) :
    ∃ ts, ProgramText ts ps ∧ AllValid ts := by
  obtain ⟨d, qs, rfl, hd, hqs⟩ := h
  induction qs using List.reverseRecOn with
  | nil =>
    rcases hd with rfl | rfl
    · exact ⟨_, .default .allow, by simp [AllValid, Tok.Valid]⟩
    · exact ⟨_, .default .deny, by simp [AllValid, Tok.Valid]⟩
  | append_singleton qs q ih =>
    obtain ⟨ts, hts, hv⟩ := ih fun q' hq' => hqs q' (List.mem_append_left _ hq')
    obtain ⟨us, hus, hv'⟩ := policy_exists (hqs q (by simp))
    exact ⟨ts ++ us, .snoc hts hus, allValid_append.mpr ⟨hv, hv'⟩⟩

/-- **What comes out of the front end** for some text are the programs of the form, and no others. -/
theorem frontEnd_range (ps : List Policy) : (∃ text, frontEnd text = some ps) ↔ Writable ps := by
  constructor
  · rintro ⟨text, h⟩
    obtain ⟨ls, ts, hls, hts, hps⟩ := (frontEnd_iff text ps).mp h
    exact hps.writable (tokens_valid hls hts)
  · intro h
    obtain ⟨ts, hts, hv⟩ := program_exists h
    refine ⟨spell ts, ?_⟩
    rw [frontEnd, lex_spelling hv, Option.bind_some, (yyparse_iff ts ps).mpr hts]
    rfl

end SeccompPolicy
