import SeccompPolicy.ParserCorrect

/-!
# What the parser rejects

Source: `parser.y++`, its `%nonassoc` declarations.

A text of the grammar, however its conflicts are resolved in the derivation, is read to its end,
unless a comparison meets a comparison: the one conflict that is resolved by an error. The tree
may be another than that of the derivation, as in `a - b - c`, and an `else` may belong to another
conditional; what the parser accepts does not depend on it.

The induction is over the derivation in the ambiguous grammar, for a parser in any state in which
the text is due, with any operators pending. `_okOr` in the names: the text is read, or the parser
has stopped at a comparison of a comparison.

## Results

* `exprRule_okOr`, `stmtRule_okOr`, `programRule_okOr`: expressions, statements, programs.
* `yyparse_conflict`: of the texts of the grammar the parser rejects a comparison of a comparison,
  and nothing else.
* `chain_rejected`: `def open(a): if (a == 1 == 2) deny;`.
-/

namespace SeccompPolicy

open CInt OperatorStack Reader

/-- A value, in the parentheses that were open. -/
def IsValue (outer : List Ops) (E : ExprAt) : Prop := ∃ e callee ops, E = .value e callee ops outer

/-- An operator is shifted, or is a comparison of a comparison. -/
theorem valueStep_okOr {t : Tok} {o : OpCode} (ht : t.infix? = some o) {outer : List Ops} {E : ExprAt}
    (hE : IsValue outer E) :
    OkOr .nonassoc (E.step t) fun E' => ∃ ops', E' = .operand ops' outer := by
  obtain ⟨e, callee, ops, rfl⟩ := hE
  cases hreduce : arithExpr.reduceOn o ops e with
  | some r =>
    rw [valueStep_binary ht (l := r.2) callee outer hreduce]
    exact ⟨_, rfl⟩
  | none =>
    have hstep : (ExprAt.value e callee ops outer).step t = .error .nonassoc := by
      cases t <;> cases ht <;> simp only [ExprAt.step, valueStep, Tok.infix?, hreduce]
    rw [hstep]
    exact rfl

/-- An expression of the grammar is read. -/
theorem exprRule_okOr {ts : List Tok} {e : Expr} (h : ExprRule ts e) :
    ∀ ops outer, OkOr .nonassoc (reads ExprAt.step (.operand ops outer) ts) (IsValue outer) := by
  induction h with
  | infix_ ht _ _ ihl ihr =>
    intro ops outer
    refine (ihl ops outer).append fun E hE => (valueStep_okOr ht hE).cons ?_
    rintro E' ⟨ops', rfl⟩
    exact ihr ops' outer
  | @prefix_ t p ts e ht _ ih =>
    intro ops outer
    exact .of_step (operandStep_unary ht ops outer) (ih _ outer)
  | invocation f hxs =>
    intro ops outer
    obtain ⟨e₀, callee, pend, hreads, -⟩ := phrase_reads (.operand (.invocation f hxs)) ops outer
      (shifts_nil ops)
    rw [hreads]
    exact ⟨_, _, _, rfl⟩
  | paren _ ih =>
    intro ops outer
    refine OkOr.append (OkOr.of_step rfl (ih [] (ops :: outer))) ?_
    rintro E ⟨e, callee, ops', rfl⟩
    exact ⟨_, _, _, rfl⟩
  | id x => exact fun ops outer => ⟨_, _, _, rfl⟩
  | uint n => exact fun ops outer => ⟨_, _, _, rfl⟩

/-- A comparison of a comparison is found at an operator. -/
theorem step_nonassoc {E : ExprAt} {t : Tok} (h : E.step t = .error .nonassoc) :
    ∃ o, t.infix? = some o := by
  cases E with
  | operand ops outer =>
    cases t <;> simp [ExprAt.step, operandStep, Tok.prefix?] at h
  | args f a ops outer =>
    cases a <;> cases t <;> simp [ExprAt.step, argsStep, ArgsAt.step, ArgsAt.finish, Except.map] at h
  | value e callee ops outer =>
    cases t with
    | LPAREN => cases callee <;> cases h
    | RPAREN => cases outer <;> cases h
    | _ => first | exact ⟨_, rfl⟩ | cases h

theorem assign_nonassoc (x : String) (fs : List Frame) {E : ExprAt} {t : Tok}
    (h : E.step t = .error .nonassoc) : (StmtAt.assign x E fs).step t = .error .nonassoc := by
  obtain ⟨o, ho⟩ := step_nonassoc h
  show assignStep x E fs t = _
  unfold assignStep
  split
  · cases ho
  · rw [h]
    rfl

theorem cond_nonassoc (fs : List Frame) {E : ExprAt} {t : Tok}
    (h : E.step t = .error .nonassoc) : (StmtAt.cond E fs).step t = .error .nonassoc := by
  obtain ⟨o, ho⟩ := step_nonassoc h
  show condStep E fs t = _
  unfold condStep
  split
  · cases ho
  · rw [h]
    rfl

/-- An assignment of the grammar is read. -/
theorem assign_okOr {ts : List Tok} {e : Expr} (h : ExprRule ts e) (x : String) (fs : List Frame) :
    OkOr .nonassoc (reads StmtAt.step (.statement fs) (.ID x :: .ASSIGN :: ts ++ [.SEMICOLON]))
      fun b => ∃ s, b = .done s fs := by
  have hexpr := (exprRule_okOr h [] []).lift (fun E => StmtAt.assign x E fs) (assign_step x fs)
    (assign_nonassoc x fs)
  refine OkOr.append (OkOr.of_step rfl (OkOr.of_step rfl hexpr)) ?_
  rintro b ⟨E, rfl, e', callee, ops, rfl⟩
  exact ⟨_, rfl⟩

/-- A condition of the grammar is read. -/
theorem cond_okOr {cs : List Tok} {c : Expr} (h : ExprRule cs c) (fs : List Frame) {ts : List Tok}
    {Φ : StmtAt → Prop}
    (hts : ∀ c', OkOr .nonassoc (reads StmtAt.step (.statement (.ifThen c' :: fs)) ts) Φ) :
    OkOr .nonassoc (reads StmtAt.step (.statement fs) (.IF :: .LPAREN :: cs ++ .RPAREN :: ts)) Φ := by
  have hexpr := (exprRule_okOr h [] []).lift (fun E => StmtAt.cond E fs) (cond_step fs)
    (cond_nonassoc fs)
  refine OkOr.append (OkOr.of_step rfl (OkOr.of_step rfl hexpr)) ?_
  rintro b ⟨E, rfl, e, callee, ops, rfl⟩
  exact .of_step rfl (hts _)

/-! ## Statements -/

/-- Conditionals. -/
def AllIf (pend : List Frame) : Prop := ∀ f ∈ pend, f.isIf = true

/-- Conditionals end in a statement of what is around them. -/
theorem unwind_allIf {pend : List Frame} (h : AllIf pend) (s : Stmt) (ss : List Stmt)
    (fs : List Frame) : ∃ s', unwind s (pend ++ .stmts ss :: fs) = .stmts (ss ++ [s']) :: fs := by
  induction pend generalizing s with
  | nil => exact ⟨s, rfl⟩
  | cons f pend ih =>
    obtain ⟨hf, hpend⟩ := List.forall_mem_cons.mp h
    cases f with
    | stmts ss' => cases hf
    | _ => exact ih hpend _

/-- Over a conditional without `else` there is one that takes it. -/
theorem attach_allIf {pend : List Frame} (h : AllIf pend) (s : Stmt) (c : Expr) (fs : List Frame) :
    ∃ c' t' pend', attach s (pend ++ .ifThen c :: fs) = .ok (.ifElse c' t' :: (pend' ++ fs)) ∧
      AllIf pend' := by
  induction pend generalizing s with
  | nil => exact ⟨c, s, [], rfl, fun f hf => absurd hf List.not_mem_nil⟩
  | cons f pend ih =>
    obtain ⟨hf, hpend⟩ := List.forall_mem_cons.mp h
    cases f with
    | stmts ss' => cases hf
    | ifElse c' t' => exact ih hpend _
    | ifThen c' =>
      refine ⟨c', s, pend ++ [.ifThen c], by simp [attach], fun f hf => ?_⟩
      rcases List.mem_append.mp hf with hf | hf
      · exact hpend f hf
      · rw [List.mem_singleton.mp hf]
        rfl

/-- Behind a statement, and conditionals that may take an `else`. -/
def IsDone (fs : List Frame) (b : StmtAt) : Prop := ∃ s pend, b = .done s (pend ++ fs) ∧ AllIf pend

theorem isDone_done (s : Stmt) (fs : List Frame) : IsDone fs (.done s fs) :=
  ⟨s, [], rfl, fun _ hf => absurd hf List.not_mem_nil⟩

theorem IsDone.under {f : Frame} {fs : List Frame} {b : StmtAt} (hf : f.isIf = true)
    (h : IsDone (f :: fs) b) : IsDone fs b := by
  obtain ⟨s, pend, rfl, hpend⟩ := h
  refine ⟨s, pend ++ [f], by rw [List.append_assoc]; rfl, fun f' hf' => ?_⟩
  rcases List.mem_append.mp hf' with hf' | hf'
  · exact hpend f' hf'
  · rw [List.mem_singleton.mp hf']
    exact hf

theorem StmtRule.head {ts : List Tok} {s : Stmt} (h : StmtRule ts s) :
    ∃ t us, ts = t :: us ∧ t ≠ .ELSE := by
  cases h <;> exact ⟨_, _, rfl, Tok.noConfusion⟩

mutual

/-- **A statement of the grammar is read.** -/
theorem stmtRule_okOr : ∀ {ts : List Tok} {s : Stmt}, StmtRule ts s → ∀ fs,
    OkOr .nonassoc (reads StmtAt.step (.statement fs) ts) (IsDone fs)
  | _, _, .semicolon, fs => isDone_done _ fs
  | _, _, .assign x he, fs => by
    refine (assign_okOr he x fs).mono ?_
    rintro b ⟨s, rfl⟩
    exact isDone_done s fs
  | _, _, .allow, fs => isDone_done _ fs
  | _, _, .deny, fs => isDone_done _ fs
  | _, _, .ifThen hc ht, fs =>
    cond_okOr hc fs fun c' => (bodyRule_okOr ht (f := .ifThen c') rfl fs).mono fun b hb => hb.under rfl
  | _, _, .ifElse hc ht he, fs => by
    rw [List.append_assoc, List.cons_append]
    refine cond_okOr hc fs fun c' => (bodyRule_okOr ht (f := .ifThen c') rfl fs).append ?_
    rintro b ⟨s, pend, rfl, hpend⟩
    obtain ⟨c₁, t₁, pend', hattach, hpend'⟩ := attach_allIf hpend s c' fs
    have helse : (StmtAt.done s (pend ++ .ifThen c' :: fs)).step .ELSE =
        .ok (.statement (.ifElse c₁ t₁ :: (pend' ++ fs))) := by
      simp only [StmtAt.step, if_pos, hattach]
      rfl
    refine OkOr.of_step helse ((bodyRule_okOr he (f := .ifElse c₁ t₁) rfl (pend' ++ fs)).mono ?_)
    intro b hb
    obtain ⟨s', pend₁, rfl, hpend₁⟩ := hb.under rfl
    refine ⟨s', pend₁ ++ pend', by rw [List.append_assoc], fun f hf => ?_⟩
    exact (List.mem_append.mp hf).elim (hpend₁ f) (hpend' f)

theorem bodyRule_okOr : ∀ {ts : List Tok} {s : Stmt}, BodyRule ts s → ∀ {f : Frame},
    f.isIf = true → ∀ fs,
    OkOr .nonassoc (reads StmtAt.step (.statement (f :: fs)) ts) (IsDone (f :: fs))
  | _, _, @BodyRule.braces ts ss hss, f, hf, fs => by
    have hopen : (StmtAt.statement (f :: fs)).step .LBRACE =
        .ok (.statement (.stmts [] :: f :: fs)) := by
      cases f <;> first | rfl | cases hf
    refine OkOr.append (OkOr.of_step hopen (stmtsRule_okOr hss (f :: fs))) ?_
    rintro b ⟨ss', hb⟩
    have hclose : b.step .RBRACE = .ok (.done (.compound ss') (f :: fs)) := hb.step (by decide)
    exact .of_step hclose (isDone_done _ _)
  | _, _, .statement hs, f, _, fs => stmtRule_okOr hs (f :: fs)

theorem stmtsRule_okOr : ∀ {ts : List Tok} {ss : List Stmt}, StmtsRule ts ss → ∀ fs,
    OkOr .nonassoc (reads StmtAt.step (.statement (.stmts [] :: fs)) ts)
      fun b => ∃ ss', AtStmts b (.stmts ss' :: fs)
  | _, _, .empty, fs => ⟨[], .inl rfl⟩
  | _, _, @StmtsRule.snoc _ us _ _ hss hs, fs => by
    refine (stmtsRule_okOr hss fs).append ?_
    rintro b ⟨ss', hb⟩
    have hsame : reads StmtAt.step b us = reads StmtAt.step (.statement (.stmts ss' :: fs)) us := by
      obtain ⟨t, us, rfl, ht⟩ := hs.head
      rw [reads, reads, hb.step ht]
      rfl
    rw [hsame]
    refine (stmtRule_okOr hs (.stmts ss' :: fs)).mono ?_
    rintro b' ⟨s, pend, rfl, hpend⟩
    obtain ⟨s', hunwind⟩ := unwind_allIf hpend s ss' fs
    exact ⟨ss' ++ [s'], .inr ⟨s, _, rfl, hunwind⟩⟩

end

/-! ## Programs -/

theorem checkBody_nonassoc (ps : List Policy) (f : SyscallName) (xs : List String) {b : StmtAt}
    {t : Tok} (h : b.step t = .error .nonassoc) :
    (ProgramAt.checkBody ps f xs b).step t = .error .nonassoc := by
  have hne : ¬ (t = .DEF ∨ t = .EXTEND) := by
    intro ht
    rw [stmtAt_step_policy ht] at h
    cases h
  simp only [ProgramAt.step, if_neg hne, h]
  rfl

theorem policyRule_okOr {s : ProgramAt} {ps : List Policy} (hs : AtPolicies s ps) {ts : List Tok}
    {p : Policy} (h : PolicyRule ts p) :
    OkOr .nonassoc (reads ProgramAt.step s ts) fun s' => ∃ ps', AtPolicies s' ps' := by
  cases h with
  | @check as ts xs ss f hf has hss =>
    rw [header_reads hs ⟨f, hf⟩ has ts]
    refine ((stmtsRule_okOr hss []).lift (fun b => ProgramAt.checkBody ps ⟨f, hf⟩ xs b)
      (checkBody_step ps _ xs) (checkBody_nonassoc ps _ xs)).mono ?_
    rintro s' ⟨b, rfl, ss', hb⟩
    exact ⟨_, hb.atPolicies ps _ xs⟩
  | ext f x => exact .of_step (hs.step _ (.inr rfl)) ⟨_, atPolicies_policies _⟩

theorem programRule_okOr {ts : List Tok} {ps : List Policy} (h : ProgramRule ts ps) :
    OkOr .nonassoc (reads ProgramAt.step .start ts) fun s => ∃ ps', AtPolicies s ps' := by
  induction h with
  | default hp =>
    obtain ⟨s, hreads, hs⟩ := (ProgramText.default hp).reads
    rw [hreads]
    exact ⟨_, hs⟩
  | snoc _ hp ih =>
    refine ih.append ?_
    rintro s ⟨ps', hs⟩
    exact policyRule_okOr hs hp

/-- **What the parser rejects** of the texts of the grammar: a comparison of a comparison, nothing
else. -/
theorem yyparse_conflict {ts : List Tok} {ps : List Policy} (h : ProgramRule ts ps) :
    (∃ ps', ProgramText ts ps') ∨ yyparse ts = .error .nonassoc := by
  have hreads : OkOr .nonassoc (yyparse ts) fun _ => True := by
    refine (programRule_okOr h).bind ?_
    rintro s ⟨ps', hs⟩
    rw [hs.finish]
    exact trivial
  cases hparse : yyparse ts with
  | ok ps' => exact .inl ⟨ps', (yyparse_iff ts ps').mp hparse⟩
  | error err =>
    rw [hparse] at hreads
    exact .inr (congrArg Except.error hreads)

/-- `def open(a): if (a == 1 == 2) deny;` is a text of the grammar. -/
theorem programRule_chain : ProgramRule
    [.DEF, .ID "open", .LPAREN, .ID "a", .RPAREN, .COLON, .IF, .LPAREN, .ID "a", .EQ, .UINT 1, .EQ,
      .UINT 2, .RPAREN, .DENY, .SEMICOLON]
    [.defaultDeny, .check ⟨"open", ["a"],
      [.ifThen (.op2 .EQ (.op2 .EQ (.ref "a") (.value 1)) (.value 2)) (.perm .DENY)], open_named⟩] :=
  .snoc (.default .empty) (.check "open" open_named (.some (.one "a"))
    (.snoc .empty (.ifThen (.infix_ rfl (.infix_ rfl (.id "a") (.uint 1)) (.uint 2))
      (.statement .deny))))

/-- The parser rejects it. -/
theorem chain_rejected : yyparse
    [.DEF, .ID "open", .LPAREN, .ID "a", .RPAREN, .COLON, .IF, .LPAREN, .ID "a", .EQ, .UINT 1, .EQ,
      .UINT 2, .RPAREN, .DENY, .SEMICOLON] = .error .nonassoc := by
  rcases yyparse_conflict programRule_chain with ⟨ps, hps⟩ | h
  · cases (yyparse_iff _ ps).mpr hps
  · exact h

end SeccompPolicy
