import SeccompPolicy.ExprTexts

/-!
# What the parser accepts

Source: `parser.y++`.

The grammar with its conflicts resolved: in an expression by precedence (`ExprTexts`), and an
`else` belongs to the innermost conditional, so that the first body of a conditional with `else`
does not end in one without. That is the index of `StmtText`, which says whether an `else` behind
the statement would belong to it.

Two inductions meet. Over the derivation, a text is read with its tree (`StmtText.reads`,
`ProgramText.reads`), leaving behind it the conditionals an `else` could go to. Over the tokens,
what has been read at any time is a text so far, with the conditionals and braces that are open in
`FramesRead`.

## Results

* `ProgramText.programRule`: a text with its conflicts resolved is a text of the grammar, with the
  tree the parser builds.
* `yyparse_iff`: what the parser accepts are these texts, with their trees.
* `parser_correct`: so no text has two trees, and the tree is one the grammar itself has for the
  text.
-/

namespace SeccompPolicy

open CInt OperatorStack Reader

/-! ## The texts -/

mutual

/-- `statement`; the index says whether an `else` behind it would belong to it. -/
inductive StmtText : List Tok → Stmt → Bool → Prop
  | semicolon : StmtText [.SEMICOLON] .empty false
  | assign {ts : List Tok} {e : Expr} (x : String) : ExprText ts e →
      StmtText (.ID x :: .ASSIGN :: ts ++ [.SEMICOLON]) (.assign x e) false
  | allow : StmtText [.ALLOW, .SEMICOLON] (.perm .ALLOW) false
  | deny : StmtText [.DENY, .SEMICOLON] (.perm .DENY) false
  | ifThen {cs ts : List Tok} {c : Expr} {t : Stmt} {o : Bool} : ExprText cs c → BodyText ts t o →
      StmtText (.IF :: .LPAREN :: cs ++ .RPAREN :: ts) (.ifThen c t) true
  | ifElse {cs ts es : List Tok} {c : Expr} {t e : Stmt} {o : Bool} : ExprText cs c →
      BodyText ts t false → BodyText es e o →
      StmtText (.IF :: .LPAREN :: cs ++ .RPAREN :: ts ++ .ELSE :: es) (.ifElse c t e) o

/-- `if_body`. -/
inductive BodyText : List Tok → Stmt → Bool → Prop
  | braces {ts : List Tok} {ss : List Stmt} : StmtsText ts ss →
      BodyText (.LBRACE :: ts ++ [.RBRACE]) (.compound ss) false
  | statement {ts : List Tok} {s : Stmt} {o : Bool} : StmtText ts s o → BodyText ts s o

/-- `stmts`. -/
inductive StmtsText : List Tok → List Stmt → Prop
  | empty : StmtsText [] []
  | snoc {ts us : List Tok} {ss : List Stmt} {s : Stmt} {o : Bool} : StmtsText ts ss →
      StmtText us s o → StmtsText (ts ++ us) (ss ++ [s])

end

/-- `pocliy`. -/
inductive PolicyText : List Tok → Policy → Prop
  | check {as ts : List Tok} {xs : List String} {ss : List Stmt} (f : SyscallName) :
      ArgList as xs → StmtsText ts ss →
      PolicyText (.DEF :: .ID f :: .LPAREN :: as ++ .RPAREN :: .COLON :: ts) (checkPolicy f xs ss)
  | ext (f x : String) : PolicyText [.EXTEND, .ID f, .COLON, .ID x] (.ext f x)

/-- `program`. -/
inductive ProgramText : List Tok → List Policy → Prop
  | default {ts : List Tok} {p : Policy} : DefaultRule ts p → ProgramText ts [p]
  | snoc {ts us : List Tok} {ps : List Policy} {p : Policy} : ProgramText ts ps →
      PolicyText us p → ProgramText (ts ++ us) (ps ++ [p])

/-! ## They are texts of the grammar -/

mutual

/-- A statement with its conflicts resolved is a statement of the grammar. -/
theorem StmtText.stmtRule : ∀ {ts : List Tok} {s : Stmt} {o : Bool}, StmtText ts s o →
    StmtRule ts s
  | _, _, _, .semicolon => .semicolon
  | _, _, _, .assign x he => .assign x he.exprRule
  | _, _, _, .allow => .allow
  | _, _, _, .deny => .deny
  | _, _, _, .ifThen hc ht => .ifThen hc.exprRule ht.bodyRule
  | _, _, _, .ifElse hc ht he => .ifElse hc.exprRule ht.bodyRule he.bodyRule

theorem BodyText.bodyRule : ∀ {ts : List Tok} {s : Stmt} {o : Bool}, BodyText ts s o →
    BodyRule ts s
  | _, _, _, .braces hss => .braces hss.stmtsRule
  | _, _, _, .statement hs => .statement hs.stmtRule

theorem StmtsText.stmtsRule : ∀ {ts : List Tok} {ss : List Stmt}, StmtsText ts ss →
    StmtsRule ts ss
  | _, _, .empty => .empty
  | _, _, .snoc hss hs => .snoc hss.stmtsRule hs.stmtRule

end

/-- A check or an extension with its conflicts resolved is one of the grammar. -/
theorem PolicyText.policyRule {ts : List Tok} {p : Policy} (h : PolicyText ts p) :
    PolicyRule ts p := by
  cases h with
  | check f has hss => exact .check f f.2 has hss.stmtsRule
  | ext f x => exact .ext f x

/-- A text that is parsed is a text of the grammar, with the tree the parser builds. -/
theorem ProgramText.programRule {ts : List Tok} {ps : List Policy} (h : ProgramText ts ps) :
    ProgramRule ts ps := by
  induction h with
  | default hp => exact .default hp
  | snoc _ hp ih => exact .snoc ih hp.policyRule

/-! ## They are read -/

/-- A token of an expression, in an assignment or a condition. -/
theorem exprAt_step_ok {e e' : ExprAt} {t : Tok} (h : e.step t = .ok e') :
    t ≠ .SEMICOLON ∧ (t = .RPAREN → e.finish = none) := by
  cases e with
  | operand ops outer =>
    refine ⟨?_, fun _ => rfl⟩
    rintro rfl
    cases h
  | args f a ops outer =>
    refine ⟨?_, fun _ => rfl⟩
    rintro rfl
    cases a <;> cases h
  | value e callee ops outer =>
    constructor
    · rintro rfl
      cases h
    · rintro rfl
      cases outer with
      | nil => cases h
      | cons ops' outer => rfl

/-- Inside an assignment a token of its expression is the expression's. -/
theorem assign_step (x : String) (fs : List Frame) {e e' : ExprAt} {t : Tok}
    (h : e.step t = .ok e') : (StmtAt.assign x e fs).step t = .ok (.assign x e' fs) := by
  have hne := (exprAt_step_ok h).1
  show assignStep x e fs t = _
  unfold assignStep
  split
  · exact absurd rfl hne
  · rw [h]
    rfl

/-- Inside a condition a token of it is the condition's. -/
theorem cond_step (fs : List Frame) {e e' : ExprAt} {t : Tok} (h : e.step t = .ok e') :
    (StmtAt.cond e fs).step t = .ok (.cond e' fs) := by
  have hne := (exprAt_step_ok h).2
  show condStep e fs t = _
  unfold condStep
  split
  · rename_i hfin
    rw [hne rfl] at hfin
    cases hfin
  · rw [h]
    rfl

/-- The expression of an assignment, and its semicolon. -/
theorem assign_reads {ts : List Tok} {e : Expr} (h : ExprText ts e) (x : String)
    (fs : List Frame) :
    reads StmtAt.step (.statement fs) (.ID x :: .ASSIGN :: ts ++ [.SEMICOLON]) =
      .ok (.done (.assign x e) fs) := by
  obtain ⟨E, hreads, hE⟩ := h.reads
  have hopen : reads StmtAt.step (.statement fs) (.ID x :: .ASSIGN :: ts) = .ok (.assign x E fs) :=
    ((reads_cons rfl _).trans (reads_cons rfl ts)).trans
      (reads_lift (fun e => StmtAt.assign x e fs) (assign_step x fs) hreads)
  refine reads_snoc hopen ?_
  simp only [StmtAt.step, assignStep, hE]

/-- The condition of a conditional, and its parenthesis. -/
theorem cond_reads {cs : List Tok} {c : Expr} (h : ExprText cs c) (fs : List Frame)
    (ts : List Tok) :
    reads StmtAt.step (.statement fs) (.IF :: .LPAREN :: cs ++ .RPAREN :: ts) =
      reads StmtAt.step (.statement (.ifThen c :: fs)) ts := by
  obtain ⟨E, hreads, hE⟩ := h.reads
  have hopen : reads StmtAt.step (.statement fs) (.IF :: .LPAREN :: cs) = .ok (.cond E fs) :=
    ((reads_cons rfl _).trans (reads_cons rfl cs)).trans
      (reads_lift (fun e => StmtAt.cond e fs) (cond_step fs) hreads)
  refine (reads_append_ok hopen _).trans (reads_cons ?_ ts)
  simp only [StmtAt.step, condStep, hE]

/-- The conditionals that pend behind `s₀` close to `s`, and where no `else` belongs to `s`, they take
none. -/
structure Closes (pend : List Frame) (s₀ s : Stmt) (o : Bool) : Prop where
  unwind : ∀ fs, unwind s₀ (pend ++ fs) = unwind s fs
  attach : o = false → ∀ fs, attach s₀ (pend ++ fs) = attach s fs

theorem closes_nil (s : Stmt) (o : Bool) : Closes [] s s o := ⟨fun _ => rfl, fun _ _ => rfl⟩

/-- The parser is among statements. -/
def AtStmts (b : StmtAt) (fs : List Frame) : Prop :=
  b = .statement fs ∨ ∃ s fs', b = .done s fs' ∧ unwind s fs' = fs

/-- Among statements any token but `else` begins the next one. -/
theorem AtStmts.step {b : StmtAt} {fs : List Frame} (h : AtStmts b fs) {t : Tok} (ht : t ≠ .ELSE) :
    b.step t = beginStep fs t := by
  rcases h with rfl | ⟨s, fs', rfl, rfl⟩
  · rfl
  · exact if_neg ht

/-- A statement has a first token, which is no `else`. -/
theorem StmtText.head {ts : List Tok} {s : Stmt} {o : Bool} (h : StmtText ts s o) :
    ∃ t us, ts = t :: us ∧ t ≠ .ELSE := by
  cases h <;> exact ⟨_, _, rfl, Tok.noConfusion⟩

/-- A statement is read among statements as where one is due. -/
theorem AtStmts.reads {b : StmtAt} {fs : List Frame} (h : AtStmts b fs) {ts : List Tok} {s : Stmt}
    {o : Bool} (hs : StmtText ts s o) :
    reads StmtAt.step b ts = reads StmtAt.step (.statement fs) ts := by
  obtain ⟨t, us, rfl, ht⟩ := hs.head
  rw [Reader.reads, Reader.reads, h.step ht]
  rfl

/-- The frame is a conditional. -/
def Frame.isIf : Frame → Bool
  | .stmts _ => false
  | _ => true

mutual

/-- **A statement is read**, and leaves behind its last part the conditionals an `else` could go to. -/
theorem StmtText.reads : ∀ {ts : List Tok} {s : Stmt} {o : Bool}, StmtText ts s o →
    ∀ fs, ∃ s₀ pend, reads StmtAt.step (.statement fs) ts = .ok (.done s₀ (pend ++ fs)) ∧
      Closes pend s₀ s o
  | _, _, _, .semicolon, fs => ⟨_, [], rfl, closes_nil _ _⟩
  | _, _, _, .assign x he, fs => ⟨_, [], assign_reads he x fs, closes_nil _ _⟩
  | _, _, _, .allow, fs => ⟨_, [], rfl, closes_nil _ _⟩
  | _, _, _, .deny, fs => ⟨_, [], rfl, closes_nil _ _⟩
  | _, _, _, .ifThen (c := c) hc ht, fs => by
    obtain ⟨s₀, pend, hreads, hclose⟩ := ht.reads (f := .ifThen c) rfl fs
    refine ⟨s₀, pend ++ [.ifThen c], ?_, fun fs' => ?_, fun ho => absurd ho (by decide)⟩
    · rw [cond_reads hc, hreads, List.append_assoc]
      rfl
    · rw [List.append_assoc]
      exact hclose.unwind _
  | _, _, _, @StmtText.ifElse cs ts es c t e o hc ht he, fs => by
    obtain ⟨s₀, pend, hreads, hclose⟩ := ht.reads (f := .ifThen c) rfl fs
    obtain ⟨s₁, pend₁, hreads₁, hclose₁⟩ := he.reads (f := .ifElse c t) rfl fs
    have helse : (StmtAt.done s₀ (pend ++ .ifThen c :: fs)).step .ELSE =
        .ok (.statement (.ifElse c t :: fs)) := by
      simp only [StmtAt.step, if_pos, hclose.attach rfl]
      rfl
    have hthen := (cond_reads hc fs ts).trans hreads
    refine ⟨s₁, pend₁ ++ [.ifElse c t], ?_, fun fs' => ?_, fun ho fs' => ?_⟩
    · rw [reads_append_ok hthen, reads_cons helse, hreads₁, List.append_assoc]
      rfl
    · rw [List.append_assoc]
      exact hclose₁.unwind _
    · rw [List.append_assoc]
      exact hclose₁.attach ho _

/-- An `if_body` is read: braces, or a statement by itself. -/
theorem BodyText.reads : ∀ {ts : List Tok} {s : Stmt} {o : Bool}, BodyText ts s o →
    ∀ {f : Frame}, f.isIf = true → ∀ fs, ∃ s₀ pend,
      reads StmtAt.step (.statement (f :: fs)) ts = .ok (.done s₀ (pend ++ f :: fs)) ∧
      Closes pend s₀ s o
  | _, _, _, @BodyText.braces ts ss hss, f, hf, fs => by
    obtain ⟨b, hreads, hb⟩ := hss.reads (f :: fs)
    have hopen : (StmtAt.statement (f :: fs)).step .LBRACE =
        .ok (.statement (.stmts [] :: f :: fs)) := by
      cases f <;> first | rfl | cases hf
    refine ⟨.compound ss, [], ?_, closes_nil _ _⟩
    exact reads_snoc ((reads_cons hopen ts).trans hreads) (hb.step (by decide))
  | _, _, _, .statement hs, f, _, fs => hs.reads (f :: fs)

/-- Statements are read one by one. -/
theorem StmtsText.reads : ∀ {ts : List Tok} {ss : List Stmt}, StmtsText ts ss →
    ∀ fs, ∃ b, reads StmtAt.step (.statement (.stmts [] :: fs)) ts = .ok b ∧
      AtStmts b (.stmts ss :: fs)
  | _, _, .empty, fs => ⟨_, rfl, .inl rfl⟩
  | _, _, @StmtsText.snoc _ _ ss s _ hss hs, fs => by
    obtain ⟨b, hreads, hb⟩ := hss.reads fs
    obtain ⟨s₀, pend, hreads', hclose⟩ := hs.reads (.stmts ss :: fs)
    have hunwind := hclose.unwind (.stmts ss :: fs)
    refine ⟨_, ?_, .inr ⟨s₀, _, rfl, hunwind⟩⟩
    rw [reads_append_ok hreads, hb.reads hs, hreads']

end

/-! ## What is read is a text -/

/-- The text of the conditionals and braces around a statement. -/
inductive FramesRead : List Tok → List Frame → Prop
  | body {ts : List Tok} {ss : List Stmt} : StmtsText ts ss → FramesRead ts [.stmts ss]
  | braces {us ts : List Tok} {f : Frame} {fs : List Frame} {ss : List Stmt} :
      FramesRead us (f :: fs) → f.isIf = true → StmtsText ts ss →
      FramesRead (us ++ .LBRACE :: ts) (.stmts ss :: f :: fs)
  | ifThen {us cs : List Tok} {fs : List Frame} {c : Expr} : FramesRead us fs → ExprText cs c →
      FramesRead (us ++ (.IF :: .LPAREN :: cs ++ [.RPAREN])) (.ifThen c :: fs)
  | ifElse {us cs ts : List Tok} {fs : List Frame} {c : Expr} {t : Stmt} : FramesRead us fs →
      ExprText cs c → BodyText ts t false →
      FramesRead (us ++ (.IF :: .LPAREN :: cs ++ .RPAREN :: ts ++ [.ELSE])) (.ifElse c t :: fs)

/-- What may stand in a frame: among statements a statement, behind a condition an `if_body`. -/
def HeadText (fs : List Frame) (ts : List Tok) (s : Stmt) (o : Bool) : Prop :=
  match fs with
  | .stmts _ :: _ => StmtText ts s o
  | _ => BodyText ts s o

theorem HeadText.of_stmt {fs : List Frame} {ts : List Tok} {s : Stmt} {o : Bool}
    (h : StmtText ts s o) : HeadText fs ts s o := by
  unfold HeadText
  split
  · exact h
  · exact .statement h

theorem HeadText.of_braces {f : Frame} {fs : List Frame} {ts : List Tok} {ss : List Stmt}
    (hf : f.isIf = true) (h : StmtsText ts ss) :
    HeadText (f :: fs) (.LBRACE :: ts ++ [.RBRACE]) (.compound ss) false := by
  cases f with
  | stmts ss' => cases hf
  | _ => exact BodyText.braces h

/-- The text of the body of a check so far. -/
inductive StmtRead : List Tok → StmtAt → Prop
  | statement {us : List Tok} {fs : List Frame} : FramesRead us fs → StmtRead us (.statement fs)
  | done {us ts : List Tok} {fs : List Frame} {s : Stmt} : FramesRead us fs →
      HeadText fs ts s false → StmtRead (us ++ ts) (.done s fs)
  | allow {us : List Tok} {fs : List Frame} : FramesRead us fs →
      StmtRead (us ++ [.ALLOW]) (.perm .ALLOW fs)
  | deny {us : List Tok} {fs : List Frame} : FramesRead us fs →
      StmtRead (us ++ [.DENY]) (.perm .DENY fs)
  | named {us : List Tok} {fs : List Frame} (x : String) : FramesRead us fs →
      StmtRead (us ++ [.ID x]) (.named x fs)
  | assign {us ts : List Tok} {fs : List Frame} {e : ExprAt} (x : String) : FramesRead us fs →
      ExprRead ts e → StmtRead (us ++ .ID x :: .ASSIGN :: ts) (.assign x e fs)
  | ifOpen {us : List Tok} {fs : List Frame} : FramesRead us fs →
      StmtRead (us ++ [.IF]) (.ifOpen fs)
  | cond {us ts : List Tok} {fs : List Frame} {e : ExprAt} : FramesRead us fs → ExprRead ts e →
      StmtRead (us ++ .IF :: .LPAREN :: ts) (.cond e fs)

/-- The conditionals that end are read. -/
theorem FramesRead.unwind {us ts : List Tok} {fs : List Frame} {s : Stmt} {o : Bool}
    (h : FramesRead us fs) (hs : HeadText fs ts s o) : FramesRead (us ++ ts) (unwind s fs) := by
  induction h generalizing ts s o with
  | body hss => exact .body (.snoc hss hs)
  | braces hus hf hss _ =>
    rw [List.append_assoc]
    exact .braces hus hf (.snoc hss hs)
  | @ifThen us cs fs c hus hc ih =>
    have hif : StmtText (.IF :: .LPAREN :: cs ++ .RPAREN :: ts) (.ifThen c s) true := .ifThen hc hs
    have htext : us ++ (.IF :: .LPAREN :: cs ++ [.RPAREN]) ++ ts =
        us ++ (.IF :: .LPAREN :: cs ++ .RPAREN :: ts) := by simp
    rw [htext]
    exact ih (.of_stmt hif)
  | @ifElse us cs us' fs c t hus hc ht ih =>
    have hif : StmtText (.IF :: .LPAREN :: cs ++ .RPAREN :: us' ++ .ELSE :: ts) (.ifElse c t s) o :=
      .ifElse hc ht hs
    have htext : us ++ (.IF :: .LPAREN :: cs ++ .RPAREN :: us' ++ [.ELSE]) ++ ts =
        us ++ (.IF :: .LPAREN :: cs ++ .RPAREN :: us' ++ .ELSE :: ts) := by simp
    rw [htext]
    exact ih (.of_stmt hif)

/-- An `else` is read. -/
theorem FramesRead.attach {us ts : List Tok} {fs fs' : List Frame} {s : Stmt}
    (h : FramesRead us fs) (hs : HeadText fs ts s false) (hattach : attach s fs = .ok fs') :
    FramesRead (us ++ ts ++ [.ELSE]) fs' := by
  induction h generalizing ts s with
  | body _ => cases hattach
  | braces _ _ _ => cases hattach
  | @ifThen us cs fs c hus hc _ =>
    obtain rfl := Except.ok.inj hattach
    have htext : us ++ (.IF :: .LPAREN :: cs ++ [.RPAREN]) ++ ts ++ [Tok.ELSE] =
        us ++ (.IF :: .LPAREN :: cs ++ .RPAREN :: ts ++ [.ELSE]) := by simp
    rw [htext]
    exact .ifElse hus hc hs
  | @ifElse us cs us' fs c t hus hc ht ih =>
    have hif : StmtText (.IF :: .LPAREN :: cs ++ .RPAREN :: us' ++ .ELSE :: ts) (.ifElse c t s)
        false := .ifElse hc ht hs
    have htext : us ++ (.IF :: .LPAREN :: cs ++ .RPAREN :: us' ++ [.ELSE]) ++ ts =
        us ++ (.IF :: .LPAREN :: cs ++ .RPAREN :: us' ++ .ELSE :: ts) := by simp
    rw [htext]
    exact ih (.of_stmt hif) hattach

/-- The first token of a statement, or the end of braces. -/
theorem FramesRead.begin_ {us : List Tok} {fs : List Frame} {b : StmtAt} {t : Tok}
    (h : FramesRead us fs) (hstep : beginStep fs t = .ok b) : StmtRead (us ++ [t]) b := by
  unfold beginStep at hstep
  split at hstep
  · obtain rfl := Except.ok.inj hstep
    exact .done h (.of_stmt .semicolon)
  · obtain rfl := Except.ok.inj hstep
    exact .allow h
  · obtain rfl := Except.ok.inj hstep
    exact .deny h
  · obtain rfl := Except.ok.inj hstep
    exact .named _ h
  · obtain rfl := Except.ok.inj hstep
    exact .ifOpen h
  · split at hstep
    · obtain rfl := Except.ok.inj hstep
      exact .statement (.braces h rfl .empty)
    · obtain rfl := Except.ok.inj hstep
      exact .statement (.braces h rfl .empty)
    · cases hstep
  · split at hstep
    · obtain rfl := Except.ok.inj hstep
      cases h with
      | @braces us ts f fs ss hus hf hss =>
        have htext : us ++ .LBRACE :: ts ++ [Tok.RBRACE] = us ++ (.LBRACE :: ts ++ [.RBRACE]) := by simp
        rw [htext]
        exact .done hus (.of_braces hf hss)
    · cases hstep
  · cases hstep

/-- **A token of a body** keeps what has been read a text so far. By the place of the parser and
the token. -/
theorem stmtRead_step {us : List Tok} {b b' : StmtAt} {t : Tok} (h : StmtRead us b)
    (hstep : b.step t = .ok b') : StmtRead (us ++ [t]) b' := by
  cases h with
  | statement hus => exact hus.begin_ hstep
  | @done us ts fs s hus hs =>
    simp only [StmtAt.step] at hstep
    split_ifs at hstep with ht
    · subst ht
      obtain ⟨fs', hattach, rfl⟩ := map_ok hstep
      exact .statement (hus.attach hs hattach)
    · exact (hus.unwind hs).begin_ hstep
  | allow hus =>
    simp only [StmtAt.step] at hstep
    split_ifs at hstep with ht
    subst ht
    obtain rfl := Except.ok.inj hstep
    rw [List.append_assoc]
    exact .done hus (.of_stmt .allow)
  | deny hus =>
    simp only [StmtAt.step] at hstep
    split_ifs at hstep with ht
    subst ht
    obtain rfl := Except.ok.inj hstep
    rw [List.append_assoc]
    exact .done hus (.of_stmt .deny)
  | named x hus =>
    simp only [StmtAt.step] at hstep
    split_ifs at hstep with ht
    subst ht
    obtain rfl := Except.ok.inj hstep
    rw [List.append_assoc]
    exact .assign x hus exprRead_start
  | ifOpen hus =>
    simp only [StmtAt.step] at hstep
    split_ifs at hstep with ht
    subst ht
    obtain rfl := Except.ok.inj hstep
    rw [List.append_assoc]
    exact .cond hus exprRead_start
  | @assign us ts fs e x hus he =>
    change assignStep x e fs t = .ok b' at hstep
    rw [List.append_assoc, List.cons_append, List.cons_append]
    unfold assignStep at hstep
    split at hstep
    · split at hstep
      · rename_i e' hfin
        obtain rfl := Except.ok.inj hstep
        exact .done hus (.of_stmt (.assign x (exprRead_finish he hfin)))
      · cases hstep
    · obtain ⟨e', hnext, rfl⟩ := map_ok hstep
      exact .assign x hus (exprRead_step he hnext)
  | @cond us ts fs e hus he =>
    change condStep e fs t = .ok b' at hstep
    rw [List.append_assoc, List.cons_append, List.cons_append]
    unfold condStep at hstep
    split at hstep
    · rename_i c hfin
      obtain rfl := Except.ok.inj hstep
      exact .statement (.ifThen hus (exprRead_finish he hfin))
    · obtain ⟨e', hnext, rfl⟩ := map_ok hstep
      exact .cond hus (exprRead_step he hnext)

/-- Where a body can end, its text is complete. -/
theorem stmtRead_finish {us : List Tok} {b : StmtAt} {ss : List Stmt} (h : StmtRead us b)
    (hfin : b.finish = .ok ss) : StmtsText us ss := by
  have hframes : ∀ {us : List Tok}, FramesRead us [.stmts ss] → StmtsText us ss := by
    intro us h
    cases h with
    | body hss => exact hss
  unfold StmtAt.finish at hfin
  split at hfin
  · obtain rfl := Except.ok.inj hfin
    cases h with
    | statement hus => exact hframes hus
  · split at hfin
    · rename_i ss' hunwind
      obtain rfl := Except.ok.inj hfin
      cases h with
      | done hus hs =>
        have hread := hus.unwind hs
        rw [hunwind] at hread
        exact hframes hread
    · cases hfin
  · cases hfin

/-! ## Programs -/

/-- The parser is among policies. -/
structure AtPolicies (s : ProgramAt) (ps : List Policy) : Prop where
  step : ∀ t, t = .DEF ∨ t = .EXTEND → s.step t = policyStep ps t
  finish : s.finish = .ok ps

theorem atPolicies_policies (ps : List Policy) : AtPolicies (.policies ps) ps := ⟨fun _ _ => rfl, rfl⟩

theorem AtStmts.finish {b : StmtAt} {ss : List Stmt} (h : AtStmts b [.stmts ss]) :
    b.finish = .ok ss := by
  rcases h with rfl | ⟨s, fs, rfl, hunwind⟩
  · rfl
  · simp only [StmtAt.finish, hunwind]

/-- Behind the body of a check the parser is among policies. -/
theorem AtStmts.atPolicies {b : StmtAt} {ss : List Stmt} (h : AtStmts b [.stmts ss])
    (ps : List Policy) (f : SyscallName) (xs : List String) :
    AtPolicies (.checkBody ps f xs b) (ps ++ [checkPolicy f xs ss]) where
  step t ht := by
    simp only [ProgramAt.step, if_pos ht, h.finish]
    rfl
  finish := by
    simp only [ProgramAt.finish, h.finish]
    rfl

/-- A token of the arguments of a check is that of an argument list. -/
theorem checkArgs_step (ps : List Policy) (f : SyscallName) {a a' : ArgsAt} {t : Tok}
    (h : a.step t = .ok a') : (ProgramAt.checkArgs ps f a).step t = .ok (.checkArgs ps f a') := by
  cases a with
  | comma xs =>
    cases t with
    | ID x =>
      obtain rfl := Except.ok.inj h
      rfl
    | _ => cases h
  | name xs =>
    cases t with
    | COMMA =>
      obtain rfl := Except.ok.inj h
      rfl
    | _ => cases h
  | first =>
    cases t with
    | ID x =>
      obtain rfl := Except.ok.inj h
      rfl
    | _ => cases h

/-- No token of a body begins a policy. -/
theorem stmtAt_step_policy {b : StmtAt} {t : Tok} (ht : t = .DEF ∨ t = .EXTEND) :
    b.step t = .error .unexpected := by
  cases b with
  | assign x e fs => cases e <;> rcases ht with rfl | rfl <;> first | rfl | (rename_i a _ _; cases a <;> rfl)
  | cond e fs => cases e <;> rcases ht with rfl | rfl <;> first | rfl | (rename_i a _ _; cases a <;> rfl)
  | _ => rcases ht with rfl | rfl <;> rfl

/-- A token of a body is the body's, as long as the body can use it. -/
theorem checkBody_step (ps : List Policy) (f : SyscallName) (xs : List String) {b b' : StmtAt}
    {t : Tok} (h : b.step t = .ok b') :
    (ProgramAt.checkBody ps f xs b).step t = .ok (.checkBody ps f xs b') := by
  have hne : ¬ (t = .DEF ∨ t = .EXTEND) := by
    intro ht
    rw [stmtAt_step_policy ht] at h
    cases h
  simp only [ProgramAt.step, if_neg hne, h]
  rfl

/-- The header of a check is read. -/
theorem header_reads {s : ProgramAt} {ps : List Policy} (hs : AtPolicies s ps) (f : SyscallName)
    {as : List Tok} {xs : List String} (has : ArgList as xs) (ts : List Tok) :
    reads ProgramAt.step s (.DEF :: .ID f :: .LPAREN :: as ++ .RPAREN :: .COLON :: ts) =
      reads ProgramAt.step (.checkBody ps f xs (.statement [.stmts []])) ts := by
  obtain ⟨a, hreads, ha⟩ := argList_reads has
  have hname : (ProgramAt.checkName ps).step (.ID f) = .ok (.checkOpen ps f) := dif_pos f.2
  have hopen : reads ProgramAt.step s (.DEF :: .ID f :: .LPAREN :: as) = .ok (.checkArgs ps f a) :=
    (((reads_cons (hs.step _ (.inl rfl)) _).trans (reads_cons hname _)).trans (reads_cons rfl as)).trans
      (reads_lift (fun a => ProgramAt.checkArgs ps f a) (checkArgs_step ps f) hreads)
  have hclose : (ProgramAt.checkArgs ps f a).step .RPAREN = .ok (.checkColon ps f xs) := by
    show a.finish.map _ = _
    rw [ha]
    rfl
  rw [reads_append_ok hopen, reads_cons hclose, reads_cons rfl]

/-- **A check or an extension is read**, and adds itself to the policies. -/
theorem PolicyText.reads {s : ProgramAt} {ps : List Policy} (hs : AtPolicies s ps) {ts : List Tok}
    {p : Policy} (h : PolicyText ts p) :
    ∃ s', reads ProgramAt.step s ts = .ok s' ∧ AtPolicies s' (ps ++ [p]) := by
  cases h with
  | @check as ts xs ss f has hss =>
    obtain ⟨b, hreads, hb⟩ := hss.reads []
    refine ⟨.checkBody ps f xs b, ?_, hb.atPolicies ps f xs⟩
    rw [header_reads hs f has ts]
    exact reads_lift (fun b => ProgramAt.checkBody ps f xs b) (checkBody_step ps f xs) hreads
  | ext f x =>
    exact ⟨.policies (ps ++ [.ext f x]), reads_cons (hs.step _ (.inr rfl)) _, atPolicies_policies _⟩

/-- **The texts are accepted.** -/
theorem ProgramText.reads {ts : List Tok} {ps : List Policy} (h : ProgramText ts ps) :
    ∃ s, reads ProgramAt.step .start ts = .ok s ∧ AtPolicies s ps := by
  induction h with
  | default hp =>
    cases hp with
    | empty =>
      refine ⟨.start, rfl, fun t ht => ?_, rfl⟩
      rcases ht with rfl | rfl <;> rfl
    | allow => exact ⟨_, rfl, atPolicies_policies _⟩
    | deny => exact ⟨_, rfl, atPolicies_policies _⟩
  | snoc _ hp ih =>
    obtain ⟨s, hreads, hs⟩ := ih
    obtain ⟨s', hreads', hs'⟩ := hp.reads hs
    exact ⟨s', (reads_append_ok hreads _).trans hreads', hs'⟩

/-- The text of a program so far. -/
inductive ProgramRead : List Tok → ProgramAt → Prop
  | start : ProgramRead [] .start
  | all {t : Tok} {p : Policy} : DefaultRule [t, .ALL, .SEMICOLON] p → ProgramRead [t] (.all p)
  | semicolon {t : Tok} {p : Policy} : DefaultRule [t, .ALL, .SEMICOLON] p →
      ProgramRead [t, .ALL] (.semicolon p)
  | policies {ts : List Tok} {ps : List Policy} : ProgramText ts ps → ProgramRead ts (.policies ps)
  | checkName {ts : List Tok} {ps : List Policy} : ProgramText ts ps →
      ProgramRead (ts ++ [.DEF]) (.checkName ps)
  | checkOpen {ts : List Tok} {ps : List Policy} (f : SyscallName) : ProgramText ts ps →
      ProgramRead (ts ++ [.DEF, .ID f]) (.checkOpen ps f)
  | checkArgs {ts us : List Tok} {ps : List Policy} {a : ArgsAt} (f : SyscallName) :
      ProgramText ts ps → ArgsRead us a →
      ProgramRead (ts ++ .DEF :: .ID f :: .LPAREN :: us) (.checkArgs ps f a)
  | checkColon {ts us : List Tok} {ps : List Policy} {xs : List String} (f : SyscallName) :
      ProgramText ts ps → ArgList us xs →
      ProgramRead (ts ++ (.DEF :: .ID f :: .LPAREN :: us ++ [.RPAREN])) (.checkColon ps f xs)
  | checkBody {ts us vs : List Tok} {ps : List Policy} {xs : List String} {b : StmtAt}
      (f : SyscallName) : ProgramText ts ps → ArgList us xs → StmtRead vs b →
      ProgramRead (ts ++ (.DEF :: .ID f :: .LPAREN :: us ++ .RPAREN :: .COLON :: vs))
        (.checkBody ps f xs b)
  | extName {ts : List Tok} {ps : List Policy} : ProgramText ts ps →
      ProgramRead (ts ++ [.EXTEND]) (.extName ps)
  | extColon {ts : List Tok} {ps : List Policy} (f : String) : ProgramText ts ps →
      ProgramRead (ts ++ [.EXTEND, .ID f]) (.extColon ps f)
  | extArg {ts : List Tok} {ps : List Policy} (f : String) : ProgramText ts ps →
      ProgramRead (ts ++ [.EXTEND, .ID f, .COLON]) (.extArg ps f)

/-- The first token of a policy. -/
theorem policyRead {ts : List Tok} {ps : List Policy} {s : ProgramAt} {t : Tok}
    (h : ProgramText ts ps) (hstep : policyStep ps t = .ok s) : ProgramRead (ts ++ [t]) s := by
  unfold policyStep at hstep
  split at hstep
  · obtain rfl := Except.ok.inj hstep
    exact .checkName h
  · obtain rfl := Except.ok.inj hstep
    exact .extName h
  · cases hstep

/-- The policies behind a body that ends. -/
theorem body_policies {ts us vs : List Tok} {ps : List Policy} {xs : List String} {b : StmtAt}
    {ss : List Stmt} (f : SyscallName) (hps : ProgramText ts ps) (hus : ArgList us xs)
    (hb : StmtRead vs b) (hfin : b.finish = .ok ss) :
    ProgramText (ts ++ (.DEF :: .ID f :: .LPAREN :: us ++ .RPAREN :: .COLON :: vs))
      (ps ++ [checkPolicy f xs ss]) :=
  .snoc hps (.check f hus (stmtRead_finish hb hfin))

/-- **A token of a program** keeps what has been read a text so far. -/
theorem programRead_step {us : List Tok} {s s' : ProgramAt} {t : Tok} (h : ProgramRead us s)
    (hstep : s.step t = .ok s') : ProgramRead (us ++ [t]) s' := by
  unfold ProgramAt.step at hstep
  split at hstep
  · obtain rfl := Except.ok.inj hstep
    cases h
    exact .all .allow
  · obtain rfl := Except.ok.inj hstep
    cases h
    exact .all .deny
  · cases h
    exact policyRead (.default .empty) hstep
  · obtain rfl := Except.ok.inj hstep
    cases h with
    | all hp => exact .semicolon hp
  · obtain rfl := Except.ok.inj hstep
    cases h with
    | semicolon hp => exact .policies (.default hp)
  · cases h with
    | policies hps => exact policyRead hps hstep
  · split_ifs at hstep with hf
    obtain rfl := Except.ok.inj hstep
    cases h with
    | checkName hps =>
      rw [List.append_assoc]
      exact .checkOpen ⟨_, hf⟩ hps
  · obtain rfl := Except.ok.inj hstep
    cases h with
    | checkOpen _ hps =>
      rw [List.append_assoc]
      exact .checkArgs _ hps .first
  · obtain ⟨xs, hfin, rfl⟩ := map_ok hstep
    cases h with
    | checkArgs _ hps ha =>
      rw [List.append_assoc]
      exact .checkColon _ hps (argsRead_finish ha hfin)
  · obtain ⟨a', hnext, rfl⟩ := map_ok hstep
    cases h with
    | checkArgs _ hps ha =>
      rw [List.append_assoc]
      exact .checkArgs _ hps (argsRead_step ha hnext)
  · obtain rfl := Except.ok.inj hstep
    cases h with
    | checkColon _ hps hus =>
      rw [List.append_assoc, List.append_assoc]
      exact .checkBody _ hps hus (.statement (.body .empty))
  · cases h with
    | checkBody _ hps hus hb =>
      split_ifs at hstep with ht
      · obtain ⟨ss, hfin, hstep⟩ := bind_ok hstep
        exact policyRead (body_policies _ hps hus hb hfin) hstep
      · obtain ⟨b', hnext, rfl⟩ := map_ok hstep
        rw [List.append_assoc, List.append_assoc]
        exact .checkBody _ hps hus (stmtRead_step hb hnext)
  · obtain rfl := Except.ok.inj hstep
    cases h with
    | extName hps =>
      rw [List.append_assoc]
      exact .extColon _ hps
  · obtain rfl := Except.ok.inj hstep
    cases h with
    | extColon _ hps =>
      rw [List.append_assoc]
      exact .extArg _ hps
  · obtain rfl := Except.ok.inj hstep
    cases h with
    | extArg _ hps =>
      rw [List.append_assoc]
      exact .policies (.snoc hps (.ext _ _))
  · cases hstep

/-- Where the program can end, its text is complete. -/
theorem programRead_finish {us : List Tok} {s : ProgramAt} {ps : List Policy}
    (h : ProgramRead us s) (hfin : s.finish = .ok ps) : ProgramText us ps := by
  cases h with
  | start =>
    obtain rfl := Except.ok.inj hfin
    exact .default .empty
  | policies hps =>
    obtain rfl := Except.ok.inj hfin
    exact hps
  | checkBody f hps hus hb =>
    obtain ⟨ss, hss, rfl⟩ := map_ok hfin
    exact body_policies f hps hus hb hss
  | _ => cases hfin

/-- **What the parser accepts** are the texts of the grammar with its conflicts resolved, with their
trees. -/
theorem yyparse_iff (ts : List Tok) (ps : List Policy) :
    yyparse ts = .ok ps ↔ ProgramText ts ps := by
  constructor
  · intro h
    obtain ⟨s, hreads, hfin⟩ := bind_ok h
    exact programRead_finish (reads_text .start programRead_step hreads) hfin
  · intro h
    obtain ⟨s, hreads, hs⟩ := h.reads
    rw [yyparse, hreads]
    exact hs.finish

/-- **The parser resolves all conflicts.** What it accepts is a text of the grammar with its conflicts
resolved, with its tree, and no text has two trees then; the tree is one the grammar has for the
text. -/
theorem parser_correct (ts : List Tok) :
    (∀ ps, yyparse ts = .ok ps ↔ ProgramText ts ps) ∧
      (∀ ps, ProgramText ts ps → ProgramRule ts ps) ∧
      ∀ ps ps', ProgramText ts ps → ProgramText ts ps' → ps = ps' := by
  refine ⟨yyparse_iff ts, fun _ => ProgramText.programRule, fun ps ps' h h' => ?_⟩
  have heq := ((yyparse_iff ts ps).mpr h).symm.trans ((yyparse_iff ts ps').mpr h')
  exact Except.ok.inj heq

/-- `!` goes over the comparison and under `&&`, and the `else` belongs to the inner conditional. -/
example : yyparse [.DEF, .ID "open", .LPAREN, .ID "a", .RPAREN, .COLON, .IF, .LPAREN, .NOT, .ID "a",
    .EQ, .UINT 1, .AND, .ID "a", .RPAREN, .IF, .LPAREN, .ID "a", .RPAREN, .DENY, .SEMICOLON, .ELSE,
    .ALLOW, .SEMICOLON] = .ok [.defaultDeny, .check ⟨"open", ["a"],
      [.ifThen (.op2 .AND (.op1 .NOT (.op2 .EQ (.ref "a") (.value 1))) (.ref "a"))
        (.ifElse (.ref "a") (.perm .DENY) (.perm .ALLOW))], open_named⟩] := rfl

end SeccompPolicy
