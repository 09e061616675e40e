import SeccompPolicy.Parser

/-!
# Expressions the parser accepts

Source: the rules of `expr`, `arg_list` and `non_empty_arg_list` in `parser.y++`, with the
declarations `%nonassoc`, `%left` and `%right`.

`expr` with its conflicts resolved by precedence is `ExprText`: phrases of operands in the sense
of `Lib.OperatorStack`, whose operands are names, numbers, calls and expressions in parentheses.
It says which texts are expressions without a stack and without the automaton.

The parser reads these texts, with their trees, and what it has read at any time is such a text so
far. The second half is an invariant of single steps (`ExprRead`), with the parentheses that are
open in `OuterText`.

## Results

* `phrase_induct`: induction on a phrase and on what is in its parentheses.
* `phrase_reads`, `ExprText.reads`: an expression is read, over any operators it can be shifted
  over.
* `exprRead_step`, `exprRead_finish`: a step of the parser keeps what has been read a text.
* `exprText_of_stack`: what pends on an operand and the operand are an expression.
-/

namespace SeccompPolicy

open CInt OperatorStack Reader

/-! ## The texts -/

/-- An operand of `expr`. -/
inductive OperandText : List Tok → Expr → Prop
  | id (x : String) : OperandText [.ID x] (.ref x)
  | uint (n : Nat) : OperandText [.UINT n] (.value (IntType.int.wrap (IntType.unsignedInt.wrap n)))
  | invocation {ts : List Tok} {xs : List String} (f : String) : ArgList ts xs →
      OperandText (.ID f :: .LPAREN :: ts ++ [.RPAREN]) (.inv f xs)
  | paren {ts : List Tok} {e : Expr} {os : List OpCode} {ρs : List (Rule OpCode OpCode)} :
      arithExpr.Phrase OperandText ts e os ρs → OperandText (.LPAREN :: ts ++ [.RPAREN]) e

/-- An expression with its conflicts resolved. -/
def ExprText (ts : List Tok) (e : Expr) : Prop :=
  ∃ os ρs, arithExpr.Phrase OperandText ts e os ρs

/-- Induction on a phrase and on what is in its parentheses. -/
theorem phrase_induct {P : List Tok → Expr → List OpCode → List (Rule OpCode OpCode) → Prop}
    (id : ∀ x, P [.ID x] (.ref x) [] [])
    (uint : ∀ n, P [.UINT n] (.value (IntType.int.wrap (IntType.unsignedInt.wrap n))) [] [])
    (invocation : ∀ {ts xs} f, ArgList ts xs →
      P (.ID f :: .LPAREN :: ts ++ [.RPAREN]) (.inv f xs) [] [])
    (paren : ∀ {ts e os ρs}, arithExpr.Phrase OperandText ts e os ρs → P ts e os ρs →
      P (.LPAREN :: ts ++ [.RPAREN]) e [] [])
    (binary : ∀ {t o ls rs l r lo ro lr rr}, Tok.infix? t = some o →
      arithExpr.Phrase OperandText ls l lo lr → arithExpr.Phrase OperandText rs r ro rr →
      (∀ ρ ∈ lr, resolve ρ o = .reduce) → (∀ o' ∈ ro, resolve (.binary o) o' = .shift) →
      P ls l lo lr → P rs r ro rr →
      P (ls ++ t :: rs) (.op2 o l r) (lo ++ [o]) (rr ++ [.binary o]))
    (unary : ∀ {t p ts e lo rr}, Tok.prefix? t = some p → arithExpr.Phrase OperandText ts e lo rr →
      (∀ o ∈ lo, resolve (.unary p) o = .shift) → P ts e lo rr →
      P (t :: ts) (.op1 p e) [] (rr ++ [.unary p]))
    {ts : List Tok} {e : Expr} {os : List OpCode} {ρs : List (Rule OpCode OpCode)}
    (h : arithExpr.Phrase OperandText ts e os ρs) : P ts e os ρs :=
  @OperandText.rec_1 (fun ts e _ => P ts e [] []) (fun ts e os ρs _ => P ts e os ρs) id uint
    invocation paren (fun _ ih => ih) (fun ht hl hr hlr hro => binary ht hl hr hlr hro)
    (fun ht he hlo => unary ht he hlo) ts e os ρs h

theorem phrase_exprRule {ts : List Tok} {e : Expr} {os : List OpCode}
    {ρs : List (Rule OpCode OpCode)} (h : arithExpr.Phrase OperandText ts e os ρs) :
    ExprRule ts e := by
  refine phrase_induct (P := fun ts e _ _ => ExprRule ts e) .id .uint .invocation
    (fun _ ih => .paren ih) (fun ht _ _ _ _ ihl ihr => .infix_ ht ihl ihr)
    (fun ht _ _ ih => .prefix_ ht ih) h

theorem ExprText.exprRule {ts : List Tok} {e : Expr} (h : ExprText ts e) : ExprRule ts e := by
  obtain ⟨os, ρs, h⟩ := h
  exact phrase_exprRule h

/-! ## They are read -/

theorem nonEmptyArgList_reads {ts : List Tok} {xs : List String} (h : NonEmptyArgList ts xs) :
    reads ArgsAt.step .first ts = .ok (.name xs) := by
  induction h with
  | one x => rfl
  | snoc x _ ih =>
    rw [reads_append_ok ih]
    rfl

theorem argList_reads {ts : List Tok} {xs : List String} (h : ArgList ts xs) :
    ∃ a, reads ArgsAt.step .first ts = .ok a ∧ a.finish = .ok xs := by
  cases h with
  | empty => exact ⟨.first, rfl, rfl⟩
  | some h => exact ⟨.name xs, nonEmptyArgList_reads h, rfl⟩

/-- The tokens of an argument list are not the parenthesis that ends it. -/
theorem ArgsAt.step_ok {a a' : ArgsAt} {t : Tok} (h : a.step t = .ok a') : t ≠ .RPAREN := by
  rintro rfl
  cases a <;> cases h

theorem exprArgs_step (f : String) (ops : Ops) (outer : List Ops) {a a' : ArgsAt} {t : Tok}
    (h : a.step t = .ok a') :
    (ExprAt.args f a ops outer).step t = .ok (.args f a' ops outer) := by
  have hne := ArgsAt.step_ok h
  show argsStep f a ops outer t = _
  unfold argsStep
  split
  · exact absurd rfl hne
  · rw [h]
    rfl

theorem operandStep_unary {t : Tok} {p : OpCode} (ht : t.prefix? = some p) (ops : Ops)
    (outer : List Ops) :
    (ExprAt.operand ops outer).step t = .ok (.operand (.unary p :: ops) outer) := by
  cases t <;> cases ht <;> rfl

theorem valueStep_binary {t : Tok} {o : OpCode} (ht : t.infix? = some o) {e l : Expr}
    (callee : Option String) {ops ops' : Ops} (outer : List Ops)
    (h : arithExpr.reduceOn o ops e = some (ops', l)) :
    (ExprAt.value e callee ops outer).step t = .ok (.operand (.binary l o :: ops') outer) := by
  cases t <;> cases ht <;> simp only [ExprAt.step, valueStep, Tok.infix?, h]

/-- **A phrase is read** over operators it can be shifted over, and leaves behind its last operand
what its right end pends on. -/
theorem phrase_reads {ts : List Tok} {e : Expr} {os : List OpCode}
    {ρs : List (Rule OpCode OpCode)} (h : arithExpr.Phrase OperandText ts e os ρs) :
    ∀ ops outer, arithExpr.Shifts ops os → ∃ e₀ callee pend,
      reads ExprAt.step (.operand ops outer) ts = .ok (.value e₀ callee (pend ++ ops) outer) ∧
      arithExpr.Pends pend e₀ e ρs := by
  refine phrase_induct (P := fun ts e os ρs => ∀ ops outer, arithExpr.Shifts ops os →
    ∃ e₀ callee pend,
      reads ExprAt.step (.operand ops outer) ts = .ok (.value e₀ callee (pend ++ ops) outer) ∧
      arithExpr.Pends pend e₀ e ρs) ?_ ?_ ?_ ?_ ?_ ?_ h
  · intro x ops outer _
    exact ⟨_, _, [], rfl, rfl, rfl⟩
  · intro n ops outer _
    exact ⟨_, _, [], rfl, rfl, rfl⟩
  · intro ts xs f hxs ops outer _
    obtain ⟨a, hreads, ha⟩ := argList_reads hxs
    refine ⟨.inv f xs, none, [], ?_, rfl, rfl⟩
    have hargs := reads_lift (fun a => ExprAt.args f a ops outer) (exprArgs_step f ops outer) hreads
    have hopen : reads ExprAt.step (.operand ops outer) (.ID f :: .LPAREN :: ts) = _ :=
      ((reads_cons rfl _).trans (reads_cons rfl ts)).trans hargs
    refine reads_snoc hopen ?_
    show a.finish.map _ = _
    rw [ha]
    rfl
  · -- inside the parentheses nothing pends
    intro ts e os ρs _ ih ops outer _
    obtain ⟨e₀, callee, pend, hreads, -, rfl⟩ := ih [] (ops :: outer) fun f hf => absurd hf (by simp)
    refine ⟨_, none, [], ?_, rfl, rfl⟩
    rw [List.append_nil] at hreads
    have hopen : reads ExprAt.step (.operand ops outer) (.LPAREN :: ts) = _ :=
      (reads_cons rfl ts).trans hreads
    exact reads_snoc hopen rfl
  · intro t o ls rs l r lo ro lr rr ht _ _ hlr hro ihl ihr ops outer hshift
    obtain ⟨l₀, callee, pend, hreads, hpend⟩ := ihl ops outer fun f hf o' ho' =>
      hshift f hf o' (List.mem_append_left _ ho')
    have hreduce := @Grammar.reduceOn_append _ _ _ _ arithExpr o pend ops l₀ (hpend.resolves hlr)
      fun f hf o' ho' => hshift f hf o' (List.mem_append_right _ ho')
    rw [hpend.2] at hreduce
    obtain ⟨r₀, callee', pend', hreads', hpend'⟩ := ihr (.binary l o :: ops) outer fun f hf o' ho' => by
      obtain rfl := Option.some.inj hf
      exact hro o' ho'
    refine ⟨r₀, callee', pend' ++ [.binary l o], ?_, hpend'.snoc (.binary l o)⟩
    rw [reads_append_ok hreads, reads_cons (valueStep_binary ht callee outer hreduce), hreads',
      List.append_assoc]
    rfl
  · intro t p ts e lo rr ht _ hlo ih ops outer _
    obtain ⟨e₀, callee, pend, hreads, hpend⟩ := ih (.unary p :: ops) outer fun f hf o ho => by
      obtain rfl := Option.some.inj hf
      exact hlo o ho
    refine ⟨e₀, callee, pend ++ [.unary p], ?_, hpend.snoc (.unary p)⟩
    rw [reads_cons (operandStep_unary ht ops outer), hreads, List.append_assoc]
    rfl

/-- An expression is read. -/
theorem ExprText.reads {ts : List Tok} {e : Expr} (h : ExprText ts e) :
    ∃ E, reads ExprAt.step (.operand [] []) ts = .ok E ∧ E.finish = some e := by
  obtain ⟨os, ρs, h⟩ := h
  obtain ⟨e₀, callee, pend, hreads, -, rfl⟩ := phrase_reads h [] [] fun f hf => absurd hf (by simp)
  rw [List.append_nil] at hreads
  exact ⟨_, hreads, rfl⟩

/-! ## What is read is a text -/

/-- The text of an argument list so far. -/
inductive ArgsRead : List Tok → ArgsAt → Prop
  | first : ArgsRead [] .first
  | name {ts : List Tok} {xs : List String} : NonEmptyArgList ts xs → ArgsRead ts (.name xs)
  | comma {ts : List Tok} {xs : List String} : NonEmptyArgList ts xs →
      ArgsRead (ts ++ [.COMMA]) (.comma xs)

theorem argsRead_step {us : List Tok} {a a' : ArgsAt} {t : Tok} (h : ArgsRead us a)
    (hstep : a.step t = .ok a') : ArgsRead (us ++ [t]) a' := by
  cases h with
  | first =>
    cases t with
    | ID x =>
      obtain rfl := Except.ok.inj hstep
      exact .name (.one x)
    | _ => cases hstep
  | name hxs =>
    cases t with
    | COMMA =>
      obtain rfl := Except.ok.inj hstep
      exact .comma hxs
    | _ => cases hstep
  | @comma ts xs hxs =>
    cases t with
    | ID x =>
      obtain rfl := Except.ok.inj hstep
      rw [List.append_assoc]
      exact .name (.snoc x hxs)
    | _ => cases hstep

theorem argsRead_finish {us : List Tok} {a : ArgsAt} {xs : List String} (h : ArgsRead us a)
    (hfin : a.finish = .ok xs) : ArgList us xs := by
  cases h with
  | first =>
    obtain rfl := Except.ok.inj hfin
    exact .empty
  | name hxs =>
    obtain rfl := Except.ok.inj hfin
    exact .some hxs
  | comma _ => cases hfin

/-- The text before and in the parentheses that are open. -/
inductive OuterText : List Tok → List Ops → Prop
  | nil : OuterText [] []
  | paren {us vs : List Tok} {ops : Ops} {outer : List Ops} : OuterText us outer →
      arithExpr.StackText OperandText vs ops → OuterText (us ++ vs ++ [.LPAREN]) (ops :: outer)

/-- The text of an expression so far. -/
inductive ExprRead : List Tok → ExprAt → Prop
  | operand {us vs : List Tok} {ops : Ops} {outer : List Ops} : OuterText us outer →
      arithExpr.StackText OperandText vs ops → ExprRead (us ++ vs) (.operand ops outer)
  | value {us vs ws : List Tok} {e : Expr} {callee : Option String} {ops : Ops}
      {outer : List Ops} : OuterText us outer → arithExpr.StackText OperandText vs ops →
      OperandText ws e → (∀ f, callee = some f → ws = [.ID f]) →
      ExprRead (us ++ vs ++ ws) (.value e callee ops outer)
  | args {us vs ws : List Tok} {f : String} {a : ArgsAt} {ops : Ops} {outer : List Ops} :
      OuterText us outer → arithExpr.StackText OperandText vs ops → ArgsRead ws a →
      ExprRead (us ++ vs ++ (.ID f :: .LPAREN :: ws)) (.args f a ops outer)

theorem shifts_nil (ops : Ops) : arithExpr.Shifts ops [] :=
  fun _ _ _ ho => absurd ho List.not_mem_nil

/-- What pends on an operand and the operand are an expression. -/
theorem exprText_of_stack {vs ws : List Tok} {ops : Ops} {e : Expr}
    (hvs : arithExpr.StackText OperandText vs ops) (hws : OperandText ws e) :
    ExprText (vs ++ ws) (arithExpr.reduceAll ops e) :=
  Grammar.reduceAll_text hvs (.operand hws) (shifts_nil ops)

theorem operandRead_step {us vs : List Tok} {ops : Ops} {outer : List Ops} {s' : ExprAt} {t : Tok}
    (hus : OuterText us outer) (hvs : arithExpr.StackText OperandText vs ops)
    (hstep : operandStep ops outer t = .ok s') : ExprRead (us ++ vs ++ [t]) s' := by
  unfold operandStep at hstep
  split at hstep
  · rename_i x
    obtain rfl := Except.ok.inj hstep
    exact .value hus hvs (.id x) fun f hf => by rw [Option.some.inj hf]
  · rename_i n
    obtain rfl := Except.ok.inj hstep
    exact .value hus hvs (.uint n) fun f hf => nomatch hf
  · obtain rfl := Except.ok.inj hstep
    rw [← List.append_nil (us ++ vs ++ [Tok.LPAREN])]
    exact .operand (.paren hus hvs) .nil
  · split at hstep
    · rename_i p hp
      obtain rfl := Except.ok.inj hstep
      rw [List.append_assoc]
      exact .operand hus (.unary hp hvs)
    · cases hstep

theorem valueRead_step {us vs ws : List Tok} {e : Expr} {callee : Option String} {ops : Ops}
    {outer : List Ops} {s' : ExprAt} {t : Tok} (hus : OuterText us outer)
    (hvs : arithExpr.StackText OperandText vs ops) (hws : OperandText ws e)
    (hcallee : ∀ f, callee = some f → ws = [.ID f])
    (hstep : valueStep e callee ops outer t = .ok s') : ExprRead (us ++ vs ++ ws ++ [t]) s' := by
  unfold valueStep at hstep
  split at hstep
  · split at hstep
    · rename_i f
      obtain rfl := Except.ok.inj hstep
      rw [hcallee f rfl, List.append_assoc]
      exact .args hus hvs .first
    · cases hstep
  · split at hstep
    · rename_i ops' outer
      obtain rfl := Except.ok.inj hstep
      cases hus with
      | @paren us vs' _ _ hus hvs' =>
        obtain ⟨os, ρs, hphrase⟩ := exprText_of_stack hvs hws
        have htext : us ++ vs' ++ [Tok.LPAREN] ++ vs ++ ws ++ [Tok.RPAREN] =
            us ++ vs' ++ (.LPAREN :: (vs ++ ws) ++ [.RPAREN]) := by simp
        rw [htext]
        exact .value hus hvs' (.paren hphrase) fun f hf => nomatch hf
    · cases hstep
  · split at hstep
    · rename_i o ho
      split at hstep
      · rename_i ops' l hreduce
        obtain rfl := Except.ok.inj hstep
        obtain ⟨us', ts', os', ρs', htext, hus', hl, hshift, hρs⟩ := Grammar.reduceOn_text hvs
          (.operand hws) (shifts_nil ops) (fun ρ hρ => absurd hρ List.not_mem_nil) hreduce
        have hwhole : us ++ vs ++ ws ++ [t] = us ++ (us' ++ ts' ++ [t]) := by
          rw [htext]
          simp
        rw [hwhole]
        exact .operand hus (.binary ho hus' hl hshift hρs)
      · cases hstep
    · cases hstep

theorem exprRead_step {us : List Tok} {s s' : ExprAt} {t : Tok} (h : ExprRead us s)
    (hstep : s.step t = .ok s') : ExprRead (us ++ [t]) s' := by
  cases h with
  | operand hus hvs => exact operandRead_step hus hvs hstep
  | value hus hvs hws hcallee => exact valueRead_step hus hvs hws hcallee hstep
  | @args us vs ws f a ops outer hus hvs ha =>
    rw [List.append_assoc, List.cons_append, List.cons_append]
    have hstep : argsStep f a ops outer t = .ok s' := hstep
    unfold argsStep at hstep
    split at hstep
    · obtain ⟨xs, hfin, rfl⟩ := map_ok hstep
      exact .value hus hvs (.invocation f (argsRead_finish ha hfin)) fun f hf => nomatch hf
    · obtain ⟨a', hnext, rfl⟩ := map_ok hstep
      exact .args hus hvs (argsRead_step ha hnext)

theorem exprRead_finish {us : List Tok} {s : ExprAt} {e : Expr} (h : ExprRead us s)
    (hfin : s.finish = some e) : ExprText us e := by
  cases h with
  | @value us vs ws e₀ callee ops outer hus hvs hws _ =>
    cases outer with
    | nil =>
      obtain rfl := Option.some.inj hfin
      cases hus
      exact exprText_of_stack hvs hws
    | cons ops' outer => cases hfin
  | _ => cases hfin

theorem exprRead_start : ExprRead [] (.operand [] []) := .operand .nil .nil

end SeccompPolicy
