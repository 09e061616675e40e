import SeccompPolicy.Lib.CTokens

/-!
# Expressions of C

The operators with their precedence, syntax trees, and a parser on tokens: postfix operators and
calls, prefix operators, then binary operators by precedence climbing, all of them to the left.
Casts, `sizeof`, subscripts, members, `?:`, assignments and the comma operator are left out; a
text with one of them is not read.

The functions of the parser call each other on what is left of the tokens and take fuel, of which
`parse` gives them some for each token.

## Rules

* `postfixes_call`, `unary_op`, `expr_operand`, `expr_end`, `expr_binary`: the steps of the parser
  on each shape of text.
* `primary_paren`: an expression in parentheses is an operand.
* `parse_yield`: what is read is what is returned: the tokens of the tree, but for parentheses and
  commas, are those of the text, in order. So a token that no tree has cannot stand in a text that
  is read.
-/

namespace CSyntax

/-- Prefix operators. -/
inductive UnOp where
  | minus | plus | bitNot | not | inc | dec | addr | deref
  deriving DecidableEq, Repr

/-- Postfix operators. -/
inductive PostOp where
  | inc | dec
  deriving DecidableEq, Repr

/-- Binary operators. -/
inductive BinOp where
  | mul | div | mod | add | sub | shl | shr | lt | gt | le | ge | eq | ne
  | bitAnd | bitXor | bitOr | and | or
  deriving DecidableEq, Repr

def UnOp.punct : UnOp → Punct
  | .minus => .minus | .plus => .plus | .bitNot => .tilde | .not => .bang
  | .inc => .inc | .dec => .dec | .addr => .amp | .deref => .star

def PostOp.punct : PostOp → Punct
  | .inc => .inc | .dec => .dec

def BinOp.punct : BinOp → Punct
  | .mul => .star | .div => .slash | .mod => .percent | .add => .plus | .sub => .minus
  | .shl => .shl | .shr => .shr | .lt => .lt | .gt => .gt | .le => .le | .ge => .ge
  | .eq => .eqEq | .ne => .ne | .bitAnd => .amp | .bitXor => .caret | .bitOr => .bar
  | .and => .andAnd | .or => .orOr

/-- The precedence; a larger one binds tighter. -/
def BinOp.prec : BinOp → Nat
  | .mul | .div | .mod => 10
  | .add | .sub => 9
  | .shl | .shr => 8
  | .lt | .gt | .le | .ge => 7
  | .eq | .ne => 6
  | .bitAnd => 5
  | .bitXor => 4
  | .bitOr => 3
  | .and => 2
  | .or => 1

/-- The prefix operator a token is. -/
def Token.unOp? : Token → Option UnOp
  | .punct .minus => some .minus | .punct .plus => some .plus | .punct .tilde => some .bitNot
  | .punct .bang => some .not | .punct .inc => some .inc | .punct .dec => some .dec
  | .punct .amp => some .addr | .punct .star => some .deref
  | _ => none

/-- The binary operator a token is. -/
def Token.binOp? : Token → Option BinOp
  | .punct .star => some .mul | .punct .slash => some .div | .punct .percent => some .mod
  | .punct .plus => some .add | .punct .minus => some .sub
  | .punct .shl => some .shl | .punct .shr => some .shr
  | .punct .lt => some .lt | .punct .gt => some .gt | .punct .le => some .le
  | .punct .ge => some .ge | .punct .eqEq => some .eq | .punct .ne => some .ne
  | .punct .amp => some .bitAnd | .punct .caret => some .bitXor | .punct .bar => some .bitOr
  | .punct .andAnd => some .and | .punct .orOr => some .or
  | _ => none

/-- A syntax tree. -/
inductive Tree where
  | var (name : String)
  | num (n : Nat)
  | unary (op : UnOp) (e : Tree)
  | postfix_ (op : PostOp) (e : Tree)
  | binary (op : BinOp) (l r : Tree)
  | call (f : Tree) (args : List Tree)

/-! ## The parser -/

mutual

/-- A primary expression and what stands behind it. -/
def primary : Nat → List Token → Option (Tree × List Token)
  | 0, _ => none
  | n + 1, ts =>
    match ts with
    | .ident x :: ts => postfixes n (.var x) ts
    | .const k :: ts => postfixes n (.num k) ts
    | .punct .lparen :: ts =>
      match expr n 1 ts with
      | some (e, .punct .rparen :: ts) => postfixes n e ts
      | _ => none
    | _ => none

/-- The calls and the postfix operators of an expression. -/
def postfixes : Nat → Tree → List Token → Option (Tree × List Token)
  | 0, _, _ => none
  | n + 1, e, ts =>
    match ts with
    | .punct .inc :: ts => postfixes n (.postfix_ .inc e) ts
    | .punct .dec :: ts => postfixes n (.postfix_ .dec e) ts
    | .punct .lparen :: .punct .rparen :: ts => postfixes n (.call e []) ts
    | .punct .lparen :: ts =>
      match arguments n ts with
      | some (es, ts) => postfixes n (.call e es) ts
      | none => none
    | ts => some (e, ts)

/-- The arguments of a call up to its parenthesis. -/
def arguments : Nat → List Token → Option (List Tree × List Token)
  | 0, _ => none
  | n + 1, ts =>
    match expr n 1 ts with
    | some (e, .punct .rparen :: ts) => some ([e], ts)
    | some (e, .punct .comma :: ts) => (arguments n ts).map fun r => (e :: r.1, r.2)
    | _ => none

/-- A primary expression with its prefix and postfix operators. -/
def unary : Nat → List Token → Option (Tree × List Token)
  | 0, _ => none
  | n + 1, ts =>
    match ts with
    | t :: ts =>
      match t.unOp? with
      | some op => (unary n ts).map fun r => (.unary op r.1, r.2)
      | none => primary n (t :: ts)
    | [] => none

/-- An expression of operators that bind at least as tight as `prec`. -/
def expr : Nat → Nat → List Token → Option (Tree × List Token)
  | 0, _, _ => none
  | n + 1, prec, ts =>
    match unary n ts with
    | some (e, ts) => climb n prec e ts
    | none => none

/-- The operators behind a left operand. -/
def climb : Nat → Nat → Tree → List Token → Option (Tree × List Token)
  | 0, _, _, _ => none
  | n + 1, prec, l, ts =>
    match ts with
    | t :: ts =>
      match t.binOp? with
      | some op =>
        if prec ≤ op.prec then
          match expr n (op.prec + 1) ts with
          | some (r, ts) => climb n prec (.binary op l r) ts
          | none => none
        else some (l, t :: ts)
      | none => some (l, t :: ts)
    | [] => some (l, [])

end

/-- A whole text read as one expression. -/
def parse (text : String) : Option Tree :=
  match lex text.toList with
  | none => none
  | some ts =>
    match expr (4 * ts.length + 4) 1 ts with
    | some (e, []) => some e
    | _ => none

/-! ## Its steps -/

/-- Nothing that is part of a postfix expression stands in front. -/
def Ends (ts : List Token) : Prop :=
  ∀ t ∈ ts.head?, t ≠ .punct .inc ∧ t ≠ .punct .dec ∧ t ≠ .punct .lparen

theorem postfixes_ends {ts : List Token} (h : Ends ts) (n : Nat) (e : Tree) :
    postfixes (n + 1) e ts = some (e, ts) := by
  rw [postfixes.eq_def]
  dsimp only
  split
  · exact absurd rfl (h _ rfl).1
  · exact absurd rfl (h _ rfl).2.1
  · exact absurd rfl (h _ rfl).2.2
  · exact absurd rfl (h _ rfl).2.2
  · rfl

theorem unary_op {t : Token} {op : UnOp} (h : t.unOp? = some op) (n : Nat) (ts : List Token) :
    unary (n + 1) (t :: ts) = (unary n ts).map fun r => (.unary op r.1, r.2) := by
  rw [unary.eq_def]
  simp only [h]

theorem unary_minus (n : Nat) (ts : List Token) : unary (n + 1) (.punct .minus :: ts) =
    (unary n ts).map fun r => (.unary .minus r.1, r.2) := unary_op rfl n ts

theorem unary_primary {t : Token} (h : t.unOp? = none) (n : Nat) (ts : List Token) :
    unary (n + 1) (t :: ts) = primary n (t :: ts) := by
  rw [unary.eq_def]
  simp only [h]

theorem primary_paren {n : Nat} {ts rest : List Token} {e : Tree}
    (h : expr n 1 ts = some (e, .punct .rparen :: rest)) :
    primary (n + 1) (.punct .lparen :: ts) = postfixes n e rest := by
  rw [primary.eq_def]
  simp only [h]

theorem postfixes_call {n : Nat} {ts rest : List Token} {e : Tree} {es : List Tree}
    (h : arguments n ts = some (es, rest)) (hne : ts.head? ≠ some (.punct .rparen)) :
    postfixes (n + 1) e (.punct .lparen :: ts) = postfixes n (.call e es) rest := by
  rw [postfixes.eq_def]
  dsimp only
  split
  · rename_i heq
    cases heq
  · rename_i heq
    cases heq
  · rename_i heq
    obtain ⟨-, rfl⟩ := List.cons.inj heq
    exact absurd rfl hne
  · rename_i heq
    obtain ⟨-, rfl⟩ := List.cons.inj heq
    simp only [h]
  · rename_i hno
    exact absurd rfl (hno ts)

/-- An operand behind which no operator stands. -/
theorem expr_operand {n p : Nat} {ts rest : List Token} {e : Tree} {t : Token}
    (h : unary (n + 1) ts = some (e, t :: rest)) (ht : t.binOp? = none) :
    expr (n + 2) p ts = some (e, t :: rest) := by
  rw [expr.eq_def]
  simp only [h]
  rw [climb.eq_def]
  simp only [ht]

/-- An operand at the end. -/
theorem expr_end {n p : Nat} {ts : List Token} {e : Tree} (h : unary (n + 1) ts = some (e, [])) :
    expr (n + 2) p ts = some (e, []) := by
  rw [expr.eq_def]
  simp only [h]
  rw [climb.eq_def]

/-- Two operands and the operator between them, up to a token that is none. -/
theorem expr_binary {n : Nat} {ts ts' rest : List Token} {l r : Tree} {t u : Token} {op : BinOp}
    (hl : unary (n + 3) ts = some (l, t :: ts')) (ht : t.binOp? = some op)
    (hr : unary (n + 1) ts' = some (r, u :: rest)) (hu : u.binOp? = none) :
    expr (n + 4) 1 ts = some (.binary op l r, u :: rest) := by
  have hprec : 1 ≤ op.prec := by cases op <;> decide
  rw [expr.eq_def]
  simp only [hl]
  rw [climb.eq_def]
  simp only [ht, if_pos hprec, expr_operand hr hu]
  rw [climb.eq_def]
  simp only [hu]

/-! ## The tokens of a tree -/

mutual

/-- The tokens of a tree but for parentheses and commas. -/
def Tree.yield : Tree → List Token
  | .var x => [.ident x]
  | .num n => [.const n]
  | .unary op e => .punct op.punct :: e.yield
  | .postfix_ op e => e.yield ++ [.punct op.punct]
  | .binary op l r => l.yield ++ .punct op.punct :: r.yield
  | .call f args => f.yield ++ yieldAll args

/-- The tokens of trees. -/
def yieldAll : List Tree → List Token
  | [] => []
  | e :: es => e.yield ++ yieldAll es

end

/-- Neither a parenthesis nor a comma. -/
def Token.counts : Token → Bool
  | .punct .lparen | .punct .rparen | .punct .comma => false
  | _ => true

theorem Token.punct_of_unOp? {t : Token} {op : UnOp} (h : t.unOp? = some op) :
    t = .punct op.punct ∧ t.counts = true := by
  unfold Token.unOp? at h
  split at h <;> simp at h <;> subst h <;> exact ⟨rfl, rfl⟩

theorem Token.punct_of_binOp? {t : Token} {op : BinOp} (h : t.binOp? = some op) :
    t = .punct op.punct ∧ t.counts = true := by
  unfold Token.binOp? at h
  split at h <;> simp at h <;> subst h <;> exact ⟨rfl, rfl⟩

/-- The tokens of a list that count. -/
def counted (ts : List Token) : List Token := ts.filter Token.counts

theorem counted_cons {t : Token} (h : t.counts = true) (ts : List Token) :
    counted (t :: ts) = t :: counted ts := List.filter_cons_of_pos h

/-- What the parser reads with `n` is what it returns. -/
structure YieldsAt (n : Nat) : Prop where
  primary : ∀ ts e rest, primary n ts = some (e, rest) → counted ts = e.yield ++ counted rest
  postfixes : ∀ ts e e' rest, postfixes n e ts = some (e', rest) →
    e.yield ++ counted ts = e'.yield ++ counted rest
  arguments : ∀ ts es rest, arguments n ts = some (es, rest) →
    counted ts = yieldAll es ++ counted rest
  unary : ∀ ts e rest, unary n ts = some (e, rest) → counted ts = e.yield ++ counted rest
  expr : ∀ p ts e rest, expr n p ts = some (e, rest) → counted ts = e.yield ++ counted rest
  climb : ∀ p l ts e rest, climb n p l ts = some (e, rest) →
    l.yield ++ counted ts = e.yield ++ counted rest

theorem YieldsAt.zero : YieldsAt 0 where
  primary ts e rest h := by rw [CSyntax.primary] at h; cases h
  postfixes ts e e' rest h := by rw [CSyntax.postfixes] at h; cases h
  arguments ts es rest h := by rw [CSyntax.arguments] at h; cases h
  unary ts e rest h := by rw [CSyntax.unary] at h; cases h
  expr p ts e rest h := by rw [CSyntax.expr] at h; cases h
  climb p l ts e rest h := by rw [CSyntax.climb] at h; cases h

theorem YieldsAt.succ {n : Nat} (ih : YieldsAt n) : YieldsAt (n + 1) where
  primary ts e rest h := by
    rw [CSyntax.primary.eq_def] at h
    dsimp only at h
    split at h
    · exact ih.postfixes _ _ _ _ h
    · exact ih.postfixes _ _ _ _ h
    · split at h
      · rename_i e₁ ts₁ hexpr
        have hpost := ih.postfixes _ _ _ _ h
        exact (ih.expr _ _ _ _ hexpr).trans hpost
      · cases h
    · cases h
  postfixes ts e e' rest h := by
    rw [CSyntax.postfixes.eq_def] at h
    dsimp only at h
    split at h
    · have hpost := ih.postfixes _ _ _ _ h
      rw [← hpost, Tree.yield, List.append_assoc]
      rfl
    · have hpost := ih.postfixes _ _ _ _ h
      rw [← hpost, Tree.yield, List.append_assoc]
      rfl
    · have hpost := ih.postfixes _ _ _ _ h
      rw [← hpost, Tree.yield, yieldAll, List.append_nil]
      rfl
    · split at h
      · rename_i es ts₁ hargs
        have hpost := ih.postfixes _ _ _ _ h
        rw [← hpost, Tree.yield, List.append_assoc, ← ih.arguments _ _ _ hargs]
        rfl
      · cases h
    · obtain ⟨rfl, rfl⟩ := Prod.mk.inj (Option.some.inj h)
      rfl
  arguments ts es rest h := by
    rw [CSyntax.arguments] at h
    split at h
    · rename_i e ts₁ hexpr
      obtain ⟨rfl, rfl⟩ := Prod.mk.inj (Option.some.inj h)
      rw [yieldAll, yieldAll, List.append_nil, ih.expr _ _ _ _ hexpr]
      rfl
    · rename_i e ts₁ hexpr
      obtain ⟨⟨es₁, ts₂⟩, hargs, heq⟩ := Option.map_eq_some_iff.mp h
      obtain ⟨rfl, rfl⟩ := Prod.mk.inj heq
      rw [yieldAll, List.append_assoc, ← ih.arguments _ _ _ hargs, ih.expr _ _ _ _ hexpr]
      rfl
    · cases h
  unary ts e rest h := by
    rw [CSyntax.unary.eq_def] at h
    dsimp only at h
    split at h
    · rename_i t ts₁
      split at h
      · rename_i op hop
        obtain ⟨⟨e₁, ts₂⟩, hun, heq⟩ := Option.map_eq_some_iff.mp h
        obtain ⟨rfl, rfl⟩ := Prod.mk.inj heq
        obtain ⟨ht, hcount⟩ := Token.punct_of_unOp? hop
        rw [counted_cons hcount, ih.unary _ _ _ hun, Tree.yield, ht]
        rfl
      · exact ih.primary _ _ _ h
    · cases h
  expr p ts e rest h := by
    rw [CSyntax.expr] at h
    split at h
    · rename_i e₁ ts₁ hun
      rw [ih.unary _ _ _ hun]
      exact ih.climb _ _ _ _ _ h
    · cases h
  climb p l ts e rest h := by
    rw [CSyntax.climb.eq_def] at h
    dsimp only at h
    split at h
    · rename_i t ts₁
      split at h
      · rename_i op hop
        obtain ⟨ht, hcount⟩ := Token.punct_of_binOp? hop
        split at h
        · split at h
          · rename_i r ts₂ hexpr
            rw [← ih.climb _ _ _ _ _ h, Tree.yield, List.append_assoc, counted_cons hcount,
              ih.expr _ _ _ _ hexpr, ht]
            rfl
          · cases h
        · obtain ⟨rfl, rfl⟩ := Prod.mk.inj (Option.some.inj h)
          rfl
      · obtain ⟨rfl, rfl⟩ := Prod.mk.inj (Option.some.inj h)
        rfl
    · obtain ⟨rfl, rfl⟩ := Prod.mk.inj (Option.some.inj h)
      rfl

/-- **What is read is what is returned**: the tokens of the tree are those of the text, in order. -/
theorem parse_yield {text : String} {e : Tree} (h : parse text = some e) :
    ∃ ts, lex text.toList = some ts ∧ counted ts = e.yield := by
  unfold parse at h
  split at h
  · cases h
  · rename_i ts hlex
    split at h
    · rename_i e₁ hexpr
      obtain rfl := Option.some.inj h
      have hall : ∀ n, YieldsAt n := fun n => by
        induction n with
        | zero => exact .zero
        | succ n ih => exact ih.succ
      refine ⟨ts, hlex, ?_⟩
      rw [(hall _).expr _ _ _ _ hexpr]
      exact List.append_nil _
    · cases h

end CSyntax
