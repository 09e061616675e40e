import SeccompPolicy.Lib.CGrammar
import SeccompPolicy.Lifter

/-!
# The text of a lifted expression

Source: `LiftExpr` of `IR_lifter.cpp`, character by character, and `to_string` of an `int`.

`LiftExpr` puts text after text, with parentheses around every operator. The C compiler cuts the
text into tokens and reads these by its grammar, which is `Lib.CTokens` and `Lib.CGrammar` here.
The text is the tree again, but for two things: a minus directly in front of a negative constant
is one token with it, and a name can be a keyword of C.

* `IRValue.IsTree` are the values that have a tree: over arguments, constants and helper calls.
* `IRValue.ReadsBack` is the condition: no name is a keyword of C, and no negative constant stands
  directly behind a minus. The operators of the source print without blanks, so `a - -5` is
  `(a--5)`.

## Results

* `IRValue.IsTree.lexesAs`: the text of a value is cut into its tokens, in front of any text that
  stops a word.
* `IRValue.IsTree.unary_tokens`: its tokens are read as its tree.
* `IRValue.IsTree.readsBack`: the tokens of a tree hold no keyword and no decrement, so a value
  whose text reads as a tree reads back.
* `liftText_reads_iff`: the text reads as the tree exactly when the value `ReadsBack`.
* `liftText_not_reads`: `(a--5)` is no expression.
-/

namespace SeccompPolicy

open CSyntax

/-! ## `LiftExpr` -/

/-- `to_string` of an `int`. -/
def intText (n : Int) : String := if n < 0 then "-" ++ n.natAbs.repr else n.natAbs.repr

/-- The loop over the arguments of a call. -/
def argsText : List String → String
  | [] => ""
  | [x] => x
  | x :: y :: xs => x ++ ", " ++ argsText (y :: xs)

/-- `LiftExpr`. -/
def liftText : IRValue → String
  | .arith _ op op1 op2 =>
    if op = .UMINUS then "(-" ++ liftText op1 ++ ")"
    else "(" ++ (liftText op1 ++ (op.name ++ liftText op2)) ++ ")"
  | .imm n => intText n
  | .mem x => x
  | .call _ f args => f ++ "(" ++ argsText args ++ ")"
  | .null => "<unknown>"

/-! ## The trees -/

/-- The rule of the lexer for identifiers: `{ALPHABET}({ALPHABET}|{DECIMAL_DIGIT})*`. -/
def isIdentifier (x : String) : Bool :=
  match x.toList with
  | c :: cs => isNondigit c && cs.all isWordChar
  | [] => false

/-- The operator of C that an operator on words is. -/
def OpCode.binOp? : OpCode → Option BinOp
  | .PLUS => some .add | .MINUS => some .sub | .MULT => some .mul | .DIV => some .div
  | .MOD => some .mod | .BITAND => some .bitAnd | .BITOR => some .bitOr
  | .BITXOR => some .bitXor | .SHL => some .shl | .SHR => some .shr
  | _ => none

/-- A negative constant is a minus and its absolute value. -/
def constTree (n : Int) : Tree := if n < 0 then .unary .minus (.num n.natAbs) else .num n.natAbs

/-- The values that are trees over arguments, constants, helper calls, unary minus and the binary
operators, and the trees of C that they are. -/
inductive IRValue.IsTree : IRValue → Tree → Prop
  | arg {x : String} : isIdentifier x = true → IsTree (.mem x) (.var x)
  | const (n : Int) : IsTree (.imm n) (constTree n)
  | call {id : Nat} {f : String} {args : List String} : isIdentifier f = true →
      (∀ x ∈ args, isIdentifier x = true) → IsTree (.call id f args) (.call (.var f) (args.map .var))
  | minus {id : Nat} {a b : IRValue} {t : Tree} : IsTree a t →
      IsTree (.arith id .UMINUS a b) (.unary .minus t)
  | binary {id : Nat} {op : OpCode} {o : BinOp} {a b : IRValue} {l r : Tree} :
      op.binOp? = some o → IsTree a l → IsTree b r → IsTree (.arith id op a b) (.binary o l r)

/-- A constant whose text starts with a minus. -/
def IRValue.isNegative : IRValue → Bool
  | .imm n => decide (n < 0)
  | _ => false

/-- No name is a keyword of C, and no negative constant stands directly behind a minus. -/
def IRValue.ReadsBack : IRValue → Prop
  | .mem x => x ∉ keywords
  | .call _ f args => f ∉ keywords ∧ ∀ x ∈ args, x ∉ keywords
  | .arith _ op a b =>
    if op = .UMINUS then a.isNegative = false ∧ a.ReadsBack
    else (op = .MINUS → b.isNegative = false) ∧ a.ReadsBack ∧ b.ReadsBack
  | .imm _ | .null => True

/-! ## The tokens of the text -/

/-- A minus and what stands behind it; two of them are a decrement. -/
def minusThen : List Token → List Token
  | .punct .minus :: ts => .punct .dec :: ts
  | ts => .punct .minus :: ts

/-- A binary operator and what stands behind it. -/
def opThen (o : BinOp) (ts : List Token) : List Token :=
  if o = .sub then minusThen ts else .punct o.punct :: ts

/-- The arguments of a call and their commas. -/
def argTokens : List String → List Token
  | [] => []
  | [x] => [word x]
  | x :: y :: xs => word x :: .punct .comma :: argTokens (y :: xs)

/-- The tokens of the text. -/
def IRValue.tokens : IRValue → List Token
  | .mem x => [word x]
  | .imm n => if n < 0 then [.punct .minus, .const n.natAbs] else [.const n.natAbs]
  | .call _ f args => word f :: .punct .lparen :: (argTokens args ++ [.punct .rparen])
  | .arith _ op a b =>
    .punct .lparen :: ((if op = .UMINUS then minusThen a.tokens
      else a.tokens ++ ((op.binOp?.map fun o => opThen o b.tokens).getD [])) ++ [.punct .rparen])
  | .null => []

theorem OpCode.ne_uminus_of_binOp? {op : OpCode} {o : BinOp} (h : op.binOp? = some o) :
    op ≠ .UMINUS := by
  rintro rfl
  cases h

theorem OpCode.eq_minus_of_binOp? {op : OpCode} (h : op.binOp? = some .sub) : op = .MINUS := by
  cases op <;> first | rfl | cases h

/-- An identifier starts with a letter or an underscore and goes on with letters, digits and
underscores. -/
theorem isIdentifier_elim {x : String} (h : isIdentifier x = true) :
    ∃ c cs, x.toList = c :: cs ∧ isNondigit c = true ∧ ∀ d ∈ cs, isWordChar d = true := by
  unfold isIdentifier at h
  split at h
  · rename_i c cs heq
    obtain ⟨hc, hcs⟩ := Bool.and_eq_true_iff.mp h
    exact ⟨c, cs, heq, hc, List.all_eq_true.mp hcs⟩
  · exact absurd h Bool.false_ne_true

/-- An identifier is one token, a keyword or a name. -/
theorem lex_identifier {x : String} (h : isIdentifier x = true) {s : List Char} (hs : Stops s) :
    lex (x.toList ++ s) = (lex s).map (word x :: ·) := by
  obtain ⟨c, cs, hx, hc, hcs⟩ := isIdentifier_elim h
  rw [hx, lex_word hc hcs hs, ← hx, String.ofList_toList]

theorem stops_lparen (s : List Char) : Stops ('(' :: s) := by
  rintro _ ⟨⟩
  decide

theorem stops_rparen (s : List Char) : Stops (')' :: s) := by
  rintro _ ⟨⟩
  decide

theorem stops_comma (s : List Char) : Stops (',' :: s) := by
  rintro _ ⟨⟩
  decide

theorem lex_lparen (s : List Char) : lex ('(' :: s) = (lex s).map (Token.punct .lparen :: ·) :=
  @lex_alone ['('] _ (by decide) (by decide) s

theorem lex_rparen (s : List Char) : lex (')' :: s) = (lex s).map (Token.punct .rparen :: ·) :=
  @lex_alone [')'] _ (by decide) (by decide) s

theorem lex_comma (s : List Char) : lex (',' :: s) = (lex s).map (Token.punct .comma :: ·) :=
  @lex_alone [','] _ (by decide) (by decide) s

/-- The arguments of a call are their names and the commas between them. -/
theorem lex_args {args : List String} (h : ∀ x ∈ args, isIdentifier x = true) (s : List Char) :
    lex ((argsText args).toList ++ ')' :: s) =
      (lex s).map fun ts => argTokens args ++ .punct .rparen :: ts := by
  induction args with
  | nil => exact lex_rparen s
  | cons x xs ih =>
    have hx := h x List.mem_cons_self
    cases xs with
    | nil =>
      rw [argsText, lex_identifier hx (stops_rparen s), lex_rparen, Option.map_map]
      rfl
    | cons y ys =>
      have htext : (argsText (x :: y :: ys)).toList ++ ')' :: s =
          x.toList ++ ',' :: ' ' :: ((argsText (y :: ys)).toList ++ ')' :: s) := by
        rw [argsText, String.toList_append, String.toList_append, List.append_assoc,
          List.append_assoc]
        rfl
      rw [htext, lex_identifier hx (stops_comma _), lex_comma, lex_space,
        ih fun z hz => h z (List.mem_cons_of_mem x hz), Option.map_map, Option.map_map]
      rfl

/-- The text of an integer: its digits, behind a minus when it is negative. -/
theorem intText_toList (n : Int) : (intText n).toList =
    if n < 0 then '-' :: Nat.toDigits 10 n.natAbs else Nat.toDigits 10 n.natAbs := by
  unfold intText
  split
  · rw [String.toList_append, Nat.toList_repr]
    rfl
  · exact Nat.toList_repr

/-- The digits of a number start with one. -/
theorem toDigits_cons (n : Nat) : ∃ d ds, Nat.toDigits 10 n = d :: ds ∧ isWordChar d = true := by
  obtain ⟨d, ds, hds⟩ := List.exists_cons_of_ne_nil (Nat.toDigits_ne_nil (n := n) (b := 10))
  have hd : d.isDigit = true :=
    Nat.isDigit_of_mem_toDigits (by decide) (by decide) (hds ▸ List.mem_cons_self)
  exact ⟨d, ds, hds, by rw [isWordChar, hd, Bool.or_true]⟩

/-- A negative constant. -/
theorem IRValue.negative_cases (v : IRValue) : v.isNegative = false ∨ ∃ n < 0, v = .imm n := by
  cases v with
  | imm n =>
    by_cases hn : n < 0
    · exact .inr ⟨n, hn, rfl⟩
    · exact .inl (decide_eq_false hn)
  | _ => exact .inl rfl

/-- The text of any other value starts with a word, a digit or a parenthesis. -/
theorem IRValue.IsTree.head {v : IRValue} {t : Tree} (h : v.IsTree t) (hneg : v.isNegative = false) :
    ∃ c, (liftText v).toList.head? = some c ∧ (isWordChar c = true ∨ c = '(') := by
  cases h with
  | arg hx =>
    obtain ⟨c, cs, hcs, hc, -⟩ := isIdentifier_elim hx
    exact ⟨c, by rw [liftText, hcs]; rfl, .inl (by rw [isWordChar, hc, Bool.true_or])⟩
  | const n =>
    obtain ⟨d, ds, hds, hd⟩ := toDigits_cons n.natAbs
    refine ⟨d, ?_, .inl hd⟩
    rw [liftText, intText_toList, if_neg (of_decide_eq_false hneg), hds]
    rfl
  | call hf _ =>
    obtain ⟨c, cs, hcs, hc, -⟩ := isIdentifier_elim hf
    refine ⟨c, ?_, .inl (by rw [isWordChar, hc, Bool.true_or])⟩
    rw [liftText, String.toList_append, String.toList_append, String.toList_append, hcs]
    rfl
  | minus _ =>
    refine ⟨'(', ?_, .inr rfl⟩
    rw [liftText, if_pos rfl, String.toList_append, String.toList_append]
    rfl
  | binary hop _ _ =>
    refine ⟨'(', ?_, .inr rfl⟩
    rw [liftText, if_neg (OpCode.ne_uminus_of_binOp? hop), String.toList_append,
      String.toList_append]
    rfl

/-- Its tokens do not start with a minus. -/
theorem IRValue.IsTree.minusThen_tokens {v : IRValue} {t : Tree} (h : v.IsTree t)
    (hneg : v.isNegative = false) : minusThen v.tokens = .punct .minus :: v.tokens := by
  cases h with
  | @arg x _ =>
    rw [IRValue.tokens, word]
    split <;> rfl
  | const n =>
    rw [IRValue.tokens, if_neg (of_decide_eq_false hneg)]
    rfl
  | @call _ f _ _ _ =>
    rw [IRValue.tokens, word]
    split <;> rfl
  | minus _ => rfl
  | binary _ _ _ => rfl

/-- No punctuator goes on with what the text of such a value starts with. -/
theorem not_goesOn_operand {cs : List Char} {p : Punct} (hmem : (cs, p) ∈ punctuators) {c : Char}
    (hc : isWordChar c = true ∨ c = '(') : goesOn punctuators cs c = false := by
  rcases hc with hc | rfl
  · exact not_goesOn_word cs hc
  · exact not_goesOn_lparen hmem

/-- What the text of a value is read as, in front of any text that stops a word. -/
def LexesAs (v : IRValue) : Prop :=
  ∀ s, Stops s → lex ((liftText v).toList ++ s) = (lex s).map (v.tokens ++ ·)

/-- A punctuator in front of the text of a value that is no negative constant. -/
theorem lex_punct_value {v : IRValue} {t : Tree} (h : v.IsTree t) (hneg : v.isNegative = false)
    (hv : LexesAs v) {cs : List Char} {p : Punct} (hmem : (cs, p) ∈ punctuators) {s : List Char}
    (hs : Stops s) : lex (cs ++ ((liftText v).toList ++ s)) =
      (lex s).map (.punct p :: v.tokens ++ ·) := by
  obtain ⟨c, hhead, hc⟩ := h.head hneg
  rw [lex_punct hmem, hv s hs, Option.map_map]
  · rfl
  · rw [List.head?_append, hhead]
    rintro _ ⟨⟩
    exact not_goesOn_operand hmem hc

/-- A punctuator in front of the text of a negative constant. -/
theorem lex_punct_negative {n : Int} (hn : n < 0) {cs : List Char} {p : Punct}
    (hmem : (cs ++ ['-'], p) ∈ punctuators) {s : List Char} (hs : Stops s) :
    lex (cs ++ ((liftText (.imm n)).toList ++ s)) =
      (lex s).map ([.punct p, .const n.natAbs] ++ ·) := by
  obtain ⟨d, ds, hds, hd⟩ := toDigits_cons n.natAbs
  have htext : cs ++ ((liftText (.imm n)).toList ++ s) =
      (cs ++ ['-']) ++ (Nat.toDigits 10 n.natAbs ++ s) := by
    rw [liftText, intText_toList, if_pos hn, List.append_assoc]
    rfl
  rw [htext, lex_punct hmem, lex_number _ hs, Option.map_map]
  · rfl
  · rw [hds]
    rintro _ ⟨⟩
    exact not_goesOn_word _ hd

/-- A minus in front of the text of a value. -/
theorem lex_minus {v : IRValue} {t : Tree} (h : v.IsTree t) (hv : LexesAs v) {s : List Char}
    (hs : Stops s) : lex ('-' :: ((liftText v).toList ++ s)) =
      (lex s).map (minusThen v.tokens ++ ·) := by
  rcases v.negative_cases with hneg | ⟨n, hn, rfl⟩
  · rw [h.minusThen_tokens hneg]
    exact @lex_punct_value _ _ h hneg hv ['-'] _ (by decide) _ hs
  · rw [IRValue.tokens, if_pos hn]
    exact @lex_punct_negative _ hn ['-'] _ (by decide) _ hs

/-- Only a minus goes on with a minus. -/
theorem OpCode.name_mem_punctuators {op : OpCode} {o : BinOp} (hop : op.binOp? = some o)
    (hsub : o ≠ .sub) : (op.name.toList, o.punct) ∈ punctuators ∧
      goesOn punctuators op.name.toList '-' = false := by
  cases op <;> cases hop <;> first | exact absurd rfl hsub | decide

/-- The name of an operator stops a word. -/
theorem OpCode.stops_name {op : OpCode} {o : BinOp} (hop : op.binOp? = some o) (s : List Char) :
    Stops (op.name.toList ++ s) := by
  cases op <;> cases hop <;> (rintro _ ⟨⟩; decide)

/-- A binary operator in front of the text of a value. -/
theorem lex_op {v : IRValue} {t : Tree} (h : v.IsTree t) (hv : LexesAs v) {op : OpCode} {o : BinOp}
    (hop : op.binOp? = some o) {s : List Char} (hs : Stops s) :
    lex (op.name.toList ++ ((liftText v).toList ++ s)) = (lex s).map (opThen o v.tokens ++ ·) := by
  by_cases hsub : o = .sub
  · have hname : op.name.toList = ['-'] := by
      subst hsub
      cases op <;> first | rfl | cases hop
    rw [hname, opThen, if_pos hsub]
    exact lex_minus h hv hs
  · obtain ⟨hmem, hdash⟩ := OpCode.name_mem_punctuators hop hsub
    rw [opThen, if_neg hsub]
    rcases v.negative_cases with hneg | ⟨n, hn, rfl⟩
    · exact lex_punct_value h hneg hv hmem hs
    · rw [lex_punct hmem, hv s hs, Option.map_map]
      · rfl
      · rw [liftText, intText_toList, if_pos hn]
        rintro _ ⟨⟩
        exact hdash

/-- The text of a value is cut into its tokens. -/
theorem IRValue.IsTree.lexesAs {v : IRValue} {t : Tree} (h : v.IsTree t) : LexesAs v := by
  induction h with
  | arg hx =>
    intro s hs
    exact lex_identifier hx hs
  | const n =>
    intro s hs
    by_cases hn : n < 0
    · rw [IRValue.tokens, if_pos hn]
      exact @lex_punct_negative _ hn [] _ (by decide) _ hs
    · rw [liftText, intText_toList, IRValue.tokens, if_neg hn, if_neg hn]
      exact lex_number _ hs
  | @call id f args hf hargs =>
    intro s hs
    have htext : (liftText (.call id f args)).toList ++ s =
        f.toList ++ '(' :: ((argsText args).toList ++ ')' :: s) := by
      simp only [liftText, String.toList_append, List.append_assoc]
      rfl
    rw [htext, lex_identifier hf (stops_lparen _), lex_lparen, lex_args hargs, Option.map_map,
      Option.map_map]
    refine congrFun (congrArg Option.map (funext fun ts => ?_)) _
    simp [IRValue.tokens]
  | @minus id a b t ha ih =>
    intro s hs
    have htext : (liftText (.arith id .UMINUS a b)).toList ++ s =
        '(' :: '-' :: ((liftText a).toList ++ ')' :: s) := by
      simp only [liftText, if_true, String.toList_append, List.append_assoc]
      rfl
    rw [htext, lex_lparen, lex_minus ha ih (stops_rparen s), lex_rparen, Option.map_map,
      Option.map_map]
    refine congrFun (congrArg Option.map (funext fun ts => ?_)) _
    simp [IRValue.tokens]
  | @binary id op o a b l r hop ha hb iha ihb =>
    intro s hs
    have hne := OpCode.ne_uminus_of_binOp? hop
    have htext : (liftText (.arith id op a b)).toList ++ s =
        '(' :: ((liftText a).toList ++
          (op.name.toList ++ ((liftText b).toList ++ ')' :: s))) := by
      simp only [liftText, if_neg hne, String.toList_append, List.append_assoc]
      rfl
    rw [htext, lex_lparen, iha _ (OpCode.stops_name hop _), lex_op hb ihb hop (stops_rparen s),
      lex_rparen, Option.map_map, Option.map_map, Option.map_map]
    refine congrFun (congrArg Option.map (funext fun ts => ?_)) _
    simp [IRValue.tokens, hne, hop]

/-! ## Reading the tokens -/

theorem ends_rparen (ts : List Token) : Ends (.punct .rparen :: ts) := by
  rintro _ ⟨⟩
  decide

theorem ends_op (o : BinOp) (ts : List Token) : Ends (.punct o.punct :: ts) := by
  rintro _ ⟨⟩
  cases o <;> decide

theorem binOp?_punct (o : BinOp) : (Token.punct o.punct).binOp? = some o := by
  cases o <;> rfl

theorem word_of_not_keyword {x : String} (h : x ∉ keywords) : word x = .ident x := if_neg h

/-- A name is an expression. -/
theorem unary_ident (x : String) (n : Nat) {ts : List Token} (h : Ends ts) :
    unary (n + 3) (.ident x :: ts) = some (.var x, ts) := by
  rw [unary_primary rfl, primary, postfixes_ends h]

theorem unary_const (k n : Nat) {ts : List Token} (h : Ends ts) :
    unary (n + 3) (.const k :: ts) = some (.num k, ts) := by
  rw [unary_primary rfl, primary, postfixes_ends h]

/-- The arguments of a call. -/
theorem arguments_argTokens {x : String} {xs : List String} (h : ∀ y ∈ x :: xs, y ∉ keywords)
    {n : Nat} (hn : xs.length + 5 ≤ n) (rest : List Token) :
    arguments n (argTokens (x :: xs) ++ .punct .rparen :: rest) =
      some ((x :: xs).map .var, rest) := by
  induction xs generalizing x n with
  | nil =>
    obtain ⟨m, rfl⟩ : ∃ m, n = m + 5 := ⟨n - 5, by rw [List.length_nil] at hn; omega⟩
    have hx := expr_operand (p := 1) (unary_ident x m (ends_rparen rest)) rfl
    rw [arguments, argTokens, word_of_not_keyword (h x List.mem_cons_self), List.singleton_append,
      hx]
    rfl
  | cons y ys ih =>
    obtain ⟨m, rfl⟩ : ∃ m, n = m + 5 := ⟨n - 5, by omega⟩
    rw [List.length_cons] at hn
    have hends : Ends (.punct .comma :: (argTokens (y :: ys) ++ .punct .rparen :: rest)) := by
      rintro _ ⟨⟩
      decide
    have hx := expr_operand (p := 1) (unary_ident x m hends) rfl
    have hys := ih (fun z hz => h z (List.mem_cons_of_mem x hz)) (n := m + 4) (by omega)
    rw [arguments, argTokens, word_of_not_keyword (h x List.mem_cons_self), List.cons_append,
      List.cons_append, hx]
    simp only
    rw [hys]
    rfl

theorem head?_argTokens (x : String) (xs : List String) (ts : List Token) :
    (argTokens (x :: xs) ++ ts).head? ≠ some (.punct .rparen) := by
  have hword : word x ≠ .punct .rparen := by
    unfold word
    split <;> simp
  cases xs <;> exact fun h => hword (Option.some.inj h)

theorem length_argTokens (x : String) (xs : List String) :
    (argTokens (x :: xs)).length = 2 * xs.length + 1 := by
  induction xs generalizing x with
  | nil => rfl
  | cons y ys ih =>
    rw [argTokens, List.length_cons, List.length_cons, ih, List.length_cons]
    omega

/-- A call. -/
theorem unary_call {f : String} {args : List String} (hargs : ∀ x ∈ args, x ∉ keywords) {n : Nat}
    (hn : 4 * (argTokens args).length + 12 ≤ n) {rest : List Token} (hrest : Ends rest) :
    unary n (.ident f :: .punct .lparen :: (argTokens args ++ .punct .rparen :: rest)) =
      some (.call (.var f) (args.map .var), rest) := by
  obtain ⟨m, rfl⟩ : ∃ m, n = m + 4 := ⟨n - 4, by omega⟩
  rw [unary_primary rfl, primary]
  cases args with
  | nil => exact (postfixes.eq_def _ _ _).trans (postfixes_ends hrest m _)
  | cons x xs =>
    rw [length_argTokens] at hn
    have h := arguments_argTokens hargs (n := m + 1) (by omega) rest
    rw [postfixes_call h (head?_argTokens x xs _), postfixes_ends hrest]

/-- **Reading the tokens** of a value gives its tree. -/
theorem IRValue.IsTree.unary_tokens {v : IRValue} {t : Tree} (h : v.IsTree t)
    (hread : v.ReadsBack) {n : Nat} (hn : 4 * v.tokens.length ≤ n) {rest : List Token}
    (hrest : Ends rest) : unary n (v.tokens ++ rest) = some (t, rest) := by
  induction h generalizing n rest with
  | @arg x _ =>
    obtain ⟨m, rfl⟩ : ∃ m, n = m + 3 := ⟨n - 3, by simp [IRValue.tokens] at hn; omega⟩
    rw [IRValue.tokens, word_of_not_keyword hread]
    exact unary_ident x m hrest
  | const k =>
    by_cases hk : k < 0
    · rw [IRValue.tokens, if_pos hk] at hn ⊢
      obtain ⟨m, rfl⟩ : ∃ m, n = m + 4 := ⟨n - 4, by simp at hn; omega⟩
      rw [constTree, if_pos hk, List.cons_append, unary_minus, List.singleton_append,
        unary_const _ m hrest]
      rfl
    · rw [IRValue.tokens, if_neg hk] at hn ⊢
      obtain ⟨m, rfl⟩ : ∃ m, n = m + 3 := ⟨n - 3, by simp at hn; omega⟩
      rw [constTree, if_neg hk]
      exact unary_const _ m hrest
  | @call id f args _ _ =>
    obtain ⟨hf, hargs⟩ := hread
    rw [IRValue.tokens, word_of_not_keyword hf] at hn ⊢
    simp only [List.length_cons, List.length_append, List.length_nil] at hn
    have h := unary_call (f := f) hargs (n := n) (by omega) hrest
    simpa using h
  | @minus id a b t ha ih =>
    rw [IRValue.ReadsBack, if_pos rfl] at hread
    rw [IRValue.tokens, if_pos rfl, ha.minusThen_tokens hread.1] at hn ⊢
    simp only [List.length_cons, List.length_append, List.length_nil] at hn
    obtain ⟨m, rfl⟩ : ∃ m, n = m + 5 := ⟨n - 5, by omega⟩
    have harg := ih hread.2 (n := m + 1) (by omega) (ends_rparen rest)
    have hminus : unary (m + 2) (.punct .minus :: (a.tokens ++ .punct .rparen :: rest)) =
        some (.unary .minus t, .punct .rparen :: rest) := by
      rw [unary_minus, harg]
      rfl
    have hparen := primary_paren (expr_operand (p := 1) hminus rfl)
    rw [List.cons_append, List.append_assoc, unary_primary rfl]
    exact hparen.trans (postfixes_ends hrest _ _)
  | @binary id op o a b l r hop ha hb iha ihb =>
    have hne := OpCode.ne_uminus_of_binOp? hop
    rw [IRValue.ReadsBack, if_neg hne] at hread
    obtain ⟨hneg, hreada, hreadb⟩ := hread
    have hthen : opThen o b.tokens = .punct o.punct :: b.tokens := by
      unfold opThen
      split
      · rename_i hsub
        subst hsub
        exact hb.minusThen_tokens (hneg (OpCode.eq_minus_of_binOp? hop))
      · rfl
    rw [IRValue.tokens, if_neg hne, hop, Option.map_some, Option.getD_some, hthen] at hn ⊢
    simp only [List.length_cons, List.length_append, List.length_nil] at hn
    obtain ⟨m, rfl⟩ : ∃ m, n = m + 6 := ⟨n - 6, by omega⟩
    have hl := iha hreada (n := m + 3) (by omega)
      (ends_op o (b.tokens ++ .punct .rparen :: rest))
    have hr := ihb hreadb (n := m + 1) (by omega) (ends_rparen rest)
    have hparen := primary_paren (expr_binary hl (binOp?_punct o) hr rfl)
    rw [List.cons_append, List.append_assoc, List.append_assoc, unary_primary rfl]
    exact hparen.trans (postfixes_ends hrest _ _)

/-! ## What a tree cannot be read from -/

/-- A keyword or a decrement. -/
def Token.Foreign (t : Token) : Prop := t = .punct .dec ∨ ∃ x, t = .keyword x

theorem yieldAll_vars (xs : List String) : yieldAll (xs.map Tree.var) = xs.map Token.ident := by
  induction xs with
  | nil => rfl
  | cons x xs ih =>
    rw [List.map_cons, yieldAll, ih]
    rfl

/-- The trees have none. -/
theorem IRValue.IsTree.not_foreign {v : IRValue} {t : Tree} (h : v.IsTree t) :
    ∀ k ∈ t.yield, ¬ Token.Foreign k := by
  induction h with
  | arg _ => simp [Tree.yield, Token.Foreign]
  | const n =>
    unfold constTree
    split <;> simp [Tree.yield, Token.Foreign, UnOp.punct]
  | call _ _ => simp [Tree.yield, yieldAll_vars, Token.Foreign]
  | minus _ ih =>
    intro k hk
    rcases List.mem_cons.mp hk with rfl | hk
    · simp [Token.Foreign, UnOp.punct]
    · exact ih k hk
  | @binary _ _ o _ _ _ _ _ _ _ ihl ihr =>
    intro k hk
    rcases List.mem_append.mp hk with hk | hk
    · exact ihl k hk
    · rcases List.mem_cons.mp hk with rfl | hk
      · cases o <;> simp [Token.Foreign, BinOp.punct]
      · exact ihr k hk

theorem not_keyword_of_word {x : String} (h : ¬ Token.Foreign (word x)) : x ∉ keywords := fun hx =>
  h (.inr ⟨x, if_pos hx⟩)

theorem mem_argTokens {x : String} {args : List String} (h : x ∈ args) :
    word x ∈ argTokens args := by
  induction args with
  | nil => cases h
  | cons y ys ih =>
    cases ys with
    | nil =>
      obtain rfl := List.mem_singleton.mp h
      exact List.mem_cons_self
    | cons z zs =>
      rcases List.mem_cons.mp h with rfl | hx
      · exact List.mem_cons_self
      · exact List.mem_cons_of_mem _ (List.mem_cons_of_mem _ (ih hx))

/-- Behind a minus there is a decrement, or the value is no negative constant. -/
theorem IRValue.isNegative_of_minusThen {v : IRValue}
    (h : ∀ k ∈ minusThen v.tokens, ¬ Token.Foreign k) : v.isNegative = false := by
  rcases v.negative_cases with hneg | ⟨n, hn, rfl⟩
  · exact hneg
  · rw [IRValue.tokens, if_pos hn] at h
    exact absurd (.inl rfl) (h _ List.mem_cons_self)

/-- A value that has none reads back. -/
theorem IRValue.IsTree.readsBack {v : IRValue} {t : Tree} (h : v.IsTree t)
    (hv : ∀ k ∈ v.tokens, ¬ Token.Foreign k) : v.ReadsBack := by
  induction h with
  | arg _ => exact not_keyword_of_word (hv _ List.mem_cons_self)
  | const _ => exact trivial
  | call _ _ =>
    refine ⟨not_keyword_of_word (hv _ List.mem_cons_self), fun x hx => not_keyword_of_word ?_⟩
    refine hv _ (List.mem_cons_of_mem _ (List.mem_cons_of_mem _ ?_))
    exact List.mem_append_left _ (mem_argTokens hx)
  | @minus id a b t ha ih =>
    have hthen : ∀ k ∈ minusThen a.tokens, ¬ Token.Foreign k := fun k hk =>
      hv k (List.mem_cons_of_mem _ (List.mem_append_left _ (by rwa [if_pos rfl])))
    have hneg := IRValue.isNegative_of_minusThen hthen
    rw [IRValue.ReadsBack, if_pos rfl]
    rw [ha.minusThen_tokens hneg] at hthen
    exact ⟨hneg, ih fun k hk => hthen k (List.mem_cons_of_mem _ hk)⟩
  | @binary id op o a b l r hop ha hb iha ihb =>
    have hne := OpCode.ne_uminus_of_binOp? hop
    have hab : ∀ k ∈ a.tokens ++ opThen o b.tokens, ¬ Token.Foreign k := by
      intro k hk
      refine hv k (List.mem_cons_of_mem _ (List.mem_append_left _ ?_))
      rwa [if_neg hne, hop]
    have hthen : ∀ k ∈ opThen o b.tokens, ¬ Token.Foreign k := fun k hk =>
      hab k (List.mem_append_right _ hk)
    have hneg : o = .sub → b.isNegative = false := fun hsub => by
      rw [opThen, if_pos hsub] at hthen
      exact IRValue.isNegative_of_minusThen hthen
    have hb' : ∀ k ∈ b.tokens, ¬ Token.Foreign k := by
      intro k hk
      refine hthen k ?_
      unfold opThen
      split
      · rw [hb.minusThen_tokens (hneg ‹_›)]
        exact List.mem_cons_of_mem _ hk
      · exact List.mem_cons_of_mem _ hk
    rw [IRValue.ReadsBack, if_neg hne]
    refine ⟨fun hminus => hneg ?_, iha fun k hk => hab k (List.mem_append_left _ hk), ihb hb'⟩
    rw [hminus] at hop
    exact (Option.some.inj hop).symm

/-! ## The text -/

/-- The tokens of a whole text. -/
theorem IRValue.IsTree.lex_eq {v : IRValue} {t : Tree} (h : v.IsTree t) :
    lex (liftText v).toList = some v.tokens := by
  have := h.lexesAs [] (by simp [Stops])
  rw [List.append_nil] at this
  rw [this]
  exact congrArg some (List.append_nil _)

/-- **The text reads as the tree** exactly when no name is a keyword of C and no negative constant
stands directly behind a minus. -/
theorem liftText_reads_iff {v : IRValue} {t : Tree} (h : v.IsTree t) :
    parse (liftText v) = some t ↔ v.ReadsBack := by
  constructor
  · intro hparse
    obtain ⟨ts, hlex, hyield⟩ := parse_yield hparse
    obtain rfl : v.tokens = ts := Option.some.inj (h.lex_eq.symm.trans hlex)
    refine h.readsBack fun k hk hforeign => h.not_foreign k ?_ hforeign
    rw [← hyield]
    refine List.mem_filter.mpr ⟨hk, ?_⟩
    obtain rfl | ⟨x, rfl⟩ := hforeign <;> rfl
  · intro hread
    have hun := @IRValue.IsTree.unary_tokens _ _ h hread (4 * v.tokens.length + 3) (by omega) []
      (by simp [Ends])
    rw [List.append_nil] at hun
    unfold parse
    rw [h.lex_eq]
    simp only [expr_end hun]

/-- The tree of an expression of the lifter. -/
def CExpr.tree? : CExpr → Option Tree
  | .var x => some (.var x)
  | .num n => some (constTree n)
  | .neg e => e.tree?.map (.unary .minus)
  | .bin op l r => do some (.binary (← op.binOp?) (← l.tree?) (← r.tree?))
  | .call f args => some (.call (.var f) (args.map .var))
  | .unknown => none

/-- The structured expression has the tree that the text is read as. -/
theorem liftExpr_tree? {v : IRValue} {t : Tree} (h : v.IsTree t) :
    (liftExpr v).tree? = some t := by
  induction h with
  | arg _ => rfl
  | const _ => rfl
  | call _ _ => rfl
  | minus _ ih =>
    rw [liftExpr, if_pos rfl, CExpr.tree?, ih]
    rfl
  | binary hop _ _ ihl ihr =>
    rw [liftExpr, if_neg (OpCode.ne_uminus_of_binOp? hop), CExpr.tree?, hop, ihl, ihr]
    rfl

/-- A negative constant behind a plus. -/
theorem liftText_reads_shift :
    parse "((-(a+-5))<<get(a, b))" = some (.binary .shl
      (.unary .minus (.binary .add (.var "a") (.unary .minus (.num 5))))
      (.call (.var "get") [.var "a", .var "b"])) :=
  (liftText_reads_iff (v := .arith 2 .SHL (.arith 1 .UMINUS (.arith 0 .PLUS (.mem "a") (.imm (-5)))
      .null) (.call 3 "get" ["a", "b"]))
    (.binary rfl (.minus (.binary rfl (.arg rfl) (.const (-5))))
      (.call rfl (by decide)))).mpr (by simp [IRValue.ReadsBack, IRValue.isNegative, keywords])

/-- `(a--5)` is no expression. -/
theorem liftText_not_reads : ¬ ∀ (v : IRValue) (t : Tree), v.IsTree t →
    parse (liftText v) = some t := by
  intro hall
  have h := hall (.arith 0 .MINUS (.mem "a") (.imm (-5))) _ (.binary rfl (.arg rfl) (.const (-5)))
  have hnone : parse (liftText (.arith 0 .MINUS (.mem "a") (.imm (-5)))) = none := by decide +kernel
  rw [hnone] at h
  cases h

end SeccompPolicy
