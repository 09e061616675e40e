import SeccompPolicy.Lib.CGrammar

/-!
# Constant expressions and lists of initialisers

The values C gives to constant expressions, and the trees it reads from texts of certain shapes:
words with bars between them, calls, lists of initialisers with commas. `Lib.CGrammar` has the
parser, whose functions take fuel; what it reads with some fuel it reads with more, so that the
results here name no amount.

`Tree.eval` is the value in `w` bits, for operators that commute with the conversion to `w` bits;
a value that is computed in a wider type and converted at the end is the same. The other operators
(division, shifts, comparisons) have none.

## Rules

* `expr_mono`, `arguments_mono`: more fuel makes no difference.
* `ReadsAs`: tokens that are read as a tree in front of what ends an argument. `readsAs_const`,
  `readsAs_ident`, `readsAs_bars`, `readsAs_call` have its shapes.
* `arguments_separated`: the arguments of a call, and of a macro.
* `initialisers_read`: a list of initialisers, each with a comma behind it.
* `eval_bars`: words with bars between them are or-ed.
-/

namespace CSyntax

/-! ## More fuel makes no difference -/

/-- What is read with `n` is read with one more. -/
structure MonoAt (n : Nat) : Prop where
  primary : ∀ ts r, primary n ts = some r → primary (n + 1) ts = some r
  postfixes : ∀ e ts r, postfixes n e ts = some r → postfixes (n + 1) e ts = some r
  arguments : ∀ ts r, arguments n ts = some r → arguments (n + 1) ts = some r
  unary : ∀ ts r, unary n ts = some r → unary (n + 1) ts = some r
  expr : ∀ p ts r, expr n p ts = some r → expr (n + 1) p ts = some r
  climb : ∀ p l ts r, climb n p l ts = some r → climb (n + 1) p l ts = some r

theorem MonoAt.zero : MonoAt 0 where
  primary ts r h := by rw [CSyntax.primary] at h; cases h
  postfixes e ts r h := by rw [CSyntax.postfixes] at h; cases h
  arguments ts r h := by rw [CSyntax.arguments] at h; cases h
  unary ts r h := by rw [CSyntax.unary] at h; cases h
  expr p ts r h := by rw [CSyntax.expr] at h; cases h
  climb p l ts r h := by rw [CSyntax.climb] at h; cases h

theorem MonoAt.succ {n : Nat} (ih : MonoAt n) : MonoAt (n + 1) where
  primary ts r h := by
    rw [CSyntax.primary.eq_def] at h ⊢
    dsimp only at h ⊢
    split at h
    · exact ih.postfixes _ _ _ h
    · exact ih.postfixes _ _ _ h
    · split at h
      · rename_i e ts₁ hexpr
        simp only [ih.expr _ _ _ hexpr]
        exact ih.postfixes _ _ _ h
      · cases h
    · cases h
  postfixes e ts r h := by
    rw [CSyntax.postfixes.eq_def] at h ⊢
    dsimp only at h ⊢
    split at h
    · exact ih.postfixes _ _ _ h
    · exact ih.postfixes _ _ _ h
    · exact ih.postfixes _ _ _ h
    · split at h
      · rename_i es ts₁ hargs
        simp only [ih.arguments _ _ hargs]
        exact ih.postfixes _ _ _ h
      · cases h
    · exact h
  arguments ts r h := by
    rw [CSyntax.arguments.eq_def] at h ⊢
    dsimp only at h ⊢
    split at h
    · rename_i e ts₁ hexpr
      simp only [ih.expr _ _ _ hexpr]
      exact h
    · rename_i e ts₁ hexpr
      obtain ⟨q, hargs, heq⟩ := Option.map_eq_some_iff.mp h
      simp only [ih.expr _ _ _ hexpr, ih.arguments _ _ hargs, Option.map_some, heq]
    · cases h
  unary ts r h := by
    rw [CSyntax.unary.eq_def] at h ⊢
    dsimp only at h ⊢
    split at h
    · rename_i t ts₁
      split at h
      · rename_i op hop
        obtain ⟨q, hun, heq⟩ := Option.map_eq_some_iff.mp h
        simp only [ih.unary _ _ hun, Option.map_some, heq]
      · exact ih.primary _ _ h
    · cases h
  expr p ts r h := by
    rw [CSyntax.expr.eq_def] at h ⊢
    dsimp only at h ⊢
    split at h
    · rename_i e ts₁ hun
      simp only [ih.unary _ _ hun]
      exact ih.climb _ _ _ _ h
    · cases h
  climb p l ts r h := by
    rw [CSyntax.climb.eq_def] at h ⊢
    dsimp only at h ⊢
    split at h
    · rename_i t ts₁
      split at h
      · rename_i op hop
        split at h
        · rename_i hp
          rw [if_pos hp]
          split at h
          · rename_i e ts₂ hexpr
            simp only [ih.expr _ _ _ hexpr]
            exact ih.climb _ _ _ _ h
          · cases h
        · rename_i hp
          rw [if_neg hp]
          exact h
      · exact h
    · exact h

/-- By induction on the fuel, all functions of the parser together. -/
theorem monoAt (n : Nat) : MonoAt n := by
  induction n with
  | zero => exact .zero
  | succ n ih => exact ih.succ

section Mono

variable {n k : Nat} {ts : List Token} (hle : n ≤ k)

include hle

theorem expr_mono {p : Nat} {r : Tree × List Token} (h : expr n p ts = some r) :
    expr k p ts = some r := by
  induction hle with
  | refl => exact h
  | step _ ih => exact (monoAt _).expr _ _ _ ih

theorem arguments_mono {r : List Tree × List Token} (h : arguments n ts = some r) :
    arguments k ts = some r := by
  induction hle with
  | refl => exact h
  | step _ ih => exact (monoAt _).arguments _ _ ih

end Mono

/-! ## Expressions in front of a comma or a parenthesis -/

/-- What ends an argument or an initialiser. -/
def Token.Delimits (t : Token) : Prop := t = .punct .comma ∨ t = .punct .rparen

/-- The tokens are read as the tree, in front of what ends an argument or an initialiser. -/
def ReadsAs (ts : List Token) (e : Tree) : Prop := ∀ (t : Token) (rest : List Token), t.Delimits →
  expr (4 * ts.length + 4) 1 (ts ++ t :: rest) = some (e, t :: rest)

theorem readsAs_const (n : Nat) : ReadsAs [.const n] (.num n) := by
  rintro t rest (rfl | rfl) <;> rfl

theorem readsAs_ident (x : String) : ReadsAs [.ident x] (.var x) := by
  rintro t rest (rfl | rfl) <;> rfl

/-- A word, or words with bars between them. -/
def barTokens (x : String) (xs : List String) : List Token :=
  .ident x :: xs.flatMap fun y => [.punct .bar, .ident y]

/-- Its tree. -/
def barTree (x : String) (xs : List String) : Tree :=
  xs.foldl (fun l y => .binary .bitOr l (.var y)) (.var x)

/-- A chain of bars is climbed to its end, whatever the left operand. -/
theorem climb_bars (xs : List String) (l : Tree) {t : Token} (rest : List Token)
    (ht : t.Delimits) : climb (xs.length + 5) 1 l
      ((xs.flatMap fun y => [.punct .bar, .ident y]) ++ t :: rest) =
      some (xs.foldl (fun l y => .binary .bitOr l (.var y)) l, t :: rest) := by
  induction xs generalizing l with
  | nil => rcases ht with rfl | rfl <;> rfl
  | cons y ys ih =>
    have hright : ∀ more : List Token, more.head? = some (.punct .bar) ∨
        more.head? = some t → expr (ys.length + 5) 4 (.ident y :: more) = some (.var y, more) := by
      intro more hmore
      refine expr_mono (n := 5) (by omega) ?_
      cases more with
      | nil => simp at hmore
      | cons u more =>
        simp only [List.head?_cons, Option.some.injEq] at hmore
        rcases hmore with rfl | rfl
        · rfl
        · rcases ht with rfl | rfl <;> rfl
    have hmore := hright ((ys.flatMap fun y => [.punct .bar, .ident y]) ++ t :: rest) (by
      cases ys with
      | nil => exact .inr rfl
      | cons z zs => exact .inl rfl)
    have hstep : climb (ys.length + 5 + 1) 1 l (.punct .bar :: .ident y ::
        ((ys.flatMap fun y => [.punct .bar, .ident y]) ++ t :: rest)) =
        climb (ys.length + 5) 1 (.binary .bitOr l (.var y))
          ((ys.flatMap fun y => [.punct .bar, .ident y]) ++ t :: rest) := by
      rw [climb.eq_def]
      simp only [Token.binOp?, BinOp.prec, hmore, Nat.one_le_ofNat, if_true, Nat.reduceAdd]
    rw [List.foldl_cons, ← ih (.binary .bitOr l (.var y)), ← hstep]
    rfl

/-- Words and the bars between them. -/
theorem readsAs_bars (x : String) (xs : List String) : ReadsAs (barTokens x xs) (barTree x xs) := by
  intro t rest ht
  have hlen : (barTokens x xs).length = 2 * xs.length + 1 := by
    simp [barTokens, List.length_flatMap, Nat.mul_comm]
  have hbars := climb_bars xs (.var x) rest ht
  have hends : ∀ ts : List Token, ts = (xs.flatMap fun y => [.punct .bar, .ident y]) ++ t :: rest →
      Ends ts := by
    rintro ts rfl u hu
    cases xs with
    | nil =>
      obtain rfl := Option.some.inj hu
      rcases ht with rfl | rfl <;> simp
    | cons y ys =>
      obtain rfl := Option.some.inj hu
      simp
  refine expr_mono (n := xs.length + 6) (by omega) ?_
  rw [expr.eq_def]
  have hunary : unary (xs.length + 5) (barTokens x xs ++ t :: rest) =
      some (.var x, (xs.flatMap fun y => [.punct .bar, .ident y]) ++ t :: rest) := by
    rw [barTokens, List.cons_append, unary_primary rfl, primary.eq_def]
    exact postfixes_ends (hends _ rfl) (xs.length + 2) (.var x)
  simp only [hunary]
  exact hbars

/-! ## Calls -/

/-- Arguments with the commas between them. -/
def separated : List (List Token) → List Token
  | [] => []
  | [a] => a
  | a :: as => a ++ .punct .comma :: separated as

theorem separated_cons (a : List Token) {as : List (List Token)} (hne : as ≠ []) :
    separated (a :: as) = a ++ .punct .comma :: separated as := by
  cases as with
  | nil => exact absurd rfl hne
  | cons b bs => rfl

theorem expr_rparen (n p : Nat) (ts : List Token) : expr n p (.punct .rparen :: ts) = none := by
  cases n with
  | zero => rfl
  | succ n => cases n with
    | zero => rfl
    | succ n => cases n <;> rfl

/-- What is read does not start with a parenthesis that closes. -/
theorem ReadsAs.head_ne {ts : List Token} {e : Tree} (h : ReadsAs ts e) (rest : List Token) :
    (ts ++ rest).head? ≠ some (.punct .rparen) := by
  intro hhead
  have hread := h (.punct .comma) [] (.inl rfl)
  cases ts with
  | nil => exact absurd hread (by simp [expr, unary, primary, Token.unOp?])
  | cons u us =>
    obtain rfl := Option.some.inj hhead
    rw [List.cons_append, expr_rparen] at hread
    cases hread

/-- The arguments of a call. -/
theorem arguments_separated {args : List (List Token × Tree)} (hne : args ≠ [])
    (h : ∀ a ∈ args, ReadsAs a.1 a.2) (rest : List Token) :
    arguments (4 * (separated (args.map Prod.fst)).length + 5)
      (separated (args.map Prod.fst) ++ .punct .rparen :: rest) =
      some (args.map Prod.snd, rest) := by
  induction args with
  | nil => exact absurd rfl hne
  | cons a as ih =>
    have ha := h a List.mem_cons_self
    cases as with
    | nil =>
      rw [List.map_singleton, List.map_singleton, separated, arguments.eq_def]
      simp only [ha (.punct .rparen) rest (.inr rfl)]
    | cons b bs =>
      have hrest := ih (List.cons_ne_nil b bs) fun c hc => h c (List.mem_cons_of_mem a hc)
      have hsep : separated ((a :: b :: bs).map Prod.fst) =
          a.1 ++ .punct .comma :: separated ((b :: bs).map Prod.fst) :=
        separated_cons a.1 (List.cons_ne_nil _ _)
      have hlen : (separated ((a :: b :: bs).map Prod.fst)).length =
          a.1.length + (separated ((b :: bs).map Prod.fst)).length + 1 := by
        rw [hsep, List.length_append, List.length_cons]
        omega
      rw [hlen, arguments.eq_def, hsep, List.append_assoc, List.cons_append]
      dsimp only
      rw [expr_mono (by omega) (ha (.punct .comma) _ (.inl rfl))]
      dsimp only
      rw [arguments_mono (by omega) hrest]
      rfl

/-- A call. -/
theorem readsAs_call (f : String) {args : List (List Token × Tree)} (hne : args ≠ [])
    (h : ∀ a ∈ args, ReadsAs a.1 a.2) :
    ReadsAs (.ident f :: .punct .lparen :: (separated (args.map Prod.fst) ++ [.punct .rparen]))
      (.call (.var f) (args.map Prod.snd)) := by
  intro t rest ht
  have hargs := arguments_separated hne h (t :: rest)
  have hhead : (separated (args.map Prod.fst) ++ .punct .rparen :: t :: rest).head? ≠
      some (.punct .rparen) := by
    cases args with
    | nil => exact absurd rfl hne
    | cons a as =>
      have ha := (h a List.mem_cons_self).head_ne
      cases as with
      | nil => exact ha _
      | cons b bs =>
        rw [List.map_cons, List.map_cons, separated_cons a.1 (List.cons_ne_nil _ _),
          List.append_assoc]
        exact ha _
  have hends : Ends (t :: rest) := by
    rintro _ ⟨⟩
    rcases ht with rfl | rfl <;> simp
  generalize separated (args.map Prod.fst) = as at hargs hhead ⊢
  have hlen : 4 * (Token.ident f :: .punct .lparen :: (as ++ [.punct .rparen])).length + 4 =
      4 * as.length + 11 + 5 := by
    simp only [List.length_cons, List.length_append, List.length_nil]
    omega
  have htext : (Token.ident f :: .punct .lparen :: (as ++ [.punct .rparen])) ++ t :: rest =
      .ident f :: .punct .lparen :: (as ++ .punct .rparen :: t :: rest) := by
    simp
  have hpost := postfixes_call (n := 4 * as.length + 12) (e := .var f)
    (arguments_mono (by omega) hargs) hhead
  have hunary : unary (4 * as.length + 11 + 4)
      (.ident f :: .punct .lparen :: (as ++ .punct .rparen :: t :: rest)) =
      some (.call (.var f) (args.map Prod.snd), t :: rest) := by
    rw [unary_primary rfl, primary.eq_def]
    exact hpost.trans (postfixes_ends hends _ _)
  rw [hlen, htext, expr.eq_def]
  simp only [hunary]
  rcases ht with rfl | rfl <;> rfl

/-! ## Lists of initialisers -/

/-- Initialisers, each with a comma behind it; the last comma can be left out. -/
def initialisers : Nat → List Token → Option (List Tree)
  | _, [] => some []
  | 0, _ :: _ => none
  | n + 1, t :: ts =>
    match expr (4 * (t :: ts).length + 4) 1 (t :: ts) with
    | some (e, .punct .comma :: ts) => (initialisers n ts).map (e :: ·)
    | some (e, []) => some [e]
    | _ => none

/-- **A list of initialisers is read.** -/
theorem initialisers_read {es : List (List Token × Tree)} (h : ∀ e ∈ es, ReadsAs e.1 e.2) {n : Nat}
    (hn : es.length ≤ n) :
    initialisers n (es.flatMap fun e => e.1 ++ [.punct .comma]) = some (es.map Prod.snd) := by
  induction es generalizing n with
  | nil => cases n <;> rfl
  | cons e es ih =>
    have hrest := fun k hk => ih (fun c hc => h c (List.mem_cons_of_mem e hc)) (n := k) hk
    have he := h e List.mem_cons_self (.punct .comma)
      (es.flatMap fun e => e.1 ++ [.punct .comma]) (.inl rfl)
    cases n with
    | zero => simp at hn
    | succ n =>
      have htext : ((e :: es).flatMap fun e => e.1 ++ [.punct .comma]) =
          e.1 ++ .punct .comma :: es.flatMap fun e => e.1 ++ [.punct .comma] := by
        simp
      obtain ⟨t, ts, hts⟩ : ∃ t ts, e.1 ++ .punct .comma ::
          (es.flatMap fun e => e.1 ++ [.punct .comma]) = t :: ts :=
        List.exists_cons_of_ne_nil (by simp)
      have he := expr_mono (k := 4 * (t :: ts).length + 4) (by
        rw [← hts, List.length_append]
        omega) he
      rw [hts] at he
      rw [htext, hts, initialisers, he]
      simp only [hrest n (by simpa using hn), Option.map_some, List.map_cons]

/-! ## Values -/

/-- The value of a constant expression in `w` bits. -/
def Tree.eval {w : Nat} (env : String → Option (BitVec w)) : Tree → Option (BitVec w)
  | .var x => env x
  | .num n => some (BitVec.ofNat w n)
  | .unary .minus e => (e.eval env).map fun v => -v
  | .unary .bitNot e => (e.eval env).map fun v => ~~~v
  | .binary .add l r => (l.eval env).bind fun u => (r.eval env).map fun v => u + v
  | .binary .mul l r => (l.eval env).bind fun u => (r.eval env).map fun v => u * v
  | .binary .bitAnd l r => (l.eval env).bind fun u => (r.eval env).map fun v => u &&& v
  | .binary .bitOr l r => (l.eval env).bind fun u => (r.eval env).map fun v => u ||| v
  | _ => none

/-- An integer constant, with or without a sign. -/
def Tree.int? : Tree → Option Int
  | .num n => some n
  | .unary .minus (.num n) => some (-n)
  | _ => none

/-- Words with bars between them are or-ed. -/
theorem eval_bars {w : Nat} {env : String → Option (BitVec w)} {val : String → BitVec w} {x : String}
    {xs : List String} (h : ∀ y ∈ x :: xs, env y = some (val y)) :
    (barTree x xs).eval env = some (xs.foldl (fun v y => v ||| val y) (val x)) := by
  have hfold : ∀ (ys : List String) (l : Tree) (v : BitVec w), (∀ y ∈ ys, env y = some (val y)) →
      l.eval env = some v →
      (ys.foldl (fun l y => Tree.binary .bitOr l (.var y)) l).eval env =
        some (ys.foldl (fun v y => v ||| val y) v) := by
    intro ys
    induction ys with
    | nil => exact fun l v _ hl => hl
    | cons y ys ih =>
      intro l v hys hl
      refine ih _ _ (fun z hz => hys z (List.mem_cons_of_mem y hz)) ?_
      rw [Tree.eval, hl, Option.bind_some, Tree.eval, hys y List.mem_cons_self]
      rfl
  exact hfold xs _ _ (fun y hy => h y (List.mem_cons_of_mem x hy)) (h x List.mem_cons_self)

end CSyntax
