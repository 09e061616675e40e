import Mathlib.Data.List.Nodup
import Mathlib.Data.List.TakeWhile
import Mathlib.Tactic.IntervalCases
import Std.Data.String.ToNat

/-!
# The tokens of C

A text is cut from the left, each time at the longest piece that is a token: a word, a
preprocessing number, or a punctuator. `munch` is the longest match in a table of spellings, of
which `munch_append` says when it stops: no spelling goes on with the next character.

A comment is taken for a punctuator of its own, which is part of no expression. String and
character constants are no tokens here, and directives are not read. A preprocessing number that
is no decimal constant is a token without a value.

## Rules

* `munch_append`: the longest match is a spelling that does not go on with the next character;
  `punctuators_isTable` says that the table is one.
* `lex_next`: a text goes on after its first token; more fuel than characters makes no difference
  (`lexFrom_eq`).
* `lex_word`, `lex_number`, `lex_punct`, `lex_alone`: a word, the digits of a number and a
  punctuator in front of a text that does not go on with them.
* `numberToken_toDigits`: the digits of a number are a decimal constant.
-/

namespace CSyntax

/-! ## Longest match in a table -/

section Munch

variable {α β : Type*}

/-- A table with its longest spellings in front, and none twice. -/
structure IsTable (table : List (List α × β)) : Prop where
  sorted : table.Pairwise fun e e' => e'.1.length ≤ e.1.length
  nodup : (table.map Prod.fst).Nodup

/-- What `find?` returns is no shorter than any other match. -/
theorem find?_le {table : List (List α × β)} (h : IsTable table) {p : List α × β → Bool}
    {e e' : List α × β} (hfind : table.find? p = some e) (he' : e' ∈ table) (hp : p e' = true) :
    e'.1.length ≤ e.1.length := by
  obtain ⟨-, as, bs, rfl, has⟩ := List.find?_eq_some_iff_append.mp hfind
  rcases List.mem_append.mp he' with hmem | hmem
  · exact absurd hp (by simpa using has e' hmem)
  · rcases List.mem_cons.mp hmem with rfl | hmem
    · exact le_rfl
    · exact (List.pairwise_cons.mp (List.pairwise_append.mp h.sorted).2.1).1 e' hmem

variable [DecidableEq α]

/-- The first entry whose spelling stands in front of the text, and the text behind it. -/
def munch (table : List (List α × β)) (s : List α) : Option (β × List α) :=
  (table.find? fun e => e.1.isPrefixOf s).map fun e => (e.2, s.drop e.1.length)

/-- Some spelling goes on with the character. -/
def goesOn (table : List (List α × β)) (cs : List α) (c : α) : Bool :=
  table.any fun e => (cs ++ [c]).isPrefixOf e.1

/-- **The longest match** is a spelling that does not go on with the next character. -/
theorem munch_append {table : List (List α × β)} (h : IsTable table) {cs : List α} {b : β}
    (hmem : (cs, b) ∈ table) {s : List α} (hs : ∀ c ∈ s.head?, goesOn table cs c = false) :
    munch table (cs ++ s) = some (b, s) := by
  have hp : cs.isPrefixOf (cs ++ s) = true := by
    rw [List.isPrefixOf_iff_prefix]
    exact List.prefix_append cs s
  obtain ⟨e, he⟩ : ∃ e, table.find? (fun e => e.1.isPrefixOf (cs ++ s)) = some e :=
    Option.isSome_iff_exists.mp (List.find?_isSome.mpr ⟨(cs, b), hmem, hp⟩)
  have hlen := find?_le h he hmem hp
  have hfound := List.find?_some he
  have hpre : e.1 <+: cs ++ s := List.isPrefixOf_iff_prefix.mp hfound
  obtain ⟨t, ht⟩ := List.prefix_of_prefix_length_le (List.prefix_append cs s) hpre hlen
  have htable := List.mem_of_find?_eq_some he
  cases t with
  | nil =>
    have hfst : e.1 = cs := by rw [← ht, List.append_nil]
    have heq : e = (cs, b) := List.inj_on_of_nodup_map h.nodup htable hmem hfst
    rw [munch, he, heq, Option.map_some, List.drop_left]
  | cons c t =>
    exfalso
    rw [← ht] at hpre
    obtain ⟨u, hu⟩ := hpre
    rw [List.append_assoc, List.append_cancel_left_eq] at hu
    have hno := hs c (by rw [← hu]; rfl)
    have hyes : goesOn table cs c = true := by
      refine List.any_eq_true.mpr ⟨e, htable, List.isPrefixOf_iff_prefix.mpr ⟨t, ?_⟩⟩
      rw [← ht, List.append_assoc]
      rfl
    rw [hno] at hyes
    exact Bool.false_ne_true hyes

theorem munch_length {table : List (List α × β)} (h : ∀ e ∈ table, e.1 ≠ []) {s s' : List α}
    {b : β} (hm : munch table s = some (b, s')) : s'.length < s.length := by
  unfold munch at hm
  obtain ⟨e, he, heq⟩ := Option.map_eq_some_iff.mp hm
  obtain ⟨-, rfl⟩ := Prod.mk.inj heq
  have hfound := List.find?_some he
  have hpre := (List.isPrefixOf_iff_prefix.mp hfound).length_le
  have hne := List.length_pos_iff.mpr (h e (List.mem_of_find?_eq_some he))
  rw [List.length_drop]
  omega

end Munch

/-! ## Tokens -/

/-- Punctuators. -/
inductive Punct where
  | lbracket | rbracket | lparen | rparen | lbrace | rbrace | dot | arrow
  | inc | dec | amp | star | plus | minus | tilde | bang
  | slash | percent | shl | shr | lt | gt | le | ge | eqEq | ne | caret | bar | andAnd | orOr
  | question | colon | semicolon | ellipsis
  | assign | mulAssign | divAssign | modAssign | addAssign | subAssign | shlAssign | shrAssign
  | andAssign | xorAssign | orAssign | comma | hash | hashHash
  | comment
  deriving DecidableEq, Repr

/-- The spellings of the punctuators, the longest first. -/
def punctuators : List (List Char × Punct) :=
  [(['%', ':', '%', ':'], .hashHash),
    (['.', '.', '.'], .ellipsis), (['<', '<', '='], .shlAssign), (['>', '>', '='], .shrAssign),
    (['/', '/'], .comment), (['/', '*'], .comment),
    (['-', '>'], .arrow), (['+', '+'], .inc), (['-', '-'], .dec), (['<', '<'], .shl),
    (['>', '>'], .shr), (['<', '='], .le), (['>', '='], .ge), (['=', '='], .eqEq),
    (['!', '='], .ne), (['&', '&'], .andAnd), (['|', '|'], .orOr), (['*', '='], .mulAssign),
    (['/', '='], .divAssign), (['%', '='], .modAssign), (['+', '='], .addAssign),
    (['-', '='], .subAssign), (['&', '='], .andAssign), (['^', '='], .xorAssign),
    (['|', '='], .orAssign), (['#', '#'], .hashHash), (['<', ':'], .lbracket),
    ([':', '>'], .rbracket), (['<', '%'], .lbrace), (['%', '>'], .rbrace), (['%', ':'], .hash),
    (['['], .lbracket), ([']'], .rbracket), (['('], .lparen), ([')'], .rparen), (['{'], .lbrace),
    (['}'], .rbrace), (['.'], .dot), (['&'], .amp), (['*'], .star), (['+'], .plus),
    (['-'], .minus), (['~'], .tilde), (['!'], .bang), (['/'], .slash), (['%'], .percent),
    (['<'], .lt), (['>'], .gt), (['^'], .caret), (['|'], .bar), (['?'], .question),
    ([':'], .colon), ([';'], .semicolon), (['='], .assign), ([','], .comma), (['#'], .hash)]

theorem punctuators_isTable : IsTable punctuators where
  sorted := by decide
  nodup := by decide

/-- The keywords. -/
def keywords : List String :=
  ["auto", "break", "case", "char", "const", "continue", "default", "do", "double", "else", "enum",
    "extern", "float", "for", "goto", "if", "inline", "int", "long", "register", "restrict",
    "return", "short", "signed", "sizeof", "static", "struct", "switch", "typedef", "union",
    "unsigned", "void", "volatile", "while", "_Alignas", "_Alignof", "_Atomic", "_Bool",
    "_Complex", "_Generic", "_Imaginary", "_Noreturn", "_Static_assert", "_Thread_local"]

/-- A token. `number` is a preprocessing number that is no decimal constant. -/
inductive Token where
  | ident (name : String)
  | keyword (name : String)
  | const (n : Nat)
  | number (text : List Char)
  | punct (p : Punct)
  deriving DecidableEq, Repr

/-- A letter or an underscore. -/
def isNondigit (c : Char) : Bool := c.isAlpha || decide (c = '_')

/-- A character of an identifier. -/
def isWordChar (c : Char) : Bool := isNondigit c || c.isDigit

/-- An identifier or a keyword. -/
def word (name : String) : Token := if name ∈ keywords then .keyword name else .ident name

/-- The characters of a preprocessing number, after an `e` or not, and the rest of the text. A sign
belongs to it after an `e`. -/
def ppNumber : Bool → List Char → List Char × List Char
  | _, [] => ([], [])
  | exp, c :: s =>
    if isWordChar c || decide (c = '.') || exp && (decide (c = '+') || decide (c = '-')) then
      let r := ppNumber (decide (c ∈ ['e', 'E', 'p', 'P'])) s
      (c :: r.1, r.2)
    else ([], c :: s)

/-- A decimal constant, or another number: hexadecimal, octal, with a suffix, with a fraction. -/
def numberToken (text : List Char) : Token :=
  if text.all Char.isDigit && (decide (text = ['0']) || decide (text.head? ≠ some '0')) then
    .const (Nat.ofDigitChars 10 text 0)
  else .number text

/-- The next token, and the rest of the text. -/
def next? : List Char → Option (Token × List Char)
  | [] => none
  | c :: s =>
    if isNondigit c then
      some (word (String.ofList (c :: s.takeWhile isWordChar)), s.dropWhile isWordChar)
    else if c.isDigit then
      let r := ppNumber false (c :: s)
      some (numberToken r.1, r.2)
    else (munch punctuators (c :: s)).map fun r => (.punct r.1, r.2)

/-- The tokens of a text, with `fuel` for its characters. -/
def lexFrom : Nat → List Char → Option (List Token)
  | _, [] => some []
  | 0, _ :: _ => none
  | fuel + 1, c :: s =>
    if c = ' ' then lexFrom fuel s
    else
      match next? (c :: s) with
      | none => none
      | some (t, s') => (lexFrom fuel s').map (t :: ·)

/-- The tokens of a text. -/
def lex (s : List Char) : Option (List Token) := lexFrom s.length s

theorem ppNumber_append (exp : Bool) (s : List Char) :
    (ppNumber exp s).1 ++ (ppNumber exp s).2 = s := by
  induction s generalizing exp with
  | nil => rfl
  | cons c s ih =>
    unfold ppNumber
    split
    · exact congrArg (c :: ·) (ih _)
    · rfl

/-- A token is not empty. -/
theorem next?_length {c : Char} {s s' : List Char} {t : Token}
    (h : next? (c :: s) = some (t, s')) : s'.length < (c :: s).length := by
  simp only [next?] at h
  split_ifs at h with hnd hd
  · obtain ⟨-, rfl⟩ := Prod.mk.inj (Option.some.inj h)
    exact Nat.lt_succ_of_le (List.length_dropWhile_le _ _)
  · obtain ⟨-, rfl⟩ := Prod.mk.inj (Option.some.inj h)
    have hfirst : isWordChar c = true := by simp [isWordChar, hd]
    have hrest := congrArg List.length (ppNumber_append (decide (c ∈ ['e', 'E', 'p', 'P'])) s)
    rw [List.length_append] at hrest
    rw [ppNumber, if_pos (by rw [hfirst]; rfl), List.length_cons]
    simp only
    omega
  · obtain ⟨r, hr, heq⟩ := Option.map_eq_some_iff.mp h
    obtain ⟨-, rfl⟩ := Prod.mk.inj heq
    exact munch_length (by decide) hr

/-- More fuel than characters makes no difference. -/
theorem lexFrom_eq {n : Nat} {s : List Char} (h : s.length ≤ n) : lexFrom n s = lex s := by
  unfold lex
  induction n using Nat.strong_induction_on generalizing s with
  | _ n ih =>
    cases s with
    | nil => cases n <;> rfl
    | cons c s =>
      obtain ⟨n, rfl⟩ : ∃ k, n = k + 1 := ⟨n - 1, by rw [List.length_cons] at h; omega⟩
      have hs : s.length ≤ n := Nat.le_of_succ_le_succ h
      rw [List.length_cons, lexFrom, lexFrom]
      split
      · exact ih n (Nat.lt_succ_self n) hs
      · cases hnext : next? (c :: s) with
        | none => rfl
        | some r =>
          obtain ⟨t, s'⟩ := r
          have hlen := next?_length hnext
          rw [List.length_cons] at hlen
          have h1 := ih n (Nat.lt_succ_self n) (s := s') (by omega)
          have h2 := ih s.length (by omega) (s := s') (by omega)
          simp only [h1, h2]

/-- The text goes on after its first token. -/
theorem lex_next {c : Char} {s s' : List Char} {t : Token} (hc : c ≠ ' ')
    (h : next? (c :: s) = some (t, s')) : lex (c :: s) = (lex s').map (t :: ·) := by
  have hlen := next?_length h
  rw [List.length_cons] at hlen
  rw [lex, List.length_cons, lexFrom, if_neg hc, h]
  simp only
  rw [lexFrom_eq (by omega)]

theorem lex_space (s : List Char) : lex (' ' :: s) = lex s := by
  rw [lex, List.length_cons, lexFrom, if_pos rfl]
  rfl

/-! ## Words, numbers and punctuators in front of a text -/

/-- No word and no number goes on with the text. -/
def Stops (s : List Char) : Prop := ∀ c ∈ s.head?, isWordChar c = false ∧ c ≠ '.'

theorem isNondigit_ne_space {c : Char} (h : isWordChar c = true) : c ≠ ' ' := by
  rintro rfl
  exact absurd h (by decide)

theorem lex_word {c : Char} {cs s : List Char} (hc : isNondigit c = true)
    (hcs : ∀ d ∈ cs, isWordChar d = true) (hs : Stops s) :
    lex (c :: cs ++ s) = (lex s).map (word (String.ofList (c :: cs)) :: ·) := by
  have hwc : isWordChar c = true := by simp [isWordChar, hc]
  have htake : (cs ++ s).takeWhile isWordChar = cs := by
    rw [List.takeWhile_append_of_pos hcs]
    cases s with
    | nil => rw [List.takeWhile_nil, List.append_nil]
    | cons d s =>
      rw [List.takeWhile_cons_of_neg (by rw [(hs d rfl).1]; exact Bool.false_ne_true),
        List.append_nil]
  have hdrop : (cs ++ s).dropWhile isWordChar = s := by
    rw [List.dropWhile_append_of_pos hcs]
    cases s with
    | nil => rfl
    | cons d s => exact List.dropWhile_cons_of_neg (by rw [(hs d rfl).1]; exact Bool.false_ne_true)
  refine lex_next (isNondigit_ne_space hwc) ?_
  rw [List.append_eq, next?, if_pos hc, htake, hdrop]

theorem ppNumber_digits {ds s : List Char} (hds : ∀ d ∈ ds, d.isDigit = true) (hs : Stops s) :
    ppNumber false (ds ++ s) = (ds, s) := by
  induction ds with
  | nil =>
    cases s with
    | nil => rfl
    | cons c s =>
      obtain ⟨hc, hdot⟩ := hs c rfl
      rw [List.nil_append, ppNumber, if_neg (by simp [hc, hdot])]
  | cons d ds ih =>
    have hd := hds d List.mem_cons_self
    have hexp : decide (d ∈ ['e', 'E', 'p', 'P']) = false := by
      rw [decide_eq_false_iff_not]
      intro hmem
      simp only [List.mem_cons, List.not_mem_nil, or_false] at hmem
      rcases hmem with rfl | rfl | rfl | rfl <;> exact absurd hd (by decide)
    rw [List.cons_append, ppNumber, if_pos (by simp [isWordChar, hd]), hexp,
      ih fun e he => hds e (List.mem_cons_of_mem d he)]

theorem isNondigit_of_isDigit {c : Char} (h : c.isDigit = true) : isNondigit c = false := by
  have hle := (Char.isDigit_iff_toNat.mp h).2
  rw [show '9'.toNat = 57 from rfl] at hle
  rw [isNondigit, Bool.or_eq_false_iff, decide_eq_false_iff_not]
  constructor
  · rw [Bool.eq_false_iff]
    intro halpha
    rcases Bool.or_eq_true_iff.mp halpha with hup | hlow
    · have hge : 65 ≤ c.toNat := UInt32.le_iff_toNat_le.mp (of_decide_eq_true hup).1
      omega
    · have hge : 97 ≤ c.toNat :=
        UInt32.le_iff_toNat_le.mp (of_decide_eq_true (Bool.and_eq_true_iff.mp hlow).1)
      omega
  · rintro rfl
    exact absurd h (by decide)

/-- A number does not start with `0`, other than `0` itself. -/
theorem head?_toDigits {n : Nat} (h : 0 < n) : (Nat.toDigits 10 n).head? ≠ some '0' := by
  induction n using Nat.strong_induction_on with
  | _ n ih =>
    rcases Nat.lt_or_ge n 10 with hlt | hge
    · rw [Nat.toDigits_of_lt_base hlt]
      interval_cases n <;> decide
    · obtain ⟨c, cs, hcs⟩ := List.exists_cons_of_ne_nil (Nat.toDigits_ne_nil (n := n / 10) (b := 10))
      have hhead := ih (n / 10) (by omega) (by omega)
      rw [Nat.toDigits_of_base_le (by decide) hge]
      rw [hcs] at hhead ⊢
      exact hhead

/-- The digits of a number are a decimal constant. -/
theorem numberToken_toDigits (n : Nat) : numberToken (Nat.toDigits 10 n) = .const n := by
  have hdigits : (Nat.toDigits 10 n).all Char.isDigit = true :=
    List.all_eq_true.mpr fun c hc => Nat.isDigit_of_mem_toDigits (by decide) (by decide) hc
  have hhead : Nat.toDigits 10 n = ['0'] ∨ (Nat.toDigits 10 n).head? ≠ some '0' := by
    rcases Nat.eq_zero_or_pos n with rfl | hpos
    · exact .inl rfl
    · exact .inr (head?_toDigits hpos)
  unfold numberToken
  rw [if_pos (by simpa [hdigits] using hhead), Nat.ofDigitChars_ten_toDigits]

theorem lex_number (n : Nat) {s : List Char} (hs : Stops s) :
    lex (Nat.toDigits 10 n ++ s) = (lex s).map (Token.const n :: ·) := by
  have hdigits : ∀ d ∈ Nat.toDigits 10 n, d.isDigit = true := fun c hc =>
    Nat.isDigit_of_mem_toDigits (by decide) (by decide) hc
  have hpp := ppNumber_digits hdigits hs
  obtain ⟨d, ds, hds⟩ := List.exists_cons_of_ne_nil (Nat.toDigits_ne_nil (n := n) (b := 10))
  have hd : d.isDigit = true := hdigits d (by rw [hds]; exact List.mem_cons_self)
  have hnd := isNondigit_of_isDigit hd
  rw [hds, List.cons_append]
  refine lex_next (isNondigit_ne_space (by simp [isWordChar, hd])) ?_
  rw [next?, if_neg (by rw [hnd]; exact Bool.false_ne_true), if_pos hd]
  rw [hds, List.cons_append] at hpp
  simp only [hpp]
  rw [← hds, numberToken_toDigits]

/-- A punctuator that does not go on with the next character. -/
theorem lex_punct {cs s : List Char} {p : Punct} (hmem : (cs, p) ∈ punctuators)
    (hs : ∀ c ∈ s.head?, goesOn punctuators cs c = false) :
    lex (cs ++ s) = (lex s).map (Token.punct p :: ·) := by
  have hall : (punctuators.all fun e =>
      e.1.head?.any fun c => c ≠ ' ' && !isNondigit c && !c.isDigit) = true := by decide
  have hfirst := List.all_eq_true.mp hall _ hmem
  obtain ⟨c, t, rfl⟩ : ∃ c t, cs = c :: t := List.exists_cons_of_ne_nil (by rintro rfl; cases hfirst)
  simp only [List.head?_cons, Option.any_some, Bool.and_eq_true, decide_eq_true_eq,
    Bool.not_eq_true'] at hfirst
  obtain ⟨⟨hspace, hnd⟩, hd⟩ := hfirst
  refine lex_next hspace ?_
  rw [List.append_eq, next?, if_neg (by rw [hnd]; exact Bool.false_ne_true),
    if_neg (by rw [hd]; exact Bool.false_ne_true), ← List.cons_append,
    munch_append punctuators_isTable hmem hs]
  rfl

/-- A punctuator that no other one starts with. -/
theorem lex_alone {cs : List Char} {p : Punct} (hmem : (cs, p) ∈ punctuators)
    (h : ∀ e ∈ punctuators, cs.isPrefixOf e.1 = true → e.1.length ≤ cs.length) (s : List Char) :
    lex (cs ++ s) = (lex s).map (Token.punct p :: ·) := by
  refine lex_punct hmem fun c _ => Bool.eq_false_iff.mpr fun hgo => ?_
  obtain ⟨e, he, hpre⟩ := List.any_eq_true.mp hgo
  have hpre := List.isPrefixOf_iff_prefix.mp hpre
  have hle := h e he (List.isPrefixOf_iff_prefix.mpr ((List.prefix_append cs [c]).trans hpre))
  have hlen := hpre.length_le
  rw [List.length_append, List.length_singleton] at hlen
  omega

/-- A word or a number stands behind any punctuator, and so does a parenthesis. -/
theorem not_goesOn_word (cs : List Char) {c : Char} (hc : isWordChar c = true) :
    goesOn punctuators cs c = false := by
  have hall : (punctuators.all fun e => e.1.all fun d => !isWordChar d) = true := by decide
  rw [Bool.eq_false_iff]
  intro h
  obtain ⟨e, he, hpre⟩ := List.any_eq_true.mp h
  have hmem : c ∈ e.1 := (List.isPrefixOf_iff_prefix.mp hpre).subset (by simp)
  have hword := List.all_eq_true.mp (List.all_eq_true.mp hall e he) c hmem
  rw [hc] at hword
  exact Bool.false_ne_true hword

theorem not_goesOn_lparen {cs : List Char} {p : Punct} (h : (cs, p) ∈ punctuators) :
    goesOn punctuators cs '(' = false := by
  have hall : ∀ e ∈ punctuators, goesOn punctuators e.1 '(' = false := by decide
  exact hall _ h

end CSyntax
