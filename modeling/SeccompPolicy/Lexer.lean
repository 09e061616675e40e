import SeccompPolicy.ParserCorrect
import SeccompPolicy.Numerals
import SeccompPolicy.Lib.Scanner

/-!
# The lexer

Source: `lexer.l++`.

The rules are a list in their order (`lexRules`): of the rules that match the longest text flex
takes the first, so that a reserved word is no identifier and `>=` no `>`; the choice itself is
`Lib.Scanner`. A text is a list of characters of one byte. A rule makes a token, a count of the
line, nothing, or `TOK_LEX_ERROR`, which the parser has no use for.

Numbers go through `strtoul` (`Numerals`) into an `unsigned int`.

## Results

* `lex_total`: every text is read; the last rule matches any character.
* `lexeme_valid`: an identifier is no reserved word, a number fits `unsigned int`.
* `find_word`: of the words a reserved word or an operator is read by its own rule.
* `lex_spelling`: spelt tokens, each with a blank behind it, are read back.

Out of scope: the positions of tokens (`yylinenum`, `yycolumnno`) and the stand-alone driver
`drivLex.cpp`.
-/

namespace SeccompPolicy

open CInt Scanner

/-- What a rule makes of its text: a token, a count of the line, nothing, or `TOK_LEX_ERROR`. -/
inductive Lexeme where
  | token (t : Tok)
  | newline
  | blank
  | error
  deriving DecidableEq, Repr

/-! ## The rules -/

/-- `{ALPHABET}`. -/
def isAlphabet (c : Char) : Bool :=
  decide ('a' ≤ c) && decide (c ≤ 'z') || decide ('A' ≤ c) && decide (c ≤ 'Z') || c == '_'

/-- `{ALPHABET}({ALPHABET}|{DECIMAL_DIGIT})*`. -/
def isIdText : List Char → Bool
  | [] => false
  | c :: cs => isAlphabet c && cs.all fun c => isAlphabet c || isDecimalDigit c

/-- Operators. -/
def operatorWords : List (List Char × Tok) :=
  [([':'], .COLON), ([','], .COMMA), ([';'], .SEMICOLON), (['('], .LPAREN), ([')'], .RPAREN),
    (['{'], .LBRACE), (['}'], .RBRACE), (['+'], .PLUS), (['-'], .MINUS), (['/'], .DIV),
    (['*'], .MULT), (['%'], .MOD), (['>'], .GT), (['<'], .LT), (['>', '='], .GE),
    (['<', '='], .LE), (['=', '='], .EQ), (['='], .ASSIGN), (['!', '='], .NE), (['&', '&'], .AND),
    (['|', '|'], .OR), (['&'], .BITAND), (['|'], .BITOR), (['~'], .BITNOT), (['^'], .BITXOR),
    (['!'], .NOT), (['<', '<'], .SHL), (['>', '>'], .SHR)]

/-- Reserved words. -/
def reservedWords : List (List Char × Tok) :=
  [(['d', 'e', 'f'], .DEF), (['i', 'f'], .IF), (['e', 'l', 's', 'e'], .ELSE),
    (['d', 'e', 'n', 'y'], .DENY), (['a', 'l', 'l', 'o', 'w'], .ALLOW), (['a', 'l', 'l'], .ALL),
    (['e', 'x', 't', 'e', 'n', 'd'], .EXTEND)]

/-- The rule of a word. -/
def wordRule (p : List Char × Tok) : Rule Char Lexeme := ⟨fun w => w == p.1, fun _ => .token p.2⟩

/-- Identifiers, `copy_str()`. -/
def identifierRule : Rule Char Lexeme := ⟨isIdText, fun w => .token (.ID (String.ofList w))⟩

/-- `{UINTNUM}`; `uVal` is an `unsigned int`. -/
def uintRule : Rule Char Lexeme := ⟨isUintNum, fun w => .token (.UINT (strtoul w 10 % 2 ^ 32))⟩

/-- `{HEX_UINTNUM}`. -/
def hexRule : Rule Char Lexeme := ⟨isHexUintNum, fun w => .token (.UINT (strtoul w 16 % 2 ^ 32))⟩

def newlineRule : Rule Char Lexeme := ⟨fun w => w == ['\n'], fun _ => .newline⟩

/-- `[\t\r ]`. -/
def blankRule : Rule Char Lexeme :=
  ⟨fun w => w == ['\t'] || w == ['\r'] || w == [' '], fun _ => .blank⟩

/-- The rule `.`, any character but a newline. -/
def otherRule : Rule Char Lexeme :=
  ⟨fun w => match w with
    | [c] => c != '\n'
    | _ => false, fun _ => .error⟩

/-- The rules behind the words. -/
def openRules : List (Rule Char Lexeme) :=
  [identifierRule, uintRule, hexRule, newlineRule, blankRule, otherRule]

/-- The rules, in the order of the file. -/
def lexRules : List (Rule Char Lexeme) := (operatorWords ++ reservedWords).map wordRule ++ openRules

/-- The tokens `yylex` returns one by one; none when one is `TOK_LEX_ERROR`. -/
def tokens? : List Lexeme → Option (List Tok)
  | [] => some []
  | .token t :: ls => (tokens? ls).map fun ts => t :: ts
  | .error :: _ => none
  | .newline :: ls | .blank :: ls => tokens? ls

/-- The tokens of a text. -/
def yylex (text : List Char) : Option (List Tok) := (scan lexRules text).bind tokens?

/-! ## Every text is read -/

theorem accepted_iff {w : List Char} : accepted lexRules w = true ↔
    (∃ t, (w, t) ∈ operatorWords ++ reservedWords) ∨ ∃ r ∈ openRules, r.accepts w = true := by
  rw [accepted, lexRules, List.any_append, Bool.or_eq_true, List.any_map, List.any_eq_true,
    List.any_eq_true]
  refine or_congr_left ⟨?_, ?_⟩
  · rintro ⟨p, hp, hw⟩
    exact ⟨p.2, (beq_iff_eq.mp hw : w = p.1) ▸ hp⟩
  · rintro ⟨t, ht⟩
    exact ⟨_, ht, beq_self_eq_true w⟩

/-- Every text is read. -/
theorem lex_total (text : List Char) : ∃ ls, Scans lexRules text ls := by
  refine scan_total (fun c => accepted_iff.mpr (.inr ?_)) text
  by_cases hc : c = '\n'
  · exact ⟨newlineRule, by simp [openRules], by simp [newlineRule, hc]⟩
  · exact ⟨otherRule, by simp [openRules], by simp [otherRule, hc]⟩

/-! ## The tokens -/

/-- A name the lexer reads as an identifier. -/
def IsName (x : String) : Prop :=
  isIdText x.toList = true ∧ x.toList ∉ reservedWords.map Prod.fst

instance decidableIsName (x : String) : Decidable (IsName x) := inferInstanceAs (Decidable (_ ∧ _))

/-- The tokens the lexer gives. -/
def Tok.Valid : Tok → Prop
  | .ID x => IsName x
  | .UINT n => n < 2 ^ 32
  | _ => True

theorem act?_word {w : List Char} {t : Lexeme}
    (h : ((operatorWords ++ reservedWords).map wordRule).find? (fun r => r.accepts w) = none) :
    act? lexRules w = some t ↔ act? openRules w = some t := by
  rw [act?, lexRules, List.find?_append, h, Option.none_or, act?]

/-- The words are read by their own rules. -/
theorem find_word {w : List Char} {r : Rule Char Lexeme}
    (h : ((operatorWords ++ reservedWords).map wordRule).find? (fun r => r.accepts w) = some r) :
    ∃ p ∈ operatorWords ++ reservedWords, r = wordRule p ∧ w = p.1 := by
  obtain ⟨p, hp, rfl⟩ := List.mem_map.mp (List.mem_of_find?_eq_some h)
  have hacc : (wordRule p).accepts w = true := by
    simpa using List.find?_some h
  exact ⟨p, hp, rfl, beq_iff_eq.mp hacc⟩

theorem find_word_none {w : List Char}
    (h : ((operatorWords ++ reservedWords).map wordRule).find? (fun r => r.accepts w) = none) :
    w ∉ reservedWords.map Prod.fst := by
  intro hw
  obtain ⟨p, hp, rfl⟩ := List.mem_map.mp hw
  have hmem : wordRule p ∈ (operatorWords ++ reservedWords).map wordRule :=
    List.mem_map_of_mem (List.mem_append_right _ hp)
  have hnot := List.find?_eq_none.mp h _ hmem
  simp [wordRule] at hnot

/-- **What the lexer gives is valid**: an identifier is no reserved word, a number fits
`unsigned int`. -/
theorem lexeme_valid {w : List Char} {t : Tok} (h : act? lexRules w = some (.token t)) : t.Valid := by
  cases hword : ((operatorWords ++ reservedWords).map wordRule).find? (fun r => r.accepts w) with
  | some r =>
    obtain ⟨p, hp, rfl, rfl⟩ := find_word hword
    rw [act?, lexRules, List.find?_append, hword] at h
    obtain rfl := Lexeme.token.inj (Option.some.inj h)
    have hall : ∀ p ∈ operatorWords ++ reservedWords, ∀ x n, p.2 ≠ .ID x ∧ p.2 ≠ .UINT n := by
      simp [operatorWords, reservedWords]
    unfold Tok.Valid
    split
    · rename_i x heq
      exact absurd heq (hall p hp x 0).1
    · rename_i n heq
      exact absurd heq (hall p hp "" n).2
    · trivial
  | none =>
    rw [act?_word hword] at h
    simp only [act?, openRules, List.find?_cons] at h
    have hmod : ∀ n, n % 2 ^ 32 < 2 ^ 32 := fun n => Nat.mod_lt _ (by decide)
    split at h
    · rename_i hid
      obtain rfl := Lexeme.token.inj (Option.some.inj h)
      refine ⟨?_, ?_⟩
      · rw [String.toList_ofList]
        exact hid
      · rw [String.toList_ofList]
        exact find_word_none hword
    · split at h
      · obtain rfl := Lexeme.token.inj (Option.some.inj h)
        exact hmod _
      · split at h
        · obtain rfl := Lexeme.token.inj (Option.some.inj h)
          exact hmod _
        · split at h
          · cases h
          · split at h
            · cases h
            · split at h <;> cases h

theorem tokens_valid {text : List Char} {ls : List Lexeme} (h : Scans lexRules text ls) :
    ∀ {ts}, tokens? ls = some ts → ∀ t ∈ ts, t.Valid := by
  induction h with
  | nil =>
    intro ts hts t ht
    obtain rfl := Option.some.inj hts
    cases ht
  | @cons w rest l ls hw hact _ ih =>
    intro ts hts t ht
    cases l with
    | token t' =>
      obtain ⟨ts', hts', rfl⟩ := Option.map_eq_some_iff.mp hts
      rcases List.mem_cons.mp ht with rfl | ht
      · exact lexeme_valid hact
      · exact ih hts' t ht
    | error => cases hts
    | newline => exact ih hts t ht
    | blank => exact ih hts t ht

/-! ## Spellings -/

/-- The spelling of a token, a number in decimal. -/
def Tok.spelling : Tok → List Char
  | .COLON => [':'] | .COMMA => [','] | .SEMICOLON => [';'] | .LPAREN => ['('] | .RPAREN => [')']
  | .LBRACE => ['{'] | .RBRACE => ['}'] | .PLUS => ['+'] | .MINUS => ['-'] | .DIV => ['/']
  | .MULT => ['*'] | .MOD => ['%'] | .GT => ['>'] | .LT => ['<'] | .GE => ['>', '=']
  | .LE => ['<', '='] | .EQ => ['=', '='] | .ASSIGN => ['='] | .NE => ['!', '=']
  | .AND => ['&', '&'] | .OR => ['|', '|'] | .BITAND => ['&'] | .BITOR => ['|'] | .BITNOT => ['~']
  | .BITXOR => ['^'] | .NOT => ['!'] | .SHL => ['<', '<'] | .SHR => ['>', '>']
  | .DEF => ['d', 'e', 'f'] | .IF => ['i', 'f'] | .ELSE => ['e', 'l', 's', 'e']
  | .DENY => ['d', 'e', 'n', 'y'] | .ALLOW => ['a', 'l', 'l', 'o', 'w'] | .ALL => ['a', 'l', 'l']
  | .EXTEND => ['e', 'x', 't', 'e', 'n', 'd']
  | .ID x => x.toList
  | .UINT n => Nat.toDigits 10 n

theorem not_word {w : List Char} (hop : w ∉ operatorWords.map Prod.fst)
    (hres : w ∉ reservedWords.map Prod.fst) :
    ((operatorWords ++ reservedWords).map wordRule).find? (fun r => r.accepts w) = none := by
  refine List.find?_eq_none.mpr fun r hr hacc => ?_
  obtain ⟨p, hp, rfl⟩ := List.mem_map.mp hr
  obtain rfl : w = p.1 := beq_iff_eq.mp hacc
  rcases List.mem_append.mp hp with hp | hp
  · exact hop (List.mem_map_of_mem hp)
  · exact hres (List.mem_map_of_mem hp)

theorem isDecimalDigit_toDigits (n : Nat) : ∀ c ∈ Nat.toDigits 10 n, isDecimalDigit c = true := by
  intro c hc
  have hdigit := Nat.isDigit_of_mem_toDigits (by decide) (by decide) hc
  simp only [Char.isDigit, Bool.and_eq_true, decide_eq_true_eq] at hdigit
  simp only [isDecimalDigit, Bool.and_eq_true, decide_eq_true_eq]
  exact hdigit

theorem isUintNum_toDigits (n : Nat) : isUintNum (Nat.toDigits 10 n) = true := by
  rw [isUintNum, Bool.and_eq_true]
  refine ⟨?_, List.all_eq_true.mpr (isDecimalDigit_toDigits n)⟩
  cases h : Nat.toDigits 10 n with
  | nil => exact absurd h Nat.toDigits_ne_nil
  | cons c cs => rfl

/-- Digits are read back. -/
theorem digitsVal_toDigits (n : Nat) : digitsVal 10 (Nat.toDigits 10 n) = n := by
  have hval : ∀ (cs : List Char), (∀ c ∈ cs, isDecimalDigit c = true) → ∀ m,
      cs.foldl (fun n c => 10 * n + digitVal c) m = Nat.ofDigitChars 10 cs m := by
    intro cs hcs
    induction cs with
    | nil => exact fun m => rfl
    | cons c cs ih =>
      intro m
      obtain ⟨hc, hcs⟩ := List.forall_mem_cons.mp hcs
      rw [List.foldl_cons, ih hcs, Nat.ofDigitChars_cons, digitVal, if_pos hc]
  rw [digitsVal, hval _ (isDecimalDigit_toDigits n), Nat.ofDigitChars_ten_toDigits]

theorem strtoul_toDigits {n : Nat} (h : n < 2 ^ 32) : strtoul (Nat.toDigits 10 n) 10 = n := by
  unfold strtoul
  have hall := List.takeWhile_eq_self_iff.mpr fun c hc =>
    decide_eq_true (digitVal_decimal (isDecimalDigit_toDigits n c hc))
  simp only [if_neg fun h : 10 = 16 ∧ _ => absurd h.1 (by decide), hall, digitsVal_toDigits]
  unfold ULONG_MAX
  omega

/-- A number is no word and no identifier. -/
theorem uint_open {w : List Char} (h : isUintNum w = true) :
    ((operatorWords ++ reservedWords).map wordRule).find? (fun r => r.accepts w) = none ∧
      isIdText w = false := by
  have hwords : ∀ p ∈ operatorWords ++ reservedWords, isUintNum p.1 = false := by decide
  refine ⟨List.find?_eq_none.mpr fun r hr hacc => ?_, ?_⟩
  · obtain ⟨p, hp, rfl⟩ := List.mem_map.mp hr
    obtain rfl : w = p.1 := beq_iff_eq.mp hacc
    rw [hwords p hp] at h
    cases h
  · cases w with
    | nil => rfl
    | cons c cs =>
      have hc : isDecimalDigit c = true :=
        List.all_eq_true.mp (Bool.and_eq_true_iff.mp h).2 c List.mem_cons_self
      simp only [isDecimalDigit, Bool.and_eq_true, decide_eq_true_eq] at hc
      have hhi : c.toNat ≤ 57 := hc.2
      have hlower : ¬ ('a' ≤ c) := fun h => by
        have : 97 ≤ c.toNat := h
        omega
      have hupper : ¬ ('A' ≤ c) := fun h => by
        have : 65 ≤ c.toNat := h
        omega
      have hline : ¬ (c = '_') := by
        rintro rfl
        exact absurd hhi (by decide)
      simp [isIdText, isAlphabet, hlower, hupper, hline]

/-- A spelling is read as its token. -/
theorem spelling_act {t : Tok} (h : t.Valid) : act? lexRules t.spelling = some (.token t) := by
  cases t with
  | ID x =>
    have hop : x.toList ∉ operatorWords.map Prod.fst := by
      intro hx
      obtain ⟨p, hp, heq⟩ := List.mem_map.mp hx
      have hall : ∀ p ∈ operatorWords, isIdText p.1 = false := by decide
      have hid := h.1
      rw [← heq, hall p hp] at hid
      cases hid
    rw [Tok.spelling, act?_word (not_word hop h.2)]
    have hid : identifierRule.accepts x.toList = true := h.1
    simp only [act?, openRules, List.find?_cons, hid, Option.map_some]
    exact congrArg (fun x => some (Lexeme.token (.ID x))) String.ofList_toList
  | UINT n =>
    obtain ⟨hword, hid⟩ := uint_open (isUintNum_toDigits n)
    rw [Tok.spelling, act?_word hword]
    have hid : identifierRule.accepts (Nat.toDigits 10 n) = false := hid
    have huint : uintRule.accepts (Nat.toDigits 10 n) = true := isUintNum_toDigits n
    have hval : strtoul (Nat.toDigits 10 n) 10 % 2 ^ 32 = n := by
      rw [strtoul_toDigits h, Nat.mod_eq_of_lt h]
    simp only [act?, openRules, List.find?_cons, hid, huint, Option.map_some]
    exact congrArg (fun n => some (Lexeme.token (.UINT n))) hval
  | _ => rfl

/-- A text with a blank in it is a blank. -/
theorem accepted_blank {w : List Char} (h : accepted lexRules w = true) (hmem : ' ' ∈ w) :
    w = [' '] := by
  rcases accepted_iff.mp h with ⟨t, ht⟩ | ⟨r, hr, hacc⟩
  · have hall : ∀ p ∈ operatorWords ++ reservedWords, ' ' ∉ p.1 := by decide
    exact absurd hmem (hall _ ht)
  · simp only [openRules, List.mem_cons, List.not_mem_nil, or_false] at hr
    rcases hr with rfl | rfl | rfl | rfl | rfl | rfl
    · cases w with
      | nil => cases hmem
      | cons c cs =>
        have hacc : (isAlphabet c && cs.all fun c => isAlphabet c || isDecimalDigit c) = true := hacc
        rw [Bool.and_eq_true, List.all_eq_true] at hacc
        rcases List.mem_cons.mp hmem with rfl | hmem
        · exact absurd hacc.1 (by decide)
        · exact absurd (hacc.2 _ hmem) (by decide)
    · exact absurd (List.all_eq_true.mp (Bool.and_eq_true_iff.mp hacc).2 _ hmem) (by decide)
    · obtain ⟨digits, rfl, hdigits⟩ := isHexUintNum_elim hacc
      simp only [List.mem_cons] at hmem
      rcases hmem with h | h | h
      · exact absurd h (by decide)
      · exact absurd h (by decide)
      · exact absurd (hdigits _ h) (by decide)
    · obtain rfl : w = ['\n'] := beq_iff_eq.mp hacc
      exact absurd hmem (by decide)
    · simp only [blankRule, Bool.or_eq_true, beq_iff_eq] at hacc
      rcases hacc with (rfl | rfl) | rfl
      · exact absurd hmem (by decide)
      · exact absurd hmem (by decide)
      · rfl
    · cases w with
      | nil => cases hmem
      | cons c cs =>
        cases cs with
        | nil =>
          rw [List.mem_singleton.mp hmem]
        | cons c' cs => cases hacc

/-- A blank ends what is before it. -/
theorem munches_blank {w : List Char} (hne : w ≠ []) (hacc : accepted lexRules w = true)
    (rest : List Char) : Munches lexRules w (' ' :: rest) := by
  refine .of_stop hne hacc fun c hc v => ?_
  obtain rfl := Option.some.inj hc
  rw [← Bool.not_eq_true]
  intro h
  have hlen := congrArg List.length (accepted_blank h (by simp))
  have hpos := List.length_pos_iff.mpr hne
  simp only [List.length_append, List.length_cons, List.length_nil] at hlen
  omega

/-- A text in which every token is followed by a blank. -/
def spell (ts : List Tok) : List Char := ts.flatMap fun t => t.spelling ++ [' ']

theorem spelling_accepted {t : Tok} (h : t.Valid) :
    t.spelling ≠ [] ∧ accepted lexRules t.spelling = true := by
  have hact := spelling_act h
  rw [act?, Option.map_eq_some_iff] at hact
  obtain ⟨r, hr, -⟩ := hact
  have hacc : accepted lexRules t.spelling = true :=
    List.any_eq_true.mpr ⟨r, List.mem_of_find?_eq_some hr, by simpa using List.find?_some hr⟩
  refine ⟨fun hnil => ?_, hacc⟩
  rw [hnil] at hacc
  exact absurd hacc (by decide)

theorem scans_spell {ts : List Tok} (h : ∀ t ∈ ts, t.Valid) :
    Scans lexRules (spell ts) (ts.flatMap fun t => [.token t, .blank]) := by
  induction ts with
  | nil => exact .nil
  | cons t ts ih =>
    obtain ⟨ht, hts⟩ := List.forall_mem_cons.mp h
    obtain ⟨hne, hacc⟩ := spelling_accepted ht
    have hblank : Munches lexRules [' '] (spell ts) := by
      refine .of_stop (by simp) (by decide) fun c _ v => ?_
      rw [← Bool.not_eq_true]
      intro h
      cases accepted_blank h (by simp)
    have htext : spell (t :: ts) = t.spelling ++ ([' '] ++ spell ts) := by
      simp [spell]
    rw [htext]
    exact .cons (munches_blank hne hacc _) (spelling_act ht) (.cons hblank (by decide) (ih hts))

/-- **Spelt tokens are read back.** -/
theorem lex_spelling {ts : List Tok} (h : ∀ t ∈ ts, t.Valid) : yylex (spell ts) = some ts := by
  rw [yylex, scan_iff.mpr (scans_spell h), Option.bind_some]
  clear h
  induction ts with
  | nil => rfl
  | cons t ts ih =>
    simp only [List.flatMap_cons, List.cons_append, List.nil_append, tokens?, ih, Option.map_some]

end SeccompPolicy
