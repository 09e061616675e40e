import SeccompPolicy.Lib.CTokens

/-!
# Text written token by token

A text is put together of pieces: words, numbers, punctuators, blanks and newlines. Printed one
after the other they need not be read as they were meant: two words run into one, and `-` in front
of `-` is a decrement. `Piece.before` says of two pieces that the first does not go on with the
second, and `separate` that none in a list does.

A program that prints C is verified in two halves: what it prints is the text of these pieces, and
these pieces are separate.

## Rules

* `separate_append`, `before_blank`: pieces behind pieces; white space ends every piece.
* `stops_before`, `not_goesOn_before`: a word, a number or a punctuator stops where the next piece
  starts.
* `lex_pieces`: the text is cut at its pieces, and their tokens are the tokens of the text.
-/

namespace CSyntax

/-- A part of a text. A punctuator is given with its spelling. -/
inductive Piece where
  | word (x : String)
  | number (n : Nat)
  | mark (cs : List Char) (p : Punct)
  | blank
  | newline
  deriving DecidableEq, Repr

/-- A newline is white space. -/
def white (c : Char) : Char := if c = '\n' then ' ' else c

namespace Piece

def chars : Piece → List Char
  | .word x => x.toList
  | .number n => Nat.toDigits 10 n
  | .mark cs _ => cs
  | .blank => [' ']
  | .newline => ['\n']

def tokens : Piece → List Token
  | .word x => [CSyntax.word x]
  | .number n => [.const n]
  | .mark _ p => [.punct p]
  | .blank | .newline => []

/-- A word is spelled as one, a punctuator as in the table. -/
def isValid : Piece → Bool
  | .word x =>
    match x.toList with
    | c :: cs => isNondigit c && cs.all isWordChar
    | [] => false
  | .mark cs p => decide ((cs, p) ∈ punctuators)
  | _ => true

/-- A word or a number stops in front of the piece. -/
def stopsText : Piece → Bool
  | .word _ | .number _ => false
  | .mark ds _ => ds.head?.all fun d => !isWordChar d && decide (d ≠ '.')
  | .blank | .newline => true

/-- A punctuator of the spelling stops in front of the piece. -/
def stopsMark (cs : List Char) : Piece → Bool
  | .mark ds _ => ds.head?.all fun d => !goesOn punctuators cs d
  | _ => true

/-- The first piece does not go on with the second one. -/
def before : Piece → Piece → Bool
  | .word _, q | .number _, q => q.stopsText
  | .mark cs _, q => q.stopsMark cs
  | _, _ => true

end Piece

/-- The text of pieces. -/
def piecesText (ps : List Piece) : List Char := ps.flatMap Piece.chars

/-- The tokens of pieces. -/
def piecesTokens (ps : List Piece) : List Token := ps.flatMap Piece.tokens

/-- Valid pieces, of which none goes on with the next one. -/
def separate : List Piece → Bool
  | [] => true
  | p :: ps => p.isValid && (ps.head?.all fun q => p.before q) && separate ps

/-- A text behind another one that does not go on with it. -/
theorem separate_append {ps qs : List Piece} (hp : separate ps = true) (hq : separate qs = true)
    (h : ∀ p ∈ ps.getLast?, ∀ q ∈ qs.head?, p.before q = true) : separate (ps ++ qs) = true := by
  induction ps with
  | nil => exact hq
  | cons p ps ih =>
    simp only [separate, Bool.and_eq_true] at hp
    simp only [List.cons_append, separate, Bool.and_eq_true]
    cases ps with
    | nil =>
      refine ⟨⟨hp.1.1, ?_⟩, hq⟩
      rw [List.nil_append]
      cases hh : qs.head? with
      | none => rfl
      | some q => exact h p rfl q hh
    | cons q ps =>
      refine ⟨⟨hp.1.1, hp.1.2⟩, ih hp.2 fun r hr => h r ?_⟩
      rwa [List.getLast?_cons_cons]

/-- White space ends every piece. -/
theorem before_blank (p : Piece) : p.before .blank = true := by
  cases p <;> rfl

/-! ## A printed text is cut at its pieces -/

theorem white_of_ne {c : Char} (h : c ≠ '\n') : white c = c := if_neg h

theorem map_white {cs : List Char} (h : ∀ c ∈ cs, c ≠ '\n') : cs.map white = cs := by
  induction cs with
  | nil => rfl
  | cons c cs ih =>
    rw [List.map_cons, white_of_ne (h c List.mem_cons_self),
      ih fun d hd => h d (List.mem_cons_of_mem c hd)]

theorem ne_newline_of_word {c : Char} (h : isWordChar c = true) : c ≠ '\n' := by
  rintro rfl
  exact absurd h (by decide)

theorem Piece.word_chars {x : String} (h : (Piece.word x).isValid = true) :
    ∃ c cs, x.toList = c :: cs ∧ isNondigit c = true ∧ ∀ d ∈ cs, isWordChar d = true := by
  simp only [Piece.isValid] at h
  split at h
  · rename_i c cs heq
    obtain ⟨hc, hcs⟩ := Bool.and_eq_true_iff.mp h
    exact ⟨c, cs, heq, hc, List.all_eq_true.mp hcs⟩
  · exact absurd h Bool.false_ne_true

theorem mark_ne_newline {cs : List Char} {p : Punct} (h : (cs, p) ∈ punctuators) :
    ∀ c ∈ cs, c ≠ '\n' := by
  have hall : (punctuators.all fun e => e.1.all fun c => decide (c ≠ '\n')) = true := by decide
  exact fun c hc => of_decide_eq_true (List.all_eq_true.mp (List.all_eq_true.mp hall _ h) c hc)

/-- The text with its newlines read as white space. -/
def whiteText (ps : List Piece) : List Char := (piecesText ps).map white

/-- The characters of a piece, a newline read as white space. -/
def Piece.shown : Piece → List Char
  | .newline => [' ']
  | p => p.chars

theorem Piece.map_white_chars {p : Piece} (h : p.isValid = true) : p.chars.map white = p.shown := by
  cases p with
  | word x =>
    obtain ⟨c, cs, hx, hc, hcs⟩ := Piece.word_chars h
    refine map_white fun d hd => ne_newline_of_word ?_
    rw [Piece.chars, hx] at hd
    rcases List.mem_cons.mp hd with rfl | hd
    · rw [isWordChar, hc, Bool.true_or]
    · exact hcs d hd
  | number n =>
    refine map_white fun d hd => ne_newline_of_word ?_
    rw [isWordChar, Nat.isDigit_of_mem_toDigits (by decide) (by decide) hd, Bool.or_true]
  | mark cs p => exact map_white (mark_ne_newline (of_decide_eq_true h))
  | blank => rfl
  | newline => rfl

theorem whiteText_cons {p : Piece} (h : p.isValid = true) (ps : List Piece) :
    whiteText (p :: ps) = p.shown ++ whiteText ps := by
  rw [whiteText, piecesText, List.flatMap_cons, List.map_append, Piece.map_white_chars h]
  rfl

/-- The first character of the text behind a piece. -/
theorem whiteText_head {ps : List Piece} (h : separate ps = true) {c : Char}
    (hc : (whiteText ps).head? = some c) : ∃ q ∈ ps.head?, q.shown.head? = some c ∧
      q.isValid = true := by
  cases ps with
  | nil => cases hc
  | cons q ps =>
    simp only [separate, Bool.and_eq_true] at h
    have hq := h.1.1
    rw [whiteText_cons hq] at hc
    have hne : q.shown ≠ [] := by
      cases q with
      | word x =>
        obtain ⟨c, cs, hx, -, -⟩ := Piece.word_chars hq
        exact fun h => List.cons_ne_nil c cs (hx.symm.trans h)
      | number n => exact Nat.toDigits_ne_nil
      | mark cs p =>
        have hall : ∀ e ∈ punctuators, e.1 ≠ [] := by decide
        exact hall _ (of_decide_eq_true hq)
      | blank => exact List.cons_ne_nil _ _
      | newline => exact List.cons_ne_nil _ _
    rw [List.head?_append_of_ne_nil _ hne] at hc
    exact ⟨q, rfl, hc, hq⟩

/-- A word or a number stops where the next piece starts. -/
theorem stops_before {ps : List Piece} (h : separate ps = true)
    (hbefore : ps.head?.all Piece.stopsText = true) : Stops (whiteText ps) := by
  intro c hc
  obtain ⟨q, hq, hhead, -⟩ := whiteText_head h hc
  rw [hq, Option.all_some] at hbefore
  cases q with
  | mark ds m =>
    have hhead : ds.head? = some c := hhead
    simpa [Piece.stopsText, hhead] using hbefore
  | blank =>
    obtain rfl := Option.some.inj hhead
    decide
  | newline =>
    obtain rfl := Option.some.inj hhead
    decide
  | word x => cases hbefore
  | number n => cases hbefore

/-- A punctuator stops where the next piece starts. -/
theorem not_goesOn_before {cs : List Char} {m : Punct} {ps : List Piece} (h : separate ps = true)
    (hm : (cs, m) ∈ punctuators) (hbefore : ps.head?.all (Piece.stopsMark cs) = true) :
    ∀ c ∈ (whiteText ps).head?, goesOn punctuators cs c = false := by
  intro c hc
  obtain ⟨q, hq, hhead, hvalid⟩ := whiteText_head h hc
  rw [hq, Option.all_some] at hbefore
  have hspace : ∀ e ∈ punctuators, goesOn punctuators e.1 ' ' = false := by decide
  cases q with
  | mark ds k =>
    have hhead : ds.head? = some c := hhead
    simpa [Piece.stopsMark, hhead] using hbefore
  | blank =>
    obtain rfl := Option.some.inj hhead
    exact hspace _ hm
  | newline =>
    obtain rfl := Option.some.inj hhead
    exact hspace _ hm
  | word x =>
    obtain ⟨d, ds, hx, hd, -⟩ := Piece.word_chars hvalid
    have hhead : x.toList.head? = some c := hhead
    rw [hx] at hhead
    obtain rfl := Option.some.inj hhead
    exact not_goesOn_word cs (by rw [isWordChar, hd, Bool.true_or])
  | number n =>
    have hmem : c ∈ Nat.toDigits 10 n := List.mem_of_head? hhead
    refine not_goesOn_word cs ?_
    rw [isWordChar, Nat.isDigit_of_mem_toDigits (by decide) (by decide) hmem, Bool.or_true]

/-- **The text is cut at its pieces.** -/
theorem lex_pieces {ps : List Piece} (h : separate ps = true) :
    lex (whiteText ps) = some (piecesTokens ps) := by
  induction ps with
  | nil => rfl
  | cons p ps ih =>
    have hps := h
    simp only [separate, Bool.and_eq_true] at hps
    obtain ⟨⟨hp, hbefore⟩, hrest⟩ := hps
    have ih := ih hrest
    rw [whiteText_cons hp, piecesTokens, List.flatMap_cons]
    cases p with
    | word x =>
      obtain ⟨c, cs, hx, hc, hcs⟩ := Piece.word_chars hp
      have hlex := lex_word hc hcs (stops_before hrest hbefore)
      rw [ih, ← hx, String.ofList_toList] at hlex
      exact hlex
    | number n =>
      have hlex := lex_number n (stops_before hrest hbefore)
      rw [ih] at hlex
      exact hlex
    | mark cs m =>
      have hm : (cs, m) ∈ punctuators := of_decide_eq_true hp
      have hlex := lex_punct hm (not_goesOn_before hrest hm hbefore)
      rw [ih] at hlex
      exact hlex
    | blank => exact (lex_space _).trans ih
    | newline => exact (lex_space _).trans ih

end CSyntax
