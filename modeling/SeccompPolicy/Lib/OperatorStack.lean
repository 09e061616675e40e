import Mathlib.Data.List.Basic

/-!
# Operator stacks

Expressions of unary and binary operators over operands, read from left to right. A grammar with
one nonterminal for them is ambiguous, and a generated parser resolves its conflicts: when a rule
can be reduced and a binary operator comes in, precedence and associativity say which goes first
(`Resolution`). `Phrase` is the grammar with the conflicts resolved: the rules at the right end of
a left operand are reduced on the operator, and the operators at the left end of a right operand
are shifted over the rule.

The parser keeps the rules whose last operand is not complete on a stack (`Pending`). A conflict
may also be resolved by an error, as `%nonassoc` does: then no phrase has the two operators so.

Everything is over an arbitrary table of operators, its actions and its resolution (`Grammar`).

## Rules

* `StackText.reduce`: what is on the stack has been read; a reduction keeps that.
* `reduceOn_text`, `reduceAll_text`: what an operator or the end reduces is a phrase.
* `reduceOn_append`, `reduceAll_append`: the stack below is left alone.
* `Pends.resolves`, `Pends.snoc`: a phrase leaves on the stack what its right end pends on.
-/

namespace OperatorStack

/-- What becomes of a rule that can be reduced when an operator can be shifted. -/
inductive Resolution where
  | shift
  | reduce
  | error
  deriving DecidableEq, Repr

/-- The rules of a grammar of expressions, by their operator. -/
inductive Rule (O P : Type*) where
  | binary (o : O)
  | unary (p : P)

/-- The operators among the tokens, the actions of their rules, and the resolution of the
conflicts. -/
structure Grammar (T E O P : Type*) where
  binary? : T → Option O
  unary? : T → Option P
  binaryNode : O → E → E → E
  unaryNode : P → E → E
  resolve : Rule O P → O → Resolution

/-- A rule whose last operand is not complete. -/
inductive Pending (E O P : Type*) where
  | binary (l : E) (o : O)
  | unary (p : P)

variable {T E O P : Type*}

/-- The rule that pends. -/
def Pending.rule : Pending E O P → Rule O P
  | .binary _ o => .binary o
  | .unary p => .unary p

namespace Grammar

variable (G : Grammar T E O P)

/-- The reduction of a rule. -/
def reduce : Pending E O P → E → E
  | .binary l o, r => G.binaryNode o l r
  | .unary p, e => G.unaryNode p e

/-- The reductions before an operator is shifted. -/
def reduceOn (o : O) : List (Pending E O P) → E → Option (List (Pending E O P) × E)
  | [], e => some ([], e)
  | f :: fs, e =>
    match G.resolve f.rule o with
    | .shift => some (f :: fs, e)
    | .reduce => reduceOn o fs (G.reduce f e)
    | .error => none

/-- The reductions at the end of the expression. -/
def reduceAll : List (Pending E O P) → E → E
  | [], e => e
  | f :: fs, e => reduceAll fs (G.reduce f e)

variable (Operand : List T → E → Prop)

/-- A phrase with its operators on the left end, the last one outermost, and its rules on the right
end, the first one innermost. -/
inductive Phrase : List T → E → List O → List (Rule O P) → Prop
  | operand {ts : List T} {e : E} : Operand ts e → Phrase ts e [] []
  | binary {t : T} {o : O} {ls rs : List T} {l r : E} {lo ro : List O} {lr rr : List (Rule O P)} :
      G.binary? t = some o → Phrase ls l lo lr → Phrase rs r ro rr →
      (∀ ρ ∈ lr, G.resolve ρ o = .reduce) → (∀ o' ∈ ro, G.resolve (.binary o) o' = .shift) →
      Phrase (ls ++ t :: rs) (G.binaryNode o l r) (lo ++ [o]) (rr ++ [.binary o])
  | unary {t : T} {p : P} {ts : List T} {e : E} {lo : List O} {rr : List (Rule O P)} :
      G.unary? t = some p → Phrase ts e lo rr → (∀ o ∈ lo, G.resolve (.unary p) o = .shift) →
      Phrase (t :: ts) (G.unaryNode p e) [] (rr ++ [.unary p])

/-- The operators can be shifted over the rule at the top of the stack. -/
def Shifts (fs : List (Pending E O P)) (os : List O) : Prop :=
  ∀ f ∈ fs.head?, ∀ o ∈ os, G.resolve f.rule o = .shift

/-- The text of the rules on the stack, up to their last operands. -/
inductive StackText : List T → List (Pending E O P) → Prop
  | nil : StackText [] []
  | binary {t : T} {o : O} {us ls : List T} {fs : List (Pending E O P)} {l : E} {lo : List O}
      {lr : List (Rule O P)} : G.binary? t = some o → StackText us fs →
      G.Phrase Operand ls l lo lr → G.Shifts fs (lo ++ [o]) → (∀ ρ ∈ lr, G.resolve ρ o = .reduce) →
      StackText (us ++ ls ++ [t]) (.binary l o :: fs)
  | unary {t : T} {p : P} {us : List T} {fs : List (Pending E O P)} : G.unary? t = some p →
      StackText us fs → StackText (us ++ [t]) (.unary p :: fs)

variable {G Operand}

/-! ## What is reduced is a phrase -/

/-- A reduction keeps the text. -/
theorem StackText.reduce {us ts : List T} {f : Pending E O P} {fs : List (Pending E O P)} {e : E}
    {os : List O} {ρs : List (Rule O P)} (hfs : G.StackText Operand us (f :: fs))
    (he : G.Phrase Operand ts e os ρs) (hshift : G.Shifts (f :: fs) os) :
    ∃ us' ts' os', us' ++ ts' = us ++ ts ∧ G.StackText Operand us' fs ∧
      G.Phrase Operand ts' (G.reduce f e) os' (ρs ++ [f.rule]) ∧ G.Shifts fs os' := by
  have hf : ∀ o ∈ os, G.resolve f.rule o = .shift := hshift f rfl
  cases hfs with
  | @binary t o us ls fs l lo lr ht hus hl hfits hlr =>
    exact ⟨us, ls ++ t :: ts, lo ++ [o], by simp, hus, .binary ht hl he hlr hf, hfits⟩
  | @unary t p us fs ht hus =>
    exact ⟨us, t :: ts, [], by simp, hus, .unary ht he hf, fun _ _ o ho => absurd ho List.not_mem_nil⟩

/-- **On an operator.** What is left of the stack has been read, then a phrase over which the operator
can be shifted. -/
theorem reduceOn_text {o : O} {fs fs' : List (Pending E O P)} {us ts : List T} {e e' : E}
    {os : List O} {ρs : List (Rule O P)} (hfs : G.StackText Operand us fs)
    (he : G.Phrase Operand ts e os ρs) (hshift : G.Shifts fs os)
    (hρs : ∀ ρ ∈ ρs, G.resolve ρ o = .reduce) (h : G.reduceOn o fs e = some (fs', e')) :
    ∃ us' ts' os' ρs', us' ++ ts' = us ++ ts ∧ G.StackText Operand us' fs' ∧
      G.Phrase Operand ts' e' os' ρs' ∧ G.Shifts fs' (os' ++ [o]) ∧
      ∀ ρ ∈ ρs', G.resolve ρ o = .reduce := by
  induction fs generalizing us ts e os ρs with
  | nil =>
    obtain ⟨rfl, rfl⟩ := Prod.mk.inj (Option.some.inj h)
    exact ⟨us, ts, os, ρs, rfl, hfs, he, fun f hf => absurd hf (by simp), hρs⟩
  | cons f fs ih =>
    unfold reduceOn at h
    split at h
    · rename_i hresolve
      obtain ⟨rfl, rfl⟩ := Prod.mk.inj (Option.some.inj h)
      refine ⟨us, ts, os, ρs, rfl, hfs, he, fun f' hf' o' ho' => ?_, hρs⟩
      obtain rfl := Option.some.inj hf'
      rcases List.mem_append.mp ho' with ho' | ho'
      · exact hshift f rfl o' ho'
      · rw [List.mem_singleton.mp ho']
        exact hresolve
    · rename_i hresolve
      obtain ⟨us₁, ts₁, os₁, htext, hus₁, he₁, hshift₁⟩ := hfs.reduce he hshift
      obtain ⟨us', ts', os', ρs', htext', hrest⟩ := ih hus₁ he₁ hshift₁ (fun ρ hρ => by
        rcases List.mem_append.mp hρ with hρ | hρ
        · exact hρs ρ hρ
        · rw [List.mem_singleton.mp hρ]
          exact hresolve) h
      exact ⟨us', ts', os', ρs', htext'.trans htext, hrest⟩
    · cases h

/-- **At the end.** All that has been read is a phrase. -/
theorem reduceAll_text {fs : List (Pending E O P)} {us ts : List T} {e : E} {os : List O}
    {ρs : List (Rule O P)} (hfs : G.StackText Operand us fs) (he : G.Phrase Operand ts e os ρs)
    (hshift : G.Shifts fs os) :
    ∃ os' ρs', G.Phrase Operand (us ++ ts) (G.reduceAll fs e) os' ρs' := by
  induction fs generalizing us ts e os ρs with
  | nil =>
    cases hfs
    exact ⟨os, ρs, he⟩
  | cons f fs ih =>
    obtain ⟨us₁, ts₁, os₁, htext, hus₁, he₁, hshift₁⟩ := hfs.reduce he hshift
    rw [← htext]
    exact ih hus₁ he₁ hshift₁

/-! ## What a phrase leaves on the stack -/

/-- The operator reduces what it is to reduce, and stops at a rule it is shifted over. -/
theorem reduceOn_append {o : O} {pend fs : List (Pending E O P)} (e : E)
    (hpend : ∀ f ∈ pend, G.resolve f.rule o = .reduce) (hshift : G.Shifts fs [o]) :
    G.reduceOn o (pend ++ fs) e = some (fs, G.reduceAll pend e) := by
  induction pend generalizing e with
  | nil =>
    cases fs with
    | nil => rfl
    | cons f fs =>
      have hf : G.resolve f.rule o = .shift := hshift f rfl o List.mem_cons_self
      simp only [List.nil_append, reduceOn, hf, reduceAll]
  | cons f pend ih =>
    obtain ⟨hf, hpend⟩ := List.forall_mem_cons.mp hpend
    simp only [List.cons_append, reduceOn, hf, reduceAll]
    exact ih (G.reduce f e) hpend

theorem reduceAll_append {pend fs : List (Pending E O P)} (e : E) :
    G.reduceAll (pend ++ fs) e = G.reduceAll fs (G.reduceAll pend e) := by
  induction pend generalizing e with
  | nil => rfl
  | cons f pend ih => exact ih (G.reduce f e)

/-- The stack pends on the rules, and comes to the phrase. -/
def Pends (G : Grammar T E O P) (pend : List (Pending E O P)) (e₀ e : E) (ρs : List (Rule O P)) :
    Prop := pend.map Pending.rule = ρs ∧ G.reduceAll pend e₀ = e

theorem Pends.resolves {pend : List (Pending E O P)} {e₀ e : E} {ρs : List (Rule O P)} {o : O}
    (h : G.Pends pend e₀ e ρs) (hρs : ∀ ρ ∈ ρs, G.resolve ρ o = .reduce) :
    ∀ f ∈ pend, G.resolve f.rule o = .reduce :=
  fun _ hf => hρs _ (h.1 ▸ List.mem_map_of_mem hf)

/-- One more rule below. -/
theorem Pends.snoc {pend : List (Pending E O P)} {e₀ e : E} {ρs : List (Rule O P)}
    (h : G.Pends pend e₀ e ρs) (f : Pending E O P) :
    G.Pends (pend ++ [f]) e₀ (G.reduce f e) (ρs ++ [f.rule]) := by
  refine ⟨by rw [List.map_append, h.1]; rfl, ?_⟩
  rw [reduceAll_append, h.2]
  rfl

end Grammar

end OperatorStack
