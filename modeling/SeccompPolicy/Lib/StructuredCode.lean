import SeccompPolicy.Lib.LabelledCode

/-!
# Structured code with labels and jumps

Code as C has it: lines, labels and two-armed branches, where a label may stand inside an arm.
What is left to execute is a list of statements: after an arm comes what follows the branch, and a
jump goes to what follows the label, arm and all (`find`). So there is no program counter and no
stack.

What a line or a condition does is up to the language (`Lang`); it may go on, jump to a label or
stop.

## Rules

* `Within text r`: what is left at some place of `text` is `r`. The places of a text are closed
  under execution.
* `Within.find`: when no label is defined twice, a jump goes to the one place with its label.
* `find_eq_none`: a jump goes nowhere exactly when its label is not there.
* `step_embed`, `reaches_embed`: code moved as a whole between other code runs as it did.
* `Alike`, `Alike.step`: runs from states that are related stay related, when the lines and
  conditions of the text keep the relation.
-/

namespace StructuredCode

open LabelledCode (Act)
open SmallStep

/-- A statement: a label, a branch on a condition of `κ`, or a line of `ι`. -/
inductive Stmt (L κ ι : Type*) where
  | label (l : L)
  | branch (cond : κ) (then_ else_ : List (Stmt L κ ι))
  | line (i : ι)

variable {L κ ι σ ο : Type*}

mutual

/-- The labels of a statement. -/
def Stmt.labels : Stmt L κ ι → List L
  | .label l => [l]
  | .branch _ t e => codeLabels t ++ codeLabels e
  | .line _ => []

/-- The labels of a text, in order. -/
def codeLabels : List (Stmt L κ ι) → List L
  | [] => []
  | s :: ss => s.labels ++ codeLabels ss

end

mutual

/-- The lines of a statement. -/
def Stmt.lines : Stmt L κ ι → List ι
  | .label _ => []
  | .branch _ t e => codeLines t ++ codeLines e
  | .line i => [i]

/-- The lines of a text, in order. -/
def codeLines : List (Stmt L κ ι) → List ι
  | [] => []
  | s :: ss => s.lines ++ codeLines ss

end

mutual

/-- The conditions of a statement. -/
def Stmt.conds : Stmt L κ ι → List κ
  | .branch c t e => c :: (codeConds t ++ codeConds e)
  | _ => []

/-- The conditions of a text, in order. -/
def codeConds : List (Stmt L κ ι) → List κ
  | [] => []
  | s :: ss => s.conds ++ codeConds ss

end

section Find

variable [DecidableEq L]

mutual

/-- What follows label `l` inside a statement. -/
def Stmt.find (l : L) : Stmt L κ ι → Option (List (Stmt L κ ι))
  | .label l' => if l' = l then some [] else none
  | .branch _ t e => (find l t).or (find l e)
  | .line _ => none

/-- What is left to execute after a jump to `l`: what follows the label up to the end of its arm,
then what follows the branch. -/
def find (l : L) : List (Stmt L κ ι) → Option (List (Stmt L κ ι))
  | [] => none
  | s :: ss =>
    match s.find l with
    | some r => some (r ++ ss)
    | none => find l ss

end

end Find

@[simp] theorem codeLabels_append (a b : List (Stmt L κ ι)) :
    codeLabels (a ++ b) = codeLabels a ++ codeLabels b := by
  induction a with
  | nil => rfl
  | cons s a ih => simp only [List.cons_append, codeLabels, ih, List.append_assoc]

@[simp] theorem codeLines_append (a b : List (Stmt L κ ι)) :
    codeLines (a ++ b) = codeLines a ++ codeLines b := by
  induction a with
  | nil => rfl
  | cons s a ih => simp only [List.cons_append, codeLines, ih, List.append_assoc]

@[simp] theorem codeConds_append (a b : List (Stmt L κ ι)) :
    codeConds (a ++ b) = codeConds a ++ codeConds b := by
  induction a with
  | nil => rfl
  | cons s a ih => simp only [List.cons_append, codeConds, ih, List.append_assoc]

@[simp] theorem codeLines_map {β : Type*} (f : β → ι) (xs : List β) :
    codeLines (xs.map fun x => (.line (f x) : Stmt L κ ι)) = xs.map f := by
  induction xs with
  | nil => rfl
  | cons x xs ih => simp only [List.map_cons, codeLines, Stmt.lines, ih, List.singleton_append]

@[simp] theorem codeLabels_map {β : Type*} (f : β → ι) (xs : List β) :
    codeLabels (xs.map fun x => (.line (f x) : Stmt L κ ι)) = [] := by
  induction xs with
  | nil => rfl
  | cons x xs ih => simp only [List.map_cons, codeLabels, Stmt.labels, ih, List.nil_append]

/-! ## Jumps -/

section Jumps

variable [DecidableEq L] {l : L} {text : List (Stmt L κ ι)}

theorem find_append (l : L) (a b : List (Stmt L κ ι)) :
    find l (a ++ b) = ((find l a).map (· ++ b)).or (find l b) := by
  induction a with
  | nil => rfl
  | cons s a ih =>
    simp only [List.cons_append, find]
    cases s.find l with
    | some r => simp
    | none => exact ih

mutual

theorem Stmt.find_eq_none (l : L) : ∀ s : Stmt L κ ι, s.find l = none ↔ l ∉ s.labels
  | .label l' => by
    by_cases h : l' = l
    · simp [Stmt.find, Stmt.labels, h]
    · simp [Stmt.find, Stmt.labels, h, Ne.symm h]
  | .branch c t e => by
    simp only [Stmt.find, Stmt.labels, Option.or_eq_none_iff, List.mem_append, not_or,
      find_eq_none l t, find_eq_none l e]
  | .line i => by simp [Stmt.find, Stmt.labels]

/-- A jump goes nowhere exactly when its label is not there. -/
theorem find_eq_none (l : L) : ∀ text : List (Stmt L κ ι), find l text = none ↔ l ∉ codeLabels text
  | [] => by simp [find, codeLabels]
  | s :: ss => by
    have hs := Stmt.find_eq_none l s
    have hss := find_eq_none l ss
    simp only [find, codeLabels, List.mem_append, not_or]
    cases h : s.find l with
    | some r => simp [← hs, h]
    | none => simp [← hs, h, hss]

end

/-- A jump that goes somewhere goes to a label of the text. -/
theorem mem_of_find {r : List (Stmt L κ ι)} (h : find l text = some r) : l ∈ codeLabels text := by
  by_contra hl
  rw [(find_eq_none l text).mpr hl] at h
  cases h

mutual

theorem Stmt.find_mem {l : L} : ∀ {s : Stmt L κ ι} {r : List (Stmt L κ ι)}, s.find l = some r →
    (∀ i ∈ codeLines r, i ∈ s.lines) ∧ ∀ c ∈ codeConds r, c ∈ s.conds
  | .label l', r, h => by
    simp only [Stmt.find, Option.ite_none_right_eq_some, Option.some.injEq] at h
    obtain ⟨-, rfl⟩ := h
    exact ⟨fun i hi => absurd hi List.not_mem_nil, fun c hc => absurd hc List.not_mem_nil⟩
  | .branch c t e, r, h => by
    simp only [Stmt.find, Option.or_eq_some_iff] at h
    simp only [Stmt.lines, Stmt.conds, List.mem_cons, List.mem_append]
    rcases h with h | ⟨-, h⟩
    · exact ⟨fun i hi => .inl ((find_mem h).1 i hi), fun c hc => .inr (.inl ((find_mem h).2 c hc))⟩
    · exact ⟨fun i hi => .inr ((find_mem h).1 i hi), fun c hc => .inr (.inr ((find_mem h).2 c hc))⟩

/-- What is left after a jump has lines and conditions of the text only. -/
theorem find_mem {l : L} : ∀ {text r : List (Stmt L κ ι)}, find l text = some r →
    (∀ i ∈ codeLines r, i ∈ codeLines text) ∧ ∀ c ∈ codeConds r, c ∈ codeConds text
  | [], r, h => by cases h
  | s :: ss, r, h => by
    simp only [find] at h
    simp only [codeLines, codeConds, List.mem_append]
    cases hs : s.find l with
    | none =>
      rw [hs] at h
      exact ⟨fun i hi => .inr ((find_mem h).1 i hi), fun c hc => .inr ((find_mem h).2 c hc)⟩
    | some r' =>
      rw [hs] at h
      obtain rfl := Option.some.inj h
      simp only [codeLines_append, codeConds_append, List.mem_append]
      exact ⟨fun i hi => hi.imp_left ((Stmt.find_mem hs).1 i),
        fun c hc => hc.imp_left ((Stmt.find_mem hs).2 c)⟩

end

end Jumps

/-- `r` is what is left to execute at some place of the text. -/
inductive Within (text : List (Stmt L κ ι)) : List (Stmt L κ ι) → Prop
  | here : Within text text
  | next {s : Stmt L κ ι} {r : List (Stmt L κ ι)} : Within text (s :: r) → Within text r
  | then_ {c : κ} {t e r : List (Stmt L κ ι)} : Within text (.branch c t e :: r) →
    Within text (t ++ r)
  | else_ {c : κ} {t e r : List (Stmt L κ ι)} : Within text (.branch c t e :: r) →
    Within text (e ++ r)

/-- What is left behind a part of what is left is a place as well. -/
theorem Within.drop {text r : List (Stmt L κ ι)} (a : List (Stmt L κ ι))
    (h : Within text (a ++ r)) : Within text r := by
  induction a with
  | nil => exact h
  | cons s a ih => exact ih h.next

section Position

variable [DecidableEq L] {text r : List (Stmt L κ ι)}

/-- At a place of a text without repeated labels, a jump to a label that follows goes where it
does. -/
theorem Within.find_of_find (hnd : (codeLabels text).Nodup) (h : Within text r) :
    (codeLabels r).Nodup ∧ ∀ l r', find l r = some r' → find l text = some r' := by
  induction h with
  | here => exact ⟨hnd, fun _ _ h => h⟩
  | @next s r _ ih =>
    rw [codeLabels, List.nodup_append] at ih
    obtain ⟨⟨-, hr, hdis⟩, hfind⟩ := ih
    refine ⟨hr, fun l r' hr' => hfind l r' ?_⟩
    have hs : s.find l = none :=
      (Stmt.find_eq_none l s).mpr fun hl => hdis l hl l (mem_of_find hr') rfl
    rw [find, hs]
    exact hr'
  | @then_ c t e r _ ih =>
    simp only [codeLabels, Stmt.labels, List.append_assoc, List.nodup_append, List.mem_append]
      at ih
    obtain ⟨⟨ht, ⟨-, hr, hdis'⟩, hdis⟩, hfind⟩ := ih
    refine ⟨?_, fun l r' hr' => hfind l r' ?_⟩
    · rw [codeLabels_append, List.nodup_append]
      exact ⟨ht, hr, fun a ha b hb => hdis a ha b (.inr hb)⟩
    · rw [find_append] at hr'
      simp only [find, Stmt.find]
      cases hft : find l t with
      | some y =>
        rw [hft] at hr'
        simpa using hr'
      | none =>
        rw [hft] at hr'
        have hr'' : find l r = some r' := by simpa using hr'
        have he : find l e = none :=
          (find_eq_none l e).mpr fun hl => hdis' l hl l (mem_of_find hr'') rfl
        simp [he, hr'']
  | @else_ c t e r _ ih =>
    simp only [codeLabels, Stmt.labels, List.append_assoc, List.nodup_append, List.mem_append]
      at ih
    obtain ⟨⟨-, ⟨he, hr, hdis'⟩, hdis⟩, hfind⟩ := ih
    refine ⟨?_, fun l r' hr' => hfind l r' ?_⟩
    · rw [codeLabels_append, List.nodup_append]
      exact ⟨he, hr, hdis'⟩
    · have hl : l ∈ codeLabels e ∨ l ∈ codeLabels r := by
        have := mem_of_find hr'
        rwa [codeLabels_append, List.mem_append] at this
      have ht : find l t = none := (find_eq_none l t).mpr fun ht => hdis l ht l hl rfl
      rw [find_append] at hr'
      simp only [find, Stmt.find, ht, Option.none_or]
      cases hfe : find l e with
      | some y =>
        rw [hfe] at hr'
        simpa using hr'
      | none =>
        rw [hfe] at hr'
        simpa using hr'

/-- **A jump to a label** of a text that defines no label twice goes to the place with that
label. -/
theorem Within.find {l : L} (hnd : (codeLabels text).Nodup) (h : Within text (.label l :: r)) :
    StructuredCode.find l text = some r :=
  (h.find_of_find hnd).2 l r (by simp [StructuredCode.find, Stmt.find])

end Position

/-! ## Execution -/

/-- What the lines and the conditions do. -/
structure Lang (L κ ι σ ο : Type*) where
  act : ι → σ → Act L σ ο
  test : κ → σ → Bool × σ
  finish : σ → ο
  dangling : L → σ → ο

section Run

variable [DecidableEq L] (p : Lang L κ ι σ ο) (text : List (Stmt L κ ι))

/-- One step of the execution of a text: what is left, and the state. -/
def Lang.step : List (Stmt L κ ι) × σ → (List (Stmt L κ ι) × σ) ⊕ ο
  | ([], s) => .inr (p.finish s)
  | (.label _ :: rest, s) => .inl (rest, s)
  | (.branch c t e :: rest, s) =>
    .inl ((if (p.test c s).1 then t else e) ++ rest, (p.test c s).2)
  | (.line i :: rest, s) =>
    match p.act i s with
    | .next s' => .inl (rest, s')
    | .jump l s' =>
      match find l text with
      | some r => .inl (r, s')
      | none => .inr (p.dangling l s')
    | .stop o => .inr o

variable {p text} {i : ι} {rest : List (Stmt L κ ι)} {s s' : σ} {l : L} {o : ο}

theorem step_next (h : p.act i s = .next s') : p.step text (.line i :: rest, s) = .inl (rest, s') := by
  simp only [Lang.step, h]

theorem step_jump {r : List (Stmt L κ ι)} (h : p.act i s = .jump l s') (hr : find l text = some r) :
    p.step text (.line i :: rest, s) = .inl (r, s') := by
  simp only [Lang.step, h, hr]

theorem step_stop (h : p.act i s = .stop o) : p.step text (.line i :: rest, s) = .inr o := by
  simp only [Lang.step, h]

/-- How a run can stop: past the end, at a line, or at a jump to no label. -/
theorem step_inr {c : List (Stmt L κ ι) × σ} (h : p.step text c = .inr o) :
    (c.1 = [] ∧ o = p.finish c.2) ∨
    (∃ i rest, c.1 = .line i :: rest ∧ p.act i c.2 = .stop o) ∨
    (∃ i rest l s', c.1 = .line i :: rest ∧ p.act i c.2 = .jump l s' ∧ find l text = none ∧
      o = p.dangling l s') := by
  obtain ⟨rest, s⟩ := c
  cases rest with
  | nil => exact .inl ⟨rfl, (Sum.inr.inj h).symm⟩
  | cons st rest =>
    cases st with
    | label l => cases h
    | branch c t e => cases h
    | line i =>
      cases ha : p.act i s with
      | next s' =>
        rw [step_next ha] at h
        cases h
      | stop o' =>
        rw [step_stop ha] at h
        cases h
        exact .inr (.inl ⟨i, rest, rfl, ha⟩)
      | jump l s' =>
        simp only [Lang.step, ha] at h
        cases hf : find l text with
        | some r => simp [hf] at h
        | none =>
          simp only [hf] at h
          exact .inr (.inr ⟨i, rest, l, s', rfl, ha, hf, (Sum.inr.inj h).symm⟩)

/-- **Code between other code.** A step of `text` is a step of `pre ++ text ++ post`, when `pre`
defines none of its labels. -/
theorem step_embed {pre post : List (Stmt L κ ι)} (hpre : ∀ l ∈ codeLabels text, l ∉ codeLabels pre)
    {c c' : List (Stmt L κ ι) × σ} (h : p.step text c = .inl c') :
    p.step (pre ++ (text ++ post)) (c.1 ++ post, c.2) = .inl (c'.1 ++ post, c'.2) := by
  obtain ⟨rest, s⟩ := c
  cases rest with
  | nil => cases h
  | cons st rest =>
    cases st with
    | label l =>
      obtain rfl := Sum.inl.inj h
      rfl
    | branch c t e =>
      obtain rfl := Sum.inl.inj h
      simp only [List.cons_append, Lang.step, List.append_assoc]
    | line i =>
      cases ha : p.act i s with
      | next s' =>
        rw [step_next ha] at h
        obtain rfl := Sum.inl.inj h
        exact step_next ha
      | stop o =>
        rw [step_stop ha] at h
        cases h
      | jump l s' =>
        simp only [Lang.step, ha] at h
        cases hf : find l text with
        | none => simp [hf] at h
        | some r =>
          simp only [hf] at h
          obtain rfl := Sum.inl.inj h
          have hl : l ∈ codeLabels text := mem_of_find hf
          refine step_jump ha ?_
          rw [find_append, (find_eq_none l pre).mpr (hpre l hl), find_append, hf]
          rfl

/-- **Code between other code runs as it did.** -/
theorem reaches_embed {pre post : List (Stmt L κ ι)}
    (hpre : ∀ l ∈ codeLabels text, l ∉ codeLabels pre) {c c' : List (Stmt L κ ι) × σ}
    (h : Reaches (p.step text) c c') :
    Reaches (p.step (pre ++ (text ++ post))) (c.1 ++ post, c.2) (c'.1 ++ post, c'.2) := by
  induction h with
  | refl => exact .refl
  | tail _ hs ih => exact ih.trans (.single (step_embed hpre hs))

/-! ## Two runs -/

/-- Two actions of one kind, with related states. -/
inductive ActRel (E : σ → σ → Prop) (F : ο → ο → Prop) : Act L σ ο → Act L σ ο → Prop
  | next {s s' : σ} : E s s' → ActRel E F (.next s) (.next s')
  | jump (l : L) {s s' : σ} : E s s' → ActRel E F (.jump l s) (.jump l s')
  | stop {o o' : ο} : F o o' → ActRel E F (.stop o) (.stop o')

/-- The lines and conditions left to execute are of the text, and the states are related. -/
structure Alike (text : List (Stmt L κ ι)) (E : σ → σ → Prop) (c c' : List (Stmt L κ ι) × σ) :
    Prop where
  rest : c'.1 = c.1
  lines : ∀ i ∈ codeLines c.1, i ∈ codeLines text
  conds : ∀ k ∈ codeConds c.1, k ∈ codeConds text
  state : E c.2 c'.2

variable {E : σ → σ → Prop} {F : ο → ο → Prop}

/-- **One step of both runs.** -/
theorem Alike.step (hact : ∀ i ∈ codeLines text, ∀ s s', E s s' → ActRel E F (p.act i s) (p.act i s'))
    (htest : ∀ k ∈ codeConds text, ∀ s s', E s s' →
      (p.test k s).1 = (p.test k s').1 ∧ E (p.test k s).2 (p.test k s').2)
    (hfinish : ∀ s s', E s s' → F (p.finish s) (p.finish s'))
    (hdangling : ∀ l s s', E s s' → F (p.dangling l s) (p.dangling l s'))
    {c c' : List (Stmt L κ ι) × σ} (h : Alike text E c c') :
    Sum.LiftRel (Alike text E) F (p.step text c) (p.step text c') := by
  obtain ⟨rest, s⟩ := c
  obtain ⟨rest', s'⟩ := c'
  obtain ⟨rfl, hlines, hconds, hs⟩ := h
  cases rest' with
  | nil => exact .inr (hfinish s s' hs)
  | cons st rest =>
    simp only [codeLines, codeConds, List.mem_append] at hlines hconds
    have hrest := fun j hj => hlines j (.inr hj)
    have hrest' := fun k hk => hconds k (.inr hk)
    cases st with
    | label l => exact .inl ⟨rfl, hrest, hrest', hs⟩
    | branch k t e =>
      simp only [Stmt.lines, Stmt.conds, List.mem_cons, List.mem_append] at hlines hconds
      obtain ⟨hb, hE⟩ := htest k (hconds k (.inl (.inl rfl))) s s' hs
      refine .inl ⟨by simp only [hb], fun j hj => ?_, fun k' hk' => ?_, hE⟩
      · rw [codeLines_append, List.mem_append] at hj
        refine hlines j (hj.imp_left fun hj => ?_)
        split at hj
        · exact .inl hj
        · exact .inr hj
      · rw [codeConds_append, List.mem_append] at hk'
        refine hconds k' (hk'.imp_left fun hk' => .inr ?_)
        split at hk'
        · exact .inl hk'
        · exact .inr hk'
    | line i =>
      have key := hact i (hlines i (.inl (by simp [Stmt.lines]))) s s' hs
      simp only [Lang.step]
      generalize p.act i s = a, p.act i s' = a' at key ⊢
      cases key with
      | next hE => exact .inl ⟨rfl, hrest, hrest', hE⟩
      | stop hF => exact .inr hF
      | jump l hE =>
        simp only
        cases hf : find l text with
        | none => exact .inr (hdangling l _ _ hE)
        | some r => exact .inl ⟨rfl, (find_mem hf).1, (find_mem hf).2, hE⟩

end Run

end StructuredCode
