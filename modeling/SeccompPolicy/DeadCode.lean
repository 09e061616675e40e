import SeccompPolicy.Passes
import SeccompPolicy.IRGenCorrect

/-!
# What merging labels and eliminating dead code do to a program

The source says of `EliminateDeadCode` that it eliminates dead code after return. This module says
what it does to the meaning of a list, and for which bodies that is nothing.

`MergeLabels` keeps the meaning of a list whose labels are distinct (`mergeLabels_scan`): a run of
the merged list passes fewer labels and is otherwise the run of the list.

The first loop of `EliminateDeadCode` means to delete what follows a return or a direct jump. Its
test for the jump is on the instruction itself, so it deletes every direct jump of the list
(`eliminateAfterReturn_scan`), and with it the jumps over the else branches. The rest of the pass
keeps the meaning (`eliminateDeadCodeImpl_scan`). So the list means afterwards what the body means
when a then branch that runs off its end goes on into its else branch.

## Results

* `mergeLabels_scan`: `MergeLabels` is correct, for the list and for the list without its direct
  jumps.
* `eliminateDeadCode_scan`: the list is read afterwards as if its direct jumps were not there.
* `eliminated_runs`: the list of a body does what the body does under `execAllWith true`.
* `eliminateDeadCode_preserves_iff`: the pass preserves a body exactly when this second meaning is
  the meaning of the body, from the state at hand.
* `readmeOpen_preserved`, `fallingThen_not_preserved`: a body of `README.md` that is preserved,
  and a body that allows before the pass and denies after it.

Only the first instruction of a list is safe from the first loop when it is a direct jump; a
generated list never starts with one (`all_headOK`, `mergeLabels_headOK`).
-/

namespace SeccompPolicy

open LabelledCode

variable {V : Type*} {D : Domain V} {h : Helpers V}

/-! ## States up to the labels passed -/

/-- Equal but for what the log says besides the actions. -/
structure IRState.Same (s s' : IRState V) : Prop where
  args : s'.args = s.args
  regs : s'.regs = s.regs
  acts : actions s'.log = actions s.log

namespace IRState.Same

variable {s s' : IRState V}

theorem refl (s : IRState V) : s.Same s := ⟨rfl, rfl, rfl⟩

theorem env (hs : s.Same s') : s'.env = s.env := by
  simp only [IRState.env, hs.args, hs.acts]

theorem read (hs : s.Same s') (v : IRValue) : s'.read D v = s.read D v := by
  cases v <;> simp only [IRState.read, hs.args, hs.regs]

theorem record_left (hs : s.Same s') (l : String) : (s.record (.enter l)).Same s' :=
  ⟨hs.args, hs.regs, by simpa [IRState.record] using hs.acts⟩

theorem record_right (hs : s.Same s') (l : String) : s.Same (s'.record (.enter l)) :=
  ⟨hs.args, hs.regs, by simpa [IRState.record] using hs.acts⟩

theorem record (hs : s.Same s') (e : Event V) : (s.record e).Same (s'.record e) :=
  ⟨hs.args, hs.regs, by simp only [IRState.record, actions_append, hs.acts]⟩

theorem setReg (hs : s.Same s') (id : Nat) (v : V) : (s.setReg id v).Same (s'.setReg id v) :=
  ⟨hs.args, by simp only [IRState.setReg, hs.regs], hs.acts⟩

theorem assign (hs : s.Same s') (x : String) (v : V) : (s.assign x v).Same (s'.assign x v) :=
  ⟨by simp only [IRState.assign, hs.args], hs.regs,
    by simp only [IRState.assign, IRState.record, actions_append, hs.acts]⟩

end IRState.Same

/-- Two effects that agree up to renaming the label jumped to. -/
def ActSame (ρ : String → String) :
    Act String (IRState V) (Outcome × IRState V) → Act String (IRState V) (Outcome × IRState V) → Prop
  | .next t, .next t' => t.Same t'
  | .jump l t, .jump l' t' => l' = ρ l ∧ t.Same t'
  | .stop r, .stop r' => r'.1 = r.1 ∧ r.2.Same r'.2
  | _, _ => False

/-- An instruction with its targets renamed has the same effect, up to the renaming. -/
theorem irAct_same (ρ : String → String) (i : Instruction) {s s' : IRState V} (hs : s.Same s') :
    ActSame ρ (irAct D h i s) (irAct D h (i.renameTargets ρ) s') := by
  cases i with
  | arith id op a b =>
    simp only [Instruction.renameTargets, irAct, IRState.compute, hs.read]
    exact hs.setReg id _
  | call id f ps =>
    simp only [Instruction.renameTargets, irAct, IRState.callHelper, hs.args, hs.env]
    exact (hs.record _).setReg id _
  | store src dst =>
    cases dst with
    | mem x =>
      simp only [Instruction.renameTargets, irAct, hs.read]
      exact hs.assign x _
    | _ => exact ⟨rfl, hs⟩
  | ret id rval => exact ⟨rfl, hs⟩
  | branch op a b t f =>
    simp only [Instruction.renameTargets, irAct, hs.read]
    by_cases hop : op = .INVALID
    · simp only [if_pos hop]
      exact ⟨rfl, hs⟩
    · simp only [if_neg hop]
      refine ⟨?_, hs.record _⟩
      split <;> rfl
  | label l => exact hs.record _

/-! ## `MergeLabels` -/

/-- The labels a list starts with. -/
def leadLabels : List Instruction → List String
  | .label l :: code => l :: leadLabels code
  | _ => []

theorem leadLabels_of_none {i : Instruction} (hi : i.label? = none) (code : List Instruction) :
    leadLabels (i :: code) = [] := by
  cases i <;> first | rfl | simp [Instruction.label?] at hi

theorem eraseLabels_of_none {i : Instruction} (hi : i.label? = none) (prev : Option String)
    (code : List Instruction) : eraseLabels prev (i :: code) =
      (i :: (eraseLabels none code).1, (eraseLabels none code).2) := by
  cases prev <;> cases i <;> first | rfl | simp [Instruction.label?] at hi

/-- `ρ` sends every label of the list to the first label of its run, the run the list starts in
the middle of having first label `prev`. -/
def Respects (ρ : String → String) : Option String → List Instruction → Prop
  | _, [] => True
  | some p, .label l :: code => ρ l = p ∧ Respects ρ (some p) code
  | none, .label l :: code => ρ l = l ∧ Respects ρ (some l) code
  | _, _ :: code => Respects ρ none code

theorem respects_of_none {ρ : String → String} {i : Instruction} (hi : i.label? = none)
    {prev : Option String} {code : List Instruction} (hr : Respects ρ prev (i :: code)) :
    Respects ρ none code := by
  cases prev <;> cases i <;> first | exact hr | simp [Instruction.label?] at hi

/-- The labels a list starts with belong to the run it starts in. -/
theorem respects_lead {ρ : String → String} {p l : String} {code : List Instruction}
    (hr : Respects ρ (some p) code) (hl : l ∈ leadLabels code) : ρ l = p := by
  induction code with
  | nil => simp [leadLabels] at hl
  | cons i code ih =>
    cases i with
    | label l₁ =>
      obtain ⟨hρ, hr⟩ := hr
      rcases List.mem_cons.mp hl with rfl | hl
      · exact hρ
      · exact ih hr hl
    | _ => simp [leadLabels] at hl

/-- `MergeLabels` erases, and adds nothing. -/
theorem eraseLabels_sublist (prev : Option String) (code : List Instruction) :
    (eraseLabels prev code).1.Sublist code := by
  induction code generalizing prev with
  | nil => cases prev <;> exact .slnil
  | cons i code ih =>
    by_cases hi : i.label? = none
    · simp only [eraseLabels_of_none hi]
      exact (ih none).cons_cons i
    · cases i with
      | label l₀ =>
        cases prev with
        | none => exact (ih (some l₀)).cons_cons _
        | some p => exact (ih (some p)).cons _
      | _ => exact absurd rfl hi

theorem irLabels_eraseLabels (prev : Option String) (code : List Instruction) :
    (irLabels (eraseLabels prev code).1).Sublist (irLabels code) :=
  (eraseLabels_sublist prev code).filterMap _

/-- A label outside the run the list starts in is sent to a label that is kept. -/
theorem respects_kept {ρ : String → String} {l : String} (code : List Instruction)
    (prev : Option String) (hr : Respects ρ prev code) (hl : l ∈ irLabels code) :
    (prev.isSome ∧ l ∈ leadLabels code) ∨ ρ l ∈ irLabels (eraseLabels prev code).1 := by
  induction code generalizing prev with
  | nil => simp at hl
  | cons i code ih =>
    rw [irLabels_cons, List.mem_append, Option.mem_toList] at hl
    by_cases hi : i.label? = none
    · simp only [eraseLabels_of_none hi]
      rw [irLabels_cons, List.mem_append]
      have hl := hl.resolve_left (by simp [hi])
      have := ih none (respects_of_none hi hr) hl
      exact .inr (.inr (this.resolve_left (by simp)))
    · cases i with
      | label l₀ =>
        have hl : l₀ = l ∨ l ∈ irLabels code := hl.imp_left Option.some.inj
        cases prev with
        | none =>
          obtain ⟨hρ, hr⟩ := hr
          simp only [eraseLabels, irLabels_cons, List.mem_append, Option.mem_toList]
          rcases hl with rfl | hl
          · exact .inr (.inl (congrArg some hρ.symm))
          · rcases ih (some l₀) hr hl with ⟨-, hlead⟩ | hm
            · exact .inr (.inl (congrArg some (respects_lead hr hlead).symm))
            · exact .inr (.inr hm)
        | some p =>
          obtain ⟨hρ, hr⟩ := hr
          rcases hl with rfl | hl
          · exact .inl ⟨rfl, List.mem_cons_self⟩
          · rcases ih (some p) hr hl with ⟨-, hlead⟩ | hm
            · exact .inl ⟨rfl, List.mem_cons_of_mem _ hlead⟩
            · exact .inr hm
      | _ => exact absurd rfl hi

theorem respects_mem {ρ : String → String} {l : String} (code : List Instruction)
    (prev : Option String) (hr : Respects ρ prev code) (hl : l ∈ irLabels code) :
    (prev.isSome ∧ l ∈ leadLabels code) ∨ ρ l ∈ irLabels code :=
  (respects_kept code prev hr hl).imp_right fun h => (irLabels_eraseLabels prev code).subset h

/-- The label the merged code looks for when the code looks for `l`: none when `l` belongs to the
run whose first label has been found already. -/
def mergedMode (ρ : String → String) (prev : Option String) (code : List Instruction) :
    Option String → Option String
  | none => none
  | some l => if prev.isSome ∧ l ∈ leadLabels code then none else some (ρ l)

/-- At the start of a run of labels a label is looked for under its new name. -/
theorem mergedMode_fresh (ρ : String → String) (code : List Instruction) (m : Option String) :
    mergedMode ρ none code m = m.map ρ := by
  cases m <;> simp [mergedMode]

/-- The second run halts as the first one does, up to the labels passed. -/
def HaltsSame (D : Domain V) (h : Helpers V)
    (r r' : Except (Outcome × IRState V) (Option String × IRState V)) : Prop :=
  ∀ o t, (irLang D h).ScanHalts r (o, t) → ∃ t', (irLang D h).ScanHalts r' (o, t') ∧ t.Same t'

/-- Scanning the merged list does what scanning the list does, from any mode and state. -/
def Merges (D : Domain V) (h : Helpers V) (ρ : String → String) (falls : Bool)
    (prev : Option String) (code : List Instruction) : Prop :=
  ∀ (m : Option String) (s s' : IRState V), s.Same s' →
    HaltsSame D h ((irLang D h).scan (dropJumps falls code) m s)
      ((irLang D h).scan (dropJumps falls
        ((eraseLabels prev code).1.map (Instruction.renameTargets ρ))) (mergedMode ρ prev code m) s')

section Merge

variable {ρ : String → String} {falls : Bool} {code : List Instruction}

theorem merges_nil (prev : Option String) : Merges D h ρ falls prev [] := by
  intro m s s' hs o t ho
  simp only [dropJumps_nil, Lang.scan_nil] at ho
  cases m with
  | some l => exact absurd ho id
  | none =>
    obtain ⟨rfl, rfl⟩ := Prod.mk.inj ho
    refine ⟨s', ?_, hs⟩
    cases prev <;> simp [eraseLabels, mergedMode, Lang.ScanHalts, irLang]

/-- A label inside a run is erased. -/
theorem merges_erased {p l₀ : String} (ih : Merges D h ρ falls (some p) code) :
    Merges D h ρ falls (some p) (.label l₀ :: code) := by
  intro m s s' hs
  rw [dropJumps_cons rfl]
  cases m with
  | none =>
    rw [scan_label_exec]
    exact ih none _ s' (hs.record_left l₀)
  | some l =>
    by_cases hl : l = l₀
    · subst hl
      rw [scan_label]
      have : mergedMode ρ (some p) (.label l :: code) (some l) = none := by
        simp [mergedMode, leadLabels]
      rw [this]
      exact ih none _ s' (hs.record_left l)
    · rw [scan_label_pass hl]
      have : mergedMode ρ (some p) (.label l₀ :: code) (some l) =
          mergedMode ρ (some p) code (some l) := by
        simp [mergedMode, leadLabels, hl]
      rw [this]
      exact ih (some l) s s' hs

/-- A label that starts a run is kept. -/
theorem merges_kept {l₀ : String} (hl₀ : l₀ ∉ irLabels code) (hρ : ρ l₀ = l₀)
    (hr : Respects ρ (some l₀) code) (ih : Merges D h ρ falls (some l₀) code) :
    Merges D h ρ falls none (.label l₀ :: code) := by
  intro m s s' hs
  have hcode : dropJumps falls ((eraseLabels none (.label l₀ :: code)).1.map
      (Instruction.renameTargets ρ)) = .label l₀ ::
      dropJumps falls ((eraseLabels (some l₀) code).1.map (Instruction.renameTargets ρ)) :=
    dropJumps_cons rfl falls _
  rw [dropJumps_cons rfl, hcode]
  cases m with
  | none =>
    simp only [mergedMode, scan_label_exec]
    exact ih none _ _ (hs.record _)
  | some l =>
    rw [mergedMode_fresh, Option.map_some]
    by_cases hl : l = l₀
    · subst hl
      rw [hρ, scan_label, scan_label]
      exact ih none _ _ (hs.record _)
    rw [scan_label_pass hl]
    by_cases hlead : l ∈ leadLabels code
    · -- `l` is in the run of `l₀`: the merged code has found it
      rw [respects_lead hr hlead, scan_label]
      have : mergedMode ρ (some l₀) code (some l) = none := by simp [mergedMode, hlead]
      rw [← this]
      exact ih (some l) _ _ (hs.record_right l₀)
    · intro o t ho
      have hm : l ∈ irLabels code := by
        have := (irLang D h).mem_labels_of_scanHalts ho
        rwa [irLang_labels, irLabels_dropJumps] at this
      have hne : ρ l ≠ l₀ := by
        rintro rfl
        rcases respects_mem code _ hr hm with ⟨-, hlead'⟩ | hm'
        · exact hlead hlead'
        · exact hl₀ hm'
      rw [scan_label_pass hne]
      have : mergedMode ρ (some l₀) code (some l) = some (ρ l) := by simp [mergedMode, hlead]
      rw [← this]
      exact ih (some l) s s' hs o t ho

/-- Any other instruction is kept and ends the run. -/
theorem merges_other {i : Instruction} (hi : i.label? = none) (prev : Option String)
    (ih : Merges D h ρ falls none code) : Merges D h ρ falls prev (i :: code) := by
  intro m s s' hs
  have hmode : mergedMode ρ prev (i :: code) m = m.map ρ := by
    cases m <;> simp [mergedMode, leadLabels_of_none hi]
  have hri : (i.renameTargets ρ).isDirectJMP = i.isDirectJMP := by cases i <;> rfl
  have hrl : (i.renameTargets ρ).label? = none := by cases i <;> first | rfl | exact hi
  simp only [eraseLabels_of_none hi, List.map_cons, hmode]
  by_cases hj : falls = true ∧ i.isDirectJMP = true
  · -- both lists lose the jump
    obtain ⟨rfl, hj⟩ := hj
    have h1 : dropJumps true (i :: code) = dropJumps true code := by simp [dropJumps, hj]
    have h2 : ∀ c, dropJumps true (i.renameTargets ρ :: c) = dropJumps true c := by
      simp [dropJumps, hri, hj]
    rw [h1, h2, ← mergedMode_fresh ρ code]
    exact ih m s s' hs
  have hk : ∀ (j : Instruction) c, j.isDirectJMP = i.isDirectJMP →
      dropJumps falls (j :: c) = j :: dropJumps falls c := by
    intro j c hji
    cases falls with
    | false => rfl
    | true => exact dropJumps_cons (by simpa [hji] using hj) true c
  rw [hk i _ rfl, hk _ _ hri]
  cases m with
  | some l =>
    have h1 : (irLang D h).label? i ≠ some l := by rw [show (irLang D h).label? i = none from hi]; simp
    have h2 : (irLang D h).label? (i.renameTargets ρ) ≠ some (ρ l) := by
      rw [show (irLang D h).label? (i.renameTargets ρ) = none from hrl]; simp
    rw [Lang.scan_pass _ h1, Option.map_some, Lang.scan_pass _ h2]
    exact ih (some l) s s' hs
  | none =>
    rw [Option.map_none, Lang.scan_exec, Lang.scan_exec]
    have ha := irAct_same (D := D) (h := h) ρ i hs
    cases hx : irAct D h i s <;> cases hx' : irAct D h (i.renameTargets ρ) s' <;>
      simp only [hx, hx', ActSame] at ha <;> simp only [irLang, hx, hx']
    case next.next t t' => exact ih none _ _ ha
    case jump.jump l t l' t' =>
      obtain ⟨rfl, ha⟩ := ha
      exact ih (some l) _ _ ha
    case stop.stop r r' =>
      intro o t ho
      obtain rfl : r = (o, t) := ho
      exact ⟨r'.2, Prod.ext ha.1 rfl, ha.2⟩

/-- **Merging labels keeps the meaning** of a list with distinct labels. The induction is on the
list; `prev` is the first label of the run the list starts in the middle of. -/
theorem eraseLabels_scan (code : List Instruction) (prev : Option String)
    (hnd : (irLabels code).Nodup) (hr : Respects ρ prev code) :
    Merges D h ρ falls prev code := by
  induction code generalizing prev with
  | nil => exact merges_nil prev
  | cons i code ih =>
    rw [irLabels_cons] at hnd
    by_cases hi : i.label? = none
    · rw [hi] at hnd
      exact merges_other hi prev (ih none hnd (respects_of_none hi hr))
    · cases i with
      | label l₀ =>
        obtain ⟨hl₀, hnd⟩ := List.nodup_cons.mp hnd
        cases prev with
        | none => exact merges_kept hl₀ hr.1 hr.2 (ih (some l₀) hnd hr.2)
        | some p => exact merges_erased (ih (some p) hnd hr.2)
      | _ => exact absurd rfl hi

end Merge

/-! ### The map of the pass -/

/-- A label that is not in the list is not in the map. -/
theorem eraseLabels_keys (prev : Option String) (code : List Instruction) {l : String}
    (hl : l ∉ irLabels code) : (eraseLabels prev code).2.lookup l = none := by
  induction code generalizing prev with
  | nil => cases prev <;> rfl
  | cons i code ih =>
    rw [irLabels_cons, List.mem_append, not_or] at hl
    by_cases hi : i.label? = none
    · simpa only [eraseLabels_of_none hi] using ih none hl.2
    · cases i with
      | label l₀ =>
        cases prev with
        | none => exact ih (some l₀) hl.2
        | some p =>
          have hne : l ≠ l₀ := fun e => hl.1 (e ▸ List.mem_singleton_self _)
          simp only [eraseLabels]
          rw [List.lookup_append, ih (some p) hl.2, Option.none_or, List.lookup_cons,
            beq_eq_false_iff_ne.mpr hne, List.lookup_nil]
      | _ => exact absurd rfl hi

theorem newLabelOf_of_none {M : List (String × String)} {l : String} (hM : M.lookup l = none) :
    newLabelOf M l = l := by
  unfold newLabelOf
  rw [hM, Option.getD_none]

theorem newLabelOf_snoc_self {M : List (String × String)} {l : String} (hM : M.lookup l = none)
    (p : String) : newLabelOf (M ++ [(l, p)]) l = p := by
  unfold newLabelOf
  rw [List.lookup_append, hM, Option.none_or, List.lookup_cons_self, Option.getD_some]

theorem newLabelOf_snoc_ne (M : List (String × String)) {l l₀ : String} (hne : l ≠ l₀)
    (p : String) : newLabelOf (M ++ [(l₀, p)]) l = newLabelOf M l := by
  unfold newLabelOf
  rw [List.lookup_append, List.lookup_cons, beq_eq_false_iff_ne.mpr hne, List.lookup_nil,
    Option.or_none]

/-- The map of `MergeLabels` sends each label to the first one of its run. -/
theorem newLabelOf_respects {ρ : String → String} (code : List Instruction) (prev : Option String)
    (hnd : (irLabels code).Nodup)
    (hρ : ∀ l ∈ irLabels code, ρ l = newLabelOf (eraseLabels prev code).2 l) :
    Respects ρ prev code := by
  induction code generalizing prev with
  | nil => cases prev <;> trivial
  | cons i code ih =>
    rw [irLabels_cons] at hnd
    rw [irLabels_cons] at hρ
    by_cases hi : i.label? = none
    · rw [hi] at hnd hρ
      simp only [eraseLabels_of_none hi] at hρ
      have := ih none hnd hρ
      cases prev <;> cases i <;> first | exact this | simp [Instruction.label?] at hi
    · cases i with
      | label l₀ =>
        obtain ⟨hl₀, hnd⟩ := List.nodup_cons.mp hnd
        have h₀ := hρ l₀ List.mem_cons_self
        have hρ' : ∀ l ∈ irLabels code, ρ l = newLabelOf (eraseLabels prev (.label l₀ :: code)).2 l :=
          fun l hl => hρ l (List.mem_cons_of_mem _ hl)
        cases prev with
        | none =>
          exact ⟨h₀.trans (newLabelOf_of_none (eraseLabels_keys (some l₀) code hl₀)),
            ih (some l₀) hnd hρ'⟩
        | some p =>
          refine ⟨h₀.trans (newLabelOf_snoc_self (eraseLabels_keys (some p) code hl₀) p),
            ih (some p) hnd fun l hl => (hρ' l hl).trans (newLabelOf_snoc_ne _ ?_ p)⟩
          rintro rfl
          exact hl₀ hl
      | _ => exact absurd rfl hi

theorem irLabels_rename (ρ : String → String) (code : List Instruction) :
    irLabels (code.map (Instruction.renameTargets ρ)) = irLabels code := by
  unfold irLabels
  rw [List.filterMap_map]
  congr 1
  funext i
  cases i <;> rfl

/-- Merging defines no new label. -/
theorem irLabels_mergeLabels (code : List Instruction) :
    (irLabels (mergeLabels code)).Sublist (irLabels code) := by
  unfold mergeLabels
  rw [irLabels_rename]
  exact irLabels_eraseLabels none code

/-- **`MergeLabels` is correct**, for the list and for the list without its direct jumps. -/
theorem mergeLabels_scan (falls : Bool) (code : List Instruction) (hnd : (irLabels code).Nodup)
    (s : IRState V) : HaltsSame D h ((irLang D h).scan (dropJumps falls code) none s)
      ((irLang D h).scan (dropJumps falls (mergeLabels code)) none s) :=
  eraseLabels_scan code none hnd (newLabelOf_respects code none hnd fun _ _ => rfl) none s s (.refl s)

/-! ## `EliminateDeadCode` -/

/-- The first loop deletes the direct jumps, and otherwise only what is never reached. After a
return a scan is looking for a label. -/
theorem eliminateAfterReturn_scan (code : List Instruction) (prev : Option Instruction)
    (m : Option String) (s : IRState V)
    (hhead : prev = none → ∀ i ∈ code.head?, i.isDirectJMP = false)
    (hm : ∀ p ∈ prev, p.isReturn = true → m ≠ none) :
    (irLang D h).scan (eliminateAfterReturn prev code) m s =
      (irLang D h).scan (dropJumps true code) m s := by
  induction code generalizing prev m s with
  | nil => cases prev <;> rfl
  | cons i code ih =>
    -- what is kept goes on with `i` as the previous instruction
    have kept : i.isDirectJMP = false →
        (irLang D h).scan (i :: eliminateAfterReturn (some i) code) m s =
          (irLang D h).scan (dropJumps true (i :: code)) m s := by
      intro hj
      have ih' := fun m s hm => ih (some i) m s (fun e => absurd e (by simp)) hm
      rw [dropJumps_cons hj, Lang.scan, Lang.scan]
      split
      · cases ha : (irLang D h).act i s with
        | stop o => rfl
        | next s' =>
          refine ih' none s' fun p hp hret => ?_
          obtain rfl := Option.mem_some.mp hp
          cases i <;> simp [Instruction.isReturn] at hret
          simp [irLang, irAct] at ha
        | jump l s' => exact ih' (some l) s' fun _ _ _ => by simp
      · rename_i hmode
        exact ih' m s fun _ _ _ e => hmode (.inl e)
    cases prev with
    | none => exact kept (hhead rfl i rfl)
    | some p =>
      simp only [eliminateAfterReturn]
      split
      · rename_i hdel
        simp only [Bool.and_eq_true, Bool.or_eq_true, Bool.not_eq_true'] at hdel
        obtain ⟨hdel, hlab⟩ := hdel
        rw [ih (some p) m s (fun e => absurd e (by simp)) hm]
        by_cases hj : i.isDirectJMP = true
        · simp [dropJumps, hj]
        · have hne := hm p rfl (hdel.resolve_right hj)
          rw [dropJumps_cons (by simpa using hj)]
          obtain ⟨l, rfl⟩ := Option.ne_none_iff_exists'.mp hne
          refine (Lang.scan_pass (irLang D h) (i := i) (l := l) ?_ _ s).symm
          cases i <;> simp [irLang, Instruction.label?, Instruction.isLabel] at hlab ⊢
      · rename_i hdel
        refine kept (Bool.eq_false_iff.mpr fun hj => hdel ?_)
        have hlab : i.isLabel = false := by
          cases i <;> first | rfl | simp [Instruction.isDirectJMP] at hj
        simp [hj, hlab]

/-- A round deletes nothing that is reached: a label looked for has been noted as reachable, and
after a return or a branch a label is looked for. -/
theorem eliminateDeadCodeImpl_scan (code : List Instruction) (R : List String)
    (prev : Option Instruction) (purging : Bool) (m : Option String) (s : IRState V)
    (hR : ∀ l ∈ m, l ∈ R) (hprev : ∀ p ∈ prev, p.leaves = true → m ≠ none)
    (hpurge : purging = true → m ≠ none) :
    (irLang D h).scan (eliminateDeadCodeImpl R prev purging code).1 m s =
      (irLang D h).scan code m s := by
  induction code generalizing R prev purging m s with
  | nil => rfl
  | cons i code ih =>
    unfold eliminateDeadCodeImpl
    split
    · rename_i hp
      -- purged: a label is looked for, and it is not this one
      have hne : m ≠ none := by
        cases i with
        | label l =>
          simp only [purgingAt, Bool.and_eq_true, Option.any_eq_true] at hp
          obtain ⟨-, p, hp, hl⟩ := hp
          exact hprev p hp hl
        | _ => exact hpurge hp
      obtain ⟨l, rfl⟩ := Option.ne_none_iff_exists'.mp hne
      rw [ih R (some i) true (some l) s hR (fun _ _ _ => hne) fun _ => hne]
      refine (Lang.scan_pass (irLang D h) (i := i) (l := l) ?_ code s).symm
      cases i with
      | label l₀ =>
        simp only [purgingAt, Bool.and_eq_true, Bool.not_eq_true', decide_eq_false_iff_not] at hp
        rintro e
        exact hp.1 (Option.some.inj e ▸ hR l rfl)
      | _ => simp [irLang, Instruction.label?]
    · simp only
      rw [Lang.scan, Lang.scan]
      split
      · cases ha : (irLang D h).act i s with
        | stop o => rfl
        | next s' =>
          refine ih _ (some i) false none s' (by simp) (fun p hp hl => ?_) (by simp)
          obtain rfl := Option.mem_some.mp hp
          cases i <;> simp [Instruction.leaves, Instruction.isReturn, Instruction.isBranch] at hl
          · simp [irLang, irAct] at ha
          · simp only [irLang, irAct] at ha
            split at ha <;> simp at ha
        | jump l s' =>
          refine ih _ (some i) false (some l) s' (fun l' hl' => ?_) (by simp) (by simp)
          obtain rfl := Option.mem_some.mp hl'
          refine List.mem_append_left _ ?_
          cases i <;> simp only [irLang, irAct, reduceCtorEq] at ha
          · split at ha <;> simp at ha
          · split at ha
            · simp only [Act.jump.injEq] at ha
              simp [Instruction.bothTargets, ha.1]
            · simp only [Act.jump.injEq] at ha
              rw [← ha.1]
              split <;> simp [Instruction.bothTargets]
      · rename_i hmode
        exact ih _ (some i) false m s (fun l hl => List.mem_append_right _ (hR l hl))
          (fun _ _ _ e => hmode (.inl e)) (by simp)

/-- The rounds keep the meaning of a list. -/
theorem eliminateLoop_scan (fuel : Nat) (code : List Instruction) (s : IRState V) :
    (irLang D h).scan (eliminateLoop fuel code) none s = (irLang D h).scan code none s := by
  refine eliminateLoop_keeps
    (P := fun c => (irLang D h).scan c none s = (irLang D h).scan code none s)
    (fun c hc => ?_) fuel rfl
  rw [← hc]
  exact eliminateDeadCodeImpl_scan c [] none false none s (by simp) (by simp) (by simp)

/-! ### What is left of a generated list -/

/-- The list does not start with a direct jump. -/
def HeadOK (code : List Instruction) : Prop := ∀ i ∈ code.head?, i.isDirectJMP = false

theorem headOK_append {c c' : List Instruction} (h : HeadOK c) (h' : HeadOK c') :
    HeadOK (c ++ c') := by
  cases c with
  | nil => exact h'
  | cons i c => exact h

theorem NoJumps.headOK {c : List Instruction} (hc : NoJumps c) : HeadOK c :=
  fun i hi => hc i (List.mem_of_mem_head? hi)

/-- A list with a jump-free part in front. -/
theorem NoJumps.headOK_append {c c' : List Instruction} (hc : NoJumps c) (hne : c ≠ []) :
    HeadOK (c ++ c') := by
  cases c with
  | nil => exact absurd rfl hne
  | cons i c => exact fun j hj => hc j (by simpa using Or.inl (Option.mem_some.mp hj).symm)

theorem genIfHead_headOK (c : Expr) (m : CodeGenMgr) (code : List Instruction) :
    HeadOK ((genIfHead c m).code ++ code) :=
  (genIfHead_noJumps c m).headOK_append (by simp [genIfHead])

mutual

/-- The only direct jumps are those over an else branch, which never come first. -/
theorem stmt_headOK : ∀ (st : Stmt) (m : CodeGenMgr), HeadOK (st.irGen m).code
  | .empty, m => by simp [Stmt.irGen, HeadOK]
  | .perm p, m => by
    simp only [Stmt.irGen]
    exact (noJumps_single rfl).headOK
  | .ifThen c t, m => by
    simp only [Stmt.irGen, List.append_assoc]
    exact genIfHead_headOK c m _
  | .ifElse c t e, m => by
    simp only [Stmt.irGen, List.append_assoc]
    exact genIfHead_headOK c m _
  | .assign x e, m => by
    simp only [Stmt.irGen]
    exact headOK_append (expr_noJumps e m).headOK (noJumps_single rfl).headOK
  | .compound ss, m => by
    simp only [Stmt.irGen]
    exact all_headOK ss m

/-- No body starts with a direct jump. -/
theorem all_headOK : ∀ (ss : List Stmt) (m : CodeGenMgr), HeadOK (irGenAll ss m).code
  | [], m => by simp [irGenAll, HeadOK]
  | st :: ss, m => by
    simp only [irGenAll]
    exact headOK_append (stmt_headOK st m) (all_headOK ss _)

end

/-- `MergeLabels` keeps the first instruction but for its targets. -/
theorem mergeLabels_headOK {code : List Instruction} (hc : HeadOK code) :
    HeadOK (mergeLabels code) := by
  cases code with
  | nil => exact hc
  | cons i code =>
    have hi : i.isDirectJMP = false := hc i rfl
    intro j hj
    by_cases hl : i.label? = none
    · simp only [mergeLabels, eraseLabels_of_none hl, List.map_cons, List.head?_cons,
        Option.mem_some] at hj
      rw [← hj]
      cases i <;> exact hi
    · cases i with
      | label l =>
        obtain rfl : Instruction.label l = j := by
          simpa [mergeLabels, eraseLabels, Instruction.renameTargets] using hj
        rfl
      | _ => exact absurd rfl hl

theorem eliminateAfterReturn_sublist (prev : Option Instruction) (code : List Instruction) :
    (eliminateAfterReturn prev code).Sublist code := by
  induction code generalizing prev with
  | nil => cases prev <;> exact .slnil
  | cons i code ih =>
    cases prev with
    | none => exact (ih _).cons_cons i
    | some p =>
      simp only [eliminateAfterReturn]
      split
      · exact (ih _).cons i
      · exact (ih _).cons_cons i

/-- A round only deletes. -/
theorem eliminateDeadCodeImpl_sublist (code : List Instruction) (R : List String)
    (prev : Option Instruction) (purging : Bool) :
    (eliminateDeadCodeImpl R prev purging code).1.Sublist code := by
  induction code generalizing R prev purging with
  | nil => exact .slnil
  | cons i code ih =>
    unfold eliminateDeadCodeImpl
    split
    · exact (ih _ _ _).cons i
    · exact (ih _ _ _).cons_cons i

theorem eliminateLoop_sublist (fuel : Nat) (code : List Instruction) :
    (eliminateLoop fuel code).Sublist code :=
  eliminateLoop_keeps (fun c hc => (eliminateDeadCodeImpl_sublist c [] none false).trans hc) fuel
    (List.Sublist.refl code)

/-- `EliminateDeadCode` only deletes. -/
theorem eliminateDeadCode_sublist (code : List Instruction) :
    (eliminateDeadCode code).Sublist code :=
  (eliminateLoop_sublist _ _).trans (eliminateAfterReturn_sublist none code)

/-- **What `EliminateDeadCode` does**: the list is read as if its direct jumps were not there. -/
theorem eliminateDeadCode_scan {code : List Instruction} (hc : HeadOK code) (s : IRState V) :
    (irLang D h).scan (eliminateDeadCode code) none s =
      (irLang D h).scan (dropJumps true code) none s :=
  (eliminateLoop_scan _ _ s).trans (eliminateAfterReturn_scan code none none s (fun _ => hc) (by simp))

/-! ## Both passes on a body -/

/-- The list a body has when `EliminateDeadCode` gets it. -/
def mergedIR (ss : List Stmt) (m : CodeGenMgr) : List Instruction := mergeLabels (irGenAll ss m).code

theorem mergedIR_nodup (ss : List Stmt) (m : CodeGenMgr) : (irLabels (mergedIR ss m)).Nodup :=
  (irLabels_mergeLabels _).nodup (all_emits ss m).nodup

/-- The labels of the list `BuildCFG` gets are distinct. -/
theorem eliminated_nodup (ss : List Stmt) (m : CodeGenMgr) :
    (irLabels (eliminateDeadCode (mergedIR ss m))).Nodup :=
  ((eliminateDeadCode_sublist _).filterMap _).nodup (mergedIR_nodup ss m)

/-- The merged list, read with or without its direct jumps, halts as the body does. -/
theorem mergedIR_scanHalts {ss : List Stmt} (hwt : allWellTyped ss = true) (m : CodeGenMgr)
    (falls : Bool) (s : IRState V) : ∃ t,
      (irLang D h).ScanHalts ((irLang D h).scan (dropJumps falls (mergedIR ss m)) none s)
        (Outcome.ofVerdict (execAllWith D h falls ss s.env).1, t) ∧
      actions t.log = (execAllWith D h falls ss s.env).2.acts := by
  have hscan := all_scan (D := D) (h := h) falls ss hwt m s
  have hmerge := mergeLabels_scan (D := D) (h := h) falls _ (all_emits ss m).nodup s
  generalize execAllWith D h falls ss s.env = e at hscan
  obtain ⟨_ | p, σ⟩ := e <;> obtain ⟨s', hs', henv⟩ := hscan <;> rw [hs'] at hmerge <;>
    obtain ⟨t, ht, hsame⟩ := hmerge _ s' rfl <;>
    exact ⟨t, ht, by rw [hsame.acts, ← henv]; rfl⟩

/-- The list before the pass does what the body does. -/
theorem mergedIR_runs {ss : List Stmt} (hwt : allWellTyped ss = true) (m : CodeGenMgr)
    (s : IRState V) : ∃ t, Runs D h (mergedIR ss m) s
        (Outcome.ofVerdict (execAll D h ss s.env).1, t) ∧
      actions t.log = (execAll D h ss s.env).2.acts := by
  obtain ⟨t, ht, hacts⟩ := mergedIR_scanHalts (D := D) (h := h) hwt m false s
  rw [execAllWith_false] at ht hacts
  exact ⟨t, Lang.halts_of_scan (irLang D h) (mergedIR_nodup ss m) ht, hacts⟩

/-- The list after the pass does what the body does when then branches go on into else branches. -/
theorem eliminated_runs {ss : List Stmt} (hwt : allWellTyped ss = true) (m : CodeGenMgr)
    (s : IRState V) : ∃ t, Runs D h (eliminateDeadCode (mergedIR ss m)) s
        (Outcome.ofVerdict (execAllWith D h true ss s.env).1, t) ∧
      actions t.log = (execAllWith D h true ss s.env).2.acts := by
  obtain ⟨t, ht, hacts⟩ := mergedIR_scanHalts (D := D) (h := h) hwt m true s
  have hhead : HeadOK (mergedIR ss m) := mergeLabels_headOK (all_headOK ss m)
  rw [← eliminateDeadCode_scan hhead] at ht
  exact ⟨t, Lang.halts_of_scan (irLang D h) (eliminated_nodup ss m) ht, hacts⟩

/-- Both lists stop, with the same outcome and after the same actions. -/
def SameBehaviour (D : Domain V) (h : Helpers V) (c c' : List Instruction) (s : IRState V) : Prop :=
  ∃ r r', Runs D h c s r ∧ Runs D h c' s r' ∧ r'.1 = r.1 ∧ actions r'.2.log = actions r.2.log

/-- **When `EliminateDeadCode` preserves meaning**: exactly when the body, run so that a then
branch that runs off its end goes on into its else branch, does the same calls and assignments
and comes to the same verdict as the body itself. -/
theorem eliminateDeadCode_preserves_iff (ss : List Stmt) (hwt : allWellTyped ss = true)
    (m : CodeGenMgr) (D : Domain V) (h : Helpers V) (s : IRState V) :
    SameBehaviour D h (mergedIR ss m) (eliminateDeadCode (mergedIR ss m)) s ↔
      (execAllWith D h true ss s.env).1 = (execAll D h ss s.env).1 ∧
        (execAllWith D h true ss s.env).2.acts = (execAll D h ss s.env).2.acts := by
  obtain ⟨t, hrun, hacts⟩ := mergedIR_runs (D := D) (h := h) hwt m s
  obtain ⟨t', hrun', hacts'⟩ := eliminated_runs (D := D) (h := h) hwt m s
  rw [← hacts, ← hacts']
  constructor
  · rintro ⟨r, r', hr, hr', ho, ha⟩
    rw [hr.unique hrun] at ho ha
    rw [hr'.unique hrun'] at ho ha
    exact ⟨Outcome.ofVerdict_inj ho, ha⟩
  · rintro ⟨ho, ha⟩
    exact ⟨_, _, hrun, hrun', congrArg Outcome.ofVerdict ho, ha⟩

/-- The body of `open` in `README.md`: `if (x > 0) { allow; }`. -/
def readmeOpen : List Stmt :=
  [.ifThen (.op2 .GT (.ref "x") (.value 0)) (.compound [.perm .ALLOW])]

/-- A body without else branches is preserved. -/
theorem readmeOpen_preserved :
    SameBehaviour words32 (fun _ _ _ => 0) (mergedIR readmeOpen {})
      (eliminateDeadCode (mergedIR readmeOpen {})) ⟨fun _ => 1, fun _ => 0, []⟩ :=
  (eliminateDeadCode_preserves_iff readmeOpen (by decide) {} words32 (fun _ _ _ => 0)
    ⟨fun _ => 1, fun _ => 0, []⟩).mpr (by decide)

/-- `if (flags & 1) { mode = 0; } else { deny; } allow;` -/
def fallingThen : List Stmt :=
  [.ifElse (.op2 .BITAND (.ref "flags") (.value 1))
    (.compound [.assign "mode" (.value 0)]) (.compound [.perm .DENY]), .perm .ALLOW]

/-- With `flags` odd the list of `fallingThen` allows; after the pass it runs into the else branch
and denies. -/
theorem fallingThen_not_preserved :
    allWellTyped fallingThen = true ∧
      ¬ SameBehaviour words32 (fun _ _ _ => 0) (mergedIR fallingThen {})
        (eliminateDeadCode (mergedIR fallingThen {})) ⟨fun _ => 1, fun _ => 0, []⟩ := by
  refine ⟨by decide, ?_⟩
  rintro ⟨r, r', ⟨n, hr⟩, ⟨n', hr'⟩, ho, -⟩
  have hallow : Runs words32 (fun _ _ _ => 0) (mergedIR fallingThen {}) ⟨fun _ => 1, fun _ => 0, []⟩
      (.verdict .ALLOW, _) := ⟨12, rfl⟩
  have hdeny : Runs words32 (fun _ _ _ => 0) (eliminateDeadCode (mergedIR fallingThen {}))
      ⟨fun _ => 1, fun _ => 0, []⟩ (.verdict .DENY, _) := ⟨12, rfl⟩
  rw [SmallStep.Halts.unique ⟨n, hr⟩ hallow, SmallStep.Halts.unique ⟨n', hr'⟩ hdeny] at ho
  exact absurd ho (by decide)

end SeccompPolicy
