import SeccompPolicy.Targets

/-!
# What the passes keep

A property of code that can be checked from label to label: a monitor reads a list from the front,
starts anew at every label, and says which instruction may stand where. Two such properties are
used, that results are used in the order of a stack (`ResultStack`) and that trees fit the scratch
words (`ScratchMonitor`); this module has the part that does not depend on the monitor.

The passes rename targets, erase a label behind a label, and delete what stands between a return
and a label, direct jumps, and whole stretches from one label to another. None of these brings two
instructions together that were not, but behind a return, where nothing is executed.

## Results

* `accepts_merged`, `accepts_eliminated`: a list that a monitor accepts stays accepted by
  `MergeLabels` and by `EliminateDeadCode`.
* `accepts_checkCFG`: the monitor then accepts every block of the CFG from its start.
-/

namespace SeccompPolicy

/-- A monitor of instruction lists. -/
structure Monitor (σ : Type) where
  start : σ
  after : σ → Instruction → σ
  Admits : σ → Instruction → Prop
  after_label : ∀ s l, after s (.label l) = start
  admits_label : ∀ s l, Admits s (.label l)
  after_rename : ∀ s ρ i, after s (i.renameTargets ρ) = after s i
  admits_rename : ∀ s ρ i, Admits s (i.renameTargets ρ) ↔ Admits s i
  after_isDirectJMP : ∀ s i, Admits s i → i.isDirectJMP = true → after s i = s

namespace Monitor

variable {σ : Type} {M : Monitor σ} {s s' : σ} {c c' : List Instruction}

/-- Every instruction of the list may stand where it stands. -/
def Accepts (M : Monitor σ) : σ → List Instruction → Prop
  | _, [] => True
  | s, i :: code => M.Admits s i ∧ Accepts M (M.after s i) code

theorem accepts_append :
    M.Accepts s (c ++ c') ↔ M.Accepts s c ∧ M.Accepts (c.foldl M.after s) c' := by
  induction c generalizing s with
  | nil => exact (and_iff_right trivial).symm
  | cons i c ih => rw [List.cons_append, Accepts, Accepts, ih, List.foldl_cons, and_assoc]

theorem accepts_rename (ρ : String → String) {code : List Instruction} :
    M.Accepts s (code.map (Instruction.renameTargets ρ)) ↔ M.Accepts s code := by
  induction code generalizing s with
  | nil => exact Iff.rfl
  | cons i code ih => rw [List.map_cons, Accepts, Accepts, M.admits_rename, M.after_rename, ih]

theorem accepts_eraseLabels (code : List Instruction) (prev : Option String)
    (h : M.Accepts s code) (hs : prev.isSome → s = M.start) :
    M.Accepts s (eraseLabels prev code).1 := by
  induction code generalizing prev s with
  | nil => cases prev <;> trivial
  | cons i code ih =>
    by_cases hi : i.label? = none
    · simp only [eraseLabels_of_none hi]
      exact ⟨h.1, ih none h.2 (fun h => by cases h)⟩
    · cases i with
      | label l =>
        have hrest := h.2
        rw [M.after_label] at hrest
        cases prev with
        | none =>
          refine ⟨M.admits_label s l, ?_⟩
          rw [M.after_label]
          exact ih (some l) hrest fun _ => rfl
        | some p =>
          obtain rfl := hs rfl
          exact ih (some p) hrest fun _ => rfl
      | _ => exact absurd rfl hi

/-- Behind a return the state does not matter: what stands there up to the next label is deleted. -/
theorem accepts_eliminateAfterReturn (code : List Instruction) (prev : Option Instruction)
    (h : M.Accepts s code) (hs : (∃ p ∈ prev, p.isReturn = true) ∨ s' = s) :
    M.Accepts s' (eliminateAfterReturn prev code) := by
  induction code generalizing prev s s' with
  | nil => cases prev <;> trivial
  | cons i code ih =>
    have kept : (i.isLabel = true ∨ s' = s) →
        M.Accepts s' (i :: eliminateAfterReturn (some i) code) := by
      rintro (hl | rfl)
      · cases i with
        | label l =>
          refine ⟨M.admits_label s' l, ih (some _) h.2 (.inr ?_)⟩
          rw [M.after_label, M.after_label]
        | _ => cases hl
      · exact ⟨h.1, ih (some i) h.2 (.inr rfl)⟩
    cases prev with
    | none =>
      refine kept (.inr (hs.resolve_left ?_))
      rintro ⟨p, hp, -⟩
      cases hp
    | some p =>
      simp only [eliminateAfterReturn]
      split
      · -- what is deleted does not count
        rename_i hdel
        simp only [Bool.and_eq_true, Bool.or_eq_true, Bool.not_eq_true'] at hdel
        refine ih (some p) h.2 ?_
        rcases hdel.1 with hr | hj
        · exact .inl ⟨p, rfl, hr⟩
        · rw [M.after_isDirectJMP s i h.1 hj]
          exact hs
      · rename_i hkept
        simp only [Bool.and_eq_true, Bool.or_eq_true, Bool.not_eq_true', not_and,
          Bool.not_eq_false] at hkept
        refine kept (hs.imp_left ?_)
        rintro ⟨q, hq, hr⟩
        obtain rfl := Option.some.inj hq
        exact hkept (.inl hr)

/-- A purged list goes on with a label. -/
theorem accepts_eliminateDeadCodeImpl (code : List Instruction) (R : List String)
    (prev : Option Instruction) (purging : Bool) (h : M.Accepts s code)
    (hs : purging = false → s' = s) :
    M.Accepts s' (eliminateDeadCodeImpl R prev purging code).1 := by
  induction code generalizing R prev purging s s' with
  | nil => trivial
  | cons i code ih =>
    unfold eliminateDeadCodeImpl
    split
    · exact ih R (some i) true h.2 (fun h => by cases h)
    · rename_i hp
      cases i with
      | label l =>
        refine ⟨M.admits_label s' l, ih _ _ false h.2 fun _ => ?_⟩
        rw [M.after_label, M.after_label]
      | _ =>
        obtain rfl := hs (by simpa [purgingAt] using hp)
        exact ⟨h.1, ih _ _ false h.2 fun _ => rfl⟩

theorem accepts_eliminateLoop (fuel : Nat) {code : List Instruction} (h : M.Accepts s code) :
    M.Accepts s (eliminateLoop fuel code) :=
  eliminateLoop_keeps
    (fun code h => accepts_eliminateDeadCodeImpl code [] none false h fun _ => rfl) fuel h

variable {ss : List Stmt} {m : CodeGenMgr}

theorem accepts_merged (h : M.Accepts M.start (irGenAll ss m).code) :
    M.Accepts M.start (mergedIR ss m) :=
  (accepts_rename _).mpr (accepts_eraseLabels _ none h (fun h => by cases h))

/-- **The passes keep it.** -/
theorem accepts_eliminated (h : M.Accepts M.start (irGenAll ss m).code) :
    M.Accepts M.start (eliminateDeadCode (mergedIR ss m)) :=
  accepts_eliminateLoop _ (accepts_eliminateAfterReturn _ none (accepts_merged h) (.inr rfl))

/-- **The blocks of the CFG** are what stands between two labels. -/
theorem accepts_checkCFG (h : M.Accepts M.start (irGenAll ss m).code) (syscall : String) :
    ∀ B ∈ checkCFG ss m syscall, M.Accepts M.start B.insts := by
  intro B hB
  have hflat : M.Accepts M.start (flatten (checkCFG ss m syscall)) := by
    rw [checkCFG, flatten_buildCFG]
    refine ⟨M.admits_label _ _, ?_⟩
    rw [M.after_label]
    exact accepts_eliminated h
  obtain ⟨pre, post, hsplit⟩ := List.append_of_mem hB
  have h : flatten (checkCFG ss m syscall) =
      flatten pre ++ .label B.label :: (B.insts ++ flatten post) := by
    rw [hsplit]
    simp [flatten]
  rw [h, accepts_append, Accepts, M.after_label, accepts_append] at hflat
  exact hflat.2.2.1

end Monitor

end SeccompPolicy
