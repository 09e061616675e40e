import SeccompPolicy.IR
import SeccompPolicy.Lib.DoWhile

/-!
# The passes on the list: `CheckVariableUse`, `MergeLabels`, `EliminateDeadCode`

Source: the functions of `IR_gen.cpp` that run between `IRGen` and `BuildCFG`. A loop over the
list with local variables is a recursion over the list with the variables as arguments.

* `checkVariableUse`: every variable an instruction names is declared. Numbers and results of
  instructions are no variables.
* `mergeLabels`: of a run of labels only the first stays, and the branches are renamed. The first
  loop of the source collects the branches of each label and nothing reads what it collects, so it
  is left out. The map of the second loop is a list of pairs, whose last entry of a key counts.
* `eliminateDeadCode`: the first loop, `eliminateAfterReturn`, deletes what follows a return up to
  the next label, and every direct jump that is not the first instruction: the test of the source
  is `IsDirectJMP(inst)`, on the instruction and not on the one in front of it. Then
  `eliminateDeadCodeImpl` purges blocks that no branch in front of them names, round after round
  until nothing changes.

The source initialises `l` of a label with itself and never uses it; the name is read through
`inst`. The register numbers the last loop of `MergeLabels` hands out are only printed.

## Results

* `eliminateLoop_loop`: the rounds end. The `do`-`while` of `Lib.DoWhile` supplies the argument;
  each round that changes the list shortens it.
* `eliminateLoop_done`: behind `EliminateDeadCode` a further round changes nothing.
* `eliminateLoop_keeps`: what a round keeps, the loop keeps.
-/

namespace SeccompPolicy

/-! ## `CheckVariableUse` -/

/-- The variables an instruction names: the parameters of a call, the `Memory` operands of the
others. -/
def Instruction.variables : Instruction → List String
  | .call _ _ args => args
  | .arith _ _ a b | .branch _ a b _ _ | .store a b =>
    [a, b].filterMap fun
      | .mem x => some x
      | _ => none
  | _ => []

/-- `CheckVariableUse`: every variable used is declared. -/
def checkVariableUse (code : List Instruction) (args : List String) : Bool :=
  code.all fun i => i.variables.all fun x => decide (x ∈ args)

/-! ## `MergeLabels` -/

/-- The second loop of `MergeLabels`: a label right after a label is erased and mapped to the
first label of its run. `prev` is `prev_label` when `prev_is_label`. The map keeps the last entry
of a key. -/
def eraseLabels : Option String → List Instruction → List Instruction × List (String × String)
  | _, [] => ([], [])
  | some p, .label l :: code =>
    let r := eraseLabels (some p) code
    (r.1, r.2 ++ [(l, p)])
  | none, .label l :: code =>
    let r := eraseLabels (some l) code
    (.label l :: r.1, r.2)
  | _, i :: code =>
    let r := eraseLabels none code
    (i :: r.1, r.2)

/-- `old_label_2_new`, read with the label itself as the default. -/
def newLabelOf (old2new : List (String × String)) (l : String) : String :=
  (old2new.lookup l).getD l

/-- The third loop of `MergeLabels` on one instruction. -/
def Instruction.renameTargets (ρ : String → String) : Instruction → Instruction
  | .branch op a b t f => .branch op a b (ρ t) (if op = .INVALID then f else ρ f)
  | i => i

/-- `MergeLabels`. -/
def mergeLabels (code : List Instruction) : List Instruction :=
  let r := eraseLabels none code
  r.1.map (Instruction.renameTargets (newLabelOf r.2))

/-! ## `EliminateDeadCode` -/

/-- The first loop of `EliminateDeadCode`. `prev` is the last instruction kept; what is tested
for being a direct jump is the instruction itself. -/
def eliminateAfterReturn : Option Instruction → List Instruction → List Instruction
  | _, [] => []
  | prev, i :: code =>
    match prev with
    | some p =>
      if (p.isReturn || i.isDirectJMP) && !i.isLabel then eliminateAfterReturn (some p) code
      else i :: eliminateAfterReturn (some i) code
    | none => i :: eliminateAfterReturn (some i) code

/-- Both target fields of a branch, whether it is conditional or not. -/
def Instruction.bothTargets : Instruction → List String
  | .branch _ _ _ t f => [t, f]
  | _ => []

theorem Instruction.targets_subset_bothTargets {i : Instruction} {l : String} (h : l ∈ i.targets) :
    l ∈ i.bothTargets := by
  cases i with
  | branch op a b t f =>
    simp only [Instruction.targets] at h
    split at h
    · exact List.mem_cons.mpr (.inl (List.mem_singleton.mp h))
    · exact h
  | _ => exact absurd h List.not_mem_nil

/-- `isa<ReturnInst>(i) || isa<BranchInst>(i)`. -/
def Instruction.leaves (i : Instruction) : Bool := i.isReturn || i.isBranch

/-- The `purging` flag on reaching an instruction. -/
def purgingAt (reachable : List String) (prev : Option Instruction) (purging : Bool) :
    Instruction → Bool
  | .label l => !decide (l ∈ reachable) && prev.any Instruction.leaves
  | _ => purging

/-- `EliminateDeadCodeImpl`: the list without its unreachable blocks, and whether it changed. -/
def eliminateDeadCodeImpl (reachable : List String) (prev : Option Instruction) (purging : Bool) :
    List Instruction → List Instruction × Bool
  | [] => ([], false)
  | i :: code =>
    if purgingAt reachable prev purging i then
      ((eliminateDeadCodeImpl reachable (some i) true code).1, true)
    else
      let r := eliminateDeadCodeImpl (i.bothTargets ++ reachable) (some i) false code
      (i :: r.1, r.2)

/-- The loop of `EliminateDeadCode`, for at most `fuel` rounds. -/
def eliminateLoop : Nat → List Instruction → List Instruction
  | 0, code => code
  | fuel + 1, code =>
    let r := eliminateDeadCodeImpl [] none false code
    if r.2 then eliminateLoop fuel r.1 else r.1

/-- `EliminateDeadCode`. A round that changes the list shortens it, so that many rounds are
enough (`eliminateLoop_done`). -/
def eliminateDeadCode (code : List Instruction) : List Instruction :=
  let code := eliminateAfterReturn none code
  eliminateLoop (code.length + 1) code

theorem eliminateDeadCodeImpl_length (code : List Instruction) (R : List String)
    (prev : Option Instruction) (purging : Bool) :
    (eliminateDeadCodeImpl R prev purging code).1.length ≤ code.length ∧
      ((eliminateDeadCodeImpl R prev purging code).2 = true →
        (eliminateDeadCodeImpl R prev purging code).1.length < code.length) := by
  induction code generalizing R prev purging with
  | nil => simp [eliminateDeadCodeImpl]
  | cons i code ih =>
    unfold eliminateDeadCodeImpl
    split
    · have h := (ih R (some i) true).1
      simp only [List.length_cons]
      omega
    · obtain ⟨h, h'⟩ := ih (i.bothTargets ++ R) (some i) false
      simp only [List.length_cons]
      exact ⟨by omega, fun hc => by have := h' hc; omega⟩

/-- A round that changes nothing returns its list. -/
theorem eliminateDeadCodeImpl_same (code : List Instruction) (R : List String)
    (prev : Option Instruction) (purging : Bool)
    (h : (eliminateDeadCodeImpl R prev purging code).2 = false) :
    (eliminateDeadCodeImpl R prev purging code).1 = code := by
  induction code generalizing R prev purging with
  | nil => rfl
  | cons i code ih =>
    unfold eliminateDeadCodeImpl at h ⊢
    split at h
    · simp at h
    · rename_i hp
      rw [if_neg hp]
      simp only [ih _ _ _ h]

theorem eliminateLoop_eq_run (fuel : Nat) (code : List Instruction) :
    eliminateLoop fuel code = DoWhile.run (eliminateDeadCodeImpl [] none false) fuel code := by
  induction fuel generalizing code with
  | zero => rfl
  | succ fuel ih =>
    simp only [eliminateLoop, DoWhile.run, ih]

/-- **The loop ends.** -/
theorem eliminateLoop_loop {fuel : Nat} {code : List Instruction} (h : code.length < fuel) :
    DoWhile.Loop (eliminateDeadCodeImpl [] none false) code (eliminateLoop fuel code) := by
  rw [eliminateLoop_eq_run]
  exact DoWhile.run_loop List.length
    (fun code => (eliminateDeadCodeImpl_length code [] none false).2) fuel h

/-- After `EliminateDeadCode` a further round changes nothing. -/
theorem eliminateLoop_done (fuel : Nat) (code : List Instruction) (h : code.length < fuel) :
    (eliminateDeadCodeImpl [] none false (eliminateLoop fuel code)).2 = false :=
  (eliminateLoop_loop h).last fun code => eliminateDeadCodeImpl_same code [] none false

/-- What a round keeps, the loop keeps. -/
theorem eliminateLoop_keeps {P : List Instruction → Prop}
    (hround : ∀ code, P code → P (eliminateDeadCodeImpl [] none false code).1) (fuel : Nat)
    {code : List Instruction} (h : P code) : P (eliminateLoop fuel code) := by
  rw [eliminateLoop_eq_run]
  exact DoWhile.run_invariant hround fuel h

end SeccompPolicy
