import SeccompPolicy.Operands

/-!
# The CFG of a body has no dead blocks

`EliminateDeadCode` leaves no direct jump (`eliminateDeadCode_noJumps`), and of the rest what
control reaches: it purges until every label is named by a branch in front of it or stands behind
an instruction that goes on. So every block but the root has a parent, and all blocks come after
the root.

That decides where the ptrace-only blocks start. `ColorCode` records the first instruction for a
block behind one that acts, and the first call or assignment for the others. A ptrace-only block
whose start is not its first instruction is therefore one of few: no block before it acts, it has
at most one parent, and it does not begin with what makes it a ptrace block. `Enterable` says of a
CFG that there is none.

## Results

* `eliminateDeadCode_reached`: what is left of a list is what control reaches in the list without
  its direct jumps (`Purge` has the same of the rounds alone).
* `eliminateDeadCode_named`: where the labels of the result stand.
* `checkCFG_parents`, `ancestor_root`: every block but the root has a parent, and the root comes
  before all.
* `startsAtFirst_iff`: every ptrace-only block can be entered at its first instruction exactly
  when the CFG is `Enterable`.
-/

namespace SeccompPolicy

/-! ## What is left of the list -/

theorem eliminateAfterReturn_noJumps (p : Instruction) (code : List Instruction) :
    NoJumps (eliminateAfterReturn (some p) code) := by
  induction code generalizing p with
  | nil => exact fun i hi => absurd hi List.not_mem_nil
  | cons i code ih =>
    simp only [eliminateAfterReturn]
    split
    · exact ih p
    · rename_i hkeep
      intro j hj
      rcases List.mem_cons.mp hj with rfl | hj
      · cases j with
        | branch op a b t f =>
          refine Bool.eq_false_iff.mpr fun hjump => hkeep ?_
          rw [hjump, Bool.or_true]
          rfl
        | _ => rfl
      · exact ih i j hj

/-- The slip of the first loop: it leaves no direct jump. -/
theorem afterReturn_noJumps {code : List Instruction} (hc : HeadOK code) :
    NoJumps (eliminateAfterReturn none code) := by
  cases code with
  | nil => exact fun i hi => absurd hi List.not_mem_nil
  | cons i code =>
    intro j hj
    rcases List.mem_cons.mp hj with rfl | hj
    · exact hc j rfl
    · exact eliminateAfterReturn_noJumps i code j hj

theorem eliminateDeadCode_noJumps {code : List Instruction} (hc : HeadOK code) :
    NoJumps (eliminateDeadCode code) :=
  fun i hi => afterReturn_noJumps hc i ((eliminateLoop_sublist _ _).subset hi)

/-- A branch that is no direct jump has both targets. -/
theorem Instruction.targets_eq_bothTargets {i : Instruction} (h : i.isDirectJMP = false) :
    i.targets = i.bothTargets := by
  cases i with
  | branch op a b t f => exact if_neg (of_decide_eq_false h)
  | _ => rfl

theorem NoJumps.unusedTargets {code : List Instruction} (h : NoJumps code) : UnusedTargets code := by
  intro i hi l hl _
  rwa [Instruction.targets_eq_bothTargets (h i hi)]

/-- Distinct labels and forward targets: no branch names a label in front of it. -/
theorem WellLabelled.noBackwardTarget {code : List Instruction} (h : WellLabelled code)
    (hunused : UnusedTargets code) : NoBackwardTarget code := by
  refine h.noBackward.imp_of_mem fun {i j} hi hj hij l hl hboth => ?_
  exact hij l hl (hunused j hj l hboth (mem_irLabels.mpr ⟨i, hi, hl⟩))

/-- **`EliminateDeadCode` leaves what control reaches** of the list without its direct jumps. -/
theorem eliminateDeadCode_reached {ss : List Stmt} (hwt : allWellTyped ss = true) (m : CodeGenMgr) :
    eliminateDeadCode (mergedIR ss m) =
      reachedCode Instruction.targets (eliminateAfterReturn none (mergedIR ss m)) := by
  have hends := afterReturn_endsBlocks hwt m
  have hj : NoJumps (eliminateAfterReturn none (mergedIR ss m)) :=
    afterReturn_noJumps (mergeLabels_headOK (all_headOK ss m))
  have hwell : WellLabelled (eliminateAfterReturn none (mergedIR ss m)) := by
    have hmerged := mergeLabels_wellLabelled (generated_wellLabelled hwt m)
    refine ⟨?_, eliminateAfterReturn_forward none hmerged.forward⟩
    rw [irLabels_eliminateAfterReturn]
    exact hmerged.once
  rw [← hj.unusedTargets.reachedCode]
  exact loop_reachedCode (hwell.noBackwardTarget hj.unusedTargets) hends
    (eliminateLoop_loop (Nat.lt_succ_self _))

/-- In a list that a round leaves as it is, a label is noted, or named in front, or stands behind an
instruction that goes on. -/
theorem eliminateDeadCodeImpl_named {code : List Instruction} {R : List String}
    {prev : Option Instruction} (h : (eliminateDeadCodeImpl R prev false code).2 = false)
    {pre post : List Instruction} {l : String} (hcode : code = pre ++ .label l :: post) :
    l ∈ R ∨ (∃ i ∈ pre, l ∈ i.bothTargets) ∨ (pre.getLast?.or prev).any Instruction.leaves = false := by
  induction pre generalizing code R prev with
  | nil =>
    subst hcode
    rw [List.nil_append, eliminateDeadCodeImpl] at h
    split at h
    · cases h
    · rename_i hp
      simp only [purgingAt, Bool.and_eq_true, Bool.not_eq_true', decide_eq_false_iff_not,
        not_and_or, not_not, Bool.not_eq_true] at hp
      exact hp.imp_right .inr
  | cons i pre ih =>
    subst hcode
    rw [List.cons_append, eliminateDeadCodeImpl] at h
    split at h
    · cases h
    · rcases ih h rfl with hR | ⟨j, hj, hl⟩ | hgo
      · rcases List.mem_append.mp hR with hi | hR
        · exact .inr (.inl ⟨i, List.mem_cons_self, hi⟩)
        · exact .inl hR
      · exact .inr (.inl ⟨j, List.mem_cons_of_mem i hj, hl⟩)
      · refine .inr (.inr ?_)
        cases pre with
        | nil => exact hgo
        | cons j pre => rwa [List.getLast?_cons_cons]

/-- **After `EliminateDeadCode`** a label is named by a branch in front of it, or stands behind an
instruction that goes on, or in front of all. -/
theorem eliminateDeadCode_named {code pre post : List Instruction} {l : String} (hc : HeadOK code)
    (hcode : eliminateDeadCode code = pre ++ .label l :: post) :
    (∃ i ∈ pre, l ∈ i.targets) ∨ pre.getLast?.any Instruction.leaves = false := by
  have hdone := eliminateLoop_done ((eliminateAfterReturn none code).length + 1)
    (eliminateAfterReturn none code) (Nat.lt_succ_self _)
  have hnj := eliminateDeadCode_noJumps hc
  rcases eliminateDeadCodeImpl_named hdone hcode with h | ⟨i, hi, hl⟩ | h
  · exact absurd h List.not_mem_nil
  · refine .inl ⟨i, hi, ?_⟩
    rwa [Instruction.targets_eq_bothTargets (hnj i (hcode ▸ List.mem_append_left _ hi))]
  · rw [Option.or_none] at h
    exact .inr h

/-! ## Every block has a parent -/

theorem mem_flatten {g : List BasicBlock} {i : Instruction} {t : String} (hi : i ∈ flatten g)
    (ht : t ∈ i.targets) : ∃ B ∈ g, i ∈ B.insts := by
  obtain ⟨B, hB, hi⟩ := List.mem_flatMap.mp hi
  rcases List.mem_cons.mp hi with rfl | hi
  · exact absurd ht List.not_mem_nil
  · exact ⟨B, hB, hi⟩

/-- The list of blocks ends with what its last block ends with. -/
theorem flatten_getLast {g : List BasicBlock} {A : BasicBlock} (hA : A.leaves = true) :
    (flatten (g ++ [A])).getLast?.any Instruction.leaves = true := by
  unfold BasicBlock.leaves at hA
  cases hl : A.insts.getLast? with
  | none =>
    rw [hl] at hA
    cases hA
  | some i =>
    rw [hl, Option.any_some, Bool.or_comm] at hA
    have hflat : flatten (g ++ [A]) = flatten g ++ .label A.label :: A.insts := by simp [flatten]
    rw [hflat, List.getLast?_append, List.getLast?_cons, hl]
    exact hA

/-- A block that is not the root has a parent. -/
theorem checkCFG_parents {ss : List Stmt} {m : CodeGenMgr} {syscall : String}
    (hg : IsCFG (checkCFG ss m syscall)) {b : Nat} {B : BasicBlock} (hb : 0 < b)
    (hB : (checkCFG ss m syscall)[b]? = some B) : ∃ p, p ∈ B.parents := by
  have hflat : flatten (checkCFG ss m syscall) = .label syscall :: _ := flatten_buildCFG _ _
  generalize checkCFG ss m syscall = g at hg hflat hB
  -- the blocks in front, the last of which is `A`
  obtain ⟨a, rfl⟩ : ∃ a, b = a + 1 := ⟨b - 1, by omega⟩
  have hlt := (List.getElem?_eq_some_iff.mp hB).1
  obtain ⟨A, hA⟩ : ∃ A, g[a]? = some A := ⟨_, List.getElem?_eq_getElem (by omega)⟩
  obtain ⟨g₁, g₂, rfl, hlen⟩ : ∃ g₁ g₂, g = (g₁ ++ [A]) ++ B :: g₂ ∧ g₁.length = a := by
    obtain ⟨ha, rfl⟩ := List.getElem?_eq_some_iff.mp hA
    obtain ⟨_, rfl⟩ := List.getElem?_eq_some_iff.mp hB
    refine ⟨g.take a, g.drop (a + 2), ?_, by rw [List.length_take]; omega⟩
    rw [List.append_assoc, List.singleton_append, ← List.drop_eq_getElem_cons hlt,
      ← List.drop_eq_getElem_cons ha, List.take_append_drop]
  obtain ⟨i₀, pre, hfront⟩ : ∃ i₀ pre, flatten (g₁ ++ [A]) = i₀ :: pre :=
    List.exists_cons_of_ne_nil (by simp [flatten])
  have hcode : flatten (g₁ ++ [A]) ++ .label B.label :: (B.insts ++ flatten g₂) =
      .label syscall :: eliminateDeadCode (mergedIR ss m) := by
    rw [← hflat]
    simp [flatten]
  rw [hfront, List.cons_append, List.cons.injEq] at hcode
  obtain ⟨rfl, hcode⟩ := hcode
  rcases eliminateDeadCode_named (mergeLabels_headOK (all_headOK ss m)) hcode.symm with
    ⟨i, hi, ht⟩ | hgo
  · -- a branch in front names it
    obtain ⟨P, hP, hiP⟩ := mem_flatten (hfront ▸ List.mem_cons_of_mem _ hi) ht
    obtain ⟨p, hp⟩ := List.mem_iff_getElem?.mp (List.mem_append_left (B :: g₂) hP)
    obtain ⟨c, hc, C, hC, hl⟩ := hg.target p P hp i hiP _ ht
    obtain rfl := hg.label_inj hC hB hl
    exact ⟨p, (hg.edges p _ P B hp hB).mp hc⟩
  · -- the block in front of it goes on
    have hleaves : A.leaves = false := by
      refine Bool.eq_false_iff.mpr fun hleaves => ?_
      have hlast := flatten_getLast (g := g₁) hleaves
      rw [hfront] at hlast
      cases pre with
      | nil => cases hlast
      | cons j pre =>
        rw [List.getLast?_cons_cons, hgo] at hlast
        cases hlast
    exact ⟨a, (hg.edges a _ A B hA hB).mp (hg.fallsThrough a A hA hlt hleaves)⟩

/-- **All blocks come after the root.** -/
theorem ancestor_root {g : List BasicBlock} (hg : Acyclic g)
    (hpar : ∀ b B, 0 < b → g[b]? = some B → ∃ p, p ∈ B.parents) {b : Nat} {B : BasicBlock}
    (hb : 0 < b) (hB : g[b]? = some B) : Ancestor g 0 b := by
  induction b using Nat.strong_induction_on generalizing B with
  | _ b ih =>
    obtain ⟨p, hp⟩ := hpar b B hb hB
    obtain ⟨hlt, P, hP⟩ := hg b B hB p hp
    rcases Nat.eq_zero_or_pos p with rfl | hpos
    · exact .single ⟨B, hB, hp⟩
    · exact (ih p hlt hpos hP).tail ⟨B, hB, hp⟩

/-! ## Where the ptrace-only blocks start -/

/-- A block that holds a helper call or an assignment, comes after none, and has at most one parent,
begins with one. -/
def Enterable (g : List BasicBlock) : Prop :=
  ∀ b B, g[b]? = some B → B.requiresPtrace = true → B.parents.length ≤ 1 → ¬ ActsBefore g b →
    B.insts.head?.any Instruction.requiresPtrace = true

theorem enterable_of_blocks {g : List BasicBlock} (h : ∀ B ∈ g, B.requiresPtrace = true →
    B.parents.length ≤ 1 → B.insts.head?.any Instruction.requiresPtrace = true) : Enterable g :=
  fun _ B hB hr hlen _ => h B (List.mem_of_getElem? hB) hr hlen

/-- The first call or assignment of a block is its first instruction. -/
theorem findIdx?_firstInst (B : BasicBlock) {k : Nat}
    (hk : B.insts.findIdx? Instruction.requiresPtrace = some k) :
    some k = B.firstInst ↔ B.insts.head?.any Instruction.requiresPtrace = true := by
  unfold BasicBlock.firstInst
  cases hi : B.insts with
  | nil =>
    rw [hi] at hk
    cases hk
  | cons i is =>
    rw [hi, List.findIdx?_cons] at hk
    cases hr : i.requiresPtrace with
    | true =>
      rw [hr, if_pos rfl] at hk
      simp [← Option.some.inj hk, hr]
    | false =>
      rw [hr, if_neg Bool.false_ne_true] at hk
      obtain ⟨n, -, rfl⟩ := Option.map_eq_some_iff.mp hk
      simp [hr]

/-- **When every ptrace-only block can be entered at its first instruction.** -/
theorem startsAtFirst_iff {g : List BasicBlock} (hg : Acyclic g) (o : HashOrder) :
    StartsAtFirst g (colorCode g o).2 ↔ Enterable g := by
  obtain ⟨-, hexact⟩ := colorCode_exact hg o
  constructor
  · intro hs b B hB hr hlen hbefore
    have honly : (colorCode g o).2.count b = true :=
      (mem_getPtraceOnlyBB hg o b).mpr (.single hB (.own hB hr) hlen)
    obtain ⟨k, hk, hfind⟩ := ((hexact b).2 B hB (ptraceOnly_colored hg o honly)).2 hbefore
    rw [← findIdx?_firstInst B hfind, ← hk, ← ptraceOnly_start o honly]
    exact hs.start hB honly
  · intro he e hmem B hB
    have honly : (colorCode g o).2.count e.1 = true := decide_eq_true (List.mem_map_of_mem hmem)
    have hstart : e.2 = (colorCode g o).1.start e.1 := by
      obtain ⟨b, -, rfl⟩ := List.mem_map.mp hmem
      rfl
    obtain ⟨hafter, hown⟩ := (hexact e.1).2 B hB (ptraceOnly_colored hg o honly)
    rw [hstart]
    by_cases hbefore : ActsBefore g e.1
    · exact hafter hbefore
    · obtain ⟨k, hk, hfind⟩ := hown hbefore
      -- no parent is coloured, so there is at most one
      have hno : ∀ p ∈ B.parents, ¬ Colored g p := fun p hp hc =>
        hbefore ((actsBefore_iff hB).mpr ⟨p, hp, hc⟩)
      have hr : B.requiresPtrace = true := by
        rw [requiresPtrace_iff, hfind]
        exact Option.some_ne_none k
      have hlen : B.parents.length ≤ 1 := by
        cases (mem_getPtraceOnlyBB hg o e.1).mp honly with
        | single hB' _ hlen =>
          obtain rfl := Option.some.inj (hB.symm.trans hB')
          exact hlen
        | dominated hB' _ hall =>
          obtain rfl := Option.some.inj (hB.symm.trans hB')
          cases hps : B.parents with
          | nil => exact Nat.zero_le 1
          | cons p ps =>
            have hp : p ∈ B.parents := hps ▸ List.mem_cons_self
            refine absurd ?_ (hno p hp)
            cases hall p hp <;> assumption
      rw [hk, findIdx?_firstInst B hfind]
      exact he e.1 B hB hr hlen hbefore

end SeccompPolicy
