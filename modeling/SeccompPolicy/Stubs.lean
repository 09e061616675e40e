import SeccompPolicy.Targets

/-!
# Which blocks the filter's list holds

Source: `GenBPFIR` of `code_gen.cpp`.

`GenBPFIR` emits the blocks that are not ptrace-only, and a stub for each ptrace-only block one of
them goes to, when the block starts at its first instruction (`Stubbed`). The source collects
these blocks in `ptrace_targets` while it goes; edges go forward, so in front of a block the set
holds its parents' marks already (`TargetsAt`).

The rest of the development uses the list by what it holds, not by the loop.

## Results

* `genBPFIR_labels`: the labels of the list are those of the emitted and of the stubbed blocks.
* `genBPFIR_registered`: the labels registered for the tracer are those of the stubbed blocks, or
  the syscall name when the whole check is a stub.
* `genBPFIR_branch`: the branches of the list are those of blocks that are not ptrace-only.
-/

namespace SeccompPolicy

variable {g : List BasicBlock} {only : PtraceBasicBlock}

/-- The block is ptrace-only, starts at its first instruction, and comes after a block that is not
ptrace-only. -/
def Stubbed (g : List BasicBlock) (only : PtraceBasicBlock) (b : Nat) : Prop :=
  ∃ B, g[b]? = some B ∧ only.count b = true ∧ only.start b = B.firstInst ∧
    ∃ p ∈ B.parents, only.count p = false

/-- `ptrace_targets` in front of block `b`. -/
def TargetsAt (g : List BasicBlock) (only : PtraceBasicBlock) (b : Nat) (targets : List Nat) : Prop :=
  ∀ c, c ∈ targets ↔ only.count c = true ∧
    ∃ p P, p < b ∧ g[p]? = some P ∧ only.count p = false ∧ c ∈ P.children

theorem TargetsAt.stubbed (hg : IsCFG g) {b : Nat} {targets : List Nat}
    (ht : TargetsAt g only b targets) {B : BasicBlock} (hB : g[b]? = some B) :
    (only.start b = B.firstInst ∧ b ∈ targets) ↔ Stubbed g only b := by
  rw [ht b]
  constructor
  · rintro ⟨hs, hc, p, P, -, hP, hp, hchild⟩
    exact ⟨B, hB, hc, hs, p, (hg.edges p b P B hP hB).mp hchild, hp⟩
  · rintro ⟨B', hB', hc, hs, p, hp, hnot⟩
    obtain rfl := Option.some.inj (hB.symm.trans hB')
    obtain ⟨hlt, P, hP⟩ := hg.acyclic b B hB p hp
    exact ⟨hs, hc, p, P, hlt, hP, hnot, (hg.edges p b P B hP hB).mpr hp⟩

theorem TargetsAt.succ {b : Nat} {targets : List Nat} (ht : TargetsAt g only b targets)
    {B : BasicBlock} (hB : g[b]? = some B) :
    TargetsAt g only (b + 1)
      (if only.count b then targets else targets ++ B.children.filter only.count) := by
  intro c
  have hsplit : (∃ p P, p < b + 1 ∧ g[p]? = some P ∧ only.count p = false ∧ c ∈ P.children) ↔
      (∃ p P, p < b ∧ g[p]? = some P ∧ only.count p = false ∧ c ∈ P.children) ∨
        (only.count b = false ∧ c ∈ B.children) := by
    constructor
    · rintro ⟨p, P, hlt, hP, hp, hc⟩
      rcases Nat.lt_succ_iff_lt_or_eq.mp hlt with hlt | rfl
      · exact .inl ⟨p, P, hlt, hP, hp, hc⟩
      · obtain rfl := Option.some.inj (hB.symm.trans hP)
        exact .inr ⟨hp, hc⟩
    · rintro (⟨p, P, hlt, hP, hp, hc⟩ | ⟨hp, hc⟩)
      · exact ⟨p, P, Nat.lt_succ_of_lt hlt, hP, hp, hc⟩
      · exact ⟨b, B, Nat.lt_succ_self b, hB, hp, hc⟩
  rw [hsplit]
  cases hb : only.count b with
  | true => simp [ht c]
  | false =>
    simp only [Bool.false_eq_true, if_false, List.mem_append, List.mem_filter, ht c, true_and]
    constructor
    · rintro (⟨hc, hp⟩ | ⟨hp, hc⟩)
      · exact ⟨hc, .inl hp⟩
      · exact ⟨hc, .inr hp⟩
    · rintro ⟨hc, hp | hp⟩
      · exact .inl ⟨hc, hp⟩
      · exact .inr ⟨hp, hc⟩

theorem not_stubbed {b : Nat} (hb : only.count b = false) : ¬ Stubbed g only b := by
  rintro ⟨_, _, hc, -⟩
  rw [hb] at hc
  cases hc

/-- A block from `b` on is `b`, or a later one. -/
theorem exists_block_from {b : Nat} {B : BasicBlock} (hB : g[b]? = some B) {l : String}
    {P : Nat → Prop} : (∃ k C, b ≤ k ∧ g[k]? = some C ∧ C.label = l ∧ P k) ↔
      (B.label = l ∧ P b) ∨ ∃ k C, b + 1 ≤ k ∧ g[k]? = some C ∧ C.label = l ∧ P k := by
  constructor
  · rintro ⟨k, C, hk, hC, hl, hP⟩
    rcases Nat.eq_or_lt_of_le hk with rfl | hk
    · obtain rfl := Option.some.inj (hB.symm.trans hC)
      exact .inl ⟨hl, hP⟩
    · exact .inr ⟨k, C, hk, hC, hl, hP⟩
  · rintro (⟨hl, hP⟩ | ⟨k, C, hk, hC, hl, hP⟩)
    · exact ⟨b, B, Nat.le_refl b, hB, hl, hP⟩
    · exact ⟨k, C, Nat.le_of_succ_le hk, hC, hl, hP⟩

/-- The labels of the loop's list, and the labels it registers, from block `b` on. -/
theorem genBlocks_spec (hg : IsCFG g) (Bs : List BasicBlock) (b : Nat) (targets : List Nat)
    (gl : RetGlobals) (hBs : ∀ k, Bs[k]? = g[b + k]?) (ht : TargetsAt g only b targets) (l : String) :
    (l ∈ irLabels (genBlocks only b Bs targets gl).1 ↔ ∃ k B, b ≤ k ∧ g[k]? = some B ∧
        B.label = l ∧ (only.count k = false ∨ Stubbed g only k)) ∧
      (l ∈ (genBlocks only b Bs targets gl).2.retDataToLabel ↔ l ∈ gl.retDataToLabel ∨
        ∃ k B, b ≤ k ∧ g[k]? = some B ∧ B.label = l ∧ Stubbed g only k) := by
  induction Bs generalizing b targets gl with
  | nil =>
    have hend : ∀ k B, b ≤ k → g[k]? ≠ some B := by
      intro k B hk
      have := hBs (k - b)
      rw [Nat.add_sub_cancel' hk] at this
      rw [← this]
      simp
    constructor
    · exact ⟨fun h => absurd h List.not_mem_nil, fun ⟨k, B, hk, hB, _⟩ => absurd hB (hend k B hk)⟩
    · exact ⟨.inl, fun h => h.resolve_right fun ⟨k, B, hk, hB, _⟩ => absurd hB (hend k B hk)⟩
  | cons B Bs ih =>
    have hB : g[b]? = some B := (hBs 0).symm
    have hBs' : ∀ k, Bs[k]? = g[b + 1 + k]? := fun k => by
      rw [Nat.add_right_comm]
      exact hBs (k + 1)
    have hnone : irLabels B.insts = [] :=
      List.filterMap_eq_nil_iff.mpr (hg.noLabel B (List.mem_of_getElem? hB))
    have hstub := ht.stubbed hg hB
    have hnext := ht.succ hB
    rw [exists_block_from hB, exists_block_from hB]
    unfold genBlocks
    cases hb : only.count b with
    | false =>
      rw [hb, if_neg Bool.false_ne_true] at hnext
      obtain ⟨hlab, hreg⟩ := ih (b + 1) _ gl hBs' hnext
      refine ⟨?_, hreg.trans (by simp only [not_stubbed hb, and_false, false_or])⟩
      simp only [Bool.not_false, if_true, irLabels_cons, irLabels_append, hnone, List.nil_append,
        Instruction.label?, Option.toList_some, List.singleton_append, List.mem_cons, hlab, true_or,
        and_true]
      exact or_congr_left eq_comm
    | true =>
      rw [hb, if_pos rfl] at hnext
      simp only [Bool.not_true, Bool.false_eq_true, if_false, Bool.true_eq_false, false_or]
      split_ifs with hs hmem
      · obtain ⟨hlab, hreg⟩ := ih (b + 1) _ gl hBs' hnext
        have hno : ¬ Stubbed g only b := fun h => hs (hstub.mpr h).1
        simp only [hlab, hreg, hno, and_false, false_or, and_self]
      · obtain ⟨hlab, hreg⟩ := ih (b + 1) _ (stub B.label gl).2 hBs' hnext
        have hyes : Stubbed g only b := hstub.mp ⟨not_not.mp hs, hmem⟩
        constructor
        · refine (List.mem_cons (a := l) (b := B.label)).trans (or_congr ?_ hlab)
          exact ⟨fun h => ⟨h.symm, hyes⟩, fun h => h.1.symm⟩
        · refine hreg.trans ?_
          rw [← or_assoc]
          refine or_congr_left (List.mem_append.trans (or_congr_right ?_))
          exact List.mem_singleton.trans ⟨fun h => ⟨h.symm, hyes⟩, fun h => h.1.symm⟩
      · obtain ⟨hlab, hreg⟩ := ih (b + 1) _ gl hBs' hnext
        have hno : ¬ Stubbed g only b := fun h => hmem (hstub.mpr h).2
        simp only [hlab, hreg, hno, and_false, false_or, and_self]

/-- The instructions with targets are those of the emitted blocks. -/
theorem mem_genBlocks {Bs : List BasicBlock} {b : Nat} {targets : List Nat} {gl : RetGlobals}
    {i : Instruction} (hi : i ∈ (genBlocks only b Bs targets gl).1) {t : String}
    (ht : t ∈ i.targets) : ∃ k B, Bs[k]? = some B ∧ only.count (b + k) = false ∧ i ∈ B.insts := by
  induction Bs generalizing b targets gl with
  | nil => exact absurd hi List.not_mem_nil
  | cons B Bs ih =>
    have later : ∀ {targets : List Nat} {gl : RetGlobals},
        i ∈ (genBlocks only (b + 1) Bs targets gl).1 →
        ∃ k C, (B :: Bs)[k]? = some C ∧ only.count (b + k) = false ∧ i ∈ C.insts := by
      intro targets gl h
      obtain ⟨k, C, hC, hk, hiC⟩ := ih h
      exact ⟨k + 1, C, hC, by rwa [Nat.add_right_comm] at hk, hiC⟩
    unfold genBlocks at hi
    split_ifs at hi with hb hs hmem
    · rcases List.mem_cons.mp hi with rfl | hi
      · exact absurd ht List.not_mem_nil
      · rcases List.mem_append.mp hi with hi | hi
        · exact ⟨0, B, rfl, by simpa using hb, hi⟩
        · exact later hi
    · exact later hi
    · rcases List.mem_append.mp hi with hi | hi
      · simp only [stub, List.mem_cons, List.not_mem_nil, or_false] at hi
        rcases hi with rfl | rfl <;> exact absurd ht List.not_mem_nil
      · exact later hi
    · exact later hi

section

variable (hg : IsCFG g) (gl : RetGlobals)

include hg

/-- The labels of the list. -/
theorem genBPFIR_labels (l : String) : l ∈ irLabels (genBPFIR g only gl).1 ↔
    ∃ b B, g[b]? = some B ∧ B.label = l ∧
      if only.count 0 then b = 0 else only.count b = false ∨ Stubbed g only b := by
  obtain ⟨root, hroot⟩ : ∃ root, g[0]? = some root :=
    ⟨_, List.getElem?_eq_getElem (List.length_pos_iff.mpr hg.nonempty)⟩
  rw [genBPFIR_of_root hroot]
  split
  · constructor
    · intro h
      obtain rfl := List.mem_singleton.mp h
      exact ⟨0, root, hroot, rfl, rfl⟩
    · rintro ⟨b, B, hB, rfl, rfl⟩
      obtain rfl := Option.some.inj (hroot.symm.trans hB)
      exact List.mem_cons_self
  · refine (genBlocks_spec hg g 0 [] gl (fun k => by rw [Nat.zero_add]) ?_ l).1.trans ?_
    · exact fun c => ⟨fun h => absurd h List.not_mem_nil,
        fun ⟨_, p, _, hp, _⟩ => absurd hp (Nat.not_lt_zero p)⟩
    · simp

/-- The labels registered for the tracer. -/
theorem genBPFIR_registered (l : String) : l ∈ (genBPFIR g only gl).2.retDataToLabel ↔
    l ∈ gl.retDataToLabel ∨ ∃ b B, g[b]? = some B ∧ B.label = l ∧
      if only.count 0 then b = 0 else Stubbed g only b := by
  obtain ⟨root, hroot⟩ : ∃ root, g[0]? = some root :=
    ⟨_, List.getElem?_eq_getElem (List.length_pos_iff.mpr hg.nonempty)⟩
  rw [genBPFIR_of_root hroot]
  split
  · refine List.mem_append.trans (or_congr_right (List.mem_singleton.trans ⟨?_, ?_⟩))
    · rintro rfl
      exact ⟨0, root, hroot, rfl, rfl⟩
    · rintro ⟨b, B, hB, rfl, rfl⟩
      obtain rfl := Option.some.inj (hroot.symm.trans hB)
      rfl
  · refine (genBlocks_spec hg g 0 [] gl (fun k => by rw [Nat.zero_add]) ?_ l).2.trans ?_
    · exact fun c => ⟨fun h => absurd h List.not_mem_nil,
        fun ⟨_, p, _, hp, _⟩ => absurd hp (Nat.not_lt_zero p)⟩
    · simp

/-- The branches of the list are those of blocks that are not ptrace-only. -/
theorem genBPFIR_branch {i : Instruction} (hi : i ∈ (genBPFIR g only gl).1) {t : String}
    (ht : t ∈ i.targets) : only.count 0 = false ∧
      ∃ b B, g[b]? = some B ∧ only.count b = false ∧ i ∈ B.insts := by
  obtain ⟨root, hroot⟩ : ∃ root, g[0]? = some root :=
    ⟨_, List.getElem?_eq_getElem (List.length_pos_iff.mpr hg.nonempty)⟩
  rw [genBPFIR_of_root hroot] at hi
  split at hi
  · simp only [stub, List.mem_cons, List.not_mem_nil, or_false] at hi
    rcases hi with rfl | rfl <;> exact absurd ht List.not_mem_nil
  · rename_i h0
    obtain ⟨k, B, hB, hk, hiB⟩ := mem_genBlocks hi ht
    exact ⟨by simpa using h0, k, B, hB, by rwa [Nat.zero_add] at hk, hiB⟩

end

end SeccompPolicy
