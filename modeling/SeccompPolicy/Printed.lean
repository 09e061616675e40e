import SeccompPolicy.Layout

/-!
# What follows a block in the text

Source: `IRLifter::GenCode` and `IRLifter::GenBasicBlockCode` of `IR_lifter.cpp`.

The text is the blocks that no branch has in an arm, in order, each as a whole. An inlined block
stands in an arm of the last statement of another block, so that what is executed after it is what
is executed after that block: the next blocks of the top level (`printedAfter`).

`blockText` is the text of one block without the bookkeeping of `used_`: a block is printed once
because it has one reference, not because it has been marked.

## Results

* `genBasicBlockCode_depth`: a depth that reaches the last block is enough, so the model's depth
  cuts nothing off.
* `genCode_eq`: the text is made of the roots, each with all that is inlined in it.
* `within_block`: a block and what is executed after it is a place of the text.
* `find_block`: control that comes to a label goes on with the code of the block.
* `mem_roots_of_two`: a block with two references is a root.
-/

namespace SeccompPolicy

open StructuredCode Forest

namespace IRLifter

variable (L : IRLifter)

/-- The text of a block. -/
def blockText (label : String) : List CStmt := (L.genBasicBlockCode L.blockOrder.length label).1

/-- The text of lifted code. -/
def codeText (code : List PtraceCode) : List CStmt :=
  code.flatMap fun p => (L.genPtrace (L.arm L.blockOrder.length) p).1

/-- The blocks of the top level printed after a block and after all that it stands in. -/
def printedAfter (label : String) : List String := behind L.blockOrder L.inlined label

/-- What is executed after a block. -/
def textAfter (label : String) : List CStmt := (L.printedAfter label).flatMap L.blockText

/-- What is executed from the label of a block on. -/
def place (label : String) : List CStmt := L.codeText (L.code label) ++ L.textAfter label

/-- A branch is the last part of its block. -/
def BranchesLast : Prop :=
  ∀ e ∈ L.codeBlocks, ∀ pre p post, e.2 = pre ++ p :: post → p.armTargets ≠ [] → post = []

@[simp] theorem codeText_nil : L.codeText [] = [] := rfl

theorem codeText_cons (p : PtraceCode) (code : List PtraceCode) : L.codeText (p :: code) =
    (L.genPtrace (L.arm L.blockOrder.length) p).1 ++ L.codeText code := List.flatMap_cons

theorem codeText_append (code code' : List PtraceCode) :
    L.codeText (code ++ code') = L.codeText code ++ L.codeText code' := List.flatMap_append

theorem genPtrace_congr {arm arm' : String → List CStmt × List String} {p : PtraceCode}
    (h : ∀ t ∈ p.armTargets, (arm t).1 = (arm' t).1) :
    (L.genPtrace arm p).1 = (L.genPtrace arm' p).1 := by
  cases p with
  | if_ c t f =>
    have ht := h t (by simp [PtraceCode.armTargets])
    have hf := h f (by simp [PtraceCode.armTargets])
    simp only [genPtrace, ht, hf]
  | _ => rfl

variable {L}

/-- A depth that reaches the last block is enough. -/
theorem genBasicBlockCode_depth (hL : L.Ordered) (d d' : Nat) {l : String} (hl : l ∈ L.blockOrder)
    (hd : L.blockOrder.length ≤ L.blockOrder.idxOf l + d)
    (hd' : L.blockOrder.length ≤ L.blockOrder.idxOf l + d') :
    (L.genBasicBlockCode d l).1 = (L.genBasicBlockCode d' l).1 := by
  induction d generalizing d' l with
  | zero => exact absurd (List.idxOf_lt_length_iff.mpr hl) (by omega)
  | succ d ih =>
    cases d' with
    | zero => exact absurd (List.idxOf_lt_length_iff.mpr hl) (by omega)
    | succ d' =>
      simp only [genBasicBlockCode, List.flatMap_map]
      congr 1
      refine List.flatMap_congr fun p hp => L.genPtrace_congr fun t ht => ?_
      split
      · rename_i hone
        obtain ⟨htn, hlt⟩ := hL.isForest.idxOf_lt (mem_inlined.mpr ⟨⟨p, hp, ht⟩, hone⟩)
        exact ih d' htn (by omega) (by omega)
      · rfl

/-- The text of a block: its label, and its code. -/
theorem blockText_eq (hL : L.Ordered) {l : String} (hl : l ∈ L.blockOrder) :
    L.blockText l = L.genLabel l ++ L.codeText (L.code l) := by
  have hlt := List.idxOf_lt_length_iff.mpr hl
  unfold blockText
  rw [genBasicBlockCode_depth hL _ (L.blockOrder.length + 1) hl (by omega) (by omega)]
  simp only [genBasicBlockCode, List.flatMap_map]
  rfl

theorem arm_inlined {t : String} (ht : L.blockRefCnt t = 1) :
    (L.arm L.blockOrder.length t).1 = L.blockText t := by
  unfold arm
  rw [if_pos ht]
  rfl

theorem arm_goto {t : String} (ht : L.blockRefCnt t ≠ 1) :
    (L.arm L.blockOrder.length t).1 = [.line (.goto t)] := by
  unfold arm
  rw [if_neg ht]

/-- The rounds of `GenCode` print the roots. -/
theorem genRounds_text (hL : L.Ordered) (pre post : List (String × List PtraceCode))
    (hsplit : L.codeBlocks = pre ++ post) (text : List CStmt) :
    (post.foldl L.genRound
        (text, (pre.map Prod.fst).foldl (visit L.inlined L.blockOrder.length) [])).1 =
      text ++ ((post.map Prod.fst).filter (isRoot L.blockOrder L.inlined)).flatMap L.blockText := by
  induction post generalizing pre text with
  | nil => exact (List.append_nil text).symm
  | cons e post ih =>
    have horder : L.blockOrder = pre.map Prod.fst ++ e.1 :: post.map Prod.fst := by
      rw [blockOrder, hsplit, List.map_append, List.map_cons]
    have hnext : ((pre ++ [e]).map Prod.fst).foldl (visit L.inlined L.blockOrder.length) [] =
        visit L.inlined L.blockOrder.length
          ((pre.map Prod.fst).foldl (visit L.inlined L.blockOrder.length) []) e.1 := by
      rw [List.map_append, List.foldl_append]
      rfl
    have ih := ih (pre ++ [e]) (by simp [hsplit])
    rw [hnext, visit] at ih
    have hmem := mem_listed_iff hL.isForest horder
    rw [List.foldl_cons, List.map_cons, genRound]
    by_cases hused : e.1 ∈ (pre.map Prod.fst).foldl (visit L.inlined L.blockOrder.length) []
    · -- printed in an arm
      have hroot : ¬ isRoot L.blockOrder L.inlined e.1 = true := by
        rw [hL.isForest.isRoot_iff, not_forall_not]
        exact hmem.mp hused
      rw [if_pos hused] at ih
      rw [if_pos hused, ih, List.filter_cons_of_neg hroot]
    · have hroot : isRoot L.blockOrder L.inlined e.1 = true :=
        hL.isForest.isRoot_iff.mpr (not_exists.mp (hused ∘ hmem.mpr))
      have hlen : L.codeBlocks.length = L.blockOrder.length := (List.length_map _).symm
      rw [if_neg hused, ← genBasicBlockCode_snd] at ih
      rw [if_neg hused, hlen, ih, List.filter_cons_of_pos hroot, List.flatMap_cons, List.append_assoc]
      rfl

/-- **The text is made of the roots**, each with all that is inlined in it. -/
theorem genCode_eq (hL : L.Ordered) :
    L.genCode = (roots L.blockOrder L.inlined).flatMap L.blockText :=
  (genRounds_text hL [] L.codeBlocks rfl []).trans (List.nil_append _)

/-! ## Places -/

/-- An inlined block is executed before what is executed after the block it stands in. -/
theorem textAfter_inlined (hL : L.Ordered) {t y : String} (ht : t ∈ L.inlined y) :
    L.textAfter t = L.textAfter y := by
  rw [textAfter, printedAfter, hL.isForest.behind_kid ht]
  rfl

theorem textAfter_cons (hL : L.Ordered) {l r : String} {rs : List String}
    (h : L.printedAfter l = r :: rs) : r ∈ L.blockOrder ∧
      L.textAfter l = L.blockText r ++ L.textAfter r := by
  obtain ⟨hr, hrest⟩ := hL.isForest.behind_cons h
  refine ⟨(hL.isForest.mem_roots.mp hr).1, ?_⟩
  rw [textAfter, h, List.flatMap_cons, textAfter, printedAfter, hrest]

/-- A block that refers to `t` in an arm, up to that branch. -/
theorem codeText_branch (hlast : L.BranchesLast) {t y : String} (ht : t ∈ L.inlined y) :
    ∃ pre c t₁ t₂, L.code y = pre ++ [.if_ c t₁ t₂] ∧ (t = t₁ ∨ t = t₂) := by
  obtain ⟨⟨p, hp, htp⟩, -⟩ := mem_inlined.mp ht
  obtain ⟨pre, post, hsplit⟩ := List.append_of_mem hp
  obtain rfl := hlast _ (mem_codeBlocks_of_code hp) pre p post hsplit (List.ne_nil_of_mem htp)
  cases p with
  | if_ c t₁ t₂ =>
    refine ⟨pre, c, t₁, t₂, hsplit, ?_⟩
    simpa [PtraceCode.armTargets] using htp
  | _ => exact absurd htp List.not_mem_nil

/-- **A block and what is executed after it is a place of the text.** -/
theorem within_block (hL : L.Ordered) (hlast : L.BranchesLast) {l : String}
    (hl : l ∈ L.blockOrder) : Within L.genCode (L.blockText l ++ L.textAfter l) := by
  have hforest := hL.isForest
  generalize hn : L.blockOrder.idxOf l = n
  induction n using Nat.strongRecOn generalizing l with
  | ind n ih =>
    subst hn
    by_cases hroot : ∃ y, l ∈ L.inlined y
    · -- in an arm of the block above
      obtain ⟨y, hy⟩ := hroot
      have hyn := hforest.member y l hy
      have hwithin := ih _ (hforest.idxOf_lt hy).2 hyn rfl
      obtain ⟨pre, c, t₁, t₂, hcode, hor⟩ := codeText_branch hlast hy
      rw [blockText_eq hL hyn, hcode, codeText_append, List.append_assoc, List.append_assoc] at hwithin
      have hbranch := (hwithin.drop (L.genLabel y)).drop (L.codeText pre)
      have hone := (mem_inlined.mp hy).2
      rw [codeText_cons, codeText_nil, List.append_nil] at hbranch
      rw [textAfter_inlined hL hy, ← arm_inlined hone]
      rcases hor with rfl | rfl
      · exact hbranch.then_
      · exact hbranch.else_
    · have hmem := hforest.mem_roots.mpr ⟨hl, not_exists.mp hroot⟩
      obtain ⟨pre, post, hsplit⟩ := List.append_of_mem hmem
      have hself := (hforest.down hl (Nat.le_add_left _ _)).1
      have hafter : L.printedAfter l = post := hforest.behind_eq hsplit hself
      rw [textAfter, hafter, ← List.flatMap_cons]
      refine Within.drop (pre.flatMap L.blockText) ?_
      rw [← List.flatMap_append, ← hsplit, ← genCode_eq hL]
      exact .here

/-- **Control that comes to a label** goes on with the code of the block. -/
theorem find_block (hL : L.Ordered) (hlast : L.BranchesLast) {l : String} (hl : l ∈ L.blockOrder)
    (hlabel : l ∈ L.interfacePoints ∨ 1 < L.blockRefCnt l) :
    find l L.genCode = some (L.place l) := by
  have hwithin := within_block hL hlast hl
  rw [blockText_eq hL hl, genLabel, if_pos hlabel] at hwithin
  exact hwithin.find (codeLabels_genCode_nodup hL)

/-- What a block refers to is lifted, and stands behind it. -/
theorem target_behind (hL : L.Ordered) {l t : String} {p : PtraceCode} (hp : p ∈ L.code l)
    (ht : t ∈ p.targets) : t ∈ L.blockOrder ∧ L.blockOrder.idxOf l < L.blockOrder.idxOf t := by
  obtain ⟨pre, post, hsplit⟩ := List.append_of_mem (mem_codeBlocks_of_code hp)
  have hpost := hL.forward pre _ post hsplit p hp t ht
  have horder : L.blockOrder = pre.map Prod.fst ++ l :: post.map Prod.fst := by
    rw [blockOrder, hsplit, List.map_append, List.map_cons]
  exact ⟨by simp [horder, hpost], idxOf_lt_of_split hL.nodup horder hpost⟩

/-- A block with two references is a root. -/
theorem mem_roots_of_two (hL : L.Ordered) {l : String} (hl : l ∈ L.blockOrder)
    (h : L.blockRefCnt l ≠ 1) : l ∈ roots L.blockOrder L.inlined :=
  hL.isForest.mem_roots.mpr ⟨hl, fun _ hy => h (mem_inlined.mp hy).2⟩

end IRLifter

end SeccompPolicy
