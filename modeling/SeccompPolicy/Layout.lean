import SeccompPolicy.GenCode
import SeccompPolicy.Lib.Forest

/-!
# Where `GenCode` prints a block

Source: `IRLifter::GenCode` and `IRLifter::GenBasicBlockCode` of `IR_lifter.cpp`, with the map
`used_`.

A block that a single branch refers to, in one of its arms, is printed in that arm: the blocks
form a forest, in the sense of `Lib.Forest`. `GenCode` goes through them in order and prints each
one that is not printed yet with all blocks below it, so that every lifted block is printed once;
the labels and the `goto`s of the text are those of the blocks, one by one.

`Ordered` is what the compiler's branches are: the blocks have labels of their own, and lifted
code refers to lifted blocks behind it. Everything here is for lifted code of that kind, without
the CFG it comes from.

## Results

* `Ordered.isForest`: the blocks form a forest.
* `genCode_perm`: every lifted block is printed once.
* `mem_codeLabels_genCode`, `codeLabels_genCode_nodup`: the labels of the text are those of the
  lifted blocks that are interface points or have two references, each once.
* `mem_jumps_genCode_iff`: its `goto`s are the unconditional branches, and the arms whose block
  has other references.
-/

namespace SeccompPolicy

open StructuredCode Forest

/-- The targets of the arms. -/
def PtraceCode.armTargets : PtraceCode → List String
  | .if_ _ t f => [t, f]
  | _ => []

/-- Where a `goto` line goes. -/
def CLine.target? : CLine → Option String
  | .goto l => some l
  | _ => none

/-- The labels the `goto`s of a text name. -/
def jumps (text : List CStmt) : List String := (codeLines text).filterMap CLine.target?

@[simp] theorem jumps_append (a b : List CStmt) : jumps (a ++ b) = jumps a ++ jumps b := by
  rw [jumps, codeLines_append, List.filterMap_append]
  rfl

namespace IRLifter

variable (L : IRLifter)

/-- `block_order_`. -/
def blockOrder : List String := L.codeBlocks.map Prod.fst

/-- The blocks printed inside a block. -/
def inlined (label : String) : List String :=
  ((L.code label).flatMap PtraceCode.armTargets).filter fun t => decide (L.blockRefCnt t = 1)

/-- A block printed with its label. -/
def hasLabel (label : String) : Bool :=
  decide (label ∈ L.interfacePoints ∨ 1 < L.blockRefCnt label)

/-- The labels named by the `goto`s of a `PtraceCode`. -/
def ptraceJumps : PtraceCode → List String
  | .if_ _ t f => [t, f].filter fun t => decide (L.blockRefCnt t ≠ 1)
  | .goto t => [t]
  | _ => []

/-- The labels named by the `goto`s of a block. -/
def ownJumps (label : String) : List String := (L.code label).flatMap L.ptraceJumps

theorem codeLabels_genLabel (label : String) :
    codeLabels (L.genLabel label) = if L.hasLabel label then [label] else [] := by
  unfold genLabel hasLabel
  by_cases h : label ∈ L.interfacePoints ∨ 1 < L.blockRefCnt label <;>
    simp [h, codeLabels, Stmt.labels]

theorem jumps_genLabel (label : String) : jumps (L.genLabel label) = [] := by
  unfold genLabel
  split <;> rfl

/-- What the arms are to a block: the text and the blocks of each inlined one. -/
abbrev arm (depth : Nat) (t : String) : List CStmt × List String :=
  if L.blockRefCnt t = 1 then L.genBasicBlockCode depth t else ([.line (.goto t)], [])

theorem arm_snd (depth : Nat) (t : String) : (L.arm depth t).2 =
    if L.blockRefCnt t = 1 then (L.genBasicBlockCode depth t).2 else [] := by
  unfold arm
  split <;> rfl

/-- The blocks used are those below. -/
theorem genBasicBlockCode_snd (depth : Nat) (label : String) :
    (L.genBasicBlockCode depth label).2 = below L.inlined depth label := by
  induction depth generalizing label with
  | zero => rfl
  | succ depth ih =>
    have hpart : ∀ p : PtraceCode, (L.genPtrace (L.arm depth) p).2 =
        (p.armTargets.filter fun t => decide (L.blockRefCnt t = 1)).flatMap
          (below L.inlined depth) := by
      intro p
      cases p with
      | if_ c t f =>
        simp only [genPtrace, PtraceCode.armTargets, arm_snd, ih, List.filter_cons, List.filter_nil,
          decide_eq_true_eq]
        split_ifs <;> simp
      | _ => rfl
    simp only [genBasicBlockCode, below, List.flatMap_map, inlined]
    rw [List.filter_flatMap, List.flatMap_assoc]
    congr 1
    exact List.flatMap_congr fun p _ => hpart p

theorem codeLabels_flatMap {β : Type*} (xs : List β) (g : β → List CStmt) :
    codeLabels (xs.flatMap g) = xs.flatMap fun x => codeLabels (g x) := by
  induction xs with
  | nil => rfl
  | cons x xs ih => rw [List.flatMap_cons, codeLabels_append, ih, List.flatMap_cons]

theorem jumps_flatMap {β : Type*} (xs : List β) (g : β → List CStmt) :
    jumps (xs.flatMap g) = xs.flatMap fun x => jumps (g x) := by
  induction xs with
  | nil => rfl
  | cons x xs ih => rw [List.flatMap_cons, jumps_append, ih, List.flatMap_cons]

/-- The labels of a block's text, in order. -/
theorem codeLabels_block (depth : Nat) (label : String) :
    codeLabels (L.genBasicBlockCode depth label).1 =
      (below L.inlined depth label).filter L.hasLabel := by
  rw [← genBasicBlockCode_snd]
  induction depth generalizing label with
  | zero => rfl
  | succ depth ih =>
    have harm : ∀ t, codeLabels (L.arm depth t).1 = (L.arm depth t).2.filter L.hasLabel := by
      intro t
      unfold arm
      split
      · exact ih t
      · rfl
    have hpart : ∀ p : PtraceCode, codeLabels (L.genPtrace (L.arm depth) p).1 =
        (L.genPtrace (L.arm depth) p).2.filter L.hasLabel := by
      intro p
      cases p with
      | if_ c t f => simp [genPtrace, codeLabels, Stmt.labels, harm]
      | _ => rfl
    simp only [genBasicBlockCode, codeLabels_append, codeLabels_genLabel, List.flatMap_map,
      codeLabels_flatMap, List.filter_cons, List.filter_flatMap, hpart]
    split <;> rfl

/-- The line after an assignment. -/
theorem copyBack_cases (x : String) (e : CExpr) : ∃ i,
    L.copyBack x e = .copyBackString x i ∨ (∃ size, L.copyBack x e = .copyBackMem x i size) ∨
      L.copyBack x e = .setArg i e := by
  refine ⟨(L.info.argIndex.lookup x).getD 0, ?_⟩
  unfold copyBack
  split
  · exact .inl rfl
  · cases L.info.memArgsSize.lookup x with
    | some size => exact .inr (.inl ⟨size, rfl⟩)
    | none => exact .inr (.inr rfl)

theorem target?_copyBack (x : String) (e : CExpr) : (L.copyBack x e).target? = none := by
  obtain ⟨i, h | ⟨size, h⟩ | h⟩ := L.copyBack_cases x e <;> rw [h] <;> rfl

/-- The `goto`s of a block's text. -/
theorem mem_jumps_block (depth : Nat) (label l : String) :
    l ∈ jumps (L.genBasicBlockCode depth label).1 ↔
      l ∈ (below L.inlined depth label).flatMap L.ownJumps := by
  rw [← genBasicBlockCode_snd]
  induction depth generalizing label with
  | zero => simp [genBasicBlockCode, jumps, codeLines]
  | succ depth ih =>
    have harm : ∀ t, l ∈ jumps (L.arm depth t).1 ↔
        (l = t ∧ L.blockRefCnt l ≠ 1) ∨ l ∈ (L.arm depth t).2.flatMap L.ownJumps := by
      intro t
      unfold arm
      split
      · rename_i ht
        rw [ih, or_iff_right]
        rintro ⟨rfl, hne⟩
        exact hne ht
      · rename_i ht
        rw [List.flatMap_nil, List.mem_nil_iff, or_false]
        refine (List.mem_singleton (b := t)).trans ⟨?_, And.left⟩
        rintro rfl
        exact ⟨rfl, ht⟩
    have hpart : ∀ p : PtraceCode, l ∈ jumps (L.genPtrace (L.arm depth) p).1 ↔
        l ∈ L.ptraceJumps p ∨ l ∈ (L.genPtrace (L.arm depth) p).2.flatMap L.ownJumps := by
      intro p
      cases p with
      | if_ c t f =>
        have hjumps : jumps [.branch c (L.arm depth t).1 (L.arm depth f).1] =
            jumps (L.arm depth t).1 ++ jumps (L.arm depth f).1 := by
          simp [jumps, codeLines, Stmt.lines]
        simp only [genPtrace, hjumps, List.mem_append, harm, ptraceJumps, List.mem_filter,
          List.mem_cons, List.not_mem_nil, or_false, decide_eq_true_eq, List.flatMap_append]
        tauto
      | assign x e =>
        have hnil : jumps (L.genPtrace (L.arm depth) (.assign x e)).1 = [] := by
          show List.filterMap CLine.target? [_, L.copyBack x e] = []
          rw [List.filterMap_cons_none rfl, List.filterMap_cons_none (L.target?_copyBack x e)]
          rfl
        rw [hnil]
        simp [genPtrace, ptraceJumps]
      | _ => simp [genPtrace, jumps, codeLines, Stmt.lines, CLine.target?, ptraceJumps]
    simp only [genBasicBlockCode, jumps_append, jumps_genLabel, List.nil_append, jumps_flatMap,
      List.flatMap_map, List.flatMap_cons, List.mem_append, ownJumps]
    rw [List.flatMap_assoc]
    simp only [List.mem_flatMap (l := L.code label), hpart, and_or_left, exists_or]

/-! ## The whole text -/

/-- What every printed block keeps, the rounds of `GenCode` keep. -/
theorem genRounds_keep {P : List CStmt × List String → Prop}
    (hblock : ∀ acc label, P acc → P (acc.1 ++ (L.genBasicBlockCode L.codeBlocks.length label).1,
      acc.2 ++ (L.genBasicBlockCode L.codeBlocks.length label).2))
    (es : List (String × List PtraceCode)) {acc : List CStmt × List String} (h : P acc) :
    P (es.foldl L.genRound acc) := by
  induction es generalizing acc with
  | nil => exact h
  | cons e es ih =>
    refine ih ?_
    unfold genRound
    split
    · exact h
    · exact hblock acc e.1 h

/-- The blocks used by the rounds of `GenCode`. -/
theorem genRounds_snd (es : List (String × List PtraceCode)) (acc : List CStmt × List String) :
    (es.foldl L.genRound acc).2 =
      (es.map Prod.fst).foldl (visit L.inlined L.blockOrder.length) acc.2 := by
  induction es generalizing acc with
  | nil => rfl
  | cons e es ih =>
    have hround : (L.genRound acc e).2 = visit L.inlined L.blockOrder.length acc.2 e.1 := by
      unfold genRound visit
      split
      · rfl
      · simp [genBasicBlockCode_snd, blockOrder]
    rw [List.foldl_cons, List.map_cons, List.foldl_cons, ih, hround]

/-- The blocks `GenCode` has used at its end. -/
def printed : List String := (L.codeBlocks.foldl L.genRound ([], [])).2

theorem printed_eq : L.printed = L.blockOrder.foldl (visit L.inlined L.blockOrder.length) [] :=
  L.genRounds_snd L.codeBlocks ([], [])

/-- The labels of the text are those of the printed blocks that have one. -/
theorem codeLabels_genCode : codeLabels L.genCode = L.printed.filter L.hasLabel := by
  refine L.genRounds_keep (P := fun acc => codeLabels acc.1 = acc.2.filter L.hasLabel)
    (fun acc label h => ?_) L.codeBlocks rfl
  simp only [codeLabels_append, h, codeLabels_block, genBasicBlockCode_snd, List.filter_append]

theorem mem_jumps_genCode (l : String) :
    l ∈ jumps L.genCode ↔ l ∈ L.printed.flatMap L.ownJumps := by
  refine L.genRounds_keep (P := fun acc => l ∈ jumps acc.1 ↔ l ∈ acc.2.flatMap L.ownJumps)
    (fun acc label h => ?_) L.codeBlocks (by simp [jumps, codeLines])
  simp only [jumps_append, List.mem_append, h, mem_jumps_block, genBasicBlockCode_snd,
    List.flatMap_append]

/-- What the branches of the compiler are: the blocks have labels of their own, and lifted code
refers to lifted blocks behind it. -/
structure Ordered : Prop where
  nodup : L.blockOrder.Nodup
  forward : ∀ pre e post, L.codeBlocks = pre ++ e :: post → ∀ p ∈ e.2, ∀ t ∈ p.targets,
    t ∈ post.map Prod.fst

theorem mem_targets_of_arm {p : PtraceCode} {t : String} (h : t ∈ p.armTargets) :
    t ∈ p.targets := by
  cases p <;> first | exact h | exact absurd h List.not_mem_nil

variable {L}

theorem code_of_mem (hnd : L.blockOrder.Nodup) {e : String × List PtraceCode}
    (he : e ∈ L.codeBlocks) : L.code e.1 = e.2 := by
  obtain ⟨pre, post, hsplit⟩ := List.append_of_mem he
  rw [blockOrder, hsplit, List.map_append, List.map_cons, List.nodup_middle, List.nodup_cons] at hnd
  have hpre : pre.lookup e.1 = none := by
    rw [List.lookup_eq_none_iff]
    intro x hx
    rw [bne_iff_ne]
    exact fun h => hnd.1 (List.mem_append_left _ (List.mem_map.mpr ⟨x, hx, h.symm⟩))
  rw [code, hsplit, List.lookup_append, hpre, Option.none_or, List.lookup_cons_self]
  rfl

/-- Lifted code is the code of a lifted block. -/
theorem mem_codeBlocks_of_code {label : String} {p : PtraceCode} (hp : p ∈ L.code label) :
    (label, L.code label) ∈ L.codeBlocks := by
  unfold code at hp ⊢
  cases hl : L.codeBlocks.lookup label with
  | none =>
    rw [hl] at hp
    exact absurd hp List.not_mem_nil
  | some c =>
    obtain ⟨pre, post, hsplit, -⟩ := List.lookup_eq_some_iff.mp hl
    simp [hsplit]

theorem mem_inlined {t y : String} : t ∈ L.inlined y ↔
    (∃ p ∈ L.code y, t ∈ p.armTargets) ∧ L.blockRefCnt t = 1 := by
  rw [inlined, List.mem_filter, List.mem_flatMap, decide_eq_true_eq]

/-- What the lifted code of a block refers to. -/
def blockTargets (e : String × List PtraceCode) : List String := e.2.flatMap PtraceCode.targets

theorem blockRefCnt_split {pre post : List (String × List PtraceCode)}
    {e : String × List PtraceCode} (hsplit : L.codeBlocks = pre ++ e :: post) (t : String) :
    L.blockRefCnt t =
      (blockTargets e).count t + ((pre ++ post).flatMap blockTargets).count t := by
  show (L.codeBlocks.flatMap blockTargets).count t = _
  rw [hsplit]
  simp only [List.flatMap_append, List.flatMap_cons, List.count_append]
  omega

theorem mem_blockTargets {e : String × List PtraceCode} {p : PtraceCode} (hp : p ∈ e.2) {t : String}
    (ht : t ∈ p.targets) : t ∈ blockTargets e := List.mem_flatMap.mpr ⟨p, hp, ht⟩

/-- **The blocks form a forest.** -/
theorem Ordered.isForest (hL : L.Ordered) : IsForest L.blockOrder L.inlined where
  nodup := hL.nodup
  kidsNodup y := by
    refine List.nodup_iff_count_le_one.mpr fun t => ?_
    by_cases ht : t ∈ L.inlined y
    · obtain ⟨⟨p, hp, -⟩, hone⟩ := mem_inlined.mp ht
      obtain ⟨pre, post, hsplit⟩ := List.append_of_mem (mem_codeBlocks_of_code hp)
      have hle : (L.inlined y).count t ≤ (blockTargets (y, L.code y)).count t := by
        refine (List.filter_sublist.count_le t).trans ?_
        refine (List.Sublist.flatMap_right _ fun p _ => ?_).count_le t
        cases p <;> first | exact List.Sublist.refl _ | exact List.nil_sublist _
      rw [blockRefCnt_split hsplit] at hone
      omega
    · rw [List.count_eq_zero_of_not_mem ht]
      exact Nat.zero_le 1
  member y t ht := by
    obtain ⟨⟨p, hp, -⟩, -⟩ := mem_inlined.mp ht
    exact List.mem_map_of_mem (f := Prod.fst) (mem_codeBlocks_of_code hp)
  later pre y post hsplit t ht := by
    obtain ⟨⟨p, hp, htp⟩, -⟩ := mem_inlined.mp ht
    obtain ⟨pre', rest, hcode, rfl, hrest⟩ := List.map_eq_append_iff.mp hsplit
    obtain ⟨e, post', rfl, rfl, rfl⟩ := List.map_eq_cons_iff.mp hrest
    have he : e ∈ L.codeBlocks := by simp [hcode]
    exact hL.forward pre' e post' hcode p (code_of_mem hL.nodup he ▸ hp) t (mem_targets_of_arm htp)
  parent y z t hy hz := by
    obtain ⟨⟨p, hp, htp⟩, hone⟩ := mem_inlined.mp hy
    obtain ⟨⟨q, hq, htq⟩, -⟩ := mem_inlined.mp hz
    by_contra hne
    -- two blocks that refer to one label
    obtain ⟨pre, post, hsplit⟩ := List.append_of_mem (mem_codeBlocks_of_code hp)
    have hmem : (z, L.code z) ∈ pre ++ post := by
      have h := mem_codeBlocks_of_code hq
      rw [hsplit] at h
      simpa [Ne.symm hne, or_assoc] using h
    rw [blockRefCnt_split hsplit] at hone
    have h₁ := List.count_pos_iff.mpr
      (mem_blockTargets (e := (y, L.code y)) hp (mem_targets_of_arm htp))
    have h₂ := List.count_pos_iff.mpr (List.mem_flatMap.mpr
      ⟨_, hmem, mem_blockTargets (e := (z, L.code z)) hq (mem_targets_of_arm htq)⟩)
    omega

/-- **Every lifted block is printed once.** -/
theorem genCode_perm (hL : L.Ordered) : L.printed.Perm L.blockOrder :=
  L.printed_eq ▸ visit_perm hL.isForest

/-- The labels of the text: those of the lifted blocks that are interface points or have two
references, each once. -/
theorem mem_codeLabels_genCode (hL : L.Ordered) {l : String} : l ∈ codeLabels L.genCode ↔
    l ∈ L.blockOrder ∧ (l ∈ L.interfacePoints ∨ 1 < L.blockRefCnt l) := by
  rw [codeLabels_genCode, List.mem_filter, (genCode_perm hL).mem_iff, hasLabel, decide_eq_true_eq]

theorem codeLabels_genCode_nodup (hL : L.Ordered) : (codeLabels L.genCode).Nodup := by
  rw [codeLabels_genCode]
  exact ((genCode_perm hL).nodup_iff.mpr hL.nodup).filter _

/-- The `goto`s of the text: every unconditional branch, and the arms whose block has other
references. -/
theorem mem_jumps_genCode_iff (hL : L.Ordered) {l : String} : l ∈ jumps L.genCode ↔
    ∃ e ∈ L.codeBlocks, .goto l ∈ e.2 ∨ (∃ p ∈ e.2, l ∈ p.armTargets) ∧ L.blockRefCnt l ≠ 1 := by
  have hp : ∀ p : PtraceCode, l ∈ L.ptraceJumps p ↔
      p = .goto l ∨ l ∈ p.armTargets ∧ L.blockRefCnt l ≠ 1 := by
    intro p
    cases p with
    | goto t => simpa [ptraceJumps, PtraceCode.armTargets] using eq_comm
    | if_ c t f => simp [ptraceJumps, PtraceCode.armTargets]
    | _ => simp [ptraceJumps, PtraceCode.armTargets]
  rw [mem_jumps_genCode, ((genCode_perm hL).flatMap_right _).mem_iff, blockOrder, List.flatMap_map,
    List.mem_flatMap]
  refine exists_congr fun e => and_congr_right fun he => ?_
  rw [ownJumps, code_of_mem hL.nodup he, List.mem_flatMap]
  simp only [hp, and_or_left, exists_or, exists_eq_right, ← and_assoc, exists_and_right]

end IRLifter

end SeccompPolicy
