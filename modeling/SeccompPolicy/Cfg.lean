import Mathlib.Data.List.Chain
import SeccompPolicy.IR

/-!
# The control-flow graph: `BuildCFG`

Source: `BasicBlock` of `IR_gen.h`, `CodeGenMgr::NewBasicBlock` and `BuildCFG` of `IR_gen.cpp`.

A `BasicBlock *` is an index into the vector `BuildCFG` returns, which is in program order; its
first block is the root, labelled by the syscall name. The map `backward` of the source is a list
of pairs of target and block, in the order they are pushed. `BuildCFG` is one loop over the list
(`CFGBuilder.step`), and what the rest of the development needs of its result is `IsCFG`:

* an edge goes to a later block (`IsCFG.forward`), and is recorded on both sides (`IsCFG.edges`);
* a branch of a block has, for each target, a child with that label (`IsCFG.target`);
* a block that does not end in a branch or a return has the next block as a child
  (`IsCFG.fallsThrough`).

`cfgStep` executes a CFG: inside a block as the instruction says, to the child with the label
branched to, and past the end of a block to the next block when that is a child.

The proofs keep one invariant of the loop, `Inv`, which says of the part of the list that has been
read what `IsCFG` says of all of it; its step is split by what is read, an instruction or a label.

## Results

* `buildCFG_acyclic`: whatever the list, edges go forward only. An edge is added when its target
  block is made, so a branch back is never one.
* `buildCFG_topological`: the CFG of a list whose branches go forward is in topological order.
* `buildCFG_isCFG`: from distinct labels that are not the syscall name, and forward branches,
  `BuildCFG` builds a control-flow graph.
* `flatten_buildCFG`: the blocks, one after the other, are the list.
* `buildCFG_exact`: an edge is there exactly where the last instruction of a block can pass
  control, as often in the children of the one block as in the parents of the other.
-/

namespace SeccompPolicy

open LabelledCode SmallStep

/-- `BasicBlock`. -/
structure BasicBlock where
  label : String
  insts : List Instruction := []
  children : List Nat := []
  parents : List Nat := []
  deriving DecidableEq, Repr

/-- `FirstInst`: the index of the first instruction, or none (a null pointer) in an empty block. -/
def BasicBlock.firstInst (B : BasicBlock) : Option Nat := if B.insts.isEmpty then none else some 0

/-- The local variables of `BuildCFG`: `ordered_BBs`, whose last block is `cur_BB`, the branches
seen so far as pairs of target and block, and `prev_branch_or_ret`. -/
structure CFGBuilder where
  ordered : List BasicBlock
  backward : List (String × Nat) := []
  prevBranchOrRet : Bool := false

/-- The block ends in a branch or a return. -/
def BasicBlock.leaves (B : BasicBlock) : Bool := B.insts.getLast?.any fun i => i.isBranch || i.isReturn

namespace CFGBuilder

/-- The index of `cur_BB`. -/
def cur (b : CFGBuilder) : Nat := b.ordered.length - 1

/-- `AddChild`, for each block of a list. -/
def addChildren (new : Nat) (ps : List Nat) (bs : List BasicBlock) : List BasicBlock :=
  ps.foldl (fun bs p => bs.modify p fun B => { B with children := B.children ++ [new] }) bs

/-- The parents of a block that starts at label `l`: the current block when it falls through, then
the branches to `l`. -/
def newParents (b : CFGBuilder) (l : String) : List Nat :=
  (if b.prevBranchOrRet then [] else [b.cur]) ++
    (b.backward.filter fun e => e.1 = l).map Prod.snd

/-- One round of the loop of `BuildCFG`. -/
def step (b : CFGBuilder) : Instruction → CFGBuilder
  | .label l =>
    { ordered := addChildren b.ordered.length (b.newParents l) b.ordered ++
        [{ label := l, parents := b.newParents l }]
      backward := b.backward
      prevBranchOrRet := false }
  | i =>
    { ordered := b.ordered.modify b.cur fun B => { B with insts := B.insts ++ [i] }
      backward := b.backward ++ i.targets.map fun t => (t, b.cur)
      prevBranchOrRet := i.isBranch || i.isReturn }

end CFGBuilder

/-- `BuildCFG`. -/
def buildCFG (code : List Instruction) (syscallName : String) : List BasicBlock :=
  (code.foldl CFGBuilder.step { ordered := [{ label := syscallName }] }).ordered

/-! ## Execution of a CFG -/

/-- A block, an index into it and a state. -/
structure CFGConfig (V : Type*) where
  block : Nat
  pc : Nat
  st : IRState V

variable {V : Type*} (D : Domain V) (h : Helpers V)

/-- Entering a block is recorded under its label. -/
def enterBlock (g : List BasicBlock) (c : Nat) (s : IRState V) : CFGConfig V :=
  ⟨c, 0, s.record (.enter ((g[c]?.map BasicBlock.label).getD ""))⟩

/-- The child of a block a branch to `t` leads to. -/
def childAt (g : List BasicBlock) (B : BasicBlock) (t : String) : Option Nat :=
  B.children.find? fun c => decide (g[c]?.map BasicBlock.label = some t)

/-- One step of the execution of a CFG. -/
def cfgStep (g : List BasicBlock) (c : CFGConfig V) : CFGConfig V ⊕ (Outcome × IRState V) :=
  match g[c.block]? with
  | none => .inr (.stuck, c.st)
  | some B =>
    match B.insts[c.pc]? with
    | none =>
      if c.block + 1 ∈ B.children then .inl (enterBlock g (c.block + 1) c.st)
      else .inr (.runOff, c.st)
    | some i =>
      match irAct D h i c.st with
      | .next s => .inl ⟨c.block, c.pc + 1, s⟩
      | .jump t s =>
        match childAt g B t with
        | some k => .inl (enterBlock g k s)
        | none => .inr (.stuck, s)
      | .stop r => .inr r

/-! ## What `BuildCFG` builds -/

/-- Every branch goes to labels defined after it. -/
def ForwardTargets : List Instruction → Prop
  | [] => True
  | i :: code => (∀ t ∈ i.targets, t ∈ irLabels code) ∧ ForwardTargets code

instance ForwardTargets.decidable : DecidablePred ForwardTargets
  | [] => inferInstanceAs (Decidable True)
  | _ :: code =>
    have := ForwardTargets.decidable code
    inferInstanceAs (Decidable (_ ∧ _))

/-- A target of an instruction is defined behind it. -/
theorem ForwardTargets.split {pre : List Instruction} {i : Instruction} {post : List Instruction}
    (hf : ForwardTargets (pre ++ i :: post)) : ∀ t ∈ i.targets, t ∈ irLabels post := by
  induction pre with
  | nil => exact hf.1
  | cons j pre ih => exact ih hf.2

/-- Parents come first, and are blocks. -/
def Acyclic (g : List BasicBlock) : Prop :=
  ∀ (c : Nat) (C : BasicBlock), g[c]? = some C → ∀ p ∈ C.parents, p < c ∧ ∃ P, g[p]? = some P

/-- The CFG is listed in topological order: an edge goes to a later block, seen from both of its
ends, and a branch is an edge to the block it names. -/
structure Topological (g : List BasicBlock) : Prop where
  parents : Acyclic g
  children : ∀ (b : Nat) (B : BasicBlock), g[b]? = some B → ∀ c ∈ B.children, b < c ∧ c < g.length
  target : ∀ (b : Nat) (B : BasicBlock), g[b]? = some B → ∀ i ∈ B.insts, ∀ t ∈ i.targets,
    ∃ c ∈ B.children, ∃ C, g[c]? = some C ∧ C.label = t

/-- The facts about a CFG the later passes rest on. -/
structure IsCFG (g : List BasicBlock) : Prop where
  nonempty : g ≠ []
  acyclic : Acyclic g
  labels : (g.map BasicBlock.label).Nodup
  noLabel : ∀ B ∈ g, ∀ i ∈ B.insts, i.label? = none
  forward : ∀ (b : Nat) (B : BasicBlock), g[b]? = some B → ∀ c ∈ B.children, b < c ∧ c < g.length
  edges : ∀ (b c : Nat) (B C : BasicBlock), g[b]? = some B → g[c]? = some C →
    (c ∈ B.children ↔ b ∈ C.parents)
  target : ∀ (b : Nat) (B : BasicBlock), g[b]? = some B → ∀ i ∈ B.insts, ∀ t ∈ i.targets,
    ∃ c ∈ B.children, ∃ C, g[c]? = some C ∧ C.label = t
  fallsThrough : ∀ (b : Nat) (B : BasicBlock), g[b]? = some B → b + 1 < g.length →
    B.leaves = false → b + 1 ∈ B.children

/-- The block with `n` more edges to `new`. -/
def BasicBlock.addEdges (B : BasicBlock) (n new : Nat) : BasicBlock :=
  { B with children := B.children ++ List.replicate n new }

/-- The block with one more instruction. -/
def BasicBlock.addInst (B : BasicBlock) (i : Instruction) : BasicBlock :=
  { B with insts := B.insts ++ [i] }

namespace CFGBuilder

theorem addChildren_nil (new : Nat) (bs : List BasicBlock) : addChildren new [] bs = bs := rfl

theorem addChildren_cons (new p : Nat) (ps : List Nat) (bs : List BasicBlock) :
    addChildren new (p :: ps) bs =
      addChildren new ps (bs.modify p fun B => { B with children := B.children ++ [new] }) := rfl

/-- Adding children changes nothing but the children, which grow at the blocks listed. -/
theorem addChildren_getElem (new : Nat) (ps : List Nat) (bs : List BasicBlock) (b : Nat) :
    (addChildren new ps bs)[b]? = bs[b]?.map fun B => B.addEdges (ps.count b) new := by
  induction ps generalizing bs with
  | nil => cases hb : bs[b]? <;> simp [addChildren_nil, BasicBlock.addEdges, hb]
  | cons p ps ih =>
    rw [addChildren_cons, ih, List.getElem?_modify]
    by_cases hp : p = b
    · subst hp
      cases bs[p]? with
      | none => rfl
      | some B => simp [BasicBlock.addEdges, List.replicate_succ]
    · rw [List.count_cons_of_ne hp]
      cases bs[b]? <;> simp [hp]

theorem addChildren_length (new : Nat) (ps : List Nat) (bs : List BasicBlock) :
    (addChildren new ps bs).length = bs.length := by
  induction ps generalizing bs with
  | nil => rfl
  | cons p ps ih => rw [addChildren_cons, ih, List.length_modify]

theorem step_of_none {i : Instruction} (hi : i.label? = none) (b : CFGBuilder) : b.step i =
    { ordered := b.ordered.modify b.cur fun B => { B with insts := B.insts ++ [i] }
      backward := b.backward ++ i.targets.map fun t => (t, b.cur)
      prevBranchOrRet := i.isBranch || i.isReturn } := by
  cases i <;> first | rfl | simp [Instruction.label?] at hi

/-- What the loop of `BuildCFG` has built from the part `pre` of the list. -/
structure Inv (name : String) (pre : List Instruction) (b : CFGBuilder) : Prop where
  labels : b.ordered.map BasicBlock.label = name :: irLabels pre
  insts : ∀ (k : Nat) (B : BasicBlock), b.ordered[k]? = some B → ∀ i ∈ B.insts,
    i.label? = none ∧ ∃ p q, pre = p ++ i :: q ∧ k = (irLabels p).length
  backward : ∀ (t : String) (p : Nat), (t, p) ∈ b.backward ↔
    ∃ P, b.ordered[p]? = some P ∧ ∃ i ∈ P.insts, t ∈ i.targets
  flag : ∀ B, b.ordered[b.cur]? = some B → b.prevBranchOrRet = B.leaves
  parents : ∀ (c : Nat) (C : BasicBlock), b.ordered[c]? = some C → ∀ p, p ∈ C.parents ↔
    p < c ∧ ∃ P, b.ordered[p]? = some P ∧
      ((p + 1 = c ∧ P.leaves = false) ∨ ∃ i ∈ P.insts, C.label ∈ i.targets)
  children : ∀ (p c : Nat) (P C : BasicBlock), b.ordered[p]? = some P → b.ordered[c]? = some C →
    P.children.count c = C.parents.count p
  bounded : ∀ (p : Nat) (P : BasicBlock), b.ordered[p]? = some P →
    ∀ c ∈ P.children, c < b.ordered.length

variable {name : String} {pre : List Instruction} {b : CFGBuilder}

/-- There is one block for each label, and the root. -/
theorem Inv.length (hb : Inv name pre b) : b.ordered.length = (irLabels pre).length + 1 := by
  have := congrArg List.length hb.labels
  simpa using this

theorem Inv.cur_lt (hb : Inv name pre b) : b.cur < b.ordered.length := by
  have := hb.length
  unfold cur
  omega

/-- In front of the list there is the root alone. -/
theorem inv_init (name : String) : Inv name [] { ordered := [{ label := name }] } where
  labels := rfl
  insts k B hk i hi := by
    cases k with
    | zero => obtain rfl := Option.some.inj hk; exact absurd hi List.not_mem_nil
    | succ k => simp at hk
  backward t p := by
    refine ⟨fun hm => absurd hm List.not_mem_nil, ?_⟩
    rintro ⟨P, hP, i, hi, -⟩
    cases p with
    | zero => obtain rfl := Option.some.inj hP; exact absurd hi List.not_mem_nil
    | succ p => simp at hP
  flag B hB := by obtain rfl := Option.some.inj hB; rfl
  parents c C hC p := by
    cases c with
    | zero => obtain rfl := Option.some.inj hC; simp
    | succ c => simp at hC
  children p c P C hP hC := by
    cases c with
    | zero =>
      cases p with
      | zero => obtain rfl := Option.some.inj hP; obtain rfl := Option.some.inj hC; rfl
      | succ p => simp at hP
    | succ c => simp at hC
  bounded p P hP c hc := by
    cases p with
    | zero => obtain rfl := Option.some.inj hP; exact absurd hc List.not_mem_nil
    | succ p => simp at hP

/-! ### An instruction that is not a label -/

/-- The block an instruction is added to, and the others. -/
theorem step_getElem {i : Instruction} (hi : i.label? = none) (b : CFGBuilder) (k : Nat) :
    (b.step i).ordered[k]? = if k = b.cur then
      b.ordered[k]?.map fun B => B.addInst i else b.ordered[k]? := by
  rw [step_of_none hi]
  simp only [List.getElem?_modify]
  by_cases hk : b.cur = k
  · simp only [hk, if_true]
    rfl
  · simp only [if_neg hk, if_neg (Ne.symm hk)]
    exact congrFun Option.map_id _

/-- A block after the step, as a block before it. -/
theorem step_block {i : Instruction} (hi : i.label? = none) {b : CFGBuilder} {k : Nat}
    {B : BasicBlock} (hk : (b.step i).ordered[k]? = some B) :
    ∃ B₀, b.ordered[k]? = some B₀ ∧
      B = if k = b.cur then B₀.addInst i else B₀ := by
  rw [step_getElem hi] at hk
  split at hk
  · rename_i h
    obtain ⟨B₀, hB₀, rfl⟩ := Option.map_eq_some_iff.mp hk
    exact ⟨B₀, hB₀, by rw [if_pos h]⟩
  · rename_i h
    exact ⟨B, hk, by rw [if_neg h]⟩

/-- A block is still there after the step. -/
theorem step_lift {i : Instruction} (hi : i.label? = none) {k : Nat} {B : BasicBlock}
    (hB : b.ordered[k]? = some B) :
    (b.step i).ordered[k]? = some (if k = b.cur then B.addInst i else B) := by
  rw [step_getElem hi, hB]
  split <;> rfl

/-- An instruction of a block after the step is one from before it, or the new one. -/
theorem mem_insts_step {i j : Instruction} {k : Nat} {B : BasicBlock} :
    j ∈ (if k = b.cur then B.addInst i else B).insts ↔ j ∈ B.insts ∨ (k = b.cur ∧ j = i) := by
  split
  · rename_i hk
    simp [BasicBlock.addInst, hk]
  · rename_i hk
    simp [hk]

theorem inst_insts {i : Instruction} (hi : i.label? = none) (hb : Inv name pre b) (k : Nat)
    (B : BasicBlock) (hB : (b.step i).ordered[k]? = some B) : ∀ j ∈ B.insts,
    j.label? = none ∧ ∃ p q, pre ++ [i] = p ++ j :: q ∧ k = (irLabels p).length := by
  intro j hj
  obtain ⟨B₀, hB₀, rfl⟩ := step_block hi hB
  rcases mem_insts_step.mp hj with hj | ⟨hk, rfl⟩
  · obtain ⟨hjl, p, q, hpq, hk⟩ := hb.insts k B₀ hB₀ j hj
    exact ⟨hjl, p, q ++ [i], by rw [hpq, List.append_assoc, List.cons_append], hk⟩
  · refine ⟨hi, pre, [], rfl, ?_⟩
    rw [hk, cur, hb.length]
    rfl

/-- `backward` holds the branches of all blocks, by their targets. -/
theorem inst_backward {i : Instruction} (hi : i.label? = none) (hb : Inv name pre b) (t : String)
    (p : Nat) : (t, p) ∈ (b.step i).backward ↔
      ∃ P, (b.step i).ordered[p]? = some P ∧ ∃ j ∈ P.insts, t ∈ j.targets := by
  have hadded : (t, p) ∈ (b.step i).backward ↔
      (t, p) ∈ b.backward ∨ ∃ t' ∈ i.targets, t' = t ∧ b.cur = p := by
    rw [step_of_none hi]
    simp only [List.mem_append, List.mem_map, Prod.mk.injEq]
  rw [hadded, hb.backward]
  constructor
  · rintro (⟨P, hP, j, hj, ht⟩ | ⟨t', ht', rfl, rfl⟩)
    · exact ⟨_, step_lift hi hP, j, mem_insts_step.mpr (.inl hj), ht⟩
    · obtain ⟨P, hP⟩ : ∃ P, b.ordered[b.cur]? = some P := ⟨_, List.getElem?_eq_getElem hb.cur_lt⟩
      exact ⟨_, step_lift hi hP, i, mem_insts_step.mpr (.inr ⟨rfl, rfl⟩), ht'⟩
  · rintro ⟨P, hP, j, hj, ht⟩
    obtain ⟨P₀, hP₀, rfl⟩ := step_block hi hP
    rcases mem_insts_step.mp hj with hj | ⟨hp, rfl⟩
    · exact .inl ⟨P₀, hP₀, j, hj, ht⟩
    · exact .inr ⟨t, ht, rfl, hp.symm⟩

/-- The blocks in front of the current one are as before. -/
theorem inst_parents {i : Instruction} (hi : i.label? = none) (hb : Inv name pre b) (c : Nat)
    (C : BasicBlock) (hC : (b.step i).ordered[c]? = some C) (p : Nat) : p ∈ C.parents ↔
    p < c ∧ ∃ P, (b.step i).ordered[p]? = some P ∧
      ((p + 1 = c ∧ P.leaves = false) ∨ ∃ j ∈ P.insts, C.label ∈ j.targets) := by
  obtain ⟨C₀, hC₀, rfl⟩ := step_block hi hC
  have hc : c ≤ b.cur := by
    have := (List.getElem?_eq_some_iff.mp hC₀).1
    unfold cur
    omega
  have hpar : (if c = b.cur then C₀.addInst i else C₀).parents = C₀.parents := by split <;> rfl
  have hlabel : (if c = b.cur then C₀.addInst i else C₀).label = C₀.label := by split <;> rfl
  rw [hpar, hlabel, hb.parents c C₀ hC₀ p]
  refine and_congr_right fun hp => ?_
  have hne : p ≠ b.cur := by omega
  rw [step_getElem hi, if_neg hne]

/-- **The loop on an instruction** keeps the invariant. -/
theorem inv_step_inst {i : Instruction} (hi : i.label? = none) (hb : Inv name pre b) :
    Inv name (pre ++ [i]) (b.step i) := by
  have hlen : (b.step i).ordered.length = b.ordered.length := by
    rw [step_of_none hi, List.length_modify]
  exact
    { labels := by
        have hlab : irLabels (pre ++ [i]) = irLabels pre := by
          rw [irLabels_append, irLabels_cons, hi]
          simp
        rw [hlab, ← hb.labels]
        refine List.ext_getElem? fun k => ?_
        rw [List.getElem?_map, List.getElem?_map, step_getElem hi]
        split
        · cases b.ordered[k]? <;> rfl
        · rfl
      insts := inst_insts hi hb
      backward := inst_backward hi hb
      flag := by
        intro B hB
        have hcur : (b.step i).cur = b.cur := by
          unfold cur
          rw [hlen]
        rw [hcur] at hB
        obtain ⟨B₀, -, rfl⟩ := step_block hi hB
        rw [if_pos rfl, step_of_none hi]
        simp [BasicBlock.leaves, BasicBlock.addInst]
      parents := inst_parents hi hb
      children := by
        intro p c P C hP hC
        obtain ⟨P₀, hP₀, rfl⟩ := step_block hi hP
        obtain ⟨C₀, hC₀, rfl⟩ := step_block hi hC
        have := hb.children p c P₀ C₀ hP₀ hC₀
        split <;> split <;> exact this
      bounded := by
        intro p P hP c hc
        obtain ⟨P₀, hP₀, rfl⟩ := step_block hi hP
        rw [hlen]
        refine hb.bounded p P₀ hP₀ c ?_
        split at hc <;> exact hc }

/-! ### A label -/

/-- The blocks after a label: a new one, and the old ones with edges to it. -/
theorem step_label_getElem (b : CFGBuilder) (l : String) (k : Nat) :
    (b.step (.label l)).ordered[k]? =
      if k = b.ordered.length then some { label := l, parents := b.newParents l }
      else b.ordered[k]?.map fun B => B.addEdges ((b.newParents l).count k) b.ordered.length := by
  simp only [step]
  rw [List.getElem?_append, addChildren_length, addChildren_getElem]
  by_cases hk : k = b.ordered.length
  · subst hk
    simp
  · rw [if_neg hk]
    split
    · rfl
    · rename_i hlt
      obtain ⟨n, hn⟩ : ∃ n, k - b.ordered.length = n + 1 := ⟨k - b.ordered.length - 1, by omega⟩
      rw [hn, List.getElem?_eq_none (l := b.ordered) (by omega)]
      rfl

/-- A block after the step is the new one or comes from a block before it. -/
theorem step_label_block {b : CFGBuilder} {l : String} {k : Nat} {B : BasicBlock}
    (hk : (b.step (.label l)).ordered[k]? = some B) :
    (k = b.ordered.length ∧ B = { label := l, parents := b.newParents l }) ∨
      (k < b.ordered.length ∧ ∃ B₀, b.ordered[k]? = some B₀ ∧ 
        B = B₀.addEdges ((b.newParents l).count k) b.ordered.length) := by
  rw [step_label_getElem] at hk
  split at hk
  · rename_i h
    exact .inl ⟨h, (Option.some.inj hk).symm⟩
  · obtain ⟨B₀, hB₀, rfl⟩ := Option.map_eq_some_iff.mp hk
    exact .inr ⟨(List.getElem?_eq_some_iff.mp hB₀).1, B₀, hB₀, rfl⟩

/-- The parents of a new block: the one in front, when it falls through, and those that branch to
the label. -/
theorem mem_newParents (hb : Inv name pre b) {l : String} {p : Nat} : p ∈ b.newParents l ↔
    p < b.ordered.length ∧ ∃ P, b.ordered[p]? = some P ∧
      ((p + 1 = b.ordered.length ∧ P.leaves = false) ∨ ∃ i ∈ P.insts, l ∈ i.targets) := by
  have hlt := hb.cur_lt
  have hcur : b.cur + 1 = b.ordered.length := by unfold cur; unfold cur at hlt; omega
  obtain ⟨C, hC⟩ : ∃ C, b.ordered[b.cur]? = some C := ⟨_, List.getElem?_eq_getElem hlt⟩
  have hback : p ∈ (b.backward.filter fun e => e.1 = l).map Prod.snd ↔ (l, p) ∈ b.backward := by
    simp only [List.mem_map, List.mem_filter, decide_eq_true_eq, Prod.exists]
    constructor
    · rintro ⟨t, q, ⟨hm, rfl⟩, rfl⟩
      exact hm
    · exact fun hm => ⟨l, p, ⟨hm, rfl⟩, rfl⟩
  unfold newParents
  rw [List.mem_append, hback, hb.backward, hb.flag C hC]
  constructor
  · rintro (hp | ⟨P, hP, hi⟩)
    · cases hl : C.leaves with
      | true => simp [hl] at hp
      | false =>
        obtain rfl : p = b.cur := by simpa [hl] using hp
        exact ⟨hlt, C, hC, .inl ⟨hcur, hl⟩⟩
    · exact ⟨(List.getElem?_eq_some_iff.mp hP).1, P, hP, .inr hi⟩
  · rintro ⟨-, P, hP, ⟨hp, hl⟩ | hi⟩
    · obtain rfl : p = b.cur := by omega
      obtain rfl : C = P := Option.some.inj (hC.symm.trans hP)
      exact .inl (by simp [hl])
    · exact .inr ⟨P, hP, hi⟩

theorem step_label_lift (l : String) {k : Nat} {B : BasicBlock} (hB : b.ordered[k]? = some B) :
    (b.step (.label l)).ordered[k]? =
      some (B.addEdges ((b.newParents l).count k) b.ordered.length) := by
  have := (List.getElem?_eq_some_iff.mp hB).1
  rw [step_label_getElem, if_neg (by omega), hB]
  rfl

/-- A block from before the step has the edges out of it that it had, but for those to `l`. -/
theorem label_edge_iff {l : String} {p c : Nat} (hpc : p < c) (hc : c ≤ b.ordered.length)
    (t : String) : (∃ P, b.ordered[p]? = some P ∧
      ((p + 1 = c ∧ P.leaves = false) ∨ ∃ i ∈ P.insts, t ∈ i.targets)) ↔
    ∃ P, (b.step (.label l)).ordered[p]? = some P ∧
      ((p + 1 = c ∧ P.leaves = false) ∨ ∃ i ∈ P.insts, t ∈ i.targets) := by
  constructor
  · rintro ⟨P, hP, hi⟩
    exact ⟨_, step_label_lift l hP, hi⟩
  · rintro ⟨P, hP, hi⟩
    rcases step_label_block hP with ⟨hp, -⟩ | ⟨-, P₀, hP₀, rfl⟩
    · omega
    · exact ⟨P₀, hP₀, hi⟩

theorem label_parents (l : String) (hb : Inv name pre b) (c : Nat) (C : BasicBlock)
    (hC : (b.step (.label l)).ordered[c]? = some C) (p : Nat) : p ∈ C.parents ↔
    p < c ∧ ∃ P, (b.step (.label l)).ordered[p]? = some P ∧
      ((p + 1 = c ∧ P.leaves = false) ∨ ∃ j ∈ P.insts, C.label ∈ j.targets) := by
  rcases step_label_block hC with ⟨rfl, rfl⟩ | ⟨hc, C₀, hC₀, rfl⟩
  · rw [mem_newParents hb]
    exact and_congr_right fun hp => label_edge_iff hp (Nat.le_refl _) l
  · exact (hb.parents c C₀ hC₀ p).trans
      (and_congr_right fun hp => label_edge_iff hp (Nat.le_of_lt hc) C₀.label)

/-- Both ends of an edge are counted alike: the new block has its parents, and is their child. -/
theorem label_children (l : String) (hb : Inv name pre b) (p c : Nat) (P C : BasicBlock)
    (hP : (b.step (.label l)).ordered[p]? = some P)
    (hC : (b.step (.label l)).ordered[c]? = some C) : P.children.count c = C.parents.count p := by
  rcases step_label_block hP with ⟨rfl, rfl⟩ | ⟨hp, P₀, hP₀, rfl⟩ <;>
    rcases step_label_block hC with ⟨rfl, rfl⟩ | ⟨hc, C₀, hC₀, rfl⟩
  · refine (List.count_eq_zero.mpr fun hm => ?_).symm
    exact absurd ((mem_newParents hb).mp hm).1 (Nat.lt_irrefl _)
  · -- a block from before has no parent that did not exist yet
    refine (List.count_eq_zero.mpr fun hm => ?_).symm
    have := ((hb.parents c C₀ hC₀ _).mp hm).1
    omega
  · have hnew : P₀.children.count b.ordered.length = 0 :=
      List.count_eq_zero.mpr fun hm => absurd (hb.bounded p P₀ hP₀ _ hm) (Nat.lt_irrefl _)
    rw [BasicBlock.addEdges, List.count_append, hnew, List.count_replicate_self, Nat.zero_add]
  · have hne : (b.ordered.length == c) = false := beq_eq_false_iff_ne.mpr (by omega)
    rw [BasicBlock.addEdges, List.count_append, hb.children p c P₀ C₀ hP₀ hC₀,
      List.count_replicate, hne]
    rfl

/-- **The loop on a label** keeps the invariant. -/
theorem inv_step_label (l : String) (hb : Inv name pre b) :
    Inv name (pre ++ [.label l]) (b.step (.label l)) := by
  have hlen : (b.step (.label l)).ordered.length = b.ordered.length + 1 := by
    simp [step, addChildren_length]
  exact
    { labels := by
        rw [irLabels_append, irLabels_label, ← List.cons_append, ← hb.labels]
        simp only [step, List.map_append, List.map_cons, List.map_nil]
        congr 1
        refine List.ext_getElem? fun k => ?_
        rw [List.getElem?_map, List.getElem?_map, addChildren_getElem]
        cases b.ordered[k]? <;> rfl
      insts := by
        intro k B hB j hj
        rcases step_label_block hB with ⟨-, rfl⟩ | ⟨-, B₀, hB₀, rfl⟩
        · exact absurd hj List.not_mem_nil
        · obtain ⟨hjl, p, q, hpq, hk⟩ := hb.insts k B₀ hB₀ j hj
          exact ⟨hjl, p, q ++ [.label l], by rw [hpq, List.append_assoc, List.cons_append], hk⟩
      backward := by
        intro t p
        show (t, p) ∈ b.backward ↔ _
        rw [hb.backward]
        constructor
        · rintro ⟨P, hP, hi⟩
          exact ⟨_, step_label_lift l hP, hi⟩
        · rintro ⟨P, hP, j, hj, ht⟩
          rcases step_label_block hP with ⟨-, rfl⟩ | ⟨-, P₀, hP₀, rfl⟩
          · exact absurd hj List.not_mem_nil
          · exact ⟨P₀, hP₀, j, hj, ht⟩
      flag := by
        intro B hB
        have hcur : (b.step (.label l)).cur = b.ordered.length := by
          unfold cur
          rw [hlen]
          rfl
        rw [hcur] at hB
        rcases step_label_block hB with ⟨-, rfl⟩ | ⟨hlt, -⟩
        · rfl
        · exact absurd hlt (Nat.lt_irrefl _)
      parents := label_parents l hb
      children := label_children l hb
      bounded := by
        intro p P hP c hc
        rw [hlen]
        rcases step_label_block hP with ⟨-, rfl⟩ | ⟨-, P₀, hP₀, rfl⟩
        · exact absurd hc List.not_mem_nil
        · rcases List.mem_append.mp hc with hc | hc
          · exact Nat.lt_succ_of_lt (hb.bounded p P₀ hP₀ c hc)
          · rw [List.eq_of_mem_replicate hc]
            exact Nat.lt_succ_self _ }

/-- The loop keeps the invariant. -/
theorem inv_foldl (code pre : List Instruction) (b : CFGBuilder) (hb : Inv name pre b) :
    Inv name (pre ++ code) (code.foldl step b) := by
  induction code generalizing pre b with
  | nil => simpa using hb
  | cons i code ih =>
    have hstep : Inv name (pre ++ [i]) (b.step i) := by
      by_cases hi : i.label? = none
      · exact inv_step_inst hi hb
      · cases i with
        | label l => exact inv_step_label l hb
        | _ => exact absurd rfl hi
    have := ih (pre ++ [i]) (b.step i) hstep
    rwa [List.append_assoc, List.singleton_append] at this

end CFGBuilder

open CFGBuilder in
/-- Whatever the list, `BuildCFG` adds edges forward only. -/
theorem buildCFG_acyclic (code : List Instruction) (name : String) :
    Acyclic (buildCFG code name) := by
  intro c C hC p hp
  obtain ⟨hlt, P, hP, -⟩ := ((inv_foldl code [] _ (inv_init name)).parents c C hC p).mp hp
  exact ⟨hlt, P, hP⟩

open CFGBuilder in
/-- The blocks are labelled in the order of the list. -/
theorem buildCFG_labels (code : List Instruction) (name : String) :
    (buildCFG code name).map BasicBlock.label = name :: irLabels code :=
  (inv_foldl code [] _ (inv_init name)).labels

open CFGBuilder in
/-- An edge is on both of its ends. -/
theorem buildCFG_edge (code : List Instruction) (name : String) (p c : Nat) (P C : BasicBlock)
    (hP : (buildCFG code name)[p]? = some P) (hC : (buildCFG code name)[c]? = some C) :
    c ∈ P.children ↔ p ∈ C.parents := by
  rw [← List.count_pos_iff, ← List.count_pos_iff,
    (inv_foldl code [] _ (inv_init name)).children p c P C hP hC]

open CFGBuilder in
/-- **The CFG is in topological order**, when the branches of the list go forward. -/
theorem buildCFG_topological {code : List Instruction} (name : String)
    (hfwd : ForwardTargets code) : Topological (buildCFG code name) := by
  have hb : Inv name code (code.foldl step { ordered := [{ label := name }] }) :=
    inv_foldl code [] _ (inv_init name)
  have edge := buildCFG_edge code name
  refine ⟨buildCFG_acyclic code name, ?_, ?_⟩
  · intro b B hB c hc
    have hlt := hb.bounded b B hB c hc
    obtain ⟨C, hC⟩ : ∃ C, (buildCFG code name)[c]? = some C := ⟨_, List.getElem?_eq_getElem hlt⟩
    exact ⟨((hb.parents c C hC b).mp ((edge b c B C hB hC).mp hc)).1, hlt⟩
  · intro b B hB i hi t ht
    -- the label is defined in a later block, whose number counts the labels before it
    obtain ⟨hil, p, q, hpq, rfl⟩ := hb.insts b B hB i hi
    obtain ⟨j, hj⟩ := List.mem_iff_getElem?.mp ((hpq ▸ hfwd).split t ht)
    have hlab : ((buildCFG code name).map BasicBlock.label)[(irLabels p).length + (j + 1)]? =
        some t := by
      show ((code.foldl step _).ordered.map BasicBlock.label)[_]? = some t
      rw [hb.labels, hpq, irLabels_append, irLabels_cons, hil]
      simpa [← Nat.add_assoc, List.getElem?_append_right] using hj
    rw [List.getElem?_map] at hlab
    obtain ⟨C, hC, rfl⟩ := Option.map_eq_some_iff.mp hlab
    refine ⟨_, (edge _ _ B C hB hC).mpr ?_, C, hC, rfl⟩
    exact (hb.parents _ C hC _).mpr ⟨by omega, B, hB, .inr ⟨i, hi, ht⟩⟩

open CFGBuilder in
/-- **`BuildCFG` builds a control-flow graph**, from a list whose labels are distinct and are not
the syscall name, and whose branches go forward. -/
theorem buildCFG_isCFG {code : List Instruction} {name : String}
    (hnd : (name :: irLabels code).Nodup) (hfwd : ForwardTargets code) :
    IsCFG (buildCFG code name) := by
  have hb : Inv name code (code.foldl step { ordered := [{ label := name }] }) :=
    inv_foldl code [] _ (inv_init name)
  obtain ⟨hparents, hchildren, htarget⟩ := buildCFG_topological name hfwd
  have edge := buildCFG_edge code name
  refine ⟨fun he => ?_, hparents, ?_, ?_, hchildren, edge, htarget, ?_⟩
  · have hlen := hb.length
    have hzero := congrArg List.length he
    simp only [buildCFG, List.length_nil] at hzero
    omega
  · rw [buildCFG_labels]
    exact hnd
  · intro B hB i hi
    obtain ⟨k, hk⟩ := List.mem_iff_getElem?.mp hB
    exact (hb.insts k B hk i hi).1
  · intro b B hB hlt hleaves
    obtain ⟨C, hC⟩ : ∃ C, (buildCFG code name)[b + 1]? = some C := ⟨_, List.getElem?_eq_getElem hlt⟩
    exact (edge b (b + 1) B C hB hC).mpr
      ((hb.parents _ C hC b).mpr ⟨Nat.lt_succ_self b, B, hB, .inl ⟨rfl, hleaves⟩⟩)

/-- Two blocks do not share a label. -/
theorem IsCFG.label_inj {g : List BasicBlock} (hg : IsCFG g) {b c : Nat} {B C : BasicBlock}
    (hB : g[b]? = some B) (hC : g[c]? = some C) (hl : B.label = C.label) : b = c := by
  have hb : (g.map BasicBlock.label)[b]? = some B.label := by rw [List.getElem?_map, hB]; rfl
  have hc : (g.map BasicBlock.label)[c]? = some C.label := by rw [List.getElem?_map, hC]; rfl
  exact (List.getElem?_inj (List.getElem?_eq_some_iff.mp hb).1 hg.labels).mp
    (hb.trans (hl ▸ hc.symm))

/-! ## Nothing more and nothing less -/

/-- The blocks one after the other, each with its label. -/
def flatten (g : List BasicBlock) : List Instruction := g.flatMap fun B => .label B.label :: B.insts

theorem flatten_congr {g g' : List BasicBlock} (hl : g.map BasicBlock.label = g'.map BasicBlock.label)
    (hi : g.map BasicBlock.insts = g'.map BasicBlock.insts) : flatten g = flatten g' := by
  induction g generalizing g' with
  | nil =>
    cases g' with
    | nil => rfl
    | cons B g' => simp at hl
  | cons B g ih =>
    cases g' with
    | nil => simp at hl
    | cons B' g' =>
      simp only [List.map_cons, List.cons.injEq] at hl hi
      simp only [flatten, List.flatMap_cons, hl.1, hi.1]
      congr 1
      exact ih hl.2 hi.2

open CFGBuilder in
/-- A step adds its instruction at the end of the blocks written out. -/
theorem flatten_step (b : CFGBuilder) (hb : b.ordered ≠ []) (i : Instruction) :
    flatten (b.step i).ordered = flatten b.ordered ++ [i] ∧ (b.step i).ordered ≠ [] := by
  by_cases hi : i.label? = none
  · rw [step_of_none hi]
    have hlen := List.length_pos_of_ne_nil hb
    obtain ⟨init, last, rest, h, hinit, hmod⟩ := List.exists_of_modify
      (fun B : BasicBlock => { B with insts := B.insts ++ [i] }) (l := b.ordered) (i := b.cur)
      (by unfold cur; omega)
    -- the current block is the last one
    have hrest : rest = [] := by
      have hl := congrArg List.length h
      simp only [cur, List.length_append, List.length_cons] at hl hinit
      exact List.length_eq_zero_iff.mp (by omega)
    subst hrest
    simp only [hmod]
    rw [h]
    simp [flatten]
  · cases i with
    | label l =>
      refine ⟨?_, by simp [step]⟩
      have hcongr : flatten (addChildren b.ordered.length (b.newParents l) b.ordered) =
          flatten b.ordered := by
        refine flatten_congr ?_ ?_ <;>
        · refine List.ext_getElem? fun k => ?_
          rw [List.getElem?_map, List.getElem?_map, addChildren_getElem]
          cases b.ordered[k]? <;> rfl
      have hnew : flatten [{ label := l, parents := b.newParents l }] = [.label l] := rfl
      rw [← hcongr, ← hnew]
      exact List.flatMap_append ..
    | _ => exact absurd rfl hi

/-- **The blocks of the CFG, one after the other, are the list.** -/
theorem flatten_buildCFG (code : List Instruction) (name : String) :
    flatten (buildCFG code name) = .label name :: code := by
  have key : ∀ (code : List Instruction) (b : CFGBuilder), b.ordered ≠ [] →
      flatten (code.foldl CFGBuilder.step b).ordered = flatten b.ordered ++ code := by
    intro code
    induction code with
    | nil => exact fun b _ => (List.append_nil _).symm
    | cons i code ih =>
      intro b hb
      obtain ⟨hflat, hne⟩ := flatten_step b hb i
      rw [List.foldl_cons, ih _ hne, hflat, List.append_assoc]
      rfl
  exact key code _ (by simp)

/-- Nothing stands behind a branch or a return but a label or the end. -/
def EndsBlocks (code : List Instruction) : Prop :=
  code.IsChain fun i j => (i.isBranch || i.isReturn) = true → j.isLabel = true

instance : DecidablePred EndsBlocks := fun code =>
  inferInstanceAs (Decidable (code.IsChain _))

/-- The last instruction of block `a` can pass control to the start of block `b`: past its end to
the next block, or by a branch to the label `b` starts with. The root starts with no label. -/
def PassesTo (g : List BasicBlock) (a b : Nat) : Prop :=
  ∃ A B, g[a]? = some A ∧ g[b]? = some B ∧
    ((b = a + 1 ∧ A.leaves = false) ∨
      (0 < b ∧ ∃ i, A.insts.getLast? = some i ∧ B.label ∈ i.targets))

theorem Instruction.isBranch_of_targets {i : Instruction} {t : String} (h : t ∈ i.targets) :
    i.isBranch = true := by
  cases i with
  | branch => rfl
  | _ => exact absurd h List.not_mem_nil

/-- The instructions of the blocks are the list without its labels. -/
theorem flatMap_insts {g : List BasicBlock} (hg : ∀ B ∈ g, ∀ i ∈ B.insts, i.label? = none) :
    g.flatMap BasicBlock.insts = (flatten g).filter fun i => !i.isLabel := by
  induction g with
  | nil => rfl
  | cons B g ih =>
    have hB : B.insts.filter (fun i => !i.isLabel) = B.insts := by
      refine List.filter_eq_self.mpr fun i hi => ?_
      have := hg B List.mem_cons_self i hi
      cases i <;> first | rfl | cases this
    have hflat : flatten (B :: g) = .label B.label :: (B.insts ++ flatten g) := rfl
    rw [List.flatMap_cons, ih fun C hC => hg C (List.mem_cons_of_mem B hC), hflat,
      List.filter_cons_of_neg (by simp [Instruction.isLabel]), List.filter_append, hB]

open CFGBuilder in
/-- A branch of a block is its last instruction. -/
theorem branch_last {code : List Instruction} {name : String} (hends : EndsBlocks code)
    {A : BasicBlock} (hA : A ∈ buildCFG code name) {i : Instruction} (hi : i ∈ A.insts)
    (hleaves : (i.isBranch || i.isReturn) = true) : A.insts.getLast? = some i := by
  have hb := inv_foldl code [] _ (inv_init name)
  obtain ⟨k, hk⟩ := List.mem_iff_getElem?.mp hA
  obtain ⟨xs, ys, hins⟩ := List.append_of_mem hi
  obtain ⟨g₁, g₂, hg⟩ := List.append_of_mem hA
  cases ys with
  | nil => rw [hins, List.getLast?_append, List.getLast?_singleton, Option.some_or]
  | cons j ys =>
    -- the instruction behind it stands behind it in the list
    exfalso
    have hflat := flatten_buildCFG code name
    rw [hg, flatten, List.flatMap_append, List.flatMap_cons, hins] at hflat
    obtain ⟨pre, hpre⟩ : ∃ pre, code = pre ++ i :: j :: (ys ++ flatten g₂) := by
      cases g₁ with
      | nil =>
        refine ⟨xs, ?_⟩
        simp only [List.flatMap_nil, List.nil_append, List.cons_append, List.cons.injEq,
          List.append_assoc] at hflat
        exact hflat.2.symm
      | cons C g₁ =>
        refine ⟨C.insts ++ flatten g₁ ++ .label A.label :: xs, ?_⟩
        simp only [List.flatMap_cons, List.cons_append, List.cons.injEq, List.append_assoc] at hflat
        rw [← hflat.2]
        simp only [flatten, List.append_assoc, List.cons_append]
    rw [hpre] at hends
    have hlabel := (List.isChain_append_cons_cons.mp hends).2.1 hleaves
    have hnone := (hb.insts k A hk j (by rw [hins]; simp)).1
    cases j with
    | label l => cases hnone
    | _ => cases hlabel

open CFGBuilder in
/-- **`BuildCFG` captures the control flow of the list.** The blocks are in the order of the list and
hold its instructions; an edge is on both sides equally often; and there is one exactly where the
last instruction of a block can pass control to the start of another. -/
theorem buildCFG_exact {code : List Instruction} (name : String) (hnd : (irLabels code).Nodup)
    (hfwd : ForwardTargets code) (hends : EndsBlocks code) :
    (buildCFG code name).map BasicBlock.label = name :: irLabels code ∧
    (buildCFG code name).flatMap BasicBlock.insts = (code.filter fun i => !i.isLabel) ∧
    (∀ A ∈ buildCFG code name, ∀ b ∈ A.children ++ A.parents, b < (buildCFG code name).length) ∧
    ∀ a b A B, (buildCFG code name)[a]? = some A → (buildCFG code name)[b]? = some B →
      A.children.count b = B.parents.count a ∧
      (b ∈ A.children ↔ PassesTo (buildCFG code name) a b) := by
  have hb : Inv name code (code.foldl step { ordered := [{ label := name }] }) :=
    inv_foldl code [] _ (inv_init name)
  refine ⟨buildCFG_labels code name, ?_, ?_, ?_⟩
  · rw [flatMap_insts, flatten_buildCFG]
    · rfl
    · intro B hB i hi
      obtain ⟨k, hk⟩ := List.mem_iff_getElem?.mp hB
      exact (hb.insts k B hk i hi).1
  · intro A hA b hmem
    obtain ⟨k, hk⟩ := List.mem_iff_getElem?.mp hA
    rcases List.mem_append.mp hmem with hc | hp
    · exact hb.bounded k A hk b hc
    · obtain ⟨hlt, P, hP, -⟩ := (hb.parents k A hk b).mp hp
      exact (List.getElem?_eq_some_iff.mp hP).1
  · intro a b A B hA hB
    have hcount := hb.children a b A B hA hB
    refine ⟨hcount, ?_⟩
    rw [← List.count_pos_iff, hcount, List.count_pos_iff, hb.parents b B hB a]
    constructor
    · rintro ⟨hlt, P, hP, hedge⟩
      obtain rfl := Option.some.inj (hA.symm.trans hP)
      refine ⟨A, B, hA, hB, ?_⟩
      rcases hedge with ⟨he, hl⟩ | ⟨i, hi, ht⟩
      · exact .inl ⟨he.symm, hl⟩
      · refine .inr ⟨by omega, i, branch_last hends (List.mem_of_getElem? hA) hi ?_, ht⟩
        rw [Instruction.isBranch_of_targets ht]
        rfl
    · rintro ⟨A', B', hA', hB', hpass⟩
      obtain rfl := Option.some.inj (hA.symm.trans hA')
      obtain rfl := Option.some.inj (hB.symm.trans hB')
      rcases hpass with ⟨rfl, hl⟩ | ⟨hpos, i, hi, ht⟩
      · exact ⟨Nat.lt_succ_self a, A, hA, .inl ⟨rfl, hl⟩⟩
      · have himem := List.mem_of_getLast? hi
        refine ⟨?_, A, hA, .inr ⟨i, himem, ht⟩⟩
        -- the target is defined behind the branch, and nowhere else
        obtain ⟨hil, p, q, hpq, rfl⟩ := hb.insts a A hA i himem
        obtain ⟨j, hj⟩ := List.mem_iff_getElem?.mp ((hpq ▸ hfwd).split _ ht)
        have hlab : ((buildCFG code name).map BasicBlock.label)[b]? = some B.label := by
          rw [List.getElem?_map, hB]
          rfl
        obtain ⟨b, rfl⟩ : ∃ b', b = b' + 1 := ⟨b - 1, by omega⟩
        rw [buildCFG_labels, List.getElem?_cons_succ] at hlab
        have hlab' : (irLabels code)[(irLabels p).length + j]? = some B.label := by
          rw [hpq, irLabels_append, irLabels_cons, hil]
          simpa [List.getElem?_append_right] using hj
        have := (List.getElem?_inj (List.getElem?_eq_some_iff.mp hlab).1 hnd).mp
          (hlab.trans hlab'.symm)
        omega

/-- An `if` without `else`: the third block is reached past the end of the second, and by the
branch. -/
def oneArm : List Instruction :=
  [.branch .EQ (.mem "flags") (.imm 1) "L1" "L2", .label "L1", .store (.imm 0) (.mem "mode"),
    .label "L2", .ret 0 PermType.ALLOW.val]

theorem oneArm_edges : ∃ A B, (buildCFG oneArm "open")[1]? = some A ∧
    (buildCFG oneArm "open")[2]? = some B ∧ A.children.count 2 = B.parents.count 1 ∧
    2 ∈ A.children := by
  obtain ⟨-, -, -, h⟩ := @buildCFG_exact oneArm "open" (by decide) (by decide) (by decide)
  have hA : (buildCFG oneArm "open")[1]? = some _ := rfl
  have hB : (buildCFG oneArm "open")[2]? = some _ := rfl
  obtain ⟨hcount, hiff⟩ := h 1 2 _ _ hA hB
  exact ⟨_, _, hA, hB, hcount, hiff.mpr ⟨_, _, hA, hB, .inl ⟨rfl, rfl⟩⟩⟩

end SeccompPolicy
