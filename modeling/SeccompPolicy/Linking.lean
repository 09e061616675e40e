import SeccompPolicy.JumpFields
import SeccompPolicy.Layout
import SeccompPolicy.Reached
import SeccompPolicy.Stubs
import SeccompPolicy.Tracer

/-!
# Labels across the two outputs

`GenBPFIR` emits blocks and registers stubs, `GenPtraceCode` lifts blocks, `GenBasicBlockCode`
prints labels and `goto`s, `PtraceCodeGen` names the registered labels in its tables. Each of them
skips blocks by a test of its own: the colouring, the start recorded for a block, the number of
references. This module compares what one of them names with what another one defines.

`NoDangling` is the whole of it: every label a jump of the filter names is a label of the filter;
every entry of `jmp_table` and `start_table` and every `goto` names a label of the generated
source; and every ptrace block is in the filter's list or lifted.

## Results

* `genPtraceCode_forward`: the lifted blocks are in order, and a lifted branch goes to lifted
  blocks further behind.
* `Compiled.registered`: the registered labels are those the checks register.
* `sourceLabels_nodup`: the source defines no label twice.
* `finalFilters_targets`: every label a jump of the filter names is defined, when that holds of
  each body by itself.
* `enterable_of_noDangling`, `noDangling_of_enterable`: a ptrace-only block that cannot be entered
  at its first instruction is lost, or else named in `jmp_table` and not defined; and that is all
  that can dangle.
* `noDangling_iff`: nothing dangles exactly when every ptrace-only block can be entered at its
  first instruction.
* `redirectWrites_linked`, `maskWrites_dangles`: `open` for writing goes to another file, or has
  its mode masked.
-/

namespace SeccompPolicy

open StructuredCode

/-! ## The lifted blocks -/

section

variable {g : List BasicBlock} {blocks : PtraceBasicBlock}

/-- `GenPtraceCode` lifts the block. -/
def Lifted (g : List BasicBlock) (blocks : PtraceBasicBlock) (b : Nat) : Prop :=
  blocks.count b = true ∧ ∃ B, g[b]? = some B ∧ blocks.start b = B.firstInst

/-- The lifted blocks, with their numbers. -/
def liftedBlocks (g : List BasicBlock) (blocks : PtraceBasicBlock) : List (BasicBlock × Nat) :=
  (g.zipIdx.filter fun e => blocks.count e.2).filter fun e =>
    decide (blocks.start e.2 = e.1.firstInst)

/-- The lifted blocks, by their numbers. -/
theorem mem_liftedBlocks {B : BasicBlock} {b : Nat} :
    (B, b) ∈ liftedBlocks g blocks ↔ g[b]? = some B ∧ Lifted g blocks b := by
  rw [liftedBlocks, List.mem_filter, List.mem_filter, List.mk_mem_zipIdx_iff_getElem?,
    decide_eq_true_eq]
  constructor
  · rintro ⟨⟨hB, hc⟩, hs⟩
    exact ⟨hB, hc, B, hB, hs⟩
  · rintro ⟨hB, hc, B', hB', hs⟩
    obtain rfl := Option.some.inj (hB.symm.trans hB')
    exact ⟨⟨hB, hc⟩, hs⟩

theorem liftedBlocks_sorted : (liftedBlocks g blocks).Pairwise fun x y => x.2 < y.2 := by
  refine List.Pairwise.sublist (List.filter_sublist.trans List.filter_sublist) ?_
  rw [← List.pairwise_map (f := Prod.snd) (R := (· < ·)), List.zipIdx_map_snd]
  exact List.pairwise_lt_range'

/-- `GenPtraceCode` lifts block after block. -/
theorem genPtraceCode_eq : genPtraceCode g blocks = (liftedBlocks g blocks).map fun e => e.1.lift :=
  rfl

/-- The labels of the lifted blocks. -/
theorem mem_genPtraceCode {l : String} : l ∈ (genPtraceCode g blocks).map Prod.fst ↔
    ∃ b B, g[b]? = some B ∧ B.label = l ∧ Lifted g blocks b := by
  rw [genPtraceCode_eq, List.map_map, List.mem_map]
  constructor
  · rintro ⟨⟨B, b⟩, hmem, rfl⟩
    obtain ⟨hB, hl⟩ := mem_liftedBlocks.mp hmem
    exact ⟨b, B, hB, rfl, hl⟩
  · rintro ⟨b, B, hB, rfl, hl⟩
    exact ⟨(B, b), mem_liftedBlocks.mpr ⟨hB, hl⟩, rfl⟩

theorem genPtraceCode_nodup (hg : (g.map BasicBlock.label).Nodup) :
    ((genPtraceCode g blocks).map Prod.fst).Nodup := by
  have hlabels : (genPtraceCode g blocks).map Prod.fst =
      ((liftedBlocks g blocks).map Prod.fst).map BasicBlock.label := by
    rw [genPtraceCode_eq, List.map_map, List.map_map]
    rfl
  rw [hlabels]
  refine List.Sublist.nodup (List.Sublist.map _ ?_) hg
  have hsub := (List.filter_sublist.trans List.filter_sublist : (liftedBlocks g blocks).Sublist _)
  have := hsub.map Prod.fst
  rwa [List.zipIdx_map_fst] at this

/-- What a lifted instruction refers to are its targets. -/
theorem Instruction.lift_targets {i : Instruction} {p : PtraceCode} (h : i.lift = some p) {t : String}
    (ht : t ∈ p.targets) : t ∈ i.targets := by
  obtain ⟨a, b, t₁, f, rfl, rfl⟩ | ⟨op, a, b, t₁, f, hop, rfl, rfl⟩ | ⟨src, dst, rfl, rfl⟩ |
    ⟨id, rval, rfl, hp⟩ := Instruction.lift_cases h
  · simpa [Instruction.targets, PtraceCode.targets] using ht
  · simpa [Instruction.targets, hop, PtraceCode.targets] using ht
  · exact absurd ht List.not_mem_nil
  · rcases hp with rfl | rfl | rfl <;> exact absurd ht List.not_mem_nil

/-- A lifted branch goes to lifted blocks further behind: all blocks after a ptrace block start at
their first instruction. -/
theorem lifted_child (hg : IsCFG g) (o : HashOrder) {b : Nat} {B : BasicBlock} (hB : g[b]? = some B)
    (hb : Lifted g (colorCode g o).1 b) {i : Instruction} (hi : i ∈ B.insts) {t : String}
    (ht : t ∈ i.targets) : ∃ c C, b < c ∧ g[c]? = some C ∧ C.label = t ∧
      Lifted g (colorCode g o).1 c := by
  obtain ⟨c, hc, C, hC, hl⟩ := hg.target b B hB i hi t ht
  have hparent : b ∈ C.parents := (hg.edges b c B C hB hC).mp hc
  have hcolored : Colored g b := (mem_colorBlocks hg.acyclic b).mp hb.1
  obtain ⟨-, hexact⟩ := colorCode_exact hg.acyclic o
  have hcount : (colorCode g o).1.count c = true :=
    (mem_colorBlocks hg.acyclic c).mpr (.inherited hC hparent hcolored)
  exact ⟨c, C, (hg.forward b B hB c hc).1, hC, hl, hcount, C, hC,
    ((hexact c).2 C hC hcount).1 ((actsBefore_iff hC).mpr ⟨b, hparent, hcolored⟩)⟩

/-- **The lifted code is in order.** -/
theorem genPtraceCode_forward (hg : IsCFG g) (o : HashOrder)
    {pre post : List (String × List PtraceCode)} {e : String × List PtraceCode}
    (hsplit : genPtraceCode g (colorCode g o).1 = pre ++ e :: post) {p : PtraceCode} (hp : p ∈ e.2)
    {t : String} (ht : t ∈ p.targets) : t ∈ post.map Prod.fst := by
  obtain ⟨xs, rest, hlifted, rfl, hrest⟩ := List.map_eq_append_iff.mp (genPtraceCode_eq ▸ hsplit)
  obtain ⟨⟨B, b⟩, ys, rfl, rfl, rfl⟩ := List.map_eq_cons_iff.mp hrest
  obtain ⟨hB, hb⟩ := mem_liftedBlocks.mp (hlifted ▸ List.mem_append_right xs List.mem_cons_self)
  obtain ⟨i, hi, hlift⟩ := List.mem_filterMap.mp hp
  obtain ⟨c, C, hlt, hC, rfl, hc⟩ := lifted_child hg o hB hb hi (Instruction.lift_targets hlift ht)
  -- a later block is not in front
  have hsorted := @liftedBlocks_sorted g (colorCode g o).1
  have hmem := mem_liftedBlocks.mpr ⟨hC, hc⟩
  rw [hlifted] at hsorted hmem
  rcases List.mem_append.mp hmem with hmem | hmem
  · have := (List.pairwise_append.mp hsorted).2.2 _ hmem _ List.mem_cons_self
    simp only at this
    omega
  · rcases List.mem_cons.mp hmem with he | hmem
    · cases he
      exact absurd hlt (Nat.lt_irrefl _)
    · rw [List.map_map]
      exact List.mem_map.mpr ⟨(C, c), hmem, rfl⟩

end

/-! ## One check -/

/-- `GenBPFIR` registers the label. -/
def CompiledCheck.Enters (c : CompiledCheck) (l : String) : Prop :=
  ∃ b B, c.cfg[b]? = some B ∧ B.label = l ∧
    if c.ptraceOnlyBbs.count 0 then b = 0 else Stubbed c.cfg c.ptraceOnlyBbs b

namespace CompiledCheck

/-- A registered label is that of a ptrace-only block. -/
theorem Enters.only {c : CompiledCheck} {l : String} (h : c.Enters l) : ∃ b B, c.cfg[b]? = some B ∧
    B.label = l ∧ c.ptraceOnlyBbs.count b = true := by
  obtain ⟨b, B, hB, hl, hb⟩ := h
  refine ⟨b, B, hB, hl, ?_⟩
  split at hb
  · rename_i h0
    exact hb ▸ h0
  · obtain ⟨_, _, hcount, -⟩ := hb
    exact hcount

namespace From

variable {m : CodeGenMgr} {o : HashOrder} {gl : RetGlobals} {c : CompiledCheck}

theorem root_label (hc : c.From m o gl) {B : BasicBlock} (hB : c.cfg[0]? = some B) :
    B.label = c.syscall := by
  obtain ⟨root, hroot, hlabel⟩ :=
    buildCFG_root (eliminateDeadCode (mergedIR c.check.stmts m)) c.syscall
  rw [hc.cfg] at hB
  obtain rfl := Option.some.inj (hroot.symm.trans hB)
  exact hlabel

/-- The blocks have labels of their own, whatever the types are. -/
theorem blockLabels_nodup (hc : c.From m o gl) : (c.cfg.map BasicBlock.label).Nodup := by
  rw [hc.cfg, checkCFG_labels]
  refine List.nodup_cons.mpr ⟨fun hmem => ?_, eliminated_nodup _ _⟩
  obtain ⟨n, -, -, hn⟩ := eliminated_labels c.check.stmts m _ hmem
  exact hc.known.ne_labelText n hn

/-- The CFG of a body that type-checks is one. -/
theorem isCFG (hc : c.From m o gl) (hwt : allWellTyped c.check.stmts = true) : IsCFG c.cfg := by
  have hwl := stages_wellLabelled hwt m (eliminateDeadCode (mergedIR c.check.stmts m))
    (by simp [stages])
  have hnd := hc.blockLabels_nodup
  rw [hc.cfg] at hnd ⊢
  exact buildCFG_isCFG (checkCFG_labels _ _ _ ▸ hnd) hwl.forward

/-- A ptrace-only block is a ptrace block. -/
theorem ptraceBbs_count (hc : c.From m o gl) (hwt : allWellTyped c.check.stmts = true) {b : Nat}
    (hb : c.ptraceOnlyBbs.count b = true) : c.ptraceBbs.count b = true := by
  rw [hc.bbs]
  exact ptraceOnly_colored (hc.isCFG hwt).acyclic o (hc.onlyBbs ▸ hb)

/-- The lifted code of a check is in order. -/
theorem ordered (hc : c.From m o gl) (hwt : allWellTyped c.check.stmts = true) :
    c.lifter.Ordered where
  nodup := genPtraceCode_nodup hc.blockLabels_nodup
  forward pre e post hsplit p hp t ht := by
    have hsplit : genPtraceCode c.cfg c.ptraceBbs = pre ++ e :: post := hsplit
    rw [hc.bbs] at hsplit
    exact genPtraceCode_forward (hc.isCFG hwt) o hsplit hp ht

/-- An instruction of a block is one of the list. -/
theorem mem_list (hc : c.From m o gl) {B : BasicBlock} (hB : B ∈ c.cfg) {i : Instruction}
    (hi : i ∈ B.insts) : i ∈ .label c.syscall :: eliminateDeadCode (mergedIR c.check.stmts m) := by
  have hi' : i ∈ flatten c.cfg := List.mem_flatMap.mpr ⟨B, hB, List.mem_cons_of_mem _ hi⟩
  rwa [hc.cfg, checkCFG, flatten_buildCFG] at hi'

/-- No block holds a direct jump: `EliminateDeadCode` has deleted them. -/
theorem noJump (hc : c.From m o gl) {B : BasicBlock} (hB : B ∈ c.cfg) {i : Instruction}
    (hi : i ∈ B.insts) : i.isDirectJMP = false := by
  rcases List.mem_cons.mp (hc.mem_list hB hi) with rfl | hi
  · rfl
  · exact eliminateDeadCode_noJumps (mergeLabels_headOK (all_headOK c.check.stmts m)) i hi

/-- No unconditional branch is lifted. -/
theorem no_goto (hc : c.From m o gl) {e : String × List PtraceCode}
    (he : e ∈ c.lifter.codeBlocks) (l : String) : .goto l ∉ e.2 := by
  intro hmem
  have he : e ∈ genPtraceCode c.cfg c.ptraceBbs := he
  obtain ⟨⟨B, b⟩, hB, rfl⟩ := List.mem_map.mp (genPtraceCode_eq ▸ he)
  obtain ⟨i, hi, hlift⟩ := List.mem_filterMap.mp hmem
  have hdirect := hc.noJump (List.mem_of_getElem? (mem_liftedBlocks.mp hB).1) hi
  obtain ⟨a, b, t, f, rfl, -⟩ | ⟨_, _, _, _, _, -, -, hp⟩ | ⟨_, _, -, hp⟩ | ⟨_, _, -, hp⟩ :=
    Instruction.lift_cases hlift
  · cases hdirect
  · cases hp
  · cases hp
  · rcases hp with hp | hp | hp <;> cases hp

/-- When the root is ptrace-only, all other blocks come after a block that acts. -/
theorem after_root (hc : c.From m o gl) (hwt : allWellTyped c.check.stmts = true)
    (h0 : c.ptraceOnlyBbs.count 0 = true) {b : Nat} {B : BasicBlock} (hb : 0 < b)
    (hB : c.cfg[b]? = some B) : Lifted c.cfg c.ptraceBbs b := by
  have hg := hc.isCFG hwt
  obtain ⟨root, hroot⟩ : ∃ root, c.cfg[0]? = some root :=
    ⟨_, List.getElem?_eq_getElem (List.length_pos_iff.mpr hg.nonempty)⟩
  have hanc : Ancestor c.cfg 0 b := ancestor_root hg.acyclic
    (fun b B hb hB => by
      rw [hc.cfg] at hg hB
      exact checkCFG_parents hg hb hB) hb hB
  -- the root has no parent, so it is a ptrace block because it acts
  have h0' : (colorCode c.cfg o).1.count 0 = true := hc.bbs ▸ hc.ptraceBbs_count hwt h0
  have hacts : root.requiresPtrace = true := by
    cases (mem_colorBlocks hg.acyclic 0).mp h0' with
    | own hB' hr =>
      obtain rfl := Option.some.inj (hroot.symm.trans hB')
      exact hr
    | inherited hB' hp _ => exact absurd (hg.acyclic 0 _ hB' _ hp).1 (Nat.not_lt_zero _)
  have hbefore : ActsBefore c.cfg b := ⟨0, root, hanc, hroot, hacts⟩
  obtain ⟨-, hexact⟩ := colorCode_exact hg.acyclic o
  have hcount := (hexact b).1.mpr ⟨B, hB, .inr hbefore⟩
  rw [hc.bbs]
  exact ⟨hcount, B, hB, ((hexact b).2 B hB hcount).1 hbefore⟩

/-- A ptrace-only block is lifted when it can be entered. -/
theorem lifted_only (hc : c.From m o gl) (hwt : allWellTyped c.check.stmts = true)
    (he : Enterable c.cfg) {b : Nat} {B : BasicBlock} (hB : c.cfg[b]? = some B)
    (hb : c.ptraceOnlyBbs.count b = true) : Lifted c.cfg c.ptraceBbs b := by
  have hs := (startsAtFirst_iff (hc.isCFG hwt).acyclic o).mpr he
  refine ⟨hc.ptraceBbs_count hwt hb, B, hB, ?_⟩
  rw [hc.onlyBbs] at hb
  rw [hc.bbs, ← ptraceOnly_start o hb]
  exact hs.start hB hb

/-- The labels a check adds to `ret_data_to_label` are those it registers. -/
theorem registered (hc : c.From m o gl) (hwt : allWellTyped c.check.stmts = true) (l : String) :
    l ∈ (checkIR c.check.stmts m c.syscall o gl).2.retDataToLabel ↔
      l ∈ gl.retDataToLabel ∨ c.Enters l := by
  have h := @genBPFIR_registered _ c.ptraceOnlyBbs (hc.isCFG hwt) gl l
  rw [hc.onlyBbs, hc.cfg] at h
  unfold Enters
  rw [hc.onlyBbs, hc.cfg]
  exact h

/-- A registered label is an interface point of its check. -/
theorem interface_of_enters (hc : c.From m o gl) (hwt : allWellTyped c.check.stmts = true)
    {l : String} (h : c.Enters l) : l ∈ c.interfacePoints := by
  obtain ⟨b, B, hB, rfl, hb⟩ := h.only
  rw [hc.interface, interfaceLabels, List.mem_filter, decide_eq_true_eq]
  refine ⟨(hc.registered hwt B.label).mpr (.inr h), ?_⟩
  obtain ⟨e, he, rfl⟩ := List.mem_map.mp (of_decide_eq_true (hc.ptraceBbs_count hwt hb))
  exact List.mem_filterMap.mpr ⟨e, he, by rw [hB]; rfl⟩

end From

end CompiledCheck

/-- **The registered labels** are those the checks register. -/
theorem Compiled.registered {m : CodeGenMgr} {gl gl' : RetGlobals} {cs : List CompiledCheck}
    (h : Compiled m gl cs gl') (hwt : ∀ c ∈ cs, allWellTyped c.check.stmts = true) (l : String) :
    l ∈ gl'.retDataToLabel ↔ l ∈ gl.retDataToLabel ∨ ∃ c ∈ cs, c.Enters l := by
  induction h with
  | nil => simp
  | cons o hc _ ih =>
    rw [ih fun c hc => hwt c (List.mem_cons_of_mem _ hc),
      hc.registered (hwt _ List.mem_cons_self)]
    simp only [List.mem_cons, exists_eq_or_imp, or_assoc]

/-! ## Names -/

/-- The labels of blocks: names of system calls, and labels handed out. -/
def IsBlockLabel (l : String) : Prop := Known l ∨ ∃ n, l = labelText n

theorem syscallInfos_unlike : ∀ i ∈ syscallInfos,
    i.name ≠ "out" ∧ ¬ "_start".toList <:+ i.name.toList := by decide +kernel

namespace IsBlockLabel

variable {l : String}

theorem ne_out (h : IsBlockLabel l) : l ≠ "out" := by
  rcases h with h | ⟨n, rfl⟩
  · obtain ⟨i, hi, rfl, -⟩ := h.info
    exact (syscallInfos_unlike i hi).1
  · intro e
    have := congrArg (fun s => s.toList.head?) e
    simp [labelText] at this

theorem ne_start (h : IsBlockLabel l) {x : String} (hx : Known x) : l ≠ x ++ "_start" := by
  rcases h with h | ⟨n, rfl⟩
  · obtain ⟨i, hi, rfl, -⟩ := h.info
    intro e
    refine (syscallInfos_unlike i hi).2 ?_
    rw [e, String.toList_append]
    exact List.suffix_append _ _
  · obtain ⟨i, hi, rfl, -⟩ := hx.info
    intro e
    have hhead := congrArg (fun s => s.toList.head?) e
    have hname := (syscallInfos_names i hi).1
    cases hi : i.name.toList with
    | nil => simp [labelText, hi] at hhead
    | cons a as =>
      rw [hi] at hname
      simp only [labelText, String.toList_append, hi] at hhead
      exact hname hhead.symm

end IsBlockLabel

theorem start_ne_out (x : String) : x ++ "_start" ≠ "out" := by
  intro e
  have hlen := congrArg String.length e
  rw [String.length_append, show "_start".length = 6 from rfl, show "out".length = 3 from rfl] at hlen
  omega

/-! ## The generated source -/

/-- The labels defined in the generated source: those of the blocks, and `out` of the template. -/
def Output.sourceLabels (out : Output) : List String := codeLabels out.tracerText ++ ["out"]

/-- Nothing that is named is undefined, and nothing is lost. The two macros go to `out`. -/
structure Output.NoDangling (out : Output) : Prop where
  filter : ∀ f ∈ out.finalFilters, ∀ l ∈ f.targets, l ∈ filterLabels out.finalFilters
  tables : ∀ e ∈ out.jmpTable ++ out.startTable, ∃ l, e = "&&" ++ l ∧ out.sourceLabels.count l = 1
  gotos : ∀ l ∈ "out" :: jumps out.tracerText, out.sourceLabels.count l = 1
  covered : ∀ c ∈ out.checks, ∀ e ∈ c.ptraceBbs, ∀ B, c.cfg[e.1]? = some B →
    B.label ∈ irLabels c.bpfIR ∨ B.label ∈ c.lifter.blockOrder

/-- The labels in the block of a check: its start label, and those of its code. -/
theorem codeLabels_text {c : CompiledCheck} (hc : Known c.syscall) :
    codeLabels c.text = (c.syscall ++ "_start") :: codeLabels c.lifter.genCode := by
  unfold CompiledCheck.text genPtracePrologue
  rw [syscallInfo_name hc]
  simp only [codeLabels_append, codeLabels_map, codeLabels, Stmt.labels, List.nil_append,
    List.append_nil, List.cons_append]

/-- Its `goto`s are those of its code: declarations and loads have none. -/
theorem jumps_text (c : CompiledCheck) : jumps c.text = jumps c.lifter.genCode := by
  have hload : ∀ (a : ArgumentsInfo) (x : String) (i : Nat), (a.extract x i).target? = none := by
    intro a x i
    unfold ArgumentsInfo.extract
    split
    · rfl
    · cases a.memArgsSize.lookup x <;> rfl
  unfold CompiledCheck.text genPtracePrologue
  simp only [jumps, codeLines_append, codeLines_map, codeLines, Stmt.lines, List.nil_append,
    List.singleton_append, List.filterMap_append, List.filterMap_map]
  have hdecl : ∀ is : List Nat, is.filterMap (CLine.target? ∘ fun i =>
      CLine.declare ((getArgumentsInfo c.syscallInfo c.check.args).typeOf (c.check.args.getD i ""))
        (c.check.args.getD i "")) = [] := fun is => List.filterMap_eq_nil_iff.mpr fun _ _ => rfl
  have hloads : ∀ is : List Nat, is.filterMap (CLine.target? ∘ fun i =>
      (getArgumentsInfo c.syscallInfo c.check.args).extract (c.check.args.getD i "") i) = [] :=
    fun is => List.filterMap_eq_nil_iff.mpr fun i _ => hload _ _ i
  rw [hdecl, hloads]
  rfl

section

variable {out : Output} {m : CodeGenMgr} {gl gl' : RetGlobals}

/-- The labels of the code of a check are labels of its blocks. -/
theorem CompiledCheck.From.code_label {o : HashOrder} {c : CompiledCheck} (hc : c.From m o gl)
    (hwt : allWellTyped c.check.stmts = true) {l : String} (hl : l ∈ codeLabels c.lifter.genCode) :
    IsBlockLabel l ∧ ∃ B ∈ c.cfg, B.label = l := by
  obtain ⟨hmem, -⟩ := (IRLifter.mem_codeLabels_genCode (hc.ordered hwt)).mp hl
  obtain ⟨b, B, hB, rfl, -⟩ := mem_genPtraceCode.mp hmem
  have hB := List.mem_of_getElem? hB
  refine ⟨?_, B, hB, rfl⟩
  rcases hc.block_label hB with h | ⟨n, -, -, h⟩
  · exact .inl (h ▸ hc.known)
  · exact .inr ⟨n, h⟩

/-- **The source defines no label twice.** -/
theorem sourceLabels_nodup (hcomp : Compiled m gl out.checks gl')
    (hwt : ∀ c ∈ out.checks, allWellTyped c.check.stmts = true)
    (hnd : (out.checks.map CompiledCheck.syscall).Nodup) : out.sourceLabels.Nodup := by
  have hin : ∀ c ∈ out.handlers, c ∈ out.checks := fun c hc => (List.mem_filter.mp hc).1
  have hlabels : ∀ c ∈ out.handlers, codeLabels c.text =
      (c.syscall ++ "_start") :: codeLabels c.lifter.genCode := by
    intro c hc
    obtain ⟨_, _, _, hfrom, -⟩ := hcomp.from_mem (hin c hc)
    exact codeLabels_text hfrom.known
  have hcode : ∀ c ∈ out.handlers, ∀ l ∈ codeLabels c.lifter.genCode,
      IsBlockLabel l ∧ ∃ B ∈ c.cfg, B.label = l := by
    intro c hc l hl
    obtain ⟨_, _, _, hfrom, -⟩ := hcomp.from_mem (hin c hc)
    exact hfrom.code_label (hwt c (hin c hc)) hl
  have hknown : ∀ c ∈ out.handlers, Known c.syscall := by
    intro c hc
    obtain ⟨_, _, _, hfrom, -⟩ := hcomp.from_mem (hin c hc)
    exact hfrom.known
  rw [Output.sourceLabels, Output.tracerText, IRLifter.codeLabels_flatMap, List.nodup_append]
  refine ⟨List.nodup_flatMap.mpr ⟨fun c hc => ?_, ?_⟩, List.nodup_singleton _, ?_⟩
  · rw [hlabels c hc]
    refine List.nodup_cons.mpr ⟨fun hmem => ?_, ?_⟩
    · exact (hcode c hc _ hmem).1.ne_start (hknown c hc) rfl
    · obtain ⟨_, _, _, hfrom, -⟩ := hcomp.from_mem (hin c hc)
      exact IRLifter.codeLabels_genCode_nodup (hfrom.ordered (hwt c (hin c hc)))
  · -- the labels of two checks
    have hnames : out.handlers.Pairwise fun c c' => c.syscall ≠ c'.syscall :=
      List.pairwise_map.mp (hnd.sublist (List.filter_sublist.map _))
    refine hnames.imp_of_mem fun {c c'} hc hc' hne l hl hl' => ?_
    have hl : l ∈ codeLabels c.text := hl
    have hl' : l ∈ codeLabels c'.text := hl'
    rw [hlabels c hc] at hl
    rw [hlabels c' hc'] at hl'
    rcases List.mem_cons.mp hl with rfl | hl <;> rcases List.mem_cons.mp hl' with he | hl'
    · exact hne (String.append_left_inj _ |>.mp he)
    · exact (hcode c' hc' _ hl').1.ne_start (hknown c hc) rfl
    · exact (hcode c hc _ hl).1.ne_start (hknown c' hc') he
    · obtain ⟨-, B, hB, hBl⟩ := hcode c hc l hl
      obtain ⟨-, B', hB', hBl'⟩ := hcode c' hc' l hl'
      exact hne (hcomp.label_owner (hin c hc) (hin c' hc') hB hB' (hBl.trans hBl'.symm))
  · intro l hl l' hl' he
    obtain rfl := List.mem_singleton.mp hl'
    subst he
    obtain ⟨c, hc, hl⟩ := List.mem_flatMap.mp hl
    rw [hlabels c hc] at hl
    rcases List.mem_cons.mp hl with he | hl
    · exact start_ne_out c.syscall he.symm
    · exact (hcode c hc _ hl).1.ne_out rfl

/-! ## The filter's jumps -/

/-- The list of a check is cut from its CFG. -/
theorem CompiledCheck.From.bpfIR_eq {o : HashOrder} {c : CompiledCheck} (hc : c.From m o gl) :
    c.bpfIR = (genBPFIR c.cfg c.ptraceOnlyBbs gl).1 := by
  rw [hc.bpfIR, hc.onlyBbs, hc.cfg]
  rfl

/-- The code of a check names labels of its own. -/
theorem CompiledCheck.From.body_targets {o : HashOrder} {c : CompiledCheck} (hc : c.From m o gl)
    (hwt : allWellTyped c.check.stmts = true) (he : Enterable c.cfg) :
    ∀ f ∈ c.bpfFilters, ∀ l ∈ f.targets, l ∈ filterLabels c.bpfFilters := by
  intro f hf l hl
  have hg := hc.isCFG hwt
  obtain ⟨rest, hrest, hcmp, hgen⟩ := hc.filters'
  obtain ⟨i, hi, hif⟩ := mem_genFilters hcmp hgen hf
  have hl := hif.targets l hl
  have hi' : i ∈ (genBPFIR c.cfg c.ptraceOnlyBbs gl).1 := by
    rw [← hc.bpfIR_eq, hrest]
    exact List.mem_cons_of_mem _ hi
  obtain ⟨h0, b, B, hB, hb, hiB⟩ := genBPFIR_branch hg gl hi' hl
  obtain ⟨k, hk, C, hC, rfl⟩ := hg.target b B hB i hiB l hl
  -- the block branched to is emitted, or has a stub
  have hmem : C.label ∈ irLabels c.bpfIR := by
    rw [hc.bpfIR_eq]
    refine (genBPFIR_labels hg gl C.label).mpr ⟨k, C, hC, rfl, ?_⟩
    rw [h0, if_neg Bool.false_ne_true]
    cases hcount : c.ptraceOnlyBbs.count k with
    | false => exact .inl rfl
    | true =>
      have hs := (startsAtFirst_iff hg.acyclic o).mpr he
      rw [← hc.onlyBbs] at hs
      exact .inr ⟨C, hC, hcount, hs.start hC hcount, b, (hg.edges b k B C hB hC).mp hk, hb⟩
  -- it is not the root
  rw [hrest, irLabels_cons, List.mem_append] at hmem
  rw [genFilters_labels hcmp hgen]
  refine hmem.resolve_left fun hroot => ?_
  obtain ⟨root, hroot'⟩ : ∃ root, c.cfg[0]? = some root :=
    ⟨_, List.getElem?_eq_getElem (List.length_pos_iff.mpr hg.nonempty)⟩
  have hlabel : C.label = root.label := by
    rw [hc.root_label hroot']
    simpa [Instruction.label?, eq_comm] using hroot
  have := hg.label_inj hC hroot' hlabel
  have := (hg.forward b B hB k hk).1
  omega

theorem checksFilters_targets (d : String) {cs : List CompiledCheck}
    (h : ∀ c ∈ cs, ∀ f ∈ c.bpfFilters, ∀ l ∈ f.targets, l ∈ filterLabels c.bpfFilters) :
    ∀ f ∈ checksFilters d cs, ∀ l ∈ f.targets, l ∈ filterLabels (checksFilters d cs) ∨ l = d := by
  induction cs with
  | nil => exact fun f hf => absurd hf List.not_mem_nil
  | cons c cs ih =>
    intro f hf l hl
    rw [checksFilters, filterLabels_append, List.mem_append, CompiledCheck.filters,
      filterLabels_label, filterLabels_jump]
    simp only [checksFilters, CompiledCheck.filters, List.cons_append, List.mem_cons,
      List.mem_append] at hf
    rcases hf with rfl | rfl | hf | hf
    · exact absurd hl List.not_mem_nil
    · obtain rfl : l = nextLabel d cs := by simpa [BPFFilter.targets] using hl
      rcases List.mem_append.mp (nextLabel_mem d cs List.mem_cons_self) with hm | hm
      · exact .inl (.inr (filterLabels_checksFilters d cs ▸ hm))
      · exact .inr (List.mem_singleton.mp hm)
    · exact .inl (.inl (List.mem_cons_of_mem _ (h c List.mem_cons_self f hf l hl)))
    · exact (ih (fun c hc => h c (List.mem_cons_of_mem _ hc)) f hf l hl).imp_left .inr

/-- **Every label a jump of the filter names is defined.** -/
theorem finalFilters_targets
    (h : ∀ c ∈ out.checks, ∀ f ∈ c.bpfFilters, ∀ l ∈ f.targets, l ∈ filterLabels c.bpfFilters) :
    ∀ f ∈ out.finalFilters, ∀ l ∈ f.targets, l ∈ filterLabels out.finalFilters := by
  intro f hf l hl
  cases hcs : out.checks with
  | nil =>
    rw [finalFilters_nil hcs] at hf
    exact absurd hf List.not_mem_nil
  | cons c cs =>
    rw [finalFilters_eq hcs, List.mem_append, List.mem_append] at hf
    rw [finalFilters_eq hcs, filterLabels_append, filterLabels_append, List.mem_append,
      List.mem_append]
    rcases hf with hf | hf | hf
    · rcases headerFilters_targets hf l hl with rfl | rfl
      · exact .inr (.inr (deny_mem_footer _))
      · rw [hcs]
        exact .inr (.inl List.mem_cons_self)
    · rcases checksFilters_targets _ h f hf l hl with hm | rfl
      · exact .inr (.inl hm)
      · exact .inr (.inr (default_mem_footer _))
    · rw [footerFilters_targets hf] at hl
      exact absurd hl List.not_mem_nil

/-! ## Nothing dangles -/

/-- The label a check registers is in its code, when its ptrace-only blocks can be entered. -/
theorem CompiledCheck.From.enters_label {o : HashOrder} {c : CompiledCheck} (hc : c.From m o gl)
    (hwt : allWellTyped c.check.stmts = true) (he : Enterable c.cfg) {l : String}
    (h : c.Enters l) : l ∈ codeLabels c.lifter.genCode := by
  obtain ⟨b, B, hB, rfl, hb⟩ := h.only
  exact (IRLifter.mem_codeLabels_genCode (hc.ordered hwt)).mpr
    ⟨mem_genPtraceCode.mpr ⟨b, B, hB, rfl, hc.lifted_only hwt he hB hb⟩,
      .inl (hc.interface_of_enters hwt h)⟩

/-- A `goto` of the code names a label of the code. -/
theorem CompiledCheck.From.jump_label {o : HashOrder} {c : CompiledCheck} (hc : c.From m o gl)
    (hwt : allWellTyped c.check.stmts = true) {l : String} (hl : l ∈ jumps c.lifter.genCode) :
    l ∈ codeLabels c.lifter.genCode := by
  have hord := hc.ordered hwt
  obtain ⟨e, hmem, hgoto | ⟨⟨p, hp, hlp⟩, hcnt⟩⟩ := (IRLifter.mem_jumps_genCode_iff hord).mp hl
  · exact absurd hgoto (hc.no_goto hmem l)
  · -- an arm refers to a block behind, and is not its only reference
    have htarget := IRLifter.mem_targets_of_arm hlp
    obtain ⟨pre, post, hsplit⟩ := List.append_of_mem hmem
    have hpos : 0 < c.lifter.blockRefCnt l := List.count_pos_iff.mpr
      (List.mem_flatMap.mpr ⟨e, hmem, List.mem_flatMap.mpr ⟨p, hp, htarget⟩⟩)
    refine (IRLifter.mem_codeLabels_genCode hord).mpr ⟨?_, .inr (by omega)⟩
    rw [IRLifter.blockOrder, hsplit, List.map_append, List.map_cons]
    exact List.mem_append_right _
      (List.mem_cons_of_mem _ (hord.forward pre e post hsplit p hp l htarget))

/-- No block is lost: a ptrace-only one is lifted, and another one is emitted, unless the root is
ptrace-only. -/
theorem CompiledCheck.From.block_covered {o : HashOrder} {c : CompiledCheck} (hc : c.From m o gl)
    (hwt : allWellTyped c.check.stmts = true) (he : Enterable c.cfg) {b : Nat} {B : BasicBlock}
    (hB : c.cfg[b]? = some B) :
    B.label ∈ irLabels c.bpfIR ∨ B.label ∈ c.lifter.blockOrder := by
  have hlift : Lifted c.cfg c.ptraceBbs b → B.label ∈ c.lifter.blockOrder := fun hl =>
    mem_genPtraceCode.mpr ⟨b, B, hB, rfl, hl⟩
  cases honly : c.ptraceOnlyBbs.count b with
  | true => exact .inr (hlift (hc.lifted_only hwt he hB honly))
  | false =>
    cases h0 : c.ptraceOnlyBbs.count 0 with
    | true =>
      have hpos : 0 < b := by
        refine Nat.pos_of_ne_zero fun hz => ?_
        rw [hz, h0] at honly
        cases honly
      exact .inr (hlift (hc.after_root hwt h0 hpos hB))
    | false =>
      left
      rw [hc.bpfIR_eq]
      refine (genBPFIR_labels (hc.isCFG hwt) gl B.label).mpr ⟨b, B, hB, rfl, ?_⟩
      rw [h0, if_neg Bool.false_ne_true]
      exact .inl honly

/-- A label in the code of a check is in the source, and so is the start label of the check. -/
theorem source_label (hknown : ∀ c ∈ out.checks, Known c.syscall) {c : CompiledCheck}
    (hc : c ∈ out.checks) {l : String} (hl : l ∈ codeLabels c.lifter.genCode) :
    l ∈ out.sourceLabels ∧ c.syscall ++ "_start" ∈ out.sourceLabels := by
  have hhandler : c ∈ out.handlers := by
    refine List.mem_filter.mpr ⟨hc, ?_⟩
    cases hcode : c.lifter.genCode with
    | nil =>
      rw [hcode] at hl
      exact absurd hl List.not_mem_nil
    | cons s ss => rfl
  have htext : ∀ l ∈ codeLabels c.text, l ∈ out.sourceLabels := by
    intro l hl
    rw [Output.sourceLabels, Output.tracerText, IRLifter.codeLabels_flatMap]
    exact List.mem_append_left _ (List.mem_flatMap.mpr ⟨c, hhandler, hl⟩)
  rw [codeLabels_text (hknown c hc)] at htext
  exact ⟨htext l (List.mem_cons_of_mem _ hl), htext _ List.mem_cons_self⟩

theorem CompiledCheck.From.lifted_of_label {o : HashOrder} {c : CompiledCheck} (hc : c.From m o gl)
    (hwt : allWellTyped c.check.stmts = true) {b : Nat} {B : BasicBlock} (hB : c.cfg[b]? = some B)
    (hl : B.label ∈ c.lifter.blockOrder) : Lifted c.cfg c.ptraceBbs b := by
  obtain ⟨b', B', hB', hlabel, h⟩ := mem_genPtraceCode.mp hl
  obtain rfl := (hc.isCFG hwt).label_inj hB' hB hlabel
  exact h

/-- The label of a block is in the source only when its check has lifted it. -/
theorem blockOrder_of_source (hcomp : Compiled m gl out.checks gl')
    (hwt : ∀ c ∈ out.checks, allWellTyped c.check.stmts = true)
    (hnd : (out.checks.map CompiledCheck.syscall).Nodup) {c : CompiledCheck} (hc : c ∈ out.checks)
    {B : BasicBlock} (hB : B ∈ c.cfg) (hmem : B.label ∈ out.sourceLabels) :
    B.label ∈ c.lifter.blockOrder := by
  obtain ⟨_, _, _, hfrom, -⟩ := hcomp.from_mem hc
  have hblock : IsBlockLabel B.label := by
    rcases hfrom.block_label hB with h | ⟨n, -, -, h⟩
    · exact .inl (h ▸ hfrom.known)
    · exact .inr ⟨n, h⟩
  rcases List.mem_append.mp hmem with hmem | hmem
  · rw [Output.tracerText, IRLifter.codeLabels_flatMap] at hmem
    obtain ⟨c', hc', hmem⟩ := List.mem_flatMap.mp hmem
    have hc' := (List.mem_filter.mp hc').1
    obtain ⟨_, _, _, hfrom', -⟩ := hcomp.from_mem hc'
    rw [codeLabels_text hfrom'.known] at hmem
    rcases List.mem_cons.mp hmem with he | hmem
    · exact absurd he (hblock.ne_start hfrom'.known)
    · obtain ⟨-, C, hC, hlC⟩ := hfrom'.code_label (hwt c' hc') hmem
      obtain rfl := List.inj_on_of_nodup_map hnd hc' hc (hcomp.label_owner hc' hc hC hB hlC)
      exact ((IRLifter.mem_codeLabels_genCode (hfrom'.ordered (hwt c' hc'))).mp hmem).1
  · exact absurd (List.mem_singleton.mp hmem) hblock.ne_out

/-- A ptrace-only block that cannot be entered is lost, or else named in `jmp_table` and not defined. -/
theorem enterable_of_noDangling (hcomp : Compiled m gl out.checks out.globals)
    (hwt : ∀ c ∈ out.checks, allWellTyped c.check.stmts = true)
    (hnd : (out.checks.map CompiledCheck.syscall).Nodup) (h : out.NoDangling) {c : CompiledCheck}
    (hc : c ∈ out.checks) : Enterable c.cfg := by
  obtain ⟨m₁, o, gl₁, hfrom, -, -⟩ := hcomp.from_mem hc
  have hwtc := hwt c hc
  have hg := hfrom.isCFG hwtc
  refine (startsAtFirst_iff hg.acyclic o).mp fun e hmem B hB => ?_
  have honly : (colorCode c.cfg o).2.count e.1 = true := decide_eq_true (List.mem_map_of_mem hmem)
  have honly' : c.ptraceOnlyBbs.count e.1 = true := hfrom.onlyBbs ▸ honly
  have hstart : e.2 = (colorCode c.cfg o).2.start e.1 := by
    obtain ⟨b, -, rfl⟩ := List.mem_map.mp hmem
    rw [ptraceOnly_start o honly]
    rfl
  -- a lifted block starts at its first instruction
  have hlift : B.label ∈ c.lifter.blockOrder → e.2 = B.firstInst := by
    intro hl
    obtain ⟨-, B', hB', hs⟩ := hfrom.lifted_of_label hwtc hB hl
    obtain rfl := Option.some.inj (hB.symm.trans hB')
    rw [hstart, ptraceOnly_start o honly, ← hs, hfrom.bbs]
  obtain ⟨e', he', heq⟩ := List.mem_map.mp (of_decide_eq_true (hfrom.ptraceBbs_count hwtc honly'))
  refine (h.covered c hc e' he' B (heq ▸ hB)).elim (fun hemit => ?_) hlift
  rw [hfrom.bpfIR_eq] at hemit
  obtain ⟨b, B', hB', hlabel, hb⟩ := (genBPFIR_labels hg gl₁ B.label).mp hemit
  obtain rfl := hg.label_inj hB' hB hlabel
  obtain rfl := Option.some.inj (hB.symm.trans hB')
  split at hb
  · -- the root has a stub, and so its label is in `jmp_table`
    rename_i h0
    have henters : c.Enters B.label := ⟨e.1, B, hB, rfl, by rw [if_pos h0]; exact hb⟩
    have hreg : B.label ∈ out.globals.retDataToLabel :=
      (hcomp.registered hwt B.label).mpr (.inr ⟨c, hc, henters⟩)
    obtain ⟨l, he, hcount⟩ := h.tables ("&&" ++ B.label)
      (List.mem_append_left _ (List.mem_map_of_mem hreg))
    obtain rfl := (String.append_right_inj "&&").mp he
    exact hlift (blockOrder_of_source hcomp hwt hnd hc (List.mem_of_getElem? hB)
      (List.count_pos_iff.mp (by omega)))
  · rcases hb with hb | ⟨B', hB', -, hs, -⟩
    · rw [honly'] at hb
      cases hb
    · obtain rfl := Option.some.inj (hB.symm.trans hB')
      rw [hstart, ← hfrom.onlyBbs, hs]

/-- When every ptrace-only block can be entered, nothing dangles. -/
theorem noDangling_of_enterable {k : Nat}
    (hcomp : Compiled {} (.initial k) out.checks out.globals)
    (hwt : ∀ c ∈ out.checks, allWellTyped c.check.stmts = true)
    (hnd : (out.checks.map CompiledCheck.syscall).Nodup)
    (he : ∀ c ∈ out.checks, Enterable c.cfg) : out.NoDangling := by
  have hfrom : ∀ c ∈ out.checks, ∃ m o gl, c.From m o gl := by
    intro c hc
    obtain ⟨m, o, gl, h, -⟩ := hcomp.from_mem hc
    exact ⟨m, o, gl, h⟩
  have hknown : ∀ c ∈ out.checks, Known c.syscall := by
    intro c hc
    obtain ⟨_, _, _, h⟩ := hfrom c hc
    exact h.known
  have hone : ∀ l ∈ out.sourceLabels, out.sourceLabels.count l = 1 := fun l hl =>
    List.count_eq_one_of_mem (sourceLabels_nodup hcomp hwt hnd) hl
  -- a registered label, and the start label that goes with it
  have hreg : ∀ l ∈ out.globals.retDataToLabel, l ∈ out.sourceLabels ∧
      label2check out.checks l ++ "_start" ∈ out.sourceLabels := by
    intro l hl
    rw [hcomp.registered hwt] at hl
    obtain ⟨c, hc, henters⟩ := hl.resolve_left List.not_mem_nil
    obtain ⟨_, _, _, h⟩ := hfrom c hc
    obtain ⟨b, B, hB, rfl, hb⟩ := henters.only
    rw [label2check_eq hcomp hc hB (h.ptraceBbs_count (hwt c hc) hb)]
    exact source_label hknown hc (h.enters_label (hwt c hc) (he c hc) henters)
  constructor
  · refine finalFilters_targets fun c hc => ?_
    obtain ⟨_, _, _, h⟩ := hfrom c hc
    exact h.body_targets (hwt c hc) (he c hc)
  · intro e hmem
    rcases List.mem_append.mp hmem with hmem | hmem
    · obtain ⟨l, hl, rfl⟩ := List.mem_map.mp hmem
      exact ⟨l, rfl, hone l (hreg l hl).1⟩
    · obtain ⟨l, hl, rfl⟩ := List.mem_map.mp hmem
      exact ⟨_, String.append_assoc .., hone _ (hreg l hl).2⟩
  · intro l hl
    refine hone l ?_
    rcases List.mem_cons.mp hl with rfl | hl
    · exact List.mem_append_right _ (List.mem_singleton_self _)
    · rw [Output.tracerText, IRLifter.jumps_flatMap] at hl
      obtain ⟨c, hc, hl⟩ := List.mem_flatMap.mp hl
      have hc := (List.mem_filter.mp hc).1
      obtain ⟨_, _, _, h⟩ := hfrom c hc
      rw [jumps_text] at hl
      exact (source_label hknown hc (h.jump_label (hwt c hc) hl)).1
  · intro c hc e _ B hB
    obtain ⟨_, _, _, h⟩ := hfrom c hc
    exact h.block_covered (hwt c hc) (he c hc) hB

end

/-- **When nothing dangles.** Of a policy that compiles, with well-typed bodies and distinct names:
the jumps of the filter, the tables and the `goto`s of the tracer go to labels that are defined, and
each ptrace block is in one of the two, exactly when in every check, a block that holds a helper call
or an assignment, comes after none and has at most one parent begins with one. -/
theorem noDangling_iff {policys : List Policy} {orders : Nat → HashOrder} {out : Output}
    (hout : compile policys orders = some out)
    (hwt : ∀ c ∈ policys.filterMap Policy.check?, allWellTyped c.stmts = true)
    (hnd : ((policys.filterMap Policy.check?).map SyscallCheck.syscall).Nodup) :
    out.NoDangling ↔ ∀ c ∈ out.checks, Enterable c.cfg := by
  obtain ⟨⟨_, hcomp⟩, hchecks, -⟩ := compile_spec hout
  have hwt' : ∀ c ∈ out.checks, allWellTyped c.check.stmts = true := fun c hc =>
    hwt c.check (hchecks ▸ List.mem_map_of_mem hc)
  have hnd' : (out.checks.map CompiledCheck.syscall).Nodup := by
    rw [← hchecks, List.map_map] at hnd
    exact hnd
  exact ⟨fun h c hc => enterable_of_noDangling hcomp hwt' hnd' h hc,
    noDangling_of_enterable hcomp hwt' hnd'⟩

/-- `open` for writing goes to another file. -/
def redirectWrites : List Policy :=
  [.defaultDeny, .check ⟨"open", ["name", "flags", "mode"],
    [.ifThen (.op2 .EQ (.ref "flags") (.value 1))
      (.compound [.assign "name" (.inv "safex" ["name"])]), .perm .ALLOW], open_named⟩]

theorem redirectWrites_linked : ∃ out, compile redirectWrites (fun _ => .insertion) = some out ∧
    out.NoDangling := by
  refine ⟨_, rfl, (@noDangling_iff redirectWrites (fun _ => .insertion) _ rfl (by decide)
    (by decide)).mpr fun c hc => enterable_of_blocks ?_⟩
  revert c
  decide

/-- `open` for writing has its mode masked: the block assigns, but begins with the mask. -/
def maskWrites : List Policy :=
  [.defaultDeny, .check ⟨"open", ["name", "flags", "mode"],
    [.ifThen (.op2 .EQ (.ref "flags") (.value 1))
      (.compound [.assign "mode" (.op2 .BITAND (.ref "mode") (.value 7))]), .perm .ALLOW],
    open_named⟩]

/-- The block is neither in the filter's list nor lifted, and the filter jumps to its label. -/
theorem maskWrites_dangles : (∀ c ∈ maskWrites.filterMap Policy.check?,
      allWellTyped c.stmts = true) ∧
    ((maskWrites.filterMap Policy.check?).map SyscallCheck.syscall).Nodup ∧
    ∃ out, compile maskWrites (fun _ => .insertion) = some out ∧ ¬ out.NoDangling := by
  refine ⟨by decide, by decide, _, rfl, fun h => ?_⟩
  have hjump := h.filter
  revert hjump
  decide

end SeccompPolicy
