import SeccompPolicy.Dispatch

/-!
# The handshake of filter and tracer

Source: the globals `ret_data`, `bpfret_to_ret_data` and `ret_data_to_label` of `code_gen.cpp`,
the tables of `PolicyManager::PtraceCodeGen` in `policy.cpp`, and the two computed `goto`s of the
ptrace template.

A stub returns `SECCOMP_RET_TRACE` with a number; the tracer jumps through `start_table` and
`jmp_table` at that number. The number comes from `ret_data`, goes through `bpfret_to_ret_data`
into the text of the filter, and meets the label of the block again in `ret_data_to_label`. None
of the three maps is about the place where the number ends up, the program: this module connects
them to it.

Two facts carry the result. A return to the tracer stands right behind the label of a ptrace-only
block, and that label is registered under its number (`CompiledCheck.From.stub`). And a label
belongs to one syscall, and occurs once in the text of its check (`Compiled.label_owner`).

## Results

* `genBPFIR_stubs`, `CompiledCheck.From.stub`: the stubs of a check, in its list and in its
  filters.
* `trace_located`: only the bodies of checks return to the tracer; neither the header nor a
  comparison nor the footer does.
* `stubAt_of_trace`: every return to the tracer is a stub's (`Output.StubAt` names the place, the
  check and the block).
* `handshake_exact`: the number a stub returns is the index of its block in `jmp_table` and of the
  start label of its check in `start_table`; it is not cut by the sixteen bits of
  `SECCOMP_RET_DATA`, and two stubs have different numbers.
* `openUnlink_handshake`: `open` with a rewrite on one path, and `unlink` with one on every path.
-/

namespace SeccompPolicy

open ClassicBpf SmallStep

/-! ## The tables: `PtraceCodeGen` -/

/-- `label_2_check`: the syscall of the last check that has a ptrace block with the label. -/
def label2check (cs : List CompiledCheck) (l : String) : String :=
  ((cs.flatMap fun c => c.ptraceBbs.filterMap fun e =>
    c.cfg[e.1]?.map fun B => (B.label, c.syscall)).reverse.lookup l).getD ""

/-- `jmp_table`. -/
def Output.jmpTable (out : Output) : List String := out.globals.retDataToLabel.map ("&&" ++ ·)

/-- `start_table`. -/
def Output.startTable (out : Output) : List String :=
  out.globals.retDataToLabel.map fun l => "&&" ++ label2check out.checks l ++ "_start"

/-! ## Stubs in the list -/

/-- The return of a stub. -/
def Instruction.isStub : Instruction → Bool
  | .ret _ rval => decide (rval = RET_TO_PTRACE)
  | _ => false

theorem Instruction.FromSource.isStub {i : Instruction} (h : i.FromSource) : i.isStub = false := by
  cases i with
  | ret id rval => rcases h with rfl | rfl <;> rfl
  | _ => rfl

/-- A return to the tracer has the label of a ptrace-only block in front of it, and is registered
under that label. -/
def BehindLabel (g : List BasicBlock) (only : PtraceBasicBlock) (gl : RetGlobals)
    (i j : Instruction) : Prop :=
  ∀ id, j = .ret id RET_TO_PTRACE → ∃ (b : Nat) (B : BasicBlock), g[b]? = some B ∧
    only.count b = true ∧ i = .label B.label ∧ gl.Registered id B.label

section

variable {g : List BasicBlock} {only : PtraceBasicBlock} {gl glE : RetGlobals}

theorem behindLabel_of_not {i j : Instruction} (hj : j.isStub = false) :
    BehindLabel g only gl i j := by
  rintro id rfl
  cases hj

/-- Code without stubs may stand in front. -/
theorem behindLabel_chain {c c' : List Instruction} {i : Instruction}
    (hc : ∀ j ∈ c, j.isStub = false) (h : ∀ i, List.IsChain (BehindLabel g only gl) (i :: c')) :
    List.IsChain (BehindLabel g only gl) (i :: (c ++ c')) := by
  induction c generalizing i with
  | nil => exact h i
  | cons j c ih =>
    exact .cons_cons (behindLabel_of_not (hc j List.mem_cons_self))
      (ih fun k hk => hc k (List.mem_cons_of_mem j hk))

theorem countP_isStub_eq_zero {c : List Instruction} (hc : ∀ j ∈ c, j.isStub = false) :
    c.countP Instruction.isStub = 0 :=
  List.countP_eq_zero.mpr fun j hj => by rw [hc j hj]; exact Bool.false_ne_true

/-- The loop of `GenBPFIR` on blocks without stubs: every number taken is the number of a stub. -/
theorem genBlocks_stubs {Bs : List BasicBlock} {b : Nat} {targets : List Nat}
    (hg : ∀ (k : Nat) (B : BasicBlock), Bs[k]? = some B → g[b + k]? = some B)
    (hBs : ∀ B ∈ Bs, ∀ i ∈ B.insts, i.isStub = false)
    (hE : (genBlocks only b Bs targets gl).2.Extends glE) :
    gl.retData + (genBlocks only b Bs targets gl).1.countP Instruction.isStub =
        (genBlocks only b Bs targets gl).2.retData ∧
      ∀ i, List.IsChain (BehindLabel g only glE) (i :: (genBlocks only b Bs targets gl).1) := by
  induction Bs generalizing b targets gl with
  | nil => exact ⟨rfl, fun i => .singleton i⟩
  | cons B Bs ih =>
    have hg' : ∀ (k : Nat) (C : BasicBlock), Bs[k]? = some C → g[b + 1 + k]? = some C := by
      intro k C hC
      rw [Nat.add_right_comm]
      exact hg (k + 1) C hC
    have hBs' := fun C hC => hBs C (List.mem_cons_of_mem B hC)
    unfold genBlocks at hE ⊢
    split_ifs at hE ⊢ with h1 h2 h3
    · obtain ⟨hcount, hchain⟩ := ih hg' hBs' hE
      have hnot : ∀ i ∈ .label B.label :: B.insts, i.isStub = false := by
        intro i hi
        rcases List.mem_cons.mp hi with rfl | hi
        · rfl
        · exact hBs B List.mem_cons_self i hi
      refine ⟨?_, fun i => behindLabel_chain hnot hchain⟩
      show gl.retData + List.countP _ ((.label B.label :: B.insts) ++ _) = _
      rw [List.countP_append, countP_isStub_eq_zero hnot, Nat.zero_add, hcount]
    · exact ih hg' hBs' hE
    · obtain ⟨hcount, hchain⟩ := @ih (gl.register B.label) _ _ hg' hBs' hE
      refine ⟨?_, fun i => ?_⟩
      · have hone : (stub B.label gl).1.countP Instruction.isStub = 1 := rfl
        have hret : (gl.register B.label).retData = gl.retData + 1 := rfl
        rw [List.countP_append, hone, ← Nat.add_assoc, ← hret]
        exact hcount
      · refine .cons_cons (behindLabel_of_not rfl) (.cons_cons (fun id hid => ?_) (hchain _))
        obtain rfl : gl.nextId = id := by
          injection hid
        exact ⟨b, B, hg 0 B rfl, by simpa using h1, rfl, (gl.registered_register B.label).mono
          ((genBlocks_extends only Bs (b + 1) targets (gl.register B.label)).trans hE)⟩
    · exact ih hg' hBs' hE

/-- **The stubs of a check.** -/
theorem genBPFIR_stubs (hg : ∀ B ∈ g, ∀ i ∈ B.insts, i.isStub = false) :
    gl.retData + (genBPFIR g only gl).1.countP Instruction.isStub =
        (genBPFIR g only gl).2.retData ∧
      List.IsChain (BehindLabel g only (genBPFIR g only gl).2) (genBPFIR g only gl).1 := by
  cases g with
  | nil => exact ⟨rfl, .nil⟩
  | cons root Bs =>
    simp only [genBPFIR]
    split_ifs with hc
    · refine ⟨rfl, .cons_cons (fun id hid => ?_) (.singleton _)⟩
      obtain rfl : gl.nextId = id := by
        injection hid
      exact ⟨0, root, rfl, hc, rfl, gl.registered_register root.label⟩
    · obtain ⟨hcount, hchain⟩ := @genBlocks_stubs (root :: Bs) only gl _ (root :: Bs) 0 []
        (fun k B hB => by rwa [Nat.zero_add]) hg (RetGlobals.Extends.refl _)
      exact ⟨hcount, (hchain (.label "")).tail⟩

/-- `GenBPFIR` only adds to the registry. -/
theorem genBPFIR_extends (g : List BasicBlock) (only : PtraceBasicBlock) (gl : RetGlobals) :
    gl.Extends (genBPFIR g only gl).2 := by
  cases g with
  | nil => exact .refl gl
  | cons root Bs =>
    simp only [genBPFIR]
    split_ifs
    · exact gl.extends_register root.label
    · exact genBlocks_extends only (root :: Bs) 0 [] gl

end

/-! ## Stubs in the filters -/

/-- The return of a stub. -/
def BPFFilter.isTrace : BPFFilter → Bool
  | .stmt _ (.retTrace _) => true
  | _ => false

/-- A return to the tracer among the filters of an instruction is that of a stub. -/
theorem FilterOf.trace {gl : RetGlobals} {i : Instruction} {f : BPFFilter} (h : FilterOf gl i f)
    (hf : f.isTrace = true) : ∃ id, i = .ret id RET_TO_PTRACE ∧
      f = .stmt [.RET, .K] (.retTrace (gl.dataOf id)) := by
  cases h with
  | label l => cases hf
  | plain hc =>
    cases hc with
    | @stmt op k _ hk => cases k <;> first | exact hk.elim | cases hf
  | test => cases hf
  | @ret id rval f hmem =>
    unfold genReturn at hmem
    split_ifs at hmem with h1 h2 h3
    · obtain rfl := List.mem_singleton.mp hmem
      cases hf
    · obtain rfl := List.mem_singleton.mp hmem
      cases hf
    · exact ⟨id, by rw [h3], List.mem_singleton.mp hmem⟩
    · exact absurd hmem List.not_mem_nil

section

variable {gl : RetGlobals} {args : List String}

/-- Two ways to cut a list around an element. -/
theorem append_eq_append_cons {α : Type*} {as bs xs ys : List α} {x : α}
    (h : as ++ bs = xs ++ x :: ys) :
    (∃ k, as = xs ++ x :: k ∧ ys = k ++ bs) ∨ ∃ k, xs = as ++ k ∧ bs = k ++ x :: ys := by
  rcases List.append_eq_append_iff.mp h with ⟨k, hxs, hbs⟩ | ⟨k, has, hxs⟩
  · exact .inr ⟨k, hxs, hbs⟩
  · cases k with
    | nil => exact .inr ⟨[], by simpa using has.symm, by simpa using hxs.symm⟩
    | cons y k =>
      obtain ⟨rfl, rfl⟩ := List.cons.inj hxs
      exact .inl ⟨k, has, rfl⟩

/-- In front of the filter of a stub stand the filters of what is in front of the stub. -/
theorem genFilters_trace {code : List Instruction} {r : BPFRegs} {us vs : List BPFFilter}
    {f : BPFFilter} (hc : ∀ i ∈ code, i.Compares)
    (h : genFilters gl args r code = some (us ++ f :: vs)) (hf : f.isTrace = true) :
    ∃ pre id post, code = pre ++ .ret id RET_TO_PTRACE :: post ∧
      genFilters gl args r pre = some us ∧ f = .stmt [.RET, .K] (.retTrace (gl.dataOf id)) := by
  induction code generalizing r us with
  | nil =>
    have := Option.some.inj h
    simp at this
  | cons i code ih =>
    obtain ⟨g, fs', hg, hfs', he⟩ := genFilters_cons h
    have hc' := fun j hj => hc j (List.mem_cons_of_mem i hj)
    rcases append_eq_append_cons he.symm with ⟨k, hk, -⟩ | ⟨k, rfl, rfl⟩
    · obtain ⟨id, rfl, hfid⟩ := (mem_genInst (hc i List.mem_cons_self) hg (f := f)
        (by simp [hk])).trace hf
      obtain rfl := Option.some.inj hg
      have hone : genReturn gl id RET_TO_PTRACE = [.stmt [.RET, .K] (.retTrace (gl.dataOf id))] := rfl
      have hus : us = [] := by
        cases us with
        | nil => rfl
        | cons x us => simp [hone] at hk
      exact ⟨[], id, code, rfl, by rw [hus]; rfl, hfid⟩
    · obtain ⟨pre, id, post, rfl, hpre, hfid⟩ := ih hc' hfs'
      exact ⟨i :: pre, id, post, rfl, by simp only [genFilters, hg, hpre, Option.map_some], hfid⟩

/-- Every stub of the list has a filter of its own. -/
theorem genFilters_size {code : List Instruction} {r : BPFRegs} {fs : List BPFFilter}
    (h : genFilters gl args r code = some fs) : code.countP Instruction.isStub ≤ size fs := by
  induction code generalizing r fs with
  | nil => exact Nat.zero_le _
  | cons i code ih =>
    obtain ⟨g, fs', hg, hfs', rfl⟩ := genFilters_cons h
    have hrest := ih hfs'
    rw [size_append, List.countP_cons]
    split
    · rename_i hi
      cases i with
      | ret id rval =>
        obtain rfl : rval = RET_TO_PTRACE := of_decide_eq_true hi
        obtain rfl := Option.some.inj hg
        have hone : size (genReturn gl id RET_TO_PTRACE) = 1 := rfl
        simp only [hone]
        omega
      | _ => cases hi
    · omega

end

section

variable {m : CodeGenMgr} {o : HashOrder} {gl : RetGlobals} {c : CompiledCheck}

/-- What the filters of a check are made from: its list behind the start label. -/
theorem CompiledCheck.From.filters' (hc : c.From m o gl) : ∃ rest,
    c.bpfIR = .label c.syscall :: rest ∧ (∀ i ∈ rest, i.Compares) ∧
      genFilters (checkIR c.check.stmts m c.syscall o gl).2 c.check.args {} rest =
        some c.bpfFilters := by
  obtain ⟨rest, hrest⟩ := checkIR_head c.check.stmts m c.syscall o gl
  have hcmp := checkIR_compares c.check.stmts m c.syscall o gl
  have hf := hc.filters
  rw [hc.bpfIR] at hf
  rw [hrest] at hcmp hf
  exact ⟨rest, hc.bpfIR.trans hrest, fun i hi => hcmp i (List.mem_cons_of_mem _ hi), hf⟩

/-- The blocks of the CFG hold no stubs: the source has no return to the tracer. -/
theorem CompiledCheck.From.noStubs (hc : c.From m o gl) :
    ∀ B ∈ c.cfg, ∀ i ∈ B.insts, i.isStub = false := by
  intro B hB i hi
  rw [hc.cfg] at hB
  have hmem : i ∈ flatten (checkCFG c.check.stmts m c.syscall) :=
    List.mem_flatMap.mpr ⟨B, hB, List.mem_cons_of_mem _ hi⟩
  rw [checkCFG, flatten_buildCFG] at hmem
  rcases List.mem_cons.mp hmem with rfl | hmem
  · rfl
  · exact (eliminated_fromSource c.check.stmts m i hmem).isStub

/-- A check takes no more numbers than it has instructions. -/
theorem CompiledCheck.From.retData_le (hc : c.From m o gl) :
    (checkIR c.check.stmts m c.syscall o gl).2.retData ≤ gl.retData + size c.bpfFilters := by
  obtain ⟨rest, hrest, -, hfs⟩ := hc.filters'
  have hcount := (@genBPFIR_stubs _ (colorCode c.cfg o).2 gl hc.noStubs).1
  rw [hc.cfg] at hcount
  have hle := genFilters_size hfs
  have hir := hc.bpfIR
  unfold checkIR at hir hle ⊢
  rw [← hcount, ← hir, hrest, List.countP_cons_of_neg Bool.false_ne_true]
  omega

/-- **A return to the tracer in the filters of a check** stands right behind the label of a
ptrace-only block, and its number is that of the label. -/
theorem CompiledCheck.From.stub (hc : c.From m o gl) {us vs : List BPFFilter} {f : BPFFilter}
    (hfs : c.bpfFilters = us ++ f :: vs) (hf : f.isTrace = true) :
    ∃ (b : Nat) (B : BasicBlock) (n : Nat) (us' : List BPFFilter), c.cfg[b]? = some B ∧
      c.ptraceOnlyBbs.count b = true ∧ .label c.syscall :: us = us' ++ [.label B.label] ∧
      f = .stmt [.RET, .K] (.retTrace n) ∧
      (checkIR c.check.stmts m c.syscall o gl).2.retDataToLabel[n]? = some B.label := by
  obtain ⟨rest, hrest, hcmp, hgen⟩ := hc.filters'
  rw [hfs] at hgen
  obtain ⟨pre, id, post, rfl, hpre, hfid⟩ := genFilters_trace hcmp hgen hf
  have hchain := (@genBPFIR_stubs _ (colorCode c.cfg o).2 gl hc.noStubs).2
  have hir : c.bpfIR = (genBPFIR c.cfg (colorCode c.cfg o).2 gl).1 := by
    rw [hc.bpfIR, hc.cfg]
    rfl
  rw [← hir, hrest] at hchain
  -- the instruction in front of the return
  obtain ⟨ps, i, hps⟩ : ∃ ps i, Instruction.label c.syscall :: pre = ps ++ [i] :=
    ⟨_, _, (List.dropLast_append_getLast (List.cons_ne_nil _ _)).symm⟩
  rw [← List.cons_append, hps, List.append_assoc, List.singleton_append,
    List.isChain_append_cons_cons] at hchain
  obtain ⟨b, B, hB, hb, rfl, d, hd, hl⟩ := hchain.2.1 id rfl
  have hdata : (checkIR c.check.stmts m c.syscall o gl).2.dataOf id = d := by
    unfold RetGlobals.dataOf checkIR
    rw [hc.cfg] at hd
    rw [hd, Option.getD_some]
  rw [hdata] at hfid
  refine ⟨b, B, d, ?_⟩
  rw [hc.onlyBbs]
  have hl' : (checkIR c.check.stmts m c.syscall o gl).2.retDataToLabel[d]? = some B.label := by
    rw [hc.cfg] at hl
    exact hl
  cases ps with
  | nil =>
    obtain ⟨hlab, rfl⟩ := List.cons.inj hps
    obtain rfl := Option.some.inj hpre
    exact ⟨[], hB, hb, by rw [Instruction.label.inj hlab]; rfl, hfid, hl'⟩
  | cons j ps =>
    obtain ⟨-, rfl⟩ := List.cons.inj hps
    obtain ⟨us₁, r', us₂, -, h₂, rfl⟩ := genFilters_split hpre
    obtain rfl := Option.some.inj h₂
    exact ⟨.label c.syscall :: us₁, hB, hb, rfl, hfid, hl'⟩

end

/-! ## Stubs in the policy -/

/-- The registry only grows from check to check. -/
theorem Compiled.extends {m : CodeGenMgr} {gl gl' : RetGlobals} {cs : List CompiledCheck}
    (h : Compiled m gl cs gl') : gl.Extends gl' := by
  induction h with
  | nil => exact .refl _
  | cons o _ _ ih => exact (genBPFIR_extends _ _ _).trans ih

/-- What each check was compiled from. -/
theorem Compiled.from_mem {m : CodeGenMgr} {gl gl' : RetGlobals} {cs : List CompiledCheck}
    (h : Compiled m gl cs gl') {c : CompiledCheck} (hc : c ∈ cs) : ∃ m₁ o gl₁, c.From m₁ o gl₁ ∧
      m.labelCnt ≤ m₁.labelCnt ∧
      (checkIR c.check.stmts m₁ c.syscall o gl₁).2.Extends gl' := by
  induction h with
  | nil => exact absurd hc List.not_mem_nil
  | @cons m gl gl' c' cs o hfrom hrest ih =>
    rcases List.mem_cons.mp hc with rfl | hc
    · exact ⟨m, o, gl, hfrom, Nat.le_refl _, hrest.extends⟩
    · obtain ⟨m₁, o₁, gl₁, hfrom₁, hcnt, hext⟩ := ih hc
      exact ⟨m₁, o₁, gl₁, hfrom₁, Nat.le_trans (all_emits c'.check.stmts m).cnt hcnt, hext⟩

/-- A filter of a body is one of an instruction. -/
theorem Compiled.filterOf {m : CodeGenMgr} {gl gl' : RetGlobals} {cs : List CompiledCheck}
    (h : Compiled m gl cs gl') {c : CompiledCheck} (hc : c ∈ cs) {f : BPFFilter}
    (hf : f ∈ c.bpfFilters) : ∃ gl i, FilterOf gl i f := by
  obtain ⟨m₁, o, gl₁, hfrom, -, -⟩ := h.from_mem hc
  obtain ⟨rest, -, hcmp, hgen⟩ := hfrom.filters'
  obtain ⟨i, -, hif⟩ := mem_genFilters hcmp hgen hf
  exact ⟨_, i, hif⟩

/-- The numbers taken are no more than the instructions of the checks. -/
theorem Compiled.retData_le {m : CodeGenMgr} {gl gl' : RetGlobals} {cs : List CompiledCheck}
    (h : Compiled m gl cs gl') : gl'.retData ≤ gl.retData + codeSize cs := by
  induction h with
  | nil => exact Nat.le_refl _
  | cons o hfrom _ ih =>
    have := hfrom.retData_le
    simp only [codeSize]
    omega

/-- The blocks of a check, by their labels. -/
theorem checkCFG_labels (ss : List Stmt) (m : CodeGenMgr) (syscall : String) :
    (checkCFG ss m syscall).map BasicBlock.label =
      syscall :: irLabels (eliminateDeadCode (mergedIR ss m)) := buildCFG_labels _ _

/-- The blocks of a check have its name and labels of its own. -/
theorem CompiledCheck.From.block_label {m : CodeGenMgr} {o : HashOrder} {gl : RetGlobals}
    {c : CompiledCheck} (hc : c.From m o gl) {B : BasicBlock} (hB : B ∈ c.cfg) :
    B.label = c.syscall ∨ Fresh m.labelCnt (irGenAll c.check.stmts m).mgr.labelCnt B.label := by
  have h := List.mem_map_of_mem (f := BasicBlock.label) hB
  rw [hc.cfg, checkCFG_labels] at h
  exact (List.mem_cons.mp h).imp_right (eliminated_labels _ _ _)

/-- **A label belongs to one syscall.** -/
theorem Compiled.label_owner {m : CodeGenMgr} {gl gl' : RetGlobals} {cs : List CompiledCheck}
    (h : Compiled m gl cs gl') {c c' : CompiledCheck} (hc : c ∈ cs) (hc' : c' ∈ cs)
    {B B' : BasicBlock} (hB : B ∈ c.cfg) (hB' : B' ∈ c'.cfg) (hl : B.label = B'.label) :
    c.syscall = c'.syscall := by
  induction h with
  | nil => exact absurd hc List.not_mem_nil
  | @cons m gl gl' c₀ cs o hfrom hrest ih =>
    -- a label of the first check and one of a later check
    have key : ∀ {c : CompiledCheck} {B B₀ : BasicBlock}, c ∈ cs → B ∈ c.cfg → B₀ ∈ c₀.cfg →
        B.label = B₀.label → c.syscall = c₀.syscall := by
      intro c B B₀ hc hB hB₀ he
      obtain ⟨m₁, o₁, gl₁, hfrom₁, hcnt, -⟩ := hrest.from_mem hc
      rcases hfrom.block_label hB₀ with h₀ | ⟨n₀, h₀, h₀', h₀l⟩ <;>
        rcases hfrom₁.block_label hB with h₁ | ⟨n₁, h₁, h₁', h₁l⟩
      · rw [← h₀, ← he, h₁]
      · exact absurd (h₀.symm.trans (he.symm.trans h₁l)) (hfrom.known.ne_labelText n₁)
      · exact absurd (h₁.symm.trans (he.trans h₀l)) (hfrom₁.known.ne_labelText n₀)
      · have := labelText_inj.mp (h₁l.symm.trans (he.trans h₀l))
        omega
    rcases List.mem_cons.mp hc with rfl | hmem <;> rcases List.mem_cons.mp hc' with rfl | hmem'
    · rfl
    · exact (key hmem' hB' hB hl.symm).symm
    · exact key hmem hB hB' hl
    · exact ih hmem hmem'

/-- `label_2_check` of a block's label is the check's name. -/
theorem label2check_eq {m : CodeGenMgr} {gl gl' : RetGlobals} {cs : List CompiledCheck}
    (h : Compiled m gl cs gl') {c : CompiledCheck} (hc : c ∈ cs) {b : Nat} {B : BasicBlock}
    (hB : c.cfg[b]? = some B) (hb : c.ptraceBbs.count b = true) :
    label2check cs B.label = c.syscall := by
  unfold label2check
  generalize hL : (cs.flatMap fun c => c.ptraceBbs.filterMap fun e =>
    c.cfg[e.1]?.map fun B => (B.label, c.syscall)) = L
  have hmem : (B.label, c.syscall) ∈ L := by
    obtain ⟨e, he, rfl⟩ := List.mem_map.mp (of_decide_eq_true hb)
    rw [← hL]
    exact List.mem_flatMap.mpr ⟨c, hc, List.mem_filterMap.mpr ⟨e, he, by rw [hB]; rfl⟩⟩
  have honly : ∀ x, (B.label, x) ∈ L → x = c.syscall := by
    intro x hx
    rw [← hL] at hx
    obtain ⟨c', hc', hx⟩ := List.mem_flatMap.mp hx
    obtain ⟨e, -, hx⟩ := List.mem_filterMap.mp hx
    obtain ⟨B', hB', he⟩ := Option.map_eq_some_iff.mp hx
    obtain ⟨hlab, rfl⟩ := Prod.mk.inj he
    exact h.label_owner hc' hc (List.mem_of_getElem? hB') (List.mem_of_getElem? hB) hlab
  cases hlk : L.reverse.lookup B.label with
  | none =>
    have := List.lookup_eq_none_iff.mp hlk _ (List.mem_reverse.mpr hmem)
    simp at this
  | some x =>
    obtain ⟨ps, qs, hps, -⟩ := List.lookup_eq_some_iff.mp hlk
    have : (B.label, x) ∈ L := List.mem_reverse.mp (by rw [hps]; simp)
    exact honly x this

/-- The number `n` is returned at `pc`, by the stub of block number `b` of check number `i`: its
label, and behind it a return to the tracer. -/
structure Output.StubAt (out : Output) (pc i b : Nat) (c : CompiledCheck) (B : BasicBlock)
    (n : Nat) : Prop where
  check : out.checks[i]? = some c
  block : c.cfg[b]? = some B
  cut : c.ptraceOnlyBbs.count b = true
  text : ∃ us vs, .label c.syscall :: c.bpfFilters =
    us ++ .label B.label :: .stmt [.RET, .K] (.retTrace n) :: vs ∧
      pc = out.cmpPc i + 1 + size us

/-- The bits of a returned word that say what to do. -/
def SECCOMP_RET_ACTION_FULL : Word := 0xffff0000#32

/-! ### Where a return to the tracer can be -/

theorem resolve_code (ρ : String → Option Nat) (pc : Nat) (f : BPFFilter) :
    (f.resolve ρ pc).insn.code = f.insn.code := by
  cases f with
  | jump op k jt jf =>
    simp only [BPFFilter.resolve]
    split <;> rfl
  | _ => rfl

/-- Whatever the filter returns, it is not for the tracer. -/
def BPFFilter.NoTrace (f : BPFFilter) : Prop :=
  ∀ (ρ : String → Option Nat) (pc : Nat) (d : SeccompData) (s : State) (w : Word),
    exec d (f.resolve ρ pc).insn s = .ret w → w &&& SECCOMP_RET_ACTION_FULL ≠ SECCOMP_RET_TRACE

/-- A filter that is no return does not return to the tracer. -/
theorem noTrace_of_code {f : BPFFilter} (hf : f.insn.code &&& 0x07 ≠ 0x06) : f.NoTrace := by
  intro ρ pc d s w hw
  rcases exec_ret hw with h | rfl
  · rw [resolve_code] at h
    exact absurd h hf
  · decide

theorem noTrace_label (l : String) : (BPFFilter.label l).NoTrace :=
  noTrace_of_code (show 0xffff &&& 0x07 ≠ 0x06 by decide)

theorem noTrace_cmp (k : KField) (jt jf : Target) :
    (BPFFilter.jump [.JMP, .JEQ, .K] k jt jf).NoTrace :=
  noTrace_of_code (show opcodeVal [.JMP, .JEQ, .K] &&& 0x07 ≠ 0x06 by decide)

/-- Nor does a return with another action. -/
theorem noTrace_return {k : KField}
    (hk : k.val &&& SECCOMP_RET_ACTION_FULL ≠ SECCOMP_RET_TRACE) :
    (BPFFilter.stmt [.RET, .K] k).NoTrace := by
  intro ρ pc d s w hw
  have hexec : exec d (BPFFilter.stmt [.RET, .K] k).insn s = .ret k.val := rfl
  obtain rfl : k.val = w := Effect.ret.inj (hexec.symm.trans hw)
  exact hk

/-- In the filters of an instruction only a stub's return is for the tracer. -/
theorem FilterOf.noTrace {gl : RetGlobals} {i : Instruction} {f : BPFFilter} (h : FilterOf gl i f)
    (hf : f.isTrace = false) : f.NoTrace := by
  cases h with
  | label l => exact noTrace_label l
  | plain hc =>
    cases hc with
    | stmt ho _ => exact noTrace_of_code ho.2
  | test ho _ _ _ => exact noTrace_of_code ho.2.2
  | ret hmem =>
    unfold genReturn at hmem
    split_ifs at hmem
    · obtain rfl := List.mem_singleton.mp hmem
      exact noTrace_return (by decide)
    · obtain rfl := List.mem_singleton.mp hmem
      exact noTrace_return (by decide)
    · obtain rfl := List.mem_singleton.mp hmem
      cases hf
    · exact absurd hmem List.not_mem_nil

theorem header_noTrace (first : String) : ∀ f ∈ headerFilters first, f.NoTrace := by
  intro f hf
  simp only [headerFilters, List.mem_cons, List.not_mem_nil, or_false] at hf
  rcases hf with rfl | rfl | rfl | rfl | rfl
  · exact noTrace_of_code (by decide)
  · exact noTrace_cmp _ _ _
  · exact noTrace_of_code (by decide)
  · exact noTrace_of_code (show opcodeVal [.JMP, .JGT, .K] &&& 0x07 ≠ 0x06 by decide)
  · exact noTrace_of_code (by decide)

theorem footer_noTrace (deny : Bool) : ∀ f ∈ footerFilters deny, f.NoTrace :=
  forall_footerFilters noTrace_label (noTrace_return (by decide)) (noTrace_return (by decide)) deny

/-- A filter among those of the checks that may return to the tracer is in the body of one. -/
theorem checksFilters_split {d : String} {cs : List CompiledCheck} {xs ys : List BPFFilter}
    {f : BPFFilter} (h : checksFilters d cs = xs ++ f :: ys) : f.NoTrace ∨ ∃ i c us vs,
      cs[i]? = some c ∧ c.bpfFilters = us ++ f :: vs ∧
        size xs = codeSize (cs.take i) + 1 + size us := by
  induction cs generalizing xs with
  | nil => simp [checksFilters] at h
  | cons c cs ih =>
    rcases append_eq_append_cons h with ⟨k, hk, -⟩ | ⟨k, rfl, hk⟩
    · -- the place is among the filters of `c`: its label, its comparison, or its body
      cases xs with
      | nil =>
        obtain ⟨rfl, -⟩ := List.cons.inj hk
        exact .inl (noTrace_label _)
      | cons x xs =>
        obtain ⟨hx, hk⟩ := List.cons.inj hk
        cases xs with
        | nil =>
          obtain ⟨rfl, -⟩ := List.cons.inj hk
          exact .inl (noTrace_cmp _ _ _)
        | cons y us =>
          obtain ⟨hy, hk⟩ := List.cons.inj hk
          refine .inr ⟨0, c, us, k, rfl, hk, ?_⟩
          rw [← hx, ← hy, size_label, size_jump, List.take_zero, codeSize, Nat.zero_add,
            Nat.add_comm]
    · rcases ih hk with hno | ⟨i, c', us, vs, hc', hus, hsize⟩
      · exact .inl hno
      refine .inr ⟨i + 1, c', us, vs, hc', hus, ?_⟩
      rw [size_append, size_filters, hsize]
      simp only [List.take_succ_cons, codeSize]
      omega

variable {out : Output}

/-- A place in the body of a check. -/
theorem body_getElem {i : Nat} {c : CompiledCheck} (hc : out.checks[i]? = some c)
    {us vs : List BPFFilter} {f : BPFFilter} (hf : f.isLabel = false)
    (hfs : c.bpfFilters = us ++ f :: vs) : out.program[out.cmpPc i + 1 + size us]? =
      some (f.resolve (fun l => label2pc l out.finalFilters) (out.cmpPc i + 1 + size us)).insn := by
  obtain ⟨first, hF, hsize⟩ := finalFilters_check hc
  generalize headerFilters first ++ checksFilters c.syscall (out.checks.take i) = pre at hF hsize
  generalize checksFilters (defaultLabel out.defaultDeny) (out.checks.drop (i + 1)) ++
    footerFilters out.defaultDeny = rest at hF
  rw [hfs, List.append_assoc us, ← List.cons_append, ← List.append_assoc, List.cons_append] at hF
  have hplace := program_getElem hf hF
  have hpc : size ((pre ++ [.label c.syscall]) ++ .jump [.JMP, .JEQ, .K]
      (.int (syscallNameToNr c.syscall)) (.num 0) (.label (nextLabel
        (defaultLabel out.defaultDeny) (out.checks.drop (i + 1)))) :: us) =
      out.cmpPc i + 1 + size us := by
    rw [size_append, size_jump, hsize]
    omega
  rwa [hpc] at hplace

/-- **Only the bodies of checks return to the tracer.** -/
theorem trace_located {pc : Nat} {s : State} {d : SeccompData} {w : Word}
    (hs : step out.program d (pc, s) = .inr (some w))
    (hw : w &&& SECCOMP_RET_ACTION_FULL = SECCOMP_RET_TRACE) : ∃ i c us f vs,
      out.checks[i]? = some c ∧ c.bpfFilters = us ++ f :: vs ∧ ¬ f.NoTrace ∧
        pc = out.cmpPc i + 1 + size us := by
  have hne : out.checks ≠ [] := by
    intro hnil
    have : out.program = [] := by
      unfold Output.program
      rw [finalFilters_nil hnil]
      rfl
    rw [this] at hs
    cases hs
  obtain ⟨c₀, cs, hcs⟩ := List.exists_cons_of_ne_nil hne
  unfold step at hs
  split at hs
  · cases hs
  · rename_i insn hinsn
    unfold Output.program SeccompPolicy.program bpfTransformLabels at hinsn
    rw [List.getElem?_map] at hinsn
    obtain ⟨f', hf', rfl⟩ := Option.map_eq_some_iff.mp hinsn
    obtain ⟨xs, f, ys, hsplit, -, rfl, rfl⟩ := transformFrom_getElem hf'
    have htrace : ¬ f.NoTrace := by
      intro hno
      split at hs
      · cases hs
      · split at hs <;> cases hs
      · rename_i v hv
        obtain rfl := Option.some.inj (Sum.inr.inj hs)
        exact hno _ _ d s v hv hw
      · cases hs
    rw [finalFilters_eq hcs] at hsplit
    rcases append_eq_append_cons hsplit with ⟨k, hk, -⟩ | ⟨k, rfl, hk⟩
    · exact absurd (header_noTrace _ f (by rw [hk]; simp)) htrace
    rcases append_eq_append_cons hk with ⟨k', hk', -⟩ | ⟨k', rfl, hk'⟩
    · obtain ⟨i, c, us, vs, hc, hus, hsize⟩ := (checksFilters_split hk').resolve_left htrace
      refine ⟨i, c, us, f, vs, hc, hus, htrace, ?_⟩
      rw [size_append, hsize, size_headerFilters, Output.cmpPc]
      omega
    · exact absurd (footer_noTrace _ f (by rw [hk']; simp)) htrace

/-! ### The handshake -/

/-- The return of a stub, in the body of its check. -/
theorem Output.StubAt.body {pc i b n : Nat} {c : CompiledCheck} {B : BasicBlock}
    (h : out.StubAt pc i b c B n) : ∃ us vs,
      c.bpfFilters = us ++ .stmt [.RET, .K] (.retTrace n) :: vs ∧
        pc = out.cmpPc i + 1 + size us := by
  obtain ⟨us, vs, htext, hpc⟩ := h.text
  cases us with
  | nil => exact ⟨[], vs, (List.cons.inj htext).2, hpc⟩
  | cons f us =>
    rw [List.cons_append] at htext
    obtain ⟨rfl, hfs⟩ := List.cons.inj htext
    refine ⟨us ++ [.label B.label], vs, by rw [hfs, List.append_assoc]; rfl, ?_⟩
    rw [hpc, size_label, size_append, size_label, size_nil]
    rfl

/-- The program stops at the place of a stub, with its number. -/
theorem Output.StubAt.step {pc i b n : Nat} {c : CompiledCheck} {B : BasicBlock}
    (h : out.StubAt pc i b c B n) (d : SeccompData) (s : State) :
    step out.program d (pc, s) = .inr (some (KField.retTrace n).val) := by
  obtain ⟨us, vs, hfs, rfl⟩ := h.body
  exact step_ret (body_getElem h.check rfl hfs) rfl

/-- **Every return to the tracer is a stub's.** -/
theorem stubAt_of_trace {m : CodeGenMgr} {gl : RetGlobals}
    (hcomp : Compiled m gl out.checks out.globals) {pc : Nat} {s : State} {d : SeccompData}
    {w : Word} (hs : ClassicBpf.step out.program d (pc, s) = .inr (some w))
    (hw : w &&& SECCOMP_RET_ACTION_FULL = SECCOMP_RET_TRACE) :
    ∃ i b c B n, out.StubAt pc i b c B n := by
  obtain ⟨i, c, us, f, vs, hc, hfs, htrace, rfl⟩ := trace_located hs hw
  obtain ⟨m₁, o, gl₁, hfrom, -, -⟩ := hcomp.from_mem (List.mem_of_getElem? hc)
  obtain ⟨rest, hrest, hcmp, hgen⟩ := hfrom.filters'
  obtain ⟨j, -, hj⟩ := mem_genFilters hcmp hgen (f := f) (by rw [hfs]; simp)
  have hf : f.isTrace = true := by
    by_contra hno
    exact htrace (hj.noTrace (by simpa using hno))
  obtain ⟨b, B, n, us', hB, hb, hus, rfl, -⟩ := hfrom.stub hfs hf
  refine ⟨i, b, c, B, n, hc, hB, hb, us', vs, ?_, ?_⟩
  · rw [hfs, ← List.cons_append, hus, List.append_assoc]
    rfl
  · have := congrArg size hus
    rw [size_label, size_append, size_label, size_nil, Nat.add_zero] at this
    rw [this]

/-- The number of a stub is the index of its block's label. -/
theorem Output.StubAt.label {m : CodeGenMgr} {gl : RetGlobals}
    (hcomp : Compiled m gl out.checks out.globals) {pc i b n : Nat} {c : CompiledCheck}
    {B : BasicBlock} (h : out.StubAt pc i b c B n) :
    out.globals.retDataToLabel[n]? = some B.label := by
  obtain ⟨m₁, o, gl₁, hfrom, -, hext⟩ := hcomp.from_mem (List.mem_of_getElem? h.check)
  obtain ⟨us, vs, htext, -⟩ := h.text
  obtain ⟨us₁, vs₁, hfs, hus₁⟩ : ∃ us₁ vs₁,
      c.bpfFilters = us₁ ++ .stmt [.RET, .K] (.retTrace n) :: vs₁ ∧
        .label c.syscall :: us₁ = us ++ [.label B.label] := by
    cases us with
    | nil =>
      obtain ⟨hl, hfs⟩ := List.cons.inj htext
      exact ⟨[], vs, hfs, by rw [hl]; rfl⟩
    | cons f us =>
      rw [List.cons_append] at htext
      obtain ⟨rfl, hfs⟩ := List.cons.inj htext
      exact ⟨us ++ [.label B.label], vs, by rw [hfs, List.append_assoc]; rfl, rfl⟩
  obtain ⟨b', B', n', us', -, -, hus', hn, hl⟩ := hfrom.stub hfs rfl
  obtain rfl : n = n' := by
    injection hn with _ hk
    injection hk
  have hlast := congrArg List.getLast? (hus₁.symm.trans hus')
  simp only [List.getLast?_append, List.getLast?_singleton, Option.some_or, Option.some.injEq,
    BPFFilter.label.injEq] at hlast
  obtain ⟨ls, hls⟩ := hext.labels
  rw [← hls, List.getElem?_append_left (List.getElem?_eq_some_iff.mp hl).1, hl, hlast]

/-- The labels in the text of a check are distinct. -/
theorem CompiledCheck.From.labels_nodup {m : CodeGenMgr} {o : HashOrder} {gl : RetGlobals}
    {c : CompiledCheck} (hc : c.From m o gl) :
    (filterLabels (.label c.syscall :: c.bpfFilters)).Nodup := by
  obtain ⟨rest, hrest, hcmp, hgen⟩ := hc.filters'
  have hir : irLabels rest = irLabels (checkIR c.check.stmts m c.syscall o gl).1.tail := by
    rw [← hc.bpfIR, hrest]
    rfl
  rw [filterLabels_label, genFilters_labels hcmp hgen, hir, List.nodup_cons]
  constructor
  · intro hmem
    obtain ⟨n, -, -, hn⟩ := checkIR_fresh _ _ _ _ _ _ hmem
    exact hc.known.ne_labelText n hn
  · exact (eliminated_nodup c.check.stmts m).sublist (checkIR_labels _ _ _ _ _)

/-- A label that occurs once cuts the list in one way. -/
theorem label_split_unique {us us' vs vs' : List BPFFilter} {l : String}
    (hnd : (filterLabels (us ++ .label l :: vs)).Nodup)
    (he : us ++ .label l :: vs = us' ++ .label l :: vs') : us = us' := by
  rw [filterLabels_append, filterLabels_label, List.nodup_append] at hnd
  obtain ⟨-, hvs, hne⟩ := hnd
  rcases append_eq_append_cons he with ⟨k, hk, -⟩ | ⟨k, rfl, hk⟩
  · have hmem : l ∈ filterLabels us := mem_filterLabels.mpr (by rw [hk]; simp)
    exact absurd rfl (hne l hmem l List.mem_cons_self)
  · cases k with
    | nil => exact (List.append_nil us).symm
    | cons f k =>
      obtain ⟨-, rfl⟩ := List.cons.inj hk
      have hmem : l ∈ filterLabels (k ++ .label l :: vs') := mem_filterLabels.mpr (by simp)
      exact absurd hmem (List.nodup_cons.mp hvs).1

/-- A number of 16 bits comes through the masks. -/
theorem retTrace_val {n : Nat} (hn : n < 65536) :
    (KField.retTrace n).val &&& SECCOMP_RET_ACTION_FULL = SECCOMP_RET_TRACE ∧
      ((KField.retTrace n).val &&& SECCOMP_RET_DATA).toNat = n := by
  have hval : (KField.retTrace n).val = SECCOMP_RET_TRACE ||| (SECCOMP_RET_DATA &&&
    BitVec.ofNat 32 n) := rfl
  have haction : SECCOMP_RET_DATA &&& SECCOMP_RET_ACTION_FULL = 0 := by decide
  have hdata : (SECCOMP_RET_DATA &&& BitVec.ofNat 32 n).toNat = n := by
    rw [BitVec.toNat_and, BitVec.toNat_ofNat, show SECCOMP_RET_DATA.toNat = 2 ^ 16 - 1 from rfl,
      Nat.and_comm, Nat.and_two_pow_sub_one_eq_mod]
    omega
  constructor
  · rw [hval, BitVec.and_or_distrib_right, BitVec.and_comm SECCOMP_RET_DATA, BitVec.and_assoc,
      haction]
    simp [SECCOMP_RET_TRACE, SECCOMP_RET_ACTION_FULL]
  · rw [hval, BitVec.and_comm, BitVec.and_or_distrib_left, ← BitVec.and_assoc, BitVec.and_self,
      show SECCOMP_RET_DATA &&& SECCOMP_RET_TRACE = 0#32 by decide, BitVec.zero_or]
    exact hdata

/-- The program has at least the instructions counted for the checks. -/
theorem codeSize_le_program : codeSize out.checks ≤ out.program.length := by
  cases hcs : out.checks with
  | nil => exact Nat.zero_le _
  | cons c₀ cs =>
    unfold Output.program SeccompPolicy.program bpfTransformLabels
    rw [List.length_map, transformFrom_length, finalFilters_eq hcs, size_append, size_append,
      size_checksFilters, hcs]
    omega

namespace Output.StubAt

variable {pc i b n : Nat} {c : CompiledCheck} {B : BasicBlock}

/-- The number of a stub is below the number of instructions, so the mask keeps it. -/
theorem val {N : Nat} (h : out.StubAt pc i b c B n)
    (hcomp : Compiled {} (.initial N) out.checks out.globals) (hlen : out.program.length ≤ 4096) :
    (KField.retTrace n).val &&& SECCOMP_RET_ACTION_FULL = SECCOMP_RET_TRACE ∧
      ((KField.retTrace n).val &&& SECCOMP_RET_DATA).toNat = n := by
  have hlt := (List.getElem?_eq_some_iff.mp (h.label hcomp)).1
  rw [out.globals.labelled] at hlt
  have hle : out.globals.retData ≤ codeSize out.checks := by
    have := hcomp.retData_le
    rwa [show (RetGlobals.initial N).retData = 0 from rfl, Nat.zero_add] at this
  have hprog := @codeSize_le_program out
  exact retTrace_val (by omega)

/-- The start label of the check stands under the number. -/
theorem start {m : CodeGenMgr} {gl : RetGlobals} (h : out.StubAt pc i b c B n)
    (hcomp : Compiled m gl out.checks out.globals) :
    out.startTable[n]? = some ("&&" ++ c.syscall ++ "_start") := by
  have hmem := List.mem_of_getElem? h.check
  obtain ⟨m₁, o, gl₁, hfrom, -, -⟩ := hcomp.from_mem hmem
  have hb : c.ptraceBbs.count b = true := by
    have hcut := h.cut
    rw [hfrom.onlyBbs] at hcut
    rw [hfrom.bbs]
    refine ptraceOnly_colored ?_ o hcut
    rw [hfrom.cfg]
    exact buildCFG_acyclic _ _
  unfold Output.startTable
  rw [List.getElem?_map, h.label hcomp, Option.map_some, label2check_eq hcomp hmem h.block hb]

/-- Two stubs with one number are one. -/
theorem unique {m : CodeGenMgr} {gl : RetGlobals} {pc' i' b' : Nat} {c' : CompiledCheck}
    {B' : BasicBlock} (hst : out.StubAt pc i b c B n) (hst' : out.StubAt pc' i' b' c' B' n)
    (hcomp : Compiled m gl out.checks out.globals)
    (hnd : (out.checks.map CompiledCheck.syscall).Nodup) : pc = pc' ∧ i = i' ∧ b = b' := by
  have hl : B.label = B'.label :=
    Option.some.inj ((hst.label hcomp).symm.trans (hst'.label hcomp))
  have hmem := List.mem_of_getElem? hst.check
  have hname := hcomp.label_owner hmem (List.mem_of_getElem? hst'.check)
    (List.mem_of_getElem? hst.block) (List.mem_of_getElem? hst'.block) hl
  obtain rfl := syscall_inj hnd hst.check hst'.check hname
  obtain rfl := Option.some.inj (hst.check.symm.trans hst'.check)
  obtain ⟨m₁, o, gl₁, hfrom, -, -⟩ := hcomp.from_mem hmem
  obtain ⟨us, vs, htext, rfl⟩ := hst.text
  obtain ⟨us', vs', htext', rfl⟩ := hst'.text
  rw [← hl] at htext'
  refine ⟨?_, rfl, ?_⟩
  · rw [label_split_unique (htext ▸ hfrom.labels_nodup) (htext.symm.trans htext')]
  · have hlabels : (c.cfg.map BasicBlock.label).Nodup := by
      rw [hfrom.cfg, checkCFG_labels, List.nodup_cons]
      refine ⟨fun hin => ?_, eliminated_nodup _ _⟩
      obtain ⟨k, -, -, hk⟩ := eliminated_labels _ _ _ hin
      exact hfrom.known.ne_labelText k hk
    have hlt : b < (c.cfg.map BasicBlock.label).length := by
      rw [List.length_map]
      exact (List.getElem?_eq_some_iff.mp hst.block).1
    refine (List.getElem?_inj hlt hlabels).mp ?_
    rw [List.getElem?_map, List.getElem?_map, hst.block, hst'.block, Option.map_some,
      Option.map_some, hl]

end Output.StubAt

/-- **The handshake of filter and tracer is exact.** Every return to the tracer is that of a stub;
the number a stub returns is the index of its block in `jmp_table` and of its check in
`start_table`; and no two stubs return the same number. -/
theorem handshake_exact {policys : List Policy} {orders : Nat → HashOrder} {out : Output}
    (h : compile policys orders = some out)
    (hnd : (out.checks.map CompiledCheck.syscall).Nodup) (hlen : out.program.length ≤ 4096) :
    (∀ (d : SeccompData) (pc : Nat) (s : State) (w : Word),
      step out.program d (pc, s) = .inr (some w) →
      w &&& SECCOMP_RET_ACTION_FULL = SECCOMP_RET_TRACE →
      ∃ i b c B, out.StubAt pc i b c B (w &&& SECCOMP_RET_DATA).toNat) ∧
    (∀ pc i b c B n, out.StubAt pc i b c B n →
      (∀ d s, ∃ w, step out.program d (pc, s) = .inr (some w) ∧
        w &&& SECCOMP_RET_ACTION_FULL = SECCOMP_RET_TRACE ∧ (w &&& SECCOMP_RET_DATA).toNat = n) ∧
      out.jmpTable[n]? = some ("&&" ++ B.label) ∧
      out.startTable[n]? = some ("&&" ++ c.syscall ++ "_start")) ∧
    ∀ pc i b c B pc' i' b' c' B' n, out.StubAt pc i b c B n → out.StubAt pc' i' b' c' B' n →
      pc = pc' ∧ i = i' ∧ b = b' := by
  obtain ⟨⟨N, hcomp⟩, -, -⟩ := compile_spec h
  refine ⟨fun d pc s w hs hw => ?_, fun pc i b c B n hst => ⟨fun d s => ?_, ?_, ?_⟩, ?_⟩
  · obtain ⟨i, b, c, B, n, hst⟩ := stubAt_of_trace hcomp hs hw
    obtain rfl := Option.some.inj (Sum.inr.inj ((hst.step d s).symm.trans hs))
    exact ⟨i, b, c, B, (hst.val hcomp hlen).2.symm ▸ hst⟩
  · exact ⟨_, hst.step d s, hst.val hcomp hlen⟩
  · unfold Output.jmpTable
    rw [List.getElem?_map, hst.label hcomp]
    rfl
  · exact hst.start hcomp
  · exact fun pc i b c B pc' i' b' c' B' n hst hst' => hst.unique hst' hcomp hnd

/-- `open` with a rewrite on one path, and `unlink` with one on every path. -/
def openUnlink : List Policy :=
  [.defaultDeny,
    .check ⟨"open", ["name", "flags", "mode"],
      [.ifElse (.op2 .EQ (.ref "mode") (.value 3))
        (.compound [.assign "name" (.inv "maketempcopy" ["name"]), .perm .ALLOW])
        (.compound [.perm .DENY])], open_named⟩,
    .check ⟨"unlink", ["name"], [.assign "name" (.inv "okname" []), .perm .ALLOW], by decide⟩]

/-- The check of `unlink` is one stub. -/
theorem openUnlink_stub {out : Output} (h : compile openUnlink (fun _ => .insertion) = some out) :
    ∃ pc c B, out.StubAt pc 1 0 c B 1 ∧ c.syscall = "unlink" ∧ B.label = "unlink" := by
  obtain rfl := Option.some.inj h
  exact ⟨_, _, _, ⟨rfl, rfl, rfl, [], [], rfl, rfl⟩, rfl, rfl⟩

theorem openUnlink_handshake : ∃ out, compile openUnlink (fun _ => .insertion) = some out ∧
    out.jmpTable[1]? = some "&&unlink" ∧ out.startTable[1]? = some "&&unlink_start" := by
  refine ⟨_, rfl, ?_⟩
  obtain ⟨pc, c, B, hst, hc, hB⟩ := openUnlink_stub rfl
  have h := (@handshake_exact openUnlink (fun _ => .insertion) _ rfl (by decide) (by decide)).2.1
    pc 1 0 c B 1 hst
  rw [hc, hB] at h
  exact h.2

end SeccompPolicy
