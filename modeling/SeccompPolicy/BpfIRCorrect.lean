import SeccompPolicy.BpfIR

/-!
# `GenBPFIR` cuts the CFG faithfully

`cutStep` executes a CFG up to the entry of the first ptrace-only block. The filter's list follows
the same path and ends as it does; where the path enters a ptrace-only block, the list returns
`RET_TO_PTRACE` from the stub registered for that block.

The list is read in one pass, block by block (`genBlocks_scan`). A path waiting to enter block `c`
is a scan looking for `c`'s label, or falling through to it when `c` is next (`Continues`). A
ptrace-only block it waits to enter is the child of a block entered before, so it is in
`ptrace_targets` and its stub is there. The induction is on the blocks that are left, for every
block a path may be about to enter.

Both executions are over the same domain of words, with calls and assignments executed where they
stand: what a leaked instruction means to the machine that gets the list is settled in
`Lib.ClassicBpf` and the modules on `BPFCodeGen`.

## Results

* `genBlocks_scan`: block by block, the list does what the cut execution does.
* `genBPFIR_cuts`: for the CFG of a list with distinct labels and forward branches, whose ptrace
  blocks all start at their first instruction, the cut execution and the run of the filter's list
  both end, in the same state, with the same outcome or at the stub of the block entered.
* `rewriteOnMode_cuts`: with `mode` equal to `3` the filter of `rewriteOnMode` returns to the
  tracer at `L1`.
-/

namespace SeccompPolicy

open LabelledCode SmallStep

variable {V : Type*} (D : Domain V) (h : Helpers V)

/-- How a cut execution ends: entering a ptrace-only block, or as the CFG ends. -/
inductive Cut where
  | enters (block : Nat)
  | ends (o : Outcome)
  deriving DecidableEq, Repr

/-- The execution of a CFG, stopped where it enters a ptrace-only block. -/
def cutStep (g : List BasicBlock) (only : PtraceBasicBlock) (c : CFGConfig V) :
    CFGConfig V ⊕ (Cut × IRState V) :=
  if only.count c.block then .inr (.enters c.block, c.st)
  else
    match cfgStep D h g c with
    | .inl c' => .inl c'
    | .inr (o, s) => .inr (.ends o, s)

/-- A cut execution and a scan of the filter's list end alike: in the same state, with the same
outcome or at the stub of the block entered. -/
def CutMatch (g : List BasicBlock) (only : PtraceBasicBlock) (gl : RetGlobals)
    (r : Except (Outcome × IRState V) (Option String × IRState V)) : Cut × IRState V → Prop
  | (.enters b, t) => only.count b = true ∧ ∃ B id, g[b]? = some B ∧ gl.Registered id B.label ∧
      (irLang D h).ScanHalts r (.toPtrace id, t)
  | (.ends o, t) => (irLang D h).ScanHalts r (o, t)

variable {D h} {g : List BasicBlock} {only : PtraceBasicBlock}

/-- The child a branch leads to. -/
theorem childAt_of_target (hg : IsCFG g) {b : Nat} {B : BasicBlock} (hB : g[b]? = some B)
    {i : Instruction} (hi : i ∈ B.insts) {t : String} (ht : t ∈ i.targets) :
    ∃ c C, childAt g B t = some c ∧ c ∈ B.children ∧ g[c]? = some C ∧ C.label = t := by
  obtain ⟨c, hc, C, hC, hl⟩ := hg.target b B hB i hi t ht
  have hsome : (childAt g B t).isSome = true := by
    rw [childAt, List.find?_isSome]
    exact ⟨c, hc, by simp [hC, hl]⟩
  obtain ⟨k, hk⟩ := Option.isSome_iff_exists.mp hsome
  have hp := List.find?_some hk
  simp only [decide_eq_true_eq, Option.map_eq_some_iff] at hp
  obtain ⟨K, hK, hKl⟩ := hp
  exact ⟨k, K, hk, List.mem_of_find?_eq_some hk, hK, hKl⟩

/-- An instruction control falls out of is no branch and no return. -/
theorem irAct_next_stays {i : Instruction} {s s' : IRState V} (ha : irAct D h i s = .next s') :
    (i.isBranch || i.isReturn) = false := by
  cases i with
  | branch op a b t f =>
    simp only [irAct] at ha
    split at ha <;> simp at ha
  | ret id v => simp [irAct] at ha
  | _ => rfl

theorem cutStep_of_not_only {c : CFGConfig V} (hc : only.count c.block = false) :
    cutStep D h g only c =
      match cfgStep D h g c with
      | .inl c' => .inl c'
      | .inr (o, s) => .inr (.ends o, s) := by
  simp [cutStep, hc]

/-- The labels of the list, in order, are labels of blocks. -/
theorem genBlocks_labels (Bs : List BasicBlock) (hBs : ∀ B ∈ Bs, ∀ i ∈ B.insts, i.label? = none)
    (b : Nat) (targets : List Nat) (gl : RetGlobals) :
    (irLabels (genBlocks only b Bs targets gl).1).Sublist (Bs.map BasicBlock.label) := by
  induction Bs generalizing b targets gl with
  | nil => exact .slnil
  | cons B Bs ih =>
    have ih := ih fun B hB => hBs B (List.mem_cons_of_mem _ hB)
    have hnone : irLabels B.insts = [] :=
      List.filterMap_eq_nil_iff.mpr (hBs B List.mem_cons_self)
    unfold genBlocks
    split_ifs
    · rw [irLabels_cons, irLabels_append, hnone]
      exact (ih _ _ _).cons_cons B.label
    · exact (ih _ _ _).cons _
    · exact (ih _ _ _).cons_cons B.label
    · exact (ih _ _ _).cons _

/-! ## Block by block -/

/-- What the rest of the list, from block `b` on, has to do for every block a path may be about to
enter there: `m` is the scan's mode. -/
def Continues (D : Domain V) (h : Helpers V) (g : List BasicBlock) (only : PtraceBasicBlock)
    (b : Nat) (targets : List Nat) (gl : RetGlobals) (rest : List Instruction) : Prop :=
  ∀ (c : Nat) (C : BasicBlock) (m : Option String) (s : IRState V), g[c]? = some C → b ≤ c →
    (m = none ∧ c = b ∨ m = some C.label) → (only.count c = true → c ∈ targets) →
    ∃ r, Halts (cutStep D h g only) (enterBlock g c s) r ∧
      CutMatch D h g only gl ((irLang D h).scan rest m s) r

theorem Continues.mono {b : Nat} {targets targets' : List Nat} {gl : RetGlobals}
    {rest : List Instruction} (hsub : ∀ c ∈ targets', c ∈ targets)
    (hr : Continues D h g only b targets gl rest) : Continues D h g only b targets' gl rest :=
  fun c C m s hC hb hm hc => hr c C m s hC hb hm fun h => hsub c (hc h)

/-- The body of an emitted block, from its instruction number `k` on. -/
theorem body_scan (hg : IsCFG g) {b : Nat} {B : BasicBlock} (hB : g[b]? = some B)
    (hb : only.count b = false) {gl : RetGlobals} {rest : List Instruction}
    (hrest : Continues D h g only (b + 1) (B.children.filter only.count) gl rest)
    (hend : g.length ≤ b + 1 → rest = []) (is : List Instruction) (k : Nat) (s : IRState V)
    (hk : B.insts.drop k = is) (hlast : is = [] → B.leaves = false) :
    ∃ r, Halts (cutStep D h g only) ⟨b, k, s⟩ r ∧
      CutMatch D h g only gl ((irLang D h).scan (is ++ rest) none s) r := by
  have hchild : ∀ c ∈ B.children, only.count c = true → c ∈ B.children.filter only.count :=
    fun c hc ho => List.mem_filter.mpr ⟨hc, ho⟩
  induction is generalizing k s with
  | nil =>
    -- past the end of the block
    have hget : B.insts[k]? = none := by
      rw [List.getElem?_eq_none_iff]
      exact List.drop_eq_nil_iff.mp hk
    have hstep := cutStep_of_not_only (D := D) (h := h) (g := g) (c := ⟨b, k, s⟩) hb
    simp only [cfgStep, hB, hget] at hstep
    by_cases hc : b + 1 ∈ B.children
    · rw [if_pos hc] at hstep
      obtain ⟨C, hC⟩ : ∃ C, g[b + 1]? = some C :=
        ⟨_, List.getElem?_eq_getElem (hg.forward b B hB _ hc).2⟩
      obtain ⟨r, hr, hmatch⟩ := hrest (b + 1) C none s hC (Nat.le_refl _) (.inl ⟨rfl, rfl⟩)
        (hchild _ hc)
      exact ⟨r, (halts_of_inl hstep).mpr hr, hmatch⟩
    · rw [if_neg hc] at hstep
      have hlen : g.length ≤ b + 1 := by
        by_contra hlt
        exact hc (hg.fallsThrough b B hB (by omega) (hlast rfl))
      refine ⟨_, (halts_of_inr hstep).mpr rfl, ?_⟩
      rw [hend hlen]
      rfl
  | cons i is ih =>
    have hget : B.insts[k]? = some i := by
      rw [← List.head?_drop, hk]; rfl
    have hmem : i ∈ B.insts := List.mem_of_getElem? hget
    have hk' : B.insts.drop (k + 1) = is := by rw [← List.tail_drop, hk]; rfl
    have hstep := cutStep_of_not_only (D := D) (h := h) (g := g) (c := ⟨b, k, s⟩) hb
    simp only [cfgStep, hB, hget] at hstep
    rw [List.cons_append, Lang.scan_exec, show (irLang D h).act i s = irAct D h i s from rfl]
    cases ha : irAct D h i s with
    | next s' =>
      rw [ha] at hstep
      obtain ⟨r, hr, hmatch⟩ := ih (k + 1) s' hk' fun he => by
        -- `i` is the last instruction, and control has fallen out of it
        have hlast : B.insts.getLast? = some i := by
          rw [← List.take_append_drop k B.insts, hk, he, List.getLast?_concat]
        simp [BasicBlock.leaves, hlast, irAct_next_stays ha]
      exact ⟨r, (halts_of_inl hstep).mpr hr, hmatch⟩
    | jump t s' =>
      obtain ⟨c, C, hc, hcm, hC, hl⟩ := childAt_of_target hg hB hmem (irAct_jump_targets ha)
      rw [ha] at hstep
      simp only [hc] at hstep
      obtain ⟨r, hr, hmatch⟩ := hrest c C (some t) s' hC (hg.forward b B hB c hcm).1
        (.inr (by rw [hl])) (hchild c hcm)
      refine ⟨r, (halts_of_inl hstep).mpr hr, ?_⟩
      -- the rest of the block defines no label
      have hnone : t ∉ (irLang D h).labels is := by
        rw [irLang_labels, irLabels, List.mem_filterMap]
        rintro ⟨j, hj, hjl⟩
        have hjm : j ∈ B.insts := List.mem_of_mem_drop (hk' ▸ hj)
        rw [hg.noLabel B (List.mem_of_getElem? hB) j hjm] at hjl
        simp at hjl
      simp only
      rw [Lang.scan_append_ok _ (Lang.scan_skip _ hnone s')]
      exact hmatch
    | stop r =>
      rw [ha] at hstep
      exact ⟨_, (halts_of_inr hstep).mpr rfl, rfl⟩

/-- A path that falls into a block, or looks for its label, enters it. -/
theorem scan_enter {m : Option String} {l : String} (hm : m = none ∨ m = some l)
    (rest : List Instruction) (s : IRState V) : (irLang D h).scan (.label l :: rest) m s =
      (irLang D h).scan rest none (s.record (.enter l)) := by
  rcases hm with rfl | rfl
  · exact scan_label_exec _ _ _
  · exact scan_label _ _ _

/-- A path that looks for another label passes over an emitted block. -/
theorem scan_block_pass {B : BasicBlock} (hB : ∀ i ∈ B.insts, i.label? = none) {l : String}
    (hne : l ≠ B.label) (rest : List Instruction) (s : IRState V) :
    (irLang D h).scan (.label B.label :: (B.insts ++ rest)) (some l) s =
      (irLang D h).scan rest (some l) s := by
  have hnone : l ∉ (irLang D h).labels B.insts := by
    rw [irLang_labels, irLabels, List.filterMap_eq_nil_iff.mpr hB]
    exact List.not_mem_nil
  rw [scan_label_pass hne, Lang.scan_append_ok _ (Lang.scan_skip _ hnone s)]

/-- And over a stub. -/
theorem scan_stub_pass {l l' : String} (hne : l' ≠ l) (gl : RetGlobals) (rest : List Instruction)
    (s : IRState V) : (irLang D h).scan ((stub l gl).1 ++ rest) (some l') s =
      (irLang D h).scan rest (some l') s := by
  rw [stub, List.cons_append, List.cons_append, List.nil_append, scan_label_pass hne]
  exact Lang.scan_pass (irLang D h) (by simp [irLang, Instruction.label?]) rest s

/-- Block by block, the list does what the cut execution does. -/
theorem genBlocks_scan (hg : IsCFG g)
    (hstart : ∀ (b : Nat) (B : BasicBlock), g[b]? = some B → only.count b = true →
      only.start b = B.firstInst) (Bs : List BasicBlock) (b : Nat) (targets : List Nat)
    (gl : RetGlobals) (hBs : g.drop b = Bs) :
    Continues D h g only b targets (genBlocks only b Bs targets gl).2
      (genBlocks only b Bs targets gl).1 := by
  induction Bs generalizing b targets gl with
  | nil =>
    intro c C m s hC hb
    have := (List.getElem?_eq_some_iff.mp hC).1
    have := List.drop_eq_nil_iff.mp hBs
    omega
  | cons B Bs ih =>
    have hB : g[b]? = some B := by rw [← List.head?_drop, hBs]; rfl
    have hBs' : g.drop (b + 1) = Bs := by rw [← List.tail_drop, hBs]; rfl
    intro c C m s hC hbc hm hct
    by_cases hcb : c = b
    · -- the path enters this block
      subst hcb
      obtain rfl : B = C := Option.some.inj (hB.symm.trans hC)
      have hm : m = none ∨ m = some B.label := hm.imp_left And.left
      have hentry : enterBlock g c s = ⟨c, 0, s.record (.enter B.label)⟩ := by
        simp [enterBlock, hB]
      rw [hentry]
      unfold genBlocks
      by_cases hc : only.count c = true
      · rw [if_neg (by simp [hc]), if_neg (not_not.mpr (hstart c B hB hc)), if_pos (hct hc)]
        have hstop : cutStep D h g only ⟨c, 0, s.record (.enter B.label)⟩ =
            .inr (.enters c, s.record (.enter B.label)) := if_pos hc
        refine ⟨_, (halts_of_inr hstop).mpr rfl, hc, B, gl.nextId, hB, ?_, ?_⟩
        · exact (gl.registered_register B.label).mono (genBlocks_extends only Bs _ _ _)
        · simp only [stub, List.cons_append, List.nil_append]
          rw [scan_enter hm]
          rfl
      · have hc : only.count c = false := by simpa using hc
        rw [if_pos (by simp [hc])]
        simp only
        rw [scan_enter hm]
        have hrest : Continues D h g only (c + 1) (B.children.filter only.count) _ _ :=
          (ih (c + 1) (targets ++ B.children.filter only.count) gl hBs').mono
            fun _ h => List.mem_append_right _ h
        exact body_scan hg hB hc hrest
          (fun hlen => by
            rw [List.drop_eq_nil_of_le hlen] at hBs'
            rw [← hBs']; rfl)
          B.insts 0 _ rfl fun he => by simp [BasicBlock.leaves, he]
    · -- the path enters a later block: this one is skipped
      have hlt : b + 1 ≤ c := by omega
      obtain rfl : m = some C.label := hm.resolve_left fun h => hcb h.2
      have hne : C.label ≠ B.label := fun he => hcb (hg.label_inj hC hB he)
      have hlater := fun targets' gl' => ih (b + 1) targets' gl' hBs' c C _ s hC hlt (.inr rfl)
      unfold genBlocks
      split_ifs
      · simp only
        rw [scan_block_pass (hg.noLabel B (List.mem_of_getElem? hB)) hne]
        exact hlater _ gl fun h => List.mem_append_left _ (hct h)
      · exact hlater _ gl hct
      · simp only
        rw [scan_stub_pass hne]
        exact hlater _ (gl.register B.label) hct
      · exact hlater _ gl hct

/-- **`GenBPFIR` cuts the CFG faithfully.** For the CFG of a list with distinct labels and forward
branches, whose ptrace blocks all start at their first instruction: the execution from the root,
stopped where it enters a ptrace-only block, ends in some way, and the filter's list runs to the
same state with the same outcome, or to the `RET_TO_PTRACE` registered for the label of the block
entered. -/
theorem genBPFIR_cuts {code : List Instruction} {syscall : String}
    (hnd : (syscall :: irLabels code).Nodup) (hfwd : ForwardTargets code) (o : HashOrder)
    (gl : RetGlobals) (hstart : StartsAtFirst (buildCFG code syscall)
      (colorCode (buildCFG code syscall) o).1)
    (D : Domain V) (h : Helpers V) (s : IRState V) :
    let g := buildCFG code syscall
    let only := (colorCode g o).2
    let bpf := genBPFIR g only gl
    ∃ r, Halts (cutStep D h g only) (enterBlock g 0 s) r ∧
      match r with
      | (.enters b, t) => only.count b = true ∧ ∃ B id, g[b]? = some B ∧
          bpf.2.Registered id B.label ∧ Runs D h bpf.1 s (.toPtrace id, t)
      | (.ends out, t) => Runs D h bpf.1 s (out, t) := by
  intro g only bpf
  have hg : IsCFG g := buildCFG_isCFG hnd hfwd
  have hstart' : ∀ (b : Nat) (B : BasicBlock), g[b]? = some B → only.count b = true →
      only.start b = B.firstInst := by
    intro b B hB hb
    rw [ptraceOnly_start o hb]
    exact hstart.start hB (ptraceOnly_colored hg.acyclic o hb)
  obtain ⟨root, Bs, hgc⟩ := List.exists_cons_of_ne_nil hg.nonempty
  have hroot : g[0]? = some root := by rw [hgc]; rfl
  by_cases hc : only.count 0 = true
  · -- the whole check is a stub
    have hb : bpf = stub root.label gl := (genBPFIR_of_root hroot only gl).trans (if_pos hc)
    have hentry : enterBlock g 0 s = ⟨0, 0, s.record (.enter root.label)⟩ := by
      simp [enterBlock, hroot]
    have hstop : cutStep D h g only (enterBlock g 0 s) =
        .inr (.enters 0, s.record (.enter root.label)) := by
      rw [hentry]
      exact if_pos hc
    refine ⟨_, (halts_of_inr hstop).mpr rfl, hc, root, gl.nextId, hroot, ?_, ?_⟩
    · rw [hb]
      exact gl.registered_register root.label
    · rw [hb]
      exact ⟨2, rfl⟩
  · have hb : bpf = genBlocks only 0 g [] gl := (genBPFIR_of_root hroot only gl).trans (if_neg hc)
    have hnodup : (irLabels bpf.1).Nodup := by
      rw [hb]
      exact (genBlocks_labels g hg.noLabel 0 [] gl).nodup hg.labels
    obtain ⟨⟨x, t⟩, hr, hmatch⟩ := genBlocks_scan (D := D) (h := h) hg hstart' g 0 [] gl rfl 0 root
      none s hroot (Nat.le_refl 0) (.inl ⟨rfl, rfl⟩) fun h => absurd h hc
    rw [← hb] at hmatch
    refine ⟨_, hr, ?_⟩
    cases x with
    | enters b =>
      obtain ⟨hbo, B, id, hB, hreg, hscan⟩ := hmatch
      exact ⟨hbo, B, id, hB, hreg, (irLang D h).halts_of_scan hnodup hscan⟩
    | ends out => exact (irLang D h).halts_of_scan hnodup hmatch

/-- `if (mode == 3) { name = maketempcopy(name); allow; } else { deny; }` -/
def rewriteOnMode : List Stmt :=
  [.ifElse (.op2 .EQ (.ref "mode") (.value 3))
    (.compound [.assign "name" (.inv "maketempcopy" ["name"]), .perm .ALLOW])
    (.compound [.perm .DENY])]

/-- The list `BuildCFG` gets for `rewriteOnMode`. -/
def rewriteOnModeIR : List Instruction := eliminateDeadCode (mergedIR rewriteOnMode {})

/-- With `mode` equal to `3` the filter of `rewriteOnMode` returns to the tracer at `L1`. -/
theorem rewriteOnMode_cuts : ∃ id t,
    (genBPFIR (buildCFG rewriteOnModeIR "open")
      (colorCode (buildCFG rewriteOnModeIR "open") .insertion).2 (.initial 9)).2.Registered id "L1" ∧
    Runs words32 (fun _ _ _ => 0) (genBPFIR (buildCFG rewriteOnModeIR "open")
      (colorCode (buildCFG rewriteOnModeIR "open") .insertion).2 (.initial 9)).1
      ⟨fun _ => 3, fun _ => 0, []⟩ (.toPtrace id, t) := by
  obtain ⟨r, hr, hmatch⟩ := genBPFIR_cuts
    (show ("open" :: irLabels rewriteOnModeIR).Nodup by decide) (by decide) .insertion (.initial 9) (by decide)
    words32 (fun _ _ _ => 0)
    ⟨fun _ => 3, fun _ => 0, []⟩
  have hcut : Halts (cutStep words32 (fun _ _ _ => 0) (buildCFG rewriteOnModeIR "open")
      (colorCode (buildCFG rewriteOnModeIR "open") .insertion).2)
      (enterBlock (buildCFG rewriteOnModeIR "open") 0 ⟨fun _ => 3, fun _ => 0, []⟩)
      (.enters 1, _) := ⟨5, rfl⟩
  rw [hr.unique hcut] at hmatch
  obtain ⟨-, B, id, hB, hreg, hrun⟩ := hmatch
  obtain rfl : { label := "L1", insts := _, parents := [0] } = B := Option.some.inj hB
  exact ⟨id, _, hreg, hrun⟩

end SeccompPolicy
