import SeccompPolicy.Color
import SeccompPolicy.DeadCode

/-!
# Cutting the filter out of the CFG: `GenBPFIR`

Source: `GenBPFIR` of `code_gen.cpp` and the globals in front of it (`ret_data`,
`bpfret_to_ret_data`, `ret_data_to_label`).

The filter's list is the CFG in program order with each ptrace-only block replaced by a stub that
returns `RET_TO_PTRACE`, or dropped when no block of the filter leads to it. A ptrace-only block
whose recorded start is not its first instruction is dropped too; the source prints "Special Case
encountered" there. When the root is ptrace-only the list is one stub under the syscall name.

Every stub takes the next number of `ret_data` and records its label under it
(`RetGlobals.register`). These globals are shared by all checks of a policy, so `Extends` says
what a later value of them keeps.

The comment of the source says of the blocks it emits that each "contains only BPF code". A block
where a path around every helper call and assignment joins one behind a call is emitted although
it may contain one. `Leaks` describes the emitted blocks by the CFG alone, without the colouring:
an uncoloured block leaks, and so does one with two parents or more one of which leaks.

## Results

* `leaks_iff`: the blocks the filter enters are the leaking ones.
* `genBPFIR_pure_iff`: the list is free of calls and stores exactly when the root holds one (the
  whole check is then a stub) or no block that holds one leaks.
* `Pure.runs`: a run of a list without calls and stores performs no action.
* `joinedStore_not_pure`: `if (flags == 1) { mode = 0; } flags = 2; allow;` leaks its last
  assignment.
-/

namespace SeccompPolicy

open LabelledCode SmallStep

/-! ## The registry of stubs -/

/-- The globals `ret_data`, `bpfret_to_ret_data` and `ret_data_to_label`. A `ReturnInst` is known
by its number; `nextId` is the number of the next one allocated. -/
structure RetGlobals where
  retData : Nat
  bpfretToRetData : List (Nat × Nat)
  retDataToLabel : List String
  nextId : Nat
  labelled : retDataToLabel.length = retData
  fresh : ∀ e ∈ bpfretToRetData, e.1 < nextId

namespace RetGlobals

/-- The globals at program start, when the numbers below `nextId` are taken. -/
def initial (nextId : Nat) : RetGlobals :=
  ⟨0, [], [], nextId, rfl, fun _ h => absurd h List.not_mem_nil⟩

/-- `bpfret_to_ret_data[ret] = ret_data++; ret_data_to_label.push_back(label);` -/
def register (gl : RetGlobals) (label : String) : RetGlobals where
  retData := gl.retData + 1
  bpfretToRetData := gl.bpfretToRetData ++ [(gl.nextId, gl.retData)]
  retDataToLabel := gl.retDataToLabel ++ [label]
  nextId := gl.nextId + 1
  labelled := by simp [gl.labelled]
  fresh e he := by
    rcases List.mem_append.mp he with he | he
    · exact Nat.lt_succ_of_lt (gl.fresh e he)
    · rw [List.mem_singleton.mp he]
      exact Nat.lt_succ_self _

/-- The `ReturnInst` number `id` has an index, and the label under that index is `l`. -/
def Registered (gl : RetGlobals) (id : Nat) (l : String) : Prop :=
  ∃ d, gl.bpfretToRetData.lookup id = some d ∧ gl.retDataToLabel[d]? = some l

/-- Later globals: entries are only added. -/
structure Extends (gl gl' : RetGlobals) : Prop where
  rets : gl.bpfretToRetData <+: gl'.bpfretToRetData
  labels : gl.retDataToLabel <+: gl'.retDataToLabel

theorem Extends.refl (gl : RetGlobals) : gl.Extends gl := ⟨List.prefix_rfl, List.prefix_rfl⟩

theorem Extends.trans {a b c : RetGlobals} (h : a.Extends b) (h' : b.Extends c) : a.Extends c :=
  ⟨h.rets.trans h'.rets, h.labels.trans h'.labels⟩

theorem extends_register (gl : RetGlobals) (l : String) : gl.Extends (gl.register l) :=
  ⟨List.prefix_append _ _, List.prefix_append _ _⟩

theorem Registered.mono {gl gl' : RetGlobals} {id : Nat} {l : String} (h : gl.Registered id l)
    (hgl : gl.Extends gl') : gl'.Registered id l := by
  obtain ⟨d, hd, hl⟩ := h
  obtain ⟨es, hes⟩ := hgl.rets
  obtain ⟨ls, hls⟩ := hgl.labels
  refine ⟨d, ?_, ?_⟩
  · rw [← hes, List.lookup_append, hd, Option.some_or]
  · rw [← hls, List.getElem?_append_left (List.getElem?_eq_some_iff.mp hl).1, hl]

/-- A new stub is registered under its own label. -/
theorem registered_register (gl : RetGlobals) (l : String) :
    (gl.register l).Registered gl.nextId l := by
  have hnone : gl.bpfretToRetData.lookup gl.nextId = none := by
    rw [List.lookup_eq_none_iff]
    intro e he
    have := gl.fresh e he
    simp only [bne_iff_ne, ne_eq]
    omega
  refine ⟨gl.retData, ?_, ?_⟩
  · simp only [register]
    rw [List.lookup_append, hnone, Option.none_or, List.lookup_cons_self]
  · simp only [register]
    rw [← gl.labelled, List.getElem?_concat_length]

end RetGlobals

/-! ## `GenBPFIR` -/

/-- A label and a return to the tracer. -/
def stub (label : String) (gl : RetGlobals) : List Instruction × RetGlobals :=
  ([.label label, .ret gl.nextId RET_TO_PTRACE], gl.register label)

/-- The loop of `GenBPFIR`, from block number `b` on. `targets` is `ptrace_targets`. -/
def genBlocks (only : PtraceBasicBlock) : Nat → List BasicBlock → List Nat → RetGlobals →
    List Instruction × RetGlobals
  | _, [], _, gl => ([], gl)
  | b, B :: Bs, targets, gl =>
    if !only.count b then
      let r := genBlocks only (b + 1) Bs (targets ++ B.children.filter only.count) gl
      (.label B.label :: (B.insts ++ r.1), r.2)
    else if only.start b ≠ B.firstInst then genBlocks only (b + 1) Bs targets gl
    else if b ∈ targets then
      let r := genBlocks only (b + 1) Bs targets (stub B.label gl).2
      ((stub B.label gl).1 ++ r.1, r.2)
    else genBlocks only (b + 1) Bs targets gl

/-- `GenBPFIR`. -/
def genBPFIR (g : List BasicBlock) (only : PtraceBasicBlock) (gl : RetGlobals) :
    List Instruction × RetGlobals :=
  match g with
  | [] => ([], gl)
  | root :: _ => if only.count 0 then stub root.label gl else genBlocks only 0 g [] gl

theorem genBPFIR_of_root {g : List BasicBlock} {root : BasicBlock} (hg : g[0]? = some root)
    (only : PtraceBasicBlock) (gl : RetGlobals) : genBPFIR g only gl =
      if only.count 0 then stub root.label gl else genBlocks only 0 g [] gl := by
  cases g with
  | nil => simp at hg
  | cons r Bs =>
    obtain rfl : r = root := Option.some.inj hg
    rfl

theorem genBlocks_extends (only : PtraceBasicBlock) (Bs : List BasicBlock) (b : Nat)
    (targets : List Nat) (gl : RetGlobals) : gl.Extends (genBlocks only b Bs targets gl).2 := by
  induction Bs generalizing b targets gl with
  | nil => exact .refl gl
  | cons B Bs ih =>
    unfold genBlocks
    split_ifs
    · exact ih _ _ _
    · exact ih _ _ _
    · exact (gl.extends_register B.label).trans (ih _ _ _)
    · exact ih _ _ _

/-! ## When the list is free of calls and stores -/

/-- A block the filter enters although it may hold a call or an assignment: an uncoloured block,
or one with at least two parents one of which leaks. -/
inductive Leaks (g : List BasicBlock) : Nat → Prop
  | uncoloured {b : Nat} {B : BasicBlock} : g[b]? = some B → ¬ Colored g b → Leaks g b
  | join {b p : Nat} {B : BasicBlock} : g[b]? = some B → p ∈ B.parents → Leaks g p →
    2 ≤ B.parents.length → Leaks g b

theorem Leaks.not_ptraceOnly {g : List BasicBlock} {b : Nat} (h : Leaks g b) :
    ¬ PtraceOnly g b := by
  induction h with
  | uncoloured hB hc =>
    intro h
    cases h with
    | single _ hc' _ => exact hc hc'
    | dominated _ hc' _ => exact hc hc'
  | join hB hp _ hlen ih =>
    intro h
    cases h with
    | single hB' _ hlen' =>
      obtain rfl := Option.some.inj (hB.symm.trans hB')
      omega
    | dominated hB' _ hall =>
      obtain rfl := Option.some.inj (hB.symm.trans hB')
      exact ih (hall _ hp)

/-- **The blocks the filter enters are the leaking ones.** -/
theorem leaks_iff {g : List BasicBlock} (hg : Acyclic g) {b : Nat} {B : BasicBlock}
    (hB : g[b]? = some B) : Leaks g b ↔ ¬ PtraceOnly g b := by
  refine ⟨Leaks.not_ptraceOnly, ?_⟩
  induction b using Nat.strongRecOn generalizing B with
  | ind b ih =>
    intro hnot
    by_cases hc : Colored g b
    · have hlen : 2 ≤ B.parents.length := by
        by_contra hlen
        exact hnot (.single hB hc (by omega))
      have hpar : ∃ p ∈ B.parents, ¬ PtraceOnly g p := by
        by_contra hall
        refine hnot (.dominated hB hc fun p hp => ?_)
        by_contra hp'
        exact hall ⟨p, hp, hp'⟩
      obtain ⟨p, hp, hnp⟩ := hpar
      obtain ⟨hlt, P, hP⟩ := hg b B hB p hp
      exact .join hB hp (ih p hlt hP hnp) hlen
    · exact .uncoloured hB hc

/-- Nothing comes before the root: it is ptrace-only when it holds a call or a store itself. -/
theorem ptraceOnly_root {g : List BasicBlock} (hg : Acyclic g) {root : BasicBlock}
    (hr : g[0]? = some root) : PtraceOnly g 0 ↔ root.requiresPtrace = true := by
  have hpar : root.parents = [] := by
    refine List.eq_nil_iff_forall_not_mem.mpr fun p hp => ?_
    exact absurd (hg 0 root hr p hp).1 (Nat.not_lt_zero p)
  constructor
  · intro h
    have hc : Colored g 0 := by cases h <;> assumption
    cases hc with
    | own hB hreq =>
      obtain rfl := Option.some.inj (hr.symm.trans hB)
      exact hreq
    | inherited hB hp _ =>
      obtain rfl := Option.some.inj (hr.symm.trans hB)
      rw [hpar] at hp
      exact absurd hp List.not_mem_nil
  · exact fun hreq => .single hr (.own hr hreq) (by simp [hpar])

/-- No instruction of the list calls a helper or assigns. -/
def Pure (code : List Instruction) : Prop := ∀ i ∈ code, i.requiresPtrace = false

/-- The list the loop emits is free of calls and stores when the blocks it enters are. -/
theorem genBlocks_pure (only : PtraceBasicBlock) (Bs : List BasicBlock) (b : Nat)
    (targets : List Nat) (gl : RetGlobals) : Pure (genBlocks only b Bs targets gl).1 ↔
      ∀ (k : Nat) (B : BasicBlock), Bs[k]? = some B → only.count (b + k) = false →
        B.requiresPtrace = false := by
  induction Bs generalizing b targets gl with
  | nil => simp [genBlocks, Pure]
  | cons B Bs ih =>
    have shift : (∀ (k : Nat) (C : BasicBlock), (B :: Bs)[k]? = some C →
        only.count (b + k) = false → C.requiresPtrace = false) ↔
        (only.count b = false → B.requiresPtrace = false) ∧
          ∀ (k : Nat) (C : BasicBlock), Bs[k]? = some C → only.count (b + 1 + k) = false →
            C.requiresPtrace = false := by
      constructor
      · intro h
        exact ⟨h 0 B rfl, fun k C hC => by rw [Nat.add_right_comm]; exact h (k + 1) C hC⟩
      · rintro ⟨h0, h1⟩ k C hC
        cases k with
        | zero => obtain rfl := Option.some.inj hC; exact h0
        | succ k =>
          have := h1 k C hC
          rwa [Nat.add_right_comm] at this
    rw [shift]
    unfold genBlocks
    by_cases hc : only.count b = true
    · simp only [hc, Bool.not_true, Bool.false_eq_true, if_false, Bool.true_eq_false,
        IsEmpty.forall_iff, true_and]
      split_ifs
      · exact ih _ _ _
      · rw [← ih (b + 1) targets (stub B.label gl).2]
        simp [Pure, stub, Instruction.requiresPtrace]
      · exact ih _ _ _
    · have hc : only.count b = false := by simpa using hc
      simp only [hc, Bool.not_false, if_true, true_imp_iff]
      rw [← ih (b + 1) (targets ++ B.children.filter only.count) gl]
      simp only [Pure, List.mem_cons, List.mem_append, BasicBlock.requiresPtrace,
        List.any_eq_false, Bool.not_eq_true]
      constructor
      · exact fun h => ⟨fun i hi => h i (.inr (.inl hi)), fun i hi => h i (.inr (.inr hi))⟩
      · rintro ⟨h1, h2⟩ i (rfl | hi | hi)
        · rfl
        · exact h1 i hi
        · exact h2 i hi

/-- An instruction that is no call and no store leaves the actions. -/
theorem irAct_actions {V : Type*} (D : Domain V) (h : Helpers V) {i : Instruction}
    (hi : i.requiresPtrace = false) {as : List (Action V)} {s : IRState V}
    (hs : actions s.log = as) : (irAct D h i s).Keeps (fun t => actions t.log = as)
      fun r => actions r.2.log = as := by
  cases i with
  | call id f ps => simp [Instruction.requiresPtrace] at hi
  | store src dst => simp [Instruction.requiresPtrace] at hi
  | arith id op a b => exact hs
  | ret id rval => exact hs
  | label l => simpa [irAct, Act.Keeps, IRState.record] using hs
  | branch op a b t f =>
    simp only [irAct]
    split
    · exact hs
    · simpa [Act.Keeps, IRState.record] using hs

/-- Without calls and stores a run performs no action. -/
theorem Pure.runs {V : Type*} {D : Domain V} {h : Helpers V} {code : List Instruction}
    (hp : Pure code) {s : IRState V} {r : Outcome × IRState V} (hr : Runs D h code s r) :
    actions r.2.log = actions s.log :=
  (irLang D h).halts_invariant (I := fun t => actions t.log = actions s.log)
    (J := fun r => actions r.2.log = actions s.log)
    (fun i hi _ ht => irAct_actions D h (hp i hi) ht) (fun _ ht => ht) (fun _ _ ht => ht) hr rfl

/-- The CFG of a check body, as `SyscallCheck::IRGen` leaves it. -/
def checkCFG (ss : List Stmt) (m : CodeGenMgr) (syscall : String) : List BasicBlock :=
  buildCFG (eliminateDeadCode (mergedIR ss m)) syscall

/-- **When the filter's list is free of calls and stores**: exactly when the root holds one (the
whole check is then a stub) or no block that holds one leaks. -/
theorem genBPFIR_pure_iff (ss : List Stmt) (m : CodeGenMgr) (syscall : String) (o : HashOrder)
    (gl : RetGlobals) :
    let g := checkCFG ss m syscall
    let bpf := (genBPFIR g (colorCode g o).2 gl).1
    (Pure bpf ∧ ∀ (V : Type) (D : Domain V) (h : Helpers V) (s : IRState V)
        (r : Outcome × IRState V), Runs D h bpf s r → actions r.2.log = actions s.log) ↔
      (∃ root, g[0]? = some root ∧ root.requiresPtrace = true) ∨
        ∀ (b : Nat) (B : BasicBlock), g[b]? = some B → B.requiresPtrace = true → ¬ Leaks g b := by
  intro g bpf
  have hg : Acyclic g := buildCFG_acyclic _ _
  have hand : (Pure bpf ∧ ∀ (V : Type) (D : Domain V) (h : Helpers V) (s : IRState V)
      (r : Outcome × IRState V), Runs D h bpf s r → actions r.2.log = actions s.log) ↔ Pure bpf :=
    and_iff_left_of_imp fun hp V D h s r => hp.runs
  rw [hand]
  -- a block with a call or a store is entered exactly when it leaks
  have hleak : ∀ (b : Nat) (B : BasicBlock), g[b]? = some B →
      (Leaks g b ↔ (colorCode g o).2.count b = false) := fun b B hB => by
    rw [leaks_iff hg hB, ← mem_getPtraceOnlyBB hg o, Bool.not_eq_true]
  have hroot : ∀ root, g[0]? = some root → ((colorCode g o).2.count 0 = true ↔
      root.requiresPtrace = true) := fun root hr => by
    rw [mem_getPtraceOnlyBB hg o, ptraceOnly_root hg hr]
  cases hr : g[0]? with
  | none =>
    have hgc : g = [] := List.eq_nil_of_length_eq_zero (Nat.le_zero.mp (List.getElem?_eq_none_iff.mp hr))
    have hb : bpf = [] := by simp only [bpf, hgc, genBPFIR]
    simp [hb, hgc, Pure]
  | some root =>
    have hb : bpf = (genBPFIR g (colorCode g o).2 gl).1 := rfl
    rw [genBPFIR_of_root hr] at hb
    by_cases hc : (colorCode g o).2.count 0 = true
    · rw [if_pos hc] at hb
      have hp : Pure bpf := by
        rw [hb]
        simp [Pure, stub, Instruction.requiresPtrace]
      exact ⟨fun _ => .inl ⟨root, rfl, (hroot root hr).mp hc⟩, fun _ => hp⟩
    · rw [if_neg hc] at hb
      rw [hb, genBlocks_pure]
      constructor
      · intro h
        refine .inr fun b B hB hreq hl => ?_
        have hcount := (hleak b B hB).mp hl
        have := h b B hB (by rwa [Nat.zero_add])
        rw [hreq] at this
        simp at this
      · rintro (⟨root', hr', hreq⟩ | h) k B hB hcount
        · obtain rfl := Option.some.inj hr'
          exact absurd ((hroot root hr).mpr hreq) hc
        · rw [Nat.zero_add] at hcount
          refine Bool.eq_false_iff.mpr fun hreq => ?_
          exact h k B hB hreq ((hleak k B hB).mpr hcount)

/-- `if (flags == 1) { mode = 0; } flags = 2; allow;` -/
def joinedStore : List Stmt :=
  [.ifThen (.op2 .EQ (.ref "flags") (.value 1)) (.compound [.assign "mode" (.value 0)]),
    .assign "flags" (.value 2), .perm .ALLOW]

/-- The block after the `if` joins a path without an assignment, so the filter enters it and
passes `flags = 2`. -/
theorem joinedStore_not_pure : allWellTyped joinedStore = true ∧
    ¬ Pure (genBPFIR (checkCFG joinedStore {} "openat")
      (colorCode (checkCFG joinedStore {} "openat") .insertion).2 (.initial 0)).1 := by
  refine ⟨by decide, fun h => ?_⟩
  have := h (.store (.imm 2) (.mem "flags")) (by decide)
  exact absurd this (by decide)

end SeccompPolicy
