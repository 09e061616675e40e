import SeccompPolicy.Comparisons
import SeccompPolicy.FilterRuns
import SeccompPolicy.ResultStack

/-!
# The filters of a list do what the list does

Source: `BPFCodeGen` of `code_gen.cpp`, as a whole.

An instruction list and its filters are read side by side. The list keeps every result in a
register of its own; the filters keep the newest unused result in `A` and, as far as `M0_val` says
so, the one before it in the first scratch word.

* `Keeps` is the relation between the two states.
* `Upcoming` is what the list promises about its rest: it uses results in the order of a stack and
  computes none twice (`ResultStack` has this of all lists the compiler makes).
* `Instruction.RightOn` says of an instruction and the words of a call that `BPFCodeGen` computes
  it as the source says; what it computes wrongly (`Arithmetic`, `Comparisons`) is left out by it,
  and so are calls and assignments, which have no filters.

## Results

* `genArith_runs`: what the filters of an operator compute.
* `arith_keeps`, `branch_leads`: an operator and a comparison keep the relation.
* `scans_alike`: the two readings, side by side, look for the same label or have stopped alike.
  The induction is on the list.
* `bpfCodeGen_halts`: the filters of a check end as its list does: with the word for its outcome,
  or off their end.
-/

namespace SeccompPolicy

open ClassicBpf LabelledCode SmallStep

/-! ## Instructions that are computed right -/

/-- The value of an operand, for given arguments. -/
def IRValue.wordOf (arg : String → Word) : IRValue → Word
  | .mem x => arg x
  | .imm n => BitVec.ofInt 32 n
  | .arith _ op a b => words32.arith op (a.wordOf arg) (b.wordOf arg)
  | _ => 0

/-- An operator on the word in `A` and an operand that is no result. -/
def IRValue.applied (args : List String) (op : OpCode) (a : Word) : IRValue → Option Word
  | .mem x => op.underAbs.bind fun op => op.machine a (KField.argOffset (argIndex args x)).val
  | .imm n => op.machine a (BitVec.ofInt 32 n)
  | _ => none

/-- What the filters of an operator make of its operands' values. -/
def machineArith (args : List String) (op : OpCode) (a b : IRValue) (u v : Word) : Option Word :=
  if b.isInstruction then if a.isInstruction then op.machine v u else a.applied args op v
  else b.applied args op u

/-- The filters of an instruction compute what the source says, for these arguments. An instruction
that calls a helper or assigns has no filters. -/
def Instruction.RightOn (args : List String) (arg : String → Word) : Instruction → Prop
  | .arith _ op a b => op.isWordOp = true ∧ a.isOperand = true ∧ b.isOperand = true ∧
      machineArith args op a b (a.wordOf arg) (b.wordOf arg) =
        some (words32.arith op (a.wordOf arg) (b.wordOf arg))
  | .branch op a b _ _ => op.isCmp = true ∧ a.isOperand = true ∧ b.isOperand = true ∧
      branchTest args op a b (a.wordOf arg) (b.wordOf arg) =
        words32.cmp op (a.wordOf arg) (b.wordOf arg)
  | .call .. | .store .. => False
  | .ret _ rval => rval = PermType.ALLOW.val ∨ rval = PermType.DENY.val ∨ rval = RET_TO_PTRACE
  | .label _ => True

instance decidableRightOn (args : List String) (arg : String → Word) :
    (i : Instruction) → Decidable (i.RightOn args arg)
  | .arith .. => inferInstanceAs (Decidable (_ ∧ _))
  | .branch .. => inferInstanceAs (Decidable (_ ∧ _))
  | .call .. | .store .. => inferInstanceAs (Decidable False)
  | .ret .. => inferInstanceAs (Decidable (_ ∨ _))
  | .label _ => inferInstanceAs (Decidable True)

/-- The value of an operand is the one it has for the words of the call, if a result is in the
register meant. -/
theorem IRValue.operandValue_eq {args : List String} {d : SeccompData} {v : IRValue} {reg : Word}
    (hv : v.isOperand = true)
    (hreg : v.isInstruction = true → reg = v.wordOf (SeccompData.words args d)) :
    v.operandValue args d reg = v.wordOf (SeccompData.words args d) := by
  cases v with
  | mem x => rfl
  | imm n => rfl
  | arith id op a b => exact hreg rfl
  | null => cases hv
  | call id f ps => cases hv

/-- An operand that is no result is in no register. -/
theorem IRState.read_leaf {v : IRValue} (hv : v.isOperand = true) (hi : v.isInstruction = false)
    (s : IRState Word) : s.read words32 v = v.wordOf s.args := by
  cases v with
  | mem x => rfl
  | imm n => rfl
  | arith id op a b => cases hi
  | null => cases hv
  | call id f ps => cases hi

/-! ## The filters of an operator -/

section Operator

variable {args : List String} {d : SeccompData} {op : OpCode} {a b v : IRValue}

/-- An operand that is no result, as the second operand of an instruction. -/
theorem runStmts_applied (hop : op.isWordOp = true) (hv : v.isOperand = true)
    (hi : v.isInstruction = false) (s : State) :
    runStmts d [.stmt [.ALU, bpfOpcode op, getAddressMode v] (genKField args v)] s =
      (v.applied args op s.A).map fun w => { s with A := w } := by
  rw [Option.map_eq_bind]
  cases v with
  | mem x => exact runStmts_aluAbs hop d _ [] s
  | imm n => exact runStmts_aluK hop d _ [] s
  | arith id op a b => cases hi
  | null => cases hv
  | call id f ps => cases hi

/-- **What the filters of an operator compute.** They leave the scratch words alone. -/
theorem genArith_runs (hargs : ∀ y, argIndex args y < 6) (hop : op.isWordOp = true)
    (ha : a.isOperand = true) (hb : b.isOperand = true) {m0 : IRValue}
    (hm : a.isInstruction = true → b.isInstruction = true → m0 = a)
    {g : List BPFFilter × IRValue} (hg : genArith args m0 op a b = some g) {s : State} {w : Word}
    (hw : machineArith args op a b
      (a.operandValue args d (if b.isInstruction then s.M 0 else s.A))
      (b.operandValue args d s.A) = some w) :
    ∃ t, runStmts d g.1 s = some t ∧ t.A = w ∧ t.M = s.M := by
  have hnull : ∀ {v : IRValue}, v.isOperand = true → v ≠ .null := by
    rintro _ hv rfl
    cases hv
  have hreg : ∀ {v : IRValue}, v.isInstruction = true → ∀ reg, v.operandValue args d reg = reg := by
    intro v hv reg
    cases v <;> first | rfl | cases hv
  unfold genArith at hg
  unfold machineArith at hw
  rw [if_neg (hnull ha), if_neg (hnull hb)] at hg
  cases hai : a.isInstruction with
  | true =>
    cases hbi : b.isInstruction with
    | true =>
      simp only [hm hai hbi, hai, hbi, hreg hai, hreg hbi, and_self, true_or, if_true] at hg hw
      obtain rfl := Option.some.inj hg
      refine ⟨{ s with X := s.M 0, A := w }, ?_, rfl, rfl⟩
      have hload : runStmts d [.stmt [.LDX, .MEM, .W] (.int 0),
          .stmt [.ALU, .X, bpfOpcode op] .empty] s =
          runStmts d [.stmt [.ALU, .X, bpfOpcode op] .empty] { s with X := s.M 0 } := rfl
      rw [hload, runStmts_aluX hop, hw]
      rfl
    | false =>
      simp only [hai, hbi, hreg hai, Bool.false_eq_true, and_false, if_false, if_true] at hg hw
      obtain rfl := Option.some.inj hg
      refine ⟨{ s with A := w }, ?_, rfl, rfl⟩
      rw [runStmts_applied hop hb hbi, hw]
      rfl
  | false =>
    cases hbi : b.isInstruction with
    | true =>
      simp only [hai, hbi, hreg hbi, Bool.false_eq_true, false_and, if_false, if_true] at hg hw
      obtain rfl := Option.some.inj hg
      refine ⟨{ s with A := w }, ?_, rfl, rfl⟩
      rw [runStmts_applied hop ha hai, hw]
      rfl
    | false =>
      simp only [hai, hbi, Bool.false_eq_true, and_self, if_false] at hg hw
      obtain rfl := Option.some.inj hg
      refine ⟨{ s with A := w }, ?_, rfl, rfl⟩
      rw [runStmts_append, runStmts_operand hargs ha hai s.A, Option.bind_some,
        runStmts_applied hop hb hbi, hw]
      rfl

end Operator

/-! ## What is where -/

/-- What the list promises from an instruction on: it uses the results of `st` as a stack, and
computes no result whose number is taken. -/
structure Upcoming (r : BPFRegs) (st : List IRValue) (code : List Instruction) : Prop where
  stacked : stackMonitor.Accepts st code
  once : ResultsOnce code
  results : ∀ v ∈ st, v.isInstruction = true
  holds : r.Holds
  fresh : ∀ n ∈ resultRegs code, r.aVal.reg? ≠ some n ∧ r.m0Val.reg? ≠ some n ∧
    ∀ v ∈ st, v.reg? ≠ some n

/-- The newest unused result is in `A`, and the one before it in the first scratch word, if `M0_val`
says so. -/
structure Keeps (args : List String) (d : SeccompData) (st : List IRValue) (r : BPFRegs)
    (s : IRState Word) (t : State) : Prop where
  newest : ∀ v ∈ st.head?, r.aVal = v ∧ t.A = v.wordOf (SeccompData.words args d) ∧ r.m0Val ≠ v
  second : ∀ v ∈ st.tail.head?, r.m0Val = v → t.M 0 = v.wordOf (SeccompData.words args d)
  regs : ∀ v ∈ st, s.read words32 v = v.wordOf (SeccompData.words args d)

section

variable {gl : RetGlobals} {args : List String} {d : SeccompData} {r : BPFRegs} {st : List IRValue}
  {code : List Instruction} {i : Instruction} {g : List BPFFilter × BPFRegs} {s : IRState Word}
  {t : State} {a b : IRValue} {op : OpCode}

theorem null_reg? (n : Nat) : IRValue.null.reg? ≠ some n := by
  intro h
  cases h

/-- With an empty stack nothing has to be anywhere. -/
theorem keeps_nil (args : List String) (d : SeccompData) (r : BPFRegs) (s : IRState Word)
    (t : State) : Keeps args d [] r s t where
  newest v hv := by cases hv
  second v hv := by cases hv
  regs v hv := absurd hv List.not_mem_nil

/-- Where the operands of an instruction are. -/
structure OperandsAt (args : List String) (d : SeccompData) (a b : IRValue) (r : BPFRegs)
    (s : IRState Word) (t : State) : Prop where
  right : b.isInstruction = true → r.aVal = b ∧ t.A = b.wordOf (SeccompData.words args d)
  left : a.isInstruction = true → b.isInstruction = false →
    r.aVal = a ∧ t.A = a.wordOf (SeccompData.words args d)
  both : a.isInstruction = true → b.isInstruction = true → r.m0Val ≠ b ∧
    (r.m0Val = a → t.M 0 = a.wordOf (SeccompData.words args d))
  readLeft : s.read words32 a = a.wordOf (SeccompData.words args d)
  readRight : s.read words32 b = b.wordOf (SeccompData.words args d)

/-- The operands of an instruction are the newest results. -/
theorem Keeps.operands (hk : Keeps args d st r s t) (hs : s.args = SeccompData.words args d)
    (ha : a.isOperand = true) (hb : b.isOperand = true)
    (hst : b.asResult ++ a.asResult <+: st) : OperandsAt args d a b r s t := by
  obtain ⟨rest, rfl⟩ := hst
  have hleaf : ∀ {v : IRValue}, v.isOperand = true → v.isInstruction = false →
      s.read words32 v = v.wordOf (SeccompData.words args d) := fun hv hi => by
    rw [IRState.read_leaf hv hi, hs]
  cases hai : a.isInstruction <;> cases hbi : b.isInstruction <;>
    simp only [IRValue.asResult, hai, hbi, List.filter_cons, List.filter_nil, List.nil_append,
      List.cons_append, if_true, if_false, Bool.false_eq_true] at hk
  · exact ⟨fun h => absurd (hbi.symm.trans h) Bool.false_ne_true,
      fun h => absurd (hai.symm.trans h) Bool.false_ne_true,
      fun h => absurd (hai.symm.trans h) Bool.false_ne_true, hleaf ha hai, hleaf hb hbi⟩
  · obtain ⟨h₁, h₂, -⟩ := hk.newest b rfl
    exact ⟨fun _ => ⟨h₁, h₂⟩, fun h => absurd (hai.symm.trans h) Bool.false_ne_true,
      fun h => absurd (hai.symm.trans h) Bool.false_ne_true, hleaf ha hai,
      hk.regs b List.mem_cons_self⟩
  · obtain ⟨h₁, h₂, -⟩ := hk.newest a rfl
    exact ⟨fun h => absurd (hbi.symm.trans h) Bool.false_ne_true, fun _ _ => ⟨h₁, h₂⟩,
      fun _ h => absurd (hbi.symm.trans h) Bool.false_ne_true, hk.regs a List.mem_cons_self,
      hleaf hb hbi⟩
  · obtain ⟨h₁, h₂, h₃⟩ := hk.newest b rfl
    exact ⟨fun _ => ⟨h₁, h₂⟩, fun _ h => absurd (hbi.symm.trans h).symm Bool.false_ne_true,
      fun _ _ => ⟨h₃, hk.second a rfl⟩, hk.regs a (List.mem_cons_of_mem _ List.mem_cons_self),
      hk.regs b List.mem_cons_self⟩

/-- What the loop makes of `M0_val`. -/
theorem genInst_m0Val (hi : i.RightOn args (SeccompData.words args d))
    (hg : genInst gl args r i = some g) :
    g.2.m0Val = .null ∨ g.2.m0Val = r.m0Val ∨ g.2.m0Val = r.aVal := by
  cases i with
  | label l => exact .inr (.inl (by rw [← Option.some.inj hg]))
  | ret id rval => exact .inr (.inl (by rw [← Option.some.inj hg]))
  | call id f ps => exact hi.elim
  | store a b => exact hi.elim
  | branch op a b tt ff =>
    have h := (genInst_branch_regs hi.1 hg).2
    split at h
    · exact .inl h.1
    · exact .inr (.inl h)
  | arith id op a b =>
    have h := (genInst_arith_regs hg).2
    split at h
    · exact .inl h.1
    · rw [h]
      unfold spill
      split
      · exact .inr (.inr rfl)
      · exact .inr (.inl rfl)

/-- What the loop makes of `A_val`. -/
theorem genInst_aVal (hi : i.RightOn args (SeccompData.words args d))
    (hg : genInst gl args r i = some g) :
    (∃ v, i.result? = some v ∧ g.2.aVal = v) ∨ g.2.aVal = .null ∨ g.2.aVal = r.aVal := by
  cases i with
  | label l => exact .inr (.inr (by rw [← Option.some.inj hg]))
  | ret id rval => exact .inr (.inr (by rw [← Option.some.inj hg]))
  | call id f ps => exact hi.elim
  | store a b => exact hi.elim
  | branch op a b tt ff => exact .inr (.inl (genInst_branch_regs hi.1 hg).1)
  | arith id op a b => exact .inl ⟨_, rfl, (genInst_arith_regs hg).1⟩

/-- What is unused behind an instruction is its result, or was unused before. -/
theorem mem_stackAfter {v : IRValue} (hv : v ∈ stackAfter st i) :
    i.result? = some v ∨ v ∈ st := by
  cases i <;> simp only [stackAfter, List.not_mem_nil, List.mem_append, Option.mem_toList] at hv <;>
    exact hv.imp id List.mem_of_mem_drop

theorem result_isInstruction {v : IRValue} (hv : i.result? = some v) : v.isInstruction = true := by
  cases i <;> first | cases hv; rfl | cases hv

/-- **What is promised stays promised.** -/
theorem Upcoming.next (hu : Upcoming r st (i :: code))
    (hi : i.RightOn args (SeccompData.words args d)) (hg : genInst gl args r i = some g) :
    Upcoming g.2 (stackAfter st i) code := by
  have hregs : resultRegs (i :: code) = (i.result?.bind IRValue.reg?).toList ++ resultRegs code := by
    unfold resultRegs
    rw [List.filterMap_cons]
    cases i.result?.bind IRValue.reg? <;> rfl
  have honce := hu.once
  have hfresh := hu.fresh
  unfold ResultsOnce at honce
  rw [hregs, List.nodup_append] at honce
  rw [hregs] at hfresh
  -- a new result has a number of its own
  have hnew : ∀ n ∈ resultRegs code, ∀ v, i.result? = some v → v.reg? ≠ some n := by
    rintro n hn v hv hvn
    rw [hv] at honce
    exact honce.2.2 n (by rw [Option.bind_some, hvn]; exact List.mem_cons_self) n hn rfl
  have hold := fun n (hn : n ∈ resultRegs code) => hfresh n (List.mem_append_right _ hn)
  refine ⟨hu.stacked.2, honce.2.1, fun v hv => ?_, ?_, fun n hn => ⟨?_, ?_, fun v hv => ?_⟩⟩
  · rcases mem_stackAfter hv with hv | hv
    · exact result_isInstruction hv
    · exact hu.results v hv
  · rcases genInst_aVal hi hg with ⟨v, hv, h⟩ | h | h
    · exact .inr (h ▸ result_isInstruction hv)
    · exact .inl h
    · unfold BPFRegs.Holds
      rw [h]
      exact hu.holds
  · rcases genInst_aVal hi hg with ⟨v, hv, h⟩ | h | h
    · exact h ▸ hnew n hn v hv
    · exact h ▸ null_reg? n
    · exact h ▸ (hold n hn).1
  · rcases genInst_m0Val hi hg with h | h | h
    · exact h ▸ null_reg? n
    · exact h ▸ (hold n hn).2.1
    · exact h ▸ (hold n hn).1
  · rcases mem_stackAfter hv with hv | hv
    · exact hnew n hn v hv
    · exact (hold n hn).2.2 v hv

/-- The spill, run. -/
theorem spill_runs (r : BPFRegs) (a b : IRValue) (d : SeccompData) (t : State) : ∃ t₀,
    runStmts d (spill r a b).1 t = some t₀ ∧ t₀.A = t.A ∧
      t₀.M 0 = if (spill r a b).1 = [] then t.M 0 else t.A := by
  unfold spill
  split
  · refine ⟨{ t with M := Function.update t.M 0 t.A }, rfl, rfl, ?_⟩
    exact Function.update_self 0 t.A t.M
  · exact ⟨t, rfl, rfl, rfl⟩

/-- The operands of an instruction that uses a result are not in the way of each other. -/
theorem spill_used (hat : OperandsAt args d a b r s t)
    (hres : a.isInstruction = true ∨ b.isInstruction = true) : spill r a b = ([], r) := by
  cases hbi : b.isInstruction with
  | true => exact spill_right (hat.right hbi).1
  | false => exact spill_left (hat.left (hres.resolve_right (by simp [hbi])) hbi).1

/-- The result before the new one is in the scratch word, if `M0_val` says so. -/
theorem second_kept (hu : Upcoming r st code) (hk : Keeps args d st r s t)
    (hat : OperandsAt args d a b r s t) {m0 : IRValue}
    (hm0 : if a.isInstruction ∧ b.isInstruction then m0 = .null else m0 = (spill r a b).2.m0Val)
    {w : Word} (hw : w = if (spill r a b).1 = [] then t.M 0 else t.A) :
    ∀ v ∈ (st.drop (b.asResult ++ a.asResult).length).head?, m0 = v →
      w = v.wordOf (SeccompData.words args d) := by
  intro v hv hm
  have hvi : v.isInstruction = true := hu.results v (List.mem_of_mem_drop (List.mem_of_mem_head? hv))
  cases hai : a.isInstruction <;> cases hbi : b.isInstruction <;>
    simp only [IRValue.asResult, hai, hbi, List.filter_cons, List.filter_nil, List.nil_append,
      List.cons_append, if_true, if_false, Bool.false_eq_true, List.length_cons, List.length_nil,
      List.drop_zero, and_self, false_and, and_false] at hv hm0
  · -- it was in `A`, and has been moved
    obtain ⟨haVal, hA, -⟩ := hk.newest v hv
    have hmoved : (spill r a b).1 ≠ [] := by
      rw [spill_leaves hu.holds hai hbi, if_neg (haVal ▸ isInstruction_ne hvi rfl)]
      exact List.cons_ne_nil _ _
    rw [hw, if_neg hmoved, hA]
  · rw [spill_used hat (.inr hbi)] at hw hm0
    rw [Nat.zero_add, List.drop_one] at hv
    rw [hw, if_pos rfl]
    exact hk.second v hv (hm0.symm.trans hm)
  · rw [spill_used hat (.inl hai)] at hw hm0
    rw [Nat.zero_add, List.drop_one] at hv
    rw [hw, if_pos rfl]
    exact hk.second v hv (hm0.symm.trans hm)
  · rw [← hm, hm0] at hvi
    cases hvi

/-- **An operator.** Its filters go on, with its result in `A`. -/
theorem arith_keeps (hargs : ∀ y, argIndex args y < 6) {id : Nat}
    (hu : Upcoming r st (.arith id op a b :: code)) (hk : Keeps args d st r s t)
    (hs : s.args = SeccompData.words args d)
    (hi : (Instruction.arith id op a b).RightOn args (SeccompData.words args d))
    (hg : genInst gl args r (.arith id op a b) = some g) : ∃ t', runStmts d g.1 t = some t' ∧
      Keeps args d (stackAfter st (.arith id op a b)) g.2
        (s.setReg id (s.compute words32 op a b)) t' := by
  have hm0Val := genInst_m0Val hi hg
  obtain ⟨hop, ha, hb, hright⟩ := hi
  have hused : (Instruction.arith id op a b).used = b.asResult ++ a.asResult := used_pair a b
  have hat := hk.operands hs ha hb (hused ▸ hu.stacked.1)
  obtain ⟨haVal, hm0⟩ := genInst_arith_regs hg
  obtain ⟨ga, hga, rfl⟩ := Option.map_eq_some_iff.mp hg
  obtain ⟨t₀, hrun₀, hA₀, hM₀⟩ := spill_runs r a b d t
  -- with a result among the operands nothing is moved
  have hkept : a.isInstruction = true ∨ b.isInstruction = true → t₀.M 0 = t.M 0 := fun h => by
    rw [hM₀, spill_used hat h]
    rfl
  -- of two results the first one is in the scratch word
  have hfirst : a.isInstruction = true → b.isInstruction = true →
      (spill r a b).2.m0Val = a ∧ t.M 0 = a.wordOf (SeccompData.words args d) := by
    intro hai hbi
    rw [if_pos ⟨hai, hbi⟩, spill_used hat (.inl hai)] at hm0
    rw [spill_used hat (.inl hai)]
    have hva := (hm0.2.resolve_right (hat.both hai hbi).1.symm).symm
    exact ⟨hva, (hat.both hai hbi).2 hva⟩
  have hword : machineArith args op a b
      (a.operandValue args d (if b.isInstruction then t₀.M 0 else t₀.A))
      (b.operandValue args d t₀.A) =
      some (words32.arith op (a.wordOf (SeccompData.words args d))
        (b.wordOf (SeccompData.words args d))) := by
    rw [IRValue.operandValue_eq ha, IRValue.operandValue_eq hb, hright]
    · intro hbi
      rw [hA₀, (hat.right hbi).2]
    · intro hai
      cases hbi : b.isInstruction with
      | true => rw [if_pos rfl, hkept (.inl hai), (hfirst hai hbi).2]
      | false => rw [if_neg Bool.false_ne_true, hA₀, (hat.left hai hbi).2]
  obtain ⟨t', hrun, hA, hM⟩ := genArith_runs (d := d) hargs hop ha hb
    (fun hai hbi => (hfirst hai hbi).1) hga hword
  refine ⟨t', ?_, fun v hv => ?_, fun v hv hm => ?_, fun v hv => ?_⟩
  · rw [runStmts_append, hrun₀, Option.bind_some, hrun]
  · -- the new result
    obtain rfl := Option.some.inj hv
    refine ⟨rfl, hA, fun h => ?_⟩
    have hfresh := hu.fresh id List.mem_cons_self
    rcases hm0Val with h' | h' | h'
    · rw [h'] at h
      cases h
    · exact hfresh.2.1 (by rw [← h', h]; rfl)
    · exact hfresh.1 (by rw [← h', h]; rfl)
  · rw [hM]
    have hm0' : if a.isInstruction ∧ b.isInstruction then ga.2 = .null
        else ga.2 = (spill r a b).2.m0Val := by
      split at hm0
      · rw [if_pos ‹_›]
        exact hm0.1
      · rw [if_neg ‹_›]
        exact hm0
    refine second_kept hu hk hat hm0' hM₀ v ?_ hm
    rw [← hused]
    exact hv
  · -- the registers
    have hcompute : s.compute words32 op a b = words32.arith op
        (a.wordOf (SeccompData.words args d)) (b.wordOf (SeccompData.words args d)) := by
      have hne : op ≠ .UMINUS := by
        rintro rfl
        cases hop
      rw [IRState.compute, if_neg hne, hat.readLeft, hat.readRight]
    rcases List.mem_cons.mp hv with rfl | hv
    · rw [IRState.read_setReg, hcompute]
      rfl
    · have hold : v ∈ st := List.mem_of_mem_drop hv
      have hne := (hu.fresh id List.mem_cons_self).2.2 v hold
      rw [← hk.regs v hold]
      cases v with
      | arith id' op' a' b' => exact IRState.setReg_regs_ne fun h => hne (congrArg some h)
      | call id' f ps => exact IRState.setReg_regs_ne fun h => hne (congrArg some h)
      | _ => rfl

/-- **A comparison.** Its filters lead where the values of the operands say. -/
theorem branch_leads (hargs : ∀ y, argIndex args y < 6) {tt ff : String}
    (hu : Upcoming r st (.branch op a b tt ff :: code)) (hk : Keeps args d st r s t)
    (hs : s.args = SeccompData.words args d)
    (hi : (Instruction.branch op a b tt ff).RightOn args (SeccompData.words args d))
    (hg : genInst gl args r (.branch op a b tt ff) = some g) :
    branchTo d g.1 t =
      some (if words32.cmp op (s.read words32 a) (s.read words32 b) then tt else ff) := by
  obtain ⟨hop, ha, hb, hright⟩ := hi
  have hne : op ≠ .INVALID := by
    rintro rfl
    cases hop
  have hused : (Instruction.branch op a b tt ff).used = b.asResult ++ a.asResult := by
    unfold Instruction.used
    rw [if_neg (by simpa [Instruction.isDirectJMP] using hne)]
    exact used_pair a b
  have hat := hk.operands hs ha hb (hused ▸ hu.stacked.1)
  have hm0 := (genInst_branch_regs hop hg).2
  have hm : a.isInstruction = true → b.isInstruction = true → r.m0Val = a := by
    intro hai hbi
    rw [if_pos ⟨hai, hbi⟩] at hm0
    exact (hm0.2.resolve_right (hat.both hai hbi).1.symm).symm
  have hto := branchTo_genBranch (d := d) hargs hop ha hb hm tt ff t
  rw [genInst, if_neg hne] at hg
  obtain ⟨gb, hgb, rfl⟩ := Option.map_eq_some_iff.mp hg
  rw [hgb, Option.bind_some, IRValue.operandValue_eq ha, IRValue.operandValue_eq hb, hright] at hto
  · rw [hat.readLeft, hat.readRight]
    exact hto
  · intro hbi
    exact (hat.right hbi).2
  · intro hai
    cases hbi : b.isInstruction with
    | true => exact (hat.both hai hbi).2 (hm hai hbi)
    | false => exact (hat.left hai hbi).2

end

/-! ## Filters in the reading with labels -/

/-- What goes on as a statement goes on in code with labels. -/
theorem filterAct_next {d : SeccompData} {f : BPFFilter} {s t : State}
    (h : exec d f.insn s = .next t) : filterAct d f s = .next t := by
  cases f with
  | label l =>
    have hinvalid : exec d (BPFFilter.label l).insn s = .invalid := by simp [BPFFilter.insn, exec]
    rw [hinvalid] at h
    cases h
  | stmt op k =>
    rw [filterAct, h]
    rfl
  | jump op k jt jf =>
    rw [filterAct]
    by_cases hcode : opcodeVal op = 0x05
    · simp [BPFFilter.insn, hcode, exec] at h
    · rw [BPFFilter.insn, exec_offsets d hcode] at h
      cases he : exec d ⟨opcodeVal op, k.val, some 0, some 1⟩ s with
      | next t' =>
        rw [he] at h
        obtain rfl := Effect.next.inj h
        rfl
      | _ =>
        rw [he] at h
        cases h

/-- Statements that go on are read through. -/
theorem scan_runStmts {d : SeccompData} {fs : List BPFFilter} {s t : State}
    (h : runStmts d fs s = some t) (rest : List BPFFilter) :
    (filterLang d).scan (fs ++ rest) none s = (filterLang d).scan rest none t := by
  induction fs generalizing s with
  | nil =>
    obtain rfl := Option.some.inj h
    rfl
  | cons f fs ih =>
    rw [runStmts] at h
    split at h
    · rename_i s' he
      rw [List.cons_append, Lang.scan_next _ (filterAct_next he), ih h]
    · cases h

/-- A comparison jumps to the target it chooses. -/
theorem filterAct_jump {d : SeccompData} {op : List BPFConst} {k : KField} {jt jf l : String}
    {s : State} (h : chosenTarget d op k jt jf s = some l) :
    filterAct d (.jump op k (.label jt) (.label jf)) s = .jump l s := by
  unfold chosenTarget at h
  rw [filterAct]
  split at h
  · rename_i he
    obtain rfl := Option.some.inj h
    rw [he]
    rfl
  · rename_i he
    obtain rfl := Option.some.inj h
    rw [he]
    rfl
  · cases h

/-- The filters of a branch are read to their target. -/
theorem scan_branchTo {d : SeccompData} {fs : List BPFFilter} {s : State} {l : String}
    (h : branchTo d fs s = some l) (rest : List BPFFilter) :
    ∃ t, (filterLang d).scan (fs ++ rest) none s = (filterLang d).scan rest (some l) t := by
  induction fs generalizing s with
  | nil => cases h
  | cons f fs ih =>
    rw [branchTo.eq_def] at h
    split at h
    · rename_i heq
      obtain ⟨rfl, rfl⟩ := List.cons.inj heq
      exact ⟨_, Lang.scan_jump _ (filterAct_jump h) rest⟩
    · rename_i f' fs' s _ heq
      obtain ⟨rfl, rfl⟩ := List.cons.inj heq
      split at h
      · rename_i s' he
        obtain ⟨t, ht⟩ := ih h
        exact ⟨t, (Lang.scan_next _ (filterAct_next he) _).trans ht⟩
      · cases h
    · cases h

/-! ## Both readings -/

/-- The word the filters return for an outcome of the list, if it is one they return for. -/
def Outcome.word? (gl : RetGlobals) : Outcome → Option Word
  | .verdict .ALLOW => some SECCOMP_RET_ALLOW
  | .verdict .DENY => some SECCOMP_RET_KILL_PROCESS
  | .toPtrace id => some (KField.retTrace (gl.dataOf id)).val
  | _ => none

/-- Both readings look for the same label, or have stopped alike. -/
def ScansAlike (gl : RetGlobals) : Except (Outcome × IRState Word) (Option String × IRState Word) →
    Except FilterEnd (Option String × State) → Prop
  | .ok p, .ok q => q.1 = p.1
  | .error p, .error e => ∃ w, p.1.word? gl = some w ∧ e = .inl (some w)
  | _, _ => False

variable {gl : RetGlobals} {args : List String} {d : SeccompData} {h : Helpers Word}

/-- What is computed right is one of the forms the filters are made for. -/
theorem compares_of_rightOn {i : Instruction} {arg : String → Word} (hi : i.RightOn args arg) :
    i.Compares := by
  cases i with
  | branch op a b t f => exact .inr hi.1
  | _ => trivial

/-- A return. -/
theorem genReturn_act {id : Nat} {rval : Int}
    (hr : rval = PermType.ALLOW.val ∨ rval = PermType.DENY.val ∨ rval = RET_TO_PTRACE)
    (rest : List BPFFilter) (s : State) : ∃ w, (retOutcome id rval).word? gl = some w ∧
    (filterLang d).scan (genReturn gl id rval ++ rest) none s = .error (.inl (some w)) := by
  rcases hr with rfl | rfl | rfl
  · exact ⟨SECCOMP_RET_ALLOW, rfl, rfl⟩
  · exact ⟨SECCOMP_RET_KILL_PROCESS, rfl, rfl⟩
  · exact ⟨(KField.retTrace (gl.dataOf id)).val, rfl, rfl⟩

/-- **An instruction list and its filters, read side by side.** -/
theorem scans_alike (hargs : ∀ y, argIndex args y < 6) {code : List Instruction} {r : BPFRegs}
    {st : List IRValue} {fs : List BPFFilter} {m : Option String} {s : IRState Word} {t : State}
    (hg : genFilters gl args r code = some fs) (hu : Upcoming r st code)
    (hi : ∀ i ∈ code, i.RightOn args (SeccompData.words args d))
    (hs : s.args = SeccompData.words args d) (hk : m = none → Keeps args d st r s t) :
    ScansAlike gl ((irLang words32 h).scan code m s) ((filterLang d).scan fs m t) := by
  induction code generalizing r st fs m s t with
  | nil =>
    obtain rfl := Option.some.inj hg
    rfl
  | cons i code ih =>
    obtain ⟨g, fs, hgi, hrest, rfl⟩ := genFilters_cons hg
    have hright := hi i List.mem_cons_self
    have hi := fun j hj => hi j (List.mem_cons_of_mem i hj)
    have hu' := hu.next hright hgi
    have ih := fun {m : Option String} {s : IRState Word} {t : State} =>
      @ih g.2 (stackAfter st i) fs m s t hrest hu' hi
    by_cases hm : m = none ∨ m = i.label?
    · -- executed
      cases i with
      | call id f ps => exact hright.elim
      | store a b => exact hright.elim
      | label l =>
        obtain rfl := Option.some.inj hgi
        have hlist : (irLang words32 h).scan (.label l :: code) m s =
            (irLang words32 h).scan code none (s.record (.enter l)) :=
          (Lang.scan_here _ hm code s).trans (Lang.scan_next _ rfl code)
        have hfilters : (filterLang d).scan (.label l :: fs) m t = (filterLang d).scan fs none t :=
          (Lang.scan_here _ hm fs t).trans (Lang.scan_next _ rfl fs)
        rw [hlist, List.singleton_append, hfilters]
        exact ih hs fun _ => keeps_nil _ _ _ _ _
      | ret id rval =>
        obtain rfl : m = none := or_self_iff.mp hm
        obtain rfl := Option.some.inj hgi
        have hstop : (irLang words32 h).scan (.ret id rval :: code) none s =
            .error (retOutcome id rval, s) := Lang.scan_stop _ rfl code
        obtain ⟨w, hw, hret⟩ := @genReturn_act gl d id rval hright fs t
        rw [hstop, hret]
        exact ⟨w, hw, rfl⟩
      | arith id op a b =>
        obtain rfl : m = none := or_self_iff.mp hm
        obtain ⟨t', hrun, hk'⟩ := arith_keeps hargs hu (hk rfl) hs hright hgi
        have hnext : (irLang words32 h).scan (.arith id op a b :: code) none s =
            (irLang words32 h).scan code none (s.setReg id (s.compute words32 op a b)) :=
          Lang.scan_next _ rfl code
        rw [hnext, scan_runStmts hrun]
        exact ih hs fun _ => hk'
      | branch op a b tt ff =>
        obtain rfl : m = none := or_self_iff.mp hm
        obtain ⟨t', ht'⟩ := scan_branchTo (branch_leads hargs hu (hk rfl) hs hright hgi) fs
        have hne : op ≠ .INVALID := by
          rintro rfl
          cases hright.1
        have hjump : (irLang words32 h).act (.branch op a b tt ff) s =
            .jump (if words32.cmp op (s.read words32 a) (s.read words32 b) then tt else ff)
              (s.record (.test op (s.read words32 a) (s.read words32 b))) := if_neg hne
        rw [ht', Lang.scan_jump _ hjump]
        exact ih hs fun h => by cases h
    · -- skipped
      obtain ⟨hnone, hne⟩ := not_or.mp hm
      obtain ⟨l, rfl⟩ := Option.ne_none_iff_exists'.mp hnone
      have hskip : l ∉ (filterLang d).labels g.1 := by
        rw [filterLang_labels, genInst_labels (compares_of_rightOn hright) hgi, Option.mem_toList]
        exact fun h => hne h.symm
      have hpass : (irLang words32 h).label? i ≠ some l := fun h => hne h.symm
      rw [Lang.scan_pass _ hpass, Lang.scan_append_ok _ (Lang.scan_skip _ hskip t)]
      exact ih hs fun h => by cases h

/-- **The filters of a check end as its list does**: with the word for its outcome, or off their
end. -/
theorem bpfCodeGen_halts (hargs : ∀ y, argIndex args y < 6) {l : String} {code : List Instruction}
    {fs : List BPFFilter} (hg : bpfCodeGen gl args (.label l :: code) = some fs)
    (hstacked : Stacked (.label l :: code)) (honce : ResultsOnce (.label l :: code))
    (hnd : (irLabels code).Nodup)
    (hi : ∀ i ∈ code, i.RightOn args (SeccompData.words args d)) {s : IRState Word}
    (hs : s.args = SeccompData.words args d) {r : Outcome × IRState Word}
    (hr : (irLang words32 h).ScanHalts ((irLang words32 h).scan code none s) r) (t : State) :
    match r.1.word? gl with
    | some w => Halts (segStep (program (bpfTransformLabels fs)) d) (0, t) (.inl (some w))
    | none => ∃ t', Halts (segStep (program (bpfTransformLabels fs)) d) (0, t) (.inr t') := by
  have hc : ∀ i ∈ code, i.Compares := fun i hi' => compares_of_rightOn (hi i hi')
  have hby : ∀ f ∈ fs, f.ByLabel := fun f hf => by
    obtain ⟨i, -, hif⟩ := mem_genFilters hc hg hf
    exact hif.jumps.byLabel
  have hlabels : (filterLabels fs).Nodup := by
    rw [genFilters_labels hc hg]
    exact hnd
  have hu : Upcoming {} [] code :=
    { stacked := (hstacked []).2
      once := honce
      results := fun v hv => absurd hv List.not_mem_nil
      holds := .inl rfl
      fresh := fun n _ => ⟨null_reg? n, null_reg? n, fun v hv => absurd hv List.not_mem_nil⟩ }
  have halike : ScansAlike gl ((irLang words32 h).scan code none s) ((filterLang d).scan fs none t) :=
    scans_alike hargs hg hu hi hs fun _ => keeps_nil args d {} s t
  cases hlist : (irLang words32 h).scan code none s with
  | error p =>
    rw [hlist] at hr halike
    obtain rfl : p = r := hr
    cases hfilters : (filterLang d).scan fs none t with
    | ok q =>
      rw [hfilters] at halike
      exact halike.elim
    | error e =>
      rw [hfilters] at halike
      obtain ⟨w, hw, rfl⟩ := halike
      rw [hw]
      exact filters_halt_of_scan hby hlabels (by rw [hfilters]; rfl)
  | ok p =>
    obtain ⟨m, s'⟩ := p
    rw [hlist] at hr halike
    cases m with
    | some l' => exact hr.elim
    | none =>
      obtain rfl : (.runOff, s') = r := hr
      cases hfilters : (filterLang d).scan fs none t with
      | error e =>
        rw [hfilters] at halike
        exact halike.elim
      | ok q =>
        obtain ⟨m', t'⟩ := q
        rw [hfilters] at halike
        obtain rfl : m' = none := halike
        exact ⟨t', filters_halt_of_scan hby hlabels (by rw [hfilters]; rfl)⟩

end SeccompPolicy
