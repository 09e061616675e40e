import SeccompPolicy.Arithmetic
import SeccompPolicy.Operands

/-!
# One scratch word for intermediate results

Source: `BPFCodeGen` of `code_gen.cpp`, its variables `A_val` and `M0_val` and its two assertions.

`BPFCodeGen` has one place for a result that is not in `A`: the first scratch word. Of two
operator nodes under one operator the left result waits there while the right one is computed.
When two operator nodes meet in the right one as well, the right one needs the word for itself.

`SlotRun` follows the loop together with what the two registers really hold (`Held`), filter by
filter; a step of it asks that the assertions hold, that nothing needed is overwritten and that
the word loaded is the operand meant. So it is about the compiler stopping and about the compiler
being wrong at the same time. `Expr.fits` is the condition on the tree.

## Results

* `Ready.arith`, `Ready.branch`: behind the operands of an instruction the registers are `Ready`
  for it; arithmetic and branches then go through.
* `tree_regs`: behind a tree, in any run, its value is in `A`, and `M0_val` is what was moved
  away, or nothing when two results have met.
* `tree_fits`: a tree that runs fits: no operand on the right has such a meeting in it while the
  operand on the left is an operator node.

The other direction, that every tree that fits runs, is in `ScratchRuns`.
-/

namespace SeccompPolicy

/-! ## What the registers hold -/

/-- What `A` and the first scratch word hold: the result of an instruction, or something else. -/
structure Held where
  a : IRValue := .null
  m0 : IRValue := .null
  deriving DecidableEq, Repr

/-- `BPF_ST` to the scratch word. -/
def storeM0 : BPFFilter := .stmt [.ST, .W] (.int 0)

/-- `BPF_LDX` from it. -/
def loadM0 : BPFFilter := .stmt [.LDX, .MEM, .W] (.int 0)

/-- Behind one filter. A load puts something into `A` that is no result. -/
def Held.step (h : Held) : BPFFilter → Held
  | .stmt [.ST, .W] _ => { h with m0 := h.a }
  | .stmt (.LD :: _) _ => { h with a := .null }
  | _ => h

/-- Behind the filters of an instruction: arithmetic ends with its result in `A`. -/
def Held.after (h : Held) (i : Instruction) (fs : List BPFFilter) : Held :=
  match i with
  | .arith id op a b => { fs.foldl Held.step h with a := .arith id op a b }
  | _ => fs.foldl Held.step h

/-- A result that is still an operand of an instruction in the list. -/
def Needed (code : List Instruction) (v : IRValue) : Prop :=
  v.isInstruction = true ∧ ∃ j ∈ code, v ∈ j.operands

/-- The filters of `i` use the scratch word as they should: what they overwrite is no operand of `i`
or of an instruction behind it, and what they load is the operand that is not in `A`. -/
def SlotUse (i : Instruction) (later : List Instruction) : Held → List BPFFilter → Prop
  | _, [] => True
  | h, f :: fs =>
    (f = storeM0 → ¬ Needed (i :: later) h.m0) ∧
    (f = loadM0 → i.operands = [h.a, h.m0] ∨ i.operands = [h.m0, h.a]) ∧
    SlotUse i later (h.step f) fs

/-- A run of the loop over a list, with `later` behind it, in which the assertions hold and the
scratch word is used as it should. -/
inductive SlotRun (gl : RetGlobals) (args : List String) : BPFRegs → Held → List Instruction →
    List Instruction → BPFRegs → Held → Prop
  | nil (r : BPFRegs) (h : Held) (later : List Instruction) : SlotRun gl args r h [] later r h
  | cons {r r' : BPFRegs} {h h' : Held} {i : Instruction} {code later : List Instruction}
      {g : List BPFFilter × BPFRegs} : genInst gl args r i = some g →
      SlotUse i (code ++ later) h g.1 → SlotRun gl args g.2 (h.after i g.1) code later r' h' →
      SlotRun gl args r h (i :: code) later r' h'

/-- The scratch word suffices for the list. -/
def ScratchSuffices (gl : RetGlobals) (args : List String) (r : BPFRegs) (h : Held)
    (code : List Instruction) : Prop :=
  ∃ r' h', SlotRun gl args r h code [] r' h'

section

variable {gl : RetGlobals} {args : List String} {r r₁ r' : BPFRegs} {h h₁ h' : Held}
  {code code' later : List Instruction}

/-- A run of code and a run of what stands behind it. -/
theorem SlotRun.append (hrun : SlotRun gl args r h code (code' ++ later) r₁ h₁)
    (hrun' : SlotRun gl args r₁ h₁ code' later r' h') :
    SlotRun gl args r h (code ++ code') later r' h' := by
  induction code generalizing r h with
  | nil =>
    cases hrun
    exact hrun'
  | cons i code ih =>
    cases hrun with
    | cons hg huse hrest =>
      refine .cons hg ?_ (ih hrest)
      rwa [← List.append_assoc] at huse

/-- A run of code in two parts. -/
theorem SlotRun.split (hrun : SlotRun gl args r h (code ++ code') later r' h') :
    ∃ r₁ h₁, SlotRun gl args r h code (code' ++ later) r₁ h₁ ∧
      SlotRun gl args r₁ h₁ code' later r' h' := by
  induction code generalizing r h with
  | nil => exact ⟨r, h, .nil r h _, hrun⟩
  | cons i code ih =>
    rw [List.cons_append] at hrun
    cases hrun with
    | cons hg huse hrest =>
      obtain ⟨r₁, h₁, hrun₁, hrun₂⟩ := ih hrest
      exact ⟨r₁, h₁, .cons hg (by rwa [List.append_assoc] at huse) hrun₁, hrun₂⟩

theorem SlotRun.single {i : Instruction} {g : List BPFFilter × BPFRegs}
    (hg : genInst gl args r i = some g) (huse : SlotUse i later h g.1) :
    SlotRun gl args r h [i] later g.2 (h.after i g.1) := .cons hg huse (.nil _ _ _)

theorem SlotRun.inst {i : Instruction} (hrun : SlotRun gl args r h [i] later r' h') :
    ∃ g, genInst gl args r i = some g ∧ r' = g.2 := by
  cases hrun with
  | cons hg _ hrest =>
    cases hrest
    exact ⟨_, hg, rfl⟩

end

/-! ## Trees -/

/-- No helper calls. -/
def Expr.callFree : Expr → Bool
  | .ref _ | .value _ => true
  | .inv _ _ => false
  | .op1 _ e => e.callFree
  | .op2 _ l r => l.callFree && r.callFree

/-- No node has an operator node on its left, and on its right one with two results in it that have
to meet. -/
def Expr.fits : Expr → Bool
  | .op1 _ e => e.fits
  | .op2 op l r => l.fits && r.fits &&
      (decide (op = .AND ∨ op = .OR) || l.isLeaf || r.isLeaf || !r.joins)
  | _ => true

/-- The values of a number are results of its own instructions, the last one the value. -/
structure OwnResults (m : CodeGenMgr) (g : Gen) : Prop where
  ids : m.nextId ≤ g.mgr.nextId
  operands : ∀ j ∈ g.code, ∀ v ∈ j.operands, ∀ n, v.reg? = some n →
    m.nextId ≤ n ∧ n < g.mgr.nextId
  value : ∀ n, g.val.reg? = some n → m.nextId ≤ n ∧ n + 1 = g.mgr.nextId

/-- The results in the code of a number are its own. -/
theorem tree_ownResults (e : Expr) (he : e.isArith = true) (hc : e.callFree = true)
    (m : CodeGenMgr) : OwnResults m (e.irGen m) := by
  induction e generalizing m with
  | ref x =>
    exact ⟨Nat.le_refl _, fun j hj => absurd hj List.not_mem_nil, fun n hn => by cases hn⟩
  | value k =>
    exact ⟨Nat.le_refl _, fun j hj => absurd hj List.not_mem_nil, fun n hn => by cases hn⟩
  | inv f ps => cases hc
  | op1 op e ih =>
    simp only [Expr.isArith, Bool.and_eq_true, decide_eq_true_eq] at he
    obtain ⟨rfl, he⟩ := he
    have hown := ih he hc m
    have hids := hown.ids
    rw [irGen_uminus]
    refine ⟨Nat.le_trans hids (Nat.le_succ _), fun j hj v hv n hn => ?_, fun n hn => ?_⟩
    · simp only [genMinus, CodeGenMgr.alloc]
      rcases List.mem_append.mp hj with hj | hj
      · have := hown.operands j hj v hv n hn
        omega
      · obtain rfl := List.mem_singleton.mp hj
        simp only [Instruction.operands, List.mem_cons, List.not_mem_nil, or_false] at hv
        rcases hv with rfl | rfl
        · have := hown.value n hn
          omega
        · cases hn
    · obtain rfl := Option.some.inj hn
      exact ⟨hids, rfl⟩
  | op2 op l x ihl ihx =>
    simp only [Expr.isArith, Bool.and_eq_true] at he
    simp only [Expr.callFree, Bool.and_eq_true] at hc
    have hl := ihl he.1.2 hc.1 m
    have hx := ihx he.2 hc.2 (l.irGen m).mgr
    have hids := Nat.le_trans hl.ids hx.ids
    rw [irGen_binary he.1.1]
    refine ⟨Nat.le_trans hids (Nat.le_succ _), fun j hj v hv n hn => ?_, fun n hn => ?_⟩
    · have hidl := hl.ids
      have hidx := hx.ids
      simp only [genBinary, CodeGenMgr.alloc]
      simp only [genBinary, List.mem_append, List.mem_singleton] at hj
      rcases hj with (hj | hj) | rfl
      · have := hl.operands j hj v hv n hn
        omega
      · have := hx.operands j hj v hv n hn
        omega
      · simp only [Instruction.operands, List.mem_cons, List.not_mem_nil, or_false] at hv
        rcases hv with rfl | rfl
        · have := hl.value n hn
          omega
        · have := hx.value n hn
          omega
    · obtain rfl := Option.some.inj hn
      exact ⟨hids, rfl⟩

/-- The value of a tree: a leaf's own, or the result of its last instruction. -/
structure TreeValue (e : Expr) (m : CodeGenMgr) (g : Gen) : Prop where
  notNull : g.val ≠ .null
  leaf : e.isLeaf = true → g.code = [] ∧ g.mgr = m ∧ g.val.isInstruction = false
  tree : e.isLeaf = false → g.val.isInstruction = true

/-- The value of a tree, by its shape. -/
theorem tree_value {e : Expr} (he : e.isArith = true) (hc : e.callFree = true) (m : CodeGenMgr) :
    TreeValue e m (e.irGen m) := by
  cases e with
  | ref x => exact ⟨IRValue.noConfusion, fun _ => ⟨rfl, rfl, rfl⟩, fun h => by cases h⟩
  | value n => exact ⟨IRValue.noConfusion, fun _ => ⟨rfl, rfl, rfl⟩, fun h => by cases h⟩
  | inv f ps => cases hc
  | op1 op e =>
    simp only [Expr.isArith, Bool.and_eq_true, decide_eq_true_eq] at he
    obtain ⟨rfl, -⟩ := he
    exact ⟨IRValue.noConfusion, fun h => (Bool.false_ne_true h).elim, fun _ => rfl⟩
  | op2 op l x =>
    simp only [Expr.isArith, Bool.and_eq_true] at he
    rw [irGen_binary he.1.1]
    exact ⟨IRValue.noConfusion, fun h => (Bool.false_ne_true h).elim, fun _ => rfl⟩

/-! ## One instruction -/

/-- `A_val` and `M0_val` name what is there, if anything. -/
structure Tracks (r : BPFRegs) (h : Held) : Prop where
  a : r.aVal = .null ∨ r.aVal = h.a ∧ r.aVal.isInstruction = true
  m0 : r.m0Val = .null ∨ r.m0Val = h.m0

/-- Behind the code of its operands: an instruction finds the results it needs. -/
inductive Ready (v w : IRValue) (r : BPFRegs) (h : Held) : Prop
  | leaves : v.isInstruction = false → w.isInstruction = false → Ready v w r h
  | left : v.isInstruction = true → w.isInstruction = false → r.aVal = v → Ready v w r h
  | right : v.isInstruction = false → w.isInstruction = true → r.aVal = w → Ready v w r h
  | both : v.isInstruction = true → w.isInstruction = true → r.aVal = w → h.a = w → r.m0Val = v →
      h.m0 = v → Ready v w r h

section

variable {gl : RetGlobals} {args : List String} {r r' : BPFRegs} {h h' : Held}
  {v w : IRValue} {later : List Instruction}

theorem Tracks.holds (ht : Tracks r h) : r.Holds := ht.a.imp_right And.right

theorem isInstruction_ne (hv : v.isInstruction = true) (hw : w.isInstruction = false) : v ≠ w := by
  rintro rfl
  exact Bool.false_ne_true (hw.symm.trans hv)

/-- The spill in front of an instruction that needs no result. -/
theorem spill_leaves (hr : r.Holds) (hv : v.isInstruction = false) (hw : w.isInstruction = false) :
    spill r v w = (if r.aVal = .null then [] else [storeM0], r.spilled) := by
  rcases hr with hr | hr
  · rw [BPFRegs.spilled, if_pos hr, if_pos hr]
    exact if_neg fun hne => hne.1 hr
  · have hnull : r.aVal ≠ .null := isInstruction_ne hr rfl
    rw [BPFRegs.spilled, if_neg hnull, if_neg hnull]
    exact if_pos ⟨hnull, isInstruction_ne hr hv, isInstruction_ne hr hw⟩

/-- What `A_val` and `M0_val` are behind arithmetic. Of two results one has been in the scratch
word. -/
theorem genInst_arith_regs {id : Nat} {op : OpCode} {g : List BPFFilter × BPFRegs}
    (hg : genInst gl args r (.arith id op v w) = some g) :
    g.2.aVal = .arith id op v w ∧
      if v.isInstruction ∧ w.isInstruction then
        g.2.m0Val = .null ∧ (v = (spill r v w).2.m0Val ∨ w = (spill r v w).2.m0Val)
      else g.2.m0Val = (spill r v w).2.m0Val := by
  obtain ⟨ga, hga, rfl⟩ := Option.map_eq_some_iff.mp hg
  refine ⟨rfl, ?_⟩
  unfold genArith at hga
  by_cases hboth : v.isInstruction = true ∧ w.isInstruction = true
  · have hv : v ≠ .null := isInstruction_ne hboth.1 rfl
    have hw : w ≠ .null := isInstruction_ne hboth.2 rfl
    rw [if_pos hboth]
    simp only [hv, hw, hboth, if_false, if_true, and_self] at hga
    split at hga
    · rename_i hm
      obtain rfl := Option.some.inj hga
      exact ⟨rfl, hm⟩
    · cases hga
  · rw [if_neg hboth]
    simp only [if_neg hboth] at hga
    split_ifs at hga <;> obtain rfl := Option.some.inj hga <;> rfl

theorem slotUse_append {i : Instruction} {fs gs : List BPFFilter} :
    SlotUse i later h (fs ++ gs) ↔ SlotUse i later h fs ∧
      SlotUse i later (fs.foldl Held.step h) gs := by
  induction fs generalizing h with
  | nil => exact (and_iff_right trivial).symm
  | cons f fs ih =>
    rw [List.cons_append, SlotUse, SlotUse, ih, List.foldl_cons]
    tauto

/-- The filter has nothing to do with the scratch word. -/
def BPFFilter.Spares (f : BPFFilter) : Prop :=
  f ≠ storeM0 ∧ f ≠ loadM0 ∧ ∀ h : Held, (h.step f).m0 = h.m0

theorem spares_alu (o : List BPFConst) (k : KField) : (BPFFilter.stmt (.ALU :: o) k).Spares :=
  ⟨by simp [storeM0], by simp [loadM0], fun _ => rfl⟩

theorem spares_ld (o : List BPFConst) (k : KField) : (BPFFilter.stmt (.LD :: o) k).Spares :=
  ⟨by simp [storeM0], by simp [loadM0], fun _ => rfl⟩

theorem spares_load {f : BPFFilter} (hf : f ∈ loadArgumentOrInt args v) : f.Spares := by
  cases v with
  | mem x => exact List.mem_singleton.mp hf ▸ spares_ld _ _
  | imm n => exact List.mem_singleton.mp hf ▸ spares_ld _ _
  | _ => exact absurd hf List.not_mem_nil

/-- Filters that spare the scratch word use it as they should, and leave it as it is. -/
theorem slotUse_spares (i : Instruction) (later : List Instruction) {fs : List BPFFilter}
    (hfs : ∀ f ∈ fs, f.Spares) (h : Held) :
    SlotUse i later h fs ∧ (fs.foldl Held.step h).m0 = h.m0 := by
  induction fs generalizing h with
  | nil => exact ⟨trivial, rfl⟩
  | cons f fs ih =>
    obtain ⟨⟨hst, hld, hm0⟩, hfs⟩ := List.forall_mem_cons.mp hfs
    obtain ⟨huse, hm0'⟩ := ih hfs (h.step f)
    exact ⟨⟨fun he => absurd he hst, fun he => absurd he hld, huse⟩, hm0'.trans (hm0 h)⟩

/-- Arithmetic that does not have two results spares the scratch word, but for the spill. -/
theorem genArith_spares {m0 : IRValue} {op : OpCode} {g : List BPFFilter × IRValue}
    (hg : genArith args m0 op v w = some g)
    (hboth : ¬ (v.isInstruction = true ∧ w.isInstruction = true)) : ∀ f ∈ g.1, f.Spares := by
  intro f hf
  unfold genArith at hg
  simp only [if_neg hboth] at hg
  split_ifs at hg <;> obtain rfl := Option.some.inj hg <;>
    simp only [List.mem_append, List.mem_cons, List.not_mem_nil, or_false, false_or] at hf
  · obtain rfl | rfl | rfl := hf
    · exact ⟨by simp [storeM0], by simp [loadM0], fun _ => rfl⟩
    · exact spares_ld _ _
    · exact spares_alu _ _
  · exact hf ▸ spares_alu _ _
  · obtain hf | rfl | rfl | rfl := hf
    · exact spares_load hf
    · exact ⟨by simp [storeM0], by simp [loadM0], fun _ => rfl⟩
    · exact spares_ld _ _
    · exact spares_alu _ _
  · obtain hf | rfl := hf
    · exact spares_load hf
    · exact spares_alu _ _
  · exact hf ▸ spares_alu _ _
  · exact hf ▸ spares_alu _ _
  · obtain hf | rfl := hf
    · exact spares_load hf
    · exact spares_alu _ _

/-- Arithmetic that does not have two results runs into no assertion. -/
theorem genArith_isSome (args : List String) (m0 : IRValue) (op : OpCode) (hv : v ≠ .null)
    (hboth : ¬ (v.isInstruction = true ∧ w.isInstruction = true)) :
    ∃ g, genArith args m0 op v w = some g := by
  unfold genArith
  simp only [hv, hboth, if_false]
  by_cases hw : w = .null
  · exact ⟨_, if_pos hw⟩
  · rw [if_neg hw]
    split_ifs <;> exact ⟨_, rfl⟩

/-- What arithmetic leaves in the scratch word. -/
def BPFRegs.spillsTo (r : BPFRegs) (h : Held) (v w : IRValue) : IRValue :=
  if v.isInstruction ∨ w.isInstruction ∨ r.aVal = .null then h.m0 else h.a

/-- **Arithmetic** goes through when its operands are ready, and overwrites the scratch word only
when both are leaves. -/
theorem Ready.arith {id : Nat} {op : OpCode} (hready : Ready v w r h) (ht : Tracks r h)
    (hv : v ≠ .null) (hfree : v.isInstruction = false → w.isInstruction = false →
      ¬ Needed (.arith id op v w :: later) h.m0) :
    ∃ g, genInst gl args r (.arith id op v w) = some g ∧
      SlotUse (.arith id op v w) later h g.1 ∧
      (h.after (.arith id op v w) g.1).m0 = r.spillsTo h v w := by
  -- one operand is in `A`: no spill
  have hone : (spill r v w = ([], r)) → (v.isInstruction = true ∨ w.isInstruction = true) →
      ¬ (v.isInstruction = true ∧ w.isInstruction = true) →
      ∃ g, genInst gl args r (.arith id op v w) = some g ∧
        SlotUse (.arith id op v w) later h g.1 ∧
        (h.after (.arith id op v w) g.1).m0 = r.spillsTo h v w := by
    intro hspill hor hboth
    obtain ⟨ga, hga⟩ := genArith_isSome args r.m0Val op hv hboth
    obtain ⟨huse, hm0⟩ := slotUse_spares (.arith id op v w) later (genArith_spares hga hboth) h
    refine ⟨([] ++ ga.1, ⟨.arith id op v w, ga.2⟩), ?_, huse, ?_⟩
    · simp only [genInst, hspill, hga, Option.map_some]
    · rw [BPFRegs.spillsTo, if_pos (by tauto)]
      exact hm0
  cases hready with
  | leaves hvi hwi =>
    have hboth : ¬ (v.isInstruction = true ∧ w.isInstruction = true) := by simp [hvi]
    obtain ⟨ga, hga⟩ := genArith_isSome args r.spilled.m0Val op hv hboth
    have hspares := genArith_spares hga hboth
    refine ⟨((if r.aVal = .null then [] else [storeM0]) ++ ga.1, ⟨.arith id op v w, ga.2⟩), ?_, ?_,
      ?_⟩
    · simp only [genInst, spill_leaves ht.holds hvi hwi, hga, Option.map_some]
    · rw [slotUse_append]
      refine ⟨?_, (slotUse_spares _ _ hspares _).1⟩
      split
      · trivial
      · exact ⟨fun _ => hfree hvi hwi, fun h => by simp [storeM0, loadM0] at h, trivial⟩
    · simp only [Held.after, List.foldl_append]
      rw [(slotUse_spares (.arith id op v w) later hspares _).2, BPFRegs.spillsTo]
      simp only [hvi, hwi, Bool.false_eq_true, false_or]
      split <;> rfl
  | left hvi hwi ha =>
    exact hone (spill_left ha) (.inl hvi) (by simp [hwi])
  | right hvi hwi ha =>
    exact hone (spill_right ha) (.inr hwi) (by simp [hvi])
  | both hvi hwi ha hha hm0 hhm0 =>
    have hw : w ≠ .null := isInstruction_ne hwi rfl
    refine ⟨([loadM0, .stmt [.ALU, .X, bpfOpcode op] .empty], ⟨.arith id op v w, .null⟩), ?_, ?_,
      ?_⟩
    · simp only [genInst, spill_right ha, genArith, hv, hw, hvi, hwi, hm0, if_false, if_true,
        and_self, true_or, Option.map_some]
      rfl
    · refine ⟨fun h => by simp [storeM0, loadM0] at h, fun _ => .inr ?_,
        (slotUse_spares _ _ (fun f hf => ?_) _).1⟩
      · rw [hha, hhm0]
        rfl
      · exact List.mem_singleton.mp hf ▸ spares_alu _ _
    · rw [BPFRegs.spillsTo, if_pos (.inl hvi)]
      rfl

/-! ## Where the compiler does not stop -/

/-- Of two operator nodes, the right one has left the left result where it was. -/
theorem joins_of_assertion {x : Expr} {r₁ r₂ : BPFRegs} (hv : v.isInstruction = true)
    (hw : w.isInstruction = true) (hm0 : r₂.m0Val = if x.joins then .null else r₁.spilled.m0Val)
    (hassert : v = r₂.m0Val ∨ w = r₂.m0Val) : x.joins = false := by
  by_contra hj
  rw [Bool.not_eq_false] at hj
  rw [if_pos hj] at hm0
  rw [hm0] at hassert
  exact hassert.elim (isInstruction_ne hv rfl) (isInstruction_ne hw rfl)

theorem spilled_of_instruction (hv : v.isInstruction = true) (haVal : r.aVal = v) :
    r.spilled = ⟨.null, v⟩ := by
  rw [BPFRegs.spilled, if_neg (haVal ▸ isInstruction_ne hv rfl), haVal]

/-- The code of a leaf is empty. -/
theorem SlotRun.leaf {e : Expr} {m : CodeGenMgr} (hv : TreeValue e m (e.irGen m))
    (hl : e.isLeaf = true) (hrun : SlotRun gl args r h (e.irGen m).code later r' h') :
    r' = r ∧ h' = h := by
  rw [(hv.leaf hl).1] at hrun
  cases hrun
  exact ⟨rfl, rfl⟩

/-- A leaf fits. -/
theorem fits_leaf {e : Expr} (he : e.isLeaf = true) : e.fits = true := by
  cases e <;> first | rfl | cases he

/-- **Behind a tree**, in any run: it fits, its value is in `A`, and `M0_val` is what was moved
away, or nothing when two results have met. -/
theorem tree_regs {e : Expr} (he : e.isArith = true) (hc : e.callFree = true)
    (hl : e.isLeaf = false) {m : CodeGenMgr} (hr : r.Holds)
    (hrun : SlotRun gl args r h (e.irGen m).code later r' h') :
    e.fits = true ∧ r'.aVal = (e.irGen m).val ∧
      r'.m0Val = if e.joins then .null else r.spilled.m0Val := by
  induction e generalizing m r h later r' h' with
  | ref x => cases hl
  | value n => cases hl
  | inv f ps => cases hc
  | op1 op e ih =>
    simp only [Expr.isArith, Bool.and_eq_true, decide_eq_true_eq] at he
    obtain ⟨rfl, he⟩ := he
    have hval := tree_value he hc m
    rw [irGen_uminus] at hrun ⊢
    obtain ⟨r₁, h₁, hrun₁, hrun₂⟩ := hrun.split
    obtain ⟨g, hg, rfl⟩ := hrun₂.inst
    obtain ⟨ha, hm0⟩ := genInst_arith_regs hg
    rw [if_neg fun hboth => Bool.false_ne_true hboth.2] at hm0
    cases hle : e.isLeaf with
    | true =>
      obtain ⟨rfl, rfl⟩ := hrun₁.leaf hval hle
      rw [spill_leaves hr (hval.leaf hle).2.2 rfl] at hm0
      refine ⟨?_, ha, ?_⟩
      · exact (fits_leaf hle : e.fits = true)
      · rw [Expr.joins, joins_leaf hle]
        exact hm0
    | false =>
      obtain ⟨hfit, haVal, hm0'⟩ := ih he hc hle hr hrun₁
      rw [spill_left haVal] at hm0
      exact ⟨hfit, ha, hm0.trans hm0'⟩
  | op2 op l x ihl ihx =>
    simp only [Expr.isArith, Bool.and_eq_true] at he
    simp only [Expr.callFree, Bool.and_eq_true] at hc
    have hlval := tree_value he.1.2 hc.1 m
    have hxval := tree_value he.2 hc.2 (l.irGen m).mgr
    rw [irGen_binary he.1.1] at hrun ⊢
    obtain ⟨r₂, h₂, hrun₁₂, hrun₃⟩ := hrun.split
    obtain ⟨r₁, h₁, hrun₁, hrun₂⟩ := hrun₁₂.split
    obtain ⟨g, hg, rfl⟩ := hrun₃.inst
    obtain ⟨ha, hm0⟩ := genInst_arith_regs hg
    cases hll : l.isLeaf with
    | true =>
      obtain ⟨rfl, rfl⟩ := hrun₁.leaf hlval hll
      cases hxl : x.isLeaf with
      | true =>
        obtain ⟨rfl, rfl⟩ := hrun₂.leaf hxval hxl
        rw [if_neg (by simp [(hlval.leaf hll).2.2]),
          spill_leaves hr (hlval.leaf hll).2.2 (hxval.leaf hxl).2.2] at hm0
        refine ⟨?_, ha, ?_⟩
        · simp [Expr.fits, fits_leaf hll, fits_leaf hxl, hll]
        · simpa [Expr.joins, hll, hxl, joins_leaf hll, joins_leaf hxl] using hm0
      | false =>
        obtain ⟨hfit, haVal, hm0'⟩ := ihx he.2 hc.2 hxl hr hrun₂
        rw [if_neg (by simp [(hlval.leaf hll).2.2]), spill_right haVal] at hm0
        refine ⟨?_, ha, ?_⟩
        · simp [Expr.fits, fits_leaf hll, hfit, hll]
        · simpa [Expr.joins, hll, hxl, joins_leaf hll] using hm0.trans hm0'
    | false =>
      obtain ⟨hfit₁, haVal₁, hm0₁⟩ := ihl he.1.2 hc.1 hll hr hrun₁
      have hvi := hlval.tree hll
      cases hxl : x.isLeaf with
      | true =>
        obtain ⟨rfl, rfl⟩ := hrun₂.leaf hxval hxl
        rw [if_neg (by simp [(hxval.leaf hxl).2.2]), spill_left haVal₁] at hm0
        refine ⟨?_, ha, ?_⟩
        · simp [Expr.fits, hfit₁, fits_leaf hxl, hxl]
        · simpa [Expr.joins, hll, hxl, joins_leaf hxl] using hm0.trans hm0₁
      | false =>
        have hwi := hxval.tree hxl
        obtain ⟨hfit₂, haVal₂, hm0₂⟩ := ihx he.2 hc.2 hxl (.inr (haVal₁ ▸ hvi)) hrun₂
        rw [if_pos ⟨hvi, hwi⟩, spill_right haVal₂] at hm0
        have hj := joins_of_assertion hvi hwi hm0₂ hm0.2
        refine ⟨?_, ha, ?_⟩
        · simp [Expr.fits, hfit₁, hfit₂, hj]
        · simpa [Expr.joins, hll, hxl] using hm0.1

/-- A tree that runs fits. -/
theorem tree_fits {e : Expr} (he : e.isArith = true) (hc : e.callFree = true) {m : CodeGenMgr}
    (hr : r.Holds) (hrun : SlotRun gl args r h (e.irGen m).code later r' h') :
    e.fits = true ∧ r'.Holds := by
  cases hl : e.isLeaf with
  | true =>
    obtain ⟨rfl, -⟩ := hrun.leaf (tree_value he hc m) hl
    exact ⟨fits_leaf hl, hr⟩
  | false =>
    obtain ⟨hfit, haVal, -⟩ := tree_regs he hc hl hr hrun
    exact ⟨hfit, .inr (haVal ▸ (tree_value he hc m).tree hl)⟩

end

/-! ## The branch at the end of a comparison -/

section

variable {gl : RetGlobals} {args : List String} {r r' : BPFRegs} {h h' : Held} {v w : IRValue}
  {op : OpCode} {t f : String} {later : List Instruction}

theorem spares_jump {o : List BPFConst} {k : KField} {jt jf : Target} {x : BPFFilter}
    (hx : x ∈ [BPFFilter.jump o k jt jf]) : x.Spares := by
  obtain rfl := List.mem_singleton.mp hx
  exact ⟨BPFFilter.noConfusion, BPFFilter.noConfusion, fun _ => rfl⟩

theorem foldl_step_a (fs : List BPFFilter) (h : Held) :
    (fs.foldl Held.step h).a = h.a ∨ (fs.foldl Held.step h).a = .null := by
  induction fs generalizing h with
  | nil => exact .inl rfl
  | cons f fs ih =>
    have hstep : (h.step f).a = h.a ∨ (h.step f).a = .null := by
      unfold Held.step
      split
      · exact .inl rfl
      · exact .inr rfl
      · exact .inl rfl
    rcases ih (h.step f) with hf | hf
    · rw [List.foldl_cons, hf]
      exact hstep
    · exact .inr hf

/-- What `A_val` and `M0_val` are behind a conditional branch. -/
theorem genInst_branch_regs (hop : op.isCmp = true) {g : List BPFFilter × BPFRegs}
    (hg : genInst gl args r (.branch op v w t f) = some g) :
    g.2.aVal = .null ∧ if v.isInstruction ∧ w.isInstruction then
      g.2.m0Val = .null ∧ (v = r.m0Val ∨ w = r.m0Val) else g.2.m0Val = r.m0Val := by
  have hne : op ≠ .INVALID := by
    rintro rfl
    cases hop
  rw [genInst, if_neg hne] at hg
  obtain ⟨gb, hgb, rfl⟩ := Option.map_eq_some_iff.mp hg
  refine ⟨rfl, ?_⟩
  unfold genBranch at hgb
  by_cases hboth : v.isInstruction = true ∧ w.isInstruction = true
  · have hnull : ¬ (v = .null ∨ w = .null) :=
      fun h => h.elim (isInstruction_ne hboth.1 rfl) (isInstruction_ne hboth.2 rfl)
    rw [if_pos hboth]
    simp only [hnull, hboth, if_false, if_true, and_self] at hgb
    split at hgb
    · rename_i hm
      obtain rfl := Option.some.inj hgb
      exact ⟨rfl, hm⟩
    · cases hgb
  · rw [if_neg hboth]
    simp only [if_neg hboth] at hgb
    split_ifs at hgb <;> obtain rfl := Option.some.inj hgb <;> rfl

/-- **A conditional branch** goes through when its operands are ready. -/
theorem Ready.branch (hready : Ready v w r h) (hop : op.isCmp = true) (hv : v ≠ .null)
    (hw : w ≠ .null) : ∃ g, genInst gl args r (.branch op v w t f) = some g ∧
      SlotUse (.branch op v w t f) later h g.1 ∧ (h.after (.branch op v w t f) g.1).m0 = h.m0 := by
  have hne : op ≠ .INVALID := by
    rintro rfl
    cases hop
  have hnull : ¬ (v = .null ∨ w = .null) := fun h => h.elim hv hw
  -- all but a branch on two results
  have hspares : ∀ {fs : List BPFFilter} {m0 : IRValue}, (∀ x ∈ fs, x.Spares) →
      genBranch args r.m0Val op v w t f = some (fs, m0) →
      ∃ g, genInst gl args r (.branch op v w t f) = some g ∧
        SlotUse (.branch op v w t f) later h g.1 ∧
        (h.after (.branch op v w t f) g.1).m0 = h.m0 := by
    intro fs m0 hfs hgb
    obtain ⟨huse, hm0⟩ := slotUse_spares (.branch op v w t f) later hfs h
    refine ⟨(fs, ⟨.null, m0⟩), ?_, huse, hm0⟩
    rw [genInst, if_neg hne, hgb]
    rfl
  cases hready with
  | leaves hvi hwi =>
    refine hspares (fun x hx => ?_) (by
      simp only [genBranch, hnull, hvi, hwi, if_false, Bool.false_eq_true, and_self]; rfl)
    rcases List.mem_append.mp hx with hx | hx
    · exact spares_load hx
    · exact spares_jump hx
  | left hvi hwi ha =>
    exact hspares (fun x hx => spares_jump hx) (by
      simp only [genBranch, hnull, hvi, hwi, if_false, Bool.false_eq_true, and_false, if_true]; rfl)
  | right hvi hwi ha =>
    exact hspares (fun x hx => spares_jump hx) (by
      simp only [genBranch, hnull, hvi, hwi, if_false, Bool.false_eq_true, false_and, if_true]; rfl)
  | both hvi hwi ha hha hm0 hhm0 =>
    refine ⟨([loadM0, .jump [.JMP, .X, bpfOpcode op] (.int 0)
      (.label (if needSwapTarget op then f else t)) (.label (if needSwapTarget op then t else f))],
      ⟨.null, .null⟩), ?_, ⟨fun h => by simp [storeM0, loadM0] at h, fun _ => .inr ?_,
        (slotUse_spares _ _ (fun x hx => spares_jump hx) _).1⟩, rfl⟩
    · simp only [genInst, hne, genBranch, hnull, hvi, hwi, hm0, if_false, if_true, and_self,
        true_or, Option.map_some]
      rfl
    · rw [hha, hhm0]
      rfl

end

end SeccompPolicy
