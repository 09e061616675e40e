import SeccompPolicy.ResultStack

/-!
# Lists the filter is generated for

`BPFCodeGen` stops at an instruction on two results unless one of them is in the scratch word.
`Scratch` and `ScratchRuns` settle that for the conditions of a body, one at a time; here it is
settled for the list of a whole body, as it comes out of the passes and the cut.

`scratchMonitor` follows through a list which results are not used yet and which one the scratch
word holds (`Slots`). Behind a helper call or an assignment, whose blocks the tracer runs, it
knows nothing and admits everything. It is a monitor in the sense of `Monitor`, so the passes keep
what it accepts.

## Results

* `genFilters_isSome`: the filter of an accepted list is generated, when it is free of calls and
  assignments. A step of the loop keeps `Slots.Tracked`: the registers hold what the monitor says.
* `tree_slots`, `cond_keepsIdle`, `all_keepsIdle`: the code of a body whose trees fit is accepted.
* `bpfCodeGen_isSome`: the filter of such a body is generated, when the cut keeps calls and
  assignments out of it.
-/

namespace SeccompPolicy

/-- The unused results, the last one first, and what the scratch word holds. -/
structure Slots where
  results : List IRValue
  word : IRValue

/-- Behind a label nothing is left. -/
def Slots.none : Slots := ⟨[], .null⟩

/-- Two results meet in the instruction. -/
def Instruction.joins : Instruction → Bool
  | .arith _ _ a b => a.isInstruction && b.isInstruction
  | .branch op a b _ _ => decide (op ≠ .INVALID) && (a.isInstruction && b.isInstruction)
  | _ => false

/-- The scratch word once an instruction has its operands. An operator on no result finds the last
result there. -/
def Slots.spilled (s : Slots) : Instruction → IRValue
  | .arith _ _ a b =>
    if a.isInstruction || b.isInstruction then s.word else s.results.head?.getD .null
  | _ => s.word

/-- Behind an instruction that is no label. -/
def Slots.after (s : Slots) (i : Instruction) : Slots :=
  ⟨stackAfter s.results i, if i.joins then .null else s.spilled i⟩

/-- The operands of an instruction are where its filters look for them. Behind a branch no result is
left. -/
def Slots.Admits (s : Slots) : Instruction → Prop
  | .arith _ _ a b => a ≠ .null ∧ b.asResult ++ a.asResult <+: s.results ∧
      (a.isInstruction = true → b.isInstruction = true → s.word = a)
  | .branch op a b _ _ =>
    if op = .INVALID then s.results = []
    else a ≠ .null ∧ b ≠ .null ∧ s.results = b.asResult ++ a.asResult ∧
      (a.isInstruction = true → b.isInstruction = true → s.word = a)
  | _ => True

/-- Behind any instruction. -/
def slotsAfter : Option Slots → Instruction → Option Slots
  | _, .label _ => some .none
  | s, i => if i.requiresPtrace then Option.none else s.map fun s => s.after i

/-- The monitor of the scratch word. -/
def scratchMonitor : Monitor (Option Slots) where
  start := some .none
  after := slotsAfter
  Admits s i := ∀ s' ∈ s, s'.Admits i
  after_label _ _ := rfl
  admits_label _ _ := fun _ _ => trivial
  after_rename s _ i := by cases i <;> rfl
  admits_rename s _ i := by cases i <;> exact Iff.rfl
  after_isDirectJMP s i _ hi := by
    cases i with
    | branch op a b t f =>
      obtain rfl : op = .INVALID := by simpa [Instruction.isDirectJMP] using hi
      cases s <;> rfl
    | _ => cases hi

theorem scratchMonitor_after (s : Option Slots) (i : Instruction) :
    scratchMonitor.after s i = slotsAfter s i := rfl

theorem scratchMonitor_foldl (code : List Instruction) (s : Option Slots) :
    code.foldl scratchMonitor.after s = code.foldl slotsAfter s := rfl

/-! ## The filters of what is admitted -/

/-- The registers of the loop hold what the monitor says. -/
structure Slots.Tracked (s : Slots) (r : BPFRegs) : Prop where
  results : ∀ v ∈ s.results, v.isInstruction = true
  newest : ∀ v ∈ s.results.head?, r.aVal = v
  word : ∀ v ∈ s.results.tail, s.word = v → r.m0Val = v
  holds : r.Holds

/-- Without results there is nothing to say. -/
theorem tracked_nil {r : BPFRegs} (hr : r.Holds) (w : IRValue) : Slots.Tracked ⟨[], w⟩ r where
  results v hv := absurd hv List.not_mem_nil
  newest v hv := by cases hv
  word v hv := absurd hv List.not_mem_nil
  holds := hr

section Step

variable {gl : RetGlobals} {args : List String} {r : BPFRegs} {s : Slots} {a b : IRValue}
  {op : OpCode}

theorem asResult_of_instruction {v : IRValue} (hv : v.isInstruction = true) : v.asResult = [v] := by
  simp [IRValue.asResult, hv]

theorem asResult_of_leaf {v : IRValue} (hv : v.isInstruction = false) : v.asResult = [] := by
  simp [IRValue.asResult, hv]

/-- The operands of an operator or a comparison are at hand. -/
theorem Slots.Tracked.both (ht : s.Tracked r) (hpre : b.asResult ++ a.asResult <+: s.results)
    (hword : a.isInstruction = true → b.isInstruction = true → s.word = a)
    (ha : a.isInstruction = true) (hb : b.isInstruction = true) :
    r.aVal = b ∧ r.m0Val = a := by
  obtain ⟨rest, hrest⟩ := hpre
  rw [asResult_of_instruction ha, asResult_of_instruction hb] at hrest
  exact ⟨ht.newest b (by rw [← hrest]; rfl),
    ht.word a (by rw [← hrest]; exact List.mem_cons_self) (hword ha hb)⟩

/-- An operand that is a result is in `A`, but for the left one of two. -/
theorem Slots.Tracked.newest_operand (ht : s.Tracked r)
    (hpre : b.asResult ++ a.asResult <+: s.results)
    (hres : a.isInstruction = true ∨ b.isInstruction = true) : r.aVal = a ∨ r.aVal = b := by
  obtain ⟨rest, hrest⟩ := hpre
  by_cases hb : b.isInstruction = true
  · rw [asResult_of_instruction hb] at hrest
    exact .inr (ht.newest b (by rw [← hrest]; rfl))
  · have ha := hres.resolve_right hb
    rw [asResult_of_instruction ha, asResult_of_leaf (Bool.not_eq_true _ ▸ hb)] at hrest
    exact .inl (ht.newest a (by rw [← hrest]; rfl))

/-- An operator that is admitted runs into no assertion. -/
theorem Slots.Tracked.arith_isSome (ht : s.Tracked r) {id : Nat}
    (hi : s.Admits (.arith id op a b)) :
    ∃ g, genInst gl args r (.arith id op a b) = some g := by
  obtain ⟨hnull, hpre, hword⟩ := hi
  simp only [genInst]
  by_cases hboth : a.isInstruction = true ∧ b.isInstruction = true
  · obtain ⟨haVal, hm0⟩ := ht.both hpre hword hboth.1 hboth.2
    have hb : b ≠ .null := isInstruction_ne hboth.2 rfl
    rw [spill_right haVal, genArith, if_neg hnull, if_neg hb, if_pos hboth,
      if_pos (.inl hm0.symm)]
    exact ⟨_, rfl⟩
  · obtain ⟨g, hgen⟩ := genArith_isSome args (spill r a b).2.m0Val op hnull hboth
    rw [hgen]
    exact ⟨_, rfl⟩

/-- A result that waits behind an operator is in the scratch word when the monitor says so. -/
theorem Slots.Tracked.arith_word (ht : s.Tracked r) {id : Nat} {g : List BPFFilter × BPFRegs}
    (hg : genInst gl args r (.arith id op a b) = some g) {rest : List IRValue}
    (hrest : b.asResult ++ a.asResult ++ rest = s.results) {v : IRValue} (hv : v ∈ rest)
    (hw : (s.after (.arith id op a b)).word = v) : g.2.m0Val = v := by
  have hm0 := (genInst_arith_regs hg).2
  have hvi := ht.results v (hrest ▸ List.mem_append_right _ hv)
  cases hai : a.isInstruction <;> cases hbi : b.isInstruction <;>
    simp only [Slots.after, Instruction.joins, Slots.spilled, hai, hbi, Bool.and_true,
      Bool.and_false, Bool.or_true, Bool.or_false, Bool.false_eq_true, if_true, if_false,
      and_self, and_false, false_and] at hw hm0
  · -- no result is used: the last one, if there is one, is moved to the scratch word
    rw [asResult_of_leaf hai, asResult_of_leaf hbi, List.nil_append] at hrest
    cases rest with
    | nil => exact absurd hv List.not_mem_nil
    | cons u rest =>
      have hu : r.aVal = u := ht.newest u (by rw [← hrest]; rfl)
      rw [← hrest] at hw
      obtain rfl : u = v := hw
      have hne : r.aVal ≠ .null := hu ▸ isInstruction_ne hvi rfl
      rw [hm0, spill_leaves ht.holds hai hbi, BPFRegs.spilled, if_neg hne, if_neg hne]
      exact hu
  · have hin := ht.newest_operand (a := a) (b := b) ⟨rest, hrest⟩ (.inr hbi)
    have hspill : spill r a b = ([], r) := hin.elim spill_left spill_right
    rw [hm0, hspill]
    refine ht.word v ?_ hw
    rw [← hrest, asResult_of_leaf hai, asResult_of_instruction hbi]
    exact hv
  · have hin := ht.newest_operand (a := a) (b := b) ⟨rest, hrest⟩ (.inl hai)
    have hspill : spill r a b = ([], r) := hin.elim spill_left spill_right
    rw [hm0, hspill]
    refine ht.word v ?_ hw
    rw [← hrest, asResult_of_leaf hbi, asResult_of_instruction hai]
    exact hv
  · exact absurd hw.symm (isInstruction_ne hvi rfl)

/-- Arithmetic. -/
theorem Slots.Tracked.arith (ht : s.Tracked r) {id : Nat} (hi : s.Admits (.arith id op a b)) :
    ∃ g, genInst gl args r (.arith id op a b) = some g ∧
      (s.after (.arith id op a b)).Tracked g.2 := by
  obtain ⟨g, hg⟩ : ∃ g, genInst gl args r (.arith id op a b) = some g := ht.arith_isSome hi
  refine ⟨g, hg, ?_⟩
  have haVal := (genInst_arith_regs hg).1
  have hused : (Instruction.arith id op a b).used = b.asResult ++ a.asResult := used_pair a b
  obtain ⟨rest, hrest⟩ := hi.2.1
  have hafter : (s.after (.arith id op a b)).results = .arith id op a b :: rest := by
    rw [Slots.after, stackAfter, hused, ← hrest, List.drop_left]
    · rfl
    · exact fun l h => by cases h
  refine ⟨?_, ?_, ?_, .inr (by rw [haVal]; rfl)⟩
  · intro v hv
    rw [hafter] at hv
    rcases List.mem_cons.mp hv with rfl | hv
    · rfl
    · exact ht.results v (hrest ▸ List.mem_append_right _ hv)
  · intro v hv
    rw [hafter] at hv
    rw [haVal, Option.some.inj hv]
  · intro v hv hw
    rw [hafter] at hv
    exact ht.arith_word hg hrest hv hw

/-- A branch has its filters when two results are where they should be. -/
theorem genBranch_isSome (args : List String) {m0 : IRValue} (ha : a ≠ .null) (hb : b ≠ .null)
    (hboth : a.isInstruction = true → b.isInstruction = true → m0 = a) (t f : String) :
    ∃ g, genBranch args m0 op a b t f = some g := by
  unfold genBranch
  simp only [ha, hb, or_self, if_false]
  by_cases h : a.isInstruction = true ∧ b.isInstruction = true
  · rw [if_pos h, if_pos (.inl (hboth h.1 h.2).symm)]
    exact ⟨_, rfl⟩
  · rw [if_neg h]
    split_ifs <;> exact ⟨_, rfl⟩

/-- A branch leaves nothing in `A`. -/
theorem Slots.Tracked.branch (ht : s.Tracked r) {t f : String}
    (hi : s.Admits (.branch op a b t f)) :
    ∃ g, genInst gl args r (.branch op a b t f) = some g ∧
      (s.after (.branch op a b t f)).Tracked g.2 := by
  simp only [Slots.Admits] at hi
  by_cases hop : op = .INVALID
  · rw [if_pos hop] at hi
    refine ⟨([], ⟨.null, r.m0Val⟩), if_pos hop, ?_⟩
    have hafter : stackAfter s.results (.branch op a b t f) = [] := by simp [stackAfter, hi, Instruction.result?]
    rw [Slots.after, hafter]
    exact tracked_nil (.inl rfl) _
  · rw [if_neg hop] at hi
    obtain ⟨ha, hb, hres, hword⟩ := hi
    obtain ⟨g, hg⟩ : ∃ g, genBranch args r.m0Val op a b t f = some g :=
      genBranch_isSome args ha hb
        (fun hai hbi => (ht.both (hres ▸ List.prefix_rfl) hword hai hbi).2) t f
    refine ⟨(g.1, ⟨.null, g.2⟩), by simp only [genInst, hop, if_false, hg, Option.map_some], ?_⟩
    have hused : (Instruction.branch op a b t f).used = b.asResult ++ a.asResult := by
      simp only [Instruction.used, Instruction.isDirectJMP, hop]
      exact used_pair a b
    have hafter : stackAfter s.results (.branch op a b t f) = [] := by
      simp [stackAfter, hused, hres, Instruction.result?]
    rw [Slots.after, hafter]
    exact tracked_nil (.inl rfl) _

/-- **What is admitted has its filters.** -/
theorem Slots.Tracked.step (ht : s.Tracked r) {i : Instruction} (hi : s.Admits i)
    (hpure : i.requiresPtrace = false) : ∃ g, genInst gl args r i = some g ∧
      ∀ s' ∈ slotsAfter (some s) i, s'.Tracked g.2 := by
  cases i with
  | label l =>
    refine ⟨_, rfl, fun s' hs' => ?_⟩
    obtain rfl := Option.some.inj hs'
    exact tracked_nil ht.holds .null
  | ret id rval =>
    refine ⟨_, rfl, fun s' hs' => ?_⟩
    obtain rfl := Option.some.inj hs'
    exact ht
  | arith id op a b =>
    obtain ⟨g, hg, hafter⟩ := ht.arith hi
    refine ⟨g, hg, fun s' hs' => ?_⟩
    obtain rfl := Option.some.inj hs'
    exact hafter
  | branch op a b t f =>
    obtain ⟨g, hg, hafter⟩ := ht.branch hi
    refine ⟨g, hg, fun s' hs' => ?_⟩
    obtain rfl := Option.some.inj hs'
    exact hafter
  | call id f ps => cases hpure
  | store a b => cases hpure

/-- **The filter of an accepted list is generated**, when it is free of calls and assignments. -/
theorem genFilters_isSome {code : List Instruction} (ht : s.Tracked r)
    (hacc : scratchMonitor.Accepts (some s) code) (hpure : Pure code) :
    ∃ fs, genFilters gl args r code = some fs := by
  induction code generalizing s r with
  | nil => exact ⟨[], rfl⟩
  | cons i code ih =>
    have hi := hpure i List.mem_cons_self
    obtain ⟨g, hg, hafter⟩ : ∃ g, genInst gl args r i = some g ∧
        ∀ s' ∈ slotsAfter (some s) i, s'.Tracked g.2 := ht.step (hacc.1 s rfl) hi
    obtain ⟨s', hs'⟩ : ∃ s', slotsAfter (some s) i = some s' := by
      cases i <;> first | cases hi; done | exact ⟨_, rfl⟩
    have hrest := hacc.2
    rw [scratchMonitor_after, hs'] at hrest
    obtain ⟨fs, hfs⟩ := ih (hafter s' hs') hrest fun j hj => hpure j (List.mem_cons_of_mem i hj)
    exact ⟨g.1 ++ fs, by simp only [genFilters, hg, hfs, Option.map_some]⟩

end Step

/-! ## The code of a tree -/

/-- Behind a tree: its value is the last result, and the scratch word has what its first operator
moved there, unless two results met in the tree. -/
def Slots.behind (e : Expr) (v : IRValue) (s : Slots) : Slots :=
  if e.isLeaf then s
  else ⟨v :: s.results, if e.joins then .null else s.results.head?.getD .null⟩

/-- From any state the code is accepted, and leaves what `Slots.behind` says or, when it calls a
helper, nothing to know. -/
def TreeSlots (e : Expr) (gen : CodeGenMgr → Gen) : Prop := ∀ m s,
  scratchMonitor.Accepts s (gen m).code ∧
    (gen m).code.foldl slotsAfter s =
      if e.callFree then s.map (Slots.behind e (gen m).val) else Option.none

theorem accepts_singleton {s : Option Slots} {i : Instruction} (h : ∀ s' ∈ s, s'.Admits i) :
    scratchMonitor.Accepts s [i] := ⟨h, trivial⟩

/-- Where nothing is known nothing becomes known, up to the next label. -/
theorem slotsAfter_none {i : Instruction} (hi : i.isLabel = false) :
    slotsAfter Option.none i = Option.none := by
  cases i <;> first | rfl | cases hi

theorem Slots.behind_leaf {e : Expr} (he : e.isLeaf = true) (v : IRValue) (s : Slots) :
    s.behind e v = s := if_pos he

/-- Behind an operator node. -/
theorem Slots.behind_node {e : Expr} (he : e.isLeaf = false) (v : IRValue) (s : Slots) :
    s.behind e v = ⟨v :: s.results, if e.joins then .null else s.results.head?.getD .null⟩ :=
  if_neg (by simp [he])

section Tree

variable {l x : Expr} {m m' : CodeGenMgr} {g g' : Gen}

/-- The results behind a tree are its value, if that is a result, and those in front of it. -/
theorem Slots.behind_results (hl : TreeValue l m g) (s : Slots) :
    (s.behind l g.val).results = g.val.asResult ++ s.results := by
  cases hll : l.isLeaf with
  | true => rw [behind_leaf hll, asResult_of_leaf (hl.leaf hll).2.2, List.nil_append]
  | false =>
    rw [behind_node hll, asResult_of_instruction (hl.tree hll)]
    rfl

/-- Behind two operands that fit together, the left one is in the scratch word when both are
results. -/
theorem Slots.behind_word (hl : TreeValue l m g) (hx : TreeValue x m' g')
    (hfit : (l.isLeaf || x.isLeaf || !x.joins) = true) (s : Slots)
    (ha : g.val.isInstruction = true) (hb : g'.val.isInstruction = true) :
    ((s.behind l g.val).behind x g'.val).word = g.val := by
  have hll : l.isLeaf = false := Bool.eq_false_iff.mpr fun h =>
    Bool.false_ne_true ((hl.leaf h).2.2.symm.trans ha)
  have hxl : x.isLeaf = false := Bool.eq_false_iff.mpr fun h =>
    Bool.false_ne_true ((hx.leaf h).2.2.symm.trans hb)
  have hj : x.joins = false := by simpa [hll, hxl] using hfit
  rw [behind_node hll, behind_node hxl, hj]
  rfl

/-- What a binary operator leaves. -/
theorem Slots.after_binary (hl : TreeValue l m g) (hx : TreeValue x m' g') (op : OpCode) (s : Slots)
    (id : Nat) : ((s.behind l g.val).behind x g'.val).after (.arith id op g.val g'.val) =
      s.behind (.op2 op l x) (.arith id op g.val g'.val) := by
  have hused : (Instruction.arith id op g.val g'.val).used = g'.val.asResult ++ g.val.asResult :=
    used_pair _ _
  have hstack : stackAfter ((s.behind l g.val).behind x g'.val).results
      (.arith id op g.val g'.val) = .arith id op g.val g'.val :: s.results := by
    rw [stackAfter, hused, behind_results hx, behind_results hl, ← List.append_assoc, List.drop_left]
    · rfl
    · exact fun l h => by cases h
  rw [Slots.after, hstack, behind_node (e := .op2 op l x) rfl, Expr.joins]
  congr 1
  cases hll : l.isLeaf <;> cases hxl : x.isLeaf
  · simp [Instruction.joins, hl.tree hll, hx.tree hxl]
  · have hb := (hx.leaf hxl).2.2
    rw [behind_leaf hxl, behind_node hll, joins_leaf hxl]
    simp [Instruction.joins, Slots.spilled, hl.tree hll, hb]
  · have ha := (hl.leaf hll).2.2
    rw [behind_leaf hll, behind_node hxl, joins_leaf hll]
    simp [Instruction.joins, Slots.spilled, ha, hx.tree hxl]
  · have ha := (hl.leaf hll).2.2
    have hb := (hx.leaf hxl).2.2
    rw [behind_leaf hll, behind_leaf hxl, joins_leaf hll, joins_leaf hxl]
    simp [Instruction.joins, Slots.spilled, ha, hb]

/-- What a minus leaves. -/
theorem Slots.after_minus (hl : TreeValue l m g) (s : Slots) (id : Nat) :
    (s.behind l g.val).after (.arith id .UMINUS g.val .null) =
      s.behind (.op1 .UMINUS l) (.arith id .UMINUS g.val .null) := by
  have hused : (Instruction.arith id .UMINUS g.val .null).used = g.val.asResult := used_pair _ _
  have hstack : stackAfter (s.behind l g.val).results (.arith id .UMINUS g.val .null) =
      .arith id .UMINUS g.val .null :: s.results := by
    rw [stackAfter, hused, behind_results hl, List.drop_left]
    · rfl
    · exact fun l h => by cases h
  have hnull : IRValue.null.isInstruction = false := rfl
  rw [Slots.after, hstack, behind_node (e := .op1 .UMINUS l) rfl, Expr.joins]
  congr 1
  cases hll : l.isLeaf with
  | true =>
    rw [behind_leaf hll, joins_leaf hll]
    simp [Instruction.joins, Slots.spilled, (hl.leaf hll).2.2, hnull]
  | false =>
    rw [behind_node hll]
    simp [Instruction.joins, Slots.spilled, hl.tree hll, hnull]

/-- The operands of a node that fits are where its filters look for them. -/
theorem Slots.behind_operands (hl : TreeValue l m g) (hx : TreeValue x m' g')
    (hfit : (l.isLeaf || x.isLeaf || !x.joins) = true) (s : Slots) :
    ((s.behind l g.val).behind x g'.val).results = g'.val.asResult ++ g.val.asResult ++ s.results ∧
      (g.val.isInstruction = true → g'.val.isInstruction = true →
        ((s.behind l g.val).behind x g'.val).word = g.val) :=
  ⟨by rw [behind_results hx, behind_results hl, List.append_assoc], behind_word hl hx hfit s⟩

end Tree

/-- The code of two operands, the second behind the first. -/
theorem TreeSlots.pair {l x : Expr} (hl : TreeSlots l l.irGen) (hx : TreeSlots x x.irGen)
    (m : CodeGenMgr) (s : Option Slots) :
    scratchMonitor.Accepts s ((l.irGen m).code ++ (x.irGen (l.irGen m).mgr).code) ∧
      ((l.irGen m).code ++ (x.irGen (l.irGen m).mgr).code).foldl slotsAfter s =
        if l.callFree && x.callFree then
          s.map fun s => (s.behind l (l.irGen m).val).behind x (x.irGen (l.irGen m).mgr).val
        else Option.none := by
  obtain ⟨hacc, hend⟩ := hl m s
  obtain ⟨hacc', hend'⟩ := hx (l.irGen m).mgr ((l.irGen m).code.foldl slotsAfter s)
  refine ⟨Monitor.accepts_append.mpr ⟨hacc, hacc'⟩, ?_⟩
  rw [List.foldl_append, hend', hend]
  cases l.callFree <;> cases x.callFree <;> simp [Function.comp_def]

/-- A node that fits, on two operands. -/
theorem TreeSlots.binary {op : OpCode} {l x : Expr} (hop : op.isBinaryArith = true)
    (hla : l.isArith = true) (hxa : x.isArith = true)
    (hfit : (l.isLeaf || x.isLeaf || !x.joins) = true) (hl : TreeSlots l l.irGen)
    (hx : TreeSlots x x.irGen) : TreeSlots (.op2 op l x) (Expr.op2 op l x).irGen := by
  intro m s
  rw [irGen_binary hop]
  obtain ⟨hacc, hend⟩ := hl.pair hx m s
  have hcall : (Expr.op2 op l x).callFree = (l.callFree && x.callFree) := rfl
  simp only [genBinary]
  rw [Monitor.accepts_append, List.foldl_concat, scratchMonitor_foldl, hend, hcall]
  cases hfree : l.callFree && x.callFree with
  | false => exact ⟨⟨hacc, accepts_singleton fun s' hs' => by cases hs'⟩, rfl⟩
  | true =>
    obtain ⟨hlc, hxc⟩ := Bool.and_eq_true_iff.mp hfree
    have hlv := tree_value hla hlc m
    have hxv := tree_value hxa hxc (l.irGen m).mgr
    refine ⟨⟨hacc, accepts_singleton fun s' hs' => ?_⟩, ?_⟩
    · obtain ⟨s₀, -, rfl⟩ := Option.map_eq_some_iff.mp hs'
      obtain ⟨hres, hword⟩ := Slots.behind_operands hlv hxv hfit s₀
      exact ⟨hlv.notNull, hres ▸ List.prefix_append _ _, hword⟩
    · cases s with
      | none => rfl
      | some s₀ => exact congrArg some (Slots.after_binary hlv hxv op s₀ _)

/-- A minus. -/
theorem TreeSlots.minus {e : Expr} (he : e.isArith = true) (h : TreeSlots e e.irGen) :
    TreeSlots (.op1 .UMINUS e) (Expr.op1 .UMINUS e).irGen := by
  intro m s
  rw [irGen_uminus]
  obtain ⟨hacc, hend⟩ := h m s
  have hcall : (Expr.op1 .UMINUS e).callFree = e.callFree := rfl
  simp only [genMinus]
  rw [Monitor.accepts_append, List.foldl_concat, scratchMonitor_foldl, hend, hcall]
  cases hc : e.callFree with
  | false => exact ⟨⟨hacc, accepts_singleton fun s' hs' => by cases hs'⟩, rfl⟩
  | true =>
    have hv := tree_value he hc m
    refine ⟨⟨hacc, accepts_singleton fun s' hs' => ?_⟩, ?_⟩
    · obtain ⟨s₀, -, rfl⟩ := Option.map_eq_some_iff.mp hs'
      refine ⟨hv.notNull, ?_, fun _ h => by cases h⟩
      rw [Slots.behind_results hv]
      exact List.prefix_append _ _
    · cases s with
      | none => rfl
      | some s₀ => exact congrArg some (Slots.after_minus hv s₀ _)

/-- **Every tree that fits.** -/
theorem tree_slots (e : Expr) (he : e.isArith = true) (hfit : e.fits = true) :
    TreeSlots e e.irGen := by
  have leaf : ∀ (e : Expr) (v : IRValue), e.isLeaf = true → e.callFree = true →
      TreeSlots e fun m => ⟨v, [], m⟩ := by
    intro e v hl hc m s
    refine ⟨trivial, ?_⟩
    cases s with
    | none => rw [hc]; rfl
    | some s => rw [hc, if_pos rfl, Option.map_some, Slots.behind_leaf hl]; rfl
  induction e with
  | ref x => exact leaf _ _ rfl rfl
  | value n => exact leaf _ _ rfl rfl
  | inv f ps => exact fun m s => ⟨accepts_singleton fun _ _ => trivial, rfl⟩
  | op1 op e ih =>
    simp only [Expr.isArith, Bool.and_eq_true, decide_eq_true_eq] at he
    obtain ⟨rfl, he⟩ := he
    exact .minus he (ih he hfit)
  | op2 op l x ihl ihx =>
    simp only [Expr.isArith, Bool.and_eq_true] at he
    obtain ⟨⟨hop, hla⟩, hxa⟩ := he
    have hne : ¬ (op = .AND ∨ op = .OR) := by
      rintro (rfl | rfl) <;> cases hop
    simp only [Expr.fits, Bool.and_eq_true, hne, decide_false, Bool.false_or] at hfit
    exact .binary hop hla hxa hfit.2 (ihl hla hfit.1.1) (ihx hxa hfit.1.2)

/-! ## The code of a body -/

/-- No result is unused. -/
def Idle (s : Option Slots) : Prop := ∀ s' ∈ s, s'.results = []

/-- The code can stand where no result is unused, and leaves none. -/
def KeepsIdle (code : List Instruction) : Prop := ∀ s, Idle s →
  scratchMonitor.Accepts s code ∧ Idle (code.foldl slotsAfter s)

theorem KeepsIdle.append {c c' : List Instruction} (h : KeepsIdle c) (h' : KeepsIdle c') :
    KeepsIdle (c ++ c') := by
  intro s hs
  obtain ⟨hacc, hidle⟩ := h s hs
  obtain ⟨hacc', hidle'⟩ := h' _ hidle
  exact ⟨Monitor.accepts_append.mpr ⟨hacc, hacc'⟩, by rwa [List.foldl_append]⟩

theorem keepsIdle_nil : KeepsIdle [] := fun _ hs => ⟨trivial, hs⟩

theorem keepsIdle_label (l : String) : KeepsIdle [.label l] := fun _ _ =>
  ⟨accepts_singleton fun _ _ => trivial, fun _ h => by cases h; rfl⟩

/-- A jump or a return. -/
theorem keepsIdle_leave {i : Instruction} (hi : i.requiresPtrace = false) (hl : i.isLabel = false)
    (hadmits : ∀ s : Slots, s.results = [] → s.Admits i) (hafter : stackAfter [] i = []) :
    KeepsIdle [i] := by
  intro s hs
  refine ⟨accepts_singleton fun s' hs' => hadmits s' (hs s' hs'), fun s' hs' => ?_⟩
  cases s with
  | none =>
    rw [List.foldl_cons, slotsAfter_none hl] at hs'
    cases hs'
  | some s₀ =>
    have hstep : slotsAfter (some s₀) i = some (s₀.after i) := by
      cases i <;> first | rfl | (cases hl; done) | cases hi
    rw [List.foldl_cons, hstep] at hs'
    obtain rfl := Option.some.inj hs'
    rw [Slots.after, hs s₀ rfl, hafter]

/-- A comparison of trees that fit together. -/
theorem compare_keepsIdle {op : OpCode} {l x : Expr} (hop : op.isCmp = true)
    (hla : l.isArith = true) (hxa : x.isArith = true) (hfit : (Expr.op2 op l x).fits = true)
    (m : CodeGenMgr) : KeepsIdle (genCompare op l.irGen x.irGen m).code := by
  have hne : ¬ (op = .AND ∨ op = .OR) := by
    rintro (rfl | rfl) <;> cases hop
  have hinv : op ≠ .INVALID := by
    rintro rfl
    cases hop
  simp only [Expr.fits, Bool.and_eq_true, hne, decide_false, Bool.false_or] at hfit
  intro s hs
  obtain ⟨hacc, hend⟩ := (tree_slots l hla hfit.1.1).pair (tree_slots x hxa hfit.1.2) m s
  simp only [genCompare]
  rw [Monitor.accepts_append, List.foldl_concat, scratchMonitor_foldl, hend]
  cases hfree : l.callFree && x.callFree with
  | false => exact ⟨⟨hacc, accepts_singleton fun s' hs' => by cases hs'⟩, fun s' hs' => by cases hs'⟩
  | true =>
    obtain ⟨hlc, hxc⟩ := Bool.and_eq_true_iff.mp hfree
    have hlv := tree_value hla hlc m
    have hxv := tree_value hxa hxc (l.irGen m).mgr
    cases s with
    | none => exact ⟨⟨hacc, accepts_singleton fun s' hs' => by cases hs'⟩, fun s' hs' => by cases hs'⟩
    | some s₀ =>
      obtain ⟨hres, hword⟩ := Slots.behind_operands hlv hxv hfit.2 s₀
      rw [hs s₀ rfl, List.append_nil] at hres
      refine ⟨⟨hacc, accepts_singleton fun s' hs' => ?_⟩, fun s' hs' => ?_⟩
      · obtain rfl := Option.some.inj hs'
        simp only [Slots.Admits, if_neg hinv]
        exact ⟨hlv.notNull, hxv.notNull, hres, hword⟩
      · obtain rfl := Option.some.inj hs'
        have hused := used_pair (l.irGen m).val (x.irGen (l.irGen m).mgr).val
        simp [Slots.after, stackAfter, hres, Instruction.used, Instruction.isDirectJMP, hinv,
          Instruction.operands, hused, Instruction.result?]

/-- Conditions that fit. -/
theorem cond_keepsIdle (e : Expr) (he : e.isCond = true) (hfit : e.fits = true) (m : CodeGenMgr) :
    KeepsIdle (e.branchGen m).code := by
  have standalone : ∀ e : Expr, e.isArith = true → e.fits = true → e.isBooleanOp = false →
      ∀ m, KeepsIdle (e.branchGen m).code := by
    intro e he hfit hb m
    rw [genBranchCode_standalone hb, irGen_cmp rfl]
    exact compare_keepsIdle rfl he rfl (by simp [Expr.fits, Expr.isLeaf, hfit]) m
  induction e generalizing m with
  | ref x => exact standalone _ rfl rfl rfl m
  | value n => exact standalone _ rfl rfl rfl m
  | inv f ps => exact standalone _ rfl rfl rfl m
  | op1 op e ih =>
    simp only [Expr.isCond] at he
    split_ifs at he with hop
    · subst hop
      exact ih he hfit { m with trueTarget := m.falseTarget, falseTarget := m.trueTarget }
    · simp only [Bool.and_eq_true, decide_eq_true_eq] at he
      obtain ⟨rfl, he⟩ := he
      exact standalone _ (by simpa [Expr.isArith] using he) hfit rfl m
  | op2 op l x ihl ihx =>
    simp only [Expr.isCond] at he
    split_ifs at he with hop
    · obtain ⟨hl, hx⟩ := Bool.and_eq_true_iff.mp he
      obtain ⟨hlf, hxf⟩ : l.fits = true ∧ x.fits = true := by
        simpa [Expr.fits, hop] using hfit
      rcases hop with rfl | rfl
      · exact ((ihl hl hlf _).append (keepsIdle_label _)).append (ihx hx hxf _)
      · exact ((ihl hl hlf _).append (keepsIdle_label _)).append (ihx hx hxf _)
    · simp only [Bool.and_eq_true, Bool.or_eq_true] at he
      obtain ⟨⟨hop | hop, hl⟩, hx⟩ := he
      · rw [branchGen_cmp hop]
        exact compare_keepsIdle hop hl hx hfit m
      · refine standalone _ ?_ hfit (OpCode.not_isBoolean hop) m
        simp [Expr.isArith, hop, hl, hx]

/-- The head of an `if`. -/
theorem genIfHead_keepsIdle {c : Expr} (hc : c.isCond = true) (hfit : c.fits = true)
    (m : CodeGenMgr) : KeepsIdle (genIfHead c m).code :=
  (cond_keepsIdle c hc hfit _).append (keepsIdle_label _)

/-- An assignment uses the result it computes. -/
theorem assign_keepsIdle {e : Expr} (he : e.isArith = true) (hfit : e.fits = true) (x : String)
    (m : CodeGenMgr) : KeepsIdle ((e.irGen m).code ++ [.store (e.irGen m).val (.mem x)]) := by
  intro s _
  refine ⟨Monitor.accepts_append.mpr ⟨(tree_slots e he hfit m s).1,
    accepts_singleton fun _ _ => trivial⟩, fun s' hs' => ?_⟩
  rw [List.foldl_concat] at hs'
  cases hs'

mutual

/-- Every tree of the body fits. -/
def Stmt.fits : Stmt → Bool
  | .empty | .perm _ => true
  | .ifThen c t => c.fits && t.fits
  | .ifElse c t e => c.fits && t.fits && e.fits
  | .assign _ e => e.fits
  | .compound ss => allFit ss

@[inherit_doc Stmt.fits]
def allFit : List Stmt → Bool
  | [] => true
  | s :: ss => s.fits && allFit ss

end

mutual

/-- By induction over the statement: no result is unused between two statements. -/
theorem stmt_keepsIdle : ∀ (s : Stmt) (_ : s.wellTyped = true) (_ : s.fits = true) (m : CodeGenMgr),
    KeepsIdle (s.irGen m).code
  | .empty, _, _, m => by simp only [Stmt.irGen]; exact keepsIdle_nil
  | .perm p, _, _, m => by
    simp only [Stmt.irGen]
    exact keepsIdle_leave rfl rfl (fun _ _ => trivial) rfl
  | .ifThen c t, hwt, hfit, m => by
    simp only [Stmt.wellTyped, Bool.and_eq_true] at hwt
    simp only [Stmt.fits, Bool.and_eq_true] at hfit
    simp only [Stmt.irGen]
    exact ((genIfHead_keepsIdle hwt.1 hfit.1 m).append (stmt_keepsIdle t hwt.2 hfit.2 _)).append
      (keepsIdle_label _)
  | .ifElse c t e, hwt, hfit, m => by
    simp only [Stmt.wellTyped, Bool.and_eq_true] at hwt
    simp only [Stmt.fits, Bool.and_eq_true] at hfit
    have hjump : ∀ l l', KeepsIdle [.branch .INVALID .null .null l "", .label l'] := fun l l' =>
      (keepsIdle_leave (i := .branch .INVALID .null .null l "") rfl rfl (fun _ h => h) rfl).append
        (keepsIdle_label l')
    simp only [Stmt.irGen]
    exact ((((genIfHead_keepsIdle hwt.1.1 hfit.1.1 m).append
      (stmt_keepsIdle t hwt.1.2 hfit.1.2 _)).append (hjump _ _)).append
      (stmt_keepsIdle e hwt.2 hfit.2 _)).append (keepsIdle_label _)
  | .assign x e, hwt, hfit, m => by
    simp only [Stmt.irGen]
    exact assign_keepsIdle hwt hfit x m
  | .compound ss, hwt, hfit, m => by
    simp only [Stmt.irGen]
    exact all_keepsIdle ss hwt hfit m

/-- **The code of a body whose trees fit** leaves no result unused. -/
theorem all_keepsIdle : ∀ (ss : List Stmt) (_ : allWellTyped ss = true) (_ : allFit ss = true)
    (m : CodeGenMgr), KeepsIdle (irGenAll ss m).code
  | [], _, _, m => by simp only [irGenAll]; exact keepsIdle_nil
  | s :: ss, hwt, hfit, m => by
    simp only [allWellTyped, Bool.and_eq_true] at hwt
    simp only [allFit, Bool.and_eq_true] at hfit
    simp only [irGenAll]
    exact (stmt_keepsIdle s hwt.1 hfit.1 m).append (all_keepsIdle ss hwt.2 hfit.2 _)

end

/-- **The filter of a body whose trees fit is generated**, when the cut keeps the calls and the
assignments out of it. -/
theorem bpfCodeGen_isSome {ss : List Stmt} (hwt : allWellTyped ss = true) (hfit : allFit ss = true)
    (m : CodeGenMgr) (syscall : String) (o : HashOrder) (gl gl' : RetGlobals) (args : List String)
    (hpure : Pure (checkIR ss m syscall o gl).1) :
    ∃ fs, bpfCodeGen gl' args (checkIR ss m syscall o gl).1 = some fs := by
  have hstart : Idle scratchMonitor.start := fun _ h => by cases h; rfl
  have hacc : scratchMonitor.Accepts scratchMonitor.start (checkIR ss m syscall o gl).1 := by
    obtain ⟨root, hroot, -⟩ : ∃ root, (checkCFG ss m syscall)[0]? = some root ∧
        root.label = syscall := buildCFG_root _ _
    unfold checkIR
    rw [genBPFIR_of_root hroot]
    split
    · exact ⟨fun _ _ => trivial, fun _ _ => trivial, trivial⟩
    · have hblocks := Monitor.accepts_checkCFG
        (all_keepsIdle ss hwt hfit m _ hstart).1 syscall
      exact Monitor.accepts_genBlocks (fun _ _ _ _ => trivial) _ hblocks 0 [] gl _
  obtain ⟨code, hcode⟩ := checkIR_head ss m syscall o gl
  rw [hcode] at hacc hpure ⊢
  exact genFilters_isSome (tracked_nil (.inl rfl) .null) hacc.2 fun i hi =>
    hpure i (List.mem_cons_of_mem _ hi)

end SeccompPolicy
