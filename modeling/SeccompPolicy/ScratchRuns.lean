import SeccompPolicy.Scratch

/-!
# When one scratch word suffices

By induction over the tree: behind its code its value is in `A`, and the scratch word holds what
it held, or what was in `A`, or, when two results have met in the tree, an inner result that
nothing behind needs (`TreeDone`). `pair_runs` is the step: two operands one after the other, and
the instruction that has them finds both.

What may be overwritten depends on what is still to come, so the statements are about a piece of a
list with the rest behind it. `Follows` says of the rest what the argument needs: of the results
of the two operands it uses none but through the instruction that has them. Results are told apart
by the numbers of their instructions, which lie between those of two managers (`Between`).

## Results

* `pair_leaves`, `pair_left`, `pair_right`, `pair_both`: the four shapes of two operands. Only the
  last has a result that waits.
* `tree_runs`: every tree that fits runs.
* `compare_slots`, `cond_slots`: comparisons and conditions, each in both directions, so that `&&`
  and `||` can be put together from their operands.
* `scratch_suffices_iff`: for a condition without helper calls, from registers that hold older
  results, the scratch word suffices exactly when the condition fits.
* `productFirst_suffices`, `productLast_insufficient`: `(flags + 1) * (mode + 1) == flags + 1`,
  and with its sides exchanged.
-/

namespace SeccompPolicy

section

variable {gl : RetGlobals} {args : List String} {r r₁ r' : BPFRegs} {h h₁ h' : Held}
  {v w : IRValue} {later : List Instruction}

/-! ## What is still needed -/

theorem needed_append {c c' : List Instruction} :
    Needed (c ++ c') v ↔ Needed c v ∨ Needed c' v := by
  simp only [Needed, List.mem_append, or_and_right, exists_or, and_or_left]

theorem needed_cons {i : Instruction} {c : List Instruction} :
    Needed (i :: c) v ↔ v.isInstruction = true ∧ v ∈ i.operands ∨ Needed c v := by
  simp only [Needed, List.mem_cons, exists_eq_or_imp, and_or_left]

theorem Needed.reg? {c : List Instruction} (hn : Needed c v) : ∃ n, v.reg? = some n := by
  have hv := hn.1
  cases v with
  | arith id op a b => exact ⟨id, rfl⟩
  | call id f ps => exact ⟨id, rfl⟩
  | _ => cases hv

theorem below_reg? {n k : Nat} (hv : v.Below n) (hk : v.reg? = some k) : k < n := by
  cases v with
  | arith id op a b => exact Option.some.inj hk ▸ hv
  | call id f ps => exact Option.some.inj hk ▸ hv
  | _ => cases hk

/-- Numbers are `lo` or more and less than `hi`. -/
def Between (lo hi : Nat) (v : IRValue) : Prop := ∀ n, v.reg? = some n → lo ≤ n ∧ n < hi

/-- Of results from number `lo` to `hi`, the list needs at most `v`. -/
def NeedsOnly (lo hi : Nat) (v : IRValue) (code : List Instruction) : Prop :=
  ∀ u n, Needed code u → u.reg? = some n → lo ≤ n → n < hi → u = v

/-- What the code of a number needs of results are results of its own. -/
theorem OwnResults.needed {m : CodeGenMgr} {g : Gen} (hown : OwnResults m g) {u : IRValue} {n : Nat}
    (hu : Needed g.code u) (hn : u.reg? = some n) : m.nextId ≤ n ∧ n < g.mgr.nextId :=
  let ⟨_, j, hj, hmem⟩ := hu
  hown.operands j hj u hmem n hn

/-- What follows the operands of an instruction `i`: of their results it needs none but through
`i`. -/
structure Follows (i : Instruction) (v w : IRValue) (lo hi : Nat) (later : List Instruction) :
    Prop where
  operands : i.operands = [v, w]
  only : ∀ u n, Needed later u → u.reg? = some n → lo ≤ n → n < hi → False

section Follows

variable {i : Instruction} {m : CodeGenMgr} {l x : CodeGenMgr → Gen} {u : IRValue}

/-- What follows the code of the left operand. -/
theorem Follows.needsOnly_left (hf : Follows i (l m).val (x (l m).mgr).val m.nextId
    (x (l m).mgr).mgr.nextId later) (hx : OwnResults (l m).mgr (x (l m).mgr)) :
    NeedsOnly m.nextId (l m).mgr.nextId (l m).val ((x (l m).mgr).code ++ i :: later) := by
  intro u n hu hn hlo hhi
  have hids := hx.ids
  rw [needed_append, needed_cons, hf.operands] at hu
  rcases hu with hu | ⟨-, hu⟩ | hu
  · have := hx.needed hu hn
    omega
  · simp only [List.mem_cons, List.not_mem_nil, or_false] at hu
    rcases hu with rfl | rfl
    · rfl
    · have := hx.value n hn
      omega
  · exact (hf.only u n hu hn hlo (by omega)).elim

/-- What follows the code of the right one. -/
theorem Follows.needsOnly_right (hf : Follows i (l m).val (x (l m).mgr).val m.nextId
    (x (l m).mgr).mgr.nextId later) (hl : OwnResults m (l m)) :
    NeedsOnly (l m).mgr.nextId (x (l m).mgr).mgr.nextId (x (l m).mgr).val (i :: later) := by
  intro u n hu hn hlo hhi
  have hids := hl.ids
  rw [needed_cons, hf.operands] at hu
  rcases hu with ⟨-, hu⟩ | hu
  · simp only [List.mem_cons, List.not_mem_nil, or_false] at hu
    rcases hu with rfl | rfl
    · have := hl.value n hn
      omega
    · rfl
  · exact (hf.only u n hu hn (by omega) hhi).elim

/-- An older result that is not needed behind the instruction is not needed before. -/
theorem Follows.not_needed (hf : Follows i (l m).val (x (l m).mgr).val m.nextId
    (x (l m).mgr).mgr.nextId later) (hl : OwnResults m (l m))
    (hx : OwnResults (l m).mgr (x (l m).mgr)) (hu : u.Below m.nextId) (hn : ¬ Needed later u) :
    ¬ Needed ((x (l m).mgr).code ++ i :: later) u ∧ ¬ Needed (i :: later) u := by
  have hids := hl.ids
  have hi : ¬ Needed (i :: later) u := by
    intro hneed
    obtain ⟨n, hreg⟩ := hneed.reg?
    have hlt := below_reg? hu hreg
    rw [needed_cons, hf.operands] at hneed
    rcases hneed with ⟨-, hneed⟩ | hneed
    · simp only [List.mem_cons, List.not_mem_nil, or_false] at hneed
      rcases hneed with rfl | rfl
      · have := hl.value n hreg
        omega
      · have := hx.value n hreg
        omega
    · exact hn hneed
  refine ⟨fun hneed => ?_, hi⟩
  obtain ⟨n, hreg⟩ := hneed.reg?
  have hlt := below_reg? hu hreg
  rcases needed_append.mp hneed with hneed | hneed
  · have := hx.needed hneed hreg
    omega
  · exact hi hneed

/-- An inner result of the left operand is not needed behind it. -/
theorem Follows.not_needed_inner (hf : Follows i (l m).val (x (l m).mgr).val m.nextId
    (x (l m).mgr).mgr.nextId later) (hx : OwnResults (l m).mgr (x (l m).mgr)) (hne : u ≠ (l m).val)
    (hu : Between m.nextId (l m).mgr.nextId u) : ¬ Needed (i :: later) u := by
  intro hneed
  obtain ⟨n, hreg⟩ := hneed.reg?
  have hbetween := hu n hreg
  have hids := hx.ids
  rw [needed_cons, hf.operands] at hneed
  rcases hneed with ⟨-, hneed⟩ | hneed
  · simp only [List.mem_cons, List.not_mem_nil, or_false] at hneed
    rcases hneed with rfl | rfl
    · exact hne rfl
    · have := hx.value n hreg
      omega
  · exact hf.only u n hneed hreg hbetween.1 (by omega)

end Follows

/-- Two results meet in the left operand, in the right one, or right here. -/
def meets (l x : Expr) : Bool := (!l.isLeaf && !x.isLeaf) || l.joins || x.joins

/-- Behind the code of a tree. -/
structure TreeDone (e : Expr) (m : CodeGenMgr) (g : Gen) (r : BPFRegs) (h : Held) (r' : BPFRegs)
    (h' : Held) : Prop where
  aVal : r'.aVal = g.val
  a : h'.a = g.val
  tracks : Tracks r' h'
  inner : e.joins = true → h'.m0 ≠ g.val ∧ Between m.nextId g.mgr.nextId h'.m0
  kept : e.joins = false → h'.m0 = if r.aVal = .null then h.m0 else h.a

/-- The code of a tree runs, with what is older in the registers. -/
def TreeRuns (gl : RetGlobals) (args : List String) (e : Expr) : Prop :=
  ∀ (m : CodeGenMgr) (r : BPFRegs) (h : Held) (later : List Instruction), Tracks r h →
    h.a.Below m.nextId → h.m0.Below m.nextId →
    NeedsOnly m.nextId (e.irGen m).mgr.nextId (e.irGen m).val later →
    ¬ Needed later h.m0 → (e.joins = true → ¬ Needed later h.a) →
    ∃ r' h', SlotRun gl args r h (e.irGen m).code later r' h' ∧
      TreeDone e m (e.irGen m) r h r' h'

/-- What a run of a tree has left, from `tree_regs` and from what its instructions overwrite. -/
theorem TreeDone.of_run {e : Expr} (he : e.isArith = true) (hc : e.callFree = true)
    (hl : e.isLeaf = false) {m : CodeGenMgr} (ht : Tracks r h)
    (hrun : SlotRun gl args r h (e.irGen m).code later r' h') (ha : h'.a = (e.irGen m).val)
    (hinner : e.joins = true → h'.m0 ≠ (e.irGen m).val ∧
      Between m.nextId (e.irGen m).mgr.nextId h'.m0)
    (hkept : e.joins = false → h'.m0 = if r.aVal = .null then h.m0 else h.a) :
    TreeDone e m (e.irGen m) r h r' h' := by
  obtain ⟨-, haVal, hm0⟩ := tree_regs he hc hl ht.holds hrun
  refine ⟨haVal, ha, ⟨.inr ⟨haVal.trans ha.symm, ?_⟩, ?_⟩, hinner, hkept⟩
  · rw [haVal]
    exact (tree_value he hc m).tree hl
  · cases hj : e.joins with
    | true => exact .inl (by rw [hm0, hj]; rfl)
    | false =>
      rw [hj, if_neg Bool.false_ne_true] at hm0
      rw [hm0, hkept hj, BPFRegs.spilled]
      split
      · exact ht.m0
      · rename_i hne
        exact .inr (ht.a.resolve_left hne).1

/-- Between the code of the operands and the instruction `i` that has them. -/
structure PairDone (l x : Expr) (v w : IRValue) (lo hi : Nat) (r : BPFRegs) (h : Held)
    (r' : BPFRegs) (h' : Held) : Prop where
  ready : Ready v w r' h'
  tracks : Tracks r' h'
  a : h'.a.Below hi
  m0 : h'.m0.Below hi
  inner : meets l x = true → Between lo hi (r'.spillsTo h' v w)
  kept : meets l x = false → r'.spillsTo h' v w = if r.aVal = .null then h.m0 else h.a
  free : v.isInstruction = false → w.isInstruction = false → h' = h

/-- The value of a number is a result of its own code. -/
theorem OwnResults.value_between {m : CodeGenMgr} {g : Gen} (hown : OwnResults m g) :
    Between m.nextId g.mgr.nextId g.val := fun n hn => by
  have := hown.value n hn
  omega

theorem Between.below {lo hi : Nat} (hv : Between lo hi v) : v.Below hi := by
  cases v with
  | arith id op a b => exact (hv id rfl).2
  | call id f ps => exact (hv id rfl).2
  | _ => trivial

/-- Behind a tree the scratch word holds something of before, or a result of the tree. -/
theorem TreeDone.m0_below {e : Expr} {m : CodeGenMgr} {g : Gen} (hd : TreeDone e m g r h r' h')
    (hids : m.nextId ≤ g.mgr.nextId) (ha : h.a.Below m.nextId) (hm0 : h.m0.Below m.nextId) :
    h'.m0.Below g.mgr.nextId := by
  cases hj : e.joins with
  | true => exact (hd.inner hj).2.below
  | false =>
    rw [hd.kept hj]
    split
    · exact hm0.mono hids
    · exact ha.mono hids

end

section Pair

variable {gl : RetGlobals} {args : List String} {r : BPFRegs} {h : Held} {l x : Expr}
  {m : CodeGenMgr} {i : Instruction} {later : List Instruction}

variable (gl args l x m i later r h) in
/-- The code of the operands `l` and `x` runs, up to the instruction `i` that has them. -/
def PairRuns : Prop :=
  ∃ r' h', SlotRun gl args r h ((l.irGen m).code ++ (x.irGen (l.irGen m).mgr).code) (i :: later)
      r' h' ∧
    PairDone l x (l.irGen m).val (x.irGen (l.irGen m).mgr).val m.nextId
      (x.irGen (l.irGen m).mgr).mgr.nextId r h r' h'

/-- Two leaves: no code runs. -/
theorem pair_leaves (hla : l.isArith = true) (hlc : l.callFree = true) (hxa : x.isArith = true)
    (hxc : x.callFree = true) (hll : l.isLeaf = true) (hxl : x.isLeaf = true) (ht : Tracks r h)
    (ha : h.a.Below m.nextId) (hm0 : h.m0.Below m.nextId) :
    PairRuns gl args r h l x m i later := by
  have hids : m.nextId ≤ (x.irGen (l.irGen m).mgr).mgr.nextId :=
    Nat.le_trans (tree_ownResults l hla hlc m).ids (tree_ownResults x hxa hxc (l.irGen m).mgr).ids
  obtain ⟨hcode, hmgr, hvi⟩ := (tree_value hla hlc m).leaf hll
  obtain ⟨hcode', hmgr', hwi⟩ := (tree_value hxa hxc (l.irGen m).mgr).leaf hxl
  rw [PairRuns, hcode, hcode']
  refine ⟨r, h, .nil r h _, .leaves hvi hwi, ht, ha.mono hids, hm0.mono hids, fun hj => ?_,
    fun _ => ?_, fun _ _ => rfl⟩
  · simp [meets, hll, hxl, joins_leaf hll, joins_leaf hxl] at hj
  · simp [BPFRegs.spillsTo, hvi, hwi]

/-- A leaf on the left: only the right operand runs. -/
theorem pair_right (hx : TreeRuns gl args x) (hla : l.isArith = true) (hlc : l.callFree = true)
    (hxa : x.isArith = true) (hxc : x.callFree = true) (hll : l.isLeaf = true)
    (hxl : x.isLeaf = false) (ht : Tracks r h) (ha : h.a.Below m.nextId) (hm0 : h.m0.Below m.nextId)
    (hf : Follows i (l.irGen m).val (x.irGen (l.irGen m).mgr).val m.nextId
      (x.irGen (l.irGen m).mgr).mgr.nextId later)
    (hfree : ¬ Needed later h.m0) (hfreeA : meets l x = true → ¬ Needed later h.a) :
    PairRuns gl args r h l x m i later := by
  have hol := tree_ownResults l hla hlc m
  have hox := tree_ownResults x hxa hxc (l.irGen m).mgr
  have hold := fun {u} hu => hf.not_needed (u := u) hol hox hu
  obtain ⟨hcode, hmgr, hvi⟩ := (tree_value hla hlc m).leaf hll
  have hwi := (tree_value hxa hxc (l.irGen m).mgr).tree hxl
  have hjoins : meets l x = x.joins := by simp [meets, hll, joins_leaf hll]
  obtain ⟨r', h', hrun, hdone⟩ := hx (l.irGen m).mgr r h (i :: later) ht
    (hmgr.symm ▸ ha) (hmgr.symm ▸ hm0) (hf.needsOnly_right hol) (hold hm0 hfree).2
    fun hj => (hold ha (hfreeA (hjoins.trans hj))).2
  have hspills : ∀ v, r'.spillsTo h' v (x.irGen (l.irGen m).mgr).val = h'.m0 := fun v =>
    if_pos (.inr (.inl hwi))
  rw [PairRuns, hcode, List.nil_append]
  refine ⟨r', h', hrun, .right hvi hwi hdone.aVal, hdone.tracks, ?_,
    hdone.m0_below hox.ids (hmgr.symm ▸ ha) (hmgr.symm ▸ hm0), fun hj => ?_, fun hj => ?_,
    fun _ h => absurd (hwi.symm.trans h) Bool.noConfusion⟩
  · rw [hdone.a]
    exact hox.value_between.below
  · rw [hspills]
    have hinner := (hdone.inner (hjoins.symm.trans hj)).2
    exact fun n hn => ⟨Nat.le_trans hol.ids (hinner n hn).1, (hinner n hn).2⟩
  · rw [hspills]
    exact hdone.kept (hjoins.symm.trans hj)

/-- A leaf on the right: only the left operand runs. -/
theorem pair_left (hl : TreeRuns gl args l) (hla : l.isArith = true) (hlc : l.callFree = true)
    (hxa : x.isArith = true) (hxc : x.callFree = true) (hll : l.isLeaf = false)
    (hxl : x.isLeaf = true) (ht : Tracks r h) (ha : h.a.Below m.nextId) (hm0 : h.m0.Below m.nextId)
    (hf : Follows i (l.irGen m).val (x.irGen (l.irGen m).mgr).val m.nextId
      (x.irGen (l.irGen m).mgr).mgr.nextId later)
    (hfree : ¬ Needed later h.m0) (hfreeA : meets l x = true → ¬ Needed later h.a) :
    PairRuns gl args r h l x m i later := by
  have hol := tree_ownResults l hla hlc m
  have hox := tree_ownResults x hxa hxc (l.irGen m).mgr
  have hold := fun {u} hu => hf.not_needed (u := u) hol hox hu
  have hvi := (tree_value hla hlc m).tree hll
  obtain ⟨hcode', hmgr', hwi⟩ := (tree_value hxa hxc (l.irGen m).mgr).leaf hxl
  have hjoins : meets l x = l.joins := by simp [meets, hxl, joins_leaf hxl]
  obtain ⟨r', h', hrun, hdone⟩ := hl m r h ((x.irGen (l.irGen m).mgr).code ++ i :: later) ht ha hm0
    (hf.needsOnly_left hox) (hold hm0 hfree).1 fun hj => (hold ha (hfreeA (hjoins.trans hj))).1
  have hspills : ∀ w, r'.spillsTo h' (l.irGen m).val w = h'.m0 := fun w => if_pos (.inl hvi)
  rw [hcode', List.nil_append] at hrun
  rw [PairRuns, hcode', List.append_nil, hmgr']
  refine ⟨r', h', hrun, .left hvi hwi hdone.aVal, hdone.tracks, ?_, hdone.m0_below hol.ids ha hm0,
    fun hj => ?_, fun hj => ?_, fun h => absurd (hvi.symm.trans h) Bool.noConfusion⟩
  · rw [hdone.a]
    exact hol.value_between.below
  · rw [hspills]
    exact (hdone.inner (hjoins.symm.trans hj)).2
  · rw [hspills]
    exact hdone.kept (hjoins.symm.trans hj)

/-- Nothing behind the left operand needs what its result replaces in the scratch word. -/
theorem Follows.slot_free {r' : BPFRegs} {h' : Held} (hdone : TreeDone l m (l.irGen m) r h r' h')
    (hol : OwnResults m (l.irGen m)) (hox : OwnResults (l.irGen m).mgr (x.irGen (l.irGen m).mgr))
    (ha : h.a.Below m.nextId) (hm0 : h.m0.Below m.nextId)
    (hf : Follows i (l.irGen m).val (x.irGen (l.irGen m).mgr).val m.nextId
      (x.irGen (l.irGen m).mgr).mgr.nextId later)
    (hfree : ¬ Needed later h.m0) (hfreeA : ¬ Needed later h.a) :
    ¬ Needed (i :: later) h'.m0 := by
  cases hlj : l.joins with
  | true => exact hf.not_needed_inner hox (hdone.inner hlj).1 (hdone.inner hlj).2
  | false =>
    rw [hdone.kept hlj]
    split
    · exact (hf.not_needed hol hox hm0 hfree).2
    · exact (hf.not_needed hol hox ha hfreeA).2

/-- Two trees: the left result waits in the scratch word while the right operand runs. -/
theorem pair_both (hl : TreeRuns gl args l) (hx : TreeRuns gl args x) (hla : l.isArith = true)
    (hlc : l.callFree = true) (hxa : x.isArith = true) (hxc : x.callFree = true)
    (hll : l.isLeaf = false) (hxl : x.isLeaf = false) (hj : x.joins = false) (ht : Tracks r h)
    (ha : h.a.Below m.nextId) (hm0 : h.m0.Below m.nextId)
    (hf : Follows i (l.irGen m).val (x.irGen (l.irGen m).mgr).val m.nextId
      (x.irGen (l.irGen m).mgr).mgr.nextId later)
    (hfree : ¬ Needed later h.m0) (hfreeA : meets l x = true → ¬ Needed later h.a) :
    PairRuns gl args r h l x m i later := by
  have hol := tree_ownResults l hla hlc m
  have hox := tree_ownResults x hxa hxc (l.irGen m).mgr
  have hold := fun {u} hu => hf.not_needed (u := u) hol hox hu
  have hvi := (tree_value hla hlc m).tree hll
  have hwi := (tree_value hxa hxc (l.irGen m).mgr).tree hxl
  have hmeets : meets l x = true := by simp [meets, hll, hxl]
  obtain ⟨r₁, h₁, hrun₁, hdone₁⟩ := hl m r h ((x.irGen (l.irGen m).mgr).code ++ i :: later) ht ha
    hm0 (hf.needsOnly_left hox) (hold hm0 hfree).1 fun _ => (hold ha (hfreeA hmeets)).1
  have ha₁ : h₁.a.Below (l.irGen m).mgr.nextId := hdone₁.a ▸ hol.value_between.below
  have hm0₁ := hdone₁.m0_below hol.ids ha hm0
  obtain ⟨r', h', hrun, hdone⟩ := hx (l.irGen m).mgr r₁ h₁ (i :: later) hdone₁.tracks ha₁
    hm0₁ (hf.needsOnly_right hol) (hf.slot_free hdone₁ hol hox ha hm0 hfree (hfreeA hmeets))
    fun h => absurd (hj.symm.trans h) Bool.noConfusion
  have hnull : r₁.aVal ≠ .null := hdone₁.aVal ▸ isInstruction_ne hvi rfl
  have hslot : h'.m0 = (l.irGen m).val := by
    rw [hdone.kept hj, if_neg hnull, hdone₁.a]
  have hregs : r'.m0Val = (l.irGen m).val := by
    obtain ⟨-, -, hm0'⟩ := tree_regs hxa hxc hxl hdone₁.tracks.holds hrun
    rw [hm0', hj, if_neg Bool.false_ne_true, spilled_of_instruction hvi hdone₁.aVal]
  refine ⟨r', h', hrun₁.append hrun,
    .both hvi hwi hdone.aVal hdone.a hregs hslot, hdone.tracks, ?_,
    hdone.m0_below hox.ids ha₁ hm0₁, fun _ => ?_,
    fun h => absurd (hmeets.symm.trans h) Bool.noConfusion,
    fun h => absurd (hvi.symm.trans h) Bool.noConfusion⟩
  · rw [hdone.a]
    exact hox.value_between.below
  · rw [BPFRegs.spillsTo, if_pos (.inl hvi), hslot]
    have hids := hox.ids
    exact fun n hn => ⟨(hol.value_between n hn).1,
      Nat.lt_of_lt_of_le (hol.value_between n hn).2 hids⟩

/-- **The operands of an instruction**, one after the other. -/
theorem pair_runs (hl : l.isLeaf = false → TreeRuns gl args l)
    (hx : x.isLeaf = false → TreeRuns gl args x) (hla : l.isArith = true) (hlc : l.callFree = true)
    (hxa : x.isArith = true) (hxc : x.callFree = true)
    (hfits : l.isLeaf = true ∨ x.isLeaf = true ∨ x.joins = false) (ht : Tracks r h)
    (ha : h.a.Below m.nextId) (hm0 : h.m0.Below m.nextId)
    (hf : Follows i (l.irGen m).val (x.irGen (l.irGen m).mgr).val m.nextId
      (x.irGen (l.irGen m).mgr).mgr.nextId later)
    (hfree : ¬ Needed later h.m0) (hfreeA : meets l x = true → ¬ Needed later h.a) :
    PairRuns gl args r h l x m i later := by
  cases hll : l.isLeaf with
  | true =>
    cases hxl : x.isLeaf with
    | true => exact pair_leaves hla hlc hxa hxc hll hxl ht ha hm0
    | false => exact pair_right (hx hxl) hla hlc hxa hxc hll hxl ht ha hm0 hf hfree hfreeA
  | false =>
    cases hxl : x.isLeaf with
    | true => exact pair_left (hl hll) hla hlc hxa hxc hll hxl ht ha hm0 hf hfree hfreeA
    | false =>
      have hj : x.joins = false := by simpa [hll, hxl] using hfits
      exact pair_both (hl hll) (hx hxl) hla hlc hxa hxc hll hxl hj ht ha hm0 hf hfree hfreeA

end Pair

section

variable {gl : RetGlobals} {args : List String} {r r' : BPFRegs} {h h' : Held}
  {later : List Instruction}

/-- The last instruction of a tree, when its operands are ready. -/
theorem TreeDone.of_ready {e : Expr} (he : e.isArith = true) (hc : e.callFree = true)
    (hl : e.isLeaf = false) {m : CodeGenMgr} {op : OpCode} {id : Nat} {v w : IRValue}
    {code : List Instruction} (ht : Tracks r h)
    (hcode : (e.irGen m).code = code ++ [.arith id op v w])
    (hval : (e.irGen m).val = .arith id op v w) (hid : (e.irGen m).mgr.nextId = id + 1)
    {r₁ : BPFRegs} {h₁ : Held} (hrun : SlotRun gl args r h code ([.arith id op v w] ++ later) r₁ h₁)
    (hready : Ready v w r₁ h₁) (ht₁ : Tracks r₁ h₁) (hv : v ≠ .null)
    (hfree : v.isInstruction = false → w.isInstruction = false →
      ¬ Needed (.arith id op v w :: later) h₁.m0)
    (hinner : e.joins = true → Between m.nextId id (r₁.spillsTo h₁ v w))
    (hkept : e.joins = false → r₁.spillsTo h₁ v w = if r.aVal = .null then h.m0 else h.a) :
    ∃ r' h', SlotRun gl args r h (e.irGen m).code later r' h' ∧
      TreeDone e m (e.irGen m) r h r' h' := by
  obtain ⟨g, hg, huse, hm0⟩ := @Ready.arith gl args _ _ _ _ _ _ _ hready ht₁ hv hfree
  have hwhole : SlotRun gl args r h (e.irGen m).code later g.2
      (h₁.after (.arith id op v w) g.1) := by
    rw [hcode]
    exact hrun.append (.single hg huse)
  refine ⟨_, _, hwhole, .of_run he hc hl ht hwhole (by rw [hval]; rfl) (fun hj => ?_) fun hj => ?_⟩
  · rw [hm0, hval, hid]
    refine ⟨fun heq => ?_, fun n hn => ?_⟩
    · exact Nat.lt_irrefl id (hinner hj id (by rw [heq]; rfl)).2
    · have := hinner hj n hn
      omega
  · rw [hm0]
    exact hkept hj

/-- The code of a minus runs when that of its operand does. -/
theorem TreeRuns.minus {e : Expr} (he : e.isArith = true) (hc : e.callFree = true)
    (hruns : e.isLeaf = false → TreeRuns gl args e) : TreeRuns gl args (.op1 .UMINUS e) := by
  have hea : (Expr.op1 .UMINUS e).isArith = true := by simpa [Expr.isArith] using he
  have hec : (Expr.op1 .UMINUS e).callFree = true := hc
  intro m r h later ht ha hm0 hneeds hfree hfreeA
  have hval := tree_value he hc m
  have hown := tree_ownResults e he hc m
  have hneeded : ∀ u, Needed (.arith (e.irGen m).mgr.nextId .UMINUS (e.irGen m).val .null ::
      later) u → u = (e.irGen m).val ∨ Needed later u := by
    intro u hu
    rw [needed_cons] at hu
    rcases hu with ⟨hi, hu⟩ | hu
    · simp only [Instruction.operands, List.mem_cons, List.not_mem_nil, or_false] at hu
      rcases hu with rfl | rfl
      · exact .inl rfl
      · cases hi
    · exact .inr hu
  have hold : ∀ u : IRValue, u.Below m.nextId → ¬ Needed later u →
      ¬ Needed (.arith (e.irGen m).mgr.nextId .UMINUS (e.irGen m).val .null :: later) u := by
    intro u hu hn hneed
    obtain ⟨n, hreg⟩ := hneed.reg?
    rcases hneeded u hneed with rfl | hlater
    · have := below_reg? hu hreg
      have := hown.value n hreg
      omega
    · exact hn hlater
  cases hle : e.isLeaf with
  | true =>
    obtain ⟨hcode, -, hvi⟩ := hval.leaf hle
    refine TreeDone.of_ready hea hec rfl ht rfl rfl rfl (by rw [hcode]; exact .nil r h _)
      (.leaves hvi rfl) ht hval.notNull
      (fun _ _ => hold _ hm0 hfree) (fun hj => ?_) fun _ => ?_
    · exact absurd ((joins_leaf hle).symm.trans hj) Bool.false_ne_true
    · have hwi : IRValue.null.isInstruction = false := rfl
      simp [BPFRegs.spillsTo, hvi, hwi]
  | false =>
    have hvi := hval.tree hle
    obtain ⟨r₁, h₁, hrun, hdone⟩ := hruns hle m r h
      (.arith (e.irGen m).mgr.nextId .UMINUS (e.irGen m).val .null :: later) ht ha hm0
      (fun u n hu hn hlo hhi => (hneeded u hu).resolve_right fun hlater => by
        obtain rfl := hneeds u n hlater hn hlo (Nat.lt_succ_of_lt hhi)
        exact Nat.lt_irrefl _ (Option.some.inj hn ▸ hhi))
      (hold _ hm0 hfree) fun hj => hold _ ha (hfreeA hj)
    have hspills : r₁.spillsTo h₁ (e.irGen m).val .null = h₁.m0 := if_pos (.inl hvi)
    refine TreeDone.of_ready hea hec rfl ht rfl rfl rfl hrun (.left hvi rfl hdone.aVal)
      hdone.tracks hval.notNull (fun h => absurd (hvi.symm.trans h) Bool.noConfusion)
      (fun hj => ?_) fun hj => ?_
    · rw [hspills]
      exact (hdone.inner hj).2
    · rw [hspills]
      exact hdone.kept hj

/-- The code of a binary operator runs when its operands do, one after the other. -/
theorem TreeRuns.binary {op : OpCode} (hop : op.isBinaryArith = true) {l x : Expr}
    (hla : l.isArith = true) (hlc : l.callFree = true) (hxa : x.isArith = true)
    (hxc : x.callFree = true) (hl : l.isLeaf = false → TreeRuns gl args l)
    (hx : x.isLeaf = false → TreeRuns gl args x)
    (hfits : l.isLeaf = true ∨ x.isLeaf = true ∨ x.joins = false) :
    TreeRuns gl args (.op2 op l x) := by
  have hea : (Expr.op2 op l x).isArith = true := by simp [Expr.isArith, hop, hla, hxa]
  have hec : (Expr.op2 op l x).callFree = true := by simp [Expr.callFree, hlc, hxc]
  intro m r h later ht ha hm0 hneeds hfree hfreeA
  have hgen : (Expr.op2 op l x).irGen m = genBinary op l.irGen x.irGen m := irGen_binary hop l x m
  have hvl := tree_value hla hlc m
  have hol := tree_ownResults l hla hlc m
  have hox := tree_ownResults x hxa hxc (l.irGen m).mgr
  rw [hgen] at hneeds
  have hf : Follows (.arith (x.irGen (l.irGen m).mgr).mgr.nextId op (l.irGen m).val
      (x.irGen (l.irGen m).mgr).val) (l.irGen m).val (x.irGen (l.irGen m).mgr).val m.nextId
      (x.irGen (l.irGen m).mgr).mgr.nextId later := by
    refine ⟨rfl, fun u n hu hn hlo hhi => ?_⟩
    obtain rfl := hneeds u n hu hn hlo (Nat.lt_succ_of_lt hhi)
    exact Nat.lt_irrefl _ (Option.some.inj hn ▸ hhi)
  obtain ⟨r', h', hrun, hpair⟩ := pair_runs hl hx hla hlc hxa hxc hfits ht ha hm0 hf hfree hfreeA
  refine TreeDone.of_ready hea hec rfl ht (by rw [hgen]; rfl) (by rw [hgen]; rfl) (by rw [hgen]; rfl)
    hrun hpair.ready hpair.tracks hvl.notNull (fun hvi hwi => ?_) hpair.inner hpair.kept
  rw [hpair.free hvi hwi]
  exact (hf.not_needed hol hox hm0 hfree).2

/-- **Every tree that fits runs.** -/
theorem tree_runs {e : Expr} (he : e.isArith = true) (hc : e.callFree = true)
    (hl : e.isLeaf = false) (hfit : e.fits = true) : TreeRuns gl args e := by
  induction e with
  | ref x => cases hl
  | value n => cases hl
  | inv f ps => cases hc
  | op1 op e ih =>
    simp only [Expr.isArith, Bool.and_eq_true, decide_eq_true_eq] at he
    obtain ⟨rfl, he⟩ := he
    exact .minus he hc fun hle => ih he hc hle hfit
  | op2 op l x ihl ihx =>
    simp only [Expr.isArith, Bool.and_eq_true] at he
    obtain ⟨⟨hop, hla⟩, hxa⟩ := he
    obtain ⟨hlc, hxc⟩ := Bool.and_eq_true_iff.mp hc
    have hne : ¬ (op = .AND ∨ op = .OR) := by
      rintro (rfl | rfl) <;> cases hop
    simp only [Expr.fits, Bool.and_eq_true, Bool.or_eq_true, decide_eq_true_eq,
      Bool.not_eq_true'] at hfit
    exact .binary hop hla hlc hxa hxc (fun hll => ihl hla hlc hll hfit.1.1)
      (fun hxl => ihx hxa hxc hxl hfit.1.2) (by tauto)

end

/-! ## Conditions -/

/-- The registers hold what is older than the manager. -/
structure Older (m : CodeGenMgr) (r : BPFRegs) (h : Held) : Prop where
  tracks : Tracks r h
  a : h.a.Below m.nextId
  m0 : h.m0.Below m.nextId

/-- At the start of a check. -/
theorem older_start (m : CodeGenMgr) : Older m {} {} :=
  ⟨⟨.inl rfl, .inl rfl⟩, trivial, trivial⟩

/-- The code of a condition: it needs no older result, and runs from older ones exactly when it
fits. -/
structure CondSlots (gl : RetGlobals) (args : List String) (gen : CodeGenMgr → Gen) (fits : Bool) :
    Prop where
  ids : ∀ m, m.nextId ≤ (gen m).mgr.nextId
  needed : ∀ m u n, Needed (gen m).code u → u.reg? = some n → m.nextId ≤ n
  runs : fits = true → ∀ m r h later, Older m r h →
    (∀ u n, Needed later u → u.reg? = some n → (gen m).mgr.nextId ≤ n) →
    ∃ r' h', SlotRun gl args r h (gen m).code later r' h' ∧ Older (gen m).mgr r' h'
  fits : ∀ {m r h later r' h'}, r.Holds → SlotRun gl args r h (gen m).code later r' h' →
    fits = true ∧ r'.Holds

section

variable {gl : RetGlobals} {args : List String}

/-- What is older than the manager is needed by nothing that comes. -/
theorem not_needed_older {m : CodeGenMgr} {later : List Instruction} {u : IRValue} {k : Nat}
    (hu : u.Below m.nextId) (hk : m.nextId ≤ k)
    (hlater : ∀ u n, Needed later u → u.reg? = some n → k ≤ n) : ¬ Needed later u := by
  intro hneed
  obtain ⟨n, hreg⟩ := hneed.reg?
  have := below_reg? hu hreg
  have := hlater u n hneed hreg
  omega

section Compare

variable {op : OpCode} {l x : Expr} (hla : l.isArith = true) (hlc : l.callFree = true)
  (hxa : x.isArith = true) (hxc : x.callFree = true)
include hla hlc hxa hxc

/-- A comparison needs results of its own only. -/
theorem compare_needed {m : CodeGenMgr} {u : IRValue} {n : Nat}
    (hu : Needed (genCompare op l.irGen x.irGen m).code u) (hn : u.reg? = some n) :
    m.nextId ≤ n := by
  have hol := tree_ownResults l hla hlc m
  have hox := tree_ownResults x hxa hxc (l.irGen m).mgr
  have hids := hol.ids
  simp only [genCompare, needed_append, needed_cons, Instruction.operands] at hu
  rcases hu with (hu | hu) | ⟨-, hu⟩ | ⟨-, j, hj, -⟩
  · exact (hol.needed hu hn).1
  · have := hox.needed hu hn
    omega
  · simp only [List.mem_cons, List.not_mem_nil, or_false] at hu
    rcases hu with rfl | rfl
    · exact (hol.value n hn).1
    · have := hox.value n hn
      omega
  · exact absurd hj List.not_mem_nil

/-- A comparison that fits runs from older results. -/
theorem compare_runs (hop : op.isCmp = true) (hfit : (Expr.op2 op l x).fits = true) {m : CodeGenMgr}
    {r : BPFRegs} {h : Held} {later : List Instruction} (hold : Older m r h)
    (hlater : ∀ u n, Needed later u → u.reg? = some n →
      (genCompare op l.irGen x.irGen m).mgr.nextId ≤ n) :
    ∃ r' h', SlotRun gl args r h (genCompare op l.irGen x.irGen m).code later r' h' ∧
      Older (genCompare op l.irGen x.irGen m).mgr r' h' := by
  have hand : ¬ (op = .AND ∨ op = .OR) := by
    rintro (rfl | rfl) <;> cases hop
  have hvl := tree_value hla hlc m
  have hvx := tree_value hxa hxc (l.irGen m).mgr
  have hids : m.nextId ≤ (x.irGen (l.irGen m).mgr).mgr.nextId :=
    Nat.le_trans (tree_ownResults l hla hlc m).ids (tree_ownResults x hxa hxc _).ids
  simp only [Expr.fits, Bool.and_eq_true, Bool.or_eq_true, decide_eq_true_eq,
    Bool.not_eq_true'] at hfit
  have hfits : l.isLeaf = true ∨ x.isLeaf = true ∨ x.joins = false := by tauto
  obtain ⟨r', h', hrun, hpair⟩ := pair_runs
    (fun hll => tree_runs hla hlc hll hfit.1.1) (fun hxl => tree_runs hxa hxc hxl hfit.1.2)
    hla hlc hxa hxc hfits hold.tracks hold.a hold.m0
    (show Follows (.branch op (l.irGen m).val (x.irGen (l.irGen m).mgr).val _ _) _ _ _ _ later from
      ⟨rfl, fun u n hu hn _ hhi => Nat.not_lt_of_le (hlater u n hu hn) hhi⟩)
    (not_needed_older hold.m0 hids hlater) fun _ => not_needed_older hold.a hids hlater
  obtain ⟨g, hg, huse, hm0⟩ := @Ready.branch gl args _ _ _ _ _ _ _ _ hpair.ready hop hvl.notNull
    hvx.notNull
  obtain ⟨hga, hgm⟩ := genInst_branch_regs hop hg
  refine ⟨_, _, hrun.append (.single hg huse), ⟨.inl hga, ?_⟩, ?_, ?_⟩
  · rw [hm0]
    split at hgm
    · exact .inl hgm.1
    · rw [hgm]
      exact hpair.tracks.m0
  · rcases foldl_step_a g.1 h' with ha | ha
    · exact ha ▸ hpair.a
    · exact ha ▸ trivial
  · rw [hm0]
    exact hpair.m0

/-- A comparison that runs fits. -/
theorem compare_fits (hop : op.isCmp = true) {m : CodeGenMgr} {r r' : BPFRegs} {h h' : Held}
    {later : List Instruction} (hr : r.Holds)
    (hrun : SlotRun gl args r h (genCompare op l.irGen x.irGen m).code later r' h') :
    (Expr.op2 op l x).fits = true ∧ r'.Holds := by
  obtain ⟨r₂, h₂, hrun₁₂, hrun₃⟩ := hrun.split
  obtain ⟨r₁, h₁, hrun₁, hrun₂⟩ := hrun₁₂.split
  obtain ⟨g, hg, rfl⟩ := hrun₃.inst
  obtain ⟨hga, hgm⟩ := genInst_branch_regs hop hg
  obtain ⟨hfit₁, hr₁⟩ := tree_fits hla hlc hr hrun₁
  obtain ⟨hfit₂, -⟩ := tree_fits hxa hxc hr₁ hrun₂
  refine ⟨?_, .inl hga⟩
  have hjoins : l.isLeaf = false → x.isLeaf = false → x.joins = false := by
    intro hll hxl
    have hvi := (tree_value hla hlc m).tree hll
    have hwi := (tree_value hxa hxc (l.irGen m).mgr).tree hxl
    obtain ⟨-, -, hm0₂⟩ := tree_regs hxa hxc hxl hr₁ hrun₂
    rw [if_pos ⟨hvi, hwi⟩] at hgm
    exact joins_of_assertion hvi hwi hm0₂ hgm.2
  simp only [Expr.fits, hfit₁, hfit₂, Bool.true_and, Bool.or_eq_true, decide_eq_true_eq,
    Bool.not_eq_true']
  cases hll : l.isLeaf with
  | true => simp
  | false =>
    cases hxl : x.isLeaf with
    | true => simp
    | false => exact .inr (hjoins hll hxl)

/-- **A comparison of two trees.** -/
theorem compare_slots (hop : op.isCmp = true) :
    CondSlots gl args (genCompare op l.irGen x.irGen) (Expr.op2 op l x).fits where
  ids m := Nat.le_trans (tree_ownResults l hla hlc m).ids (tree_ownResults x hxa hxc _).ids
  needed _ _ _ hu hn := compare_needed hla hlc hxa hxc hu hn
  runs hfit _ _ _ _ hold hlater := compare_runs hla hlc hxa hxc hop hfit hold hlater
  fits hr hrun := compare_fits hla hlc hxa hxc hop hr hrun

end Compare

theorem restoreBranchTarget_nextId (m : CodeGenMgr) : m.restoreBranchTarget.nextId = m.nextId := by
  unfold CodeGenMgr.restoreBranchTarget
  split <;> rfl

theorem SlotRun.label {r : BPFRegs} {h : Held} (l : String) (later : List Instruction) :
    SlotRun gl args r h [.label l] later r h := by
  have huse : SlotUse (.label l) later h [.label l] :=
    ⟨BPFFilter.noConfusion, BPFFilter.noConfusion, trivial⟩
  have hg : genInst gl args r (.label l) = some ([.label l], r) := rfl
  exact .single hg huse

/-- A label needs nothing. -/
theorem needed_label {l : String} {c : List Instruction} {u : IRValue} :
    Needed (.label l :: c) u ↔ Needed c u := by
  rw [needed_cons]
  exact or_iff_right fun hu => absurd hu.2 List.not_mem_nil

/-- The shape `AND` and `OR` share: two conditions with a label between them. Managers that differ
in their targets only are the same here. -/
theorem shortCircuit_slots {lhs rhs : CodeGenMgr → Gen} {fits fits' : Bool}
    (hl : CondSlots gl args lhs fits) (hx : CondSlots gl args rhs fits') (label : CodeGenMgr → String)
    (start : CodeGenMgr → CodeGenMgr) (hstart : ∀ m, (start m).nextId = m.nextId) :
    CondSlots gl args (fun m =>
      let a := lhs (start m)
      let b := rhs a.mgr.restoreBranchTarget
      ⟨.null, a.code ++ [.label (label m)] ++ b.code, b.mgr⟩) (fits && fits') := by
  refine ⟨fun m => ?_, fun m u n hu hn => ?_, fun hfit m r h later hold hlater => ?_,
    fun {m r h later r' h'} hr hrun => ?_⟩
  · have hids := hl.ids (start m)
    have hids' := hx.ids (lhs (start m)).mgr.restoreBranchTarget
    rw [hstart] at hids
    rw [restoreBranchTarget_nextId] at hids'
    exact Nat.le_trans hids hids'
  · have hids := hl.ids (start m)
    rw [hstart] at hids
    dsimp only at hu
    rw [List.append_assoc, needed_append, List.singleton_append, needed_label] at hu
    rcases hu with hu | hu
    · exact hstart m ▸ hl.needed (start m) u n hu hn
    · have := hx.needed _ u n hu hn
      rw [restoreBranchTarget_nextId] at this
      omega
  · obtain ⟨hfit, hfit'⟩ := Bool.and_eq_true_iff.mp hfit
    have hids := hx.ids (lhs (start m)).mgr.restoreBranchTarget
    rw [restoreBranchTarget_nextId] at hids
    have hbehind : ∀ u n, Needed ([.label (label m)] ++
        ((rhs (lhs (start m)).mgr.restoreBranchTarget).code ++ later)) u → u.reg? = some n →
        (lhs (start m)).mgr.nextId ≤ n := by
      intro u n hu hn
      rw [List.singleton_append, needed_label, needed_append] at hu
      rcases hu with hu | hu
      · exact restoreBranchTarget_nextId _ ▸ hx.needed _ u n hu hn
      · exact Nat.le_trans hids (hlater u n hu hn)
    obtain ⟨r₁, h₁, hrun₁, hold₁⟩ := hl.runs hfit (start m) r h _
      ⟨hold.tracks, (hstart m).symm ▸ hold.a, (hstart m).symm ▸ hold.m0⟩ hbehind
    obtain ⟨r', h', hrun', hold'⟩ := hx.runs hfit' (lhs (start m)).mgr.restoreBranchTarget r₁ h₁ later
      ⟨hold₁.tracks, (restoreBranchTarget_nextId _).symm ▸ hold₁.a,
        (restoreBranchTarget_nextId _).symm ▸ hold₁.m0⟩ hlater
    exact ⟨r', h', (hrun₁.append (.label _ _)).append hrun', hold'⟩
  · obtain ⟨r₂, h₂, hrun₁₂, hrun₃⟩ := hrun.split
    obtain ⟨r₁, h₁, hrun₁, hrun₂⟩ := hrun₁₂.split
    obtain ⟨g, hg, rfl⟩ := hrun₂.inst
    obtain rfl := Option.some.inj hg
    obtain ⟨hfit, hr₁⟩ := hl.fits hr hrun₁
    obtain ⟨hfit', hr'⟩ := hx.fits hr₁ hrun₃
    exact ⟨Bool.and_eq_true_iff.mpr ⟨hfit, hfit'⟩, hr'⟩

/-- The targets are exchanged, which the numbers do not see. -/
theorem not_slots {gen : CodeGenMgr → Gen} {fits : Bool} (hgen : CondSlots gl args gen fits) :
    CondSlots gl args (genNot gen) fits where
  ids m := hgen.ids { m with trueTarget := m.falseTarget, falseTarget := m.trueTarget }
  needed m := hgen.needed { m with trueTarget := m.falseTarget, falseTarget := m.trueTarget }
  runs hfit m r h later hold hlater :=
    hgen.runs hfit { m with trueTarget := m.falseTarget, falseTarget := m.trueTarget } r h later
      ⟨hold.tracks, hold.a, hold.m0⟩ hlater
  fits hr hrun := hgen.fits hr hrun

/-- **Every condition**, by its tree. -/
theorem cond_slots (e : Expr) (he : e.isCond = true) (hc : e.callFree = true) :
    CondSlots gl args e.branchGen e.fits := by
  have standalone : ∀ e : Expr, e.isArith = true → e.callFree = true → e.isBooleanOp = false →
      CondSlots gl args e.branchGen e.fits := by
    intro e he hc hb
    have hfits : (Expr.op2 .NE e (.value 0)).fits = e.fits := by
      simp [Expr.fits, Expr.isLeaf]
    have hgen : e.branchGen = genCompare .NE e.irGen (Expr.value 0).irGen := by
      funext m
      rw [genBranchCode_standalone hb, irGen_cmp rfl]
    rw [hgen, ← hfits]
    exact compare_slots he hc rfl rfl rfl
  induction e with
  | ref x => exact standalone _ rfl rfl rfl
  | value n => exact standalone _ rfl rfl rfl
  | inv f ps => cases hc
  | op1 op e ih =>
    simp only [Expr.isCond] at he
    split_ifs at he with hop
    · subst hop
      exact not_slots (ih he hc)
    · simp only [Bool.and_eq_true, decide_eq_true_eq] at he
      obtain ⟨rfl, he⟩ := he
      exact standalone _ (by simpa [Expr.isArith] using he) hc rfl
  | op2 op l x ihl ihx =>
    obtain ⟨hlc, hxc⟩ := Bool.and_eq_true_iff.mp hc
    simp only [Expr.isCond] at he
    split_ifs at he with hop
    · obtain ⟨hl, hx⟩ := Bool.and_eq_true_iff.mp he
      have hfits : (Expr.op2 op l x).fits = (l.fits && x.fits) := by
        simp [Expr.fits, hop]
      rw [hfits]
      rcases hop with rfl | rfl
      · exact shortCircuit_slots (ihl hl hlc) (ihx hx hxc) CodeGenMgr.newLabel
          (fun m => { m.saveBranchTarget.bumpLabel with trueTarget := m.newLabel }) fun _ => rfl
      · exact shortCircuit_slots (ihl hl hlc) (ihx hx hxc) CodeGenMgr.newLabel
          (fun m => { m.saveBranchTarget.bumpLabel with falseTarget := m.newLabel }) fun _ => rfl
    · simp only [Bool.and_eq_true, Bool.or_eq_true] at he
      obtain ⟨⟨hop | hop, hl⟩, hx⟩ := he
      · have hgen : (Expr.op2 op l x).branchGen = genCompare op l.irGen x.irGen := by
          funext m
          rw [Expr.branchGen, genBranchCode, if_pos (by cases op <;> first | rfl | cases hop),
            irGen_cmp hop]
        rw [hgen]
        exact compare_slots hl hlc hx hxc hop
      · refine standalone _ ?_ hc (OpCode.not_isBoolean hop)
        simp [Expr.isArith, hop, hl, hx]

/-- **When the scratch word suffices.** For a condition without helper calls, from registers that
hold older results: exactly when no operator has an operator node on its left and, on its right, one
in which two results have to meet. -/
theorem scratch_suffices_iff {e : Expr} (he : e.isCond = true) (hc : e.callFree = true)
    {m : CodeGenMgr} {r : BPFRegs} {h : Held} (hold : Older m r h) :
    ScratchSuffices gl args r h (e.branchGen m).code ↔ e.fits = true := by
  have hslots : CondSlots gl args e.branchGen e.fits := cond_slots e he hc
  constructor
  · rintro ⟨r', h', hrun⟩
    exact (hslots.fits hold.tracks.holds hrun).1
  · intro hfit
    obtain ⟨r', h', hrun, -⟩ := hslots.runs hfit m r h [] hold fun u n hu => by
      obtain ⟨-, j, hj, -⟩ := hu
      exact absurd hj List.not_mem_nil
    exact ⟨r', h', hrun⟩

end

/-- `(flags + 1) * (mode + 1) == flags + 1`, and with its sides exchanged. -/
def productFirst : Expr := .op2 .EQ
  (.op2 .MULT (.op2 .PLUS (.ref "flags") (.value 1)) (.op2 .PLUS (.ref "mode") (.value 1)))
  (.op2 .PLUS (.ref "flags") (.value 1))

def productLast : Expr := .op2 .EQ (.op2 .PLUS (.ref "flags") (.value 1))
  (.op2 .MULT (.op2 .PLUS (.ref "flags") (.value 1)) (.op2 .PLUS (.ref "mode") (.value 1)))

theorem productFirst_suffices :
    ScratchSuffices (.initial 0) openArgs {} {} (productFirst.branchGen {}).code :=
  (scratch_suffices_iff rfl rfl (older_start {})).mpr rfl

theorem productLast_insufficient : ¬ ∀ (gl : RetGlobals) (args : List String) (e : Expr)
    (m : CodeGenMgr), e.isCond = true → e.callFree = true →
      ScratchSuffices gl args {} {} (e.branchGen m).code := by
  intro h
  obtain ⟨r', h', hrun⟩ := h (.initial 0) openArgs productLast {} rfl rfl
  have hslots : CondSlots (.initial 0) openArgs productLast.branchGen productLast.fits :=
    cond_slots productLast rfl rfl
  exact Bool.false_ne_true (hslots.fits (.inl rfl) hrun).1

end SeccompPolicy
