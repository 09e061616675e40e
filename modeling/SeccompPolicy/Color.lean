import Mathlib.Order.Bounds.Basic
import SeccompPolicy.Cfg
import SeccompPolicy.Lib.Saturate

/-!
# Colouring the CFG: `ColorCode` and `GetPtraceOnlyBB`

Source: `InstRequiresPtrace`, `GetPtraceOnlyBB` and `ColorCode` of `code_gen.cpp`.

`ColorCode` marks the blocks that contain a helper call or an assignment, and the blocks after
one, and records for each the instruction the tracer enters it at: the first one of a block behind
a marked one, the first call or assignment of the others. `GetPtraceOnlyBB` picks, by sweeps over
the candidates until nothing changes, the marked blocks the filter never needs to enter.

The map from blocks to instructions is a list of pairs. The candidates come out of an
`unordered_map`, so their order is not the order of the CFG: `HashOrder` is any order of the keys,
and the results hold for each. The comment "is this BB dominated by itself?" stands over a test
for at most one parent; the model has the test.

## Results

* `mem_colorBlocks`: `ColorCode` marks the coloured blocks (`Colored`).
* `colorCode_exact`: the keys and the start recorded for each, on every CFG in topological order.
* `getPtraceOnlyBB_loop`: the sweeps end; the rounds are those of `Lib.Saturate`.
* `getPtraceOnlyBB_exact`: whatever the order of the hash map, the result is the least set that
  has each ptrace block with at most one parent and each one whose parents it has, with the starts
  of `ptrace_blocks`.
* `mem_getPtraceOnlyBB`: for the marks of `ColorCode` this is `PtraceOnly`.
-/

namespace SeccompPolicy

/-- `unordered_map<BasicBlock*, Instruction*>`: blocks, each with its recorded start. A start is
the index of an instruction of the block; none is a null pointer. -/
abbrev PtraceBasicBlock := List (Nat × Option Nat)

/-- `count`. -/
def PtraceBasicBlock.count (m : PtraceBasicBlock) (b : Nat) : Bool := decide (b ∈ m.map Prod.fst)

/-- `operator[]`, for a key that is there. -/
def PtraceBasicBlock.start (m : PtraceBasicBlock) (b : Nat) : Option Nat := (m.lookup b).getD none

/-- `InstRequiresPtrace`. -/
def Instruction.requiresPtrace : Instruction → Bool
  | .call .. | .store .. => true
  | _ => false

/-- The block holds a helper call or an assignment. -/
def BasicBlock.requiresPtrace (B : BasicBlock) : Bool := B.insts.any Instruction.requiresPtrace

/-- One round of the loop of `ColorCode`. -/
def colorStep (g : List BasicBlock) (m : PtraceBasicBlock) (b : Nat) : PtraceBasicBlock :=
  match g[b]? with
  | none => m
  | some B =>
    if B.parents.any m.count then m ++ [(b, B.firstInst)]
    else
      match B.insts.findIdx? Instruction.requiresPtrace with
      | some k => m ++ [(b, some k)]
      | none => m

/-- The loop of `ColorCode`: `ptrace_blocks`. -/
def colorBlocks (g : List BasicBlock) : PtraceBasicBlock :=
  (List.range g.length).foldl (colorStep g) []

/-- An iteration order of a hash map: the keys in some order, each once. -/
structure HashOrder where
  order : List Nat → List Nat
  perm : ∀ l, (order l).Perm l

/-- The order of insertion. -/
def HashOrder.insertion : HashOrder := ⟨id, fun _ => .refl _⟩

/-- The test of `GetPtraceOnlyBB`: all parents are ptrace-only, or there is at most one parent. -/
def dominated (g : List BasicBlock) (only : List Nat) (b : Nat) : Bool :=
  match g[b]? with
  | none => false
  | some B => B.parents.all (fun p => decide (p ∈ only)) || decide (B.parents.length ≤ 1)

/-- The do/while loop of `GetPtraceOnlyBB` over its candidates. -/
def ptraceOnlyKeys (g : List BasicBlock) (candidates : List Nat) : List Nat :=
  Saturate.saturate (dominated g) (candidates.length + 1) candidates []

/-- `GetPtraceOnlyBB`: each block with the start `ptrace_blocks` records for it. -/
def getPtraceOnlyBB (g : List BasicBlock) (blocks : PtraceBasicBlock) (o : HashOrder) :
    PtraceBasicBlock :=
  (ptraceOnlyKeys g (o.order (blocks.map Prod.fst))).map fun b => (b, blocks.start b)

/-- `ColorCode`: `ptrace_blocks` and `ptrace_only_blocks`. -/
def colorCode (g : List BasicBlock) (o : HashOrder) : PtraceBasicBlock × PtraceBasicBlock :=
  (colorBlocks g, getPtraceOnlyBB g (colorBlocks g) o)

/-- Every block recorded starts at its first instruction. -/
def StartsAtFirst (g : List BasicBlock) (blocks : PtraceBasicBlock) : Prop :=
  ∀ e ∈ blocks, ∀ B ∈ g[e.1]?, e.2 = B.firstInst

instance (g : List BasicBlock) (blocks : PtraceBasicBlock) : Decidable (StartsAtFirst g blocks) :=
  inferInstanceAs (Decidable (∀ e ∈ blocks, ∀ B ∈ g[e.1]?, e.2 = B.firstInst))

theorem StartsAtFirst.start {g : List BasicBlock} {blocks : PtraceBasicBlock}
    (hs : StartsAtFirst g blocks) {b : Nat} {B : BasicBlock} (hB : g[b]? = some B)
    (hb : blocks.count b = true) : blocks.start b = B.firstInst := by
  unfold PtraceBasicBlock.start
  cases hl : blocks.lookup b with
  | none =>
    rw [List.lookup_eq_none_iff] at hl
    simp only [PtraceBasicBlock.count, decide_eq_true_eq, List.mem_map] at hb
    obtain ⟨e, he, rfl⟩ := hb
    exact absurd (hl e he) (by simp)
  | some st =>
    obtain ⟨pre, post, rfl, -⟩ := List.lookup_eq_some_iff.mp hl
    exact hs (b, st) (by simp) B hB

/-! ## The marked blocks -/

/-- The block holds a helper call or an assignment, or comes after one that does. -/
inductive Colored (g : List BasicBlock) : Nat → Prop
  | own {b : Nat} {B : BasicBlock} : g[b]? = some B → B.requiresPtrace = true → Colored g b
  | inherited {b p : Nat} {B : BasicBlock} : g[b]? = some B → p ∈ B.parents → Colored g p →
    Colored g b

theorem PtraceBasicBlock.count_append (m m' : PtraceBasicBlock) (b : Nat) :
    PtraceBasicBlock.count (m ++ m') b = (m.count b || m'.count b) := by
  simp only [PtraceBasicBlock.count, List.map_append, List.mem_append, Bool.decide_or]

theorem PtraceBasicBlock.count_single (b c : Nat) (st : Option Nat) :
    PtraceBasicBlock.count [(c, st)] b = decide (b = c) := by
  simp [PtraceBasicBlock.count]

theorem requiresPtrace_iff (B : BasicBlock) :
    B.requiresPtrace = true ↔ B.insts.findIdx? Instruction.requiresPtrace ≠ none := by
  rw [ne_eq, List.findIdx?_eq_none_iff]
  simp [BasicBlock.requiresPtrace]

/-- One round marks its block, when it is to be marked. -/
theorem colorStep_count {g : List BasicBlock} {m : PtraceBasicBlock} {b : Nat} {B : BasicBlock}
    (hB : g[b]? = some B) (x : Nat) : (colorStep g m b).count x = true ↔ m.count x = true ∨
      (x = b ∧ ((∃ p ∈ B.parents, m.count p = true) ∨ B.requiresPtrace = true)) := by
  unfold colorStep
  simp only [hB]
  by_cases hp : B.parents.any m.count = true
  · have hp' : ∃ p ∈ B.parents, m.count p = true := List.any_eq_true.mp hp
    simp only [hp, if_true, PtraceBasicBlock.count_append, PtraceBasicBlock.count_single,
      Bool.or_eq_true, decide_eq_true_eq, hp', true_or, and_true]
  · have hp' : ¬ ∃ p ∈ B.parents, m.count p = true := fun h => hp (List.any_eq_true.mpr h)
    simp only [if_neg hp, hp', false_or]
    cases hf : B.insts.findIdx? Instruction.requiresPtrace with
    | none =>
      have hr : ¬ B.requiresPtrace = true := fun h => (requiresPtrace_iff B).mp h hf
      simp [hr]
    | some k =>
      have hr : B.requiresPtrace = true := (requiresPtrace_iff B).mpr (by rw [hf]; simp)
      simp only [PtraceBasicBlock.count_append, PtraceBasicBlock.count_single, Bool.or_eq_true,
        decide_eq_true_eq, hr, and_true]

/-- After `n` rounds the marked blocks are the coloured ones among the first `n`: all parents of a
block have been visited before it. -/
theorem colorBlocks_prefix {g : List BasicBlock} (hg : Acyclic g) (n : Nat) (hn : n ≤ g.length)
    (x : Nat) : ((List.range n).foldl (colorStep g) []).count x = true ↔ x < n ∧ Colored g x := by
  induction n generalizing x with
  | zero => simp [PtraceBasicBlock.count]
  | succ n ih =>
    obtain ⟨B, hB⟩ : ∃ B, g[n]? = some B := ⟨_, List.getElem?_eq_getElem (by omega)⟩
    have ih := ih (by omega)
    rw [List.range_succ, List.foldl_append, List.foldl_cons, List.foldl_nil, colorStep_count hB, ih]
    have key : ((∃ p ∈ B.parents,
        ((List.range n).foldl (colorStep g) []).count p = true) ∨ B.requiresPtrace = true) ↔
        Colored g n := by
      constructor
      · rintro (⟨p, hp, hm⟩ | hr)
        · exact .inherited hB hp ((ih p).mp hm).2
        · exact .own hB hr
      · intro hc
        cases hc with
        | own hB' hr =>
          obtain rfl := Option.some.inj (hB.symm.trans hB')
          exact .inr hr
        | inherited hB' hp hc =>
          obtain rfl := Option.some.inj (hB.symm.trans hB')
          exact .inl ⟨_, hp, (ih _).mpr ⟨(hg n B hB _ hp).1, hc⟩⟩
    rw [key]
    constructor
    · rintro (⟨hx, hc⟩ | ⟨rfl, hc⟩)
      · exact ⟨by omega, hc⟩
      · exact ⟨by omega, hc⟩
    · rintro ⟨hx, hc⟩
      by_cases hxn : x = n
      · exact .inr ⟨hxn, hxn ▸ hc⟩
      · exact .inl ⟨by omega, hc⟩

theorem Colored.block {g : List BasicBlock} {b : Nat} (h : Colored g b) : ∃ B, g[b]? = some B := by
  cases h with
  | own hB _ => exact ⟨_, hB⟩
  | inherited hB _ _ => exact ⟨_, hB⟩

/-- **`ColorCode` marks the coloured blocks.** -/
theorem mem_colorBlocks {g : List BasicBlock} (hg : Acyclic g) (x : Nat) :
    (colorBlocks g).count x = true ↔ Colored g x := by
  rw [colorBlocks, colorBlocks_prefix hg g.length (Nat.le_refl _)]
  refine ⟨And.right, fun h => ⟨?_, h⟩⟩
  obtain ⟨B, hB⟩ := h.block
  exact (List.getElem?_eq_some_iff.mp hB).1

/-! ## Keys and starts -/

/-- A block before another: a parent, or a parent of one. -/
def Ancestor (g : List BasicBlock) : Nat → Nat → Prop :=
  Relation.TransGen fun p c => ∃ C, g[c]? = some C ∧ p ∈ C.parents

/-- Some block before `b` holds a helper call or an assignment. -/
def ActsBefore (g : List BasicBlock) (b : Nat) : Prop :=
  ∃ a A, Ancestor g a b ∧ g[a]? = some A ∧ A.requiresPtrace = true

/-- The blocks coloured by their parents are those after a block that acts. -/
theorem actsBefore_iff {g : List BasicBlock} {b : Nat} {B : BasicBlock} (hB : g[b]? = some B) :
    ActsBefore g b ↔ ∃ p ∈ B.parents, Colored g p := by
  constructor
  · rintro ⟨a, A, h, hA, hr⟩
    have : ∃ p, (∃ C, g[b]? = some C ∧ p ∈ C.parents) ∧ Colored g p := by
      clear hB
      induction h with
      | single h => exact ⟨a, h, .own hA hr⟩
      | tail _ h ih =>
        obtain ⟨p, ⟨C, hC, hp⟩, hc⟩ := ih
        exact ⟨_, h, .inherited hC hp hc⟩
    obtain ⟨p, ⟨C, hC, hp⟩, hc⟩ := this
    obtain rfl := Option.some.inj (hB.symm.trans hC)
    exact ⟨p, hp, hc⟩
  · rintro ⟨p, hp, hc⟩
    induction hc generalizing b B with
    | own hA hr => exact ⟨_, _, .single ⟨B, hB, hp⟩, hA, hr⟩
    | inherited hC hq _ ih =>
      obtain ⟨a, A, h, hA, hr⟩ := ih hC hq
      exact ⟨a, A, h.tail ⟨B, hB, hp⟩, hA, hr⟩

/-- What the map records for a block. -/
structure Recorded (g : List BasicBlock) (e : Nat × Option Nat) (B : BasicBlock) : Prop where
  block : g[e.1]? = some B
  inherited : ActsBefore g e.1 → e.2 = B.firstInst
  own : ¬ ActsBefore g e.1 → e.2 = B.insts.findIdx? Instruction.requiresPtrace ∧ e.2 ≠ none

/-- After `n` rounds the keys are in order, each with its start. -/
theorem colorBlocks_recorded {g : List BasicBlock} (hg : Acyclic g) (n : Nat) (hn : n ≤ g.length) :
    (((List.range n).foldl (colorStep g) []).map Prod.fst).Nodup ∧
      ∀ e ∈ (List.range n).foldl (colorStep g) [], e.1 < n ∧ ∃ B, Recorded g e B := by
  induction n with
  | zero => exact ⟨List.nodup_nil, fun e he => absurd he List.not_mem_nil⟩
  | succ n ih =>
    obtain ⟨hnd, hall⟩ := ih (by omega)
    have hmarked := fun x => colorBlocks_prefix hg n (by omega) x
    obtain ⟨B, hB⟩ : ∃ B, g[n]? = some B := ⟨_, List.getElem?_eq_getElem (by omega)⟩
    rw [List.range_succ, List.foldl_append, List.foldl_cons, List.foldl_nil]
    generalize (List.range n).foldl (colorStep g) [] = m at hnd hall hmarked
    have hacts : ActsBefore g n ↔ B.parents.any m.count = true := by
      rw [actsBefore_iff hB, List.any_eq_true]
      refine exists_congr fun p => and_congr_right fun hp => ?_
      rw [hmarked p]
      exact ⟨fun hc => ⟨(hg n B hB p hp).1, hc⟩, And.right⟩
    -- the new entry stands behind keys that are smaller
    have hadd : ∀ st, Recorded g (n, st) B →
        ((m ++ [(n, st)]).map Prod.fst).Nodup ∧
          ∀ e ∈ m ++ [(n, st)], e.1 < n + 1 ∧ ∃ B, Recorded g e B := by
      intro st hst
      constructor
      · rw [List.map_append, List.nodup_append]
        refine ⟨hnd, List.nodup_singleton _, fun a ha b hb => ?_⟩
        obtain ⟨e, he, rfl⟩ := List.mem_map.mp ha
        obtain rfl := List.mem_singleton.mp hb
        exact Nat.ne_of_lt (hall e he).1
      · intro e he
        rcases List.mem_append.mp he with he | he
        · exact ⟨Nat.lt_succ_of_lt (hall e he).1, (hall e he).2⟩
        · obtain rfl := List.mem_singleton.mp he
          exact ⟨Nat.lt_succ_self n, B, hst⟩
    unfold colorStep
    simp only [hB]
    by_cases hp : B.parents.any m.count = true
    · rw [if_pos hp]
      exact hadd _ ⟨hB, fun _ => rfl, fun h => absurd (hacts.mpr hp) h⟩
    · rw [if_neg hp]
      cases hf : B.insts.findIdx? Instruction.requiresPtrace with
      | none => exact ⟨hnd, fun e he => ⟨Nat.lt_succ_of_lt (hall e he).1, (hall e he).2⟩⟩
      | some k =>
        exact hadd _ ⟨hB, fun h => absurd (hacts.mp h) hp, fun _ => ⟨hf.symm, Option.some_ne_none k⟩⟩

theorem PtraceBasicBlock.start_of_mem {m : PtraceBasicBlock} (hnd : (m.map Prod.fst).Nodup)
    {e : Nat × Option Nat} (he : e ∈ m) : m.start e.1 = e.2 := by
  unfold PtraceBasicBlock.start
  obtain ⟨pre, post, rfl⟩ := List.append_of_mem he
  rw [List.map_append, List.map_cons, List.nodup_middle, List.nodup_cons] at hnd
  have hpre : pre.lookup e.1 = none := by
    rw [List.lookup_eq_none_iff]
    intro x hx
    rw [bne_iff_ne]
    exact fun h => hnd.1 (List.mem_append_left _ (List.mem_map.mpr ⟨x, hx, h.symm⟩))
  rw [List.lookup_append, hpre, Option.none_or, List.lookup_cons_self, Option.getD_some]

/-- **What `ColorCode` records**, on every CFG in topological order: the keys of `ptrace_blocks` are
the blocks that hold a helper call or an assignment, or come after one that does. A block after one
starts at its first instruction, another one at its first call or assignment. -/
theorem colorCode_exact {g : List BasicBlock} (hg : Acyclic g) (o : HashOrder) :
    ((colorCode g o).1.map Prod.fst).Nodup ∧
    ∀ b, ((colorCode g o).1.count b = true ↔
        ∃ B, g[b]? = some B ∧ (B.requiresPtrace = true ∨ ActsBefore g b)) ∧
      ∀ B, g[b]? = some B → (colorCode g o).1.count b = true →
        (ActsBefore g b → (colorCode g o).1.start b = B.firstInst) ∧
        (¬ ActsBefore g b → ∃ k, (colorCode g o).1.start b = some k ∧
          B.insts.findIdx? Instruction.requiresPtrace = some k) := by
  obtain ⟨hnd, hall⟩ := colorBlocks_recorded hg g.length (Nat.le_refl _)
  refine ⟨hnd, fun b => ⟨?_, fun B hB hb => ?_⟩⟩
  · refine (mem_colorBlocks hg b).trans ⟨fun h => ?_, ?_⟩
    · cases h with
      | own hB hr => exact ⟨_, hB, .inl hr⟩
      | inherited hB hp hc => exact ⟨_, hB, .inr ((actsBefore_iff hB).mpr ⟨_, hp, hc⟩)⟩
    · rintro ⟨B, hB, hr | hbefore⟩
      · exact .own hB hr
      · obtain ⟨p, hp, hc⟩ := (actsBefore_iff hB).mp hbefore
        exact .inherited hB hp hc
  · obtain ⟨e, he, rfl⟩ := List.mem_map.mp (of_decide_eq_true hb)
    obtain ⟨-, B', hrec⟩ := hall e he
    obtain rfl := Option.some.inj (hB.symm.trans hrec.block)
    have hstart : (colorCode g o).1.start e.1 = e.2 := PtraceBasicBlock.start_of_mem hnd he
    rw [hstart]
    refine ⟨hrec.inherited, fun h => ?_⟩
    obtain ⟨heq, hne⟩ := hrec.own h
    obtain ⟨k, hk⟩ := Option.ne_none_iff_exists'.mp hne
    exact ⟨k, hk, heq.symm.trans hk⟩

theorem oneArm_colored : (colorCode (buildCFG oneArm "open") .insertion).1.count 2 = true ∧
    (colorCode (buildCFG oneArm "open") .insertion).1.start 2 = some 0 := by
  obtain ⟨-, h⟩ := colorCode_exact (buildCFG_acyclic oneArm "open") .insertion
  have hbefore : ActsBefore (buildCFG oneArm "open") 2 :=
    ⟨1, _, .single ⟨_, rfl, List.mem_cons_self⟩, rfl, rfl⟩
  have hcount := (h 2).1.mpr ⟨_, rfl, .inr hbefore⟩
  exact ⟨hcount, ((h 2).2 _ rfl hcount).1 hbefore⟩

/-! ## The ptrace-only blocks -/

/-- A set of ptrace blocks that has each one with at most one parent and each one whose parents it
has. -/
structure OnlyClosed (g : List BasicBlock) (blocks : PtraceBasicBlock) (S : Set Nat) : Prop where
  ptrace : ∀ b ∈ S, blocks.count b = true
  single : ∀ b B, blocks.count b = true → g[b]? = some B → B.parents.length ≤ 1 → b ∈ S
  dominated : ∀ b B, blocks.count b = true → g[b]? = some B → (∀ p ∈ B.parents, p ∈ S) → b ∈ S

theorem dominated_iff {g : List BasicBlock} {S : List Nat} {b : Nat} :
    dominated g S b = true ↔
      ∃ B, g[b]? = some B ∧ ((∀ p ∈ B.parents, p ∈ S) ∨ B.parents.length ≤ 1) := by
  unfold dominated
  cases g[b]? with
  | none => simp
  | some B => simp

/-- **The sweeps end with the least closed set**, whatever order the candidates are in. -/
theorem loop_isLeast {g : List BasicBlock} {blocks : PtraceBasicBlock} {cs T : List Nat}
    (hcs : ∀ b, b ∈ cs ↔ blocks.count b = true)
    (h : DoWhile.Loop (Saturate.sweep (dominated g) cs) [] T) :
    IsLeast {S | OnlyClosed g blocks S} {b | b ∈ T} := by
  have hclosed := Saturate.loop_closed h
  have hleast : ∀ P : Nat → Prop,
      (∀ S, ∀ b ∈ cs, (∀ x ∈ S, P x) → dominated g S b = true → P b) → ∀ x ∈ T, P x :=
    fun P hok => Saturate.loop_least h hok fun x hx => absurd hx List.not_mem_nil
  constructor
  · refine ⟨hleast _ fun S b hb _ _ => (hcs b).mp hb, fun b B hb hB hlen => ?_,
      fun b B hb hB hall => ?_⟩
    · exact hclosed b ((hcs b).mpr hb) (dominated_iff.mpr ⟨B, hB, .inr hlen⟩)
    · exact hclosed b ((hcs b).mpr hb) (dominated_iff.mpr ⟨B, hB, .inl hall⟩)
  · intro S hS
    refine hleast (· ∈ S) fun T b hb hT hdom => ?_
    obtain ⟨B, hB, hall | hlen⟩ := dominated_iff.mp hdom
    · exact hS.dominated b B ((hcs b).mp hb) hB fun p hp => hT p (hall p hp)
    · exact hS.single b B ((hcs b).mp hb) hB hlen

/-- The loop ends with the keys of `ptrace_only_blocks`. -/
theorem getPtraceOnlyBB_loop (g : List BasicBlock) (blocks : PtraceBasicBlock) (o : HashOrder) :
    DoWhile.Loop (Saturate.sweep (dominated g) (o.order (blocks.map Prod.fst))) []
      ((getPtraceOnlyBB g blocks o).map Prod.fst) := by
  have hkeys : (getPtraceOnlyBB g blocks o).map Prod.fst =
      ptraceOnlyKeys g (o.order (blocks.map Prod.fst)) := by
    simp only [getPtraceOnlyBB, List.map_map, Function.comp_def, List.map_id']
  rw [hkeys]
  exact Saturate.saturate_loop _ _ _ (Nat.lt_succ_of_le (List.length_filter_le _ _))

theorem getPtraceOnlyBB_isLeast (g : List BasicBlock) (blocks : PtraceBasicBlock) (o : HashOrder) :
    IsLeast {S | OnlyClosed g blocks S} {b | (getPtraceOnlyBB g blocks o).count b = true} := by
  have hcs : ∀ b, b ∈ o.order (blocks.map Prod.fst) ↔ blocks.count b = true := fun b => by
    rw [(o.perm _).mem_iff, PtraceBasicBlock.count, decide_eq_true_eq]
  have hset : {b | (getPtraceOnlyBB g blocks o).count b = true} =
      {b | b ∈ (getPtraceOnlyBB g blocks o).map Prod.fst} :=
    Set.ext fun b => decide_eq_true_iff
  rw [hset]
  exact loop_isLeast hcs (getPtraceOnlyBB_loop g blocks o)

theorem lookup_graph {β : Type*} (f : Nat → β) {S : List Nat} {b : Nat} (hb : b ∈ S) :
    (S.map fun x => (x, f x)).lookup b = some (f b) := by
  induction S with
  | nil => exact absurd hb List.not_mem_nil
  | cons a S ih =>
    rw [List.map_cons, List.lookup_cons]
    by_cases hab : b = a
    · subst hab
      rw [beq_self_eq_true]
    · rw [beq_eq_false_iff_ne.mpr hab]
      exact ih ((List.mem_cons.mp hb).resolve_left hab)

theorem getPtraceOnlyBB_start {g : List BasicBlock} {blocks : PtraceBasicBlock} {o : HashOrder}
    {b : Nat} (hb : (getPtraceOnlyBB g blocks o).count b = true) :
    (getPtraceOnlyBB g blocks o).start b = blocks.start b := by
  simp only [getPtraceOnlyBB, PtraceBasicBlock.count, List.map_map, Function.comp_def,
    List.map_id', decide_eq_true_eq] at hb
  rw [getPtraceOnlyBB, PtraceBasicBlock.start, lookup_graph _ hb, Option.getD_some]

/-- **`GetPtraceOnlyBB` does not depend on the order of the hash map.** On every CFG, for every map
of ptrace blocks, there is a least set that has each ptrace block with at most one parent and each
one whose parents it has; in any iteration order the loop ends, its blocks are that set, and each is
recorded with the start that `ptrace_blocks` has for it. -/
theorem getPtraceOnlyBB_exact (g : List BasicBlock) (blocks : PtraceBasicBlock) :
    ∃ S, IsLeast {T | OnlyClosed g blocks T} S ∧ ∀ o : HashOrder,
      DoWhile.Loop (Saturate.sweep (dominated g) (o.order (blocks.map Prod.fst))) []
        ((getPtraceOnlyBB g blocks o).map Prod.fst) ∧
      ∀ b, ((getPtraceOnlyBB g blocks o).count b = true ↔ b ∈ S) ∧
        (b ∈ S → (getPtraceOnlyBB g blocks o).start b = blocks.start b) := by
  have hS := getPtraceOnlyBB_isLeast g blocks .insertion
  refine ⟨_, hS, fun o => ⟨getPtraceOnlyBB_loop g blocks o, fun b => ?_⟩⟩
  have hsame := (getPtraceOnlyBB_isLeast g blocks o).unique hS
  have hiff : (getPtraceOnlyBB g blocks o).count b = true ↔
      b ∈ {b | (getPtraceOnlyBB g blocks .insertion).count b = true} := by
    rw [← hsame]
    exact Iff.rfl
  exact ⟨hiff, fun hb => getPtraceOnlyBB_start (hiff.mpr hb)⟩

/-- The least set of coloured blocks that has each one with at most one parent and each one whose
parents it has. -/
inductive PtraceOnly (g : List BasicBlock) : Nat → Prop
  | single {b : Nat} {B : BasicBlock} : g[b]? = some B → Colored g b → B.parents.length ≤ 1 →
    PtraceOnly g b
  | dominated {b : Nat} {B : BasicBlock} : g[b]? = some B → Colored g b →
    (∀ p ∈ B.parents, PtraceOnly g p) → PtraceOnly g b

theorem PtraceOnly.colored {g : List BasicBlock} {b : Nat} (h : PtraceOnly g b) : Colored g b := by
  cases h <;> assumption

/-- **The colouring computes the least set of coloured blocks**, in any iteration order. -/
theorem mem_getPtraceOnlyBB {g : List BasicBlock} (hg : Acyclic g) (o : HashOrder) (x : Nat) :
    (colorCode g o).2.count x = true ↔ PtraceOnly g x := by
  obtain ⟨hclosed, hleast⟩ := getPtraceOnlyBB_isLeast g (colorBlocks g) o
  have hcolored := mem_colorBlocks hg
  constructor
  · have honly : OnlyClosed g (colorBlocks g) {b | PtraceOnly g b} :=
      ⟨fun b hb => (hcolored b).mpr hb.colored,
        fun b B hb hB hlen => .single hB ((hcolored b).mp hb) hlen,
        fun b B hb hB hall => .dominated hB ((hcolored b).mp hb) hall⟩
    exact fun hx => hleast honly hx
  · intro hx
    induction hx with
    | single hB hc hlen => exact hclosed.single _ _ ((hcolored _).mpr hc) hB hlen
    | dominated hB hc _ ih => exact hclosed.dominated _ _ ((hcolored _).mpr hc) hB ih

/-- A ptrace-only block is a ptrace block. -/
theorem ptraceOnly_colored {g : List BasicBlock} (hg : Acyclic g) (o : HashOrder) {b : Nat}
    (hb : (colorCode g o).2.count b = true) : (colorCode g o).1.count b = true :=
  (mem_colorBlocks hg b).mpr ((mem_getPtraceOnlyBB hg o b).mp hb).colored

/-- The start of a ptrace-only block is the one `ColorCode` records. -/
theorem ptraceOnly_start {g : List BasicBlock} (o : HashOrder) {b : Nat}
    (hb : (colorCode g o).2.count b = true) :
    (colorCode g o).2.start b = (colorCode g o).1.start b :=
  getPtraceOnlyBB_start hb

end SeccompPolicy
