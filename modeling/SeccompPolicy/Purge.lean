import SeccompPolicy.Cfg
import SeccompPolicy.Passes

/-!
# What `EliminateDeadCode` leaves: the blocks control reaches

Source: `EliminateDeadCodeImpl` of `IR_gen.cpp` and the `while` around it.

A round is approximate. It takes every branch it has kept so far for one that runs, and the
instruction in front of a label for one that goes on, though a later round may find either dead.
This module compares the rounds with what control reaches, position by position (`CanReach`).

`liveCode` computes that in one scan which knows what is live: the labels named by live branches
so far, and whether control goes on from in front. A round does not change what the scan keeps,
and a list that a round leaves as it is, the scan keeps whole. So the loop ends with what control
reaches in the list it was given, though no single round computes it.

A direct jump is built with the empty string as its second target, which the source notes as
reachable too (`reachable[b->GetFalseTarget()] = true`); `UnusedTargets` says that no label has
that name.

## Results

* `liveCode_eliminateDeadCodeImpl`, `liveCode_eq_self`: the two halves of the argument.
* `liveCode_eq_reachedCode`: the scan keeps what control reaches.
* `canReach_block`: control is at all instructions of a block or at none, so whole blocks are
  purged.
* `purge_exact`: in a list where no branch names a label in front of it and nothing but a label
  stands behind a branch or a return, the rounds end, and what is left are the instructions
  control reaches.
* `deadPair_purged`: a block behind a dead block needs a second round.
-/

namespace SeccompPolicy

/-! ## What control reaches -/

/-- Control can come to position `k`: to the first one, past an instruction that goes on, or to a
label that a branch names. `targets` are the labels a branch is taken to name. -/
inductive CanReach (targets : Instruction → List String) (code : List Instruction) : Nat → Prop
  | first : CanReach targets code 0
  | next {k : Nat} {i : Instruction} : CanReach targets code k → code[k]? = some i →
    i.leaves = false → CanReach targets code (k + 1)
  | target {k j : Nat} {i : Instruction} {l : String} : CanReach targets code k →
    code[k]? = some i → l ∈ targets i → code[j]? = some (.label l) → CanReach targets code j

open Classical in
/-- The instructions control reaches, in the order of the list. -/
noncomputable def reachedCode (targets : Instruction → List String) (code : List Instruction) :
    List Instruction :=
  (code.zipIdx.filter fun e => decide (CanReach targets code e.2)).map Prod.fst

/-- No branch names a label in front of it, in either of its target fields. -/
def NoBackwardTarget (code : List Instruction) : Prop :=
  code.Pairwise fun i j => ∀ l ∈ i.label?, l ∉ j.bothTargets

instance : DecidablePred NoBackwardTarget := fun code =>
  inferInstanceAs (Decidable (code.Pairwise _))

/-- A target field that a branch does not use names no label; a direct jump is built with an empty
one. -/
def UnusedTargets (code : List Instruction) : Prop :=
  ∀ i ∈ code, ∀ l ∈ i.bothTargets, l ∈ irLabels code → l ∈ i.targets

instance : DecidablePred UnusedTargets := fun code =>
  inferInstanceAs (Decidable (∀ i ∈ code, ∀ l ∈ i.bothTargets, l ∈ irLabels code → l ∈ i.targets))

/-- Control comes to position `k` without a branch to it. -/
def GoesOnTo (targets : Instruction → List String) (code : List Instruction) (k : Nat) : Prop :=
  k = 0 ∨ ∃ j i, k = j + 1 ∧ CanReach targets code j ∧ code[j]? = some i ∧ i.leaves = false

section

variable {targets : Instruction → List String} {code : List Instruction}

theorem canReach_iff {k : Nat} : CanReach targets code k ↔ GoesOnTo targets code k ∨
    ∃ j i l, CanReach targets code j ∧ code[j]? = some i ∧ l ∈ targets i ∧
      code[k]? = some (.label l) := by
  constructor
  · intro h
    cases h with
    | first => exact .inl (.inl rfl)
    | next hj hi hgo => exact .inl (.inr ⟨_, _, rfl, hj, hi, hgo⟩)
    | target hj hi hl hlab => exact .inr ⟨_, _, _, hj, hi, hl, hlab⟩
  · rintro ((rfl | ⟨j, i, rfl, hj, hi, hgo⟩) | ⟨j, i, l, hj, hi, hl, hlab⟩)
    · exact .first
    · exact .next hj hi hgo
    · exact .target hj hi hl hlab

theorem CanReach.mono {targets' : Instruction → List String} {k : Nat}
    (hsub : ∀ i ∈ code, ∀ l ∈ targets i, l ∈ irLabels code → l ∈ targets' i)
    (h : CanReach targets code k) : CanReach targets' code k := by
  induction h with
  | first => exact .first
  | next _ hi hgo ih => exact .next ih hi hgo
  | target _ hi hl hlab ih =>
    refine .target ih hi (hsub _ (List.mem_of_getElem? hi) _ hl ?_) hlab
    exact List.mem_filterMap.mpr ⟨_, List.mem_of_getElem? hlab, rfl⟩

/-- A branch is in front of the labels it names. -/
theorem NoBackwardTarget.lt (hfwd : NoBackwardTarget code) {j k : Nat} {i : Instruction} {l : String}
    (hi : code[j]? = some i) (hl : l ∈ i.bothTargets) (hlab : code[k]? = some (.label l)) : j < k := by
  by_contra hle
  obtain ⟨hjlt, rfl⟩ := List.getElem?_eq_some_iff.mp hi
  obtain ⟨hklt, hlab⟩ := List.getElem?_eq_some_iff.mp hlab
  rcases Nat.lt_or_eq_of_le (Nat.le_of_not_lt hle) with hlt | rfl
  · have hrel := List.pairwise_iff_getElem.mp hfwd k j hklt hjlt hlt
    rw [hlab] at hrel
    exact hrel l rfl hl
  · rw [hlab] at hl
    exact absurd hl List.not_mem_nil

end

/-! ## One scan -/

/-- Control is at `i`: from in front, or by a branch to the label that `i` is. -/
def entered (R : List String) (live : Bool) (i : Instruction) : Bool :=
  live || i.label?.any fun l => decide (l ∈ R)

/-- The scan. `R` are the labels named so far, `live` says that control goes on from in front. -/
def liveCode : List String → Bool → List Instruction → List Instruction
  | _, _, [] => []
  | R, live, i :: code =>
    if entered R live i then i :: liveCode (i.bothTargets ++ R) (!i.leaves) code
    else liveCode R false code

/-- What a round purges is not entered. -/
theorem entered_of_purgingAt {R R' : List String} {prev : Option Instruction} {purging live : Bool}
    {i : Instruction} (hR : ∀ l ∈ R', l ∈ R) (hprev : prev.any Instruction.leaves = true → live = false)
    (hpurging : purging = true → live = false) (h : purgingAt R prev purging i = true) :
    live = false ∧ entered R' live i = false := by
  cases i with
  | label l =>
    simp only [purgingAt, Bool.and_eq_true, Bool.not_eq_true', decide_eq_false_iff_not] at h
    obtain rfl := hprev h.2
    have hl : l ∉ R' := fun hl => h.1 (hR l hl)
    exact ⟨rfl, by simp [entered, Instruction.label?, hl]⟩
  | _ =>
    obtain rfl := hpurging h
    exact ⟨rfl, rfl⟩

/-- **A round does not change what the scan keeps.** The labels the scan knows are among those the
round has noted, and behind what the round purges nothing goes on. -/
theorem liveCode_eliminateDeadCodeImpl (code : List Instruction) {R R' : List String}
    {prev : Option Instruction} {purging live : Bool} (hR : ∀ l ∈ R', l ∈ R)
    (hprev : prev.any Instruction.leaves = true → live = false)
    (hpurging : purging = true → live = false) :
    liveCode R' live (eliminateDeadCodeImpl R prev purging code).1 = liveCode R' live code := by
  induction code generalizing R R' prev purging live with
  | nil => rfl
  | cons i code ih =>
    unfold eliminateDeadCodeImpl
    split
    · rename_i hp
      obtain ⟨rfl, hdead⟩ := entered_of_purgingAt hR hprev hpurging hp
      rw [liveCode, if_neg (by rw [hdead]; exact Bool.false_ne_true)]
      exact ih hR (fun _ => rfl) fun _ => rfl
    · simp only [liveCode]
      split
      · congr 1
        refine ih (fun l hl => ?_) (fun hleaves => ?_) fun h => absurd h Bool.false_ne_true
        · rcases List.mem_append.mp hl with hl | hl
          · exact List.mem_append_left _ hl
          · exact List.mem_append_right _ (hR l hl)
        · rw [Option.any_some] at hleaves
          rw [hleaves, Bool.not_true]
      · exact ih (fun l hl => List.mem_append_right _ (hR l hl)) (fun _ => rfl) fun _ => rfl

/-- **A list that a round leaves as it is, the scan keeps whole.** -/
theorem liveCode_eq_self (code : List Instruction) {R : List String} {prev : Option Instruction}
    {live : Bool} (h : (eliminateDeadCodeImpl R prev false code).2 = false)
    (hlive : prev.any Instruction.leaves = false → live = true)
    (hends : EndsBlocks (prev.toList ++ code)) : liveCode R live code = code := by
  induction code generalizing R prev live with
  | nil => rfl
  | cons i code ih =>
    unfold eliminateDeadCodeImpl at h
    split at h
    · cases h
    · rename_i hp
      have hin : entered R live i = true := by
        cases hleaves : prev.any Instruction.leaves with
        | false => rw [hlive hleaves, entered, Bool.true_or]
        | true =>
          -- what stands behind a branch or a return is a label, and it has been noted
          obtain ⟨p, rfl, hpl⟩ := (Option.any_eq_true _ _).mp hleaves
          have hlab : i.isLabel = true :=
            (List.isChain_cons_cons.mp hends).1 (by rwa [Bool.or_comm])
          cases i with
          | label l =>
            have hl : l ∈ R := by simpa [purgingAt, hpl] using hp
            simp [entered, Instruction.label?, hl]
          | _ => cases hlab
      have hlive' : (some i).any Instruction.leaves = false → (!i.leaves) = true := by
        rw [Option.any_some, Bool.not_eq_true']
        exact id
      have hends' : EndsBlocks ((some i).toList ++ code) := by
        cases prev with
        | none => exact hends
        | some p => exact (List.isChain_cons_cons.mp hends).2
      rw [liveCode, if_pos hin, ih h hlive' hends']

/-! ## The scan keeps what control reaches -/

theorem label?_eq_some {i : Instruction} {l : String} (h : l ∈ i.label?) : i = .label l := by
  cases i with
  | label => rw [Option.some.inj h]
  | _ => cases h

/-- What the scan knows behind `pre`. -/
structure ScanState (code pre : List Instruction) (R : List String) (live : Bool) : Prop where
  named : ∀ l, l ∈ R ↔ ∃ j i, j < pre.length ∧ CanReach Instruction.bothTargets code j ∧
    code[j]? = some i ∧ l ∈ i.bothTargets
  live : live = true ↔ GoesOnTo Instruction.bothTargets code pre.length

section

variable {code pre post : List Instruction} {i : Instruction} {R : List String} {live : Bool}

theorem scanState_nil : ScanState code [] [] true :=
  ⟨fun l => by simp, iff_of_true rfl (.inl rfl)⟩

/-- The scan enters what control reaches. -/
theorem ScanState.entered_iff (h : ScanState code pre R live) (hfwd : NoBackwardTarget code)
    (hcode : code = pre ++ i :: post) :
    entered R live i = true ↔ CanReach Instruction.bothTargets code pre.length := by
  have hi : code[pre.length]? = some i := by rw [hcode]; simp
  rw [entered, Bool.or_eq_true, h.live, canReach_iff]
  refine or_congr_right ⟨fun hl => ?_, ?_⟩
  · obtain ⟨l, hl, hR⟩ := (Option.any_eq_true _ _).mp hl
    obtain ⟨j, b, -, hj, hb, hbl⟩ := (h.named l).mp (of_decide_eq_true hR)
    exact ⟨j, b, l, hj, hb, hbl, label?_eq_some hl ▸ hi⟩
  · rintro ⟨j, b, l, hj, hb, hbl, hlab⟩
    obtain rfl := Option.some.inj (hi.symm.trans hlab)
    have hR : l ∈ R := (h.named l).mpr ⟨j, b, hfwd.lt hb hbl hlab, hj, hb, hbl⟩
    exact (Option.any_eq_true _ _).mpr ⟨l, rfl, decide_eq_true hR⟩

theorem ScanState.enter (h : ScanState code pre R live) (hcode : code = pre ++ i :: post)
    (hin : CanReach Instruction.bothTargets code pre.length) :
    ScanState code (pre ++ [i]) (i.bothTargets ++ R) (!i.leaves) := by
  have hi : code[pre.length]? = some i := by rw [hcode]; simp
  have hlen : (pre ++ [i]).length = pre.length + 1 := by simp
  constructor
  · intro l
    rw [List.mem_append, h.named, hlen]
    constructor
    · rintro (hl | ⟨j, b, hlt, hj⟩)
      · exact ⟨_, i, Nat.lt_succ_self _, hin, hi, hl⟩
      · exact ⟨j, b, Nat.lt_succ_of_lt hlt, hj⟩
    · rintro ⟨j, b, hlt, hj, hb, hl⟩
      rcases Nat.lt_succ_iff_lt_or_eq.mp hlt with hlt | rfl
      · exact .inr ⟨j, b, hlt, hj, hb, hl⟩
      · obtain rfl := Option.some.inj (hi.symm.trans hb)
        exact .inl hl
  · rw [hlen, Bool.not_eq_true']
    constructor
    · exact fun hgo => .inr ⟨_, i, rfl, hin, hi, hgo⟩
    · rintro (h0 | ⟨j, b, he, -, hb, hgo⟩)
      · cases h0
      · obtain rfl := Nat.succ.inj he
        obtain rfl := Option.some.inj (hi.symm.trans hb)
        exact hgo

theorem ScanState.skip (h : ScanState code pre R live)
    (hout : ¬ CanReach Instruction.bothTargets code pre.length) :
    ScanState code (pre ++ [i]) R false := by
  have hlen : (pre ++ [i]).length = pre.length + 1 := by simp
  constructor
  · intro l
    rw [h.named, hlen]
    constructor
    · rintro ⟨j, b, hlt, hj⟩
      exact ⟨j, b, Nat.lt_succ_of_lt hlt, hj⟩
    · rintro ⟨j, b, hlt, hj, hb⟩
      refine ⟨j, b, Nat.lt_of_le_of_ne (Nat.le_of_lt_succ hlt) ?_, hj, hb⟩
      rintro rfl
      exact hout hj
  · refine iff_of_false Bool.false_ne_true ?_
    rw [hlen]
    rintro (h0 | ⟨j, b, he, hj, -⟩)
    · cases h0
    · obtain rfl := Nat.succ.inj he
      exact hout hj

open Classical in
/-- From `pre` on, the scan keeps what control reaches. -/
theorem ScanState.liveCode_eq (h : ScanState code pre R live) (hfwd : NoBackwardTarget code)
    (hcode : code = pre ++ post) : liveCode R live post =
      ((post.zipIdx pre.length).filter fun e =>
        decide (CanReach Instruction.bothTargets code e.2)).map Prod.fst := by
  induction post generalizing pre R live with
  | nil => rfl
  | cons i post ih =>
    have hcode' : code = (pre ++ [i]) ++ post := by rw [hcode, List.append_assoc]; rfl
    have hlen : (pre ++ [i]).length = pre.length + 1 := by simp
    have hin := h.entered_iff hfwd hcode
    rw [liveCode, List.zipIdx_cons]
    by_cases hreach : CanReach Instruction.bothTargets code pre.length
    · rw [if_pos (hin.mpr hreach), List.filter_cons_of_pos (by simpa using hreach), List.map_cons,
        ih (h.enter hcode hreach) hcode', hlen]
    · rw [if_neg fun hc => hreach (hin.mp hc),
        List.filter_cons_of_neg (by simpa using hreach), ih (h.skip hreach) hcode', hlen]

end

theorem liveCode_eq_reachedCode {code : List Instruction} (hfwd : NoBackwardTarget code) :
    liveCode [] true code = reachedCode Instruction.bothTargets code :=
  scanState_nil.liveCode_eq hfwd rfl

/-! ## The loop -/

/-- A round keeps it: a purged list goes on with a label. -/
theorem endsBlocks_eliminateDeadCodeImpl (code : List Instruction) (R : List String)
    (prev : Option Instruction) (purging : Bool) (p : Instruction) (h : EndsBlocks code)
    (hp : purging = false → EndsBlocks (p :: code)) :
    EndsBlocks (p :: (eliminateDeadCodeImpl R prev purging code).1) := by
  induction code generalizing R prev purging p with
  | nil => exact List.isChain_singleton p
  | cons i code ih =>
    have htail : EndsBlocks code := List.IsChain.tail h
    unfold eliminateDeadCodeImpl
    split
    · exact ih R (some i) true p htail (fun h => by cases h)
    · rename_i hkept
      refine List.isChain_cons_cons.mpr ⟨?_, ih _ (some i) false i htail fun _ => h⟩
      cases i with
      | label l => exact fun _ => rfl
      | _ => exact (List.isChain_cons_cons.mp (hp (by simpa [purgingAt] using hkept))).1

theorem endsBlocks_round {code : List Instruction} (h : EndsBlocks code) :
    EndsBlocks (eliminateDeadCodeImpl [] none false code).1 := by
  refine List.IsChain.tail (endsBlocks_eliminateDeadCodeImpl code [] none false (.label "") h ?_)
  exact fun _ => List.isChain_cons.mpr ⟨fun _ _ hl => absurd hl Bool.false_ne_true, h⟩

/-- **Where the rounds end is what control reaches.** -/
theorem loop_reachedCode {code result : List Instruction} (hfwd : NoBackwardTarget code)
    (hends : EndsBlocks code)
    (h : DoWhile.Loop (eliminateDeadCodeImpl [] none false) code result) :
    result = reachedCode Instruction.bothTargets code := by
  have hround : ∀ c, liveCode [] true (eliminateDeadCodeImpl [] none false c).1 = liveCode [] true c :=
    fun c => liveCode_eliminateDeadCodeImpl c (fun _ h => h) (fun h => absurd h Bool.false_ne_true)
      fun h => absurd h Bool.false_ne_true
  have hlive : liveCode [] true result = liveCode [] true code :=
    h.invariant (P := fun c => liveCode [] true c = liveCode [] true code)
      (fun c hc => (hround c).trans hc) rfl
  have hends' : EndsBlocks result := h.invariant (fun _ => endsBlocks_round) hends
  have hlast := h.last fun c => eliminateDeadCodeImpl_same c [] none false
  calc result = liveCode [] true result := (liveCode_eq_self result hlast (fun _ => rfl) hends').symm
    _ = liveCode [] true code := hlive
    _ = reachedCode Instruction.bothTargets code := liveCode_eq_reachedCode hfwd

theorem UnusedTargets.canReach_iff {code : List Instruction} (h : UnusedTargets code) {k : Nat} :
    CanReach Instruction.bothTargets code k ↔ CanReach Instruction.targets code k :=
  ⟨CanReach.mono h, CanReach.mono fun _ _ _ hl _ => Instruction.targets_subset_bothTargets hl⟩

theorem UnusedTargets.reachedCode {code : List Instruction} (h : UnusedTargets code) :
    reachedCode Instruction.bothTargets code = reachedCode Instruction.targets code := by
  unfold SeccompPolicy.reachedCode
  congr 1
  exact List.filter_congr fun e _ => decide_eq_decide.mpr h.canReach_iff

/-- Control is at all instructions of a block or at none. -/
theorem canReach_block {targets : Instruction → List String} {code pre body post : List Instruction}
    {l : String} (hends : EndsBlocks code) (hcode : code = pre ++ .label l :: (body ++ post))
    (hbody : ∀ i ∈ body, i.isLabel = false) {k : Nat} (hk : k ≤ body.length) :
    CanReach targets code (pre.length + k) ↔ CanReach targets code pre.length := by
  induction k with
  | zero => exact Iff.rfl
  | succ k ih =>
    obtain ⟨b, hb⟩ : ∃ b, body[k]? = some b := ⟨_, List.getElem?_eq_getElem hk⟩
    have hnext : code[pre.length + (k + 1)]? = some b := by
      rw [hcode, List.getElem?_append_right (Nat.le_add_right _ _), Nat.add_sub_cancel_left,
        List.getElem?_cons_succ, List.getElem?_append_left hk, hb]
    have hlab : b.isLabel = false := hbody b (List.mem_of_getElem? hb)
    obtain ⟨hlt, hb'⟩ := List.getElem?_eq_some_iff.mp hnext
    -- what stands in front of it goes on
    have hi : code[pre.length + k]? = some code[pre.length + k] := List.getElem?_eq_getElem _
    have hgo : (code[pre.length + k]).leaves = false := by
      have hchain := List.isChain_iff_getElem.mp hends (pre.length + k) hlt
      rw [← Bool.not_eq_true, Instruction.leaves, Bool.or_comm]
      intro hleaves
      have := hchain hleaves
      simp only [Nat.add_assoc, hb', hlab] at this
      cases this
    rw [← ih (Nat.le_of_succ_le hk), SeccompPolicy.canReach_iff]
    constructor
    · rintro ((h0 | ⟨j, i, he, hj, -⟩) | ⟨j, i, t, -, -, -, ht⟩)
      · cases h0
      · obtain rfl := Nat.succ.inj he
        exact hj
      · obtain rfl := Option.some.inj (hnext.symm.trans ht)
        cases hlab
    · exact fun h => .inl (.inr ⟨_, _, rfl, h, hi, hgo⟩)

/-- **The purge is exact.** In a list where no branch names a label in front of it and nothing but a
label stands behind a branch or a return, the rounds of `EliminateDeadCodeImpl` end, and what is left
are the instructions control reaches from the first one, past instructions that go on and by the
targets of branches, in their order. A block stays or goes as a whole. The code looks at both target
fields of a branch; where one that is not used names no label, what is left is what control reaches
by the others. -/
theorem purge_exact {code : List Instruction} (hfwd : NoBackwardTarget code)
    (hends : EndsBlocks code) :
    DoWhile.Loop (eliminateDeadCodeImpl [] none false) code
      (reachedCode Instruction.bothTargets code) ∧
    (∀ pre l body post, code = pre ++ .label l :: (body ++ post) →
      (∀ i ∈ body, i.isLabel = false) → ∀ k ≤ body.length,
        (CanReach Instruction.bothTargets code (pre.length + k) ↔
          CanReach Instruction.bothTargets code pre.length)) ∧
    (UnusedTargets code →
      reachedCode Instruction.bothTargets code = reachedCode Instruction.targets code) := by
  refine ⟨?_, fun pre l body post hcode hbody k hk => canReach_block hends hcode hbody hk,
    UnusedTargets.reachedCode⟩
  have hloop := eliminateLoop_loop (Nat.lt_succ_self code.length)
  rwa [loop_reachedCode hfwd hends hloop] at hloop

/-- The block `L2` is behind the block `L1`, which nothing leads to. -/
def deadPair : List Instruction :=
  [.branch .EQ (.mem "flags") (.imm 1) "L3" "L4", .label "L1", .store (.imm 1) (.mem "mode"),
    .label "L2", .ret 0 PermType.DENY.val, .label "L3", .store (.imm 0) (.mem "mode"),
    .branch .INVALID .null .null "L4" "", .label "L4", .ret 1 PermType.ALLOW.val]

theorem deadPair_purged : DoWhile.Loop (eliminateDeadCodeImpl [] none false) deadPair
    (reachedCode Instruction.targets deadPair) ∧
    irLabels (reachedCode Instruction.targets deadPair) = ["L3", "L4"] := by
  obtain ⟨hloop, -, hunused⟩ := @purge_exact deadPair (by decide) (by decide)
  rw [hunused (by decide)] at hloop
  have hresult := loop_reachedCode (by decide) (by decide)
    (eliminateLoop_loop (Nat.lt_succ_self deadPair.length))
  refine ⟨hloop, ?_⟩
  rw [← hunused (by decide), ← hresult]
  decide

/-- A first round keeps `L2`, for the sake of `L1`. -/
example : irLabels (eliminateDeadCodeImpl [] none false deadPair).1 = ["L2", "L3", "L4"] := by decide

end SeccompPolicy
