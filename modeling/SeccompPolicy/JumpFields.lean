import SeccompPolicy.FallOff

/-!
# The jump fields of the final filter

`BPF_JUMP` stores `jt` and `jf` in eight bits, and `BPFTransformLabels` (`code_gen.cpp`) writes
whatever distance a label is away. Nothing in the compiler looks at it. A distance is a byte when the
label is behind the jump, and not too far behind it.

A label stands for its last definition, so a jump goes backwards just when its label is defined in
front of it and not behind (`Ahead`). The jumps that `PolicyManager::BPFCodeGen` (`policy.cpp`) adds all
go forward; those of a body do when the body type-checks, but a comparison used as a value jumps to
labels that may have been passed. Of the jumps that go forward the one of the architecture check is the
longest: its target `__deny` is the last filter.

## Results

* `ahead_cons`, `ahead_append`: forward jumps of a list are those of its parts.
* `finalFilters_ahead_iff`: all jumps of the filter go forward when those of the bodies do.
* `fieldsFit_iff`: for every accepted policy the fields fit exactly when the jumps of the bodies go
  forward and at most 255 filters lie in front of `__deny`.
* `jumpsAhead_of_wellTyped`: bodies that type-check jump forward.
* `sockFilter_eq`: when the fields fit, C stores the program as it is.
* `longPolicy_overflows`: three checks of 28 `if`s each are too long.
-/

namespace SeccompPolicy

open ClassicBpf

/-! ## Jumps that go forward -/

/-- A label a filter names is defined behind it, or else nowhere in front of it. `before` and `after`
are the labels around the list. -/
def Ahead (before after : List String) (fs : List BPFFilter) : Prop :=
  ∀ xs f ys, fs = xs ++ f :: ys → ∀ l ∈ f.targets,
    l ∈ filterLabels ys ++ after ∨ l ∉ before ++ filterLabels xs

section Ahead

variable {before after : List String} {f : BPFFilter} {fs gs : List BPFFilter}

theorem ahead_nil (before after : List String) : Ahead before after [] := by
  intro xs f ys he
  exact absurd (congrArg List.length he) (by simp)

/-- One filter, and what stands in front of it for the rest. -/
theorem ahead_cons : Ahead before after (f :: fs) ↔
    (∀ l ∈ f.targets, l ∈ filterLabels fs ++ after ∨ l ∉ before) ∧
      Ahead (before ++ filterLabels [f]) after fs := by
  constructor
  · refine fun h => ⟨fun l hl => ?_, fun xs g ys he l hl => ?_⟩
    · simpa using h [] f fs rfl l hl
    · have := h (f :: xs) g ys (by rw [he]; rfl) l hl
      rwa [← List.singleton_append, filterLabels_append, ← List.append_assoc] at this
  · rintro ⟨hhead, htail⟩ xs g ys he l hl
    cases xs with
    | nil =>
      obtain ⟨rfl, rfl⟩ := List.cons.inj he
      simpa using hhead l hl
    | cons x xs =>
      obtain ⟨rfl, rfl⟩ := List.cons.inj he
      have := htail xs g ys rfl l hl
      rwa [List.append_assoc, ← filterLabels_append, List.singleton_append] at this

theorem ahead_append : Ahead before after (fs ++ gs) ↔
    Ahead before (filterLabels gs ++ after) fs ∧ Ahead (before ++ filterLabels fs) after gs := by
  induction fs generalizing before with
  | nil => simp [ahead_nil]
  | cons f fs ih =>
    rw [List.cons_append, ahead_cons, ahead_cons, ih, filterLabels_append, List.append_assoc,
      List.append_assoc, ← filterLabels_append, List.singleton_append, and_assoc]

/-- A list that names only labels behind it. -/
theorem Ahead.of_after (h : ∀ f ∈ fs, ∀ l ∈ f.targets, l ∈ after) : Ahead before after fs := by
  rintro xs f ys rfl l hl
  exact .inl (List.mem_append_right _ (h f (by simp) l hl))

/-- Code that names no label in front of it, and none of those before. -/
theorem Ahead.of_forward (hfwd : ForwardFilters fs)
    (h : ∀ f ∈ fs, ∀ l ∈ f.targets, l ∉ before) : Ahead before after fs := by
  rintro xs f ys rfl l hl
  refine .inr fun hm => ?_
  rcases List.mem_append.mp hm with hm | hm
  · exact h f (by simp) l hl hm
  · exact hfwd.split l hl hm

/-- Labels behind a list that are none of its own, nor of those before, do not matter. -/
theorem ahead_after (hafter : ∀ l ∈ after, l ∉ before ++ filterLabels fs) :
    Ahead before after fs ↔ Ahead before [] fs := by
  unfold Ahead
  refine forall₃_congr fun xs f ys => forall_congr' fun he => forall₂_congr fun l _ => ?_
  rw [List.mem_append, List.append_nil]
  constructor
  · rintro ((h | h) | h)
    · exact .inl h
    · refine .inr fun hm => hafter l h ?_
      rw [he, filterLabels_append, ← List.append_assoc]
      exact List.mem_append_left _ hm
    · exact .inr h
  · exact fun h => h.imp_left .inl

/-- **The place of a label** that a filter names, if it has one, is behind the filter. -/
theorem Ahead.label2pc_gt (h : Ahead [] [] fs) {xs ys : List BPFFilter}
    (hfs : fs = xs ++ f :: ys) (hf : f.isLabel = false) {l : String} (hl : l ∈ f.targets) {p : Nat}
    (hp : label2pc l fs = some p) : size xs + 1 ≤ p := by
  rw [hfs, label2pc_append, label2pc_cons hf] at hp
  cases hy : label2pc l ys with
  | some n =>
    simp only [hy, Option.map_some, Option.some.injEq] at hp
    omega
  | none =>
    -- a label that is not behind is not in front either
    have hnot := h xs f ys hfs l hl
    simp only [List.append_nil, List.nil_append, label2pc_eq_none.mp hy, false_or] at hnot
    rw [hy, label2pc_eq_none.mpr hnot] at hp
    cases hp

/-- A label in front of a filter, and not behind it, stands for a place in front. -/
theorem label2pc_front {xs ys : List BPFFilter} (hf : f.isLabel = false) {l : String}
    (hys : l ∉ filterLabels ys) (hxs : l ∈ filterLabels xs) :
    ∃ p, label2pc l (xs ++ f :: ys) = some p ∧ p ≤ size xs := by
  cases hp : label2pc l xs with
  | none => exact absurd hxs (label2pc_eq_none.mp hp)
  | some p =>
    refine ⟨p, ?_, label2pc_le hp⟩
    rw [label2pc_append, label2pc_cons hf, label2pc_eq_none.mpr hys, Option.map_none]
    exact hp

end Ahead

/-- A label stands for a place in front of the end, when the last filter is none. -/
theorem label2pc_lt {l : String} {fs : List BPFFilter} {g : BPFFilter} (hg : g.isLabel = false)
    {p : Nat} (hp : label2pc l (fs ++ [g]) = some p) : p < size (fs ++ [g]) := by
  rw [label2pc_append, label2pc_cons hg] at hp
  have := label2pc_le hp
  rw [size_append, size_cons hg]
  omega

/-! ## The jumps of the bodies, and those of the filter -/

/-- The names and the filters of the checks, without the comparisons. -/
def bodyFilters (cs : List CompiledCheck) : List BPFFilter :=
  cs.flatMap fun c => .label c.syscall :: c.bpfFilters

/-- **No jump of a body goes backwards**: a label it names that is defined in front of it is defined
behind it too. -/
def Output.JumpsAhead (out : Output) : Prop := Ahead [] [] (bodyFilters out.checks)

theorem bodyFilters_cons (c : CompiledCheck) (cs : List CompiledCheck) :
    bodyFilters (c :: cs) = .label c.syscall :: (c.bpfFilters ++ bodyFilters cs) := rfl

/-- The comparisons of the dispatch define no labels. -/
theorem filterLabels_checksFilters (d : String) (cs : List CompiledCheck) :
    filterLabels (checksFilters d cs) = filterLabels (bodyFilters cs) := by
  induction cs with
  | nil => rfl
  | cons c cs ih =>
    rw [checksFilters, bodyFilters_cons, CompiledCheck.filters, List.cons_append, List.cons_append,
      filterLabels_label, filterLabels_jump, filterLabels_append, filterLabels_label,
      filterLabels_append, ih]

/-- A comparison names the next check, or the default, which both come later. -/
theorem nextLabel_mem (d : String) (cs : List CompiledCheck) {after : List String} (hd : d ∈ after) :
    nextLabel d cs ∈ filterLabels (bodyFilters cs) ++ after := by
  cases cs with
  | nil => exact hd
  | cons c cs => exact List.mem_append_left _ List.mem_cons_self

/-- The comparisons jump forward: to the next name, or to the default label. -/
theorem checksFilters_ahead_iff {d : String} {after : List String} (hd : d ∈ after)
    (cs : List CompiledCheck) (before : List String) :
    Ahead before after (checksFilters d cs) ↔ Ahead before after (bodyFilters cs) := by
  induction cs generalizing before with
  | nil => exact Iff.rfl
  | cons c cs ih =>
    have hnext : ∀ l ∈ (BPFFilter.jump [.JMP, .JEQ, .K] (.int (syscallNameToNr c.syscall)) (.num 0)
        (.label (nextLabel d cs))).targets,
        l ∈ filterLabels (c.bpfFilters ++ checksFilters d cs) ++ after ∨
          l ∉ before ++ filterLabels [.label c.syscall] := by
      intro l hl
      obtain rfl : l = nextLabel d cs := by simpa [BPFFilter.targets] using hl
      rw [filterLabels_append, filterLabels_checksFilters, List.append_assoc]
      exact .inl (List.mem_append_right _ (nextLabel_mem d cs hd))
    have hlabel : ∀ before : List String, ∀ fs, Ahead before after (.label c.syscall :: fs) ↔
        Ahead (before ++ filterLabels [.label c.syscall]) after fs := fun before fs => by
      rw [ahead_cons]
      exact and_iff_right fun l hl => absurd hl List.not_mem_nil
    rw [checksFilters, CompiledCheck.filters, bodyFilters_cons, List.cons_append, List.cons_append,
      hlabel, hlabel, ahead_cons, and_iff_right hnext, filterLabels_jump, filterLabels_nil,
      List.append_nil, ahead_append, ahead_append, ih, filterLabels_checksFilters]

variable {out : Output}

theorem deny_mem_footer (deny : Bool) : "__deny" ∈ filterLabels (footerFilters deny) := by
  cases deny <;> decide

theorem default_mem_footer (deny : Bool) :
    defaultLabel deny ∈ filterLabels (footerFilters deny) := by
  cases deny <;> decide

/-- The header names the first check and `__deny`. -/
theorem headerFilters_targets {first : String} {f : BPFFilter} (hf : f ∈ headerFilters first) :
    ∀ l ∈ f.targets, l = "__deny" ∨ l = first := by
  intro l hl
  simp only [headerFilters, List.mem_cons, List.not_mem_nil, or_false] at hf
  rcases hf with rfl | rfl | rfl | rfl | rfl
  · exact absurd hl List.not_mem_nil
  · exact .inl (by simpa [BPFFilter.targets] using hl)
  · exact absurd hl List.not_mem_nil
  · exact .inr (by simpa [BPFFilter.targets] using hl)
  · exact absurd hl List.not_mem_nil

theorem footerFilters_targets {deny : Bool} {f : BPFFilter} (hf : f ∈ footerFilters deny) :
    f.targets = [] :=
  forall_footerFilters (P := fun f => f.targets = []) (fun _ => rfl) rfl rfl deny f hf

/-- The labels of the checks are their names and generated ones, not those of the actions. -/
theorem bodyFilters_ne_default {cs : List CompiledCheck} (hL : Labelled cs) {deny : Bool} {l : String}
    (hl : l ∈ filterLabels (footerFilters deny)) : l ∉ filterLabels (bodyFilters cs) := by
  have hdef := filterLabels_footer deny hl
  intro hm
  obtain ⟨c, hc, hcm⟩ := List.mem_flatMap.mp (mem_filterLabels.mp hm)
  obtain ⟨hknown, hlabels⟩ := hL c hc
  rcases List.mem_cons.mp hcm with he | hcm
  · obtain rfl := BPFFilter.label.inj he
    exact hdef.elim hknown.ne_default.1 hknown.ne_default.2
  · obtain ⟨n, rfl⟩ := hlabels l (mem_filterLabels.mpr hcm)
    exact hdef.elim (labelText_ne_default n).1 (labelText_ne_default n).2

/-- **All jumps of the final filter go forward when those of the bodies do.** -/
theorem finalFilters_ahead_iff (hL : Labelled out.checks) :
    Ahead [] [] out.finalFilters ↔ out.JumpsAhead := by
  unfold Output.JumpsAhead
  cases hcs : out.checks with
  | nil =>
    rw [finalFilters_nil hcs]
    exact Iff.rfl
  | cons c cs =>
    have hheader : Ahead [] (filterLabels (checksFilters (defaultLabel out.defaultDeny) out.checks ++
        footerFilters out.defaultDeny) ++ []) (headerFilters c.syscall) := by
      refine .of_after fun f hf l hl => ?_
      rw [List.append_nil, filterLabels_append]
      rcases headerFilters_targets hf l hl with rfl | rfl
      · exact List.mem_append_right _ (deny_mem_footer _)
      · rw [hcs]
        exact List.mem_append_left _ List.mem_cons_self
    have hfooter : ∀ before, Ahead before [] (footerFilters out.defaultDeny) := fun before =>
      .of_after fun f hf l hl => by
        rw [footerFilters_targets hf] at hl
        exact absurd hl List.not_mem_nil
    have hnil : filterLabels (headerFilters c.syscall) = [] := rfl
    rw [finalFilters_eq hcs, ahead_append, and_iff_right hheader, ahead_append,
      and_iff_left (hfooter _), hnil, List.append_nil, List.append_nil,
      checksFilters_ahead_iff (default_mem_footer _), ← hcs]
    exact ahead_after fun _ hl => bodyFilters_ne_default hL hl

/-- What the body of a check names is what its code branches to. -/
theorem CompiledCheck.From.body_ahead {m : CodeGenMgr} {o : HashOrder} {gl : RetGlobals}
    {c : CompiledCheck} (hc : c.From m o gl) (hwt : allWellTyped c.check.stmts = true)
    {before : List String} (hold : ∀ l ∈ before, Old m.labelCnt l) (after : List String) :
    Ahead before after c.bpfFilters := by
  have hcmp := checkIR_compares c.check.stmts m c.syscall o gl
  have hb := checkIR_branches c.check.stmts m c.syscall o gl hwt hc.known.ne_labelText
  have hgen := hc.filters
  rw [hc.bpfIR] at hgen
  have hcmp' : ∀ i ∈ (checkIR c.check.stmts m c.syscall o gl).1.tail, i.Compares :=
    fun i hi => hcmp i (List.mem_of_mem_tail hi)
  refine .of_forward (genFilters_forward hcmp' (hb.forward.sublist (List.tail_sublist _)) hgen)
    fun f hf l hl hm => ?_
  obtain ⟨i, hi, hif⟩ := mem_genFilters hcmp' hgen hf
  exact (hold l hm).not_fresh
    ((hb.targets i (List.mem_of_mem_tail hi) l (hif.targets l hl)).resolve_left id)

/-- Bodies that type-check jump forward, behind labels older than their own. -/
theorem Compiled.ahead {m : CodeGenMgr} {gl gl' : RetGlobals} {cs : List CompiledCheck}
    (h : Compiled m gl cs gl') (hwt : ∀ c ∈ cs, allWellTyped c.check.stmts = true)
    {before : List String} (hold : ∀ l ∈ before, Old m.labelCnt l) (after : List String) :
    Ahead before after (bodyFilters cs) := by
  induction h generalizing before with
  | nil => exact ahead_nil _ _
  | @cons m gl gl' c cs o hc _ ih =>
    have hcnt := (all_emits c.check.stmts m).cnt
    have hold' : ∀ l ∈ before ++ [c.syscall], Old m.labelCnt l := by
      intro l hl
      rcases List.mem_append.mp hl with hl | hl
      · exact hold l hl
      · obtain rfl := List.mem_singleton.mp hl
        exact fun n _ => hc.known.ne_labelText n
    rw [bodyFilters_cons, ahead_cons, ahead_append]
    refine ⟨fun l hl => absurd hl List.not_mem_nil, hc.body_ahead (hwt c List.mem_cons_self) hold' _,
      ih (fun c' hc' => hwt c' (List.mem_cons_of_mem c hc')) fun l hl => ?_⟩
    rcases List.mem_append.mp hl with hl | hl
    · exact (hold' l hl).mono hcnt
    · obtain ⟨n, -, hn, rfl⟩ := hc.body_labels l hl
      exact old_labelText hn

/-- **Bodies that type-check jump ahead.** -/
theorem jumpsAhead_of_wellTyped {m : CodeGenMgr} {gl gl' : RetGlobals}
    (h : Compiled m gl out.checks gl') (hwt : ∀ c ∈ out.checks, allWellTyped c.check.stmts = true) :
    out.JumpsAhead :=
  h.ahead hwt (fun _ hl => absurd hl List.not_mem_nil) []

/-! ## The fields -/

/-- The filter jumps by `jt` and `jf`, to a label or to the next filter. -/
def BPFFilter.ByFields : BPFFilter → Prop
  | .jump op k jt jf => .JA ∉ op ∧ (∀ l, k ≠ .label l) ∧ ∀ n, jt = .num n ∨ jf = .num n → n = 0
  | _ => True

theorem FilterOf.byFields {gl : RetGlobals} {i : Instruction} {f : BPFFilter}
    (h : FilterOf gl i f) : f.ByFields := by
  cases h with
  | label l => trivial
  | plain hf => cases hf; trivial
  | ret hf =>
    obtain ⟨k, rfl⟩ := genReturn_stmt hf
    trivial
  | test hop hk _ _ =>
    refine ⟨hop.1, fun l hl => ?_, fun n hn => ?_⟩
    · rw [hl] at hk
      exact hk
    · rcases hn with hn | hn <;> cases hn

/-- A comparison of the dispatch goes on, or jumps to a name. -/
theorem byFields_dispatch {op : List BPFConst} {k : KField} (hop : .JA ∉ op)
    (hk : ∀ l, k ≠ .label l) (l : String) : (BPFFilter.jump op k (.num 0) (.label l)).ByFields := by
  refine ⟨hop, hk, fun n hn => ?_⟩
  rcases hn with hn | hn
  · exact (Target.num.inj hn).symm
  · cases hn

theorem headerFilters_byFields (first : String) : ∀ f ∈ headerFilters first, f.ByFields := by
  simp only [headerFilters, List.forall_mem_cons]
  exact ⟨trivial, byFields_dispatch (by decide) (by simp) _, trivial,
    byFields_dispatch (by decide) (by simp) _, trivial, List.forall_mem_nil _⟩

/-- All filters of the program jump by `jt` and `jf`. -/
theorem finalFilters_byFields {m : CodeGenMgr} {gl gl' : RetGlobals}
    (h : Compiled m gl out.checks gl') : ∀ f ∈ out.finalFilters, f.ByFields := by
  refine forall_finalFilters headerFilters_byFields (forall_checksFilters (fun _ => trivial) ?_ ?_ _)
    (forall_footerFilters (fun _ => trivial) trivial trivial _)
  · exact fun nr l => byFields_dispatch (by decide) (by simp) l
  · intro c hc f hf
    obtain ⟨gl, i, hif⟩ := h.filterOf hc hf
    exact hif.byFields

/-- The filters between the check of the architecture and the `__deny` it jumps to. -/
def Output.denyDistance (out : Output) : Nat :=
  3 + codeSize out.checks + if out.defaultDeny then 0 else 1

/-- The list starts with the load of the architecture and ends with the return of `__deny`. -/
theorem finalFilters_ends (hne : out.checks ≠ []) :
    ∃ front, out.finalFilters = .stmt [.LD, .W, .ABS] .archOffset ::
        .jump [.JMP, .JEQ, .K] .tArch (.num 0) (.label "__deny") ::
          (front ++ [.label "__deny", .stmt [.RET, .K] .retKillProcess]) ∧
      size front = out.denyDistance := by
  obtain ⟨c, cs, hcs⟩ := List.exists_cons_of_ne_nil hne
  have hsize := size_checksFilters (defaultLabel out.defaultDeny) out.checks
  cases hdeny : out.defaultDeny with
  | true =>
    rw [hdeny] at hsize
    refine ⟨(headerFilters c.syscall).drop 2 ++ checksFilters (defaultLabel true) out.checks, ?_, ?_⟩
    · rw [finalFilters_eq hcs, hdeny, List.append_assoc]
      rfl
    · rw [size_append, hsize, Output.denyDistance, hdeny]
      rfl
  | false =>
    rw [hdeny] at hsize
    refine ⟨(headerFilters c.syscall).drop 2 ++ (checksFilters (defaultLabel false) out.checks ++
      [.label "__allow", .stmt [.RET, .K] .retAllow]), ?_, ?_⟩
    · rw [finalFilters_eq hcs, hdeny, List.append_assoc, List.append_assoc]
      rfl
    · rw [size_append, size_append, hsize, Output.denyDistance, hdeny]
      rfl

/-- Its last filter is as far behind the check of the architecture as `__deny`. -/
theorem finalFilters_last (hne : out.checks ≠ []) : ∃ front,
    out.finalFilters = front ++ [.stmt [.RET, .K] .retKillProcess] ∧
      size front = out.denyDistance + 2 := by
  obtain ⟨front, hfs, hsize⟩ := finalFilters_ends hne
  refine ⟨.stmt [.LD, .W, .ABS] .archOffset :: .jump [.JMP, .JEQ, .K] .tArch (.num 0) (.label "__deny") ::
    (front ++ [.label "__deny"]), ?_, ?_⟩
  · rw [hfs]
    simp
  · rw [size_stmt, size_jump, size_append, hsize, size_label, size_nil]

/-- What `BPFTransformLabels` writes into the check of the architecture. -/
theorem archCheck_field (hne : out.checks ≠ []) : (bpfTransformLabels out.finalFilters)[1]? =
    some (.jump [.JMP, .JEQ, .K] .tArch (.num 0) (.num out.denyDistance)) := by
  obtain ⟨front, hfs, hsize⟩ := finalFilters_ends hne
  have hlabel : label2pc "__deny" out.finalFilters = some (out.denyDistance + 2) := by
    have hlast : label2pc "__deny" [.label "__deny", .stmt [.RET, .K] .retKillProcess] = some 0 :=
      label2pc_head List.not_mem_nil
    rw [hfs, label2pc_cons rfl, label2pc_cons rfl, label2pc_append, hlast, ← hsize]
    rfl
  have hplace := transformFrom_place (fun l => label2pc l out.finalFilters) 0
    [.stmt [.LD, .W, .ABS] .archOffset]
    (f := .jump [.JMP, .JEQ, .K] .tArch (.num 0) (.label "__deny")) rfl
    (front ++ [.label "__deny", .stmt [.RET, .K] .retKillProcess])
  rw [List.singleton_append, ← hfs] at hplace
  refine hplace.trans (congrArg some ?_)
  simp only [BPFFilter.resolve, Target.resolve, hlabel]
  rw [if_neg (by decide)]
  congr 2
  simp
  omega

/-! ## When the fields fit -/

/-- Every number written into a jump of the filter is a byte. -/
def Output.FieldsFit (out : Output) : Prop :=
  ∀ op k jt jf, .jump op k jt jf ∈ bpfTransformLabels out.finalFilters →
    ∀ n, jt = .num n ∨ jf = .num n → 0 ≤ n ∧ n ≤ 255

section Resolve

variable {ρ : String → Option Nat} {pc : Nat} {f : BPFFilter}

/-- The labels of a filter are in its jump fields. -/
theorem BPFFilter.ByFields.mem_targets {op : List BPFConst} {k : KField} {jt jf : Target}
    (h : (BPFFilter.jump op k jt jf).ByFields) {l : String} :
    l ∈ (BPFFilter.jump op k jt jf).targets ↔ jt = .label l ∨ jf = .label l := by
  have hk := h.2.1
  unfold BPFFilter.targets
  cases k with
  | label l' => exact absurd rfl (hk l')
  | _ => cases jt <;> cases jf <;> simp [eq_comm]

/-- A number in a jump of the result is `0`, or the distance of a label. -/
theorem BPFFilter.ByFields.resolve_num {op : List BPFConst} {k : KField} {jt jf : Target}
    (hby : f.ByFields) (h : f.resolve ρ pc = .jump op k jt jf) {n : Int}
    (hn : jt = .num n ∨ jf = .num n) :
    n = 0 ∨ ∃ l ∈ f.targets, ∃ p, ρ l = some p ∧ n = p - pc - 1 := by
  cases f with
  | label l => cases h
  | stmt op k => cases h
  | jump op₀ k₀ jt₀ jf₀ =>
    have field : ∀ t : Target, t = jt₀ ∨ t = jf₀ → t.resolve ρ pc = .num n →
        n = 0 ∨ ∃ l ∈ (BPFFilter.jump op₀ k₀ jt₀ jf₀).targets, ∃ p, ρ l = some p ∧ n = p - pc - 1 := by
      intro t ht hres
      cases t with
      | num m =>
        obtain rfl := Target.num.inj hres
        exact .inl (hby.2.2 m (ht.imp Eq.symm Eq.symm))
      | label l =>
        have hl := hby.mem_targets.mpr (ht.imp Eq.symm Eq.symm)
        simp only [Target.resolve] at hres
        cases hp : ρ l with
        | none => simp [hp] at hres
        | some p =>
          simp only [hp, Target.num.injEq] at hres
          exact .inr ⟨l, hl, p, hp, hres.symm⟩
    simp only [BPFFilter.resolve, if_neg hby.1, BPFFilter.jump.injEq] at h
    obtain ⟨-, -, hjt, hjf⟩ := h
    rcases hn with rfl | rfl
    · exact field _ (.inl rfl) hjt
    · exact field _ (.inr rfl) hjf

/-- The distance of a label with a place is written. -/
theorem BPFFilter.ByFields.resolve_label (hby : f.ByFields) {l : String} (hl : l ∈ f.targets) {p : Nat}
    (hp : ρ l = some p) : ∃ op k jt jf, f.resolve ρ pc = .jump op k jt jf ∧
      (jt = .num (p - pc - 1) ∨ jf = .num (p - pc - 1)) := by
  cases f with
  | label l => exact absurd hl List.not_mem_nil
  | stmt op k => exact absurd hl List.not_mem_nil
  | jump op k jt jf =>
    simp only [BPFFilter.resolve, if_neg hby.1]
    refine ⟨_, _, _, _, rfl, (hby.mem_targets.mp hl).imp ?_ ?_⟩ <;>
    · rintro rfl
      simp only [Target.resolve, hp]

end Resolve

/-- **The longest way** is from the check of the architecture to `__deny`. -/
theorem field_le {m : CodeGenMgr} {gl gl' : RetGlobals} (h : Compiled m gl out.checks gl')
    (hahead : out.JumpsAhead) {op : List BPFConst} {k : KField} {jt jf : Target}
    (hmem : .jump op k jt jf ∈ bpfTransformLabels out.finalFilters) {n : Int}
    (hn : jt = .num n ∨ jf = .num n) : 0 ≤ n ∧ n ≤ out.denyDistance := by
  obtain ⟨i, hi⟩ := List.mem_iff_getElem?.mp hmem
  obtain ⟨xs, f, ys, hfs, hf, rfl, hres⟩ := transformFrom_getElem hi
  rw [Nat.zero_add] at hres
  have hfm : f ∈ out.finalFilters := hfs ▸ by simp
  rcases (finalFilters_byFields h f hfm).resolve_num hres.symm hn with rfl | ⟨l, hl, p, hp, rfl⟩
  · omega
  have hne : out.checks ≠ [] := by
    intro hcs
    rw [finalFilters_nil hcs] at hfm
    exact absurd hfm List.not_mem_nil
  have hgt := ((finalFilters_ahead_iff h.labelled).mpr hahead).label2pc_gt hfs hf hl hp
  obtain ⟨front, hends, -⟩ := finalFilters_ends hne
  -- in front of the jump is at least the load of the architecture
  have hxs : 1 ≤ size xs := by
    cases xs with
    | nil =>
      obtain ⟨rfl, -⟩ := List.cons.inj (hends.symm.trans hfs)
      exact absurd hl List.not_mem_nil
    | cons x xs =>
      obtain ⟨rfl, -⟩ := List.cons.inj (hends.symm.trans hfs)
      rw [size_stmt]
      omega
  obtain ⟨front', hlast, hsize'⟩ := finalFilters_last hne
  have hlt : p < size out.finalFilters := by
    rw [hlast] at hp ⊢
    exact label2pc_lt rfl hp
  rw [hlast, size_append, hsize', size_stmt, size_nil] at hlt
  omega

/-- **A jump that goes backwards** has a negative distance. -/
theorem ahead_of_fieldsFit {m : CodeGenMgr} {gl gl' : RetGlobals} (h : Compiled m gl out.checks gl')
    (hfit : out.FieldsFit) : out.JumpsAhead := by
  refine (finalFilters_ahead_iff h.labelled).mp fun xs f ys hfs l hl => ?_
  rw [List.append_nil, List.nil_append]
  by_contra hback
  rw [not_or, not_not] at hback
  have hf : f.isLabel = false := by
    cases f with
    | label l' => exact absurd hl List.not_mem_nil
    | _ => rfl
  obtain ⟨p, hp, hle⟩ := @label2pc_front f xs ys hf l hback.1 hback.2
  rw [← hfs] at hp
  have hfm : f ∈ out.finalFilters := hfs ▸ by simp
  have hby := finalFilters_byFields h f hfm
  obtain ⟨op, k, jt, jf, hres, hfield⟩ :
      ∃ op k jt jf, f.resolve (fun l => label2pc l out.finalFilters) (size xs) = .jump op k jt jf ∧
        (jt = .num (p - size xs - 1) ∨ jf = .num (p - size xs - 1)) := hby.resolve_label hl hp
  have hplace := transformFrom_place (fun l => label2pc l out.finalFilters) 0 xs hf ys
  rw [← hfs, Nat.zero_add, hres] at hplace
  have := (hfit op k jt jf (List.mem_of_getElem? hplace) _ hfield).1
  omega

/-- The check of the architecture holds the longest distance. -/
theorem distance_of_fieldsFit (hfit : out.FieldsFit) : out.denyDistance ≤ 255 := by
  by_cases hne : out.checks = []
  · unfold Output.denyDistance
    rw [hne]
    cases out.defaultDeny <;> decide
  · have hmem := List.mem_of_getElem? (archCheck_field hne)
    have := (hfit _ _ _ _ hmem out.denyDistance (.inr rfl)).2
    omega

/-- **The jump fields fit exactly when** no jump of a body goes backwards and at most 255 filters lie
between the check of the architecture and `__deny`: two more of the header, a comparison for each
check, its body, and the default `allow`. -/
theorem fieldsFit_iff {policys : List Policy} {orders : Nat → HashOrder} {out : Output}
    (h : compile policys orders = some out) :
    out.FieldsFit ↔
      out.JumpsAhead ∧ 3 + codeSize out.checks + (if out.defaultDeny then 0 else 1) ≤ 255 := by
  obtain ⟨⟨_, hcomp⟩, -, -⟩ := compile_spec h
  show _ ↔ _ ∧ out.denyDistance ≤ 255
  constructor
  · exact fun hfit => ⟨ahead_of_fieldsFit hcomp hfit, distance_of_fieldsFit hfit⟩
  · rintro ⟨hahead, hle⟩ op k jt jf hmem n hn
    obtain ⟨h0, h1⟩ := field_le hcomp hahead hmem hn
    omega

/-- Bodies that type-check jump forward, so that the longest distance decides. -/
theorem fieldsFit_of_distance {policys : List Policy} {orders : Nat → HashOrder} {out : Output}
    (h : compile policys orders = some out)
    (hwt : ∀ c ∈ policys.filterMap Policy.check?, allWellTyped c.stmts = true)
    (hle : out.denyDistance ≤ 255) : out.FieldsFit := by
  obtain ⟨⟨_, hcomp⟩, hchecks, -⟩ := compile_spec h
  have hahead := jumpsAhead_of_wellTyped hcomp fun c hc => hwt c.check (hchecks ▸ List.mem_map_of_mem hc)
  intro op k jt jf hmem n hn
  obtain ⟨h0, h1⟩ := field_le hcomp hahead hmem hn
  omega

/-- **Fields that fit are stored as they are**: the program C reads is the one with exact offsets. -/
theorem sockFilter_eq (hfit : out.FieldsFit) : out.sockFilter = out.program := by
  unfold Output.sockFilter Output.program program
  rw [List.map_map]
  refine List.map_congr_left fun f hf => ?_
  cases f with
  | label l => rfl
  | stmt op k => rfl
  | jump op k jt jf =>
    have hoff : ∀ t : Target, t = jt ∨ t = jf → ∀ n, t.offset = some n → 0 ≤ n ∧ n ≤ 255 := by
      intro t ht n hn
      cases t with
      | label l => cases hn
      | num m =>
        obtain rfl := Option.some.inj hn
        exact hfit op k jt jf hf m (ht.imp Eq.symm Eq.symm)
    exact stored_eq (hoff jt (.inl rfl)) (hoff jf (.inr rfl))

/-- A check that denies the values of `flags` below `count`, one `if` for each. -/
def denyFlags (syscall : String) (named : syscall ≠ "") (count : Nat) : Policy :=
  .check ⟨syscall, ["path", "flags", "mode"], (List.range count).map fun n =>
    .ifThen (.op2 .EQ (.ref "flags") (.value n)) (.perm .DENY), named⟩

/-- `allow all;` and such a check of `open`. -/
def shortPolicy : List Policy := [.defaultAllow, denyFlags "open" open_named 3]

theorem shortPolicy_fits : ∃ out, compile shortPolicy (fun _ => .insertion) = some out ∧
    out.FieldsFit := by
  obtain ⟨out, hout⟩ : ∃ out, compile shortPolicy (fun _ => .insertion) = some out := ⟨_, rfl⟩
  obtain ⟨⟨_, hcomp⟩, -, -⟩ := compile_spec hout
  have hwt : ∀ c ∈ out.checks, allWellTyped c.check.stmts = true := by
    obtain rfl := Option.some.inj hout
    decide
  have hle : 3 + codeSize out.checks + (if out.defaultDeny then 0 else 1) ≤ 255 := by
    obtain rfl := Option.some.inj hout
    decide
  exact ⟨out, hout, (fieldsFit_iff hout).mpr ⟨jumpsAhead_of_wellTyped hcomp hwt, hle⟩⟩

/-- `allow all;` and three checks of 28 values each: 85 filters for each check. -/
def longPolicy : List Policy :=
  [.defaultAllow, denyFlags "open" open_named 28, denyFlags "creat" (by decide) 28,
    denyFlags "openat" (by decide) 28]

theorem longPolicy_overflows : (∀ c ∈ longPolicy.filterMap Policy.check?,
      allWellTyped c.stmts = true) ∧
    ∃ out, compile longPolicy (fun _ => .insertion) = some out ∧ ¬ out.FieldsFit := by
  refine ⟨by decide, ?_⟩
  have hlen : ((compile longPolicy fun _ => .insertion).any fun out =>
      decide (255 < out.denyDistance)) = true := by decide +kernel
  cases hout : compile longPolicy fun _ => .insertion with
  | none =>
    rw [hout] at hlen
    cases hlen
  | some out =>
    rw [hout, Option.any_some, decide_eq_true_eq] at hlen
    refine ⟨out, rfl, fun hfit => ?_⟩
    have := distance_of_fieldsFit hfit
    omega

end SeccompPolicy
