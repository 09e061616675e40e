import SeccompPolicy.Handshake

/-!
# The body of a check in the seccomp program

`PolicyManager::BPFCodeGen` (`policy.cpp`) puts the filters of each check behind its comparison, and
`BPFTransformLabels` (`code_gen.cpp`) resolves all labels at once. A body that type-checks names its
own labels only, so it stands in the program as it would be resolved by itself (`CompiledCheck.body`),
and the program runs it as code in the middle of other code.

Jump offsets are the exact integers of `Output.program`. What changes when C cuts them to bytes is the
subject of `FallOff`; `JumpFields` says when nothing does.

## Results

* `body_label`, `body_placed`: the labels of a body stand for places in it, and its code is a closed
  segment of the program.
* `chain_run`, `entry_run`: the way through the comparisons, and from the start of the program into
  the body of the check with the number.
* `body_halts`, `body_falls`: the program run from the start of a body is the body run by itself, and
  then the program from the next comparison on.
* `step_default`: behind the last check stands the default action.
-/

namespace SeccompPolicy

open ClassicBpf SmallStep

/-! ## The body of a check in the program -/

/-- What the default label leads to. -/
def Output.defaultAction (out : Output) : Word :=
  if out.defaultDeny then SECCOMP_RET_KILL_PROCESS else SECCOMP_RET_ALLOW

/-- The code of a body by itself. -/
def CompiledCheck.body (c : CompiledCheck) : List Insn := program (bpfTransformLabels c.bpfFilters)

theorem CompiledCheck.body_length (c : CompiledCheck) : c.body.length = size c.bpfFilters := by
  unfold CompiledCheck.body program bpfTransformLabels
  rw [List.length_map, transformFrom_length]

theorem CompiledCheck.From.body_labels {m : CodeGenMgr} {o : HashOrder} {gl : RetGlobals}
    {c : CompiledCheck} (hc : c.From m o gl) : ∀ l ∈ filterLabels c.bpfFilters,
      Fresh m.labelCnt (irGenAll c.check.stmts m).mgr.labelCnt l := by
  obtain ⟨rest, hrest, hcmp, hgen⟩ := hc.filters'
  intro l hl
  refine checkIR_fresh c.check.stmts m c.syscall o gl l ?_
  rwa [← hc.bpfIR, hrest, List.tail_cons, ← genFilters_labels hcmp hgen]

/-- The labels of a body are between those of the checks before and those of the checks after. -/
theorem Compiled.split {m : CodeGenMgr} {gl gl' : RetGlobals} {xs ys : List CompiledCheck}
    {c : CompiledCheck} (h : Compiled m gl (xs ++ c :: ys) gl') : ∃ m₁ o gl₁, c.From m₁ o gl₁ ∧
      m.labelCnt ≤ m₁.labelCnt ∧
      (∀ c' ∈ xs, ∀ l ∈ filterLabels c'.bpfFilters, Fresh m.labelCnt m₁.labelCnt l) ∧
      ∀ c' ∈ ys, ∀ l ∈ filterLabels c'.bpfFilters,
        ∃ n, (irGenAll c.check.stmts m₁).mgr.labelCnt < n ∧ l = labelText n := by
  induction xs generalizing m gl with
  | nil =>
    cases h with
    | cons o hfrom hrest =>
      refine ⟨m, o, gl, hfrom, Nat.le_refl _, fun c' hc' => absurd hc' List.not_mem_nil, ?_⟩
      intro c' hc' l hl
      obtain ⟨m₂, o₂, gl₂, hfrom₂, hcnt, -⟩ := hrest.from_mem hc'
      obtain ⟨n, hn, -, rfl⟩ := hfrom₂.body_labels l hl
      exact ⟨n, by omega, rfl⟩
  | cons x xs ih =>
    cases h with
    | cons o hfrom hrest =>
      obtain ⟨m₁, o₁, gl₁, hfrom₁, hcnt, hbefore, hafter⟩ := ih hrest
      have hx := (all_emits x.check.stmts m).cnt
      refine ⟨m₁, o₁, gl₁, hfrom₁, Nat.le_trans hx hcnt, fun c' hc' l hl => ?_, hafter⟩
      rcases List.mem_cons.mp hc' with rfl | hc'
      · exact (hfrom.body_labels l hl).mono (Nat.le_refl _) hcnt
      · exact (hbefore c' hc' l hl).mono hx (Nat.le_refl _)

variable {out : Output}

/-- A generated label that no body of the checks has stands for nothing among their filters. -/
theorem not_mem_checksFilters {cs : List CompiledCheck} (hL : Labelled cs) {n : Nat}
    (h : ∀ c ∈ cs, labelText n ∉ filterLabels c.bpfFilters) (d : String) :
    labelText n ∉ filterLabels (checksFilters d cs) := by
  induction cs with
  | nil => exact List.not_mem_nil
  | cons c cs ih =>
    obtain ⟨hc, hcs⟩ := @Labelled.of_append [c] _ hL
    rw [checksFilters, filterLabels_append, CompiledCheck.filters, filterLabels_label,
      filterLabels_jump, List.mem_append, List.mem_cons, not_or, not_or]
    exact ⟨⟨fun he => (hc c List.mem_cons_self).1.ne_labelText n he.symm, h c List.mem_cons_self⟩,
      ih hcs fun c' hc' => h c' (List.mem_cons_of_mem c hc')⟩

theorem labelText_ne_default (n : Nat) : labelText n ≠ "__deny" ∧ labelText n ≠ "__allow" := by
  constructor <;> intro h <;> have := congrArg (fun s => s.toList.head?) h <;>
    simp [labelText] at this

/-- A label the body of a check names is its own, or stands for nothing: it is resolved to the offset
of the body, moved. -/
theorem body_label {m : CodeGenMgr} {gl : RetGlobals}
    (hcomp : Compiled m gl out.checks out.globals) {i : Nat} {c : CompiledCheck}
    (hc : out.checks[i]? = some c) (hwt : allWellTyped c.check.stmts = true) :
    ∀ f ∈ c.bpfFilters, ∀ l ∈ f.targets, label2pc l out.finalFilters =
      (label2pc l c.bpfFilters).map (out.cmpPc i + 1 + ·) := by
  intro f hf l hl
  have hL := hcomp.labelled
  obtain ⟨hlt, hci⟩ := List.getElem?_eq_some_iff.mp hc
  have hsplit : out.checks = out.checks.take i ++ c :: out.checks.drop (i + 1) := by
    rw [← hci, ← List.drop_eq_getElem_cons hlt, List.take_append_drop]
  rw [hsplit] at hcomp
  obtain ⟨m₁, o, gl₁, hfrom, hcnt, hbefore, hafter⟩ := hcomp.split
  obtain ⟨rest, hrest, hcmp, hgen⟩ := hfrom.filters'
  have hbranches := checkIR_branches c.check.stmts m₁ c.syscall o gl₁ hwt hfrom.known.ne_labelText
  rw [← hfrom.bpfIR] at hbranches
  obtain ⟨first, hF, hsize⟩ := finalFilters_check hc
  have hpre : filterLabels (headerFilters first) = [] := rfl
  obtain ⟨j, hj, hjf⟩ := mem_genFilters hcmp hgen hf
  have hjIR : j ∈ c.bpfIR := by
    rw [hrest]
    exact List.mem_cons_of_mem _ hj
  obtain ⟨n, hn, hn', rfl⟩ := (hbranches.targets j hjIR l (hjf.targets l hl)).resolve_left id
  have hLsplit := Labelled.of_append (hsplit ▸ hL)
  have hLafter := (@Labelled.of_append [c] _ hLsplit.2).2
  -- the checks in front and the checks behind have labels of other numbers
  have hxs : labelText n ∉ filterLabels (checksFilters c.syscall (out.checks.take i)) := by
    refine not_mem_checksFilters hLsplit.1 (fun c' hc' hmem => ?_) _
    obtain ⟨k, -, hk, he⟩ := hbefore c' hc' _ hmem
    have := labelText_inj.mp he
    omega
  have hys : labelText n ∉ filterLabels (checksFilters (defaultLabel out.defaultDeny)
      (out.checks.drop (i + 1)) ++ footerFilters out.defaultDeny) := by
    rw [filterLabels_append, List.mem_append, not_or]
    constructor
    · refine not_mem_checksFilters hLafter (fun c' hc' hmem => ?_) _
      obtain ⟨k, hk, he⟩ := hafter c' hc' _ hmem
      have := labelText_inj.mp he
      omega
    · exact fun hmem => (filterLabels_footer _ hmem).elim (labelText_ne_default n).1
        (labelText_ne_default n).2
  have hname : labelText n ∉ filterLabels (headerFilters first ++
      checksFilters c.syscall (out.checks.take i) ++ [.label c.syscall]) := by
    rw [filterLabels_append, filterLabels_append, hpre, List.nil_append, List.mem_append, not_or]
    refine ⟨hxs, fun hmem => ?_⟩
    exact hfrom.known.ne_labelText n (List.mem_singleton.mp hmem).symm
  rw [hF, label2pc_append, label2pc_cons rfl, label2pc_append, label2pc_eq_none.mpr hys,
    label2pc_eq_none.mpr hname, hsize]
  cases label2pc (labelText n) c.bpfFilters with
  | none => rfl
  | some p =>
    simp only [Option.map_some]
    congr 1
    omega

/-- **The code of a body stands in the program as it is by itself**: its labels are resolved to the
same offsets. -/
theorem body_placed {m : CodeGenMgr} {gl : RetGlobals}
    (hcomp : Compiled m gl out.checks out.globals) {i : Nat} {c : CompiledCheck}
    (hc : out.checks[i]? = some c) (hwt : allWellTyped c.check.stmts = true) : ∃ pre post,
    out.program = pre ++ c.body ++ post ∧ pre.length = out.cmpPc i + 1 ∧ Closed c.body := by
  have htarget := body_label hcomp hc hwt
  obtain ⟨m₁, o, gl₁, hfrom, -, -⟩ := hcomp.from_mem (List.mem_of_getElem? hc)
  obtain ⟨rest, hrest, hcmp, -⟩ := hfrom.filters'
  have hbranches := checkIR_branches c.check.stmts m₁ c.syscall o gl₁ hwt hfrom.known.ne_labelText
  rw [← hfrom.bpfIR] at hbranches
  obtain ⟨first, hF, hsize⟩ := finalFilters_check hc
  have hfront : size ((headerFilters first ++ checksFilters c.syscall (out.checks.take i) ++
      [.label c.syscall]) ++ [.jump [.JMP, .JEQ, .K] (.int (syscallNameToNr c.syscall)) (.num 0)
        (.label (nextLabel (defaultLabel out.defaultDeny) (out.checks.drop (i + 1))))]) =
      out.cmpPc i + 1 := by
    rw [size_append, hsize, size_jump, size_nil]
  rw [List.append_cons] at hF
  rw [hF, ← hfront] at htarget
  obtain ⟨pre, post, hprog, hlen⟩ := transform_segment htarget
  refine ⟨program pre, program post, ?_, ?_, ?_⟩
  · unfold Output.program CompiledCheck.body program
    rw [hF, hprog, List.map_append, List.map_append]
  · unfold program
    rw [List.length_map, hlen, hfront]
  · refine bpfCodeGen_closed (fun j hj => ?_) hbranches.forward hfrom.filters
    rw [hrest] at hj
    rcases List.mem_cons.mp hj with rfl | hj
    · trivial
    · exact hcmp j hj

/-! ## The run around the body -/

/-- **The chain of comparisons with `A`** is run through up to a check with that number. -/
theorem chain_run (hL : Labelled out.checks) (hnd : (out.checks.map CompiledCheck.syscall).Nodup)
    (d : SeccompData) (s : State) {i j : Nat} (hij : i ≤ j) (hj : j ≤ out.checks.length)
    (hpass : ∀ k c, i ≤ k → k < j → out.checks[k]? = some c → s.A ≠ c.nr) :
    Reaches (step out.program d) (out.cmpPc i, s) (out.cmpPc j, s) := by
  generalize hn : j - i = n
  induction n generalizing i with
  | zero =>
    obtain rfl : i = j := by omega
    exact .refl
  | succ n ih =>
    have hi : i < out.checks.length := by omega
    have hc := List.getElem?_eq_getElem hi
    have hrest := ih (i := i + 1) (by omega) (fun k c h1 h2 => hpass k c (by omega) h2) (by omega)
    have hstep := step_cmp_ne (d := d) hL hc (hpass i _ (Nat.le_refl i) (by omega) hc)
    rw [next_of_nodup hnd hi] at hstep
    exact hrest.head hstep

/-- Of the checks with different names only one has the number of a check. -/
theorem nr_ne_of_lt (hL : Labelled out.checks) (hnd : (out.checks.map CompiledCheck.syscall).Nodup)
    {i k : Nat} {c c' : CompiledCheck} (hc : out.checks[i]? = some c) (hc' : out.checks[k]? = some c')
    (hki : k ≠ i) : c.nr ≠ c'.nr := by
  intro hnr
  have hsame := (nr_inj (hL c (List.mem_of_getElem? hc)).1 (hL c' (List.mem_of_getElem? hc')).1).mp hnr
  exact hki (syscall_inj hnd hc hc' hsame).symm

/-- The number of a check is compared as it is. -/
theorem dispatchNr_nr {c : CompiledCheck} (h : Known c.syscall) : dispatchNr c.nr = c.nr :=
  if_neg (nr_le_limit h)

/-- **From the start into the body** of the check with the number. -/
theorem entry_run (hL : Labelled out.checks) (hnd : (out.checks.map CompiledCheck.syscall).Nodup)
    {i : Nat} {c : CompiledCheck} (hc : out.checks[i]? = some c) {d : SeccompData}
    (harch : d.arch = auditArchX86_64) (hnr : c.nr = dispatchNr d.nr) :
    Reaches (step out.program d) (0, {}) (out.cmpPc i + 1, { A := c.nr }) := by
  have hne : out.checks ≠ [] := List.ne_nil_of_mem (List.mem_of_getElem? hc)
  have hhead := header_run hL hne harch
  rw [(entry_spec hne d.nr).2.2 hnd, ← hnr] at hhead
  have hchain := chain_run hL hnd d { A := c.nr } (Nat.zero_le i)
    (Nat.le_of_lt (List.getElem?_eq_some_iff.mp hc).1) fun k c' _ hki hc' =>
      nr_ne_of_lt hL hnd hc hc' (Nat.ne_of_lt hki)
  exact hhead.reaches.trans (hchain.trans (.single (step_cmp_eq hc rfl)))

/-- The list ends with the default action, behind all checks. -/
theorem finalFilters_footer (hne : out.checks ≠ []) : ∃ front,
    out.finalFilters = front ++ footerFilters out.defaultDeny ∧
      size front = out.cmpPc out.checks.length := by
  obtain ⟨c, cs, hcs⟩ := List.exists_cons_of_ne_nil hne
  refine ⟨headerFilters c.syscall ++ checksFilters (defaultLabel out.defaultDeny) out.checks, ?_, ?_⟩
  · rw [finalFilters_eq hcs, List.append_assoc]
  · rw [size_append, size_checksFilters, size_headerFilters, Output.cmpPc, List.take_length]

theorem footer_default (out : Output) : ∃ l k rest, footerFilters out.defaultDeny =
    .label l :: .stmt [.RET, .K] k :: rest ∧ k.val = out.defaultAction := by
  unfold footerFilters Output.defaultAction
  cases out.defaultDeny with
  | true => exact ⟨_, _, _, rfl, rfl⟩
  | false => exact ⟨_, _, _, rfl, rfl⟩

/-- Behind the last check stands the default action. -/
theorem step_default (hne : out.checks ≠ []) (d : SeccompData) (s : State) :
    step out.program d (out.cmpPc out.checks.length, s) = .inr (some out.defaultAction) := by
  obtain ⟨front, hF, hsize⟩ := finalFilters_footer hne
  obtain ⟨l, k, rest, hfoot, hval⟩ := footer_default out
  rw [hfoot, List.append_cons] at hF
  have hplace := program_getElem rfl hF
  rw [size_append, size_label, size_nil, Nat.add_zero, hsize] at hplace
  rw [← hval]
  exact step_ret hplace rfl

section
variable {m : CodeGenMgr} {gl : RetGlobals} {i : Nat} {c : CompiledCheck} {d : SeccompData}
  {s s' : State}

/-- In the program a body returns what its filter returns, or goes on behind the body. -/
theorem body_halts (hcomp : Compiled m gl out.checks out.globals) (hc : out.checks[i]? = some c)
    (hwt : allWellTyped c.check.stmts = true) {o : Option Word} :
    Halts (step out.program d) (out.cmpPc i + 1, s) o ↔ ∃ r, Halts (segStep c.body d) (0, s) r ∧
      (r = .inl o ∨ ∃ s', r = .inr s' ∧
        Halts (step out.program d) (out.cmpPc (i + 1), s') o) := by
  obtain ⟨pre, post, hprog, hpre, hclosed⟩ := body_placed hcomp hc hwt
  have hend : pre.length + c.body.length = out.cmpPc (i + 1) := by
    rw [hpre, CompiledCheck.body_length, cmpPc_succ hc]
  rw [← hpre, ← Nat.add_zero pre.length, hprog, segment_halts hclosed (Nat.zero_le _), hend]

/-- A body that falls off comes to the comparison behind it. -/
theorem body_falls (hcomp : Compiled m gl out.checks out.globals) (hc : out.checks[i]? = some c)
    (hwt : allWellTyped c.check.stmts = true) (hr : Halts (segStep c.body d) (0, s) (.inr s')) :
    Reaches (step out.program d) (out.cmpPc i + 1, s) (out.cmpPc (i + 1), s') := by
  obtain ⟨pre, post, hprog, hpre, hclosed⟩ := body_placed hcomp hc hwt
  have hfalls := @segment_falls d pre _ post hclosed _ (Nat.zero_le _) _ _ hr
  rwa [← hprog, CompiledCheck.body_length, Nat.add_zero, hpre, ← cmpPc_succ hc] at hfalls

end

end SeccompPolicy
