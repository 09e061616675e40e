import SeccompPolicy.Policy

/-!
# The dispatch: from the number of a system call to the body of its check

Source: `PolicyManager::BPFCodeGen` of `policy.cpp`, the part around the bodies.

The comparisons are linked by labels that are the syscall names themselves, and a label stands for
its last definition. When a name is defined twice, a comparison of an earlier check with that name
as its next one jumps over what is in between.

`Output.cmpPc` is where the comparison of a check stands, `lastIdx` the last check of a name,
`Output.next` where a comparison leads on a different number. The header checks the architecture
and the number: numbers up to `upper_nr_limit` go to the name of the first check, and in larger
ones bit 30 is cleared first (`dispatchNr`). The offsets are the exact integers of
`Output.program`.

## Results

* `label2pc_name`, `label2pc_default`: what the labels of the dispatch stand for.
* `step_cmp_eq`, `step_cmp_ne`: one comparison.
* `header_steps`, `header_run`: the header.
* `dispatch_run`: the chain from any comparison on visits last definitions only, and stops at a
  check with the number in `A` or behind the last check. The induction is on the checks that are
  left.
* `dispatch_first_iff`: the first check with the number is the one entered, and without one the
  default action, for every number exactly when no name is defined twice.
* `repeatedSocket_skips`: a check of `socket`, one of `connect`, and `socket` again: the check of
  `connect` is skipped.
-/

namespace SeccompPolicy

open ClassicBpf SmallStep

/-! ## Places -/

/-- How many instructions the checks take. -/
def codeSize : List CompiledCheck → Nat
  | [] => 0
  | c :: cs => size c.bpfFilters + 1 + codeSize cs

/-- Where the comparison of check number `i` stands; behind the last check, the default action. -/
def Output.cmpPc (out : Output) (i : Nat) : Nat := 5 + codeSize (out.checks.take i)

/-- The number a check is for. -/
def CompiledCheck.nr (c : CompiledCheck) : Word := BitVec.ofInt 32 (syscallNameToNr c.syscall)

/-- The names are known, and the bodies define generated labels only. -/
def Labelled (cs : List CompiledCheck) : Prop :=
  ∀ c ∈ cs, Known c.syscall ∧ ∀ l ∈ filterLabels c.bpfFilters, ∃ n, l = labelText n

theorem Compiled.labelled {m : CodeGenMgr} {gl gl' : RetGlobals} {cs : List CompiledCheck}
    (h : Compiled m gl cs gl') : Labelled cs := by
  induction h with
  | nil => exact fun c hc => absurd hc List.not_mem_nil
  | @cons m gl gl' c cs o hc _ ih =>
    intro c' hc'
    rcases List.mem_cons.mp hc' with rfl | hc'
    · refine ⟨hc.known, fun l hl => ?_⟩
      have hcmp := checkIR_compares c'.check.stmts m c'.syscall o gl
      have hf := hc.filters
      rw [hc.bpfIR] at hf
      rw [genFilters_labels (fun i hi => hcmp i (List.mem_of_mem_tail hi)) hf] at hl
      obtain ⟨n, -, -, hn⟩ := checkIR_fresh _ _ _ _ _ l hl
      exact ⟨n, hn⟩
    · exact ih c' hc'

theorem Labelled.of_append {xs ys : List CompiledCheck} (h : Labelled (xs ++ ys)) :
    Labelled xs ∧ Labelled ys :=
  ⟨fun c hc => h c (List.mem_append_left _ hc), fun c hc => h c (List.mem_append_right _ hc)⟩

/-- Different known names have different numbers, as words too. -/
theorem nr_inj {c c' : CompiledCheck} (h : Known c.syscall) (h' : Known c'.syscall) :
    c.nr = c'.nr ↔ c.syscall = c'.syscall := by
  constructor
  · intro he
    obtain ⟨n, hn, hlt⟩ := h.lt
    obtain ⟨n', hn', hlt'⟩ := h'.lt
    refine syscallNameToNr_inj h h' ?_
    unfold CompiledCheck.nr at he
    rw [hn, hn', BitVec.ofInt_natCast, BitVec.ofInt_natCast, ← BitVec.toNat_inj] at he
    simp only [BitVec.toNat_ofNat] at he
    rw [hn, hn']
    omega
  · intro he
    unfold CompiledCheck.nr
    rw [he]

theorem nextLabel_append (d : String) (xs ys : List CompiledCheck) :
    nextLabel d (xs ++ ys) = nextLabel (nextLabel d ys) xs := by
  cases xs <;> rfl

theorem checksFilters_append (d : String) (xs ys : List CompiledCheck) :
    checksFilters d (xs ++ ys) = checksFilters (nextLabel d ys) xs ++ checksFilters d ys := by
  induction xs with
  | nil => rfl
  | cons c xs ih =>
    rw [List.cons_append, checksFilters, checksFilters, ih, nextLabel_append, List.append_assoc]

theorem size_filters (c : CompiledCheck) (next : String) :
    size (c.filters next) = size c.bpfFilters + 1 := by
  rw [CompiledCheck.filters, size_label, size_jump]

theorem size_checksFilters (d : String) (cs : List CompiledCheck) :
    size (checksFilters d cs) = codeSize cs := by
  induction cs with
  | nil => rfl
  | cons c cs ih => rw [checksFilters, size_append, size_filters, ih, codeSize]

theorem codeSize_append (xs ys : List CompiledCheck) :
    codeSize (xs ++ ys) = codeSize xs + codeSize ys := by
  induction xs with
  | nil => simp [codeSize]
  | cons c xs ih => simp only [List.cons_append, codeSize, ih]; omega

/-! ## What the labels stand for -/

/-- The number of the last check of a name. -/
def lastIdx (l : String) : List CompiledCheck → Option Nat
  | [] => none
  | c :: cs =>
    match lastIdx l cs with
    | some n => some (n + 1)
    | none => if c.syscall = l then some 0 else none

theorem lastIdx_eq_none {l : String} {cs : List CompiledCheck} :
    lastIdx l cs = none ↔ l ∉ cs.map CompiledCheck.syscall := by
  induction cs with
  | nil => simp [lastIdx]
  | cons c cs ih =>
    unfold lastIdx
    rw [List.map_cons, List.mem_cons, not_or, ← ih]
    cases lastIdx l cs <;> simp [eq_comm]

/-- The check `lastIdx` gives has the name, and no later one has it. -/
theorem lastIdx_spec {l : String} {cs : List CompiledCheck} {j : Nat} (h : lastIdx l cs = some j) :
    (∃ c, cs[j]? = some c ∧ c.syscall = l) ∧
      ∀ k c, cs[k]? = some c → c.syscall = l → k ≤ j := by
  induction cs generalizing j with
  | nil => simp [lastIdx] at h
  | cons c cs ih =>
    unfold lastIdx at h
    cases hl : lastIdx l cs with
    | some n =>
      simp only [hl, Option.some.injEq] at h
      subst h
      obtain ⟨hc, hlast⟩ := ih hl
      refine ⟨hc, fun k c' hk hc' => ?_⟩
      cases k with
      | zero => omega
      | succ k => exact Nat.succ_le_succ (hlast k c' hk hc')
    | none =>
      simp only [hl, Option.ite_none_right_eq_some, Option.some.injEq] at h
      obtain ⟨hc, rfl⟩ := h
      refine ⟨⟨c, rfl, hc⟩, fun k c' hk hc' => ?_⟩
      cases k with
      | zero => exact Nat.le_refl _
      | succ k =>
        have hmem : c' ∈ cs := List.mem_of_getElem? hk
        exact absurd (List.mem_map.mpr ⟨c', hmem, hc'⟩) (lastIdx_eq_none.mp hl)

/-- Among the filters of the checks, a name stands for the last check of that name. -/
theorem label2pc_checksFilters {cs : List CompiledCheck} (hL : Labelled cs) (d : String)
    {l : String} (hl : ∀ n, l ≠ labelText n) : label2pc l (checksFilters d cs) =
      (lastIdx l cs).map fun i => codeSize (cs.take i) := by
  induction cs with
  | nil => rfl
  | cons c cs ih =>
    obtain ⟨hc, hcs⟩ := @Labelled.of_append [c] _ hL
    have hbody : label2pc l c.bpfFilters = none := label2pc_eq_none.mpr fun hm => by
      obtain ⟨n, hn⟩ := (hc c List.mem_cons_self).2 l hm
      exact hl n hn
    have hown : label2pc l (c.filters (nextLabel d cs)) =
        if c.syscall = l then some 0 else none := by
      unfold CompiledCheck.filters
      rw [label2pc, label2pc_cons rfl, hbody]
      simp only [Option.map_none, BPFFilter.label.injEq]
    rw [checksFilters, label2pc_append, ih hcs, hown, lastIdx]
    cases lastIdx l cs with
    | none => by_cases h : c.syscall = l <;> simp [h, codeSize]
    | some n => simp [size_filters, codeSize]

variable {out : Output}

/-- The program's text around the filters of the checks. -/
theorem finalFilters_eq {c : CompiledCheck} {cs : List CompiledCheck} (h : out.checks = c :: cs) :
    out.finalFilters = headerFilters c.syscall ++
      (checksFilters (defaultLabel out.defaultDeny) out.checks ++ footerFilters out.defaultDeny) := by
  unfold Output.finalFilters
  rw [h]

/-- Without checks nothing is written. -/
theorem finalFilters_nil (h : out.checks = []) : out.finalFilters = [] := by
  unfold Output.finalFilters
  rw [h]

/-- What holds of labels, of the comparisons and of the filters of the bodies holds of the filters of
the checks. -/
theorem forall_checksFilters {P : BPFFilter → Prop} {cs : List CompiledCheck}
    (hlabel : ∀ l, P (.label l))
    (hcmp : ∀ nr l, P (.jump [.JMP, .JEQ, .K] (.int nr) (.num 0) (.label l)))
    (hbody : ∀ c ∈ cs, ∀ f ∈ c.bpfFilters, P f) (d : String) : ∀ f ∈ checksFilters d cs, P f := by
  induction cs with
  | nil => exact List.forall_mem_nil _
  | cons c cs ih =>
    rw [checksFilters, CompiledCheck.filters, List.cons_append, List.cons_append,
      List.forall_mem_cons, List.forall_mem_cons, List.forall_mem_append]
    exact ⟨hlabel _, hcmp _ _, hbody c List.mem_cons_self,
      ih fun c' hc' => hbody c' (List.mem_cons_of_mem c hc')⟩

/-- What holds of labels and of both returns holds of the default action. -/
theorem forall_footerFilters {P : BPFFilter → Prop} (hlabel : ∀ l, P (.label l))
    (hallow : P (.stmt [.RET, .K] .retAllow)) (hkill : P (.stmt [.RET, .K] .retKillProcess))
    (deny : Bool) : ∀ f ∈ footerFilters deny, P f := by
  cases deny <;>
    simp only [footerFilters, List.forall_mem_cons, Bool.false_eq_true, if_false, if_true,
      List.cons_append, List.nil_append]
  · exact ⟨hlabel _, hallow, hlabel _, hkill, List.forall_mem_nil _⟩
  · exact ⟨hlabel _, hkill, List.forall_mem_nil _⟩

/-- What holds of the filters of the header, of the checks and of the actions holds of all. -/
theorem forall_finalFilters {P : BPFFilter → Prop}
    (hheader : ∀ first, ∀ f ∈ headerFilters first, P f)
    (hchecks : ∀ f ∈ checksFilters (defaultLabel out.defaultDeny) out.checks, P f)
    (hfooter : ∀ f ∈ footerFilters out.defaultDeny, P f) : ∀ f ∈ out.finalFilters, P f := by
  cases hcs : out.checks with
  | nil =>
    rw [finalFilters_nil hcs]
    exact List.forall_mem_nil _
  | cons c cs =>
    rw [finalFilters_eq hcs]
    exact List.forall_mem_append.mpr ⟨hheader _, List.forall_mem_append.mpr ⟨hchecks, hfooter⟩⟩

theorem size_headerFilters (l : String) : size (headerFilters l) = 5 := rfl

theorem filterLabels_footer (deny : Bool) {l : String} (hl : l ∈ filterLabels (footerFilters deny)) :
    l = "__deny" ∨ l = "__allow" := by
  cases deny with
  | true => exact .inl (by simpa [footerFilters, defaultLabel] using hl)
  | false => exact (by simpa [footerFilters, defaultLabel] using hl : _ ∨ _).symm

/-- **A name stands for the last check of that name.** -/
theorem label2pc_name (hL : Labelled out.checks) {l : String} (hl : Known l) {j : Nat}
    (hj : lastIdx l out.checks = some j) : label2pc l out.finalFilters = some (out.cmpPc j) := by
  cases hcs : out.checks with
  | nil => simp [hcs, lastIdx] at hj
  | cons c cs =>
    have hfoot : label2pc l (footerFilters out.defaultDeny) = none := label2pc_eq_none.mpr fun hm =>
      (filterLabels_footer _ hm).elim hl.ne_default.1 hl.ne_default.2
    rw [finalFilters_eq hcs, label2pc_append, label2pc_append, hfoot,
      label2pc_checksFilters hL _ hl.ne_labelText, hj]
    rfl

/-- The default label stands for the place behind the last check. -/
theorem label2pc_default {c : CompiledCheck} {cs : List CompiledCheck} (h : out.checks = c :: cs) :
    label2pc (defaultLabel out.defaultDeny) out.finalFilters =
      some (out.cmpPc out.checks.length) := by
  have hfoot : label2pc (defaultLabel out.defaultDeny) (footerFilters out.defaultDeny) = some 0 := by
    cases out.defaultDeny <;> decide
  rw [finalFilters_eq h, label2pc_append, label2pc_append, hfoot, Output.cmpPc, List.take_length]
  simp only [size_checksFilters, size_headerFilters, Nat.add_zero]

/-! ## The instructions of the dispatch -/

/-- The instruction made of a filter of the program. -/
theorem program_getElem {xs ys : List BPFFilter} {f : BPFFilter} (hf : f.isLabel = false)
    (h : out.finalFilters = xs ++ f :: ys) : out.program[size xs]? =
      some (f.resolve (fun l => label2pc l out.finalFilters) (size xs)).insn := by
  unfold Output.program SeccompPolicy.program bpfTransformLabels
  have := transformFrom_place (fun l => label2pc l out.finalFilters) 0 xs hf ys
  rw [← h, Nat.zero_add] at this
  rw [List.getElem?_map, this]
  rfl

/-- The text around the comparison of a check. -/
theorem finalFilters_check {i : Nat} {c : CompiledCheck} (hc : out.checks[i]? = some c) :
    ∃ first, out.finalFilters = (headerFilters first ++
        checksFilters c.syscall (out.checks.take i) ++ [.label c.syscall]) ++
      .jump [.JMP, .JEQ, .K] (.int (syscallNameToNr c.syscall)) (.num 0)
        (.label (nextLabel (defaultLabel out.defaultDeny) (out.checks.drop (i + 1)))) ::
      (c.bpfFilters ++ (checksFilters (defaultLabel out.defaultDeny) (out.checks.drop (i + 1)) ++
        footerFilters out.defaultDeny)) ∧
      size (headerFilters first ++ checksFilters c.syscall (out.checks.take i) ++
        [.label c.syscall]) = out.cmpPc i := by
  obtain ⟨hlt, hci⟩ := List.getElem?_eq_some_iff.mp hc
  have hsplit : out.checks = out.checks.take i ++ c :: out.checks.drop (i + 1) := by
    rw [← hci, ← List.drop_eq_getElem_cons hlt, List.take_append_drop]
  cases hcs : out.checks with
  | nil => simp [hcs] at hlt
  | cons c₀ cs =>
    refine ⟨c₀.syscall, ?_, ?_⟩
    · rw [finalFilters_eq hcs, ← hcs]
      conv => lhs; rw [hsplit]
      rw [checksFilters_append, checksFilters]
      simp only [nextLabel, CompiledCheck.filters, List.append_assoc, List.cons_append,
        List.nil_append]
    · simp only [size_append, size_checksFilters, size_headerFilters, size_label, size_nil,
        Nat.add_zero, Output.cmpPc, hcs]

/-- Where the comparison of check number `i` leads on a different number. -/
def Output.next (out : Output) (i : Nat) : Nat :=
  match out.checks[i + 1]? with
  | none => out.checks.length
  | some c => (lastIdx c.syscall out.checks).getD 0

theorem lastIdx_getElem {cs : List CompiledCheck} {i : Nat} {c : CompiledCheck}
    (hc : cs[i]? = some c) : ∃ j, lastIdx c.syscall cs = some j ∧ i ≤ j ∧ j < cs.length := by
  cases hj : lastIdx c.syscall cs with
  | none => exact absurd (List.mem_map_of_mem (List.mem_of_getElem? hc)) (lastIdx_eq_none.mp hj)
  | some j =>
    obtain ⟨⟨c', hc', -⟩, hlast⟩ := lastIdx_spec hj
    exact ⟨j, rfl, hlast i c hc rfl, (List.getElem?_eq_some_iff.mp hc').1⟩

theorem next_spec {i : Nat} (hi : i < out.checks.length) : i < out.next i ∧
    out.next i ≤ out.checks.length ∧
    ∀ c, out.checks[out.next i]? = some c → lastIdx c.syscall out.checks = some (out.next i) := by
  unfold Output.next
  cases hc : out.checks[i + 1]? with
  | none =>
    refine ⟨hi, Nat.le_refl _, fun c hc' => ?_⟩
    simp at hc'
  | some c =>
    obtain ⟨j, hj, hij, hlt⟩ := lastIdx_getElem hc
    simp only [hj, Option.getD_some]
    refine ⟨hij, Nat.le_of_lt hlt, fun c' hc' => ?_⟩
    obtain ⟨⟨c₁, hc₁, hname⟩, -⟩ := lastIdx_spec hj
    obtain rfl := Option.some.inj (hc₁.symm.trans hc')
    rw [hname, hj]

theorem syscall_inj {cs : List CompiledCheck} (hnd : (cs.map CompiledCheck.syscall).Nodup)
    {i j : Nat} {c c' : CompiledCheck} (hc : cs[i]? = some c) (hc' : cs[j]? = some c')
    (h : c.syscall = c'.syscall) : i = j := by
  have hi : i < (cs.map CompiledCheck.syscall).length := by
    rw [List.length_map]
    exact (List.getElem?_eq_some_iff.mp hc).1
  refine (List.getElem?_inj hi hnd).mp ?_
  rw [List.getElem?_map, List.getElem?_map, hc, hc', Option.map_some, Option.map_some, h]

/-- When no name repeats the next check is the next one of the list. -/
theorem next_of_nodup (hnd : (out.checks.map CompiledCheck.syscall).Nodup) {i : Nat}
    (hi : i < out.checks.length) : out.next i = i + 1 := by
  unfold Output.next
  cases hc : out.checks[i + 1]? with
  | none =>
    have := List.getElem?_eq_none_iff.mp hc
    simp only
    omega
  | some c =>
    obtain ⟨j, hj, -, -⟩ := lastIdx_getElem hc
    obtain ⟨⟨c', hc', hname⟩, -⟩ := lastIdx_spec hj
    simp only [hj, Option.getD_some]
    exact syscall_inj hnd hc' hc hname

theorem codeSize_take_succ {cs : List CompiledCheck} {i : Nat} {c : CompiledCheck}
    (hc : cs[i]? = some c) :
    codeSize (cs.take (i + 1)) = codeSize (cs.take i) + (size c.bpfFilters + 1) := by
  obtain ⟨hlt, rfl⟩ := List.getElem?_eq_some_iff.mp hc
  rw [List.take_succ_eq_append_getElem hlt, codeSize_append]
  rfl

/-- The body of a check lies between its comparison and the next one. -/
theorem cmpPc_succ {i : Nat} {c : CompiledCheck} (hc : out.checks[i]? = some c) :
    out.cmpPc (i + 1) = out.cmpPc i + 1 + size c.bpfFilters := by
  unfold Output.cmpPc
  rw [codeSize_take_succ hc]
  omega

theorem cmpPc_le {i j : Nat} (h : i ≤ j) : out.cmpPc i ≤ out.cmpPc j := by
  unfold Output.cmpPc
  have : out.checks.take i = (out.checks.take j).take i := by
    rw [List.take_take, Nat.min_eq_left h]
  rw [← List.take_append_drop i (out.checks.take j), ← this, codeSize_append]
  omega

theorem cmpPc_lt {i j : Nat} (h : i < j) (hi : i < out.checks.length) :
    out.cmpPc i < out.cmpPc j := by
  have hsucc := cmpPc_succ (List.getElem?_eq_getElem hi)
  have hle : out.cmpPc (i + 1) ≤ out.cmpPc j := cmpPc_le h
  omega

/-- The comparison of a check on its number. -/
theorem step_cmp_eq {i : Nat} {c : CompiledCheck} (hc : out.checks[i]? = some c)
    {d : SeccompData} {s : State} (hA : s.A = c.nr) :
    step out.program d (out.cmpPc i, s) = .inl (out.cmpPc i + 1, s) := by
  obtain ⟨first, hF, hsize⟩ := finalFilters_check hc
  have hi := program_getElem rfl hF
  rw [hsize] at hi
  refine step_skip (n := 0) hi ?_
  exact (exec_jeq d c.nr _ _ s).trans (by rw [if_pos hA]; rfl)

/-- The comparison of a check on another number. -/
theorem step_cmp_ne (hL : Labelled out.checks) {i : Nat} {c : CompiledCheck}
    (hc : out.checks[i]? = some c) {d : SeccompData} {s : State} (hA : s.A ≠ c.nr) :
    step out.program d (out.cmpPc i, s) = .inl (out.cmpPc (out.next i), s) := by
  have hlt := (List.getElem?_eq_some_iff.mp hc).1
  obtain ⟨first, hF, hsize⟩ := finalFilters_check hc
  have hi := program_getElem rfl hF
  rw [hsize] at hi
  -- what the label of the next check stands for
  have hlabel : label2pc (nextLabel (defaultLabel out.defaultDeny) (out.checks.drop (i + 1)))
      out.finalFilters = some (out.cmpPc (out.next i)) := by
    unfold Output.next
    cases hc' : out.checks[i + 1]? with
    | none =>
      obtain ⟨c₀, cs, hcs⟩ := List.exists_cons_of_ne_nil
        (List.ne_nil_of_length_pos (by omega : 0 < out.checks.length))
      rw [List.drop_eq_nil_of_le (List.getElem?_eq_none_iff.mp hc')]
      exact label2pc_default hcs
    | some c' =>
      obtain ⟨j, hj, -, -⟩ := lastIdx_getElem hc'
      obtain ⟨hlt', rfl⟩ := List.getElem?_eq_some_iff.mp hc'
      rw [List.drop_eq_getElem_cons hlt']
      simp only [hj, Option.getD_some, nextLabel]
      exact label2pc_name hL (hL _ (List.getElem_mem hlt')).1 hj
  have hpc := cmpPc_lt (next_spec hlt).1 hlt
  have hoff : ((out.cmpPc (out.next i) : Int) - out.cmpPc i - 1) =
      ((out.cmpPc (out.next i) - (out.cmpPc i + 1) : Nat) : Int) := by omega
  have hexec := exec_jeq d c.nr (some 0)
    (some ((out.cmpPc (out.next i) : Int) - out.cmpPc i - 1)) s
  rw [if_neg hA, hoff] at hexec
  have hpc' : out.cmpPc i + 1 + (out.cmpPc (out.next i) - (out.cmpPc i + 1)) =
      out.cmpPc (out.next i) := by omega
  rw [← hpc']
  refine step_skip hi ?_
  rw [← hexec]
  simp only [BPFFilter.resolve, Target.resolve, hlabel, hoff]
  rfl

/-! ## The run of the dispatch -/

/-- The number the comparisons are made with: bit 30 is cleared in numbers of the x32 ABI. -/
def dispatchNr (nr : Word) : Word := if 0x3fffffff#32 < nr then nr &&& ~~~ 0x40000000#32 else nr

/-- The program is in the header, or at a comparison with another number. -/
def Output.Dispatching (out : Output) (c : Config) : Prop :=
  c.1 < 5 ∨ ∃ i cc, out.checks[i]? = some cc ∧ c.1 = out.cmpPc i ∧ c.2.A ≠ cc.nr

/-- **The chain from a comparison on** passes comparisons with other numbers, each of the last
check of its name, up to a check with the number or to the place behind the last check. -/
theorem dispatch_run (hL : Labelled out.checks) (d : SeccompData) (s : State) {i : Nat}
    (hi : i ≤ out.checks.length) : ∃ j, i ≤ j ∧ j ≤ out.checks.length ∧
      ReachesVia (step out.program d) out.Dispatching (out.cmpPc i, s) (out.cmpPc j, s) ∧
      (∀ c, out.checks[j]? = some c → s.A = c.nr) ∧
      (j = i ∨ ∀ c, out.checks[j]? = some c → lastIdx c.syscall out.checks = some j) ∧
      ((out.checks.map CompiledCheck.syscall).Nodup →
        ∀ k c, i ≤ k → k < j → out.checks[k]? = some c → s.A ≠ c.nr) := by
  generalize hn : out.checks.length - i = n
  induction n using Nat.strongRecOn generalizing i with
  | ind n ih =>
    cases hc : out.checks[i]? with
    | none =>
      refine ⟨i, Nat.le_refl _, hi, .refl, fun c hc' => ?_, .inl rfl, fun _ k _ h1 h2 => ?_⟩
      · rw [hc] at hc'
        cases hc'
      · omega
    | some c =>
      have hlt := (List.getElem?_eq_some_iff.mp hc).1
      by_cases hA : s.A = c.nr
      · refine ⟨i, Nat.le_refl _, hi, .refl, fun c' hc' => ?_, .inl rfl, fun _ k _ h1 h2 => ?_⟩
        · obtain rfl := Option.some.inj (hc.symm.trans hc')
          exact hA
        · omega
      · obtain ⟨hgt, hle, hlast⟩ := next_spec hlt
        obtain ⟨j, hij, hj, hrun, hstop, hplace, hnone⟩ := ih _ (by omega) hle rfl
        refine ⟨j, by omega, hj, .head (.inr ⟨i, c, hc, rfl, hA⟩) (step_cmp_ne hL hc hA) hrun,
          hstop, .inr ?_, fun hnd k c' h1 h2 hc' => ?_⟩
        · rcases hplace with rfl | hplace
          · exact hlast
          · exact hplace
        · have hnext := next_of_nodup hnd hlt
          by_cases hk : k = i
          · subst hk
            obtain rfl := Option.some.inj (hc.symm.trans hc')
            exact hA
          · exact hnone hnd k c' (by omega) h2 hc'

/-- Where the header leads: to the last check of the first name, or straight on. -/
def Output.entry (out : Output) (nr : Word) : Nat :=
  match out.checks with
  | [] => 0
  | c :: _ => if 0x3fffffff#32 < nr then 0 else (lastIdx c.syscall out.checks).getD 0

theorem entry_spec (hne : out.checks ≠ []) (nr : Word) : out.entry nr < out.checks.length ∧
    (¬ 0x3fffffff#32 < nr → ∀ c, out.checks[out.entry nr]? = some c →
      lastIdx c.syscall out.checks = some (out.entry nr)) ∧
    ((out.checks.map CompiledCheck.syscall).Nodup → out.entry nr = 0) := by
  unfold Output.entry
  split
  · rename_i h
    exact absurd h hne
  · rename_i c cs h
    have hc : out.checks[0]? = some c := by rw [h]; rfl
    split
    · rename_i hnr
      exact ⟨by rw [h]; exact Nat.succ_pos _, fun hn => absurd hnr hn, fun _ => rfl⟩
    · obtain ⟨j, hj, -, hlt⟩ := lastIdx_getElem hc
      obtain ⟨⟨c', hc', hname⟩, -⟩ := lastIdx_spec hj
      simp only [hj, Option.getD_some]
      refine ⟨hlt, fun _ c'' hc'' => ?_, fun hnd => syscall_inj hnd hc' hc hname⟩
      obtain rfl := Option.some.inj (hc'.symm.trans hc'')
      rw [hname, hj]

/-- The header checks the architecture and loads the number; on a number of the x86-64 ABI it jumps to
the first name. -/
theorem header_steps (hL : Labelled out.checks) (hne : out.checks ≠ []) {d : SeccompData}
    (harch : d.arch = auditArchX86_64) :
    step out.program d (0, {}) = .inl (1, { A := d.arch }) ∧
      step out.program d (1, { A := d.arch }) = .inl (2, { A := d.arch }) ∧
      step out.program d (2, { A := d.arch }) = .inl (3, { A := d.nr }) ∧
      (¬ 0x3fffffff#32 < d.nr → step out.program d (3, { A := d.nr }) =
        .inl (out.cmpPc (out.entry d.nr), { A := d.nr })) ∧
      (0x3fffffff#32 < d.nr → step out.program d (3, { A := d.nr }) = .inl (4, { A := d.nr }) ∧
        step out.program d (4, { A := d.nr }) = .inl (5, { A := d.nr &&& ~~~ 0x40000000#32 })) := by
  obtain ⟨c, cs, hcs⟩ := List.exists_cons_of_ne_nil hne
  have hF := finalFilters_eq hcs
  generalize checksFilters (defaultLabel out.defaultDeny) out.checks ++
    footerFilters out.defaultDeny = rest at hF
  have h0 := @program_getElem out [] _ _ rfl hF
  have h1 := @program_getElem out [_] _ _ rfl hF
  have h2 := @program_getElem out [_, _] _ _ rfl hF
  have h3 := @program_getElem out [_, _, _] _ _ rfl hF
  have h4 := @program_getElem out [_, _, _, _] _ _ rfl hF
  refine ⟨step_next h0 rfl, ?_, step_next h2 rfl, fun hnr => ?_, fun hnr => ⟨?_, ?_⟩⟩
  · exact step_skip (n := 0) h1
      ((exec_jeq d auditArchX86_64 (some 0) _ _).trans (if_pos harch ▸ rfl))
  · have hc : out.checks[0]? = some c := by rw [hcs]; rfl
    obtain ⟨j, hj, -, -⟩ := lastIdx_getElem hc
    have hentry : out.entry d.nr = j := by
      unfold Output.entry
      rw [hcs] at hj ⊢
      simp only [if_neg hnr, hj, Option.getD_some]
    have hlabel := label2pc_name hL (hL c (List.mem_of_getElem? hc)).1 hj
    have hpc : 5 ≤ out.cmpPc j := Nat.le_add_right _ _
    have hoff : ((out.cmpPc j : Int) - 3 - 1) = ((out.cmpPc j - 4 : Nat) : Int) := by omega
    have hpc' : out.cmpPc j = 3 + 1 + (out.cmpPc j - 4) := by omega
    rw [hentry, hpc']
    refine step_skip h3 ?_
    have hexec := exec_jgt d 0x3fffffff#32 (some 0) (some ((out.cmpPc j - 4 : Nat) : Int))
      { A := d.nr }
    rw [if_neg hnr] at hexec
    rw [← hexec, ← hoff]
    simp only [BPFFilter.resolve, Target.resolve, hlabel]
    rfl
  · exact step_skip (n := 0) h3 ((exec_jgt d 0x3fffffff#32 (some 0) _ _).trans (if_pos hnr ▸ rfl))
  · exact step_next h4 (exec_and d _ _ _ _)

/-- **The header** lets the x86-64 architecture pass and loads the number. -/
theorem header_run (hL : Labelled out.checks) (hne : out.checks ≠ []) {d : SeccompData}
    (harch : d.arch = auditArchX86_64) : ReachesVia (step out.program d) out.Dispatching (0, {})
      (out.cmpPc (out.entry d.nr), { A := dispatchNr d.nr }) := by
  obtain ⟨s0, s1, s2, s3, s4⟩ := header_steps hL hne harch
  have hin : ∀ (k : Nat) (s : State), k < 5 → out.Dispatching (k, s) := fun _ _ h => .inl h
  refine .head (hin 0 _ (by decide)) s0 (.head (hin 1 _ (by decide)) s1
    (.head (hin 2 _ (by decide)) s2 ?_))
  by_cases hnr : 0x3fffffff#32 < d.nr
  · obtain ⟨s3', s4'⟩ := s4 hnr
    have hentry : out.entry d.nr = 0 := by
      unfold Output.entry
      split
      · rfl
      · exact if_pos hnr
    rw [hentry, dispatchNr, if_pos hnr]
    exact .head (hin 3 _ (by decide)) s3' (.head (hin 4 _ (by decide)) s4' .refl)
  · rw [dispatchNr, if_neg hnr]
    exact .head (hin 3 _ (by decide)) (s3 hnr) .refl

/-! ## Which body is entered -/

/-- How the dispatch ends: in the body of a check, at the default action, or as the program ends
before that. -/
inductive Dispatched where
  | body (i : Nat)
  | default
  | ended (r : Option Word)
  deriving DecidableEq

/-- The check whose comparison stands at `pc`, or the number of checks at the default action. -/
def Output.checkAt (out : Output) (pc : Nat) : Option Nat :=
  (List.range (out.checks.length + 1)).find? fun i => decide (out.cmpPc i = pc)

/-- The program, stopped where it enters a body or comes to the default action. -/
def Output.dispatchStep (out : Output) (d : SeccompData) (c : Config) : Config ⊕ Dispatched :=
  let go : Config ⊕ Dispatched :=
    match step out.program d c with
    | .inl c' => .inl c'
    | .inr r => .inr (.ended r)
  match out.checkAt c.1 with
  | none => go
  | some i =>
    match out.checks[i]? with
    | none => .inr .default
    | some cc => if c.2.A = cc.nr then .inr (.body i) else go

/-- The first check in list order with the number, or the default action. -/
def Output.firstMatch (out : Output) (nr : Word) : Dispatched :=
  match out.checks.findIdx? fun c => decide (c.nr = nr) with
  | some i => .body i
  | none => .default

theorem checkAt_cmpPc {i : Nat} (hi : i ≤ out.checks.length) : out.checkAt (out.cmpPc i) = some i := by
  unfold Output.checkAt
  refine List.find?_range_eq_some.mpr ⟨by simp, ?_, fun j hj => ?_⟩
  · exact List.mem_range.mpr (Nat.lt_succ_of_le hi)
  · have : out.cmpPc j < out.cmpPc i := cmpPc_lt hj (by omega)
    simp only [Bool.not_eq_eq_eq_not, Bool.not_true, decide_eq_false_iff_not]
    omega

theorem checkAt_header {pc : Nat} (h : pc < 5) : out.checkAt pc = none := by
  unfold Output.checkAt
  refine List.find?_eq_none.mpr fun i _ => ?_
  have : 5 ≤ out.cmpPc i := Nat.le_add_right _ _
  simp only [decide_eq_true_eq]
  omega

/-- Up to where it stops the dispatch is a run of the program. -/
theorem dispatchStep_of_dispatching {d : SeccompData} {a b : Config} (ha : out.Dispatching a)
    (hs : step out.program d a = .inl b) : out.dispatchStep d a = .inl b := by
  unfold Output.dispatchStep
  rcases ha with hlt | ⟨i, cc, hc, hpc, hA⟩
  · rw [checkAt_header hlt]
    simp only [hs]
  · rw [hpc, checkAt_cmpPc (Nat.le_of_lt (List.getElem?_eq_some_iff.mp hc).1)]
    simp only [hc, if_neg hA, hs]

theorem dispatchStep_body {d : SeccompData} {i : Nat} {cc : CompiledCheck} {s : State}
    (hc : out.checks[i]? = some cc) (hA : s.A = cc.nr) :
    out.dispatchStep d (out.cmpPc i, s) = .inr (.body i) := by
  unfold Output.dispatchStep
  rw [checkAt_cmpPc (Nat.le_of_lt (List.getElem?_eq_some_iff.mp hc).1)]
  simp only [hc, if_pos hA]

theorem dispatchStep_default {d : SeccompData} {s : State} :
    out.dispatchStep d (out.cmpPc out.checks.length, s) = .inr .default := by
  unfold Output.dispatchStep
  rw [checkAt_cmpPc (Nat.le_refl _)]
  simp

/-- What the dispatch enters: a check with the number, or the default action. A check entered is
the first of the list, or the last of its name. -/
theorem dispatch_halts (hL : Labelled out.checks) (hne : out.checks ≠ []) {d : SeccompData}
    (harch : d.arch = auditArchX86_64) : ∃ r, Halts (out.dispatchStep d) (0, {}) r ∧
      (∀ i, r = .body i → i = out.entry d.nr ∨
        ∀ c, out.checks[i]? = some c → lastIdx c.syscall out.checks = some i) ∧
      ((out.checks.map CompiledCheck.syscall).Nodup → r = out.firstMatch (dispatchNr d.nr)) := by
  have hhead := header_run hL hne harch
  obtain ⟨hentry, -, hentry0⟩ := entry_spec hne d.nr
  obtain ⟨j, hij, hj, hrun, hstop, hplace, hnone⟩ :=
    dispatch_run hL d { A := dispatchNr d.nr } (Nat.le_of_lt hentry)
  have hreach := (hhead.trans hrun).mono fun a b => dispatchStep_of_dispatching (d := d)
  -- with distinct names no check before number `j` has the number
  have hbefore : (out.checks.map CompiledCheck.syscall).Nodup → ∀ k c, k < j →
      out.checks[k]? = some c → c.nr ≠ dispatchNr d.nr := by
    intro hnd k c hk hc he
    exact hnone hnd k c (by rw [hentry0 hnd]; exact Nat.zero_le k) hk hc he.symm
  cases hc : out.checks[j]? with
  | none =>
    have hjl : j = out.checks.length := Nat.le_antisymm hj (List.getElem?_eq_none_iff.mp hc)
    rw [hjl] at hreach
    refine ⟨.default, hreach.halts dispatchStep_default, fun i hi => (nomatch hi), fun hnd => ?_⟩
    have : out.checks.findIdx? (fun c => decide (c.nr = dispatchNr d.nr)) = none := by
      refine List.findIdx?_eq_none_iff.mpr fun c hmem => ?_
      obtain ⟨k, hk⟩ := List.mem_iff_getElem?.mp hmem
      exact decide_eq_false (hbefore hnd k c (hjl ▸ (List.getElem?_eq_some_iff.mp hk).1) hk)
    unfold Output.firstMatch
    rw [this]
  | some c =>
    refine ⟨.body j, hreach.halts (dispatchStep_body hc (hstop c hc)), fun i hi => ?_, fun hnd => ?_⟩
    · obtain rfl := Dispatched.body.inj hi
      exact hplace.imp_right fun h c' hc' => h c' hc'
    · have : out.checks.findIdx? (fun c => decide (c.nr = dispatchNr d.nr)) = some j := by
        obtain ⟨hlt, rfl⟩ := List.getElem?_eq_some_iff.mp hc
        refine List.findIdx?_eq_some_iff_getElem.mpr ⟨hlt, ?_, fun k hk => ?_⟩
        · rw [decide_eq_true_eq, ← hstop _ hc]
        · have := hbefore hnd k _ hk (List.getElem?_eq_getElem (Nat.lt_trans hk hlt))
          simpa using this
      unfold Output.firstMatch
      rw [this]

/-- A name defined twice has a first definition, and it is not the last. -/
theorem exists_repeated {cs : List CompiledCheck} (h : ¬ (cs.map CompiledCheck.syscall).Nodup) :
    ∃ (i j : Nat) (c c' : CompiledCheck), i < j ∧ cs[i]? = some c ∧ cs[j]? = some c' ∧
      c'.syscall = c.syscall ∧ ∀ (k : Nat) (b : CompiledCheck), k < i → cs[k]? = some b →
        b.syscall ≠ c.syscall := by
  induction cs with
  | nil => exact absurd List.nodup_nil h
  | cons a cs ih =>
    rw [List.map_cons, List.nodup_cons, not_and_or, not_not] at h
    by_cases ha : a.syscall ∈ cs.map CompiledCheck.syscall
    · obtain ⟨c', hc', hname⟩ := List.mem_map.mp ha
      obtain ⟨j, hj⟩ := List.mem_iff_getElem?.mp hc'
      exact ⟨0, j + 1, a, c', Nat.succ_pos j, rfl, hj, hname, fun k _ hk => absurd hk (Nat.not_lt_zero k)⟩
    · obtain ⟨i, j, c, c', hij, hc, hc', hname, hfirst⟩ := ih (h.resolve_left ha)
      refine ⟨i + 1, j + 1, c, c', Nat.succ_lt_succ hij, hc, hc', hname, fun k b hk hb => ?_⟩
      cases k with
      | zero =>
        obtain rfl := Option.some.inj hb
        exact fun he => ha (List.mem_map.mpr ⟨c, List.mem_of_getElem? hc, he.symm⟩)
      | succ k => exact hfirst k b (Nat.lt_of_succ_lt_succ hk) hb

/-- Numbers of system calls are below the limit. -/
theorem nr_le_limit {c : CompiledCheck} (h : Known c.syscall) : ¬ 0x3fffffff#32 < c.nr := by
  obtain ⟨n, hn, hlt⟩ := h.lt
  unfold CompiledCheck.nr
  rw [hn, BitVec.ofInt_natCast, BitVec.lt_def, BitVec.toNat_ofNat]
  simp only [BitVec.toNat_ofNat]
  omega

/-- **Which check the dispatch enters**: for every number the first check with it, or the default
action when there is none, exactly when no name is defined twice. -/
theorem dispatch_first_iff {policys : List Policy} {orders : Nat → HashOrder} {out : Output}
    (h : compile policys orders = some out) (hne : out.checks ≠ []) :
    (∀ d : SeccompData, d.arch = auditArchX86_64 →
      Halts (out.dispatchStep d) (0, {}) (out.firstMatch (dispatchNr d.nr))) ↔
      (out.checks.map CompiledCheck.syscall).Nodup := by
  obtain ⟨⟨n, hcomp⟩, -, -⟩ := compile_spec h
  have hL := hcomp.labelled
  constructor
  · intro hall
    by_contra hnd
    obtain ⟨i, j, c, c', hij, hc, hc', hname, hfirst⟩ := exists_repeated hnd
    have hknown := (hL c (List.mem_of_getElem? hc)).1
    have hnr := nr_le_limit hknown
    obtain ⟨hlt, hci⟩ := List.getElem?_eq_some_iff.mp hc
    -- the first of the definitions is the first check with the number
    have hmatch : out.firstMatch (dispatchNr c.nr) = .body i := by
      have : out.checks.findIdx? (fun b => decide (b.nr = c.nr)) = some i := by
        refine List.findIdx?_eq_some_iff_getElem.mpr ⟨hlt, by rw [hci, decide_eq_true_eq], ?_⟩
        intro k hk
        have hb := List.getElem?_eq_getElem (Nat.lt_trans hk hlt)
        have hne := hfirst k _ hk hb
        rw [ne_eq, ← nr_inj (hL _ (List.mem_of_getElem? hb)).1 hknown] at hne
        simpa using hne
      unfold Output.firstMatch dispatchNr
      rw [if_neg hnr, this]
    let d : SeccompData := ⟨c.nr, auditArchX86_64, 0, fun _ => 0⟩
    obtain ⟨r, hr, hbody, -⟩ := dispatch_halts hL hne (d := d) rfl
    have hri : r = .body i := hr.unique (hmatch ▸ hall d rfl)
    -- but only last definitions are entered
    have hlast : lastIdx c.syscall out.checks = some i := by
      rcases hbody i hri with rfl | hlast
      · exact (entry_spec hne d.nr).2.1 hnr c hc
      · exact hlast c hc
    have := (lastIdx_spec hlast).2 j c' hc' hname
    omega
  · intro hnd d harch
    obtain ⟨r, hr, -, hfirst⟩ := dispatch_halts hL hne harch
    exact hfirst hnd ▸ hr

/-- `allow all;` and two checks. -/
def socketConnect : List Policy :=
  [.defaultAllow,
    .check ⟨"socket", ["domain", "type", "protocol"], [.perm .DENY], by decide⟩,
    .check ⟨"connect", ["sockfd", "addr", "addrlen"], [.perm .DENY], by decide⟩]

theorem socketConnect_dispatched : ∃ out, compile socketConnect (fun _ => .insertion) = some out ∧
    ∀ d : SeccompData, d.arch = auditArchX86_64 →
      Halts (out.dispatchStep d) (0, {}) (out.firstMatch (dispatchNr d.nr)) :=
  ⟨_, rfl, (@dispatch_first_iff socketConnect (fun _ => .insertion) _ rfl (by decide)).mpr (by decide)⟩

/-- `allow all;`, a check of `socket`, one of `connect`, and `socket` again; each denies. -/
def repeatedSocket : List Policy :=
  socketConnect ++ [.check ⟨"socket", ["domain", "type", "protocol"], [.perm .DENY], by decide⟩]

/-- The check of `connect` is skipped: its number leads to the default action. -/
theorem repeatedSocket_skips : ∃ out, compile repeatedSocket (fun _ => .insertion) = some out ∧
    out.checks ≠ [] ∧ ¬ ∀ d : SeccompData, d.arch = auditArchX86_64 →
      Halts (out.dispatchStep d) (0, {}) (out.firstMatch (dispatchNr d.nr)) := by
  refine ⟨_, rfl, by decide, fun h => ?_⟩
  have hfirst := h ⟨42, auditArchX86_64, 0, fun _ => 0⟩ rfl
  have hdefault := hfirst.unique (show Halts _ _ Dispatched.default from ⟨6, rfl⟩)
  exact absurd hdefault (by decide)

end SeccompPolicy
