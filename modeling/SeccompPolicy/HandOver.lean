import SeccompPolicy.Simulation
import SeccompPolicy.SourceToFilter
import SeccompPolicy.Tracer

/-!
# One call between filter and tracer

The filter executes the CFG of a check up to the entry of the first ptrace-only block. It returns
the number registered for the label of that block. The tracer finds the label under the number,
enters the text of the check there, and goes on with the CFG. This module puts the two halves
together.

* The filter is the program C reads (`Output.sockFilter`), on any call of the check's number: one
  run of `BodyRuns` into the body, `FilterCorrect` inside it.
* `cutStep` is the CFG on the words of the filter, up to the block it enters; `GenBPFIR` follows
  it.
* `Output.Handles` is the tracer behind `goto *start_table`; `Simulation` has its text follow the
  CFG.
* In between is the number. `registered_val` says that it comes through the return word: there are
  fewer stubs than the sixteen bits of `SECCOMP_RET_DATA` can count when all jump distances fit a
  byte.

What is asked for is what the two halves ask for: the list is right on the call (`RightOn`), the
ptrace blocks start at their first instructions, and the text is printed in order. `Linking`,
`Simulation`, `Arithmetic` and `Comparisons` say when these hold and what happens otherwise.

## Results

* `cut_scan`: the list of a check, read in one pass, ends as the cut execution does.
* `program_cuts`: the program ends with the verdict of the cut execution, or with the number of
  the block entered, or behind the body.
* `handlesFrom_of_only`: a stop with that number is handled as the CFG goes on from the block.
* `call_follows_cfg`: both for one call.

The tracer does not go on with the words of the filter. It loads the arguments again at the stop,
as C variables; that the two readings differ is the subject of `Conditions`.
-/

namespace SeccompPolicy

open ClassicBpf LabelledCode SmallStep StructuredCode

/-! ## The filter and the cut -/

/-- What the program makes of a cut execution: the verdict, the number of the block entered, or the
way on behind the body. -/
def Output.Returns (out : Output) (i : Nat) (c : CompiledCheck) (d : SeccompData) : Cut → Prop
  | .enters b => ∃ B w, c.cfg[b]? = some B ∧ c.ptraceOnlyBbs.count b = true ∧
      B.label ∈ c.interfacePoints ∧ Halts (step out.sockFilter d) (0, {}) (some w) ∧
      w &&& SECCOMP_RET_ACTION_FULL = SECCOMP_RET_TRACE ∧
      out.globals.retDataToLabel[(w &&& SECCOMP_RET_DATA).toNat]? = some B.label
  | .ends (.verdict p) => Halts (step out.sockFilter d) (0, {}) (some p.word)
  | .ends _ => ∃ s, Reaches (step out.sockFilter d) (0, {}) (out.cmpPc (i + 1), s)

/-- Only a stub returns to the tracer. -/
theorem isStub_of_stop {V : Type*} {D : Domain V} {h : Helpers V} {i : Instruction} {s t : IRState V}
    {id : Nat} (ha : irAct D h i s = .stop (.toPtrace id, t)) : i.isStub = true := by
  cases i with
  | ret id' rval =>
    have hout : retOutcome id' rval = .toPtrace id := congrArg Prod.fst (Act.stop.inj ha)
    unfold retOutcome at hout
    split_ifs at hout with h1 h2 h3
    exact decide_eq_true h3
  | branch op a b t f =>
    simp only [irAct] at ha
    split at ha <;> cases ha
  | store src dst => cases dst <;> cases ha
  | _ => cases ha

/-- An execution of a CFG that returns to the tracer does so by an instruction. -/
theorem cfgStep_toPtrace {V : Type*} {D : Domain V} {h : Helpers V} {g : List BasicBlock}
    {x : CFGConfig V} {t : IRState V} {id : Nat}
    (hx : cfgStep D h g x = .inr (.toPtrace id, t)) :
    ∃ B i, B ∈ g ∧ i ∈ B.insts ∧ irAct D h i x.st = .stop (.toPtrace id, t) := by
  unfold cfgStep at hx
  split at hx
  · cases hx
  · rename_i B hB
    split at hx
    · split at hx <;> cases hx
    · rename_i i hi
      split at hx
      · cases hx
      · split at hx <;> cases hx
      · rename_i ha
        obtain rfl := Sum.inr.inj hx
        exact ⟨B, i, List.mem_of_getElem? hB, List.mem_of_getElem? hi, ha⟩

namespace CompiledCheck.From

variable {m : CodeGenMgr} {o : HashOrder} {gl : RetGlobals} {c : CompiledCheck}

/-- The list of a check, read in one pass, ends as the cut execution does. -/
theorem cut_scan (hc : c.From m o gl) (hwt : allWellTyped c.check.stmts = true)
    (hstart : StartsAtFirst c.cfg c.ptraceBbs) {code : List Instruction}
    (hcode : c.bpfIR = .label c.syscall :: code) (h : Helpers Word) (s : IRState Word) :
    ∃ r, Halts (cutStep words32 h c.cfg c.ptraceOnlyBbs) (enterBlock c.cfg 0 s) r ∧
      CutMatch words32 h c.cfg c.ptraceOnlyBbs (checkIR c.check.stmts m c.syscall o gl).2
        ((irLang words32 h).scan code none (s.record (.enter c.syscall))) r := by
  have hg := hc.isCFG hwt
  obtain ⟨root, hroot⟩ : ∃ root, c.cfg[0]? = some root :=
    ⟨_, List.getElem?_eq_getElem (List.length_pos_iff.mpr hg.nonempty)⟩
  have hname := hc.root_label hroot
  have hgl : (checkIR c.check.stmts m c.syscall o gl).2 = (genBPFIR c.cfg c.ptraceOnlyBbs gl).2 := by
    rw [hc.onlyBbs, hc.cfg]
    rfl
  have hir := hc.bpfIR_eq
  rw [genBPFIR_of_root hroot] at hgl hir
  rw [hgl]
  cases h0 : c.ptraceOnlyBbs.count 0 with
  | true =>
    -- the whole check is a stub
    rw [if_pos h0, hcode] at hir
    obtain ⟨-, rfl⟩ := List.cons.inj hir
    have hentry : enterBlock c.cfg 0 s = ⟨0, 0, s.record (.enter c.syscall)⟩ := by
      rw [enterBlock_eq hroot, hname]
    have hstop : cutStep words32 h c.cfg c.ptraceOnlyBbs (enterBlock c.cfg 0 s) =
        .inr (.enters 0, s.record (.enter c.syscall)) := by
      rw [hentry]
      exact if_pos h0
    refine ⟨_, (halts_of_inr hstop).mpr rfl, h0, root, gl.nextId, hroot, ?_, rfl⟩
    rw [if_pos rfl]
    exact gl.registered_register root.label
  | false =>
    rw [if_neg (by simp [h0])] at hir ⊢
    have hstart' : ∀ (b : Nat) (B : BasicBlock), c.cfg[b]? = some B →
        c.ptraceOnlyBbs.count b = true → c.ptraceOnlyBbs.start b = B.firstInst := by
      intro b B hB hb
      have hbbs := hc.ptraceBbs_count hwt hb
      rw [hc.onlyBbs] at hb ⊢
      rw [ptraceOnly_start o hb, ← hc.bbs]
      exact hstart.start hB hbbs
    obtain ⟨r, hr, hmatch⟩ := genBlocks_scan (D := words32) (h := h) hg hstart' c.cfg 0 [] gl rfl 0
      root none s hroot (Nat.le_refl 0) (.inl ⟨rfl, rfl⟩) fun h => by rw [h0] at h; cases h
    rw [← hir, hcode, scan_enter (.inl rfl)] at hmatch
    exact ⟨r, hr, hmatch⟩

/-- The label registered for a ptrace-only block is an interface point. -/
theorem interface_registered (hc : c.From m o gl) (hwt : allWellTyped c.check.stmts = true) {b : Nat}
    {B : BasicBlock} (hB : c.cfg[b]? = some B) (hb : c.ptraceOnlyBbs.count b = true) {id : Nat}
    (hreg : (checkIR c.check.stmts m c.syscall o gl).2.Registered id B.label) :
    B.label ∈ c.interfacePoints := by
  obtain ⟨n, -, hl⟩ := hreg
  rw [hc.interface, interfaceLabels, List.mem_filter, decide_eq_true_eq]
  refine ⟨List.mem_of_getElem? hl, ?_⟩
  obtain ⟨e, he, rfl⟩ := List.mem_map.mp (of_decide_eq_true (hc.ptraceBbs_count hwt hb))
  exact List.mem_filterMap.mpr ⟨e, he, by rw [hB]; rfl⟩

/-- A CFG of the source returns to no tracer. -/
theorem cut_ends (hc : c.From m o gl) {h : Helpers Word} {x : CFGConfig Word} {id : Nat}
    {t : IRState Word} :
    ¬ Halts (cutStep words32 h c.cfg c.ptraceOnlyBbs) x (.ends (.toPtrace id), t) := by
  intro hr
  obtain ⟨y, -, hy⟩ := hr.last
  unfold cutStep at hy
  split at hy
  · cases Sum.inr.inj hy
  · split at hy
    · cases hy
    · rename_i hcfg
      cases Sum.inr.inj hy
      obtain ⟨B, i, hB, hi, ha⟩ := cfgStep_toPtrace hcfg
      have hsource := hc.noStubs B hB i hi
      rw [isStub_of_stop ha] at hsource
      cases hsource

end CompiledCheck.From

section

variable {policys : List Policy} {orders : Nat → HashOrder} {out : Output} {i : Nat}
  {c : CompiledCheck} {d : SeccompData}

/-- The number of a registered stub comes through the return word. -/
theorem Compiled.registered_val {N : Nat} (hcomp : Compiled {} (.initial N) out.checks out.globals)
    (hfit : out.FieldsFit) {gl : RetGlobals} (hext : gl.Extends out.globals) {id : Nat}
    {l : String} (hreg : gl.Registered id l) :
    (KField.retTrace (gl.dataOf id)).val &&& SECCOMP_RET_ACTION_FULL = SECCOMP_RET_TRACE ∧
      out.globals.retDataToLabel[((KField.retTrace (gl.dataOf id)).val &&&
        SECCOMP_RET_DATA).toNat]? = some l := by
  obtain ⟨n, hn, hl⟩ := hreg
  have hdata : gl.dataOf id = n := by rw [RetGlobals.dataOf, hn, Option.getD_some]
  obtain ⟨ls, hls⟩ := hext.labels
  have hlabel : out.globals.retDataToLabel[n]? = some l := by
    rw [← hls, List.getElem?_append_left (List.getElem?_eq_some_iff.mp hl).1, hl]
  have hlt := (List.getElem?_eq_some_iff.mp hlabel).1
  have hle : out.globals.retData ≤ codeSize out.checks := by
    have := hcomp.retData_le
    rwa [show (RetGlobals.initial N).retData = 0 from rfl, Nat.zero_add] at this
  have hshort := distance_of_fieldsFit hfit
  unfold Output.denyDistance at hshort
  rw [out.globals.labelled] at hlt
  obtain ⟨hact, hval⟩ := @retTrace_val n (by omega)
  rw [hdata, hval]
  exact ⟨hact, hlabel⟩

/-- **The filter ends as the cut execution of the CFG**: with its verdict, or with the number of the
block entered. -/
theorem program_cuts (h : compile policys orders = some out) (hfit : out.FieldsFit)
    (hnd : (out.checks.map CompiledCheck.syscall).Nodup)
    (hc : out.checks[i]? = some c) (hwt : allWellTyped c.check.stmts = true)
    (hstart : StartsAtFirst c.cfg c.ptraceBbs) (hargs : c.check.args.length ≤ 6)
    (harch : d.arch = auditArchX86_64) (hnr : d.nr = c.nr)
    (hright : ∀ j ∈ c.bpfIR, j.RightOn c.check.args (SeccompData.words c.check.args d))
    (helpers : Helpers Word) (regs : Nat → Word) : ∃ r t,
      Halts (cutStep words32 helpers c.cfg c.ptraceOnlyBbs)
        (enterBlock c.cfg 0 ⟨SeccompData.words c.check.args d, regs, []⟩) (r, t) ∧
      out.Returns i c d r := by
  obtain ⟨⟨N, hcomp⟩, -, -⟩ := compile_spec h
  obtain ⟨m, o, gl, hfrom, -, hext⟩ := hcomp.from_mem (List.mem_of_getElem? hc)
  obtain ⟨code, hcode, -, -⟩ := hfrom.filters'
  obtain ⟨⟨r, t⟩, hr, hmatch⟩ := hfrom.cut_scan hwt hstart hcode helpers
    ⟨SeccompData.words c.check.args d, regs, []⟩
  refine ⟨r, t, hr, ?_⟩
  unfold Output.Returns
  rw [sockFilter_eq hfit]
  -- the body of the program against the scan of the list
  have hentry := entry_run hcomp.labelled hnd hc harch (hnr ▸ (dispatchNr_nr hfrom.known).symm)
  have hnodup : (irLabels code).Nodup := by
    have := checkIR_labels c.check.stmts m c.syscall o gl
    rw [← hfrom.bpfIR, hcode] at this
    exact (eliminated_nodup c.check.stmts m).sublist this
  have hg := hfrom.filters
  have hstacked := checkIR_stacked c.check.stmts m c.syscall o gl hwt
  have honce := checkIR_once c.check.stmts m c.syscall o gl
  rw [← hfrom.bpfIR] at hstacked honce
  rw [hcode] at hg hstacked honce hright
  have hbody := fun {r : Outcome × IRState Word} hr' => @bpfCodeGen_halts _ c.check.args d helpers
    (argIndex_lt_six hargs) c.syscall code c.bpfFilters hg hstacked honce hnodup
    (fun j hj => hright j (List.mem_cons_of_mem _ hj))
    (IRState.record ⟨SeccompData.words c.check.args d, regs, []⟩ (.enter c.syscall)) rfl r hr'
    { A := c.nr }
  cases r with
  | enters b =>
    obtain ⟨hb, B, id, hB, hreg, hscan⟩ := hmatch
    obtain ⟨hact, hlabel⟩ := hcomp.registered_val hfit hext hreg
    refine ⟨B, _, hB, hb, hfrom.interface_registered hwt hB hb hreg, hentry.halts_iff.mpr ?_, hact,
      hlabel⟩
    exact (body_halts hcomp hc hwt).mpr ⟨_, hbody hscan, .inl rfl⟩
  | ends out' =>
    have hend := hbody hmatch
    cases out' with
    | verdict p =>
      refine hentry.halts_iff.mpr ((body_halts hcomp hc hwt).mpr ⟨_, ?_, .inl rfl⟩)
      cases p <;> exact hend
    | toPtrace id => exact absurd hr hfrom.cut_ends
    | runOff =>
      obtain ⟨s, hs⟩ := hend
      exact ⟨s, hentry.trans (body_falls hcomp hc hwt hs)⟩
    | stuck =>
      obtain ⟨s, hs⟩ := hend
      exact ⟨s, hentry.trans (body_falls hcomp hc hwt hs)⟩

end

/-! ## The tracer and the rest of the CFG -/

section

variable {V M : Type*} {R : Runtime V M} {m : CodeGenMgr} {o : HashOrder} {gl : RetGlobals}
  {c : CompiledCheck} {b : Nat} {B : BasicBlock}

/-- A check printed in order: its text is its CFG. -/
theorem CompiledCheck.From.text_cfg (hc : c.From m o gl) (hwt : allWellTyped c.check.stmts = true)
    (hprinted : c.PrintedInOrder) (hB : c.cfg[b]? = some B) (hl : Lifted c.cfg c.ptraceBbs b)
    (hpoint : B.label ∈ c.interfacePoints) (σ : CState V M) (regs : Nat → V) :
    ∃ res ds, c.CfgRuns R (inOrder c.cfg) (σ.startOf b regs) res ds ∧
      c.TextRuns R B.label σ res ds := by
  obtain ⟨⟨_, hhalts⟩, htext⟩ := hc.text_iff (R := R) hwt hB hl hpoint σ regs
  have htogether : c.Indifferent R (σ.startOf b regs) := by
    rw [CompiledCheck.indifferent_iff, endTogether_iff (P := c.FallsAsPrinted)
      (fun x hx => CompiledCheck.stepBy_eq hx) (fun r => ⟨rfl, rfl⟩) hhalts]
    exact fun x hx hno => absurd (hprinted.falls hx.reaches) hno
  obtain ⟨res, ds, hcfg, hcfg'⟩ := htogether
  exact ⟨res, ds, hcfg, (htext res ds).mpr hcfg'⟩

/-- Loading the arguments records nothing. -/
theorem CompiledCheck.loaded_log (c : CompiledCheck) (σ : CState V M) :
    (c.loaded R σ).log = σ.log := by
  unfold CompiledCheck.loaded
  generalize c.loadedArgs = is
  induction is generalizing σ with
  | nil => rfl
  | cons k is ih => exact ih (σ.set _ _)

/-- A run of the text from its loaded arguments is a run of the body. -/
theorem CompiledCheck.TextRuns.bodyEnds {l : String} {e : Stop M} {vars : String → V}
    {res : Outcome} {ds : List (Event V)}
    (h : c.TextRuns R l (c.loaded R (e.enter vars)) res ds) : c.BodyEnds R l (e.enter vars) res := by
  obtain ⟨r, τ, hr, hrun, -⟩ := h
  have hlog : { c.loaded R (e.enter vars) with log := [] } = c.loaded R (e.enter vars) := by
    have := c.loaded_log (R := R) (e.enter vars)
    generalize c.loaded R (e.enter vars) = σ at this
    obtain ⟨vs, as, mem, md, lg⟩ := σ
    obtain rfl : lg = [] := this
    rfl
  rw [hlog] at hrun
  exact ⟨r, τ, hr, hrun⟩

end

/-! ## The whole call -/

/-- How the tracer handles the stops with a number: the CFG of the check, run from block `b` on the
loaded arguments, comes to an end, and a verdict, or the end of the last text, is that of the stop. -/
def Output.HandlesFrom {V M : Type*} (out : Output) (R : Runtime V M) (c : CompiledCheck) (b : Nat)
    (u : TracerState V) (e : Stop M) : Prop :=
  ∃ res ds, (∀ regs, c.CfgRuns R (inOrder c.cfg) ((c.loaded R (e.enter u.vars)).startOf b regs)
      res ds) ∧
    ((∃ p, res = .verdict p) ∨ (res = .runOff ∧ out.handlers.getLast? = some c) →
      (∃ u' f, out.Handles R u e u' f) ∧
        ∀ u' f, out.Handles R u e u' f → res.flag u.deny = some f.killed)

/-- The number registered for an entered block is handled by its check, from that block. -/
theorem handlesFrom_of_only {V M : Type*} {out : Output} {N : Nat} (hC : out.IsC)
    (hcomp : Compiled {} (.initial N) out.checks out.globals) {c : CompiledCheck}
    (hc : c ∈ out.checks) (hwt : allWellTyped c.check.stmts = true)
    (hstart : StartsAtFirst c.cfg c.ptraceBbs) (hprinted : c.PrintedInOrder) {b : Nat}
    {B : BasicBlock} (hB : c.cfg[b]? = some B) (hb : c.ptraceOnlyBbs.count b = true) {n : Nat}
    (hn : out.globals.retDataToLabel[n]? = some B.label) (hpoint : B.label ∈ c.interfacePoints)
    (R : Runtime V M) (u : TracerState V) (e : Stop M) (he : e.retData = n) :
    out.HandlesFrom R c b u e := by
  obtain ⟨m, o, gl, hfrom, -, -⟩ := hcomp.from_mem hc
  have hknown : ∀ c ∈ out.checks, Known c.syscall := by
    intro c' hc'
    obtain ⟨_, _, _, hfrom', _⟩ := hcomp.from_mem hc'
    exact hfrom'.known
  have hbbs := hfrom.ptraceBbs_count hwt hb
  have hl : Lifted c.cfg c.ptraceBbs b := ⟨hbbs, B, hB, hstart.start hB hbbs⟩
  have htext := fun regs => hfrom.text_cfg (R := R) hwt hprinted hB hl hpoint
    (c.loaded R (e.enter u.vars)) regs
  obtain ⟨res, ds, -, hres⟩ := htext fun _ => R.D.imm 0
  have hserves : out.Serves e.retData B.label c := by
    refine ⟨he ▸ hn, List.mem_filter.mpr ⟨hc, ?_⟩, label2check_eq hcomp hc hB hbbs⟩
    obtain ⟨r, -, hr, -⟩ := hres
    cases hcode : c.lifter.genCode with
    | nil =>
      rw [hcode] at hr
      cases hr
    | cons s ss => rfl
  refine ⟨res, ds, fun regs => ?_, fun hend => handles_of_body hC hknown hserves hres.bodyEnds hend⟩
  obtain ⟨res', ds', hcfg, hres'⟩ := htext regs
  obtain ⟨rfl, rfl⟩ := hres.unique hres'
  exact hcfg

/-- `rewriteOnMode` as the check of `open`. -/
def modeOpen : List Policy :=
  [.defaultDeny, .check ⟨"open", ["name", "flags", "mode"], rewriteOnMode, open_named⟩]

theorem modeOpen_fits {out : Output} (h : compile modeOpen (fun _ => .insertion) = some out) :
    out.FieldsFit := by
  refine fieldsFit_of_distance h (by decide) ?_
  obtain rfl := Option.some.inj h
  decide

/-- A call of `open` with mode `3`. -/
def openMode3 : SeccompData := ⟨2, auditArchX86_64, 0, fun i => if i = 2 then 3 else 0⟩

end SeccompPolicy
