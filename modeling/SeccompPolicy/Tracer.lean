import SeccompPolicy.Conditions
import SeccompPolicy.CText

/-!
# The tracer loop: `PtraceCodeGen` and the ptrace template

Source: `PolicyManager::PtraceCodeGen` of `policy.cpp`, and `main` of
`code_template/ptrace_template.c` from `goto *start_table` to the code behind `out`.

The tracer handles one seccomp stop after the other. A stop enters the text of its check at the
start label, loads the arguments, goes through `jmp_table` into the body, and comes to `out` by
`ALLOW()`, by `DENY()` or past the end of the text. The flag `deny` decides there, and only the
two macros write it: nothing sets it back between two stops.

* `Output.tracerText` is the text of all checks with ptrace code, one block after the other, so
  that a body that falls off goes on into the next one.
* `Output.IsC` is what the C compiler asks of it: labels are defined once, and the code of a block
  reads variables of the block.
* `Runtime` has what the text calls: the helpers, the conversions of C, the functions that copy.
  Theorems are for all of them.
* `Output.Handles` is one stop, from the flag and the variables before it to those behind it;
  `Output.Run` is a run over a list of stops. The loop around it is in `TracerLoop`.

## Results

* `enter_body`: from the start label the run comes to the place of a label in the code of the
  check, with the arguments loaded.
* `body_inside`: the run of a body inside the text; a verdict by itself is the verdict, and a body
  that falls off goes on behind its block.
* `handles_of_body`, `decides_verdict`: the flag at `out`.
* `verdicts_history_free`: in runs whose stops all come to a verdict in their own body, or belong
  to the last check and find the default in the flag, the verdict of a stop does not depend on the
  stops before it.
* `legalOpen_stale`: without the condition it does.
-/

namespace SeccompPolicy

open StructuredCode SmallStep

/-! ## The text -/

/-- The checks `PtraceCodeGen` prints a block for. -/
def Output.handlers (out : Output) : List CompiledCheck :=
  out.checks.filter fun c => !c.lifter.genCode.isEmpty

/-- The arguments of a check that are declared and loaded. -/
def CompiledCheck.loadedArgs (c : CompiledCheck) : List Nat :=
  argsLoaded c.syscallInfo c.check.args c.ptraceBlocks

/-- The name of an argument. -/
def CompiledCheck.argName (c : CompiledCheck) (i : Nat) : String := c.check.args.getD i ""

/-- The block of a check. -/
def CompiledCheck.text (c : CompiledCheck) : List CStmt :=
  genPtracePrologue c.syscallInfo c.check.args c.ptraceBlocks ++ .line .gotoTable :: c.lifter.genCode

/-- The blocks between `goto *start_table[seccomp_ret_data]` and `out`. -/
def Output.tracerText (out : Output) : List CStmt := out.handlers.flatMap CompiledCheck.text

/-- What the C compiler asks of the text: a label is defined once, and the code of a block reads
variables of the block. -/
structure Output.IsC (out : Output) : Prop where
  labels : (codeLabels out.tracerText).Nodup
  scope : ∀ c ∈ out.handlers, ∀ x ∈ textReads c.lifter.genCode, x ∈ c.loadedArgs.map c.argName

/-! ## One stop -/

/-- The registers of `struct user_regs_struct` the tracer uses. -/
structure UserRegs where
  origRax : BitVec 64
  rdi : BitVec 64
  rsi : BitVec 64
  rdx : BitVec 64
  r10 : BitVec 64
  r8 : BitVec 64
  r9 : BitVec 64
  rbx : BitVec 64
  rcx : BitVec 64
  rbp : BitVec 64

/-- `regs.orig_rax & X32_SYSCALL_BIT`. -/
def UserRegs.isX32 (r : UserRegs) : Bool := r.origRax &&& 0x40000000#64 != 0

/-- `arguments`, as read from the registers. -/
def UserRegs.arguments (r : UserRegs) (i : Nat) : BitVec 64 :=
  if r.isX32 then [r.rbx, r.rcx, r.rdx, r.rsi, r.rdi, r.rbp].getD i 0 &&& 0xFFFFFFFF#64
  else [r.rdi, r.rsi, r.rdx, r.r10, r.r8, r.r9].getD i 0

/-- The registers with `arguments` written back. -/
def UserRegs.withArguments (r : UserRegs) (a : Nat → BitVec 64) : UserRegs :=
  if r.isX32 then
    { r with rbx := a 0, rcx := a 1, rdx := a 2, rsi := a 3, rdi := a 4, rbp := a 5 }
  else { r with rdi := a 0, rsi := a 1, rdx := a 2, r10 := a 3, r8 := a 4, r9 := a 5 }

/-- A seccomp stop: registers, tracee memory and `seccomp_ret_data`. -/
structure Stop (M : Type*) where
  regs : UserRegs
  memory : M
  retData : Nat

/-- What becomes of the tracee: killed, or continued with its memory and, when `reg_modified`, new
registers. -/
inductive Fate (M : Type*) where
  | kill
  | cont (regs : Option UserRegs) (memory : M)

/-- The allow/kill verdict. -/
def Fate.killed {M : Type*} : Fate M → Bool
  | .kill => true
  | .cont _ _ => false

/-- What the tracer keeps from stop to stop: `deny`, and whatever the variables of the blocks are
left with. A block declares its variables without a value. -/
structure TracerState (V : Type*) where
  deny : Bool
  vars : String → V

/-- Before the first stop: `int deny = 1`. -/
def TracerState.initial {V : Type*} (vars : String → V) : TracerState V := ⟨true, vars⟩

/-- `deny` at `out`. -/
def Outcome.flag (deny : Bool) : Outcome → Option Bool
  | .verdict .ALLOW => some false
  | .verdict .DENY => some true
  | .runOff => some deny
  | _ => none

variable {V M : Type*}

/-- The state in which a stop enters the text. -/
def Stop.enter (e : Stop M) (vars : String → V) : CState V M :=
  ⟨vars, e.regs.arguments, e.memory, false, []⟩

/-- The code after `out`. -/
def Stop.leave (e : Stop M) (deny : Bool) (σ : CState V M) : Fate M :=
  if deny then .kill
  else .cont (if σ.regModified then some (e.regs.withArguments σ.arguments) else none) σ.memory

theorem Stop.leave_killed (e : Stop M) (deny : Bool) (σ : CState V M) :
    (e.leave deny σ).killed = deny := by
  cases deny <;> rfl

/-- The loop handles a stop: from `goto *start_table[seccomp_ret_data]` to `out` and past it. -/
def Output.Handles (out : Output) (R : Runtime V M) (t : TracerState V) (e : Stop M)
    (t' : TracerState V) (f : Fate M) : Prop :=
  ∃ l o σ, out.globals.retDataToLabel[e.retData]? = some l ∧
    Halts ((cLang R l).step out.tracerText)
      ([.line (.goto (label2check out.checks l ++ "_start"))], e.enter t.vars) (o, σ) ∧
    o.flag t.deny = some t'.deny ∧ t'.vars = σ.vars ∧ f = e.leave t'.deny σ

/-- The state and the fate after a run of the text. -/
theorem handles_of_halts {out : Output} {R : Runtime V M} {t : TracerState V} {e : Stop M}
    {l : String} {o : Outcome} {σ : CState V M} {d : Bool} {f : Fate M}
    (hl : out.globals.retDataToLabel[e.retData]? = some l)
    (hrun : Halts ((cLang R l).step out.tracerText)
      ([.line (.goto (label2check out.checks l ++ "_start"))], e.enter t.vars) (o, σ))
    (hd : o.flag t.deny = some d) (hf : f = e.leave d σ) : out.Handles R t e ⟨d, σ.vars⟩ f :=
  ⟨l, o, σ, hl, hrun, hd, rfl, hf⟩

/-- A run of the loop over stops that satisfy `P` in the state they are handled in. -/
inductive Output.Run (out : Output) (R : Runtime V M) (P : TracerState V → Stop M → Prop) :
    TracerState V → List (Stop M × Fate M) → TracerState V → Prop
  | nil (t : TracerState V) : out.Run R P t [] t
  | cons {t t' t'' : TracerState V} {e : Stop M} {f : Fate M} {es : List (Stop M × Fate M)} :
    P t e → out.Handles R t e t' f → out.Run R P t' es t'' → out.Run R P t ((e, f) :: es) t''

/-! ## The body of a check by itself -/

/-- The value a prologue line loads. -/
def ArgumentsInfo.load (a : ArgumentsInfo) (R : Runtime V M) (x : String) (i : Nat)
    (σ : CState V M) : V :=
  if x ∈ a.stringArgs then R.copyOutString σ.memory (σ.arguments i)
  else
    match a.memArgsSize.lookup x with
    | some size => R.copyOutMem σ.memory σ.arguments i size
    | none => R.convert (a.typeOf x) (R.ofWord (σ.arguments i))

/-- The state after the loads of the prologue. -/
def CompiledCheck.loaded (c : CompiledCheck) (R : Runtime V M) (σ : CState V M) : CState V M :=
  c.loadedArgs.foldl (fun σ i => σ.set (c.argName i) (c.lifter.info.load R (c.argName i) i σ)) σ

/-- The code of the check, run by itself from label `l` after the loads, ends with `o`. -/
def CompiledCheck.BodyEnds (c : CompiledCheck) (R : Runtime V M) (l : String) (σ : CState V M)
    (o : Outcome) : Prop :=
  ∃ r τ, find l c.lifter.genCode = some r ∧
    Halts ((cLang R l).step c.lifter.genCode) (r, c.loaded R σ) (o, τ)

/-- The stops with number `n` are handled by check `c`, from label `l`. -/
structure Output.Serves (out : Output) (n : Nat) (l : String) (c : CompiledCheck) : Prop where
  label : out.globals.retDataToLabel[n]? = some l
  mem : c ∈ out.handlers
  start : label2check out.checks l = c.syscall

/-- The stop comes to a verdict in its own body; or its body falls off, no block stands behind it,
and the flag holds the default action. -/
def Output.Decides (out : Output) (R : Runtime V M) (t : TracerState V) (e : Stop M) : Prop :=
  ∃ l c, out.Serves e.retData l c ∧ ((∃ p, c.BodyEnds R l (e.enter t.vars) (.verdict p)) ∨
    (c.BodyEnds R l (e.enter t.vars) .runOff ∧ out.handlers.getLast? = some c ∧
      t.deny = out.defaultDeny))

/-! ## The way into a body -/

section

variable {out : Output} {R : Runtime V M} {c : CompiledCheck} {l : String}

theorem extract_act (a : ArgumentsInfo) (dest x : String) (i : Nat) (σ : CState V M) :
    (a.extract x i).act R dest σ = .next (σ.set x (a.load R x i σ)) := by
  unfold ArgumentsInfo.extract ArgumentsInfo.load
  split
  · rfl
  · cases a.memArgsSize.lookup x <;> rfl

/-- The loads are executed one after the other. -/
theorem loads_reach (a : ArgumentsInfo) (name : Nat → String) (dest : String) (text rest : List CStmt)
    (is : List Nat) (σ : CState V M) :
    Reaches ((cLang R dest).step text)
      ((is.map fun i => .line (a.extract (name i) i)) ++ rest, σ)
      (rest, is.foldl (fun σ i => σ.set (name i) (a.load R (name i) i σ)) σ) := by
  induction is generalizing σ with
  | nil => exact .refl
  | cons i is ih => exact (ih _).head (step_next (extract_act a dest (name i) i σ))

theorem syscallInfo_name (hc : Known c.syscall) : c.syscallInfo.name = c.syscall := by
  obtain ⟨i, hi, hname, hnr⟩ := hc.info
  obtain ⟨k, hk, rfl⟩ := List.getElem_of_mem hi
  have hrow : (List.range 336)[k]? = some syscallInfos[k].nr := by
    rw [← syscallInfos_nr, List.getElem?_map, List.getElem?_eq_getElem hk, Option.map_some]
  obtain ⟨hlt, hnrk⟩ := List.getElem?_eq_some_iff.mp hrow
  rw [List.getElem_range] at hnrk
  unfold CompiledCheck.syscallInfo
  rw [hnr, Int.toNat_natCast, ← hnrk, List.getD_eq_getElem?_getD, List.getElem?_eq_getElem hk]
  exact hname

/-- The loads of a block. -/
def CompiledCheck.loads (c : CompiledCheck) : List CStmt :=
  c.loadedArgs.map fun i => .line (c.lifter.info.extract (c.argName i) i)

/-- The block of a check: declarations, start label, loads, the jump, the code. -/
theorem text_eq (hc : Known c.syscall) : ∃ decls, c.text = decls ++
    .label (c.syscall ++ "_start") :: (c.loads ++ .line .gotoTable :: c.lifter.genCode) := by
  refine ⟨c.loadedArgs.map fun i =>
    .line (.declare (c.lifter.info.typeOf (c.argName i)) (c.argName i)), ?_⟩
  unfold CompiledCheck.text genPtracePrologue
  rw [List.append_assoc, List.cons_append, syscallInfo_name hc]
  rfl

/-- The blocks of two checks have different start labels. -/
theorem handlers_starts (hC : out.IsC) (hknown : ∀ c ∈ out.checks, Known c.syscall) :
    (out.handlers.map CompiledCheck.syscall).Nodup := by
  have hstart : ∀ c ∈ out.handlers, c.syscall ++ "_start" ∈ codeLabels c.text := by
    intro c hc
    obtain ⟨decls, htext⟩ := text_eq (hknown c (List.mem_filter.mp hc).1)
    rw [htext, codeLabels_append]
    exact List.mem_append_right _ List.mem_cons_self
  have hnd := hC.labels
  unfold Output.tracerText at hnd
  generalize out.handlers = cs at hstart hnd
  induction cs with
  | nil => exact List.nodup_nil
  | cons c cs ih =>
    rw [List.flatMap_cons, codeLabels_append, List.nodup_append] at hnd
    rw [List.map_cons, List.nodup_cons]
    refine ⟨fun hmem => ?_, ih (fun c hc => hstart c (List.mem_cons_of_mem _ hc)) hnd.2.1⟩
    obtain ⟨c', hc', he⟩ := List.mem_map.mp hmem
    have h' := hstart c' (List.mem_cons_of_mem c hc')
    rw [he] at h'
    obtain ⟨pre, post, rfl⟩ := List.append_of_mem hc'
    refine hnd.2.2 _ (hstart c List.mem_cons_self) _ ?_ rfl
    simp only [List.flatMap_append, List.flatMap_cons, codeLabels_append, List.mem_append]
    exact .inr (.inl h')

/-- Where the block of a check stands. -/
theorem text_place (hc : Known c.syscall) {cs cs' : List CompiledCheck}
    (hsplit : out.handlers = cs ++ c :: cs') : ∃ pre, out.tracerText =
      pre ++ .label (c.syscall ++ "_start") :: (c.loads ++ .line .gotoTable ::
        (c.lifter.genCode ++ cs'.flatMap CompiledCheck.text)) := by
  obtain ⟨decls, htext⟩ := text_eq hc
  refine ⟨cs.flatMap CompiledCheck.text ++ decls, ?_⟩
  unfold Output.tracerText
  rw [hsplit, List.flatMap_append, List.flatMap_cons, htext]
  simp only [List.append_assoc, List.cons_append]

/-- **The way into the body.** From the start label the run comes to the place of label `l` in the
code of the check, with the arguments loaded; what stands behind the block follows. -/
theorem enter_body (hC : out.IsC) (hc : Known c.syscall) {cs cs' : List CompiledCheck}
    (hsplit : out.handlers = cs ++ c :: cs') {r : List CStmt} (hr : find l c.lifter.genCode = some r)
    (σ : CState V M) :
    Reaches ((cLang R l).step out.tracerText)
      ([.line (.goto (c.syscall ++ "_start"))], σ)
      (r ++ cs'.flatMap CompiledCheck.text, c.loaded R σ) := by
  obtain ⟨pre, hpre⟩ := text_place hc hsplit
  have hwithin : Within out.tracerText (.label (c.syscall ++ "_start") ::
      (c.loads ++ .line .gotoTable :: (c.lifter.genCode ++ cs'.flatMap CompiledCheck.text))) :=
    Within.drop pre (hpre ▸ .here)
  have hcode : find l out.tracerText = some (r ++ cs'.flatMap CompiledCheck.text) := by
    refine ((hwithin.next.drop c.loads).next.find_of_find hC.labels).2 l _ ?_
    rw [find_append, hr]
    rfl
  refine .head (step_jump rfl (hwithin.find hC.labels)) ?_
  exact (loads_reach _ _ l _ _ c.loadedArgs σ).trans (.single (step_jump rfl hcode))

/-- **The run of a body inside the text**: a verdict of the body by itself is the verdict, and a
body that falls off goes on behind its block. -/
theorem body_inside (hC : out.IsC) (hc : Known c.syscall) {cs cs' : List CompiledCheck}
    (hsplit : out.handlers = cs ++ c :: cs') {σ : CState V M} {o : Outcome}
    (hbody : c.BodyEnds R l σ o) :
    ∃ τ, (∀ p, o = .verdict p → Halts ((cLang R l).step out.tracerText)
        ([.line (.goto (c.syscall ++ "_start"))], σ) (o, τ)) ∧
      (o = .runOff → Reaches ((cLang R l).step out.tracerText)
        ([.line (.goto (c.syscall ++ "_start"))], σ) (cs'.flatMap CompiledCheck.text, τ)) := by
  obtain ⟨r, τ, hr, hhalts⟩ := hbody
  obtain ⟨pre, hpre⟩ : ∃ pre, out.tracerText =
      pre ++ (c.lifter.genCode ++ cs'.flatMap CompiledCheck.text) := by
    obtain ⟨pre, hpre⟩ := text_place hc hsplit
    exact ⟨pre ++ .label (c.syscall ++ "_start") :: (c.loads ++ [.line .gotoTable]), by simp [hpre]⟩
  have hdisjoint : ∀ l ∈ codeLabels c.lifter.genCode, l ∉ codeLabels pre := by
    intro l hl hl'
    have hnd := hC.labels
    rw [hpre, codeLabels_append, codeLabels_append, List.nodup_append] at hnd
    exact hnd.2.2 l hl' l (List.mem_append_left _ hl) rfl
  -- the last configuration of the body, and where it stands in the text
  obtain ⟨⟨rest, σ'⟩, hreach, hlast⟩ := hhalts.last
  have hinside := @reaches_embed _ _ _ _ _ _ (cLang R l) c.lifter.genCode pre
    (cs'.flatMap CompiledCheck.text) hdisjoint _ _ hreach
  rw [← hpre] at hinside
  have hrun := (enter_body (R := R) hC hc hsplit hr σ).trans hinside
  rcases step_inr hlast with ⟨hnil, he⟩ | ⟨i, rest', hrest, ha⟩ | ⟨_, _, _, _, _, _, _, he⟩
  · obtain rfl : rest = [] := hnil
    cases he
    refine ⟨σ', ?_, fun _ => hrun⟩
    intro p hp
    cases hp
  · obtain rfl : rest = _ := hrest
    obtain ⟨-, p, rfl⟩ := CLine.act_stop R ha
    refine ⟨τ, fun _ _ => hrun.halts (step_stop ha), ?_⟩
    intro h
    cases h
  · cases he
    refine ⟨τ, ?_, ?_⟩
    · intro p hp
      cases hp
    · intro h
      cases h

/-! ## Stops that come to a verdict -/

/-- A stop belongs to one check. -/
theorem Output.Serves.unique (hC : out.IsC) (hknown : ∀ c ∈ out.checks, Known c.syscall) {n : Nat}
    {l' : String} {c' : CompiledCheck} (h : out.Serves n l c) (h' : out.Serves n l' c') :
    l = l' ∧ c = c' := by
  obtain rfl := Option.some.inj (h.label.symm.trans h'.label)
  exact ⟨rfl, List.inj_on_of_nodup_map (handlers_starts hC hknown) h.mem h'.mem
    (h.start.symm.trans h'.start)⟩

theorem CState.AgreeOn.loaded {σ σ' : CState V M} (h : σ.AgreeOn [] σ') (c : CompiledCheck) :
    (c.loaded R σ).AgreeOn (c.loadedArgs.map c.argName) (c.loaded R σ') := by
  have key : ∀ (is : List Nat) (U : List String) (σ σ' : CState V M), σ.AgreeOn U σ' →
      (is.foldl (fun σ i => σ.set (c.argName i) (c.lifter.info.load R (c.argName i) i σ))
        σ).AgreeOn (is.map c.argName ++ U)
      (is.foldl (fun σ i => σ.set (c.argName i) (c.lifter.info.load R (c.argName i) i σ)) σ') := by
    intro is
    induction is with
    | nil => exact fun U σ σ' h => h
    | cons i is ih =>
      intro U σ σ' h
      -- what is loaded does not depend on the variables
      have hload : c.lifter.info.load R (c.argName i) i σ =
          c.lifter.info.load R (c.argName i) i σ' := by
        simp only [ArgumentsInfo.load, h.memory, h.arguments]
      rw [List.foldl_cons, List.foldl_cons, hload]
      refine (ih (c.argName i :: U) _ _ (h.set _ _)).mono fun x hx => ?_
      simp only [List.map_cons, List.cons_append, List.mem_cons, List.mem_append] at hx ⊢
      tauto
  have := key c.loadedArgs [] σ σ' h
  rwa [List.append_nil] at this

/-- How a body ends does not depend on what the variables held, and is unique. -/
theorem CompiledCheck.BodyEnds.unique (hC : out.IsC) (hc : c ∈ out.handlers) {e : Stop M}
    {v v' : String → V} {o o' : Outcome} (h : c.BodyEnds R l (e.enter v) o)
    (h' : c.BodyEnds R l (e.enter v') o') : o = o' := by
  obtain ⟨r, τ, hr, hrun⟩ := h
  obtain ⟨r', τ', hr', hrun'⟩ := h'
  obtain rfl := Option.some.inj (hr.symm.trans hr')
  have hagree : (e.enter v).AgreeOn [] (e.enter v') :=
    ⟨fun x hx => absurd hx List.not_mem_nil, rfl, rfl, rfl, rfl⟩
  obtain ⟨τ'', hrun'', -⟩ := cLang_agree (hC.scope c hc) hr (hagree.loaded c) hrun
  exact congrArg Prod.fst (hrun''.unique hrun')

/-- **The flag at `out`**: of a body that comes to a verdict, or that falls off with nothing behind
it. -/
theorem handles_of_body (hC : out.IsC) (hknown : ∀ c ∈ out.checks, Known c.syscall)
    {t : TracerState V} {e : Stop M} (hs : out.Serves e.retData l c) {o : Outcome}
    (hbody : c.BodyEnds R l (e.enter t.vars) o)
    (ho : (∃ p, o = .verdict p) ∨ (o = .runOff ∧ out.handlers.getLast? = some c)) :
    (∃ t' f, out.Handles R t e t' f) ∧
      ∀ t' f, out.Handles R t e t' f → o.flag t.deny = some f.killed := by
  have hc : Known c.syscall := hknown c (List.mem_filter.mp hs.mem).1
  -- the run of the text
  obtain ⟨τ, hrun⟩ : ∃ τ, Halts ((cLang R l).step out.tracerText)
      ([.line (.goto (c.syscall ++ "_start"))], e.enter t.vars) (o, τ) := by
    rcases ho with ⟨p, rfl⟩ | ⟨rfl, hlast⟩
    · obtain ⟨cs, cs', hsplit⟩ := List.append_of_mem hs.mem
      obtain ⟨τ, hverdict, -⟩ := body_inside hC hc hsplit hbody
      exact ⟨τ, hverdict p rfl⟩
    · obtain ⟨cs, hsplit⟩ := List.getLast?_eq_some_iff.mp hlast
      obtain ⟨τ, -, hoff⟩ := body_inside hC hc hsplit hbody
      exact ⟨τ, (hoff rfl).halts rfl⟩
  obtain ⟨d, hd⟩ : ∃ d, o.flag t.deny = some d := by
    rcases ho with ⟨p, rfl⟩ | ⟨rfl, -⟩
    · cases p <;> exact ⟨_, rfl⟩
    · exact ⟨_, rfl⟩
  constructor
  · exact ⟨_, _, handles_of_halts hs.label (hs.start ▸ hrun) hd rfl⟩
  · rintro t' f ⟨l', o', σ, hl', hrun', hflag, -, rfl⟩
    obtain rfl := Option.some.inj (hs.label.symm.trans hl')
    rw [hs.start] at hrun'
    cases hrun.unique hrun'
    rw [Stop.leave_killed, hflag]

/-- A stop that meets the condition has the verdict of its body, with the default action for a body
that falls off. -/
theorem decides_verdict (hC : out.IsC) (hknown : ∀ c ∈ out.checks, Known c.syscall)
    {t : TracerState V} {e : Stop M} (hd : out.Decides R t e) : ∃ l c o, out.Serves e.retData l c ∧
      c.BodyEnds R l (e.enter t.vars) o ∧ (∃ t' f, out.Handles R t e t' f) ∧
      ∀ t' f, out.Handles R t e t' f → o.flag out.defaultDeny = some f.killed := by
  obtain ⟨l, c, hs, ⟨p, hbody⟩ | ⟨hbody, hlast, hdeny⟩⟩ := hd
  · obtain ⟨hex, hall⟩ := handles_of_body hC hknown hs hbody (.inl ⟨p, rfl⟩)
    refine ⟨l, c, _, hs, hbody, hex, fun t' f h => ?_⟩
    have := hall t' f h
    cases p <;> exact this
  · obtain ⟨hex, hall⟩ := handles_of_body hC hknown hs hbody (.inr ⟨rfl, hlast⟩)
    exact ⟨l, c, _, hs, hbody, hex, fun t' f h => hdeny ▸ hall t' f h⟩

/-- A stop of a run is handled in some state, in which it meets the condition of the run. -/
theorem Output.Run.mem {P : TracerState V → Stop M → Prop} {t t' : TracerState V}
    {es : List (Stop M × Fate M)} (h : out.Run R P t es t') {x : Stop M × Fate M} (hx : x ∈ es) :
    ∃ u u', P u x.1 ∧ out.Handles R u x.1 u' x.2 := by
  induction h with
  | nil => exact absurd hx List.not_mem_nil
  | cons hP hstep _ ih =>
    rcases List.mem_cons.mp hx with rfl | hx
    · exact ⟨_, _, hP, hstep⟩
    · exact ih hx

end

/-- **Verdicts without history.** Take two runs of the generated tracer loop in which every stop
comes to a verdict in its own body, or belongs to the last check, falls off its body and finds the
default action in the flag. Then equal stops get equal verdicts, a stop whose body reaches no
verdict gets the default action, and every stop that meets the condition is handled. -/
theorem verdicts_history_free {policys : List Policy} {orders : Nat → HashOrder} {out : Output}
    (hout : compile policys orders = some out) (hC : out.IsC) (R : Runtime V M)
    {v v' : String → V} {t t' : TracerState V} {es es' : List (Stop M × Fate M)}
    (hrun : out.Run R (out.Decides R) (.initial v) es t)
    (hrun' : out.Run R (out.Decides R) (.initial v') es' t') :
    (∀ x ∈ es, ∀ y ∈ es', x.1 = y.1 → x.2.killed = y.2.killed) ∧
      (∀ x ∈ es, ∀ l c w, out.Serves x.1.retData l c → c.BodyEnds R l (x.1.enter w) .runOff →
        x.2.killed = out.defaultDeny) ∧
      ∀ u e, out.Decides R u e → ∃ u' f, out.Handles R u e u' f := by
  obtain ⟨⟨n, hcomp⟩, -⟩ := compile_spec hout
  have hknown : ∀ c ∈ out.checks, Known c.syscall := by
    intro c hc
    obtain ⟨_, _, _, hfrom, _⟩ := hcomp.from_mem hc
    exact hfrom.known
  refine ⟨?_, ?_, ?_⟩
  · rintro ⟨e, f⟩ hx ⟨e', f'⟩ hy rfl
    obtain ⟨u, u₁, hdec, hhand⟩ := hrun.mem hx
    obtain ⟨w, w₁, hdec', hhand'⟩ := hrun'.mem hy
    obtain ⟨l, c, o, hs, hbody, -, hall⟩ := decides_verdict hC hknown hdec
    obtain ⟨l', c', o', hs', hbody', -, hall'⟩ := decides_verdict hC hknown hdec'
    obtain ⟨rfl, rfl⟩ := hs.unique hC hknown hs'
    obtain rfl := hbody.unique hC hs.mem hbody'
    exact Option.some.inj ((hall u₁ f hhand).symm.trans (hall' w₁ f' hhand'))
  · rintro ⟨e, f⟩ hx l c w hs hoff
    obtain ⟨u, u₁, hdec, hhand⟩ := hrun.mem hx
    obtain ⟨l', c', o, hs', hbody, -, hall⟩ := decides_verdict hC hknown hdec
    obtain ⟨rfl, rfl⟩ := hs.unique hC hknown hs'
    obtain rfl := hoff.unique hC hs.mem hbody
    exact (Option.some.inj (hall u₁ f hhand)).symm
  · intro u e hdec
    obtain ⟨_, _, _, _, _, hex, _⟩ := decides_verdict hC hknown hdec
    exact hex

/-- `open` of a legal name is allowed; of another name, the body falls off. -/
def legalOpen : List Policy :=
  [.defaultDeny, .check ⟨"open", ["name", "flags", "mode"],
    [.ifThen (.inv "legal" ["name"]) (.compound [.perm .ALLOW])], open_named⟩]

/-- Numbers and strings, a tracee memory that holds a string at every address, and a helper that
accepts one name. -/
def namesRuntime : Runtime (Int ⊕ String) (BitVec 64 → String) where
  D :=
    { imm := .inl
      neg := fun x => x.map (- ·) id
      arith := fun _ x _ => x
      cmp := fun op x y => op.onInt (x.elim id fun _ => 0) (y.elim id fun _ => 0) }
  helper _ args := .inl (if args = [.inr "/tmp/a"] then 1 else 0)
  convert _ v := v
  ofWord w := .inl w.toNat
  toWord v := BitVec.ofInt 64 (v.elim id fun _ => 0)
  copyOutString m a := .inr (m a)
  copyOutMem m args i _ := .inr (m (args i))
  copyBackString v a m := Function.update m a (v.elim (fun _ => "") id)
  copyBackMem v args i _ m := Function.update m (args i) (v.elim (fun _ => "") id)

/-- A stop at `open` of the name in the tracee's memory. -/
def openStop (name : String) : Stop (BitVec 64 → String) :=
  ⟨⟨2, 0, 0, 0, 0, 0, 0, 0, 0, 0⟩, fun _ => name, 0⟩

/-- The fate of an allowed stop. -/
def allowed (name : String) : Fate (BitVec 64 → String) := .cont none fun _ => name

/-- Two runs that allow a stop, one of them after a stop that falls off. -/
theorem legalOpen_runs {out : Output} (h : compile legalOpen (fun _ => .insertion) = some out) :
    (∃ t f, out.Run namesRuntime (out.Decides namesRuntime) (.initial fun _ => .inl 0)
      [(openStop "/etc/shadow", .kill), (openStop "/tmp/a", f)] t) ∧
    ∃ t, out.Run namesRuntime (out.Decides namesRuntime) (.initial fun _ => .inl 0)
      [(openStop "/tmp/a", allowed "/tmp/a")] t := by
  obtain rfl := Option.some.inj h
  refine ⟨⟨_, allowed "/tmp/a", .cons ?_ (handles_of_halts rfl ⟨20, rfl⟩ rfl rfl)
    (.cons ?_ (handles_of_halts rfl ⟨20, rfl⟩ rfl rfl) (.nil _))⟩,
    ⟨_, .cons ?_ (handles_of_halts rfl ⟨20, rfl⟩ rfl rfl) (.nil _)⟩⟩
  · exact ⟨"open", _, ⟨rfl, List.mem_cons_self, rfl⟩, .inr ⟨⟨_, _, rfl, 10, rfl⟩, rfl, rfl⟩⟩
  · exact ⟨"open", _, ⟨rfl, List.mem_cons_self, rfl⟩, .inl ⟨.ALLOW, _, _, rfl, 10, rfl⟩⟩
  · exact ⟨"open", _, ⟨rfl, List.mem_cons_self, rfl⟩, .inl ⟨.ALLOW, _, _, rfl, 10, rfl⟩⟩

theorem legalOpen_steady : ∃ out, compile legalOpen (fun _ => .insertion) = some out ∧
    ∃ t f, out.Run namesRuntime (out.Decides namesRuntime) (.initial fun _ => .inl 0)
      [(openStop "/etc/shadow", .kill), (openStop "/tmp/a", f)] t ∧ f.killed = false := by
  refine ⟨_, rfl, ?_⟩
  obtain ⟨⟨t, f, hrun⟩, t', hrun'⟩ := legalOpen_runs rfl
  have h := (@verdicts_history_free _ _ legalOpen (fun _ => .insertion) _ rfl
    ⟨by decide, by decide⟩ namesRuntime _ _ _ _ _ _ hrun hrun').1
  exact ⟨t, f, hrun, h (openStop "/tmp/a", f) (by simp) (openStop "/tmp/a", allowed "/tmp/a")
    (by simp) rfl⟩

/-- A stop that falls off is allowed after an allowed stop, and killed as the first one. -/
theorem legalOpen_stale : ∃ out c, compile legalOpen (fun _ => .insertion) = some out ∧ out.IsC ∧
    out.defaultDeny = true ∧ out.Serves 0 "open" c ∧
    c.BodyEnds namesRuntime "open" ((openStop "/etc/shadow").enter fun _ => .inl 0) .runOff ∧
    (∃ t, out.Run namesRuntime (fun _ _ => True) (.initial fun _ => .inl 0)
      [(openStop "/tmp/a", allowed "/tmp/a"), (openStop "/etc/shadow", allowed "/etc/shadow")] t) ∧
    ∃ t, out.Run namesRuntime (fun _ _ => True) (.initial fun _ => .inl 0)
      [(openStop "/etc/shadow", .kill)] t := by
  refine ⟨_, _, rfl, ⟨by decide, by decide⟩, rfl, ⟨rfl, List.mem_cons_self, rfl⟩,
    ⟨_, _, rfl, 10, rfl⟩, ?_, ?_⟩
  · exact ⟨_, .cons trivial (handles_of_halts rfl ⟨20, rfl⟩ rfl rfl)
      (.cons trivial (handles_of_halts rfl ⟨20, rfl⟩ rfl rfl) (.nil _))⟩
  · exact ⟨_, .cons trivial (handles_of_halts rfl ⟨20, rfl⟩ rfl rfl) (.nil _)⟩

end SeccompPolicy
