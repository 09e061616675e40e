import SeccompPolicy.HandOver

/-!
# The loop of the tracer, over any reports

Source: `main` of `code_template/ptrace_template.c` and its copy in `code_template.cpp`
(`ptrace_template_p2`, `ptrace_template_p3`), of which the generated tracer is made.

`main` waits for a child, gives the first stop of the application the options of the tracer, lets
everything go on that is no seccomp stop, and handles the seccomp stops: it kills the child, or writes
its registers back and lets it go on. Here the loop is run over the reports of `wait`. Which children
are reported, in which order, with which status, registers and memory, is up to the kernel and the
processes, which are not modelled: the statements are about every list of reports.

The two texts of the loop differ in one statement, behind `kill`: the file leaves the loop, the copy
waits for the next child (`Template`). A round of `leave` asks for nothing; a round of `first` or `other`
leaves the variables of the blocks alone; a round of `seccomp` is `Output.Handles`.

## Results

* `Round.answers`: what one round asks of the kernel, by cases.
* `loop_answers`: over a whole run, only the reported child is asked for anything; a report is answered by
  one `PTRACE_CONT` or one `kill`, unless the loop is left without a word; options are set once at most, and of
  the application only; and in the file nothing follows a `kill`.
* `loop_follows_cfg`: a stop of a call that the filter hands over is answered as the CFG of its check says,
  wherever it stands among the reports.

## Out of scope

What the kernel makes of the requests, and the child's half of `main` (`PTRACE_TRACEME`, `raise` in the file
alone, `setup_seccomp`, `execvp`). A stop with a number outside `start_table` has no round: C gives the
jump no meaning.
-/

namespace SeccompPolicy

open ClassicBpf SmallStep

/-! ## One round -/

/-- The two texts of the loop. -/
inductive Template where
  | file
  | copy
  deriving DecidableEq

/-- `WIFEXITED(status)`. -/
def wifExited (status : BitVec 32) : Bool := status &&& 0x7f#32 == 0#32

/-- `WIFSTOPPED(status)`. -/
def wifStopped (status : BitVec 32) : Bool := status &&& 0xff#32 == 0x7f#32

/-- `SIGTRAP | (PTRACE_EVENT_SECCOMP<<8)`. -/
def seccompEvent : BitVec 32 := 5#32 ||| (7#32 <<< 8)

/-- `status>>8 == (SIGTRAP | (PTRACE_EVENT_SECCOMP<<8))`. -/
def isSeccompStop (status : BitVec 32) : Bool := status.sshiftRight 8 == seccompEvent

/-- What `wait` reports, and what `PTRACE_GETREGS`, `PTRACE_GETEVENTMSG` and the memory of the child
give then. -/
structure Report (M : Type*) where
  child : Int
  status : BitVec 32
  stop : Stop M

/-- The variables of `main` that live from round to round. -/
structure Loop (V : Type*) where
  firstFork : Bool
  directChild : Int
  state : TracerState V

/-- What the loop asks of the kernel. -/
inductive Request where
  | setOptions (child : Int)
  | setRegs (child : Int) (regs : UserRegs)
  | cont (child : Int)
  | kill (child : Int)

/-- The child of a request. -/
def Request.child : Request → Int
  | .setOptions p | .setRegs p _ | .cont p | .kill p => p

/-- The request lets the child go on, or kills it. -/
def Request.releases : Request → Bool
  | .cont _ | .kill _ => true
  | _ => false

/-- The request sets the options. -/
def Request.isOptions : Request → Bool
  | .setOptions _ => true
  | _ => false

/-- The request kills. -/
def Request.isKill : Request → Bool
  | .kill _ => true
  | _ => false

variable {V M : Type*}

/-- What is asked for behind `out`. -/
def Fate.requests (child : Int) : Fate M → List Request
  | .kill => [.kill child]
  | .cont regs _ => (regs.map (Request.setRegs child)).toList ++ [.cont child]

/-- `child == -1 || (WIFEXITED(status) && child == direct_child)`. -/
def Loop.leaves (L : Loop V) (e : Report M) : Prop :=
  e.child = -1 ∨ (wifExited e.status = true ∧ e.child = L.directChild)

/-- `first_fork && child == direct_child && WIFSTOPPED(status)`. -/
def Loop.isFirst (L : Loop V) (e : Report M) : Prop :=
  L.firstFork = true ∧ e.child = L.directChild ∧ wifStopped e.status = true

instance (L : Loop V) (e : Report M) : Decidable (L.leaves e) :=
  inferInstanceAs (Decidable (_ ∨ _))

instance (L : Loop V) (e : Report M) : Decidable (L.isFirst e) :=
  inferInstanceAs (Decidable (_ ∧ _))

/-- One round of `while(1)`: what it asks for, and the variables behind it, or none when the loop is
left. -/
inductive Output.Round (out : Output) (R : Runtime V M) (v : Template) (L : Loop V) (e : Report M) :
    List Request → Option (Loop V) → Prop
  | leave : L.leaves e → out.Round R v L e [] none
  | first : ¬ L.leaves e → L.isFirst e →
    out.Round R v L e [.setOptions e.child, .cont e.child] (some { L with firstFork := false })
  | other : ¬ L.leaves e → ¬ L.isFirst e → isSeccompStop e.status = false →
    out.Round R v L e [.cont e.child] (some L)
  | seccomp {t : TracerState V} {f : Fate M} : ¬ L.leaves e → ¬ L.isFirst e →
    isSeccompStop e.status = true → out.Handles R L.state e.stop t f →
    out.Round R v L e (f.requests e.child)
      (if f.killed = true ∧ v = .file then none else some { L with state := t })

/-- Before the first round, with the child that `fork` gave. -/
def Loop.initial (directChild : Int) (vars : String → V) : Loop V :=
  ⟨true, directChild, .initial vars⟩

/-- A run of the loop: the reports, each with what it was answered by. -/
inductive Output.LoopRuns (out : Output) (R : Runtime V M) (v : Template) :
    Loop V → List (Report M × List Request) → Option (Loop V) → Prop
  | nil (L : Loop V) : out.LoopRuns R v L [] (some L)
  | last {L : Loop V} {e : Report M} {qs : List Request} : out.Round R v L e qs none →
    out.LoopRuns R v L [(e, qs)] none
  | cons {L L' : Loop V} {r : Option (Loop V)} {e : Report M} {qs : List Request}
    {xs : List (Report M × List Request)} : out.Round R v L e qs (some L') →
    out.LoopRuns R v L' xs r → out.LoopRuns R v L ((e, qs) :: xs) r

section Rounds

variable {out : Output} {R : Runtime V M} {v : Template} {L : Loop V} {e : Report M}
  {qs : List Request} {r : Option (Loop V)}

theorem Fate.requests_child (f : Fate M) (p : Int) : ∀ q ∈ f.requests p, q.child = p := by
  intro q hq
  cases f with
  | kill =>
    obtain rfl := List.mem_singleton.mp hq
    rfl
  | cont regs memory =>
    rcases List.mem_append.mp hq with hq | hq
    · obtain ⟨r, -, rfl⟩ := Option.map_eq_some_iff.mp (Option.mem_toList.mp hq)
      rfl
    · obtain rfl := List.mem_singleton.mp hq
      rfl

/-- Behind `out` the child is released once, gets no options, and is killed when `deny` says so. -/
theorem Fate.requests_spec (f : Fate M) (p : Int) :
    (f.requests p).countP Request.releases = 1 ∧ (f.requests p).countP Request.isOptions = 0 ∧
      ((f.requests p).any Request.isKill = f.killed) := by
  cases f with
  | kill => exact ⟨rfl, rfl, rfl⟩
  | cont regs memory => cases regs <;> exact ⟨rfl, rfl, rfl⟩

/-- What the requests `qs` are as an answer to a report, and what becomes of the variables. -/
structure Answer (v : Template) (L : Loop V) (e : Report M) (qs : List Request)
    (r : Option (Loop V)) : Prop where
  child : ∀ q ∈ qs, q.child = e.child
  releases : qs.countP Request.releases = 1 ∨ (qs = [] ∧ r = none)
  options : qs.countP Request.isOptions ≤ if L.firstFork then 1 else 0
  options_child : ∀ q ∈ qs, q.isOptions = true → e.child = L.directChild
  directChild : ∀ L', r = some L' → L'.directChild = L.directChild
  firstFork : ∀ L', r = some L' → L'.firstFork = true →
    L.firstFork = true ∧ qs.countP Request.isOptions = 0
  kill : v = .file → qs.any Request.isKill = true → r = none

/-- **One round** asks for the reported child only, releases it once unless the loop is left in front,
sets options in the first round of the application only, and kills only for a denied stop, which in the
file is the end of the loop. -/
theorem Output.Round.answers (h : out.Round R v L e qs r) : Answer v L e qs r := by
  cases h with
  | leave hl =>
    constructor
    case releases => exact .inr ⟨rfl, rfl⟩
    case options => exact Nat.zero_le _
    case kill => exact fun _ _ => rfl
    all_goals simp
  | first hl hf =>
    constructor
    case releases => exact .inl rfl
    case options =>
      rw [hf.1]
      exact Nat.le_refl 1
    case options_child => exact fun _ _ _ => hf.2.1
    case directChild =>
      intro L' hr
      obtain rfl := Option.some.inj hr
      rfl
    all_goals simp [Request.child, Request.isKill]
  | other hl hf hs =>
    constructor
    case releases => exact .inl rfl
    case options => exact Nat.zero_le _
    case directChild =>
      intro L' hr
      rw [Option.some.inj hr]
    case firstFork =>
      intro L' hr hff
      obtain rfl := Option.some.inj hr
      exact ⟨hff, rfl⟩
    all_goals simp [Request.child, Request.isKill, Request.isOptions]
  | @seccomp t f hl hf hs hh =>
    obtain ⟨hrel, hopt, hkill⟩ := f.requests_spec e.child
    -- the variables behind it, unless the loop is left
    have hnext : ∀ L', (if f.killed = true ∧ v = .file then none
        else some { L with state := t }) = some L' → L' = { L with state := t } := by
      intro L' hr
      split at hr
      · cases hr
      · exact (Option.some.inj hr).symm
    constructor
    case child => exact f.requests_child e.child
    case releases => exact .inl hrel
    case options => exact hopt.trans_le (Nat.zero_le _)
    case options_child =>
      exact fun q hq ho => absurd (List.countP_pos_iff.mpr ⟨q, hq, ho⟩) (by omega)
    case directChild =>
      intro L' hr
      rw [hnext L' hr]
    case firstFork =>
      intro L' hr hff
      rw [hnext L' hr] at hff
      exact ⟨hff, hopt⟩
    case kill =>
      intro hv hk
      rw [if_pos ⟨hkill.symm.trans hk, hv⟩]

/-- Every answer of a run is that of a round. -/
theorem Output.LoopRuns.mem {xs : List (Report M × List Request)} (h : out.LoopRuns R v L xs r)
    {x : Report M × List Request} (hx : x ∈ xs) : ∃ L' r', L'.directChild = L.directChild ∧
      out.Round R v L' x.1 x.2 r' := by
  induction h with
  | nil => exact absurd hx List.not_mem_nil
  | last hround =>
    obtain rfl := List.mem_singleton.mp hx
    exact ⟨_, _, rfl, hround⟩
  | cons hround _ ih =>
    rcases List.mem_cons.mp hx with rfl | hx
    · exact ⟨_, _, rfl, hround⟩
    · obtain ⟨L', r', hd, hr⟩ := ih hx
      exact ⟨L', r', hd.trans (hround.answers.directChild _ rfl), hr⟩

/-- Options are set once at most, and only while `first_fork` is set. -/
theorem Output.LoopRuns.options {xs : List (Report M × List Request)} (h : out.LoopRuns R v L xs r) :
    (xs.flatMap Prod.snd).countP Request.isOptions ≤ if L.firstFork then 1 else 0 := by
  induction h with
  | nil => exact Nat.zero_le _
  | last hround =>
    have := hround.answers.options
    simpa using this
  | @cons L L' r e qs xs hround _ ih =>
    rw [List.flatMap_cons, List.countP_append]
    cases hL' : L'.firstFork with
    | true =>
      obtain ⟨hfirst, hzero⟩ := hround.answers.firstFork L' rfl hL'
      rw [hL'] at ih
      rw [hfirst, hzero, Nat.zero_add]
      exact ih
    | false =>
      rw [hL'] at ih
      have hnone := Nat.le_zero.mp ih
      rw [hnone, Nat.add_zero]
      exact hround.answers.options

end Rounds

/-- The application stops with `SIGTRAP` behind its `execvp`. -/
def firstStop : Report (BitVec 64 → String) :=
  ⟨42, 0x57f, ⟨⟨0, 0, 0, 0, 0, 0, 0, 0, 0, 0⟩, fun _ => "", 0⟩⟩

/-- A seccomp stop at `open` with mode `3`. -/
def modeStop : Report (BitVec 64 → String) :=
  ⟨42, 0x7057f, ⟨⟨2, 0, 0, 3, 0, 0, 0, 0, 0, 0⟩, fun _ => "/tmp/a", 0⟩⟩

/-- The tracer of `modeOpen` sets the options at the first stop and handles the second. -/
theorem modeOpen_loop {out : Output} (h : compile modeOpen (fun _ => .insertion) = some out) :
    ∃ qs r, out.LoopRuns namesRuntime .copy (.initial 42 fun _ => .inl 0)
      [(firstStop, [.setOptions 42, .cont 42]), (modeStop, qs)] r ∧ qs ≠ [] ∧
      ∀ q ∈ qs, q.isOptions = false := by
  obtain ⟨t, f, hh, hf⟩ : ∃ t f, out.Handles namesRuntime (.initial fun _ => .inl 0) modeStop.stop t f ∧
      f.requests 42 ≠ [] ∧ ∀ q ∈ f.requests 42, q.isOptions = false := by
    obtain rfl := Option.some.inj h
    refine ⟨_, _, handles_of_halts rfl ⟨20, rfl⟩ rfl rfl, ?_⟩
    decide
  have hfirst : out.Round namesRuntime .copy (.initial 42 fun _ => .inl 0) firstStop
      [.setOptions 42, .cont 42] _ := .first (by decide) (by decide)
  have hsecond : out.Round namesRuntime .copy ⟨false, 42, .initial fun _ => .inl 0⟩ modeStop
      (f.requests 42) _ := .seccomp (by decide) (by decide) (by decide) hh
  rw [if_neg fun hk => nomatch hk.2] at hsecond
  exact ⟨_, _, .cons hfirst (.cons hsecond (.nil _)), hf⟩

theorem Fate.requests_killed {f : Fate M} (hf : f.killed = true) (p : Int) :
    f.requests p = [.kill p] := by
  cases f with
  | kill => rfl
  | cont regs memory => cases hf

theorem Fate.requests_continued {f : Fate M} (hf : f.killed = false) (p : Int) :
    ∃ regs : Option UserRegs, f.requests p = (regs.map (Request.setRegs p)).toList ++ [.cont p] := by
  cases f with
  | kill => cases hf
  | cont regs memory => exact ⟨regs, rfl⟩

/-- The round of a seccomp stop that is neither the end of the loop nor the first stop. -/
theorem Output.Round.handled {out : Output} {R : Runtime V M} {v : Template} {L : Loop V}
    {e : Report M} {qs : List Request} {r : Option (Loop V)} (h : out.Round R v L e qs r)
    (hs : isSeccompStop e.status = true) (hne : qs ≠ []) (hno : ∀ q ∈ qs, q.isOptions = false) :
    ∃ t f, out.Handles R L.state e.stop t f ∧ qs = f.requests e.child := by
  cases h with
  | leave => exact absurd rfl hne
  | first => cases hno _ List.mem_cons_self
  | other _ _ hs' => simp [hs'] at hs
  | seccomp _ _ _ hh => exact ⟨_, _, hh, rfl⟩

/-- The requests of a handled stop are those of its verdict. -/
theorem Output.HandlesFrom.requests {out : Output} {R : Runtime V M} {c : CompiledCheck} {b : Nat}
    {u : TracerState V} {e : Stop M} (h : out.HandlesFrom R c b u e) {u' : TracerState V}
    {f : Fate M} (hf : out.Handles R u e u' f) (p : Int) : ∃ res ds,
      (∀ regs, c.CfgRuns R (inOrder c.cfg) ((c.loaded R (e.enter u.vars)).startOf b regs) res ds) ∧
      (res = .verdict .DENY → f.requests p = [.kill p]) ∧
      (res = .verdict .ALLOW →
        ∃ regs : Option UserRegs, f.requests p = (regs.map (Request.setRegs p)).toList ++ [.cont p]) := by
  obtain ⟨res, ds, hcfg, hend⟩ := h
  refine ⟨res, ds, hcfg, ?_, ?_⟩
  · rintro rfl
    have hflag := (hend (.inl ⟨_, rfl⟩)).2 u' f hf
    exact Fate.requests_killed (Option.some.inj hflag).symm p
  · rintro rfl
    have hflag := (hend (.inl ⟨_, rfl⟩)).2 u' f hf
    exact Fate.requests_continued (Option.some.inj hflag).symm p

/-- **The loop answers a handed over call as its CFG does.** In every run, over any reports: when the
execution of the CFG of a check on a call comes to the ptrace-only block `b` and the filter returns `w`
for the call, a seccomp stop with the number of `w`, wherever it stands, is answered as the CFG goes on
from `b` on the arguments loaded at the stop: by `kill` where it denies, by the registers and
`PTRACE_CONT` where it allows. -/
theorem loop_follows_cfg {policys : List Policy} {orders : Nat → HashOrder} {out : Output}
    (h : compile policys orders = some out) (hC : out.IsC) (hfit : out.FieldsFit)
    (hnd : (out.checks.map CompiledCheck.syscall).Nodup) {i : Nat}
    {c : CompiledCheck} (hc : out.checks[i]? = some c) (hwt : allWellTyped c.check.stmts = true)
    (hstart : StartsAtFirst c.cfg c.ptraceBbs) (hprinted : c.PrintedInOrder)
    (hargs : c.check.args.length ≤ 6) {d : SeccompData} (harch : d.arch = auditArchX86_64)
    (hnr : d.nr = c.nr)
    (hright : ∀ j ∈ c.bpfIR, j.RightOn c.check.args (SeccompData.words c.check.args d))
    {helpers : Helpers Word} {b : Nat} {t : IRState Word}
    (hcut : Halts (cutStep words32 helpers c.cfg c.ptraceOnlyBbs)
      (enterBlock c.cfg 0 ⟨SeccompData.words c.check.args d, fun _ => 0, []⟩) (.enters b, t))
    {w : Word} (hw : Halts (step out.sockFilter d) (0, {}) (some w)) (R : Runtime V M) (v : Template)
    (p : Int) (vars : String → V) {xs : List (Report M × List Request)} {r : Option (Loop V)}
    (hrun : out.LoopRuns R v (.initial p vars) xs r) {x : Report M × List Request} (hx : x ∈ xs)
    (hs : isSeccompStop x.1.status = true)
    (hdata : x.1.stop.retData = (w &&& SECCOMP_RET_DATA).toNat) (hne : x.2 ≠ [])
    (hno : ∀ q ∈ x.2, q.isOptions = false) : ∃ (u : TracerState V) (res : Outcome)
      (ds : List (Event V)),
      (∀ regs, c.CfgRuns R (inOrder c.cfg) ((c.loaded R (x.1.stop.enter u.vars)).startOf b regs)
        res ds) ∧
      (res = .verdict .DENY → x.2 = [.kill x.1.child]) ∧
      (res = .verdict .ALLOW →
        ∃ regs : Option UserRegs,
          x.2 = (regs.map (Request.setRegs x.1.child)).toList ++ [.cont x.1.child]) := by
  obtain ⟨⟨N, hcomp⟩, -, -⟩ := compile_spec h
  obtain ⟨r', t', hr', hreturns⟩ := program_cuts h hfit hnd hc hwt hstart hargs harch hnr hright
    helpers fun _ => 0
  obtain ⟨rfl, -⟩ := Prod.mk.inj (hcut.unique hr')
  obtain ⟨B, w', hB, hb, hpoint, hw', -, hlabel⟩ := hreturns
  obtain rfl := Option.some.inj (hw.unique hw')
  obtain ⟨L, _, -, hround⟩ := hrun.mem hx
  obtain ⟨t', f, hh, hqs⟩ := hround.handled hs hne hno
  rw [hqs]
  exact ⟨L.state, (handlesFrom_of_only hC hcomp (List.mem_of_getElem? hc) hwt hstart hprinted hB hb
    hlabel hpoint R L.state x.1.stop hdata).requests hh x.1.child⟩

/-- The stop of `open` with mode `3` is answered as the CFG goes on from block `1`. -/
theorem modeOpen_followed : ∃ out c qs r, compile modeOpen (fun _ => .insertion) = some out ∧
    out.checks[0]? = some c ∧
    out.LoopRuns namesRuntime .copy (.initial 42 fun _ => .inl 0)
      [(firstStop, [.setOptions 42, .cont 42]), (modeStop, qs)] r ∧
    ∃ (u : TracerState (Int ⊕ String)) (res : Outcome) (ds : List (Event (Int ⊕ String))),
      (∀ regs, c.CfgRuns namesRuntime (inOrder c.cfg)
        ((c.loaded namesRuntime (modeStop.stop.enter u.vars)).startOf 1 regs) res ds) ∧
      (res = .verdict .DENY → qs = [.kill 42]) ∧
      (res = .verdict .ALLOW →
        ∃ regs : Option UserRegs, qs = (regs.map (Request.setRegs 42)).toList ++ [.cont 42]) := by
  obtain ⟨out, hout⟩ : ∃ out, compile modeOpen (fun _ => .insertion) = some out := ⟨_, rfl⟩
  obtain ⟨c, hc⟩ : ∃ c, out.checks[0]? = some c := by
    obtain rfl := Option.some.inj hout
    exact ⟨_, rfl⟩
  obtain ⟨qs, r, hrun, hne, hno⟩ := modeOpen_loop hout
  have hright : ∀ j ∈ c.bpfIR, j.RightOn c.check.args (SeccompData.words c.check.args openMode3) := by
    obtain rfl := Option.some.inj hout
    obtain rfl := Option.some.inj hc
    decide
  refine ⟨out, c, qs, r, hout, hc, hrun, ?_⟩
  have hs : isSeccompStop modeStop.status = true := by decide
  obtain rfl := Option.some.inj hout
  obtain rfl := Option.some.inj hc
  exact @loop_follows_cfg _ _ modeOpen (fun _ => .insertion) _ rfl ⟨by decide, by decide⟩
    (modeOpen_fits rfl) (by decide) 0 _ rfl (by decide) (by decide) (by decide) (by decide) openMode3
    rfl rfl hright (fun _ _ _ => 0) 1 _ ⟨5, rfl⟩ SECCOMP_RET_TRACE ⟨20, by decide⟩ namesRuntime .copy
    42 (fun _ => .inl 0) _ r hrun (modeStop, qs) (List.mem_cons_of_mem _ List.mem_cons_self) hs
    rfl hne hno

end SeccompPolicy
