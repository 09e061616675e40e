import SeccompPolicy.GenCode

/-!
# Execution of the tracer's text

The lines of C over words `V` and a tracee memory `M`, as structured code of `Lib.StructuredCode`.
What lies outside the generated text is a `Runtime`: the operators, the helpers, the conversions,
and the copy functions of the template. A helper is a function of its arguments, and a copied
string or buffer is a function of the tracee's memory and registers.

* A state (`CState`) has the variables, the words of `arguments`, the memory, `reg_modified`, and
  what has been recorded.
* A line is `CLine.act`: a declaration leaves the variable as it is, a load sets it, `SET_ARG` and
  the copies back write to `arguments` or to the memory.
* `goto *jmp_table[seccomp_ret_data]` goes to a label that is a parameter of the run, since the
  tables are another part of the text.
* Past the end of the text is `out`.

A variable that is read before it is set has whatever it has: the theorems on checks are for all
values. `CState.AgreeOn` says that two states agree on the variables that a text reads.

## Results

* `CState.AgreeOn.act`: a line keeps the agreement on variables that contain those it reads.
* `cLang_agree`: two runs of a text from states that agree on what it reads come to the same
  outcome.
-/

namespace SeccompPolicy

open StructuredCode
open LabelledCode (Act)

/-- What the text is executed with. -/
structure Runtime (V M : Type*) where
  D : Domain V
  helper : String → List V → V
  /-- Conversion of a value to a type. -/
  convert : String → V → V
  ofWord : BitVec 64 → V
  toWord : V → BitVec 64
  /-- `ptrace_copy_out_string` and `ptrace_copy_out_mem`: the second reads the argument with the
  number given, and the text of the size. -/
  copyOutString : M → BitVec 64 → V
  copyOutMem : M → (Nat → BitVec 64) → Nat → String → V
  /-- `ptrace_copy_back_string` and `ptrace_copy_back_mem`. -/
  copyBackString : V → BitVec 64 → M → M
  copyBackMem : V → (Nat → BitVec 64) → Nat → String → M → M

/-- The C variables, `arguments`, the tracee's memory, `reg_modified`, and what has been recorded:
tests and assignments. -/
structure CState (V M : Type*) where
  vars : String → V
  arguments : Nat → BitVec 64
  memory : M
  regModified : Bool
  log : List (Event V)

variable {V M : Type*}

/-- The state after `x = v`. -/
def CState.set (σ : CState V M) (x : String) (v : V) : CState V M :=
  { σ with vars := Function.update σ.vars x v }

/-- The state with one more event. -/
def CState.record (σ : CState V M) (e : Event V) : CState V M := { σ with log := σ.log ++ [e] }

variable (R : Runtime V M)

/-- The value of an expression. `<unknown>` is no expression of C; typed code has none. -/
def CExpr.eval (vars : String → V) : CExpr → V
  | .var x => vars x
  | .num n => R.D.imm n
  | .neg e => R.D.neg (e.eval vars)
  | .bin op l r => R.D.arith op (l.eval vars) (r.eval vars)
  | .call f args => R.helper f (args.map vars)
  | .unknown => R.D.imm 0

/-- The condition of an `if`. -/
def CCond.test (c : CCond) (σ : CState V M) : Bool × CState V M :=
  let x := c.left.eval R σ.vars
  let y := c.right.eval R σ.vars
  (R.D.cmp c.op x y, σ.record (.test c.op x y))

/-- What a line does. `goto *jmp_table[seccomp_ret_data]` goes to `dest`. -/
def CLine.act (dest : String) : CLine → CState V M →
    Act String (CState V M) (Outcome × CState V M)
  | .declare _ _, σ => .next σ
  | .copyOutString x i, σ => .next (σ.set x (R.copyOutString σ.memory (σ.arguments i)))
  | .copyOutMem x i size, σ => .next (σ.set x (R.copyOutMem σ.memory σ.arguments i size))
  | .getArg t x i, σ => .next (σ.set x (R.convert t (R.ofWord (σ.arguments i))))
  | .gotoTable, σ => .jump dest σ
  | .goto l, σ => .jump l σ
  | .allow, σ => .stop (.verdict .ALLOW, σ)
  | .deny, σ => .stop (.verdict .DENY, σ)
  | .assign t x e, σ =>
    let v := R.convert t (e.eval R σ.vars)
    .next ((σ.set x v).record (.act (.assign x v)))
  | .copyBackString x i, σ =>
    .next { σ with memory := R.copyBackString (σ.vars x) (σ.arguments i) σ.memory }
  | .copyBackMem x i size, σ =>
    .next { σ with memory := R.copyBackMem (σ.vars x) σ.arguments i size σ.memory }
  | .setArg i e, σ =>
    .next { σ with
      arguments := Function.update σ.arguments i (R.toWord (e.eval R σ.vars))
      regModified := true }

/-- The text as structured code. Past its end is the label `out`. -/
def cLang (dest : String) : Lang String CCond CLine (CState V M) (Outcome × CState V M) where
  act := CLine.act R dest
  test := CCond.test R
  finish σ := (.runOff, σ)
  dangling _ σ := (.stuck, σ)

theorem CLine.act_stop {dest : String} {i : CLine} {σ σ' : CState V M} {o : Outcome}
    (h : i.act R dest σ = .stop (o, σ')) : σ' = σ ∧ ∃ p, o = .verdict p := by
  cases i <;> simp only [CLine.act, Act.stop.injEq, Prod.mk.injEq, reduceCtorEq] at h
  · exact ⟨h.2.symm, .ALLOW, h.1.symm⟩
  · exact ⟨h.2.symm, .DENY, h.1.symm⟩

/-! ## Variables a text reads -/

/-- The variables of an expression. -/
def CExpr.vars : CExpr → List String
  | .var x => [x]
  | .neg e => e.vars
  | .bin _ l r => l.vars ++ r.vars
  | .call _ args => args
  | _ => []

/-- The variables a line reads. -/
def CLine.reads : CLine → List String
  | .assign _ _ e | .setArg _ e => e.vars
  | .copyBackString x _ | .copyBackMem x _ _ => [x]
  | _ => []

/-- The variables the lines and the conditions of a text read. -/
def textReads (text : List CStmt) : List String :=
  (codeLines text).flatMap CLine.reads ++
    (codeConds text).flatMap fun c => c.left.vars ++ c.right.vars

/-- The states agree, on the variables of `U` and on everything that is no variable. -/
structure CState.AgreeOn (U : List String) (σ σ' : CState V M) : Prop where
  vars : ∀ x ∈ U, σ.vars x = σ'.vars x
  arguments : σ.arguments = σ'.arguments
  memory : σ.memory = σ'.memory
  regModified : σ.regModified = σ'.regModified
  log : σ.log = σ'.log

variable {R} {U : List String} {σ σ' : CState V M}

theorem CExpr.eval_congr {f g : String → V} (e : CExpr) (h : ∀ x ∈ e.vars, f x = g x) :
    e.eval R f = e.eval R g := by
  induction e with
  | var x => exact h x (List.mem_singleton.mpr rfl)
  | num n => rfl
  | neg e ih => exact congrArg R.D.neg (ih h)
  | bin op l r ihl ihr =>
    simp only [CExpr.vars, List.mem_append] at h
    simp only [CExpr.eval, ihl fun x hx => h x (.inl hx), ihr fun x hx => h x (.inr hx)]
  | call f args => exact congrArg (R.helper f) (List.map_congr_left h)
  | unknown => rfl

/-- An assignment of one value makes the states agree on one more variable. -/
theorem CState.AgreeOn.set (h : σ.AgreeOn U σ') (x : String) (v : V) :
    (σ.set x v).AgreeOn (x :: U) (σ'.set x v) where
  vars y hy := by
    by_cases hyx : y = x
    · subst hyx
      simp [CState.set]
    · simpa [CState.set, hyx] using h.vars y ((List.mem_cons.mp hy).resolve_left hyx)
  arguments := h.arguments
  memory := h.memory
  regModified := h.regModified
  log := h.log

theorem CState.AgreeOn.record (h : σ.AgreeOn U σ') (e : Event V) :
    (σ.record e).AgreeOn U (σ'.record e) where
  vars := h.vars
  arguments := h.arguments
  memory := h.memory
  regModified := h.regModified
  log := by simp only [CState.record, h.log]

theorem CState.AgreeOn.mono {U' : List String} (h : σ.AgreeOn U σ') (hU : ∀ x ∈ U', x ∈ U) :
    σ.AgreeOn U' σ' where
  vars x hx := h.vars x (hU x hx)
  arguments := h.arguments
  memory := h.memory
  regModified := h.regModified
  log := h.log

theorem CState.AgreeOn.test {c : CCond} (h : σ.AgreeOn U σ')
    (hc : ∀ x ∈ c.left.vars ++ c.right.vars, x ∈ U) :
    (c.test R σ).1 = (c.test R σ').1 ∧ (c.test R σ).2.AgreeOn U (c.test R σ').2 := by
  have hl := CExpr.eval_congr (R := R) c.left fun x hx => h.vars x (hc x (List.mem_append_left _ hx))
  have hr := CExpr.eval_congr (R := R) c.right fun x hx =>
    h.vars x (hc x (List.mem_append_right _ hx))
  simp only [CCond.test, hl, hr]
  exact ⟨trivial, h.record _⟩

/-- **A line keeps the agreement** on variables that contain those it reads. -/
theorem CState.AgreeOn.act {dest : String} {i : CLine} (h : σ.AgreeOn U σ')
    (hi : ∀ x ∈ i.reads, x ∈ U) :
    ActRel (CState.AgreeOn U) (fun r r' => r.1 = r'.1 ∧ r.2.AgreeOn U r'.2)
      (i.act R dest σ) (i.act R dest σ') := by
  have set : ∀ x v, (σ.set x v).AgreeOn U (σ'.set x v) := fun x v =>
    (h.set x v).mono fun y hy => List.mem_cons_of_mem x hy
  have eval : ∀ e : CExpr, (∀ x ∈ e.vars, x ∈ U) → e.eval R σ.vars = e.eval R σ'.vars :=
    fun e he => e.eval_congr fun x hx => h.vars x (he x hx)
  cases i with
  | declare t x => exact .next h
  | gotoTable => exact .jump dest h
  | goto l => exact .jump l h
  | allow => exact .stop ⟨rfl, h⟩
  | deny => exact .stop ⟨rfl, h⟩
  | copyOutString x i =>
    simp only [CLine.act, h.memory, h.arguments]
    exact .next (set x _)
  | copyOutMem x i size =>
    simp only [CLine.act, h.memory, h.arguments]
    exact .next (set x _)
  | getArg t x i =>
    simp only [CLine.act, h.arguments]
    exact .next (set x _)
  | assign t x e =>
    simp only [CLine.act, eval e hi]
    exact .next ((set x _).record _)
  | copyBackString x i =>
    simp only [CLine.act, h.memory, h.arguments, h.vars x (hi x (List.mem_singleton.mpr rfl))]
    exact .next ⟨h.vars, rfl, rfl, h.regModified, h.log⟩
  | copyBackMem x i size =>
    simp only [CLine.act, h.memory, h.arguments, h.vars x (hi x (List.mem_singleton.mpr rfl))]
    exact .next ⟨h.vars, rfl, rfl, h.regModified, h.log⟩
  | setArg i e =>
    simp only [CLine.act, h.arguments, eval e hi]
    exact .next ⟨h.vars, rfl, h.memory, rfl, h.log⟩

/-- **Runs do not depend on variables that are not read**: two runs of a text from states that agree
on what it reads come to the same outcome. -/
theorem cLang_agree {dest : String} {text rest : List CStmt} (hU : ∀ x ∈ textReads text, x ∈ U)
    (hrest : find dest text = some rest) (h : σ.AgreeOn U σ') {o : Outcome} {τ : CState V M}
    (hrun : SmallStep.Halts ((cLang R dest).step text) (rest, σ) (o, τ)) :
    ∃ τ', SmallStep.Halts ((cLang R dest).step text) (rest, σ') (o, τ') ∧ τ.AgreeOn U τ' := by
  simp only [textReads, List.mem_append, List.mem_flatMap] at hU
  have hstep := fun c c' => @Alike.step String CCond CLine _ _ _ (cLang R dest) text
    (CState.AgreeOn U) (fun r r' => r.1 = r'.1 ∧ r.2.AgreeOn U r'.2)
    (fun i hi s s' hs => hs.act fun x hx => hU x (.inl ⟨i, hi, hx⟩))
    (fun k hk s s' hs => hs.test fun x hx => hU x (.inr ⟨k, hk, List.mem_append.mp hx⟩))
    (fun s s' hs => ⟨rfl, hs⟩) (fun l s s' hs => ⟨rfl, hs⟩) c c'
  have hstart : Alike text (CState.AgreeOn U) (rest, σ) (rest, σ') :=
    ⟨rfl, (find_mem hrest).1, (find_mem hrest).2, h⟩
  obtain ⟨⟨o', τ'⟩, hrun', ho, hτ⟩ := hrun.lockstep hstep hstart
  obtain rfl : o = o' := ho
  exact ⟨τ', hrun', hτ⟩

end SeccompPolicy
