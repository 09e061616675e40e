import SeccompPolicy.BpfFilter

/-!
# Filter code read with its labels

Before `BPFTransformLabels` a filter list is labelled code: a `BPF_JUMP` names its targets, and
the text `0` goes on to the next filter. `filterLang` is the machine of such a list:
`Lib.ClassicBpf` executes a filter, and `Lib.LabelledCode` finds the place a label stands for.

A jump of labelled code has no offsets. It is tried with the offsets `0` and `1`, and which of the
two the machine takes says which target is meant (`exec_offsets`: the offsets matter to nothing
else).

`AtPlace` relates a place in the list, counted with its labels, with the place in the program,
counted without. One filter does the same in both (`step_placed`), and a label is a step of the
list alone.

## Results

* `transform_halts_iff`: filters that jump to labels and to the next filter end, from every place
  of the list, as the program without the labels does from the place that becomes of it.
* `filters_halt_of_scan`: with distinct labels, what one reading of the filters comes to is how
  the program ends.
-/

namespace SeccompPolicy

open ClassicBpf LabelledCode SmallStep

/-- How filters by themselves end: they stop, or run off their end. -/
abbrev FilterEnd := Option Word ⊕ State

/-- The label a filter is. -/
def BPFFilter.label? : BPFFilter → Option String
  | .label l => some l
  | _ => none

/-- Where a target leads; a number other than `0` is no target of code with labels. -/
def Target.go (s : State) : Target → Act String State FilterEnd
  | .label l => .jump l s
  | .num n => if n = 0 then .next s else .stop (.inl none)

/-- An effect, when it is known what a jump does. -/
def onEffect (skip : Option Int → Act String State FilterEnd) : Effect → Act String State FilterEnd
  | .next s => .next s
  | .ret v => .stop (.inl (some v))
  | .invalid => .stop (.inl none)
  | .skip off => skip off

/-- The effect of a filter. A jump is tried with the offsets `0` and `1`. -/
def filterAct (d : SeccompData) : BPFFilter → State → Act String State FilterEnd
  | .label _, s => .next s
  | .stmt op k, s => onEffect (fun _ => .stop (.inl none)) (exec d (BPFFilter.stmt op k).insn s)
  | .jump op k jt jf, s => onEffect (fun off => (if off = some 0 then jt else jf).go s)
      (exec d ⟨opcodeVal op, k.val, some 0, some 1⟩ s)

/-- Filter lists as labelled code. -/
def filterLang (d : SeccompData) : Lang BPFFilter String State FilterEnd where
  label? := BPFFilter.label?
  act := filterAct d
  finish := .inr
  dangling _ _ := .inl none

/-- The target is a label, or the next filter. -/
inductive Target.IsPlace : Target → Prop
  | label (l : String) : IsPlace (.label l)
  | next : IsPlace (.num 0)

/-- The filter jumps to labels and to the next filter only. -/
inductive BPFFilter.ByLabel : BPFFilter → Prop
  | label (l : String) : ByLabel (.label l)
  | stmt {op : List BPFConst} (k : KField) : opcodeVal op &&& 0x07 ≠ 0x05 → ByLabel (.stmt op k)
  | jump {op : List BPFConst} (k : KField) {jt jf : Target} : .JA ∉ op → opcodeVal op ≠ 0x05 →
    jt.IsPlace → jf.IsPlace → ByLabel (.jump op k jt jf)

theorem BPFFilter.Jumps.byLabel {f : BPFFilter} (h : f.Jumps) : f.ByLabel := by
  cases h with
  | label l => exact .label l
  | stmt k hop => exact .stmt k hop
  | jump k jt jf hja hop => exact .jump k hja hop (.label jt) (.label jf)

variable {d : SeccompData} {fs : List BPFFilter}

theorem filterLang_labels (d : SeccompData) (fs : List BPFFilter) :
    (filterLang d).labels fs = filterLabels fs := by
  unfold Lang.labels filterLabels
  refine List.filterMap_congr fun f _ => ?_
  cases f <;> rfl

/-! ## Places -/

theorem size_take_succ {n : Nat} {f : BPFFilter} (hf : fs[n]? = some f) :
    size (fs.take (n + 1)) = size (fs.take n) + if f.isLabel then 0 else 1 := by
  have hsingle : size [f] = if f.isLabel then 0 else 1 := by
    cases f <;> rfl
  rw [List.take_add_one, hf, Option.toList_some, size_append, hsingle]

/-- The `pc` of a label is the place of its last definition. -/
theorem label2pc_eq (d : SeccompData) (l : String) (fs : List BPFFilter) :
    label2pc l fs = ((filterLang d).lastDef l fs).map fun n => size (fs.take n) := by
  induction fs with
  | nil => rfl
  | cons f fs ih =>
    have hhere : f = .label l ↔ (filterLang d).label? f = some l := by
      cases f <;> simp [filterLang, BPFFilter.label?]
    rw [label2pc, Lang.lastDef, ih]
    cases (filterLang d).lastDef l fs with
    | some n =>
      have htake : size ((f :: fs).take (n + 1)) = size (fs.take n) + if f.isLabel then 0 else 1 := by
        cases f <;> simp [BPFFilter.isLabel]
      rw [Option.map_some, Option.map_some, htake]
    | none =>
      simp only [Option.map_none, hhere]
      split <;> rfl

/-! ## One step -/

/-- The offsets matter to the jumps only. -/
theorem exec_offsets (d : SeccompData) {code : Nat} (hcode : code ≠ 0x05) (k : Word)
    (jt jf : Option Int) (s : State) : exec d ⟨code, k, jt, jf⟩ s =
      match exec d ⟨code, k, some 0, some 1⟩ s with
      | .skip off => .skip (if off = some 0 then jt else jf)
      | e => e := by
  unfold exec
  simp only
  split
  case h_5 => exact absurd rfl hcode
  case h_13 =>
    generalize (if code &&& 0x08 = 0x08 then s.X else k) = b
    split_ifs
    · cases halu : alu (code - (code &&& 0x0f)) s.A b with
      | inl e =>
        rcases alu_inl halu with rfl | rfl <;> rfl
      | inr w => rfl
    · cases jump (code - (code &&& 0x0f)) s.A b with
      | none => rfl
      | some c => cases c <;> rfl
    · rfl
  all_goals first | rfl | (split <;> rfl)

/-- The way to a target from the place `pc`, in code and in the program. -/
theorem go_resolve (d : SeccompData) (fs : List BPFFilter) {t : Target} (ht : t.IsPlace) (pc : Nat)
    (s : State) : match t.go s with
      | .next s' => s' = s ∧
          goto pc (t.resolve (fun l => label2pc l fs) pc).offset = some (pc + 1)
      | .jump l s' => s' = s ∧ goto pc (t.resolve (fun l => label2pc l fs) pc).offset =
          ((filterLang d).lastDef l fs).map fun n => size (fs.take n)
      | .stop _ => False := by
  cases ht with
  | next =>
    have hpc : (0 : Int) ≤ (pc : Int) + 1 + 0 := by omega
    exact ⟨rfl, by simp only [Target.resolve, Target.offset, goto, Option.bind_some, if_pos hpc]; rfl⟩
  | label l =>
    refine ⟨rfl, ?_⟩
    simp only [Target.resolve]
    rw [← label2pc_eq]
    cases label2pc l fs with
    | none => rfl
    | some p =>
      have hpc : (pc : Int) + 1 + (p - pc - 1) = p := by omega
      simp only [Target.offset, goto, Option.bind_some, hpc]
      exact if_pos (Int.natCast_nonneg p)

/-- A place in code with labels, and in the program. -/
def AtPlace (fs : List BPFFilter) (c c' : Config) : Prop := c' = (size (fs.take c.1), c.2)

theorem program_place {n : Nat} {f : BPFFilter} (hf : fs[n]? = some f) (hl : f.isLabel = false) :
    (program (bpfTransformLabels fs))[size (fs.take n)]? =
      some (f.resolve (fun l => label2pc l fs) (size (fs.take n))).insn := by
  obtain ⟨hlt, rfl⟩ := List.getElem?_eq_some_iff.mp hf
  have hsplit : fs = fs.take n ++ fs[n] :: fs.drop (n + 1) := by
    rw [List.getElem_cons_drop, List.take_append_drop]
  have hplace := transformFrom_place (fun l => label2pc l fs) 0 (fs.take n) hl (fs.drop (n + 1))
  rw [← hsplit, Nat.zero_add] at hplace
  unfold program bpfTransformLabels
  rw [List.getElem?_map, hplace, Option.map_some]

/-- **A filter that is no label does the same in both.** -/
theorem step_placed {n : Nat} {f : BPFFilter} (hf : fs[n]? = some f) (hl : f.isLabel = false)
    (hby : f.ByLabel) (s : State) :
    Sum.LiftRel (AtPlace fs) Eq ((filterLang d).step fs (n, s))
      (segStep (program (bpfTransformLabels fs)) d (size (fs.take n), s)) := by
  have hget := program_place hf hl
  have hlt := (List.getElem?_eq_some_iff.mp hget).1
  have hnext : size (fs.take (n + 1)) = size (fs.take n) + 1 := by
    rw [size_take_succ hf, hl]
    rfl
  rw [segStep, if_neg (Nat.not_le.mpr hlt)]
  unfold Lang.step step
  rw [hf, hget]
  simp only
  cases hby with
  | label l => cases hl
  | @stmt op k hop =>
    have hact : (filterLang d).act (.stmt op k) s =
        onEffect (fun _ => .stop (.inl none)) (exec d (BPFFilter.stmt op k).insn s) := rfl
    have hsame : (BPFFilter.stmt op k).resolve (fun l => label2pc l fs) (size (fs.take n)) =
        .stmt op k := rfl
    rw [hact, hsame]
    cases he : exec d (BPFFilter.stmt op k).insn s with
    | next t => exact .inl (by rw [AtPlace, hnext])
    | ret v => exact .inr rfl
    | invalid => exact .inr rfl
    | skip off => exact absurd (exec_skip he).1 hop
  | @jump op k jt jf hja hop hjt hjf =>
    have hact : (filterLang d).act (.jump op k jt jf) s =
        onEffect (fun off => (if off = some 0 then jt else jf).go s)
          (exec d ⟨opcodeVal op, k.val, some 0, some 1⟩ s) := rfl
    have hoffsets := exec_offsets d hop k.val
      (jt.resolve (fun l => label2pc l fs) (size (fs.take n))).offset
      (jf.resolve (fun l => label2pc l fs) (size (fs.take n))).offset s
    rw [hact, BPFFilter.resolve, if_neg hja, BPFFilter.insn, hoffsets]
    cases exec d ⟨opcodeVal op, k.val, some 0, some 1⟩ s with
    | next t => exact .inl (by rw [AtPlace, hnext])
    | ret v => exact .inr rfl
    | invalid => exact .inr rfl
    | skip off =>
      -- the target taken, whichever it is
      have htaken : (if off = some 0 then jt else jf).IsPlace := by
        split <;> assumption
      have hoff : (if off = some 0 then
            (jt.resolve (fun l => label2pc l fs) (size (fs.take n))).offset
          else (jf.resolve (fun l => label2pc l fs) (size (fs.take n))).offset) =
          ((if off = some 0 then jt else jf).resolve (fun l => label2pc l fs)
            (size (fs.take n))).offset := by
        split <;> rfl
      have hgo := go_resolve d fs htaken (size (fs.take n)) s
      simp only [hoff, onEffect]
      generalize (if off = some 0 then jt else jf) = t at hgo
      cases hto : t.go s with
      | stop o =>
        rw [hto] at hgo
        exact hgo.elim
      | next s' =>
        rw [hto] at hgo
        obtain ⟨rfl, hgoto⟩ := hgo
        simp only [hgoto]
        exact .inl (by rw [AtPlace, hnext])
      | jump l s' =>
        rw [hto] at hgo
        obtain ⟨rfl, hgoto⟩ := hgo
        simp only [hgoto]
        cases (filterLang d).lastDef l fs with
        | none => exact .inr rfl
        | some p => exact .inl rfl

theorem step_label {n : Nat} {l : String} (hf : fs[n]? = some (.label l)) (s : State) :
    (filterLang d).step fs (n, s) = .inl (n + 1, s) := by
  unfold Lang.step
  rw [hf]
  rfl

theorem step_past {n : Nat} (hn : fs.length ≤ n) (s : State) :
    (filterLang d).step fs (n, s) = .inr (.inr s) ∧
      segStep (program (bpfTransformLabels fs)) d (size (fs.take n), s) = .inr (.inr s) := by
  refine ⟨?_, if_pos ?_⟩
  · simp only [Lang.step, List.getElem?_eq_none_iff.mpr hn, filterLang]
  · unfold program bpfTransformLabels
    exact Nat.le_of_eq (by rw [List.length_map, transformFrom_length, List.take_of_length_le hn])

/-! ## Whole runs -/

/-- There is no label at `n`: a filter, or the end. -/
def Passed (fs : List BPFFilter) (n : Nat) : Prop :=
  fs.length ≤ n ∨ ∃ f, fs[n]? = some f ∧ f.isLabel = false

theorem passed_or_label (fs : List BPFFilter) (n : Nat) :
    Passed fs n ∨ ∃ l, fs[n]? = some (.label l) := by
  rcases Nat.lt_or_ge n fs.length with hn | hn
  · have hget := List.getElem?_eq_getElem hn
    generalize fs[n] = f at hget
    cases f with
    | label l => exact .inr ⟨l, hget⟩
    | stmt op k => exact .inl (.inr ⟨_, hget, rfl⟩)
    | jump op k jt jf => exact .inl (.inr ⟨_, hget, rfl⟩)
  · exact .inl (.inl hn)

/-- The labels in front of a filter are passed. -/
theorem pass_labels (d : SeccompData) (fs : List BPFFilter) (n : Nat) (s : State) :
    ∃ n', Reaches ((filterLang d).step fs) (n, s) (n', s) ∧
      size (fs.take n') = size (fs.take n) ∧ Passed fs n' := by
  generalize hk : fs.length - n = k
  induction k generalizing n with
  | zero => exact ⟨n, .refl, rfl, .inl (Nat.sub_eq_zero_iff_le.mp hk)⟩
  | succ k ih =>
    rcases passed_or_label fs n with hn | ⟨l, hl⟩
    · exact ⟨n, .refl, rfl, hn⟩
    · obtain ⟨n', hreach, hsize, hn'⟩ := ih (n + 1) (by omega)
      refine ⟨n', .head (step_label hl s) hreach, ?_, hn'⟩
      rw [hsize, size_take_succ hl]
      rfl

theorem step_passed (hby : ∀ f ∈ fs, f.ByLabel) {n : Nat} (hn : Passed fs n) (s : State) :
    Sum.LiftRel (AtPlace fs) Eq ((filterLang d).step fs (n, s))
      (segStep (program (bpfTransformLabels fs)) d (size (fs.take n), s)) := by
  rcases hn with hn | ⟨f, hf, hl⟩
  · obtain ⟨h₁, h₂⟩ := @step_past d fs n hn s
    rw [h₁, h₂]
    exact .inr rfl
  · exact step_placed hf hl (hby f (List.mem_of_getElem? hf)) s

/-- **`BPFTransformLabels` changes no run.** Filters that jump to labels and to the next filter end,
from every place of the list, as the program without the labels does from the place that is left
of it. -/
theorem transform_halts_iff (hby : ∀ f ∈ fs, f.ByLabel) (n : Nat) (s : State) (o : FilterEnd) :
    Halts ((filterLang d).step fs) (n, s) o ↔
      Halts (segStep (program (bpfTransformLabels fs)) d) (size (fs.take n), s) o := by
  refine halts_iff_of_catchUp (R := AtPlace fs) ?_ rfl
  rintro ⟨n, s⟩ _ rfl
  obtain ⟨n', hreach, hsize, hn'⟩ := pass_labels d fs n s
  refine ⟨(n', s), hreach, ?_⟩
  rw [← hsize]
  exact step_passed hby hn' s

/-- With distinct labels, what one reading of the filters comes to is how the program ends. -/
theorem filters_halt_of_scan (hby : ∀ f ∈ fs, f.ByLabel) (hnd : (filterLabels fs).Nodup) {s : State}
    {o : FilterEnd} (h : (filterLang d).ScanHalts ((filterLang d).scan fs none s) o) :
    Halts (segStep (program (bpfTransformLabels fs)) d) (0, s) o := by
  have hrun := (filterLang d).halts_of_scan (by rwa [filterLang_labels]) h
  exact (transform_halts_iff hby 0 s o).mp hrun

end SeccompPolicy
