import SeccompPolicy.IR
import SeccompPolicy.Lib.ClassicBpf

/-!
# Filter code: `BPF_Filter` and `BPFTransformLabels`

Source: `BPF_Filter` of `code_gen.h`, `BPFTransformLabels` of `code_gen.cpp`; for the constants
the headers `linux/bpf_common.h`, `linux/filter.h`, `linux/seccomp.h` and `linux/audit.h` the
generated file includes.

A `BPF_Filter` is a label, a `BPF_STMT` or a `BPF_JUMP`. Its opcode string is a list of the names
it joins with `|`; its `k` string is one of the few texts the compiler writes (`KField`); a jump
field is a number or the text of a label. The text itself, character by character, is the subject
of `FilterText`.

* `bpfTransformLabels` numbers the filters that are not labels, replaces the labels in jump fields
  by offsets and erases the labels. A label stands for the filter behind its last definition, as
  in the map of the source; a name that no label has stays as it is.
* `program` is what the C compiler makes of the initialisers: the opcode names are or-ed, the `k`
  texts evaluated. Offsets are the integers they are here; that `sock_filter` has eight bits for
  them is left to `Policy` (`Output.sockFilter`) and `JumpFields`.
* Three names that `BPFCodeGen` can write are no names of the headers (`BPF_ERROR`, `BPF_ERR`,
  `INVALID`); they get a number that is no instruction.

`DENY_ACTION` is that of the build without `DEBUG_MODE`. Out of scope here: a label at the very
end of the list, for which the source reads past the end. `LabelOffsets` has the pass with its
reads checked.

## Results

* `transformFrom_shift`: code moved as a whole keeps its offsets, so a body can be transformed by
  itself (`transform_segment`).
* `closed_of_forward`: code whose labels are its own and in front of nothing that names them is a
  closed segment of `Lib.ClassicBpf`.
-/

namespace SeccompPolicy

open ClassicBpf

/-- The names that occur in opcode strings. The last three are no names of `linux/bpf_common.h`. -/
inductive BPFConst where
  | LD | LDX | ST | ALU | JMP | RET
  | W | ABS | MEM | K | X | TAX
  | ADD | SUB | MUL | DIV | MOD | NEG | AND | OR | XOR | LSH | RSH
  | JA | JEQ | JGT | JGE
  | ERROR | ERR | INVALID
  deriving DecidableEq, Repr

/-- The constants of `linux/bpf_common.h` and `linux/filter.h`. What does not compile is given a
number that is no instruction. -/
def BPFConst.val : BPFConst → Nat
  | .LD => 0x00 | .LDX => 0x01 | .ST => 0x02 | .ALU => 0x04 | .JMP => 0x05 | .RET => 0x06
  | .W => 0x00 | .ABS => 0x20 | .MEM => 0x60 | .K => 0x00 | .X => 0x08 | .TAX => 0x00
  | .ADD => 0x00 | .SUB => 0x10 | .MUL => 0x20 | .DIV => 0x30 | .OR => 0x40 | .AND => 0x50
  | .LSH => 0x60 | .RSH => 0x70 | .NEG => 0x80 | .MOD => 0x90 | .XOR => 0xa0
  | .JA => 0x00 | .JEQ => 0x10 | .JGT => 0x20 | .JGE => 0x30
  | .ERROR | .ERR | .INVALID => 0xffff

/-- The value of an opcode string. -/
def opcodeVal (op : List BPFConst) : Nat := op.foldr (fun c n => c.val ||| n) 0

/-- The texts of the `k` field. -/
inductive KField where
  | empty
  | int (n : Int)
  | argOffset (index : Nat)
  | archOffset
  | nrOffset
  | tArch
  | upperNrLimit
  | notX32Bit
  | retAllow
  | retKillProcess
  | retTrace (data : Nat)
  | label (l : String)
  deriving DecidableEq, Repr

/-- `AUDIT_ARCH_X86_64`. -/
def auditArchX86_64 : Word := 0xC000003E#32

/-- `SECCOMP_RET_ALLOW`. -/
def SECCOMP_RET_ALLOW : Word := 0x7fff0000#32

/-- `SECCOMP_RET_KILL_PROCESS`, which is also `DENY_ACTION`. -/
def SECCOMP_RET_KILL_PROCESS : Word := 0x80000000#32

/-- `SECCOMP_RET_TRACE`. -/
def SECCOMP_RET_TRACE : Word := 0x7ff00000#32

/-- `SECCOMP_RET_DATA`: the bits of a returned word the tracer gets. -/
def SECCOMP_RET_DATA : Word := 0x0000ffff#32

/-- The value of a `k` text. The empty one is printed as `0`. -/
def KField.val : KField → Word
  | .empty => 0
  | .int n => BitVec.ofInt 32 n
  | .argOffset i => BitVec.ofNat 32 (16 + 8 * i)
  | .archOffset => 4
  | .nrOffset => 0
  | .tArch => auditArchX86_64
  | .upperNrLimit => 0x3fffffff#32
  | .notX32Bit => ~~~ 0x40000000#32
  | .retAllow => SECCOMP_RET_ALLOW
  | .retKillProcess => SECCOMP_RET_KILL_PROCESS
  | .retTrace d => SECCOMP_RET_TRACE ||| (SECCOMP_RET_DATA &&& BitVec.ofNat 32 d)
  | .label _ => 0

/-- The text of a jump field: a number or a label. -/
inductive Target where
  | num (n : Int)
  | label (l : String)
  deriving DecidableEq, Repr

/-- `BPF_Filter`. -/
inductive BPFFilter where
  | label (label : String)
  | stmt (opcode : List BPFConst) (k : KField)
  | jump (opcode : List BPFConst) (k : KField) (jt jf : Target)
  deriving DecidableEq, Repr

/-- `!f.label.empty()`. -/
def BPFFilter.isLabel : BPFFilter → Bool
  | .label _ => true
  | _ => false

/-! ## `BPFTransformLabels` -/

/-- The number of filters that are not labels: how much `ip` grows over the list. -/
def size (fs : List BPFFilter) : Nat := fs.countP fun f => !f.isLabel

/-- The `pc` of the filter `label_2_filter` holds for a label: of the one after the last label of
that name. -/
def label2pc (l : String) : List BPFFilter → Option Nat
  | [] => none
  | f :: fs =>
    match label2pc l fs with
    | some n => some (n + if f.isLabel then 0 else 1)
    | none => if f = .label l then some 0 else none

/-- The offset from `pc` to a target, when it is a label with a place. -/
def Target.resolve (ρ : String → Option Nat) (pc : Nat) : Target → Target
  | .num n => .num n
  | .label l =>
    match ρ l with
    | some p => .num ((p : Int) - pc - 1)
    | none => .label l

/-- The offset from `pc` to the label a `BPF_JA` has in its `k` field. -/
def KField.resolve (ρ : String → Option Nat) (pc : Nat) : KField → KField
  | .label l =>
    match ρ l with
    | some p => .int ((p : Int) - pc - 1)
    | none => .label l
  | k => k

/-- The body of the last loop of `BPFTransformLabels`, for the filter numbered `pc`. -/
def BPFFilter.resolve (ρ : String → Option Nat) (pc : Nat) : BPFFilter → BPFFilter
  | .jump op k jt jf =>
    if .JA ∈ op then .jump op (k.resolve ρ pc) jt jf
    else .jump op k (jt.resolve ρ pc) (jf.resolve ρ pc)
  | f => f

/-- The last loop of `BPFTransformLabels`, from the filter numbered `pc` on. -/
def transformFrom (ρ : String → Option Nat) : Nat → List BPFFilter → List BPFFilter
  | _, [] => []
  | pc, f :: fs =>
    if f.isLabel then transformFrom ρ pc fs else f.resolve ρ pc :: transformFrom ρ (pc + 1) fs

/-- `BPFTransformLabels`. -/
def bpfTransformLabels (fs : List BPFFilter) : List BPFFilter :=
  transformFrom (fun l => label2pc l fs) 0 fs

/-! ## What the C compiler makes of a filter -/

/-- The offset a jump field denotes; a label left in it denotes none. -/
def Target.offset : Target → Option Int
  | .num n => some n
  | .label _ => none

/-- `BPF_STMT` and `BPF_JUMP`. -/
def BPFFilter.insn : BPFFilter → Insn
  | .label _ => ⟨0xffff, 0, none, none⟩
  | .stmt op k => ⟨opcodeVal op, k.val, some 0, some 0⟩
  | .jump op k jt jf => ⟨opcodeVal op, k.val, jt.offset, jf.offset⟩

/-- The program of a filter list. -/
def program (fs : List BPFFilter) : List Insn := fs.map BPFFilter.insn

/-! ## Labels and places -/

/-- The labels of a filter list. -/
def filterLabels (fs : List BPFFilter) : List String :=
  fs.filterMap fun
    | .label l => some l
    | _ => none

@[simp] theorem filterLabels_nil : filterLabels [] = [] := rfl

@[simp] theorem filterLabels_append (xs ys : List BPFFilter) :
    filterLabels (xs ++ ys) = filterLabels xs ++ filterLabels ys := List.filterMap_append

@[simp] theorem filterLabels_label (l : String) (fs : List BPFFilter) :
    filterLabels (.label l :: fs) = l :: filterLabels fs := rfl

@[simp] theorem filterLabels_stmt (op : List BPFConst) (k : KField) (fs : List BPFFilter) :
    filterLabels (.stmt op k :: fs) = filterLabels fs := rfl

@[simp] theorem filterLabels_jump (op : List BPFConst) (k : KField) (jt jf : Target)
    (fs : List BPFFilter) : filterLabels (.jump op k jt jf :: fs) = filterLabels fs := rfl

@[simp] theorem size_nil : size [] = 0 := rfl

@[simp] theorem size_append (xs ys : List BPFFilter) : size (xs ++ ys) = size xs + size ys :=
  List.countP_append

@[simp] theorem size_label (l : String) (fs : List BPFFilter) : size (.label l :: fs) = size fs := by
  simp [size, BPFFilter.isLabel]

@[simp] theorem size_stmt (op : List BPFConst) (k : KField) (fs : List BPFFilter) :
    size (.stmt op k :: fs) = size fs + 1 := by
  simp [size, BPFFilter.isLabel]

@[simp] theorem size_jump (op : List BPFConst) (k : KField) (jt jf : Target)
    (fs : List BPFFilter) : size (.jump op k jt jf :: fs) = size fs + 1 := by
  simp [size, BPFFilter.isLabel]

theorem mem_filterLabels {l : String} {fs : List BPFFilter} :
    l ∈ filterLabels fs ↔ .label l ∈ fs := by
  unfold filterLabels
  rw [List.mem_filterMap]
  constructor
  · rintro ⟨f, hf, h⟩
    cases f with
    | label l' =>
      obtain rfl := Option.some.inj h
      exact hf
    | _ => cases h
  · exact fun h => ⟨_, h, rfl⟩

theorem label2pc_cons {f : BPFFilter} (hf : f.isLabel = false) (l : String)
    (fs : List BPFFilter) : label2pc l (f :: fs) = (label2pc l fs).map (· + 1) := by
  have hne : f ≠ .label l := by
    rintro rfl
    cases hf
  rw [label2pc, hf, if_neg hne]
  cases label2pc l fs <;> rfl

theorem label2pc_append (l : String) (xs ys : List BPFFilter) :
    label2pc l (xs ++ ys) = match label2pc l ys with
      | some n => some (size xs + n)
      | none => label2pc l xs := by
  induction xs with
  | nil => cases h : label2pc l ys <;> simp [label2pc, h]
  | cons f xs ih =>
    rw [List.cons_append, label2pc, ih]
    cases h : label2pc l ys with
    | none => simp [label2pc]
    | some n =>
      cases f <;> simp [BPFFilter.isLabel] <;> omega

theorem label2pc_eq_none {l : String} {fs : List BPFFilter} :
    label2pc l fs = none ↔ l ∉ filterLabels fs := by
  induction fs with
  | nil => simp [label2pc]
  | cons f fs ih =>
    unfold label2pc
    cases h : label2pc l fs with
    | some n =>
      have hm : l ∈ filterLabels fs := by
        by_contra hm
        rw [ih.mpr hm] at h
        simp at h
      cases f <;> simp [hm]
    | none =>
      have hm := ih.mp h
      cases f with
      | label l' => by_cases hl : l' = l <;> simp [hl, hm, eq_comm]
      | stmt op k => simp [hm]
      | jump op k jt jf => simp [hm]

/-- A label that occurs last in front of `fs` stands for the first place of `fs`. -/
theorem label2pc_head {l : String} {fs : List BPFFilter} (h : l ∉ filterLabels fs) :
    label2pc l (.label l :: fs) = some 0 := by
  unfold label2pc
  rw [label2pc_eq_none.mpr h]
  simp

theorem label2pc_le {l : String} {fs : List BPFFilter} {n : Nat} (h : label2pc l fs = some n) :
    n ≤ size fs := by
  induction fs generalizing n with
  | nil => simp [label2pc] at h
  | cons f fs ih =>
    unfold label2pc at h
    cases hl : label2pc l fs with
    | some k =>
      rw [hl] at h
      have := ih hl
      obtain rfl := Option.some.inj h
      cases f <;> simp [BPFFilter.isLabel] <;> omega
    | none =>
      rw [hl] at h
      simp only [Option.ite_none_right_eq_some, Option.some.injEq] at h
      omega

theorem size_cons {f : BPFFilter} (hf : f.isLabel = false) (fs : List BPFFilter) :
    size (f :: fs) = size fs + 1 := by
  cases f with
  | label l => cases hf
  | stmt op k => exact size_stmt op k fs
  | jump op k jt jf => exact size_jump op k jt jf fs

theorem transformFrom_label (ρ : String → Option Nat) (pc : Nat) (l : String)
    (fs : List BPFFilter) : transformFrom ρ pc (.label l :: fs) = transformFrom ρ pc fs := rfl

theorem transformFrom_cons (ρ : String → Option Nat) (pc : Nat) {f : BPFFilter}
    (hf : f.isLabel = false) (fs : List BPFFilter) :
    transformFrom ρ pc (f :: fs) = f.resolve ρ pc :: transformFrom ρ (pc + 1) fs := by
  rw [transformFrom, hf]
  rfl

/-- The transformed list has one filter for each that is not a label. -/
theorem transformFrom_length (ρ : String → Option Nat) (pc : Nat) (fs : List BPFFilter) :
    (transformFrom ρ pc fs).length = size fs := by
  induction fs generalizing pc with
  | nil => rfl
  | cons f fs ih => cases f <;> simp [transformFrom, BPFFilter.isLabel, ih]

theorem transformFrom_append (ρ : String → Option Nat) (pc : Nat) (xs ys : List BPFFilter) :
    transformFrom ρ pc (xs ++ ys) =
      transformFrom ρ pc xs ++ transformFrom ρ (pc + size xs) ys := by
  induction xs generalizing pc with
  | nil => rfl
  | cons f xs ih =>
    rw [List.cons_append]
    cases hf : f.isLabel with
    | true =>
      cases f with
      | label l => rw [transformFrom_label, transformFrom_label, ih, size_label]
      | _ => cases hf
    | false =>
      rw [transformFrom_cons ρ pc hf, transformFrom_cons ρ pc hf, ih, size_cons hf,
        List.cons_append, Nat.add_assoc, Nat.add_comm 1]

/-- The place of a filter in the transformed list. -/
theorem transformFrom_place (ρ : String → Option Nat) (pc : Nat) (xs : List BPFFilter)
    {f : BPFFilter} (hf : f.isLabel = false) (ys : List BPFFilter) :
    (transformFrom ρ pc (xs ++ f :: ys))[size xs]? = some (f.resolve ρ (pc + size xs)) := by
  rw [transformFrom_append, List.getElem?_append_right (Nat.le_of_eq (transformFrom_length ..)),
    transformFrom_length, Nat.sub_self, transformFrom_cons _ _ hf]
  rfl

/-- Every place of the transformed list is that of a filter. -/
theorem transformFrom_getElem {ρ : String → Option Nat} {pc k : Nat} {fs : List BPFFilter}
    {f' : BPFFilter} (h : (transformFrom ρ pc fs)[k]? = some f') : ∃ xs f ys,
      fs = xs ++ f :: ys ∧ f.isLabel = false ∧ size xs = k ∧ f' = f.resolve ρ (pc + k) := by
  induction fs generalizing pc k with
  | nil => simp [transformFrom] at h
  | cons g fs ih =>
    unfold transformFrom at h
    split at h
    · rename_i hg
      obtain ⟨xs, f, ys, rfl, hf, rfl, rfl⟩ := ih h
      refine ⟨g :: xs, f, ys, rfl, hf, ?_, rfl⟩
      cases g <;> first | exact size_label _ xs | cases hg
    · rename_i hg
      have hg : g.isLabel = false := by simpa using hg
      cases k with
      | zero =>
        obtain rfl := Option.some.inj h
        exact ⟨[], g, fs, rfl, hg, rfl, rfl⟩
      | succ k =>
        obtain ⟨xs, f, ys, rfl, hf, rfl, rfl⟩ := ih (by simpa using h)
        refine ⟨g :: xs, f, ys, rfl, hf, ?_, by rw [Nat.add_right_comm, Nat.add_assoc]⟩
        exact size_cons hg xs

/-- The labels a filter names. -/
def BPFFilter.targets : BPFFilter → List String
  | .jump _ k jt jf =>
    (match k with
      | .label l => [l]
      | _ => []) ++ [jt, jf].filterMap fun
        | .label l => some l
        | .num _ => none
  | _ => []

theorem Target.resolve_shift {ρ ρ' : String → Option Nat} {base : Nat} (pc : Nat) (t : Target)
    (ht : ∀ l, t = .label l → ρ l = (ρ' l).map (base + ·)) :
    t.resolve ρ (base + pc) = t.resolve ρ' pc := by
  cases t with
  | num n => rfl
  | label l =>
    simp only [Target.resolve, ht l rfl]
    cases ρ' l with
    | none => rfl
    | some p =>
      simp only [Option.map_some, Target.num.injEq]
      omega

theorem KField.resolve_shift {ρ ρ' : String → Option Nat} {base : Nat} (pc : Nat) (k : KField)
    (hk : ∀ l, k = .label l → ρ l = (ρ' l).map (base + ·)) :
    k.resolve ρ (base + pc) = k.resolve ρ' pc := by
  cases k with
  | label l =>
    simp only [KField.resolve, hk l rfl]
    cases ρ' l with
    | none => rfl
    | some p =>
      simp only [Option.map_some, KField.int.injEq]
      omega
  | _ => rfl

theorem BPFFilter.resolve_shift {ρ ρ' : String → Option Nat} {base : Nat} (pc : Nat)
    (f : BPFFilter) (hf : ∀ l ∈ f.targets, ρ l = (ρ' l).map (base + ·)) :
    f.resolve ρ (base + pc) = f.resolve ρ' pc := by
  cases f with
  | label l => rfl
  | stmt op k => rfl
  | jump op k jt jf =>
    have hk := @KField.resolve_shift ρ ρ' base pc k fun l hl => hf l (by simp [BPFFilter.targets, hl])
    have hjt := @Target.resolve_shift ρ ρ' base pc jt fun l hl => hf l (by simp [BPFFilter.targets, hl])
    have hjf := @Target.resolve_shift ρ ρ' base pc jf fun l hl => hf l (by
      simp only [BPFFilter.targets, hl, List.mem_append]
      exact .inr (by cases jt <;> simp))
    simp only [BPFFilter.resolve, hk, hjt, hjf]

/-- **Code moved as a whole keeps its offsets**, when all the labels it names move with it. -/
theorem transformFrom_shift {ρ ρ' : String → Option Nat} (base pc : Nat) (fs : List BPFFilter)
    (h : ∀ f ∈ fs, ∀ l ∈ f.targets, ρ l = (ρ' l).map (base + ·)) :
    transformFrom ρ (base + pc) fs = transformFrom ρ' pc fs := by
  induction fs generalizing pc with
  | nil => rfl
  | cons f fs ih =>
    have ih := fun pc => ih pc fun g hg => h g (List.mem_cons_of_mem f hg)
    simp only [transformFrom, Nat.add_assoc base pc 1, ih,
      f.resolve_shift pc (h f List.mem_cons_self)]

/-- A piece of the list that names its own labels is transformed as by itself. -/
theorem transform_segment {front body back : List BPFFilter}
    (h : ∀ f ∈ body, ∀ l ∈ f.targets, label2pc l (front ++ (body ++ back)) =
      (label2pc l body).map (size front + ·)) : ∃ pre post,
    bpfTransformLabels (front ++ (body ++ back)) = pre ++ bpfTransformLabels body ++ post ∧
      pre.length = size front := by
  have hshift := transformFrom_shift (size front) 0 body h
  refine ⟨transformFrom (fun l => label2pc l (front ++ (body ++ back))) 0 front,
    transformFrom (fun l => label2pc l (front ++ (body ++ back))) (size front + size body) back,
    ?_, transformFrom_length _ 0 front⟩
  unfold bpfTransformLabels
  rw [transformFrom_append, transformFrom_append, Nat.zero_add, List.append_assoc, ← hshift,
    Nat.add_zero]

/-! ## Code that stays inside itself -/

/-- No filter names a label in front of it. -/
def ForwardFilters (fs : List BPFFilter) : Prop :=
  fs.Pairwise fun f g => ∀ l, f = .label l → l ∉ g.targets

theorem ForwardFilters.split {xs : List BPFFilter} {f : BPFFilter} {ys : List BPFFilter}
    (h : ForwardFilters (xs ++ f :: ys)) : ∀ l ∈ f.targets, l ∉ filterLabels xs := by
  intro l hl hm
  exact (List.pairwise_append.mp h).2.2 _ (mem_filterLabels.mp hm) f List.mem_cons_self l rfl hl

/-- The filter jumps by its two labels or not at all. -/
inductive BPFFilter.Jumps : BPFFilter → Prop
  | label (l : String) : Jumps (.label l)
  | stmt {op : List BPFConst} (k : KField) : opcodeVal op &&& 0x07 ≠ 0x05 → Jumps (.stmt op k)
  | jump {op : List BPFConst} (k : KField) (jt jf : String) : .JA ∉ op → opcodeVal op ≠ 0x05 →
    Jumps (.jump op k (.label jt) (.label jf))

/-- A label that is not in front of a filter resolves to an offset that stays in the list, if at
all. -/
theorem resolve_forward {xs ys : List BPFFilter} {f : BPFFilter} (hf : f.isLabel = false)
    {l : String} (hl : l ∉ filterLabels xs) {n : Int}
    (hn : ((Target.label l).resolve (fun l => label2pc l (xs ++ f :: ys)) (size xs)).offset =
      some n) : 0 ≤ n ∧ (size xs : Int) + 1 + n ≤ size (xs ++ f :: ys) := by
  have hxs : label2pc l xs = none := label2pc_eq_none.mpr hl
  simp only [Target.resolve, label2pc_append, label2pc_cons hf, hxs] at hn
  cases hp : label2pc l ys with
  | none => simp [hp, Target.offset] at hn
  | some p =>
    have hle := label2pc_le hp
    simp only [hp, Option.map_some, Target.offset, Option.some.injEq] at hn
    rw [size_append, size_cons hf]
    omega

/-- **Forward code is a closed segment** once its labels are resolved. -/
theorem closed_of_forward {fs : List BPFFilter} (hfwd : ForwardFilters fs)
    (hj : ∀ f ∈ fs, f.Jumps) : Closed (program (bpfTransformLabels fs)) := by
  intro k i hi d s n he
  unfold program at hi ⊢
  rw [List.length_map, bpfTransformLabels, transformFrom_length]
  rw [List.getElem?_map] at hi
  obtain ⟨f', hf', rfl⟩ := Option.map_eq_some_iff.mp hi
  obtain ⟨xs, f, ys, rfl, hf, rfl, rfl⟩ := transformFrom_getElem hf'
  rw [Nat.zero_add] at he
  have hcode := exec_skip he
  cases hj f (by simp) with
  | label l => cases hf
  | stmt k h => exact absurd hcode.1 h
  | jump k jt jf hja hop =>
    simp only [BPFFilter.resolve, if_neg hja, BPFFilter.insn] at hcode
    have hlabels := hfwd.split
    rcases hcode.2 with h | h | h
    · exact absurd h hop
    · exact resolve_forward hf (hlabels jt (by simp [BPFFilter.targets])) h.symm
    · exact resolve_forward hf (hlabels jf (by simp [BPFFilter.targets])) h.symm

end SeccompPolicy
