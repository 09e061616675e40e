import SeccompPolicy.Lib.SmallStep
import Mathlib.Logic.Function.Basic
import Mathlib.Tactic.SplitIfs

/-!
# The classic BPF machine, on seccomp data

Accumulator `A`, index register `X`, sixteen scratch words, and read-only input: the
`struct seccomp_data` of a system call. An instruction's number is decoded as `linux/filter.h` and
the interpreter of the kernel do; an opcode that is none is an invalid effect. A run returns a
word or is invalid.

Jump offsets are integers, relative to the next instruction, and none stands for a target that was
never resolved. So a program as it is meant and a program as `struct sock_filter` stores it are of
one type: `Insn.stored` cuts the two fields of a conditional jump to their low bytes, and a
program is a stored one where this changes nothing (`stored_eq`).

The checks the kernel makes before it loads a program (all jumps inside, scratch words written
before they are read, the last instruction a return) are not part of the machine; a run that
breaks them is invalid.

## Rules

* `exec_load`, `exec_jeq`, `exec_jgt`, `exec_jge`, `exec_and`, `load_argument`: the instructions
  by their opcodes.
* `step_stored`, `step_stored_far`, `step_stored_ret`: what storing does to a step. A step forward
  by up to 256 places is one of the stored program; a longer jump is cut.
* `leave_step`, `leave_halts`, `leave_reaches`: code in the middle of a program, none of whose
  jumps go back, runs as it does by itself up to where control leaves it, at its end or further
  behind (`leaveStep`).
* `segment_halts`, `segment_falls`: code whose jumps stay inside it or go right behind it
  (`Closed`) is left right behind it, so the program runs as the segment does alone, and then from
  there.
-/

namespace ClassicBpf

open SmallStep

abbrev Word := BitVec 32

/-- `struct sock_filter`, with the offsets as integers. -/
structure Insn where
  code : Nat
  k : Word := 0
  jt : Option Int := some 0
  jf : Option Int := some 0
  deriving DecidableEq, Repr

/-- `struct seccomp_data`. -/
structure SeccompData where
  nr : Word
  arch : Word
  ip : BitVec 64
  args : Fin 6 → BitVec 64

/-- Literals are indices of `args`. -/
@[instance] theorem six_neZero : @NeZero Nat Zero.ofOfNat0 6 := ⟨by decide⟩

/-- The 32-bit word at a byte offset, little-endian. -/
def SeccompData.load (d : SeccompData) (off : Nat) : Option Word :=
  if off = 0 then some d.nr
  else if off = 4 then some d.arch
  else if off = 8 then some (d.ip.setWidth 32)
  else if off = 12 then some ((d.ip >>> 32).setWidth 32)
  else if h : off % 4 = 0 ∧ 16 ≤ off ∧ off < 64 then
    let w := d.args ⟨(off - 16) / 8, by omega⟩
    some (if (off - 16) % 8 = 0 then w.setWidth 32 else (w >>> 32).setWidth 32)
  else none

/-- The register of an argument; the indices from `6` on have none. -/
def SeccompData.arg (d : SeccompData) (k : Nat) : BitVec 64 := if h : k < 6 then d.args ⟨k, h⟩ else 0

/-- The registers and the scratch memory. -/
structure State where
  A : Word := 0
  X : Word := 0
  M : Nat → Word := fun _ => 0

/-- What an instruction does: go on, jump by an offset, return, or nothing valid. -/
inductive Effect where
  | next (s : State)
  | skip (off : Option Int)
  | ret (v : Word)
  | invalid

/-- `BPF_ALU`: the operation in bits 4 to 7. A division by `0` returns `0` from the program. -/
def alu (op : Nat) (a b : Word) : Effect ⊕ Word :=
  match op with
  | 0x00 => .inr (a + b)
  | 0x10 => .inr (a - b)
  | 0x20 => .inr (a * b)
  | 0x30 => if b = 0 then .inl (.ret 0) else .inr (a / b)
  | 0x40 => .inr (a ||| b)
  | 0x50 => .inr (a &&& b)
  | 0x60 => .inr (a <<< (b &&& 31))
  | 0x70 => .inr (a >>> (b &&& 31))
  | 0x80 => .inr (-a)
  | 0x90 => if b = 0 then .inl (.ret 0) else .inr (a % b)
  | 0xa0 => .inr (a ^^^ b)
  | _ => .inl .invalid

/-- `BPF_JMP`: the condition in bits 4 to 7. -/
def jump (op : Nat) (a b : Word) : Option Bool :=
  match op with
  | 0x10 => some (decide (a = b))
  | 0x20 => some (BitVec.ult b a)
  | 0x30 => some (BitVec.ule b a)
  | 0x40 => some (decide (a &&& b ≠ 0))
  | _ => none

/-- The effect of one instruction. -/
def exec (d : SeccompData) (i : Insn) (s : State) : Effect :=
  match i.code with
  | 0x00 => .next { s with A := i.k }
  | 0x01 => .next { s with X := i.k }
  | 0x02 => if i.k.toNat < 16 then .next { s with M := Function.update s.M i.k.toNat s.A } else .invalid
  | 0x03 => if i.k.toNat < 16 then .next { s with M := Function.update s.M i.k.toNat s.X } else .invalid
  | 0x05 => .skip (some i.k.toNat)
  | 0x06 => .ret i.k
  | 0x07 => .next { s with X := s.A }
  | 0x16 => .ret s.A
  | 0x20 =>
    match d.load i.k.toNat with
    | some w => .next { s with A := w }
    | none => .invalid
  | 0x60 => if i.k.toNat < 16 then .next { s with A := s.M i.k.toNat } else .invalid
  | 0x61 => if i.k.toNat < 16 then .next { s with X := s.M i.k.toNat } else .invalid
  | 0x87 => .next { s with A := s.X }
  | code =>
    let b := if code &&& 0x08 = 0x08 then s.X else i.k
    if code &&& 0x07 = 0x04 then
      match alu (code - (code &&& 0x0f)) s.A b with
      | .inl e => e
      | .inr w => .next { s with A := w }
    else if code &&& 0x07 = 0x05 then
      match jump (code - (code &&& 0x0f)) s.A b with
      | some c => .skip (if c then i.jt else i.jf)
      | none => .invalid
    else .invalid

/-- A program counter and a state. -/
abbrev Config := Nat × State

/-- The place an offset leads to. -/
def goto (pc : Nat) (off : Option Int) : Option Nat :=
  off.bind fun n => if 0 ≤ (pc : Int) + 1 + n then some ((pc : Int) + 1 + n).toNat else none

/-- One step of a program: on to a configuration, or a returned word, or none when invalid. -/
def step (prog : List Insn) (d : SeccompData) (c : Config) : Config ⊕ Option Word :=
  match prog[c.1]? with
  | none => .inr none
  | some i =>
    match exec d i c.2 with
    | .next s => .inl (c.1 + 1, s)
    | .skip off =>
      match goto c.1 off with
      | some pc => .inl (pc, c.2)
      | none => .inr none
    | .ret v => .inr (some v)
    | .invalid => .inr none

variable {prog : List Insn} {d : SeccompData} {pc : Nat} {i : Insn} {s : State}

theorem step_next {t : State} (hi : prog[pc]? = some i) (he : exec d i s = .next t) :
    step prog d (pc, s) = .inl (pc + 1, t) := by
  unfold step
  rw [hi]
  simp only [he]

theorem step_skip {n : Nat} (hi : prog[pc]? = some i) (he : exec d i s = .skip (some (n : Int))) :
    step prog d (pc, s) = .inl (pc + 1 + n, s) := by
  have hg : goto pc (some (n : Int)) = some (pc + 1 + n) := by
    unfold goto
    rw [Option.bind_some, if_pos (by omega)]
    congr 1
  unfold step
  rw [hi]
  simp only [he, hg]

theorem step_ret {v : Word} (hi : prog[pc]? = some i) (he : exec d i s = .ret v) :
    step prog d (pc, s) = .inr (some v) := by
  unfold step
  rw [hi]
  simp only [he]

/-- An operation that does not go on is a division by `0`, or none. -/
theorem alu_inl {op : Nat} {a b : Word} {e : Effect} (h : alu op a b = .inl e) :
    e = .ret 0 ∨ e = .invalid := by
  unfold alu at h
  split at h
  case h_4 | h_10 =>
    split at h
    · exact .inl (Sum.inl.inj h).symm
    · cases h
  case h_12 => exact .inr (Sum.inl.inj h).symm
  all_goals cases h

/-- A word comes from a return, or is the `0` of a division by zero. -/
theorem exec_ret {v : Word} (he : exec d i s = .ret v) : i.code &&& 0x07 = 0x06 ∨ v = 0 := by
  unfold exec at he
  split at he
  case h_6 hc => left; rw [hc]; decide
  case h_8 hc => left; rw [hc]; decide
  case h_13 =>
    dsimp only at he
    generalize (if i.code &&& 0x08 = 0x08 then s.X else i.k) = b at he
    split at he
    · split at he
      · rename_i e h
        subst he
        rcases alu_inl h with h | h
        · exact .inr (Effect.ret.inj h)
        · cases h
      · cases he
    · split at he
      · split at he <;> cases he
      · cases he
  all_goals first
    | cases he
    | split at he <;> cases he

/-- Only jumps skip, an unconditional one by `k` and the others by `jt` or `jf`. -/
theorem exec_skip {off : Option Int} (he : exec d i s = .skip off) :
    i.code &&& 0x07 = 0x05 ∧ (i.code = 0x05 ∨ off = i.jt ∨ off = i.jf) := by
  unfold exec at he
  split at he
  case h_5 hc => exact ⟨by rw [hc]; decide, .inl hc⟩
  case h_13 =>
    dsimp only at he
    generalize (if i.code &&& 0x08 = 0x08 then s.X else i.k) = b at he
    split at he
    · split at he
      · rename_i e h
        subst he
        rcases alu_inl h with h | h <;> cases h
      · cases he
    · split at he
      · rename_i hc
        refine ⟨hc, .inr ?_⟩
        split at he
        · rename_i c _
          obtain rfl := Effect.skip.inj he
          cases c
          · exact .inr rfl
          · exact .inl rfl
        · cases he
      · cases he
  all_goals first
    | cases he
    | split at he <;> cases he

/-- `BPF_LD | BPF_W | BPF_ABS`. -/
theorem exec_load {d : SeccompData} {k w : Word} (h : d.load k.toNat = some w) (jt jf : Option Int)
    (s : State) : exec d ⟨0x20, k, jt, jf⟩ s = .next { s with A := w } := by
  unfold exec
  simp only
  rw [h]

/-- `BPF_JMP | BPF_JEQ | BPF_K`. -/
theorem exec_jeq (d : SeccompData) (k : Word) (jt jf : Option Int) (s : State) :
    exec d ⟨0x15, k, jt, jf⟩ s = .skip (if s.A = k then jt else jf) := by
  simp [exec, jump]

/-- `BPF_JMP | BPF_JGT | BPF_K`. -/
theorem exec_jgt (d : SeccompData) (k : Word) (jt jf : Option Int) (s : State) :
    exec d ⟨0x25, k, jt, jf⟩ s = .skip (if k < s.A then jt else jf) := by
  simp [exec, jump, BitVec.lt_def, BitVec.ult]

/-- `BPF_JMP | BPF_JGE | BPF_K`. -/
theorem exec_jge (d : SeccompData) (k : Word) (jt jf : Option Int) (s : State) :
    exec d ⟨0x35, k, jt, jf⟩ s = .skip (if k ≤ s.A then jt else jf) := by
  simp [exec, jump, BitVec.le_def, BitVec.ule]

/-- `BPF_ALU | BPF_AND | BPF_K`. -/
theorem exec_and (d : SeccompData) (k : Word) (jt jf : Option Int) (s : State) :
    exec d ⟨0x54, k, jt, jf⟩ s = .next { s with A := s.A &&& k } := by
  simp [exec, alu]

/-- The low word of an argument. -/
theorem load_argument (d : SeccompData) {k : Nat} (hk : k < 6) :
    d.load (BitVec.ofNat 32 (16 + 8 * k)).toNat = some ((d.arg k).setWidth 32) := by
  have hoff : (BitVec.ofNat 32 (16 + 8 * k)).toNat = 16 + 8 * k := by
    rw [BitVec.toNat_ofNat]
    omega
  have hidx : (16 + 8 * k - 16) / 8 = k := by omega
  have halign : (16 + 8 * k - 16) % 8 = 0 := by omega
  rw [hoff]
  unfold SeccompData.load SeccompData.arg
  rw [if_neg (by omega), if_neg (by omega), if_neg (by omega), if_neg (by omega),
    dif_pos (by omega), dif_pos hk]
  simp only [hidx, halign, if_true]

/-! ## Jump fields in bytes -/

/-- The instruction as `struct sock_filter` stores it: `jt` and `jf` are unsigned bytes. -/
def Insn.stored (i : Insn) : Insn := { i with jt := i.jt.map (· % 256), jf := i.jf.map (· % 256) }

/-- Fields that hold bytes are stored as they are. -/
theorem stored_eq (hjt : ∀ n, i.jt = some n → 0 ≤ n ∧ n ≤ 255)
    (hjf : ∀ n, i.jf = some n → 0 ≤ n ∧ n ≤ 255) : i.stored = i := by
  have hfield : ∀ f : Option Int, (∀ n, f = some n → 0 ≤ n ∧ n ≤ 255) → f.map (· % 256) = f := by
    intro f hf
    cases f with
    | none => rfl
    | some n =>
      obtain ⟨h0, h1⟩ := hf n rfl
      exact congrArg some (Int.emod_eq_of_lt h0 (by omega))
  unfold Insn.stored
  rw [hfield _ hjt, hfield _ hjf]

/-- Where an offset leads to, as an integer. -/
theorem goto_eq_some {off : Option Int} {pc' : Nat} (h : goto pc off = some pc') :
    ∃ n : Int, off = some n ∧ (pc' : Int) = pc + 1 + n := by
  cases off with
  | none => cases h
  | some n =>
    unfold goto at h
    rw [Option.bind_some] at h
    split at h
    · rename_i hn
      obtain rfl := Option.some.inj h
      exact ⟨n, rfl, Int.toNat_of_nonneg hn⟩
    · cases h

/-- A forward offset. -/
theorem goto_offset (pc n : Nat) : goto pc (some (n : Int)) = some (pc + 1 + n) := by
  unfold goto
  rw [Option.bind_some, if_pos (by omega)]
  congr 1

/-- No jump of the code goes back. -/
def Forward (body : List Insn) : Prop :=
  ∀ i ∈ body, ∀ d s n, exec d i s = .skip (some n) → 0 ≤ n

/-- The run of code by itself, up to where control leaves it at its end or behind. -/
def leaveStep (body : List Insn) (d : SeccompData) (c : Config) :
    Config ⊕ (Option Word ⊕ Config) :=
  if body.length ≤ c.1 then .inr (.inr c)
  else
    match step body d c with
    | .inl c' => .inl c'
    | .inr o => .inr (.inl o)

section Leave

variable {pre body post : List Insn}

theorem leaveStep_out {c : Config} (h : body.length ≤ c.1) :
    leaveStep body d c = .inr (.inr c) := if_pos h

/-- **Inside the code the program steps as the code does.** -/
theorem leave_step (hf : Forward body) {k : Nat} (hk : k < body.length) (s : State) :
    (∃ k' s', leaveStep body d (k, s) = .inl (k', s') ∧
      step (pre ++ body ++ post) d (pre.length + k, s) = .inl (pre.length + k', s')) ∨
    ∃ o, leaveStep body d (k, s) = .inr (.inl o) ∧
      step (pre ++ body ++ post) d (pre.length + k, s) = .inr o := by
  have hget : (pre ++ body ++ post)[pre.length + k]? = body[k]? := by
    rw [List.append_assoc, List.getElem?_append_right (Nat.le_add_right _ _),
      Nat.add_sub_cancel_left, List.getElem?_append_left hk]
  obtain ⟨i, hi⟩ : ∃ i, body[k]? = some i := ⟨_, List.getElem?_eq_getElem hk⟩
  have hin : leaveStep body d (k, s) = match step body d (k, s) with
      | .inl c' => .inl c'
      | .inr o => .inr (.inl o) := if_neg (by simpa using hk)
  rw [hin]
  unfold step
  rw [hget, hi]
  simp only
  cases he : exec d i s with
  | next t => exact .inl ⟨k + 1, t, rfl, rfl⟩
  | ret v => exact .inr ⟨some v, rfl, rfl⟩
  | invalid => exact .inr ⟨none, rfl, rfl⟩
  | skip off =>
    cases off with
    | none => exact .inr ⟨none, rfl, rfl⟩
    | some n =>
      obtain ⟨m, rfl⟩ := Int.eq_ofNat_of_zero_le (hf i (List.mem_of_getElem? hi) d s n he)
      refine .inl ⟨k + 1 + m, s, ?_, ?_⟩
      · simp only [goto_offset]
      · simp only [goto_offset, Sum.inl.injEq, Prod.mk.injEq, and_true]
        omega

/-- **The program run from a place of the code** is the code run by itself, and from where control
leaves it, the program. -/
theorem leave_halts (hf : Forward body) {k : Nat} {s : State} {o : Option Word} :
    Halts (step (pre ++ body ++ post) d) (pre.length + k, s) o ↔
      ∃ r, Halts (leaveStep body d) (k, s) r ∧
        (r = .inl o ∨ ∃ c : Config, r = .inr c ∧
          Halts (step (pre ++ body ++ post) d) (pre.length + c.1, c.2) o) := by
  constructor
  · intro h
    generalize hcfg : (pre.length + k, s) = a at h
    induction h using Halts.induct generalizing k s with
    | stop a hs =>
      subst hcfg
      by_cases hk : body.length ≤ k
      · exact ⟨_, (halts_of_inr (leaveStep_out hk)).mpr rfl, .inr ⟨(k, s), rfl,
          (halts_of_inr hs).mpr rfl⟩⟩
      · rcases @leave_step d pre _ post hf _ (Nat.lt_of_not_le hk) s with
          ⟨k', s', -, h2⟩ | ⟨o', h1, h2⟩
        · rw [hs] at h2
          cases h2
        · obtain rfl := Sum.inr.inj (hs.symm.trans h2)
          exact ⟨_, (halts_of_inr h1).mpr rfl, .inl rfl⟩
    | move a a' hs hrest ih =>
      subst hcfg
      by_cases hk : body.length ≤ k
      · exact ⟨_, (halts_of_inr (leaveStep_out hk)).mpr rfl, .inr ⟨(k, s), rfl,
          (halts_of_inl hs).mpr hrest⟩⟩
      · rcases @leave_step d pre _ post hf _ (Nat.lt_of_not_le hk) s with
          ⟨k', s', h1, h2⟩ | ⟨o', h1, h2⟩
        · rw [hs] at h2
          obtain ⟨r, hr, hcase⟩ := ih (Sum.inl.inj h2).symm
          exact ⟨r, (halts_of_inl h1).mpr hr, hcase⟩
        · rw [hs] at h2
          cases h2
  · rintro ⟨r, hr, hcase⟩
    generalize hcfg : (k, s) = a at hr
    induction hr using Halts.induct generalizing k s with
    | stop a hs =>
      subst hcfg
      by_cases hk : body.length ≤ k
      · rw [leaveStep_out hk] at hs
        obtain rfl := Sum.inr.inj hs
        rcases hcase with hcase | ⟨c, hc, h⟩
        · cases hcase
        · obtain rfl := Sum.inr.inj hc
          exact h
      · rcases @leave_step d pre _ post hf _ (Nat.lt_of_not_le hk) s with
          ⟨k', s', h1, -⟩ | ⟨o', h1, h2⟩
        · rw [hs] at h1
          cases h1
        · obtain rfl := Sum.inr.inj (hs.symm.trans h1)
          rcases hcase with hcase | ⟨c, hc, -⟩
          · exact (halts_of_inr h2).mpr (Sum.inl.inj hcase)
          · cases hc
    | move a a' hs _ ih =>
      subst hcfg
      by_cases hk : body.length ≤ k
      · rw [leaveStep_out hk] at hs
        cases hs
      · rcases @leave_step d pre _ post hf _ (Nat.lt_of_not_le hk) s with
          ⟨k', s', h1, h2⟩ | ⟨o', h1, -⟩
        · rw [hs] at h1
          exact (halts_of_inl h2).mpr (ih (Sum.inl.inj h1).symm)
        · rw [hs] at h1
          cases h1

/-- Code that control leaves by itself is passed by the program. -/
theorem leave_passes (hf : Forward body) {k : Nat} {s : State} {c : Config}
    (h : Halts (leaveStep body d) (k, s) (.inr c)) :
    body.length ≤ c.1 ∧
      Reaches (step (pre ++ body ++ post) d) (pre.length + k, s) (pre.length + c.1, c.2) := by
  generalize hcfg : (k, s) = a at h
  induction h using Halts.induct generalizing k s with
  | stop a hs =>
    subst hcfg
    by_cases hk : body.length ≤ k
    · rw [leaveStep_out hk] at hs
      obtain rfl := Sum.inr.inj (Sum.inr.inj hs)
      exact ⟨hk, .refl⟩
    · rcases @leave_step d pre _ post hf _ (Nat.lt_of_not_le hk) s with
        ⟨k', t, h1, -⟩ | ⟨o, h1, -⟩
      · rw [hs] at h1
        cases h1
      · rw [hs] at h1
        cases h1
  | move a a' hs _ ih =>
    subst hcfg
    by_cases hk : body.length ≤ k
    · rw [leaveStep_out hk] at hs
      cases hs
    · rcases @leave_step d pre _ post hf _ (Nat.lt_of_not_le hk) s with
        ⟨k', t, h1, h2⟩ | ⟨o, h1, -⟩
      · rw [hs] at h1
        obtain ⟨hle, hr⟩ := ih (Sum.inl.inj h1).symm
        exact ⟨hle, .head h2 hr⟩
      · rw [hs] at h1
        cases h1

end Leave

/-! ## Closed code -/

/-- Every jump of the code goes forward, to a place in it or right behind it. -/
def Closed (body : List Insn) : Prop :=
  ∀ (k : Nat) (i : Insn), body[k]? = some i → ∀ d s n, exec d i s = .skip (some n) →
    0 ≤ n ∧ (k : Int) + 1 + n ≤ body.length

/-- The run of code by itself: it stops as the program would, or falls off its end. -/
def segStep (body : List Insn) (d : SeccompData) (c : Config) : Config ⊕ (Option Word ⊕ State) :=
  if body.length ≤ c.1 then .inr (.inr c.2)
  else
    match step body d c with
    | .inl c' => .inl c'
    | .inr o => .inr (.inl o)

section Segment

variable {pre body post : List Insn}

/-- Closed code does not jump back. -/
theorem Closed.forward (hc : Closed body) : Forward body := by
  intro i hi d s n he
  obtain ⟨k, hk⟩ := List.mem_iff_getElem?.mp hi
  exact (hc k i hk d s n he).1

/-- Falling off is leaving, wherever. -/
theorem segStep_eq (body : List Insn) (d : SeccompData) :
    segStep body d = fun c => (leaveStep body d c).map id (Sum.map id Prod.snd) := by
  funext c
  unfold segStep leaveStep
  split
  · rfl
  · cases step body d c <;> rfl

/-- Control leaves closed code right behind it. -/
theorem Closed.leaves (hc : Closed body) {k : Nat} (hk : k ≤ body.length) {s : State} {c : Config}
    (h : Halts (leaveStep body d) (k, s) (.inr c)) : c.1 = body.length := by
  generalize hcfg : (k, s) = a at h
  induction h using Halts.induct generalizing k s with
  | stop a hs =>
    subst hcfg
    by_cases hk' : body.length ≤ k
    · rw [leaveStep_out hk'] at hs
      obtain rfl := Sum.inr.inj (Sum.inr.inj hs)
      exact Nat.le_antisymm hk hk'
    · rw [leaveStep, if_neg hk'] at hs
      cases hstep : step body d (k, s) <;> simp [hstep] at hs
  | move a a' hs _ ih =>
    subst hcfg
    by_cases hk' : body.length ≤ k
    · rw [leaveStep_out hk'] at hs
      cases hs
    · refine @ih a'.1 ?_ a'.2 rfl
      have hlt : k < body.length := Nat.lt_of_not_le hk'
      obtain ⟨i, hi⟩ : ∃ i, body[k]? = some i := ⟨_, List.getElem?_eq_getElem hlt⟩
      rw [leaveStep, if_neg hk', step, hi] at hs
      cases he : exec d i s with
      | next t =>
        simp only [he, Sum.inl.injEq] at hs
        subst hs
        exact hlt
      | ret v => simp [he] at hs
      | invalid => simp [he] at hs
      | skip off =>
        simp only [he] at hs
        cases hg : goto k off with
        | none => simp [hg] at hs
        | some pc =>
          simp only [hg, Sum.inl.injEq] at hs
          subst hs
          obtain ⟨n, rfl, hn⟩ := goto_eq_some hg
          have := (hc k i hi d s n he).2
          simp only
          omega

/-- Closed code falls off when control leaves it. -/
theorem Closed.falls_iff (hc : Closed body) {k : Nat} (hk : k ≤ body.length) {s s' : State} :
    Halts (segStep body d) (k, s) (.inr s') ↔
      Halts (leaveStep body d) (k, s) (.inr (body.length, s')) := by
  rw [segStep_eq, halts_map]
  constructor
  · rintro ⟨r | c, hr, he⟩
    · cases he
    · obtain rfl := Sum.inr.inj he
      have hplace := hc.leaves hk hr
      rwa [← hplace]
  · exact fun h => ⟨_, h, rfl⟩

/-- **Segment rule**: the program run from a place in the segment is the segment run by itself,
and from where that falls off, the program run from right behind the segment. -/
theorem segment_halts (hc : Closed body) {k : Nat} (hk : k ≤ body.length) {s : State}
    {o : Option Word} : Halts (step (pre ++ body ++ post) d) (pre.length + k, s) o ↔
      ∃ r, Halts (segStep body d) (k, s) r ∧
        (r = .inl o ∨ ∃ s', r = .inr s' ∧
          Halts (step (pre ++ body ++ post) d) (pre.length + body.length, s') o) := by
  rw [leave_halts hc.forward]
  constructor
  · rintro ⟨r, hr, rfl | ⟨c, rfl, h⟩⟩
    · exact ⟨.inl o, segStep_eq body d ▸ halts_map.mpr ⟨_, hr, rfl⟩, .inl rfl⟩
    · have hplace := hc.leaves hk hr
      refine ⟨.inr c.2, (hc.falls_iff hk).mpr (hplace ▸ hr), .inr ⟨c.2, rfl, ?_⟩⟩
      rwa [← hplace]
  · rintro ⟨r, hr, rfl | ⟨s', rfl, h⟩⟩
    · rw [segStep_eq, halts_map] at hr
      obtain ⟨r | c, hr, he⟩ := hr
      · obtain rfl := Sum.inl.inj he
        exact ⟨_, hr, .inl rfl⟩
      · cases he
    · exact ⟨_, (hc.falls_iff hk).mp hr, .inr ⟨_, rfl, h⟩⟩

/-- A segment that falls off by itself is run through by the program. -/
theorem segment_falls (hc : Closed body) {k : Nat} (hk : k ≤ body.length) {s s' : State}
    (h : Halts (segStep body d) (k, s) (.inr s')) :
    Reaches (step (pre ++ body ++ post) d) (pre.length + k, s) (pre.length + body.length, s') :=
  (leave_passes hc.forward ((hc.falls_iff hk).mp h)).2

end Segment

end ClassicBpf
