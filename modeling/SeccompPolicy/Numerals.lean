import Mathlib.Data.List.TakeWhile
import SeccompPolicy.Conditions

/-!
# Integer literals

Source: the rules `{UINTNUM}` and `{HEX_UINTNUM}` of `lexer.l++`, the action of `TOK_UINT` in
`parser.y++`, and `Value` of `value.h`.

A numeral of the lexer goes through `strtoul`, the `unsigned int` of the parser and a cast to
`int` before it is an `Immediate`. The filter has it as a word of 32 bits, the monitor as a
constant of C, negative from `2 ^ 31` on. Nothing on the way reports an error: `errno` of
`strtoul` is not looked at.

`KeepsValue` compares the constants the compiler makes of a numeral with its value: the `k` fields
it is put in, and the constant of a lifted condition, as it is compared with every
`unsigned long`.

## Results

* `Numeral.strtoul_eq`: `strtoul` reads the whole numeral, of any length.
* `Numeral.node_eq`: the `int` of a value up to `ULONG_MAX`.
* `Numeral.keepsValue_iff`: a numeral keeps its value, in both, exactly below `2 ^ 31`.
* `Numeral.not_keepsValue`: `0x80000000` is compared as `-2147483648`.
-/

namespace SeccompPolicy

open CInt

/-! ## The lexer's rules -/

/-- `{DECIMAL_DIGIT}`. -/
def isDecimalDigit (c : Char) : Bool := decide ('0' ≤ c) && decide (c ≤ '9')

/-- `{HEX_DIGIT}`. -/
def isHexDigit (c : Char) : Bool :=
  isDecimalDigit c || decide ('a' ≤ c) && decide (c ≤ 'f') || decide ('A' ≤ c) && decide (c ≤ 'F')

/-- `{UINTNUM}`. -/
def isUintNum (text : List Char) : Bool := !text.isEmpty && text.all isDecimalDigit

/-- `{HEX_UINTNUM}`. -/
def isHexUintNum : List Char → Bool
  | '0' :: 'x' :: digits => !digits.isEmpty && digits.all isHexDigit
  | _ => false

/-- The value of a digit; `36` for another character, which is no digit of any base. -/
def digitVal (c : Char) : Nat :=
  if isDecimalDigit c then c.toNat - '0'.toNat
  else if 'a' ≤ c ∧ c ≤ 'z' then c.toNat - 'a'.toNat + 10
  else if 'A' ≤ c ∧ c ≤ 'Z' then c.toNat - 'A'.toNat + 10
  else 36

/-- The value of digits, highest first. -/
def digitsVal (base : Nat) (digits : List Char) : Nat :=
  digits.foldl (fun n c => base * n + digitVal c) 0

/-- A numeral of any length. -/
structure Numeral where
  text : List Char
  accepted : isUintNum text = true ∨ isHexUintNum text = true

/-- The value of a numeral. -/
def Numeral.value (n : Numeral) : Nat :=
  if isHexUintNum n.text then digitsVal 16 (n.text.drop 2) else digitsVal 10 n.text

/-! ## From the text to the constant -/

/-- `ULONG_MAX`. -/
def ULONG_MAX : Nat := 2 ^ 64 - 1

/-- `strtoul` on a text that starts with neither a blank nor a sign: the digits of the base in front,
after the `0x` of base `16`, or `ULONG_MAX` when their value is larger. -/
def strtoul (text : List Char) (base : Nat) : Nat :=
  let digits := if base = 16 ∧ text.take 2 = ['0', 'x'] then text.drop 2 else text
  min (digitsVal base (digits.takeWhile fun c => decide (digitVal c < base))) ULONG_MAX

/-- `yylval.uVal` of the two rules. -/
def Numeral.uVal (n : Numeral) : Int :=
  IntType.unsignedInt.wrap (strtoul n.text (if isHexUintNum n.text then 16 else 10))

/-- `new ValueNode(new Value((int)$1))`. -/
def Numeral.node (n : Numeral) : Expr := .value (IntType.int.wrap n.uVal)

theorem digitVal_decimal {c : Char} (h : isDecimalDigit c = true) : digitVal c < 10 := by
  have hle : c.toNat ≤ 57 := by
    simp only [isDecimalDigit, Bool.and_eq_true, decide_eq_true_eq] at h
    exact h.2
  unfold digitVal
  rw [if_pos h, show '0'.toNat = 48 from rfl]
  omega

theorem digitVal_hex {c : Char} (h : isHexDigit c = true) : digitVal c < 16 := by
  by_cases hdec : isDecimalDigit c = true
  · exact Nat.lt_trans (digitVal_decimal hdec) (by decide)
  · have hcase : ('a' ≤ c ∧ c ≤ 'f') ∨ 'A' ≤ c ∧ c ≤ 'F' := by
      simp only [isHexDigit, hdec, Bool.false_or, Bool.or_eq_true, Bool.and_eq_true,
        decide_eq_true_eq] at h
      exact h
    unfold digitVal
    rw [if_neg hdec]
    rcases hcase with ⟨hlo, hhi⟩ | ⟨hlo, hhi⟩
    · have h1 : 97 ≤ c.toNat := hlo
      have h2 : c.toNat ≤ 102 := hhi
      rw [if_pos ⟨hlo, show c.toNat ≤ 122 by omega⟩, show 'a'.toNat = 97 from rfl]
      omega
    · have h1 : 65 ≤ c.toNat := hlo
      have h2 : c.toNat ≤ 70 := hhi
      have hno : ¬ ('a' ≤ c ∧ c ≤ 'z') := fun h => by
        have h3 : 97 ≤ c.toNat := h.1
        omega
      rw [if_neg hno, if_pos ⟨hlo, show c.toNat ≤ 90 by omega⟩, show 'A'.toNat = 65 from rfl]
      omega

theorem isHexUintNum_elim {text : List Char} (h : isHexUintNum text = true) :
    ∃ digits, text = '0' :: 'x' :: digits ∧ ∀ c ∈ digits, isHexDigit c = true := by
  unfold isHexUintNum at h
  split at h
  · rename_i digits
    exact ⟨digits, rfl, List.all_eq_true.mp (Bool.and_eq_true_iff.mp h).2⟩
  · exact absurd h Bool.false_ne_true

/-- `strtoul` reads the whole numeral. -/
theorem Numeral.strtoul_eq (n : Numeral) :
    strtoul n.text (if isHexUintNum n.text then 16 else 10) = min n.value ULONG_MAX := by
  unfold strtoul Numeral.value
  by_cases hhex : isHexUintNum n.text = true
  · obtain ⟨digits, htext, hdigits⟩ := isHexUintNum_elim hhex
    simp only [if_pos hhex]
    rw [if_pos ⟨trivial, by rw [htext]; rfl⟩, htext, List.drop_succ_cons, List.drop_succ_cons,
      List.drop_zero, List.takeWhile_eq_self_iff.mpr]
    exact fun c hc => decide_eq_true (digitVal_hex (hdigits c hc))
  · have hdec := (n.accepted.resolve_right hhex)
    have hdigits := List.all_eq_true.mp (Bool.and_eq_true_iff.mp hdec).2
    simp only [if_neg hhex]
    rw [if_neg (fun h => absurd h.1 (by decide)), List.takeWhile_eq_self_iff.mpr]
    exact fun c hc => decide_eq_true (digitVal_decimal (hdigits c hc))

/-- The `int` of a value up to `ULONG_MAX`. -/
theorem Numeral.node_eq (n : Numeral) :
    n.node = .value (IntType.int.wrap (min n.value ULONG_MAX : Nat)) := by
  unfold Numeral.node Numeral.uVal
  rw [n.strtoul_eq, IntType.wrap_unsignedInt, IntType.wrap_int, IntType.wrap_int,
    Int.emod_emod_of_dvd _ (dvd_refl _)]

/-! ## The constants -/

/-- The constants the compiler makes of a numeral: the `k` fields it is put in, by `GenK_Field` and
by a load, and the constant of the lifted condition, against an argument of type `unsigned long`. -/
structure Numeral.KeepsValue (n : Numeral) : Prop where
  genKField : ∀ args m, (genKField args (n.node.irGen m).val).val.toNat = n.value
  loaded : ∀ args m op k, .stmt op k ∈ loadArgumentOrInt args (n.node.irGen m).val →
    k.val.toNat = n.value
  lifted : ∀ m x env (a : BitVec 64), env x = some ⟨.unsignedLong, a.toNat⟩ →
    CCond.holds env ⟨.EQ, .var x, liftExpr (n.node.irGen m).val⟩ =
      some (decide (a.toNat = n.value))

/-- An `unsigned long` compared with a constant. -/
theorem compare_unsignedLong (a : BitVec 64) (i : Int) :
    CInt.compare (OpCode.onInt .EQ) ⟨.unsignedLong, a.toNat⟩ ⟨.int, i⟩ =
      decide ((a.toNat : Int) = i % 2 ^ 64) := by
  simp only [CInt.compare, IntType.common_int]
  rw [IntType.wrap_unsignedLong (by omega) (by omega), IntType.wrap_unsignedLong_emod]
  rfl

/-- **Numerals keep their value** exactly below `2 ^ 31`. -/
theorem Numeral.keepsValue_iff (n : Numeral) : n.KeepsValue ↔ n.value < 2 ^ 31 := by
  constructor
  · intro h
    -- the `k` field has 32 bits, so that the cast to `int` is the one loss that is left
    have hk := h.genKField [] {}
    rw [n.node_eq] at hk
    have hlt : n.value < 2 ^ 32 := hk ▸ BitVec.isLt _
    have hmin : min n.value ULONG_MAX = n.value := Nat.min_eq_left (by unfold ULONG_MAX; omega)
    have hc := h.lifted {} "x" (fun _ => some ⟨.unsignedLong, (BitVec.ofNat 64 n.value).toNat⟩)
      (BitVec.ofNat 64 n.value) rfl
    rw [n.node_eq, hmin] at hc
    have hval : (BitVec.ofNat 64 n.value).toNat = n.value := by
      rw [BitVec.toNat_ofNat, Nat.mod_eq_of_lt (by omega)]
    simp only [Expr.irGen, liftExpr, CCond.holds, CExpr.leaf?] at hc
    rw [compare_unsignedLong, hval, IntType.wrap_int] at hc
    have heq := (decide_eq_decide.mp (Option.some.inj hc)).mpr rfl
    split at heq <;> omega
  · intro h
    have hmin : min n.value ULONG_MAX = n.value := Nat.min_eq_left (by unfold ULONG_MAX; omega)
    have hnode : n.node = .value n.value := by
      rw [n.node_eq, hmin, IntType.wrap_small _ (by omega) (by omega)]
    have hk : (KField.int n.value).val.toNat = n.value := by
      rw [KField.val, BitVec.ofInt_natCast, BitVec.toNat_ofNat, Nat.mod_eq_of_lt (by omega)]
    constructor
    · intro args m
      rw [hnode]
      exact hk
    · intro args m op k hmem
      rw [hnode] at hmem
      obtain ⟨-, rfl⟩ := BPFFilter.stmt.inj (List.mem_singleton.mp hmem)
      exact hk
    · intro m x env a henv
      rw [hnode]
      simp only [Expr.irGen, liftExpr, CCond.holds, CExpr.leaf?, henv, compare_unsignedLong]
      rw [Int.emod_eq_of_lt (by omega) (by omega)]
      exact congrArg some (decide_eq_decide.mpr Int.ofNat_inj)

/-- `0x80000000` is compared as `-2147483648`. -/
theorem Numeral.not_keepsValue :
    ¬ Numeral.KeepsValue ⟨['0', 'x', '8', '0', '0', '0', '0', '0', '0', '0'], .inr (by decide)⟩ := by
  intro h
  have hc := h.lifted {} "x" (fun _ => some ⟨.unsignedLong, 0x80000000⟩) 0x80000000 rfl
  exact absurd hc (by decide)

end SeccompPolicy
