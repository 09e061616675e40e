import Mathlib.Data.Int.Basic
import Mathlib.Tactic.NormNum

/-!
# Integers of C, LP64

The integer types from `int` on, with conversion as reduction into the range of the type, and the
usual arithmetic conversions: a comparison first converts both operands to the one of their types
that comes later in `int`, `unsigned int`, `long`, `unsigned long`.

Types smaller than `int` are left out: a value of one is promoted to `int` first, which changes
nothing. Conversion to a signed type that does not have the value is reduction as well, as gcc and
clang document it.

## Rules

* `wrap_small`: a number below `2 ^ 31` is a value of every type.
* `wrap_unsignedInt`, `wrap_unsignedLong`, `wrap_int`, `wrap_long`: conversion, type by type.
* `compare_int`: a value of a type compared with a small constant.
-/

namespace CInt

/-- The standard integer types, in the order of the usual arithmetic conversions. -/
inductive IntType where
  | int | unsignedInt | long | unsignedLong
  deriving DecidableEq, Repr

namespace IntType

/-- The width. -/
def bits : IntType → Nat
  | int | unsignedInt => 32
  | long | unsignedLong => 64

/-- Whether there are negative values. -/
def signed : IntType → Bool
  | int | long => true
  | unsignedInt | unsignedLong => false

/-- The place in the order of conversions. -/
def rank : IntType → Nat
  | int => 0
  | unsignedInt => 1
  | long => 2
  | unsignedLong => 3

/-- Conversion of an integer to the type. -/
def wrap (t : IntType) (n : Int) : Int :=
  if t.signed then n.bmod (2 ^ t.bits) else n % 2 ^ t.bits

/-- The type two operands are converted to. -/
def common (a b : IntType) : IntType := if a.rank ≤ b.rank then b else a

/-- An operand of type `int` is converted to the type of the other one. -/
theorem common_int (t : IntType) : common t .int = t := by
  cases t <;> rfl

/-- A number below `2 ^ 31` is a value of every type. -/
theorem wrap_small (t : IntType) {n : Int} (h0 : 0 ≤ n) (h : n < 2 ^ 31) : t.wrap n = n := by
  cases t <;> simp only [wrap, signed, bits, if_true, Bool.false_eq_true, if_false, Int.bmod] <;>
    omega

theorem wrap_wrap (t : IntType) (n : Int) : t.wrap (t.wrap n) = t.wrap n := by
  unfold wrap
  split_ifs
  · exact Int.bmod_bmod
  · exact Int.emod_emod_of_dvd n (dvd_refl _)

theorem wrap_unsignedInt (n : Int) : unsignedInt.wrap n = n % 2 ^ 32 := rfl

theorem wrap_unsignedLong_emod (n : Int) : unsignedLong.wrap n = n % 2 ^ 64 := rfl

theorem wrap_int (n : Int) :
    int.wrap n = if n % 2 ^ 32 < 2 ^ 31 then n % 2 ^ 32 else n % 2 ^ 32 - 2 ^ 32 := by
  simp only [wrap, signed, bits, if_true, Int.bmod]
  split_ifs <;> omega

theorem wrap_unsignedLong {n : Int} (h0 : 0 ≤ n) (h : n < 2 ^ 64) : unsignedLong.wrap n = n := by
  simp only [wrap, signed, bits, Bool.false_eq_true, if_false]
  omega

theorem wrap_long {n : Int} (h0 : 0 ≤ n) (h : n < 2 ^ 64) :
    long.wrap n = if n < 2 ^ 63 then n else n - 2 ^ 64 := by
  simp only [wrap, signed, bits, if_true, Int.bmod]
  split_ifs <;> omega

end IntType

/-- A value with its type. -/
structure Value where
  type : IntType
  val : Int
  deriving DecidableEq, Repr

/-- A comparison by `r`. -/
def compare (r : Int → Int → Bool) (a b : Value) : Bool :=
  let t := a.type.common b.type
  r (t.wrap a.val) (t.wrap b.val)

/-- Comparison of a value of the type with a small constant. -/
theorem compare_int (r : Int → Int → Bool) (t : IntType) {n c : Int} (hn : t.wrap n = n)
    (h0 : 0 ≤ c) (hc : c < 2 ^ 31) : compare r ⟨t, n⟩ ⟨.int, c⟩ = r n c := by
  simp only [compare, IntType.common_int, hn, t.wrap_small h0 hc]

end CInt
