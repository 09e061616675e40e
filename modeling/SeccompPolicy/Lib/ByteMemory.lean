import Mathlib.Data.BitVec

/-!
# Bytes, little-endian words, and a memory of bytes

A memory is a byte for every address of `a` bits; addresses wrap around. A word of `n` bytes is a
`BitVec (8 * n)`, lowest byte first. `store m p b k` is the memory with the first `k` bytes of `b`
at `p`: all that a loop of word writes does is stated by it, so that such a loop has one
induction.

## Rules

* `byteAt_peek`, `byteAt_ofBytes`: words and their bytes.
* `poke_store`: writing word after word stores them all.
* `store_add`, `store_outside`: what is stored is read back, and is all that is changed. Offsets
  may wrap around, as long as the object is no larger than the memory.
* `store_congr`: only the bytes that are stored matter.
* `store_same_iff`: a store leaves a part of its range alone exactly when the bytes stored there
  are those that stood there.
-/

namespace ByteMemory

abbrev Byte := BitVec 8

/-- A memory with addresses of `a` bits. -/
abbrev Memory (a : Nat) := BitVec a → Byte

/-! ## Words -/

/-- Byte number `i` of a word. -/
def byteAt {k : Nat} (w : BitVec k) (i : Nat) : Byte := w.extractLsb' (8 * i) 8

/-- The word of `n` bytes with these bytes. -/
def ofBytes : (n : Nat) → (Nat → Byte) → BitVec (8 * n)
  | 0, _ => 0#0
  | n + 1, f => ofBytes n (fun i => f (i + 1)) ++ f 0

/-- A word has the bytes it is made of. -/
@[simp] theorem byteAt_ofBytes {n i : Nat} (hi : i < n) (f : Nat → Byte) :
    byteAt (ofBytes n f) i = f i := by
  induction n generalizing i f with
  | zero => exact absurd hi (Nat.not_lt_zero i)
  | succ n ih =>
    cases i with
    | zero => exact BitVec.extractLsb'_append_eq_right
    | succ i =>
      rw [← ih (Nat.lt_of_succ_lt_succ hi) fun i => f (i + 1)]
      have h := @BitVec.extractLsb'_append_eq_of_le (8 * n) 8 (ofBytes n fun i => f (i + 1)) (f 0)
        (8 * (i + 1)) 8 (by omega)
      rw [show 8 * (i + 1) - 8 = 8 * i by omega] at h
      exact h

/-! ## Memory -/

variable {a n : Nat}

/-- The word of `n` bytes at an address. -/
def peek (n : Nat) (m : Memory a) (p : BitVec a) : BitVec (8 * n) :=
  ofBytes n fun i => m (p + BitVec.ofNat a i)

/-- The memory with a word written at an address. -/
def poke (m : Memory a) (p : BitVec a) (w : BitVec (8 * n)) : Memory a := fun q =>
  if (q - p).toNat < n then byteAt w (q - p).toNat else m q

/-- The memory with the first `k` bytes of `b` at an address. -/
def store (m : Memory a) (p : BitVec a) (b : Nat → Byte) (k : Nat) : Memory a := fun q =>
  if (q - p).toNat < k then b (q - p).toNat else m q

@[simp] theorem byteAt_peek {i : Nat} (hi : i < n) (m : Memory a) (p : BitVec a) :
    byteAt (peek n m p) i = m (p + BitVec.ofNat a i) := byteAt_ofBytes hi _

@[simp] theorem store_zero (m : Memory a) (p : BitVec a) (b : Nat → Byte) : store m p b 0 = m := by
  funext q
  exact if_neg (Nat.not_lt_zero _)

theorem offset_toNat (p : BitVec a) {j : Nat} (hj : j < 2 ^ a) :
    (p + BitVec.ofNat a j - p).toNat = j := by
  rw [BitVec.add_comm, BitVec.add_sub_cancel, BitVec.toNat_ofNat, Nat.mod_eq_of_lt hj]

/-- The offset from an address further on: it wraps around for one in front. -/
theorem offset_from (p : BitVec a) {j k : Nat} (hj : j < 2 ^ a) (hk : k < 2 ^ a) :
    (p + BitVec.ofNat a j - (p + BitVec.ofNat a k)).toNat =
      if k ≤ j then j - k else 2 ^ a + j - k := by
  rw [add_sub_add_left_eq_sub, BitVec.toNat_sub, BitVec.toNat_ofNat, BitVec.toNat_ofNat,
    Nat.mod_eq_of_lt hj, Nat.mod_eq_of_lt hk]
  split
  · rw [show 2 ^ a - k + j = 2 ^ a + (j - k) by omega, Nat.add_mod_left,
      Nat.mod_eq_of_lt (by omega)]
  · rw [Nat.mod_eq_of_lt (by omega)]
    omega

/-- An address is the start and an offset. -/
theorem add_offset (p q : BitVec a) : p + BitVec.ofNat a (q - p).toNat = q := by
  rw [BitVec.ofNat_toNat, BitVec.setWidth_eq, BitVec.add_comm, BitVec.sub_add_cancel]

/-- What stands at an offset. -/
theorem store_add (m : Memory a) (p : BitVec a) (b : Nat → Byte) (k : Nat) {j : Nat}
    (hj : j < 2 ^ a) : store m p b k (p + BitVec.ofNat a j) =
      if j < k then b j else m (p + BitVec.ofNat a j) := by
  unfold store
  rw [offset_toNat p hj]

/-- Nothing else is changed. -/
theorem store_outside {m : Memory a} {p q : BitVec a} {b : Nat → Byte} {k : Nat}
    (h : ∀ j < k, q ≠ p + BitVec.ofNat a j) : store m p b k q = m q := by
  refine if_neg fun hlt => h _ hlt ?_
  exact (add_offset p q).symm

/-- Only the bytes that are stored matter. -/
theorem store_congr {m : Memory a} {p : BitVec a} {b b' : Nat → Byte} {k : Nat}
    (h : ∀ j < k, b j = b' j) : store m p b k = store m p b' k := by
  funext q
  unfold store
  split
  · exact h _ ‹_›
  · rfl

theorem poke_congr {m : Memory a} {p : BitVec a} {f g : Nat → Byte} (h : ∀ j < n, f j = g j) :
    poke m p (ofBytes n f) = poke m p (ofBytes n g) := by
  funext q
  unfold poke
  split
  · rw [byteAt_ofBytes ‹_›, byteAt_ofBytes ‹_›, h _ ‹_›]
  · rfl

/-- **The next word.** Writing the next `n` bytes after the first `k` stores them all. -/
theorem poke_store (m : Memory a) (p : BitVec a) (b : Nat → Byte) {k : Nat} (h : k + n ≤ 2 ^ a) :
    poke (store m p b k) (p + BitVec.ofNat a k) (ofBytes n fun i => b (k + i)) =
      store m p b (k + n) := by
  funext q
  obtain ⟨j, hj, rfl⟩ : ∃ j, j < 2 ^ a ∧ q = p + BitVec.ofNat a j :=
    ⟨(q - p).toNat, (q - p).isLt, (add_offset p q).symm⟩
  rw [store_add m p b _ hj]
  by_cases hn : n = 0
  · subst hn
    rw [poke, if_neg (Nat.not_lt_zero _), store_add m p b k hj, Nat.add_zero]
  · rw [poke, offset_from p hj (by omega), store_add m p b k hj]
    rcases Nat.lt_or_ge j k with hjk | hkj
    · rw [if_neg (Nat.not_le.mpr hjk), if_neg (by omega), if_pos hjk, if_pos (by omega)]
    · rw [if_pos hkj, if_neg (Nat.not_lt.mpr hkj)]
      by_cases hin : j - k < n
      · rw [if_pos hin, if_pos (by omega), byteAt_ofBytes hin, Nat.add_sub_cancel' hkj]
      · rw [if_neg hin, if_neg (by omega)]

/-- **What a store leaves alone.** The bytes from offset `n` on are as they were exactly when the
bytes stored there are those that stood there. -/
theorem store_same_iff (m : Memory a) (p : BitVec a) (b : Nat → Byte) {k : Nat} (hk : k ≤ 2 ^ a)
    (n : Nat) : (∀ q, (∀ j < n, q ≠ p + BitVec.ofNat a j) → store m p b k q = m q) ↔
      ∀ j, n ≤ j → j < k → b j = m (p + BitVec.ofNat a j) := by
  constructor
  · intro h j hnj hjk
    have hj : j < 2 ^ a := by omega
    have := h (p + BitVec.ofNat a j) fun i hi he => by
      have := congrArg (fun q => (q - p).toNat) he
      simp only [offset_toNat p hj, offset_toNat p (by omega : i < 2 ^ a)] at this
      omega
    rwa [store_add m p b k hj, if_pos hjk] at this
  · intro h q hq
    obtain ⟨j, hj, rfl⟩ : ∃ j, j < 2 ^ a ∧ q = p + BitVec.ofNat a j :=
      ⟨(q - p).toNat, (q - p).isLt, (add_offset p q).symm⟩
    rw [store_add m p b k hj]
    split
    · rename_i hjk
      refine h j ?_ hjk
      by_contra hlt
      exact hq j (by omega) rfl
    · rfl

end ByteMemory
