import SeccompPolicy.Lib.ByteMemory
import SeccompPolicy.Lib.CInt
import SeccompPolicy.Lib.SmallStep

/-!
# The copy functions of the ptrace template

Source: `ptrace_copy_out_mem`, `ptrace_copy_back_mem`, `ptrace_copy_out_string` and
`ptrace_copy_back_string` of `code_template/ptrace_template.c`.

The tracer moves strings and buffers between its own memory and the tracee's, a word of eight
bytes at a time. `n_words` is rounded up by what is left of the number of words, not of the number
of bytes: `ptrace_copy_out_mem` brings the whole object, and `ptrace_copy_back_mem` writes nothing
else, only for some sizes. A string is written back with its last word padded by zeros, and read
up to its `NUL` or to `MAX_STRING_LEN`.

The tracee's memory is `Lib.ByteMemory`: bytes at addresses of 64 bits. A `Buffer` is a block of
`malloc`, with its size, so that a write past its end has no result. Conversions between `int` and
`unsigned long` are those of C, from `Lib.CInt`. The loops are recursions with their counters as
arguments; that of `ptrace_copy_out_string` is a run of steps of `Lib.SmallStep`, because it ends
by a condition on what it reads.

## Results

* `ptraceCopyOutMem_whole_iff`: exactly which sizes come out whole.
* `copyBack_touches_iff`: exactly when the copies back change no byte outside their object, for
  objects and for strings.
* `copiesOutString_exact`: the loop ends with all writes inside the block, which then holds the
  bytes in front of the first `NUL`, or as many as the limit allows. The invariant at the head of
  the loop is `CopyState.AtHead`.
* `copyBackString_copyOutString`: a string that is written to the tracee is read back as it was.

Out of scope: a peek or poke that fails. All are taken to succeed.
-/

namespace SeccompPolicy

open ByteMemory CInt SmallStep

/-- The memory of the tracee. -/
abbrev Tracee := Memory 64

/-- `MAX_STRING_LEN`. -/
def MAX_STRING_LEN : Nat := 40960

/-! ## Buffers of the tracer -/

/-- A block given by `malloc`. -/
structure Buffer where
  size : Nat
  bytes : Nat → Byte

/-- A write of `n` bytes at offset `pos`; none when it goes past the end of the block. -/
def Buffer.memcpy (b : Buffer) (pos n : Nat) (src : Nat → Byte) : Option Buffer :=
  if pos + n ≤ b.size then
    some { b with bytes := fun j => if pos ≤ j ∧ j < pos + n then src (j - pos) else b.bytes j }
  else none

theorem Buffer.memcpy_of_le {b : Buffer} {pos n : Nat} (h : pos + n ≤ b.size)
    (src : Nat → Byte) : b.memcpy pos n src = some
      ⟨b.size, fun j => if pos ≤ j ∧ j < pos + n then src (j - pos) else b.bytes j⟩ := if_pos h

/-- A string in the memory of the tracer: bytes with the first `NUL` at `strlen`. -/
structure CString where
  bytes : Nat → Byte
  strlen : Nat
  nul : bytes strlen = 0
  nonzero : ∀ j < strlen, bytes j ≠ 0

/-- The bytes in front of the first `NUL` among `n`, all of them when there is none. -/
def stringOf (f : Nat → Byte) (n : Nat) : List Byte :=
  ((List.range n).map f).takeWhile fun b => decide (b ≠ 0)

/-- The characters of a string. -/
def CString.chars (s : CString) : List Byte := (List.range s.strlen).map s.bytes

theorem stringOf_eq {f : Nat → Byte} {n k : Nat} (hk : k ≤ n) (hf : ∀ j < k, f j ≠ 0)
    (hend : k < n → f k = 0) : stringOf f n = (List.range k).map f := by
  obtain ⟨d, rfl⟩ := Nat.exists_eq_add_of_le hk
  have hall : ∀ b ∈ (List.range k).map f, decide (b ≠ 0) = true := by
    intro b hb
    obtain ⟨j, hj, rfl⟩ := List.mem_map.mp hb
    exact decide_eq_true (hf j (List.mem_range.mp hj))
  rw [stringOf, List.range_add, List.map_append, List.takeWhile_append_of_pos hall]
  cases d with
  | zero => rw [List.range_zero, List.map_nil, List.map_nil, List.takeWhile_nil, List.append_nil]
  | succ d =>
    have hz := hend (by omega)
    rw [List.range_succ_eq_map, List.map_cons, List.map_cons, Nat.add_zero,
      List.takeWhile_cons_of_neg (by simp [hz]), List.append_nil]

/-! ## Objects -/

/-- `n_words` of the two functions on objects. -/
def nWords (copySize : Int) : Int :=
  let n := IntType.int.wrap (IntType.unsignedLong.wrap copySize / 8)
  if IntType.unsignedLong.wrap n % 8 ≠ 0 then IntType.int.wrap (n + 1) else n

theorem nWords_eq {n : Nat} (h : n < 2 ^ 31) :
    nWords n = (n / 8 + if n / 8 % 8 = 0 then 0 else 1 : Nat) := by
  have h8 : n / 8 < 2 ^ 28 := Nat.div_lt_of_lt_mul (by omega)
  have hq : IntType.int.wrap (IntType.unsignedLong.wrap n / 8) = (n / 8 : Nat) := by
    rw [IntType.wrap_small .unsignedLong (by omega) (by omega),
      IntType.wrap_small _ (by omega) (by omega)]
    rfl
  unfold nWords
  simp only [hq]
  rw [IntType.wrap_small _ (by omega) (by omega)]
  by_cases h0 : n / 8 % 8 = 0
  · rw [if_pos h0, if_neg (by omega), Nat.add_zero]
  · rw [if_neg h0, if_pos (by omega), IntType.wrap_small _ (by omega) (by omega)]
    rfl

/-- The loop of `ptrace_copy_out_mem`, from word `i` on. -/
def peekWords (m : Tracee) : Nat → Nat → Buffer → BitVec 64 → Option Buffer
  | 0, _, buf, _ => some buf
  | n + 1, i, buf, p =>
    match buf.memcpy (8 * i) 8 (byteAt (peek 8 m p)) with
    | none => none
    | some buf => peekWords m n (i + 1) buf (p + 8)

/-- `ptrace_copy_out_mem`. The block of `malloc` holds `junk`. -/
def ptraceCopyOutMem (junk : Nat → Byte) (m : Tracee) (p : BitVec 64) (copySize : Int) :
    Option Buffer :=
  let n := nWords copySize
  peekWords m n.toNat 0 ⟨(IntType.unsignedLong.wrap (IntType.unsignedLong.wrap n * 8)).toNat, junk⟩ p

/-- After the loop the words stand in the buffer, one after the other. -/
theorem peekWords_eq (m : Tracee) (p : BitVec 64) {n i : Nat} {buf : Buffer}
    (h : 8 * (i + n) ≤ buf.size) :
    ∃ r, peekWords m n i buf (p + BitVec.ofNat 64 (8 * i)) = some r ∧ r.size = buf.size ∧
      (∀ j < 8 * i, r.bytes j = buf.bytes j) ∧
      ∀ j, 8 * i ≤ j → j < 8 * (i + n) → r.bytes j = m (p + BitVec.ofNat 64 j) := by
  induction n generalizing i buf with
  | zero => exact ⟨buf, rfl, rfl, fun _ _ => rfl, fun j h1 h2 => by omega⟩
  | succ n ih =>
    have hnext : p + BitVec.ofNat 64 (8 * i) + 8 = p + BitVec.ofNat 64 (8 * (i + 1)) := by
      rw [BitVec.add_assoc, show (8 : BitVec 64) = BitVec.ofNat 64 8 from rfl, ← BitVec.ofNat_add]
      rfl
    unfold peekWords
    simp only [Buffer.memcpy_of_le (show 8 * i + 8 ≤ buf.size by omega), hnext]
    set buf' : Buffer := ⟨buf.size, fun j => if 8 * i ≤ j ∧ j < 8 * i + 8 then
      byteAt (peek 8 m (p + BitVec.ofNat 64 (8 * i))) (j - 8 * i) else buf.bytes j⟩ with hbuf'
    obtain ⟨r, hr, hsize, hold, hnew⟩ := @ih (i + 1) buf'
      (by rw [show buf'.size = buf.size from rfl]; omega)
    refine ⟨r, hr, hsize, fun j hj => ?_, fun j h1 h2 => ?_⟩
    · rw [hold j (by omega)]
      exact if_neg (by omega)
    · rcases Nat.lt_or_ge j (8 * (i + 1)) with hlt | hge
      · rw [hold j hlt]
        have hword : buf'.bytes j = byteAt (peek 8 m (p + BitVec.ofNat 64 (8 * i))) (j - 8 * i) :=
          if_pos ⟨h1, by omega⟩
        rw [hword, byteAt_peek (by omega), BitVec.add_assoc, ← BitVec.ofNat_add,
          Nat.add_sub_cancel' h1]
      · exact hnew j hge (by omega)

/-- The buffer of `ptrace_copy_out_mem` has the whole words that `n_words` counts. -/
theorem ptraceCopyOutMem_eq (junk : Nat → Byte) (m : Tracee) (p : BitVec 64) {n : Nat}
    (h : n < 2 ^ 31) : ∃ r, ptraceCopyOutMem junk m p n = some r ∧
      r.size = 8 * (nWords n).toNat ∧ ∀ j < 8 * (nWords n).toNat, r.bytes j =
        m (p + BitVec.ofNat 64 j) := by
  obtain ⟨k, hk, hlt⟩ : ∃ k : Nat, nWords n = k ∧ k ≤ n / 8 + 1 :=
    ⟨_, nWords_eq h, by split <;> omega⟩
  have hsize : (IntType.unsignedLong.wrap (IntType.unsignedLong.wrap k * 8)).toNat = 8 * k := by
    rw [IntType.wrap_small (n := k) _ (by omega) (by omega),
      IntType.wrap_unsignedLong (by omega) (by omega)]
    omega
  have hp : p = p + BitVec.ofNat 64 (8 * 0) := by simp
  obtain ⟨r, hr, hrs, -, hbytes⟩ := @peekWords_eq m p k 0 ⟨8 * k, junk⟩
    (by rw [Nat.zero_add])
  refine ⟨r, ?_, ?_, ?_⟩
  · unfold ptraceCopyOutMem
    simp only [hk, hsize, Int.toNat_natCast]
    rwa [← hp] at hr
  · rw [hrs, hk, Int.toNat_natCast]
  · rw [hk, Int.toNat_natCast]
    exact fun j hj => hbytes j (Nat.zero_le _) (by omega)

/-- **The whole object.** `ptrace_copy_out_mem` returns all its bytes exactly when there is no part
of a word at its end, or the number of full words is no multiple of eight. -/
theorem ptraceCopyOutMem_whole_iff (junk : Nat → Byte) (m : Tracee) (p : BitVec 64) {copySize : Nat}
    (h : copySize < 2 ^ 31) :
    (∃ r, ptraceCopyOutMem junk m p copySize = some r ∧ copySize ≤ r.size ∧
      ∀ j < copySize, r.bytes j = m (p + BitVec.ofNat 64 j)) ↔
      copySize % 8 = 0 ∨ copySize / 8 % 8 ≠ 0 := by
  obtain ⟨r, hr, hsize, hbytes⟩ := ptraceCopyOutMem_eq junk m p h
  rw [nWords_eq h, Int.toNat_natCast] at hsize hbytes
  constructor
  · rintro ⟨r', hr', hroom, -⟩
    obtain rfl : r = r' := Option.some.inj (hr.symm.trans hr')
    by_contra hno
    rw [not_or, not_not] at hno
    rw [if_pos hno.2] at hsize
    omega
  · intro hfit
    have hle : copySize ≤ 8 * (copySize / 8 + if copySize / 8 % 8 = 0 then 0 else 1) := by
      split <;> omega
    exact ⟨r, hr, hsize ▸ hle, fun j hj => hbytes j (Nat.lt_of_lt_of_le hj hle)⟩

/-- A `struct stat` comes out whole. -/
theorem ptraceCopyOutMem_whole_stat : ∃ r, ptraceCopyOutMem (fun _ => 7) (fun q => q.setWidth 8)
    4096 (144 : Nat) = some r ∧ 144 ≤ r.size ∧
      ∀ j < 144, r.bytes j = (4096 + BitVec.ofNat 64 j).setWidth 8 :=
  (ptraceCopyOutMem_whole_iff _ _ _ (by decide)).mpr (.inl rfl)

/-- The four bytes of an `int` get a buffer of none. -/
theorem ptraceCopyOutMem_short : ¬ ∀ (m : Tracee) (p : BitVec 64) (copySize : Nat),
    copySize < 2 ^ 31 → ∃ r, ptraceCopyOutMem (fun _ => 0) m p copySize = some r ∧
      copySize ≤ r.size ∧ ∀ j < copySize, r.bytes j = m (p + BitVec.ofNat 64 j) := by
  intro hall
  obtain ⟨r, hr, hroom, -⟩ := hall (fun _ => 0) 0 4 (by decide)
  obtain rfl : r = ⟨0, fun _ => 0⟩ := (Option.some.inj hr).symm
  exact absurd hroom (by decide)

/-- The loop that writes words to the tracee, from word `i` on. -/
def pokeWords (buf : Nat → Byte) : Nat → Nat → Tracee → BitVec 64 → Tracee
  | 0, _, m, _ => m
  | n + 1, i, m, p =>
    pokeWords buf n (i + 1) (poke m p (ofBytes 8 fun j => buf (8 * i + j))) (p + 8)

/-- No byte of the tracee outside the `n` bytes at `p` is changed. -/
def TouchesOnly (m m' : Tracee) (p : BitVec 64) (n : Nat) : Prop :=
  ∀ q, (∀ j < n, q ≠ p + BitVec.ofNat 64 j) → m' q = m q

/-- `ptrace_copy_back_mem`. -/
def ptraceCopyBackMem (m : Tracee) (p : BitVec 64) (buf : Nat → Byte) (copySize : Int) : Tracee :=
  pokeWords buf (nWords copySize).toNat 0 m p

/-- The loop stores word after word. -/
theorem pokeWords_store (m : Tracee) (p : BitVec 64) (buf : Nat → Byte) {n i : Nat}
    (h : 8 * (i + n) ≤ 2 ^ 64) :
    pokeWords buf n i (store m p buf (8 * i)) (p + BitVec.ofNat 64 (8 * i)) =
      store m p buf (8 * (i + n)) := by
  induction n generalizing i with
  | zero => rfl
  | succ n ih =>
    have hnext : p + BitVec.ofNat 64 (8 * i) + 8 = p + BitVec.ofNat 64 (8 * (i + 1)) := by
      rw [BitVec.add_assoc, show (8 : BitVec 64) = BitVec.ofNat 64 8 from rfl, ← BitVec.ofNat_add]
      rfl
    unfold pokeWords
    rw [poke_store m p buf (by omega), hnext]
    exact (ih (i := i + 1) (by omega)).trans (by rw [show i + 1 + n = i + (n + 1) by omega])

/-- From the start of the buffer. -/
theorem pokeWords_all (m : Tracee) (p : BitVec 64) (buf : Nat → Byte) {n : Nat}
    (h : 8 * n ≤ 2 ^ 64) : pokeWords buf n 0 m p = store m p buf (8 * n) := by
  have := pokeWords_store m p buf (n := n) (i := 0) (by omega)
  rwa [Nat.mul_zero, store_zero, BitVec.add_zero, Nat.zero_add] at this

theorem ptraceCopyBackMem_eq (m : Tracee) (p : BitVec 64) (buf : Nat → Byte) {n : Nat}
    (h : n < 2 ^ 31) : ptraceCopyBackMem m p buf n =
      store m p buf (8 * (n / 8 + if n / 8 % 8 = 0 then 0 else 1)) := by
  have hle : n / 8 + (if n / 8 % 8 = 0 then 0 else 1) ≤ n / 8 + 1 := by split <;> omega
  unfold ptraceCopyBackMem
  rw [nWords_eq h, Int.toNat_natCast, pokeWords_all m p buf (by omega)]

/-- What `ptrace_copy_back_mem` leaves alone. -/
theorem ptraceCopyBackMem_touches_iff (m : Tracee) (p : BitVec 64) (buf : Nat → Byte) {n : Nat}
    (h : n < 2 ^ 31) : TouchesOnly m (ptraceCopyBackMem m p buf n) p n ↔
      n / 8 % 8 = 0 ∨ ∀ j, n ≤ j → j < 8 * (n / 8 + 1) → buf j = m (p + BitVec.ofNat 64 j) := by
  rw [ptraceCopyBackMem_eq m p buf h]
  refine (store_same_iff m p buf (by split <;> omega) n).trans ?_
  by_cases h0 : n / 8 % 8 = 0
  · rw [if_pos h0]
    exact iff_of_true (fun j h1 h2 => by omega) (.inl h0)
  · rw [if_neg h0]
    exact ⟨.inr, fun h' => h'.resolve_left h0⟩

/-! ## Strings -/

/-- `str_len` of `ptrace_copy_back_string`. -/
def strLen (s : CString) : Int :=
  IntType.int.wrap (IntType.unsignedLong.wrap (s.strlen + 1))

/-- `n_words` of `ptrace_copy_back_string`. -/
def stringWords (s : CString) : Int :=
  IntType.int.wrap (IntType.unsignedLong.wrap (strLen s) / 8)

/-- `remain`. -/
def remain (s : CString) : Int :=
  IntType.int.wrap (IntType.unsignedLong.wrap (strLen s) % 8)

/-- `ptrace_copy_back_string`: full words, then what remains in a word of zeros. -/
def ptraceCopyBackString (m : Tracee) (s : CString) (p : BitVec 64) : Tracee :=
  let k := 8 * (stringWords s).toNat
  let m' := pokeWords s.bytes (stringWords s).toNat 0 m p
  if remain s ≠ 0 then
    poke m' (p + BitVec.ofNat 64 k)
      (ofBytes 8 fun j => if j < (remain s).toNat then s.bytes (k + j) else 0)
  else m'

/-- The bytes of a string, then zeros. -/
def CString.padded (s : CString) (j : Nat) : Byte := if j < s.strlen then s.bytes j else 0

theorem CString.padded_of_le (s : CString) {j : Nat} (h : j ≤ s.strlen) :
    s.padded j = s.bytes j := by
  unfold CString.padded
  split
  · rfl
  · rw [show j = s.strlen by omega, s.nul]

/-- `str_len` is an `int`, of which the full words and the rest are taken. -/
theorem stringWords_remain (s : CString) : (stringWords s).toNat < 2 ^ 28 ∧ 0 ≤ remain s ∧
    remain s < 8 := by
  have hlen : -2 ^ 31 ≤ strLen s ∧ strLen s < 2 ^ 31 := by
    unfold strLen
    rw [IntType.wrap_int]
    split <;> omega
  have hul := IntType.wrap_unsignedLong_emod (strLen s)
  have hr : remain s = strLen s % 2 ^ 64 % 8 := by
    unfold remain
    rw [hul, IntType.wrap_small _ (by omega) (by omega)]
  refine ⟨?_, by omega, by omega⟩
  unfold stringWords
  rw [hul, IntType.wrap_int]
  split <;> omega

/-- A string of a length that is an `int` is cut into the words and the rest of it. -/
theorem stringWords_of_lt {s : CString} (h : s.strlen + 1 < 2 ^ 31) :
    (stringWords s).toNat = (s.strlen + 1) / 8 ∧ remain s = ((s.strlen + 1) % 8 : Nat) := by
  have hlen : strLen s = s.strlen + 1 := by
    unfold strLen
    rw [IntType.wrap_small .unsignedLong (by omega) (by omega),
      IntType.wrap_small _ (by omega) (by omega)]
  have hul : IntType.unsignedLong.wrap (s.strlen + 1) = s.strlen + 1 :=
    IntType.wrap_small _ (by omega) (by omega)
  constructor
  · unfold stringWords
    rw [hlen, hul, IntType.wrap_small _ (by omega) (by omega)]
    omega
  · unfold remain
    rw [hlen, hul, IntType.wrap_small _ (by omega) (by omega)]
    rfl

/-- Full words, and one more for what remains. -/
def stringBytes (s : CString) : Nat :=
  8 * (stringWords s).toNat + if remain s = 0 then 0 else 8

theorem stringBytes_of_lt {s : CString} (h : s.strlen + 1 < 2 ^ 31) :
    stringBytes s = 8 * ((s.strlen + 8) / 8) := by
  obtain ⟨hw, hr⟩ := stringWords_of_lt h
  unfold stringBytes
  rw [hw, hr]
  split <;> omega

/-- `ptrace_copy_back_string` stores the string and zeros up to the end of its last word. -/
theorem ptraceCopyBackString_eq (m : Tracee) {s : CString} (p : BitVec 64)
    (h : s.strlen + 1 < 2 ^ 31) :
    ptraceCopyBackString m s p = store m p s.padded (stringBytes s) := by
  obtain ⟨hw, hr⟩ := stringWords_of_lt h
  have hwords : pokeWords s.bytes (stringWords s).toNat 0 m p =
      store m p s.padded (8 * (stringWords s).toNat) := by
    rw [pokeWords_all m p s.bytes (by omega)]
    exact store_congr fun j hj => (s.padded_of_le (by omega)).symm
  unfold ptraceCopyBackString stringBytes
  simp only [hwords]
  by_cases h0 : remain s = 0
  · rw [if_neg (not_not.mpr h0), if_pos h0, Nat.add_zero]
  · rw [if_pos h0, if_neg h0, ← poke_store m p s.padded (by omega)]
    refine poke_congr fun j _ => ?_
    rw [hr, Int.toNat_natCast]
    split
    · exact (s.padded_of_le (by omega)).symm
    · exact (if_neg (by omega)).symm

/-- A store is all a copy of a longer string does. -/
theorem ptraceCopyBackString_inside (m : Tracee) {s : CString} (p : BitVec 64)
    (h : 2 ^ 31 ≤ s.strlen + 1) :
    TouchesOnly m (ptraceCopyBackString m s p) p (s.strlen + 1) := by
  obtain ⟨hw, hr0, hr8⟩ := stringWords_remain s
  obtain ⟨b, k, hk, heq⟩ : ∃ b k, k ≤ s.strlen + 1 ∧ ptraceCopyBackString m s p = store m p b k := by
    unfold ptraceCopyBackString
    simp only
    split
    · refine ⟨fun j => if j < 8 * (stringWords s).toNat + (remain s).toNat then s.bytes j else 0,
        8 * (stringWords s).toNat + 8, by omega, ?_⟩
      have hstore : store m p s.bytes (8 * (stringWords s).toNat) = store m p
          (fun j => if j < 8 * (stringWords s).toNat + (remain s).toNat then s.bytes j else 0)
          (8 * (stringWords s).toNat) := store_congr fun j hj => (if_pos (by omega)).symm
      rw [← poke_store m p _ (by omega), pokeWords_all m p s.bytes (by omega), hstore]
      exact poke_congr fun j _ => if_congr (by omega) rfl rfl
    · exact ⟨s.bytes, _, by omega, pokeWords_all m p s.bytes (by omega)⟩
  intro q hq
  rw [heq]
  exact store_outside fun j hj => hq j (by omega)

/-- What `ptrace_copy_back_string` leaves alone. -/
theorem ptraceCopyBackString_touches_iff (m : Tracee) (s : CString) (p : BitVec 64) :
    TouchesOnly m (ptraceCopyBackString m s p) p (s.strlen + 1) ↔
      2 ^ 31 ≤ s.strlen + 1 ∨ ∀ j, s.strlen < j → j < 8 * ((s.strlen + 8) / 8) →
        m (p + BitVec.ofNat 64 j) = 0 := by
  rcases Nat.lt_or_ge (s.strlen + 1) (2 ^ 31) with hlt | hge
  · rw [ptraceCopyBackString_eq m p hlt, stringBytes_of_lt hlt]
    refine (store_same_iff m p s.padded (by omega) (s.strlen + 1)).trans ?_
    refine Iff.trans ?_ (or_iff_right (Nat.not_le.mpr hlt)).symm
    refine forall_congr' fun j => imp_congr_right fun hj => imp_congr_right fun _ => ?_
    rw [CString.padded, if_neg (by omega)]
    exact eq_comm
  · exact iff_of_true (ptraceCopyBackString_inside m p hge) (.inl hge)

/-- **Nothing but the object.** The copies back change no byte outside their object exactly when
the bytes in the rest of the last word already are those that are written: zeros after a string,
what the buffer holds after an object with a number of full words that is no multiple of eight. -/
theorem copyBack_touches_iff (m : Tracee) (p : BitVec 64) (s : CString) (buf : Nat → Byte) {n : Nat}
    (h : n < 2 ^ 31) :
    (TouchesOnly m (ptraceCopyBackString m s p) p (s.strlen + 1) ↔
      2 ^ 31 ≤ s.strlen + 1 ∨ ∀ j, s.strlen < j → j < 8 * ((s.strlen + 8) / 8) →
        m (p + BitVec.ofNat 64 j) = 0) ∧
    (TouchesOnly m (ptraceCopyBackMem m p buf n) p n ↔
      n / 8 % 8 = 0 ∨ ∀ j, n ≤ j → j < 8 * (n / 8 + 1) → buf j = m (p + BitVec.ofNat 64 j)) :=
  ⟨ptraceCopyBackString_touches_iff m s p, ptraceCopyBackMem_touches_iff m p buf h⟩

/-- The empty string. -/
def CString.empty : CString := ⟨fun _ => 0, 0, rfl, fun _ h => absurd h (Nat.not_lt_zero _)⟩

/-- A string of nine bytes: a full word and a tail. -/
def CString.nine : CString where
  bytes j := if j < 9 then 97 else 0
  strlen := 9
  nul := rfl
  nonzero := by decide

/-- Six zeros stand after a string of nine bytes, and twelve bytes are one full word. -/
theorem copyBack_touches_zeros :
    TouchesOnly (fun _ => 0) (ptraceCopyBackString (fun _ => 0) CString.nine 4097) 4097 10 ∧
      ¬ TouchesOnly (fun _ => 0) (ptraceCopyBackMem (fun _ => 0) 4097 (fun _ => 1) (12 : Nat))
        4097 12 := by
  obtain ⟨hs, hm⟩ := copyBack_touches_iff (fun _ => 0) 4097 CString.nine (fun _ => 1) (n := 12)
    (by decide)
  refine ⟨hs.mpr (.inr fun _ _ _ => rfl), fun h => ?_⟩
  rcases hm.mp h with h0 | hb
  · exact absurd h0 (by decide)
  · exact absurd (hb 12 (by decide) (by decide)) (by decide)

/-- The empty string and twelve bytes, with other data behind. -/
theorem copyBack_corrupts : ¬ ∀ (m : Tracee) (p : BitVec 64) (s : CString) (buf : Nat → Byte)
    (n : Nat), n < 2 ^ 31 → TouchesOnly m (ptraceCopyBackString m s p) p (s.strlen + 1) ∧
      TouchesOnly m (ptraceCopyBackMem m p buf n) p n := by
  intro hall
  have h := (hall (fun _ => 1) 0 CString.empty (fun _ => 2) 12 (by decide)).1 1
    (fun j hj he => by obtain rfl : j = 0 := Nat.lt_one_iff.mp hj; exact absurd he (by decide))
  exact absurd h (by decide)

/-- The variables of `ptrace_copy_out_string`. -/
structure CopyState where
  cnt : Nat
  traceeAddr : BitVec 64
  str : Buffer

/-- The inner loop of `ptrace_copy_out_string` on the last `n` bytes of a word, from byte `i` on:
`cnt`, `tracee_addr` and `string_end` after it. -/
def scanWord (word : BitVec 64) : Nat → Nat → Nat → BitVec 64 → Nat × BitVec 64 × Bool
  | 0, _, cnt, addr => (cnt, addr, false)
  | n + 1, i, cnt, addr =>
    if byteAt word i = 0 then (cnt + 1, addr + 1, true)
    else scanWord word n (i + 1) (cnt + 1) (addr + 1)

/-- The end of `ptrace_copy_out_string`: `str[MAX_STRING_LEN] = 0`. -/
def CopyState.finish (str : Buffer) : Option Buffer := str.memcpy MAX_STRING_LEN 1 fun _ => 0

/-- One round of the outer loop. A write outside the block ends the run with none. -/
def CopyState.step (m : Tracee) (s : CopyState) : CopyState ⊕ Option Buffer :=
  if s.cnt < MAX_STRING_LEN then
    let word : BitVec 64 := peek 8 m s.traceeAddr
    match s.str.memcpy s.cnt 8 (byteAt word) with
    | none => .inr none
    | some str =>
      let r := scanWord word 8 0 s.cnt s.traceeAddr
      if r.2.2 then .inr (CopyState.finish str) else .inl ⟨r.1, r.2.1, str⟩
  else .inr (CopyState.finish s.str)

/-- Before the loop: a block of `MAX_STRING_LEN + 1` bytes. -/
def CopyState.start (junk : Nat → Byte) (p : BitVec 64) : CopyState :=
  ⟨0, p, ⟨MAX_STRING_LEN + 1, junk⟩⟩

/-- `ptrace_copy_out_string` returns `r`. -/
def CopiesOutString (junk : Nat → Byte) (m : Tracee) (p : BitVec 64) (r : Buffer) : Prop :=
  Halts (CopyState.step m) (CopyState.start junk p) (some r)

/-- The inner loop goes on to the next word after a word with no `NUL`, and breaks at the first. -/
theorem scanWord_cases (word : BitVec 64) (n i cnt : Nat) (addr : BitVec 64) :
    ((∀ k, i ≤ k → k < i + n → byteAt word k ≠ 0) ∧
      scanWord word n i cnt addr = (cnt + n, addr + BitVec.ofNat 64 n, false)) ∨
    ∃ k, i ≤ k ∧ k < i + n ∧ byteAt word k = 0 ∧ (∀ j, i ≤ j → j < k → byteAt word j ≠ 0) ∧
      (scanWord word n i cnt addr).2.2 = true := by
  induction n generalizing i cnt addr with
  | zero => exact .inl ⟨fun k h1 h2 => by omega, by simp [scanWord]⟩
  | succ n ih =>
    unfold scanWord
    by_cases h0 : byteAt word i = 0
    · exact .inr ⟨i, le_refl i, by omega, h0, fun j h1 h2 => by omega, by rw [if_pos h0]⟩
    · rw [if_neg h0]
      rcases ih (i + 1) (cnt + 1) (addr + 1) with ⟨hall, heq⟩ | ⟨k, hk, hkn, hz, hnz, heq⟩
      · refine .inl ⟨fun k h1 h2 => ?_, ?_⟩
        · rcases Nat.eq_or_lt_of_le h1 with rfl | hlt
          · exact h0
          · exact hall k hlt (by omega)
        · rw [heq, BitVec.add_assoc, show (1 : BitVec 64) = BitVec.ofNat 64 1 from rfl,
            ← BitVec.ofNat_add, Nat.add_comm 1 n, Nat.add_assoc, Nat.add_comm 1 n]
      · refine .inr ⟨k, by omega, by omega, hz, fun j h1 h2 => ?_, heq⟩
        rcases Nat.eq_or_lt_of_le h1 with rfl | hlt
        · exact h0
        · exact hnz j hlt h2

/-- The head of the outer loop after `i` words: none of their bytes is a `NUL`, and they are all in
the block. -/
structure CopyState.AtHead (m : Tracee) (p : BitVec 64) (i : Nat) (s : CopyState) : Prop where
  cnt : s.cnt = 8 * i
  addr : s.traceeAddr = p + BitVec.ofNat 64 (8 * i)
  size : s.str.size = MAX_STRING_LEN + 1
  copied : ∀ j < 8 * i, s.str.bytes j = m (p + BitVec.ofNat 64 j)
  nonzero : ∀ j < 8 * i, m (p + BitVec.ofNat 64 j) ≠ 0

/-- A block with the string of length `k` at `p`, which ends with a `NUL` or at the limit. -/
structure IsCopyOf (m : Tracee) (p : BitVec 64) (k : Nat) (r : Buffer) : Prop where
  le : k ≤ MAX_STRING_LEN
  size : r.size = MAX_STRING_LEN + 1
  copied : ∀ j < k, r.bytes j = m (p + BitVec.ofNat 64 j)
  nonzero : ∀ j < k, m (p + BitVec.ofNat 64 j) ≠ 0
  nul : r.bytes k = 0
  ends : k < MAX_STRING_LEN → m (p + BitVec.ofNat 64 k) = 0

theorem CopyState.start_atHead (junk : Nat → Byte) (m : Tracee) (p : BitVec 64) :
    CopyState.AtHead m p 0 (CopyState.start junk p) where
  cnt := rfl
  addr := by simp [CopyState.start]
  size := rfl
  copied _ h := absurd h (Nat.not_lt_zero _)
  nonzero _ h := absurd h (Nat.not_lt_zero _)

/-- `str[MAX_STRING_LEN] = 0` ends the string if nothing did. -/
theorem CopyState.finish_isCopyOf {m : Tracee} {p : BitVec 64} {k : Nat} {str : Buffer}
    (hk : k ≤ MAX_STRING_LEN) (hsize : str.size = MAX_STRING_LEN + 1)
    (hcopied : ∀ j < k, str.bytes j = m (p + BitVec.ofNat 64 j))
    (hnz : ∀ j < k, m (p + BitVec.ofNat 64 j) ≠ 0)
    (hend : k < MAX_STRING_LEN → str.bytes k = m (p + BitVec.ofNat 64 k) ∧
      m (p + BitVec.ofNat 64 k) = 0) :
    ∃ r, CopyState.finish str = some r ∧ IsCopyOf m p k r := by
  refine ⟨_, Buffer.memcpy_of_le (by omega) _, hk, hsize, fun j hj => ?_, hnz, ?_,
    fun h => (hend h).2⟩
  · exact (if_neg (by omega)).trans (hcopied j hj)
  · rcases Nat.eq_or_lt_of_le hk with rfl | hlt
    · have hlast : MAX_STRING_LEN ≤ MAX_STRING_LEN ∧ MAX_STRING_LEN < MAX_STRING_LEN + 1 :=
        ⟨le_rfl, Nat.lt_succ_self _⟩
      exact if_pos (e := str.bytes MAX_STRING_LEN) hlast
    · exact (if_neg (by omega)).trans ((hend hlt).1.trans (hend hlt).2)

/-- **One round.** It brings the next word and comes back to the head, or returns the string. -/
theorem CopyState.AtHead.step {m : Tracee} {p : BitVec 64} {i : Nat} {s : CopyState}
    (h : s.AtHead m p i) (hi : 8 * i ≤ MAX_STRING_LEN) :
    (8 * (i + 1) ≤ MAX_STRING_LEN ∧ ∃ s', CopyState.step m s = .inl s' ∧ s'.AtHead m p (i + 1)) ∨
    ∃ r k, CopyState.step m s = .inr (some r) ∧ IsCopyOf m p k r := by
  unfold CopyState.step
  by_cases hlt : s.cnt < MAX_STRING_LEN
  · -- the limit is a multiple of eight, so that a whole word is left
    have hnext : 8 * (i + 1) ≤ MAX_STRING_LEN := by
      have := h.cnt
      unfold MAX_STRING_LEN at *
      omega
    have hword : ∀ k < 8, byteAt (peek 8 m s.traceeAddr) k = m (p + BitVec.ofNat 64 (8 * i + k)) := by
      intro k hk
      rw [byteAt_peek hk, h.addr, BitVec.add_assoc, ← BitVec.ofNat_add]
    have hmem := @Buffer.memcpy_of_le s.str s.cnt 8
      (by rw [h.size, h.cnt]; omega) (byteAt (peek 8 m s.traceeAddr))
    simp only [if_pos hlt, hmem]
    set str : Buffer := ⟨s.str.size, fun j => if s.cnt ≤ j ∧ j < s.cnt + 8 then
      byteAt (peek 8 m s.traceeAddr) (j - s.cnt) else s.str.bytes j⟩ with hstr
    have hbytes : ∀ j < 8 * i + 8, str.bytes j = m (p + BitVec.ofNat 64 j) := by
      intro j hj
      rcases Nat.lt_or_ge j (8 * i) with hj' | hj'
      · exact (if_neg (by rw [h.cnt]; omega)).trans (h.copied j hj')
      · refine (if_pos (by rw [h.cnt]; omega)).trans ?_
        rw [hword _ (by rw [h.cnt]; omega), h.cnt, Nat.add_sub_cancel' hj']
    rcases scanWord_cases (peek 8 m s.traceeAddr) 8 0 s.cnt s.traceeAddr with
      ⟨hall, heq⟩ | ⟨k, -, hk8, hz, hnz, heq⟩
    · refine .inl ⟨hnext, ⟨s.cnt + 8, s.traceeAddr + BitVec.ofNat 64 8, str⟩, ?_, ?_⟩
      · rw [heq]
        rfl
      · refine ⟨by rw [h.cnt]; rfl, ?_, h.size, fun j hj => hbytes j (by omega), fun j hj => ?_⟩
        · rw [h.addr, BitVec.add_assoc, ← BitVec.ofNat_add]
          rfl
        · rcases Nat.lt_or_ge j (8 * i) with hj' | hj'
          · exact h.nonzero j hj'
          · have := hall (j - 8 * i) (Nat.zero_le _) (by omega)
            rwa [hword _ (by omega), Nat.add_sub_cancel' hj'] at this
    · have hzero : m (p + BitVec.ofNat 64 (8 * i + k)) = 0 := by
        rw [← hword k (by omega)]
        exact hz
      obtain ⟨r, hr, hcopy⟩ := @CopyState.finish_isCopyOf m p (8 * i + k) str
        (by omega) h.size (fun j hj => hbytes j (by omega))
        (fun j hj => by
          rcases Nat.lt_or_ge j (8 * i) with hj' | hj'
          · exact h.nonzero j hj'
          · have := hnz (j - 8 * i) (Nat.zero_le _) (by omega)
            rwa [hword _ (by omega), Nat.add_sub_cancel' hj'] at this)
        (fun _ => ⟨hbytes _ (by omega), hzero⟩)
      refine .inr ⟨r, _, ?_, hcopy⟩
      rw [if_pos heq, hr]
  · rw [if_neg hlt]
    have hlast : 8 * i = MAX_STRING_LEN := by have := h.cnt; omega
    obtain ⟨r, hr, hcopy⟩ := CopyState.finish_isCopyOf (k := 8 * i) hi h.size h.copied h.nonzero
      (fun h' => absurd h' (by omega))
    exact .inr ⟨r, _, congrArg _ hr, hcopy⟩

/-- The whole loop, by induction on the words that are left. -/
theorem CopyState.AtHead.halts {m : Tracee} {p : BitVec 64} {i : Nat} {s : CopyState}
    (h : s.AtHead m p i) (hi : 8 * i ≤ MAX_STRING_LEN) :
    ∃ r k, Halts (CopyState.step m) s (some r) ∧ IsCopyOf m p k r := by
  induction hd : MAX_STRING_LEN - 8 * i using Nat.strong_induction_on generalizing i s with
  | _ d ih =>
    rcases h.step hi with ⟨hnext, s', hs, h'⟩ | ⟨r, k, hs, hcopy⟩
    · obtain ⟨r, k, hr, hcopy⟩ := ih _ (by omega) h' hnext rfl
      exact ⟨r, k, (halts_of_inl hs).mpr hr, hcopy⟩
    · exact ⟨r, k, (halts_of_inr hs).mpr rfl, hcopy⟩

/-- What `ptrace_copy_out_string` returns. -/
theorem copiesOutString_isCopyOf (junk : Nat → Byte) (m : Tracee) (p : BitVec 64) :
    ∃ r k, CopiesOutString junk m p r ∧ IsCopyOf m p k r :=
  (CopyState.start_atHead junk m p).halts (Nat.zero_le _)

/-- The characters of the copy. -/
theorem IsCopyOf.stringOf_eq {m : Tracee} {p : BitVec 64} {k : Nat} {r : Buffer}
    (h : IsCopyOf m p k r) :
    stringOf r.bytes r.size = (List.range k).map fun j => m (p + BitVec.ofNat 64 j) := by
  rw [SeccompPolicy.stringOf_eq (k := k) (by rw [h.size]; exact Nat.le_succ_of_le h.le)
    (fun j hj => h.copied j hj ▸ h.nonzero j hj) fun _ => h.nul]
  exact List.map_congr_left fun j hj => h.copied j (List.mem_range.mp hj)

/-- **Exact and bounded.** The loop ends with all writes inside the block, which then holds a string
of C: the bytes at `p` in front of the first `NUL`, or as many as the limit. -/
theorem copiesOutString_exact (junk : Nat → Byte) (m : Tracee) (p : BitVec 64) :
    ∃ r, CopiesOutString junk m p r ∧ r.size = MAX_STRING_LEN + 1 ∧ (∃ j < r.size, r.bytes j = 0) ∧
      stringOf r.bytes r.size = stringOf (fun j => m (p + BitVec.ofNat 64 j)) MAX_STRING_LEN := by
  obtain ⟨r, k, hr, hcopy⟩ := copiesOutString_isCopyOf junk m p
  refine ⟨r, hr, hcopy.size, ⟨k, ?_, hcopy.nul⟩, ?_⟩
  · rw [hcopy.size]
    exact Nat.lt_succ_of_le hcopy.le
  · rw [hcopy.stringOf_eq]
    exact (stringOf_eq hcopy.le hcopy.nonzero hcopy.ends).symm

/-- **Back and out again.** A string that is written to the tracee is read back as it was, at the
limit as well, where no `NUL` is read. -/
theorem copyBackString_copyOutString (junk : Nat → Byte) (m : Tracee) (p : BitVec 64) (s : CString)
    (h : s.strlen ≤ MAX_STRING_LEN) :
    ∃ r, CopiesOutString junk (ptraceCopyBackString m s p) p r ∧
      stringOf r.bytes r.size = s.chars := by
  have hlt : s.strlen + 1 < 2 ^ 31 := by
    unfold MAX_STRING_LEN at h
    omega
  have hbytes : ∀ j ≤ s.strlen,
      ptraceCopyBackString m s p (p + BitVec.ofNat 64 j) = s.bytes j := by
    intro j hj
    rw [ptraceCopyBackString_eq m p hlt, stringBytes_of_lt hlt, store_add m p s.padded _ (by omega),
      if_pos (by omega), s.padded_of_le hj]
  obtain ⟨r, k, hr, hcopy⟩ := copiesOutString_isCopyOf junk (ptraceCopyBackString m s p) p
  have hk : k = s.strlen := by
    rcases Nat.lt_trichotomy k s.strlen with hlt' | heq | hgt
    · have := hcopy.ends (Nat.lt_of_lt_of_le hlt' h)
      rw [hbytes k hlt'.le] at this
      exact absurd this (s.nonzero k hlt')
    · exact heq
    · have := hcopy.nonzero s.strlen hgt
      rw [hbytes _ le_rfl] at this
      exact absurd s.nul this
  refine ⟨r, hr, hcopy.stringOf_eq.trans ?_⟩
  rw [hk]
  exact List.map_congr_left fun j hj => hbytes j (List.mem_range.mp hj).le

/-- A full word and a tail, at an odd address. -/
theorem copyBackString_copyOutString_nine : ∃ r, CopiesOutString (fun _ => 1)
    (ptraceCopyBackString (fun _ => 3) CString.nine 4097) 4097 r ∧
      stringOf r.bytes r.size = List.replicate 9 97 :=
  copyBackString_copyOutString (fun _ => 1) (fun _ => 3) 4097 CString.nine (by decide)

end SeccompPolicy
