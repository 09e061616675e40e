import SeccompPolicy.Lib.SmallStep
import Mathlib.Data.List.Nodup

/-!
# Programs that are lists of instructions with labels

A language `Lang` says which items define a label and what an item does to the state: go on, jump
to a label, or stop. `step` is its machine over a whole list, where a jump goes to the last item
that defines the label (a label table filled from the front keeps the last definition).

Code that only jumps forward can also be read in one pass, `scan`: a jump to `l` skips items until
one defines `l`. A scan is a fold over the items, so it splits over `++`, and code is put together
from its parts without a program counter: this is the reading to prove a code generator by.

## Rules

* `scan_append`, `scan_append_ok`, `scan_append_error`: code behind code.
* `scan_skip`, `scan_pass`, `scan_here`, `scan_found`: code that does not define `l` is invisible
  to a scan looking for `l`; the item that does is executed.
* `halts_of_scan`: with distinct labels, the machine stops with the outcome of the scan whenever
  the scan finds every label it looks for. `Stands` is the relation between the two, at every
  place of the list.
* `halts_invariant`: what every item keeps holds at the end of a run, for any code, loops
  included.
* `lastDef_append`, `lastDef_mid`: where a label is defined.
-/

namespace LabelledCode

open SmallStep

/-- What one item does: go on to the next item, jump to a label, or stop. -/
inductive Act (L σ ο : Type*) where
  | next (s : σ)
  | jump (l : L) (s : σ)
  | stop (o : ο)

/-- The states an effect leads to satisfy `I`, its outcomes `J`. -/
def Act.Keeps {L σ ο : Type*} (I : σ → Prop) (J : ο → Prop) : Act L σ ο → Prop
  | .next s => I s
  | .jump _ s => I s
  | .stop o => J o

/-- A language of labelled code. -/
structure Lang (ι L σ ο : Type*) where
  /-- The label an item defines. -/
  label? : ι → Option L
  /-- What an item does when it is executed. -/
  act : ι → σ → Act L σ ο
  /-- The outcome of running past the last item. -/
  finish : σ → ο
  /-- The outcome of jumping to a label the code does not define. -/
  dangling : L → σ → ο

variable {ι L σ ο : Type*}

namespace Lang

variable (p : Lang ι L σ ο)

/-- The labels defined in `code`, in order. -/
def labels (code : List ι) : List L := code.filterMap p.label?

@[simp] theorem labels_nil : p.labels [] = [] := rfl

@[simp] theorem labels_append (xs ys : List ι) :
    p.labels (xs ++ ys) = p.labels xs ++ p.labels ys := List.filterMap_append

theorem labels_cons (i : ι) (code : List ι) :
    p.labels (i :: code) = (p.label? i).toList ++ p.labels code := by
  unfold labels
  cases h : p.label? i <;> simp [h]

variable [DecidableEq L]

/-- The index of the last item that defines `l`. -/
def lastDef (l : L) : List ι → Option Nat
  | [] => none
  | i :: code =>
    match lastDef l code with
    | some n => some (n + 1)
    | none => if p.label? i = some l then some 0 else none

/-- One step at index `pc` of `code`. -/
def step (code : List ι) (c : Nat × σ) : (Nat × σ) ⊕ ο :=
  match code[c.1]? with
  | none => .inr (p.finish c.2)
  | some i =>
    match p.act i c.2 with
    | .next s => .inl (c.1 + 1, s)
    | .jump l s =>
      match p.lastDef l code with
      | some n => .inl (n, s)
      | none => .inr (p.dangling l s)
    | .stop o => .inr o

/-- The machine on an item does what the item says. -/
theorem step_mid (pre suf : List ι) (i : ι) (s : σ) :
    p.step (pre ++ i :: suf) (pre.length, s) =
      match p.act i s with
      | .next s => .inl (pre.length + 1, s)
      | .jump l s =>
        match p.lastDef l (pre ++ i :: suf) with
        | some n => .inl (n, s)
        | none => .inr (p.dangling l s)
      | .stop o => .inr o := by
  simp [step]

theorem step_end (code : List ι) (s : σ) : p.step code (code.length, s) = .inr (p.finish s) := by
  simp [step]

/-- Reading `code` in one pass; the mode `some l` skips to the item that defines `l`. -/
def scan : List ι → Option L → σ → Except ο (Option L × σ)
  | [], m, s => .ok (m, s)
  | i :: code, m, s =>
    if m = none ∨ m = p.label? i then
      match p.act i s with
      | .next s' => scan code none s'
      | .jump l s' => scan code (some l) s'
      | .stop o => .error o
    else scan code m s

/-! ## Where a label is defined -/

theorem lastDef_append (l : L) (xs ys : List ι) :
    p.lastDef l (xs ++ ys) =
      match p.lastDef l ys with
      | some n => some (n + xs.length)
      | none => p.lastDef l xs := by
  induction xs with
  | nil => cases h : p.lastDef l ys <;> simp [lastDef, h]
  | cons i xs ih =>
    rw [List.cons_append, lastDef, ih]
    cases h : p.lastDef l ys with
    | some n => simp [Nat.add_assoc]
    | none => simp [lastDef]

theorem lastDef_eq_none {l : L} {code : List ι} : p.lastDef l code = none ↔ l ∉ p.labels code := by
  induction code with
  | nil => simp [lastDef]
  | cons i code ih =>
    rw [lastDef, labels_cons, List.mem_append, not_or, ← ih]
    cases h : p.lastDef l code with
    | some n => simp
    | none =>
      by_cases hi : p.label? i = some l
      · simp [hi]
      · simp only [if_neg hi, true_iff, and_true, Option.mem_toList]
        exact hi

theorem lastDef_isSome {l : L} {code : List ι} (h : l ∈ p.labels code) :
    ∃ n, p.lastDef l code = some n := by
  cases hn : p.lastDef l code with
  | some n => exact ⟨n, rfl⟩
  | none => exact absurd h (p.lastDef_eq_none.mp hn)

/-- A label not defined after `i` is found at `i` when `i` defines it. -/
theorem lastDef_mid {l : L} {pre code : List ι} {i : ι} (hi : p.label? i = some l)
    (hl : l ∉ p.labels code) : p.lastDef l (pre ++ i :: code) = some pre.length := by
  rw [lastDef_append, lastDef, p.lastDef_eq_none.mpr hl]
  simp [hi]

/-! ## Invariants -/

/-- **The invariant rule**: what every item of the code keeps holds at the end of a run. -/
theorem halts_invariant {code : List ι} {I : σ → Prop} {J : ο → Prop}
    (hact : ∀ i ∈ code, ∀ s, I s → (p.act i s).Keeps I J) (hfinish : ∀ s, I s → J (p.finish s))
    (hdangling : ∀ l s, I s → J (p.dangling l s)) {c : Nat × σ} {o : ο}
    (h : Halts (p.step code) c o) (hc : I c.2) : J o := by
  have step : ∀ c : Nat × σ, I c.2 →
      match p.step code c with
      | .inl c' => I c'.2
      | .inr o => J o := by
    intro c hc
    unfold Lang.step
    cases hi : code[c.1]? with
    | none => exact hfinish _ hc
    | some i =>
      have hk := hact i (List.mem_of_getElem? hi) c.2 hc
      simp only
      cases ha : p.act i c.2 with
      | next s => rw [ha] at hk; exact hk
      | stop o => rw [ha] at hk; exact hk
      | jump l s =>
        rw [ha] at hk
        simp only
        cases p.lastDef l code with
        | none => exact hdangling l s hk
        | some n => exact hk
  induction h using Halts.induct with
  | stop c hs =>
    have := step c hc
    rwa [hs] at this
  | move c c' hs _ ih =>
    have := step c hc
    rw [hs] at this
    exact ih this

/-! ## One-pass reading -/

@[simp] theorem scan_nil (m : Option L) (s : σ) : p.scan [] m s = .ok (m, s) := rfl

theorem scan_exec (i : ι) (code : List ι) (s : σ) :
    p.scan (i :: code) none s =
      match p.act i s with
      | .next s' => p.scan code none s'
      | .jump l s' => p.scan code (some l) s'
      | .stop o => .error o := by
  simp [scan]

theorem scan_next {i : ι} {s s' : σ} (h : p.act i s = .next s') (code : List ι) :
    p.scan (i :: code) none s = p.scan code none s' := by
  simp [scan_exec, h]

theorem scan_jump {i : ι} {s s' : σ} {l : L} (h : p.act i s = .jump l s') (code : List ι) :
    p.scan (i :: code) none s = p.scan code (some l) s' := by
  simp [scan_exec, h]

theorem scan_stop {i : ι} {s : σ} {o : ο} (h : p.act i s = .stop o) (code : List ι) :
    p.scan (i :: code) none s = .error o := by
  simp [scan_exec, h]

/-- Read from its front, or looked for by its label, an item is executed. -/
theorem scan_here {i : ι} {m : Option L} (h : m = none ∨ m = p.label? i) (code : List ι) (s : σ) :
    p.scan (i :: code) m s = p.scan (i :: code) none s := by
  rw [scan, scan, if_pos h, if_pos (.inl rfl)]

theorem scan_found {i : ι} {l : L} (h : p.label? i = some l) (code : List ι) (s : σ) :
    p.scan (i :: code) (some l) s = p.scan (i :: code) none s := by
  simp [scan, h]

theorem scan_pass {i : ι} {l : L} (h : p.label? i ≠ some l) (code : List ι) (s : σ) :
    p.scan (i :: code) (some l) s = p.scan code (some l) s := by
  have : ¬ some l = p.label? i := fun e => h e.symm
  simp [scan, this]

/-- A scan looking for `l` passes over code that does not define `l`. -/
theorem scan_skip {l : L} {code : List ι} (h : l ∉ p.labels code) (s : σ) :
    p.scan code (some l) s = .ok (some l, s) := by
  induction code with
  | nil => rfl
  | cons i code ih =>
    rw [labels_cons, List.mem_append, not_or, Option.mem_toList] at h
    rw [p.scan_pass h.1, ih h.2]

/-- **A scan is a fold**: it reads `xs`, then `ys` from where `xs` left it. -/
theorem scan_append (xs ys : List ι) (m : Option L) (s : σ) :
    p.scan (xs ++ ys) m s =
      match p.scan xs m s with
      | .ok (m', s') => p.scan ys m' s'
      | .error o => .error o := by
  induction xs generalizing m s with
  | nil => rfl
  | cons i xs ih =>
    rw [List.cons_append, scan, scan]
    split
    · cases p.act i s <;> simp only [ih]
    · exact ih m s

/-- A scan that goes through `xs` goes on with `ys`. -/
theorem scan_append_ok {xs : List ι} {m m' : Option L} {s s' : σ}
    (h : p.scan xs m s = .ok (m', s')) (ys : List ι) : p.scan (xs ++ ys) m s = p.scan ys m' s' := by
  rw [scan_append, h]

/-- A scan that stops in `xs` does not see `ys`. -/
theorem scan_append_error {xs : List ι} {m : Option L} {s : σ} {o : ο}
    (h : p.scan xs m s = .error o) (ys : List ι) : p.scan (xs ++ ys) m s = .error o := by
  rw [scan_append, h]

/-- The outcome a scan stands for, when it found every label it looked for. -/
def ScanHalts (p : Lang ι L σ ο) (r : Except ο (Option L × σ)) (o : ο) : Prop :=
  match r with
  | .ok (none, s) => p.finish s = o
  | .ok (some _, _) => False
  | .error o' => o' = o

/-! ## The two readings agree -/

/-- Where the machine stands when a scan of the rest `suf` of `code` starts in mode `m`. -/
def Stands (code suf : List ι) (m : Option L) (s : σ) (c : Nat × σ) : Prop :=
  match m with
  | none => c = (code.length - suf.length, s)
  | some l => l ∈ p.labels suf ∧ ∃ k, p.lastDef l code = some k ∧ c = (k, s)

/-- A scan that looks for `l` and ends does find `l`. -/
theorem mem_labels_of_scanHalts {l : L} {code : List ι} {s : σ} {o : ο}
    (h : p.ScanHalts (p.scan code (some l) s) o) : l ∈ p.labels code := by
  by_contra hl
  rw [p.scan_skip hl] at h
  exact h

theorem halts_of_stands {code : List ι} (hnd : (p.labels code).Nodup) {o : ο} :
    ∀ (suf pre : List ι) (m : Option L) (s : σ) (c : Nat × σ), code = pre ++ suf →
      p.Stands code suf m s c → p.ScanHalts (p.scan suf m s) o → Halts (p.step code) c o
  | [], pre, m, s, c, hc, hs, ho => by
    cases m with
    | some l => exact absurd hs.1 (by simp)
    | none =>
      obtain rfl : c = (code.length, s) := by simpa [Stands] using hs
      have hstep : p.step code (code.length, s) = .inr (p.finish s) := by simp [step]
      exact (halts_of_inr hstep).mpr ho
  | i :: suf, pre, m, s, c, hc, hs, ho => by
    have hlen : code.length - (i :: suf).length = pre.length := by simp [hc]
    have hlen' : code.length - suf.length = pre.length + 1 := by
      rw [hc]; simp only [List.length_append, List.length_cons]; omega
    have hpre : code = (pre ++ [i]) ++ suf := by simp [hc]
    have hget : code[pre.length]? = some i := by simp [hc]
    -- `i` executed with the machine on it
    have exec : c = (pre.length, s) → p.ScanHalts (p.scan (i :: suf) none s) o →
        Halts (p.step code) c o := by
      rintro rfl ho
      rw [scan_exec] at ho
      cases ha : p.act i s with
      | next s' =>
        rw [ha] at ho
        have hstep : p.step code (pre.length, s) = .inl (pre.length + 1, s') := by
          simp [step, hget, ha]
        exact (halts_of_inl hstep).mpr
          (halts_of_stands hnd suf (pre ++ [i]) none s' _ hpre (by simp [Stands, hlen']) ho)
      | jump l s' =>
        rw [ha] at ho
        have hl := p.mem_labels_of_scanHalts ho
        obtain ⟨n, hn⟩ := p.lastDef_isSome hl
        have hk : p.lastDef l code = some (n + (pre ++ [i]).length) := by
          rw [hpre, lastDef_append, hn]
        have hstep : p.step code (pre.length, s) = .inl (n + (pre ++ [i]).length, s') := by
          simp only [step, hget, ha, hk]
        exact (halts_of_inl hstep).mpr
          (halts_of_stands hnd suf (pre ++ [i]) (some l) s' _ hpre ⟨hl, _, hk, rfl⟩ ho)
      | stop o' =>
        rw [ha] at ho
        have hstep : p.step code (pre.length, s) = .inr o' := by simp [step, hget, ha]
        exact (halts_of_inr hstep).mpr ho
    cases m with
    | none => exact exec (by rw [hs, hlen]) ho
    | some l =>
      obtain ⟨hl, k, hk, rfl⟩ := hs
      by_cases hi : p.label? i = some l
      · have hl' : l ∉ p.labels suf := by
          rw [hc, labels_append, List.nodup_append, labels_cons, hi] at hnd
          exact (List.nodup_cons.mp hnd.2.1).1
        have : p.lastDef l code = some pre.length := by rw [hc]; exact p.lastDef_mid hi hl'
        rw [p.scan_found hi] at ho
        exact exec (by rw [Option.some.inj (hk.symm.trans this)]) ho
      · rw [p.scan_pass hi] at ho
        rw [labels_cons, List.mem_append, Option.mem_toList] at hl
        exact halts_of_stands hnd suf (pre ++ [i]) (some l) s _ hpre
          ⟨hl.resolve_left hi, k, hk, rfl⟩ ho

/-- **Forward code runs as it reads**: with distinct labels, the machine started at the first item
stops with the outcome of the scan. -/
theorem halts_of_scan {code : List ι} (hnd : (p.labels code).Nodup) {s : σ} {o : ο}
    (h : p.ScanHalts (p.scan code none s) o) : Halts (p.step code) (0, s) o :=
  p.halts_of_stands hnd code [] none s (0, s) rfl (by simp [Stands]) h

end Lang

end LabelledCode
