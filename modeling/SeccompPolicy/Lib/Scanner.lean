import Mathlib.Data.Nat.Find
import Mathlib.Data.List.Basic

/-!
# Scanners

A scanner with rules takes the longest text in front that a rule accepts, and of the rules that
accept it the first. Rules are given by the texts they accept, as functions that can be evaluated;
how a rule matches is not the scanner's business.

`Munches` says what the longest text in front is, `Scans` what a whole text is read as. Both say
nothing about how it is found.

## Rules

* `munches_munch`, `scan_iff`: the scanner computes them.
* `scan_total`: every text is read when every character by itself is accepted.
* `Munches.of_stop`: two texts do not run into each other when nothing that starts with the first
  and goes on into the second is accepted.
-/

namespace Scanner

/-- A rule: the texts it accepts, and its action. -/
structure Rule (α τ : Type*) where
  accepts : List α → Bool
  action : List α → τ

variable {α τ : Type*}

/-- Some rule accepts the text. -/
def accepted (rules : List (Rule α τ)) (w : List α) : Bool := rules.any fun r => r.accepts w

/-- The length of the longest text in front that a rule accepts. -/
def munch (rules : List (Rule α τ)) (cs : List α) : Nat :=
  Nat.findGreatest (fun n => accepted rules (cs.take n) = true) cs.length

/-- The action of the first rule that accepts the text. -/
def act? (rules : List (Rule α τ)) (w : List α) : Option τ :=
  (rules.find? fun r => r.accepts w).map fun r => r.action w

/-- The actions on a text of at most so many characters; nothing when no rule matches. -/
def scanWithin (rules : List (Rule α τ)) : Nat → List α → Option (List τ)
  | _, [] => some []
  | 0, _ :: _ => none
  | fuel + 1, cs =>
    let n := munch rules cs
    if n = 0 then none
    else (act? rules (cs.take n)).bind fun t =>
      (scanWithin rules fuel (cs.drop n)).map fun ts => t :: ts

/-- The actions on a text. -/
def scan (rules : List (Rule α τ)) (cs : List α) : Option (List τ) := scanWithin rules cs.length cs

/-- The text `w` is the longest in front of `rest` that a rule accepts. -/
structure Munches (rules : List (Rule α τ)) (w rest : List α) : Prop where
  ne : w ≠ []
  accepted : accepted rules w = true
  longest : ∀ v u, rest = v ++ u → v ≠ [] → Scanner.accepted rules (w ++ v) = false

/-- What a text is read as. -/
inductive Scans (rules : List (Rule α τ)) : List α → List τ → Prop
  | nil : Scans rules [] []
  | cons {w rest : List α} {t : τ} {ts : List τ} : Munches rules w rest → act? rules w = some t →
      Scans rules rest ts → Scans rules (w ++ rest) (t :: ts)

variable {rules : List (Rule α τ)}

theorem Munches.munch_eq {w rest : List α} (h : Munches rules w rest) :
    munch rules (w ++ rest) = w.length := by
  refine (Nat.findGreatest_eq_iff).mpr ⟨by simp, fun _ => ?_, fun n hn hle hacc => ?_⟩
  · rw [List.take_left]
    exact h.accepted
  · -- a longer text in front goes on into `rest`
    have htake : (w ++ rest).take n = w ++ rest.take (n - w.length) := by
      rw [List.take_append, List.take_of_length_le (Nat.le_of_lt hn)]
    rw [List.length_append] at hle
    have hne : rest.take (n - w.length) ≠ [] := by
      rw [Ne, List.take_eq_nil_iff, not_or]
      refine ⟨by omega, ?_⟩
      rintro rfl
      simp at hle
      omega
    rw [htake, h.longest _ _ (List.take_append_drop _ rest).symm hne] at hacc
    cases hacc

/-- What `munch` finds is the longest text. -/
theorem munches_munch {cs : List α} (h : munch rules cs ≠ 0) :
    Munches rules (cs.take (munch rules cs)) (cs.drop (munch rules cs)) := by
  obtain ⟨hle, hacc, hmax⟩ := Nat.findGreatest_eq_iff.mp (rfl : munch rules cs = _)
  refine ⟨?_, hacc h, fun v u hvu hv => ?_⟩
  · rw [Ne, List.take_eq_nil_iff, not_or]
    refine ⟨h, ?_⟩
    rintro rfl
    exact h rfl
  · have hlen : (cs.drop (munch rules cs)).length = v.length + u.length := by
      rw [hvu, List.length_append]
    rw [List.length_drop] at hlen
    have hpos : 0 < v.length := List.length_pos_iff.mpr hv
    have htake : cs.take (munch rules cs) ++ v = cs.take (munch rules cs + v.length) := by
      rw [List.take_add, hvu, List.take_left]
    rw [htake, ← Bool.not_eq_true]
    exact hmax (by omega) (by omega)

theorem scanWithin_iff {fuel : Nat} {cs : List α} {ts : List τ} (hfuel : cs.length ≤ fuel) :
    scanWithin rules fuel cs = some ts ↔ Scans rules cs ts := by
  induction fuel generalizing cs ts with
  | zero =>
    obtain rfl : cs = [] := List.length_eq_zero_iff.mp (Nat.le_zero.mp hfuel)
    constructor
    · intro h
      obtain rfl := Option.some.inj h
      exact .nil
    · intro h
      generalize hcs : ([] : List α) = cs at h
      cases h with
      | nil => rfl
      | cons hw _ _ => exact absurd (List.append_eq_nil_iff.mp hcs.symm).1 hw.ne
  | succ fuel ih =>
    constructor
    · intro h
      cases cs with
      | nil =>
        obtain rfl := Option.some.inj h
        exact .nil
      | cons c cs =>
        simp only [scanWithin] at h
        split_ifs at h with hn
        obtain ⟨t, ht, h⟩ := Option.bind_eq_some_iff.mp h
        obtain ⟨ts', hts, rfl⟩ := Option.map_eq_some_iff.mp h
        have hlen : ((c :: cs).drop (munch rules (c :: cs))).length ≤ fuel := by
          rw [List.length_drop]
          omega
        have hscans := Scans.cons (munches_munch hn) ht ((ih hlen).mp hts)
        rwa [List.take_append_drop] at hscans
    · intro h
      cases h with
      | nil => rfl
      | @cons w rest t ts hw ht hrest =>
        obtain ⟨c, w', rfl⟩ := List.exists_cons_of_ne_nil hw.ne
        have hmunch := hw.munch_eq
        have hlen : rest.length ≤ fuel := by
          simp only [List.length_append, List.length_cons] at hfuel
          omega
        simp only [List.cons_append] at hmunch ⊢
        simp only [scanWithin, hmunch, List.length_cons, Nat.add_eq_zero_iff, Nat.one_ne_zero,
          and_false, if_false, List.take_succ_cons, List.drop_succ_cons, List.take_left,
          List.drop_left, ht, Option.bind_some, (ih hlen).mpr hrest, Option.map_some]

/-- **What the scanner reads.** -/
theorem scan_iff {cs : List α} {ts : List τ} : scan rules cs = some ts ↔ Scans rules cs ts :=
  scanWithin_iff (Nat.le_refl _)

theorem act?_of_accepted {w : List α} (h : accepted rules w = true) : ∃ t, act? rules w = some t := by
  obtain ⟨r, hr⟩ := Option.isSome_iff_exists.mp
    (List.find?_isSome.mpr (List.any_eq_true.mp h))
  exact ⟨r.action w, by rw [act?, hr]; rfl⟩

/-- **Every text is read** when every character by itself is accepted. -/
theorem scan_total (h : ∀ c, accepted rules [c] = true) (cs : List α) :
    ∃ ts, Scans rules cs ts := by
  induction hn : cs.length using Nat.strong_induction_on generalizing cs with
  | _ n ih =>
    cases cs with
    | nil => exact ⟨[], .nil⟩
    | cons c cs =>
      have hone : 1 ≤ munch rules (c :: cs) :=
        Nat.le_findGreatest (by simp) (by simpa using h c)
      have hw := munches_munch (Nat.one_le_iff_ne_zero.mp hone)
      obtain ⟨t, ht⟩ := act?_of_accepted hw.accepted
      have hlt : ((c :: cs).drop (munch rules (c :: cs))).length < n := by
        rw [List.length_drop, hn]
        rw [List.length_cons] at hn
        omega
      obtain ⟨ts, hts⟩ := ih _ hlt _ rfl
      refine ⟨t :: ts, ?_⟩
      have hscans := Scans.cons hw ht hts
      rwa [List.take_append_drop] at hscans

/-- A text is the longest when what follows stops it. -/
theorem Munches.of_stop {w rest : List α} (hne : w ≠ []) (hacc : Scanner.accepted rules w = true)
    (hstop : ∀ c, rest.head? = some c → ∀ v, Scanner.accepted rules (w ++ c :: v) = false) :
    Munches rules w rest := by
  refine ⟨hne, hacc, fun v u hvu hv => ?_⟩
  obtain ⟨c, v', rfl⟩ := List.exists_cons_of_ne_nil hv
  exact hstop c (by rw [hvu]; rfl) v'

end Scanner
