import Mathlib.Data.List.Basic
import SeccompPolicy.Lib.DoWhile

/-!
# Saturation by sweeps

A set is grown from a list of candidates: a sweep goes through the candidates once and adds each
one that `ok` admits given what is in the set already; sweeps are repeated until one adds nothing,
which is a loop of `Lib.DoWhile`.

`ok` need not be monotone for the loop to stop: as many sweeps as there are candidates are enough.
Nor need the candidates be distinct.

## Rules

* `saturate_loop`: the sweeps end.
* `loop_closed`: where they end, the set admits no candidate it lacks.
* `loop_least`: it has every property that admission preserves. With a monotone `ok` it is the
  least closed set, whatever the order of the candidates.
-/

namespace Saturate

variable {α : Type*} [DecidableEq α] (ok : List α → α → Bool)

/-- One sweep over the candidates: the set it leaves, and whether it added anything. -/
def sweep : List α → List α → List α × Bool
  | [], S => (S, false)
  | b :: cs, S =>
    if b ∈ S then sweep cs S
    else if ok S b then ((sweep cs (S ++ [b])).1, true)
    else sweep cs S

/-- Sweeps until one adds nothing, at most `fuel` of them. -/
def saturate : Nat → List α → List α → List α
  | 0, _, S => S
  | fuel + 1, cs, S =>
    let r := sweep ok cs S
    if r.2 then saturate fuel cs r.1 else r.1

variable {ok}

theorem sweep_mono (cs S : List α) : ∀ x ∈ S, x ∈ (sweep ok cs S).1 := by
  induction cs generalizing S with
  | nil => exact fun x hx => hx
  | cons b cs ih =>
    intro x hx
    simp only [sweep]
    split_ifs
    · exact ih S x hx
    · exact ih _ x (List.mem_append_left _ hx)
    · exact ih S x hx

/-- A sweep that adds nothing leaves the set, which then admits no candidate it lacks. -/
theorem sweep_same (cs S : List α) (h : (sweep ok cs S).2 = false) :
    (sweep ok cs S).1 = S ∧ ∀ b ∈ cs, ok S b = true → b ∈ S := by
  induction cs generalizing S with
  | nil => exact ⟨rfl, fun b hb => absurd hb List.not_mem_nil⟩
  | cons c cs ih =>
    simp only [sweep] at h ⊢
    by_cases hc : c ∈ S
    · rw [if_pos hc] at h ⊢
      obtain ⟨h1, h2⟩ := ih S h
      refine ⟨h1, fun b hb hok => ?_⟩
      rcases List.mem_cons.mp hb with rfl | hb
      · exact hc
      · exact h2 b hb hok
    · rw [if_neg hc] at h ⊢
      by_cases hok : ok S c = true
      · rw [if_pos hok] at h
        exact absurd h (by simp)
      · rw [if_neg hok] at h ⊢
        obtain ⟨h1, h2⟩ := ih S h
        refine ⟨h1, fun b hb hb' => ?_⟩
        rcases List.mem_cons.mp hb with rfl | hb
        · exact absurd hb' hok
        · exact h2 b hb hb'

/-- A sweep that reports a change has added a candidate. -/
theorem sweep_changed (cs S : List α) (h : (sweep ok cs S).2 = true) :
    ∃ b ∈ cs, b ∉ S ∧ b ∈ (sweep ok cs S).1 := by
  induction cs generalizing S with
  | nil => exact absurd h (by simp [sweep])
  | cons c cs ih =>
    simp only [sweep] at h ⊢
    split_ifs at h ⊢ with hc hok
    · obtain ⟨b, hb, h1, h2⟩ := ih S h
      exact ⟨b, List.mem_cons_of_mem c hb, h1, h2⟩
    · exact ⟨c, List.mem_cons_self, hc, sweep_mono cs _ c (by simp)⟩
    · obtain ⟨b, hb, h1, h2⟩ := ih S h
      exact ⟨b, List.mem_cons_of_mem c hb, h1, h2⟩

/-- The candidates a set lacks. -/
def missing (cs S : List α) : List α := cs.filter fun b => b ∉ S

/-- Fewer candidates are missing after a sweep that adds one. -/
theorem missing_lt {cs S T : List α} (hsub : ∀ x ∈ S, x ∈ T) (hnew : ∃ b ∈ cs, b ∉ S ∧ b ∈ T) :
    (missing cs T).length < (missing cs S).length := by
  have hsubl : (missing cs T).Sublist (missing cs S) := by
    refine List.monotone_filter_right cs fun x hx => ?_
    simp only [decide_eq_true_eq] at hx ⊢
    exact fun hS => hx (hsub x hS)
  refine Nat.lt_of_le_of_ne hsubl.length_le fun he => ?_
  obtain ⟨b, hb, hS, hT⟩ := hnew
  have hmem : b ∈ missing cs S := List.mem_filter.mpr ⟨hb, by simpa using hS⟩
  rw [← hsubl.eq_of_length he] at hmem
  exact absurd hT (by simpa using (List.mem_filter.mp hmem).2)

theorem saturate_eq_run (fuel : Nat) (cs S : List α) :
    saturate ok fuel cs S = DoWhile.run (sweep ok cs) fuel S := by
  induction fuel generalizing S with
  | zero => rfl
  | succ fuel ih =>
    simp only [saturate, DoWhile.run, ih]

/-- **The sweeps end.** -/
theorem saturate_loop (fuel : Nat) (cs S : List α) (h : (missing cs S).length < fuel) :
    DoWhile.Loop (sweep ok cs) S (saturate ok fuel cs S) := by
  rw [saturate_eq_run]
  exact DoWhile.run_loop (fun S => (missing cs S).length)
    (fun S hc => missing_lt (sweep_mono cs S) (sweep_changed cs S hc)) fuel h

/-- **Where the sweeps end, the set is closed.** -/
theorem loop_closed {cs S T : List α} (h : DoWhile.Loop (sweep ok cs) S T) :
    ∀ b ∈ cs, ok T b = true → b ∈ T :=
  (sweep_same cs T (h.last fun S hc => (sweep_same cs S hc).1)).2

/-- What admission of candidates preserves holds after a sweep. -/
theorem sweep_least {T : α → Prop} (cs : List α)
    (hok : ∀ S, ∀ b ∈ cs, (∀ x ∈ S, T x) → ok S b = true → T b) (S : List α)
    (hS : ∀ x ∈ S, T x) : ∀ x ∈ (sweep ok cs S).1, T x := by
  induction cs generalizing S with
  | nil => exact hS
  | cons c cs ih =>
    have ih := ih fun S b hb => hok S b (List.mem_cons_of_mem c hb)
    simp only [sweep]
    split_ifs with hc hadd
    · exact ih S hS
    · refine ih _ fun x hx => ?_
      rcases List.mem_append.mp hx with hx | hx
      · exact hS x hx
      · rw [List.mem_singleton.mp hx]
        exact hok S c List.mem_cons_self hS hadd
    · exact ih S hS

/-- **The sweeps add nothing they need not**: what admission preserves holds where they end. -/
theorem loop_least {P : α → Prop} {cs S T : List α} (h : DoWhile.Loop (sweep ok cs) S T)
    (hok : ∀ S, ∀ b ∈ cs, (∀ x ∈ S, P x) → ok S b = true → P b) (hS : ∀ x ∈ S, P x) :
    ∀ x ∈ T, P x :=
  h.invariant (P := fun S => ∀ x ∈ S, P x) (fun S => sweep_least cs hok S) hS

end Saturate
