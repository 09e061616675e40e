import Mathlib.Logic.Basic

/-!
# Loops that run until a round changes nothing

A round takes the state to the next and says whether it changed anything; the loop
`do changed = round(); while (changed)` repeats it until it says no. `Loop` is that loop, with no
bound on the rounds: it relates a state to another only when the loop ends there. `run` counts
rounds and can be evaluated.

The measure is for the rounds that change something only: the last round, which finds nothing to
do, need not decrease it.

## Rules

* `run_loop`: `run` follows the loop to its end when every round that changes something decreases
  a measure, for any fuel above it.
* `run_invariant`, `Loop.invariant`: what a round preserves holds at the end.
* `Loop.last`: the state at the end is one that a further round leaves as it is.
-/

namespace DoWhile

variable {α : Type*} (round : α → α × Bool)

/-- From `a` the loop ends with `c`. -/
inductive Loop : α → α → Prop
  | stop {a : α} : (round a).2 = false → Loop a (round a).1
  | again {a c : α} : (round a).2 = true → Loop (round a).1 c → Loop a c

/-- At most `fuel` rounds. -/
def run : Nat → α → α
  | 0, a => a
  | fuel + 1, a => if (round a).2 then run fuel (round a).1 else (round a).1

variable {round} {a c : α}

/-- **The loop ends** when the rounds that change something decrease a measure. -/
theorem run_loop (μ : α → Nat) (hμ : ∀ a, (round a).2 = true → μ (round a).1 < μ a) (fuel : Nat)
    (h : μ a < fuel) : Loop round a (run round fuel a) := by
  induction fuel generalizing a with
  | zero => exact absurd h (Nat.not_lt_zero _)
  | succ fuel ih =>
    unfold run
    cases hc : (round a).2 with
    | true =>
      have hlt := hμ a hc
      exact .again hc (ih (by omega))
    | false => exact .stop hc

/-- What a round preserves, any number of rounds preserve. -/
theorem run_invariant {P : α → Prop} (hP : ∀ a, P a → P (round a).1) (fuel : Nat) (ha : P a) :
    P (run round fuel a) := by
  induction fuel generalizing a with
  | zero => exact ha
  | succ fuel ih =>
    unfold run
    split
    · exact ih (hP a ha)
    · exact hP a ha

/-- What a round preserves holds at the end. -/
theorem Loop.invariant {P : α → Prop} (hP : ∀ a, P a → P (round a).1) (h : Loop round a c)
    (ha : P a) : P c := by
  induction h with
  | stop _ => exact hP _ ha
  | again _ _ ih => exact ih (hP _ ha)

/-- The state at the end is one that a further round leaves as it is. -/
theorem Loop.last (hsame : ∀ a, (round a).2 = false → (round a).1 = a) (h : Loop round a c) :
    (round c).2 = false := by
  induction h with
  | stop hc => rwa [hsame _ hc]
  | again _ _ ih => exact ih

end DoWhile
