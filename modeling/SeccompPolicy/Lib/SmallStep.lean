import Mathlib.Data.Sum.Basic
import Mathlib.Logic.Relation

/-!
# Deterministic small-step machines

A machine is its step function `σ → σ ⊕ ο`: move on to a state, or stop with an outcome.
`Halts step s o` says that the run from `s` stops with `o`, `Reaches step s t` that it passes
through `t`. Nothing is assumed of states and outcomes, and nothing of termination: a run that
does not stop has no outcome.

A step function can be evaluated, so a run on a given input is `⟨n, rfl⟩` for a number of steps.

## Rules

* `Reaches.halts_iff`: a state on the way has the outcome of the run. With `Halts.unique` every
  result about where a run ends can be put together from results about how it gets somewhere.
* `Halts.induct`: the induction of a run that stops.
* `Halts.simulate`, `Reaches.simulate`: a relation kept by the steps carries outcomes and places
  from one machine to another.
* `Halts.lockstep`, `halts_iff_of_catchUp`: the same where the machines move together, or where
  one of them catches up.
* `ReachesVia`: runs through states of one kind only, with `ReachesVia.mono` for a machine that
  takes the same steps there.
* `EndTogether`, `endTogether_iff`: two runs stop with related outcomes; for machines that agree
  on a set of states that is decided at the first state outside of it.
-/

namespace SmallStep

variable {σ τ ο π : Type*}

/-- The outcome of the run from `s`, if it stops within `n` steps. -/
def run (step : σ → σ ⊕ ο) : Nat → σ → Option ο
  | 0, _ => none
  | n + 1, s =>
    match step s with
    | .inl s' => run step n s'
    | .inr o => some o

/-- The run from `s` stops with outcome `o`. -/
def Halts (step : σ → σ ⊕ ο) (s : σ) (o : ο) : Prop := ∃ n, run step n s = some o

/-- The run from `s` passes through `t`. -/
def Reaches (step : σ → σ ⊕ ο) : σ → σ → Prop :=
  Relation.ReflTransGen fun a b => step a = .inl b

variable {step : σ → σ ⊕ ο} {s t u : σ} {o o' : ο}

/-- A step on the way to the end. -/
theorem halts_of_inl (h : step s = .inl t) : Halts step s o ↔ Halts step t o := by
  constructor
  · rintro ⟨n, hn⟩
    cases n with
    | zero => simp [run] at hn
    | succ n => exact ⟨n, by simpa [run, h] using hn⟩
  · rintro ⟨n, hn⟩
    exact ⟨n + 1, by simpa [run, h] using hn⟩

/-- A stop is an end. -/
theorem halts_of_inr (h : step s = .inr o') : Halts step s o ↔ o' = o := by
  constructor
  · rintro ⟨n, hn⟩
    cases n with
    | zero => simp [run] at hn
    | succ n => simpa [run, h] using hn
  · rintro rfl
    exact ⟨1, by simp [run, h]⟩

/-- The induction of a run that stops: the last step stops, every other one moves on. -/
@[elab_as_elim]
theorem Halts.induct {motive : ∀ s, Halts step s o → Prop}
    (stop : ∀ s (hs : step s = .inr o), motive s ((halts_of_inr hs).mpr rfl))
    (move : ∀ s t (hs : step s = .inl t) (ht : Halts step t o), motive t ht →
      motive s ((halts_of_inl hs).mpr ht)) {s : σ} (h : Halts step s o) : motive s h := by
  obtain ⟨n, hn⟩ := h
  induction n generalizing s with
  | zero => simp [run] at hn
  | succ n ih =>
    cases hs : step s with
    | inl t =>
      have ht : run step n t = some o := by simpa [run, hs] using hn
      exact move s t hs ⟨n, ht⟩ (ih ht)
    | inr o₁ =>
      have : o₁ = o := by simpa [run, hs] using hn
      exact stop s (this ▸ hs)

/-- A run has one outcome. -/
theorem Halts.unique (h : Halts step s o) (h' : Halts step s o') : o = o' := by
  induction h using Halts.induct with
  | stop s hs => exact (halts_of_inr hs).mp h'
  | move s t hs _ ih => exact ih ((halts_of_inl hs).mp h')

theorem Reaches.refl : Reaches step s s := Relation.ReflTransGen.refl

theorem Reaches.single (h : step s = .inl t) : Reaches step s t := Relation.ReflTransGen.single h

theorem Reaches.trans (h : Reaches step s t) (h' : Reaches step t u) : Reaches step s u :=
  Relation.ReflTransGen.trans h h'

theorem Reaches.head (h : step s = .inl t) (h' : Reaches step t u) : Reaches step s u :=
  Relation.ReflTransGen.head h h'

/-- A state on the way has the outcome of the run. -/
theorem Reaches.halts_iff (h : Reaches step s t) : Halts step s o ↔ Halts step t o := by
  induction h with
  | refl => exact Iff.rfl
  | tail _ hs ih => exact ih.trans (halts_of_inl hs)

theorem Reaches.halts (h : Reaches step s t) (ht : step t = .inr o) : Halts step s o :=
  h.halts_iff.mpr ((halts_of_inr ht).mpr rfl)

/-- A run that stops has a last state. -/
theorem Halts.last (h : Halts step s o) : ∃ t, Reaches step s t ∧ step t = .inr o := by
  induction h using Halts.induct with
  | stop s hs => exact ⟨s, .refl, hs⟩
  | move s t hs _ ih =>
    obtain ⟨u, hu, ho⟩ := ih
    exact ⟨u, hu.head hs, ho⟩

/-- The run from `s` passes through `t`, and through states with `P` before it. -/
def ReachesVia (step : σ → σ ⊕ ο) (P : σ → Prop) : σ → σ → Prop :=
  Relation.ReflTransGen fun a b => P a ∧ step a = .inl b

section Via

variable {P : σ → Prop}

theorem ReachesVia.refl : ReachesVia step P s s := Relation.ReflTransGen.refl

theorem ReachesVia.head (hs : P s) (h : step s = .inl t) (h' : ReachesVia step P t u) :
    ReachesVia step P s u := Relation.ReflTransGen.head ⟨hs, h⟩ h'

theorem ReachesVia.trans (h : ReachesVia step P s t) (h' : ReachesVia step P t u) :
    ReachesVia step P s u := Relation.ReflTransGen.trans h h'

theorem ReachesVia.imp {Q : σ → Prop} (hPQ : ∀ a, P a → Q a) (h : ReachesVia step P s t) :
    ReachesVia step Q s t :=
  Relation.ReflTransGen.mono (fun a _ h => ⟨hPQ a h.1, h.2⟩) _ _ h

theorem ReachesVia.reaches (h : ReachesVia step P s t) : Reaches step s t :=
  Relation.ReflTransGen.mono (fun _ _ h => h.2) _ _ h

/-- A state the run passes through has `P` or comes from `t` on. -/
theorem ReachesVia.split (h : ReachesVia step P s t) (h' : Reaches step s u) :
    P u ∨ Reaches step t u := by
  induction h using Relation.ReflTransGen.head_induction_on with
  | refl => exact .inr h'
  | head hs _ ih =>
    rcases Relation.ReflTransGen.cases_head h' with rfl | ⟨v, hv, hvu⟩
    · exact .inl hs.1
    · obtain rfl := Sum.inl.inj (hs.2.symm.trans hv)
      exact ih hvu

/-- A machine that takes the same steps at states with `P` passes through the same states. -/
theorem ReachesVia.mono {step' : σ → σ ⊕ π} (hstep : ∀ a b, P a → step a = .inl b → step' a = .inl b)
    (h : ReachesVia step P s t) : Reaches step' s t :=
  Relation.ReflTransGen.mono (fun a b h => hstep a b h.1 h.2) _ _ h

end Via

/-- **Simulation.** If every step of the first machine is matched by some steps of the second,
and every stop by a stop with a related outcome, then so is every run that stops. -/
theorem Halts.simulate {step₂ : τ → τ ⊕ π} {R : σ → τ → Prop} {F : ο → π → Prop}
    (move : ∀ a b a', R a b → step a = .inl a' → ∃ b', Reaches step₂ b b' ∧ R a' b')
    (stop : ∀ a b o, R a b → step a = .inr o → ∃ o', Halts step₂ b o' ∧ F o o')
    {b : τ} (hR : R s b) (h : Halts step s o) : ∃ o', Halts step₂ b o' ∧ F o o' := by
  induction h using Halts.induct generalizing b with
  | stop s hs => exact stop s b o hR hs
  | move s t hs _ ih =>
    obtain ⟨b', hb, hR'⟩ := move s b t hR hs
    obtain ⟨o', ho', hF⟩ := ih hR'
    exact ⟨o', hb.halts_iff.mpr ho', hF⟩

/-- A machine that only says less of how it stops. -/
theorem halts_map {f : ο → π} {r : π} :
    Halts (fun a => (step a).map id f) s r ↔ ∃ o, Halts step s o ∧ f o = r := by
  constructor
  · intro h
    induction h using Halts.induct with
    | stop s hs =>
      cases he : step s with
      | inl t => simp [he] at hs
      | inr o =>
        simp only [he, Sum.map_inr, Sum.inr.injEq] at hs
        exact ⟨o, (halts_of_inr he).mpr rfl, hs⟩
    | move s t hs _ ih =>
      cases he : step s with
      | inl u =>
        simp only [he, Sum.map_inl, id_eq, Sum.inl.injEq] at hs
        subst hs
        obtain ⟨o, ho, hf⟩ := ih
        exact ⟨o, (halts_of_inl he).mpr ho, hf⟩
      | inr o => simp [he] at hs
  · rintro ⟨o, ho, rfl⟩
    induction ho using Halts.induct with
    | stop s hs => exact (halts_of_inr (by rw [hs]; rfl)).mpr rfl
    | move s t hs _ ih => exact (halts_of_inl (by rw [hs]; rfl)).mpr ih

/-- **Lockstep.** Two machines whose steps stay related come to related outcomes. -/
theorem Halts.lockstep {step₂ : τ → τ ⊕ π} {R : σ → τ → Prop} {F : ο → π → Prop}
    (hstep : ∀ a b, R a b → Sum.LiftRel R F (step a) (step₂ b)) {b : τ} (hR : R s b)
    (h : Halts step s o) : ∃ o', Halts step₂ b o' ∧ F o o' := by
  induction h using Halts.induct generalizing b with
  | stop s hs =>
    obtain ⟨o₁, o', hF, ho₁, ho'⟩ := (hstep s b hR).exists_of_isRight_left (by rw [hs]; rfl)
    obtain rfl := Sum.inr.inj (hs.symm.trans ho₁)
    exact ⟨o', (halts_of_inr ho').mpr rfl, hF⟩
  | move s t hs _ ih =>
    obtain ⟨t₁, b', hR', ht₁, hb'⟩ := (hstep s b hR).exists_of_isLeft_left (by rw [hs]; rfl)
    obtain rfl := Sum.inl.inj (hs.symm.trans ht₁)
    obtain ⟨o', ho', hF⟩ := ih hR'
    exact ⟨o', (halts_of_inl hb').mpr ho', hF⟩

/-- The states a run passes through are matched too. -/
theorem Reaches.simulate {step₂ : τ → τ ⊕ π} {R : σ → τ → Prop}
    (move : ∀ a b a', R a b → step a = .inl a' → ∃ b', Reaches step₂ b b' ∧ R a' b')
    {b : τ} (hR : R s b) (h : Reaches step s t) : ∃ b', Reaches step₂ b b' ∧ R t b' := by
  induction h with
  | refl => exact ⟨b, .refl, hR⟩
  | tail _ hs ih =>
    obtain ⟨b₁, hb₁, hR₁⟩ := ih
    obtain ⟨b₂, hb₂, hR₂⟩ := move _ _ _ hR₁ hs
    exact ⟨b₂, hb₁.trans hb₂, hR₂⟩

/-- **Catching up.** A machine that, from related states, comes to a state from which it steps with
the other one, ends as the other one does. -/
theorem halts_iff_of_catchUp {step₂ : τ → τ ⊕ ο} {R : σ → τ → Prop}
    (hR : ∀ a b, R a b → ∃ a', Reaches step a a' ∧ Sum.LiftRel R Eq (step a') (step₂ b)) {b : τ}
    (h : R s b) : Halts step s o ↔ Halts step₂ b o := by
  constructor
  · intro hs
    obtain ⟨a', ha', hlift⟩ := hR s b h
    clear h
    induction hs using Halts.induct generalizing a' b with
    | stop s hs =>
      rcases Relation.ReflTransGen.cases_head ha' with rfl | ⟨t, ht, -⟩
      · obtain ⟨o₁, o₂, rfl, ho₁, ho₂⟩ := hlift.exists_of_isRight_left (by rw [hs]; rfl)
        obtain rfl := Sum.inr.inj (hs.symm.trans ho₁)
        exact (halts_of_inr ho₂).mpr rfl
      · rw [hs] at ht
        cases ht
    | move s t hs _ ih =>
      rcases Relation.ReflTransGen.cases_head ha' with rfl | ⟨t', ht', hrest⟩
      · obtain ⟨t₁, b₁, hR', ht₁, hb₁⟩ := hlift.exists_of_isLeft_left (by rw [hs]; rfl)
        obtain rfl := Sum.inl.inj (hs.symm.trans ht₁)
        obtain ⟨a₁, ha₁, hlift₁⟩ := hR t b₁ hR'
        exact (halts_of_inl hb₁).mpr (ih a₁ ha₁ hlift₁)
      · obtain rfl := Sum.inl.inj (hs.symm.trans ht')
        exact ih a' hrest hlift
  · intro hb
    induction hb using Halts.induct generalizing s with
    | stop b hb =>
      obtain ⟨a', ha', hlift⟩ := hR s b h
      obtain ⟨o₁, o₂, rfl, ho₁, ho₂⟩ := hlift.exists_of_isRight_right (by rw [hb]; rfl)
      obtain rfl := Sum.inr.inj (hb.symm.trans ho₂)
      exact ha'.halts ho₁
    | move b b₁ hb _ ih =>
      obtain ⟨a', ha', hlift⟩ := hR s b h
      obtain ⟨a₁, b₂, hR', ha₁, hb₂⟩ := hlift.exists_of_isLeft_right (by rw [hb]; rfl)
      obtain rfl := Sum.inl.inj (hb.symm.trans hb₂)
      exact ha'.halts_iff.mpr ((halts_of_inl ha₁).mpr (ih hR'))

/-! ## Two runs that stop -/

/-- Both runs stop, with related outcomes. -/
def EndTogether (step : σ → σ ⊕ ο) (step₂ : τ → τ ⊕ π) (F : ο → π → Prop) (a : σ) (b : τ) : Prop :=
  ∃ o o', Halts step a o ∧ Halts step₂ b o' ∧ F o o'

section Together

variable {step₂ : τ → τ ⊕ π} {F : ο → π → Prop} {a a' : σ} {b b' : τ}

/-- Steps on the one side and on the other. -/
theorem EndTogether.reaches (h : EndTogether step step₂ F a' b') (ha : Reaches step a a')
    (hb : Reaches step₂ b b') : EndTogether step step₂ F a b := by
  obtain ⟨o, o', ho, ho', hF⟩ := h
  exact ⟨o, o', ha.halts_iff.mpr ho, hb.halts_iff.mpr ho', hF⟩

theorem EndTogether.stop {o : ο} {o' : π} (ha : step a = .inr o) (hb : step₂ b = .inr o')
    (hF : F o o') : EndTogether step step₂ F a b :=
  ⟨o, o', (halts_of_inr ha).mpr rfl, (halts_of_inr hb).mpr rfl, hF⟩

end Together

/-- **Two machines that agree on `P`** end together exactly when they do so from the first state on
that is not in `P`, if there is one. -/
theorem endTogether_iff {step' : σ → σ ⊕ ο} {P : σ → Prop} {F : ο → ο → Prop}
    (hP : ∀ a, P a → step a = step' a) (hF : ∀ o, F o o) (hs : Halts step' s o) :
    EndTogether step step' F s s ↔
      ∀ t, ReachesVia step P s t → ¬ P t → EndTogether step step' F t t := by
  constructor
  · rintro ⟨o₁, o₂, h₁, h₂, h⟩ t ht _
    have ht' : Reaches step' s t := ht.mono fun a b ha hab => (hP a ha).symm.trans hab
    exact ⟨o₁, o₂, ht.reaches.halts_iff.mp h₁, ht'.halts_iff.mp h₂, h⟩
  · induction hs using Halts.induct with
    | stop s hs =>
      intro h
      by_cases hPs : P s
      · exact .stop ((hP s hPs).trans hs) hs (hF o)
      · exact h s .refl hPs
    | move s u hs _ ih =>
      intro h
      by_cases hPs : P s
      · have hs' := (hP s hPs).trans hs
        exact (ih fun t ht => h t (ht.head hPs hs')).reaches (.single hs') (.single hs)
      · exact h s .refl hPs

end SmallStep
