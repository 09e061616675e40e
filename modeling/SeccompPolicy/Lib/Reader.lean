import Mathlib.Data.List.Basic

/-!
# Readers

A machine that reads a text token by token, or stops with an error. Its step is a function
`σ → τ → Except ε σ`, and `reads` is the state after a text.

A parser made of layers has one such machine for each, and a step of the outer one that hands the
token on. The rules here are about that: what a layer reads, the machine around it reads.

## Rules

* `reads_append_ok`, `reads_snoc`: texts piece by piece.
* `reads_lift`: a machine reads what a part of it reads.
* `reads_text`: what one token keeps, a text keeps.
* `OkOr`: a value is as said, or the error is the one let pass. With `OkOr.append` and `OkOr.lift`
  a text is read piece by piece where errors of one kind are let pass.
-/

namespace Reader

variable {σ τ α ε : Type*}

/-- The state after a text. -/
def reads (step : σ → α → Except ε σ) : σ → List α → Except ε σ
  | s, [] => .ok s
  | s, t :: ts => (step s t).bind fun s' => reads step s' ts

variable {step : σ → α → Except ε σ}

@[simp] theorem reads_nil (s : σ) : reads step s [] = .ok s := rfl

theorem reads_cons {s s' : σ} {t : α} (h : step s t = .ok s') (ts : List α) :
    reads step s (t :: ts) = reads step s' ts := by
  rw [reads, h]
  rfl

theorem reads_append (s : σ) (ts us : List α) :
    reads step s (ts ++ us) = (reads step s ts).bind fun s' => reads step s' us := by
  induction ts generalizing s with
  | nil => rfl
  | cons t ts ih =>
    rw [List.cons_append, reads, reads]
    cases step s t with
    | error err => rfl
    | ok s' => exact ih s'

theorem reads_append_ok {s s' : σ} {ts : List α} (h : reads step s ts = .ok s') (us : List α) :
    reads step s (ts ++ us) = reads step s' us := by
  rw [reads_append, h]
  rfl

/-- One more token. -/
theorem reads_snoc {s s' s'' : σ} {ts : List α} {t : α} (h : reads step s ts = .ok s')
    (ht : step s' t = .ok s'') : reads step s (ts ++ [t]) = .ok s'' := by
  rw [reads_append_ok h, reads_cons ht, reads_nil]

theorem map_ok {r : Except ε τ} {f : τ → σ} {s : σ} (h : r.map f = .ok s) :
    ∃ a, r = .ok a ∧ f a = s := by
  cases r with
  | error err => cases h
  | ok a => exact ⟨a, rfl, Except.ok.inj h⟩

theorem bind_ok {r : Except ε τ} {f : τ → Except ε σ} {s : σ} (h : r.bind f = .ok s) :
    ∃ a, r = .ok a ∧ f a = .ok s := by
  cases r with
  | error err => cases h
  | ok a => exact ⟨a, rfl, h⟩

/-- A machine reads what a part of it reads. -/
theorem reads_lift {part : τ → α → Except ε τ} (g : τ → σ)
    (hstep : ∀ {a t a'}, part a t = .ok a' → step (g a) t = .ok (g a')) {a a' : τ} {ts : List α}
    (h : reads part a ts = .ok a') : reads step (g a) ts = .ok (g a') := by
  induction ts generalizing a with
  | nil =>
    obtain rfl := Except.ok.inj h
    rfl
  | cons t ts ih =>
    obtain ⟨a₁, ht, h⟩ := bind_ok h
    rw [reads_cons (hstep ht)]
    exact ih h

/-- **What a token keeps, a text keeps.** -/
theorem reads_text {Φ : List α → σ → Prop} {s s' : σ} {ts : List α} (h₀ : Φ [] s)
    (hstep : ∀ {us s t s'}, Φ us s → step s t = .ok s' → Φ (us ++ [t]) s')
    (h : reads step s ts = .ok s') : Φ ts s' := by
  suffices hall : ∀ us s, Φ us s → reads step s ts = .ok s' → Φ (us ++ ts) s' from hall [] s h₀ h
  clear h₀ h s
  induction ts with
  | nil =>
    intro us s hs h
    obtain rfl := Except.ok.inj h
    rwa [List.append_nil]
  | cons t ts ih =>
    intro us s hs h
    obtain ⟨s₁, ht, h⟩ := bind_ok h
    rw [List.append_cons]
    exact ih _ s₁ (hstep hs ht) h

/-! ## Errors of one kind let pass -/

/-- The value is as said, or the error is the one let pass. -/
def OkOr (err : ε) (r : Except ε σ) (Φ : σ → Prop) : Prop :=
  match r with
  | .ok s => Φ s
  | .error err' => err' = err

variable {err : ε}

theorem OkOr.bind {r : Except ε τ} {f : τ → Except ε σ} {Φ : τ → Prop} {Ψ : σ → Prop}
    (h : OkOr err r Φ) (hf : ∀ a, Φ a → OkOr err (f a) Ψ) : OkOr err (r.bind f) Ψ := by
  cases r with
  | ok a => exact hf a h
  | error e => exact h

theorem OkOr.mono {r : Except ε σ} {Φ Ψ : σ → Prop} (h : OkOr err r Φ) (hf : ∀ a, Φ a → Ψ a) :
    OkOr err r Ψ := by
  cases r with
  | ok a => exact hf a h
  | error e => exact h

/-- Texts one after the other. -/
theorem OkOr.append {s : σ} {ts us : List α} {Φ Ψ : σ → Prop}
    (h : OkOr err (reads step s ts) Φ) (hus : ∀ s', Φ s' → OkOr err (reads step s' us) Ψ) :
    OkOr err (reads step s (ts ++ us)) Ψ := by
  rw [reads_append]
  exact h.bind hus

theorem OkOr.cons {s : σ} {t : α} {ts : List α} {Φ Ψ : σ → Prop} (h : OkOr err (step s t) Φ)
    (hts : ∀ s', Φ s' → OkOr err (reads step s' ts) Ψ) : OkOr err (reads step s (t :: ts)) Ψ :=
  h.bind hts

theorem OkOr.of_step {s s' : σ} {t : α} {ts : List α} {Φ : σ → Prop} (h : step s t = .ok s')
    (hts : OkOr err (reads step s' ts) Φ) : OkOr err (reads step s (t :: ts)) Φ := by
  rw [reads_cons h]
  exact hts

/-- A machine reads what a part of it reads, and stops where it stops. -/
theorem OkOr.lift {part : τ → α → Except ε τ} (g : τ → σ)
    (hok : ∀ {a t a'}, part a t = .ok a' → step (g a) t = .ok (g a'))
    (herr : ∀ {a t}, part a t = .error err → step (g a) t = .error err) {a : τ} {ts : List α}
    {Φ : τ → Prop} (h : OkOr err (reads part a ts) Φ) :
    OkOr err (reads step (g a) ts) fun s => ∃ a', s = g a' ∧ Φ a' := by
  induction ts generalizing a with
  | nil => exact ⟨a, rfl, h⟩
  | cons t ts ih =>
    cases ht : part a t with
    | ok a' =>
      rw [reads_cons ht] at h
      exact .of_step (hok ht) (ih h)
    | error err' =>
      rw [reads, ht] at h
      obtain rfl : err' = err := h
      rw [reads, herr ht]
      exact rfl

end Reader
