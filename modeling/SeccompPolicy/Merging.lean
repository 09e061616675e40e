import SeccompPolicy.Targets

/-!
# What `MergeLabels` does to any list

Source: `MergeLabels` of `IR_gen.cpp`.

`mergeLabels_scan` is about lists that branch forward only, as `IRGen` makes them. Here the list
is any one with distinct labels and no undefined target, so its runs may loop, and the argument is
about two machines instead of one reading.

A run of labels becomes its first label. The two machines are related by `Aligned`: the merged one
stands behind what is kept of the instructions the other one has passed, or on the label kept of
the run the other one is in, which is where a jump to another label of the run leads. A step of
either machine is matched by steps of the other; labels that were erased are steps of the first
machine alone.

## Results

* `settled_step`: lockstep, when the first machine is on no erased label.
* `aligned_move`, `aligned_move_back`, `aligned_stop`, `aligned_stop_back`: a simulation both
  ways.
* `mergeLabels_exact`: the runs of the two lists come to the same outcomes and pass through the
  same arguments, calls and assignments; the other instructions are kept, with their targets
  renamed; and no two labels are left next to each other.
* `retry_merged`: a loop that is entered by the second label of a run.
-/

namespace SeccompPolicy

open LabelledCode SmallStep

/-! ## The run of labels a list ends in -/

/-- The first label of the run of labels a list ends in; `prev` is that of the run it starts in. -/
def endRun (prev : Option String) : List Instruction → Option String
  | [] => prev
  | .label l :: code => endRun (some (prev.getD l)) code
  | _ :: code => endRun none code

theorem endRun_of_none {i : Instruction} (hi : i.label? = none) (prev : Option String)
    (code : List Instruction) : endRun prev (i :: code) = endRun none code := by
  cases i <;> first | rfl | cases hi

theorem endRun_append (prev : Option String) (xs ys : List Instruction) :
    endRun prev (xs ++ ys) = endRun (endRun prev xs) ys := by
  induction xs generalizing prev with
  | nil => rfl
  | cons i xs ih =>
    by_cases hi : i.label? = none
    · rw [List.cons_append, endRun_of_none hi, endRun_of_none hi, ih]
    · cases i with
      | label l => exact ih _
      | _ => exact absurd rfl hi

/-- `MergeLabels` goes on behind `xs` in the run `xs` ends in. -/
theorem eraseLabels_append (prev : Option String) (xs ys : List Instruction) :
    (eraseLabels prev (xs ++ ys)).1 =
      (eraseLabels prev xs).1 ++ (eraseLabels (endRun prev xs) ys).1 := by
  induction xs generalizing prev with
  | nil => cases prev <;> rfl
  | cons i xs ih =>
    by_cases hi : i.label? = none
    · simp only [List.cons_append, eraseLabels_of_none hi, endRun_of_none hi, ih]
    · cases i with
      | label l =>
        cases prev with
        | none => exact congrArg _ (ih (some l))
        | some p => exact ih (some p)
      | _ => exact absurd rfl hi

theorem respects_append {ρ : String → String} {prev : Option String} {xs ys : List Instruction}
    (h : Respects ρ prev (xs ++ ys)) : Respects ρ (endRun prev xs) ys := by
  induction xs generalizing prev with
  | nil => exact h
  | cons i xs ih =>
    by_cases hi : i.label? = none
    · rw [endRun_of_none hi]
      exact ih (respects_of_none hi h)
    · cases i with
      | label l =>
        cases prev with
        | none => exact ih h.2
        | some p => exact ih h.2
      | _ => exact absurd rfl hi

/-- The first label of the run a list ends in is the last thing kept. -/
theorem endRun_kept {xs : List Instruction} {p : String} (h : endRun none xs = some p) :
    ∃ E, (eraseLabels none xs).1 = E ++ [.label p] := by
  induction xs using List.reverseRecOn with
  | nil => cases h
  | append_singleton xs i ih =>
    rw [endRun_append] at h
    rw [eraseLabels_append]
    by_cases hi : i.label? = none
    · rw [endRun_of_none hi] at h
      cases h
    · cases i with
      | label l =>
        cases hr : endRun none xs with
        | none =>
          rw [hr] at h
          obtain rfl := Option.some.inj h
          exact ⟨_, rfl⟩
        | some q =>
          rw [hr] at h
          obtain rfl := Option.some.inj h
          obtain ⟨E, hE⟩ := ih hr
          exact ⟨E, by rw [hE]; simp [eraseLabels]⟩
      | _ => exact absurd rfl hi

/-! ## The shape of the merged list -/

/-- Two labels. -/
def BothLabels (i j : Instruction) : Prop := i.isLabel = true ∧ j.isLabel = true

/-- No two labels are left next to each other. -/
theorem eraseLabels_chain (code : List Instruction) (prev : Option String) :
    (eraseLabels prev code).1.IsChain (fun i j => ¬ BothLabels i j) ∧
      (prev.isSome → ∀ i ∈ (eraseLabels prev code).1.head?, i.isLabel = false) := by
  induction code generalizing prev with
  | nil => cases prev <;> simp [eraseLabels]
  | cons i code ih =>
    by_cases hi : i.label? = none
    · have hlab : i.isLabel = false := by cases i <;> first | rfl | cases hi
      simp only [eraseLabels_of_none hi]
      refine ⟨List.isChain_cons.mpr ⟨fun j _ hj => ?_, (ih none).1⟩, fun _ j hj => ?_⟩
      · exact Bool.false_ne_true (hlab.symm.trans hj.1)
      · obtain rfl := Option.some.inj hj
        exact hlab
    · cases i with
      | label l =>
        cases prev with
        | none =>
          obtain ⟨hchain, hhead⟩ := ih (some l)
          refine ⟨List.isChain_cons.mpr ⟨fun j hj hb => ?_, hchain⟩, fun h => by cases h⟩
          have := hhead rfl j hj
          rw [hb.2] at this
          cases this
        | some p => exact ih (some p)
      | _ => exact absurd rfl hi

theorem bothLabels_rename (ρ : String → String) (i j : Instruction) :
    BothLabels (i.renameTargets ρ) (j.renameTargets ρ) ↔ BothLabels i j := by
  cases i <;> cases j <;> exact Iff.rfl

/-- The other instructions stay. -/
theorem eraseLabels_others (code : List Instruction) (prev : Option String) :
    ((eraseLabels prev code).1.filter fun i => !i.isLabel) = code.filter fun i => !i.isLabel := by
  induction code generalizing prev with
  | nil => cases prev <;> rfl
  | cons i code ih =>
    by_cases hi : i.label? = none
    · simp only [eraseLabels_of_none hi, List.filter_cons, ih]
    · cases i with
      | label l => cases prev <;> exact ih _
      | _ => exact absurd rfl hi

theorem filter_rename (ρ : String → String) (code : List Instruction) :
    ((code.map (Instruction.renameTargets ρ)).filter fun i => !i.isLabel) =
      (code.filter fun i => !i.isLabel).map (Instruction.renameTargets ρ) := by
  rw [List.filter_map]
  congr 2
  funext i
  cases i <;> rfl

/-! ## The two machines -/

section Machines

variable {V : Type*} {D : Domain V} {h : Helpers V} {ρ : String → String}

/-- What is kept of a list that stands at the front. -/
def mergedFront (ρ : String → String) (pre : List Instruction) : List Instruction :=
  (eraseLabels none pre).1.map (Instruction.renameTargets ρ)

/-- What is kept of a list behind `pre`. -/
def mergedRest (ρ : String → String) (pre suf : List Instruction) : List Instruction :=
  (eraseLabels (endRun none pre) suf).1.map (Instruction.renameTargets ρ)

/-- The merged list, cut where the list is. -/
theorem merged_cut (pre suf : List Instruction) :
    mergedFront ρ (pre ++ suf) = mergedFront ρ pre ++ mergedRest ρ pre suf := by
  unfold mergedFront mergedRest
  rw [eraseLabels_append, List.map_append]

theorem mergedFront_snoc (pre : List Instruction) (i : Instruction) :
    mergedFront ρ (pre ++ [i]) = mergedFront ρ pre ++ mergedRest ρ pre [i] := merged_cut pre [i]

/-- An instruction that is no label is kept, with its targets renamed. -/
theorem mergedRest_other {i : Instruction} (hi : i.label? = none) (pre suf : List Instruction) :
    mergedRest ρ pre (i :: suf) = i.renameTargets ρ :: mergedRest ρ (pre ++ [i]) suf := by
  unfold mergedRest
  rw [endRun_append, eraseLabels_of_none hi, endRun_of_none hi]
  rfl

/-- A label that starts a run is kept. -/
theorem mergedRest_kept {pre : List Instruction} (hpre : endRun none pre = none) (l : String)
    (suf : List Instruction) :
    mergedRest ρ pre (.label l :: suf) = .label l :: mergedRest ρ (pre ++ [.label l]) suf := by
  unfold mergedRest
  rw [endRun_append, hpre]
  rfl

/-- The machine on `code` stands behind `pre`; the merged one stands behind what is kept of `pre`,
or on the last label of that, when `pre` ends in a run of labels. -/
inductive Aligned (ρ : String → String) (code : List Instruction) :
    Nat × IRState V → Nat × IRState V → Prop
  | behind {pre suf : List Instruction} {s s' : IRState V} (hcode : code = pre ++ suf)
      (hs : s.Same s') : Aligned ρ code (pre.length, s) ((mergedFront ρ pre).length, s')
  | onLabel {pre suf E : List Instruction} {p : String} {s s' : IRState V}
      (hcode : code = pre ++ suf) (hrun : endRun none pre = some p)
      (hE : mergedFront ρ pre = E ++ [.label p]) (hs : s.Same s') :
      Aligned ρ code (pre.length, s) (E.length, s')

/-- The two machines have the same arguments and the same actions behind them. -/
theorem Aligned.env {code : List Instruction} {c c' : Nat × IRState V} (h : Aligned ρ code c c') :
    c'.2.env = c.2.env := by
  cases h with
  | behind _ hs => exact hs.env
  | onLabel _ _ _ hs => exact hs.env

/-- Equal outcomes, in states that differ by the labels passed. -/
def SameOutcome (r r' : Outcome × IRState V) : Prop := r'.1 = r.1 ∧ r.2.Same r'.2

/-- The instruction the machine is on is no label that was erased. -/
def Settled (pre suf : List Instruction) : Prop :=
  ∀ l rest, suf = .label l :: rest → endRun none pre = none

/-- The machine on `code` is on a label that was erased, or it is not. -/
theorem erased_or_settled (pre suf : List Instruction) :
    (∃ l rest p, suf = .label l :: rest ∧ endRun none pre = some p) ∨ Settled pre suf := by
  cases hrun : endRun none pre with
  | none => exact .inr fun _ _ _ => hrun
  | some p =>
    by_cases hlab : ∃ l rest, suf = .label l :: rest
    · obtain ⟨l, rest, rfl⟩ := hlab
      exact .inl ⟨l, rest, p, rfl, rfl⟩
    · exact .inr fun l rest he => absurd ⟨l, rest, he⟩ hlab

/-- The machine on the label of the run passes on to what stands behind it. -/
theorem onLabel_step {code pre suf E : List Instruction} {p : String} (hcode : code = pre ++ suf)
    (hE : mergedFront ρ pre = E ++ [.label p]) (s : IRState V) :
    (irLang D h).step (mergedFront ρ code) (E.length, s) =
      .inl ((mergedFront ρ pre).length, s.record (.enter p)) := by
  rw [hcode, merged_cut, hE, List.append_assoc, List.singleton_append, Lang.step_mid]
  simp [irLang, irAct]

/-- A label that was erased is passed by the first machine alone. -/
theorem erased_step {code pre suf : List Instruction} {l p : String}
    (hcode : code = pre ++ .label l :: suf) (hrun : endRun none pre = some p) (s : IRState V) :
    (irLang D h).step code (pre.length, s) =
        .inl ((pre ++ [Instruction.label l]).length, s.record (.enter l)) ∧
      endRun none (pre ++ [.label l]) = some p ∧
      mergedFront ρ (pre ++ [.label l]) = mergedFront ρ pre := by
  refine ⟨?_, ?_, ?_⟩
  · rw [hcode, Lang.step_mid]
    simp [irLang, irAct]
  · rw [endRun_append, hrun]
    rfl
  · rw [mergedFront_snoc]
    unfold mergedRest
    rw [hrun]
    exact List.append_nil _

section Related

variable {code : List Instruction} (hnd : (irLabels code).Nodup) (hr : Respects ρ none code)
  (hdef : ∀ i ∈ code, ∀ t ∈ i.targets, t ∈ irLabels code)

include hnd hr in
/-- A jump to a label of `code` is a jump to the label kept of its run. -/
theorem jump_aligned {l : String} (hl : l ∈ irLabels code) :
    ∃ n n', (irLang D h).lastDef l code = some n ∧
      (irLang D h).lastDef (ρ l) (mergedFront ρ code) = some n' ∧
      ∀ s s' : IRState V, s.Same s' → Aligned ρ code (n, s) (n', s') := by
  obtain ⟨i, hi, hil⟩ := mem_irLabels.mp hl
  obtain rfl : i = .label l := by cases i <;> simp_all [Instruction.label?]
  obtain ⟨pre, suf, hcode⟩ := List.append_of_mem hi
  have hnd' : (irLabels (mergedFront ρ code)).Nodup := by
    unfold mergedFront
    rw [irLabels_rename]
    exact (irLabels_eraseLabels none code).nodup hnd
  have hmid : ∀ {k : String} {c xs ys : List Instruction}, c = xs ++ Instruction.label k :: ys →
      (irLabels c).Nodup → (irLang D h).lastDef k c = some xs.length := by
    intro k c xs ys hc hn
    rw [hc, irLabels_append, irLabels_cons] at hn
    rw [hc]
    exact (irLang D h).lastDef_mid rfl (List.nodup_cons.mp hn.of_append_right).1
  have hresp := respects_append (hcode ▸ hr)
  cases hrun : endRun none pre with
  | none =>
    rw [hrun] at hresp
    have hm : mergedFront ρ code =
        mergedFront ρ pre ++ .label l :: mergedRest ρ (pre ++ [.label l]) suf := by
      rw [hcode, merged_cut, mergedRest_kept hrun]
    exact ⟨_, _, hmid hcode hnd, hresp.1.symm ▸ hmid hm hnd', fun s s' hs => .behind hcode hs⟩
  | some p =>
    rw [hrun] at hresp
    obtain ⟨E, hE⟩ := endRun_kept hrun
    have hE : mergedFront ρ pre = E.map (Instruction.renameTargets ρ) ++ [.label p] := by
      unfold mergedFront
      rw [hE, List.map_append]
      rfl
    have hm : mergedFront ρ code = E.map (Instruction.renameTargets ρ) ++
        .label p :: mergedRest ρ pre (.label l :: suf) := by
      rw [hcode, merged_cut, hE, List.append_assoc, List.singleton_append]
    exact ⟨_, _, hmid hcode hnd, hresp.1.symm ▸ hmid hm hnd', fun s s' hs =>
      .onLabel hcode hrun hE hs⟩

include hnd hr hdef in
/-- **Lockstep**, when the first machine is on no erased label: both machines execute the same
instruction. -/
theorem settled_step {pre suf : List Instruction} (hcode : code = pre ++ suf)
    (hset : Settled pre suf) {s s' : IRState V} (hs : s.Same s') :
    Sum.LiftRel (Aligned ρ code) SameOutcome ((irLang D h).step code (pre.length, s))
      ((irLang D h).step (mergedFront ρ code) ((mergedFront ρ pre).length, s')) := by
  cases suf with
  | nil =>
    rw [List.append_nil] at hcode
    subst hcode
    rw [Lang.step_end, Lang.step_end]
    exact .inr ⟨rfl, hs⟩
  | cons i suf =>
    have hcode' : code = (pre ++ [i]) ++ suf := by rw [hcode, List.append_assoc]; rfl
    have hlen : pre.length + 1 = (pre ++ [i]).length := by simp
    by_cases hi : i.label? = none
    · have hm : mergedFront ρ code =
          mergedFront ρ pre ++ i.renameTargets ρ :: mergedRest ρ (pre ++ [i]) suf := by
        rw [hcode, merged_cut, mergedRest_other hi]
      have hlen' : (mergedFront ρ pre).length + 1 = (mergedFront ρ (pre ++ [i])).length := by
        rw [mergedFront_snoc, mergedRest_other hi]
        simp [mergedRest, eraseLabels]
      have ha := irAct_same (D := D) (h := h) ρ i hs
      rw [hcode, Lang.step_mid, ← hcode, hm, Lang.step_mid, ← hm]
      cases hx : irAct D h i s <;> cases hx' : irAct D h (i.renameTargets ρ) s' <;>
        simp only [hx, hx', ActSame] at ha <;> simp only [irLang, hx, hx']
      case next.next t t' =>
        rw [hlen, hlen']
        exact .inl (.behind hcode' ha)
      case jump.jump l t l' t' =>
        obtain ⟨rfl, ha⟩ := ha
        have hl := hdef i (hcode ▸ List.mem_append_right _ List.mem_cons_self) l
          (irAct_jump_targets hx)
        obtain ⟨n, n', hn, hn', hal⟩ := jump_aligned (D := D) (h := h) hnd hr hl
        simp only [irLang] at hn hn'
        rw [hn, hn']
        exact .inl (hal t t' ha)
      case stop.stop r r' => exact .inr ha
    · cases i with
      | label l =>
        have hrun := hset l suf rfl
        have hm : mergedFront ρ code =
            mergedFront ρ pre ++ .label l :: mergedRest ρ (pre ++ [.label l]) suf := by
          rw [hcode, merged_cut, mergedRest_kept hrun]
        have hlen' : (mergedFront ρ pre).length + 1 =
            (mergedFront ρ (pre ++ [.label l])).length := by
          rw [mergedFront_snoc, mergedRest_kept hrun]
          simp [mergedRest, eraseLabels]
        rw [hcode, Lang.step_mid, ← hcode, hm, Lang.step_mid, ← hm]
        simp only [irLang, irAct]
        rw [hlen, hlen']
        exact .inl (.behind hcode' (hs.record _))
      | _ => exact absurd rfl hi

include hnd hr hdef in
/-- A step of the first machine is matched by steps of the merged one. -/
theorem aligned_move {c c₁ c' : Nat × IRState V} (hal : Aligned ρ code c c')
    (hstep : (irLang D h).step code c = .inl c₁) :
    ∃ c₁', Reaches ((irLang D h).step (mergedFront ρ code)) c' c₁' ∧ Aligned ρ code c₁ c₁' := by
  cases hal with
  | @behind pre suf s s' hcode hs =>
    rcases erased_or_settled pre suf with ⟨l, rest, p, rfl, hrun⟩ | hset
    · obtain ⟨hstep', -, hfront⟩ := erased_step (D := D) (h := h) (ρ := ρ) hcode hrun s
      obtain rfl := Sum.inl.inj (hstep'.symm.trans hstep)
      refine ⟨_, .refl, ?_⟩
      rw [← hfront]
      exact .behind (hcode.trans (List.append_assoc pre [_] rest).symm) (hs.record_left l)
    · obtain ⟨a, c₁', hal, ha, hc₁'⟩ := (settled_step hnd hr hdef hcode hset hs).exists_of_isLeft_left
        (by rw [hstep]; rfl)
      obtain rfl := Sum.inl.inj (hstep.symm.trans ha)
      exact ⟨c₁', .single hc₁', hal⟩
  | @onLabel pre suf E p s s' hcode hrun hE hs =>
    rcases erased_or_settled pre suf with ⟨l, rest, p, rfl, hrun'⟩ | hset
    · obtain ⟨hstep', hend, hfront⟩ := erased_step (D := D) (h := h) (ρ := ρ) hcode hrun s
      obtain rfl := Sum.inl.inj (hstep'.symm.trans hstep)
      exact ⟨_, .refl, .onLabel (hcode.trans (List.append_assoc pre [_] rest).symm) hend
        (hfront.trans hE) (hs.record_left l)⟩
    · obtain ⟨a, c₁', hal, ha, hc₁'⟩ := (settled_step hnd hr hdef hcode hset
        (hs.record_right p)).exists_of_isLeft_left (by rw [hstep]; rfl)
      obtain rfl := Sum.inl.inj (hstep.symm.trans ha)
      exact ⟨c₁', .head (onLabel_step hcode hE s') (.single hc₁'), hal⟩

include hnd hr hdef in
/-- A stop of the first machine: the merged one stops with the same outcome. -/
theorem aligned_stop {c c' : Nat × IRState V} {o : Outcome × IRState V} (hal : Aligned ρ code c c')
    (hstep : (irLang D h).step code c = .inr o) :
    ∃ o', Halts ((irLang D h).step (mergedFront ρ code)) c' o' ∧ SameOutcome o o' := by
  cases hal with
  | @behind pre suf s s' hcode hs =>
    rcases erased_or_settled pre suf with ⟨l, rest, p, rfl, hrun⟩ | hset
    · rw [(erased_step (ρ := ρ) hcode hrun s).1] at hstep
      cases hstep
    · obtain ⟨a, o', ho, ha, ho'⟩ := (settled_step hnd hr hdef hcode hset hs).exists_of_isRight_left
        (by rw [hstep]; rfl)
      obtain rfl := Sum.inr.inj (hstep.symm.trans ha)
      exact ⟨o', (halts_of_inr ho').mpr rfl, ho⟩
  | @onLabel pre suf E p s s' hcode hrun hE hs =>
    rcases erased_or_settled pre suf with ⟨l, rest, p, rfl, hrun'⟩ | hset
    · rw [(erased_step (ρ := ρ) hcode hrun s).1] at hstep
      cases hstep
    · obtain ⟨a, o', ho, ha, ho'⟩ := (settled_step hnd hr hdef hcode hset
        (hs.record_right p)).exists_of_isRight_left (by rw [hstep]; rfl)
      obtain rfl := Sum.inr.inj (hstep.symm.trans ha)
      exact ⟨o', (halts_of_inl (onLabel_step hcode hE s')).mpr ((halts_of_inr ho').mpr rfl), ho⟩

/-- The first machine passes the erased labels it stands in front of. -/
theorem settle (suf : List Instruction) {pre : List Instruction} (hcode : code = pre ++ suf)
    {s s' : IRState V} (hs : s.Same s') : ∃ pre' suf' t, code = pre' ++ suf' ∧ Settled pre' suf' ∧
      t.Same s' ∧ mergedFront ρ pre' = mergedFront ρ pre ∧
      Reaches ((irLang D h).step code) (pre.length, s) (pre'.length, t) := by
  induction suf generalizing pre s with
  | nil => exact ⟨pre, [], s, hcode, nofun, hs, rfl, .refl⟩
  | cons i suf ih =>
    rcases erased_or_settled pre (i :: suf) with ⟨l, rest, p, he, hrun⟩ | hset
    · obtain ⟨rfl, rfl⟩ := List.cons.inj he
      obtain ⟨hstep, -, hfront⟩ := erased_step (D := D) (h := h) (ρ := ρ) hcode hrun s
      obtain ⟨pre', suf', t, hcode', hset, ht, hfront', hreach⟩ :=
        @ih (pre ++ [.label l]) (by rw [hcode, List.append_assoc]; rfl) _ (hs.record_left l)
      exact ⟨pre', suf', t, hcode', hset, ht, hfront'.trans hfront, hreach.head hstep⟩
    · exact ⟨pre, i :: suf, s, hcode, hset, hs, rfl, .refl⟩

include hnd hr hdef in
/-- A step of the merged machine is matched by steps of the first one. -/
theorem aligned_move_back {c c' c₁' : Nat × IRState V} (hal : Aligned ρ code c c')
    (hstep : (irLang D h).step (mergedFront ρ code) c' = .inl c₁') :
    ∃ c₁, Reaches ((irLang D h).step code) c c₁ ∧ Aligned ρ code c₁ c₁' := by
  cases hal with
  | @behind pre suf s s' hcode hs =>
    obtain ⟨pre', suf', t, hcode', hset, ht, hfront, hreach⟩ := settle (D := D) (h := h) suf hcode hs
    rw [← hfront] at hstep
    obtain ⟨c₁, a, hal, hc₁, ha⟩ := (settled_step hnd hr hdef hcode' hset ht).exists_of_isLeft_right
      (by rw [hstep]; rfl)
    obtain rfl := Sum.inl.inj (hstep.symm.trans ha)
    exact ⟨c₁, hreach.trans (.single hc₁), hal⟩
  | @onLabel pre suf E p s s' hcode hrun hE hs =>
    obtain rfl := Sum.inl.inj ((onLabel_step hcode hE s').symm.trans hstep)
    exact ⟨_, .refl, .behind hcode (hs.record_right p)⟩

include hnd hr hdef in
/-- A stop of the merged machine: the first one passes its erased labels, and stops. -/
theorem aligned_stop_back {c c' : Nat × IRState V} {o' : Outcome × IRState V}
    (hal : Aligned ρ code c c') (hstep : (irLang D h).step (mergedFront ρ code) c' = .inr o') :
    ∃ o, Halts ((irLang D h).step code) c o ∧ SameOutcome o o' := by
  cases hal with
  | @behind pre suf s s' hcode hs =>
    obtain ⟨pre', suf', t, hcode', hset, ht, hfront, hreach⟩ := settle (D := D) (h := h) suf hcode hs
    rw [← hfront] at hstep
    obtain ⟨o, a, ho, hc₁, ha⟩ := (settled_step hnd hr hdef hcode' hset ht).exists_of_isRight_right
      (by rw [hstep]; rfl)
    obtain rfl := Sum.inr.inj (hstep.symm.trans ha)
    exact ⟨o, hreach.halts hc₁, ho⟩
  | @onLabel pre suf E p s s' hcode hrun hE hs =>
    rw [onLabel_step hcode hE s'] at hstep
    cases hstep

end Related

end Machines

/-- **`MergeLabels` keeps the meaning and normalises**, for every list with distinct labels and no
undefined target, loops included. No two labels are left next to each other; the other instructions
are those of the list, their targets renamed to the first label of the run; every target is still
defined; and the runs of the two lists come to the same outcomes and pass through the same
arguments, calls and assignments. -/
theorem mergeLabels_exact {V : Type*} (D : Domain V) (h : Helpers V) {code : List Instruction}
    (hnd : (irLabels code).Nodup) (hdef : ∀ i ∈ code, ∀ t ∈ i.targets, t ∈ irLabels code) :
    (mergeLabels code).IsChain (fun i j => ¬ BothLabels i j) ∧
    (∃ ρ, Respects ρ none code ∧ ((mergeLabels code).filter fun i => !i.isLabel) =
      (code.filter fun i => !i.isLabel).map (Instruction.renameTargets ρ)) ∧
    (∀ i ∈ mergeLabels code, ∀ t ∈ i.targets, t ∈ irLabels (mergeLabels code)) ∧
    ∀ s : IRState V,
      (∀ o e, (∃ t, Runs D h code s (o, t) ∧ t.env = e) ↔
        ∃ t, Runs D h (mergeLabels code) s (o, t) ∧ t.env = e) ∧
      ∀ e, (∃ c, Reaches ((irLang D h).step code) (0, s) c ∧ c.2.env = e) ↔
        ∃ c, Reaches ((irLang D h).step (mergeLabels code)) (0, s) c ∧ c.2.env = e := by
  have hr := newLabelOf_respects code none hnd fun _ _ => rfl
  refine ⟨?_, ⟨_, hr, ?_⟩, mergeLabels_defined hnd hdef, fun s => ?_⟩
  · refine List.isChain_map _ |>.mpr ((eraseLabels_chain code none).1.imp fun i j hij => ?_)
    rwa [bothLabels_rename]
  · unfold mergeLabels
    rw [filter_rename, eraseLabels_others]
  · have hstart : Aligned (newLabelOf (eraseLabels none code).2) code (0, s) (0, s) :=
      @Aligned.behind _ _ code [] code s s rfl (.refl s)
    have move := fun c c' c₁ => @aligned_move V D h _ code hnd hr hdef c c₁ c'
    have stop := fun c c' o => @aligned_stop V D h _ code hnd hr hdef c c' o
    have moveBack := fun c' c c₁' => @aligned_move_back V D h _ code hnd hr hdef c c' c₁'
    have stopBack := fun c' c o' => @aligned_stop_back V D h _ code hnd hr hdef c c' o'
    refine ⟨fun o e => ⟨?_, ?_⟩, fun e => ⟨?_, ?_⟩⟩
    · rintro ⟨t, ht, rfl⟩
      obtain ⟨⟨o', t'⟩, ht', rfl, hsame⟩ := Halts.simulate move stop hstart ht
      exact ⟨t', ht', hsame.env⟩
    · rintro ⟨t', ht', rfl⟩
      obtain ⟨⟨o, t⟩, ht, rfl, hsame⟩ := Halts.simulate moveBack stopBack hstart ht'
      exact ⟨t, ht, hsame.env.symm⟩
    · rintro ⟨c, hc, rfl⟩
      obtain ⟨c', hc', hal⟩ := Reaches.simulate move hstart hc
      exact ⟨c', hc', hal.env⟩
    · rintro ⟨c', hc', rfl⟩
      obtain ⟨c, hc, hal⟩ := Reaches.simulate moveBack hstart hc'
      exact ⟨c, hc, hal.env.symm⟩

/-- Ask until the helper answers zero: a loop, entered by the second label of a run. -/
def retry : List Instruction :=
  [.label "L1", .label "L2", .call 0 "busy" ["fd"],
    .branch .NE (.call 0 "busy" ["fd"]) (.imm 0) "L2" "L3", .label "L3", .label "L4",
    .ret 1 PermType.ALLOW.val]

theorem retry_merged : ∃ t, Runs words32 (fun _ _ _ => 0) (mergeLabels retry)
    ⟨fun _ => 0, fun _ => 0, []⟩ (.verdict .ALLOW, t) ∧ t.env = ⟨fun _ => 0, [.call "busy" [0]]⟩ := by
  obtain ⟨-, -, -, hruns⟩ := @mergeLabels_exact _ words32 (fun _ _ _ => 0) retry (by decide)
    (by decide)
  exact ((hruns _).1 _ _).mp ⟨_, ⟨7, rfl⟩, rfl⟩

end SeccompPolicy
