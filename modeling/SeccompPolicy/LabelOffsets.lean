import SeccompPolicy.BpfFilter

/-!
# The offsets `BPFTransformLabels` writes

Source: `BPFTransformLabels` of `code_gen.cpp`.

`label_2_filter` holds pointers into the list: for a label, to the element behind it, which may be
a label itself. The last loop erases the labels while it goes over the list and reads `pc` through
these pointers. Whether it reads an element that is gone depends on the list, so the loop is
modelled a second time with its reads checked: `bpfTransformLabelsChecked` has no result when an
element is read that is erased already, or that is the end of the list.

`Resolvable` is what is asked of a list: its labels are distinct, its last element is no label,
and its jumps name labels behind them. Where a jump field that is no label is `0`, as in all the
lists of the compiler, `Resolves` is what comes of it.

The offsets are exact here. Storing them in the eight bits of `sock_filter` is another step, in
`Policy`.

## Results

* `Resolvable.checked`: no round of the last loop reads what is not there.
* `Resolvable.filter`: what one round makes of a filter; only fields that name labels differ.
* `transformLabels_exact`: the filters are kept in order, and an offset of a filter that is not
  the last takes its jump forward, inside the program, to the first filter behind the label.
* `lastJump_leaves`: a last filter that jumps by a literal `0` leaves the program; no condition of
  `Resolvable` excludes it.
-/

namespace SeccompPolicy

/-! ## The loop with its reads checked -/

/-- The place in the list of the element `label_2_filter` points to. -/
def label2place (l : String) : List BPFFilter → Option Nat
  | [] => none
  | f :: fs =>
    match label2place l fs with
    | some n => some (n + 1)
    | none => if f = .label l then some 1 else none

/-- `target->pc`, read at place `j` while the last loop is at place `at_`: the labels in front are
erased. -/
def readPc (fs : List BPFFilter) (at_ j : Nat) : Option Nat :=
  match fs[j]? with
  | none => none
  | some g => if j < at_ ∧ g.isLabel = true then none else some (size (fs.take j))

/-- A jump field of the filter at place `at_`. -/
def Target.resolveChecked (fs : List BPFFilter) (at_ : Nat) : Target → Option Target
  | .num n => some (.num n)
  | .label l =>
    match label2place l fs with
    | none => some (.label l)
    | some j => (readPc fs at_ j).map fun p => .num ((p : Int) - size (fs.take at_) - 1)

/-- The `k` field of a `BPF_JA` at place `at_`. -/
def KField.resolveChecked (fs : List BPFFilter) (at_ : Nat) : KField → Option KField
  | .label l =>
    match label2place l fs with
    | none => some (.label l)
    | some j => (readPc fs at_ j).map fun p => .int ((p : Int) - size (fs.take at_) - 1)
  | k => some k

/-- The body of the last loop. -/
def BPFFilter.resolveChecked (fs : List BPFFilter) (at_ : Nat) : BPFFilter → Option BPFFilter
  | .jump op k jt jf =>
    if .JA ∈ op then (k.resolveChecked fs at_).map fun k => .jump op k jt jf
    else do
      let jt ← jt.resolveChecked fs at_
      let jf ← jf.resolveChecked fs at_
      some (.jump op k jt jf)
  | f => some f

/-- The last loop, from place `at_` on. -/
def transformChecked (fs : List BPFFilter) : Nat → List BPFFilter → Option (List BPFFilter)
  | _, [] => some []
  | at_, f :: rest =>
    if f.isLabel then transformChecked fs (at_ + 1) rest
    else do
      let f ← f.resolveChecked fs at_
      let rest ← transformChecked fs (at_ + 1) rest
      some (f :: rest)

/-- `BPFTransformLabels`, with no result when it reads an element that is not there. -/
def bpfTransformLabelsChecked (fs : List BPFFilter) : Option (List BPFFilter) :=
  transformChecked fs 0 fs

/-! ## What is asked of the list, and of the result -/

/-- The labels the last loop looks up for a filter. -/
def BPFFilter.named : BPFFilter → List String
  | .jump op k jt jf =>
    if .JA ∈ op then
      match k with
      | .label l => [l]
      | _ => []
    else [jt, jf].filterMap fun
      | .label l => some l
      | .num _ => none
  | _ => []

/-- Every label a filter names is defined behind it. -/
def NamesLater : List BPFFilter → Prop
  | [] => True
  | f :: fs => (∀ l ∈ f.named, l ∈ filterLabels fs) ∧ NamesLater fs

instance NamesLater.decidable : DecidablePred NamesLater
  | [] => inferInstanceAs (Decidable True)
  | _ :: fs =>
    have := NamesLater.decidable fs
    inferInstanceAs (Decidable (_ ∧ _))

theorem NamesLater.split {pre post : List BPFFilter} {f : BPFFilter}
    (h : NamesLater (pre ++ f :: post)) : ∀ l ∈ f.named, l ∈ filterLabels post := by
  induction pre with
  | nil => exact h.1
  | cons g pre ih => exact ih h.2

/-- A list `BPFTransformLabels` is made for. -/
structure Resolvable (fs : List BPFFilter) : Prop where
  once : (filterLabels fs).Nodup
  ends : ∀ f ∈ fs.getLast?, f.isLabel = false
  later : NamesLater fs

/-- The offset `n` takes the filter numbered `pc` forward to the first filter behind the label. -/
structure Lands (fs : List BPFFilter) (pc : Nat) (l : String) (n : Int) : Prop where
  forward : 0 ≤ n
  inside : (pc : Int) + 1 + n < size fs
  lands : ∃ p q g r, fs = p ++ .label l :: (q ++ g :: r) ∧ (∀ f ∈ q, f.isLabel = true) ∧
    g.isLabel = false ∧ (pc : Int) + 1 + n = size (p ++ .label l :: q)

/-- A jump field and what has become of it: a label is an offset to it. -/
def Target.Exact (fs : List BPFFilter) (pc : Nat) : Target → Target → Prop
  | .num n, t => t = .num n
  | .label l, t => ∃ n, t = .num n ∧ Lands fs pc l n

/-- The `k` field of a `BPF_JA` and what has become of it. -/
def KField.Exact (fs : List BPFFilter) (pc : Nat) : KField → KField → Prop
  | .label l, k => ∃ n, k = .int n ∧ Lands fs pc l n
  | k, k' => k' = k

/-- A filter numbered `pc` and what has become of it: only the fields that name labels differ. -/
def BPFFilter.Exact (fs : List BPFFilter) (pc : Nat) : BPFFilter → BPFFilter → Prop
  | .jump op k jt jf, f =>
    if .JA ∈ op then ∃ k', f = .jump op k' jt jf ∧ k.Exact fs pc k'
    else ∃ jt' jf', f = .jump op k jt' jf' ∧ jt.Exact fs pc jt' ∧ jf.Exact fs pc jf'
  | f, f' => f' = f

/-! ## Labels and places -/

theorem label2place_eq_none {l : String} {fs : List BPFFilter} (h : l ∉ filterLabels fs) :
    label2place l fs = none := by
  induction fs with
  | nil => rfl
  | cons f fs ih =>
    rw [mem_filterLabels, List.mem_cons, not_or] at h
    rw [label2place, ih (fun hm => h.2 (mem_filterLabels.mp hm)), if_neg (Ne.symm h.1)]

theorem label2place_mid {l : String} {post : List BPFFilter} (h : l ∉ filterLabels post)
    (pre : List BPFFilter) : label2place l (pre ++ .label l :: post) = some (pre.length + 1) := by
  induction pre with
  | nil => rw [List.nil_append, label2place, label2place_eq_none h, if_pos rfl]; rfl
  | cons f pre ih => rw [List.cons_append, label2place, ih]; rfl

theorem label2pc_mid {l : String} {post : List BPFFilter} (h : l ∉ filterLabels post)
    (pre : List BPFFilter) : label2pc l (pre ++ .label l :: post) = some (size pre) := by
  rw [label2pc_append, label2pc_head h]
  rfl

/-- Behind a label that is not the last element there is a filter. -/
theorem first_filter {fs : List BPFFilter} (hne : fs ≠ [])
    (hends : ∀ f ∈ fs.getLast?, f.isLabel = false) : ∃ q g r, fs = q ++ g :: r ∧
      (∀ f ∈ q, f.isLabel = true) ∧ g.isLabel = false := by
  induction fs with
  | nil => exact absurd rfl hne
  | cons f fs ih =>
    by_cases hf : f.isLabel = true
    · have hne' : fs ≠ [] := by
        rintro rfl
        rw [hends f rfl] at hf
        cases hf
      obtain ⟨q, g, r, rfl, hq, hg⟩ := ih hne' fun x hx => hends x (by
        rw [List.getLast?_cons, Option.mem_def.mp hx]
        rfl)
      refine ⟨f :: q, g, r, rfl, fun x hx => ?_, hg⟩
      rcases List.mem_cons.mp hx with rfl | hx
      · exact hf
      · exact hq x hx
    · exact ⟨[], f, fs, rfl, fun x hx => absurd hx List.not_mem_nil, by simpa using hf⟩

theorem size_labels {q : List BPFFilter} (h : ∀ f ∈ q, f.isLabel = true) : size q = 0 := by
  unfold size
  rw [List.countP_eq_zero]
  intro f hf
  simp [h f hf]

/-- **A label named by a filter**: where the list is read for it, and what is found there. -/
theorem Resolvable.label {fs : List BPFFilter} (h : Resolvable fs) {pre post : List BPFFilter}
    {f : BPFFilter} (hfs : fs = pre ++ f :: post) (hf : f.isLabel = false) {l : String}
    (hl : l ∈ f.named) : ∃ j p, label2place l fs = some j ∧ readPc fs pre.length j = some p ∧
      label2pc l fs = some p ∧ Lands fs (size pre) l ((p : Int) - size pre - 1) := by
  obtain ⟨p₁, p₂, rfl⟩ := List.append_of_mem (mem_filterLabels.mp ((hfs ▸ h.later).split l hl))
  have hsplit : fs = (pre ++ f :: p₁) ++ .label l :: p₂ := by rw [hfs]; simp
  have hp₂ : l ∉ filterLabels p₂ := by
    have := h.once
    rw [hsplit, filterLabels_append, filterLabels_label] at this
    exact (List.nodup_cons.mp this.of_append_right).1
  have hends : ∀ g ∈ (BPFFilter.label l :: p₂).getLast?, g.isLabel = false := by
    intro g hg
    refine h.ends g ?_
    rw [hsplit, List.getLast?_append, Option.mem_def.mp hg]
    rfl
  have hne : p₂ ≠ [] := by
    rintro rfl
    cases hends (.label l) rfl
  obtain ⟨q, g, r, rfl, hq, hg⟩ := first_filter hne fun x hx => hends x (by
    rw [List.getLast?_cons, Option.mem_def.mp hx]
    rfl)
  obtain ⟨front, hfront⟩ : ∃ front, front = pre ++ f :: p₁ := ⟨_, rfl⟩
  have hlen : pre.length < front.length := by
    rw [hfront, List.length_append, List.length_cons]
    omega
  have hsize : size pre + 1 ≤ size front := by
    rw [hfront, size_append, size_cons hf]
    omega
  rw [← hfront] at hsplit
  refine ⟨front.length + 1, size front, ?_, ?_, ?_, ?_⟩
  · rw [hsplit]
    exact label2place_mid hp₂ _
  · have htake : fs.take (front.length + 1) = front ++ [.label l] := by
      rw [hsplit, List.take_length_add_append]
      rfl
    obtain ⟨x, hx⟩ : ∃ x, fs[front.length + 1]? = some x := by
      rw [hsplit, List.getElem?_append_right (Nat.le_succ _), Nat.succ_sub (Nat.le_refl _),
        Nat.sub_self]
      cases q with
      | nil => exact ⟨g, rfl⟩
      | cons y q => exact ⟨y, rfl⟩
    -- the element is behind the filter, so it is not erased yet
    have hbehind : ¬ (front.length + 1 < pre.length ∧ x.isLabel = true) := by omega
    unfold readPc
    rw [hx]
    simp only [if_neg hbehind, htake, size_append, size_label, size_nil, Nat.add_zero]
  · rw [hsplit]
    exact label2pc_mid hp₂ _
  · have htotal : size fs = size front + (size r + 1) := by
      rw [hsplit, size_append, size_label, size_append, size_labels hq, size_cons hg, Nat.zero_add]
    refine ⟨by omega, by omega, front, q, g, r, hsplit, hq, hg, ?_⟩
    rw [size_append, size_label, size_labels hq]
    omega

/-! ## The result -/

section Result

variable {fs pre post : List BPFFilter} {f : BPFFilter}

theorem Resolvable.target (h : Resolvable fs) (hfs : fs = pre ++ f :: post)
    (hf : f.isLabel = false) {t : Target} (ht : ∀ l, t = .label l → l ∈ f.named) :
    t.resolveChecked fs pre.length = some (t.resolve (fun l => label2pc l fs) (size pre)) ∧
      t.Exact fs (size pre) (t.resolve (fun l => label2pc l fs) (size pre)) := by
  cases t with
  | num n => exact ⟨rfl, rfl⟩
  | label l =>
    obtain ⟨j, p, hj, hp, hpc, hlands⟩ := h.label hfs hf (ht l rfl)
    have htake : fs.take pre.length = pre := by rw [hfs, List.take_left]
    simp only [Target.resolveChecked, Target.resolve, hj, hp, hpc, htake]
    exact ⟨rfl, _, rfl, hlands⟩

theorem Resolvable.kField (h : Resolvable fs) (hfs : fs = pre ++ f :: post)
    (hf : f.isLabel = false) {k : KField} (hk : ∀ l, k = .label l → l ∈ f.named) :
    k.resolveChecked fs pre.length = some (k.resolve (fun l => label2pc l fs) (size pre)) ∧
      k.Exact fs (size pre) (k.resolve (fun l => label2pc l fs) (size pre)) := by
  cases k with
  | label l =>
    obtain ⟨j, p, hj, hp, hpc, hlands⟩ := h.label hfs hf (hk l rfl)
    have htake : fs.take pre.length = pre := by rw [hfs, List.take_left]
    simp only [KField.resolveChecked, KField.resolve, hj, hp, hpc, htake]
    exact ⟨rfl, _, rfl, hlands⟩
  | _ => exact ⟨rfl, rfl⟩

/-- One round of the last loop. -/
theorem Resolvable.filter (h : Resolvable fs) (hfs : fs = pre ++ f :: post)
    (hf : f.isLabel = false) :
    f.resolveChecked fs pre.length = some (f.resolve (fun l => label2pc l fs) (size pre)) ∧
      f.Exact fs (size pre) (f.resolve (fun l => label2pc l fs) (size pre)) := by
  cases f with
  | label l => cases hf
  | stmt op k => exact ⟨rfl, rfl⟩
  | jump op k jt jf =>
    simp only [BPFFilter.resolveChecked, BPFFilter.resolve, BPFFilter.Exact]
    by_cases hja : .JA ∈ op
    · obtain ⟨hk, hexact⟩ := h.kField hfs hf (k := k) fun l hl => by
        simp [BPFFilter.named, hja, hl]
      simp only [if_pos hja, hk, Option.map_some, true_and]
      exact ⟨_, rfl, hexact⟩
    · obtain ⟨hjt, htrue⟩ := h.target hfs hf (t := jt) fun l hl => by
        simp [BPFFilter.named, hja, hl]
      obtain ⟨hjf, hfalse⟩ := h.target hfs hf (t := jf) fun l hl => by
        simp only [BPFFilter.named, if_neg hja, hl]
        cases jt <;> simp
      simp only [if_neg hja, hjt, hjf]
      exact ⟨rfl, _, _, rfl, htrue, hfalse⟩

/-- No round of the last loop reads what is not there. -/
theorem Resolvable.checked (h : Resolvable fs) (rest : List BPFFilter) (hfs : fs = pre ++ rest) :
    transformChecked fs pre.length rest =
      some (transformFrom (fun l => label2pc l fs) (size pre) rest) := by
  induction rest generalizing pre with
  | nil => rfl
  | cons f rest ih =>
    have hnext : fs = (pre ++ [f]) ++ rest := by rw [hfs, List.append_assoc]; rfl
    have ih := ih hnext
    rw [List.length_append, size_append] at ih
    cases hf : f.isLabel with
    | true =>
      rw [size_labels (q := [f]) (by simpa using hf)] at ih
      simp only [transformChecked, transformFrom, if_pos hf]
      exact ih
    | false =>
      rw [size_cons hf] at ih
      rw [transformFrom_cons _ _ hf, transformChecked, (h.filter hfs hf).1, hf]
      simp only [Bool.false_eq_true, if_false, Option.bind_eq_bind, Option.bind_some]
      rw [show pre.length + 1 = pre.length + [f].length from rfl, ih]
      rfl

end Result

/-- The places of the filters in the result. -/
theorem transformFrom_filter (ρ : String → Option Nat) {fs : List BPFFilter} {k : Nat}
    {f : BPFFilter} (h : (fs.filter fun f => !f.isLabel)[k]? = some f) : ∃ pre post,
      fs = pre ++ f :: post ∧ f.isLabel = false ∧ size pre = k ∧
      (transformFrom ρ 0 fs)[k]? = some (f.resolve ρ k) := by
  have hlt : k < (transformFrom ρ 0 fs).length := by
    rw [transformFrom_length, size, List.countP_eq_length_filter]
    exact (List.getElem?_eq_some_iff.mp h).1
  have hget := List.getElem?_eq_getElem hlt
  obtain ⟨pre, g, post, rfl, hg, rfl, hres⟩ := transformFrom_getElem hget
  have hpre : (pre.filter fun f => !f.isLabel).length = size pre :=
    List.countP_eq_length_filter.symm
  have hgf : g = f := by
    rw [List.filter_append, ← hpre, List.getElem?_append_right (Nat.le_refl _), Nat.sub_self,
      List.filter_cons_of_pos (by rw [hg]; rfl)] at h
    exact Option.some.inj h
  subst hgf
  rw [Nat.zero_add] at hres
  exact ⟨pre, post, rfl, hg, rfl, hget.trans (congrArg some hres)⟩

theorem resolve_isLabel (ρ : String → Option Nat) (pc : Nat) {f : BPFFilter}
    (hf : f.isLabel = false) : (f.resolve ρ pc).isLabel = false := by
  cases f with
  | label l => cases hf
  | stmt op k => rfl
  | jump op k jt jf =>
    simp only [BPFFilter.resolve]
    split <;> rfl

/-- What takes a jump on: the `k` field of a `BPF_JA`, both jump fields of another jump. -/
def BPFFilter.HasOffset (n : Int) : BPFFilter → Prop
  | .jump op k jt jf => if .JA ∈ op then k = .int n else jt = .num n ∨ jf = .num n
  | _ => False

/-- The result: nothing that is not there is read; the filters are kept in order, with offsets for
labels; and every offset of a filter that is not the last takes it forward, and not out of the
program. -/
structure Resolves (fs out : List BPFFilter) : Prop where
  checked : bpfTransformLabelsChecked fs = some out
  length : out.length = (fs.filter fun f => !f.isLabel).length
  exact : ∀ (k : Nat) (f : BPFFilter), (fs.filter fun f => !f.isLabel)[k]? = some f →
    ∃ f', out[k]? = some f' ∧ f'.isLabel = false ∧ f.Exact fs k f'
  inside : ∀ (k : Nat) (f : BPFFilter) (n : Int), out[k]? = some f → f.HasOffset n →
    k + 1 < out.length → 0 ≤ n ∧ (k : Int) + 1 + n < out.length

theorem Target.Exact.offset {fs : List BPFFilter} {pc : Nat} {t : Target} {n : Int}
    (h : t.Exact fs pc (.num n)) (hlit : ∀ n, t = .num n → n = 0) (hpc : pc + 1 < size fs) :
    0 ≤ n ∧ (pc : Int) + 1 + n < size fs := by
  cases t with
  | num m =>
    obtain rfl := Target.num.inj h
    obtain rfl := hlit _ rfl
    omega
  | label l =>
    obtain ⟨m, hm, hlands⟩ := h
    obtain rfl := Target.num.inj hm
    exact ⟨hlands.forward, hlands.inside⟩

theorem KField.Exact.offset {fs : List BPFFilter} {pc : Nat} {k : KField} {n : Int}
    (h : k.Exact fs pc (.int n)) (hlit : ∀ n, k = .int n → n = 0) (hpc : pc + 1 < size fs) :
    0 ≤ n ∧ (pc : Int) + 1 + n < size fs := by
  cases k with
  | label l =>
    obtain ⟨m, hm, hlands⟩ := h
    obtain rfl := KField.int.inj hm
    exact ⟨hlands.forward, hlands.inside⟩
  | _ =>
    obtain rfl := hlit n h.symm
    omega

/-- **Label resolution is exact**: for every list with distinct labels, whose last element is no
label, whose jumps name labels behind them, and whose literal offsets are `0`. -/
theorem transformLabels_exact {fs : List BPFFilter} (h : Resolvable fs)
    (hlit : ∀ f ∈ fs, ∀ n, f.HasOffset n → n = 0) : Resolves fs (bpfTransformLabels fs) := by
  have hlen : (bpfTransformLabels fs).length = (fs.filter fun f => !f.isLabel).length :=
    (transformFrom_length _ 0 fs).trans List.countP_eq_length_filter
  have hsize : (bpfTransformLabels fs).length = size fs := transformFrom_length _ 0 fs
  have hexact : ∀ (k : Nat) (f : BPFFilter), (fs.filter fun f => !f.isLabel)[k]? = some f →
      ∃ f', (bpfTransformLabels fs)[k]? = some f' ∧ f'.isLabel = false ∧ f.Exact fs k f' := by
    intro k f hk
    obtain ⟨pre, post, hfs, hf, rfl, hget⟩ := transformFrom_filter (fun l => label2pc l fs) hk
    exact ⟨_, hget, resolve_isLabel _ _ hf, (h.filter hfs hf).2⟩
  refine ⟨@Resolvable.checked fs [] h fs rfl, hlen, hexact, fun k f' n hk hn hlt => ?_⟩
  rw [hsize] at hlt ⊢
  obtain ⟨f, hfk⟩ : ∃ f, (fs.filter fun f => !f.isLabel)[k]? = some f :=
    ⟨_, List.getElem?_eq_getElem (hlen ▸ hsize ▸ Nat.lt_of_succ_lt hlt)⟩
  obtain ⟨f'', hk', -, hex⟩ := hexact k f hfk
  obtain rfl := Option.some.inj (hk.symm.trans hk')
  have hfm : f ∈ fs := (List.mem_filter.mp (List.mem_of_getElem? hfk)).1
  have hlit := hlit f hfm
  cases f with
  | label l =>
    obtain rfl := hex
    exact absurd hn id
  | stmt op k =>
    obtain rfl := hex
    exact absurd hn id
  | jump op k jt jf =>
    by_cases hja : .JA ∈ op
    · simp only [BPFFilter.Exact, BPFFilter.HasOffset, if_pos hja] at hex hlit
      obtain ⟨k', rfl, hkf⟩ := hex
      simp only [BPFFilter.HasOffset, if_pos hja] at hn
      subst hn
      exact hkf.offset hlit hlt
    · simp only [BPFFilter.Exact, BPFFilter.HasOffset, if_neg hja] at hex hlit
      obtain ⟨jt', jf', rfl, hjt, hjf⟩ := hex
      simp only [BPFFilter.HasOffset, if_neg hja] at hn
      rcases hn with rfl | rfl
      · exact hjt.offset (fun n hn => hlit n (.inl hn)) hlt
      · exact hjf.offset (fun n hn => hlit n (.inr hn)) hlt

/-- A check of two numbers, with two labels next to each other. -/
def twoNumbers : List BPFFilter :=
  [.jump [.JMP, .JEQ, .K] (.int 1) (.num 0) (.label "open"), .stmt [.RET, .K] .retAllow,
    .label "open", .label "L1", .jump [.JMP, .JEQ, .K] (.int 2) (.label "__deny") (.num 0),
    .stmt [.RET, .K] .retAllow, .label "__deny", .stmt [.RET, .K] .retKillProcess]

theorem twoNumbers_resolves : Resolves twoNumbers
    [.jump [.JMP, .JEQ, .K] (.int 1) (.num 0) (.num 1), .stmt [.RET, .K] .retAllow,
      .jump [.JMP, .JEQ, .K] (.int 2) (.num 1) (.num 0), .stmt [.RET, .K] .retAllow,
      .stmt [.RET, .K] .retKillProcess] := by
  refine transformLabels_exact ⟨by decide, by decide, by decide⟩ ?_
  intro f hf n hn
  simp only [twoNumbers, List.mem_cons, List.not_mem_nil, or_false] at hf
  rcases hf with rfl | rfl | rfl | rfl | rfl | rfl | rfl | rfl <;>
    simp_all [BPFFilter.HasOffset]

/-- A jump by a literal offset that is the last filter leaves the program: it asks for nothing that
`Resolvable` promises. -/
theorem lastJump_leaves : ∃ fs : List BPFFilter, Resolvable fs ∧
    (∀ f ∈ fs, ∀ n, f.HasOffset n → n = 0) ∧ ∃ (k : Nat) (f : BPFFilter) (n : Int),
      (bpfTransformLabels fs)[k]? = some f ∧ f.HasOffset n ∧
      ¬ (k : Int) + 1 + n < (bpfTransformLabels fs).length := by
  refine ⟨[.jump [.JMP, .JEQ, .K] (.int 0) (.num 0) (.num 0)], ⟨by decide, by decide, by decide⟩,
    ?_, 0, _, 0, rfl, .inl rfl, by decide⟩
  intro f hf n hn
  obtain rfl := List.mem_singleton.mp hf
  simp_all [BPFFilter.HasOffset]

end SeccompPolicy
