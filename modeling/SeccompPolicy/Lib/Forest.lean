import Mathlib.Data.List.Nodup
import Mathlib.Data.List.Perm.Basic
import Mathlib.Data.List.Flatten
import Mathlib.Data.List.Induction

/-!
# Listing a forest in depth-first order

Nodes stand in an order in which the children of a node come after it, and a node is the child of
one node at most. Visiting the nodes in that order, and with each one that is not listed yet all
nodes below it, lists the trees as a whole, in the order of their roots.

The forest is given by its list of nodes and a function for the children, as a program has it that
follows references; that it is a forest is a property (`IsForest`). A visit has a depth, and as
many as there are nodes behind is enough (`down`).

## Rules

* `visit_perm`: every node is listed once.
* `mem_listed_iff`: when a node is visited, it is listed already exactly if it has a parent.
* `exists_root`, `root_unique`: a node is below one root.
* `behind`, `behind_kid`, `behind_cons`: what is left of the roots after the tree of a node.
-/

namespace Forest

variable {α : Type*}

/-- A node and the nodes below it, down to a depth. -/
def below (kids : α → List α) : Nat → α → List α
  | 0, _ => []
  | depth + 1, y => y :: (kids y).flatMap (below kids depth)

/-- The nodes in order, each with its children behind it and with one parent at most. -/
structure IsForest (nodes : List α) (kids : α → List α) : Prop where
  nodup : nodes.Nodup
  kidsNodup : ∀ y, (kids y).Nodup
  member : ∀ y t, t ∈ kids y → y ∈ nodes
  later : ∀ pre y post, nodes = pre ++ y :: post → ∀ t ∈ kids y, t ∈ post
  parent : ∀ y z t, t ∈ kids y → t ∈ kids z → y = z

/-- A node below `y` is `y` or the child of a node below `y`. -/
theorem below_up {kids : α → List α} {depth : Nat} {x y : α} (hx : x ∈ below kids depth y) :
    x = y ∨ ∃ z ∈ below kids depth y, x ∈ kids z := by
  induction depth generalizing y with
  | zero => exact absurd hx List.not_mem_nil
  | succ depth ih =>
    refine (List.mem_cons.mp hx).imp_right fun hx => ?_
    obtain ⟨t, ht, hx⟩ := List.mem_flatMap.mp hx
    rcases ih hx with rfl | ⟨z, hz, hxz⟩
    · exact ⟨y, List.mem_cons_self, ht⟩
    · exact ⟨z, List.mem_cons_of_mem y (List.mem_flatMap.mpr ⟨t, ht, hz⟩), hxz⟩

variable [DecidableEq α] {nodes : List α} {kids : α → List α}

/-- A visit: nothing for a node that is listed. -/
def visit (kids : α → List α) (depth : Nat) (acc : List α) (y : α) : List α :=
  if y ∈ acc then acc else acc ++ below kids depth y

theorem idxOf_split {pre post : List α} {y : α} (hnd : (pre ++ y :: post).Nodup) :
    (pre ++ y :: post).idxOf y = pre.length := by
  have hy : y ∉ pre := by
    rw [List.nodup_middle, List.nodup_cons] at hnd
    exact fun h => hnd.1 (List.mem_append_left _ h)
  rw [List.idxOf_append_of_notMem hy, List.idxOf_cons_self, Nat.add_zero]

/-- What stands behind has a larger index. -/
theorem idxOf_lt_of_split (hnd : nodes.Nodup) {pre post : List α} {y t : α}
    (hsplit : nodes = pre ++ y :: post) (ht : t ∈ post) : nodes.idxOf y < nodes.idxOf t := by
  obtain ⟨mid, post, rfl⟩ := List.append_of_mem ht
  have hsplit' : nodes = (pre ++ y :: mid) ++ t :: post := by simp [hsplit]
  have hy := idxOf_split (hsplit ▸ hnd)
  have ht := idxOf_split (hsplit' ▸ hnd)
  rw [← hsplit] at hy
  rw [← hsplit'] at ht
  rw [hy, ht, List.length_append, List.length_cons]
  omega

namespace IsForest

variable (h : IsForest nodes kids)

include h

/-- A child stands behind its parent. -/
theorem idxOf_lt {y t : α} (ht : t ∈ kids y) :
    t ∈ nodes ∧ nodes.idxOf y < nodes.idxOf t := by
  obtain ⟨pre, post, hsplit⟩ := List.append_of_mem (h.member y t ht)
  have hpost := h.later pre y post hsplit t ht
  exact ⟨by simp [hsplit, hpost], idxOf_lt_of_split h.nodup hsplit hpost⟩

/-- The nodes below stand behind. -/
theorem idxOf_le {depth : Nat} {x y : α} (hy : y ∈ nodes) (hx : x ∈ below kids depth y) :
    x ∈ nodes ∧ nodes.idxOf y ≤ nodes.idxOf x := by
  induction depth generalizing y with
  | zero => exact absurd hx List.not_mem_nil
  | succ depth ih =>
    rcases List.mem_cons.mp hx with rfl | hx
    · exact ⟨hy, Nat.le_refl _⟩
    · obtain ⟨t, ht, hx⟩ := List.mem_flatMap.mp hx
      obtain ⟨htn, hlt⟩ := h.idxOf_lt ht
      obtain ⟨hxn, hle⟩ := ih htn hx
      exact ⟨hxn, by omega⟩

/-- A depth of as many nodes as stand behind `y` is enough. -/
theorem down {depth : Nat} {y : α} (hy : y ∈ nodes)
    (hdepth : nodes.length ≤ nodes.idxOf y + depth) : y ∈ below kids depth y ∧
      ∀ x ∈ below kids depth y, ∀ t ∈ kids x, t ∈ below kids depth y := by
  induction depth generalizing y with
  | zero => exact absurd (List.idxOf_lt_length_iff.mpr hy) (by omega)
  | succ depth ih =>
    refine ⟨List.mem_cons_self, fun x hx t ht => List.mem_cons_of_mem y ?_⟩
    have hkid : ∀ t ∈ kids y, t ∈ nodes ∧ nodes.length ≤ nodes.idxOf t + depth := by
      intro t ht
      obtain ⟨htn, hlt⟩ := h.idxOf_lt ht
      exact ⟨htn, by omega⟩
    rcases List.mem_cons.mp hx with rfl | hx
    · exact List.mem_flatMap.mpr ⟨t, ht, (ih (hkid t ht).1 (hkid t ht).2).1⟩
    · obtain ⟨t', ht', hx⟩ := List.mem_flatMap.mp hx
      obtain ⟨htn, hd⟩ := hkid t' ht'
      exact List.mem_flatMap.mpr ⟨t', ht', (ih htn hd).2 x hx t ht⟩

/-- Two nodes with a common node below them: one is below the other. -/
theorem linear {depth : Nat} {x t t' : α} (hx : x ∈ below kids depth t)
    (hx' : x ∈ below kids depth t') : t ∈ below kids depth t' ∨ t' ∈ below kids depth t := by
  generalize hn : nodes.idxOf x = n
  induction n using Nat.strongRecOn generalizing x with
  | ind n ih =>
    subst hn
    rcases below_up hx with rfl | ⟨z, hz, hxz⟩
    · exact .inl hx'
    rcases below_up hx' with rfl | ⟨z', hz', hxz'⟩
    · exact .inr hx
    obtain rfl := h.parent z z' x hxz hxz'
    exact ih _ (h.idxOf_lt hxz).2 hz hz' rfl

/-- The nodes below a node are listed once. -/
theorem below_nodup {depth : Nat} {y : α} (hy : y ∈ nodes) : (below kids depth y).Nodup := by
  induction depth generalizing y with
  | zero => exact List.nodup_nil
  | succ depth ih =>
    rw [below, List.nodup_cons]
    constructor
    · intro hmem
      obtain ⟨t, ht, hyt⟩ := List.mem_flatMap.mp hmem
      obtain ⟨htn, hlt⟩ := h.idxOf_lt ht
      have := (h.idxOf_le htn hyt).2
      omega
    · rw [List.nodup_flatMap]
      refine ⟨fun t ht => ih (h.idxOf_lt ht).1, ?_⟩
      -- of two children below one another, the parent would be below its child
      have key : ∀ t ∈ kids y, ∀ t' ∈ kids y, t ≠ t' → t ∉ below kids depth t' := by
        intro t ht t' ht' hne hmem
        obtain ⟨z, hz, hzt⟩ := (below_up hmem).resolve_left hne
        obtain rfl := h.parent y z t ht hzt
        have := (h.idxOf_le (h.idxOf_lt ht').1 hz).2
        have := (h.idxOf_lt ht').2
        omega
      refine (h.kidsNodup y).imp_of_mem fun {t t'} ht ht' hne x hx hx' => ?_
      rcases h.linear hx hx' with hmem | hmem
      · exact key t ht t' ht' hne hmem
      · exact key t' ht' t ht hne.symm hmem

end IsForest

/-- The nodes listed so far: none twice, those visited among them, and with a node its children and
its parent. -/
structure Listed (nodes : List α) (kids : α → List α) (pre acc : List α) : Prop where
  nodup : acc.Nodup
  nodes : ∀ x ∈ acc, x ∈ nodes
  visited : ∀ x ∈ pre, x ∈ acc
  down : ∀ x ∈ acc, ∀ t ∈ kids x, t ∈ acc
  up : ∀ t ∈ acc, ∀ z, t ∈ kids z → z ∈ acc

/-- A visit lists what is below its node, and keeps what has been listed. -/
theorem Listed.visit (h : IsForest nodes kids) {pre post acc : List α} {y : α}
    (hsplit : nodes = pre ++ y :: post) (hacc : Listed nodes kids pre acc) :
    Listed nodes kids (pre ++ [y]) (visit kids nodes.length acc y) := by
  have hy : y ∈ nodes := by simp [hsplit]
  unfold Forest.visit
  split
  · rename_i hmem
    refine ⟨hacc.nodup, hacc.nodes, fun x hx => ?_, hacc.down, hacc.up⟩
    rcases List.mem_append.mp hx with hx | hx
    · exact hacc.visited x hx
    · exact List.mem_singleton.mp hx ▸ hmem
  · rename_i hmem
    obtain ⟨hself, hdown⟩ := h.down hy (Nat.le_add_left _ _)
    -- the parent of `y` stands in front of it, and would have listed it
    have hroot : ∀ z, y ∉ kids z := by
      intro z hz
      have hlt := (h.idxOf_lt hz).2
      have hzn := h.member z y hz
      have hnd := h.nodup
      rw [hsplit] at hzn hnd hlt
      rw [idxOf_split hnd] at hlt
      have hzpre : z ∈ pre := by
        by_contra hnot
        rw [List.idxOf_append_of_notMem hnot] at hlt
        omega
      exact hmem (hacc.down z (hacc.visited z hzpre) y hz)
    have hdisjoint : ∀ x, x ∈ acc → x ∉ below kids nodes.length y := by
      intro x
      generalize hn : nodes.idxOf x = n
      induction n using Nat.strongRecOn generalizing x with
      | ind n ih =>
        subst hn
        intro hx hbelow
        rcases below_up hbelow with rfl | ⟨z, hz, hxz⟩
        · exact hmem hx
        · exact ih _ (h.idxOf_lt hxz).2 z rfl (hacc.up x hx z hxz) hz
    refine ⟨?_, fun x hx => ?_, fun x hx => ?_, fun x hx t ht => ?_, fun t ht z hz => ?_⟩
    · refine List.nodup_append.mpr ⟨hacc.nodup, h.below_nodup hy, fun x hx x' hx' he => ?_⟩
      exact hdisjoint x hx (he ▸ hx')
    · exact (List.mem_append.mp hx).elim (hacc.nodes x) fun hx => (h.idxOf_le hy hx).1
    · rcases List.mem_append.mp hx with hx | hx
      · exact List.mem_append_left _ (hacc.visited x hx)
      · exact List.mem_append_right _ (List.mem_singleton.mp hx ▸ hself)
    · exact List.mem_append.mpr ((List.mem_append.mp hx).imp (hacc.down x · t ht) (hdown x · t ht))
    · refine List.mem_append.mpr ((List.mem_append.mp ht).imp (hacc.up t · z hz) fun ht => ?_)
      rcases below_up ht with rfl | ⟨z', hz', htz'⟩
      · exact absurd hz (hroot z)
      · exact h.parent z z' t hz htz' ▸ hz'

/-- The nodes listed when those of a front part are visited. -/
theorem listed (h : IsForest nodes kids) {pre post : List α} (hsplit : nodes = pre ++ post) :
    Listed nodes kids pre (pre.foldl (visit kids nodes.length) []) := by
  induction pre using List.reverseRecOn generalizing post with
  | nil => exact ⟨List.nodup_nil, by simp, by simp, by simp, by simp⟩
  | append_singleton pre y ih =>
    rw [List.append_assoc, List.singleton_append] at hsplit
    rw [List.foldl_append, List.foldl_cons, List.foldl_nil]
    exact (ih hsplit).visit h hsplit

/-- **Every node is listed once.** -/
theorem visit_perm (h : IsForest nodes kids) :
    (nodes.foldl (visit kids nodes.length) []).Perm nodes := by
  have hall := listed h (List.append_nil nodes).symm
  exact (List.perm_ext_iff_of_nodup hall.nodup h.nodup).mpr fun x =>
    ⟨hall.nodes x, hall.visited x⟩

/-- What is visited is listed, whatever the children are. -/
theorem mem_foldl_visit {depth : Nat} (hd : depth ≠ 0) {ys acc : List α} {x : α}
    (hx : x ∈ acc ∨ x ∈ ys) : x ∈ ys.foldl (visit kids depth) acc := by
  induction ys generalizing acc with
  | nil => exact hx.resolve_right List.not_mem_nil
  | cons y ys ih =>
    refine ih ?_
    rw [List.mem_cons, ← or_assoc] at hx
    refine hx.imp_left fun hx => ?_
    rw [visit]
    split
    · rename_i hy
      exact hx.elim id fun he => he ▸ hy
    · refine List.mem_append.mpr (hx.imp_right fun he => ?_)
      obtain ⟨d, rfl⟩ := Nat.exists_eq_succ_of_ne_zero hd
      exact he ▸ List.mem_cons_self

/-- A listed node was visited, or has a parent. -/
theorem visited_or_kid (depth : Nat) (pre : List α) {x : α}
    (hx : x ∈ pre.foldl (visit kids depth) []) : x ∈ pre ∨ ∃ z, x ∈ kids z := by
  induction pre using List.reverseRecOn with
  | nil => exact absurd hx List.not_mem_nil
  | append_singleton pre y ih =>
    rw [List.foldl_append, List.foldl_cons, List.foldl_nil, visit] at hx
    split at hx
    · exact (ih hx).imp_left (List.mem_append_left _)
    · rcases List.mem_append.mp hx with hx | hx
      · exact (ih hx).imp_left (List.mem_append_left _)
      · rcases below_up hx with rfl | ⟨z, -, hxz⟩
        · exact .inl (List.mem_append_right _ (List.mem_singleton_self _))
        · exact .inr ⟨z, hxz⟩

/-- When a node is visited, it is listed exactly if it has a parent. -/
theorem mem_listed_iff (h : IsForest nodes kids) {pre post : List α} {y : α}
    (hsplit : nodes = pre ++ y :: post) :
    y ∈ pre.foldl (visit kids nodes.length) [] ↔ ∃ z, y ∈ kids z := by
  have hnd := h.nodup
  rw [hsplit, List.nodup_middle, List.nodup_cons, List.mem_append, not_or] at hnd
  constructor
  · exact fun hy => (visited_or_kid _ _ hy).resolve_left hnd.1.1
  · rintro ⟨z, hz⟩
    have hlisted := listed h hsplit
    have hzpre : z ∈ pre := by
      by_contra hnot
      have hlt := (h.idxOf_lt hz).2
      rw [hsplit, List.idxOf_append_of_notMem hnd.1.1, List.idxOf_cons_self,
        List.idxOf_append_of_notMem hnot] at hlt
      omega
    exact hlisted.down z (hlisted.visited z hzpre) y hz

/-! ## The roots -/

/-- A node that is no child. -/
def isRoot (nodes : List α) (kids : α → List α) (x : α) : Bool :=
  decide (∀ y ∈ nodes, x ∉ kids y)

/-- The roots, in order. -/
def roots (nodes : List α) (kids : α → List α) : List α := nodes.filter (isRoot nodes kids)

/-- The roots behind the one that `x` is below. -/
def behind (nodes : List α) (kids : α → List α) (x : α) : List α :=
  ((roots nodes kids).dropWhile fun r => decide (x ∉ below kids nodes.length r)).tail

namespace IsForest

variable (h : IsForest nodes kids)

include h

theorem isRoot_iff {x : α} : isRoot nodes kids x = true ↔ ∀ z, x ∉ kids z :=
  decide_eq_true_iff.trans
    ⟨fun hx z hz => hx z (h.member z x hz) hz, fun hx z _ => hx z⟩

theorem mem_roots {x : α} : x ∈ roots nodes kids ↔ x ∈ nodes ∧ ∀ z, x ∉ kids z := by
  rw [roots, List.mem_filter, h.isRoot_iff]

/-- Every node is below a root. -/
theorem exists_root {x : α} (hx : x ∈ nodes) :
    ∃ r ∈ roots nodes kids, x ∈ below kids nodes.length r := by
  generalize hn : nodes.idxOf x = n
  induction n using Nat.strongRecOn generalizing x with
  | ind n ih =>
    subst hn
    by_cases hroot : ∃ z, x ∈ kids z
    · obtain ⟨z, hz⟩ := hroot
      obtain ⟨r, hr, hzr⟩ := ih _ (h.idxOf_lt hz).2 (h.member z x hz) rfl
      exact ⟨r, hr, (h.down (h.mem_roots.mp hr).1 (Nat.le_add_left _ _)).2 z hzr x hz⟩
    · exact ⟨x, h.mem_roots.mpr ⟨hx, not_exists.mp hroot⟩, (h.down hx (Nat.le_add_left _ _)).1⟩

/-- A node is below one root. -/
theorem root_unique {q r x : α} (hq : q ∈ roots nodes kids) (hr : r ∈ roots nodes kids)
    (hxq : x ∈ below kids nodes.length q) (hxr : x ∈ below kids nodes.length r) : q = r := by
  rcases h.linear hxq hxr with hmem | hmem
  · exact (below_up hmem).resolve_right fun ⟨z, _, hz⟩ => (h.mem_roots.mp hq).2 z hz
  · exact ((below_up hmem).resolve_right fun ⟨z, _, hz⟩ => (h.mem_roots.mp hr).2 z hz).symm

theorem behind_eq {pre post : List α} {r x : α} (hsplit : roots nodes kids = pre ++ r :: post)
    (hx : x ∈ below kids nodes.length r) : behind nodes kids x = post := by
  have hnd : (roots nodes kids).Nodup := h.nodup.filter _
  have hmem : ∀ q ∈ pre ++ r :: post, q ∈ roots nodes kids := fun q hq => hsplit ▸ hq
  have hpre : ∀ q ∈ pre, decide (x ∉ below kids nodes.length q) = true := by
    intro q hq
    rw [decide_eq_true_eq]
    intro hxq
    obtain rfl := h.root_unique (hmem q (List.mem_append_left _ hq)) (hmem r (by simp)) hxq hx
    rw [hsplit, List.nodup_middle, List.nodup_cons] at hnd
    exact hnd.1 (List.mem_append_left _ hq)
  rw [behind, hsplit, List.dropWhile_append_of_pos hpre,
    List.dropWhile_cons_of_neg (by simpa using hx), List.tail_cons]

/-- A child is where its parent is. -/
theorem behind_kid {y t : α} (ht : t ∈ kids y) : behind nodes kids t = behind nodes kids y := by
  obtain ⟨r, hr, hy⟩ := h.exists_root (h.member y t ht)
  obtain ⟨pre, post, hsplit⟩ := List.append_of_mem hr
  rw [h.behind_eq hsplit hy,
    h.behind_eq hsplit ((h.down (h.mem_roots.mp hr).1 (Nat.le_add_left _ _)).2 y hy t ht)]

/-- What stands behind a node are the roots from some place on. -/
theorem behind_cons {x r : α} {rs : List α} (hx : behind nodes kids x = r :: rs) :
    r ∈ roots nodes kids ∧ behind nodes kids r = rs := by
  have hsuffix : behind nodes kids x <:+ roots nodes kids :=
    (List.tail_suffix _).trans (List.dropWhile_suffix _)
  rw [hx] at hsuffix
  obtain ⟨pre, hsplit⟩ := hsuffix
  have hr : r ∈ roots nodes kids := hsplit ▸ by simp
  exact ⟨hr, h.behind_eq hsplit.symm (h.down (h.mem_roots.mp hr).1 (Nat.le_add_left _ _)).1⟩

/-- A root that is later than a node stands behind it. -/
theorem behind_later {x r : α} (hx : x ∈ nodes) (hr : r ∈ roots nodes kids)
    (hlt : nodes.idxOf x < nodes.idxOf r) :
    ∃ mid, behind nodes kids x = mid ++ r :: behind nodes kids r := by
  obtain ⟨q, hq, hxq⟩ := h.exists_root hx
  have hle := (h.idxOf_le (h.mem_roots.mp hq).1 hxq).2
  obtain ⟨pre, post, hsplit⟩ := List.append_of_mem hq
  have hsorted : (roots nodes kids).Pairwise fun a b => nodes.idxOf a < nodes.idxOf b := by
    refine List.Pairwise.sublist List.filter_sublist (List.pairwise_iff_getElem.mpr ?_)
    intro i j hi hj hij
    rw [h.nodup.idxOf_getElem i hi, h.nodup.idxOf_getElem j hj]
    exact hij
  have hpost : r ∈ post := by
    rw [hsplit] at hr hsorted
    rcases List.mem_append.mp hr with hr | hr
    · have := (List.pairwise_append.mp hsorted).2.2 r hr q List.mem_cons_self
      omega
    · rcases List.mem_cons.mp hr with rfl | hr
      · omega
      · exact hr
  obtain ⟨mid, post, rfl⟩ := List.append_of_mem hpost
  have hself := (h.down (h.mem_roots.mp hr).1 (Nat.le_add_left _ _)).1
  have hsplit' : roots nodes kids = (pre ++ q :: mid) ++ r :: post := by simp [hsplit]
  exact ⟨mid, by rw [h.behind_eq hsplit hxq, h.behind_eq hsplit' hself]⟩

end IsForest

end Forest
