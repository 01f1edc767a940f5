import TreeQuery.Query
import TreeQuery.Proofs.ArenaWalks

/-!
# Positions among siblings

In a well-formed tree the two n-th child tests and the structural pseudo-classes all read a
node's index in its parent's children list.
-/

namespace TreeQuery

open Selector

namespace Tree

/-- How many nodes of a list have the primary type of `x`. -/
def countSameType (t : Tree) (x : Nat) (xs : List Nat) : Nat :=
  xs.countP fun s => (t.data s).typeName == (t.data x).typeName

variable {t : Tree}

theorem sibling_isSome_iff {x p : Nat} (hp : t.parent x = some p) (k : Int) :
    (t.sibling x k).isSome ↔
      0 ≤ (t.position x : Int) + k ∧ (t.position x : Int) + k < (t.children p).length := by
  rw [Option.isSome_iff_exists]
  constructor
  · rintro ⟨a, ha⟩
    obtain ⟨p', hp', hle, hget⟩ := sibling_eq_some.mp ha
    rw [hp] at hp'
    cases hp'
    have hlt := (List.getElem?_eq_some_iff.mp hget).1
    omega
  · rintro ⟨hle, hlt⟩
    have hidx : ((t.position x : Int) + k).toNat < (t.children p).length := by omega
    exact ⟨_, sibling_eq_some.mpr ⟨p, hp, hle, List.getElem?_eq_getElem hidx⟩⟩

namespace WellFormed

variable (hwf : t.WellFormed)
include hwf

theorem position_lt {x p : Nat} (hp : t.parent x = some p) :
    t.position x < (t.children p).length :=
  (List.getElem?_eq_some_iff.mp (hwf.position hp)).1

theorem getElem?_children_eq_some_iff {x p i : Nat} (hp : t.parent x = some p) :
    (t.children p)[i]? = some x ↔ t.position x = i := by
  constructor
  · intro h
    exact (hwf.position_of_getElem? h).2
  · rintro rfl
    exact hwf.position hp

theorem getElem?_reverse_children_eq_some_iff {x p j : Nat} (hp : t.parent x = some p) :
    (t.children p).reverse[j]? = some x ↔ t.position x + j + 1 = (t.children p).length := by
  by_cases hj : j < (t.children p).length
  · rw [List.getElem?_reverse hj, hwf.getElem?_children_eq_some_iff hp]
    omega
  · rw [List.getElem?_eq_none (by simpa using hj)]
    have := hwf.position_lt hp
    simp only [reduceCtorEq, false_iff]
    omega

theorem length_siblingsBefore {x p : Nat} (hp : t.parent x = some p) :
    (t.siblingsBefore x).length = t.position x := by
  have := hwf.position_lt hp
  rw [hwf.siblingsBefore_of_parent hp, List.length_reverse, List.length_take]
  omega

theorem length_siblingsAfter {x p : Nat} (hp : t.parent x = some p) :
    (t.siblingsAfter x).length + 1 = (t.children p).length - t.position x := by
  have := hwf.position_lt hp
  rw [hwf.siblingsAfter_of_parent hp, List.length_drop]
  omega

theorem countSameType_take {x p : Nat} (hp : t.parent x = some p) :
    t.countSameType x ((t.children p).take (t.position x + 1)) =
      t.countSameType x (t.siblingsBefore x) + 1 := by
  rw [List.take_add_one, hwf.position hp, hwf.siblingsBefore_of_parent hp]
  simp [countSameType]

theorem countSameType_drop {x p : Nat} (hp : t.parent x = some p) :
    t.countSameType x ((t.children p).drop (t.position x)) =
      t.countSameType x (t.siblingsAfter x) + 1 := by
  obtain ⟨hlt, hget⟩ := List.getElem?_eq_some_iff.mp (hwf.position hp)
  rw [List.drop_eq_getElem_cons hlt, hget]
  rw [hwf.siblingsAfter_of_parent hp]
  simp only [countSameType, List.countP_cons, beq_self_eq_true, if_true]

theorem isNthChild_eq_true_iff {x : Nat} {nth : Int} :
    t.isNthChild x nth = true ↔ ∃ p, t.parent x = some p ∧
      (0 < nth ∧ t.position x + 1 = nth.natAbs ∨
        nth < 0 ∧ (t.children p).length - t.position x = nth.natAbs) := by
  cases hp : t.parent x with
  | none => simp [isNthChild, hp]
  | some p =>
    have hi := hwf.position_lt hp
    simp only [isNthChild, hp, Option.some.injEq, exists_eq_left']
    split
    · simp
      omega
    · split <;> simp <;> omega

theorem isNthChild_eq_true_iff_getElem? {x : Nat} {nth : Int} :
    t.isNthChild x nth = true ↔ ∃ p, t.parent x = some p ∧
      (0 < nth ∧ (t.children p)[nth.natAbs - 1]? = some x ∨
        nth < 0 ∧ (t.children p).reverse[nth.natAbs - 1]? = some x) := by
  rw [hwf.isNthChild_eq_true_iff]
  refine exists_congr fun p => and_congr_right fun hp => ?_
  rw [hwf.getElem?_children_eq_some_iff hp, hwf.getElem?_reverse_children_eq_some_iff hp]
  have := hwf.position_lt hp
  omega

/-- Probing siblings answers as the stored position does, except for the one `nth` the probe
cannot negate. -/
theorem isNthChildBySiblings_eq {x : Nat} {nth : Int} (hmin : nth ≠ int64Min) :
    t.isNthChildBySiblings x nth = t.isNthChild x nth := by
  cases hp : t.parent x with
  | none => simp [isNthChildBySiblings, isNthChild, hp]
  | some p =>
    have hi := hwf.position_lt hp
    have hs := sibling_isSome_iff hp
    rw [Bool.eq_iff_iff, hwf.isNthChild_eq_true_iff]
    simp only [isNthChildBySiblings, hp, Option.isNone_some, hmin, or_false, Bool.false_eq_true,
      Option.some.injEq, exists_eq_left']
    split
    · simp_all
    · rename_i hn
      simp only [Bool.and_eq_true, Bool.or_eq_true, beq_iff_eq, Option.isNone_iff_eq_none,
        ← Option.not_isSome_iff_eq_none, hs]
      -- the probes stand `nth - 1` and `nth` places before the node, or after it for negative `nth`
      rcases Int.lt_or_gt_of_ne hn with hn | hn
      · rw [Int.sign_eq_neg_one_of_neg hn]
        omega
      · rw [Int.sign_eq_one_of_pos hn]
        omega

theorem isNthChildBySiblings_eq_of_size (hsize : (t.size : Int) ≤ maxInt64) (x : Nat)
    (nth : Int) : t.isNthChildBySiblings x nth = t.isNthChild x nth := by
  by_cases hmin : nth = int64Min
  · subst hmin
    have hfalse : t.isNthChild x int64Min = false := by
      rw [Bool.eq_false_iff, ne_eq, hwf.isNthChild_eq_true_iff]
      rintro ⟨p, -, h⟩
      have hc := hwf.length_children_le p
      simp only [int64Min, maxInt64, Int.pow] at h hsize
      omega
    rw [hfalse]
    simp [isNthChildBySiblings]
  · exact hwf.isNthChildBySiblings_eq hmin

end WellFormed

end Tree

mutual

/-- Whether a step never hands a question to the tree: it is no pseudo-element and no custom
pseudo-class, and the selector of a `:not` has no such step either. -/
def Selector.Step.asksNoHook : Step → Bool
  | .pseudoElement _ _ => false
  | .custom _ _ => false
  | .negation before after => Selector.stepsAskNoHook before && Selector.stepsAskNoHook after
  | _ => true

def Selector.stepsAskNoHook : List Step → Bool
  | [] => true
  | s :: rest => s.asksNoHook && Selector.stepsAskNoHook rest

end

-- a custom pseudo-class inside a `:not` is still a question to the tree
example : (Step.negation [.universal] [.custom ":visible" ""]).asksNoHook = false := by decide

theorem stepsAskNoHook_iff {L : List Step} :
    stepsAskNoHook L = true ↔ ∀ s ∈ L, s.asksNoHook = true := by
  induction L with
  | nil => simp [stepsAskNoHook]
  | cons s rest ih => simp [stepsAskNoHook, ih]

section Hooks

variable {t : Tree} (hwf : t.WellFormed)
include hwf

theorem structuralHolds_tree_eq_defaults (p : Structural) (x : Nat) :
    structuralHolds t .tree p x = structuralHolds t .defaults p x := by
  have one : t.isNthChildBySiblings x 1 = t.isNthChild x 1 :=
    hwf.isNthChildBySiblings_eq (by decide)
  have last : t.isNthChildBySiblings x (-1) = t.isNthChild x (-1) :=
    hwf.isNthChildBySiblings_eq (by decide)
  cases p <;> simp [structuralHolds, Hooks.isNthChild, one, last]

omit hwf in
theorem searchBelow_congr_hooks {h₁ h₂ : Hooks} {rest : List Step}
    (hrest : ∀ x, walk t h₁ .down rest x = walk t h₂ .down rest x) (n x : Nat) :
    searchBelow t h₁ rest n x = searchBelow t h₂ rest n x := by
  induction n generalizing x with
  | zero => rw [searchBelow, searchBelow]
  | succ n ih => simp only [searchBelow, hrest, ih]

theorem walk_tree_eq_defaults (L : List Step) (hL : stepsAskNoHook L = true) (dir : Direction)
    (x : Nat) : walk t .tree dir L x = walk t .defaults dir L x := by
  -- on the size of the steps, since a `:not` walks its own steps before the rest
  induction hn : sizeOf L using Nat.strongRecOn generalizing L dir x with
  | _ n ih =>
    cases L with
    | nil => rw [walk, walk]
    | cons s rest =>
      simp only [stepsAskNoHook, Bool.and_eq_true] at hL
      have hrest : ∀ dir x, walk t .tree dir rest x = walk t .defaults dir rest x :=
        fun dir x => ih (sizeOf rest) (by subst hn; simp only [List.cons.sizeOf_spec]; omega)
          rest hL.2 dir x rfl
      cases s with
      | pseudoElement => simp [Step.asksNoHook] at hL
      | custom => simp [Step.asksNoHook] at hL
      | negation before after =>
        simp only [Step.asksNoHook, Bool.and_eq_true] at hL
        have hmeasure : sizeOf (Step.negation before after :: rest) =
            1 + (1 + sizeOf before + sizeOf after) + sizeOf rest := by
          simp only [List.cons.sizeOf_spec, Step.negation.sizeOf_spec]
        have hb : ∀ dir x, walk t .tree dir before x = walk t .defaults dir before x :=
          fun dir x => ih (sizeOf before) (by subst hn; omega) before hL.1.1 dir x rfl
        have ha : ∀ dir x, walk t .tree dir after x = walk t .defaults dir after x :=
          fun dir x => ih (sizeOf after) (by subst hn; omega) after hL.1.2 dir x rfl
        simp only [walk, matchSteps, hb, ha, hrest]
      | structural p => simp only [walk, structuralHolds_tree_eq_defaults hwf, hrest]
      | combinator c =>
        cases c <;> cases dir <;> simp only [walk, hrest, searchBelow_congr_hooks (hrest .down)]
      | _ => simp only [walk, hrest]

theorem matchAt_tree_eq_defaults {m : Matcher} (hm : ∀ s ∈ m.steps, s.asksNoHook = true)
    (x : Nat) : m.matchAt t .tree x = m.matchAt t .defaults x := by
  have hb : stepsAskNoHook m.before = true := stepsAskNoHook_iff.mpr fun s hs =>
    hm s (List.mem_of_mem_take (List.mem_reverse.mp hs))
  have ha : stepsAskNoHook m.after = true := stepsAskNoHook_iff.mpr fun s hs =>
    hm s (List.mem_of_mem_drop hs)
  simp only [Matcher.matchAt, matchSteps, walk_tree_eq_defaults hwf _ hb,
    walk_tree_eq_defaults hwf _ ha]

omit hwf in
theorem collectMatches_congr_hooks {h₁ h₂ : Hooks} {m : Matcher}
    (hm : ∀ x, m.matchAt t h₁ x = m.matchAt t h₂ x) (limit : Option Nat)
    (xs found : List Nat) :
    collectMatches t h₁ m limit xs found = collectMatches t h₂ m limit xs found := by
  induction xs generalizing found with
  | nil => rfl
  | cons x xs ih => simp only [collectMatches, hm, ih]

omit hwf in
theorem collectBelow_congr_hooks {h₁ h₂ : Hooks} {m : Matcher}
    (hm : ∀ x, m.matchAt t h₁ x = m.matchAt t h₂ x) (limit : Option Nat) (n x : Nat)
    (found : List Nat) :
    collectBelow t h₁ m limit n x found = collectBelow t h₂ m limit n x found := by
  induction n generalizing x found with
  | zero => rfl
  | succ n ih =>
    have hsub : collectBelow t h₁ m limit n = collectBelow t h₂ m limit n := by
      funext x found
      exact ih x found
    simp only [collectBelow, hm, hsub]

theorem answers_tree_eq_defaults {m : Matcher} (hm : ∀ s ∈ m.steps, s.asksNoHook = true)
    (node : Nat) (candidates : List Nat) :
    m.answers t .tree node candidates = m.answers t .defaults node candidates := by
  have hat := matchAt_tree_eq_defaults hwf hm
  simp only [Matcher.answers, Matcher.test, Matcher.first, Matcher.unique, Matcher.all,
    Matcher.objects, hat, collectMatches_congr_hooks hat, collectBelow_congr_hooks hat]

end Hooks

section Structural

variable {t : Tree} (hooks : Hooks) {x p : Nat}

@[simp] theorem structuralHolds_root :
    structuralHolds t hooks .root x = true ↔ t.parent x = none := by
  simp [structuralHolds]

@[simp] theorem structuralHolds_empty :
    structuralHolds t hooks .empty x = true ↔ t.children x = [] := by
  simp [structuralHolds]

theorem structuralHolds_of_parent_none (hp : t.parent x = none) {s : Structural}
    (hroot : s ≠ .root) (hempty : s ≠ .empty) : structuralHolds t hooks s x = false := by
  cases s <;> cases hooks <;>
    simp_all [structuralHolds, Hooks.isNthChild, Tree.isNthChild, Tree.isNthChildBySiblings]

theorem nthHolds_of_parent_none (hp : t.parent x = none) (count : NthCount) (f : Nth) :
    nthHolds t count f x = false := by
  simp [nthHolds, hp]

variable (hwf : t.WellFormed)
include hwf

theorem Hooks.isNthChild_eq {nth : Int} (hmin : nth ≠ int64Min) :
    hooks.isNthChild t x nth = t.isNthChild x nth := by
  cases hooks
  · rfl
  · exact hwf.isNthChildBySiblings_eq hmin

theorem structuralHolds_firstChild (hp : t.parent x = some p) :
    structuralHolds t hooks .firstChild x = true ↔ t.position x = 0 := by
  rw [structuralHolds, Hooks.isNthChild_eq hooks hwf (by decide), hwf.isNthChild_eq_true_iff]
  simp [hp]

theorem structuralHolds_lastChild (hp : t.parent x = some p) :
    structuralHolds t hooks .lastChild x = true ↔ t.position x + 1 = (t.children p).length := by
  rw [structuralHolds, Hooks.isNthChild_eq hooks hwf (by decide), hwf.isNthChild_eq_true_iff]
  have := hwf.position_lt hp
  simp [hp]
  omega

theorem structuralHolds_onlyChild (hp : t.parent x = some p) :
    structuralHolds t hooks .onlyChild x = true ↔ (t.children p).length = 1 := by
  have hfirst := structuralHolds_firstChild hooks hwf hp
  have hlast := structuralHolds_lastChild hooks hwf hp
  simp only [structuralHolds] at hfirst hlast ⊢
  rw [Bool.and_eq_true, hfirst, hlast]
  have := hwf.position_lt hp
  omega

theorem structuralHolds_firstOfType (hp : t.parent x = some p) :
    structuralHolds t hooks .firstOfType x = true ↔
      t.countSameType x ((t.children p).take (t.position x + 1)) = 1 := by
  rw [hwf.countSameType_take hp]
  simp [structuralHolds, hp, Tree.countSameType]

theorem structuralHolds_lastOfType (hp : t.parent x = some p) :
    structuralHolds t hooks .lastOfType x = true ↔
      t.countSameType x ((t.children p).drop (t.position x)) = 1 := by
  rw [hwf.countSameType_drop hp]
  simp [structuralHolds, hp, Tree.countSameType]

theorem structuralHolds_onlyOfType (hp : t.parent x = some p) :
    structuralHolds t hooks .onlyOfType x = true ↔
      t.countSameType x ((t.children p).take (t.position x + 1)) = 1 ∧
        t.countSameType x ((t.children p).drop (t.position x)) = 1 := by
  rw [hwf.countSameType_take hp, hwf.countSameType_drop hp]
  simp [structuralHolds, hp, Tree.countSameType]

omit hooks

theorem nthPosition_fromFirst (hp : t.parent x = some p) :
    nthPosition t .fromFirst x = t.position x + 1 := by
  simp [nthPosition, hwf.length_siblingsBefore hp]

theorem nthPosition_fromLast (hp : t.parent x = some p) :
    nthPosition t .fromLast x = (t.children p).length - t.position x := by
  simp [nthPosition, hwf.length_siblingsAfter hp]

theorem nthPosition_ofTypeFromFirst (hp : t.parent x = some p) :
    nthPosition t .ofTypeFromFirst x =
      t.countSameType x ((t.children p).take (t.position x + 1)) := by
  rw [hwf.countSameType_take hp]
  simp [nthPosition, Tree.countSameType, List.countP_eq_length_filter]

theorem nthPosition_ofTypeFromLast (hp : t.parent x = some p) :
    nthPosition t .ofTypeFromLast x = t.countSameType x ((t.children p).drop (t.position x)) := by
  rw [hwf.countSameType_drop hp]
  simp [nthPosition, Tree.countSameType, List.countP_eq_length_filter]

theorem nthPosition_le_length (hp : t.parent x = some p) (count : NthCount) :
    nthPosition t count x ≤ (t.children p).length := by
  have hlt := hwf.position_lt hp
  cases count with
  | fromFirst => rw [nthPosition_fromFirst hwf hp]; omega
  | fromLast => rw [nthPosition_fromLast hwf hp]; omega
  | ofTypeFromFirst =>
    rw [nthPosition_ofTypeFromFirst hwf hp]
    exact Nat.le_trans (List.countP_le_length ..) (List.length_take_le' _ _)
  | ofTypeFromLast =>
    rw [nthPosition_ofTypeFromLast hwf hp]
    exact Nat.le_trans (List.countP_le_length ..) (by rw [List.length_drop]; omega)

theorem nthHolds_eq (hsize : (t.size : Int) ≤ maxInt64) (hp : t.parent x = some p)
    (count : NthCount) (f : Nth) : nthHolds t count f x = f.matches (nthPosition t count x) := by
  have hle := nthPosition_le_length hwf hp count
  have hc := hwf.length_children_le p
  have hmax : maxInt64 = 9223372036854775807 := by decide
  have h63 : Nat.pow 2 63 = 9223372036854775808 := by decide
  have hcap : min (nthPosition t count x : Int) ((Nat.pow 2 63 : Nat) - 1) =
      nthPosition t count x := by
    rw [hmax] at hsize
    rw [h63]
    omega
  rw [nthHolds, hp, hcap]
  rfl

end Structural

/-- In a well-formed arena of fewer than `2 ^ 63` nodes the tree's n-th child test and the one
that probes siblings agree for every `nth`: both hold exactly of the `nth` child counted from
the first for positive `nth`, and of the `|nth|`-th child counted from the last for negative
`nth`. So a selector that never asks the tree about a pseudo-selector of its own gets the same
answers under either choice of hooks. -/
theorem nthChild_tests_agree {t : Tree} (hwf : t.WellFormed) (hsize : (t.size : Int) ≤ maxInt64)
    (x : Nat) (nth : Int) :
    t.isNthChild x nth = t.isNthChildBySiblings x nth ∧
    (t.isNthChild x nth = true ↔ ∃ p, t.parent x = some p ∧
      (0 < nth ∧ (t.children p)[nth.natAbs - 1]? = some x ∨
        nth < 0 ∧ (t.children p).reverse[nth.natAbs - 1]? = some x)) ∧
    ∀ m : Matcher, (∀ s ∈ m.steps, s.asksNoHook = true) → ∀ node candidates,
      m.answers t .tree node candidates = m.answers t .defaults node candidates :=
  ⟨(hwf.isNthChildBySiblings_eq_of_size hsize x nth).symm, hwf.isNthChild_eq_true_iff_getElem?,
    fun _ hm => answers_tree_eq_defaults hwf hm⟩

theorem nthChild_tests_agree_lastOfTwo :
    let t := (Tree.new { types := ["r"] }).run
      [.append 0 { types := ["a"] }, .append 0 { types := ["b"] }]
    t.WellFormed ∧ (t.size : Int) ≤ maxInt64 ∧
    (t.isNthChild 2 (-1) = t.isNthChildBySiblings 2 (-1) ∧
    (t.isNthChild 2 (-1) = true ↔ ∃ p, t.parent 2 = some p ∧
      (0 < (-1 : Int) ∧ (t.children p)[(-1 : Int).natAbs - 1]? = some 2 ∨
        (-1 : Int) < 0 ∧ (t.children p).reverse[(-1 : Int).natAbs - 1]? = some 2)) ∧
    ∀ m : Matcher, (∀ s ∈ m.steps, s.asksNoHook = true) → ∀ node candidates,
      m.answers t .tree node candidates = m.answers t .defaults node candidates) := by
  intro t
  have hwf : t.WellFormed := (Tree.wellFormed_new _).run _
  have hsize : (t.size : Int) ≤ maxInt64 := by decide
  exact ⟨hwf, hsize, nthChild_tests_agree hwf hsize 2 (-1)⟩

/-- In a well-formed tree, under either choice of hooks, each structural pseudo-class is a
condition on the node's index `i` among the children of its parent and on its ranks among the
siblings of its primary type, counted up to it and from it on; the `An+B` ones test these
positions, as long as the arena has fewer than `2 ^ 63` nodes. Without a parent only `:root` and
`:empty` can hold, and they say that the node has no parent and that it has no children. -/
theorem structural_pseudoClasses_by_index {t : Tree} (hwf : t.WellFormed) (hooks : Hooks)
    (x : Nat) :
    (structuralHolds t hooks .root x = true ↔ t.parent x = none) ∧
    (structuralHolds t hooks .empty x = true ↔ t.children x = []) ∧
    (t.parent x = none →
      (∀ s, s ≠ .root → s ≠ .empty → structuralHolds t hooks s x = false) ∧
        ∀ count f, nthHolds t count f x = false) ∧
    ∀ p i, t.parent x = some p → (t.children p)[i]? = some x →
      (structuralHolds t hooks .firstChild x = true ↔ i = 0) ∧
      (structuralHolds t hooks .lastChild x = true ↔ i = (t.children p).length - 1) ∧
      (structuralHolds t hooks .onlyChild x = true ↔ (t.children p).length = 1) ∧
      (structuralHolds t hooks .firstOfType x = true ↔
        t.countSameType x ((t.children p).take (i + 1)) = 1) ∧
      (structuralHolds t hooks .lastOfType x = true ↔
        t.countSameType x ((t.children p).drop i) = 1) ∧
      (structuralHolds t hooks .onlyOfType x = true ↔
        t.countSameType x ((t.children p).take (i + 1)) = 1 ∧
          t.countSameType x ((t.children p).drop i) = 1) ∧
      ((t.size : Int) ≤ maxInt64 → ∀ a b : Int,
        nthHolds t .fromFirst ⟨a, b⟩ x = nthMatches (i + 1) a b ∧
        nthHolds t .fromLast ⟨a, b⟩ x = nthMatches ((t.children p).length - i) a b ∧
        nthHolds t .ofTypeFromFirst ⟨a, b⟩ x =
          nthMatches (t.countSameType x ((t.children p).take (i + 1))) a b ∧
        nthHolds t .ofTypeFromLast ⟨a, b⟩ x =
          nthMatches (t.countSameType x ((t.children p).drop i)) a b) := by
  refine ⟨structuralHolds_root hooks, structuralHolds_empty hooks,
    fun hp => ⟨fun s hroot hempty => structuralHolds_of_parent_none hooks hp hroot hempty,
      fun count f => nthHolds_of_parent_none hp count f⟩, ?_⟩
  intro p i hp hi
  -- the index of a child is its recorded position
  obtain rfl := (hwf.getElem?_children_eq_some_iff hp).mp hi
  have hlt := hwf.position_lt hp
  refine ⟨structuralHolds_firstChild hooks hwf hp, ?_, structuralHolds_onlyChild hooks hwf hp,
    structuralHolds_firstOfType hooks hwf hp, structuralHolds_lastOfType hooks hwf hp,
    structuralHolds_onlyOfType hooks hwf hp, fun hsize a b => ?_⟩
  · rw [structuralHolds_lastChild hooks hwf hp]
    omega
  · have hfirst : ((t.position x + 1 : Nat) : Int) = t.position x + 1 := by omega
    have hlast : (((t.children p).length - t.position x : Nat) : Int) =
        (t.children p).length - t.position x := by omega
    refine ⟨?_, ?_, ?_, ?_⟩ <;>
      simp only [nthHolds_eq hwf hsize hp, Nth.matches, nthPosition_fromFirst hwf hp,
        nthPosition_fromLast hwf hp, nthPosition_ofTypeFromFirst hwf hp,
        nthPosition_ofTypeFromLast hwf hp, hfirst, hlast]

theorem structural_pseudoClasses_lastOfTwo :
    let t := (Tree.new { types := ["r"] }).run
      [.append 0 { types := ["a"] }, .append 0 { types := ["b"] }]
    t.WellFormed ∧
    ((structuralHolds t .defaults .root 2 = true ↔ t.parent 2 = none) ∧
    (structuralHolds t .defaults .empty 2 = true ↔ t.children 2 = []) ∧
    (t.parent 2 = none →
      (∀ s, s ≠ .root → s ≠ .empty → structuralHolds t .defaults s 2 = false) ∧
        ∀ count f, nthHolds t count f 2 = false) ∧
    ∀ p i, t.parent 2 = some p → (t.children p)[i]? = some 2 →
      (structuralHolds t .defaults .firstChild 2 = true ↔ i = 0) ∧
      (structuralHolds t .defaults .lastChild 2 = true ↔ i = (t.children p).length - 1) ∧
      (structuralHolds t .defaults .onlyChild 2 = true ↔ (t.children p).length = 1) ∧
      (structuralHolds t .defaults .firstOfType 2 = true ↔
        t.countSameType 2 ((t.children p).take (i + 1)) = 1) ∧
      (structuralHolds t .defaults .lastOfType 2 = true ↔
        t.countSameType 2 ((t.children p).drop i) = 1) ∧
      (structuralHolds t .defaults .onlyOfType 2 = true ↔
        t.countSameType 2 ((t.children p).take (i + 1)) = 1 ∧
          t.countSameType 2 ((t.children p).drop i) = 1) ∧
      ((t.size : Int) ≤ maxInt64 → ∀ a b : Int,
        nthHolds t .fromFirst ⟨a, b⟩ 2 = nthMatches (i + 1) a b ∧
        nthHolds t .fromLast ⟨a, b⟩ 2 = nthMatches ((t.children p).length - i) a b ∧
        nthHolds t .ofTypeFromFirst ⟨a, b⟩ 2 =
          nthMatches (t.countSameType 2 ((t.children p).take (i + 1))) a b ∧
        nthHolds t .ofTypeFromLast ⟨a, b⟩ 2 =
          nthMatches (t.countSameType 2 ((t.children p).drop i)) a b)) := by
  intro t
  have hwf : t.WellFormed := (Tree.wellFormed_new _).run _
  exact ⟨hwf, structural_pseudoClasses_by_index hwf .defaults 2⟩

end TreeQuery
