import TreeQuery.Proofs.Searches
import TreeQuery.Proofs.ArenaWalks
import Mathlib.Logic.Relation

/-!
# The stack walk is the recursive pre-order

In a well-formed tree the stack walk from the root lists the recursive pre-order, and no
subtree holds a node twice.
-/

namespace TreeQuery

open Selector

namespace Tree

variable {t : Tree}

theorem exists_parent_of_isAncestor {a d : Nat} (h : t.IsAncestor a d) :
    ∃ p, t.parent d = some p := by
  cases h with
  | single hp => exact ⟨a, hp⟩
  | tail _ hp => exact ⟨_, hp⟩

theorem descendant_lt_size {a d : Nat} (h : t.IsAncestor a d) : d < t.size := by
  obtain ⟨p, hp⟩ := exists_parent_of_isAncestor h
  exact lt_size_of_parent hp

namespace WellFormed

variable (hwf : t.WellFormed)
include hwf

theorem eq_of_children_above {x c₁ c₂ d : Nat} (h₁ : t.parent c₁ = some x)
    (h₂ : t.parent c₂ = some x) (hd₁ : d = c₁ ∨ t.IsAncestor c₁ d)
    (hd₂ : d = c₂ ∨ t.IsAncestor c₂ d) : c₁ = c₂ := by
  -- climbing from `d` is deterministic, so one of the two lies on the other's way up
  let up : Nat → Nat → Prop := fun a b => t.parent a = some b
  have hup : Relator.RightUnique up := fun a b b' hb hb' => Option.some.inj (hb.symm.trans hb')
  have climb : ∀ {c}, d = c ∨ t.IsAncestor c d → Relation.ReflTransGen up d c := by
    rintro c (rfl | h)
    · exact .refl
    · exact (Relation.transGen_swap.mpr h).to_reflTransGen
  -- and a child of `x` above another child of `x` would be above `x` itself
  have above : ∀ {a b}, t.parent a = some x → t.parent b = some x →
      Relation.ReflTransGen up a b → a = b := by
    intro a b ha hb hab
    rcases Relation.ReflTransGen.cases_head hab with rfl | ⟨a', ha', ha'b⟩
    · rfl
    · have hxa : a' = x := Option.some.inj (ha'.symm.trans ha)
      subst hxa
      have hcycle : Relation.TransGen up a' a' := Relation.TransGen.tail' ha'b hb
      exact (hwf.acyclic a' (Relation.transGen_swap.mp hcycle)).elim
  rcases Relation.ReflTransGen.total_of_right_unique hup (climb hd₁) (climb hd₂) with h | h
  · exact above h₁ h₂ h
  · exact (above h₂ h₁ h).symm

theorem nodup_subtreeWithin (n x : Nat) : (t.subtreeWithin n x).Nodup := by
  induction n generalizing x with
  | zero => simp [subtreeWithin]
  | succ n ih =>
    rw [subtreeWithin_succ, List.nodup_cons, List.nodup_flatMap]
    refine ⟨fun hx => ?_, fun c _ => ih c, ?_⟩
    · obtain ⟨c, hc, hxc⟩ := List.mem_flatMap.mp hx
      have hcx : t.IsAncestor x c := .single (hwf.parent_of_mem_children hc)
      rcases hwf.eq_or_isAncestor_of_mem_subtreeWithin hxc with rfl | hc'
      · exact hwf.acyclic x hcx
      · exact hwf.acyclic x (hcx.trans hc')
    · refine (hwf.nodup x).imp_of_mem fun {c₁ c₂} hc₁ hc₂ hne => ?_
      refine List.disjoint_left.mpr fun {d} hd₁ hd₂ => hne ?_
      exact hwf.eq_of_children_above (hwf.parent_of_mem_children hc₁)
        (hwf.parent_of_mem_children hc₂) (hwf.eq_or_isAncestor_of_mem_subtreeWithin hd₁)
        (hwf.eq_or_isAncestor_of_mem_subtreeWithin hd₂)

theorem nodup_subtree (x : Nat) : (t.subtree x).Nodup := hwf.nodup_subtreeWithin t.size x

theorem length_subtree_le {x : Nat} (hx : x < t.size) : (t.subtree x).length ≤ t.size := by
  have hsub : t.subtree x ⊆ List.range t.size := by
    intro d hd
    rcases hwf.mem_subtree.mp hd with rfl | h
    · exact List.mem_range.mpr hx
    · exact List.mem_range.mpr (descendant_lt_size h)
  simpa using ((hwf.nodup_subtree x).subperm hsub).length_le

/-- The stack walk lists the subtrees of the pending nodes one after the other, once it has
fuel for all their nodes. -/
theorem preorderFrom_eq {n : Nat} {stack : List Nat} (h : (stack.flatMap t.subtree).length ≤ n) :
    t.preorderFrom n stack = stack.flatMap t.subtree := by
  induction n generalizing stack with
  | zero =>
    rw [Nat.le_zero, List.length_eq_zero_iff] at h
    rw [h, preorderFrom]
  | succ n ih =>
    cases stack with
    | nil => rfl
    | cons x stack =>
      -- the top's subtree is the top, then its children's subtrees, which the walk pushes
      have hsplit : (x :: stack).flatMap t.subtree =
          x :: (t.children x ++ stack).flatMap t.subtree := by
        rw [List.flatMap_cons, hwf.subtree_eq x, List.flatMap_append, List.cons_append]
      rw [hsplit, List.length_cons] at h
      rw [preorderFrom, hsplit, ih (by omega)]

theorem preorder_eq_subtree : t.preorder = t.subtree 0 := by
  rw [preorder, hwf.preorderFrom_eq (by simpa using hwf.length_subtree_le hwf.root_exists)]
  simp

theorem mem_preorder {x : Nat} : x ∈ t.preorder ↔ x = 0 ∨ t.IsAncestor 0 x := by
  rw [hwf.preorder_eq_subtree, hwf.mem_subtree]

theorem not_mem_preorder_of_detached {x : Nat} (hx : x ≠ 0) (hp : t.parent x = none) :
    x ∉ t.preorder := by
  rw [hwf.mem_preorder]
  rintro (rfl | h)
  · exact hx rfl
  · obtain ⟨p, hp'⟩ := exists_parent_of_isAncestor h
    rw [hp] at hp'
    cases hp'

end WellFormed

end Tree

/-- On every reachable tree the stack walk from the root lists each node reachable from the
root exactly once, in recursive pre-order, and no detached node; searching the whole tree is
trying the nodes of that walk in order. -/
theorem preorder_walk_is_recursive (root : NodeData) (ops : List TreeOp) (hooks : Hooks)
    (m : Matcher) :
    let t := (Tree.new root).run ops
    t.preorder = t.subtree 0 ∧
    (∀ x, t.subtree x = x :: (t.children x).flatMap t.subtree) ∧
    t.preorder.Nodup ∧
    (∀ x, x ∈ t.preorder ↔ x = 0 ∨ t.IsAncestor 0 x) ∧
    (∀ x, x ≠ 0 → t.parent x = none → x ∉ t.preorder) ∧
    m.all t hooks 0 = m.objects t hooks t.preorder := by
  intro t
  have hwf : t.WellFormed := (Tree.wellFormed_new root).run ops
  have hpre := hwf.preorder_eq_subtree
  refine ⟨hpre, hwf.subtree_eq, hpre ▸ hwf.nodup_subtree 0, fun x => hwf.mem_preorder,
    fun x hx hp => hwf.not_mem_preorder_of_detached hx hp, ?_⟩
  -- the recursive search from the root is the flat search over the root's subtree
  rw [all_eq_collectMatches, hpre]
  rfl

-- node 2 stays detached; node 3 hangs under node 1, so it comes before node 4
example :
    ((Tree.new { types := ["r"] }).run [.append 0 { types := ["a"] }, .alloc { types := ["d"] },
      .append 1 { types := ["b"] }, .append 0 { types := ["c"] }]).preorder = [0, 1, 3, 4] := by
  decide

end TreeQuery
