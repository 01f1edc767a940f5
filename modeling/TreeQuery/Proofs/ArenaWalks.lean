import TreeQuery.Proofs.Arena

/-!
# Walks through a well-formed arena

In a well-formed tree no walk reaches its bound: ancestors, subtrees, descendants and siblings
are read in full.
-/

namespace TreeQuery

namespace Tree

/-- `a` comes before `b` among the children of one parent. -/
def Precedes (t : Tree) (a b : Nat) : Prop :=
  ∃ p i j : Nat, i < j ∧ (t.children p)[i]? = some a ∧ (t.children p)[j]? = some b

/-- `a` comes right before `b` among the children of one parent. -/
def ImmediatelyPrecedes (t : Tree) (a b : Nat) : Prop :=
  ∃ p i : Nat, (t.children p)[i]? = some a ∧ (t.children p)[i + 1]? = some b

/-- The number of proper ancestors of a node. -/
def depth (t : Tree) (x : Nat) : Nat := (t.ancestors x).length

section Bounded

variable {t : Tree}

theorem subtreeWithin_succ (n x : Nat) :
    t.subtreeWithin (n + 1) x = x :: (t.children x).flatMap (t.subtreeWithin n) := rfl

theorem climb_succ_of_length_lt {n : Nat} {o : Option Nat} (h : (t.climb n o).length < n) :
    t.climb (n + 1) o = t.climb n o := by
  induction n generalizing o with
  | zero => omega
  | succ n ih =>
    cases o with
    | none => simp [climb_none]
    | some p =>
      rw [climb_succ_some, List.length_cons] at h
      rw [climb_succ_some, climb_succ_some, ih (by omega)]

theorem mem_climb_succ_of_parent {n c x : Nat} {o : Option Nat} (hc : c ∈ t.climb n o)
    (hp : t.parent c = some x) : x ∈ t.climb (n + 1) o := by
  induction n generalizing o with
  | zero => simp [climb_zero] at hc
  | succ n ih =>
    cases o with
    | none => simp [climb_none] at hc
    | some q =>
      rw [climb_succ_some, List.mem_cons] at hc
      rw [climb_succ_some]
      rcases hc with rfl | hc
      · rw [hp, climb_succ_some]
        exact List.mem_cons_of_mem _ List.mem_cons_self
      · exact List.mem_cons_of_mem _ (ih hc)

theorem sibling_eq_some {b a : Nat} {k : Int} :
    t.sibling b k = some a ↔ ∃ p, t.parent b = some p ∧ 0 ≤ (t.position b : Int) + k ∧
      (t.children p)[((t.position b : Int) + k).toNat]? = some a := by
  cases hg : t.get? b with
  | none => simp [sibling, parent, hg]
  | some node =>
    have hpos : t.position b = node.position := by simp [Tree.position, hg]
    have hpar : t.parent b = node.parent := by simp [parent, hg]
    rw [hpos, hpar]
    simp only [sibling, hg]
    by_cases hk : (node.position : Int) + k < 0
    · simp only [hk, if_true]
      constructor
      · intro h
        cases h
      · rintro ⟨p, -, hle, -⟩
        omega
    · simp only [hk, if_false]
      cases node.parent with
      | none => simp
      | some p =>
        simp only [Option.bind_some, Option.some.injEq, exists_eq_left']
        exact ⟨fun h => ⟨by omega, h⟩, fun h => h.2⟩

theorem sibling_of_parent_none {x : Nat} (hp : t.parent x = none) (k : Int) :
    t.sibling x k = none := by
  cases h : t.sibling x k with
  | none => rfl
  | some a =>
    obtain ⟨p, hp', -⟩ := sibling_eq_some.mp h
    rw [hp] at hp'
    cases hp'

theorem siblingWalk_none (k : Int) (n : Nat) : t.siblingWalk k n none = [] := by
  cases n <;> rfl

theorem siblingsBefore_of_parent_none {x : Nat} (hp : t.parent x = none) : t.siblingsBefore x = [] := by
  rw [siblingsBefore, sibling_of_parent_none hp, siblingWalk_none]

theorem siblingsAfter_of_parent_none {x : Nat} (hp : t.parent x = none) : t.siblingsAfter x = [] := by
  rw [siblingsAfter, sibling_of_parent_none hp, siblingWalk_none]

end Bounded

namespace WellFormed

variable {t : Tree} (hwf : t.WellFormed)
include hwf

theorem mem_climb {n a x : Nat} (hn : t.size ≤ n + 1) :
    a ∈ t.climb n (t.parent x) ↔ t.IsAncestor a x := by
  refine ⟨isAncestor_of_mem_climb, fun h => ?_⟩
  obtain ⟨k, hm, hl⟩ := exists_climb_of_isAncestor h
  have hlt := hwf.length_climb_lt (k + 1) x
  exact (climb_isPrefix_of_le (by omega) _).subset hm

theorem depth_lt (x : Nat) : t.depth x < t.size := hwf.length_climb_lt t.size x

theorem depth_child {c x : Nat} (hp : t.parent c = some x) : t.depth c = t.depth x + 1 := by
  have hsize := hwf.root_exists
  have hc := hwf.depth_lt c
  obtain ⟨m, hm⟩ : ∃ m, t.size = m + 1 := ⟨t.size - 1, by omega⟩
  simp only [depth, ancestors, hp, hm, climb_succ_some, List.length_cons] at hc ⊢
  rw [climb_succ_of_length_lt (by omega)]

theorem parent_of_mem_children {c x : Nat} (h : c ∈ t.children x) : t.parent c = some x :=
  hwf.parent_iff.mpr h

theorem position_of_getElem? {p i c : Nat} (h : (t.children p)[i]? = some c) :
    t.parent c = some p ∧ t.position c = i := by
  have hp := hwf.parent_of_mem_children (List.mem_of_getElem? h)
  have hpos := hwf.position hp
  have hbound := (List.getElem?_eq_some_iff.mp hpos).1
  exact ⟨hp, (List.getElem?_inj hbound (hwf.nodup p)).mp (hpos.trans h.symm)⟩

theorem eq_or_isAncestor_of_mem_subtreeWithin {n x d : Nat} (h : d ∈ t.subtreeWithin n x) :
    d = x ∨ t.IsAncestor x d := by
  induction n generalizing x with
  | zero => simp [subtreeWithin] at h
  | succ n ih =>
    rw [subtreeWithin_succ, List.mem_cons, List.mem_flatMap] at h
    rcases h with rfl | ⟨c, hc, hd⟩
    · exact .inl rfl
    · have hcx : t.IsAncestor x c := .single (hwf.parent_of_mem_children hc)
      rcases ih hd with rfl | hcd
      · exact .inr hcx
      · exact .inr (hcx.trans hcd)

theorem mem_subtreeWithin_of_child {m x q d : Nat} (hq : q ∈ t.subtreeWithin (m + 1) x)
    (hd : t.parent d = some q) : d ∈ t.subtreeWithin (m + 2) x := by
  induction m generalizing x with
  | zero =>
    rw [subtreeWithin_succ, List.mem_cons, List.mem_flatMap] at hq
    rcases hq with rfl | ⟨c, -, hqc⟩
    · rw [subtreeWithin_succ, List.mem_cons, List.mem_flatMap]
      exact .inr ⟨d, hwf.parent_iff.mp hd, by simp [subtreeWithin_succ]⟩
    · simp [subtreeWithin] at hqc
  | succ m ih =>
    rw [subtreeWithin_succ, List.mem_cons, List.mem_flatMap] at hq
    rw [subtreeWithin_succ, List.mem_cons, List.mem_flatMap]
    rcases hq with rfl | ⟨c, hc, hqc⟩
    · exact .inr ⟨d, hwf.parent_iff.mp hd, by simp [subtreeWithin_succ]⟩
    · exact .inr ⟨c, hc, ih hqc⟩

theorem mem_subtreeWithin_iff {n x d : Nat} :
    d ∈ t.subtreeWithin (n + 1) x ↔ d = x ∨ x ∈ t.climb n (t.parent d) := by
  constructor
  · intro h
    induction n generalizing x with
    | zero => simpa [subtreeWithin_succ, subtreeWithin, climb_zero] using h
    | succ n ih =>
      rw [subtreeWithin_succ, List.mem_cons, List.mem_flatMap] at h
      rcases h with rfl | ⟨c, hc, hd⟩
      · exact .inl rfl
      · have hcx := hwf.parent_of_mem_children hc
        rcases ih hd with rfl | hm
        · exact .inr (by rw [hcx, climb_succ_some]; exact List.mem_cons_self)
        · exact .inr (mem_climb_succ_of_parent hm hcx)
  · rintro (rfl | h)
    · rw [subtreeWithin_succ]
      exact List.mem_cons_self
    · induction n generalizing d with
      | zero => simp [climb_zero] at h
      | succ n ih =>
        cases hp : t.parent d with
        | none => simp [hp, climb_none] at h
        | some q =>
          rw [hp, climb_succ_some, List.mem_cons] at h
          rcases h with rfl | h
          · rw [subtreeWithin_succ, List.mem_cons, List.mem_flatMap]
            exact .inr ⟨d, hwf.parent_iff.mp hp, by simp [subtreeWithin_succ]⟩
          · exact hwf.mem_subtreeWithin_of_child (ih h) hp

theorem mem_subtree {x d : Nat} : d ∈ t.subtree x ↔ d = x ∨ t.IsAncestor x d := by
  obtain ⟨m, hm⟩ : ∃ m, t.size = m + 1 := ⟨t.size - 1, by have := hwf.root_exists; omega⟩
  rw [subtree, hm, hwf.mem_subtreeWithin_iff, hwf.mem_climb (by omega)]

theorem mem_descendants {x d : Nat} : d ∈ t.descendants x ↔ t.IsAncestor x d := by
  obtain ⟨m, hm⟩ : ∃ m, t.size = m + 1 := ⟨t.size - 1, by have := hwf.root_exists; omega⟩
  have hsub : t.subtree x = x :: (t.children x).flatMap (t.subtreeWithin m) := by
    rw [subtree, hm, subtreeWithin_succ]
  constructor
  · intro h
    rw [descendants, hsub, List.drop_one, List.tail_cons, List.mem_flatMap] at h
    obtain ⟨c, hc, hd⟩ := h
    have hcx : t.IsAncestor x c := .single (hwf.parent_of_mem_children hc)
    rcases hwf.eq_or_isAncestor_of_mem_subtreeWithin hd with rfl | hcd
    · exact hcx
    · exact hcx.trans hcd
  · intro h
    have hd := hwf.mem_subtree.mpr (.inr h)
    rw [hsub, List.mem_cons] at hd
    rw [descendants, hsub, List.drop_one, List.tail_cons]
    rcases hd with rfl | hd
    · exact absurd h (hwf.acyclic d)
    · exact hd

theorem subtreeWithin_succ_eq {n x : Nat} (hn : t.size ≤ n + t.depth x) :
    t.subtreeWithin (n + 1) x = t.subtreeWithin n x := by
  induction n generalizing x with
  | zero => have := hwf.depth_lt x; omega
  | succ n ih =>
    rw [subtreeWithin_succ, subtreeWithin_succ]
    congr 1
    apply List.flatMap_congr
    intro c hc
    have hdc := hwf.depth_child (hwf.parent_of_mem_children hc)
    exact ih (by omega)

/-- In a well-formed tree `subtree` is the recursive pre-order: the node, then the subtree of
each child in order. -/
theorem subtree_eq (x : Nat) : t.subtree x = x :: (t.children x).flatMap t.subtree := by
  obtain ⟨m, hm⟩ : ∃ m, t.size = m + 1 := ⟨t.size - 1, by have := hwf.root_exists; omega⟩
  rw [subtree, hm, subtreeWithin_succ]
  congr 1
  apply List.flatMap_congr
  intro c hc
  have hdc := hwf.depth_child (hwf.parent_of_mem_children hc)
  rw [subtree, hm, hwf.subtreeWithin_succ_eq (by omega)]

theorem drop_subtreeWithin_size_succ (x : Nat) :
    (t.subtreeWithin (t.size + 1) x).drop 1 = t.descendants x := by
  rw [hwf.subtreeWithin_succ_eq (by omega)]
  rfl

theorem sibling_prev_iff {a b : Nat} : t.sibling b (-1) = some a ↔ t.ImmediatelyPrecedes a b := by
  rw [sibling_eq_some]
  constructor
  · rintro ⟨p, hp, hle, ha⟩
    have hidx : ((t.position b : Int) + -1).toNat = t.position b - 1 := by omega
    have hnext : t.position b - 1 + 1 = t.position b := by omega
    rw [hidx] at ha
    exact ⟨p, t.position b - 1, ha, by rw [hnext]; exact hwf.position hp⟩
  · rintro ⟨p, i, ha, hb⟩
    obtain ⟨hp, hpos⟩ := hwf.position_of_getElem? hb
    have hidx : ((t.position b : Int) + -1).toNat = i := by omega
    exact ⟨p, hp, by omega, by rw [hidx]; exact ha⟩

theorem sibling_next_iff {a b : Nat} : t.sibling a 1 = some b ↔ t.ImmediatelyPrecedes a b := by
  rw [sibling_eq_some]
  constructor
  · rintro ⟨p, hp, -, hb⟩
    have hidx : ((t.position a : Int) + 1).toNat = t.position a + 1 := by omega
    rw [hidx] at hb
    exact ⟨p, t.position a, hwf.position hp, hb⟩
  · rintro ⟨p, i, ha, hb⟩
    obtain ⟨hp, hpos⟩ := hwf.position_of_getElem? ha
    have hidx : ((t.position a : Int) + 1).toNat = i + 1 := by omega
    exact ⟨p, hp, by omega, by rw [hidx]; exact hb⟩

theorem length_children_le (p : Nat) : (t.children p).length ≤ t.size := by
  have hsub : t.children p ⊆ List.range t.size :=
    fun c hc => List.mem_range.mpr (hwf.child_valid hc)
  simpa using ((hwf.nodup p).subperm hsub).length_le

theorem sibling_of_getElem? {p i c : Nat} (hc : (t.children p)[i]? = some c) (k : Int) :
    t.sibling c k = if 0 ≤ (i : Int) + k then (t.children p)[((i : Int) + k).toNat]? else none := by
  obtain ⟨hp, hpos⟩ := hwf.position_of_getElem? hc
  apply Option.ext
  intro a
  rw [sibling_eq_some, hp, hpos]
  by_cases hk : 0 ≤ (i : Int) + k <;> simp [hk]

theorem siblingWalk_back {p : Nat} {j c fuel : Nat} (hc : (t.children p)[j]? = some c)
    (hfuel : j < fuel) : t.siblingWalk (-1) fuel (some c) = ((t.children p).take (j + 1)).reverse := by
  induction j generalizing c fuel with
  | zero =>
    obtain ⟨fuel, rfl⟩ : ∃ f, fuel = f + 1 := ⟨fuel - 1, by omega⟩
    rw [siblingWalk, hwf.sibling_of_getElem? hc, if_neg (by omega), siblingWalk_none,
      List.take_one, List.head?_eq_getElem?, hc]
    rfl
  | succ j ih =>
    obtain ⟨fuel, rfl⟩ : ∃ f, fuel = f + 1 := ⟨fuel - 1, by omega⟩
    -- the step back lands on the child at index `j`
    obtain ⟨c', hc'⟩ : ∃ c', (t.children p)[j]? = some c' := by
      have := (List.getElem?_eq_some_iff.mp hc).1
      exact ⟨_, List.getElem?_eq_getElem (by omega)⟩
    have hidx : (((j + 1 : Nat) : Int) + -1).toNat = j := by omega
    rw [siblingWalk, hwf.sibling_of_getElem? hc, if_pos (by omega), hidx, hc', ih hc' (by omega)]
    simp [List.take_add_one, hc]

theorem siblingWalk_forward {p : Nat} {j c fuel : Nat} (hc : (t.children p)[j]? = some c)
    (hfuel : (t.children p).length ≤ j + fuel) :
    t.siblingWalk 1 fuel (some c) = (t.children p).drop j := by
  obtain ⟨hlt, hget⟩ := List.getElem?_eq_some_iff.mp hc
  induction fuel generalizing j c with
  | zero => omega
  | succ fuel ih =>
    have hidx : ((j : Int) + 1).toNat = j + 1 := by omega
    rw [siblingWalk, hwf.sibling_of_getElem? hc, if_pos (by omega), hidx,
      List.drop_eq_getElem_cons hlt, hget]
    congr 1
    cases hnext : (t.children p)[j + 1]? with
    | none =>
      rw [siblingWalk_none, List.drop_eq_nil_of_le (List.getElem?_eq_none_iff.mp hnext)]
    | some c' =>
      obtain ⟨hlt', hget'⟩ := List.getElem?_eq_some_iff.mp hnext
      exact ih hnext (by omega) hlt' hget'

/-- With fuel for every node of the arena, the walk back from a node with a parent meets the
children before it, nearest first. -/
theorem siblingWalk_prev_of_parent {x p n : Nat} (hp : t.parent x = some p) (hn : t.size ≤ n) :
    t.siblingWalk (-1) n (t.sibling x (-1)) = ((t.children p).take (t.position x)).reverse := by
  have hx := hwf.position hp
  have hlen := hwf.length_children_le p
  have hlt := (List.getElem?_eq_some_iff.mp hx).1
  rw [hwf.sibling_of_getElem? hx]
  cases hpos : t.position x with
  | zero => rw [if_neg (by omega), siblingWalk_none, List.take_zero, List.reverse_nil]
  | succ j =>
    rw [hpos] at hlt
    obtain ⟨c, hc⟩ : ∃ c, (t.children p)[j]? = some c := ⟨_, List.getElem?_eq_getElem (by omega)⟩
    have hidx : (((j + 1 : Nat) : Int) + -1).toNat = j := by omega
    rw [if_pos (by omega), hidx, hc, hwf.siblingWalk_back hc (by omega)]

/-- With fuel for every node of the arena, the walk forward from a node with a parent meets the
children after it, nearest first. -/
theorem siblingWalk_next_of_parent {x p n : Nat} (hp : t.parent x = some p) (hn : t.size ≤ n) :
    t.siblingWalk 1 n (t.sibling x 1) = (t.children p).drop (t.position x + 1) := by
  have hx := hwf.position hp
  have hlen := hwf.length_children_le p
  have hidx : ((t.position x : Int) + 1).toNat = t.position x + 1 := by omega
  rw [hwf.sibling_of_getElem? hx, if_pos (by omega), hidx]
  cases hnext : (t.children p)[t.position x + 1]? with
  | none => rw [siblingWalk_none, List.drop_eq_nil_of_le (List.getElem?_eq_none_iff.mp hnext)]
  | some c => exact hwf.siblingWalk_forward hnext (by omega)

theorem siblingsBefore_of_parent {x p : Nat} (hp : t.parent x = some p) :
    t.siblingsBefore x = ((t.children p).take (t.position x)).reverse :=
  hwf.siblingWalk_prev_of_parent hp (Nat.le_refl _)

theorem siblingsAfter_of_parent {x p : Nat} (hp : t.parent x = some p) :
    t.siblingsAfter x = (t.children p).drop (t.position x + 1) :=
  hwf.siblingWalk_next_of_parent hp (Nat.le_refl _)

theorem siblingWalk_eq_of_size_le {n : Nat} (x : Nat) (hn : t.size ≤ n) :
    t.siblingWalk (-1) n (t.sibling x (-1)) = t.siblingsBefore x ∧
      t.siblingWalk 1 n (t.sibling x 1) = t.siblingsAfter x := by
  cases hp : t.parent x with
  | none =>
    rw [siblingsBefore_of_parent_none hp, siblingsAfter_of_parent_none hp,
      sibling_of_parent_none hp, sibling_of_parent_none hp, siblingWalk_none, siblingWalk_none]
    exact ⟨rfl, rfl⟩
  | some p =>
    rw [hwf.siblingsBefore_of_parent hp, hwf.siblingsAfter_of_parent hp]
    exact ⟨hwf.siblingWalk_prev_of_parent hp hn, hwf.siblingWalk_next_of_parent hp hn⟩

theorem sibling_getLast_siblingsBefore {x y : Nat} (hy : y ∈ (t.siblingsBefore x).getLast?) :
    t.sibling y (-1) = none := by
  cases hp : t.parent x with
  | none => simp [siblingsBefore_of_parent_none hp] at hy
  | some p =>
    rw [hwf.siblingsBefore_of_parent hp, List.getLast?_reverse, List.head?_take] at hy
    split at hy
    · cases hy
    · rw [List.head?_eq_getElem?] at hy
      rw [hwf.sibling_of_getElem? (Option.mem_def.mp hy)]
      rfl

theorem sibling_getLast_siblingsAfter {x y : Nat} (hy : y ∈ (t.siblingsAfter x).getLast?) :
    t.sibling y 1 = none := by
  cases hp : t.parent x with
  | none => simp [siblingsAfter_of_parent_none hp] at hy
  | some p =>
    rw [hwf.siblingsAfter_of_parent hp, List.getLast?_drop] at hy
    split at hy
    · cases hy
    · rw [List.getLast?_eq_getElem?] at hy
      have hlt := (List.getElem?_eq_some_iff.mp (Option.mem_def.mp hy)).1
      have hidx : (((t.children p).length - 1 : Nat) + (1 : Int)).toNat = (t.children p).length := by
        omega
      rw [hwf.sibling_of_getElem? (Option.mem_def.mp hy), if_pos (by omega), hidx,
        List.getElem?_eq_none (Nat.le_refl _)]

theorem mem_siblingsBefore {a b : Nat} : a ∈ t.siblingsBefore b ↔ t.Precedes a b := by
  constructor
  · intro h
    cases hp : t.parent b with
    | none =>
      rw [siblingsBefore_of_parent_none hp] at h
      cases h
    | some p =>
      rw [hwf.siblingsBefore_of_parent hp, List.mem_reverse] at h
      obtain ⟨i, hi⟩ := List.mem_iff_getElem?.mp h
      rw [List.getElem?_take] at hi
      split at hi
      · exact ⟨p, i, t.position b, ‹_›, hi, hwf.position hp⟩
      · cases hi
  · rintro ⟨p, i, j, hij, ha, hb⟩
    obtain ⟨hp, hpos⟩ := hwf.position_of_getElem? hb
    rw [hwf.siblingsBefore_of_parent hp, List.mem_reverse]
    refine List.mem_iff_getElem?.mpr ⟨i, ?_⟩
    rw [List.getElem?_take, if_pos (by omega)]
    exact ha

theorem mem_siblingsAfter {a b : Nat} : b ∈ t.siblingsAfter a ↔ t.Precedes a b := by
  constructor
  · intro h
    cases hp : t.parent a with
    | none =>
      rw [siblingsAfter_of_parent_none hp] at h
      cases h
    | some p =>
      rw [hwf.siblingsAfter_of_parent hp] at h
      obtain ⟨k, hk⟩ := List.mem_iff_getElem?.mp h
      rw [List.getElem?_drop] at hk
      exact ⟨p, t.position a, t.position a + 1 + k, by omega, hwf.position hp, hk⟩
  · rintro ⟨p, i, j, hij, ha, hb⟩
    obtain ⟨hp, hpos⟩ := hwf.position_of_getElem? ha
    rw [hwf.siblingsAfter_of_parent hp]
    refine List.mem_iff_getElem?.mpr ⟨j - (i + 1), ?_⟩
    rw [List.getElem?_drop, hpos]
    have hidx : i + 1 + (j - (i + 1)) = j := by omega
    rw [hidx]
    exact hb

end WellFormed

end Tree

end TreeQuery
