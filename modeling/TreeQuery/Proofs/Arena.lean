import TreeQuery.Tree.Basic
import TreeQuery.Tree.Load
import Mathlib.Data.List.Perm.Subperm
import Mathlib.Data.List.Nodup

/-!
# The shape of an arena tree

Every tree built from one root by the tree operations is well formed, and `appendChild` takes
effect exactly when the node is attachable.
-/

namespace TreeQuery

/-- One operation on an arena tree. An edit may change the data of a node in any way. -/
inductive TreeOp where
  | alloc (data : NodeData)
  | append (parent : Nat) (data : NodeData)
  | appendChild (parent child : Nat)
  | edit (id : Nat) (f : NodeData → NodeData)

namespace Tree

/-- Apply one operation; an edit of an unknown node changes nothing. -/
def apply (t : Tree) : TreeOp → Tree
  | .alloc data => (t.alloc data).1
  | .append parent data => (t.append parent data).1
  | .appendChild parent child => t.appendChild parent child
  | .edit id f => (t.updateData id f).getD t

def run (t : Tree) (ops : List TreeOp) : Tree := ops.foldl apply t

/-- A tree that some sequence of operations builds from a single root. -/
def Reachable (t : Tree) : Prop := ∃ root ops, t = (Tree.new root).run ops

/-- `a` is a proper ancestor of `b`: following parents from `b` reaches `a`. -/
def IsAncestor (t : Tree) (a b : Nat) : Prop :=
  Relation.TransGen (fun a b => t.parent b = some a) a b

/-- When `appendChild parent child` links `child`: both ids are valid, `child` is not the root,
is detached, and is neither `parent` nor one of its ancestors. -/
def CanAttach (t : Tree) (parent child : Nat) : Prop :=
  parent < t.size ∧ child < t.size ∧ child ≠ 0 ∧ t.parent child = none ∧ child ≠ parent ∧
    ¬ t.IsAncestor child parent

/-- The shape every reachable tree has. -/
structure WellFormed (t : Tree) : Prop where
  root_exists : 0 < t.size
  root_parent : t.parent 0 = none
  parent_iff : ∀ {c p}, t.parent c = some p ↔ c ∈ t.children p
  child_valid : ∀ {c p}, c ∈ t.children p → c < t.size
  nodup : ∀ p, (t.children p).Nodup
  position : ∀ {c p}, t.parent c = some p → (t.children p)[t.position c]? = some c
  acyclic : ∀ a, ¬ t.IsAncestor a a

theorem lt_size_of_get? {t : Tree} {id : Nat} {node : Node} (h : t.get? id = some node) :
    id < t.size := by
  simp only [get?] at h
  exact (Array.getElem?_eq_some_iff.mp h).1

theorem get?_eq_none {t : Tree} {id : Nat} (h : t.size ≤ id) : t.get? id = none := by
  simp [get?, size] at h ⊢
  exact h

theorem lt_size_of_parent {t : Tree} {c p : Nat} (h : t.parent c = some p) : c < t.size := by
  cases hg : t.get? c with
  | none => simp [parent, hg] at h
  | some node => exact lt_size_of_get? hg

theorem get?_of_lt {t : Tree} {id : Nat} (h : id < t.size) : ∃ node, t.get? id = some node := by
  have hn : id < t.nodes.size := h
  exact ⟨t.nodes[id], Array.getElem?_eq_getElem hn⟩

theorem children_of_size_le {t : Tree} {p : Nat} (h : t.size ≤ p) : t.children p = [] := by
  simp [children, get?_eq_none h]

theorem isAncestor_congr {t t' : Tree} (same : ∀ i, t'.parent i = t.parent i) :
    t'.IsAncestor = t.IsAncestor := by
  funext a b
  simp only [IsAncestor, same]

section Alloc

variable (t : Tree) (d : NodeData) (i : Nat)

theorem get?_alloc : (t.alloc d).1.get? i = if i = t.size then some { data := d } else t.get? i := by
  simp only [alloc, get?, size, Array.getElem?_push]
  rfl

@[simp] theorem size_alloc : (t.alloc d).1.size = t.size + 1 := by
  simp [alloc, size]

@[simp] theorem parent_alloc : (t.alloc d).1.parent i = t.parent i := by
  simp only [parent, get?_alloc]
  split
  · subst i
    simp [get?_eq_none (Nat.le_refl _)]
  · rfl

@[simp] theorem children_alloc : (t.alloc d).1.children i = t.children i := by
  simp only [children, get?_alloc]
  split
  · subst i
    simp [get?_eq_none (Nat.le_refl _)]
  · rfl

@[simp] theorem position_alloc : (t.alloc d).1.position i = t.position i := by
  simp only [position, get?_alloc]
  split
  · subst i
    simp [get?_eq_none (Nat.le_refl _)]
  · rfl

theorem data_alloc : (t.alloc d).1.data i = if i = t.size then d else t.data i := by
  simp only [data, get?_alloc]
  split <;> rfl

end Alloc

section Update

variable {t t' : Tree} {id : Nat} {f : NodeData → NodeData}

theorem get?_updateData (h : t.updateData id f = some t') (i : Nat) :
    t'.get? i = (t.get? i).map fun n => if i = id then { n with data := f n.data } else n := by
  simp only [updateData] at h
  split at h
  · cases h
    simp only [get?, Array.getElem?_modify]
    by_cases hi : id = i
    · subst hi
      simp
    · simp [hi, Ne.symm hi]
  · cases h

theorem size_updateData (h : t.updateData id f = some t') : t'.size = t.size := by
  simp only [updateData] at h
  split at h
  · cases h
    simp [size]
  · cases h

theorem parent_updateData (h : t.updateData id f = some t') (i : Nat) : t'.parent i = t.parent i := by
  simp only [parent, get?_updateData h]
  cases t.get? i <;> simp only [Option.map_none, Option.map_some, Option.bind_none, Option.bind_some]
  split <;> rfl

theorem children_updateData (h : t.updateData id f = some t') (i : Nat) :
    t'.children i = t.children i := by
  simp only [children, get?_updateData h]
  cases t.get? i <;> simp only [Option.map_none, Option.map_some]
  split <;> rfl

theorem position_updateData (h : t.updateData id f = some t') (i : Nat) :
    t'.position i = t.position i := by
  simp only [position, get?_updateData h]
  cases t.get? i <;> simp only [Option.map_none, Option.map_some]
  split <;> rfl

end Update

section AppendChild

variable {t : Tree} {p c : Nat}

theorem appendChild_of_not_attachable (h : t.attachable p c = false) : t.appendChild p c = t := by
  simp [appendChild, h]

theorem attachable_facts (h : t.attachable p c = true) :
    p < t.size ∧ c ≠ 0 ∧ t.parent c = none ∧ c ≠ p ∧ c ∉ t.ancestors p ∧ c < t.size := by
  simp only [attachable, Bool.and_eq_true, decide_eq_true_eq, bne_iff_ne, ne_eq,
    Option.isNone_iff_eq_none, Bool.not_eq_true'] at h
  obtain ⟨⟨⟨⟨⟨hp, h0⟩, hpar⟩, hne⟩, hanc⟩, hc⟩ := h
  refine ⟨hp, h0, hpar, hne, fun hm => ?_, hc⟩
  rw [List.contains_iff_mem.mpr hm] at hanc
  cases hanc

@[simp] theorem size_appendChild : (t.appendChild p c).size = t.size := by
  unfold appendChild
  split <;> simp [size]

theorem get?_appendChild (h : t.attachable p c = true) (i : Nat) :
    (t.appendChild p c).get? i =
      (t.get? i).map fun n =>
        if i = c then { n with parent := some p, position := (t.children p).length }
        else if i = p then { n with children := n.children.push c }
        else n := by
  obtain ⟨-, -, -, hne, -, -⟩ := attachable_facts h
  simp only [appendChild, h, if_true, get?, Array.getElem?_modify]
  by_cases hic : c = i
  · subst hic
    simp only [if_true, Ne.symm hne, if_false]
  · by_cases hip : p = i
    · subst hip
      simp [hic, Ne.symm hic]
    · simp [hic, hip, Ne.symm hic, Ne.symm hip]

theorem data_appendChild (i : Nat) : (t.appendChild p c).data i = t.data i := by
  cases h : t.attachable p c with
  | false => rw [appendChild_of_not_attachable h]
  | true =>
    simp only [data, get?_appendChild h]
    cases t.get? i <;> simp only [Option.map_none, Option.map_some]
    split
    · rfl
    · split <;> rfl

theorem parent_appendChild (h : t.attachable p c = true) (i : Nat) :
    (t.appendChild p c).parent i = if i = c then some p else t.parent i := by
  obtain ⟨-, -, -, -, -, hc⟩ := attachable_facts h
  simp only [parent, get?_appendChild h]
  by_cases hic : i = c
  · subst hic
    obtain ⟨node, hnode⟩ := get?_of_lt hc
    simp [hnode]
  · cases t.get? i <;> simp only [hic, if_false, Option.map_none, Option.map_some,
      Option.bind_none, Option.bind_some]
    split <;> rfl

theorem children_appendChild (h : t.attachable p c = true) (i : Nat) :
    (t.appendChild p c).children i = if i = p then t.children p ++ [c] else t.children i := by
  obtain ⟨hp, -, -, hne, -, -⟩ := attachable_facts h
  simp only [children, get?_appendChild h]
  by_cases hip : i = p
  · subst hip
    obtain ⟨node, hnode⟩ := get?_of_lt hp
    simp [hnode, Ne.symm hne]
  · cases t.get? i <;> simp only [hip, if_false, Option.map_none, Option.map_some]
    split <;> rfl

theorem position_appendChild (h : t.attachable p c = true) (i : Nat) :
    (t.appendChild p c).position i = if i = c then (t.children p).length else t.position i := by
  obtain ⟨-, -, -, -, -, hc⟩ := attachable_facts h
  simp only [position, get?_appendChild h]
  by_cases hic : i = c
  · subst hic
    obtain ⟨node, hnode⟩ := get?_of_lt hc
    simp [hnode]
  · cases t.get? i <;> simp only [hic, if_false, Option.map_none, Option.map_some]
    split <;> rfl

end AppendChild

section Climb

variable {t : Tree}

theorem climb_zero (o : Option Nat) : t.climb 0 o = [] := by
  cases o <;> rfl

theorem climb_none (n : Nat) : t.climb n none = [] := by
  cases n <;> rfl

theorem climb_succ_some (n p : Nat) : t.climb (n + 1) (some p) = p :: t.climb n (t.parent p) := rfl

theorem isAncestor_of_mem_climb {a x n : Nat} (h : a ∈ t.climb n (t.parent x)) :
    t.IsAncestor a x := by
  induction n generalizing x with
  | zero => simp [climb_zero] at h
  | succ n ih =>
    cases hp : t.parent x with
    | none => simp [hp, climb_none] at h
    | some p =>
      rw [hp, climb_succ_some, List.mem_cons] at h
      rcases h with rfl | h
      · exact .single hp
      · exact .tail (ih h) hp

theorem climb_isPrefix_of_le {m n : Nat} (hmn : m ≤ n) (o : Option Nat) : t.climb m o <+: t.climb n o := by
  induction m generalizing n o with
  | zero => simp [climb_zero]
  | succ m ih =>
    obtain ⟨n, rfl⟩ : ∃ k, n = k + 1 := ⟨n - 1, by omega⟩
    cases o with
    | none => simp [climb_none]
    | some p =>
      rw [climb_succ_some, climb_succ_some]
      exact (List.prefix_cons_inj p).mpr (ih (by omega) _)

theorem exists_climb_of_isAncestor {a x : Nat} (h : t.IsAncestor a x) :
    ∃ k, a ∈ t.climb (k + 1) (t.parent x) ∧ (t.climb (k + 1) (t.parent x)).length = k + 1 := by
  induction h with
  | single hp => exact ⟨0, by simp [hp, climb_succ_some, climb_zero]⟩
  | tail _ hp ih =>
    obtain ⟨k, hm, hl⟩ := ih
    refine ⟨k + 1, ?_, ?_⟩
    · rw [hp, climb_succ_some]
      exact List.mem_cons_of_mem _ hm
    · rw [hp, climb_succ_some, List.length_cons, hl]

theorem parent_getLast_climb {n x : Nat} (h : (t.climb n (t.parent x)).length < n) :
    t.parent ((x :: t.climb n (t.parent x)).getLast (List.cons_ne_nil _ _)) = none := by
  induction n generalizing x with
  | zero => omega
  | succ n ih =>
    cases hp : t.parent x with
    | none => simp [climb_none, hp]
    | some p =>
      rw [hp, climb_succ_some, List.length_cons] at h
      rw [climb_succ_some, List.getLast_cons (List.cons_ne_nil _ _)]
      exact ih (by omega)

end Climb

namespace WellFormed

variable {t : Tree} (hwf : t.WellFormed)
include hwf

theorem parent_lt_size {c p : Nat} (h : t.parent c = some p) : p < t.size := by
  have hm := hwf.parent_iff.mp h
  by_contra hp
  rw [children_of_size_le (by omega)] at hm
  simp at hm

theorem lt_size_of_isAncestor {a x : Nat} (h : t.IsAncestor a x) : a < t.size := by
  induction h with
  | single hp => exact hwf.parent_lt_size hp
  | tail _ _ ih => exact ih

theorem nodup_climb (n x : Nat) : (x :: t.climb n (t.parent x)).Nodup := by
  induction n generalizing x with
  | zero => simp [climb_zero]
  | succ n ih =>
    refine List.nodup_cons.mpr ⟨fun hm => hwf.acyclic x (isAncestor_of_mem_climb hm), ?_⟩
    cases t.parent x with
    | none => simp [climb_none]
    | some p => exact ih p

theorem length_climb_lt (n x : Nat) : (t.climb n (t.parent x)).length < t.size := by
  cases hp : t.parent x with
  | none => simpa [climb_none] using hwf.root_exists
  | some p =>
    have hsub : x :: t.climb n (t.parent x) ⊆ List.range t.size := by
      intro a ha
      rcases List.mem_cons.mp ha with rfl | ha
      · exact List.mem_range.mpr (lt_size_of_parent hp)
      · exact List.mem_range.mpr (hwf.lt_size_of_isAncestor (isAncestor_of_mem_climb ha))
    have hle := (List.Nodup.subperm (hwf.nodup_climb n x) hsub).length_le
    rw [hp] at hle
    simp only [List.length_cons, List.length_range] at hle
    omega

theorem mem_ancestors {a x : Nat} : a ∈ t.ancestors x ↔ t.IsAncestor a x := by
  refine ⟨isAncestor_of_mem_climb, fun h => ?_⟩
  obtain ⟨k, hm, hl⟩ := exists_climb_of_isAncestor h
  have hlt := hwf.length_climb_lt (k + 1) x
  exact (climb_isPrefix_of_le (by omega) _).subset hm

theorem exists_top (x : Nat) : ∃ top, t.parent top = none ∧ (top = x ∨ t.IsAncestor top x) := by
  have hlt := hwf.length_climb_lt t.size x
  refine ⟨_, parent_getLast_climb hlt, ?_⟩
  rcases List.mem_cons.mp (List.getLast_mem (List.cons_ne_nil x (t.climb t.size (t.parent x))))
    with h | h
  · exact .inl h
  · exact .inr (isAncestor_of_mem_climb h)

theorem attachable_iff {p c : Nat} : t.attachable p c = true ↔ t.CanAttach p c := by
  constructor
  · intro h
    obtain ⟨hp, h0, hpar, hne, hanc, hc⟩ := attachable_facts h
    exact ⟨hp, hc, h0, hpar, hne, fun ha => hanc (hwf.mem_ancestors.mpr ha)⟩
  · rintro ⟨hp, hc, h0, hpar, hne, hanc⟩
    have hm : c ∉ t.ancestors p := fun hm => hanc (hwf.mem_ancestors.mp hm)
    simp [attachable, hp, hc, h0, hpar, hne, hm]

end WellFormed

section Preservation

variable {t : Tree}

theorem parent_new (root : NodeData) (i : Nat) : (Tree.new root).parent i = none := by
  cases i <;> simp [Tree.new, parent, get?]

theorem children_new (root : NodeData) (i : Nat) : (Tree.new root).children i = [] := by
  cases i <;> simp [Tree.new, children, get?]

theorem wellFormed_new (root : NodeData) : (Tree.new root).WellFormed where
  root_exists := by simp [Tree.new, size]
  root_parent := parent_new root 0
  parent_iff := by simp [parent_new, children_new]
  child_valid := by simp [children_new]
  nodup := by simp [children_new]
  position := by simp [parent_new]
  acyclic := by
    intro a h
    cases h with
    | single h => simp [parent_new] at h
    | tail _ h => simp [parent_new] at h

theorem WellFormed.alloc (hwf : t.WellFormed) (d : NodeData) : (t.alloc d).1.WellFormed where
  root_exists := by simp
  root_parent := by simpa using hwf.root_parent
  parent_iff := by
    intro c p
    simp only [parent_alloc, children_alloc]
    exact hwf.parent_iff
  child_valid := fun h => by
    have := hwf.child_valid (by simpa using h)
    simp only [size_alloc]
    omega
  nodup := fun p => by simpa using hwf.nodup p
  position := fun h => by simpa using hwf.position (by simpa using h)
  acyclic := by
    rw [isAncestor_congr (parent_alloc t d)]
    exact hwf.acyclic

theorem WellFormed.updateData (hwf : t.WellFormed) {id : Nat} {f : NodeData → NodeData} {t' : Tree}
    (h : t.updateData id f = some t') : t'.WellFormed where
  root_exists := by rw [size_updateData h]; exact hwf.root_exists
  root_parent := by rw [parent_updateData h]; exact hwf.root_parent
  parent_iff := by
    intro c p
    rw [parent_updateData h, children_updateData h]
    exact hwf.parent_iff
  child_valid := fun hm => by
    rw [size_updateData h]
    exact hwf.child_valid (by rwa [children_updateData h] at hm)
  nodup := fun p => by rw [children_updateData h]; exact hwf.nodup p
  position := fun hp => by
    rw [children_updateData h, position_updateData h]
    exact hwf.position (by rwa [parent_updateData h] at hp)
  acyclic := by
    rw [isAncestor_congr (parent_updateData h)]
    exact hwf.acyclic

theorem isAncestor_appendChild (hwf : t.WellFormed) {p c : Nat} (h : t.attachable p c = true)
    {a b : Nat} (hab : (t.appendChild p c).IsAncestor a b) :
    t.IsAncestor a b ∨ ((a = p ∨ t.IsAncestor a p) ∧ (b = c ∨ t.IsAncestor c b)) := by
  obtain ⟨-, -, -, -, hne, hanc⟩ := (hwf.attachable_iff).mp h
  induction hab with
  | single hs =>
    rw [parent_appendChild h] at hs
    split at hs
    · exact .inr ⟨.inl (Option.some.inj hs).symm, .inl ‹_›⟩
    · exact .inl (.single hs)
  | @tail m x _ hs ih =>
    rw [parent_appendChild h] at hs
    split at hs
    · cases hs
      rcases ih with old | ⟨_, hp | hp⟩
      · exact .inr ⟨.inr old, .inl ‹_›⟩
      · exact absurd hp.symm hne
      · exact absurd hp hanc
    · rcases ih with old | ⟨above, hm | hm⟩
      · exact .inl (.tail old hs)
      · subst hm
        exact .inr ⟨above, .inr (.single hs)⟩
      · exact .inr ⟨above, .inr (.tail hm hs)⟩

theorem WellFormed.appendChild (hwf : t.WellFormed) (p c : Nat) : (t.appendChild p c).WellFormed := by
  cases h : t.attachable p c with
  | false => rw [appendChild_of_not_attachable h]; exact hwf
  | true =>
    obtain ⟨hp, hc, h0, hpar, hne, hanc⟩ := (hwf.attachable_iff).mp h
    have hcp : ∀ q, c ∉ t.children q := fun q hm => by
      rw [← hwf.parent_iff, hpar] at hm
      cases hm
    refine ⟨by simpa using hwf.root_exists, ?_, ?_, ?_, ?_, ?_, ?_⟩
    · rw [parent_appendChild h, if_neg (Ne.symm h0)]
      exact hwf.root_parent
    · intro x q
      rw [parent_appendChild h, children_appendChild h]
      by_cases hx : x = c <;> by_cases hq : q = p
      · simp [hx, hq]
      · simp only [hx, hq, if_true, if_false, Option.some.injEq]
        exact ⟨fun e => absurd e.symm hq, fun hm => absurd hm (hcp q)⟩
      · simp [hx, hq, hwf.parent_iff]
      · simp [hx, hq, hwf.parent_iff]
    · intro x q hm
      rw [children_appendChild h] at hm
      rw [size_appendChild]
      split at hm
      · rcases List.mem_append.mp hm with hm | hm
        · exact hwf.child_valid hm
        · rw [List.mem_singleton.mp hm]
          exact hc
      · exact hwf.child_valid hm
    · intro q
      rw [children_appendChild h]
      split
      · subst q
        refine List.nodup_append.mpr ⟨hwf.nodup p, by simp, ?_⟩
        intro a ha b hb hab
        rw [List.mem_singleton.mp hb] at hab
        exact hcp p (hab ▸ ha)
      · exact hwf.nodup q
    · intro x q hx
      rw [parent_appendChild h] at hx
      rw [position_appendChild h, children_appendChild h]
      split at hx
      · cases hx
        simp [*]
      · have hold := hwf.position hx
        have hxc : x ≠ c := ‹_›
        simp only [hxc, if_false]
        split
        · subst q
          rw [List.getElem?_append_left (List.getElem?_eq_some_iff.mp hold).1]
          exact hold
        · exact hold
    · intro a ha
      rcases isAncestor_appendChild hwf h ha with old | ⟨ha1 | ha1, ha2 | ha2⟩
      · exact hwf.acyclic a old
      · exact hne (ha2.symm.trans ha1)
      · subst ha1
        exact hanc ha2
      · subst ha2
        exact hanc ha1
      · exact hanc (Relation.TransGen.trans ha2 ha1)

theorem WellFormed.apply (hwf : t.WellFormed) : ∀ op, (t.apply op).WellFormed
  | .alloc d => hwf.alloc d
  | .append p d => (hwf.alloc d).appendChild p _
  | .appendChild p c => hwf.appendChild p c
  | .edit i f => by
    cases h : t.updateData i f with
    | none => simpa [Tree.apply, h] using hwf
    | some t' => simpa [Tree.apply, h] using hwf.updateData h

theorem WellFormed.run (hwf : t.WellFormed) (ops : List TreeOp) : (t.run ops).WellFormed := by
  induction ops generalizing t with
  | nil => exact hwf
  | cons op ops ih => exact ih (hwf.apply op)

theorem Reachable.wellFormed (h : t.Reachable) : t.WellFormed := by
  obtain ⟨root, ops, rfl⟩ := h
  exact (wellFormed_new root).run ops

theorem Reachable.apply (h : t.Reachable) (op : TreeOp) : (t.apply op).Reachable := by
  obtain ⟨root, ops, rfl⟩ := h
  exact ⟨root, ops ++ [op], by simp [Tree.run, List.foldl_append]⟩

end Preservation

section Loading

theorem Reachable.place {parent : Nat} {kids : List Description}
    {acc res : Tree × List (Nat × List Description)} (h : acc.1.Reachable)
    (hf : kids.foldlM (Tree.grow.place parent) acc = .ok res) : res.1.Reachable := by
  induction kids generalizing acc with
  | nil =>
    cases hf
    exact h
  | cons kid kids ih =>
    obtain ⟨t, pushed⟩ := acc
    rw [List.foldlM_cons] at hf
    cases hd : kid.toData with
    | error e =>
      simp only [Tree.grow.place, hd] at hf
      cases hf
    | ok data =>
      simp only [Tree.grow.place, hd] at hf
      exact ih (h.apply (.append parent data)) hf

theorem Reachable.grow {fuel : Nat} {t t' : Tree} {stack : List (Nat × List Description)}
    (h : t.Reachable) (hg : Tree.grow fuel t stack = .ok t') : t'.Reachable := by
  induction fuel generalizing t stack with
  | zero =>
    rw [Tree.grow] at hg
    cases hg
    exact h
  | succ fuel ih =>
    cases stack with
    | nil =>
      rw [Tree.grow] at hg
      cases hg
      exact h
    | cons entry stack =>
      obtain ⟨parent, kids⟩ := entry
      rw [Tree.grow] at hg
      cases hf : kids.foldlM (Tree.grow.place parent) (t, []) with
      | error e =>
        simp only [hf] at hg
        cases hg
      | ok res =>
        simp only [hf] at hg
        exact ih (Reachable.place h hf) hg

theorem ofDescription_reachable {d : Description} {t : Tree} (h : Tree.ofDescription d = .ok t) :
    t.Reachable := by
  rw [Tree.ofDescription] at h
  cases hd : d.toData with
  | error e =>
    simp only [hd] at h
    cases h
  | ok root =>
    simp only [hd] at h
    exact Reachable.grow ⟨root, [], rfl⟩ h

/-- Every tree loaded from a JSON text is reachable, and so well formed. -/
theorem load_reachable {text : String} {t : Tree} (h : Tree.load text = .ok t) : t.Reachable := by
  rw [Tree.load] at h
  split at h
  · rw [Tree.ofValue] at h
    split at h
    · exact ofDescription_reachable h
    · cases h
  · cases h

end Loading

theorem WellFormed.appendChild_ne_iff {t : Tree} (hwf : t.WellFormed) {p c : Nat} :
    t.appendChild p c ≠ t ↔ t.CanAttach p c := by
  constructor
  · intro hne
    by_contra hn
    apply hne
    apply appendChild_of_not_attachable
    cases hb : t.attachable p c with
    | false => rfl
    | true => exact absurd (hwf.attachable_iff.mp hb) hn
  · intro hcan heq
    have hkids := congrArg (fun t => t.children p) heq
    simp [children_appendChild (hwf.attachable_iff.mpr hcan)] at hkids

/-- Every sequence of operations from a single root keeps the arena a forest: parent links and
children lists agree, a child sits exactly once in exactly one list, at its recorded position,
and every ancestor chain ends. `appendChild` changes the tree exactly when the link is allowed,
and then only appends the child to its new parent and records the child's parent and
position. -/
theorem run_arena_shape (root : NodeData) (ops : List TreeOp) :
    let t := (Tree.new root).run ops
    t.parent 0 = none ∧
    (∀ c p, t.parent c = some p ↔ c ∈ t.children p) ∧
    (∀ c p, t.parent c = some p →
      p < t.size ∧ (t.children p).count c = 1 ∧ (t.children p)[t.position c]? = some c) ∧
    (∀ c p q, c ∈ t.children p → c ∈ t.children q → p = q) ∧
    (∀ a, ¬ t.IsAncestor a a) ∧
    (∀ c, ∃ top, t.parent top = none ∧ (top = c ∨ t.IsAncestor top c)) ∧
    ∀ p c, (t.appendChild p c ≠ t ↔ t.CanAttach p c) ∧
      (t.CanAttach p c → (t.appendChild p c).size = t.size ∧
        ∀ i, (t.appendChild p c).data i = t.data i ∧
          (t.appendChild p c).children i = (if i = p then t.children p ++ [c] else t.children i) ∧
          (t.appendChild p c).parent i = (if i = c then some p else t.parent i) ∧
          (t.appendChild p c).position i =
            (if i = c then (t.children p).length else t.position i)) := by
  intro t
  have hwf : t.WellFormed := (wellFormed_new root).run ops
  refine ⟨hwf.root_parent, fun c p => hwf.parent_iff, ?_, ?_, hwf.acyclic, hwf.exists_top, ?_⟩
  · intro c p h
    have hm := hwf.parent_iff.mp h
    exact ⟨hwf.parent_lt_size h, List.count_eq_one_of_mem (hwf.nodup p) hm, hwf.position h⟩
  · intro c p q hp hq
    rw [← hwf.parent_iff] at hp hq
    exact Option.some.inj (hp.symm.trans hq)
  · intro p c
    refine ⟨hwf.appendChild_ne_iff, fun hcan => ?_⟩
    have h := hwf.attachable_iff.mpr hcan
    exact ⟨size_appendChild, fun i => ⟨data_appendChild i, children_appendChild h i,
      parent_appendChild h i, position_appendChild h i⟩⟩

end Tree

end TreeQuery
