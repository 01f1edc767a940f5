import TreeQuery.Proofs.Preorder
import TreeQuery.Proofs.ReaderProgress
import TreeQuery.Proofs.Compiled
import TreeQuery.Proofs.ChainText
import TreeQuery.Tree.Pseudo

/-!
# No bound decides an answer

The walks of a tree are bounded by the size of its arena and compiling `:not` by the length
of its text; on a well-formed tree neither bound is ever reached.
-/

namespace TreeQuery

namespace Tree

theorem climb_eq_of_le {t : Tree} {m n : Nat} {o : Option Nat} (hm : (t.climb m o).length < m)
    (hmn : m ≤ n) : t.climb n o = t.climb m o := by
  induction n, hmn using Nat.le_induction with
  | base => rfl
  | succ n hmn ih =>
    have hlt : (t.climb n o).length < n := by
      rw [ih]
      omega
    rw [climb_succ_of_length_lt hlt, ih]

namespace WellFormed

variable {t : Tree} (hwf : t.WellFormed)
include hwf

theorem climb_parent_eq_ancestors {n : Nat} (x : Nat) (hn : t.size ≤ n) :
    t.climb n (t.parent x) = t.ancestors x :=
  climb_eq_of_le (hwf.length_climb_lt t.size x) hn

theorem parent_getLast_ancestors (x : Nat) :
    t.parent ((x :: t.ancestors x).getLast (List.cons_ne_nil _ _)) = none :=
  parent_getLast_climb (hwf.length_climb_lt t.size x)

theorem subtreeWithin_eq_subtree {n : Nat} (x : Nat) (hn : t.size ≤ n) :
    t.subtreeWithin n x = t.subtree x := by
  induction n, hn using Nat.le_induction with
  | base => rfl
  | succ n hn ih => rw [hwf.subtreeWithin_succ_eq (by omega), ih]

theorem preorderFrom_root_eq_preorder {n : Nat} (hn : t.size ≤ n) :
    t.preorderFrom n [0] = t.preorder := by
  have hlen := hwf.length_subtree_le hwf.root_exists
  rw [hwf.preorderFrom_eq (by simpa using hlen.trans hn), hwf.preorder_eq_subtree]
  simp

theorem searchBelow_eq_of_size_le (hooks : Hooks) (rest : List Selector.Step) {n : Nat} (x : Nat)
    (hn : t.size ≤ n) : searchBelow t hooks rest n x = searchBelow t hooks rest t.size x := by
  rw [searchBelow_eq, searchBelow_eq, hwf.subtreeWithin_eq_subtree x (by omega),
    hwf.subtreeWithin_eq_subtree x (by omega)]

theorem collectBelow_eq_of_size_le (hooks : Hooks) (m : Selector.Matcher) (limit : Option Nat)
    {n : Nat} (x : Nat) (found : List Nat) (hn : t.size ≤ n) :
    collectBelow t hooks m limit n x found = collectBelow t hooks m limit t.size x found := by
  rw [collectBelow_eq_collectFrom, collectBelow_eq_collectFrom, hwf.subtreeWithin_eq_subtree x hn]
  rfl

theorem isVisible_iff (x : Nat) :
    t.isVisible x = true ↔
      ∀ n, (n = x ∨ t.IsAncestor n x) → (t.data n).properties.getD "visible" ≠ "false" := by
  simp [isVisible, hwf.mem_ancestors]

end WellFormed

/-- The walks of a tree reach their natural end within the arena's size. -/
structure WalksEnd (t : Tree) : Prop where
  /-- More fuel changes no walk. -/
  climb_fuel : ∀ n x, t.size ≤ n → t.climb n (t.parent x) = t.ancestors x
  subtree_fuel : ∀ n x, t.size ≤ n → t.subtreeWithin n x = t.subtree x
  preorder_fuel : ∀ n, t.size ≤ n → t.preorderFrom n [0] = t.preorder
  sibling_fuel : ∀ n x, t.size ≤ n → t.siblingWalk (-1) n (t.sibling x (-1)) = t.siblingsBefore x ∧
    t.siblingWalk 1 n (t.sibling x 1) = t.siblingsAfter x
  search_fuel : ∀ hooks rest n x, t.size ≤ n →
    searchBelow t hooks rest n x = searchBelow t hooks rest t.size x
  collect_fuel : ∀ hooks m limit n x found, t.size ≤ n →
    collectBelow t hooks m limit n x found = collectBelow t hooks m limit t.size x found
  /-- The walk up stops at a node without parent, having met every ancestor. -/
  ancestors_top : ∀ x, t.parent ((x :: t.ancestors x).getLast (List.cons_ne_nil _ _)) = none
  mem_ancestors : ∀ a x, a ∈ t.ancestors x ↔ t.IsAncestor a x
  /-- A subtree walk is the node, then its children's subtrees, and meets every descendant. -/
  subtree_children : ∀ x, t.subtree x = x :: (t.children x).flatMap t.subtree
  mem_subtree : ∀ x d, d ∈ t.subtree x ↔ d = x ∨ t.IsAncestor x d
  /-- The sibling walks stop at the first and the last child, having met every sibling on
  their side. -/
  siblings_end : ∀ x, (∀ y ∈ (t.siblingsBefore x).getLast?, t.sibling y (-1) = none) ∧
    ∀ y ∈ (t.siblingsAfter x).getLast?, t.sibling y 1 = none
  mem_siblings : ∀ a b, (a ∈ t.siblingsBefore b ↔ t.Precedes a b) ∧
    (b ∈ t.siblingsAfter a ↔ t.Precedes a b)
  /-- The checks that read the walk up decide their conditions over the whole chain. -/
  attachable : ∀ p c, t.attachable p c = true ↔ t.CanAttach p c
  visible : ∀ x, t.isVisible x = true ↔
    ∀ n, (n = x ∨ t.IsAncestor n x) → (t.data n).properties.getD "visible" ≠ "false"

theorem WellFormed.walksEnd {t : Tree} (hwf : t.WellFormed) : t.WalksEnd where
  climb_fuel _ x hn := hwf.climb_parent_eq_ancestors x hn
  subtree_fuel _ x hn := hwf.subtreeWithin_eq_subtree x hn
  preorder_fuel _ hn := hwf.preorderFrom_root_eq_preorder hn
  sibling_fuel _ x hn := hwf.siblingWalk_eq_of_size_le x hn
  search_fuel hooks rest _ x hn := hwf.searchBelow_eq_of_size_le hooks rest x hn
  collect_fuel hooks m limit _ x found hn := hwf.collectBelow_eq_of_size_le hooks m limit x found hn
  ancestors_top := hwf.parent_getLast_ancestors
  mem_ancestors _ _ := hwf.mem_ancestors
  subtree_children := hwf.subtree_eq
  mem_subtree _ _ := hwf.mem_subtree
  siblings_end _ := ⟨fun _ hy => hwf.sibling_getLast_siblingsBefore hy,
    fun _ hy => hwf.sibling_getLast_siblingsAfter hy⟩
  mem_siblings _ _ := ⟨hwf.mem_siblingsBefore, hwf.mem_siblingsAfter⟩
  attachable _ _ := hwf.attachable_iff
  visible := hwf.isVisible_iff

end Tree

namespace Selector

theorem compilePart_congr_bound {b b' : Nat} {p : Part}
    (hb : p.kind = .pseudoClass → ∀ a, p.arg = some a → (a.length < b ↔ a.length < b')) :
    compilePart b p = compilePart b' p := by
  rw [compilePart, compilePart]
  cases hk : p.kind with
  | pseudoClass =>
    dsimp only
    cases PseudoClass.ofName? p.ident with
    | none => rfl
    | some pc =>
      dsimp only
      cases pc.structural? <;> cases pc.nthCount? <;> cases harg : p.arg with
      | some a =>
        -- the one branch that reads the bound is `:not` with an argument
        simp only [hb hk a harg]
      | none => rfl
  | _ => rfl

theorem compileParts_congr_bound {b b' : Nat} {ps : List Part}
    (hb : ∀ p ∈ ps, p.kind = .pseudoClass → ∀ a, p.arg = some a → (a.length < b ↔ a.length < b')) :
    compileParts b ps = compileParts b' ps := by
  induction ps with
  | nil => rw [compileParts, compileParts]
  | cons p ps ih =>
    rw [compileParts, compileParts, compilePart_congr_bound (hb p List.mem_cons_self),
      ih fun q hq => hb q (List.mem_cons_of_mem p hq)]

theorem compileWithin_congr_bound {b b' : Nat} {chain : Chain}
    (hb : ∀ p ∈ chain.parts, p.kind = .pseudoClass → ∀ a, p.arg = some a →
      (a.length < b ↔ a.length < b')) :
    compileWithin b chain = compileWithin b' chain := by
  rw [compileWithin, compileWithin, compileParts_congr_bound hb]

theorem pseudoArg_infix_of_parse {s : String} {chain : Chain} (h : Chain.parse s = .ok chain)
    {p : Part} (hp : p ∈ chain.parts) (hk : p.kind = .pseudoClass) {a : String}
    (ha : p.arg = some a) : a.toList <:+: s.toList ∧ a.length < s.length :=
  (readChain_selectorText h).argIn p hp hk a ha

theorem compileWithin_eq_parse {s : String} {chain : Chain} (h : Chain.parse s = .ok chain)
    {b : Nat} (hb : s.length ≤ b) : compileWithin b chain = Matcher.parse s := by
  rw [Matcher.parse, h]
  dsimp only
  apply compileWithin_congr_bound
  intro p hp hk a ha
  have hlt := (pseudoArg_infix_of_parse h hp hk ha).2
  constructor <;> intro <;> omega

end Selector

/-- No bound decides an answer. On every tree the tree operations build, and every tree loaded
from a description, the walks reach their natural end within the arena's size. For every text
the reader accepts, each pseudo-class argument is a piece of the text strictly shorter than
it, and compiling the chain under any bound from the text's length on gives the matcher read
from the text. -/
theorem bounds_never_cut_walks :
    (∀ t : Tree, t.Reachable → t.WalksEnd) ∧
    (∀ text t, Tree.load text = .ok t → t.WalksEnd) ∧
    ∀ (s : String) (chain : Selector.Chain), Selector.Chain.parse s = .ok chain →
      (∀ p ∈ chain.parts, p.kind = .pseudoClass → ∀ a, p.arg = some a →
        a.toList <:+: s.toList ∧ a.length < s.length) ∧
      ∀ b, s.length ≤ b → Selector.compileWithin b chain = Selector.Matcher.parse s :=
  ⟨fun _ ht => ht.wellFormed.walksEnd,
    fun _ _ h => (Tree.load_reachable h).wellFormed.walksEnd,
    fun _ _ h => ⟨fun _ hp hk _ ha => Selector.pseudoArg_infix_of_parse h hp hk ha,
      fun _ hb => Selector.compileWithin_eq_parse h hb⟩⟩

theorem bounds_never_cut_walks_not :
    let t := (Tree.new { types := ["r"] }).run
      [.append 0 { types := ["a"] }, .append 0 { types := ["b"] }, .append 1 { types := ["c"] }]
    t.Reachable ∧ t.WalksEnd ∧ t.siblingsAfter 1 = [2] ∧ t.siblingsBefore 2 = [1] ∧
    t.subtree 0 = [0, 1, 3, 2] ∧
    (∃ t', Tree.load "\x7b\"type\":\"A\",\"children\":[\x7b\"type\":\"B\",\"children\":[\x7b\"type\":\"C\"\x7d]\x7d,\x7b\"type\":\"D\"\x7d]\x7d" = .ok t' ∧
      t'.WalksEnd) ∧
    Selector.Chain.parse ":not(a > b)" =
      .ok ⟨[{ kind := .pseudoClass, ident := "not", arg := some "a > b" }]⟩ ∧
    (∀ p ∈ [({ kind := .pseudoClass, ident := "not", arg := some "a > b" } : Selector.Part)],
      p.kind = .pseudoClass → ∀ a, p.arg = some a →
        a.toList <:+: ":not(a > b)".toList ∧ a.length < ":not(a > b)".length) ∧
    ∀ b, ":not(a > b)".length ≤ b →
      Selector.compileWithin b ⟨[{ kind := .pseudoClass, ident := "not", arg := some "a > b" }]⟩ =
        Selector.Matcher.parse ":not(a > b)" := by
  intro t
  have hreach : t.Reachable := ⟨_, _, rfl⟩
  have hload : (Tree.load "\x7b\"type\":\"A\",\"children\":[\x7b\"type\":\"B\",\"children\":[\x7b\"type\":\"C\"\x7d]\x7d,\x7b\"type\":\"D\"\x7d]\x7d").toOption.isSome = true := by
    decide +kernel
  obtain ⟨t', ht'⟩ := Option.isSome_iff_exists.mp hload
  have hparse : Selector.Chain.parse ":not(a > b)" =
      .ok ⟨[{ kind := .pseudoClass, ident := "not", arg := some "a > b" }]⟩ :=
    Selector.eq_ok_of_toOption (by decide +kernel)
  have hafter : t.siblingsAfter 1 = [2] := by decide +kernel
  have hbefore : t.siblingsBefore 2 = [1] := by decide +kernel
  have hsub : t.subtree 0 = [0, 1, 3, 2] := by decide +kernel
  exact ⟨hreach, bounds_never_cut_walks.1 _ hreach, hafter, hbefore, hsub,
    ⟨t', Selector.eq_ok_of_toOption ht', bounds_never_cut_walks.2.1 _ t' (Selector.eq_ok_of_toOption ht')⟩,
    hparse, bounds_never_cut_walks.2.2 _ _ hparse⟩

end TreeQuery
