import TreeQuery.Match
import TreeQuery.Proofs.ArenaWalks
import TreeQuery.Proofs.Compiled
import TreeQuery.Proofs.ChainText

/-!
# What a match finds

A match succeeds exactly when the candidate extends, compound by compound, along nodes that
the combinators relate; the order in which the walks try candidates decides only the notes.
-/

namespace TreeQuery

namespace Logged

theorem bind_eq {α β : Type} (x : Logged α) (f : α → Logged β) :
    x >>= f = ⟨(f x.value).value, x.notes ++ (f x.value).notes⟩ := rfl

@[simp] theorem pure_value {α : Type} (a : α) : (pure a : Logged α).value = a := rfl

@[simp] theorem pure_notes {α : Type} (a : α) : (pure a : Logged α).notes = [] := rfl

@[simp] theorem bind_value {α β : Type} (x : Logged α) (f : α → Logged β) :
    (x >>= f).value = (f x.value).value := rfl

theorem ext {α : Type} {x y : Logged α} (hv : x.value = y.value) (hn : x.notes = y.notes) :
    x = y := by
  cases x
  cases y
  simp_all

theorem bind_assoc {α β γ : Type} (x : Logged α) (f : α → Logged β) (g : β → Logged γ) :
    x >>= f >>= g = x >>= fun a => f a >>= g :=
  ext rfl (List.append_assoc _ _ _)

end Logged

theorem firstSome_nil {α β : Type} (f : α → Logged (Option β)) : firstSome [] f = pure none := rfl

theorem firstSome_cons {α β : Type} (a : α) (as : List α) (f : α → Logged (Option β)) :
    (firstSome (a :: as) f).value =
      match (f a).value with
      | some b => some b
      | none => (firstSome as f).value := by
  simp only [firstSome, Logged.bind_value]
  cases (f a).value <;> rfl

theorem exists_of_firstSome_eq_some {α β : Type} {l : List α} {f : α → Logged (Option β)}
    {b : β} (h : (firstSome l f).value = some b) : ∃ a ∈ l, (f a).value = some b := by
  induction l with
  | nil => simp [firstSome_nil] at h
  | cons a as ih =>
    rw [firstSome_cons] at h
    cases ha : (f a).value with
    | none =>
      rw [ha] at h
      obtain ⟨x, hx, hfx⟩ := ih h
      exact ⟨x, List.mem_cons_of_mem _ hx, hfx⟩
    | some b' =>
      rw [ha] at h
      exact ⟨a, List.mem_cons_self, ha.trans h⟩

theorem firstSome_isSome {α β : Type} {l : List α} {f : α → Logged (Option β)} :
    (firstSome l f).value.isSome ↔ ∃ a ∈ l, (f a).value.isSome := by
  induction l with
  | nil => simp [firstSome_nil]
  | cons a as ih =>
    rw [firstSome_cons]
    cases ha : (f a).value with
    | none => simp [ih, ha]
    | some b => simp [ha]

theorem firstSome_singleton {α β : Type} (a : α) (f : α → Logged (Option β)) :
    (firstSome [a] f).value = (f a).value := by
  rw [firstSome_cons]
  cases (f a).value <;> rfl

theorem firstSome_append {α β : Type} (l₁ l₂ : List α) (f : α → Logged (Option β)) :
    firstSome (l₁ ++ l₂) f = (do
      match ← firstSome l₁ f with
      | some b => pure (some b)
      | none => firstSome l₂ f) := by
  induction l₁ with
  | nil => rfl
  | cons a l₁ ih =>
    rw [List.cons_append, firstSome, firstSome, ih, Logged.bind_assoc]
    congr 1
    funext o
    cases o <;> rfl

theorem firstSome_flatMap {α γ β : Type} (l : List α) (g : α → List γ) (f : γ → Logged (Option β)) :
    firstSome (l.flatMap g) f = firstSome l fun a => firstSome (g a) f := by
  induction l with
  | nil => rfl
  | cons a l ih =>
    rw [List.flatMap_cons, firstSome_append, ih]
    rfl

theorem firstSome_toList {α β : Type} (o : Option α) (f : α → Logged (Option β)) :
    (firstSome o.toList f).value = o.elim none fun a => (f a).value := by
  cases o with
  | none => rfl
  | some a => exact firstSome_singleton a f

open Selector

variable (t : Tree) (hooks : Hooks)

/-- The tree relation a combinator asks between the node before it and the node after it. -/
def Selector.Combinator.Relates : Combinator → Nat → Nat → Prop
  | .descendant, a, b => t.IsAncestor a b
  | .child, a, b => t.parent b = some a
  | .adjacent, a, b => t.ImmediatelyPrecedes a b
  | .neighboring, a, b => t.Precedes a b

/-- What a step that stays on its node asks of it. A `:not` holds where the selector it
negates does not match; a custom pseudo-class holds unless the tree says it does not. -/
def Selector.Step.Holds : Step → Nat → Prop
  | .universal, _ => True
  | .idIs ident, x => (t.data x).id = ident
  | .typeIs ident, x => typeMatches (t.data x).typeName ident = true
  | .classIs ident, x => (t.data x).types.any (typeMatches · ident) = true
  | .attribute name op caseless value, x =>
    attributeHolds (t.data x).properties name op caseless value = true
  | .structural p, x => structuralHolds t hooks p x = true
  | .nth count f, x => nthHolds t count f x = true
  | .negation before after, x => (matchSteps t hooks before after x).value = none
  | .custom name arg, x => (askTree t hooks x name arg).value ≠ .noMatch
  | .subject, _ => False
  | .pseudoElement _ _, _ => False
  | .combinator _, _ => False

/-- One step of a selector read left to right, from the node it starts on to the node the rest
continues from. The subject marker is not a move. -/
def Selector.Step.Moves : Step → Nat → Nat → Prop
  | .subject, _, _ => False
  | .pseudoElement name arg, x, y =>
    (askTree t hooks x name arg).value = .matched ∧ y = x ∨
      (askTree t hooks x name arg).value = .node y
  | .combinator c, x, y => c.Relates t x y
  | s, x, y => s.Holds t hooks x ∧ y = x

/-- Steps read left to right lead from `x` to `y` and designate `d`: the node the walk stands on
at the first subject marker, or `y` when there is none. -/
inductive StepPath : List Step → Nat → Nat → Nat → Prop
  | nil (x : Nat) : StepPath [] x x x
  | subject {rest : List Step} {x y d : Nat} :
    StepPath rest x y d → StepPath (.subject :: rest) x y x
  | step {s : Step} {rest : List Step} {x x' y d : Nat} :
    s.Moves t hooks x x' → StepPath rest x' y d → StepPath (s :: rest) x y d

/-- The nodes a step hands to the rest of a walk in a direction, in the order they are tried. -/
def Selector.Step.nexts (dir : Direction) : Step → Nat → List Nat
  | .subject, x => [x]
  | .pseudoElement name arg, x =>
    match (askTree t hooks x name arg).value with
    | .noMatch => []
    | .matched => [x]
    | .node y => [y]
  | .combinator c, x =>
    match c, dir with
    | .child, .up => (t.parent x).toList
    | .child, .down => t.children x
    | .descendant, .up => t.ancestors x
    | .descendant, .down => (t.subtreeWithin (t.size + 1) x).drop 1
    | .adjacent, _ => (t.sibling x dir.offset).toList
    | .neighboring, .up => t.siblingsBefore x
    | .neighboring, .down => t.siblingsAfter x
  | .universal, x => [x]
  | .idIs ident, x => if (t.data x).id == ident then [x] else []
  | .typeIs ident, x => if typeMatches (t.data x).typeName ident then [x] else []
  | .classIs ident, x => if (t.data x).types.any (typeMatches · ident) then [x] else []
  | .attribute name op caseless value, x =>
    if attributeHolds (t.data x).properties name op caseless value then [x] else []
  | .structural p, x => if structuralHolds t hooks p x then [x] else []
  | .nth count f, x => if nthHolds t count f x then [x] else []
  | .negation before after, x =>
    if (matchSteps t hooks before after x).value.isNone then [x] else []
  | .custom name arg, x => if (askTree t hooks x name arg).value = .noMatch then [] else [x]

/-- The search below a node tries the rest of the walk at the nodes below it in pre-order:
at each child, then below that child, before the next child. -/
theorem searchBelow_eq (rest : List Step) (n x : Nat) :
    searchBelow t hooks rest n x =
      firstSome ((t.subtreeWithin (n + 1) x).drop 1) (walk t hooks .down rest) := by
  induction n generalizing x with
  | zero =>
    rw [searchBelow, Tree.subtreeWithin, List.drop_one, List.tail_cons,
      List.flatMap_eq_nil_iff.mpr fun c _ => Tree.subtreeWithin.eq_1 t c]
    rfl
  | succ n ih =>
    rw [searchBelow, Tree.subtreeWithin, List.drop_one, List.tail_cons, firstSome_flatMap]
    congr 1
    funext c
    -- the walk first tries the child itself, then what lies below it
    have hc : t.subtreeWithin (n + 1) c = c :: (t.subtreeWithin (n + 1) c).drop 1 := by
      rw [Tree.subtreeWithin]
      rfl
    rw [hc, firstSome, ← ih]
    congr 1
    funext o
    cases o <;> rfl

theorem walk_nil_value (dir : Direction) (x : Nat) : (walk t hooks dir [] x).value = some x := by
  rw [walk]
  rfl

theorem walk_subject_value (dir : Direction) (rest : List Step) (x : Nat) :
    (walk t hooks dir (.subject :: rest) x).value =
      (walk t hooks dir rest x).value.map fun r => if dir = .down then x else r := by
  rw [walk, Logged.bind_value]
  rfl

theorem walk_if_value {dir : Direction} {rest : List Step} {x : Nat} (b : Bool) :
    (firstSome (if b then [x] else []) (walk t hooks dir rest)).value =
      if b then (walk t hooks dir rest x).value else none := by
  cases b
  · rfl
  · exact firstSome_singleton x _

theorem walk_cons_value {dir : Direction} {s : Step} (hs : s ≠ .subject) (rest : List Step)
    (x : Nat) :
    (walk t hooks dir (s :: rest) x).value =
      (firstSome (s.nexts t hooks dir x) (walk t hooks dir rest)).value := by
  cases s with
  | subject => exact absurd rfl hs
  | pseudoElement name arg =>
    rw [walk, Logged.bind_value]
    simp only [Step.nexts]
    cases (askTree t hooks x name arg).value with
    | noMatch => rfl
    | matched => exact (firstSome_singleton x _).symm
    | node y => exact (firstSome_singleton y _).symm
  | combinator c =>
    cases c <;> cases dir <;> rw [walk] <;> simp only [Step.nexts, Direction.offset] <;>
      first
      | rfl
      | exact (firstSome_toList _ _).symm
      | (rw [firstSome_toList]; cases t.parent x <;> rfl)
      | (rw [firstSome_toList]; cases t.sibling x _ <;> rfl)
      | exact congrArg Logged.value (searchBelow_eq t hooks rest t.size x)
  | universal => rw [walk]; exact (firstSome_singleton x _).symm
  | idIs ident =>
    rw [walk, Step.nexts, walk_if_value]
    split <;> rfl
  | typeIs ident =>
    rw [walk, Step.nexts, walk_if_value]
    split <;> rfl
  | classIs ident =>
    rw [walk, Step.nexts, walk_if_value]
    split <;> rfl
  | «attribute» name op caseless value =>
    rw [walk, Step.nexts, walk_if_value]
    split <;> rfl
  | structural p =>
    rw [walk, Step.nexts, walk_if_value]
    split <;> rfl
  | nth count f =>
    rw [walk, Step.nexts, walk_if_value]
    split <;> rfl
  | negation before after =>
    rw [walk, Logged.bind_value, Step.nexts, walk_if_value]
    cases (matchSteps t hooks before after x).value <;> rfl
  | custom name arg =>
    rw [walk, Logged.bind_value, Step.nexts]
    by_cases h : (askTree t hooks x name arg).value = .noMatch
    · simp [h, firstSome_nil]
    · simp [h, firstSome_singleton]

section Candidates

variable {t hooks}

theorem mem_nexts_down (hwf : t.WellFormed) {s : Step} (hs : s ≠ .subject) {x y : Nat} :
    y ∈ s.nexts t hooks .down x ↔ s.Moves t hooks x y := by
  cases s with
  | subject => exact absurd rfl hs
  | pseudoElement name arg =>
    simp only [Step.nexts, Step.Moves]
    cases (askTree t hooks x name arg).value <;> simp [eq_comm]
  | combinator c =>
    cases c with
    | descendant =>
      simp only [Step.nexts, Step.Moves, Combinator.Relates]
      rw [hwf.drop_subtreeWithin_size_succ]
      exact hwf.mem_descendants
    | child => exact ⟨hwf.parent_of_mem_children, hwf.parent_iff.mp⟩
    | adjacent =>
      simp only [Step.nexts, Step.Moves, Combinator.Relates, Direction.offset, Option.mem_toList]
      exact hwf.sibling_next_iff
    | neighboring => exact hwf.mem_siblingsAfter
  | _ => simp [Step.nexts, Step.Moves, Step.Holds]

theorem mem_nexts_up (hwf : t.WellFormed) {s : Step} (hs : s ≠ .subject)
    (hpe : ∀ name arg, s ≠ .pseudoElement name arg) {x y : Nat} :
    y ∈ s.nexts t hooks .up x ↔ s.Moves t hooks y x := by
  cases s with
  | subject => exact absurd rfl hs
  | pseudoElement name arg => exact absurd rfl (hpe name arg)
  | combinator c =>
    cases c with
    | descendant => exact hwf.mem_ancestors
    | child => simp only [Step.nexts, Step.Moves, Combinator.Relates, Option.mem_toList]
    | adjacent =>
      simp only [Step.nexts, Step.Moves, Combinator.Relates, Direction.offset, Option.mem_toList]
      exact hwf.sibling_prev_iff
    | neighboring => exact hwf.mem_siblingsBefore
  | universal => simp [Step.nexts, Step.Moves, Step.Holds, eq_comm]
  | _ =>
    -- a test is checked on the node the walk stands on, whichever way it goes
    simp only [Step.nexts, Step.Moves, Step.Holds, List.mem_ite_nil_right, List.mem_ite_nil_left,
      List.mem_singleton, beq_iff_eq, Option.isNone_iff_eq_none]
    constructor <;> rintro ⟨h, rfl⟩ <;> exact ⟨h, rfl⟩

end Candidates

section Paths

variable {t hooks}

theorem stepPath_snoc_iff {L : List Step} {s : Step} {x z : Nat} :
    (∃ d, StepPath t hooks (L ++ [s]) x z d) ↔
      ∃ y d, StepPath t hooks L x y d ∧ (s = .subject ∧ z = y ∨ s.Moves t hooks y z) := by
  induction L generalizing x with
  | nil =>
    constructor
    · rintro ⟨d, h⟩
      cases h with
      | subject h =>
        cases h
        exact ⟨_, _, .nil _, .inl ⟨rfl, rfl⟩⟩
      | step hm h =>
        cases h
        exact ⟨_, _, .nil _, .inr hm⟩
    · rintro ⟨y, d, h, hs⟩
      cases h
      rcases hs with ⟨rfl, rfl⟩ | hm
      · exact ⟨_, .subject (.nil _)⟩
      · exact ⟨_, .step hm (.nil _)⟩
  | cons a L ih =>
    constructor
    · rintro ⟨d, h⟩
      cases h with
      | subject h =>
        obtain ⟨y, d', hp, hs⟩ := ih.mp ⟨_, h⟩
        exact ⟨y, x, .subject hp, hs⟩
      | step hm h =>
        obtain ⟨y, d', hp, hs⟩ := ih.mp ⟨_, h⟩
        exact ⟨y, d', .step hm hp, hs⟩
    · rintro ⟨y, d, h, hs⟩
      cases h with
      | subject h =>
        obtain ⟨d', hp⟩ := ih.mpr ⟨y, _, h, hs⟩
        exact ⟨x, .subject hp⟩
      | step hm h =>
        obtain ⟨d', hp⟩ := ih.mpr ⟨y, _, h, hs⟩
        exact ⟨d', .step hm hp⟩

theorem Selector.Step.Moves.unique {s : Step} (hc : ∀ c, s ≠ .combinator c) {x y y' : Nat}
    (h : s.Moves t hooks x y) (h' : s.Moves t hooks x y') : y = y' := by
  cases s with
  | subject => exact h.elim
  | pseudoElement name arg =>
    simp only [Step.Moves] at h h'
    rcases h with ⟨hm, rfl⟩ | hm <;> rcases h' with ⟨hm', rfl⟩ | hm' <;>
      rw [hm] at hm' <;> cases hm'
    all_goals rfl
  | combinator c => exact absurd rfl (hc c)
  | _ =>
    obtain ⟨-, rfl⟩ := h
    obtain ⟨-, rfl⟩ := h'
    rfl

theorem SubjectLeads.tail {s : Step} {rest : List Step} (h : SubjectLeads (s :: rest))
    (hs : s ≠ .subject) : (∀ c, s ≠ .combinator c) ∧ SubjectLeads rest := by
  rcases h with hno | ⟨pre, post, heq, hpre⟩
  · refine ⟨fun c hc => hno c (by simp [hc]), .inl fun c hc => hno c (by simp [hc])⟩
  · cases pre with
    | nil =>
      cases heq
      exact absurd rfl hs
    | cons a pre =>
      obtain ⟨rfl, rfl⟩ := List.cons.inj heq
      exact ⟨fun c hc => hpre c (by simp [hc]),
        .inr ⟨pre, post, rfl, fun c hc => hpre c (List.mem_cons_of_mem _ hc)⟩⟩

/-- When the marker comes before every combinator, every path from a node designates the same
node. -/
theorem StepPath.designated_unique {L : List Step} (hL : SubjectLeads L) {x y y' d d' : Nat}
    (h : StepPath t hooks L x y d) (h' : StepPath t hooks L x y' d') : d = d' := by
  induction L generalizing x with
  | nil =>
    cases h
    cases h'
    rfl
  | cons s rest ih =>
    by_cases hs : s = .subject
    · subst hs
      cases h with
      | subject _ =>
        cases h' with
        | subject _ => rfl
        | step hm _ => exact hm.elim
      | step hm _ => exact hm.elim
    · obtain ⟨hc, hrest⟩ := SubjectLeads.tail hL hs
      cases h with
      | subject _ => exact absurd rfl hs
      | step hm hp =>
        cases h' with
        | subject _ => exact absurd rfl hs
        | step hm' hp' =>
          rw [hm.unique hc hm'] at hp
          exact ih hrest hp hp'

end Paths

section Walks

variable {t hooks}

theorem stepPath_of_walk_down (hwf : t.WellFormed) {L : List Step} {x r : Nat}
    (h : (walk t hooks .down L x).value = some r) : ∃ y, StepPath t hooks L x y r := by
  induction L generalizing x r with
  | nil =>
    rw [walk_nil_value] at h
    cases h
    exact ⟨x, .nil x⟩
  | cons s rest ih =>
    by_cases hs : s = .subject
    · subst hs
      rw [walk_subject_value] at h
      obtain ⟨r', hr', hr⟩ := Option.map_eq_some_iff.mp h
      obtain ⟨y, hp⟩ := ih hr'
      simp only [if_true] at hr
      subst hr
      exact ⟨y, .subject hp⟩
    · rw [walk_cons_value t hooks hs] at h
      obtain ⟨x', hx', hw⟩ := exists_of_firstSome_eq_some h
      obtain ⟨y, hp⟩ := ih hw
      exact ⟨y, .step ((mem_nexts_down hwf hs).mp hx') hp⟩

theorem walk_down_isSome (hwf : t.WellFormed) {L : List Step} {x y d : Nat}
    (h : StepPath t hooks L x y d) : (walk t hooks .down L x).value.isSome := by
  induction h with
  | nil x => rw [walk_nil_value]; rfl
  | subject _ ih =>
    rw [walk_subject_value, Option.isSome_map]
    exact ih
  | @step s rest x x' y d hm _ ih =>
    have hs : s ≠ .subject := by
      rintro rfl
      exact hm.elim
    rw [walk_cons_value t hooks hs, firstSome_isSome]
    exact ⟨x', (mem_nexts_down hwf hs).mpr hm, ih⟩

theorem walk_up_isSome_iff (hwf : t.WellFormed) {L : List Step}
    (hpe : ∀ name arg, .pseudoElement name arg ∉ L) (n : Nat) :
    (walk t hooks .up L.reverse n).value.isSome ↔ ∃ x d, StepPath t hooks L x n d := by
  induction L using List.reverseRecOn generalizing n with
  | nil =>
    rw [List.reverse_nil, walk_nil_value]
    exact ⟨fun _ => ⟨n, n, .nil n⟩, fun _ => rfl⟩
  | append_singleton L s ih =>
    have ih' := ih (fun name arg h => hpe name arg (List.mem_append_left _ h))
    rw [List.reverse_append, List.reverse_singleton, List.singleton_append]
    have hsnoc : (∃ x d, StepPath t hooks (L ++ [s]) x n d) ↔
        ∃ y, (∃ x d, StepPath t hooks L x y d) ∧ (s = .subject ∧ n = y ∨ s.Moves t hooks y n) := by
      constructor
      · rintro ⟨x, d, h⟩
        obtain ⟨y, d', hp, hs⟩ := stepPath_snoc_iff.mp ⟨d, h⟩
        exact ⟨y, ⟨x, d', hp⟩, hs⟩
      · rintro ⟨y, ⟨x, d', hp⟩, hs⟩
        obtain ⟨d, h⟩ := stepPath_snoc_iff.mpr ⟨y, d', hp, hs⟩
        exact ⟨x, d, h⟩
    rw [hsnoc]
    by_cases hs : s = .subject
    · subst hs
      rw [walk_subject_value, Option.isSome_map, ih' n]
      constructor
      · intro h
        exact ⟨n, h, .inl ⟨rfl, rfl⟩⟩
      · rintro ⟨y, h, ⟨-, rfl⟩ | hm⟩
        · exact h
        · exact hm.elim
    · have hspe : ∀ name arg, s ≠ .pseudoElement name arg := by
        rintro name arg rfl
        exact hpe name arg (List.mem_append_right _ (List.mem_singleton_self _))
      rw [walk_cons_value t hooks hs, firstSome_isSome]
      constructor
      · rintro ⟨y, hy, hw⟩
        exact ⟨y, (ih' y).mp hw, .inr ((mem_nexts_up hwf hs hspe).mp hy)⟩
      · rintro ⟨y, h, ⟨hs', -⟩ | hm⟩
        · exact absurd hs' hs
        · exact ⟨y, (mem_nexts_up hwf hs hspe).mpr hm, (ih' y).mpr h⟩

theorem matchSteps_value (before after : List Step) (x : Nat) :
    (matchSteps t hooks before after x).value =
      if (walk t hooks .up before x).value.isSome then (walk t hooks .down after x).value
      else none := by
  rw [matchSteps, Logged.bind_value]
  cases (walk t hooks .up before x).value <;> rfl

end Walks

/-- A parsed selector matches at `n` exactly when a path over the steps before its subject
compound leads to `n` and a path over the rest leads on from `n`; the node it answers is the
one every such path designates. -/
theorem matchAt_iff_paths {t : Tree} (hwf : t.WellFormed) (hooks : Hooks) {s : String}
    {m : Matcher} (hm : Matcher.parse s = .ok m) (n r : Nat) :
    ((m.matchAt t hooks n).value = some r ↔
      (∃ x d, StepPath t hooks (m.steps.take m.subject) x n d) ∧
        ∃ y, StepPath t hooks (m.steps.drop m.subject) n y r) ∧
    ((m.matchAt t hooks n).value = some r →
      ∀ y d, StepPath t hooks (m.steps.drop m.subject) n y d → d = r) := by
  obtain ⟨hpe, hleads⟩ := Matcher.parse_shape hm
  have hup : (walk t hooks .up (m.steps.take m.subject).reverse n).value.isSome ↔
      ∃ x d, StepPath t hooks (m.steps.take m.subject) x n d := walk_up_isSome_iff hwf hpe n
  have hval : (m.matchAt t hooks n).value =
      if (walk t hooks .up (m.steps.take m.subject).reverse n).value.isSome then
        (walk t hooks .down (m.steps.drop m.subject) n).value
      else none := matchSteps_value _ _ n
  -- a successful match designates what its forward path designates, and so what every one does
  have hany : (m.matchAt t hooks n).value = some r →
      ∀ y d, StepPath t hooks (m.steps.drop m.subject) n y d → d = r := by
    intro h y d hp
    rw [hval] at h
    split at h
    · obtain ⟨y', hp'⟩ := stepPath_of_walk_down hwf h
      exact hp.designated_unique hleads hp'
    · cases h
  refine ⟨⟨fun h => ⟨?_, ?_⟩, fun ⟨hb, y, ha⟩ => ?_⟩, hany⟩
  · rw [hval] at h
    split at h
    · exact hup.mp ‹_›
    · cases h
  · rw [hval] at h
    split at h
    · exact stepPath_of_walk_down hwf h
    · cases h
  · rw [hval, if_pos (hup.mpr hb)]
    obtain ⟨r', hr'⟩ := Option.isSome_iff_exists.mp (walk_down_isSome hwf ha)
    obtain ⟨y', hp'⟩ := stepPath_of_walk_down hwf hr'
    rw [hr', ha.designated_unique hleads hp']

theorem parse_markedMiddle :
    Matcher.parse "A > !B > C" = .ok
      { chain := ⟨[{ kind := .typeName, ident := "A" }, { kind := .combinator .child },
          { kind := .subject }, { kind := .typeName, ident := "B" }, { kind := .combinator .child },
          { kind := .typeName, ident := "C" }]⟩,
        steps := [.typeIs "A", .combinator .child, .subject, .typeIs "B", .combinator .child,
          .typeIs "C"],
        subject := 2, lastCombinator := some 4, firstPseudoElement := none } := by
  have h : Chain.parse "A > !B > C" = .ok ⟨[{ kind := .typeName, ident := "A" },
      { kind := .combinator .child }, { kind := .subject }, { kind := .typeName, ident := "B" },
      { kind := .combinator .child }, { kind := .typeName, ident := "C" }]⟩ :=
    eq_ok_of_toOption (by decide +kernel)
  rw [Matcher.parse, h]
  dsimp only
  rw [compileWithin]
  have hl : landmarks [{ kind := .typeName, ident := "A" }, { kind := .combinator .child },
      { kind := .subject }, { kind := .typeName, ident := "B" }, { kind := .combinator .child },
      { kind := .typeName, ident := "C" }] = .ok { marker := some 2, lastCombinator := some 4 } := rfl
  rw [hl]
  simp [compileParts, compilePart, subjectIndex, PartKind.isCombinator]

theorem matchAt_markedMiddle_paths :
    let t := (Tree.new { types := ["A"] }).run [.append 0 { types := ["B"] }, .append 1 { types := ["C"] }]
    ∃ m, Matcher.parse "A > !B > C" = .ok m ∧ (m.matchAt t .defaults 1).value = some 1 ∧
      (((m.matchAt t .defaults 1).value = some 1 ↔
        (∃ x d, StepPath t .defaults (m.steps.take m.subject) x 1 d) ∧
          ∃ y, StepPath t .defaults (m.steps.drop m.subject) 1 y 1) ∧
      ((m.matchAt t .defaults 1).value = some 1 →
        ∀ y d, StepPath t .defaults (m.steps.drop m.subject) 1 y d → d = 1)) := by
  intro t
  have hwf : t.WellFormed := Tree.Reachable.wellFormed ⟨_, _, rfl⟩
  have h := matchAt_iff_paths hwf .defaults parse_markedMiddle 1 1
  have hA : typeMatches (t.data 0).typeName "A" = true := by decide +kernel
  have hB : typeMatches (t.data 1).typeName "B" = true := by decide +kernel
  have hC : typeMatches (t.data 2).typeName "C" = true := by decide +kernel
  have h01 : t.parent 1 = some 0 := by decide +kernel
  have h12 : t.parent 2 = some 1 := by decide +kernel
  -- from `A` down to `B`, and from the marker at `B` down to `C`
  have hbefore : StepPath t .defaults [.typeIs "A", .combinator .child] 0 1 1 :=
    .step ⟨hA, rfl⟩ (.step h01 (.nil 1))
  have hafter : StepPath t .defaults [.subject, .typeIs "B", .combinator .child, .typeIs "C"] 1 2 1 :=
    .subject (.step ⟨hB, rfl⟩ (.step h12 (.step ⟨hC, rfl⟩ (.nil 2))))
  exact ⟨_, parse_markedMiddle, h.1.mpr ⟨⟨0, 1, hbefore⟩, 2, hafter⟩, h⟩

end TreeQuery
