import TreeQuery.Query
import TreeQuery.Proofs.MatchWalks

/-!
# Searches that stop early

Each capped search computes what the exhaustive search computes on a prefix of the
candidates, notes included.
-/

namespace TreeQuery

open Selector

variable (t : Tree) (hooks : Hooks) (m : Matcher)

def matchResults (xs : List Nat) : List Nat := xs.filterMap fun x => (m.matchAt t hooks x).value

def matchNotes (xs : List Nat) : List String := xs.flatMap fun x => (m.matchAt t hooks x).notes

theorem matchResults_cons (x : Nat) (xs : List Nat) :
    matchResults t hooks m (x :: xs) =
      ((m.matchAt t hooks x).value.toList ++ matchResults t hooks m xs) := by
  cases h : (m.matchAt t hooks x).value <;> simp [matchResults, h]

theorem matchResults_isPrefix {pre xs : List Nat} (h : pre <+: xs) :
    matchResults t hooks m pre <+: matchResults t hooks m xs := by
  obtain ⟨rest, rfl⟩ := h
  simp [matchResults, List.filterMap_append]

theorem collectMatches_none (xs found : List Nat) :
    collectMatches t hooks m none xs found =
      ⟨found.reverse ++ matchResults t hooks m xs, matchNotes t hooks m xs⟩ := by
  induction xs generalizing found with
  | nil =>
    simp only [collectMatches, matchResults, matchNotes, List.filterMap_nil, List.flatMap_nil,
      List.append_nil]
    rfl
  | cons x xs ih =>
    rw [collectMatches, Logged.bind_eq]
    cases hx : (m.matchAt t hooks x).value with
    | none =>
      simp only [ih]
      simp [matchResults, matchNotes, hx]
    | some r =>
      simp only [Option.any_none, Bool.false_eq_true, if_false, ih]
      simp [matchResults, matchNotes, hx]

theorem collectMatches_some (n : Nat) (xs found : List Nat) (room : found.length < n) :
    ∃ pre, pre <+: xs ∧
      collectMatches t hooks m (some n) xs found = collectMatches t hooks m none pre found ∧
      (pre = xs ∨ found.length + (matchResults t hooks m pre).length = n) := by
  induction xs generalizing found with
  | nil => exact ⟨[], List.prefix_refl _, rfl, .inl rfl⟩
  | cons x xs ih =>
    rw [collectMatches, Logged.bind_eq]
    cases hx : (m.matchAt t hooks x).value with
    | none =>
      obtain ⟨pre, hpre, heq, hend⟩ := ih found room
      refine ⟨x :: pre, (List.prefix_cons_inj x).mpr hpre, ?_, ?_⟩
      · rw [collectMatches, Logged.bind_eq, hx]
        simp only [heq]
      · rcases hend with rfl | hlen
        · exact .inl rfl
        · right
          rw [matchResults_cons, hx]
          simpa using hlen
    | some r =>
      by_cases full : n ≤ found.length + 1
      · refine ⟨[x], List.cons_prefix_cons.mpr ⟨rfl, List.nil_prefix⟩, ?_, ?_⟩
        · rw [collectMatches, Logged.bind_eq, hx]
          simp [full, collectMatches]
        · right
          rw [matchResults_cons, hx]
          simp [matchResults]
          omega
      · obtain ⟨pre, hpre, heq, hend⟩ := ih (r :: found) (by simp; omega)
        refine ⟨x :: pre, (List.prefix_cons_inj x).mpr hpre, ?_, ?_⟩
        · have hnot : ¬ n ≤ found.length + 1 := full
          rw [collectMatches, Logged.bind_eq, hx]
          simp only [Option.any_some, List.length_cons, decide_eq_true_eq, hnot, if_false, heq]
          simp
        · rcases hend with rfl | hlen
          · exact .inl rfl
          · right
            rw [matchResults_cons, hx]
            simp only [List.length_cons] at hlen
            simp
            omega

/-- The flat search over candidates, with the flag the recursive search returns: whether the
cap stopped it. -/
def collectFrom (limit : Option Nat) : List Nat → List Nat → Logged (Bool × List Nat)
  | [], found => pure (false, found)
  | x :: xs, found => do
    match ← m.matchAt t hooks x with
    | some r =>
      if limit.any (· ≤ (r :: found).length) then pure (true, r :: found)
      else collectFrom limit xs (r :: found)
    | none => collectFrom limit xs found

theorem collectFrom_append (limit : Option Nat) (xs ys found : List Nat) :
    collectFrom t hooks m limit (xs ++ ys) found = (do
      let (stop, found) ← collectFrom t hooks m limit xs found
      if stop then pure (true, found) else collectFrom t hooks m limit ys found) := by
  induction xs generalizing found with
  | nil => rfl
  | cons x xs ih =>
    rw [List.cons_append, collectFrom, collectFrom, Logged.bind_assoc]
    congr 1
    funext o
    cases o with
    | none => exact ih found
    | some r =>
      dsimp only
      split
      · rfl
      · exact ih (r :: found)

theorem collectEach_flatMap (limit : Option Nat) (g : Nat → List Nat) (cs found : List Nat) :
    collectEach (fun c => collectFrom t hooks m limit (g c)) cs found =
      collectFrom t hooks m limit (cs.flatMap g) found := by
  induction cs generalizing found with
  | nil => rfl
  | cons c cs ih =>
    rw [collectEach, List.flatMap_cons, collectFrom_append]
    congr 1
    funext p
    obtain ⟨stop, found⟩ := p
    cases stop
    · exact ih found
    · rfl

/-- The recursive search from a node is the flat search over its subtree in pre-order: the cap
stops both at the same match, and a subtree that reached it cuts off the children after it. -/
theorem collectBelow_eq_collectFrom (limit : Option Nat) (n x : Nat) (found : List Nat) :
    collectBelow t hooks m limit n x found =
      collectFrom t hooks m limit (t.subtreeWithin n x) found := by
  induction n generalizing x found with
  | zero => rfl
  | succ n ih =>
    have hsub : collectBelow t hooks m limit n =
        fun c => collectFrom t hooks m limit (t.subtreeWithin n c) := by
      funext c found
      exact ih c found
    rw [collectBelow, hsub]
    simp only [collectEach_flatMap]
    rfl

theorem collectMatches_eq_collectFrom (limit : Option Nat) (xs found : List Nat) :
    collectMatches t hooks m limit xs found =
      ⟨(collectFrom t hooks m limit xs found).value.2.reverse,
        (collectFrom t hooks m limit xs found).notes⟩ := by
  induction xs generalizing found with
  | nil => rfl
  | cons x xs ih =>
    rw [collectMatches, collectFrom, Logged.bind_eq, Logged.bind_eq]
    cases (m.matchAt t hooks x).value with
    | none => simp only [ih]
    | some r =>
      dsimp only
      split
      · rfl
      · simp only [ih]

theorem collectBelow_size_eq (limit : Option Nat) (root : Nat) (found : List Nat) :
    collectMatches t hooks m limit (t.subtree root) found =
      ⟨(collectBelow t hooks m limit t.size root found).value.2.reverse,
        (collectBelow t hooks m limit t.size root found).notes⟩ := by
  rw [collectBelow_eq_collectFrom, collectMatches_eq_collectFrom]
  rfl

theorem all_eq_collectMatches (root : Nat) :
    m.all t hooks root = collectMatches t hooks m none (t.subtree root) [] := by
  rw [collectBelow_size_eq]
  exact Logged.ext rfl (List.append_nil _)

theorem first_eq_collectMatches (root : Nat) :
    m.first t hooks root =
      ⟨(collectMatches t hooks m (some 1) (t.subtree root) []).value.head?,
        (collectMatches t hooks m (some 1) (t.subtree root) []).notes⟩ := by
  rw [collectBelow_size_eq]
  exact Logged.ext rfl (List.append_nil _)

theorem unique_value_eq_collectMatches (root : Nat) :
    (m.unique t hooks root).value =
      match (collectMatches t hooks m (some 2) (t.subtree root) []).value with
      | [r] => some r
      | _ => none := by
  rw [collectBelow_size_eq]
  rfl

theorem all_eq (root : Nat) :
    m.all t hooks root =
      ⟨matchResults t hooks m (t.subtree root), matchNotes t hooks m (t.subtree root)⟩ := by
  simp [all_eq_collectMatches, collectMatches_none]

theorem first_value_eq (root : Nat) : (m.first t hooks root).value = (m.all t hooks root).value.head? := by
  obtain ⟨pre, hpre, heq, hend⟩ := collectMatches_some t hooks m 1 (t.subtree root) [] (by simp)
  have hval : (m.first t hooks root).value = (matchResults t hooks m pre).head? := by
    simp [first_eq_collectMatches, heq, collectMatches_none]
  rw [hval, all_eq]
  rcases hend with rfl | hlen
  · rfl
  · obtain ⟨rest, hrest⟩ := matchResults_isPrefix t hooks m hpre
    obtain ⟨a, ha⟩ : ∃ a, matchResults t hooks m pre = [a] :=
      List.length_eq_one_iff.mp (by simpa using hlen)
    rw [← hrest, ha]
    rfl

theorem unique_value_eq_some (root y : Nat) :
    (m.unique t hooks root).value = some y ↔ (m.all t hooks root).value = [y] := by
  obtain ⟨pre, hpre, heq, hend⟩ := collectMatches_some t hooks m 2 (t.subtree root) [] (by simp)
  have hval : (m.unique t hooks root).value = some y ↔ matchResults t hooks m pre = [y] := by
    rw [unique_value_eq_collectMatches, heq, collectMatches_none]
    simp only [List.reverse_nil, List.nil_append]
    split <;> simp_all
  rw [hval, all_eq]
  rcases hend with rfl | hlen
  · rfl
  · obtain ⟨rest, hrest⟩ := matchResults_isPrefix t hooks m hpre
    obtain ⟨a, b, hab⟩ : ∃ a b, matchResults t hooks m pre = [a, b] := by
      match matchResults t hooks m pre, hlen with
      | [a, b], _ => exact ⟨a, b, rfl⟩
    rw [← hrest, hab]
    simp

theorem collectBelow_capped (n root : Nat) :
    ∃ pre, pre <+: t.subtree root ∧
      (collectBelow t hooks m (some (n + 1)) t.size root []).value.2.reverse =
        matchResults t hooks m pre ∧
      (collectBelow t hooks m (some (n + 1)) t.size root []).notes = matchNotes t hooks m pre ∧
      (pre = t.subtree root ∨ (matchResults t hooks m pre).length = n + 1) := by
  obtain ⟨pre, hpre, heq, hend⟩ :=
    collectMatches_some t hooks m (n + 1) (t.subtree root) [] (by simp)
  have h := collectBelow_size_eq t hooks m (some (n + 1)) root []
  rw [heq, collectMatches_none] at h
  refine ⟨pre, hpre, ?_, (congrArg Logged.notes h).symm, ?_⟩
  · simpa using (congrArg Logged.value h).symm
  · simpa using hend

/-- On every reachable tree, the exhaustive search collects in recursive pre-order what every
match designates, and the capped searches are the exhaustive search on a pre-order prefix:
`first` answers its head and `unique` its only element. The recursive search with any cap
tries the matcher only on a pre-order prefix of the subtree, and stops there at the match that
reached the cap. -/
theorem capped_searches_agree (root : NodeData) (ops : List TreeOp) (hooks : Hooks) (m : Matcher)
    (r : Nat) :
    let t := (Tree.new root).run ops
    t.subtree r = r :: (t.children r).flatMap t.subtree ∧
    (m.all t hooks r).value = (t.subtree r).filterMap (fun x => (m.matchAt t hooks x).value) ∧
    (m.all t hooks r).notes = (t.subtree r).flatMap (fun x => (m.matchAt t hooks x).notes) ∧
    (m.first t hooks r).value = (m.all t hooks r).value.head? ∧
    (∀ y, (m.unique t hooks r).value = some y ↔ (m.all t hooks r).value = [y]) ∧
    ∀ n, ∃ pre, pre <+: t.subtree r ∧
      (collectBelow t hooks m (some (n + 1)) t.size r []).value.2.reverse =
        pre.filterMap (fun x => (m.matchAt t hooks x).value) ∧
      (collectBelow t hooks m (some (n + 1)) t.size r []).notes =
        pre.flatMap (fun x => (m.matchAt t hooks x).notes) ∧
      (pre = t.subtree r ∨ (pre.filterMap (fun x => (m.matchAt t hooks x).value)).length = n + 1) := by
  intro t
  have hwf : t.WellFormed := (Tree.wellFormed_new root).run ops
  refine ⟨hwf.subtree_eq r, ?_, ?_, first_value_eq t hooks m r, unique_value_eq_some t hooks m r,
    fun n => collectBelow_capped t hooks m n r⟩
  · rw [all_eq]
    rfl
  · rw [all_eq]
    rfl

end TreeQuery
