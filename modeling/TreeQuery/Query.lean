import TreeQuery.Match

/-!
# Queries

Searches with a compiled selector over a subtree in pre-order; the warnings of a query are the
notes of the matches it tried, sorted and without repeats.
-/

namespace TreeQuery

open Selector

variable (t : Tree) (hooks : Hooks) (m : Matcher)

/-- Try candidates in order and collect what their matches designate, stopping once `limit`
results are found. -/
def collectMatches (limit : Option Nat) : List Nat → List Nat → Logged (List Nat)
  | [], found => pure found.reverse
  | id :: rest, found => do
    match ← m.matchAt t hooks id with
    | some r =>
      let found := r :: found
      if limit.any (· ≤ found.length) then pure found.reverse
      else collectMatches limit rest found
    | none => collectMatches limit rest found

def collectEach (search : Nat → List Nat → Logged (Bool × List Nat)) :
    List Nat → List Nat → Logged (Bool × List Nat)
  | [], found => pure (false, found)
  | c :: cs, found => do
    let (stop, found) ← search c found
    if stop then pure (true, found) else collectEach search cs found

/-- Collect what the matches at a node and below it designate, the node first and then each
child's subtree in order, until `limit` results are found; the flag says the cap stopped the
search. At most `fuel` levels deep. -/
def collectBelow (limit : Option Nat) : Nat → Nat → List Nat → Logged (Bool × List Nat)
  | 0, _, found => pure (false, found)
  | fuel + 1, id, found => do
    match ← m.matchAt t hooks id with
    | some r =>
      if limit.any (· ≤ (r :: found).length) then pure (true, r :: found)
      else collectEach (collectBelow limit fuel) (t.children id) (r :: found)
    | none => collectEach (collectBelow limit fuel) (t.children id) found

def Selector.Matcher.test (id : Nat) : Logged Bool := do
  let r ← m.matchAt t hooks id
  pure r.isSome

def Selector.Matcher.first (root : Nat) : Logged (Option Nat) := do
  let (_, found) ← collectBelow t hooks m (some 1) t.size root []
  pure found.reverse.head?

def Selector.Matcher.unique (root : Nat) : Logged (Option Nat) := do
  let (_, found) ← collectBelow t hooks m (some 2) t.size root []
  pure (match found.reverse with
    | [r] => some r
    | _ => none)

def Selector.Matcher.all (root : Nat) : Logged (List Nat) := do
  let (_, found) ← collectBelow t hooks m none t.size root []
  pure found.reverse

def Selector.Matcher.objects (candidates : List Nat) : Logged (List Nat) :=
  collectMatches t hooks m none candidates []

def insertText (s : String) : List String → List String
  | [] => [s]
  | x :: rest => if s < x then s :: x :: rest else if s = x then x :: rest else x :: insertText s rest

/-- Warnings as reported: each note marked as coming from the selector engine, sorted, each once. -/
def warningsOf (notes : List String) : List String :=
  notes.foldl (fun acc n => insertText ("[Selector] " ++ n) acc) []

/-- The answers of the four subtree queries at once. -/
structure Answers where
  test : Bool
  first : Option Nat
  unique : Option Nat
  all : List Nat
  objects : List Nat
  warnings : List String

def Selector.Matcher.answers (node : Nat) (candidates : List Nat) : Answers :=
  let b := m.test t hooks node
  let f := m.first t hooks node
  let u := m.unique t hooks node
  let a := m.all t hooks node
  let o := m.objects t hooks candidates
  { test := b.value, first := f.value, unique := u.value, all := a.value, objects := o.value,
    warnings := warningsOf (b.notes ++ f.notes ++ u.notes ++ a.notes ++ o.notes) }

end TreeQuery
