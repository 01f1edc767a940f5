import TreeQuery.Selector.Matcher
import TreeQuery.Tree.Pseudo

/-!
# Matching a compiled selector at a node

A candidate matches when the steps before the subject compound walk backwards from it and the
steps from the subject compound on walk forwards. Where a combinator offers several nodes, the
first that lets the rest of the walk succeed is taken.
-/

namespace TreeQuery

/-- A result together with the notes made while computing it. -/
structure Logged (α : Type) where
  value : α
  notes : List String := []

instance : Monad Logged where
  pure a := ⟨a, []⟩
  bind x f := let y := f x.value; ⟨y.value, x.notes ++ y.notes⟩

/-- The first element for which `f` gives a result; later elements are not tried. -/
def firstSome {α β : Type} : List α → (α → Logged (Option β)) → Logged (Option β)
  | [], _ => pure none
  | a :: as, f => do
    match ← f a with
    | some b => pure (some b)
    | none => firstSome as f

open Selector

inductive Direction where
  | up
  | down
deriving DecidableEq, Repr

def Direction.offset : Direction → Int
  | .up => -1
  | .down => 1

/-- Whether a type name is `ident`, or ends with `:` followed by `ident`. -/
def typeMatches (typeName ident : String) : Bool :=
  let t := typeName.toList
  let i := ident.toList
  i.isSuffixOf t &&
    (let head := t.take (t.length - i.length)
     head.isEmpty || head.getLast? == some ':')

/-- Whether a property value passes an attribute test. Only `present` tells a missing property
apart; every other test compares with the empty text then. -/
def attributeHolds (props : Properties) (name : String) (op : AttrOp) (caseless : Bool)
    (arg : String) : Bool :=
  if op = .present then props.contains name
  else
    let value := if caseless then Text.asciiLower (props.getD name) else props.getD name
    let arg := if caseless then Text.asciiLower arg else arg
    let v := value.toList
    let a := arg.toList
    match op with
    | .present => true
    | .equal => v == a
    | .notEqual => v != a
    | .startsWith => !a.isEmpty && a.isPrefixOf v
    | .endsWith => !a.isEmpty && a.isSuffixOf v
    | .contains => !a.isEmpty && Text.occursIn a v
    | .dashMatch => a.isPrefixOf v && (let r := v.drop a.length; r.isEmpty || r.head? == some '-')
    | .word => !a.isEmpty && (Text.splitBy (fun c => c == ' ' || c == '\t') v).contains a

variable (t : Tree) (hooks : Hooks)

def structuralHolds (p : Structural) (id : Nat) : Bool :=
  let sameType (n : Nat) : Bool := (t.data n).typeName == (t.data id).typeName
  let hasParent := (t.parent id).isSome
  match p with
  | .root => (t.parent id).isNone
  | .empty => (t.children id).isEmpty
  | .firstChild => hooks.isNthChild t id 1
  | .lastChild => hooks.isNthChild t id (-1)
  | .onlyChild => hooks.isNthChild t id 1 && hooks.isNthChild t id (-1)
  | .firstOfType => hasParent && !(t.siblingsBefore id).any sameType
  | .lastOfType => hasParent && !(t.siblingsAfter id).any sameType
  | .onlyOfType => hasParent && !(t.siblingsBefore id).any sameType && !(t.siblingsAfter id).any sameType

def nthPosition (count : NthCount) (id : Nat) : Nat :=
  let sameType (n : Nat) : Bool := (t.data n).typeName == (t.data id).typeName
  let counted := match count with
    | .fromFirst => t.siblingsBefore id
    | .fromLast => t.siblingsAfter id
    | .ofTypeFromFirst => (t.siblingsBefore id).filter sameType
    | .ofTypeFromLast => (t.siblingsAfter id).filter sameType
  counted.length + 1

def nthHolds (count : NthCount) (f : Nth) (id : Nat) : Bool :=
  (t.parent id).isSome && f.matches (min (nthPosition t count id) (Nat.pow 2 63 - 1))

def askTree (id : Nat) (name arg : String) : Logged PseudoOutcome :=
  match hooks.pseudo t id name arg with
  | .ok r => pure r
  | .error message => ⟨.noMatch, [message]⟩

mutual

/-- Walk steps from a node in a direction: the node the walk designates, if it succeeds. -/
def walk (dir : Direction) : List Step → Nat → Logged (Option Nat)
  | [], id => pure (some id)
  | .subject :: rest, id => do
    let reached ← walk dir rest id
    pure (reached.map fun r => if dir = .down then id else r)
  | .pseudoElement name arg :: rest, id => do
    match ← askTree t hooks id name arg with
    | .noMatch => pure none
    | .matched => walk dir rest id
    | .node other => walk dir rest other
  | .combinator c :: rest, id =>
    match c, dir with
    | .child, .up =>
      match t.parent id with
      | some p => walk dir rest p
      | none => pure none
    | .child, .down => firstSome (t.children id) fun c => walk dir rest c
    | .descendant, .up => firstSome (t.ancestors id) fun a => walk dir rest a
    | .descendant, .down => searchBelow rest t.size id
    | .adjacent, _ =>
      match t.sibling id dir.offset with
      | some s => walk dir rest s
      | none => pure none
    | .neighboring, .up => firstSome (t.siblingsBefore id) fun s => walk dir rest s
    | .neighboring, .down => firstSome (t.siblingsAfter id) fun s => walk dir rest s
  | .universal :: rest, id => walk dir rest id
  | .idIs ident :: rest, id => if (t.data id).id == ident then walk dir rest id else pure none
  | .typeIs ident :: rest, id =>
    if typeMatches (t.data id).typeName ident then walk dir rest id else pure none
  | .classIs ident :: rest, id =>
    if (t.data id).types.any (typeMatches · ident) then walk dir rest id else pure none
  | .attribute name op caseless value :: rest, id =>
    if attributeHolds (t.data id).properties name op caseless value then walk dir rest id
    else pure none
  | .structural p :: rest, id =>
    if structuralHolds t hooks p id then walk dir rest id else pure none
  | .nth count f :: rest, id => if nthHolds t count f id then walk dir rest id else pure none
  | .negation before after :: rest, id => do
    let inner ← matchSteps before after id
    if inner.isNone then walk dir rest id else pure none
  | .custom name arg :: rest, id => do
    let outcome ← askTree t hooks id name arg
    if outcome = .noMatch then pure none else walk dir rest id
termination_by steps _ => (sizeOf steps, 0)

/-- Try the rest of a forward walk at each child of a node, and failing that below the child:
the nodes below `id` in pre-order, at most `fuel` levels down. -/
def searchBelow (rest : List Step) : Nat → Nat → Logged (Option Nat)
  | 0, _ => pure none
  | fuel + 1, id => firstSome (t.children id) fun c => do
    match ← walk .down rest c with
    | some r => pure (some r)
    | none => searchBelow rest fuel c
termination_by fuel _ => (sizeOf rest, fuel + 1)

def matchSteps (before after : List Step) (id : Nat) : Logged (Option Nat) := do
  match ← walk .up before id with
  | none => pure none
  | some _ => walk .down after id
termination_by (sizeOf before + sizeOf after + 1, 0)

end

/-- Match a compiled selector at a candidate node: the node it designates, if it matches. -/
def Selector.Matcher.matchAt (m : Matcher) (id : Nat) : Logged (Option Nat) :=
  matchSteps t hooks m.before m.after id

end TreeQuery
