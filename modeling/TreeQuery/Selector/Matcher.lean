import TreeQuery.Selector.Parse
import TreeQuery.Selector.Render
import TreeQuery.Selector.Nth

/-!
# Compiled selectors

A matcher is a chain that passed the structural checks: at most one subject marker, no
combinator after a pseudo-element, and built-in pseudo-classes with the argument they need.
-/

namespace TreeQuery.Selector

/-- A pseudo-class about a node's place among its siblings that takes no argument. -/
inductive Structural where
  | empty
  | root
  | onlyChild
  | firstChild
  | lastChild
  | firstOfType
  | lastOfType
  | onlyOfType
deriving DecidableEq, Repr

/-- Which count an `An+B` pseudo-class takes. -/
inductive NthCount where
  | fromFirst
  | fromLast
  | ofTypeFromFirst
  | ofTypeFromLast
deriving DecidableEq, Repr

/-- One compiled part of a chain. -/
inductive Step where
  | subject
  | pseudoElement (name : String) (arg : String)
  | combinator (c : Combinator)
  | universal
  | idIs (ident : String)
  | typeIs (ident : String)
  | classIs (ident : String)
  | attribute (name : String) (op : AttrOp) (caseless : Bool) (value : String)
  | structural (p : Structural)
  | nth (count : NthCount) (formula : Nth)
  /-- `:not(S)`: the steps of `S` before its subject compound (in walking order, so last
  first) and from it on. -/
  | negation (before after : List Step)
  | custom (name : String) (arg : String)
deriving Repr

/-- A compiled selector. -/
structure Matcher where
  chain : Chain
  steps : List Step
  subject : Nat
  lastCombinator : Option Nat
  firstPseudoElement : Option Nat

def Matcher.before (m : Matcher) : List Step := (m.steps.take m.subject).reverse

def Matcher.after (m : Matcher) : List Step := m.steps.drop m.subject

/-- What one pass over the parts finds: the marker's index, the last combinator's index and
the first pseudo-element with its index. -/
structure Landmarks where
  marker : Option Nat := none
  lastCombinator : Option Nat := none
  firstPseudoElement : Option (Nat × String) := none

/-- Find the landmarks of a chain, refusing a second marker and a combinator after a
pseudo-element, whichever comes first. -/
def landmarks (parts : List Part) : Except SelectorError Landmarks :=
  parts.zipIdx.foldlM step {}
where
  step (acc : Landmarks) : Part × Nat → Except SelectorError Landmarks
  | (p, i) =>
    match p.kind with
    | .subject =>
      if acc.marker.isSome then .error .multipleSubjects else .ok { acc with marker := some i }
    | .pseudoElement =>
      .ok { acc with firstPseudoElement := acc.firstPseudoElement.orElse fun _ => some (i, p.ident) }
    | .combinator _ =>
      match acc.firstPseudoElement with
      | some (_, ident) => .error (.combinatorAfterPseudoElement ident)
      | none => .ok { acc with lastCombinator := some i }
    | _ => .ok acc

/-- The index of the first part of the subject compound. -/
def subjectIndex (parts : List Part) (l : Landmarks) : Nat :=
  match l.marker with
  | some marker =>
    let before := (parts.take marker).zipIdx.filter fun (p, _) => p.kind.isCombinator
    match before.getLast? with
    | some (_, i) => i + 1
    | none => 0
  | none =>
    match l.lastCombinator with
    | some i => i + 1
    | none => 0

def PseudoClass.nthCount? : PseudoClass → Option NthCount
  | .nthChild => some .fromFirst
  | .nthLastChild => some .fromLast
  | .nthOfType => some .ofTypeFromFirst
  | .nthLastOfType => some .ofTypeFromLast
  | _ => none

def PseudoClass.structural? : PseudoClass → Option Structural
  | .empty => some .empty
  | .root => some .root
  | .onlyChild => some .onlyChild
  | .firstChild => some .firstChild
  | .lastChild => some .lastChild
  | .firstOfType => some .firstOfType
  | .lastOfType => some .lastOfType
  | .onlyOfType => some .onlyOfType
  | _ => none

mutual

/-- Read and compile a selector. -/
def Matcher.parse (text : String) : Except SelectorError Matcher :=
  match Chain.parse text with
  | .error e => .error e
  | .ok chain => compileWithin text.length chain
termination_by (2 * text.length + 2, 0)

/-- Compile a chain; a `:not` argument is compiled only if it is shorter than `bound`, which
every argument read from a text of that length is. -/
def compileWithin (bound : Nat) (chain : Chain) : Except SelectorError Matcher :=
  match landmarks chain.parts with
  | .error e => .error e
  | .ok l =>
    match compileParts bound chain.parts with
    | .error e => .error e
    | .ok steps =>
      .ok { chain := chain, steps := steps, subject := subjectIndex chain.parts l,
            lastCombinator := l.lastCombinator,
            firstPseudoElement := l.firstPseudoElement.map Prod.fst }
termination_by (2 * bound + 1, chain.parts.length + 2)

/-- Compile parts one by one; the first error wins. -/
def compileParts (bound : Nat) : List Part → Except SelectorError (List Step)
  | [] => .ok []
  | p :: ps =>
    match compilePart bound p with
    | .error e => .error e
    | .ok s =>
      match compileParts bound ps with
      | .error e => .error e
      | .ok ss => .ok (s :: ss)
termination_by ps => (2 * bound + 1, ps.length + 1)

def compilePart (bound : Nat) (p : Part) : Except SelectorError Step :=
  match p.kind with
  | .subject => .ok .subject
  | .typeName => .ok (.typeIs p.ident)
  | .universal => .ok .universal
  | .className => .ok (.classIs p.ident)
  | .idName => .ok (.idIs p.ident)
  | .combinator c => .ok (.combinator c)
  | .attribute op caseless => .ok (.attribute p.ident op caseless p.argText)
  | .pseudoElement => .ok (.pseudoElement ("::" ++ p.ident) p.argText)
  | .pseudoClass =>
    match PseudoClass.ofName? p.ident with
    | none => .ok (.custom (":" ++ p.ident) p.argText)
    | some pc =>
      let invalid (reason : String) : SelectorError := .invalidPseudoArgument p.ident reason
      match pc.structural?, pc.nthCount?, p.arg with
      | some st, _, none => .ok (.structural st)
      | some _, _, some _ => .error (invalid "takes no argument")
      | none, _, none => .error (invalid "argument required")
      | none, some count, some arg =>
        match Nth.parse? arg with
        | some f => .ok (.nth count f)
        | none => .error (invalid ("'" ++ arg ++ "' is not an An+B formula"))
      | none, none, some arg =>
        if arg.length < bound then
          match Matcher.parse arg with
          | .error e => .error (invalid e.message)
          | .ok inner =>
            match inner.firstPseudoElement with
            | some i =>
              .error (.misplacedPseudoElement ((inner.chain.parts[i]?.map Part.ident).getD ""))
            | none => .ok (.negation inner.before inner.after)
        else .error (invalid "argument too long")
termination_by (2 * bound + 1, 0)
decreasing_by
  apply Prod.Lex.left
  omega

end

end TreeQuery.Selector
