/-!
# Built-in pseudo-classes

The pseudo-classes the engine evaluates itself, named without regard to ASCII case.
-/

namespace TreeQuery.Selector

/-- A built-in pseudo-class. -/
inductive PseudoClass where
  | negation
  | empty
  | root
  | onlyChild
  | firstChild
  | lastChild
  | nthChild
  | nthLastChild
  | firstOfType
  | lastOfType
  | onlyOfType
  | nthOfType
  | nthLastOfType
deriving DecidableEq, Repr

def PseudoClass.all : List PseudoClass :=
  [.negation, .empty, .root, .onlyChild, .firstChild, .lastChild, .nthChild, .nthLastChild,
    .firstOfType, .lastOfType, .onlyOfType, .nthOfType, .nthLastOfType]

def PseudoClass.name : PseudoClass → String
  | .negation => "not"
  | .empty => "empty"
  | .root => "root"
  | .onlyChild => "only-child"
  | .firstChild => "first-child"
  | .lastChild => "last-child"
  | .nthChild => "nth-child"
  | .nthLastChild => "nth-last-child"
  | .firstOfType => "first-of-type"
  | .lastOfType => "last-of-type"
  | .onlyOfType => "only-of-type"
  | .nthOfType => "nth-of-type"
  | .nthLastOfType => "nth-last-of-type"

def sameIgnoringAsciiCase (a b : String) : Bool :=
  a.toList.map Char.toLower == b.toList.map Char.toLower

/-- The built-in pseudo-class a name stands for, ignoring ASCII case. -/
def PseudoClass.ofName? (name : String) : Option PseudoClass :=
  PseudoClass.all.find? fun p => sameIgnoringAsciiCase p.name name

/-- The shape a custom pseudo name must have: an ASCII letter or an underscore, then ASCII
letters, digits, hyphens and underscores. -/
def customShape (name : String) : Bool :=
  match name.toList with
  | [] => false
  | c :: rest =>
    (c.isAlpha || c = '_') && rest.all fun d => d.isAlphanum || d = '-' || d = '_'

end TreeQuery.Selector
