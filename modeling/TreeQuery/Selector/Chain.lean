/-!
# Selector chains

A selector is a flat chain of parts with its combinators inline: `A > B.c` is the chain
`[type A, child, type B, class c]`.
-/

namespace TreeQuery.Selector

/-- How an attribute selector compares a property value with its argument. -/
inductive AttrOp where
  | present
  | equal
  | notEqual
  | startsWith
  | endsWith
  | dashMatch
  | contains
  | word
deriving DecidableEq, Repr

def AttrOp.symbol : AttrOp → String
  | .present => ""
  | .equal => "="
  | .notEqual => "!="
  | .startsWith => "^="
  | .endsWith => "$="
  | .dashMatch => "|="
  | .contains => "*="
  | .word => "~="

/-- The operators that take a value, in the order they are tried. -/
def AttrOp.valued : List AttrOp :=
  [.equal, .notEqual, .startsWith, .endsWith, .dashMatch, .contains, .word]

/-- How two consecutive compounds of a chain are related in the tree. -/
inductive Combinator where
  | descendant
  | child
  | adjacent
  | neighboring
deriving DecidableEq, Repr

/-- What one part of a chain is. -/
inductive PartKind where
  | subject
  | typeName
  | universal
  | className
  | idName
  | pseudoElement
  | pseudoClass
  | combinator (c : Combinator)
  | attribute (op : AttrOp) (caseless : Bool)
deriving DecidableEq, Repr

def PartKind.isCombinator : PartKind → Bool
  | .combinator _ => true
  | _ => false

/-- One part of a chain: its kind, its name and its argument. Names are stored decoded;
a pseudo argument is stored as written, an attribute value decoded. -/
structure Part where
  kind : PartKind
  ident : String := ""
  arg : Option String := none
deriving DecidableEq, Repr

def Part.argText (p : Part) : String := p.arg.getD ""

/-- A selector as a flat list of parts. -/
structure Chain where
  parts : List Part
deriving DecidableEq, Repr

def Chain.length (c : Chain) : Nat := c.parts.length

end TreeQuery.Selector
