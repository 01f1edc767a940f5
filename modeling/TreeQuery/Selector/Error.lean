/-!
# Selector errors

Syntax errors carry the byte offset at which reading failed.
-/

namespace TreeQuery.Selector

/-- Why a selector was refused. -/
inductive SelectorError where
  | malformed (offset : Nat) (message : String)
  | multipleSubjects
  | misplacedPseudoElement (ident : String)
  | combinatorAfterPseudoElement (ident : String)
  | invalidPseudoArgument (pseudo : String) (reason : String)
deriving DecidableEq, Repr

/-- The text of an error. -/
def SelectorError.message : SelectorError → String
  | .malformed offset message => "invalid selector at offset " ++ toString offset ++ ": " ++ message
  | .multipleSubjects => "selector has more than one subject marker '!'"
  | .misplacedPseudoElement ident => "pseudo-element '::" ++ ident ++ "' is not allowed here"
  | .combinatorAfterPseudoElement ident => "combinator follows pseudo-element '::" ++ ident ++ "'"
  | .invalidPseudoArgument pseudo reason => "invalid argument for ':" ++ pseudo ++ "': " ++ reason

end TreeQuery.Selector
