import TreeQuery.Tree.Basic
import TreeQuery.Text.WhiteSpace

/-!
# What a tree answers for the matcher

The n-th child test and the pseudo-selectors the engine does not know, answered by the tree
itself (`Hooks.tree`) or as any tree would (`Hooks.defaults`).
-/

namespace TreeQuery

/-- What a pseudo-selector says at a node. -/
inductive PseudoOutcome where
  | noMatch
  | matched
  | node (id : Nat)
deriving DecidableEq, Repr

/-- How a tree answers the matcher's questions. -/
inductive Hooks where
  | tree
  | defaults
deriving DecidableEq, Repr

def int64Min : Int := -Int.pow 2 63

namespace Tree

/-- The n-th child test from the stored position and the number of siblings. -/
def isNthChild (t : Tree) (id : Nat) (nth : Int) : Bool :=
  match t.parent id with
  | none => false
  | some p =>
    let k := nth.natAbs
    if k = 0 then false
    else if 0 < nth then t.position id + 1 == k
    else (t.children p).length - t.position id == k

/-- The n-th child test by probing siblings: for positive n the sibling `n - 1` places before
exists and the one `n` places before does not; for negative n the same after. -/
def isNthChildBySiblings (t : Tree) (id : Nat) (nth : Int) : Bool :=
  if nth = 0 ∨ (t.parent id).isNone ∨ nth = int64Min then false
  else
    let before := nth - nth.sign
    (before == 0 || (t.sibling id (-before)).isSome) && (t.sibling id (-nth)).isNone

def isVisible (t : Tree) (id : Nat) : Bool :=
  (id :: t.ancestors id).all fun n => (t.data n).properties.getD "visible" != "false"

def readIndex (s : String) : Option Nat :=
  let digits := match s.toList with
    | '+' :: rest => rest
    | cs => cs
  if digits.isEmpty || !digits.all Char.isDigit then none
  else
    let n := digits.foldl (fun acc d => 10 * acc + (d.toNat - 48)) 0
    if n < Nat.pow 2 64 then some n else none

def pseudoCatalog : List (String × String) :=
  [(":visible", "node and all its ancestors are visible"),
   (":property", "node has the property named by the argument"),
   ("::child", "child at the 0-based index given by the argument"),
   ("::parent", "parent of the node")]

def unknownPseudo (ident : String) : Except String PseudoOutcome :=
  .error ("unknown pseudo-selector '" ++ ident ++ "'")

/-- A tree's own pseudo-selectors, on the argument with white space trimmed:

* `:visible`, without argument: neither the node nor an ancestor is hidden;
* `:property(name)`: the node has the property;
* `::child(n)`: continue at the child with index `n`, counting from zero;
* `::parent`, without argument: continue at the parent. -/
def pseudo (t : Tree) (id : Nat) (ident rawArg : String) : Except String PseudoOutcome :=
  let arg := Text.trimWhiteSpace rawArg
  let found (b : Bool) : PseudoOutcome := if b then .matched else .noMatch
  let noArgument : Except String Unit :=
    if arg.isEmpty then .ok () else .error ("'" ++ ident ++ "' takes no argument, got '" ++ arg ++ "'")
  if ident = ":visible" then noArgument.map fun _ => found (t.isVisible id)
  else if ident = ":property" then
    if arg.isEmpty then .error "':property' needs a property name"
    else .ok (found ((t.data id).properties.contains arg))
  else if ident = "::child" then
    match readIndex arg with
    | none => .error ("'::child(" ++ arg ++ ")' needs a non-negative index")
    | some i =>
      match (t.children id)[i]? with
      | some c => .ok (.node c)
      | none => .ok .noMatch
  else if ident = "::parent" then
    noArgument.map fun _ =>
      match t.parent id with
      | some p => .node p
      | none => .noMatch
  else unknownPseudo ident

end Tree

def Hooks.isNthChild : Hooks → Tree → Nat → Int → Bool
  | .tree, t, id, nth => t.isNthChild id nth
  | .defaults, t, id, nth => t.isNthChildBySiblings id nth

def Hooks.pseudo : Hooks → Tree → Nat → String → String → Except String PseudoOutcome
  | .tree, t, id, ident, arg => t.pseudo id ident arg
  | .defaults, _, _, ident, _ => Tree.unknownPseudo ident

end TreeQuery
