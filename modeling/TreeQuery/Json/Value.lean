import TreeQuery.Binary64.Shortest

/-!
# JSON values

A JSON document as read: numbers keep the class they were read in, and objects keep their
members in document order, repeated names included.
-/

namespace TreeQuery.Json

/-- A JSON number as read. -/
inductive Number where
  | unsigned (n : Nat)
  | signed (n : Int)
  | float (negative : Bool) (magnitude : Binary64)
deriving DecidableEq, Repr

/-- A JSON value. -/
inductive Value where
  | null
  | bool (b : Bool)
  | number (n : Number)
  | string (s : String)
  | array (items : List Value)
  | object (members : List (String × Value))
deriving Repr

/-- How numbers are written: shortest digits, positionally from `1e-5` up to below `1e16`, with
`.0` after an integral value, otherwise as `1.5e+20` or `1e-7`. -/
def numberFormat : Binary64.TextFormat where
  maxIntegerDigits := 16
  minPointPosition := -5
  integralSuffix := ".0"
  exponentMark := "e"
  positiveExponentSign := "+"
  zeroText := "0.0"

def Number.text : Number → String
  | .unsigned n => toString n
  | .signed n => toString n
  | .float negative x => numberFormat.render negative x

def dedupMembers (members : List (String × Value)) : List (String × Value) :=
  members.foldl (fun acc (k, v) => (acc.filter fun p => p.1 != k) ++ [(k, v)]) []

/-- The member of an object with a given name; a later member wins over an earlier one. -/
def Value.field? (v : Value) (key : String) : Option Value :=
  match v with
  | .object members => (members.reverse.find? fun p => p.1 == key).map Prod.snd
  | _ => none

end TreeQuery.Json
