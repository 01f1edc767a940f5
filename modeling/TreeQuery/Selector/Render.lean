import TreeQuery.Selector.Scan
import TreeQuery.Selector.Chain

/-!
# Canonical selector text

Every chain has one canonical text, with names escaped so that they read back as the same
identifier.
-/

namespace TreeQuery.Selector

def hexText (n : Nat) : String := String.ofList (Nat.toDigits 16 n)

def isGraphicAscii (c : Char) : Bool := 0x21 ≤ c.toNat && c.toNat ≤ 0x7E

def nameCharText (plain : Bool) (c : Char) : String :=
  if plain then c.toString
  else if isGraphicAscii c && !isHexDigit c then "\\" ++ c.toString
  else "\\" ++ hexText c.toNat ++ " "

/-- A name written so that it reads back as an identifier: the first character, or the one
after a leading hyphen, must be a name-start character; every other a name character. -/
def identText (ident : String) : String :=
  let cs := ident.toList
  let start := match cs with
    | '-' :: _ :: _ => 1
    | _ => 0
  String.join (cs.mapIdx fun i c =>
    nameCharText (if i = start then isNameStart c else isNameChar c) c)

def isControl (c : Char) : Bool := c.toNat < 0x20 || (0x7F ≤ c.toNat && c.toNat ≤ 0x9F)

/-- One character of a quoted value: quotes and backslashes get a backslash, control
characters are written by code point. -/
def valueCharText (c : Char) : String :=
  if c = '"' ∨ c = '\\' then "\\" ++ c.toString
  else if isControl c then "\\" ++ hexText c.toNat ++ " "
  else c.toString

def quotedText (value : String) : String :=
  "\"" ++ String.join (value.toList.map valueCharText) ++ "\""

def Combinator.text : Combinator → String
  | .descendant => " "
  | .child => " > "
  | .adjacent => " + "
  | .neighboring => " ~ "

/-- The canonical text of one part. -/
def Part.render (p : Part) : String :=
  match p.kind with
  | .subject => "!"
  | .universal => "*"
  | .typeName => identText p.ident
  | .className => "." ++ identText p.ident
  | .idName => "#" ++ identText p.ident
  | .pseudoClass => ":" ++ identText p.ident ++ parenthesised p.arg
  | .pseudoElement => "::" ++ identText p.ident ++ parenthesised p.arg
  | .combinator c => c.text
  | .attribute op caseless =>
    "[" ++ identText p.ident ++
      (if op = .present then "" else op.symbol ++ quotedText p.argText) ++
      (if caseless then " i" else "") ++ "]"
where
  parenthesised : Option String → String
    | some a => "(" ++ a ++ ")"
    | none => ""

/-- The canonical text of a chain: its parts' texts, one after the other. -/
def Chain.render (c : Chain) : String := String.join (c.parts.map Part.render)

end TreeQuery.Selector
