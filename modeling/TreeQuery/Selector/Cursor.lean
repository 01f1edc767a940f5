import TreeQuery.Selector.Scan

/-!
# A cursor over selector text

The scanning functions driven one call at a time, at byte offsets into the UTF-8 text.
-/

namespace TreeQuery.Selector

/-- A text and the part of it not yet read. -/
structure Cursor where
  input : List Char
  rest : List Char

def Cursor.start (text : String) : Cursor := ⟨text.toList, text.toList⟩

def Cursor.position (c : Cursor) : Nat := utf8Len c.input - utf8Len c.rest

/-- The rest of a text from a byte offset, if the offset falls between two characters. -/
def restAt : List Char → Nat → Option (List Char)
  | cs, 0 => some cs
  | [], _ + 1 => none
  | c :: cs, n + 1 => if c.utf8Size ≤ n + 1 then restAt cs (n + 1 - c.utf8Size) else none

/-- One call on a cursor. -/
inductive ScanStep where
  | identifier
  | name
  | string
  | skipBlanks
  | blanks (min : Nat)
  | nested (nesting : Nesting) (terminator : Char)
  | eat (c : Char)
  | peek
  | atEnd
  | rest
  | reset (position : Nat)

inductive ScanResult where
  | text (s : Option String)
  | count (n : Nat)
  | flag (b : Bool)
  | byte (b : Option Nat)
  | remaining (s : String)
  | nothing

def Cursor.moveBy (c : Cursor) : Option (String × List Char) → ScanResult × Cursor
  | some (v, rest) => (.text (some v), { c with rest := rest })
  | none => (.text none, c)

/-- Run one call; a reset to an offset inside a character or past the end has no answer. -/
def Cursor.step (c : Cursor) : ScanStep → Option (ScanResult × Cursor)
  | .identifier => some (c.moveBy (identifier c.rest))
  | .name => some (c.moveBy (name c.rest))
  | .string => some (c.moveBy (quoted c.rest))
  | .skipBlanks =>
    let r := skipBlanks c.rest
    some (.count (c.rest.length - r.length), { c with rest := r })
  | .blanks min =>
    let r := skipBlanks c.rest
    if min ≤ c.rest.length - r.length then some (.flag true, { c with rest := r })
    else some (.flag false, c)
  | .nested n term => some (c.moveBy (nested n term c.rest))
  | .eat ch =>
    match c.rest with
    | d :: r => if d = ch then some (.flag true, { c with rest := r }) else some (.flag false, c)
    | [] => some (.flag false, c)
  | .peek => some (.byte (c.rest.head?.map leadByte), c)
  | .atEnd => some (.flag c.rest.isEmpty, c)
  | .rest => some (.remaining (String.ofList c.rest), c)
  | .reset position => (restAt c.input position).map fun r => (.nothing, { c with rest := r })

def Cursor.run (c : Cursor) : List ScanStep → Option (List (ScanResult × Nat))
  | [] => some []
  | s :: ss => do
    let (r, c') ← c.step s
    let more ← c'.run ss
    pure ((r, c'.position) :: more)

end TreeQuery.Selector
