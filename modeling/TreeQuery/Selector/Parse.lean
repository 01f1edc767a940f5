import TreeQuery.Selector.Scan
import TreeQuery.Selector.Chain
import TreeQuery.Selector.Error
import TreeQuery.Selector.PseudoClass

/-!
# Reading selector text

A recursive-descent reader from selector text to a chain. Of the notes of failing
productions, the one at the furthest offset is kept, a later one winning a tie.
-/

namespace TreeQuery.Selector

/-- The furthest failure seen so far: its byte offset and message. -/
abbrev Failure := Option (Nat × String)

/-- Record a failure, unless one further on is already recorded. -/
def Failure.note (f : Failure) (offset : Nat) (message : String) : Failure :=
  match f with
  | some (seen, _) => if seen ≤ offset then some (offset, message) else f
  | none => some (offset, message)

/-- The byte offset at which a rest of the input starts, in an input of `size` bytes. -/
def offsetOf (size : Nat) (rest : List Char) : Nat := size - utf8Len rest

def attributeNesting : Nesting := { Nesting.none with brackets := true, parens := true, quotes := true }

def argumentNesting : Nesting :=
  { Nesting.none with brackets := true, parens := true, braces := true, quotes := true }

def subjectPart : Part := { kind := .subject }

def typePart (cs : List Char) : Option (Part × List Char) :=
  match cs with
  | '*' :: rest => some ({ kind := .universal }, rest)
  | _ => (identifier cs).map fun (ident, rest) => ({ kind := .typeName, ident := ident }, rest)

def prefixedPart (size : Nat) (isId : Bool) (cs : List Char) (f : Failure) :
    Option (Part × List Char) × Failure :=
  let body := cs.drop 1
  let read := if isId then name body else identifier body
  match read with
  | some (ident, rest) =>
    (some ({ kind := (if isId then .idName else .className), ident := ident }, rest), f)
  | none =>
    (none, f.note (offsetOf size cs + 1) (if isId then "expected id" else "expected class name"))

/-- The operator at the front of an attribute body: two characters are tried before one. -/
def attrOperator (cs : List Char) : Option (AttrOp × List Char) :=
  let two := String.ofList (cs.take 2)
  let one := String.ofList (cs.take 1)
  match AttrOp.valued.find? fun op => op.symbol == two with
  | some op => some (op, cs.drop 2)
  | none =>
    match AttrOp.valued.find? fun op => op.symbol == one with
    | some op => some (op, cs.drop 1)
    | none => none

/-- The case flag: an `i` or `I` followed by nothing but blanks. It reads the whole rest. -/
def caseFlag (cs : List Char) : Bool × List Char :=
  match cs with
  | c :: rest => if (c = 'i' ∨ c = 'I') ∧ (skipBlanks rest).isEmpty then (true, []) else (false, cs)
  | [] => (false, cs)

def startsWithQuote (cs : List Char) : Bool := cs.head? == some '"' || cs.head? == some '\x27'

/-- Read the body of an attribute selector, the text between its brackets. An error carries
its byte offset within the body. -/
def attributeBody (cs : List Char) : Except (Nat × String) Part :=
  let size := utf8Len cs
  let r0 := skipBlanks cs
  match identifier r0 with
  | none => .error (offsetOf size r0, "expected attribute name")
  | some (attr, r1) =>
    let r2 := skipBlanks r1
    let spaced := r2.length < r1.length
    match attrOperator r2 with
    | none =>
      let (caseless, r3) := if spaced then caseFlag r2 else (false, r2)
      if r3.isEmpty then .ok { kind := .attribute .present caseless, ident := attr }
      else .error (offsetOf size r3, "expected attribute operator after '" ++ attr ++ "'")
    | some (op, r3) =>
      let r4 := skipBlanks r3
      let value : Option (String × Bool × List Char) :=
        match quoted r4 with
        | some (v, r) => some (v, true, r)
        | none => (identifier r4).map fun (v, r) => (v, false, r)
      match value with
      | none =>
        .error (offsetOf size r4,
          if startsWithQuote r4 then "unterminated string in attribute selector"
          else "expected attribute value")
      | some (v, wasQuoted, r5) =>
        let r6 := skipBlanks r5
        let spaced := r6.length < r5.length
        let (caseless, r7) := if spaced || wasQuoted then caseFlag r6 else (false, r6)
        if r7.isEmpty then .ok { kind := .attribute op caseless, ident := attr, arg := some v }
        else .error (offsetOf size r7, "unexpected input in attribute selector")

def attributePart (size : Nat) (cs : List Char) (f : Failure) :
    Option (Part × List Char) × Failure :=
  let start := offsetOf size cs
  match nested attributeNesting ']' (cs.drop 1) with
  | none => (none, f.note start "unterminated attribute selector, missing ']'")
  | some (inner, rest) =>
    match attributeBody inner.toList with
    | .ok part => (some (part, rest.drop 1), f)
    | .error (offset, message) => (none, f.note (start + 1 + offset) message)

def pseudoPart (size : Nat) (cs : List Char) (f : Failure) :
    Option (Part × List Char) × Failure :=
  let start := offsetOf size cs
  let (element, body) : Bool × List Char :=
    match cs.drop 1 with
    | ':' :: rest => (true, rest)
    | rest => (false, rest)
  let colons := if element then "::" else ":"
  match identifier body with
  | none => (none, f.note (offsetOf size body) ("expected pseudo-selector name after '" ++ colons ++ "'"))
  | some (written, r1) =>
    let argument : Option (Option String × List Char) :=
      match r1 with
      | '(' :: r2 => (nested argumentNesting ')' r2).map fun (text, r3) => (some text, r3.drop 1)
      | _ => some (none, r1)
    match argument with
    | none =>
      (none, f.note start ("unterminated argument of '" ++ colons ++ written ++ "(', missing ')'"))
    | some (arg, r4) =>
      match (if element then none else PseudoClass.ofName? written) with
      | some p => (some ({ kind := .pseudoClass, ident := p.name, arg := arg }, r4), f)
      | none =>
        if customShape written then
          let kind := if element then PartKind.pseudoElement else .pseudoClass
          (some ({ kind := kind, ident := written, arg := arg }, r4), f)
        else (none, f.note start ("unknown pseudo-selector '" ++ colons ++ written ++ "'"))

def specialPart (size : Nat) (cs : List Char) (f : Failure) : Option (Part × List Char) × Failure :=
  match cs with
  | '#' :: _ => prefixedPart size true cs f
  | '.' :: _ => prefixedPart size false cs f
  | '[' :: _ => attributePart size cs f
  | ':' :: _ => pseudoPart size cs f
  | _ => (none, f)

def specialParts (size : Nat) (cs : List Char) (f : Failure) : List Part × List Char × Failure :=
  match specialPart size cs f with
  | (some (p, rest), f') =>
    if rest.length < cs.length then
      let (ps, after, f'') := specialParts size rest f'
      (p :: ps, after, f'')
    else ([p], rest, f')
  | (none, f') => ([], cs, f')
termination_by cs.length

/-- A simple selector sequence: an optional marker, an optional type, then special
selectors; at least one type or special selector. -/
def sequence (size : Nat) (cs : List Char) (f : Failure) : Option (List Part × List Char) × Failure :=
  let (marker, r0) : List Part × List Char :=
    match cs with
    | '!' :: rest => ([subjectPart], rest)
    | _ => ([], cs)
  let (typ, r1) : List Part × List Char :=
    match typePart r0 with
    | some (p, rest) => ([p], rest)
    | none => ([], r0)
  let (more, r2, f') := specialParts size r1 f
  if typ.isEmpty && more.isEmpty then (none, f') else (some (marker ++ typ ++ more, r2), f')

def combinatorParts (cs : List Char) : Option (List Part × List Char) :=
  let (marker, r0) : List Part × List Char :=
    match cs with
    | '!' :: rest => ([subjectPart], rest)
    | _ => ([], cs)
  let r1 := skipBlanks r0
  let joined (c : Combinator) (rest : List Char) := some (marker ++ [{ kind := .combinator c }], rest)
  match r1 with
  | '>' :: rest => joined .child (skipBlanks rest)
  | '+' :: rest => joined .adjacent (skipBlanks rest)
  | '~' :: rest => joined .neighboring (skipBlanks rest)
  | _ => if r1.length < r0.length then joined .descendant r1 else none

/-- As many combinators with a sequence after them as follow. A combinator with no sequence
after it is not read. -/
def links (size : Nat) (cs : List Char) (f : Failure) : List Part × List Char × Failure :=
  match combinatorParts cs with
  | none => ([], cs, f)
  | some (joint, r) =>
    match sequence size r f with
    | (none, f') => ([], cs, f')
    | (some (parts, rest), f') =>
      if rest.length < cs.length then
        let (more, after, f'') := links size rest f'
        (joint ++ parts ++ more, after, f'')
      else (joint ++ parts, rest, f')
termination_by cs.length

/-- The error for reading that stopped at `rest`: the furthest note if it lies at or after
that point, otherwise the fallback message with what was found there. -/
def errorAt (size : Nat) (rest : List Char) (f : Failure) (fallback : String) : SelectorError :=
  let offset := offsetOf size rest
  let found := match rest with
    | c :: _ => fallback ++ ", found '" ++ c.toString ++ "'"
    | [] => fallback ++ ", found end of input"
  match f with
  | some (seen, message) => if offset ≤ seen then .malformed seen message else .malformed offset found
  | none => .malformed offset found

/-- Read a chain. Without combinators only one simple selector sequence is allowed. -/
def readChain (combinators : Bool) (text : String) : Except SelectorError Chain :=
  let cs := text.toList
  let size := utf8Len cs
  let r0 := skipBlanks cs
  match sequence size r0 none with
  | (none, f) => .error (errorAt size r0 f "expected a selector")
  | (some (first, r1), f) =>
    let (more, r2, f) := if combinators then links size r1 f else ([], r1, f)
    let parts := first ++ more
    let (parts, r3) : List Part × List Char :=
      match skipBlanks r2 with
      | '!' :: rest =>
        (if parts.any (fun p => p.kind == .subject) then parts else parts ++ [subjectPart], rest)
      | _ => (parts, r2)
    let r4 := skipBlanks r3
    if r4.isEmpty then .ok ⟨parts⟩
    else .error (errorAt size r4 f
      (if combinators then "unexpected input after selector"
        else "expected a single simple selector sequence"))

def Chain.parse (text : String) : Except SelectorError Chain := readChain true text

def Chain.parseCompound (text : String) : Except SelectorError Chain := readChain false text

end TreeQuery.Selector
