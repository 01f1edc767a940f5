import TreeQuery.Json.Value

/-!
# Writing JSON values

Two layouts of one value: compact, and indented by two spaces a level.
-/

namespace TreeQuery.Json

/-- The escaped form of one character inside a JSON string. -/
def escapeChar (c : Char) : List Char :=
  if c = '"' then ['\\', '"']
  else if c = '\\' then ['\\', '\\']
  else if c = '\n' then ['\\', 'n']
  else if c = '\r' then ['\\', 'r']
  else if c = '\t' then ['\\', 't']
  else if c.toNat = 0x08 then ['\\', 'b']
  else if c.toNat = 0x0C then ['\\', 'f']
  else if c.toNat < 0x20 then
    ['\\', 'u', '0', '0', Nat.digitChar (c.toNat / 16), Nat.digitChar (c.toNat % 16)]
  else [c]

def quote (s : String) : String :=
  String.ofList ('"' :: s.toList.flatMap escapeChar ++ ['"'])

mutual

def Value.compact : Value → String
  | .null => "null"
  | .bool b => if b then "true" else "false"
  | .number n => n.text
  | .string s => quote s
  | .array items => "[" ++ ",".intercalate (Value.compactAll items) ++ "]"
  | .object members => "\x7b" ++ ",".intercalate (Value.compactMembers members) ++ "\x7d"

def Value.compactAll : List Value → List String
  | [] => []
  | v :: vs => v.compact :: Value.compactAll vs

def Value.compactMembers : List (String × Value) → List String
  | [] => []
  | (k, v) :: ms => (quote k ++ ":" ++ v.compact) :: Value.compactMembers ms

end

def indentation (depth : Nat) : String := String.ofList (List.replicate (2 * depth) ' ')

def bracketed (depth : Nat) (opening closing : String) : List String → String
  | [] => opening ++ closing
  | lines =>
    opening ++ "\n" ++ ",\n".intercalate (lines.map (indentation (depth + 1) ++ ·)) ++ "\n" ++
      indentation depth ++ closing

mutual

def Value.prettyAt (depth : Nat) : Value → String
  | .array items => bracketed depth "[" "]" (Value.prettyAll depth items)
  | .object members => bracketed depth "\x7b" "\x7d" (Value.prettyMembers depth members)
  | v => v.compact

def Value.prettyAll (depth : Nat) : List Value → List String
  | [] => []
  | v :: vs => v.prettyAt (depth + 1) :: Value.prettyAll depth vs

def Value.prettyMembers (depth : Nat) : List (String × Value) → List String
  | [] => []
  | (k, v) :: ms => (quote k ++ ": " ++ v.prettyAt (depth + 1)) :: Value.prettyMembers depth ms

end

/-- A value indented by two spaces a level. -/
def Value.pretty (v : Value) : String := v.prettyAt 0

end TreeQuery.Json
