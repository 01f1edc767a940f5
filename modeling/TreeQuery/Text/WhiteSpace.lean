/-!
# Unicode white space

The characters with the Unicode `White_Space` property, and trimming by them.
-/

namespace TreeQuery.Text

/-- A character with the Unicode `White_Space` property: U+0009 to U+000D, U+0020, U+0085,
U+00A0, U+1680, U+2000 to U+200A, U+2028, U+2029, U+202F, U+205F and U+3000. -/
def isWhiteSpace (c : Char) : Bool :=
  let n := c.toNat
  (0x09 ≤ n && n ≤ 0x0D) || n == 0x20 || n == 0x85 || n == 0xA0 || n == 0x1680 ||
    (0x2000 ≤ n && n ≤ 0x200A) || n == 0x2028 || n == 0x2029 || n == 0x202F || n == 0x205F ||
    n == 0x3000

def trimWhiteSpace (s : String) : String :=
  String.ofList (((s.toList.dropWhile isWhiteSpace).reverse.dropWhile isWhiteSpace).reverse)

def occursIn (needle : List Char) : List Char → Bool
  | [] => needle.isEmpty
  | c :: rest => needle.isPrefixOf (c :: rest) || occursIn needle rest

/-- Split at every character that satisfies `sep`; empty pieces are kept. -/
def splitBy (sep : Char → Bool) (cs : List Char) : List (List Char) :=
  let (last, done) := cs.foldl
    (fun (cur, acc) c => if sep c then ([], cur.reverse :: acc) else (c :: cur, acc)) ([], [])
  (last.reverse :: done).reverse

def asciiLower (s : String) : String := String.ofList (s.toList.map Char.toLower)

end TreeQuery.Text
