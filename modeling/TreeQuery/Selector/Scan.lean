/-!
# Selector text: character classes and scanning

Each scanner returns what it read with the characters left, or `none`, so a failed scan never
moves the cursor. Every character class is decided by a character's first byte.
-/

namespace TreeQuery.Selector

/-- A blank byte: space, tab, line feed, line tabulation, form feed or carriage return. -/
def blankByte (b : Nat) : Bool := b == 32 || (9 ≤ b && b ≤ 13)

def nameStartByte (b : Nat) : Bool :=
  (65 ≤ b && b ≤ 90) || (97 ≤ b && b ≤ 122) || b == 95 || 128 ≤ b

def nameByte (b : Nat) : Bool := nameStartByte b || (48 ≤ b && b ≤ 57) || b == 45

def isBlank (c : Char) : Bool := blankByte c.toNat

def isNameStart (c : Char) : Bool := nameStartByte c.toNat

def isNameChar (c : Char) : Bool := nameByte c.toNat

def hexValue (c : Char) : Option Nat :=
  if '0' ≤ c ∧ c ≤ '9' then some (c.toNat - 48)
  else if 'a' ≤ c ∧ c ≤ 'f' then some (c.toNat - 87)
  else if 'A' ≤ c ∧ c ≤ 'F' then some (c.toNat - 55)
  else none

def isHexDigit (c : Char) : Bool := (hexValue c).isSome

def hexNumber (ds : List Char) : Nat :=
  ds.foldl (fun acc d => 16 * acc + (hexValue d).getD 0) 0

def leadByte (c : Char) : Nat :=
  let n := c.toNat
  if n < 0x80 then n
  else if n < 0x800 then 0xC0 + n / 64
  else if n < 0x10000 then 0xE0 + n / 4096
  else 0xF0 + n / 262144

/-- The UTF-8 length of a run of characters, in bytes. -/
def utf8Len (cs : List Char) : Nat := cs.foldr (fun c n => c.utf8Size + n) 0

/-- The character a hexadecimal escape stands for: zero, a surrogate, or a number past the
last code point reads as U+FFFD. -/
def codePoint (n : Nat) : Char :=
  if n = 0 ∨ (0xD800 ≤ n ∧ n ≤ 0xDFFF) ∨ 0x10FFFF < n then '\uFFFD' else Char.ofNat n

/-- After a hexadecimal escape, one blank is part of the escape; a CR LF pair counts as one. -/
def dropEscapeBlank : List Char → List Char
  | '\r' :: '\n' :: rest => rest
  | c :: rest => if isBlank c then rest else c :: rest
  | [] => []

/-- Read an escape: a backslash, then either one to six hexadecimal digits (with the blank
that may follow them) or any one character that is not a line break. -/
def escape : List Char → Option (Char × List Char)
  | '\\' :: c :: rest =>
    if c = '\n' ∨ c = '\r' ∨ c = '\x0c' then none
    else if isHexDigit c then
      let digits := ((c :: rest).takeWhile isHexDigit).take 6
      some (codePoint (hexNumber digits), dropEscapeBlank ((c :: rest).drop digits.length))
    else some (c, rest)
  | _ => none

/-- One character of a name: a character of the given class, or an escape. -/
def nameUnit (accept : Char → Bool) : List Char → Option (Char × List Char)
  | [] => none
  | c :: rest => if c = '\\' then escape (c :: rest) else if accept c then some (c, rest) else none

theorem length_dropEscapeBlank_le (cs : List Char) : (dropEscapeBlank cs).length ≤ cs.length := by
  unfold dropEscapeBlank
  split
  · simp only [List.length_cons]
    omega
  · split <;> simp
  · simp

theorem escape_shorter {cs rest : List Char} {c : Char} (h : escape cs = some (c, rest)) :
    rest.length + 2 ≤ cs.length := by
  unfold escape at h
  split at h
  · rename_i d tail
    split at h
    · simp at h
    · split at h
      · simp only [Option.some.injEq, Prod.mk.injEq] at h
        obtain ⟨-, rfl⟩ := h
        have hd : isHexDigit d = true := by assumption
        have h1 := length_dropEscapeBlank_le
          ((d :: tail).drop (((d :: tail).takeWhile isHexDigit).take 6).length)
        have h2 : 1 ≤ (((d :: tail).takeWhile isHexDigit).take 6).length := by
          simp [hd]
        simp only [List.length_drop, List.length_cons] at h1 h2 ⊢
        omega
      · simp only [Option.some.injEq, Prod.mk.injEq] at h
        obtain ⟨-, rfl⟩ := h
        simp
  · simp at h

theorem nameUnit_shorter {accept : Char → Bool} {cs rest : List Char} {c : Char}
    (h : nameUnit accept cs = some (c, rest)) : rest.length < cs.length := by
  unfold nameUnit at h
  split at h
  · simp at h
  · split at h
    · have := escape_shorter h
      omega
    · split at h
      · simp only [Option.some.injEq, Prod.mk.injEq] at h
        obtain ⟨-, rfl⟩ := h
        simp
      · simp at h

def nameUnits (accept : Char → Bool) (cs : List Char) : List Char × List Char :=
  match h : nameUnit accept cs with
  | some (c, rest) =>
    have : rest.length < cs.length := nameUnit_shorter h
    let (more, after) := nameUnits accept rest
    (c :: more, after)
  | none => ([], cs)
termination_by cs.length

/-- Read an identifier: an optional hyphen, one name-start character, then name characters. -/
def identifier (cs : List Char) : Option (String × List Char) :=
  let (dash, body) : List Char × List Char :=
    match cs with
    | '-' :: rest => (['-'], rest)
    | _ => ([], cs)
  match nameUnit isNameStart body with
  | none => none
  | some (c, rest) =>
    let (more, after) := nameUnits isNameChar rest
    some (String.ofList (dash ++ c :: more), after)

def name (cs : List Char) : Option (String × List Char) :=
  match nameUnits isNameChar cs with
  | ([], _) => none
  | (units, after) => some (String.ofList units, after)

def skipBlanks (cs : List Char) : List Char := cs.dropWhile isBlank

def dropLineFeed : List Char → List Char
  | '\n' :: rest => rest
  | cs => cs

theorem length_dropLineFeed_le (cs : List Char) : (dropLineFeed cs).length ≤ cs.length := by
  unfold dropLineFeed
  split <;> simp

/-- The body of a quoted string up to its closing quote, decoded. A backslash before a line
break continues the line; a raw line break or the end of input leaves the string open. -/
def stringBody (quote : Char) : List Char → Option (List Char × List Char)
  | [] => none
  | c :: rest =>
    if c = quote then some ([], rest)
    else if c = '\\' then
      match h : rest with
      | '\r' :: after =>
        have : (dropLineFeed after).length < (c :: rest).length := by
          have := length_dropLineFeed_le after
          simp only [h, List.length_cons]
          omega
        stringBody quote (dropLineFeed after)
      | '\n' :: after =>
        have : after.length < (c :: rest).length := by
          simp only [h, List.length_cons]
          omega
        stringBody quote after
      | '\x0c' :: after =>
        have : after.length < (c :: rest).length := by
          simp only [h, List.length_cons]
          omega
        stringBody quote after
      | _ =>
        match he : escape (c :: rest) with
        | some (d, after) =>
          have : after.length < (c :: rest).length := by
            have := escape_shorter he
            omega
          (stringBody quote after).map fun (s, r) => (d :: s, r)
        | none => none
    else if c = '\n' ∨ c = '\r' ∨ c = '\x0c' then none
    else (stringBody quote rest).map fun (s, r) => (c :: s, r)
termination_by cs => cs.length
decreasing_by
  all_goals try subst_vars
  all_goals first
    | assumption
    | (simp only [List.length_cons]; omega)

def quoted : List Char → Option (String × List Char)
  | q :: rest =>
    if q = '"' ∨ q = '\x27' then
      (stringBody q rest).map fun (s, r) => (String.ofList s, r)
    else none
  | [] => none

/-- The delimiter classes a balanced scan keeps track of. -/
structure Nesting where
  angles : Bool
  brackets : Bool
  parens : Bool
  braces : Bool
  blockComments : Bool
  lineComments : Bool
  quotes : Bool
deriving DecidableEq, Repr

def Nesting.all : Nesting := ⟨true, true, true, true, true, true, true⟩

def Nesting.none : Nesting := ⟨false, false, false, false, false, false, false⟩

def Nesting.pairs (n : Nesting) : List (Char × Char) :=
  (if n.angles then [('<', '>')] else []) ++ (if n.brackets then [('[', ']')] else []) ++
    (if n.parens then [('(', ')')] else []) ++ (if n.braces then [('{', '}')] else [])

def Nesting.closerOf (n : Nesting) (c : Char) : Option Char :=
  (n.pairs.find? fun p => p.1 == c).map Prod.snd

def Nesting.isCloser (n : Nesting) (c : Char) : Bool :=
  n.pairs.any fun p => p.2 == c

/-- Skip the rest of a quoted section, after its opening quote. An escape is read whole;
a backslash that starts no escape is skipped with the character after it. -/
def skipQuoted (quote : Char) (cs : List Char) : Option (List Char) :=
  match cs with
  | [] => none
  | c :: rest =>
    if c = quote then some rest
    else if c = '\\' then
      match h : escape (c :: rest) with
      | some (_, after) =>
        have : after.length + 2 ≤ (c :: rest).length := escape_shorter h
        skipQuoted quote after
      | none => skipQuoted quote (rest.drop 1)
    else skipQuoted quote rest
termination_by cs.length
decreasing_by
  all_goals simp_wf
  all_goals try simp only [List.length_cons] at *
  all_goals try have := length_dropLineFeed_le after
  all_goals omega

def afterCommentEnd : List Char → Option (List Char)
  | '*' :: '/' :: rest => some rest
  | _ :: rest => afterCommentEnd rest
  | [] => none

theorem skipQuoted_shorter {quote : Char} {cs after : List Char}
    (h : skipQuoted quote cs = some after) : after.length < cs.length := by
  induction cs using skipQuoted.induct quote with
  | case1 => simp [skipQuoted] at h
  | case2 rest =>
    rw [skipQuoted] at h
    simp only [if_pos, Option.some.injEq] at h
    subst h
    simp
  | case3 rest c rest' hne hesc hlen ih =>
    rw [skipQuoted] at h
    simp only [if_neg hne, if_true] at h
    split at h
    · rename_i d after' heq
      rw [hesc] at heq
      cases heq
      have := ih h
      omega
    · rename_i heq
      rw [hesc] at heq
      cases heq
  | case4 rest hne hnone ih =>
    rw [skipQuoted] at h
    simp only [if_neg hne, if_true] at h
    split at h
    · rename_i d after' heq
      rw [hnone] at heq
      cases heq
    · have := ih h
      simp only [List.length_drop, List.length_cons] at this ⊢
      omega
  | case5 c rest hne hnb ih =>
    rw [skipQuoted] at h
    simp only [if_neg hne, if_neg hnb] at h
    have := ih h
    simp only [List.length_cons]
    omega

theorem afterCommentEnd_shorter {cs after : List Char} (h : afterCommentEnd cs = some after) :
    after.length < cs.length := by
  induction cs using afterCommentEnd.induct with
  | case1 rest =>
    simp only [afterCommentEnd, Option.some.injEq] at h
    subst h
    simp only [List.length_cons]
    omega
  | case2 c rest hne ih =>
    rw [afterCommentEnd] at h
    · have := ih h
      simp only [List.length_cons]
      omega
    · exact hne
  | case3 => simp [afterCommentEnd] at h

theorem length_dropWhile_le (p : Char → Bool) (cs : List Char) :
    (cs.dropWhile p).length ≤ cs.length := by
  induction cs with
  | nil => simp
  | cons c rest ih =>
    simp only [List.dropWhile_cons]
    split
    · simp only [List.length_cons]
      omega
    · exact Nat.le_refl _

theorem length_dropWhile_lt {p : Char → Bool} {c : Char} {rest : List Char} (hc : p c = true) :
    ((c :: rest).dropWhile p).length < (c :: rest).length := by
  simp only [List.dropWhile_cons, hc, if_true, List.length_cons]
  have := length_dropWhile_le p rest
  omega

/-- Scan balanced text up to the terminator, which must stand outside every kept pair.
The answer is the rest of the input from the terminator on. A backslash hides the character
after it; quoted sections and comments are skipped whole when kept; a closing character that
does not match the innermost open pair ends the scan without success. -/
def balanced (n : Nesting) (term : Char) (pending : List Char) :
    List Char → Option (List Char)
  | [] => none
  | c :: rest =>
    if pending.isEmpty ∧ c = term then some (c :: rest)
    else if c = '\\' then
      have : (rest.drop 1).length < (c :: rest).length := by
        simp only [List.length_drop, List.length_cons]
        omega
      balanced n term pending (rest.drop 1)
    else if (c = '"' ∨ c = '\x27') ∧ n.quotes then
      match h : skipQuoted c rest with
      | some after =>
        have : after.length < (c :: rest).length := by
          have := skipQuoted_shorter h
          simp only [List.length_cons]
          omega
        balanced n term pending after
      | none => none
    else if c = '/' ∧ rest.head? = some '*' ∧ n.blockComments then
      match h : afterCommentEnd (rest.drop 1) with
      | some after =>
        have : after.length < (c :: rest).length := by
          have := afterCommentEnd_shorter h
          simp only [List.length_drop, List.length_cons] at this ⊢
          omega
        balanced n term pending after
      | none => none
    else if hl : c = '/' ∧ rest.head? = some '/' ∧ n.lineComments then
      have : ((c :: rest).dropWhile (· != '\n')).length < (c :: rest).length :=
        length_dropWhile_lt (by simp [hl.1])
      balanced n term pending ((c :: rest).dropWhile (· != '\n'))
    else
      match n.closerOf c with
      | some close => balanced n term (close :: pending) rest
      | none =>
        if pending.head? = some c then balanced n term pending.tail rest
        else if n.isCloser c then none
        else balanced n term pending rest
termination_by cs => cs.length
decreasing_by all_goals first | assumption | (simp only [List.length_cons]; omega)

/-- Scan balanced text up to the terminator: the text before it, and the rest from the
terminator on. -/
def nested (n : Nesting) (term : Char) (cs : List Char) : Option (String × List Char) :=
  (balanced n term [] cs).map fun after =>
    (String.ofList (cs.take (cs.length - after.length)), after)

end TreeQuery.Selector
