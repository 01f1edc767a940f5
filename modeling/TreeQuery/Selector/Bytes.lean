import TreeQuery.Selector.Scan

/-!
# Scanning the bytes of selector text

The scanners on the UTF-8 bytes of a text, one byte at a time; a byte with the high bit set
is one more byte of a name, of a string or of the text skipped.
-/

namespace TreeQuery.Selector.Bytes

/-- Whether the bytes left begin a character: they are empty or begin with no continuation
byte. -/
def startsChar : List UInt8 → Bool
  | [] => true
  | b :: _ => b < 0x80 || 0xC0 ≤ b

/-- The character the bytes left begin with, decoded; nothing inside a character. -/
def peekChar (bs : List UInt8) : Option Char :=
  if startsChar bs then ByteArray.utf8DecodeChar? bs.toByteArray 0 else none

def hexByte (b : UInt8) : Option Nat := hexValue (Char.ofNat b.toNat)

def hexDigits : Nat → Nat → List UInt8 → Nat × List UInt8
  | 0, code, bs => (code, bs)
  | _ + 1, code, [] => (code, [])
  | n + 1, code, b :: bs =>
    match hexByte b with
    | some v => hexDigits n (16 * code + v) bs
    | none => (code, b :: bs)

def dropEscapeBlank (bs : List UInt8) : List UInt8 :=
  if bs[0]? = some 13 ∧ bs[1]? = some 10 then bs.drop 2
  else if (bs[0]?.map fun b => blankByte b.toNat) = some true then bs.drop 1
  else bs

/-- Read an escape at a backslash: the bytes of the character it stands for, and the bytes
after it. -/
def escape : List UInt8 → Option (List UInt8 × List UInt8)
  | [] => none
  | b :: rest =>
    if b ≠ 92 then none
    else
      match rest with
      | [] => none
      | d :: _ =>
        if d = 10 ∨ d = 13 ∨ d = 12 then none
        else if (hexByte d).isSome then
          let (code, after) := hexDigits 6 0 rest
          some (String.utf8EncodeChar (codePoint code), dropEscapeBlank after)
        else
          match peekChar rest with
          | some c => some (String.utf8EncodeChar c, rest.drop c.utf8Size)
          | none => none

theorem length_dropEscapeBlank_le (bs : List UInt8) : (dropEscapeBlank bs).length ≤ bs.length := by
  unfold dropEscapeBlank
  split
  · simp
  · split <;> simp

theorem length_hexDigits_le (n code : Nat) (bs : List UInt8) :
    (hexDigits n code bs).2.length ≤ bs.length := by
  induction n generalizing code bs with
  | zero => simp [hexDigits]
  | succ n ih =>
    cases bs with
    | nil => simp [hexDigits]
    | cons b bs =>
      rw [hexDigits]
      split
      · rename_i v _
        have := ih (16 * code + v) bs
        simp only [List.length_cons]
        omega
      · exact Nat.le_refl _

theorem escape_shorter {bs out rest : List UInt8} (h : escape bs = some (out, rest)) :
    rest.length + 2 ≤ bs.length := by
  unfold escape at h
  split at h
  · cases h
  · rename_i b tail
    split at h
    · cases h
    · split at h
      · cases h
      · rename_i d more
        split at h
        · cases h
        · split at h
          · simp only [Option.some.injEq, Prod.mk.injEq] at h
            obtain ⟨-, rfl⟩ := h
            -- the first digit is read, so at least one byte goes
            have h1 := length_dropEscapeBlank_le (hexDigits 6 0 (d :: more)).2
            have h2 : (hexDigits 6 0 (d :: more)).2.length ≤ more.length := by
              rw [hexDigits]
              split
              · exact length_hexDigits_le 5 _ more
              · simp_all
            simp only [List.length_cons]
            omega
          · split at h
            · rename_i c hc
              simp only [Option.some.injEq, Prod.mk.injEq] at h
              obtain ⟨-, rfl⟩ := h
              have := Char.utf8Size_pos c
              simp only [List.length_drop, List.length_cons]
              omega
            · cases h

/-- One character of a name: a byte the test accepts, or an escape. -/
def nameChar (accept : Nat → Bool) : List UInt8 → Option (List UInt8 × List UInt8)
  | [] => none
  | b :: rest =>
    if b = 92 then escape (b :: rest) else if accept b.toNat then some ([b], rest) else none

theorem nameChar_shorter {accept : Nat → Bool} {bs out rest : List UInt8}
    (h : nameChar accept bs = some (out, rest)) : rest.length < bs.length := by
  unfold nameChar at h
  split at h
  · cases h
  · split at h
    · have := escape_shorter h
      omega
    · split at h
      · simp only [Option.some.injEq, Prod.mk.injEq] at h
        obtain ⟨-, rfl⟩ := h
        simp
      · cases h

def nameChars (accept : Nat → Bool) (bs : List UInt8) : List UInt8 × List UInt8 :=
  match h : nameChar accept bs with
  | some (out, rest) =>
    have : rest.length < bs.length := nameChar_shorter h
    let (more, after) := nameChars accept rest
    (out ++ more, after)
  | none => ([], bs)
termination_by bs.length

def identifier (bs : List UInt8) : Option (List UInt8 × List UInt8) :=
  let (dash, body) : List UInt8 × List UInt8 :=
    if bs.head? = some 45 then ([45], bs.drop 1) else ([], bs)
  match nameChar nameStartByte body with
  | none => none
  | some (out, rest) =>
    let (more, after) := nameChars nameByte rest
    some (dash ++ out ++ more, after)

def name (bs : List UInt8) : Option (List UInt8 × List UInt8) :=
  match nameChars nameByte bs with
  | ([], _) => none
  | (out, after) => some (out, after)

def dropLineFeed (bs : List UInt8) : List UInt8 := if bs.head? = some 10 then bs.drop 1 else bs

/-- The body of a quoted string up to its closing quote, with its escapes decoded. A
backslash before a line break continues the line; a raw line break or the end of input
leaves the string open. -/
def stringBody (quote : UInt8) : List UInt8 → Option (List UInt8 × List UInt8)
  | [] => none
  | b :: rest =>
    if b = quote then some ([], rest)
    else if b = 92 then
      if rest.head? = some 13 then stringBody quote (dropLineFeed (rest.drop 1))
      else if rest.head? = some 10 ∨ rest.head? = some 12 then stringBody quote (rest.drop 1)
      else
        match h : escape (b :: rest) with
        | some (out, after) =>
          have : after.length < (b :: rest).length := by
            have := escape_shorter h
            omega
          (stringBody quote after).map fun (s, r) => (out ++ s, r)
        | none => none
    else if b = 10 ∨ b = 13 ∨ b = 12 then none
    else (stringBody quote rest).map fun (s, r) => (b :: s, r)
termination_by bs => bs.length
decreasing_by
  all_goals first
    | assumption
    | (simp only [dropLineFeed, List.length_cons, List.length_drop]
       split <;> simp only [List.length_drop] <;> omega)
    | (simp only [List.length_cons, List.length_drop]; omega)

def quoted : List UInt8 → Option (List UInt8 × List UInt8)
  | [] => none
  | q :: rest => if q = 34 ∨ q = 39 then stringBody q rest else none

/-- Skip the rest of a quoted section, after its opening quote. An escape is read whole; a
backslash that starts no escape is skipped with the byte after it. -/
def skipQuoted (quote : UInt8) : List UInt8 → Option (List UInt8)
  | [] => none
  | b :: rest =>
    if b = quote then some rest
    else if b = 92 then
      match h : escape (b :: rest) with
      | some (_, after) =>
        have : after.length + 2 ≤ (b :: rest).length := escape_shorter h
        skipQuoted quote after
      | none => skipQuoted quote (rest.drop 1)
    else skipQuoted quote rest
termination_by bs => bs.length
decreasing_by
  all_goals first
    | omega
    | (simp only [List.length_cons, List.length_drop]; omega)

def afterCommentEnd : List UInt8 → Option (List UInt8)
  | [] => none
  | b :: rest => if b = 42 ∧ rest.head? = some 47 then some (rest.drop 1) else afterCommentEnd rest

theorem skipQuoted_shorter {quote : UInt8} {bs after : List UInt8}
    (h : skipQuoted quote bs = some after) : after.length < bs.length := by
  induction bs using skipQuoted.induct quote with
  | case1 => simp [skipQuoted] at h
  | case2 rest =>
    rw [skipQuoted, if_pos rfl] at h
    cases h
    simp
  | case3 rest out after' hq he hlen ih =>
    rw [skipQuoted, if_neg hq, if_pos rfl] at h
    split at h
    · rename_i d' after'' heq
      rw [he] at heq
      cases heq
      have := ih h
      omega
    · rename_i heq
      rw [he] at heq
      cases heq
  | case4 rest hq he ih =>
    rw [skipQuoted, if_neg hq, if_pos rfl] at h
    split at h
    · rename_i d' after'' heq
      rw [he] at heq
      cases heq
    · have := ih h
      simp only [List.length_drop, List.length_cons] at this ⊢
      omega
  | case5 b rest hq hb ih =>
    rw [skipQuoted, if_neg hq, if_neg hb] at h
    have := ih h
    simp only [List.length_cons]
    omega

theorem afterCommentEnd_shorter {bs after : List UInt8} (h : afterCommentEnd bs = some after) :
    after.length < bs.length := by
  induction bs with
  | nil => simp [afterCommentEnd] at h
  | cons b rest ih =>
    rw [afterCommentEnd] at h
    split at h
    · cases h
      simp only [List.length_drop, List.length_cons]
      omega
    · have := ih h
      simp only [List.length_cons]
      omega

def closerOf (n : Nesting) (b : UInt8) : Option UInt8 :=
  (n.pairs.find? fun p => p.1.toUInt8 == b).map fun p => p.2.toUInt8

def isCloser (n : Nesting) (b : UInt8) : Bool := n.pairs.any fun p => p.2.toUInt8 == b

/-- Scan balanced bytes up to the terminator, which must stand outside every kept pair; the
answer is the bytes from the terminator on. The closing bytes still expected are kept
innermost first. A backslash hides the character after it; quoted sections and comments are
skipped whole when kept; a closing byte that does not match the innermost open pair ends the
scan without success. -/
def balanced (n : Nesting) (term : UInt8) (pending : List UInt8) : List UInt8 → Option (List UInt8)
  | [] => none
  | b :: rest =>
    if pending.isEmpty ∧ b = term then some (b :: rest)
    else if b = 92 then balanced n term pending (rest.drop ((peekChar rest).elim 0 Char.utf8Size))
    else if (b = 34 ∨ b = 39) ∧ n.quotes then
      match h : skipQuoted b rest with
      | some after =>
        have : after.length < (b :: rest).length := by
          have := skipQuoted_shorter h
          simp only [List.length_cons]
          omega
        balanced n term pending after
      | none => none
    else if b = 47 ∧ rest.head? = some 42 ∧ n.blockComments then
      match h : (if startsChar (rest.drop 1) then afterCommentEnd (rest.drop 1) else none) with
      | some after =>
        have : after.length < (b :: rest).length := by
          split at h
          · have := afterCommentEnd_shorter h
            simp only [List.length_drop, List.length_cons] at this ⊢
            omega
          · cases h
        balanced n term pending after
      | none => none
    else if hl : b = 47 ∧ rest.head? = some 47 ∧ n.lineComments then
      have : ((b :: rest).dropWhile (· != 10)).length < (b :: rest).length := by
        have hdrop : (b :: rest).dropWhile (· != 10) = rest.dropWhile (· != 10) := by
          simp [hl.1]
        rw [hdrop]
        exact Nat.lt_of_le_of_lt (List.dropWhile_suffix _).length_le (Nat.lt_succ_self _)
      balanced n term pending ((b :: rest).dropWhile (· != 10))
    else
      match closerOf n b with
      | some close => balanced n term (close :: pending) rest
      | none =>
        if pending.head? = some b then balanced n term pending.tail rest
        else if isCloser n b then none
        else balanced n term pending rest
termination_by bs => bs.length
decreasing_by
  all_goals first
    | assumption
    | (simp only [List.length_cons, List.length_drop]; omega)

/-- Scan balanced bytes up to the terminator: the bytes before it and the bytes from it on.
The scan answers only when it starts and stops between two characters. -/
def nested (n : Nesting) (term : UInt8) (bs : List UInt8) : Option (List UInt8 × List UInt8) :=
  (balanced n term [] bs).bind fun after =>
    if startsChar bs ∧ startsChar after then some (bs.take (bs.length - after.length), after)
    else none

end TreeQuery.Selector.Bytes
