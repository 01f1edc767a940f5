import TreeQuery.Json.Value

/-!
# Reading JSON text

Arrays and objects nest at most 127 deep. An integer is kept exact when it fits 64 bits; any
other number is a binary64 value computed from a 64-bit decimal significand and a power of
ten, each step rounded.
-/

namespace TreeQuery.Json

def isJsonBlank (c : Char) : Bool := c == ' ' || c == '\n' || c == '\t' || c == '\r'

def skipJsonBlanks (cs : List Char) : List Char := cs.dropWhile isJsonBlank

def digitValue (c : Char) : Option Nat := if '0' ≤ c ∧ c ≤ '9' then some (c.toNat - 48) else none

def maxUInt64 : Nat := Nat.pow 2 64 - 1

def i32Max : Nat := Nat.pow 2 31 - 1

def clampI32 (x : Int) : Int := max (-Int.pow 2 31) (min (Int.pow 2 31 - 1) x)

/-- Apply a decimal exponent to a binary64 value: one rounded product or quotient by a power
of ten, with powers beyond `10 ^ 308` divided out in steps. -/
def scaleByTen (f : Binary64) (e : Int) : Option Binary64 :=
  if e.natAbs ≤ 308 then
    if 0 ≤ e then Binary64.mul f (Binary64.pow10 e.toNat)
    else Binary64.div f (Binary64.pow10 e.natAbs)
  else if f.isZero then some f
  else if 0 ≤ e then none
  else
    match Binary64.div f (Binary64.pow10 308) with
    | some g => scaleByTen g (e + 308)
    | none => none
termination_by e.natAbs
decreasing_by omega

/-- The binary64 value of `significand * 10 ^ exponent`, computed as described above. -/
def fromParts (significand : Nat) (exponent : Int) : Option Binary64 :=
  (Binary64.ofNat significand).bind fun f => scaleByTen f exponent

def floatOf (negative : Bool) (significand : Nat) (exponent : Int) : Option Number :=
  (fromParts significand exponent).map (Number.float negative)

def skipDigits (cs : List Char) : List Char := cs.dropWhile fun c => (digitValue c).isSome

def exponentDigits (negative : Bool) (significand : Nat) (start : Int) (positive : Bool)
    (exp : Nat) : List Char → Option (Number × List Char)
  | c :: rest =>
    match digitValue c with
    | some v =>
      if i32Max < exp * 10 + v then
        if significand ≠ 0 ∧ positive then none
        else some (.float negative Binary64.zero, skipDigits rest)
      else exponentDigits negative significand start positive (exp * 10 + v) rest
    | none => finish (c :: rest)
  | [] => finish []
where
  finish (rest : List Char) : Option (Number × List Char) :=
    let e := clampI32 (if positive then start + exp else start - exp)
    (floatOf negative significand e).map fun n => (n, rest)

def exponentPart (negative : Bool) (significand : Nat) (start : Int) (cs : List Char) :
    Option (Number × List Char) :=
  let (positive, rest) : Bool × List Char :=
    match cs with
    | '+' :: r => (true, r)
    | '-' :: r => (false, r)
    | r => (true, r)
  match rest with
  | c :: r =>
    match digitValue c with
    | some v => exponentDigits negative significand start positive v r
    | none => none
  | [] => none

def afterSignificand (negative : Bool) (significand : Nat) (exponent : Int) (cs : List Char) :
    Option (Number × List Char) :=
  match cs with
  | 'e' :: rest | 'E' :: rest => exponentPart negative significand exponent rest
  | _ => (floatOf negative significand exponent).map fun n => (n, cs)

def fractionDigits (negative : Bool) (significand : Nat) (before : Int) (count : Nat) :
    List Char → Option (Number × List Char)
  | c :: rest =>
    match digitValue c with
    | some v =>
      if maxUInt64 < significand * 10 + v then
        -- The significand is full: the remaining digits are dropped.
        afterSignificand negative significand (before - count) (skipDigits rest)
      else fractionDigits negative (significand * 10 + v) before (count + 1) rest
    | none => finish (c :: rest)
  | [] => finish []
where
  finish (rest : List Char) : Option (Number × List Char) :=
    if count = 0 then none else afterSignificand negative significand (before - count) rest

/-- What may follow the digits of a significand that is full: each further integer digit
raises the exponent; a point or an exponent part may follow. -/
def longInteger (negative : Bool) (significand : Nat) (exponent : Nat) :
    List Char → Option (Number × List Char)
  | c :: rest =>
    match digitValue c with
    | some _ => longInteger negative significand (exponent + 1) rest
    | none =>
      if c = '.' then fractionDigits negative significand exponent 0 rest
      else afterSignificand negative significand exponent (c :: rest)
  | [] => afterSignificand negative significand exponent []

def integerValue (negative : Bool) (significand : Nat) : Number :=
  if !negative then .unsigned significand
  else if significand = 0 then .float true Binary64.zero
  else if significand ≤ Nat.pow 2 63 then .signed (-(significand : Int))
  else .float true ((Binary64.ofNat significand).getD Binary64.zero)

def afterInteger (negative : Bool) (significand : Nat) (cs : List Char) :
    Option (Number × List Char) :=
  match cs with
  | '.' :: rest => fractionDigits negative significand 0 0 rest
  | 'e' :: rest | 'E' :: rest => exponentPart negative significand 0 rest
  | _ => some (integerValue negative significand, cs)

def integerDigits (negative : Bool) (significand : Nat) : List Char → Option (Number × List Char)
  | c :: rest =>
    match digitValue c with
    | some v =>
      if maxUInt64 < significand * 10 + v then longInteger negative significand 1 rest
      else integerDigits negative (significand * 10 + v) rest
    | none => afterInteger negative significand (c :: rest)
  | [] => afterInteger negative significand []

def readNumber (cs : List Char) : Option (Number × List Char) :=
  let (negative, body) : Bool × List Char :=
    match cs with
    | '-' :: rest => (true, rest)
    | _ => (false, cs)
  match body with
  | c :: rest =>
    match digitValue c with
    | some 0 =>
      -- A leading zero stands alone.
      match rest.head?.bind digitValue with
      | some _ => none
      | none => afterInteger negative 0 rest
    | some v => integerDigits negative v rest
    | none => none
  | [] => none

def hex4 (cs : List Char) : Option (Nat × List Char) :=
  let digits := cs.take 4
  let values := digits.filterMap fun c =>
    if '0' ≤ c ∧ c ≤ '9' then some (c.toNat - 48)
    else if 'a' ≤ c ∧ c ≤ 'f' then some (c.toNat - 87)
    else if 'A' ≤ c ∧ c ≤ 'F' then some (c.toNat - 55)
    else none
  if values.length = 4 then some (values.foldl (fun acc v => 16 * acc + v) 0, cs.drop 4)
  else none

/-- The character of a `\u` escape, after the `u`: a high surrogate must be followed by an
escaped low one. -/
def unicodeEscape (cs : List Char) : Option (Char × List Char) :=
  match hex4 cs with
  | none => none
  | some (n, rest) =>
    if 0xDC00 ≤ n ∧ n ≤ 0xDFFF then none
    else if 0xD800 ≤ n ∧ n ≤ 0xDBFF then
      match rest with
      | '\\' :: 'u' :: more =>
        match hex4 more with
        | some (low, after) =>
          if 0xDC00 ≤ low ∧ low ≤ 0xDFFF then
            some (Char.ofNat (0x10000 + (n - 0xD800) * 0x400 + (low - 0xDC00)), after)
          else none
        | none => none
      | _ => none
    else some (Char.ofNat n, rest)

theorem hex4_shorter {cs rest : List Char} {n : Nat} (h : hex4 cs = some (n, rest)) :
    rest.length ≤ cs.length := by
  unfold hex4 at h
  dsimp only at h
  split at h
  · simp only [Option.some.injEq, Prod.mk.injEq] at h
    rw [← h.2]
    simp
  · simp at h

theorem unicodeEscape_shorter {cs rest : List Char} {c : Char}
    (h : unicodeEscape cs = some (c, rest)) : rest.length ≤ cs.length := by
  unfold unicodeEscape at h
  cases hm : hex4 cs with
  | none => simp [hm] at h
  | some p =>
    obtain ⟨n, more⟩ := p
    have h1 := hex4_shorter hm
    simp only [hm] at h
    split at h
    · simp at h
    · split at h
      · split at h
        · rename_i m2
          cases hl : hex4 m2 with
          | none => simp [hl] at h
          | some q =>
            obtain ⟨low, after⟩ := q
            have h2 := hex4_shorter hl
            simp only [hl] at h
            split at h
            · simp only [Option.some.injEq, Prod.mk.injEq] at h
              rw [← h.2]
              simp only [List.length_cons] at h1
              omega
            · simp at h
        · simp at h
      · simp only [Option.some.injEq, Prod.mk.injEq] at h
        rw [← h.2]
        exact h1

/-- The body of a string up to its closing quote, decoded; `acc` holds what was read, last
character first. -/
def readStringBody (acc : List Char) : List Char → Option (String × List Char)
  | '"' :: rest => some (String.ofList acc.reverse, rest)
  | '\\' :: rest =>
    match rest with
    | '"' :: r => readStringBody ('"' :: acc) r
    | '\\' :: r => readStringBody ('\\' :: acc) r
    | '/' :: r => readStringBody ('/' :: acc) r
    | 'b' :: r => readStringBody ('\x08' :: acc) r
    | 'f' :: r => readStringBody ('\x0c' :: acc) r
    | 'n' :: r => readStringBody ('\n' :: acc) r
    | 'r' :: r => readStringBody ('\r' :: acc) r
    | 't' :: r => readStringBody ('\t' :: acc) r
    | 'u' :: r =>
      match h : unicodeEscape r with
      | some (c, after) =>
        have : after.length ≤ r.length := unicodeEscape_shorter h
        readStringBody (c :: acc) after
      | none => none
    | _ => none
  | c :: rest => if c.toNat < 0x20 then none else readStringBody (c :: acc) rest
  | [] => none
termination_by cs => cs.length

mutual

/-- Read a value; `depth` is how many more arrays and objects may open, plus one. The fuel
bounds the length of a chain of calls; every call reads at least one character. -/
def readValue : Nat → Nat → List Char → Option (Value × List Char)
  | 0, _, _ => none
  | fuel + 1, depth, cs =>
    match skipJsonBlanks cs with
    | 'n' :: 'u' :: 'l' :: 'l' :: rest => some (.null, rest)
    | 't' :: 'r' :: 'u' :: 'e' :: rest => some (.bool true, rest)
    | 'f' :: 'a' :: 'l' :: 's' :: 'e' :: rest => some (.bool false, rest)
    | '"' :: rest => (readStringBody [] rest).map fun (s, r) => (.string s, r)
    | '[' :: rest =>
      if depth ≤ 1 then none
      else
        match skipJsonBlanks rest with
        | ']' :: after => some (.array [], after)
        | _ => readItems fuel (depth - 1) [] rest
    | '{' :: rest =>
      if depth ≤ 1 then none
      else
        match skipJsonBlanks rest with
        | '}' :: after => some (.object [], after)
        | _ => readMembers fuel (depth - 1) [] rest
    | c :: rest =>
      if c = '-' ∨ (digitValue c).isSome then
        (readNumber (c :: rest)).map fun (n, r) => (.number n, r)
      else none
    | [] => none

def readItems : Nat → Nat → List Value → List Char → Option (Value × List Char)
  | 0, _, _, _ => none
  | fuel + 1, depth, acc, cs =>
    match readValue fuel depth cs with
    | none => none
    | some (v, r) =>
      match skipJsonBlanks r with
      | ',' :: more =>
        match skipJsonBlanks more with
        | ']' :: _ => none
        | _ => readItems fuel depth (v :: acc) more
      | ']' :: after => some (.array (v :: acc).reverse, after)
      | _ => none

def readMembers : Nat → Nat → List (String × Value) → List Char → Option (Value × List Char)
  | 0, _, _, _ => none
  | fuel + 1, depth, acc, cs =>
    match skipJsonBlanks cs with
    | '"' :: rest =>
      match readStringBody [] rest with
      | none => none
      | some (key, r) =>
        match skipJsonBlanks r with
        | ':' :: r' =>
          match readValue fuel depth r' with
          | none => none
          | some (v, r'') =>
            match skipJsonBlanks r'' with
            | ',' :: more =>
              match skipJsonBlanks more with
              | '}' :: _ => none
              | _ => readMembers fuel depth ((key, v) :: acc) more
            | '}' :: after => some (.object ((key, v) :: acc).reverse, after)
            | _ => none
        | _ => none
    | _ => none

end

/-- Read a whole JSON text; only blanks may follow the value. -/
def Value.read? (text : String) : Option Value :=
  let cs := text.toList
  match readValue (cs.length + 2) 128 cs with
  | some (v, rest) => if (skipJsonBlanks rest).isEmpty then some v else none
  | none => none

end TreeQuery.Json
