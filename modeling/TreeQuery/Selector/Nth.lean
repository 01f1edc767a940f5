import TreeQuery.Selector.Scan
import TreeQuery.Selector.PseudoClass

/-!
# The An+B formula

    nth  S* [ ['-'|'+']? INTEGER? N [ S* ['-'|'+'] S* INTEGER ]?
            | ['-'|'+']? INTEGER | ODD | EVEN ] S*

`N`, `ODD` and `EVEN` in any ASCII case; each `INTEGER` is at most `2 ^ 63 - 1`.
-/

namespace TreeQuery.Selector

def minInt64 : Int := -Int.pow 2 63

def maxInt64 : Int := Int.pow 2 63 - 1

def fitsInt64 (x : Int) : Bool := decide (minInt64 ≤ x ∧ x ≤ maxInt64)

/-- An `An+B` formula. -/
structure Nth where
  a : Int
  b : Int
deriving DecidableEq, Repr

def isAsciiDigit (c : Char) : Bool := '0' ≤ c && c ≤ '9'

def digitRun (cs : List Char) : Option (Int × List Char) :=
  let ds := cs.takeWhile isAsciiDigit
  let value : Int := ds.foldl (fun acc d => 10 * acc + (d.toNat - 48 : Nat)) 0
  if ds.isEmpty ∨ maxInt64 < value then none else some (value, cs.drop ds.length)

def signOf : List Char → Option (Int × List Char)
  | '+' :: rest => some (1, rest)
  | '-' :: rest => some (-1, rest)
  | _ => none

def parityWord (cs : List Char) : Option (Nth × List Char) :=
  let letters := cs.takeWhile Char.isAlpha
  let rest := cs.drop letters.length
  if sameIgnoringAsciiCase (String.ofList letters) "odd" then some (⟨2, 1⟩, rest)
  else if sameIgnoringAsciiCase (String.ofList letters) "even" then some (⟨2, 0⟩, rest)
  else none

/-- The formula itself, without blanks around it. -/
def nthFormula (cs : List Char) : Option (Nth × List Char) :=
  let (signA, r0) := (signOf cs).getD (1, cs)
  let digits := digitRun r0
  let r1 := match digits with
    | some (_, r) => r
    | none => r0
  match r1 with
  | c :: afterN =>
    if c = 'n' ∨ c = 'N' then
      let a := signA * (digits.map Prod.fst).getD 1
      if !fitsInt64 a then none
      else
        match signOf (skipBlanks afterN) with
        | some (signB, r2) =>
          match digitRun (skipBlanks r2) with
          | some (b, r3) => if fitsInt64 (signB * b) then some (⟨a, signB * b⟩, r3) else none
          | none => some (⟨a, 0⟩, afterN)
        | none => some (⟨a, 0⟩, afterN)
    else withoutN digits signA
  | [] => withoutN digits signA
where
  withoutN (digits : Option (Int × List Char)) (signA : Int) : Option (Nth × List Char) :=
    match digits with
    | some (b, r) => if fitsInt64 (signA * b) then some (⟨0, signA * b⟩, r) else none
    | none => parityWord cs

/-- Read an `An+B` formula, with blanks around it. -/
def Nth.parse? (text : String) : Option Nth :=
  match nthFormula (skipBlanks text.toList) with
  | some (f, rest) => if (skipBlanks rest).isEmpty then some f else none
  | none => none

/-- Whether position `pos` is `a n + b` for a natural `n`, with 64-bit checked arithmetic:
a difference `pos - b` out of range, or the one quotient that overflows, answers false. -/
def nthMatches (pos a b : Int) : Bool :=
  if pos ≤ 0 then false
  else if a = 0 then pos == b
  else
    let delta := pos - b
    fitsInt64 delta && !(delta == minInt64 && a == -1) && delta % a == 0 && decide (0 ≤ delta / a)

def Nth.matches (f : Nth) (pos : Int) : Bool := nthMatches pos f.a f.b

end TreeQuery.Selector
