/-!
# Binary64 magnitudes

Finite non-negative binary64 values as exact numbers `significand * 2 ^ exponent`, kept in
their unique normal or subnormal form, with rounding to nearest (a tie goes to the even
significand); a value too large for the format rounds to nothing.
-/

namespace TreeQuery

/-- A finite non-negative binary64 value `significand * 2 ^ exponent`. -/
structure Binary64 where
  significand : Nat
  exponent : Int
deriving DecidableEq, Repr

namespace Binary64

def minExponent : Int := -1074

def maxExponent : Int := 971

def zero : Binary64 := ⟨0, minExponent⟩

def scaled (num den : Nat) (shift : Int) : Nat × Nat :=
  if 0 ≤ shift then (num * Nat.pow 2 shift.toNat, den) else (num, den * Nat.pow 2 (-shift).toNat)

/-- The integer nearest to `num / den`; a tie goes to the even one. -/
def roundHalfEven (num den : Nat) : Nat :=
  let q := num / den
  let r := num % den
  if den < 2 * r ∨ (2 * r = den ∧ q % 2 = 1) then q + 1 else q

def floorLog2 (num den : Nat) : Int :=
  let t : Int := (Nat.log2 num : Int) - (Nat.log2 den : Int)
  let (n, d) := scaled den 1 t
  -- `n / d` is `den * 2 ^ t`; the answer is `t` when that is at most `num`.
  if n ≤ num * d then t else t - 1

/-- The value nearest to `num / den * 2 ^ scale`, or `none` if it is too large for the
format. -/
def round (num den : Nat) (scale : Int) : Option Binary64 :=
  if num = 0 ∨ den = 0 then some zero
  else
    let k := floorLog2 num den + scale
    let e := max (k - 52) minExponent
    let (n, d) := scaled num den (scale - e)
    let m := roundHalfEven n d
    let (m, e) := if m = Nat.pow 2 53 then (Nat.pow 2 52, e + 1) else (m, e)
    if maxExponent < e then none else some ⟨m, e⟩

def ofNat (n : Nat) : Option Binary64 := round n 1 0

def mul (x y : Binary64) : Option Binary64 :=
  round (x.significand * y.significand) 1 (x.exponent + y.exponent)

def div (x y : Binary64) : Option Binary64 :=
  round x.significand y.significand (x.exponent - y.exponent)

def isZero (x : Binary64) : Bool := x.significand == 0

def pow10 (k : Nat) : Binary64 := (round (Nat.pow 10 k) 1 0).getD zero

end Binary64

end TreeQuery
