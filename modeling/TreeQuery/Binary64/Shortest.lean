import TreeQuery.Binary64.Basic

/-!
# Shortest decimal digits of a binary64 value

Of the decimals that round back to a value, one with the fewest significant digits, and of
those the nearest; `Binary64.TextFormat` decides how the digits are written.
-/

namespace TreeQuery

namespace Binary64

def compareScaled (a : Nat) (p : Int) (b : Nat) (q : Int) : Ordering :=
  let lhs := a * Nat.pow 10 p.toNat * Nat.pow 2 (-q).toNat
  let rhs := b * Nat.pow 2 q.toNat * Nat.pow 10 (-p).toNat
  compare lhs rhs

def floorDecimal (m : Nat) (e p : Int) : Nat :=
  (m * Nat.pow 2 e.toNat * Nat.pow 10 (-p).toNat) / (Nat.pow 2 (-e).toNat * Nat.pow 10 p.toNat)

def floorLog10 (m : Nat) (e : Int) : Int :=
  -- 1233 / 4096 is just above log10 2, so the estimate is off by at most one either way.
  let guess : Int := ((Nat.log2 m : Int) + e) * 1233 / 4096
  let up := if compareScaled 1 (guess + 1) m e != .gt then guess + 1 else guess
  if compareScaled 1 up m e == .gt then up - 1 else up

/-- The reals that round to a positive value `m * 2 ^ e`, in units of `2 ^ (e - 2)`: the
lower and upper ends, and whether the ends belong to it. -/
def roundingInterval (x : Binary64) : Nat × Nat × Bool :=
  let m := x.significand
  let below := if m = Nat.pow 2 52 ∧ minExponent < x.exponent then 1 else 2
  (4 * m - below, 4 * m + 2, m % 2 == 0)

def inInterval (x : Binary64) (d : Nat) (p : Int) : Bool :=
  let (lo, hi, closed) := roundingInterval x
  let e := x.exponent - 2
  let above := compareScaled d p lo e
  let under := compareScaled d p hi e
  (above == .gt || (closed && above == .eq)) && (under == .lt || (closed && under == .eq))

/-- The digits and exponent chosen on the grid `10 ^ p`, if a grid point lies in the
interval: of two, the nearer to the value; of two equally near, the even one. -/
def onGrid (x : Binary64) (p : Int) : Option (Nat × Int) :=
  let c := floorDecimal x.significand x.exponent p
  let low := inInterval x c p
  let high := inInterval x (c + 1) p
  if low && high then
    -- compare 2x with (2c + 1) 10^p
    match compareScaled (2 * c + 1) p (2 * x.significand) x.exponent with
    | .lt => some (c + 1, p)
    | .gt => some (c, p)
    | .eq => some (if c % 2 = 0 then c else c + 1, p)
  else if low then some (c, p)
  else if high then some (c + 1, p)
  else none

def trimZeros (d : Nat) (p : Int) (fuel : Nat) : Nat × Int :=
  match fuel with
  | 0 => (d, p)
  | fuel + 1 => if d ≠ 0 ∧ d % 10 = 0 then trimZeros (d / 10) (p + 1) fuel else (d, p)

def searchDigits (x : Binary64) (top : Int) : Nat → Nat → Option (Nat × Int)
  | _, 0 => none
  | n, fuel + 1 =>
    match onGrid x (top - n + 1) with
    | some r => some r
    | none => searchDigits x top (n + 1) fuel

/-- The shortest digits of a positive value and the power of ten they are scaled by, with no
trailing zero. -/
def shortest (x : Binary64) : Nat × Int :=
  let top := floorLog10 x.significand x.exponent
  -- Seventeen significant digits always lie in the interval.
  let (d, p) := (searchDigits x top 1 17).getD
    (floorDecimal x.significand x.exponent (top - 16), top - 16)
  trimZeros d p 20

/-- How decimal digits are written: positionally while the point lies within
`maxIntegerDigits` digits from the left and less than `minExponent` places to the right of the
first digit, otherwise with an exponent. -/
structure TextFormat where
  maxIntegerDigits : Nat
  minPointPosition : Int
  integralSuffix : String
  exponentMark : String
  positiveExponentSign : String
  zeroText : String

def zeros (n : Nat) : String := String.ofList (List.replicate n '0')

/-- Write digits `ds` scaled by `10 ^ p`, with the point `kk` digits from their left. -/
def TextFormat.place (f : TextFormat) (ds : String) (p : Int) : String :=
  let len := ds.length
  let kk : Int := len + p
  if 0 ≤ p ∧ kk ≤ f.maxIntegerDigits then ds ++ zeros p.toNat ++ f.integralSuffix
  else if 0 < kk ∧ kk ≤ f.maxIntegerDigits then
    String.ofList (ds.toList.take kk.toNat) ++ "." ++ String.ofList (ds.toList.drop kk.toNat)
  else if f.minPointPosition < kk ∧ kk ≤ 0 then "0." ++ zeros (-kk).toNat ++ ds
  else
    let head := String.ofList (ds.toList.take 1)
    let tail := String.ofList (ds.toList.drop 1)
    let exp := kk - 1
    head ++ (if tail.isEmpty then "" else "." ++ tail) ++ f.exponentMark ++
      (if exp < 0 then "-" else f.positiveExponentSign) ++ toString exp.natAbs

def TextFormat.render (f : TextFormat) (negative : Bool) (x : Binary64) : String :=
  let sign := if negative then "-" else ""
  if x.isZero then sign ++ f.zeroText
  else
    let (d, p) := shortest x
    sign ++ f.place (toString d) p

end Binary64

end TreeQuery
