import ActiveSet.Text.Decimal

/-!
# The fewest digits that read back

Every real number in the rounding interval of a binary64 value reads back as that value. The digits
chosen here are the shortest decimal in the interval, and of several the one nearest to the value.
-/

namespace ActiveSet.Text

/-- The numbers that round to `m · 2 ^ q`, as bounds over a common denominator `4 · 2 ^ -q`. -/
structure RoundingInterval where
  low : Nat
  high : Nat
  /-- The bounds themselves round to the value iff `m` is even. -/
  closed : Bool

/-- Below a power of two the neighbour is only half as far away. -/
def roundingInterval (m : Nat) (q : Int) : RoundingInterval where
  low := if m = twoTo 52 ∧ Binary64.minExponent < q then 4 * m - 1 else 4 * m - 2
  high := 4 * m + 2
  closed := m % 2 = 0

/-- Whether `c · 10 ^ k` lies in the interval around `m · 2 ^ q`. -/
def RoundingInterval.holds (i : RoundingInterval) (q : Int) (c : Nat) (k : Int) : Bool :=
  let (up, down) := dyadic 1 (q - 2)
  let left := c * tenTo k.toNat * down
  let unit := up * tenTo (-k).toNat
  if i.closed then i.low * unit ≤ left ∧ left ≤ i.high * unit
  else i.low * unit < left ∧ left < i.high * unit

/-- The decimal on the grid `10 ^ k` that reads back, the nearer of the two neighbours first. -/
def onGrid? (m : Nat) (q : Int) (k : Int) : Option Nat :=
  let interval := roundingInterval m q
  let (num, den) := dyadic m q
  let near := scaledRound num den (-k)
  let below := if 0 ≤ k then num / (den * tenTo k.toNat) else num * tenTo (-k).toNat / den
  let far := if near = below then below + 1 else below
  if interval.holds q near k then some near
  else if interval.holds q far k then some far
  else none

/-- Tries one more digit at a time; seventeen digits always read back. -/
def shortestFrom (m : Nat) (q : Int) (e : Int) : Nat → Nat → Nat × Int
  | count, 0 => (scaledRound (dyadic m q).1 (dyadic m q).2 (count - e), e - count)
  | count, fuel + 1 =>
    match onGrid? m q (e - count) with
    | some d => (d, e - count)
    | none => shortestFrom m q e (count + 1) fuel

/-- The shortest digits `d` and the exponent `k` with `d · 10 ^ k` reading back as `m · 2 ^ q`. -/
def shortestDigits (m : Nat) (q : Int) : Nat × Int :=
  let (num, den) := dyadic m q
  shortestFrom m q (leadingExponent num den) 0 17

/-- Digits without zeros at the end, with the exponent moved accordingly. -/
def stripZeros (d : Nat) (k : Int) : Nat × Int :=
  if d ≠ 0 ∧ d % 10 = 0 then stripZeros (d / 10) (k + 1) else (d, k)
termination_by d
decreasing_by omega

/-- The significant digits of the shortest decimal and the exponent of the first of them. -/
def shortestScientific (m : Nat) (q : Int) : String × Int :=
  if m = 0 then ("0", 0)
  else
    let (d, k) := shortestDigits m q
    let (d, k) := stripZeros d k
    (d.repr, k + digitCount d - 1)

/-- Digits whose first has exponent `e`, in positional notation with at least one on each side. -/
def positionalText (digits : String) (e : Int) : String :=
  if e < 0 then "0." ++ "".pushn '0' ((-e).toNat - 1) ++ digits
  else
    let whole := e.toNat + 1
    if digits.length ≤ whole then digits ++ "".pushn '0' (whole - digits.length) ++ ".0"
    else (digits.take whole).toString ++ "." ++ (digits.drop whole).toString

/-- The shortest text that reads back: positional from `1e-4` up to below `1e16`. -/
def shortest (x : Float) : String :=
  match Binary64.ofFloat x with
  | .nan => "nan"
  | .infinite negative => special negative
  | .finite negative m q =>
    let (digits, e) := shortestScientific m q
    signText negative ++
      if e < -4 ∨ 16 ≤ e then pointAfterFirst digits ++ "e" ++ exponentText e
      else positionalText digits e

end ActiveSet.Text
