import ActiveSet.Text.Binary64

/-!
# Decimal text with a given number of digits

Scientific, fixed and general notation of a binary64 value. The digits are those of the exact value,
rounded to nearest with ties to the even digit (`roundDiv`).
-/

namespace ActiveSet.Text

/-- The quotient `num / den` rounded to the nearest natural number, a tie to the even one. -/
def roundDiv (num den : Nat) : Nat :=
  let t := num / den
  let r := num % den
  if 2 * r < den then t else if den < 2 * r then t + 1 else t + t % 2

/-- `num / den · 10 ^ k`, rounded. -/
def scaledRound (num den : Nat) (k : Int) : Nat :=
  if 0 ≤ k then roundDiv (num * tenTo k.toNat) den else roundDiv num (den * tenTo (-k).toNat)

/-- The number of decimal digits of `n`; zero has one. -/
def digitCount (n : Nat) : Nat := n.repr.length

/-- The `e` with `10 ^ e ≤ num / den < 10 ^ (e + 1)`, for a positive quotient. -/
def leadingExponent (num den : Nat) : Int :=
  if den ≤ num then digitCount (num / den) - 1
  else
    let k := digitCount (den / num)
    if num * tenTo (k - 1) = den then 1 - (k : Int) else -(k : Int)

/-- The first `p + 1` digits of a positive quotient, rounded, and the exponent of the first. -/
def leadingDigits (num den p : Nat) : Nat × Int :=
  let e := leadingExponent num den
  let d := scaledRound num den (p - e)
  if d = tenTo (p + 1) then (tenTo p, e + 1) else (d, e)

/-- An exponent with its sign and at least two digits. -/
def exponentText (e : Int) : String :=
  let digits := e.natAbs.repr
  (if e < 0 then "-" else "+") ++ (if digits.length < 2 then "0" ++ digits else digits)

/-- Digits with a point after the first; no point when there is only one. -/
def pointAfterFirst (digits : String) : String :=
  if digits.length ≤ 1 then digits
  else (digits.take 1).toString ++ "." ++ (digits.drop 1).toString

/-- `n` written with `p` digits behind the point. -/
def pointBefore (p n : Nat) : String :=
  let digits := n.repr
  let padded := "".pushn '0' (p + 1 - digits.length) ++ digits
  let whole := padded.length - p
  if p = 0 then padded
  else (padded.take whole).toString ++ "." ++ (padded.drop whole).toString

/-- Drops the zeros at the end of the digits behind a point, and the point if none is left. -/
def trimFraction (text : String) : String :=
  if text.contains '.' then ((text.dropEndWhile '0').dropEndWhile '.').toString else text

/-- The texts of the values that have no digits. -/
def special (negative : Bool) : String := if negative then "-inf" else "inf"

def signText (negative : Bool) : String := if negative then "-" else ""

/-- Scientific notation with `p` digits behind the point. -/
def scientific (p : Nat) (x : Float) : String :=
  match Binary64.ofFloat x with
  | .nan => "nan"
  | .infinite negative => special negative
  | .finite negative m q =>
    let (d, e) := if m = 0 then (0, 0) else leadingDigits (dyadic m q).1 (dyadic m q).2 p
    let digits := if m = 0 then "".pushn '0' (p + 1) else d.repr
    signText negative ++ pointAfterFirst digits ++ "e" ++ exponentText e

/-- Positional notation with `p` digits behind the point. -/
def fixed (p : Nat) (x : Float) : String :=
  match Binary64.ofFloat x with
  | .nan => "nan"
  | .infinite negative => special negative
  | .finite negative m q =>
    signText negative ++ pointBefore p (scaledRound (dyadic m q).1 (dyadic m q).2 p)

/--
At most `p` significant digits without zeros at the end: positional when the exponent of the
rounded value is at least -4 and below `p`, else scientific.
-/
def general (p : Nat) (x : Float) : String :=
  match Binary64.ofFloat x with
  | .nan => "nan"
  | .infinite negative => special negative
  | .finite negative m q =>
    if m = 0 then signText negative ++ "0"
    else
      let (num, den) := dyadic m q
      let (d, e) := leadingDigits num den (p - 1)
      if e < -4 ∨ (p : Int) ≤ e then
        signText negative ++ trimFraction (pointAfterFirst d.repr) ++ "e" ++ exponentText e
      else
        let places := (p - 1 - e).toNat
        signText negative ++ trimFraction (pointBefore places (scaledRound num den places))

end ActiveSet.Text
