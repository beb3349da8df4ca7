/-!
# Binary64 values taken apart

A finite binary64 number is `± m · 2 ^ q` with natural `m`; all text of numbers is computed from
that form in exact natural-number arithmetic.
-/

namespace ActiveSet.Text

def twoTo (k : Nat) : Nat := Nat.pow 2 k

def tenTo (k : Nat) : Nat := Nat.pow 10 k

/-- What a binary64 word stands for: no number, an infinity, or `± m · 2 ^ q`. -/
inductive Binary64
  | nan
  | infinite (negative : Bool)
  | finite (negative : Bool) (m : Nat) (q : Int)
  deriving DecidableEq

namespace Binary64

/-- The smallest exponent of a binary64 number, that of the subnormal ones. -/
def minExponent : Int := -1074

/-- Reads the sign, the eleven exponent bits and the fifty-two fraction bits of a word. -/
def ofBits (bits : Nat) : Binary64 :=
  let negative : Bool := bits / twoTo 63 % 2 = 1
  let field : Nat := bits / twoTo 52 % 2048
  let fraction : Nat := bits % twoTo 52
  if field = 2047 then
    if fraction = 0 then .infinite negative else .nan
  else if field = 0 then .finite negative fraction minExponent
  else .finite negative (twoTo 52 + fraction) (minExponent + field - 1)

def ofFloat (x : Float) : Binary64 := ofBits x.toBits.toNat

end Binary64

/-- The numerator and denominator of `m · 2 ^ q`. -/
def dyadic (m : Nat) (q : Int) : Nat × Nat :=
  if 0 ≤ q then (m * twoTo q.toNat, 1) else (m, twoTo (-q).toNat)

end ActiveSet.Text
