/-!
# Scalars

The arithmetic in which points, factors and programs are written. Every definition of the library is
over an arbitrary `Scalar`: binary64 numbers are the instance that computes, and a field with exact
arithmetic is one in which the algorithm can be reasoned about.
-/

namespace ActiveSet

/--
Arithmetic with a decidable order. `isNaN` and `isFinite` single out the values that are no numbers
of the order; an exact field has none.
-/
class Scalar (K : Type) extends Zero K, One K, Add K, Sub K, Mul K, Neg K, Div K, LT K, LE K,
    OfScientific K where
  decLT : ∀ a b : K, Decidable (a < b)
  decLE : ∀ a b : K, Decidable (a ≤ b)
  sqrt : K → K
  isNaN : K → Bool
  isFinite : K → Bool

instance instDecidableLT {K : Type} [Scalar K] (a b : K) : Decidable (a < b) := Scalar.decLT a b

instance instDecidableLE {K : Type} [Scalar K] (a b : K) : Decidable (a ≤ b) := Scalar.decLE a b

instance instScalarFloat : Scalar Float where
  zero := 0.0
  one := 1.0
  decLT := fun a b => inferInstanceAs (Decidable (a < b))
  decLE := fun a b => inferInstanceAs (Decidable (a ≤ b))
  sqrt := Float.sqrt
  isNaN := Float.isNaN
  isFinite := Float.isFinite

namespace Scalar

variable {K : Type} [Scalar K]

def abs (a : K) : K := if a < 0 then -a else a

/-- The second value if it is greater, else the first; so the first stays next to a NaN. -/
def larger (a b : K) : K := if a < b then b else a

/-- The second value if it is smaller, else the first. -/
def smaller (a b : K) : K := if b < a then b else a

/-- The larger of two values, and a NaN if either is one. -/
def largerOrNaN (a b : K) : K := if isNaN a then a else if isNaN b then b else larger a b

/-- The greatest of finitely many values, or `start` if it is greater; a NaN among them wins. -/
def greatestFrom (start : K) (values : List K) : K := values.foldl largerOrNaN start

end Scalar

end ActiveSet
