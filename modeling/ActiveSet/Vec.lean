import ActiveSet.Scalar

/-!
# Vectors

Lists of scalars with the operations of a vector space. The operations pair entries up to the
shorter length; callers check lengths first.
-/

namespace ActiveSet.Vec

variable {K : Type} [Scalar K]

def zeros (n : Nat) : List K := List.replicate n 0

def add (a b : List K) : List K := List.zipWith (· + ·) a b

def sub (a b : List K) : List K := List.zipWith (· - ·) a b

def scale (s : K) (a : List K) : List K := a.map (s * ·)

def neg (a : List K) : List K := a.map (- ·)

/-- The sum of the entries, from the first to the last. -/
def total (a : List K) : K := a.foldl (· + ·) 0

def dot (a b : List K) : K := total (List.zipWith (· * ·) a b)

/--
The inner product without the terms whose first entry is zero: a zero of a sparse matrix is not
stored and never meets an infinity.
-/
def dotStored (a b : List K) : K :=
  total (List.zipWith (fun x y => if x < 0 ∨ 0 < x then x * y else 0) a b)

def norm (a : List K) : K := Scalar.sqrt (dot a a)

/-- The vector of length `n` with a one at place `j`. -/
def unit (n j : Nat) : List K := (List.range n).map fun i => if i = j then 1 else 0

def hasNaN (a : List K) : Bool := a.any Scalar.isNaN

@[simp] theorem length_zeros (n : Nat) : (zeros n : List K).length = n := List.length_replicate

@[simp] theorem length_add (a b : List K) : (add a b).length = min a.length b.length :=
  List.length_zipWith

@[simp] theorem length_sub (a b : List K) : (sub a b).length = min a.length b.length :=
  List.length_zipWith

@[simp] theorem length_scale (s : K) (a : List K) : (scale s a).length = a.length :=
  List.length_map _

@[simp] theorem length_neg (a : List K) : (neg a).length = a.length := List.length_map _

@[simp] theorem length_unit (n j : Nat) : (unit n j : List K).length = n := by simp [unit]

end ActiveSet.Vec
