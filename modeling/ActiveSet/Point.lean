import ActiveSet.Fault
import ActiveSet.Vec

/-!
# Points

A vector for each of finitely many keys, used for points, directions and multipliers alike. A key
that one operand of a sum lacks counts as zero there; sums keep the keys of the first operand in
front.
-/

namespace ActiveSet

abbrev Point (K : Type) := Keyed (List K)

namespace Point

variable {K : Type} [Scalar K]

/-- The dimension of every key. -/
def dims (x : Point K) : Keyed Nat := x.map List.length

/-- The zero vector of the given dimension at every key. -/
def zero (dims : Keyed Nat) : Point K := dims.map Vec.zeros

/-- A negative number is no dimension. -/
def zero? (dims : Keyed Int) : Except (Fault K) (Point K) :=
  if dims.values.all (0 ≤ ·) then .ok (zero (dims.map Int.toNat)) else .error .badValue

def zeroLike (x : Point K) : Point K := zero (dims x)

/-- One step of a sum: adds `s · v` to the vector at `k`. -/
def addAt (s : K) (x : Point K) (k : Key) (v : List K) : Except (Fault K) (Point K) :=
  match x.lookup k with
  | none => .ok (x.insert k (Vec.scale s v))
  | some u =>
    if u.length = v.length then .ok (x.insert k (Vec.add u (Vec.scale s v)))
    else .error (.dimension (.summands k u.length v.length))

/-- The point `x + s · y`; keys that both hold need one dimension. -/
def addScaled (x : Point K) (s : K) (y : Point K) : Except (Fault K) (Point K) :=
  y.entries.foldlM (fun acc e => addAt s acc e.1 e.2) x

def add (x y : Point K) : Except (Fault K) (Point K) := addScaled x 1 y

def sub (x y : Point K) : Except (Fault K) (Point K) := addScaled x (-1) y

def scale (s : K) (x : Point K) : Point K := x.map (Vec.scale s)

def neg (x : Point K) : Point K := scale (-1) x

/-- The inner product over the keys that both hold. -/
def dot (x y : Point K) : Except (Fault K) K := do
  let terms ← x.entries.mapM fun e =>
    match y.lookup e.1 with
    | none => .ok 0
    | some v => if e.2.length = v.length then .ok (Vec.dot e.2 v) else .error .badValue
  return Vec.total terms

def norm (x : Point K) : K := Scalar.sqrt (Vec.total (x.values.map fun v => Vec.dot v v))

/-- Whether both hold the same keys, with entries that differ by at most `tol`. -/
def equals (x y : Point K) (tol : K) : Bool :=
  x.keys.all y.contains && y.keys.all x.contains &&
    x.entries.all fun e => match y.lookup e.1 with
      | none => false
      | some v => e.2.length == v.length && (Vec.sub e.2 v).all fun d => Scalar.abs d ≤ tol

/-- The vectors at the keys of `ordering`, one behind the other. -/
def stack (x : Point K) (ordering : List Key) : Except (Fault K) (List K) := do
  return (← ordering.mapM x.get).flatten

/-- Cuts a vector into pieces of the given dimensions. -/
def pieces : List (Key × Nat) → List K → List (Key × List K)
  | [], _ => []
  | (k, d) :: rest, v => (k, v.take d) :: pieces rest (v.drop d)

/-- The keys of an ordering with their dimensions. -/
def sized (ordering : List Key) (dims : Keyed Nat) : Except (Fault K) (List (Key × Nat)) :=
  ordering.mapM fun k => do return (k, ← dims.get k)

/-- The total dimension of an ordering. -/
def totalDim : List (Key × Nat) → Nat
  | [] => 0
  | e :: rest => e.2 + totalDim rest

/-- Reads a stacked vector back into one vector for each key of `ordering`. -/
def split (v : List K) (ordering : List Key) (dims : Keyed Nat) : Except (Fault K) (Point K) := do
  let sized ← sized ordering dims
  if totalDim sized = v.length then return Keyed.ofList (pieces sized v)
  else throw (.dimension (.stacked v.length (totalDim sized)))

end Point

end ActiveSet
