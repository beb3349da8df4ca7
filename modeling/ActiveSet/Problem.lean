import ActiveSet.Graph

/-!
# Programs over factor graphs

A cost under equalities and inequalities. The cost is a graph of least-squares factors, or linear
with one vector for each key. A constraint that comes without a key for its multiplier gets the
next key of its role, which is spent even when the constraint is then refused.
-/

namespace ActiveSet

/-- What a program minimises. -/
inductive Cost (K : Type)
  | quadratic (factors : Graph K)
  | linear (vectors : Keyed (List K))

/-- The two kinds of constraints, each with a source of keys of its own. -/
inductive ConstraintKind
  | equality
  | inequality
  deriving DecidableEq

structure Problem (K : Type) where
  cost : Cost K
  equalities : List (Equality K)
  inequalities : List (Inequality K)
  equalityKeys : KeySource
  inequalityKeys : KeySource

namespace Cost

variable {K : Type}

def keys : Cost K → List Key
  | .quadratic factors => factors.keys
  | .linear vectors => vectors.keys

def dims : Cost K → Except (Fault K) (Keyed Nat)
  | .quadratic factors => factors.dims
  | .linear vectors => .ok (vectors.map List.length)

/-- Number of factors of a quadratic cost, or of keys with a linear one. -/
def size : Cost K → Nat
  | .quadratic factors => factors.length
  | .linear vectors => vectors.size

variable [Scalar K]

/-- Adds a contribution at one key to a linear cost. -/
def accumulate (vectors : Keyed (List K)) (k : Key) (c : List K) :
    Except (Fault K) (Keyed (List K)) :=
  match vectors.lookup k with
  | none => .ok (vectors.insert k c)
  | some present =>
    if present.length = c.length then .ok (vectors.insert k (Vec.add present c))
    else .error (.dimension (.costEntries k present.length c.length))

/-- The value of a linear cost; keys that the point lacks count as zero. -/
def linearValue (vectors : Keyed (List K)) (x : Point K) : Except (Fault K) K :=
  Point.dot vectors x

def value (c : Cost K) (x : Point K) : Except (Fault K) K :=
  match c with
  | .quadratic factors => factors.error x
  | .linear vectors => linearValue vectors x

end Cost

namespace Problem

variable {K : Type}

/--
A program with the given constraints. Fresh keys start behind those that are in use, except for the
ones that `bare` says are bare pairs.
-/
def make (cost : Cost K) (equalities : List (Equality K)) (inequalities : List (Inequality K))
    (bare : ConstraintKind → Nat → Bool := fun _ _ => false) : Problem K where
  cost := cost
  equalities := equalities
  inequalities := inequalities
  equalityKeys := ({ role := "eq" } : KeySource).skip (equalities.map (·.dual)) (bare .equality)
  inequalityKeys :=
    ({ role := "ineq" } : KeySource).skip (inequalities.map (·.dual)) (bare .inequality)

/-- All keys: those of the cost, then those of the equalities and of the inequalities. -/
def keys (p : Problem K) : List Key :=
  firstAppearances
    (p.cost.keys ++ p.equalities.flatMap (·.keys) ++ p.inequalities.flatMap (·.keys))

/-- The dimensions that a list of inequalities agrees on. -/
def inequalityDims (fs : List (Inequality K)) : Except (Fault K) (Keyed Nat) :=
  Keyed.mergeDims .empty (fs.flatMap fun f => f.dims.entries)

def equalityDims (es : List (Equality K)) : Except (Fault K) (Keyed Nat) :=
  Keyed.mergeDims .empty (es.flatMap fun f => f.dims.entries)

/-- The dimension of every key; between cost and constraints the later word counts. -/
def dims (p : Problem K) : Except (Fault K) (Keyed Nat) := do
  let cost ← p.cost.dims
  let equalities ← equalityDims p.equalities
  let inequalities ← inequalityDims p.inequalities
  return (equalities.entries ++ inequalities.entries).foldl (fun m e => m.insert e.1 e.2) cost

/-- The key of a multiplier, a fresh one unless it is given, and the source after it. -/
def nameDual (source : KeySource) : Option Key → Key × KeySource
  | some k => (k, source)
  | none => source.fresh

variable [Scalar K]

/-- Appends an equality; the answer is its position. -/
def addEquality (p : Problem K) (terms : Keyed (Nested K)) (b : Nested K) (dual : Option Key) :
    Problem K × Except (Fault K) Nat :=
  let (dual, source) := nameDual p.equalityKeys dual
  match Equality.ofArrays terms b dual with
  | .error e => ({ p with equalityKeys := source }, .error e)
  | .ok f =>
    ({ p with equalities := p.equalities ++ [f], equalityKeys := source }, .ok p.equalities.length)

/-- Appends an inequality; the answer is its position. -/
def addInequality (p : Problem K) (terms : Keyed (Nested K)) (b : Nested K) (dual : Option Key) :
    Problem K × Except (Fault K) Nat :=
  let (dual, source) := nameDual p.inequalityKeys dual
  match Inequality.ofArrays terms b dual with
  | .error e => ({ p with inequalityKeys := source }, .error e)
  | .ok f =>
    ({ p with inequalities := p.inequalities ++ [f], inequalityKeys := source },
      .ok p.inequalities.length)

/-- Adds to a linear cost at one key; a quadratic cost takes no vectors. -/
def addLinearCost (p : Problem K) (k : Key) (c : Nested K) : Except (Fault K) (Problem K) := do
  let c := (← Tensor.ofNested c).data
  match p.cost with
  | .linear vectors => return { p with cost := .linear (← Cost.accumulate vectors k c) }
  | .quadratic _ => throw .badType

/-- One call that adds to a linear cost; a call that is refused leaves the program as it is. -/
def contribute (p : Problem K) (k : Key) (c : Nested K) : Problem K × Except (Fault K) Unit :=
  match p.addLinearCost k c with
  | .error e => (p, .error e)
  | .ok q => (q, .ok ())

/-- A linear program that starts with the given costs, taken one key after the other. -/
def makeLinear (costs : Keyed (Nested K)) (equalities : List (Equality K))
    (inequalities : List (Inequality K))
    (bare : ConstraintKind → Nat → Bool := fun _ _ => false) : Except (Fault K) (Problem K) :=
  costs.entries.foldlM (fun p e => p.addLinearCost e.1 e.2)
    (make (.linear .empty) equalities inequalities bare)

/-- Appends a factor to a quadratic cost; a linear cost takes no factors. -/
def addCostFactor (p : Problem K) (terms : Keyed (Nested K)) (b : Nested K) :
    Except (Fault K) (Problem K) := do
  let f ← Factor.ofArrays terms b
  match p.cost with
  | .quadratic factors => return { p with cost := .quadratic (factors ++ [f]) }
  | .linear _ => throw .badType

def objective (p : Problem K) (x : Point K) : Except (Fault K) K := p.cost.value x

/-- Whether a point violates no constraint by more than `tol`. -/
def isFeasible (p : Problem K) (x : Point K) (tol : K) : Except (Fault K) Bool := do
  if (← Equality.violation p.equalities x) ≤ tol then
    Inequality.allSatisfied p.inequalities x tol
  else return false

end Problem

end ActiveSet
